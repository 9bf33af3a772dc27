import Mathlib
import Tiny6410.Interrupt.Latch

/-! The LEDs of no-os/interrupt/irq_advanced, commanded by the main program and by the
key interrupt. All LEDs share GPKDAT, and a command of the main program is a load and a
store of it, between which a whole interrupt may run. -/
namespace Tiny6410.LedRace

open Memory (Word getLsbD_clear getLsbD_one)
open Latch (Effect)

/-! leds.c -/

/-- LEDn_ON or LEDn_OFF. LED n of the source is number n - 1 here. -/
structure Command where
  led : Fin 4
  on : Bool
  deriving DecidableEq

/-- BIT4 to BIT7. -/
def bit (led : Fin 4) : Word := (1 : Word) <<< (4 + led.val)

def Command.apply (c : Command) (gpkdat : Word) : Word :=
  if c.on then gpkdat &&& ~~~bit c.led else gpkdat ||| bit c.led

def LEDS_NUMBER : Nat := 4

def single (on : Bool) (number : Nat) : List Command :=
  if number ≤ LEDS_NUMBER then
    match number with
    | 1 => [⟨0, on⟩]
    | 2 => [⟨1, on⟩]
    | 3 => [⟨2, on⟩]
    | 4 => [⟨3, on⟩]
    | _ => []
  else []

def leds_ON (number : Nat) : List Command := single true number
def leds_OFF (number : Nat) : List Command := single false number

/-- The numbers of the for loops over the LEDs. -/
def numbers : List Nat := (List.range LEDS_NUMBER).map (· + 1)

def leds_ON_all : List Command := numbers.flatMap leds_ON
def leds_OFF_all : List Command := numbers.flatMap leds_OFF

def leds_flowing (times : Nat) : List Command :=
  (List.replicate times (numbers.flatMap fun i => leds_OFF_all ++ leds_ON i)).flatten

inductive Op where
  | leds_ON (number : Nat)
  | leds_OFF (number : Nat)
  | leds_ON_all
  | leds_OFF_all
  | leds_flowing (times : Nat)
  deriving DecidableEq

def Op.commands : Op → List Command
  | .leds_ON number => LedRace.leds_ON number
  | .leds_OFF number => LedRace.leds_OFF number
  | .leds_ON_all => LedRace.leds_ON_all
  | .leds_OFF_all => LedRace.leds_OFF_all
  | .leds_flowing times => LedRace.leds_flowing times

/-- main of main.c. -/
def mainOps : List Op := [.leds_OFF_all]

/-! key.c -/

def effectCommands : Effect → List Command
  | .leds_ON number => leds_ON number
  | .leds_OFF_all => leds_OFF_all
  | .UART0_SendString _ => []

/-- The commands of one interrupt, for the EINT0PEND that its tests read. -/
def key_irq_handler (eint0pend : Word) : List Command :=
  (List.range Latch.key_irq_handler.keys).flatMap fun k =>
    if eint0pend.getLsbD k then (Latch.keyBranch k).flatMap effectCommands else []

structure State where
  gpkdat : Word
  -- The command whose load is done and whose store is not, with the value loaded.
  pending : Option (Command × Word)
  rest : List Command
  -- Newest first.
  started : List Command

inductive Action where
  -- The next access of the main program.
  | access
  | interrupt (eint0pend : Word)

def applyAll (commands : List Command) (gpkdat : Word) : Word :=
  commands.foldl (fun w c => c.apply w) gpkdat

def access (s : State) : State :=
  match s.pending with
  | some (c, v) => { s with gpkdat := c.apply v, pending := none }
  | none =>
    match s.rest with
    | [] => s
    | c :: rest => { s with pending := some (c, s.gpkdat), rest := rest, started := c :: s.started }

def step (s : State) : Action → State
  | .access => access s
  | .interrupt eint0pend =>
    { s with
      gpkdat := applyAll (key_irq_handler eint0pend) s.gpkdat
      started := (key_irq_handler eint0pend).reverse ++ s.started }

def run (s : State) (actions : List Action) : State := actions.foldl step s

def initial (ops : List Op) (gpkdat : Word) : State := ⟨gpkdat, none, ops.flatMap Op.commands, []⟩

def Finished (s : State) : Prop := s.pending = none ∧ s.rest = []

instance (s : State) : Decidable (Finished s) := inferInstanceAs (Decidable (_ ∧ _))

/-! LEDs as commanded. -/

/-- The LED is lit by a low level. -/
def lit (gpkdat : Word) (n : Fin 4) : Bool := !gpkdat.getLsbD (4 + n)

/-- The newest command for an LED, newest first. -/
def last (n : Fin 4) (commands : List Command) : Option Bool :=
  (commands.find? fun c => c.led = n).map Command.on

/-- What the last command for an LED asks of it, and without one what it was. -/
def commanded (start : Word) (commands : List Command) (n : Fin 4) : Bool :=
  (last n commands).getD (lit start n)

/-- The commands that an action starts, in their order. -/
def starts (s : State) : Action → List Command
  | .access => if s.pending = none then s.rest.take 1 else []
  | .interrupt eint0pend => key_irq_handler eint0pend

def Starts (n : Fin 4) (s : State) (a : Action) : Prop := (last n (starts s a).reverse).isSome = true

def Later (n : Fin 4) (s : State) : List Action → Prop
  | [] => False
  | a :: rest => Starts n s a ∨ Later n (step s a) rest

/-- An interrupt between load and store commands the LED against the value that is to
be stored. -/
def Overtaken (n : Fin 4) (s : State) : Action → Prop
  | .access => False
  | .interrupt eint0pend => ∃ c v on, s.pending = some (c, v) ∧
      last n (key_irq_handler eint0pend).reverse = some on ∧ lit (c.apply v) n ≠ on

/-- Whenever the LED is overtaken, a later command for it starts. -/
def Redone (n : Fin 4) (s : State) : List Action → Prop
  | [] => True
  | a :: rest => (Overtaken n s a → Later n (step s a) rest) ∧ Redone n (step s a) rest

theorem bit_getLsbD (led : Fin 4) (n : Fin 4) :
    (bit led).getLsbD (4 + n) = decide (led = n) := by
  rw [bit, getLsbD_one (by omega), decide_eq_decide]
  omega

theorem lit_apply (c : Command) (w : Word) (n : Fin 4) :
    lit (c.apply w) n = if c.led = n then c.on else lit w n := by
  unfold lit Command.apply
  cases on : c.on with
  | true =>
    rw [if_pos rfl, getLsbD_clear, bit_getLsbD]
    by_cases here : c.led = n <;> simp [here]
  | false =>
    rw [if_neg Bool.false_ne_true, BitVec.getLsbD_or, bit_getLsbD]
    by_cases here : c.led = n <;> simp [here]

theorem last_cons (n : Fin 4) (c : Command) (commands : List Command) :
    last n (c :: commands) = if c.led = n then some c.on else last n commands := by
  unfold last
  rw [List.find?_cons]
  by_cases here : c.led = n
  · simp [here]
  · simp [here]

theorem last_append (n : Fin 4) (newer older : List Command) :
    last n (newer ++ older) = (last n newer).or (last n older) := by
  unfold last
  rw [List.find?_append]
  cases newer.find? fun c => c.led = n <;> rfl

theorem commanded_append (start : Word) (newer older : List Command) (n : Fin 4) :
    commanded start (newer ++ older) n = (last n newer).getD (commanded start older n) := by
  unfold commanded
  rw [last_append]
  cases last n newer <;> rfl

theorem lit_applyAll (commands : List Command) (w : Word) (n : Fin 4) :
    lit (applyAll commands w) n = (last n commands.reverse).getD (lit w n) := by
  induction commands generalizing w with
  | nil => rfl
  | cons c rest ih =>
    rw [applyAll, List.foldl_cons, ← applyAll, ih, List.reverse_cons, last_append, last_cons]
    rw [lit_apply]
    cases last n rest.reverse with
    | some on => rfl
    | none =>
      by_cases here : c.led = n
      · simp [here]
      · simp [here, last]

/-- The value GPKDAT will have once the pending store is done. -/
def State.outcome (s : State) : Word :=
  match s.pending with
  | some (c, v) => c.apply v
  | none => s.gpkdat

def Outlook (start : Word) (n : Fin 4) (s : State) : Prop :=
  lit s.outcome n = commanded start s.started n

variable {start : Word} {n : Fin 4} {s : State}

theorem outlook_access :
    Outlook start n (step s .access) ↔ Outlook start n s ∨ Starts n s .access := by
  obtain ⟨gpkdat, pending, rest, started⟩ := s
  cases pending with
  | some p =>
    have none : ¬ Starts n ⟨gpkdat, some p, rest, started⟩ .access := by
      simp [Starts, starts, last]
    rw [or_iff_left none]
    rfl
  | none =>
    cases rest with
    | nil =>
      have none : ¬ Starts n ⟨gpkdat, .none, [], started⟩ .access := by
        simp [Starts, starts, last]
      rw [or_iff_left none]
      rfl
    | cons c rest =>
      have wanted : commanded start (c :: started) n =
          if c.led = n then c.on else commanded start started n := by
        rw [commanded, last_cons]
        split <;> rfl
      change lit (c.apply gpkdat) n = commanded start (c :: started) n ↔
        lit gpkdat n = commanded start started n ∨ (last n [c]).isSome = true
      rw [lit_apply, wanted, last_cons]
      by_cases here : c.led = n
      · simp [here]
      · simp [here, last]

theorem outlook_interrupt (eint0pend : Word) :
    Outlook start n (step s (.interrupt eint0pend)) ↔
      (Outlook start n s ∨ Starts n s (.interrupt eint0pend)) ∧
        ¬ Overtaken n s (.interrupt eint0pend) := by
  unfold Outlook Starts Overtaken starts
  have log : (step s (.interrupt eint0pend)).started =
      (key_irq_handler eint0pend).reverse ++ s.started := rfl
  have same : (step s (.interrupt eint0pend)).pending = s.pending := rfl
  rw [log, commanded_append]
  cases pending : s.pending with
  | some p =>
    obtain ⟨c, v⟩ := p
    have before : s.outcome = c.apply v := by rw [State.outcome, pending]
    have after : (step s (.interrupt eint0pend)).outcome = c.apply v := by
      rw [State.outcome, same, pending]
    rw [before, after]
    cases given : last n (key_irq_handler eint0pend).reverse with
    | none => simp [given]
    | some on => cases on <;> simp [given]
  | none =>
    have before : s.outcome = s.gpkdat := by rw [State.outcome, pending]
    have after : (step s (.interrupt eint0pend)).outcome =
        applyAll (key_irq_handler eint0pend) s.gpkdat := by
      rw [State.outcome, same, pending]
      rfl
    rw [before, after, lit_applyAll]
    cases last n (key_irq_handler eint0pend).reverse with
    | none => simp
    | some on => simp

theorem outlook_step (a : Action) : Outlook start n (step s a) ↔
    (Outlook start n s ∨ Starts n s a) ∧ ¬ Overtaken n s a := by
  cases a with
  | access =>
    rw [outlook_access]
    exact ⟨fun h => ⟨h, fun no => no⟩, fun h => h.1⟩
  | interrupt eint0pend => exact outlook_interrupt eint0pend

theorem outlook_run (actions : List Action) : Outlook start n (run s actions) ↔
    (Outlook start n s ∨ Later n s actions) ∧ Redone n s actions := by
  induction actions generalizing s with
  | nil => simp [run, Later, Redone]
  | cons a rest ih =>
    rw [run, List.foldl_cons, ← run, ih, outlook_step, Later, Redone]
    tauto

theorem leds_as_commanded_iff (ops : List Op) (gpkdat : Word) (actions : List Action)
    (finished : Finished (run (initial ops gpkdat) actions)) :
    (∀ n, lit (run (initial ops gpkdat) actions).gpkdat n =
        commanded gpkdat (run (initial ops gpkdat) actions).started n) ↔
      ∀ n, Redone n (initial ops gpkdat) actions := by
  refine forall_congr' fun n => ?_
  have fresh : Outlook gpkdat n (initial ops gpkdat) := rfl
  have settled : (run (initial ops gpkdat) actions).outcome =
      (run (initial ops gpkdat) actions).gpkdat := by
    rw [State.outcome, finished.1]
  have turn : Outlook gpkdat n (run (initial ops gpkdat) actions) ↔
      (Outlook gpkdat n (initial ops gpkdat) ∨ Later n (initial ops gpkdat) actions) ∧
        Redone n (initial ops gpkdat) actions := outlook_run actions
  rw [Outlook, settled] at turn
  rw [turn, and_iff_right (Or.inl fresh)]

theorem redone_accesses (n : Fin 4) (s : State) (k : Nat) :
    Redone n s (List.replicate k .access) := by
  induction k generalizing s with
  | zero => trivial
  | succ k ih => exact ⟨fun no => no.elim, ih _⟩

/-- Key 1 before the first load of main, which then turns off all LEDs. -/
def early : List Action := .interrupt 1 :: List.replicate 8 .access

theorem leds_as_commanded_early : Finished (run (initial mainOps 0xf0) early) ∧
    ∀ n, lit (run (initial mainOps 0xf0) early).gpkdat n =
      commanded 0xf0 (run (initial mainOps 0xf0) early).started n := by
  have finished : Finished (run (initial mainOps 0xf0) early) := by decide
  refine ⟨finished, (leds_as_commanded_iff mainOps 0xf0 early finished).mpr fun n => ⟨?_, ?_⟩⟩
  · rintro ⟨c, v, on, window, -⟩
    exact absurd window.symm (Option.some_ne_none _)
  · exact redone_accesses n _ 8

/-- Key 1 between load and store of LED2_OFF. -/
theorem key1_undone : ¬ ∀ (ops : List Op) (gpkdat : Word) (actions : List Action),
    Finished (run (initial ops gpkdat) actions) →
      ∀ n, lit (run (initial ops gpkdat) actions).gpkdat n =
        commanded gpkdat (run (initial ops gpkdat) actions).started n := by
  intro all
  have final := all mainOps 0xf0 (List.replicate 3 .access ++ .interrupt 1 :: List.replicate 5 .access)
    (by decide) 0
  revert final
  decide

end Tiny6410.LedRace
