import Tiny6410.Lib.Memory

/-! The buttons driver, buttons_dev.c: the interrupt stores the state of a button and
raises a flag, and a read waits for the flag, lowers it and copies all states out. One
reader is modelled statement by statement; an interrupt may come between any two. -/
namespace Tiny6410.Buttons

open Memory (Word)

structure Device where
  buttons_values : Fin 4 → Char
  action_flag : Bool

def opened : Device := ⟨fun _ => 'r', false⟩

/-- The pin of a button, low when it is pressed; a number without a case is an exception. -/
def pinOf (number : Nat) (gpndat : Word) : Option Word :=
  match number with
  | 0 => some (gpndat &&& (1 : Word) <<< 0)
  | 1 => some (gpndat &&& (1 : Word) <<< 1)
  | 2 => some (gpndat &&& (1 : Word) <<< 2)
  | 3 => some (gpndat &&& (1 : Word) <<< 3)
  | _ => none

def buttons_interrupt (number : Nat) (gpndat : Word) (d : Device) : Device :=
  match pinOf number gpndat with
  | some down =>
    { buttons_values := fun i =>
        if i.val = number then (if down = 0 then 'p' else 'r') else d.buttons_values i
      action_flag := true }
  | none => d

theorem buttons_interrupt_raises (button : Fin 4) (gpndat : Word) (d : Device) :
    (buttons_interrupt button gpndat d).action_flag = true := by
  match button with
  | 0 | 1 | 2 | 3 => rfl

theorem buttons_interrupt_other {button n : Fin 4} (other : n ≠ button) (gpndat : Word) (d : Device) :
    (buttons_interrupt button gpndat d).buttons_values n = d.buttons_values n := by
  unfold buttons_interrupt
  split
  · exact if_neg fun same => other (Fin.ext same)
  · rfl

theorem buttons_interrupt_unknown {number : Nat} (unknown : ¬ number < 4) (gpndat : Word) (d : Device) :
    buttons_interrupt number gpndat d = d := by
  match number with
  | 0 | 1 | 2 | 3 => exact absurd (by decide) unknown
  | _ + 4 => rfl

/-- Where the reader stands: before the test of action_flag, the test of O_NONBLOCK, the
wait for the flag, its clear, byte i of the n that copy_to_user copies, the return. -/
inductive Point where
  | idle
  | test (nonblock : Bool) (count : Nat)
  | mode (nonblock : Bool) (count : Nat)
  | wait (count : Nat)
  | clear (count : Nat)
  | copy (n i : Nat)
  | ret (n : Nat)
  deriving DecidableEq

structure State where
  dev : Device
  point : Point
  buff : Nat → Char
  -- What the last complete copy left in the user buffer.
  delivered : Fin 4 → Char
  -- The results of the reads, newest first.
  returned : List Int

inductive Action where
  | irq (number : Nat) (gpndat : Word)
  | read (nonblock : Bool) (count : Nat)
  | step
  -- A signal for the reader, which ends a wait.
  | signal
  -- The next byte cannot be written to the user.
  | fault

def EAGAIN : Int := 11
def EFAULT : Int := 14

def copyFrom (n i : Nat) : Point := if i < n then .copy n i else .ret n

def valueAt (d : Device) (i : Nat) : Char := if h : i < 4 then d.buttons_values ⟨i, h⟩ else 'r'

theorem valueAt_val (d : Device) (j : Fin 4) : valueAt d j = d.buttons_values j := dif_pos j.isLt

/-- s3c6410_buttons_read, one statement. -/
def readStep (s : State) : State :=
  match s.point with
  | .idle => s
  | .test nonblock count =>
    { s with point := if s.dev.action_flag then .clear count else .mode nonblock count }
  | .mode nonblock count =>
    if nonblock then { s with point := .idle, returned := -EAGAIN :: s.returned }
    else { s with point := .wait count }
  -- The condition is tested again whenever the reader wakes up.
  | .wait count => if s.dev.action_flag then { s with point := .clear count } else s
  | .clear count =>
    { s with dev := { s.dev with action_flag := false }, point := copyFrom (min 4 count) 0 }
  | .copy n i =>
    let buff := fun j => if j = i then valueAt s.dev i else s.buff j
    { s with
      buff := buff
      point := copyFrom n (i + 1)
      delivered := if i + 1 = 4 then fun j => buff j else s.delivered }
  | .ret n => { s with point := .idle, returned := n :: s.returned }

def step (s : State) : Action → State
  | .irq number gpndat => { s with dev := buttons_interrupt number gpndat s.dev }
  | .read nonblock count => if s.point = .idle then { s with point := .test nonblock count } else s
  | .step => readStep s
  | .signal =>
    match s.point with
    -- The result -ERESTARTSYS is not looked at.
    | .wait count => { s with point := .clear count }
    | _ => s
  | .fault =>
    match s.point with
    | .copy _ _ => { s with point := .idle, returned := -EFAULT :: s.returned }
    | _ => s

def initial (buff : Nat → Char) : State := ⟨opened, .idle, buff, fun _ => 'r', []⟩

def run (s : State) (actions : List Action) : State := actions.foldl step s

/-- Reads of at least the whole table, into memory that can be written. -/
def Action.Whole : Action → Prop
  | .read _ count => 4 ≤ count
  | .fault => False
  | _ => True

def Point.copying : Point → Prop
  | .copy _ _ => True
  | _ => False

def Point.count : Point → Option Nat
  | .test _ count | .mode _ count | .wait count | .clear count => some count
  | _ => none

def Fresh (s : State) : Prop := s.dev.action_flag = true ∨ s.dev.buttons_values = s.delivered

/-- What holds at each statement of the reader. During the copy, the bytes copied so
far are current unless the flag is up again. -/
structure Inv (s : State) : Prop where
  fresh : ¬ s.point.copying → Fresh s
  whole : ∀ count ∈ s.point.count, 4 ≤ count
  bound : ∀ n i, s.point = .copy n i → n = 4 ∧ i < 4
  copied : ∀ n i, s.point = .copy n i →
    s.dev.action_flag = true ∨ ∀ j < i, s.buff j = valueAt s.dev j

theorem Inv.outside {s : State} (apart : ¬ s.point.copying) (fresh : Fresh s)
    (whole : ∀ count ∈ s.point.count, 4 ≤ count) : Inv s where
  fresh := fun _ => fresh
  whole := whole
  bound := fun n i here => absurd (show s.point.copying by rw [here]; trivial) apart
  copied := fun n i here => absurd (show s.point.copying by rw [here]; trivial) apart

theorem inv_initial (buff : Nat → Char) : Inv (initial buff) :=
  .outside id (.inr rfl) (by simp [initial, Point.count])

theorem buttons_interrupt_cases (number : Nat) (gpndat : Word) (d : Device) :
    buttons_interrupt number gpndat d = d ∨ (buttons_interrupt number gpndat d).action_flag = true := by
  unfold buttons_interrupt
  split
  · exact .inr rfl
  · exact .inl rfl

theorem inv_irq {s : State} (number : Nat) (gpndat : Word) (inv : Inv s) :
    Inv (step s (.irq number gpndat)) := by
  rcases buttons_interrupt_cases number gpndat s.dev with same | raised
  · rw [step, same]
    exact inv
  · exact ⟨fun _ => .inl raised, inv.whole, inv.bound, fun _ _ _ => .inl raised⟩

theorem copied_next {d : Device} {buff : Nat → Char} {i : Nat}
    (copied : d.action_flag = true ∨ ∀ j < i, buff j = valueAt d j) :
    d.action_flag = true ∨
      ∀ j < i + 1, (if j = i then valueAt d i else buff j) = valueAt d j := by
  refine copied.imp_right fun before j within => ?_
  split
  · rename_i here
    rw [here]
  · exact before j (by omega)

theorem inv_copy {dev : Device} {n i : Nat} {buff : Nat → Char} {delivered : Fin 4 → Char}
    {returned : List Int} (inv : Inv ⟨dev, .copy n i, buff, delivered, returned⟩) :
    Inv (readStep ⟨dev, .copy n i, buff, delivered, returned⟩) := by
  obtain ⟨rfl, inside⟩ := inv.bound n i rfl
  have next := copied_next (inv.copied 4 i rfl)
  simp only [readStep, copyFrom]
  by_cases last : i + 1 < 4
  · rw [if_pos last]
    refine ⟨fun apart => absurd trivial apart, by simp [Point.count], ?_, ?_⟩
    · rintro n j here
      cases here
      exact ⟨rfl, last⟩
    · rintro n j here
      cases here
      exact next
  · rw [if_neg last, if_pos (by omega)]
    refine .outside id (next.imp_right fun current => ?_) (by simp [Point.count])
    funext j
    exact ((current j (by omega)).trans (valueAt_val dev j)).symm

theorem inv_readStep {s : State} (inv : Inv s) : Inv (readStep s) := by
  obtain ⟨dev, point, buff, delivered, returned⟩ := s
  cases point with
  | idle => exact inv
  | test nonblock count =>
    have whole := inv.whole count rfl
    have fresh := inv.fresh id
    cases flag : dev.action_flag
    all_goals
      simp only [readStep, flag, if_true, Bool.false_eq_true, if_false]
      exact .outside id fresh (by simpa [Point.count] using whole)
  | mode nonblock count =>
    have whole := inv.whole count rfl
    have fresh := inv.fresh id
    cases nonblock
    · exact .outside id fresh (by simpa [readStep, Point.count] using whole)
    · exact .outside id fresh (by simp [readStep, Point.count])
  | wait count =>
    simp only [readStep]
    split
    · exact .outside id (inv.fresh id) (inv.whole)
    · exact inv
  | clear count =>
    have whole := inv.whole count rfl
    have four : min 4 count = 4 := by omega
    simp only [readStep, copyFrom, four]
    refine ⟨fun apart => absurd trivial apart, by simp [Point.count], ?_, ?_⟩
    · rintro n i here
      cases here
      exact ⟨rfl, by decide⟩
    · rintro n i here
      cases here
      exact .inr fun j impossible => absurd impossible (Nat.not_lt_zero j)
  | copy n i => exact inv_copy inv
  | ret n => exact .outside id (inv.fresh id) (by simp [readStep, Point.count])

theorem inv_step {s : State} {a : Action} (inv : Inv s) (whole : a.Whole) : Inv (step s a) := by
  cases a with
  | irq number gpndat => exact inv_irq number gpndat inv
  | read nonblock count =>
    simp only [step]
    split
    · rename_i idle
      refine .outside id (inv.fresh ?_) (by simpa [Point.count, Action.Whole] using whole)
      rw [idle]
      exact id
    · exact inv
  | step => exact inv_readStep inv
  | signal =>
    obtain ⟨dev, point, buff, delivered, returned⟩ := s
    cases point with
    | wait count => exact .outside id (inv.fresh id) inv.whole
    | _ => exact inv
  | fault => exact whole.elim

theorem inv_run {buff : Nat → Char} {actions : List Action} (whole : ∀ a ∈ actions, a.Whole) :
    Inv (run (initial buff) actions) :=
  List.foldlRecOn actions step (inv_initial buff) fun _ inv a mem => inv_step inv (whole a mem)

def wholeRead (nonblock : Bool) (count : Nat) : List Action :=
  .read nonblock count :: List.replicate 7 .step

theorem wholeRead_delivers {s : State} (nonblock : Bool) {count : Nat} (whole : 4 ≤ count)
    (idle : s.point = .idle) (flag : s.dev.action_flag = true) :
    (run s (wholeRead nonblock count)).delivered = s.dev.buttons_values ∧
      (run s (wholeRead nonblock count)).returned = 4 :: s.returned := by
  have four : min 4 count = 4 := by omega
  obtain ⟨dev, point, buff, delivered, returned⟩ := s
  cases idle
  simp only at flag
  simp [run, wholeRead, List.replicate, step, readStep, flag, four, copyFrom]
  funext j
  match j with
  | 0 | 1 | 2 | 3 => rfl

/-- No change of a button is lost to the reader: outside the copy, a state that differs
from what was last delivered has the flag up, and the next read delivers it. -/
theorem button_changes_delivered (buff : Nat → Char) (actions : List Action)
    (whole : ∀ a ∈ actions, a.Whole) :
    let s := run (initial buff) actions
    (¬ s.point.copying → s.dev.action_flag = true ∨ s.dev.buttons_values = s.delivered) ∧
    (s.point = .idle → s.dev.buttons_values ≠ s.delivered → ∀ nonblock, ∀ count ≥ 4,
      (run s (wholeRead nonblock count)).delivered = s.dev.buttons_values) := by
  intro s
  have fresh : ¬ s.point.copying → Fresh s := (inv_run whole).fresh
  refine ⟨fresh, fun idle changed nonblock count enough => ?_⟩
  have flag : s.dev.action_flag = true := by
    refine (fresh ?_).resolve_right changed
    rw [idle]
    exact id
  exact (wholeRead_delivers nonblock enough idle flag).1

/-- Button 1 is pressed while the reader sleeps, and released after its byte was copied. -/
def pressAndRelease : List Action :=
  [.read false 16, .step, .step, .irq 1 0, .step, .step, .step, .step, .irq 1 2, .step, .step, .step]

theorem button_changes_delivered_press_and_release :
    let s := run (initial fun _ => 'x') pressAndRelease
    s.delivered 1 = 'p' ∧ s.returned = [4] ∧ s.dev.buttons_values 1 = 'r' ∧
      (run s (wholeRead true 4)).delivered 1 = 'r' := by
  have next := (button_changes_delivered (fun _ => 'x') pressAndRelease
    (by simp [pressAndRelease, Action.Whole])).2 rfl
    (fun same => absurd (congrFun same 1) (by decide)) true 4 (Nat.le_refl 4)
  exact ⟨rfl, rfl, rfl, congrFun next 1⟩

end Tiny6410.Buttons
