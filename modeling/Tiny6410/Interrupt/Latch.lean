import Tiny6410.Lib.Memory

/-! The key interrupt between its register accesses. EINT0PEND latches an edge per
key; the handler tests one key after the other, serves those it finds set, and then
clears all keys with one store. An edge may come between any two accesses. -/
namespace Tiny6410.Latch

open Memory (Word)

inductive Effect where
  | leds_ON (number : Nat)
  | leds_OFF_all
  | UART0_SendString (text : String)
  deriving DecidableEq

/-- A polling handler: the number of keys it tests, the mask it clears, and the
branch of a key for the GPNDAT it may read. -/
structure Handler where
  keys : Nat
  mask : Word
  branch : Nat → Word → List Effect
  covers : ∀ k, mask.getLsbD k = decide (k < keys)

theorem low_mask {mask : Word} {keys : Nat} (small : keys ≤ 32)
    (bits : ∀ k : Fin 32, mask.getLsbD k = decide (k.val < keys)) (k : Nat) :
    mask.getLsbD k = decide (k < keys) :=
  Memory.getLsbD_pattern bits (fun _ below => Nat.lt_of_lt_of_le below small) k

def keyBranch : Nat → List Effect
  | 0 => [.leds_ON 1, .UART0_SendString "C irq - key 1\n\r"]
  | 1 => [.leds_ON 2, .UART0_SendString "C irq - key 2\n\r"]
  | 2 => [.leds_ON 3, .UART0_SendString "C irq - key 3\n\r"]
  | 3 => [.leds_OFF_all, .UART0_SendString "C irq - key 4\n\r"]
  | _ => []

/-- key.c of no-os/interrupt/irq_advanced and of no-os/timer. -/
def key_irq_handler : Handler where
  keys := 4
  mask := 0xf
  branch := fun k _ => keyBranch k
  covers := low_mask (by decide) (by decide)

/-- irq.c of workspace/interrupt/NVI. -/
def do_irq : Handler where
  keys := 6
  mask := 0x3f
  branch := fun k gpndat =>
    [.UART0_SendString (if gpndat.getLsbD k then "key release\n\r" else "key press\n\r")]
  covers := low_mask (by decide) (by decide)

/-- Where the handler stands: before the named access. -/
inductive Point where
  | outside
  | test (k : Nat)
  | branch (k : Nat)
  | serving (k : Nat) (rest : List Effect)
  | clear
  | acknowledge

inductive Event where
  | edge (k : Nat)
  | branch (k : Nat)
  | cleared (bits : Word)

structure State where
  pend : Word
  point : Point
  -- Newest first.
  done : List Effect
  log : List Event

inductive Action where
  | edge (k : Nat)
  -- The next access of the processor, with the GPNDAT it would read.
  | access (gpndat : Word)

def Handler.next (h : Handler) (k : Nat) : Point := if k + 1 < h.keys then .test (k + 1) else .clear

def access (h : Handler) (gpndat : Word) (s : State) : State :=
  match s.point with
  | .outside => if s.pend &&& h.mask = 0 then s else { s with point := .test 0 }
  | .test k =>
    if s.pend.getLsbD k then { s with point := .branch k }
    else { s with point := h.next k }
  | .branch k => { s with point := .serving k (h.branch k gpndat), log := .branch k :: s.log }
  | .serving k [] => { s with point := h.next k }
  | .serving k (e :: rest) => { s with point := .serving k rest, done := e :: s.done }
  | .clear =>
    { s with
      pend := s.pend &&& ~~~h.mask
      point := .acknowledge
      log := .cleared (s.pend &&& h.mask) :: s.log }
  | .acknowledge => { s with point := .outside }

def step (h : Handler) (s : State) : Action → State
  | .edge k => { s with pend := s.pend ||| (1 : Word) <<< k, log := .edge k :: s.log }
  | .access gpndat => access h gpndat s

def initial (pend : Word) : State := ⟨pend, .outside, [], []⟩

/-- The branch of key k has run since its bit was last set. -/
def Serviced (k : Nat) : List Event → Prop
  | [] => False
  | .edge j :: rest => j ≠ k ∧ Serviced k rest
  | .branch j :: rest => j = k ∨ Serviced k rest
  | .cleared bits :: rest => bits.getLsbD k = false ∧ Serviced k rest

def AllServiced : List Event → Prop
  | [] => True
  | .cleared bits :: rest => (∀ k, bits.getLsbD k = true → Serviced k rest) ∧ AllServiced rest
  | _ :: rest => AllServiced rest

/-- The branch of key k will not start again before the clear. -/
def Point.passed (k : Nat) : Point → Prop
  | .outside | .acknowledge => False
  | .test j | .branch j => k < j
  | .serving j _ => k ≤ j
  | .clear => True

instance (k : Nat) : ∀ p : Point, Decidable (p.passed k)
  | .outside | .acknowledge => isFalse not_false
  | .test j | .branch j => inferInstanceAs (Decidable (k < j))
  | .serving j _ => inferInstanceAs (Decidable (k ≤ j))
  | .clear => isTrue trivial

/-- The edge comes when its key can still be noticed before the clear: in front of its test,
or, where its bit was set already, in front of its branch. -/
def Timely (h : Handler) (s : State) : Action → Prop
  | .edge k => ¬ (k < h.keys ∧ s.point.passed k)
  | .access _ => True

instance (h : Handler) (s : State) : ∀ a, Decidable (Timely h s a)
  | .edge k => inferInstanceAs (Decidable (¬ (k < h.keys ∧ s.point.passed k)))
  | .access _ => isTrue trivial

def AllTimely (h : Handler) (s : State) : List Action → Prop
  | [] => True
  | a :: rest => Timely h s a ∧ AllTimely h (step h s a) rest

instance decidableAllTimely (h : Handler) : ∀ s actions, Decidable (AllTimely h s actions)
  | _, [] => isTrue trivial
  | s, a :: rest =>
    have := decidableAllTimely h (step h s a) rest
    inferInstanceAs (Decidable (_ ∧ _))

def run (h : Handler) (s : State) (actions : List Action) : State := actions.foldl (step h) s

theorem edge_pend (pend : Word) {j k : Nat} (other : j ≠ k) :
    (pend ||| (1 : Word) <<< j).getLsbD k = pend.getLsbD k := by
  have bit : ((1 : Word) <<< j).getLsbD k = false := by
    change (BitVec.twoPow 32 j).getLsbD k = false
    simp [BitVec.getLsbD_twoPow, other]
  rw [BitVec.getLsbD_or, bit, Bool.or_false]

theorem passed_next {h : Handler} {j k : Nat} (inside : j < h.keys) : (h.next k).passed j ↔ j ≤ k := by
  unfold Handler.next
  split
  · simp only [Point.passed]
    omega
  · simp only [Point.passed, true_iff]
    omega

theorem cleared_bit (h : Handler) (pend : Word) (k : Nat) :
    (pend &&& h.mask).getLsbD k = true ↔ pend.getLsbD k = true ∧ k < h.keys := by
  rw [BitVec.getLsbD_and, h.covers]
  simp

/-- Every key that is passed and still pending has been served. -/
structure Inv (h : Handler) (s : State) : Prop where
  served : ∀ k < h.keys, s.point.passed k → s.pend.getLsbD k = true → Serviced k s.log
  good : AllServiced s.log

theorem inv_edge {h : Handler} {s : State} {k : Nat} (inv : Inv h s) (timely : Timely h s (.edge k)) :
    Inv h (step h s (.edge k)) := by
  refine ⟨?_, inv.good⟩
  intro j inside passed pending
  have other : k ≠ j := by
    rintro rfl
    exact timely ⟨inside, passed⟩
  rw [step, edge_pend _ other] at pending
  exact ⟨other, inv.served j inside passed pending⟩

theorem inv_access {h : Handler} {s : State} (gpndat : Word) (inv : Inv h s) :
    Inv h (access h gpndat s) := by
  obtain ⟨served, good⟩ := inv
  obtain ⟨pend, point, done, log⟩ := s
  cases point with
  | outside =>
    simp only [access]
    split
    · exact ⟨served, good⟩
    · exact ⟨fun k _ passed => absurd passed (Nat.not_lt_zero k), good⟩
  | test k =>
    simp only [access]
    split
    · exact ⟨served, good⟩
    · rename_i quiet
      refine ⟨fun j inside passed pending => ?_, good⟩
      rcases Nat.lt_or_eq_of_le ((passed_next inside).mp passed) with before | here
      · exact served j inside before pending
      · exact absurd (here ▸ pending) quiet
  | branch k =>
    refine ⟨fun j inside passed pending => ?_, good⟩
    rcases Nat.lt_or_eq_of_le passed with before | here
    · exact .inr (served j inside before pending)
    · exact .inl here.symm
  | serving k rest =>
    cases rest with
    | nil => exact ⟨fun j inside passed => served j inside ((passed_next inside).mp passed), good⟩
    | cons e rest => exact ⟨served, good⟩
  | clear =>
    refine ⟨fun k _ passed => passed.elim, fun k bit => ?_, good⟩
    obtain ⟨pending, inside⟩ := (cleared_bit h pend k).mp bit
    exact served k inside trivial pending
  | acknowledge => exact ⟨fun k _ passed => passed.elim, good⟩

theorem inv_run {h : Handler} {s : State} {actions : List Action} (inv : Inv h s)
    (timely : AllTimely h s actions) : Inv h (run h s actions) := by
  induction actions generalizing s with
  | nil => exact inv
  | cons a rest ih =>
    refine ih ?_ timely.2
    cases a with
    | edge k => exact inv_edge inv timely.1
    | access gpndat => exact inv_access gpndat inv

def Late (h : Handler) (s : State) : Prop :=
  ∃ k < h.keys, s.point.passed k ∧ s.pend.getLsbD k = true ∧ ¬ Serviced k s.log

def Lost (h : Handler) (s : State) : Prop := Late h s ∨ ¬ AllServiced s.log

theorem lost_edge {h : Handler} {s : State} (k : Nat) (lost : Lost h s) :
    Lost h (step h s (.edge k)) := by
  rcases lost with ⟨j, inside, passed, pending, unserved⟩ | missed
  · refine .inl ⟨j, inside, passed, ?_, fun serviced => unserved serviced.2⟩
    rw [step, BitVec.getLsbD_or, pending, Bool.true_or]
  · exact .inr missed

theorem lost_access {h : Handler} {s : State} (gpndat : Word) (lost : Lost h s) :
    Lost h (access h gpndat s) := by
  obtain ⟨pend, point, done, log⟩ := s
  rcases lost with ⟨j, inside, passed, pending, unserved⟩ | missed
  · cases point with
    | outside | acknowledge => exact passed.elim
    | test k =>
      have before : j < k := passed
      simp only [access]
      split
      · exact .inl ⟨j, inside, before, pending, unserved⟩
      · exact .inl ⟨j, inside, (passed_next inside).mpr (Nat.le_of_lt before), pending, unserved⟩
    | branch k =>
      have before : j < k := passed
      refine .inl ⟨j, inside, Nat.le_of_lt before, pending, ?_⟩
      rintro (same | serviced)
      · exact absurd same (Nat.ne_of_gt before)
      · exact unserved serviced
    | serving k rest =>
      cases rest with
      | nil => exact .inl ⟨j, inside, (passed_next inside).mpr passed, pending, unserved⟩
      | cons e rest => exact .inl ⟨j, inside, passed, pending, unserved⟩
    | clear =>
      exact .inr fun good => unserved (good.1 j ((cleared_bit h pend j).mpr ⟨pending, inside⟩))
  · right
    cases point with
    | clear => exact fun good => missed good.2
    | outside | test k =>
      simp only [access]
      split <;> exact missed
    | branch k | acknowledge => exact missed
    | serving k rest => cases rest <;> exact missed

theorem lost_run {h : Handler} {s : State} (actions : List Action) (lost : Lost h s) :
    Lost h (run h s actions) := by
  induction actions generalizing s with
  | nil => exact lost
  | cons a rest ih =>
    cases a with
    | edge k => exact ih (lost_edge k lost)
    | access gpndat => exact ih (lost_access gpndat lost)

theorem Handler.keys_le (h : Handler) : h.keys ≤ 32 := by
  by_contra large
  have bit := h.covers 32
  rw [BitVec.getLsbD_of_ge _ _ (Nat.le_refl 32)] at bit
  simp only [Bool.false_eq, decide_eq_false_iff_not] at bit
  omega

theorem late_of_untimely {h : Handler} {s : State} {k : Nat}
    (untimely : k < h.keys ∧ s.point.passed k) : Lost h (step h s (.edge k)) := by
  have small := h.keys_le
  -- The bit is set now, and the branch of this key lies behind.
  refine .inl ⟨k, untimely.1, untimely.2, ?_, fun serviced => serviced.1 rfl⟩
  have bit : ((1 : Word) <<< k).getLsbD k = true := by
    change (BitVec.twoPow 32 k).getLsbD k = true
    rw [BitVec.getLsbD_twoPow]
    simp only [decide_true, Bool.and_true, decide_eq_true_eq]
    omega
  rw [step, BitVec.getLsbD_or, bit, Bool.or_true]

theorem lost_of_untimely {h : Handler} {s : State} {actions : List Action}
    (untimely : ¬ AllTimely h s actions) : Lost h (run h s actions) := by
  induction actions generalizing s with
  | nil => exact absurd trivial untimely
  | cons a rest ih =>
    by_cases first : Timely h s a
    · exact ih fun later => untimely ⟨first, later⟩
    · cases a with
      | edge k => exact lost_run rest (late_of_untimely (not_not.mp first))
      | access gpndat => exact absurd trivial first

/-- Every event is serviced in every run whose edges all come before the branch of their key
starts, or is passed over, or after the clear. One edge in between is enough to be lost: the
clear of that pass takes it, at the latest when the handler has returned. -/
theorem serviced_of_timely_edges (h : Handler) (pend : Word) (actions : List Action) :
    (AllTimely h (initial pend) actions → AllServiced (run h (initial pend) actions).log) ∧
    ((run h (initial pend) actions).point = .outside →
      AllServiced (run h (initial pend) actions).log → AllTimely h (initial pend) actions) := by
  constructor
  · intro timely
    have start : Inv h (initial pend) := ⟨fun _ _ passed => passed.elim, trivial⟩
    exact (inv_run start timely).good
  · intro returned serviced
    by_contra untimely
    rcases lost_of_untimely untimely with ⟨k, -, passed, -⟩ | missed
    · rw [returned] at passed
      exact passed
    · exact missed serviced

/-- Key 1 bounces between its test and its branch, and key 2 is pressed in that branch. -/
def timelyPresses : List Action :=
  [.edge 0, .access 0, .access 0, .edge 0, .access 0, .access 0, .edge 1, .access 0, .access 0, .access 0, .access 0,
    .access 0, .access 0, .access 0, .access 0, .access 0, .access 0, .access 0]

theorem timely_presses_serviced :
    (run key_irq_handler (initial 0) timelyPresses).log =
      [.cleared 0x3, .branch 1, .edge 1, .branch 0, .edge 0, .edge 0] ∧
    AllServiced (run key_irq_handler (initial 0) timelyPresses).log :=
  ⟨rfl, (serviced_of_timely_edges key_irq_handler 0 timelyPresses).1 (by decide)⟩

/-- Key 2 is pressed; while its branch sends its string, key 1 is pressed too. -/
def lostPress : List Action :=
  [.edge 1, .access 0, .access 0, .access 0, .access 0, .access 0, .edge 0, .access 0, .access 0,
    .access 0, .access 0, .access 0, .access 0]

theorem lost_press_cleared :
    (run key_irq_handler (initial 0) lostPress).pend = 0 ∧
    (run key_irq_handler (initial 0) lostPress).done =
      [.UART0_SendString "C irq - key 2\n\r", .leds_ON 2] ∧
    ¬ AllServiced (run key_irq_handler (initial 0) lostPress).log := by
  refine ⟨rfl, rfl, ?_⟩
  intro good
  have serviced : Serviced 0 [.edge 0, .branch 1, .edge 1] := good.1 0 (by decide)
  exact serviced.1 rfl

end Tiny6410.Latch
