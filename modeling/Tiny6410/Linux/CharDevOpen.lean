import Mathlib.Logic.Function.Basic
import Tiny6410.Lib.Simulation

/-! Opening char_dev.c. chr_open tests open_use and then sets it, in two steps between
which other processes may run; chr_close clears it. -/
namespace Tiny6410.CharDevOpen

open Simulation

variable {P : Type} [DecidableEq P]

/-- Where a process stands in chr_open. -/
inductive Point where
  | outside
  -- open_use was not 1 when it was tested.
  | passed
  deriving DecidableEq

structure State (P : Type) where
  open_use : Int
  point : P → Point
  -- The files of each process, opened and not closed.
  files : P → Nat

inductive Action (P : Type) where
  | test (p : P)
  | assign (p : P)
  | close (p : P)

/-- One atomic step, with what chr_open or chr_close returns if it ends there. -/
def step (s : State P) : Action P → State P × Option Int
  | .test p =>
    if s.point p = .outside then
      if s.open_use = 1 then (s, some (-1))
      else ({ s with point := Function.update s.point p .passed }, none)
    else (s, none)
  | .assign p =>
    if s.point p = .passed then
      ({ open_use := 1
         point := Function.update s.point p .outside
         files := Function.update s.files p (s.files p + 1) }, some 0)
    else (s, none)
  | .close p =>
    if 0 < s.files p then
      ({ s with open_use := 0, files := Function.update s.files p (s.files p - 1) }, some 0)
    else (s, none)

def next (s : State P) (a : Action P) : State P := (step s a).1

def run (s : State P) (actions : List (Action P)) : State P := actions.foldl next s

def loaded : State P := ⟨0, fun _ => .outside, fun _ => 0⟩

def OneHolder (s : State P) : Prop := ∀ p q, 0 < s.files p → 0 < s.files q → p = q

/-- No test passes while another process stands between its test and its assignment. -/
def Alone (s : State P) : Action P → Prop
  | .test p => s.open_use ≠ 1 → ∀ q, s.point q = .passed → q = p
  | _ => True

def Separate : State P → List (Action P) → Prop := Along next Alone

/-- At some point of the run two opens are under way that would both end with the device, if
their assignments came next. The run itself may go on in another way. -/
def Threatened (actions : List (Action P)) : Prop :=
  ∃ k p q, ¬ OneHolder (run loaded (actions.take k ++ [.assign p, .assign q]))

/-- What the device is for: at most one process in it, on its way or with its one file. -/
inductive Exclusive : State P → Prop
  | free : Exclusive loaded
  | opening (p : P) : Exclusive ⟨0, Function.update (fun _ => .outside) p .passed, fun _ => 0⟩
  | held (p : P) : Exclusive ⟨1, fun _ => .outside, Function.update (fun _ => 0) p 1⟩

theorem Exclusive.oneHolder {s : State P} (h : Exclusive s) : OneHolder s := by
  intro p q first second
  cases h with
  | free => exact absurd first (Nat.lt_irrefl 0)
  | opening r => exact absurd first (Nat.lt_irrefl 0)
  | held r =>
    have only : ∀ x, 0 < Function.update (fun _ => 0) r 1 x → x = r := by
      intro x positive
      by_contra other
      rw [Function.update_of_ne other] at positive
      exact absurd positive (Nat.lt_irrefl 0)
    rw [only p first, only q second]

theorem Exclusive.test {s : State P} {p : P} (h : Exclusive s) (alone : Alone s (.test p)) :
    Exclusive (step s (.test p)).1 := by
  cases h with
  | free => exact .opening p
  | opening q =>
    have same : q = p := alone Int.zero_ne_one q (by simp)
    subst same
    simp only [step, Function.update_self, reduceCtorEq, if_false]
    exact .opening q
  | held q => exact .held q

theorem Exclusive.assign {s : State P} (h : Exclusive s) (p : P) : Exclusive (step s (.assign p)).1 := by
  cases h with
  | free => exact .free
  | opening q =>
    simp only [step]
    by_cases same : p = q
    · subst same
      rw [if_pos (Function.update_self p _ _), Function.update_idem, Function.update_eq_self]
      exact .held p
    · rw [if_neg (by simp [Function.update_of_ne same])]
      exact .opening q
  | held q => exact .held q

theorem Exclusive.close {s : State P} (h : Exclusive s) (p : P) : Exclusive (step s (.close p)).1 := by
  cases h with
  | free => exact .free
  | opening q => exact .opening q
  | held q =>
    simp only [step]
    by_cases same : p = q
    · subst same
      rw [Function.update_self, if_pos Nat.one_pos, Function.update_idem, Function.update_eq_self]
      exact .free
    · rw [if_neg (by simp [Function.update_of_ne same])]
      exact .held q

theorem Exclusive.next {s : State P} {a : Action P} (h : Exclusive s) (alone : Alone s a) :
    Exclusive (next s a) := by
  cases a with
  | test p => exact h.test alone
  | assign p => exact h.assign p
  | close p => exact h.close p

/-- Two processes between test and assignment both get the device. -/
theorem both_assign {s : State P} {p q : P} (apart : p ≠ q) (first : s.point p = .passed)
    (second : s.point q = .passed) : ¬ OneHolder (run s [.assign p, .assign q]) := by
  intro one
  have still : Function.update s.point p .outside q = .passed := by
    rw [Function.update_of_ne apart.symm, second]
  refine apart (one p q ?_ ?_)
  all_goals simp [run, next, step, first, still, Function.update_of_ne apart]

/-- A test that does not pass alone leaves two processes behind it. -/
theorem overlap_of_not_alone {s : State P} {a : Action P} (overlap : ¬ Alone s a) :
    ∃ p q, p ≠ q ∧ (step s a).1.point p = .passed ∧ (step s a).1.point q = .passed := by
  cases a with
  | test p =>
    simp only [Alone, not_forall] at overlap
    obtain ⟨unused, q, passed, other⟩ := overlap
    refine ⟨q, p, other, ?_⟩
    cases here : s.point p with
    | outside => simp [step, here, unused, Function.update_of_ne other, passed]
    | passed => simp [step, here, passed]
  | assign | close => exact absurd trivial overlap

theorem overlap_of_not_separate {s : State P} {actions : List (Action P)}
    (overlap : ¬ Separate s actions) :
    ∃ k p q, p ≠ q ∧ (run s (actions.take k)).point p = .passed ∧
      (run s (actions.take k)).point q = .passed := by
  obtain ⟨k, a, reached, together⟩ := exists_of_not_along overlap
  obtain ⟨p, q, found⟩ := overlap_of_not_alone together
  refine ⟨k + 1, p, q, ?_⟩
  rw [run, reached]
  exact found

theorem refused_unchanged {s : State P} {p : P} (refused : (step s (.test p)).2 = some (-1)) :
    (step s (.test p)).1 = s := by
  simp only [step] at refused ⊢
  split
  · rename_i outside
    rw [if_pos outside] at refused
    split
    · rfl
    · rename_i unused
      rw [if_neg unused] at refused
      cases refused
  · rfl

/-- If no test passes while another open stands before its assignment, one process at most
holds the device, all the time. Any other run is threatened. A refused open changes nothing. -/
theorem one_holder_of_separate (actions : List (Action P)) :
    (Separate loaded actions → ∀ k, OneHolder (run loaded (actions.take k))) ∧
    (¬ Separate loaded actions → Threatened actions) ∧
    ∀ p, (step (run loaded actions) (.test p)).2 = some (-1) →
      (step (run loaded actions) (.test p)).1 = run loaded actions := by
  refine ⟨fun separate k => ?_, fun overlap => ?_, fun p => refused_unchanged⟩
  · have exclusive : Exclusive (run loaded (actions.take k)) :=
      (Along.take separate k).keeps .free fun _ _ h alone => h.next alone
    exact exclusive.oneHolder
  · obtain ⟨k, p, q, apart, first, second⟩ := overlap_of_not_separate overlap
    refine ⟨k, p, q, ?_⟩
    rw [run, List.foldl_append]
    exact both_assign apart first second

/-- Both test before either assigns; and then the close of one lets a third one in. -/
theorem two_opens_overlap :
    ¬ OneHolder (run (loaded : State Nat) [.test 1, .test 2, .assign 1, .assign 2]) ∧
    ¬ OneHolder (run (loaded : State Nat)
      [.test 1, .test 2, .assign 1, .assign 2, .close 1, .test 3, .assign 3]) := by
  refine ⟨fun one => ?_, fun one => ?_⟩
  · exact absurd (one 1 2 (by decide) (by decide)) (by decide)
  · exact absurd (one 2 3 (by decide) (by decide)) (by decide)

end Tiny6410.CharDevOpen
