import Mathlib.Data.List.Basic

/-! Machines that answer each call, and the comparison of two of them by a relation
between their states. Runs in which each action meets a condition on the state it finds. -/
namespace Simulation

variable {S T A R : Type}

/-- Every action of a run meets P in the state that it finds. -/
def Along (step : S → A → S) (P : S → A → Prop) : S → List A → Prop
  | _, [] => True
  | s, a :: rest => P s a ∧ Along step P (step s a) rest

section Along

variable {step : S → A → S} {P Q : S → A → Prop} {s : S} {actions : List A}

theorem along_congr (same : ∀ s a, P s a ↔ Q s a) (s : S) (actions : List A) :
    Along step P s actions ↔ Along step Q s actions := by
  induction actions generalizing s with
  | nil => exact Iff.rfl
  | cons a rest ih => rw [Along, Along, same, ih]

theorem Along.take (h : Along step P s actions) (k : Nat) : Along step P s (actions.take k) := by
  induction actions generalizing s k with
  | nil => simpa using h
  | cons a rest ih =>
    cases k with
    | zero => trivial
    | succ k => exact ⟨h.1, ih h.2 k⟩

theorem Along.and {Q : A → Prop} (h : Along step P s actions) (each : ∀ a ∈ actions, Q a) :
    Along step (fun s a => P s a ∧ Q a) s actions := by
  induction actions generalizing s with
  | nil => trivial
  | cons a rest ih =>
    obtain ⟨first, others⟩ := List.forall_mem_cons.mp each
    exact ⟨⟨h.1, first⟩, ih h.2 others⟩

/-- What each action that meets P keeps holds at the end of the run. -/
theorem Along.keeps {I : S → Prop} (h : Along step P s actions) (start : I s)
    (keeps : ∀ s a, I s → P s a → I (step s a)) : I (actions.foldl step s) := by
  induction actions generalizing s with
  | nil => exact start
  | cons a rest ih => exact ih h.2 (keeps s a start h.1)

theorem exists_of_not_along (h : ¬ Along step P s actions) :
    ∃ k a, (actions.take (k + 1)).foldl step s = step ((actions.take k).foldl step s) a ∧
      ¬ P ((actions.take k).foldl step s) a := by
  induction actions generalizing s with
  | nil => exact absurd trivial h
  | cons a rest ih =>
    by_cases first : P s a
    · obtain ⟨k, b, next, fails⟩ := ih fun later => h ⟨first, later⟩
      exact ⟨k + 1, b, next, fails⟩
    · exact ⟨0, a, rfl, first⟩

end Along

def responses (step : S → A → S × R) (s : S) : List A → List R
  | [] => []
  | a :: rest => (step s a).2 :: responses step (step s a).1 rest

def after (step : S → A → S × R) (s : S) : List A → S
  | [] => s
  | a :: rest => after step (step s a).1 rest

def Simulates (step : S → A → S × R) (step' : T → A → T × R) (rel : S → T → Prop)
    (ok : A → Prop) : Prop :=
  ∀ s t a, rel s t → ok a → (step s a).2 = (step' t a).2 ∧ rel (step s a).1 (step' t a).1

theorem Simulates.run {step : S → A → S × R} {step' : T → A → T × R} {rel : S → T → Prop}
    (simulates : Simulates step step' rel fun _ => True) {s : S} {t : T} (calls : List A)
    (related : rel s t) :
    responses step s calls = responses step' t calls ∧
      rel (after step s calls) (after step' t calls) := by
  induction calls generalizing s t with
  | nil => exact ⟨rfl, related⟩
  | cons a rest ih =>
    obtain ⟨same, next⟩ := simulates s t a related trivial
    obtain ⟨answers, final⟩ := ih next
    rw [responses, responses, same, answers]
    exact ⟨rfl, final⟩

/-- If every other call shows at once, the machines answer alike exactly on the runs
that have no other call. -/
theorem responses_eq_iff {step : S → A → S × R} {step' : T → A → T × R} {rel : S → T → Prop}
    {ok : A → Prop} (simulates : Simulates step step' rel ok)
    (shows : ∀ s t a, rel s t → ¬ ok a → (step s a).2 ≠ (step' t a).2)
    {s : S} {t : T} (related : rel s t) (calls : List A) :
    responses step s calls = responses step' t calls ↔ ∀ a ∈ calls, ok a := by
  induction calls generalizing s t with
  | nil => simp [responses]
  | cons a rest ih =>
    by_cases good : ok a
    · obtain ⟨same, next⟩ := simulates s t a related good
      rw [responses, responses, List.cons_eq_cons, ih next, List.forall_mem_cons]
      exact ⟨fun h => ⟨good, h.2⟩, fun h => ⟨same, h.2⟩⟩
    · constructor
      · intro equal
        rw [responses, responses, List.cons_eq_cons] at equal
        exact absurd equal.1 (shows s t a related good)
      · intro all
        exact absurd (all a List.mem_cons_self) good

end Simulation
