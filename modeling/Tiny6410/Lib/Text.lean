import Mathlib.Data.List.TakeDrop
import Mathlib.Data.List.TakeWhile

/-! Text in a stream and in a buffer: a stream cut into pieces that end with a
separator, and a string in a buffer that ends before its terminator. -/
namespace Text

variable {α : Type} [DecidableEq α]

/-- Cut behind each separator. The last piece may be without one. -/
def pieces (separator : α) : List α → List (List α)
  | [] => []
  | a :: rest =>
    if a = separator then [a] :: pieces separator rest
    else match pieces separator rest with
      | [] => [[a]]
      | p :: ps => (a :: p) :: ps

section Pieces

variable {separator : α}

@[simp] theorem pieces_flatten (separator : α) (input : List α) : (pieces separator input).flatten = input := by
  induction input with
  | nil => rfl
  | cons a rest ih =>
    rw [pieces]
    split
    · simp [ih]
    · cases cut : pieces separator rest with
      | nil =>
        rw [cut] at ih
        simp [← ih]
      | cons p ps =>
        rw [cut] at ih
        simp [← ih]

theorem pieces_rest {input p : List α} {ps : List (List α)} (cut : pieces separator input = p :: ps) :
    pieces separator ps.flatten = ps := by
  induction input generalizing p with
  | nil => cases cut
  | cons a rest ih =>
    rw [pieces] at cut
    split at cut
    · cases cut
      rw [pieces_flatten]
    · cases behind : pieces separator rest with
      | nil =>
        rw [behind] at cut
        cases cut
        rfl
      | cons q qs =>
        rw [behind] at cut
        cases cut
        exact ih behind

/-- The first piece of a stream, if it is no longer than n; else the first n elements. -/
def pieceWithin (separator : α) : Nat → List α → List α
  | 0, _ => []
  | _, [] => []
  | n + 1, a :: rest => if a = separator then [a] else a :: pieceWithin separator n rest

theorem pieceWithin_eq {input p : List α} {ps : List (List α)} {n : Nat}
    (cut : pieces separator input = p :: ps) (short : p.length ≤ n) :
    pieceWithin separator n input = p := by
  induction input generalizing n p with
  | nil => cases cut
  | cons a rest ih =>
    obtain ⟨n, rfl⟩ : ∃ m, n = m + 1 := by
      refine ⟨n - 1, ?_⟩
      have positive : p ≠ [] := by
        rintro rfl
        rw [pieces] at cut
        split at cut
        · cases cut
        · split at cut <;> cases cut
      have length := List.length_pos_iff.mpr positive
      omega
    rw [pieces] at cut
    rw [pieceWithin]
    split at cut
    · rename_i here
      cases cut
      rw [if_pos here]
    · rename_i elsewhere
      rw [if_neg elsewhere]
      cases behind : pieces separator rest with
      | nil =>
        rw [behind] at cut
        cases cut
        have none : rest = [] := by rw [← pieces_flatten separator rest, behind]; rfl
        rw [none]
        cases n <;> rfl
      | cons q qs =>
        rw [behind] at cut
        cases cut
        rw [ih behind (by simpa using short)]

end Pieces

def overwrite (new old : List α) : List α := new ++ old.drop new.length

/-- The string at the front of a buffer. -/
def string (terminator : α) (buffer : List α) : List α := buffer.takeWhile (· ≠ terminator)

section Strings

variable {terminator : α}

theorem string_append {s : List α} (plain : terminator ∉ s) (rest : List α) :
    string terminator (s ++ rest) = s ++ string terminator rest := by
  apply List.takeWhile_append_of_pos
  intro a mem
  simp only [ne_eq, decide_not, Bool.not_eq_eq_eq_not, Bool.not_true, decide_eq_false_iff_not]
  rintro rfl
  exact plain mem

theorem string_terminated {s : List α} (plain : terminator ∉ s) (rest : List α) :
    string terminator (s ++ terminator :: rest) = s := by
  rw [string_append plain]
  simp [string]

theorem string_plain (buffer : List α) : terminator ∉ string terminator buffer := by
  intro mem
  have other := List.mem_takeWhile_imp mem
  simp at other

theorem string_eq_self {s : List α} (plain : terminator ∉ s) : string terminator s = s := by
  have whole := string_append plain []
  rwa [List.append_nil, show string terminator ([] : List α) = [] from rfl, List.append_nil] at whole

/-- A terminated buffer is its string with the terminator behind it, and what may follow. -/
theorem exists_string_append (buffer : List α) :
    ∃ rest, buffer ++ [terminator] = string terminator buffer ++ terminator :: rest := by
  induction buffer with
  | nil => exact ⟨[], rfl⟩
  | cons a buffer ih =>
    by_cases here : a = terminator
    · exact ⟨buffer ++ [terminator], by simp [string, here]⟩
    · obtain ⟨rest, split⟩ := ih
      refine ⟨rest, ?_⟩
      have longer : string terminator (a :: buffer) = a :: string terminator buffer := by simp [string, here]
      rw [longer, List.cons_append, split, List.cons_append]

/-- A longer text over a string hides its terminator, so the string is no longer the same. -/
theorem string_overwrite_iff {s new rest : List α} (plain : terminator ∉ s)
    (clean : terminator ∉ new) :
    string terminator (overwrite new (s ++ terminator :: rest)) = s ↔
      new.length ≤ s.length ∧ new = s.take new.length := by
  by_cases fits : new.length ≤ s.length
  · have inside : overwrite new (s ++ terminator :: rest) =
        (new ++ s.drop new.length) ++ terminator :: rest := by
      rw [overwrite, List.drop_append_of_le_length fits, List.append_assoc]
    have plain' : terminator ∉ new ++ s.drop new.length := by
      rw [List.mem_append, not_or]
      exact ⟨clean, fun mem => plain (List.mem_of_mem_drop mem)⟩
    rw [inside, string_terminated plain']
    constructor
    · intro same
      refine ⟨fits, ?_⟩
      rw [← same, List.take_left]
    · rintro ⟨-, same⟩
      nth_rewrite 1 [same]
      exact List.take_append_drop new.length s
  · have longer : new.length ≤ (string terminator (overwrite new (s ++ terminator :: rest))).length := by
      rw [overwrite, string_append clean, List.length_append]
      exact Nat.le_add_right _ _
    constructor
    · intro same
      rw [same] at longer
      exact absurd longer fits
    · rintro ⟨short, -⟩
      exact absurd short fits

end Strings

end Text
