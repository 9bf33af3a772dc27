import Mathlib.Data.List.Basic

/-! Tokens between separators. A token may depend on what follows it, so that a scanner
can take the longest one. What a scanner collects is compared with the ways to split the
input, of which there is at most one for each number of tokens. -/
namespace Separated

variable {α : Type}

/-- The input is tokens with a separator between them, and a rest behind the last. -/
inductive Splits (Token : List α → List α → Prop) (sep : α → Bool) : List (List α) → List α → List α → Prop
  | last {t rest : List α} : Token t rest → Splits Token sep [t] rest (t ++ rest)
  | more {t : List α} {s : α} {ts : List (List α)} {rest input : List α} : Token t (s :: input) →
      sep s = true → Splits Token sep ts rest input → Splits Token sep (t :: ts) rest (t ++ s :: input)

/-- A scanner takes the token in front of the input, if there is one. -/
structure Scans (Token : List α → List α → Prop) (scan : List α → Option (List α × List α)) : Prop where
  sound : ∀ {input t rest}, scan input = some (t, rest) → input = t ++ rest ∧ Token t rest
  complete : ∀ {t rest}, Token t rest → scan (t ++ rest) = some (t, rest)

/-- At most n tokens from the front of the input, up to where no separator follows. -/
def collect (scan : List α → Option (List α × List α)) (sep : α → Bool) : Nat → List α → List (List α)
  | 0, _ => []
  | n + 1, input =>
    match scan input with
    | none => []
    | some (t, []) => [t]
    | some (t, s :: rest) => if sep s then t :: collect scan sep n rest else [t]

section

variable {Token : List α → List α → Prop} {sep : α → Bool} {scan : List α → Option (List α × List α)}
  (scans : Scans Token scan) {ts ts' : List (List α)} {rest rest' input : List α}

theorem collect_none {n : Nat} (found : scan input = none) : collect scan sep (n + 1) input = [] := by
  rw [collect, found]

theorem collect_end {n : Nat} {t : List α} (found : scan input = some (t, [])) :
    collect scan sep (n + 1) input = [t] := by
  rw [collect, found]

theorem collect_next {n : Nat} {t : List α} {s : α} (found : scan input = some (t, s :: rest)) :
    collect scan sep (n + 1) input = if sep s then t :: collect scan sep n rest else [t] := by
  rw [collect, found]

theorem collect_one {t : List α} (found : scan input = some (t, rest)) : collect scan sep 1 input = [t] := by
  cases rest with
  | nil => exact collect_end found
  | cons s rest =>
    rw [collect_next found]
    split <;> rfl

theorem Splits.ne_nil (splits : Splits Token sep ts rest input) : ts ≠ [] := by
  cases splits <;> simp

include scans

theorem Scans.unique {t t' : List α} (same : t ++ rest = t' ++ rest') (first : Token t rest)
    (second : Token t' rest') : t = t' ∧ rest = rest' := by
  have found := scans.complete first
  rw [same, scans.complete second] at found
  cases found
  exact ⟨rfl, rfl⟩

theorem collect_splits (splits : Splits Token sep ts rest input) : collect scan sep ts.length input = ts := by
  induction splits with
  | last token => exact collect_one (scans.complete token)
  | more token separator _ ih => rw [List.length_cons, collect_next (scans.complete token), if_pos separator, ih]

theorem splits_collect {n : Nat} (all : (collect scan sep (n + 1) input).length = n + 1) :
    ∃ rest, Splits Token sep (collect scan sep (n + 1) input) rest input := by
  induction n generalizing input with
  | zero =>
    cases found : scan input with
    | none =>
      rw [collect_none found] at all
      cases all
    | some taken =>
      obtain ⟨t, rest⟩ := taken
      rw [collect_one found]
      obtain ⟨rfl, token⟩ := scans.sound found
      exact ⟨rest, .last token⟩
  | succ n ih =>
    cases found : scan input with
    | none =>
      rw [collect_none found] at all
      cases all
    | some taken =>
      obtain ⟨t, left⟩ := taken
      cases left with
      | nil =>
        rw [collect_end found] at all
        cases all
      | cons s left =>
        rw [collect_next found] at all ⊢
        by_cases separator : sep s = true
        · rw [if_pos separator] at all ⊢
          obtain ⟨rest, splits⟩ := ih (Nat.succ.inj all)
          obtain ⟨rfl, token⟩ := scans.sound found
          exact ⟨rest, .more token separator splits⟩
        · rw [if_neg separator] at all
          cases all

theorem splits_unique (first : Splits Token sep ts rest input) (second : Splits Token sep ts' rest' input)
    (length : ts.length = ts'.length) : ts = ts' ∧ rest = rest' := by
  induction first generalizing ts' rest' with
  | @last t rest token =>
    generalize named : t ++ rest = whole at second
    cases second with
    | last token' =>
      obtain ⟨rfl, rfl⟩ := scans.unique named token token'
      exact ⟨rfl, rfl⟩
    | more _ _ others =>
      have none := others.ne_nil
      simp at length
      exact absurd length none
  | @more t s ts rest input token _ others ih =>
    generalize named : t ++ s :: input = whole at second
    cases second with
    | last _ =>
      have none := others.ne_nil
      simp at length
      exact absurd length none
    | more token' _ others' =>
      obtain ⟨rfl, tail⟩ := scans.unique named token token'
      cases tail
      obtain ⟨rfl, rfl⟩ := ih others' (by simpa using length)
      exact ⟨rfl, rfl⟩

end

end Separated
