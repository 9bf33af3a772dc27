import Mathlib

/-! Languages of traces. A requirement on what comes before an event is checked one
word at a time, and then holds for every concatenation of such words. Two senders on
one line leave an interleaving of their traces. -/
namespace Trace

open Computability

variable {α β : Type}

theorem snoc_prefix_cons {before rest : List α} {e a : α} : before ++ [e] <+: a :: rest ↔
    before = [] ∧ e = a ∨ ∃ later, before = a :: later ∧ later ++ [e] <+: rest := by
  cases before with
  | nil => simp [List.cons_prefix_cons]
  | cons b later => simp [List.cons_prefix_cons]

/-- Where an event of the given kind occurs, what comes before it meets Q. -/
def Preceded (kind : α → Prop) (Q : List α → Prop) (w : List α) : Prop :=
  ∀ x c y, w = x ++ c :: y → kind c → Q x

section Preceded

variable {kind : α → Prop} {Q : List α → Prop}

@[simp] theorem preceded_nil : Preceded kind Q [] := by
  intro x c y split
  simp at split

@[simp] theorem preceded_cons {a : α} {w : List α} :
    Preceded kind Q (a :: w) ↔ (kind a → Q []) ∧ Preceded kind (fun x => Q (a :: x)) w := by
  constructor
  · intro h
    exact ⟨fun here => h [] a w rfl here, fun x c y split found => h (a :: x) c y (by rw [split]; rfl) found⟩
  · rintro ⟨first, later⟩ x c y split found
    cases x with
    | nil =>
      obtain ⟨rfl, -⟩ := List.cons.inj split
      exact first found
    | cons b x =>
      obtain ⟨rfl, rest⟩ := List.cons.inj split
      exact later x c y rest found

theorem preceded_append {v w : List α} :
    Preceded kind Q (v ++ w) ↔ Preceded kind Q v ∧ Preceded kind (fun x => Q (v ++ x)) w := by
  induction v generalizing Q with
  | nil => simp
  | cons a v ih => simp [ih, and_assoc]

theorem preceded_of_none {w : List α} (none : ∀ c ∈ w, ¬ kind c) : Preceded kind Q w := by
  intro x c y split found
  exact absurd found (none c (by rw [split]; simp))

/-- The words of a language can be put in sequence if a word before does not spoil what
is required within the next. -/
theorem preceded_kstar {l : Language α} (one : ∀ s ∈ l, Preceded kind Q s)
    (shift : ∀ s ∈ l, ∀ x, Q x → Q (s ++ x)) {w : List α} (h : w ∈ l∗) : Preceded kind Q w := by
  obtain ⟨words, rfl, all⟩ := Language.mem_kstar.mp h
  clear h
  induction words with
  | nil => simp
  | cons s rest ih =>
    have first : s ∈ l := all s List.mem_cons_self
    rw [List.flatten_cons, preceded_append]
    refine ⟨one s first, fun x c y split found => ?_⟩
    exact shift s first x (ih (fun u mem => all u (List.mem_cons_of_mem s mem)) x c y split found)

end Preceded

/-- One event of a kind that carries a value. -/
def each (f : β → α) : Language α := {t | ∃ b, t = [f b]}

theorem flatten_each {f : β → α} {words : List (List α)} (all : ∀ t ∈ words, t ∈ each f) :
    ∃ bs : List β, bs.length = words.length ∧ words.flatten = bs.map f := by
  induction words with
  | nil => exact ⟨[], rfl, rfl⟩
  | cons t rest ih =>
    obtain ⟨b, rfl⟩ := all t List.mem_cons_self
    obtain ⟨bs, length, flat⟩ := ih fun u mem => all u (List.mem_cons_of_mem _ mem)
    exact ⟨b :: bs, by simp [length], by simp [flat]⟩

theorem mem_each_pow {f : β → α} {n : Nat} {t : List α} (h : t ∈ each f ^ n) :
    ∃ bs : List β, bs.length = n ∧ t = bs.map f := by
  obtain ⟨words, rfl, rfl, all⟩ := Language.mem_pow.mp h
  exact flatten_each all

theorem mem_each_kstar {f : β → α} {t : List α} (h : t ∈ (each f)∗) : ∃ bs : List β, t = bs.map f := by
  obtain ⟨words, rfl, all⟩ := Language.mem_kstar.mp h
  obtain ⟨bs, -, flat⟩ := flatten_each all
  exact ⟨bs, flat⟩

theorem pow_le_kstar (l : Language α) (n : Nat) : l ^ n ≤ l∗ := by
  rw [Language.kstar_eq_iSup_pow]
  exact le_iSup (fun i => l ^ i) n

/-- The third list has the elements of the other two, each in its own order. -/
inductive Interleaving : List α → List α → List α → Prop
  | nil : Interleaving [] [] []
  | left {a u v w} : Interleaving u v w → Interleaving (a :: u) v (a :: w)
  | right {a u v w} : Interleaving u v w → Interleaving u (a :: v) (a :: w)

namespace Interleaving

variable {u v w : List α}

theorem snoc_left (h : Interleaving u v w) (a : α) : Interleaving (u ++ [a]) v (w ++ [a]) := by
  induction h with
  | nil => exact .left .nil
  | left _ ih => exact .left ih
  | right _ ih => exact .right ih

theorem snoc_right (h : Interleaving u v w) (a : α) : Interleaving u (v ++ [a]) (w ++ [a]) := by
  induction h with
  | nil => exact .right .nil
  | left _ ih => exact .left ih
  | right _ ih => exact .right ih

end Interleaving

end Trace
