import Mathlib.LinearAlgebra.Vandermonde
import Mathlib.Algebra.CharP.Two
import Mathlib.Algebra.BigOperators.Group.Finset.Basic
import Mathlib.Order.SymmDiff

/-! The binary codes of Bose, Ray-Chaudhuri and Hocquenghem. A place has a number in a field of
characteristic two, and the sums of the odd powers of the numbers tell sets of up to t places
apart. -/
namespace Bch

open Finset
open scoped symmDiff

variable {F ι : Type} [Field F] {place : ι → F} {t : Nat}

def syndrome (place : ι → F) (t : Nat) (places : Finset ι) : Fin t → F :=
  fun k => ∑ i ∈ places, place i ^ (2 * k.val + 1)

section

variable [CharP F 2] {S T : Finset ι}

/-- The even powers are squares. -/
theorem power_sum_zero (zero : syndrome place t S = 0) {j : Nat} (positive : 0 < j) (few : j ≤ 2 * t) :
    ∑ i ∈ S, place i ^ j = 0 := by
  induction j using Nat.strong_induction_on with
  | h j ih =>
    rcases Nat.even_or_odd' j with ⟨m, rfl | rfl⟩
    · have half := ih m (by omega) (by omega) (by omega)
      have square : ∑ i ∈ S, place i ^ (2 * m) = (∑ i ∈ S, place i ^ m) ^ 2 := by
        rw [CharTwo.sum_sq]
        exact sum_congr rfl fun i _ => by rw [← pow_mul, Nat.mul_comm]
      rw [square, half, zero_pow two_ne_zero]
    · exact congrFun zero ⟨m, by omega⟩

/-- Up to 2 * t places are none if all their sums are zero. -/
theorem eq_empty_of_syndrome (apart : Function.Injective place) (nonzero : ∀ i, place i ≠ 0) (few : #S ≤ 2 * t)
    (zero : syndrome place t S = 0) : S = ∅ := by
  by_contra some
  let number (k : Fin #S) : F := place (S.equivFin.symm k)
  have distinct : Function.Injective number := fun _ _ same =>
    S.equivFin.symm.injective (Subtype.ext (apart same))
  have sums (j : Fin #S) : ∑ k, number k * number k ^ (j : Nat) = 0 := by
    have power := power_sum_zero zero (Nat.succ_pos j.val) (by have := j.isLt; omega)
    rw [← S.sum_coe_sort fun i => place i ^ (j.val + 1), ← S.equivFin.symm.sum_comp] at power
    simpa only [number, pow_succ'] using power
  have vanish := Matrix.eq_zero_of_forall_pow_sum_mul_pow_eq_zero distinct sums
  have positive : 0 < #S := card_pos.mpr (nonempty_iff_ne_empty.mpr some)
  exact nonzero _ (congrFun vanish ⟨0, positive⟩)

variable [DecidableEq ι]

/-- What is in both sets is counted twice. -/
theorem sum_symmDiff (f : ι → F) (S T : Finset ι) : ∑ i ∈ S ∆ T, f i = ∑ i ∈ S, f i + ∑ i ∈ T, f i := by
  have first := sum_inter_add_sum_sdiff S T f
  have second := sum_inter_add_sum_sdiff T S f
  have apart : Disjoint (S \ T) (T \ S) := disjoint_sdiff_sdiff
  have twice := CharTwo.add_self_eq_zero (∑ i ∈ S ∩ T, f i)
  rw [inter_comm T S] at second
  rw [symmDiff, sup_eq_union, sum_union apart, ← first, ← second, add_add_add_comm, twice, zero_add]

theorem syndrome_symmDiff : syndrome place t (S ∆ T) = syndrome place t S + syndrome place t T :=
  funext fun _ => sum_symmDiff _ S T

/-- Sets of up to t places have different syndromes. -/
theorem syndrome_injective (apart : Function.Injective place) (nonzero : ∀ i, place i ≠ 0) (few : #S ≤ t)
    (few' : #T ≤ t) (same : syndrome place t S = syndrome place t T) : S = T := by
  have union : #(S ∆ T) ≤ 2 * t := by
    have size := card_le_card (symmDiff_le_sup : S ∆ T ≤ S ⊔ T)
    have both := card_union_le S T
    rw [sup_eq_union] at size
    omega
  have zero : syndrome place t (S ∆ T) = 0 := by
    rw [syndrome_symmDiff, same]
    exact funext fun _ => CharTwo.add_self_eq_zero _
  exact symmDiff_eq_bot.mp (eq_empty_of_syndrome apart nonzero union zero)

end

end Bch
