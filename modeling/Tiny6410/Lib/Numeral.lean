import Mathlib

/-! Numerals: the digits of a number with the first one in front, without leading
zeros, and the number read back from them. -/
namespace Numeral

def numeral (b n : Nat) : List Nat := if n = 0 then [0] else (Nat.digits b n).reverse

variable {b n : Nat}

theorem numeral_ne_nil : numeral b n ≠ [] := by
  unfold numeral
  split
  · simp
  · rename_i positive
    simpa [Nat.digits_ne_nil_iff_ne_zero] using positive

theorem lt_of_mem_numeral (many : 1 < b) {d : Nat} (mem : d ∈ numeral b n) : d < b := by
  unfold numeral at mem
  split at mem
  · rw [List.mem_singleton.mp mem]
    omega
  · exact Nat.digits_lt_base many (List.mem_reverse.mp mem)

theorem head_numeral_eq_zero (h : (numeral b n).head numeral_ne_nil = 0) : n = 0 := by
  by_contra positive
  have digits : numeral b n = (Nat.digits b n).reverse := if_neg positive
  simp only [digits, List.head_reverse] at h
  exact Nat.getLast_digit_ne_zero b positive h

theorem length_numeral_le {m : Nat} (less : n ≤ m) : (numeral b n).length ≤ (numeral b m).length := by
  unfold numeral
  by_cases zero : m = 0
  · rw [if_pos zero, if_pos (by omega)]
  · have some := List.length_pos_iff.mpr (Nat.digits_ne_nil_iff_ne_zero (b := b).mpr zero)
    rw [if_neg zero, List.length_reverse]
    split
    · exact some
    · rw [List.length_reverse]
      exact Nat.le_length_digits_le b n m less

theorem foldl_numeral {R : Type} [CommSemiring R] (b n : Nat) :
    (numeral b n).foldl (fun (r : R) (d : Nat) => r * b + d) 0 = n := by
  unfold numeral
  split
  · rename_i zero
    simp [zero]
  · rw [List.foldl_reverse]
    have value := congrArg (Nat.cast (R := R)) (Nat.ofDigits_digits b n)
    rw [Nat.coe_ofDigits, Nat.ofDigits_eq_foldr] at value
    rw [← value]
    congr 1
    funext d r
    ring

end Numeral
