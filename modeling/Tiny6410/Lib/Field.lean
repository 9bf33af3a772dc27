import Mathlib

/-! Fields of a register: runs of bits that a write clears and sets. A sequence of writes
leaves in each bit what the last one that covers it has put there, and writes to fields
that share no bit may be exchanged. -/
namespace Field

variable {n : Nat}

/-- A value for the bits from bit on. -/
structure Write (n : Nat) where
  bit : Nat
  len : Nat
  val : Nat
  inside : bit + len ≤ n
  small : val < 2 ^ len

def mask (n bit len : Nat) : BitVec n := BitVec.ofNat n (2 ^ len - 1) <<< bit

/-- Clear the field, then set the value in it. -/
def put (bit len val : Nat) (w : BitVec n) : BitVec n :=
  (w &&& ~~~mask n bit len) ||| BitVec.ofNat n val <<< bit

namespace Write

def Covers (f : Write n) (j : Nat) : Prop := f.bit ≤ j ∧ j < f.bit + f.len

instance (f : Write n) (j : Nat) : Decidable (f.Covers j) := inferInstanceAs (Decidable (_ ∧ _))

def apply (f : Write n) (w : BitVec n) : BitVec n := put f.bit f.len f.val w

def Apart (f g : Write n) : Prop := f.bit + f.len ≤ g.bit ∨ g.bit + g.len ≤ f.bit

instance (f g : Write n) : Decidable (f.Apart g) := inferInstanceAs (Decidable (_ ∨ _))

end Write

theorem getLsbD_mask {bit len : Nat} (inside : bit + len ≤ n) (j : Nat) :
    (mask n bit len).getLsbD j = decide (bit ≤ j ∧ j < bit + len) := by
  rw [mask, BitVec.getLsbD_shiftLeft, BitVec.getLsbD_ofNat, Nat.testBit_two_pow_sub_one]
  by_cases low : bit ≤ j
  · by_cases high : j < bit + len
    · simp [low, high, show j < n by omega, show j - bit < n by omega, show j - bit < len by omega,
        Nat.not_lt.mpr low]
    · simp [high, show ¬ j - bit < len by omega]
  · simp [low, Nat.lt_of_not_le low]

theorem getLsbD_value {bit len val : Nat} (inside : bit + len ≤ n) (small : val < 2 ^ len) (j : Nat) :
    ((BitVec.ofNat n val) <<< bit).getLsbD j = (decide (bit ≤ j ∧ j < bit + len) && val.testBit (j - bit)) := by
  rw [BitVec.getLsbD_shiftLeft, BitVec.getLsbD_ofNat]
  by_cases low : bit ≤ j
  · by_cases high : j < bit + len
    · simp [low, high, show j < n by omega, show j - bit < n by omega, Nat.not_lt.mpr low]
    · have above : val.testBit (j - bit) = false :=
        Nat.testBit_lt_two_pow (Nat.lt_of_lt_of_le small (Nat.pow_le_pow_right (by decide) (by omega)))
      simp [above]
  · simp [low, Nat.lt_of_not_le low]

theorem put_zero (bit len : Nat) (w : BitVec n) : put bit len 0 w = w &&& ~~~mask n bit len := by
  rw [put, BitVec.zero_shiftLeft]
  exact BitVec.or_zero

namespace Write

variable {f g : Write n}

theorem apply_bit (f : Write n) (w : BitVec n) (j : Nat) :
    (f.apply w).getLsbD j = if f.Covers j then f.val.testBit (j - f.bit) else w.getLsbD j := by
  rw [apply, put, BitVec.getLsbD_or, BitVec.getLsbD_and, BitVec.getLsbD_not, getLsbD_mask f.inside,
    getLsbD_value f.inside f.small]
  by_cases covered : f.bit ≤ j ∧ j < f.bit + f.len
  · simp [Covers, covered]
  · by_cases wide : j < n
    · simp [Covers, covered, wide]
    · simp [Covers, covered, wide, BitVec.getLsbD_of_ge w j (Nat.le_of_not_lt wide)]

theorem apply_inside (f : Write n) (w : BitVec n) {j : Nat} (covered : f.Covers j) :
    (f.apply w).getLsbD j = f.val.testBit (j - f.bit) := by
  rw [apply_bit, if_pos covered]

theorem apply_outside (f : Write n) (w : BitVec n) {j : Nat} (outside : ¬ f.Covers j) :
    (f.apply w).getLsbD j = w.getLsbD j := by
  rw [apply_bit, if_neg outside]

/-- The field reads back as the value. -/
theorem apply_field (f : Write n) (w : BitVec n) :
    ((f.apply w).extractLsb' f.bit f.len).toNat = f.val := by
  apply Nat.eq_of_testBit_eq
  intro i
  rw [BitVec.testBit_toNat, BitVec.getLsbD_extractLsb']
  by_cases inside : i < f.len
  · rw [apply_inside f w ⟨Nat.le_add_right _ _, by omega⟩, Nat.add_sub_cancel_left]
    simp [inside]
  · have above : f.val.testBit i = false :=
      Nat.testBit_lt_two_pow
        (Nat.lt_of_lt_of_le f.small (Nat.pow_le_pow_right (by decide) (Nat.le_of_not_lt inside)))
    simp [inside, above]

/-- The fields that share no bit with it read as before. -/
theorem apply_apart (f : Write n) (w : BitVec n) {bit len : Nat}
    (apart : f.bit + f.len ≤ bit ∨ bit + len ≤ f.bit) :
    (f.apply w).extractLsb' bit len = w.extractLsb' bit len := by
  apply BitVec.eq_of_getLsbD_eq
  intro i within
  have outside : ¬ f.Covers (bit + i) := by
    rintro ⟨low, high⟩
    omega
  rw [BitVec.getLsbD_extractLsb', BitVec.getLsbD_extractLsb', apply_outside f w outside]

theorem shift_outside {bit len : Nat} (inside : bit + len ≤ n) {v : BitVec n} (small : v.toNat < 2 ^ len)
    {j : Nat} (outside : ¬ (bit ≤ j ∧ j < bit + len)) : (v <<< bit).getLsbD j = false := by
  have value := getLsbD_value inside small j
  rw [BitVec.ofNat_toNat, BitVec.setWidth_eq] at value
  rw [value, decide_eq_false outside, Bool.false_and]

/-- A value set over a clear field reads back. -/
theorem or_field {bit len : Nat} (inside : bit + len ≤ n) {v w : BitVec n} (small : v.toNat < 2 ^ len)
    (clear : ∀ j, bit ≤ j → j < bit + len → w.getLsbD j = false) :
    ((w ||| v <<< bit).extractLsb' bit len).toNat = v.toNat := by
  have already : w &&& ~~~mask n bit len = w := by
    apply BitVec.eq_of_getLsbD_eq
    intro j within
    rw [BitVec.getLsbD_and, BitVec.getLsbD_not, getLsbD_mask inside]
    by_cases covered : bit ≤ j ∧ j < bit + len
    · simp [clear j covered.1 covered.2]
    · simp [covered, within]
  have written := apply_field ⟨bit, len, v.toNat, inside, small⟩ w
  rw [apply, put, already, BitVec.ofNat_toNat, BitVec.setWidth_eq] at written
  exact written

theorem apply_comm (apart : Apart f g) (w : BitVec n) :
    g.apply (f.apply w) = f.apply (g.apply w) := by
  apply BitVec.eq_of_getLsbD_eq
  intro j _
  have once : ¬ (f.Covers j ∧ g.Covers j) := by
    rintro ⟨first, second⟩
    unfold Covers at first second
    rcases apart with before | behind <;> omega
  rw [apply_bit, apply_bit, apply_bit, apply_bit]
  by_cases first : f.Covers j
  · rw [if_neg fun second => once ⟨first, second⟩, if_pos first, if_pos first]
  · rw [if_neg first, if_neg first]

theorem run_keeps (fs : List (Write n)) (w : BitVec n) {j : Nat} (outside : ∀ f ∈ fs, ¬ f.Covers j) :
    (fs.foldl (fun w f => f.apply w) w).getLsbD j = w.getLsbD j := by
  induction fs generalizing w with
  | nil => rfl
  | cons f fs ih =>
    obtain ⟨first, others⟩ := List.forall_mem_cons.mp outside
    rw [List.foldl_cons, ih _ others, apply_outside f w first]

/-- The last write that covers a bit decides it. -/
theorem run_last (before after : List (Write n)) (f : Write n) (w : BitVec n) {j : Nat}
    (covered : f.Covers j) (last : ∀ g ∈ after, ¬ g.Covers j) :
    ((before ++ f :: after).foldl (fun w f => f.apply w) w).getLsbD j = f.val.testBit (j - f.bit) := by
  rw [List.foldl_append, List.foldl_cons, run_keeps after _ last, apply_inside f _ covered]

end Write

/-! Registers by their address. -/

section Registers

variable {A : Type} [DecidableEq A]

def store (r : A → BitVec n) (write : A × Write n) : A → BitVec n :=
  Function.update r write.1 (write.2.apply (r write.1))

def Separate (f g : A × Write n) : Prop := f.1 = g.1 → f.2.Apart g.2

instance (f g : A × Write n) : Decidable (Separate f g) := inferInstanceAs (Decidable (_ → _))

theorem store_comm {f g : A × Write n} (separate : Separate f g) (r : A → BitVec n) :
    store (store r f) g = store (store r g) f := by
  unfold store
  by_cases same : f.1 = g.1
  · rw [same, Function.update_self, Function.update_self, Function.update_idem, Function.update_idem,
      Write.apply_comm (separate same)]
  · have other : g.1 ≠ f.1 := Ne.symm same
    rw [Function.update_of_ne other, Function.update_of_ne same, Function.update_comm same]

/-- Writes to fields that share no bit end alike in every order. -/
theorem run_perm {fs gs : List (A × Write n)} (separate : fs.Pairwise Separate) (order : gs.Perm fs)
    (r : A → BitVec n) : gs.foldl store r = fs.foldl store r := by
  have commute : fs.Pairwise fun f g => ∀ r : A → BitVec n, store (store r f) g = store (store r g) f :=
    separate.imp fun apart r => store_comm apart r
  have symmetric : Std.Symm fun f g : A × Write n => ∀ r, store (store r f) g = store (store r g) f :=
    ⟨fun f g exchange r => (exchange r).symm⟩
  have exchange := commute.forall_of_forall fun f _ r => rfl
  exact order.foldl_eq' (fun f first g second r =>
    exchange (order.mem_iff.mp first) (order.mem_iff.mp second) r) r

end Registers

end Field
