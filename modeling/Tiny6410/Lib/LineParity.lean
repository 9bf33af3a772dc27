import Mathlib.Tactic.IntervalCases
import Tiny6410.Lib.Patch

/-! The code that corrects one bit: for each bit of its place, the parity of the bits set whose
places have it, and of those whose places do not. -/
namespace LineParity

open Patch

def mark (a p : Nat) : BitVec (a + a) := ~~~BitVec.ofNat a p ++ BitVec.ofNat a p

/-- The marks of the bits set among those given, together. -/
def marks (a i : Nat) (b : BitVec 8) (bits : List Nat) : BitVec (a + a) :=
  bits.foldr (fun k s => (if b.getLsbD k then mark a (8 * i + k) else 0) ^^^ s) 0

def codeFrom (a : Nat) : Nat → List (BitVec 8) → BitVec (a + a)
  | _, [] => 0
  | i, b :: l => marks a i b (List.range 8) ^^^ codeFrom a (i + 1) l

def code (a : Nat) (l : List (BitVec 8)) : BitVec (a + a) := codeFrom a 0 l

inductive Verdict where
  | same
  | one (p : Nat)
  | other
  deriving DecidableEq

/-- What the difference of two codes says of the difference of what they are of. -/
def verdict (a : Nat) (s : BitVec (a + a)) : Verdict :=
  if s = 0 then .same
  else if s.extractLsb' a a = ~~~s.extractLsb' 0 a then .one (s.extractLsb' 0 a).toNat
  else .other

section

variable {a : Nat}

theorem xor_middle (x y u v : BitVec a) : (x ^^^ y) ^^^ (u ^^^ v) = (x ^^^ u) ^^^ (y ^^^ v) := by
  ac_rfl

theorem marks_xor (i : Nat) (b m : BitVec 8) (bits : List Nat) :
    marks a i (b ^^^ m) bits = marks a i b bits ^^^ marks a i m bits := by
  induction bits with
  | nil => simp [marks]
  | cons k bits ih =>
    have here : (if (b ^^^ m).getLsbD k then mark a (8 * i + k) else 0) =
        (if b.getLsbD k then mark a (8 * i + k) else 0) ^^^ (if m.getLsbD k then mark a (8 * i + k) else 0) := by
      rw [BitVec.getLsbD_xor]
      cases b.getLsbD k <;> cases m.getLsbD k <;> simp
    simp only [marks, List.foldr_cons] at ih ⊢
    rw [here, ih, xor_middle]

theorem marks_bit (i : Nat) {bit : Nat} (small : bit < 8) :
    marks a i ((1 : BitVec 8) <<< bit) (List.range 8) = mark a (8 * i + bit) := by
  have bits : List.range 8 = [0, 1, 2, 3, 4, 5, 6, 7] := rfl
  rw [bits]
  interval_cases bit <;> simp [marks]

/-- What a change of a place changes in the code. -/
theorem codeFrom_xorAt (l : List (BitVec 8)) (i j : Nat) (m : BitVec 8) (inside : j < l.length) :
    codeFrom a i (xorAt l j m) = codeFrom a i l ^^^ marks a (i + j) m (List.range 8) := by
  induction l generalizing i j with
  | nil => cases inside
  | cons b l ih =>
    cases j with
    | zero =>
      have first : xorAt (b :: l) 0 m = (b ^^^ m) :: l := rfl
      rw [first, codeFrom, codeFrom, marks_xor, Nat.add_zero]
      ac_rfl
    | succ j =>
      have later : xorAt (b :: l) (j + 1) m = b :: xorAt l j m := rfl
      rw [later, codeFrom, codeFrom, ih (i + 1) j (Nat.lt_of_succ_lt_succ inside), Nat.add_assoc, Nat.add_comm 1]
      ac_rfl

theorem verdict_same (s : BitVec (a + a)) : verdict a (s ^^^ s) = .same := by
  rw [BitVec.xor_self]
  exact if_pos rfl

theorem verdict_mark {p : Nat} (positive : 0 < a) (small : p < 2 ^ a) : verdict a (mark a p) = .one p := by
  have high : (mark a p).extractLsb' a a = ~~~BitVec.ofNat a p := BitVec.extractLsb'_append_eq_left
  have low : (mark a p).extractLsb' 0 a = BitVec.ofNat a p := BitVec.extractLsb'_append_eq_right
  have some : mark a p ≠ 0 := by
    intro zero
    have none : ∀ start, (0 : BitVec (a + a)).extractLsb' start a = 0#a := fun start => BitVec.extractLsb'_zero
    rw [zero, none] at high low
    rw [← low] at high
    simpa [positive] using congrArg (fun x : BitVec a => x.getLsbD 0) high
  rw [verdict, if_neg some, high, low, if_pos rfl, BitVec.toNat_ofNat, Nat.mod_eq_of_lt small]

/-- One wrong bit is found. -/
theorem verdict_xorAt (l : List (BitVec 8)) {j bit : Nat} (inside : j < l.length) (small : bit < 8) (positive : 0 < a)
    (fits : 8 * l.length ≤ 2 ^ a) :
    verdict a (code a (xorAt l j ((1 : BitVec 8) <<< bit)) ^^^ code a l) = .one (8 * j + bit) := by
  rw [code, codeFrom_xorAt l 0 j _ inside, marks_bit _ small, code, Nat.zero_add, BitVec.xor_comm, ← BitVec.xor_assoc,
    BitVec.xor_self, BitVec.zero_xor]
  exact verdict_mark positive (by omega)

end

end LineParity
