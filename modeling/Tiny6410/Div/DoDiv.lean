import Tiny6410.Div.Div64
import Tiny6410.Div.Muldi3
import Tiny6410.Stdio.Integers

/-! The macro do_div of no-os/stdio/lib/div64.h, and the loop of number that divides with it. -/
namespace Tiny6410.Div

open Alu Alu.Reg StateTransition
open Memory (Word Byte)
open Stdio (digitChar divLoop)

/-- The registers before the inline assembly: n in r0 and r1 and base in r4. -/
structure Entered (n : BitVec 64) (base : Word) (s : Core) : Prop where
  bottom : s.r xl = low n
  top : s.r xh = high n
  divisor : s.r r4 = base
  aligned : WordAligned (s.r sp)

/-- A run of the inline assembly: then the result is in r2 and r3 and the remainder in r1. -/
def DoDiv (n : BitVec 64) (base : Word) (res : BitVec 64) (rem : Word) : Prop :=
  ∃ s t : Core, Entered n base s ∧
    Reaches (step div64) ⟨s, .at 0⟩ ⟨t, .left (s.r lr)⟩ ∧ res = t.r yh ++ t.r yl ∧ rem = t.r xh

/-- The digits in tmp, the last one first, where each division is a run of the assembly. -/
inductive Digits (large : Bool) (base : Word) : BitVec 64 → List Byte → Prop
  | done : Digits large base 0 []
  | digit {num res : BitVec 64} {rem : Word} {tmp : List Byte} (some : num ≠ 0) (division : DoDiv num base res rem)
      (rest : Digits large base res tmp) : Digits large base num (digitChar large rem.toNat :: tmp)

theorem do_div_value {n : BitVec 64} {base : Word} {res : BitVec 64} {rem : Word} (division : DoDiv n base res rem) :
    res.toNat = n.toNat / base.toNat ∧ rem.toNat = if base = 0#32 then 0 else n.toNat % base.toNat := by
  obtain ⟨s, t, ⟨bottom, top, divisor, aligned⟩, reached, rfl, rfl⟩ := division
  have divided := (do_div64_divides s fun _ => aligned).left (fun u h => ⟨_, h.pc⟩) reached
  have quotient := divided.quotient
  have remainder := divided.remainder
  rw [top, bottom, divisor, ← toNat_words] at quotient remainder
  rw [Memory.toNat_append_words]
  exact ⟨quotient, remainder⟩

/-- Every run ends. -/
theorem do_div_returns {n : BitVec 64} {base : Word} {s : Core} (entered : Entered n base s) :
    ∃ t, Reaches (step div64) ⟨s, .at 0⟩ ⟨t, .left (s.r lr)⟩ := by
  obtain ⟨⟨t, pc⟩, reached, divided⟩ := do_div64_divides s fun _ => entered.aligned
  cases divided.pc
  exact ⟨t, reached⟩

def loaded (n : BitVec 64) (base : Word) : Core where
  r := Function.update (Function.update (Function.update (fun _ => 0) xl (low n)) xh (high n)) r4 base
  n := false
  z := false
  c := false
  v := false
  mem _ := 0

theorem loaded_entered (n : BitVec 64) (base : Word) : Entered n base (loaded n base) := ⟨rfl, rfl, rfl, rfl⟩

theorem do_div_runs (n : BitVec 64) (base : Word) : ∃ res rem, DoDiv n base res rem := by
  obtain ⟨t, reached⟩ := do_div_returns (loaded_entered n base)
  exact ⟨_, _, loaded n base, t, loaded_entered n base, reached, rfl, rfl⟩

/-- Every run of do_div ends, with 64 bits divided by 32 bits, and by zero with zeros. -/
theorem do_div_iff (n : BitVec 64) (base : Word) :
    (∀ s, Entered n base s → ∃ t, Reaches (step div64) ⟨s, .at 0⟩ ⟨t, .left (s.r lr)⟩) ∧
    ∀ (res : BitVec 64) (rem : Word), DoDiv n base res rem ↔
      res = n / base.setWidth 64 ∧ rem = if base = 0#32 then 0#32 else (n % base.setWidth 64).setWidth 32 := by
  have value : (base.setWidth 64).toNat = base.toNat := by
    rw [BitVec.toNat_setWidth, Nat.mod_eq_of_lt (base.isLt.trans (by decide))]
  have unique : ∀ {res rem}, DoDiv n base res rem →
      res = n / base.setWidth 64 ∧ rem = if base = 0#32 then 0#32 else (n % base.setWidth 64).setWidth 32 := by
    intro res rem division
    obtain ⟨quotient, remainder⟩ := do_div_value division
    refine ⟨BitVec.eq_of_toNat_eq ?_, BitVec.eq_of_toNat_eq ?_⟩
    · rw [quotient, BitVec.toNat_udiv, value]
    · rw [remainder]
      split_ifs with zero
      · rfl
      · have below : n.toNat % base.toNat < base.toNat :=
          Nat.mod_lt _ (Nat.pos_of_ne_zero fun h => zero (BitVec.eq_of_toNat_eq h))
        rw [BitVec.toNat_setWidth, BitVec.toNat_umod, value, Nat.mod_eq_of_lt (below.trans base.isLt)]
  refine ⟨fun s entered => do_div_returns entered, fun res rem => ⟨unique, ?_⟩⟩
  rintro ⟨rfl, rfl⟩
  obtain ⟨res, rem, division⟩ := do_div_runs n base
  obtain ⟨rfl, rfl⟩ := unique division
  exact division

theorem do_div_iff_hundred :
    (∃ t, Reaches (step div64) ⟨loaded 100 7, .at 0⟩ ⟨t, .left ((loaded 100 7).r lr)⟩) ∧ DoDiv 100 7 14 2 ∧
    DoDiv 100 0 0 0 := by
  have divides := do_div_iff 100 7
  exact ⟨divides.1 _ (loaded_entered 100 7), (divides.2 14 2).mpr ⟨by decide, by decide⟩,
    ((do_div_iff 100 0).2 0 0).mpr ⟨by decide, by decide⟩⟩

section Loop

variable (large : Bool) {base : Word}

/-- The loop gives the digits that the plain division gives, and no others. -/
theorem digits_iff (many : 1 < base.toNat) (num : BitVec 64) (tmp : List Byte) :
    Digits large base num tmp ↔ tmp = (Nat.digits base.toNat num.toNat).map (digitChar large) := by
  have divides : base ≠ 0#32 := fun h => by simp [h] at many
  constructor
  · intro loop
    induction loop with
    | done => simp
    | digit some division rest ih =>
      obtain ⟨quotient, remainder⟩ := do_div_value division
      have positive : _ ≠ 0 := fun h => some (BitVec.eq_of_toNat_eq h)
      rw [ih, quotient, remainder, if_neg divides, Nat.digits_eq_cons_digits_div many positive, List.map_cons]
  · rintro rfl
    induction size : num.toNat using Nat.strong_induction_on generalizing num with
    | h n ih =>
      by_cases zero : num = 0
      · subst zero
        rw [← size]
        simpa using Digits.done
      · have positive : n ≠ 0 := fun h => zero (BitVec.eq_of_toNat_eq (size.trans h))
        obtain ⟨res, rem, division⟩ := do_div_runs num base
        obtain ⟨quotient, remainder⟩ := do_div_value division
        rw [size] at quotient remainder
        rw [if_neg divides] at remainder
        have less : n / base.toNat < n := Nat.div_lt_self (Nat.pos_of_ne_zero positive) many
        rw [Nat.digits_eq_cons_digits_div many positive, List.map_cons, ← remainder]
        exact .digit zero division (ih _ less res quotient)

end Loop

/-- The loop of number, for each base that it does not reject. -/
theorem number_digits (large : Bool) (base : Stdio.Base) (num : BitVec 64) (tmp : List Byte) :
    Digits large (BitVec.ofNat 32 base.val) num tmp ↔ tmp = divLoop large base.val 66 num.toNat := by
  have value : (BitVec.ofNat 32 base.val).toNat = base.val := by
    rw [BitVec.toNat_ofNat, Nat.mod_eq_of_lt]
    have known := base.known.2
    omega
  have fits : num.toNat < base.val ^ 66 :=
    calc num.toNat < 2 ^ 64 := num.isLt
      _ ≤ 2 ^ 66 := by decide
      _ ≤ base.val ^ 66 := Nat.pow_le_pow_left base.known.1 66
  have many : 1 < (BitVec.ofNat 32 base.val).toNat := by
    rw [value]
    exact base.known.1
  rw [digits_iff large many, value, Stdio.divLoop_eq large base.known.1 66 fits]

end Tiny6410.Div
