import Mathlib
import Tiny6410.Div.Routines

/-! __do_div64 of no-os/stdio/lib/div64.S, as it is assembled for __LINUX_ARM_ARCH__ = 1. -/
namespace Tiny6410.Div

open Alu Alu.Reg Alu.Op Memory

abbrev xl : Reg := r0
abbrev xh : Reg := r1
abbrev yl : Reg := r2
abbrev yh : Reg := r3

def do_div64 : List Line :=
  listing [
    [ (sub ip r4 1).s,
      .branch .ls (.ahead 9),
      tst ip r4,
      .branch .eq (.ahead 8),
      -- See if we need to handle upper 32-bit result.
      cmp xh r4,
      mov yh 0,
      .branch .lo (.ahead 3),
      mov yl r4,
      mov ip 1 ],
    alignLoop xh yl 0x80000000 1 (mov ip (.lsl ip 1)),
    [ .label 2,
      cmp xh yl,
      (orr yh yh ip).when .cs,
      (sub xh xh yl).sWhen .cs,
      (mov ip (.lsr ip 1)).sWhen .ne,
      mov yl (.lsr yl 1),
      .branch .ne (.back 2),
      -- See if we need to handle lower 32-bit result.
      .label 3,
      cmp xh 0,
      mov yl 0,
      (cmp xl r4).when .eq,
      (mov xh xl).when .lo,
      ret .lo ],
    [ mov ip (.imm 0x80000000),
      .label 4,
      (mov xl (.lsl xl 1)).s,
      (adc xh xh xh).s,
      .branch .eq (.ahead 6),
      (cmp xh r4).when .cc,
      .label 5,
      (orr yl yl ip).when .cs,
      (sub xh xh r4).when .cs,
      (mov ip (.lsr ip 1)).s,
      .branch .ne (.back 4),
      ret .al,
      .label 6,
      .branch .cs (.back 5),
      cmp xl 0,
      ret .eq,
      .label 7,
      (mov xl (.lsl xl 1)).s,
      mov ip (.lsr ip 1),
      .branch .cc (.back 7) ],
    [ (mov ip (.lsr ip 1)).s,
      mov xh 1,
      .branch .ne (.back 4),
      ret .al,
      .label 8,
      mov yl r4,
      cmp r4 (.imm 0x10000),
      mov ip 0,
      (mov yl (.lsr yl 16)).when .hs,
      (mov ip 16).when .hs,
      cmp yl (.imm 0x100),
      (mov yl (.lsr yl 8)).when .hs,
      (add ip ip 8).when .hs,
      cmp yl (.imm 0x10),
      (mov yl (.lsr yl 4)).when .hs,
      (add ip ip 4).when .hs,
      cmp yl (.imm 0x4),
      (add ip ip 3).when .hi,
      (add ip ip (.lsr yl 1)).when .ls ],
    [ mov yh (.lsrBy xh ip),
      mov yl (.lsrBy xl ip),
      rsb ip ip 32,
      orr yl yl (.lslBy xh ip),
      mov xh (.lslBy xl ip),
      mov xh (.lsrBy xh ip),
      ret .al,
      .label 9,
      (mov yl xl).when .eq,
      (mov yh xh).when .eq,
      (mov xh 0).when .eq,
      ret .eq,
      -- Division by 0:
      .instr (.push lr),
      mov yl 0,
      mov yh 0,
      mov xh 0,
      .instr .popPc ] ]

def div64 : List Instr := assemble do_div64

/-! The lower half: the remainder is shifted, and not the divisor -/

/-- The quotient q so far, the remainder r, and the e bits of the dividend still to come. -/
structure Long (n d q r l e : Nat) : Prop where
  whole : n = q * d + r * 2 ^ e + l
  below : r < d
  rest : l < 2 ^ e
  multiple : 2 ^ e ∣ q

section Long

variable {n d q r l e : Nat}

theorem top_bit_lt_two (rest : l < 2 ^ (e + 1)) : l / 2 ^ e < 2 :=
  Nat.div_lt_of_lt_mul (by rwa [Nat.pow_succ] at rest)

theorem long_bit (long : Long n d q r l (e + 1)) :
    Long n d (if d ≤ 2 * r + l / 2 ^ e then q ||| 2 ^ e else q)
      (if d ≤ 2 * r + l / 2 ^ e then 2 * r + l / 2 ^ e - d else 2 * r + l / 2 ^ e) (l % 2 ^ e) e := by
  obtain ⟨whole, below, rest, multiple⟩ := long
  have half : 2 ^ e ∣ q := (pow_dvd_pow 2 (Nat.le_succ e)).trans multiple
  have bit := top_bit_lt_two rest
  have bits : l = l / 2 ^ e * 2 ^ e + l % 2 ^ e := (Nat.div_add_mod' l (2 ^ e)).symm
  have grown : n = q * d + (2 * r + l / 2 ^ e) * 2 ^ e + l % 2 ^ e := by
    rw [Nat.add_mul, Nat.add_assoc, Nat.add_assoc, ← bits, whole, Nat.pow_succ]
    ring
  have less := Nat.mod_lt l (Nat.two_pow_pos e)
  split_ifs with fits
  · rw [or_bit multiple]
    refine ⟨?_, by omega, less, Nat.dvd_add half dvd_rfl⟩
    have apart : (2 * r + l / 2 ^ e) * 2 ^ e = d * 2 ^ e + (2 * r + l / 2 ^ e - d) * 2 ^ e := by
      rw [← Nat.add_mul, Nat.add_sub_cancel' fits]
    rw [grown, apart]
    ring
  · exact ⟨grown, not_le.mp fits, less, half⟩

theorem long_last (long : Long n d q r 0 0) : q = n / d ∧ r = n % d :=
  split_last ⟨by simpa using long.whole, by simpa using long.below, by simp⟩

theorem long_done (long : Long n d q 0 0 e) : q = n / d ∧ 0 = n % d :=
  split_exact (e := 0) ⟨by simpa using long.whole, by simpa using long.below, by simp⟩ long.below

end Long

/-- What the caller finds: the quotient in yh and yl and the remainder in xh. -/
structure Divided (s : Core) (t : State) : Prop where
  pc : t.pc = .left (s.r lr)
  quotient : (t.core.r yh).toNat * 2 ^ 32 + (t.core.r yl).toNat =
    ((s.r xh).toNat * 2 ^ 32 + (s.r xl).toNat) / (s.r r4).toNat
  remainder : (t.core.r xh).toNat =
    if s.r r4 = 0#32 then 0 else ((s.r xh).toNat * 2 ^ 32 + (s.r xl).toNat) % (s.r r4).toNat
  others : ∀ y ∉ scratch, t.core.r y = s.r y
  mem : t.core.mem = if s.r r4 = 0#32 then setWord s.mem (s.r sp - 4) (s.r lr) else s.mem

/-- What is left to divide after the upper half. -/
def lower (s : Core) : Nat := (s.r xh).toNat % (s.r r4).toNat * 2 ^ 32 + (s.r xl).toNat

structure Low (s : Core) (l e w : Nat) (c : Core) : Prop where
  long : Long (lower s) (s.r r4).toNat (c.r yl).toNat (c.r xh).toNat l e
  low : (c.r xl).toNat = l * 2 ^ (32 - e)
  bit : (c.r ip).toNat = w
  high : c.r yh = s.r xh / s.r r4
  kept : Kept s c

section Lower

variable {s c : Core}

/-- The quotients of the two halves are that of the whole. -/
theorem divided {p : Nat} {cond : Cond} (here : div64[p]? = some (.ret cond)) (holds : cond.holds c = true)
    (divides : s.r r4 ≠ 0#32) (high : c.r yh = s.r xh / s.r r4) (quotient : (c.r yl).toNat = lower s / (s.r r4).toNat)
    (remainder : (c.r xh).toNat = lower s % (s.r r4).toNat) (kept : Kept s c) :
    Ends div64 ⟨c, .at p⟩ (Divided s) := by
  have positive : 0 < (s.r r4).toNat := Nat.pos_of_ne_zero fun h => divides (BitVec.eq_of_toNat_eq h)
  have whole : (s.r xh).toNat * 2 ^ 32 + (s.r xl).toNat =
      (s.r r4).toNat * ((s.r xh).toNat / (s.r r4).toNat * 2 ^ 32) + lower s := by
    rw [lower, ← Nat.add_assoc, ← Nat.mul_assoc, ← Nat.add_mul, Nat.div_add_mod]
  refine Ends.returned here holds ⟨congrArg Pc.left (kept.others lr (by decide)), ?_, ?_, kept.others, ?_⟩
  · rw [whole, Nat.mul_add_div positive, high, BitVec.toNat_udiv, quotient]
  · rw [if_neg divides, whole, Nat.mul_add_mod, remainder]
  · rw [if_neg divides, kept.mem]

theorem shift_out {w : Word} {l e : Nat} (within : e < 32) (value : w.toNat = l * 2 ^ (32 - (e + 1))) :
    (w <<< 1).toNat = l % 2 ^ e * 2 ^ (32 - e) ∧ w.getLsbD 31 = decide (2 ^ e ≤ l) := by
  constructor
  · have double : l * 2 ^ (32 - (e + 1)) * 2 = l * 2 ^ (32 - e) := by
      rw [Nat.mul_assoc, ← Nat.pow_succ]
      congr 2
      omega
    have top : 2 ^ 32 = 2 ^ e * 2 ^ (32 - e) := by rw [← Nat.pow_add, Nat.add_sub_cancel' within.le]
    rw [BitVec.toNat_shiftLeft, Nat.shiftLeft_eq, Nat.pow_one, value, double, top, Nat.mul_mod_mul_right]
  · have top : 2 ^ 31 = 2 ^ e * 2 ^ (32 - (e + 1)) := by rw [← Nat.pow_add]; congr 1; omega
    have msb : w.getLsbD 31 = w.msb := (BitVec.msb_eq_getLsbD_last w).symm
    rw [msb, BitVec.msb_eq_decide, value, top, decide_eq_decide]
    exact Nat.mul_le_mul_right_iff (Nat.two_pow_pos _)

/-- Where the bit of the quotient is set, and the next one begins. -/
def setBit : List (Cond × Bool × Op) :=
  [(.cs, false, .orr yl yl ip), (.cs, false, .sub xh xh r4), (.al, true, .mov ip (.lsr ip 1))]

theorem run_setBit {total : Nat} (carry : c.c = decide ((c.r r4).toNat ≤ total))
    (value : (c.r xh).toNat = total % 2 ^ 32) (below : total < 2 * (c.r r4).toNat) :
    ((run setBit c).r yl).toNat =
        (if (c.r r4).toNat ≤ total then (c.r yl).toNat ||| (c.r ip).toNat else (c.r yl).toNat) ∧
      ((run setBit c).r xh).toNat = (if (c.r r4).toNat ≤ total then total - (c.r r4).toNat else total) ∧
      (run setBit c).r ip = c.r ip >>> 1 ∧ (run setBit c).z = (c.r ip >>> 1 == 0#32) := by
  have fits₁ := (c.r xh).isLt
  have fits₂ := (c.r r4).isLt
  by_cases fits : (c.r r4).toNat ≤ total
  · have less : (c.r xh - c.r r4).toNat = total - (c.r r4).toNat := by
      rw [BitVec.toNat_sub, value]
      omega
    simp [setBit, run_cons, Cond.holds, carry, fits, less]
  · have same : (c.r xh).toNat = total := by omega
    simp [setBit, run_cons, Cond.holds, carry, fits, same]

/-- One bit of the lower half is done, and the loop goes on or returns. -/
theorem low_next {total l e : Nat} (within : e < 32) (divides : s.r r4 ≠ 0#32) {r : Nat}
    (long : Long (lower s) (s.r r4).toNat (c.r yl).toNat r l (e + 1)) (sum : total = 2 * r + l / 2 ^ e)
    (carry : c.c = decide ((s.r r4).toNat ≤ total)) (value : (c.r xh).toNat = total % 2 ^ 32)
    (low : (c.r xl).toNat = l % 2 ^ e * 2 ^ (32 - e)) (bit : (c.r ip).toNat = 2 ^ e)
    (high : c.r yh = s.r xh / s.r r4) (kept : Kept s c) :
    Ends div64 ⟨c, .at 30⟩ fun t =>
      (t.pc = .at 26 ∧ (∃ l e, e < 32 ∧ Low s l (e + 1) (2 ^ e) t.core) ∧ (t.core.r ip).toNat < 2 ^ e) ∨
        Divided s t := by
  have at30 : Placed div64 (ops setBit) 30 := by decide +kernel
  have at33 : div64[33]? = some (.b .ne (-7)) := by decide +kernel
  have at34 : div64[34]? = some (.ret .al) := by decide +kernel
  have divisor : c.r r4 = s.r r4 := kept.others r4 (by decide)
  have below : total < 2 * (c.r r4).toNat := by
    have rest := long.rest
    have bound := long.below
    have one := top_bit_lt_two rest
    rw [divisor]
    omega
  have next := long_bit long
  obtain ⟨quotient, remainder, half, zero⟩ := run_setBit (divisor ▸ carry) value below
  have kept' : Kept s (run setBit c) := kept_run kept (by decide)
  have low' : (run setBit c).r xl = c.r xl := @run_others _ [yl, xh, ip] (by decide) c _ (by decide)
  have high' : (run setBit c).r yh = c.r yh := @run_others _ [yl, xh, ip] (by decide) c _ (by decide)
  rw [divisor, bit, sum] at quotient
  rw [divisor, sum] at remainder
  rw [← quotient, ← remainder] at next
  have shifted : (c.r ip >>> 1).toNat = 2 ^ e / 2 := by rw [BitVec.toNat_ushiftRight, bit, Nat.shiftRight_eq_div_pow]
  refine Ends.block at30 ?_
  cases e with
  | zero =>
    obtain ⟨quotient, remainder⟩ := long_last (by simpa [Nat.mod_one] using next)
    have past : (run setBit c).z = true := by
      rw [zero, beq_iff_eq, ← BitVec.toNat_inj, shifted]
      rfl
    refine Ends.passed at33 (by simp [Cond.holds, past]) ?_
    exact (divided at34 rfl divides (high'.trans high) quotient remainder kept').mono fun _ => .inr
  | succ e =>
    have double : 2 ^ (e + 1) / 2 = 2 ^ e := by rw [Nat.pow_succ, Nat.mul_div_cancel _ (by omega)]
    have more : (run setBit c).z = false := by
      rw [zero, beq_eq_false_iff_ne, ne_eq, ← BitVec.toNat_inj, shifted, double]
      exact (Nat.two_pow_pos e).ne'
    refine Ends.taken at33 (by simp [Cond.holds, more]) (Ends.now (.inl ⟨rfl, ⟨_, e, by omega, next, ?_, ?_, ?_, kept'⟩, ?_⟩))
    · rw [low', low]
    · rw [half, shifted, double]
    · rw [high', high]
    · rw [half, shifted, double]
      exact Nat.pow_lt_pow_right (by omega) (by omega)

def shiftIn : List (Cond × Bool × Op) := [(.al, true, .mov xl (.lsl xl 1)), (.al, true, .adc xh xh xh)]

theorem run_shiftIn {l e : Nat} (within : e < 32) (low : (c.r xl).toNat = l * 2 ^ (32 - (e + 1)))
    (rest : l < 2 ^ (e + 1)) :
    ((run shiftIn c).r xl).toNat = l % 2 ^ e * 2 ^ (32 - e) ∧
      ((run shiftIn c).r xh).toNat = (2 * (c.r xh).toNat + l / 2 ^ e) % 2 ^ 32 ∧
      (run shiftIn c).c = decide (2 ^ 32 ≤ 2 * (c.r xh).toNat + l / 2 ^ e) ∧
      (run shiftIn c).z = decide ((2 * (c.r xh).toNat + l / 2 ^ e) % 2 ^ 32 = 0) := by
  obtain ⟨shifted, out⟩ := shift_out within low
  have bit : (decide (2 ^ e ≤ l)).toNat = l / 2 ^ e := by
    have one := top_bit_lt_two rest
    by_cases set : 2 ^ e ≤ l
    · have some : 0 < l / 2 ^ e := Nat.div_pos set (Nat.two_pow_pos e)
      rw [decide_eq_true set, Bool.toNat_true]
      omega
    · rw [decide_eq_false set, Nat.div_eq_of_lt (not_le.mp set), Bool.toNat_false]
  have carry : (c.r xl)[31] = decide (2 ^ e ≤ l) := (BitVec.getLsbD_eq_getElem (by omega)).symm.trans out
  refine ⟨?_, ?_, ?_, ?_⟩
  · simpa [shiftIn, run_cons] using shifted
  · simp [shiftIn, run_cons, Operand.carry, carry, bit, two_mul]
  · simp [shiftIn, run_cons, Operand.carry, carry, bit, two_mul]
  · rw [Bool.eq_iff_iff]
    simp [shiftIn, run_cons, Operand.carry, carry, bit, two_mul, ← BitVec.toNat_inj]

/-- The bits that are zero are skipped while the remainder is. -/
def skip : List (Cond × Bool × Op) := [(.al, true, .mov xl (.lsl xl 1)), (.al, false, .mov ip (.lsr ip 1))]

theorem run_skip {l e : Nat} (within : e < 32) (low : (c.r xl).toNat = l * 2 ^ (32 - (e + 1)))
    (bit : (c.r ip).toNat = 2 ^ (e + 1)) :
    ((run skip c).r xl).toNat = l % 2 ^ e * 2 ^ (32 - e) ∧ ((run skip c).r ip).toNat = 2 ^ e ∧
      (run skip c).c = decide (2 ^ e ≤ l) := by
  obtain ⟨shifted, out⟩ := shift_out within low
  have carry : (c.r xl)[31] = decide (2 ^ e ≤ l) := (BitVec.getLsbD_eq_getElem (by omega)).symm.trans out
  refine ⟨?_, ?_, ?_⟩
  · simpa [skip, run_cons] using shifted
  · have half : (c.r ip >>> 1).toNat = 2 ^ e := by
      rw [BitVec.toNat_ushiftRight, bit, Nat.shiftRight_eq_div_pow, Nat.pow_succ, Nat.pow_one,
        Nat.mul_div_cancel _ (by omega)]
    simpa [skip, run_cons] using half
  · simp [skip, run_cons, Operand.carry, carry]

def emerge : List (Cond × Bool × Op) := [(.al, true, .mov ip (.lsr ip 1)), (.al, false, .mov xh 1)]

/-- The first bit that is set is a remainder of one, which is below the divisor. -/
theorem skip_next {l e : Nat} (within : e < 32) (divides : s.r r4 ≠ 0#32)
    (long : Long (lower s) (s.r r4).toNat (c.r yl).toNat 1 l e) (low : (c.r xl).toNat = l * 2 ^ (32 - e))
    (bit : (c.r ip).toNat = 2 ^ e) (high : c.r yh = s.r xh / s.r r4) (kept : Kept s c) :
    Ends div64 ⟨c, .at 41⟩ fun t =>
      (t.pc = .at 26 ∧ (∃ l e, e < 32 ∧ Low s l (e + 1) (2 ^ e) t.core) ∧ (t.core.r ip).toNat ≤ 2 ^ e) ∨
        Divided s t := by
  have at41 : Placed div64 (ops emerge) 41 := by decide +kernel
  have at43 : div64[43]? = some (.b .ne (-17)) := by decide +kernel
  have at44 : div64[44]? = some (.ret .al) := by decide +kernel
  have kept' : Kept s (run emerge c) := kept_run kept (by decide)
  have regs : (run emerge c).r = Function.update (Function.update c.r ip (c.r ip >>> 1)) xh 1#32 := by
    simp [emerge, run_cons]
  have zero : (run emerge c).z = (c.r ip >>> 1 == 0#32) := by simp [emerge, run_cons]
  have shifted : (c.r ip >>> 1).toNat = 2 ^ e / 2 := by rw [BitVec.toNat_ushiftRight, bit, Nat.shiftRight_eq_div_pow]
  refine Ends.block at41 ?_
  cases e with
  | zero =>
    have none : l = 0 := Nat.lt_one_iff.mp long.rest
    obtain ⟨quotient, remainder⟩ := long_last (none ▸ long)
    have past : (run emerge c).z = true := by
      rw [zero, beq_iff_eq, ← BitVec.toNat_inj, shifted]
      rfl
    refine Ends.passed at43 (by simp [Cond.holds, past]) ?_
    refine (divided at44 rfl divides ?_ ?_ ?_ kept').mono fun _ => .inr
    · simpa [regs] using high
    · simpa [regs] using quotient
    · simpa [regs] using remainder
  | succ e =>
    have double : 2 ^ (e + 1) / 2 = 2 ^ e := by rw [Nat.pow_succ, Nat.mul_div_cancel _ (by omega)]
    have more : (run emerge c).z = false := by
      rw [zero, beq_eq_false_iff_ne, ne_eq, ← BitVec.toNat_inj, shifted, double]
      exact (Nat.two_pow_pos e).ne'
    refine Ends.taken at43 (by simp [Cond.holds, more])
      (Ends.now (.inl ⟨rfl, ⟨l, e, by omega, ?_, ?_, ?_, ?_, kept'⟩, ?_⟩))
    · simpa [regs] using long
    · simpa [regs] using low
    · rw [regs, Function.update_of_ne (by decide), Function.update_self, shifted, double]
    · simpa [regs] using high
    · rw [regs, Function.update_of_ne (by decide), Function.update_self, shifted]
      exact Nat.div_le_self _ _

theorem skip_loop {l e : Nat} (within : e < 32) (large : 1 < (s.r r4).toNat) (some : l ≠ 0)
    (long : Long (lower s) (s.r r4).toNat (c.r yl).toNat 0 l e) (low : (c.r xl).toNat = l * 2 ^ (32 - e))
    (bit : (c.r ip).toNat = 2 ^ e) (high : c.r yh = s.r xh / s.r r4) (kept : Kept s c) :
    Ends div64 ⟨c, .at 38⟩ fun t =>
      (t.pc = .at 26 ∧ (∃ l e, e < 32 ∧ Low s l (e + 1) (2 ^ e) t.core) ∧ (t.core.r ip).toNat < 2 ^ e) ∨
        Divided s t := by
  have at38 : Placed div64 (ops skip) 38 := by decide +kernel
  have at40 : div64[40]? = Option.some (.b .cc (-2)) := by decide +kernel
  have divides : s.r r4 ≠ 0#32 := fun h => by simp [h] at large
  induction e generalizing c with
  | zero => exact absurd (Nat.lt_one_iff.mp long.rest) some
  | succ e ih =>
    obtain ⟨rest, half, carry⟩ := run_skip (by omega) low bit
    have same : ∀ y ∉ [xl, ip], (run skip c).r y = c.r y := fun y apart =>
      @run_others _ [xl, ip] (by decide) c _ apart
    have kept' : Kept s (run skip c) := kept_run kept (by decide)
    have quotient : (run skip c).r yl = c.r yl := same yl (by decide)
    have high' : (run skip c).r yh = s.r xh / s.r r4 := (same yh (by decide)).trans high
    have multiple : 2 ^ e ∣ (c.r yl).toNat := (pow_dvd_pow 2 (Nat.le_succ e)).trans long.multiple
    have whole := long.whole
    have less := Nat.mod_lt l (Nat.two_pow_pos e)
    refine Ends.block at38 ?_
    by_cases set : 2 ^ e ≤ l
    · have one := top_bit_lt_two long.rest
      have positive : 0 < l / 2 ^ e := Nat.div_pos set (Nat.two_pow_pos e)
      have bits : l = 2 ^ e + l % 2 ^ e := by
        have split := Nat.div_add_mod' l (2 ^ e)
        rw [Nat.le_antisymm (Nat.le_of_lt_succ one) positive, Nat.one_mul] at split
        exact split.symm
      have next : Long (lower s) (s.r r4).toNat ((run skip c).r yl).toNat 1 (l % 2 ^ e) e := by
        rw [quotient]
        exact ⟨by omega, large, less, multiple⟩
      refine Ends.passed at40 (by simp [Cond.holds, carry, set]) ?_
      refine (skip_next (by omega) divides next rest half high' kept').mono fun t => Or.imp_left ?_
      rintro ⟨pc, inv, below⟩
      exact ⟨pc, inv, below.trans_lt (Nat.pow_lt_pow_right (by omega) (by omega))⟩
    · have same : l % 2 ^ e = l := Nat.mod_eq_of_lt (not_le.mp set)
      refine Ends.taken at40 (by simp [Cond.holds, carry, set]) ?_
      rw [same] at rest less
      have next : Long (lower s) (s.r r4).toNat ((run skip c).r yl).toNat 0 l e := by
        rw [quotient]
        exact ⟨by omega, long.below, less, multiple⟩
      refine (ih (by omega) next rest half high' kept').mono fun t => Or.imp_left ?_
      rintro ⟨pc, inv, below⟩
      exact ⟨pc, inv, below.trans (Nat.pow_lt_pow_right (by omega) (by omega))⟩

theorem low_round {l e : Nat} (within : e < 32) (large : 1 < (s.r r4).toNat) (now : Low s l (e + 1) (2 ^ e) c) :
    Ends div64 ⟨c, .at 26⟩ fun t =>
      (t.pc = .at 26 ∧ (∃ l e, e < 32 ∧ Low s l (e + 1) (2 ^ e) t.core) ∧ (t.core.r ip).toNat < 2 ^ e) ∨
        Divided s t := by
  have at26 : Placed div64 (ops shiftIn) 26 := by decide +kernel
  have at28 : div64[28]? = some (.b .eq 7) := by decide +kernel
  have at29 : Placed div64 (ops [(.cc, false, .cmp xh r4)]) 29 := by decide +kernel
  have at35 : div64[35]? = some (.b .cs (-5)) := by decide +kernel
  have at36 : Placed div64 (ops [(.al, false, .cmp xl 0)]) 36 := by decide +kernel
  have at37 : div64[37]? = some (.ret .eq) := by decide +kernel
  have divides : s.r r4 ≠ 0#32 := fun h => by simp [h] at large
  obtain ⟨low, value, carry, zero⟩ := run_shiftIn within now.low now.long.rest
  have same : ∀ y ∉ [xl, xh], (run shiftIn c).r y = c.r y := fun y apart =>
    @run_others _ [xl, xh] (by decide) c _ apart
  have long : Long (lower s) (s.r r4).toNat ((run shiftIn c).r yl).toNat (c.r xh).toNat l (e + 1) := by
    rw [same yl (by decide)]
    exact now.long
  have bit : ((run shiftIn c).r ip).toNat = 2 ^ e := by rw [same ip (by decide), now.bit]
  have high : (run shiftIn c).r yh = s.r xh / s.r r4 := by rw [same yh (by decide), now.high]
  have kept : Kept s (run shiftIn c) := kept_run now.kept (by decide)
  have divisor := kept.others r4 (by decide)
  refine Ends.block at26 ?_
  generalize run shiftIn c = t at low value carry zero long bit high kept divisor ⊢
  have next := long_bit long
  obtain ⟨total, sum⟩ : ∃ total, total = 2 * (c.r xh).toNat + l / 2 ^ e := ⟨_, rfl⟩
  rw [← sum] at value carry zero next
  by_cases empty : total % 2 ^ 32 = 0
  · refine Ends.taken at28 (zero.trans (decide_eq_true empty)) ?_
    by_cases past : 2 ^ 32 ≤ total
    · have fits := (s.r r4).isLt
      refine Ends.taken at35 (carry.trans (decide_eq_true past)) ?_
      refine low_next within divides long sum ?_ value low bit high kept
      rw [carry, decide_eq_true past, decide_eq_true (by omega)]
    · have nothing : total = 0 := by omega
      rw [nothing, if_neg (by omega), if_neg (by omega)] at next
      refine Ends.passed at35 (carry.trans (decide_eq_false past)) (Ends.block at36 ?_)
      have compared : (run [(.al, false, .cmp xl 0)] t).z = (t.r xl == 0#32) := by simp [run_cons]
      have kept' : Kept s (run [(.al, false, .cmp xl 0)] t) := kept_run kept (by decide)
      by_cases last : l % 2 ^ e = 0
      · have whole : (t.r xl == 0#32) = true := by
          rw [beq_iff_eq, ← BitVec.toNat_inj, low, last, Nat.zero_mul]
          rfl
        obtain ⟨quotient, remainder⟩ := long_done (last ▸ next)
        refine (divided at37 (compared.trans whole) divides high quotient ?_ kept').mono fun _ => .inr
        exact (value.trans empty).trans remainder
      · have some : (t.r xl == 0#32) = false := by
          rw [beq_eq_false_iff_ne, ne_eq, ← BitVec.toNat_inj, low]
          exact Nat.mul_ne_zero last (Nat.two_pow_pos _).ne'
        refine Ends.stayed at37 (compared.trans some) ?_
        exact skip_loop within large last next low bit high kept'
  · refine Ends.passed at28 (zero.trans (decide_eq_false empty)) (Ends.block at29 ?_)
    have compared : (run [(.cc, false, .cmp xh r4)] t).r = t.r ∧
        (run [(.cc, false, .cmp xh r4)] t).c = (t.c || decide (t.r r4 ≤ t.r xh)) := by
      cases past : t.c <;> simp [run_cons, Cond.holds, past]
    obtain ⟨regs, carry'⟩ := compared
    refine low_next within divides (regs ▸ long) sum ?_ (regs ▸ value) (regs ▸ low) (regs ▸ bit) (regs ▸ high)
      (kept_run kept (by decide))
    rw [carry', carry, divisor, ← Bool.decide_or, decide_eq_decide, BitVec.le_def, value]
    have fits := (s.r r4).isLt
    have below : total < 2 ^ 33 := by
      have one := top_bit_lt_two now.long.rest
      have fits := (c.r xh).isLt
      omega
    omega

theorem low_loop {l e : Nat} (within : e < 32) (large : 1 < (s.r r4).toNat) (start : Low s l (e + 1) (2 ^ e) c) :
    Ends div64 ⟨c, .at 26⟩ (Divided s) := by
  refine Ends.loop (fun c => ∃ l e, e < 32 ∧ Low s l (e + 1) (2 ^ e) c) (fun c => (c.r ip).toNat)
    (fun c inv => ?_) ⟨l, e, within, start⟩
  obtain ⟨l, e, within, now⟩ := inv
  rw [now.bit]
  exact low_round within large now

/-- Whether there is a lower half to do. -/
def looksLow : List (Cond × Bool × Op) :=
  [(.al, false, .cmp xh 0), (.al, false, .mov yl 0), (.eq, false, .cmp xl r4), (.lo, false, .mov xh xl)]

theorem lower_half (large : 1 < (s.r r4).toNat) (remainder : (c.r xh).toNat = (s.r xh).toNat % (s.r r4).toNat)
    (high : c.r yh = s.r xh / s.r r4) (rest : c.r xl = s.r xl) (kept : Kept s c) :
    Ends div64 ⟨c, .at 20⟩ (Divided s) := by
  have at20 : Placed div64 (ops looksLow) 20 := by decide +kernel
  have at24 : div64[24]? = some (.ret .lo) := by decide +kernel
  have at25 : Placed div64 (ops [(.al, false, .mov ip (.imm 0x80000000))]) 25 := by decide +kernel
  have divides : s.r r4 ≠ 0#32 := fun h => by simp [h] at large
  have divisor : c.r r4 = s.r r4 := kept.others r4 (by decide)
  have kept' : Kept s (run looksLow c) := kept_run kept (by decide)
  refine Ends.block at20 ?_
  by_cases short : c.r xh = 0#32 ∧ s.r xl < s.r r4
  · obtain ⟨empty, less⟩ := short
    have zero : (c.r xh == 0#32) = true := beq_iff_eq.mpr empty
    have small : lower s = (s.r xl).toNat := by rw [lower, ← remainder, empty]; simp
    have below : lower s < (s.r r4).toNat := small ▸ less
    have carry : (run looksLow c).c = false := by
      simp [looksLow, run_cons, Cond.holds, zero, less, rest, divisor]
    have quotient : (run looksLow c).r yl = 0#32 := by
      simp [looksLow, run_cons, Cond.holds, zero, less, rest, divisor]
    have left : (run looksLow c).r xh = s.r xl := by
      simp [looksLow, run_cons, Cond.holds, zero, less, rest, divisor]
    have high' : (run looksLow c).r yh = s.r xh / s.r r4 :=
      (@run_others _ [yl, xh] (by decide) c _ (by decide)).trans high
    refine divided at24 (by simp [Cond.holds, carry]) divides high' ?_ ?_ kept'
    · rw [quotient, Nat.div_eq_of_lt below]
      rfl
    · rw [left, Nat.mod_eq_of_lt below, small]
  · have more : (run looksLow c).c = true ∧ (run looksLow c).r = Function.update c.r yl 0#32 := by
      by_cases empty : c.r xh = 0#32
      · have zero : (c.r xh == 0#32) = true := beq_iff_eq.mpr empty
        have large : s.r r4 ≤ s.r xl := BitVec.not_lt.mp fun h => short ⟨empty, h⟩
        simp [looksLow, run_cons, Cond.holds, zero, rest, divisor, large]
      · simp [looksLow, run_cons, Cond.holds, empty, BitVec.le_def]
    obtain ⟨carry, regs⟩ := more
    refine Ends.stayed at24 (by simp [Cond.holds, carry]) (Ends.block at25 ?_)
    have start : Low s (s.r xl).toNat 32 (2 ^ 31) (run [(.al, false, .mov ip (.imm 0x80000000))] (run looksLow c)) := by
      refine ⟨⟨?_, ?_, ?_, ?_⟩, ?_, ?_, ?_, ?_⟩
      · simp [run_cons, regs, lower, remainder]
      · simp [run_cons, regs, remainder, Nat.mod_lt _ (Nat.zero_lt_of_lt large)]
      · simpa using (s.r xl).isLt
      · simp [run_cons, regs]
      · simp [run_cons, regs, rest]
      · simp [run_cons]
      · simp [run_cons, regs, high]
      · exact kept_run kept' (by decide)
    exact low_loop (by omega) large start

end Lower

/-! The upper half -/

section Upper

variable {s c : Core}

structure Upper (s : Core) (k : Nat) (c : Core) : Prop where
  shifted : (c.r yl).toNat = (s.r r4).toNat * 2 ^ k
  bit : (c.r ip).toNat = 2 ^ k
  split : Split (s.r xh).toNat (s.r r4).toNat (c.r yh).toNat (c.r xh).toNat (k + 1)
  rest : c.r xl = s.r xl
  kept : Kept s c

def upperBit : List (Cond × Bool × Op) :=
  [(.al, false, .cmp xh yl), (.cs, false, .orr yh yh ip), (.cs, true, .sub xh xh yl),
    (.ne, true, .mov ip (.lsr ip 1)), (.al, false, .mov yl (.lsr yl 1))]

theorem run_upperBit (c : Core) :
    (run upperBit c).r yh = (if c.r yl ≤ c.r xh then c.r yh ||| c.r ip else c.r yh) ∧
      (run upperBit c).r xh = (if c.r yl ≤ c.r xh then c.r xh - c.r yl else c.r xh) ∧
      (run upperBit c).r yl = c.r yl >>> 1 ∧
      (run upperBit c).r ip = (if c.r xh = c.r yl then c.r ip else c.r ip >>> 1) ∧
      (run upperBit c).z = (c.r xh == c.r yl || c.r ip >>> 1 == 0#32) := by
  by_cases fits : c.r yl ≤ c.r xh
  · by_cases equal : c.r xh = c.r yl
    · simp [upperBit, run_cons, Cond.holds, equal]
    · simp [upperBit, run_cons, Cond.holds, fits, equal]
  · have differ : c.r xh ≠ c.r yl := fun h => fits (h ▸ BitVec.le_refl _)
    simp [upperBit, run_cons, Cond.holds, fits, differ]

theorem upper_round {k : Nat} (large : 1 < (s.r r4).toNat) (now : Upper s k c) :
    Ends div64 ⟨c, .at 14⟩ fun t =>
      (t.pc = .at 14 ∧ (∃ k, Upper s k t.core) ∧ (t.core.r ip).toNat < (c.r ip).toNat) ∨ Divided s t := by
  have at14 : Placed div64 (ops upperBit) 14 := by decide +kernel
  have at19 : div64[19]? = some (.b .ne (-5)) := by decide +kernel
  obtain ⟨quotient, remainder, divisor, half, zero⟩ := run_upperBit c
  have kept : Kept s (run upperBit c) := kept_run now.kept (by decide)
  have rest : (run upperBit c).r xl = s.r xl :=
    (@run_others _ [yh, xh, ip, yl] (by decide) c _ (by decide)).trans now.rest
  have next := split_bit now.split
  have fits : c.r yl ≤ c.r xh ↔ (s.r r4).toNat * 2 ^ k ≤ (c.r xh).toNat := by rw [BitVec.le_def, now.shifted]
  have quotient' : ((run upperBit c).r yh).toNat =
      if (s.r r4).toNat * 2 ^ k ≤ (c.r xh).toNat then (c.r yh).toNat ||| 2 ^ k else (c.r yh).toNat := by
    simp only [quotient, fits]
    split_ifs
    · rw [BitVec.toNat_or, now.bit]
    · rfl
  have remainder' : ((run upperBit c).r xh).toNat =
      if (s.r r4).toNat * 2 ^ k ≤ (c.r xh).toNat then (c.r xh).toNat - (s.r r4).toNat * 2 ^ k else (c.r xh).toNat := by
    simp only [remainder, fits]
    split_ifs with enough
    · rw [BitVec.toNat_sub_of_le (fits.mpr enough), now.shifted]
    · rfl
  rw [← quotient', ← remainder'] at next
  refine Ends.block at14 ?_
  generalize run upperBit c = t at *
  by_cases past : c.r xh = c.r yl ∨ c.r ip >>> 1 = 0#32
  · have done : (t.r yh).toNat = (s.r xh).toNat / (s.r r4).toNat ∧ (t.r xh).toNat = (s.r xh).toNat % (s.r r4).toNat := by
      obtain equal | last := past
      · have none : (t.r xh).toNat = 0 := by
          have shifted : (c.r xh).toNat = (s.r r4).toNat * 2 ^ k := by rw [equal, now.shifted]
          rw [remainder', if_pos shifted.ge, shifted, Nat.sub_self]
        rw [none] at next ⊢
        exact split_exact next (Nat.zero_lt_of_lt large)
      · have low : k = 0 := by
          have half := congrArg BitVec.toNat last
          rw [BitVec.toNat_ushiftRight, now.bit, Nat.shiftRight_eq_div_pow] at half
          by_contra some
          exact absurd half (Nat.div_pos (Nat.le_self_pow some 2) (by omega)).ne'
        exact split_last (low ▸ next)
    have high : t.r yh = s.r xh / s.r r4 := BitVec.eq_of_toNat_eq (done.1.trans BitVec.toNat_udiv.symm)
    refine Ends.passed at19 ?_ ((lower_half large done.2 high rest kept).mono fun _ => .inr)
    obtain h | h := past <;> simp [Cond.holds, zero, h]
  · rw [not_or] at past
    have shifted : (c.r ip >>> 1).toNat = 2 ^ k / 2 := by
      rw [BitVec.toNat_ushiftRight, now.bit, Nat.shiftRight_eq_div_pow]
    cases k with
    | zero => exact absurd (BitVec.eq_of_toNat_eq shifted) past.2
    | succ k =>
      have double : 2 ^ (k + 1) / 2 = 2 ^ k := by rw [Nat.pow_succ, Nat.mul_div_cancel _ (by omega)]
      refine Ends.taken at19 (by simp [Cond.holds, zero, past])
        (Ends.now (.inl ⟨rfl, ⟨k, ?_, ?_, next, rest, kept⟩, ?_⟩))
      · rw [divisor, BitVec.toNat_ushiftRight, now.shifted, Nat.shiftRight_eq_div_pow, Nat.pow_succ,
          ← Nat.mul_assoc, Nat.pow_one, Nat.mul_div_cancel _ (by omega)]
      · rw [half, if_neg past.1, shifted, double]
      · rw [half, if_neg past.1, shifted, now.bit, double]
        exact Nat.pow_lt_pow_right (by omega) (by omega)

theorem upper_loop {k : Nat} (large : 1 < (s.r r4).toNat) (start : Upper s k c) :
    Ends div64 ⟨c, .at 14⟩ (Divided s) := by
  refine Ends.loop (fun c => ∃ k, Upper s k c) (fun c => (c.r ip).toNat) (fun c inv => ?_) ⟨k, start⟩
  obtain ⟨k, now⟩ := inv
  exact upper_round large now

/-- A divisor that is no power of two. -/
theorem upper_half (large : 1 < (s.r r4).toNat) (high : c.r xh = s.r xh) (rest : c.r xl = s.r xl) (kept : Kept s c) :
    Ends div64 ⟨c, .at 4⟩ (Divided s) := by
  have at4 : Placed div64 (ops [(.al, false, .cmp xh r4), (.al, false, .mov yh 0)]) 4 := by decide +kernel
  have at6 : div64[6]? = some (.b .lo 14) := by decide +kernel
  have at7 : Placed div64 (ops [(.al, false, .mov yl r4), (.al, false, .mov ip 1)]) 7 := by decide +kernel
  have at9 : Placed div64 (assemble (alignLoop xh yl 0x80000000 1 (.mov ip (.lsl ip 1)))) 9 := by decide +kernel
  have divisor : c.r r4 = s.r r4 := kept.others r4 (by decide)
  have kept₁ : Kept s (run [(.al, false, .cmp xh r4), (.al, false, .mov yh 0)] c) := kept_run kept (by decide)
  refine Ends.block at4 ?_
  by_cases small : s.r xh < s.r r4
  · have below : ¬s.r r4 ≤ s.r xh := BitVec.not_le.mpr small
    refine Ends.taken at6 (by simp [run_cons, Cond.holds, high, divisor, below]) (lower_half large ?_ ?_ ?_ kept₁)
    · have same : (s.r xh).toNat % (s.r r4).toNat = (s.r xh).toNat := Nat.mod_eq_of_lt small
      simp [run_cons, high, same]
    · simp [run_cons, udiv_of_lt small]
    · simp [run_cons, rest]
  have enough : s.r r4 ≤ s.r xh := BitVec.not_lt.mp small
  refine Ends.passed at6 (by simp [run_cons, Cond.holds, high, divisor, enough]) (Ends.block at7 ?_)
  have kept₂ := @kept_run _ _ [(.al, false, .mov yl r4), (.al, false, .mov ip 1)] kept₁ (by decide)
  have start : Aligned (run [(.al, false, .mov yl r4), (.al, false, .mov ip 1)]
      (run [(.al, false, .cmp xh r4), (.al, false, .mov yh 0)] c)) yl ip (fun j => 1 <<< j) (s.r r4).toNat 0
      (run [(.al, false, .mov yl r4), (.al, false, .mov ip 1)]
        (run [(.al, false, .cmp xh r4), (.al, false, .mov yh 0)] c)) :=
    ⟨by simp [run_cons, divisor], by simp [run_cons], fun _ _ _ => rfl, rfl⟩
  have dividend : (run [(.al, false, .mov yl r4), (.al, false, .mov ip 1)]
      (run [(.al, false, .cmp xh r4), (.al, false, .mov yh 0)] c)).r xh = s.r xh := by simp [run_cons, high]
  have none : (run [(.al, false, .mov yl r4), (.al, false, .mov ip 1)]
      (run [(.al, false, .cmp xh r4), (.al, false, .mov yh 0)] c)).r yh = 0#32 := by simp [run_cons]
  have low : (run [(.al, false, .mov yl r4), (.al, false, .mov ip 1)]
      (run [(.al, false, .cmp xh r4), (.al, false, .mov yh 0)] c)).r xl = s.r xl := by simp [run_cons, rest]
  generalize run [(.al, false, .mov yl r4), (.al, false, .mov ip 1)]
    (run [(.al, false, .cmp xh r4), (.al, false, .mov yh 0)] c) = u at kept₂ start dividend none low ⊢
  have positive := Nat.zero_lt_of_lt large
  refine (align_loop at9 (counts_lsl ip 1) (by decide) (by decide) (by omega) positive start).bind ?_
  rintro ⟨t, _⟩ ⟨rfl, j, aligned, close⟩
  dsimp only at aligned close
  refine upper_loop (k := j) large ⟨aligned.shifted, ?_, ?_, ?_, fun y apart => ?_, aligned.mem.trans kept₂.mem⟩
  · rw [aligned.count, toNat_shiftLeft (Nat.one_lt_two_pow (by have := aligned_within positive aligned; omega))
      (aligned_within positive aligned).le]
    simp
  · have split := split_start (aligned_enough positive aligned close)
    rw [aligned.others yh (by decide) (by decide), aligned.others xh (by decide) (by decide), dividend, none]
    rwa [dividend] at split
  · rw [aligned.others xl (by decide) (by decide), low]
  · rw [aligned.others y (fun h => apart (h ▸ by decide)) (fun h => apart (h ▸ by decide)), kept₂.others y apart]

end Upper

/-! A power of two -/

theorem wide_div (h l : Nat) {k : Nat} (within : k ≤ 32) :
    (h * 2 ^ 32 + l) / 2 ^ k = h / 2 ^ k * 2 ^ 32 + (h % 2 ^ k * 2 ^ (32 - k) + l / 2 ^ k) := by
  have top : 2 ^ 32 = 2 ^ (32 - k) * 2 ^ k := by rw [← Nat.pow_add, Nat.sub_add_cancel within]
  calc (h * 2 ^ 32 + l) / 2 ^ k = (2 ^ k * (h * 2 ^ (32 - k)) + l) / 2 ^ k := by rw [top]; ring_nf
    _ = h * 2 ^ (32 - k) + l / 2 ^ k := Nat.mul_add_div (Nat.two_pow_pos k) _ _
    _ = (2 ^ k * (h / 2 ^ k) + h % 2 ^ k) * 2 ^ (32 - k) + l / 2 ^ k := by rw [Nat.div_add_mod]
    _ = h / 2 ^ k * 2 ^ 32 + (h % 2 ^ k * 2 ^ (32 - k) + l / 2 ^ k) := by rw [top]; ring

theorem wide_mod (h l : Nat) {k : Nat} (within : k ≤ 32) : (h * 2 ^ 32 + l) % 2 ^ k = l % 2 ^ k := by
  have top : 2 ^ 32 = 2 ^ k * 2 ^ (32 - k) := by rw [← Nat.pow_add, Nat.add_sub_cancel' within]
  rw [top, Nat.mul_left_comm, Nat.mul_add_mod]

section Power

variable {s c : Core} {k : Nat}

def findOrder64 : List (Cond × Bool × Op) :=
  [(.al, false, .mov yl r4), (.al, false, .cmp r4 (.imm 0x10000)), (.al, false, .mov ip 0),
    (.hs, false, .mov yl (.lsr yl 16)), (.hs, false, .mov ip 16)] ++
    findNext yl ip 8 ++ findNext yl ip 4 ++ findLast yl ip

theorem run_order64 (within : k < 32) (power : c.r r4 = 1#32 <<< k) :
    (run findOrder64 c).r ip = BitVec.ofNat 32 k := by
  have first : pair yl ip (run [(.al, false, .mov yl r4), (.al, false, .cmp r4 (.imm 0x10000)), (.al, false, .mov ip 0),
      (.hs, false, .mov yl (.lsr yl 16)), (.hs, false, .mov ip 16)] c) = narrow 16 (1#32 <<< k, 0) := by
    rw [← power]
    by_cases high : 65536#32 ≤ c.r r4 <;> simp [pair, run_cons, Cond.holds, narrow, high]
  simp only [findOrder64, run_append]
  rw [run_findLast, run_findNext (by decide), run_findNext (by decide), first]
  exact order_of_power k within

/-- The values are shifted around. -/
def shiftAround : List (Cond × Bool × Op) :=
  [(.al, false, .mov yh (.lsrBy xh ip)), (.al, false, .mov yl (.lsrBy xl ip)), (.al, false, .rsb ip ip 32),
    (.al, false, .orr yl yl (.lslBy xh ip)), (.al, false, .mov xh (.lslBy xl ip)),
    (.al, false, .mov xh (.lsrBy xh ip))]

theorem run_shiftAround (within : k < 32) (order : c.r ip = BitVec.ofNat 32 k) :
    (run shiftAround c).r yh = c.r xh >>> k ∧
      (run shiftAround c).r yl = c.r xl >>> k ||| c.r xh <<< (32 - k) ∧
      (run shiftAround c).r xh = (c.r xl <<< (32 - k)) >>> (32 - k) := by
  have amount : k % 256 = k := Nat.mod_eq_of_lt (by omega)
  have back : (4294967296 - k % 4294967296 + 32) % 256 = 32 - k := by omega
  simp [shiftAround, run_cons, Core.amount, order, amount, back]

theorem toNat_shifted_or (h l : Word) (within : k < 32) :
    (l >>> k ||| h <<< (32 - k)).toNat = h.toNat % 2 ^ k * 2 ^ (32 - k) + l.toNat / 2 ^ k := by
  have top : 2 ^ 32 = 2 ^ k * 2 ^ (32 - k) := by rw [← Nat.pow_add, Nat.add_sub_cancel' within.le]
  have low : l.toNat / 2 ^ k < 2 ^ (32 - k) := Nat.div_lt_of_lt_mul (top ▸ l.isLt)
  rw [BitVec.toNat_or, BitVec.toNat_ushiftRight, BitVec.toNat_shiftLeft, Nat.shiftLeft_eq,
    Nat.shiftRight_eq_div_pow, top, Nat.mul_mod_mul_right, Nat.or_comm, Nat.mul_comm (h.toNat % 2 ^ k),
    Nat.two_pow_add_eq_or_of_lt low]

theorem toNat_low_bits (l : Word) (within : k < 32) : ((l <<< (32 - k)) >>> (32 - k)).toNat = l.toNat % 2 ^ k := by
  have top : 2 ^ 32 = 2 ^ k * 2 ^ (32 - k) := by rw [← Nat.pow_add, Nat.add_sub_cancel' within.le]
  rw [BitVec.toNat_ushiftRight, BitVec.toNat_shiftLeft, Nat.shiftLeft_eq, Nat.shiftRight_eq_div_pow, top,
    Nat.mul_mod_mul_right, Nat.mul_div_cancel _ (Nat.two_pow_pos _)]

theorem by_power (divides : s.r r4 ≠ 0#32) (within : k < 32) (power : s.r r4 = 1#32 <<< k) (high : c.r xh = s.r xh)
    (rest : c.r xl = s.r xl) (kept : Kept s c) : Ends div64 ⟨c, .at 45⟩ (Divided s) := by
  have at45 : Placed div64 (ops (findOrder64 ++ shiftAround)) 45 := by decide +kernel
  have at65 : div64[65]? = some (.ret .al) := by decide +kernel
  have divisor : c.r r4 = 1#32 <<< k := (kept.others r4 (by decide)).trans power
  have order := run_order64 within divisor
  have same : ∀ y ∉ [yl, ip], (run findOrder64 c).r y = c.r y := fun y apart =>
    @run_others _ [yl, ip] (by decide) c _ apart
  have kept' : Kept s (run shiftAround (run findOrder64 c)) := kept_run (kept_run kept (by decide)) (by decide)
  obtain ⟨top, bottom, left⟩ := run_shiftAround within order
  rw [same xh (by decide), high] at top bottom
  rw [same xl (by decide), rest] at bottom left
  have value : (s.r r4).toNat = 2 ^ k := by
    rw [power, toNat_shiftLeft (Nat.one_lt_two_pow (by omega)) within.le]
    simp
  refine Ends.block at45 ?_
  rw [run_append]
  refine Ends.returned at65 rfl ⟨congrArg Pc.left (kept'.others lr (by decide)), ?_, ?_, kept'.others, ?_⟩
  · rw [value, wide_div _ _ within.le, top, bottom, toNat_shifted_or _ _ within, BitVec.toNat_ushiftRight,
      Nat.shiftRight_eq_div_pow]
  · rw [if_neg divides, value, wide_mod _ _ within.le, left, toNat_low_bits _ within]
  · rw [if_neg divides, kept'.mem]

/-- A divisor of one, or of zero. -/
theorem by_little (little : (s.r r4).toNat ≤ 1) (aligned : s.r r4 = 0#32 → WordAligned (s.r sp))
    (zero : c.z = (s.r r4 == 1#32)) (high : c.r xh = s.r xh) (rest : c.r xl = s.r xl) (kept : Kept s c) :
    Ends div64 ⟨c, .at 66⟩ (Divided s) := by
  have at66 : Placed div64 (ops [(.eq, false, .mov yl xl), (.eq, false, .mov yh xh), (.eq, false, .mov xh 0)]) 66 := by
    decide +kernel
  have at69 : div64[69]? = some (.ret .eq) := by decide +kernel
  have at70 : div64[70]? = some (.push lr) := by decide +kernel
  have at71 : Placed div64 (ops [(.al, false, .mov yl 0), (.al, false, .mov yh 0), (.al, false, .mov xh 0)]) 71 := by
    decide +kernel
  have at74 : div64[74]? = some .popPc := by decide +kernel
  refine Ends.block at66 ?_
  have kept' := @kept_run _ _ [(.eq, false, .mov yl xl), (.eq, false, .mov yh xh), (.eq, false, .mov xh 0)] kept
    (by decide)
  by_cases one : s.r r4 = 1#32
  · have single : c.z = true := zero.trans (beq_iff_eq.mpr one)
    have value : (s.r r4).toNat = 1 := by rw [one]; rfl
    have divides : s.r r4 ≠ 0#32 := fun h => by simp [h] at one
    refine Ends.returned at69 (by simp [run_cons, Cond.holds, single])
      ⟨congrArg Pc.left (kept'.others lr (by decide)), ?_, ?_, kept'.others, ?_⟩
    · simp [run_cons, Cond.holds, single, high, rest, value]
    · simp [run_cons, Cond.holds, single, divides, value, Nat.mod_one]
    · rw [if_neg divides, kept'.mem]
  · have none : s.r r4 = 0#32 := by
      refine BitVec.eq_of_toNat_eq (Nat.lt_one_iff.mp (lt_of_le_of_ne little fun h => one ?_))
      exact BitVec.eq_of_toNat_eq h
    have several : c.z = false := zero.trans (beq_eq_false_iff_ne.mpr one)
    refine Ends.stayed at69 (by simp [run_cons, Cond.holds, several]) ?_
    generalize run [(.eq, false, .mov yl xl), (.eq, false, .mov yh xh), (.eq, false, .mov xh 0)] c = d at kept' ⊢
    have stack := kept'.others sp (by decide)
    have link := kept'.others lr (by decide)
    have above : WordAligned (d.r sp) := stack ▸ aligned none
    refine Ends.stacked at70 (fun _ => above) (Ends.block at71 (Ends.stacked at74 (fun _ => ?_) (Ends.now ?_)))
    · simpa [Instr.exec, run_cons] using above.pushed
    refine ⟨?_, ?_, ?_, fun y apart => ?_, ?_⟩
    · simp [Instr.exec, run_cons, Cond.holds, link]
    · simp [Instr.exec, run_cons, Cond.holds, none]
    · simp [Instr.exec, run_cons, Cond.holds, none]
    · have same := kept'.others y apart
      simp only [scratch, List.mem_cons, List.not_mem_nil, or_false, not_or] at apart
      by_cases top : y = sp
      · subst top
        simp [Instr.exec, run_cons, Cond.holds, stack]
      · simp [Instr.exec, run_cons, Cond.holds, apart, top, same]
    · simp [Instr.exec, run_cons, Cond.holds, none, kept'.mem, stack, link]

end Power

/-- Any dividend and any divisor. -/
theorem do_div64_divides (s : Core) (aligned : s.r r4 = 0#32 → WordAligned (s.r sp)) :
    Ends div64 ⟨s, .at 0⟩ (Divided s) := by
  have at0 : Placed div64 (ops [(.al, true, .sub ip r4 1)]) 0 := by decide +kernel
  have at1 : div64[1]? = some (.b .ls 65) := by decide +kernel
  have at2 : Placed div64 (ops [(.al, false, .tst ip r4)]) 2 := by decide +kernel
  have at3 : div64[3]? = some (.b .eq 42) := by decide +kernel
  have kept : Kept s (run [(.al, true, .sub ip r4 1)] s) := kept_run (kept_refl s) (by decide)
  refine Ends.block at0 ?_
  by_cases little : (s.r r4).toNat ≤ 1
  · refine Ends.taken at1 ?_ (by_little little aligned ?_ ?_ ?_ kept)
    · by_cases one : s.r r4 = 1#32
      · simp [run_cons, Cond.holds, one]
      · have below : ¬1#32 ≤ s.r r4 := fun h => one (BitVec.eq_of_toNat_eq (Nat.le_antisymm little h))
        simp [run_cons, Cond.holds, below]
    · simp [run_cons]
    · simp [run_cons]
    · simp [run_cons]
  have large : 1 < (s.r r4).toNat := not_le.mp little
  have some : 1#32 ≤ s.r r4 := BitVec.le_def.mpr large.le
  have several : s.r r4 ≠ 1#32 := fun h => by simp [h] at large
  have divides : s.r r4 ≠ 0#32 := fun h => by simp [h] at large
  have kept' := @kept_run _ _ [(.al, false, .tst ip r4)] kept (by decide)
  refine Ends.passed at1 (by simp [run_cons, Cond.holds, some, several]) (Ends.block at2 ?_)
  by_cases power : s.r r4 &&& (s.r r4 - 1#32) = 0#32
  · obtain ⟨k, within, value⟩ := power_of_two divides power
    rw [BitVec.and_comm] at power
    refine Ends.taken at3 (by simp [run_cons, Cond.holds, power]) (by_power divides within value ?_ ?_ kept')
    · simp [run_cons]
    · simp [run_cons]
  · rw [BitVec.and_comm] at power
    refine Ends.passed at3 (by simp [run_cons, Cond.holds, power]) (upper_half large ?_ ?_ kept')
    · simp [run_cons]
    · simp [run_cons]

end Tiny6410.Div
