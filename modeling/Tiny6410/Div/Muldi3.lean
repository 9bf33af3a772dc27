import Mathlib
import Tiny6410.Lib.Alu

/-! no-os/stdio/lib/muldi3.c: a product of 64 bits from those of 16 bits. -/
namespace Tiny6410.Div

open Alu Alu.Reg Memory

/-- The operands of the inline assembly in umul_ppmm. The outputs that are marked with & are
written while the inputs are still wanted, and the others may lie where an input was. -/
structure Allocation where
  xh : Reg
  xl : Reg
  t0 : Reg
  t1 : Reg
  t2 : Reg
  a : Reg
  b : Reg
  outputs : [xh, xl, t0, t1, t2].Nodup
  early : ∀ y ∈ [xh, t0, t1], y ≠ a ∧ y ≠ b

def umul_ppmm (x : Allocation) : List (Cond × Bool × Op) :=
  [ (.al, false, .mov x.t0 (.lsr x.a 16)),
    (.al, false, .mov x.xh (.lsr x.b 16)),
    (.al, false, .bic x.t1 x.a (.lsl x.t0 16)),
    (.al, false, .bic x.t2 x.b (.lsl x.xh 16)),
    (.al, false, .mul x.xl x.t1 x.t2),
    (.al, false, .mul x.t2 x.t0 x.t2),
    (.al, false, .mul x.t1 x.xh x.t1),
    (.al, false, .mul x.xh x.t0 x.xh),
    (.al, true, .add x.t1 x.t2 x.t1),
    (.cs, false, .add x.xh x.xh (.imm 65536)),
    (.al, true, .add x.xl x.xl (.lsl x.t1 16)),
    (.al, false, .adc x.xh x.xh (.lsr x.t1 16)) ]

def low (u : BitVec 64) : Word := u.setWidth 32
def high (u : BitVec 64) : Word := (u >>> 32).setWidth 32

/-- The registers hold the low words when the assembly starts. -/
def muldi3 (x : Allocation) (s : Core) (u v : BitVec 64) : BitVec 64 :=
  let w := run (umul_ppmm x) s
  (w.r x.xh + (low u * high v + high u * low v)) ++ w.r x.xl

section Product

variable (x : Allocation) (s : Core)

/-- The halves of both, and the four products of them. -/
def halves : List (Cond × Bool × Op) := (umul_ppmm x).take 8

def middle : List (Cond × Bool × Op) := ((umul_ppmm x).drop 8).take 2

def gather : List (Cond × Bool × Op) := (umul_ppmm x).drop 10

theorem umul_ppmm_parts : umul_ppmm x = halves x ++ middle x ++ gather x := rfl

variable {x} {s}

theorem toNat_low_half (w : Word) : (w &&& ~~~(w >>> 16 <<< 16)).toNat = w.toNat % 2 ^ 16 := by
  have same : w &&& ~~~(w >>> 16 <<< 16) = (w.setWidth 16).setWidth 32 := by
    refine BitVec.eq_of_getLsbD_eq fun i within => ?_
    by_cases low : i < 16
    · simp [within, low]
    · have back : 16 + (i - 16) = i := by omega
      simp [within, low, back]
  rw [same, BitVec.toNat_setWidth, BitVec.toNat_setWidth, Nat.mod_eq_of_lt]
  exact (Nat.mod_lt _ (by omega)).trans (by omega)

theorem run_halves :
    (run (halves x) s).r x.xl = (s.r x.a &&& ~~~(s.r x.a >>> 16 <<< 16)) * (s.r x.b &&& ~~~(s.r x.b >>> 16 <<< 16)) ∧
      (run (halves x) s).r x.t2 = s.r x.a >>> 16 * (s.r x.b &&& ~~~(s.r x.b >>> 16 <<< 16)) ∧
      (run (halves x) s).r x.t1 = s.r x.b >>> 16 * (s.r x.a &&& ~~~(s.r x.a >>> 16 <<< 16)) ∧
      (run (halves x) s).r x.xh = s.r x.a >>> 16 * s.r x.b >>> 16 := by
  have outputs := x.outputs
  have early := x.early
  simp only [List.nodup_cons, List.mem_cons, List.not_mem_nil, or_false, not_or] at outputs
  simp only [List.mem_cons, List.not_mem_nil, or_false, forall_eq_or_imp, forall_eq] at early
  simp [halves, umul_ppmm, run_cons, outputs, early, Ne.symm]

theorem run_middle :
    (run (middle x) s).r x.xl = s.r x.xl ∧ (run (middle x) s).r x.t1 = s.r x.t2 + s.r x.t1 ∧
      (run (middle x) s).r x.xh =
        if 4294967296 ≤ (s.r x.t2).toNat + (s.r x.t1).toNat then s.r x.xh + 65536#32 else s.r x.xh := by
  have outputs := x.outputs
  simp only [List.nodup_cons, List.mem_cons, List.not_mem_nil, or_false, not_or] at outputs
  by_cases past : 4294967296 ≤ (s.r x.t2).toNat + (s.r x.t1).toNat
  · simp [middle, umul_ppmm, run_cons, Cond.holds, outputs, Ne.symm, past]
  · simp [middle, umul_ppmm, run_cons, Cond.holds, outputs, Ne.symm, past]

theorem run_gather :
    ((run (gather x) s).r x.xl).toNat = ((s.r x.xl).toNat + (s.r x.t1).toNat * 65536) % 4294967296 ∧
      ((run (gather x) s).r x.xh).toNat =
        ((s.r x.xh).toNat + (s.r x.t1).toNat / 65536 +
          if 4294967296 ≤ (s.r x.xl).toNat + (s.r x.t1).toNat * 65536 % 4294967296 then 1 else 0) % 4294967296 := by
  have outputs := x.outputs
  simp only [List.nodup_cons, List.mem_cons, List.not_mem_nil, or_false, not_or] at outputs
  constructor
  · simp [gather, umul_ppmm, run_cons, outputs, Ne.symm, Nat.shiftLeft_eq]
  · simp [gather, umul_ppmm, run_cons, outputs, Ne.symm, Nat.shiftLeft_eq, Nat.shiftRight_eq_div_pow, Bool.toNat,
      Bool.cond_decide]

/-- The sums do not overflow where each product is one of two halves, at most (2 ^ 16 - 1) ^ 2. -/
theorem run_sums (hh : (s.r x.xh).toNat ≤ 4294836225) (hl : (s.r x.t2).toNat ≤ 4294836225)
    (lh : (s.r x.t1).toNat ≤ 4294836225) (ll : (s.r x.xl).toNat ≤ 4294836225) :
    ((run (gather x) (run (middle x) s)).r x.xh).toNat * 2 ^ 32 +
        ((run (gather x) (run (middle x) s)).r x.xl).toNat =
      (s.r x.xh).toNat * 2 ^ 32 + ((s.r x.t2).toNat + (s.r x.t1).toNat) * 2 ^ 16 + (s.r x.xl).toNat := by
  obtain ⟨bottom, both, top⟩ := run_middle (x := x) (s := s)
  obtain ⟨bottom', top'⟩ := run_gather (x := x) (s := run (middle x) s)
  have carried : ((run (middle x) s).r x.xh).toNat = ((s.r x.xh).toNat +
      if 4294967296 ≤ (s.r x.t2).toNat + (s.r x.t1).toNat then 65536 else 0) % 4294967296 := by
    rw [top]
    split_ifs
    · exact BitVec.toNat_add _ _
    · exact (Nat.mod_eq_of_lt (s.r x.xh).isLt).symm
  rw [top', bottom', bottom, carried, both, BitVec.toNat_add]
  split_ifs <;> omega

theorem half_product {p q : Word} (small : p.toNat < 2 ^ 16) (small' : q.toNat < 2 ^ 16) :
    (p * q).toNat = p.toNat * q.toNat ∧ (p * q).toNat ≤ 4294836225 := by
  have bound : p.toNat * q.toNat ≤ 65535 * 65535 := Nat.mul_le_mul (by omega) (by omega)
  rw [BitVec.toNat_mul, Nat.mod_eq_of_lt (by omega)]
  exact ⟨rfl, bound⟩

/-- The full product, wherever the compiler puts the operands. -/
theorem umul_ppmm_product (x : Allocation) (s : Core) :
    ((run (umul_ppmm x) s).r x.xh).toNat * 2 ^ 32 + ((run (umul_ppmm x) s).r x.xl).toNat =
      (s.r x.a).toNat * (s.r x.b).toNat := by
  have high_half : ∀ w : Word, (w >>> 16).toNat < 2 ^ 16 := fun w => by
    rw [BitVec.toNat_ushiftRight, Nat.shiftRight_eq_div_pow]
    omega
  have low_half : ∀ w : Word, (w &&& ~~~(w >>> 16 <<< 16)).toNat < 2 ^ 16 := fun w => by
    rw [toNat_low_half]
    omega
  have split : ∀ w : Word, w.toNat = (w >>> 16).toNat * 2 ^ 16 + (w &&& ~~~(w >>> 16 <<< 16)).toNat := fun w => by
    rw [toNat_low_half, BitVec.toNat_ushiftRight, Nat.shiftRight_eq_div_pow, Nat.div_add_mod']
  obtain ⟨ll, hl, lh, hh⟩ := run_halves (x := x) (s := s)
  have ll' := half_product (low_half (s.r x.a)) (low_half (s.r x.b))
  have hl' := half_product (high_half (s.r x.a)) (low_half (s.r x.b))
  have lh' := half_product (high_half (s.r x.b)) (low_half (s.r x.a))
  have hh' := half_product (high_half (s.r x.a)) (high_half (s.r x.b))
  rw [umul_ppmm_parts, run_append, run_append, run_sums (hh ▸ hh'.2) (hl ▸ hl'.2) (lh ▸ lh'.2) (ll ▸ ll'.2), ll, hl, lh, hh,
    ll'.1, hl'.1, lh'.1, hh'.1, split (s.r x.a), split (s.r x.b)]
  ring

theorem toNat_words (u : BitVec 64) : u.toNat = (high u).toNat * 2 ^ 32 + (low u).toNat := by
  rw [high, low, BitVec.toNat_setWidth, BitVec.toNat_setWidth, BitVec.toNat_ushiftRight, Nat.shiftRight_eq_div_pow]
  have fits := u.isLt
  omega

theorem join_words (h x y a l : Nat) (fits : l < 2 ^ 32) :
    (h + (x % 2 ^ 32 + y % 2 ^ 32) % 2 ^ 32) % 2 ^ 32 * 2 ^ 32 + l =
      (a * 2 ^ 64 + (x + y) * 2 ^ 32 + (h * 2 ^ 32 + l)) % 2 ^ 64 := by
  omega

theorem muldi3_product (x : Allocation) (s : Core) (u v : BitVec 64) (left : s.r x.a = low u) (right : s.r x.b = low v) :
    muldi3 x s u v = u * v := by
  have product := umul_ppmm_product x s
  rw [left, right] at product
  refine BitVec.eq_of_toNat_eq ?_
  rw [muldi3, BitVec.toNat_append, ← Nat.shiftLeft_add_eq_or_of_lt (BitVec.isLt _), Nat.shiftLeft_eq,
    BitVec.toNat_add, BitVec.toNat_add, BitVec.toNat_mul, BitVec.toNat_mul, BitVec.toNat_mul, toNat_words u,
    toNat_words v]
  have whole : ((high u).toNat * 2 ^ 32 + (low u).toNat) * ((high v).toNat * 2 ^ 32 + (low v).toNat) =
      (high u).toNat * (high v).toNat * 2 ^ 64 +
        ((low u).toNat * (high v).toNat + (high u).toNat * (low v).toNat) * 2 ^ 32 +
        (low u).toNat * (low v).toNat := by ring
  rw [whole, ← product]
  exact join_words _ _ _ _ _ (BitVec.isLt _)

def sampleAllocation : Allocation where
  xh := r0
  xl := r1
  t0 := r2
  t1 := r3
  t2 := r4
  a := r5
  b := r6
  outputs := by decide
  early := by decide

def sampleCore : Core := ⟨fun y => if y = r5 then 6 else 7, false, false, false, false, fun _ => 0⟩

theorem muldi3_product_words : muldi3 sampleAllocation sampleCore 0x100000006 7 = 0x70000002a :=
  muldi3_product sampleAllocation sampleCore 0x100000006 7 rfl rfl

end Product

end Tiny6410.Div
