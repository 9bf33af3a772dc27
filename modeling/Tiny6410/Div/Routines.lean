import Mathlib.Data.BitVec
import Tiny6410.Div.Remainder

/-! The four routines of lib1funcs.S, for all arguments. -/
namespace Tiny6410.Div

open Alu Alu.Reg Memory

def scratch : List Reg := [r0, r1, r2, r3, ip]

/-- Nothing but the scratch registers and the flags was written to. -/
structure Kept (s c : Core) : Prop where
  others : ∀ y ∉ scratch, c.r y = s.r y
  mem : c.mem = s.mem

theorem kept_refl (s : Core) : Kept s s := ⟨fun _ _ => rfl, rfl⟩

theorem kept_run {s c : Core} {block : List (Cond × Bool × Op)} (kept : Kept s c)
    (only : ∀ i ∈ block, ∀ y ∈ i.2.2.dest, y ∈ scratch) : Kept s (run block c) := by
  constructor
  · intro y apart
    rw [run_others only c apart, kept.others y apart]
  · rw [run_mem, kept.mem]

/-- What a routine leaves to its caller, at lr. For a division by zero lr was stored below the stack. -/
structure Returned (s : Core) (result : Word) (t : State) : Prop where
  pc : t.pc = .left (s.r lr)
  result : t.core.r r0 = result
  others : ∀ y ∉ scratch, t.core.r y = s.r y
  mem : t.core.mem = if s.r r1 = 0#32 then setWord s.mem (s.r sp - 4) (s.r lr) else s.mem

/-- From every state, but for a division by zero on a stack that is off the word boundary. -/
def Computes (entry : Nat) (f : Word → Word → Word) : Prop :=
  ∀ s : Core, (s.r r1 = 0#32 → WordAligned (s.r sp)) →
    Ends lib1funcs ⟨s, .at entry⟩ (Returned s (f (s.r r0) (s.r r1)))

/-- A call with two arguments, and a stack at the top of memory. -/
def called (a b : Word) : Core where
  r := Function.update (Function.update (fun _ => 0) r0 a) r1 b
  n := false
  z := false
  c := false
  v := false
  mem _ := 0

theorem power_of_two {d : Word} (nonzero : d ≠ 0#32) (one : d &&& (d - 1#32) = 0#32) :
    ∃ k < 32, d = 1#32 <<< k := by
  have positive : d.toNat ≠ 0 := fun h => nonzero (BitVec.eq_of_toNat_eq h)
  have less : (d - 1#32).toNat = d.toNat - 1 := by
    rw [BitVec.toNat_sub_of_le]
    · rfl
    · exact Nat.one_le_iff_ne_zero.mpr positive
  have and := congrArg BitVec.toNat one
  rw [BitVec.toNat_and, less] at and
  obtain ⟨k, power⟩ := (Nat.and_sub_one_eq_zero_iff_isPowerOfTwo positive).mp and
  have within : k < 32 := by
    have fits := d.isLt
    rw [power] at fits
    exact (Nat.pow_lt_pow_iff_right (by omega)).mp fits
  refine ⟨k, within, BitVec.eq_of_toNat_eq ?_⟩
  rw [power, toNat_shiftLeft _ within.le]
  · simp
  · exact Nat.one_lt_two_pow (by omega)

/-- A division by zero, from any of the four. -/
theorem ldiv0 {s c : Core} {w : Word} (aligned : s.r r1 = 0#32 → WordAligned (s.r sp)) (zero : s.r r1 = 0#32)
    (none : w = 0#32) (kept : Kept s c) : Ends lib1funcs ⟨c, .at 228⟩ (Returned s w) := by
  have at228 : lib1funcs[228]? = some (.push lr) := by decide +kernel
  have at229 : Placed lib1funcs (ops [(.al, false, .mov r0 0)]) 229 := by decide +kernel
  have at230 : lib1funcs[230]? = some .popPc := by decide +kernel
  have stack := kept.others sp (by decide)
  have link := kept.others lr (by decide)
  have above : WordAligned (c.r sp) := stack ▸ aligned zero
  refine Ends.stacked at228 (fun _ => above) (Ends.block at229 (Ends.stacked at230 (fun _ => ?_) (Ends.now ?_)))
  · simpa [Instr.exec, run_cons] using above.pushed
  refine ⟨?_, ?_, fun y apart => ?_, ?_⟩
  · simp [Instr.exec, run_cons, Cond.holds, link]
  · simp [Instr.exec, run_cons, Cond.holds, none]
  · have same := kept.others y apart
    simp only [scratch, List.mem_cons, List.not_mem_nil, or_false, not_or] at apart
    by_cases top : y = sp
    · subst top
      simp [Instr.exec, run_cons, Cond.holds, stack]
    · simp [Instr.exec, run_cons, Cond.holds, apart, top, same]
  · simp [Instr.exec, run_cons, Cond.holds, zero, kept.mem, stack, link]

theorem returns {s c : Core} {p : Nat} {cond : Cond} {w : Word} (here : lib1funcs[p]? = some (.ret cond))
    (holds : cond.holds c = true) (divides : s.r r1 ≠ 0#32) (kept : Kept s c) (result : c.r r0 = w) :
    Ends lib1funcs ⟨c, .at p⟩ (Returned s w) :=
  Ends.returned here holds
    ⟨congrArg Pc.left (kept.others lr (by decide)), result, kept.others, by rw [if_neg divides, kept.mem]⟩

theorem udiv_of_lt {a b : Word} (below : a < b) : a / b = 0#32 :=
  BitVec.eq_of_toNat_eq (BitVec.toNat_udiv.trans (Nat.div_eq_of_lt below))

theorem udiv_shift (a : Word) {k : Nat} (within : k < 32) : a / 1#32 <<< k = a >>> k := by
  refine BitVec.eq_of_toNat_eq ?_
  rw [BitVec.toNat_udiv, toNat_shiftLeft (Nat.one_lt_two_pow (by omega)) within.le, BitVec.toNat_ushiftRight,
    Nat.shiftRight_eq_div_pow]
  simp

/-- The shift by the order of a power of two. -/
theorem run_shift {x y d order : Reg} (apart : d ≠ order) (kept : y ∉ [d, order]) {k : Nat} (within : k < 32)
    {c : Core} (power : c.r d = 1#32 <<< k) :
    (run [(.al, false, .mov x (.lsrBy y order))] (run (findOrder d order) c)).r x = c.r y >>> k := by
  have same : (run (findOrder d order) c).r y = c.r y := by
    refine @run_others _ [d, order] ?_ c _ kept
    simp [findOrder, findFirst, findNext, findLast, Op.dest]
  have amount : k % 256 = k := Nat.mod_eq_of_lt (by omega)
  simp [run_cons, Cond.holds, Core.amount, run_order apart within power, amount, same]

theorem one_le_of_ne_zero {d : Word} (nonzero : d ≠ 0#32) : 1#32 ≤ d := by
  rw [BitVec.le_def]
  exact Nat.one_le_iff_ne_zero.mpr fun h => nonzero (BitVec.eq_of_toNat_eq h)

theorem udivsi3_computes : Computes udivsi3Entry fun a b => a / b := by
  intro s aligned
  beta_reduce
  have at0 : Placed lib1funcs (ops [(.al, true, .sub r2 r1 1)]) 0 := by decide +kernel
  have at1 : lib1funcs[1]? = some (.ret .eq) := by decide +kernel
  have at2 : lib1funcs[2]? = some (.b .cc 226) := by decide +kernel
  have at3 : Placed lib1funcs (ops [(.al, false, .cmp r0 r1)]) 3 := by decide +kernel
  have at4 : lib1funcs[4]? = some (.b .ls 36) := by decide +kernel
  have at5 : Placed lib1funcs (ops [(.al, false, .tst r1 r2)]) 5 := by decide +kernel
  have at6 : lib1funcs[6]? = some (.b .eq 37) := by decide +kernel
  have at7 : Placed lib1funcs (assemble (ARM_DIV_BODY r0 r1 r2 r3)) 7 := by decide +kernel
  have at38 : Placed lib1funcs (ops [(.al, false, .mov r0 r2)]) 38 := by decide +kernel
  have at39 : lib1funcs[39]? = some (.ret .al) := by decide +kernel
  have at40 : Placed lib1funcs (ops [(.eq, false, .mov r0 1), (.ne, false, .mov r0 0)]) 40 := by decide +kernel
  have at42 : lib1funcs[42]? = some (.ret .al) := by decide +kernel
  have at43 : Placed lib1funcs (ops (findOrder r1 r2 ++ [(.al, false, .mov r0 (.lsrBy r0 r2))])) 43 := by
    decide +kernel
  have at57 : lib1funcs[57]? = some (.ret .al) := by decide +kernel
  refine Ends.block at0 ?_
  have kept₁ : Kept s (run [(.al, true, .sub r2 r1 1)] s) := kept_run (kept_refl s) (by decide)
  by_cases one : s.r r1 = 1#32
  · refine returns at1 ?_ ?_ kept₁ ?_ <;> simp [run_cons, Cond.holds, one]
  refine Ends.stayed at1 (by simp [run_cons, Cond.holds, one]) ?_
  by_cases zero : s.r r1 = 0#32
  · have none : s.r r0 / s.r r1 = 0#32 := by rw [zero, BitVec.udiv_zero]
    exact Ends.taken at2 (by simp [run_cons, Cond.holds, zero]) (ldiv0 aligned zero none kept₁)
  have some := one_le_of_ne_zero zero
  refine Ends.passed at2 (by simp [run_cons, Cond.holds, some]) (Ends.block at3 ?_)
  have kept₂ := @kept_run _ _ [(.al, false, .cmp r0 r1)] kept₁ (by decide)
  by_cases small : s.r r0 ≤ s.r r1
  · refine Ends.taken at4 ?_ (Ends.block at40 ?_)
    · by_cases equal : s.r r0 = s.r r1
      · simp [run_cons, Cond.holds, equal]
      · have below : ¬s.r r1 ≤ s.r r0 := fun h => equal (BitVec.le_antisymm small h)
        simp [run_cons, Cond.holds, below]
    · refine returns at42 rfl zero (kept_run kept₂ (by decide)) ?_
      by_cases equal : s.r r0 = s.r r1
      · simp [run_cons, Cond.holds, equal, BitVec.udiv_self, zero]
      · have below : s.r r0 < s.r r1 := BitVec.lt_of_le_ne small equal
        simp [run_cons, Cond.holds, equal, udiv_of_lt below]
  have large : s.r r1 < s.r r0 := BitVec.not_le.mp small
  refine Ends.passed at4 ?_ (Ends.block at5 ?_)
  · have differ : s.r r0 ≠ s.r r1 := fun h => small (h ▸ BitVec.le_refl _)
    simp [run_cons, Cond.holds, BitVec.le_of_lt large, differ]
  have kept₃ := @kept_run _ _ [(.al, false, .tst r1 r2)] kept₂ (by decide)
  by_cases power : s.r r1 &&& (s.r r1 - 1#32) = 0#32
  · obtain ⟨k, within, value⟩ := power_of_two zero power
    refine Ends.taken at6 (by simp [run_cons, Cond.holds, power]) (Ends.block at43 ?_)
    refine returns at57 rfl zero (kept_run kept₃ (by decide)) ?_
    rw [run_append, run_shift (by decide) (by decide) within]
    · simp [run_cons, Cond.holds, value, udiv_shift _ within]
    · simpa [run_cons, Cond.holds] using value
  · refine Ends.passed at6 (by simp [run_cons, Cond.holds, power]) ?_
    refine (div_body at7 (by decide) (by simpa [run_cons, Cond.holds] using zero)).bind ?_
    rintro ⟨c, _⟩ ⟨rfl, quotient, others, mem⟩
    refine Ends.block at38 (returns at39 rfl zero (kept_run (c := c) ⟨fun y apart => ?_, ?_⟩ (by decide)) ?_)
    · exact (others y fun h => apart ((by decide : [r0, r1, r2, r3] ⊆ scratch) h)).trans (kept₃.others y apart)
    · exact mem.trans kept₃.mem
    · simpa [run_cons, Cond.holds] using quotient

theorem udivsi3_computes_by_zero : Ends lib1funcs ⟨called 7 0, .at udivsi3Entry⟩ (Returned (called 7 0) 0) :=
  udivsi3_computes (called 7 0) fun _ => rfl

theorem sdiv_signs (a b : Word) :
    a.sdiv b = if (a ^^^ b).msb then -(a.abs / b.abs) else a.abs / b.abs := by
  rw [BitVec.sdiv_eq, BitVec.msb_xor, BitVec.abs_eq, BitVec.abs_eq]
  cases a.msb <;> cases b.msb <;> rfl

theorem abs_ne_zero {b : Word} (nonzero : b ≠ 0#32) : b.abs ≠ 0#32 := by
  rw [BitVec.abs_eq]
  split
  · exact fun h => nonzero (by rw [← BitVec.neg_neg (x := b), h, BitVec.neg_zero])
  · exact nonzero

theorem asr_sign (x : Word) : x.sshiftRight 31 = if x.msb then BitVec.allOnes 32 else 0#32 := by
  refine BitVec.eq_of_getLsbD_eq fun i within => ?_
  have top : x.msb = x.getLsbD 31 := BitVec.msb_eq_getLsbD_last x
  have fill : (if 31 + i < 32 then x.getLsbD (31 + i) else x.msb) = x.msb := by
    split_ifs with first
    · rw [top, Nat.lt_one_iff.mp (by omega : i < 1)]
    · rfl
  rw [BitVec.getLsbD_sshiftRight, fill]
  cases x.msb
  · simp
  · rw [if_pos rfl, BitVec.getLsbD_allOnes]
    simp [within]

/-- The signs are taken off, and ip tells that of the result. -/
structure Magnitudes (s c : Core) : Prop where
  kept : Kept s c
  dividend : c.r r0 = s.r r0
  divisor : c.r r1 = (s.r r1).abs
  less : c.r r2 = (s.r r1).abs - 1#32
  sign : c.r ip = s.r r0 ^^^ s.r r1

section Divsi3

variable {s c : Core} (some : s.r r1 ≠ 0#32)
include some

theorem divsi3_by_one (here : Magnitudes s c) (one : (s.r r1).abs = 1#32) :
    Ends lib1funcs ⟨c, .at 151⟩ (Returned s ((s.r r0).sdiv (s.r r1))) := by
  have at151 : Placed lib1funcs (ops [(.al, false, .teq ip r0), (.mi, false, .rsb r0 r0 0)]) 151 := by
    decide +kernel
  have at153 : lib1funcs[153]? = Option.some (.ret .al) := by decide +kernel
  refine Ends.block at151 (returns at153 rfl some (kept_run here.kept (by decide)) ?_)
  rw [sdiv_signs, one, BitVec.udiv_one, BitVec.abs_eq, BitVec.msb_xor]
  cases dividend : (s.r r0).msb <;> cases divisor : (s.r r1).msb <;>
    simp [run_cons, Cond.holds, here.dividend, here.sign, divisor]

theorem divsi3_small (here : Magnitudes s c) (small : (s.r r0).abs ≤ (s.r r1).abs)
    (carry : c.c = decide ((s.r r1).abs ≤ (s.r r0).abs)) (zero : c.z = ((s.r r0).abs == (s.r r1).abs)) :
    Ends lib1funcs ⟨c, .at 154⟩ (Returned s ((s.r r0).sdiv (s.r r1))) := by
  have at154 : Placed lib1funcs
      (ops [(.lo, false, .mov r0 0), (.eq, false, .mov r0 (.asr ip 31)), (.eq, false, .orr r0 r0 1)]) 154 := by
    decide +kernel
  have at157 : lib1funcs[157]? = Option.some (.ret .al) := by decide +kernel
  refine Ends.block at154 (returns at157 rfl some (kept_run here.kept (by decide)) ?_)
  rw [sdiv_signs]
  by_cases equal : (s.r r0).abs = (s.r r1).abs
  · have one : (s.r r0).abs / (s.r r1).abs = 1#32 := by
      rw [equal, BitVec.udiv_self, if_neg (by simpa using abs_ne_zero some)]
    have sign : (s.r r0 ^^^ s.r r1).sshiftRight 31 ||| 1#32 =
        if (s.r r0 ^^^ s.r r1).msb then -1#32 else 1#32 := by
      rw [asr_sign]
      split <;> decide
    rw [one, ← sign]
    simp [run_cons, Cond.holds, carry, zero, equal, here.sign]
  · have below : (s.r r0).abs < (s.r r1).abs := BitVec.lt_of_le_ne small equal
    rw [udiv_of_lt below]
    simp [run_cons, Cond.holds, carry, zero, equal, below]

theorem divsi3_power (here : Magnitudes s c) (dividend : c.r r3 = (s.r r0).abs)
    (power : (s.r r1).abs &&& ((s.r r1).abs - 1#32) = 0#32) :
    Ends lib1funcs ⟨c, .at 158⟩ (Returned s ((s.r r0).sdiv (s.r r1))) := by
  have at158 : Placed lib1funcs (ops (findOrder r1 r2 ++ [(.al, false, .cmp ip 0),
      (.al, false, .mov r0 (.lsrBy r3 r2)), (.mi, false, .rsb r0 r0 0)])) 158 := by decide +kernel
  have at174 : lib1funcs[174]? = Option.some (.ret .al) := by decide +kernel
  refine Ends.block at158 (returns at174 rfl some (kept_run here.kept (by decide)) ?_)
  obtain ⟨k, within, value⟩ := power_of_two (abs_ne_zero some) power
  have same : ∀ y ∉ [r1, r2], (run (findOrder r1 r2) c).r y = c.r y := fun y apart =>
    run_others (by simp [findOrder, findFirst, findNext, findLast, Op.dest]) c apart
  have order := @run_order _ r2 (by decide) _ _ within (here.divisor.trans value)
  have amount : k % 256 = k := Nat.mod_eq_of_lt (by omega)
  have sign : (run (findOrder r1 r2) c).r ip = s.r r0 ^^^ s.r r1 := (same ip (by decide)).trans here.sign
  have shifted : (run (findOrder r1 r2) c).r r3 = (s.r r0).abs := (same r3 (by decide)).trans dividend
  rw [run_append, sdiv_signs, value, udiv_shift _ within]
  cases negative : (s.r r0 ^^^ s.r r1).msb <;>
    simp [run_cons, Cond.holds, Core.amount, sign, shifted, order, amount, negative]

theorem divsi3_body (here : Magnitudes s c) (dividend : c.r r3 = (s.r r0).abs) :
    Ends lib1funcs ⟨c, .at 117⟩ (Returned s ((s.r r0).sdiv (s.r r1))) := by
  have at117 : Placed lib1funcs (assemble (ARM_DIV_BODY r3 r1 r0 r2)) 117 := by decide +kernel
  have at148 : Placed lib1funcs (ops [(.al, false, .cmp ip 0), (.mi, false, .rsb r0 r0 0)]) 148 := by decide +kernel
  have at150 : lib1funcs[150]? = Option.some (.ret .al) := by decide +kernel
  refine (div_body at117 (by decide) (here.divisor ▸ abs_ne_zero some)).bind ?_
  rintro ⟨t, _⟩ ⟨rfl, quotient, others, mem⟩
  dsimp only at quotient others mem
  have kept : Kept s t :=
    ⟨fun y apart => (others y fun h => apart ((by decide : [r3, r1, r0, r2] ⊆ scratch) h)).trans
      (here.kept.others y apart), mem.trans here.kept.mem⟩
  refine Ends.block at148 (returns at150 rfl some (kept_run kept (by decide)) ?_)
  rw [dividend, here.divisor] at quotient
  have sign : t.r ip = s.r r0 ^^^ s.r r1 := (others ip (by decide)).trans here.sign
  rw [sdiv_signs]
  cases negative : (s.r r0 ^^^ s.r r1).msb <;> simp [run_cons, Cond.holds, sign, negative, quotient]

theorem divsi3_apart (here : Magnitudes s c) :
    Ends lib1funcs ⟨c, .at 111⟩ (Returned s ((s.r r0).sdiv (s.r r1))) := by
  have at111 : Placed lib1funcs
      (ops [(.al, true, .mov r3 r0), (.mi, false, .rsb r3 r0 0), (.al, false, .cmp r3 r1)]) 111 := by decide +kernel
  have at114 : lib1funcs[114]? = Option.some (.b .ls 40) := by decide +kernel
  have at115 : Placed lib1funcs (ops [(.al, false, .tst r1 r2)]) 115 := by decide +kernel
  have at116 : lib1funcs[116]? = Option.some (.b .eq 42) := by decide +kernel
  refine Ends.block at111 ?_
  have next : Magnitudes s (run [(.al, true, .mov r3 r0), (.mi, false, .rsb r3 r0 0), (.al, false, .cmp r3 r1)] c) := by
    refine ⟨kept_run here.kept (by decide), ?_, ?_, ?_, ?_⟩ <;>
    by_cases negative : (s.r r0).msb = true <;>
    simp [run_cons, Cond.holds, negative, here.dividend, here.divisor, here.less, here.sign]
  have dividend : (run [(.al, true, .mov r3 r0), (.mi, false, .rsb r3 r0 0), (.al, false, .cmp r3 r1)] c).r r3 =
      (s.r r0).abs := by
    by_cases negative : (s.r r0).msb = true <;>
    simp [run_cons, Cond.holds, negative, here.dividend, BitVec.abs_eq]
  have carry : (run [(.al, true, .mov r3 r0), (.mi, false, .rsb r3 r0 0), (.al, false, .cmp r3 r1)] c).c =
      decide ((s.r r1).abs ≤ (s.r r0).abs) := by
    by_cases negative : (s.r r0).msb = true <;>
    simp [run_cons, Cond.holds, negative, here.dividend, here.divisor, BitVec.abs_eq (s.r r0)]
  have zero : (run [(.al, true, .mov r3 r0), (.mi, false, .rsb r3 r0 0), (.al, false, .cmp r3 r1)] c).z =
      ((s.r r0).abs == (s.r r1).abs) := by
    by_cases negative : (s.r r0).msb = true <;>
    simp [run_cons, Cond.holds, negative, here.dividend, here.divisor, BitVec.abs_eq (s.r r0)]
  generalize run [(.al, true, .mov r3 r0), (.mi, false, .rsb r3 r0 0), (.al, false, .cmp r3 r1)] c = t
    at next dividend carry zero ⊢
  by_cases small : (s.r r0).abs ≤ (s.r r1).abs
  · refine Ends.taken at114 ?_ (divsi3_small some next small carry zero)
    by_cases equal : (s.r r0).abs = (s.r r1).abs
    · simp [Cond.holds, zero, equal]
    · have below : ¬(s.r r1).abs ≤ (s.r r0).abs := fun h => equal (BitVec.le_antisymm small h)
      simp [Cond.holds, carry, below]
  have large : (s.r r1).abs < (s.r r0).abs := BitVec.not_le.mp small
  have differ : (s.r r0).abs ≠ (s.r r1).abs := fun h => small (h ▸ BitVec.le_refl _)
  refine Ends.passed at114 (by simp [Cond.holds, carry, zero, BitVec.le_of_lt large, differ]) (Ends.block at115 ?_)
  have tested : Magnitudes s (run [(.al, false, .tst r1 r2)] t) :=
    ⟨kept_run next.kept (by decide), next.dividend, next.divisor, next.less, next.sign⟩
  by_cases power : (s.r r1).abs &&& ((s.r r1).abs - 1#32) = 0#32
  · refine Ends.taken at116 ?_ (divsi3_power some tested dividend power)
    simp [run_cons, Cond.holds, next.divisor, next.less, power]
  · refine Ends.passed at116 ?_ (divsi3_body some tested dividend)
    simp [run_cons, Cond.holds, next.divisor, next.less, power]

end Divsi3

theorem divsi3_computes : Computes divsi3Entry BitVec.sdiv := by
  intro s aligned
  have entry : divsi3Entry = 105 := by decide +kernel
  have at105 : Placed lib1funcs (ops [(.al, false, .cmp r1 0), (.al, false, .eor ip r0 r1)]) 105 := by
    decide +kernel
  have at107 : lib1funcs[107]? = some (.b .eq 121) := by decide +kernel
  have at108 : Placed lib1funcs (ops [(.mi, false, .rsb r1 r1 0), (.al, true, .sub r2 r1 1)]) 108 := by
    decide +kernel
  have at110 : lib1funcs[110]? = some (.b .eq 41) := by decide +kernel
  rw [entry]
  refine Ends.block at105 ?_
  have kept₁ : Kept s (run [(.al, false, .cmp r1 0), (.al, false, .eor ip r0 r1)] s) :=
    kept_run (kept_refl s) (by decide)
  by_cases zero : s.r r1 = 0#32
  · have none : (s.r r0).sdiv (s.r r1) = 0#32 := by rw [zero, BitVec.sdiv_zero]
    exact Ends.taken at107 (by simp [run_cons, Cond.holds, zero]) (ldiv0 aligned zero none kept₁)
  refine Ends.passed at107 (by simp [run_cons, Cond.holds, zero]) (Ends.block at108 ?_)
  have kept₂ := @kept_run _ _ [(.mi, false, .rsb r1 r1 0), (.al, true, .sub r2 r1 1)] kept₁ (by decide)
  have signs : Magnitudes s (run [(.mi, false, .rsb r1 r1 0), (.al, true, .sub r2 r1 1)]
      (run [(.al, false, .cmp r1 0), (.al, false, .eor ip r0 r1)] s)) := by
    refine ⟨kept₂, ?_, ?_, ?_, ?_⟩ <;>
    by_cases negative : (s.r r1).msb = true <;> simp [run_cons, Cond.holds, BitVec.abs_eq, negative]
  have carried : (run [(.mi, false, .rsb r1 r1 0), (.al, true, .sub r2 r1 1)]
      (run [(.al, false, .cmp r1 0), (.al, false, .eor ip r0 r1)] s)).z = ((s.r r1).abs == 1#32) := by
    by_cases negative : (s.r r1).msb = true <;> simp [run_cons, Cond.holds, BitVec.abs_eq, negative]
  generalize run [(.mi, false, .rsb r1 r1 0), (.al, true, .sub r2 r1 1)]
    (run [(.al, false, .cmp r1 0), (.al, false, .eor ip r0 r1)] s) = c at signs carried ⊢
  by_cases one : (s.r r1).abs = 1#32
  · exact Ends.taken at110 (by simp [Cond.holds, carried, one]) (divsi3_by_one zero signs one)
  exact Ends.passed at110 (by simp [Cond.holds, carried, one]) (divsi3_apart zero signs)

theorem divsi3_computes_by_zero : Ends lib1funcs ⟨called (-7) 0, .at divsi3Entry⟩ (Returned (called (-7) 0) 0) :=
  divsi3_computes (called (-7) 0) fun _ => rfl

/-! The remainders -/

theorem umod_of_lt {a b : Word} (below : a < b) : a % b = a :=
  BitVec.eq_of_toNat_eq (BitVec.toNat_umod.trans (Nat.mod_eq_of_lt below))

theorem umod_mask (a : Word) {k : Nat} (within : k < 32) : a % 1#32 <<< k = a &&& (1#32 <<< k - 1#32) := by
  have value : (1#32 <<< k).toNat = 2 ^ k := by
    rw [toNat_shiftLeft (Nat.one_lt_two_pow (by omega)) within.le]
    simp
  have less : (1#32 <<< k - 1#32).toNat = 2 ^ k - 1 := by
    rw [BitVec.toNat_sub_of_le, value]
    · rfl
    · rw [BitVec.le_def, value]
      exact Nat.two_pow_pos k
  refine BitVec.eq_of_toNat_eq ?_
  rw [BitVec.toNat_umod, BitVec.toNat_and, value, less, Nat.and_two_pow_sub_one_eq_mod]

/-- The cases that need no loop. -/
def quick : List (Cond × Bool × Op) :=
  [(.ne, false, .cmp r0 r1), (.eq, false, .mov r0 0), (.hi, false, .tst r1 r2), (.eq, false, .and r0 r0 r2)]

theorem run_quick {c : Core} (divides : c.r r1 ≠ 0#32) (carry : c.c = true) (one : c.z = (c.r r1 == 1#32))
    (less : c.r r2 = c.r r1 - 1#32) :
    if Cond.ls.holds (run quick c) then (run quick c).r r0 = c.r r0 % c.r r1 else (run quick c).r = c.r := by
  by_cases single : c.r r1 = 1#32
  · simp [quick, run_cons, Cond.holds, one, carry, single]
  by_cases equal : c.r r0 = c.r r1
  · simp [quick, run_cons, Cond.holds, one, single, equal]
  by_cases small : c.r r0 < c.r r1
  · have above : ¬c.r r1 ≤ c.r r0 := BitVec.not_le.mpr small
    simp [quick, run_cons, Cond.holds, one, single, equal, above, umod_of_lt small]
  have large : c.r r1 ≤ c.r r0 := BitVec.not_lt.mp small
  by_cases power : c.r r1 &&& (c.r r1 - 1#32) = 0#32
  · obtain ⟨k, within, value⟩ := power_of_two divides power
    have mask : c.r r0 % c.r r1 = c.r r0 &&& (c.r r1 - 1#32) := by rw [value, umod_mask _ within]
    simp [quick, run_cons, Cond.holds, one, single, equal, large, less, power, mask, Operand.carry]
  · simp [quick, run_cons, Cond.holds, one, single, equal, large, less, power, Operand.carry]

theorem umodsi3_computes : Computes umodsi3Entry fun a b => if b = 0#32 then 0#32 else a % b := by
  intro s aligned
  beta_reduce
  have entry : umodsi3Entry = 58 := by decide +kernel
  have at58 : Placed lib1funcs (ops [(.al, true, .sub r2 r1 1)]) 58 := by decide +kernel
  have at59 : lib1funcs[59]? = some (.b .cc 169) := by decide +kernel
  have at60 : Placed lib1funcs (ops quick) 60 := by decide +kernel
  have at64 : lib1funcs[64]? = some (.ret .ls) := by decide +kernel
  have at65 : Placed lib1funcs (assemble (ARM_MOD_BODY r0 r1 r2)) 65 := by decide +kernel
  have at104 : lib1funcs[104]? = some (.ret .al) := by decide +kernel
  rw [entry]
  refine Ends.block at58 ?_
  have kept₁ : Kept s (run [(.al, true, .sub r2 r1 1)] s) := kept_run (kept_refl s) (by decide)
  by_cases zero : s.r r1 = 0#32
  · exact Ends.taken at59 (by simp [run_cons, Cond.holds, zero]) (ldiv0 aligned zero (if_pos zero) kept₁)
  have some := one_le_of_ne_zero zero
  rw [if_neg zero]
  refine Ends.passed at59 (by simp [run_cons, Cond.holds, some]) (Ends.block at60 ?_)
  have result := run_quick (c := run [(.al, true, .sub r2 r1 1)] s) (by simpa [run_cons] using zero)
    (by simpa [run_cons] using some) (by simp [run_cons]) (by simp [run_cons])
  have kept₂ : Kept s (run quick (run [(.al, true, .sub r2 r1 1)] s)) := kept_run kept₁ (by decide)
  generalize run quick (run [(.al, true, .sub r2 r1 1)] s) = c at result kept₂ ⊢
  cases done : Cond.ls.holds c
  · rw [done] at result
    have regs : c.r = (run [(.al, true, .sub r2 r1 1)] s).r := by simpa using result
    have dividend : c.r r0 = s.r r0 := by simp [regs, run_cons]
    have divisor : c.r r1 = s.r r1 := by simp [regs, run_cons]
    refine Ends.stayed at64 done ((mod_body at65 (by decide) (divisor ▸ zero)).bind ?_)
    rintro ⟨t, _⟩ ⟨rfl, remainder, others, mem⟩
    refine returns at104 rfl zero ⟨fun y apart => ?_, mem.trans kept₂.mem⟩ ?_
    · exact (others y fun h => apart ((by decide : [r0, r1, r2] ⊆ scratch) h)).trans (kept₂.others y apart)
    · rw [dividend, divisor] at remainder
      exact BitVec.eq_of_toNat_eq (remainder.trans BitVec.toNat_umod.symm)
  · rw [done] at result
    exact returns at64 done zero kept₂ (by simpa [run_cons] using result)

theorem umodsi3_computes_by_zero : Ends lib1funcs ⟨called 7 0, .at umodsi3Entry⟩ (Returned (called 7 0) 0) :=
  umodsi3_computes (called 7 0) fun _ => rfl

theorem srem_signs (a b : Word) : a.srem b = if a.msb then -(a.abs % b.abs) else a.abs % b.abs := by
  rw [BitVec.srem_eq, BitVec.abs_eq, BitVec.abs_eq]
  cases a.msb <;> cases b.msb <;> rfl

/-- The sign of the dividend is given back. -/
theorem modsi3_sign {s c : Core} (some : s.r r1 ≠ 0#32) (kept : Kept s c) (sign : c.r ip = s.r r0)
    (remainder : c.r r0 = (s.r r0).abs % (s.r r1).abs) :
    Ends lib1funcs ⟨c, .at 225⟩ (Returned s ((s.r r0).srem (s.r r1))) := by
  have at225 : Placed lib1funcs (ops [(.al, false, .cmp ip 0), (.mi, false, .rsb r0 r0 0)]) 225 := by decide +kernel
  have at227 : lib1funcs[227]? = Option.some (.ret .al) := by decide +kernel
  refine Ends.block at225 (returns at227 rfl some (kept_run kept (by decide)) ?_)
  rw [srem_signs]
  cases negative : (s.r r0).msb <;> simp [run_cons, Cond.holds, sign, negative, remainder]

def unsign : List (Cond × Bool × Op) :=
  [(.mi, false, .rsb r1 r1 0), (.al, true, .mov ip r0), (.mi, false, .rsb r0 r0 0), (.al, true, .sub r2 r1 1)]

/-- What is left to divide after the signs are gone. -/
structure Unsigned (s c : Core) : Prop where
  dividend : c.r r0 = (s.r r0).abs
  divisor : c.r r1 = (s.r r1).abs
  less : c.r r2 = (s.r r1).abs - 1#32
  sign : c.r ip = s.r r0
  carry : c.c = decide (1#32 ≤ (s.r r1).abs)
  one : c.z = ((s.r r1).abs == 1#32)

theorem run_unsign (s : Core) : Unsigned s (run unsign (run [(.al, false, .cmp r1 0)] s)) := by
  constructor <;> cases negative : (s.r r1).msb <;> cases negative' : (s.r r0).msb <;>
    simp [unsign, run_cons, Cond.holds, BitVec.abs_eq, negative, negative']

theorem modsi3_computes : Computes modsi3Entry fun a b => if b = 0#32 then 0#32 else a.srem b := by
  intro s aligned
  beta_reduce
  have entry : modsi3Entry = 175 := by decide +kernel
  have at175 : Placed lib1funcs (ops [(.al, false, .cmp r1 0)]) 175 := by decide +kernel
  have at176 : lib1funcs[176]? = some (.b .eq 52) := by decide +kernel
  have at177 : Placed lib1funcs (ops (unsign ++ quick)) 177 := by decide +kernel
  have at185 : lib1funcs[185]? = some (.b .ls 40) := by decide +kernel
  have at186 : Placed lib1funcs (assemble (ARM_MOD_BODY r0 r1 r2)) 186 := by decide +kernel
  rw [entry]
  refine Ends.block at175 ?_
  have kept₁ : Kept s (run [(.al, false, .cmp r1 0)] s) := kept_run (kept_refl s) (by decide)
  by_cases zero : s.r r1 = 0#32
  · exact Ends.taken at176 (by simp [run_cons, Cond.holds, zero]) (ldiv0 aligned zero (if_pos zero) kept₁)
  rw [if_neg zero]
  refine Ends.passed at176 (by simp [run_cons, Cond.holds, zero]) (Ends.block at177 ?_)
  rw [run_append]
  have kept₂ : Kept s (run unsign (run [(.al, false, .cmp r1 0)] s)) := kept_run kept₁ (by decide)
  have signs := run_unsign s
  generalize run unsign (run [(.al, false, .cmp r1 0)] s) = c at kept₂ signs ⊢
  have nonzero := abs_ne_zero zero
  have some : 1#32 ≤ (s.r r1).abs := by
    rw [BitVec.le_def]
    exact Nat.one_le_iff_ne_zero.mpr fun h => nonzero (BitVec.eq_of_toNat_eq h)
  have result := run_quick (signs.divisor ▸ nonzero) (signs.carry.trans (decide_eq_true some))
    (signs.divisor ▸ signs.one) (signs.divisor ▸ signs.less)
  have kept₃ : Kept s (run quick c) := kept_run kept₂ (by decide)
  have sign : (run quick c).r ip = s.r r0 :=
    (@run_others _ [r0] (by decide) c _ (by decide)).trans signs.sign
  generalize run quick c = t at result kept₃ sign ⊢
  cases done : Cond.ls.holds t
  · have regs : t.r = c.r := by simpa [done] using result
    have divides : t.r r1 ≠ 0#32 := by rw [regs, signs.divisor]; exact nonzero
    refine Ends.passed at185 done ((mod_body at186 (by decide) divides).bind ?_)
    rintro ⟨u, _⟩ ⟨rfl, remainder, others, mem⟩
    dsimp only at remainder others mem
    refine modsi3_sign zero ⟨fun y apart => ?_, mem.trans kept₃.mem⟩ ?_ ?_
    · exact (others y fun h => apart ((by decide : [r0, r1, r2] ⊆ scratch) h)).trans (kept₃.others y apart)
    · rw [others ip (by decide), sign]
    · rw [regs, signs.dividend, signs.divisor] at remainder
      exact BitVec.eq_of_toNat_eq (remainder.trans BitVec.toNat_umod.symm)
  · refine Ends.taken at185 done (modsi3_sign zero kept₃ sign ?_)
    rw [← signs.dividend, ← signs.divisor]
    simpa [done] using result

theorem modsi3_computes_by_zero : Ends lib1funcs ⟨called (-7) 0, .at modsi3Entry⟩ (Returned (called (-7) 0) 0) :=
  modsi3_computes (called (-7) 0) fun _ => rfl

end Tiny6410.Div
