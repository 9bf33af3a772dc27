import Mathlib.Tactic.IntervalCases
import Tiny6410.Div.Lib1funcs

/-! What the macros of lib1funcs.S compute. -/
namespace Tiny6410.Div

open Alu Alu.Reg
open Memory (Word)

/-! Alignment of the divisor -/

/-- An operation that counts in its register by k. -/
structure Counts (also : Op) (x : Reg) (f : Nat → Word) (k : Nat) : Prop where
  step : ∀ s j, s.r x = f j → also.exec false s = s.set x (f (j + k))

theorem counts_lsl (x : Reg) (k : Nat) : Counts (.mov x (.lsl x k)) x (fun j => (1 : Word) <<< j) k := by
  constructor
  intro s j count
  rw [Op.exec, Operand.value, count, flags_false, ← BitVec.shiftLeft_add]

theorem counts_add (x : Reg) {k : Nat} (w : Word) (value : w = BitVec.ofNat 32 k) :
    Counts (.add x x (.imm w)) x (BitVec.ofNat 32) k := by
  constructor
  intro s j count
  rw [Op.exec, Operand.value, count, flags_false, value, BitVec.ofNat_add]

/-- The divisor is shifted by j, and the other register says so. -/
structure Aligned (s₀ : Core) (divisor x : Reg) (f : Nat → Word) (d j : Nat) (s : Core) : Prop where
  shifted : (s.r divisor).toNat = d * 2 ^ j
  count : s.r x = f j
  others : ∀ y, y ≠ divisor → y ≠ x → s.r y = s₀.r y
  mem : s.mem = s₀.mem

section Align

variable {code : List Instr} {p k d : Nat} {dividend divisor x : Reg} {bound : Word} {also : Op} {f : Nat → Word}

def alignRound (dividend divisor : Reg) (bound : Word) (k : Nat) (also : Op) : List (Cond × Bool × Op) :=
  [(.al, false, .cmp divisor (.imm bound)), (.lo, false, .cmp divisor dividend),
    (.lo, false, .mov divisor (.lsl divisor k)), (.lo, false, also)]

/-- One round of the loop. The carry says whether there is another one. -/
theorem align_round (counts : Counts also x f k) (apart : divisor ≠ x) {s : Core} {j : Nat} (count : s.r x = f j) :
    (run (alignRound dividend divisor bound k also) s).c =
        !decide (s.r divisor < bound ∧ s.r divisor < s.r dividend) ∧
      (run (alignRound dividend divisor bound k also) s).mem = s.mem ∧
      (run (alignRound dividend divisor bound k also) s).r =
        if s.r divisor < bound ∧ s.r divisor < s.r dividend then
          Function.update (Function.update s.r divisor (s.r divisor <<< k)) x (f (j + k))
        else s.r := by
  have also_step : ∀ t : Core, t.r x = f j → also.exec false t = t.set x (f (j + k)) := fun t => counts.step t j
  by_cases first : s.r divisor < bound
  · by_cases second : s.r divisor < s.r dividend
    · have kept : (Function.update s.r divisor (s.r divisor <<< k)) x = f j := by
        rw [Function.update_of_ne apart.symm, count]
      simp [alignRound, run_cons, Cond.holds, first, second, also_step, kept]
    · simp [alignRound, run_cons, Cond.holds, first, second, BitVec.not_lt.mp second]
  · simp [alignRound, run_cons, Cond.holds, first, BitVec.not_lt.mp first]

theorem toNat_shiftLeft {w : Word} {k : Nat} (small : w.toNat < 2 ^ (32 - k)) (shift : k ≤ 32) :
    (w <<< k).toNat = w.toNat * 2 ^ k := by
  rw [BitVec.toNat_shiftLeft, Nat.shiftLeft_eq, Nat.mod_eq_of_lt]
  calc w.toNat * 2 ^ k < 2 ^ (32 - k) * 2 ^ k := Nat.mul_lt_mul_of_pos_right small (Nat.two_pow_pos k)
    _ = 2 ^ 32 := by rw [← Nat.pow_add, Nat.sub_add_cancel shift]

/-- The loop leaves with a divisor that is at the bound or not below the dividend. -/
theorem align_loop (placed : Placed code (assemble (alignLoop dividend divisor bound k also)) p)
    (counts : Counts also x f k) (distinct : [dividend, divisor, x].Nodup)
    (limit : bound.toNat = 2 ^ (32 - k)) (shift : 0 < k ∧ k ≤ 32) (positive : 0 < d) {s₀ s : Core}
    {j : Nat} (start : Aligned s₀ divisor x f d j s) :
    Ends code ⟨s, .at p⟩ fun t => t.pc = .at (p + 5) ∧ ∃ j, Aligned s₀ divisor x f d j t.core ∧
      (bound ≤ t.core.r divisor ∨ s₀.r dividend ≤ t.core.r divisor) := by
  have split : Placed code (ops (alignRound dividend divisor bound k also) ++ [.b .lo (-4)]) p := placed
  simp only [List.nodup_cons, List.mem_cons, List.not_mem_nil, or_false, not_or] at distinct
  obtain ⟨⟨apart₁, apart₂⟩, apart, -⟩ := distinct
  refine Ends.loop (fun c => ∃ j, Aligned s₀ divisor x f d j c)
    (fun c => 2 ^ 32 - (c.r divisor).toNat) (fun c inv => ?_) ⟨j, start⟩
  obtain ⟨j, aligned⟩ := inv
  obtain ⟨carry, mem, regs⟩ := @align_round _ dividend _ _ bound _ _ counts apart _ _ aligned.count
  refine Ends.block split.append_left (Ends.instr (split.append_right.get (k := 0) rfl) rfl (Ends.now ?_))
  simp only [Instr.exec, Cond.holds, carry, Bool.not_not, decide_eq_true_eq]
  by_cases more : c.r divisor < bound ∧ c.r divisor < c.r dividend
  · rw [if_pos more] at regs
    left
    have small : (c.r divisor).toNat < 2 ^ (32 - k) := limit ▸ more.1
    have grown := toNat_shiftLeft small shift.2
    have next : (run (alignRound dividend divisor bound k also) c).r divisor = c.r divisor <<< k := by
      rw [regs, Function.update_of_ne apart, Function.update_self]
    refine ⟨by simp only [if_pos more]; congr 1; simp [alignRound], ⟨j + k, ?_, ?_, ?_, ?_⟩, ?_⟩
    · rw [next, grown, aligned.shifted, Nat.pow_add, Nat.mul_assoc]
    · rw [regs, Function.update_self]
    · intro y apart₁ apart₂
      rw [regs, Function.update_of_ne apart₂, Function.update_of_ne apart₁, aligned.others y apart₁ apart₂]
    · rw [mem, aligned.mem]
    · have some : 0 < (c.r divisor).toNat := aligned.shifted ▸ Nat.mul_pos positive (Nat.two_pow_pos j)
      have double : (c.r divisor).toNat * 2 ≤ (c.r divisor).toNat * 2 ^ k :=
        Nat.mul_le_mul_left _ (Nat.le_self_pow shift.1.ne' 2)
      have fits : ((run (alignRound dividend divisor bound k also) c).r divisor).toNat < 2 ^ 32 := BitVec.isLt _
      rw [next] at fits ⊢
      omega
  · rw [if_neg more] at regs
    right
    refine ⟨by simp [if_neg more, alignRound], j, ⟨?_, ?_, ?_, ?_⟩, ?_⟩
    · rw [regs, aligned.shifted]
    · rw [regs, aligned.count]
    · intro y apart₁ apart₂
      rw [regs, aligned.others y apart₁ apart₂]
    · rw [mem, aligned.mem]
    · rw [regs, ← aligned.others dividend apart₁ apart₂]
      by_contra neither
      exact more ⟨BitVec.not_le.mp fun h => neither (.inl h), BitVec.not_le.mp fun h => neither (.inr h)⟩

theorem aligned_within (positive : 0 < d) {s₀ s : Core} {j : Nat} (aligned : Aligned s₀ divisor x f d j s) :
    j < 32 := by
  have fits := (s.r divisor).isLt
  rw [aligned.shifted] at fits
  exact (Nat.pow_lt_pow_iff_right (a := 2) (by omega)).mp ((Nat.le_mul_of_pos_left _ positive).trans_lt fits)

/-- After the second loop a dividend is below twice the divisor. -/
theorem aligned_enough (positive : 0 < d) {s₀ s : Core} {j : Nat} (aligned : Aligned s₀ divisor x f d j s)
    (enough : 0x80000000#32 ≤ s.r divisor ∨ s₀.r dividend ≤ s.r divisor) :
    (s₀.r dividend).toNat < d * 2 ^ (j + 1) := by
  have fits := (s₀.r dividend).isLt
  have nonzero : 0 < (s.r divisor).toNat := aligned.shifted ▸ Nat.mul_pos positive (Nat.two_pow_pos j)
  rw [Nat.pow_succ, ← Nat.mul_assoc, ← aligned.shifted]
  obtain limit | limit := enough
  · have top : 2 ^ 31 ≤ (s.r divisor).toNat := limit
    omega
  · have above : (s₀.r dividend).toNat ≤ (s.r divisor).toNat := limit
    omega

end Align

/-! The division loop -/

/-- The quotient so far, with e bits of it still to come. -/
structure Split (n d q m e : Nat) : Prop where
  whole : n = q * d + m
  below : m < d * 2 ^ e
  multiple : 2 ^ e ∣ q

/-- Past the last bit what is left of the dividend is of no use. -/
def Stage (n d q m e : Nat) : Prop := Split n d q m e ∨ (e = 0 ∧ q = n / d)

section Stage

variable {n d q m e : Nat}

theorem split_start (close : n < d * 2 ^ e) : Split n d 0 n e := ⟨by omega, close, Nat.dvd_zero _⟩

theorem split_exact (split : Split n d q 0 e) (positive : 0 < d) : q = n / d ∧ 0 = n % d := by
  rw [split.whole, Nat.add_zero, Nat.mul_div_cancel _ positive, Nat.mul_mod_left]
  exact ⟨rfl, rfl⟩

theorem split_last (split : Split n d q m 0) : q = n / d ∧ m = n % d := by
  have rest := split.below
  rw [Nat.pow_zero, Nat.mul_one] at rest
  rw [split.whole, Nat.mul_comm, Nat.mul_add_div (by omega), Nat.mul_add_mod, Nat.div_eq_of_lt rest,
    Nat.mod_eq_of_lt rest]
  exact ⟨rfl, rfl⟩

theorem or_bit (multiple : 2 ^ (e + 1) ∣ q) : q ||| 2 ^ e = q + 2 ^ e := by
  obtain ⟨a, rfl⟩ := multiple
  exact (Nat.two_pow_add_eq_or_of_lt (Nat.pow_lt_pow_right (by omega) (by omega)) a).symm

/-- One bit of the quotient. -/
theorem split_bit (split : Split n d q m (e + 1)) :
    Split n d (if d * 2 ^ e ≤ m then q ||| 2 ^ e else q) (if d * 2 ^ e ≤ m then m - d * 2 ^ e else m) e := by
  obtain ⟨whole, below, multiple⟩ := split
  have half : 2 ^ e ∣ q := (pow_dvd_pow 2 (Nat.le_succ e)).trans multiple
  split_ifs with fits
  · rw [or_bit multiple]
    refine ⟨?_, ?_, Nat.dvd_add half dvd_rfl⟩
    · rw [Nat.add_mul, Nat.mul_comm (2 ^ e) d]
      omega
    · rw [Nat.pow_succ, ← Nat.mul_assoc] at below
      omega
  · exact ⟨whole, not_le.mp fits, half⟩

theorem stage_exact (stage : Stage n d q 0 e) (positive : 0 < d) : q = n / d :=
  stage.elim (fun split => (split_exact split positive).1) And.right

theorem stage_last (stage : Stage n d q m 0) : q = n / d :=
  stage.elim (fun split => (split_last split).1) And.right

/-- The j-th bit of a round that starts at bit k, which may be past the last one. -/
theorem stage_trial {k j : Nat} (stage : Stage n d q m (k + 1 - j)) :
    Stage n d (if d * 2 ^ k / 2 ^ j ≤ m then q ||| 2 ^ k / 2 ^ j else q)
      (if d * 2 ^ k / 2 ^ j ≤ m then m - d * 2 ^ k / 2 ^ j else m) (k + 1 - (j + 1)) := by
  rcases Nat.lt_or_ge k j with past | within
  · rw [Nat.sub_eq_zero_of_le past] at stage
    have none : 2 ^ k / 2 ^ j = 0 := Nat.div_eq_of_lt (Nat.pow_lt_pow_right (by omega) past)
    right
    rw [none, Nat.or_zero, ite_self]
    exact ⟨by omega, stage_last stage⟩
  · have divisor : d * 2 ^ k / 2 ^ j = d * 2 ^ (k - j) := by
      rw [Nat.mul_div_assoc d (pow_dvd_pow 2 within), Nat.pow_div within (by omega)]
    rw [divisor, Nat.pow_div within (by omega), Nat.add_sub_add_right]
    rw [Nat.sub_add_comm within] at stage
    obtain split | ⟨wrong, -⟩ := stage
    · exact .inl (split_bit split)
    · omega

end Stage

def shr (x : Reg) : Nat → Operand
  | 0 => .reg x
  | j + 1 => .lsr x (j + 1)

@[simp] theorem value_shr (x : Reg) (j : Nat) (s : Core) : (shr x j).value s = s.r x >>> j := by
  cases j with
  | zero => exact (BitVec.ushiftRight_zero _).symm
  | succ j => rfl

section Divide

variable {code : List Instr} {p n d k j : Nat} (dividend divisor result curbit : Reg)

/-- What one round of the loop does j-th. -/
def trial (j : Nat) : List (Cond × Bool × Op) :=
  [(.al, false, .cmp dividend (shr divisor j)), (.hs, false, .sub dividend dividend (shr divisor j)),
    (.hs, false, .orr result result (shr curbit j))]

def nextFour : List (Cond × Bool × Op) :=
  [(.al, false, .cmp dividend 0), (.ne, true, .mov curbit (.lsr curbit 4)),
    (.ne, false, .mov divisor (.lsr divisor 4))]

def fourBits : List (Cond × Bool × Op) :=
  trial dividend divisor result curbit 0 ++ trial dividend divisor result curbit 1 ++
    trial dividend divisor result curbit 2 ++ trial dividend divisor result curbit 3

structure Dividing (s₀ : Core) (n d k e : Nat) (s : Core) : Prop where
  shifted : (s.r divisor).toNat = d * 2 ^ k
  bit : (s.r curbit).toNat = 2 ^ k
  stage : Stage n d (s.r result).toNat (s.r dividend).toNat e
  others : ∀ y ∉ [dividend, divisor, result, curbit], s.r y = s₀.r y
  mem : s.mem = s₀.mem

variable {dividend divisor result curbit}

theorem run_trial (distinct : [dividend, divisor, result, curbit].Nodup) (j : Nat) (s : Core) :
    (run (trial dividend divisor result curbit j) s).mem = s.mem ∧
      (run (trial dividend divisor result curbit j) s).r =
        if s.r divisor >>> j ≤ s.r dividend then
          Function.update (Function.update s.r dividend (s.r dividend - s.r divisor >>> j))
            result (s.r result ||| s.r curbit >>> j)
        else s.r := by
  simp only [List.nodup_cons, List.mem_cons, List.not_mem_nil, or_false, not_or] at distinct
  by_cases fits : s.r divisor >>> j ≤ s.r dividend
  · simp [trial, run_cons, Cond.holds, fits, distinct, Function.update_of_ne, Ne.symm]
  · simp [trial, run_cons, Cond.holds, fits]

theorem trial_step {s₀ s : Core} (distinct : [dividend, divisor, result, curbit].Nodup)
    (now : Dividing dividend divisor result curbit s₀ n d k (k + 1 - j) s) :
    Dividing dividend divisor result curbit s₀ n d k (k + 1 - (j + 1))
      (run (trial dividend divisor result curbit j) s) := by
  obtain ⟨mem, regs⟩ := run_trial distinct j s
  simp only [List.nodup_cons, List.mem_cons, List.not_mem_nil, or_false, not_or] at distinct
  have divisor_kept : (run (trial dividend divisor result curbit j) s).r divisor = s.r divisor := by
    rw [regs]
    split_ifs <;> simp [distinct, Ne.symm]
  have curbit_kept : (run (trial dividend divisor result curbit j) s).r curbit = s.r curbit := by
    rw [regs]
    split_ifs <;> simp [distinct, Ne.symm]
  refine ⟨by rw [divisor_kept, now.shifted], by rw [curbit_kept, now.bit], ?_, ?_, by rw [mem, now.mem]⟩
  · have shifted : (s.r divisor >>> j).toNat = d * 2 ^ k / 2 ^ j := by
      rw [BitVec.toNat_ushiftRight, now.shifted, Nat.shiftRight_eq_div_pow]
    have bit : (s.r curbit >>> j).toNat = 2 ^ k / 2 ^ j := by
      rw [BitVec.toNat_ushiftRight, now.bit, Nat.shiftRight_eq_div_pow]
    have result_next : ((run (trial dividend divisor result curbit j) s).r result).toNat =
        if d * 2 ^ k / 2 ^ j ≤ (s.r dividend).toNat then (s.r result).toNat ||| 2 ^ k / 2 ^ j
        else (s.r result).toNat := by
      simp only [regs, ← shifted, ← bit, BitVec.le_def]
      split_ifs <;> simp
    have dividend_next : ((run (trial dividend divisor result curbit j) s).r dividend).toNat =
        if d * 2 ^ k / 2 ^ j ≤ (s.r dividend).toNat then (s.r dividend).toNat - d * 2 ^ k / 2 ^ j
        else (s.r dividend).toNat := by
      simp only [regs, ← shifted, BitVec.le_def]
      split_ifs with fits
      · rw [Function.update_of_ne distinct.1.2.1, Function.update_self, BitVec.toNat_sub_of_le fits]
      · rfl
    rw [result_next, dividend_next]
    exact stage_trial now.stage
  · intro y apart
    rw [regs, ← now.others y apart]
    simp only [List.mem_cons, List.not_mem_nil, or_false, not_or] at apart
    split_ifs <;> simp [apart]

theorem run_four {s₀ s : Core} (distinct : [dividend, divisor, result, curbit].Nodup)
    (now : Dividing dividend divisor result curbit s₀ n d k (k + 1) s) :
    Dividing dividend divisor result curbit s₀ n d k (k + 1 - 4)
      (run (fourBits dividend divisor result curbit) s) := by
  simp only [fourBits, run_append]
  exact trial_step distinct (trial_step distinct (trial_step distinct (trial_step (j := 0) distinct now)))

/-- The end of a round, which is the last one where nothing is left or no bit is. -/
theorem run_next (distinct : [dividend, divisor, result, curbit].Nodup) (s : Core) :
    (run (nextFour dividend divisor curbit) s).z = decide (s.r dividend = 0#32 ∨ s.r curbit >>> 4 = 0#32) ∧
      (run (nextFour dividend divisor curbit) s).mem = s.mem ∧
      (run (nextFour dividend divisor curbit) s).r =
        if s.r dividend = 0#32 then s.r
        else if s.r curbit >>> 4 = 0#32 then Function.update s.r curbit 0#32
        else Function.update (Function.update s.r curbit (s.r curbit >>> 4)) divisor (s.r divisor >>> 4) := by
  simp only [List.nodup_cons, List.mem_cons, List.not_mem_nil, or_false, not_or] at distinct
  by_cases empty : s.r dividend = 0#32
  · simp [nextFour, run_cons, Cond.holds, empty]
  · by_cases last : s.r curbit >>> 4 = 0#32
    · simp [nextFour, run_cons, Cond.holds, empty, last]
    · simp [nextFour, run_cons, Cond.holds, empty, last, distinct]

theorem last_bit {s₀ u : Core} {e : Nat} (four : Dividing dividend divisor result curbit s₀ n d k e u) :
    (u.r curbit >>> 4).toNat = 2 ^ k / 2 ^ 4 ∧ (u.r curbit >>> 4 = 0#32 ↔ k < 4) := by
  have next : (u.r curbit >>> 4).toNat = 2 ^ k / 2 ^ 4 := by
    rw [BitVec.toNat_ushiftRight, four.bit, Nat.shiftRight_eq_div_pow]
  refine ⟨next, ?_⟩
  rw [← BitVec.toNat_inj, next, BitVec.toNat_ofNat, Nat.zero_mod,
    Nat.div_eq_zero_iff_lt (by omega), Nat.pow_lt_pow_iff_right (by omega)]

theorem dividing_done {s₀ u : Core} (distinct : [dividend, divisor, result, curbit].Nodup) (positive : 0 < d)
    (four : Dividing dividend divisor result curbit s₀ n d k (k + 1 - 4) u)
    (past : u.r dividend = 0#32 ∨ u.r curbit >>> 4 = 0#32) :
    ((run (nextFour dividend divisor curbit) u).r result).toNat = n / d ∧
      (∀ y ∉ [dividend, divisor, result, curbit], (run (nextFour dividend divisor curbit) u).r y = s₀.r y) ∧
      (run (nextFour dividend divisor curbit) u).mem = s₀.mem := by
  obtain ⟨-, mem, regs⟩ := run_next distinct u
  simp only [List.nodup_cons, List.mem_cons, List.not_mem_nil, or_false, not_or] at distinct
  refine ⟨?_, ?_, by rw [mem, four.mem]⟩
  · have kept : (run (nextFour dividend divisor curbit) u).r result = u.r result := by
      rw [regs]
      split_ifs <;> simp [distinct, Ne.symm]
    have stage := four.stage
    rw [kept]
    obtain empty | low := past
    · rw [empty, BitVec.toNat_ofNat, Nat.zero_mod] at stage
      exact stage_exact stage positive
    · rw [Nat.sub_eq_zero_of_le (Nat.succ_le_of_lt ((last_bit four).2.mp low))] at stage
      exact stage_last stage
  · intro y apart
    rw [regs, ← four.others y apart]
    simp only [List.mem_cons, List.not_mem_nil, or_false, not_or] at apart
    split_ifs <;> simp [apart]

theorem dividing_next {s₀ u : Core} (distinct : [dividend, divisor, result, curbit].Nodup)
    (four : Dividing dividend divisor result curbit s₀ n d k (k + 1 - 4) u) (some : u.r dividend ≠ 0#32)
    (high : 4 ≤ k) :
    Dividing dividend divisor result curbit s₀ n d (k - 4) (k - 4 + 1) (run (nextFour dividend divisor curbit) u) := by
  obtain ⟨-, mem, regs⟩ := run_next distinct u
  obtain ⟨next, last⟩ := last_bit four
  simp only [List.nodup_cons, List.mem_cons, List.not_mem_nil, or_false, not_or] at distinct
  simp only [if_neg some, if_neg (last.not.mpr (not_lt.mpr high))] at regs
  have curbit_next : (run (nextFour dividend divisor curbit) u).r curbit = u.r curbit >>> 4 := by
    simp [regs, distinct, Ne.symm]
  have divisor_next : (run (nextFour dividend divisor curbit) u).r divisor = u.r divisor >>> 4 := by
    simp [regs]
  have result_next : (run (nextFour dividend divisor curbit) u).r result = u.r result := by
    simp [regs, distinct, Ne.symm]
  have dividend_next : (run (nextFour dividend divisor curbit) u).r dividend = u.r dividend := by
    simp [regs, distinct]
  have fewer : k - 4 + 1 = k + 1 - 4 := by omega
  constructor
  case shifted =>
    rw [divisor_next, BitVec.toNat_ushiftRight, four.shifted, Nat.shiftRight_eq_div_pow,
      Nat.mul_div_assoc d (pow_dvd_pow 2 high), Nat.pow_div high (by omega)]
  case bit => rw [curbit_next, next, Nat.pow_div high (by omega)]
  case stage =>
    rw [result_next, dividend_next, fewer]
    exact four.stage
  case others =>
    intro y apart
    rw [regs, ← four.others y apart]
    simp only [List.mem_cons, List.not_mem_nil, or_false, not_or] at apart
    simp [apart]
  case mem => rw [mem, four.mem]

theorem div_round {s₀ c : Core} {p : Nat} (distinct : [dividend, divisor, result, curbit].Nodup) (positive : 0 < d)
    (placed : Placed code
      (ops (fourBits dividend divisor result curbit ++ nextFour dividend divisor curbit) ++ [.b .ne (-15)]) p)
    (now : Dividing dividend divisor result curbit s₀ n d k (k + 1) c) :
    Ends code ⟨c, .at p⟩ fun t =>
      (t.pc = .at p ∧ (∃ k, Dividing dividend divisor result curbit s₀ n d k (k + 1) t.core) ∧
        (t.core.r curbit).toNat < (c.r curbit).toNat) ∨
      (t.pc = .at (p + 16) ∧ (t.core.r result).toNat = n / d ∧
        (∀ y ∉ [dividend, divisor, result, curbit], t.core.r y = s₀.r y) ∧ t.core.mem = s₀.mem) := by
  refine Ends.block placed.append_left (Ends.instr (placed.append_right.get (k := 0) rfl) rfl (Ends.now ?_))
  rw [run_append]
  have four := run_four distinct now
  generalize run (fourBits dividend divisor result curbit) c = u at four ⊢
  obtain ⟨zero, -, -⟩ := run_next distinct u
  simp only [Instr.exec, Cond.holds, zero, Bool.not_eq_true', decide_eq_false_iff_not]
  by_cases past : u.r dividend = 0#32 ∨ u.r curbit >>> 4 = 0#32
  · exact .inr ⟨by simp [past, fourBits, trial, nextFour], dividing_done distinct positive four past⟩
  · rw [not_or] at past
    have next := dividing_next distinct four past.1 (not_lt.mp ((last_bit four).2.not.mp past.2))
    refine .inl ⟨by simp [past, fourBits, trial, nextFour], ⟨k - 4, next⟩, ?_⟩
    rw [next.bit, now.bit]
    exact Nat.pow_lt_pow_right (by omega) (by have high := (last_bit four).2.not.mp past.2; omega)

theorem div_loop {s₀ s : Core} {p : Nat} (distinct : [dividend, divisor, result, curbit].Nodup) (positive : 0 < d)
    (placed : Placed code
      (ops (fourBits dividend divisor result curbit ++ nextFour dividend divisor curbit) ++ [.b .ne (-15)]) p)
    (start : Dividing dividend divisor result curbit s₀ n d k (k + 1) s) :
    Ends code ⟨s, .at p⟩ fun t => t.pc = .at (p + 16) ∧ (t.core.r result).toNat = n / d ∧
      (∀ y ∉ [dividend, divisor, result, curbit], t.core.r y = s₀.r y) ∧ t.core.mem = s₀.mem := by
  refine Ends.loop (fun c => ∃ k, Dividing dividend divisor result curbit s₀ n d k (k + 1) c)
    (fun c => (c.r curbit).toNat) (fun c inv => ?_) ⟨k, start⟩
  obtain ⟨k, now⟩ := inv
  exact div_round distinct positive placed now

variable (divisor curbit) in
/-- What the macro begins with. -/
def firstShift : List (Cond × Bool × Op) :=
  [(.al, false, .tst divisor (.imm 0xe0000000)), (.eq, false, .mov divisor (.lsl divisor 3)),
    (.eq, false, .mov curbit 8), (.ne, false, .mov curbit 1)]

set_option maxRecDepth 2000 in
theorem ARM_DIV_BODY_parts :
    assemble (ARM_DIV_BODY dividend divisor result curbit) =
      ops (firstShift divisor curbit) ++
      (assemble (alignLoop dividend divisor 0x10000000 4 (.mov curbit (.lsl curbit 4))) ++
      (assemble (alignLoop dividend divisor 0x80000000 1 (.mov curbit (.lsl curbit 1))) ++
      (ops [(.al, false, .mov result 0)] ++
      (ops (fourBits dividend divisor result curbit ++ nextFour dividend divisor curbit) ++ [.b .ne (-15)])))) := rfl

theorem small_of_top_clear {w : Word} (clear : w &&& 0xe0000000#32 = 0#32) : w.toNat < 2 ^ 29 := by
  by_contra large
  obtain ⟨i, above, set⟩ := Nat.exists_ge_and_testBit_of_ge_two_pow (not_lt.mp large)
  have bit := congrArg (fun v : Word => v.getLsbD i) clear
  rw [← BitVec.getLsbD] at set
  have below : i < 32 := BitVec.lt_of_getLsbD set
  have cases : i = 29 ∨ i = 30 ∨ i = 31 := by omega
  simp only [BitVec.getLsbD_and, set, Bool.true_and] at bit
  obtain rfl | rfl | rfl := cases <;> simp at bit

theorem first_shift (apart : divisor ≠ curbit) (s : Core) :
    ∃ j, Aligned s divisor curbit (fun j => 1 <<< j) (s.r divisor).toNat j (run (firstShift divisor curbit) s) := by
  by_cases clear : s.r divisor &&& 0xe0000000#32 = 0#32
  · refine ⟨3, ?_, ?_, fun y apart₁ apart₂ => ?_, ?_⟩
    · have shifted := toNat_shiftLeft (k := 3) (small_of_top_clear clear) (by omega)
      simp [firstShift, run_cons, Cond.holds, clear, apart, shifted]
    all_goals simp [firstShift, run_cons, Cond.holds, *]
  · refine ⟨0, ?_, ?_, fun y apart₁ apart₂ => ?_, ?_⟩
    all_goals simp [firstShift, run_cons, Cond.holds, *]

theorem div_body {s : Core} {p : Nat} (placed : Placed code (assemble (ARM_DIV_BODY dividend divisor result curbit)) p)
    (distinct : [dividend, divisor, result, curbit].Nodup) (positive : s.r divisor ≠ 0#32) :
    Ends code ⟨s, .at p⟩ fun t => t.pc = .at (p + 31) ∧ t.core.r result = s.r dividend / s.r divisor ∧
      (∀ y ∉ [dividend, divisor, result, curbit], t.core.r y = s.r y) ∧ t.core.mem = s.mem := by
  rw [ARM_DIV_BODY_parts] at placed
  have distinct' := distinct
  simp only [List.nodup_cons, List.mem_cons, List.not_mem_nil, or_false, not_or] at distinct'
  have apart : [dividend, divisor, curbit].Nodup := by simp [distinct']
  have some : 0 < (s.r divisor).toNat := Nat.pos_of_ne_zero fun h => positive (BitVec.eq_of_toNat_eq h)
  obtain ⟨j, aligned⟩ := @first_shift divisor curbit distinct'.2.1.2 s
  refine Ends.block placed.append_left ?_
  have placed₁ := placed.append_right
  refine (align_loop placed₁.append_left (counts_lsl curbit 4) apart (by decide) (by omega) some aligned).bind ?_
  rintro ⟨t₁, _⟩ ⟨rfl, j₁, aligned₁, -⟩
  have placed₂ := placed₁.append_right
  refine (align_loop placed₂.append_left (counts_lsl curbit 1) apart (by decide) (by omega) some aligned₁).bind ?_
  rintro ⟨t₂, _⟩ ⟨rfl, j₂, aligned₂, enough⟩
  dsimp only at aligned₂ enough
  have placed₃ := placed₂.append_right
  refine Ends.block placed₃.append_left ?_
  have start : Dividing dividend divisor result curbit s (s.r dividend).toNat (s.r divisor).toNat j₂ (j₂ + 1)
      (run [(.al, false, .mov result 0)] t₂) := by
    have power : j₂ < 32 := aligned_within some aligned₂
    refine ⟨?_, ?_, ?_, fun y apart => ?_, ?_⟩
    · simp [run_cons, Cond.holds, distinct', aligned₂.shifted]
    · have value : (1#32 <<< j₂).toNat = 2 ^ j₂ := by
        rw [toNat_shiftLeft (k := j₂) _ power.le]
        · simp
        · exact Nat.one_lt_two_pow (by omega)
      simp [run_cons, Cond.holds, distinct', Ne.symm, aligned₂.count, value]
    · have kept : t₂.r dividend = s.r dividend := aligned₂.others dividend distinct'.1.1 distinct'.1.2.2
      refine Or.inl ?_
      simpa [run_cons, Cond.holds, distinct', kept] using split_start (aligned_enough some aligned₂ enough)
    · simp only [List.mem_cons, List.not_mem_nil, or_false, not_or] at apart
      simp [run_cons, Cond.holds, apart, aligned₂.others y apart.2.1 apart.2.2.2]
    · simp [run_cons, Cond.holds, aligned₂.mem]
  refine (div_loop distinct some placed₃.append_right start).mono ?_
  rintro ⟨u, _⟩ ⟨rfl, quotient, others, mem⟩
  refine ⟨rfl, ?_, others, mem⟩
  exact BitVec.eq_of_toNat_eq (quotient.trans BitVec.toNat_udiv.symm)

end Divide

/-! The order of a divisor -/

/-- Where there is a bit from h on, the bits below it are dropped and counted. -/
def narrow (h : Nat) (x : Word × Word) : Word × Word :=
  if 1#32 <<< h ≤ x.1 then (x.1 >>> h, x.2 + BitVec.ofNat 32 h) else x

def lastBits (x : Word × Word) : Word := if 4 < x.1 then x.2 + 3 else x.2 + x.1 >>> 1

theorem order_of_power : ∀ k < 32,
    lastBits (narrow 4 (narrow 8 (narrow 16 (1#32 <<< k, 0)))) = BitVec.ofNat 32 k := by decide

section Order

variable (divisor order : Reg)

def findFirst : List (Cond × Bool × Op) :=
  [(.al, false, .cmp divisor (.imm 0x10000)), (.hs, false, .mov divisor (.lsr divisor 16)),
    (.hs, false, .mov order 16), (.lo, false, .mov order 0)]

def findNext (h : Nat) : List (Cond × Bool × Op) :=
  [(.al, false, .cmp divisor (.imm (1#32 <<< h))), (.hs, false, .mov divisor (.lsr divisor h)),
    (.hs, false, .add order order (.imm (BitVec.ofNat 32 h)))]

def findLast : List (Cond × Bool × Op) :=
  [(.al, false, .cmp divisor (.imm 0x4)), (.hi, false, .add order order 3),
    (.ls, false, .add order order (.lsr divisor 1))]

def findOrder : List (Cond × Bool × Op) :=
  findFirst divisor order ++ findNext divisor order 8 ++ findNext divisor order 4 ++
    findLast divisor order

variable {divisor order}

def pair (divisor order : Reg) (s : Core) : Word × Word := (s.r divisor, s.r order)

theorem run_findFirst (apart : divisor ≠ order) (s : Core) :
    pair divisor order (run (findFirst divisor order) s) = narrow 16 (s.r divisor, 0) := by
  by_cases high : 65536#32 ≤ s.r divisor <;>
    simp [pair, findFirst, run_cons, Cond.holds, narrow, high, apart]

theorem run_findNext (apart : divisor ≠ order) (h : Nat) (s : Core) :
    pair divisor order (run (findNext divisor order h) s) = narrow h (pair divisor order s) := by
  by_cases high : 1#32 <<< h ≤ s.r divisor
  · simp [pair, findNext, run_cons, Cond.holds, narrow, high, apart, apart.symm]
  · simp [pair, findNext, run_cons, Cond.holds, narrow, high]

theorem run_findLast (s : Core) :
    (run (findLast divisor order) s).r order = lastBits (pair divisor order s) := by
  by_cases equal : s.r divisor = 4#32
  · simp [pair, findLast, run_cons, Cond.holds, lastBits, equal]
  · by_cases below : 4#32 ≤ s.r divisor
    · have above : 4#32 < s.r divisor := BitVec.lt_of_le_ne below (Ne.symm equal)
      simp [pair, findLast, run_cons, Cond.holds, lastBits, equal, below, above]
    · have above : ¬4#32 < s.r divisor := fun h => below (BitVec.le_of_lt h)
      simp [pair, findLast, run_cons, Cond.holds, lastBits, below, above]

theorem run_order (apart : divisor ≠ order) {s : Core} {k : Nat} (within : k < 32)
    (power : s.r divisor = 1#32 <<< k) : (run (findOrder divisor order) s).r order = BitVec.ofNat 32 k := by
  simp only [findOrder, run_append]
  rw [run_findLast, run_findNext apart, run_findNext apart, run_findFirst apart, power]
  exact order_of_power k within

end Order

end Tiny6410.Div
