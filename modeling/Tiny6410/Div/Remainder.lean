import Tiny6410.Div.Body

/-! What ARM_MOD_BODY computes. -/
namespace Tiny6410.Div

open Alu Alu.Reg
open Memory (Word)

/-- The dividend so far, with e subtractions still to come. -/
structure Rest (n d m e : Nat) : Prop where
  mod : m % d = n % d
  below : m < d * 2 ^ e

section Rest

variable {n d m e : Nat}

theorem rest_bit (rest : Rest n d m (e + 1)) : Rest n d (if d * 2 ^ e ≤ m then m - d * 2 ^ e else m) e := by
  obtain ⟨mod, below⟩ := rest
  split_ifs with fits
  · refine ⟨?_, ?_⟩
    · rw [← mod, Nat.sub_mul_mod fits]
    · rw [Nat.pow_succ, ← Nat.mul_assoc] at below
      omega
  · exact ⟨mod, not_le.mp fits⟩

theorem rest_last (rest : Rest n d m 0) : m = n % d := by
  have below := rest.below
  rw [Nat.pow_zero, Nat.mul_one] at below
  rw [← rest.mod, Nat.mod_eq_of_lt below]

theorem rest_zero (rest : Rest n d 0 e) : 0 = n % d := by
  rw [← rest.mod, Nat.zero_mod]

end Rest

section Reduce

variable {code : List Instr} {p n d k j e : Nat} (dividend divisor order : Reg)

def reduce (j : Nat) : List (Cond × Bool × Op) :=
  [(.al, false, .cmp dividend (shr divisor j)), (.hs, false, .sub dividend dividend (shr divisor j))]

structure Reducing (s₀ : Core) (n d k e : Nat) (w : Word) (s : Core) : Prop where
  shifted : (s.r divisor).toNat = d * 2 ^ k
  rest : Rest n d (s.r dividend).toNat e
  count : s.r order = w
  others : ∀ y ∉ [dividend, divisor, order], s.r y = s₀.r y
  mem : s.mem = s₀.mem

variable {dividend divisor order} {s₀ s : Core} {w : Word}

theorem run_reduce (distinct : [dividend, divisor, order].Nodup)
    (now : Reducing dividend divisor order s₀ n d k (k + 1 - j) w s) (within : j ≤ k) :
    Reducing dividend divisor order s₀ n d k (k + 1 - (j + 1)) w (run (reduce dividend divisor j) s) := by
  simp only [List.nodup_cons, List.mem_cons, List.not_mem_nil, or_false, not_or] at distinct
  have kept : ∀ y ≠ dividend, (run (reduce dividend divisor j) s).r y = s.r y := fun y apart =>
    @run_others _ [dividend] (by simp [reduce, Op.dest]) s _ (by simpa using apart)
  have mem : (run (reduce dividend divisor j) s).mem = s.mem := run_mem _ s
  refine ⟨?_, ?_, ?_, fun y apart => ?_, mem.trans now.mem⟩
  · rw [kept divisor (Ne.symm distinct.1.1), now.shifted]
  · have part : (s.r divisor >>> j).toNat = d * 2 ^ (k - j) := by
      rw [BitVec.toNat_ushiftRight, now.shifted, Nat.shiftRight_eq_div_pow,
        Nat.mul_div_assoc d (pow_dvd_pow 2 within), Nat.pow_div within (by omega)]
    have next : ((run (reduce dividend divisor j) s).r dividend).toNat =
        if d * 2 ^ (k - j) ≤ (s.r dividend).toNat then (s.r dividend).toNat - d * 2 ^ (k - j)
        else (s.r dividend).toNat := by
      rw [← part]
      by_cases fits : s.r divisor >>> j ≤ s.r dividend
      · rw [if_pos (BitVec.le_def.mp fits), ← BitVec.toNat_sub_of_le fits]
        simp [reduce, run_cons, Cond.holds, fits]
      · rw [if_neg fun le => fits (BitVec.le_def.mpr le)]
        simp [reduce, run_cons, Cond.holds, fits]
    have rest := now.rest
    rw [Nat.sub_add_comm within] at rest
    rw [next, Nat.add_sub_add_right]
    exact rest_bit rest
  · rw [kept order (Ne.symm distinct.1.2), now.count]
  · rw [kept y fun h => apart (h ▸ List.mem_cons_self), now.others y apart]

theorem reducing_congr {c : Core} (now : Reducing dividend divisor order s₀ n d k e w s) (regs : c.r = s.r)
    (mem : c.mem = s.mem) : Reducing dividend divisor order s₀ n d k e w c :=
  ⟨regs ▸ now.shifted, regs ▸ now.rest, regs ▸ now.count, regs ▸ now.others, mem.trans now.mem⟩

/-- The remainder is there. -/
structure Remains (dividend divisor order : Reg) (s₀ : Core) (n d p : Nat) (t : State) : Prop where
  pc : t.pc = .at p
  remainder : (t.core.r dividend).toNat = n % d
  others : ∀ y ∉ [dividend, divisor, order], t.core.r y = s₀.r y
  mem : t.core.mem = s₀.mem

theorem remains_last (now : Reducing dividend divisor order s₀ n d k 0 w s) :
    Remains dividend divisor order s₀ n d p ⟨s, .at p⟩ :=
  ⟨rfl, rest_last now.rest, now.others, now.mem⟩

def halve (dividend divisor : Reg) : List (Cond × Bool × Op) :=
  reduce dividend divisor 0 ++ [(.al, false, .mov divisor (.lsr divisor 1))]

theorem run_halve (distinct : [dividend, divisor, order].Nodup)
    (now : Reducing dividend divisor order s₀ n d (k + 1) (k + 2) w s) :
    Reducing dividend divisor order s₀ n d k (k + 1) w (run (halve dividend divisor) s) := by
  have next := run_reduce (j := 0) distinct now (by omega)
  rw [halve, run_append]
  generalize run (reduce dividend divisor 0) s = c at next ⊢
  simp only [List.nodup_cons, List.mem_cons, List.not_mem_nil, or_false, not_or] at distinct
  refine ⟨?_, ?_, ?_, fun y apart => ?_, ?_⟩
  · have shifted : (c.r divisor >>> 1).toNat = d * 2 ^ k := by
      rw [BitVec.toNat_ushiftRight, next.shifted, Nat.shiftRight_eq_div_pow, Nat.pow_succ, ← Nat.mul_assoc,
        Nat.pow_one, Nat.mul_div_cancel _ (by omega)]
    simpa [run_cons, Cond.holds] using shifted
  · simpa [run_cons, Cond.holds, distinct] using next.rest
  · simpa [run_cons, Cond.holds, distinct, Ne.symm] using next.count
  · have same := next.others y apart
    simp only [List.mem_cons, List.not_mem_nil, or_false, not_or] at apart
    simpa [run_cons, Cond.holds, apart] using same
  · simpa [run_cons, Cond.holds] using next.mem

/-- The last comparisons, from the one that the order says. -/
theorem mod_last {p : Nat} (distinct : [dividend, divisor, order].Nodup) (low : k < 3)
    (at0 : Placed code (ops [(.al, false, .cmn order 2)]) p) (at1 : code[p + 1]? = some (.b .lt 8))
    (at2 : code[p + 2]? = some (.b .eq 4)) (at3 : Placed code (ops (halve dividend divisor)) (p + 3))
    (at6 : Placed code (ops (halve dividend divisor)) (p + 6))
    (at9 : Placed code (ops (reduce dividend divisor 0)) (p + 9))
    (now : Reducing dividend divisor order s₀ n d k (k + 1) (BitVec.ofNat 32 k - 3#32) s) :
    Ends code ⟨s, .at p⟩ (Remains dividend divisor order s₀ n d (p + 11)) := by
  have one : ∀ {c : Core} {w : Word}, Reducing dividend divisor order s₀ n d 0 1 w c →
      Ends code ⟨c, .at (p + 9)⟩ (Remains dividend divisor order s₀ n d (p + 11)) := fun now =>
    Ends.block at9 (Ends.now (remains_last (run_reduce (j := 0) distinct now (by omega))))
  have two : ∀ {c : Core} {w : Word}, Reducing dividend divisor order s₀ n d 1 2 w c →
      Ends code ⟨c, .at (p + 6)⟩ (Remains dividend divisor order s₀ n d (p + 11)) := fun now =>
    Ends.block at6 (one (run_halve distinct now))
  have three : ∀ {c : Core} {w : Word}, Reducing dividend divisor order s₀ n d 2 3 w c →
      Ends code ⟨c, .at (p + 3)⟩ (Remains dividend divisor order s₀ n d (p + 11)) := fun now =>
    Ends.block at3 (two (run_halve distinct now))
  refine Ends.block at0 ?_
  have kept : Reducing dividend divisor order s₀ n d k (k + 1) (BitVec.ofNat 32 k - 3#32)
      (run [(.al, false, .cmn order 2)] s) := reducing_congr now rfl rfl
  have flags : run [(.al, false, .cmn order 2)] s = s.sum (BitVec.ofNat 32 k - 3#32) 2#32 false := by
    simp [run_cons, Cond.holds, now.count]
  interval_cases k
  · exact Ends.takenTo at1 (by rw [flags]; rfl) (by rw [List.length_singleton]; omega) (one kept)
  · refine Ends.passed at1 (by rw [flags]; rfl) (Ends.takenTo at2 (by rw [flags]; rfl) (by rw [List.length_singleton]; omega) (two kept))
  · refine Ends.passed at1 (by rw [flags]; rfl) (Ends.passed at2 (by rw [flags]; rfl) (three kept))

/-! The loop of four subtractions -/

def reduceFour (dividend divisor : Reg) : List (Cond × Bool × Op) :=
  reduce dividend divisor 0 ++ reduce dividend divisor 1 ++ reduce dividend divisor 2 ++ reduce dividend divisor 3

def countFour (dividend divisor order : Reg) : List (Cond × Bool × Op) :=
  [(.al, false, .cmp dividend 1), (.al, false, .mov divisor (.lsr divisor 4)), (.ge, true, .sub order order 4)]

def settle (dividend order : Reg) : List (Cond × Bool × Op) :=
  [(.al, false, .tst order 3), (.ne, false, .teq dividend 0)]

theorem run_reduceFour (distinct : [dividend, divisor, order].Nodup) (high : 3 ≤ k)
    (now : Reducing dividend divisor order s₀ n d k (k + 1) w s) :
    Reducing dividend divisor order s₀ n d k (k - 3) w (run (reduceFour dividend divisor) s) := by
  simp only [reduceFour, run_append]
  have first := run_reduce (j := 0) distinct now (by omega)
  have second := run_reduce (j := 1) distinct first (by omega)
  have third := run_reduce (j := 2) distinct second (by omega)
  exact run_reduce (j := 3) distinct third (by omega)

theorem slt_one {m : Word} (small : m.toNat < 2 ^ 31) : m.slt 1#32 = (m == 0#32) := by
  have value : m.toInt = m.toNat := BitVec.toInt_eq_toNat_of_lt (by omega)
  rw [BitVec.slt_eq_decide, value, Bool.eq_iff_iff, decide_eq_true_iff, beq_iff_eq, ← BitVec.toNat_inj]
  simp

theorem order_less : ∀ k < 32, 3 ≤ k → (BitVec.ofNat 32 k - 3#32).slt 4#32 = decide (k < 7) := by decide

theorem order_settled : ∀ k < 7, 3 ≤ k → (BitVec.ofNat 32 k - 3#32 - 4#32 &&& 3#32 = 0#32 ↔ k = 3) := by decide

theorem order_fewer : ∀ k < 32, 4 ≤ k → BitVec.ofNat 32 k - 3#32 - 4#32 = BitVec.ofNat 32 (k - 4) - 3#32 := by
  decide

/-- Nothing is left. The order is not counted down and the loop ends. -/
theorem run_countFour_zero (empty : s.r dividend = 0#32) :
    Cond.ge.holds (run (countFour dividend divisor order) s) = false ∧
      (run (countFour dividend divisor order) s).r = Function.update s.r divisor (s.r divisor >>> 4) := by
  have less : (0#32).slt 1#32 = true := by decide
  simp [countFour, run_cons, ge_difference, empty, less]

theorem run_countFour (distinct : [dividend, divisor, order].Nodup) (some : s.r dividend ≠ 0#32) (small : (s.r dividend).toNat < 2 ^ 31) :
    Cond.ge.holds (run (countFour dividend divisor order) s) = !(s.r order).slt 4#32 ∧
      (run (countFour dividend divisor order) s).r =
        Function.update (Function.update s.r divisor (s.r divisor >>> 4)) order (s.r order - 4#32) := by
  simp only [List.nodup_cons, List.mem_cons, List.not_mem_nil, or_false, not_or] at distinct
  have more : (s.r dividend).slt 1#32 = false := by simp [slt_one small, some]
  simp [countFour, run_cons, ge_difference, more, distinct, Ne.symm]

theorem run_settle : (run (settle dividend order) s).z = ((s.r order &&& 3#32 == 0#32) || s.r dividend == 0#32) ∧
    (run (settle dividend order) s).r = s.r ∧ (run (settle dividend order) s).mem = s.mem := by
  by_cases whole : s.r order &&& 3#32 = 0#32 <;> simp [settle, run_cons, Cond.holds, whole]

theorem countFour_others {y : Reg} (apart : y ∉ [dividend, divisor, order]) :
    (run (countFour dividend divisor order) s).r y = s.r y := by
  refine @run_others _ [divisor, order] ?_ s _ fun h => apart (List.mem_cons_of_mem _ h)
  simp [countFour, Op.dest]

theorem countFour_mem : (run (countFour dividend divisor order) s).mem = s.mem :=
  run_mem _ s

/-- With something left and four bits to go, the next round starts as this one did. -/
theorem countFour_next (distinct : [dividend, divisor, order].Nodup) (within : k < 32) (high : 4 ≤ k)
    (some : s.r dividend ≠ 0#32) (small : (s.r dividend).toNat < 2 ^ 31)
    (now : Reducing dividend divisor order s₀ n d k (k - 3) (BitVec.ofNat 32 k - 3#32) s) :
    Reducing dividend divisor order s₀ n d (k - 4) (k - 4 + 1) (BitVec.ofNat 32 (k - 4) - 3#32)
      (run (countFour dividend divisor order) s) := by
  obtain ⟨-, regs⟩ := run_countFour distinct some small
  simp only [List.nodup_cons, List.mem_cons, List.not_mem_nil, or_false, not_or] at distinct
  refine ⟨?_, ?_, ?_, fun y apart => ?_, ?_⟩
  · rw [regs, Function.update_of_ne distinct.2.1, Function.update_self, BitVec.toNat_ushiftRight, now.shifted,
      Nat.shiftRight_eq_div_pow, Nat.mul_div_assoc d (pow_dvd_pow 2 high), Nat.pow_div high (by omega)]
  · have fewer : k - 4 + 1 = k - 3 := by omega
    rw [regs, Function.update_of_ne distinct.1.2, Function.update_of_ne distinct.1.1, fewer]
    exact now.rest
  · rw [regs, Function.update_self, now.count, order_fewer k within high]
  · rw [countFour_others apart, now.others y apart]
  · rw [countFour_mem, now.mem]

theorem reducing_within (positive : 0 < d) (now : Reducing dividend divisor order s₀ n d k e w s) : k < 32 := by
  have power : d * 2 ^ k < 2 ^ 32 := now.shifted ▸ (s.r divisor).isLt
  exact (Nat.pow_lt_pow_iff_right (a := 2) (by omega)).mp ((Nat.le_mul_of_pos_left _ positive).trans_lt power)

theorem reducing_small (high : 3 ≤ k) (four : Reducing dividend divisor order s₀ n d k (k - 3) w s) :
    (s.r dividend).toNat < 2 ^ 31 := by
  have power : d * 2 ^ k < 2 ^ 32 := four.shifted ▸ (s.r divisor).isLt
  have below := four.rest.below
  have split : 2 ^ k = 2 ^ (k - 3) * 2 ^ 3 := by rw [← Nat.pow_add, Nat.sub_add_cancel high]
  rw [split, ← Nat.mul_assoc] at power
  omega

section Loop

variable {p : Nat} (distinct : [dividend, divisor, order].Nodup) (positive : 0 < d)
  (at0 : Placed code (ops (reduceFour dividend divisor ++ countFour dividend divisor order)) p)
  (at11 : code[p + 11]? = some (.b .ge (-11)))
  (at12 : Placed code (ops (settle dividend order)) (p + 12))
  (at14 : code[p + 14]? = some (.b .eq 12))
  (last : ∀ {k c}, k < 3 →
    Reducing dividend divisor order s₀ n d k (k + 1) (BitVec.ofNat 32 k - 3#32) c →
    Ends code ⟨c, .at (p + 15)⟩ (Remains dividend divisor order s₀ n d (p + 26)))
include distinct positive at0 at11 at12 at14 last

theorem mod_round {c : Core} (high : 3 ≤ k)
    (now : Reducing dividend divisor order s₀ n d k (k + 1) (BitVec.ofNat 32 k - 3#32) c) :
    Ends code ⟨c, .at p⟩ fun t =>
      (t.pc = .at p ∧
        (∃ k, 3 ≤ k ∧ Reducing dividend divisor order s₀ n d k (k + 1) (BitVec.ofNat 32 k - 3#32) t.core) ∧
        (t.core.r divisor).toNat < (c.r divisor).toNat) ∨
      Remains dividend divisor order s₀ n d (p + 26) t := by
  have apart : dividend ≠ divisor := by
    simp only [List.nodup_cons, List.mem_cons, not_or] at distinct
    exact distinct.1.1
  refine Ends.block at0 ?_
  rw [run_append]
  have four := run_reduceFour distinct high now
  generalize run (reduceFour dividend divisor) c = u at four ⊢
  have after : ∀ {t : State}, t.pc = .at (p + 26) → (t.core.r dividend).toNat = n % d →
      t.core.r = (run (countFour dividend divisor order) u).r →
      t.core.mem = (run (countFour dividend divisor order) u).mem →
      Remains dividend divisor order s₀ n d (p + 26) t := fun pc remainder regs mem =>
    ⟨pc, remainder, fun y apart => by rw [regs, countFour_others apart, four.others y apart],
      by rw [mem, countFour_mem, four.mem]⟩
  obtain ⟨zero, kept, memory⟩ := @run_settle dividend order (run (countFour dividend divisor order) u)
  have target : ((p + (reduceFour dividend divisor ++ countFour dividend divisor order).length + 1 +
      (settle dividend order).length : Nat) + 12 : Int).toNat = p + 26 := by
    simp [reduceFour, reduce, countFour, settle]
    omega
  by_cases empty : u.r dividend = 0#32
  · obtain ⟨done, regs⟩ := @run_countFour_zero dividend divisor order _ empty
    have still : (run (countFour dividend divisor order) u).r dividend = 0#32 := by
      rw [regs, Function.update_of_ne apart, empty]
    refine Ends.passed at11 done (Ends.block at12 (Ends.takenTo at14 ?_ target (Ends.now (.inr ?_))))
    · simp [Cond.holds, zero, still]
    · refine after rfl ?_ kept memory
      have rest := four.rest
      rw [empty] at rest
      rw [kept, still]
      exact rest_zero rest
  · have within := reducing_within positive now
    have small := reducing_small high four
    obtain ⟨more, regs⟩ := run_countFour distinct empty small
    rw [four.count, order_less k within high] at more
    by_cases again : 7 ≤ k
    · have next := countFour_next distinct within (by omega) empty small four
      refine Ends.takenTo at11 (by simp [more, again]) ?_ (Ends.now (.inl ⟨rfl, ⟨k - 4, by omega, next⟩, ?_⟩))
      · simp [reduceFour, reduce, countFour]
      · rw [next.shifted, now.shifted]
        exact Nat.mul_lt_mul_of_pos_left (Nat.pow_lt_pow_right (by omega) (by omega)) positive
    · have counted : (run (countFour dividend divisor order) u).r order = BitVec.ofNat 32 k - 3#32 - 4#32 := by
        rw [regs, Function.update_self, four.count]
      have rest : (run (countFour dividend divisor order) u).r dividend = u.r dividend := by
        simp only [List.nodup_cons, List.mem_cons, List.not_mem_nil, or_false, not_or] at distinct
        rw [regs, Function.update_of_ne distinct.1.2, Function.update_of_ne apart]
      have settled := order_settled k (by omega) high
      refine Ends.passed at11 (by simp [more]; omega) (Ends.block at12 ?_)
      by_cases whole : k = 3
      · refine Ends.takenTo at14 ?_ target (Ends.now (.inr (after rfl ?_ kept memory)))
        · simp [Cond.holds, zero, counted, settled.mpr whole]
        · rw [kept, rest]
          exact rest_last (by simpa [whole] using four.rest)
      · refine Ends.passed at14 ?_ ?_
        · simp [Cond.holds, zero, counted, rest, settled, whole, empty]
        · have next := countFour_next distinct within (by omega) empty small four
          exact (last (by omega) (reducing_congr next kept memory)).mono fun _ => .inr

theorem mod_loop (high : 3 ≤ k)
    (start : Reducing dividend divisor order s₀ n d k (k + 1) (BitVec.ofNat 32 k - 3#32) s) :
    Ends code ⟨s, .at p⟩ (Remains dividend divisor order s₀ n d (p + 26)) := by
  refine Ends.loop (fun c => ∃ k, 3 ≤ k ∧
      Reducing dividend divisor order s₀ n d k (k + 1) (BitVec.ofNat 32 k - 3#32) c)
    (fun c => (c.r divisor).toNat) (fun c inv => ?_) ⟨k, high, start⟩
  obtain ⟨k, high, now⟩ := inv
  exact mod_round distinct positive at0 at11 at12 at14 last high now

end Loop

set_option maxRecDepth 2000 in
theorem ARM_MOD_BODY_parts :
    assemble (ARM_MOD_BODY dividend divisor order) =
      ops [(.al, false, .mov order 0)] ++
      (assemble (alignLoop dividend divisor 0x10000000 4 (.add order order 4)) ++
      (assemble (alignLoop dividend divisor 0x80000000 1 (.add order order 1)) ++
      (ops [(.al, true, .sub order order 3)] ++ ([.b .lt 16] ++
      (ops (reduceFour dividend divisor ++ countFour dividend divisor order) ++ ([.b .ge (-11)] ++
      (ops (settle dividend order) ++ ([.b .eq 12] ++
      (ops [(.al, false, .cmn order 2)] ++ ([.b .lt 8, .b .eq 4] ++
      (ops (halve dividend divisor) ++ (ops (halve dividend divisor) ++
      ops (reduce dividend divisor 0))))))))))))) := rfl

theorem mod_body {s : Core} {p : Nat} (placed : Placed code (assemble (ARM_MOD_BODY dividend divisor order)) p)
    (distinct : [dividend, divisor, order].Nodup) (positive : s.r divisor ≠ 0#32) :
    Ends code ⟨s, .at p⟩
      (Remains dividend divisor order s (s.r dividend).toNat (s.r divisor).toNat (p + 39)) := by
  rw [ARM_MOD_BODY_parts] at placed
  have at0 : Placed code (ops [(.al, false, .mov order 0)]) p := placed.append_left
  have at1 : Placed code (assemble (alignLoop dividend divisor 0x10000000 4 (.add order order 4))) (p + 1) :=
    placed.part ⟨_, rfl⟩
  have at6 : Placed code (assemble (alignLoop dividend divisor 0x80000000 1 (.add order order 1))) (p + 6) :=
    placed.part ⟨_, rfl⟩
  have at11 : Placed code (ops [(.al, true, .sub order order 3)]) (p + 11) := placed.part ⟨_, rfl⟩
  have at12 : code[p + 12]? = some (.b .lt 16) := placed.get rfl
  have at13 : Placed code (ops (reduceFour dividend divisor ++ countFour dividend divisor order)) (p + 13) :=
    placed.part ⟨_, rfl⟩
  have at24 : code[p + 24]? = some (.b .ge (-11)) := placed.get rfl
  have at25 : Placed code (ops (settle dividend order)) (p + 25) := placed.part ⟨_, rfl⟩
  have at27 : code[p + 27]? = some (.b .eq 12) := placed.get rfl
  have at28 : Placed code (ops [(.al, false, .cmn order 2)]) (p + 28) := placed.part ⟨_, rfl⟩
  have at29 : code[p + 29]? = some (.b .lt 8) := placed.get rfl
  have at30 : code[p + 30]? = some (.b .eq 4) := placed.get rfl
  have at31 : Placed code (ops (halve dividend divisor)) (p + 31) := placed.part ⟨_, rfl⟩
  have at34 : Placed code (ops (halve dividend divisor)) (p + 34) := placed.part ⟨_, rfl⟩
  have at37 : Placed code (ops (reduce dividend divisor 0)) (p + 37) := placed.part ⟨_, rfl⟩
  have some : 0 < (s.r divisor).toNat := Nat.pos_of_ne_zero fun h => positive (BitVec.eq_of_toNat_eq h)
  have distinct' := distinct
  simp only [List.nodup_cons, List.mem_cons, List.not_mem_nil, or_false, not_or] at distinct'
  have first : Aligned s divisor order (BitVec.ofNat 32) (s.r divisor).toNat 0
      (run [(.al, false, .mov order 0)] s) := by
    refine ⟨?_, ?_, fun y apart₁ apart₂ => ?_, ?_⟩ <;> simp [run_cons, *]
  refine Ends.block at0 ?_
  refine (align_loop at1 (counts_add order 4 rfl) distinct (by decide) (by omega) some first).bind ?_
  rintro ⟨t₁, _⟩ ⟨rfl, j₁, aligned₁, -⟩
  refine (align_loop at6 (counts_add order 1 rfl) distinct (by decide) (by omega) some aligned₁).bind ?_
  rintro ⟨t₂, _⟩ ⟨rfl, j₂, aligned₂, enough⟩
  dsimp only at aligned₂ enough
  refine Ends.block at11 ?_
  have within := aligned_within some aligned₂
  have start : Reducing dividend divisor order s (s.r dividend).toNat (s.r divisor).toNat j₂ (j₂ + 1)
      (BitVec.ofNat 32 j₂ - 3#32) (run [(.al, true, .sub order order 3)] t₂) := by
    have kept : t₂.r dividend = s.r dividend := aligned₂.others dividend distinct'.1.1 distinct'.1.2
    refine ⟨?_, ⟨?_, ?_⟩, ?_, fun y apart => ?_, ?_⟩
    · simp [run_cons, distinct', aligned₂.shifted]
    · simp [run_cons, distinct', kept]
    · simpa [run_cons, distinct', kept] using aligned_enough some aligned₂ enough
    · simp [run_cons, aligned₂.count]
    · simp only [List.mem_cons, List.not_mem_nil, or_false, not_or] at apart
      simp [run_cons, apart, aligned₂.others y apart.2.1 apart.2.2]
    · simp [run_cons, aligned₂.mem]
  have less : Cond.lt.holds (run [(.al, true, .sub order order 3)] t₂) = decide (j₂ < 3) := by
    have order_low : ∀ k < 32, (BitVec.ofNat 32 k).slt 3#32 = decide (k < 3) := by decide
    simp [run_cons, lt_difference, aligned₂.count, order_low j₂ within]
  by_cases low : j₂ < 3
  · refine Ends.takenTo at12 (by simp [less, low]) ?_ (mod_last distinct low at28 at29 at30 at31 at34 at37 start)
    rw [List.length_singleton]
    omega
  · refine Ends.passed at12 (by simp [less, low]) ?_
    exact mod_loop distinct some at13 at24 at25 at27 (fun low start =>
      mod_last distinct low at28 at29 at30 at31 at34 at37 start) (by omega) start

end Reduce

end Tiny6410.Div
