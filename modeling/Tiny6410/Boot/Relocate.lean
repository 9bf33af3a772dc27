import Tiny6410.Lib.Arm

/-! The relocation of the boot code: the image is copied from where it was loaded
to where it was linked, then its BSS is cleared. no-os/nand, no-os/timer and
no-os/relocate have one text; workspace/interrupt/NVI orders it differently. -/
namespace Tiny6410.Boot

open Memory Arm StateTransition

structure Image where
  -- Where _start is now.
  load : Word
  -- The bytes of boot code before the relocation code.
  entry : Word
  start : Word
  bss_start : Word
  bss_end : Word

abbrev r0 : Reg := .r 0
abbrev r1 : Reg := .r 1
abbrev r2 : Reg := .r 2
abbrev r3 : Reg := .r 3

def copy_loop : Nat := 5
def clean_bss : Nat := 9
def clean_loop : Nat := 14
def on_ddr : Nat := 17

def relocation (I : Image) : List Instr :=
  [ .adr r0 I.entry,
    .ldrLit r1 I.start,
    .ldrLit r2 I.bss_start,
    .cmp r0 r1,
    .b .eq clean_bss,
    -- copy_loop
    .ldr r3 r0 4,
    .str r3 r1 4,
    .cmp r1 r2,
    .b .ne copy_loop,
    -- clean_bss
    .ldrLit r0 I.bss_start,
    .ldrLit r1 I.bss_end,
    .mov r2 0,
    .cmp r0 r1,
    .b .eq on_ddr,
    -- clean_loop
    .str r2 r0 4,
    .cmp r0 r1,
    .b .ne clean_loop ]

def CopyCodeLoop : Nat := 5
def CleanBss : Nat := 9
def CleanLoop : Nat := 14
def JumpToMMU : Nat := 17

/-- start.s of workspace/interrupt/NVI: r2 is loaded only after the tests. -/
def relocationNVI (I : Image) : List Instr :=
  [ .adr r0 I.entry,
    .ldrLit r1 I.start,
    .cmp r0 r1,
    .b .eq CleanBss,
    -- CopyCode
    .ldrLit r2 I.bss_start,
    -- CopyCodeLoop
    .ldr r3 r0 4,
    .str r3 r1 4,
    .cmp r1 r2,
    .b .ne CopyCodeLoop,
    -- CleanBss
    .ldrLit r0 I.bss_start,
    .ldrLit r1 I.bss_end,
    .cmp r0 r1,
    .b .eq JumpToMMU,
    .mov r2 0,
    -- CleanLoop
    .str r2 r0 4,
    .cmp r0 r1,
    .b .ne CleanLoop ]

inductive Variant where
  | noOs
  | nvi
  deriving DecidableEq

def Variant.code : Variant → Image → List Instr
  | .noOs => relocation
  | .nvi => relocationNVI

def Variant.program (v : Variant) (I : Image) : Program where
  origin := I.load + I.entry
  code := v.code I

theorem aligned_add_four {a : Word} (aligned : a.toNat % 4 = 0) : (a + 4).toNat % 4 = 0 := by
  rw [BitVec.toNat_add, show (4 : Word).toNat = 4 from rfl]
  omega

theorem pointer_next {a e : Word} {n : Nat} (fits : n + 1 < 2 ^ 30)
    (stop : e = a + BitVec.ofNat 32 (4 * (n + 2))) :
    e = a + 4 + BitVec.ofNat 32 (4 * (n + 1)) ∧ a + 4 ≠ e := by
  have split : e = a + 4 + BitVec.ofNat 32 (4 * (n + 1)) := by
    rw [stop, show 4 * (n + 2) = 4 + 4 * (n + 1) by omega, BitVec.ofNat_add, BitVec.add_assoc]
    rfl
  refine ⟨split, fun met => ?_⟩
  have distance := offset_add (a + 4) (show 4 * (n + 1) < 2 ^ 32 by omega)
  rw [← split, ← met, offset, BitVec.sub_self] at distance
  simp at distance

section Loops

variable {P : Program} {i n : Nat} {s : State}

theorem copy_round (here : s.pc = P.address i) (small : i + 4 ≤ 2 ^ 30)
    (code : [.ldr r3 r0 4, .str r3 r1 4, .cmp r1 r2, .b .ne i] <+: P.code.drop i)
    (source : (s.r 0).toNat % 4 = 0) (target : (s.r 1).toNat % 4 = 0) :
    ∃ s', Reaches (step P) s s' ∧ s'.r 0 = s.r 0 + 4 ∧ s'.r 1 = s.r 1 + 4 ∧ s'.r 2 = s.r 2 ∧
      s'.mem = setWord s.mem (s.r 1) (word s.mem (s.r 0)) ∧
      s'.pc = P.address (if s.r 1 + 4 = s.r 2 then i + 4 else i) := by
  obtain ⟨s', run, regs, mem, pc⟩ := reaches_branch P [.ldr r3 r0 4, .str r3 r1 4, .cmp r1 r2]
    here code rfl (by simp only [List.length_cons, List.length_nil]; omega)
  refine ⟨s', run, ?_⟩
  rw [regs, mem, pc]
  simp [runBlock, exec, Cond.holds, State.zero, State.store, load_aligned s source,
    wordAddress_aligned target]

/-- The copy loop of n + 1 words ends, whatever the addresses: the pointer meets
its end after the last word and not before. -/
theorem copy_run (here : s.pc = P.address i) (small : i + 4 ≤ 2 ^ 30)
    (code : [.ldr r3 r0 4, .str r3 r1 4, .cmp r1 r2, .b .ne i] <+: P.code.drop i)
    (source : (s.r 0).toNat % 4 = 0) (target : (s.r 1).toNat % 4 = 0)
    (fits : n < 2 ^ 30) (stop : s.r 2 = s.r 1 + BitVec.ofNat 32 (4 * (n + 1))) :
    ∃ s', Reaches (step P) s s' ∧ s'.pc = P.address (i + 4) ∧
      s'.mem = copyWords s.mem (s.r 0) (s.r 1) (n + 1) := by
  induction n generalizing s with
  | zero =>
    obtain ⟨s', run, -, -, -, mem, pc⟩ := copy_round here small code source target
    have met : s.r 1 + 4 = s.r 2 := stop.symm
    rw [if_pos met] at pc
    exact ⟨s', run, pc, mem⟩
  | succ n ih =>
    obtain ⟨t, run, hr0, hr1, hr2, mem, pc⟩ := copy_round here small code source target
    obtain ⟨next, more⟩ := pointer_next fits stop
    rw [if_neg more] at pc
    obtain ⟨s', rest, done, final⟩ := ih pc (by rw [hr0]; exact aligned_add_four source)
      (by rw [hr1]; exact aligned_add_four target) (by omega) (by rw [hr2, hr1]; exact next)
    refine ⟨s', run.trans rest, done, ?_⟩
    rw [final, mem, hr0, hr1]
    rfl

theorem clear_round (here : s.pc = P.address i) (small : i + 3 ≤ 2 ^ 30)
    (code : [.str r2 r0 4, .cmp r0 r1, .b .ne i] <+: P.code.drop i)
    (target : (s.r 0).toNat % 4 = 0) :
    ∃ s', Reaches (step P) s s' ∧ s'.r 0 = s.r 0 + 4 ∧ s'.r 1 = s.r 1 ∧ s'.r 2 = s.r 2 ∧
      s'.mem = setWord s.mem (s.r 0) (s.r 2) ∧
      s'.pc = P.address (if s.r 0 + 4 = s.r 1 then i + 3 else i) := by
  obtain ⟨s', run, regs, mem, pc⟩ := reaches_branch P [.str r2 r0 4, .cmp r0 r1]
    here code rfl (by simp only [List.length_cons, List.length_nil]; omega)
  refine ⟨s', run, ?_⟩
  rw [regs, mem, pc]
  simp [runBlock, exec, Cond.holds, State.zero, State.store, wordAddress_aligned target]

theorem clear_run (here : s.pc = P.address i) (small : i + 3 ≤ 2 ^ 30)
    (code : [.str r2 r0 4, .cmp r0 r1, .b .ne i] <+: P.code.drop i)
    (target : (s.r 0).toNat % 4 = 0) (zero : s.r 2 = 0)
    (fits : n < 2 ^ 30) (stop : s.r 1 = s.r 0 + BitVec.ofNat 32 (4 * (n + 1))) :
    ∃ s', Reaches (step P) s s' ∧ s'.pc = P.address (i + 3) ∧
      s'.mem = overlay s.mem (s.r 0) (4 * (n + 1)) fun _ => 0 := by
  have word_zero : ∀ m a, setWord m a 0 = overlay m a 4 fun _ => 0 := fun m a =>
    overlay_congr m a 4 fun j _ => by simp [wordByte]
  induction n generalizing s with
  | zero =>
    obtain ⟨s', run, -, -, -, mem, pc⟩ := clear_round here small code target
    have met : s.r 0 + 4 = s.r 1 := stop.symm
    rw [if_pos met] at pc
    rw [zero, word_zero] at mem
    exact ⟨s', run, pc, mem⟩
  | succ n ih =>
    obtain ⟨t, run, hr0, hr1, hr2, mem, pc⟩ := clear_round here small code target
    obtain ⟨next, more⟩ := pointer_next fits stop
    rw [if_neg more] at pc
    obtain ⟨s', rest, done, final⟩ := ih pc (by rw [hr0]; exact aligned_add_four target)
      (by rw [hr2, zero]) (by omega) (by rw [hr1, hr0]; exact next)
    refine ⟨s', run.trans rest, done, ?_⟩
    have join := overlay_append s.mem (s.r 0) (k := 4) (n := 4 * (n + 1)) (fun _ => 0) (by omega)
    rw [final, mem, hr0, zero, word_zero, show 4 * (n + 1 + 1) = 4 + 4 * (n + 1) by omega]
    exact join

end Loops

def Image.length (I : Image) : Nat := offset I.start I.bss_start
def Image.bssLength (I : Image) : Nat := offset I.bss_start I.bss_end

structure Image.Linked (I : Image) : Prop where
  load : I.load.toNat % 4 = 0
  start : I.start.toNat % 4 = 0
  bss_start : I.bss_start.toNat % 4 = 0
  bss_end : I.bss_end.toNat % 4 = 0
  nonempty : I.start < I.bss_start
  ordered : I.bss_start ≤ I.bss_end

section Run

variable {I : Image}

theorem Image.Linked.length_eq (h : I.Linked) : I.length = I.bss_start.toNat - I.start.toNat :=
  offset_toNat (Nat.le_of_lt h.nonempty)

theorem Image.Linked.bssLength_eq (h : I.Linked) :
    I.bssLength = I.bss_end.toNat - I.bss_start.toNat := offset_toNat h.ordered

def Image.copied (I : Image) (m : Bytes) : Bytes :=
  if I.load = I.start then m else copyWords m I.load I.start (I.length / 4)

def Image.relocated (I : Image) (m : Bytes) : Bytes :=
  overlay (I.copied m) I.bss_start I.bssLength fun _ => 0

theorem copy_entry (v : Variant) {s : State} (here : s.pc = I.load + I.entry) :
    ∃ t, Reaches (step (v.program I)) s t ∧ t.mem = s.mem ∧
      (I.load = I.start → t.pc = (v.program I).address clean_bss) ∧
      (I.load ≠ I.start → t.pc = (v.program I).address copy_loop ∧
        t.r 0 = I.load ∧ t.r 1 = I.start ∧ t.r 2 = I.bss_start) := by
  have first : s.pc = (v.program I).address 0 := by
    rw [here, Program.address]
    simp [Variant.program]
  have loaded : s.pc - I.entry = I.load := by rw [here, BitVec.add_sub_cancel]
  cases v with
  | noOs =>
    obtain ⟨t, run, regs, mem, pc⟩ := reaches_branch (Variant.program .noOs I)
      [.adr r0 I.entry, .ldrLit r1 I.start, .ldrLit r2 I.bss_start, .cmp r0 r1]
      first ⟨_, rfl⟩ rfl (show 0 + 4 < 2 ^ 30 by decide)
    refine ⟨t, run, ?_⟩
    rw [regs, mem, pc]
    simp +contextual [runBlock, exec, Cond.holds, State.zero, loaded, clean_bss, copy_loop]
  | nvi =>
    obtain ⟨t, run, regs, mem, pc⟩ := reaches_branch (Variant.program .nvi I)
      [.adr r0 I.entry, .ldrLit r1 I.start, .cmp r0 r1] first ⟨_, rfl⟩ rfl
      (show 0 + 3 < 2 ^ 30 by decide)
    by_cases same : I.load = I.start
    · refine ⟨t, run, ?_⟩
      rw [mem, pc]
      simp [runBlock, exec, Cond.holds, State.zero, loaded, clean_bss, CleanBss, same]
    · have four : t.pc = (Variant.program .nvi I).address 4 := by
        rw [pc]
        simp [runBlock, exec, Cond.holds, State.zero, loaded, same]
      obtain ⟨load, stop⟩ := reaches_block (Variant.program .nvi I) [.ldrLit r2 I.bss_start] four
        ⟨_, rfl⟩ rfl (show 4 + 1 ≤ 2 ^ 30 by decide)
      refine ⟨_, run.trans load, ?_, fun h => absurd h same, fun _ => ⟨stop, ?_⟩⟩
      · simp [runBlock, exec, mem]
      · simp [runBlock, exec, regs, loaded]

theorem copy_part (v : Variant) (linked : I.Linked) {s : State} (here : s.pc = I.load + I.entry) :
    ∃ s', Reaches (step (v.program I)) s s' ∧ s'.pc = (v.program I).address clean_bss ∧
      s'.mem = I.copied s.mem := by
  obtain ⟨t, run, mem, skipped, entered⟩ := copy_entry v here
  rw [← mem]
  by_cases same : I.load = I.start
  · exact ⟨t, run, skipped same, (if_pos same).symm⟩
  · obtain ⟨pc, hr0, hr1, hr2⟩ := entered same
    have length := linked.length_eq
    have low := linked.start
    have high := linked.bss_start
    have order : I.start.toNat < I.bss_start.toNat := linked.nonempty
    have words : I.length = 4 * (I.length / 4 - 1 + 1) := by omega
    have bound := I.bss_start.isLt
    obtain ⟨s', rest, stop, final⟩ := copy_run (i := copy_loop) (n := I.length / 4 - 1) pc (by decide)
      (by cases v <;> exact ⟨_, rfl⟩) (by rw [hr0]; exact linked.load)
      (by rw [hr1]; exact linked.start) (by omega)
      (by rw [hr1, hr2, ← words]; exact (add_offset _ _).symm)
    refine ⟨s', run.trans rest, stop, ?_⟩
    rw [final, hr0, hr1, Image.copied, if_neg same, show I.length / 4 - 1 + 1 = I.length / 4 by omega]

theorem clear_entry (v : Variant) {s : State} (here : s.pc = (v.program I).address clean_bss) :
    ∃ t, Reaches (step (v.program I)) s t ∧ t.mem = s.mem ∧
      (I.bss_start = I.bss_end → t.pc = (v.program I).address on_ddr) ∧
      (I.bss_start ≠ I.bss_end → t.pc = (v.program I).address clean_loop ∧
        t.r 0 = I.bss_start ∧ t.r 1 = I.bss_end ∧ t.r 2 = 0) := by
  cases v with
  | noOs =>
    obtain ⟨t, run, regs, mem, pc⟩ := reaches_branch (Variant.program .noOs I)
      [.ldrLit r0 I.bss_start, .ldrLit r1 I.bss_end, .mov r2 0, .cmp r0 r1]
      here ⟨_, rfl⟩ rfl (show 9 + 4 < 2 ^ 30 by decide)
    refine ⟨t, run, ?_⟩
    rw [regs, mem, pc]
    simp +contextual [runBlock, exec, Cond.holds, State.zero, clean_bss, clean_loop, on_ddr]
  | nvi =>
    obtain ⟨t, run, regs, mem, pc⟩ := reaches_branch (Variant.program .nvi I)
      [.ldrLit r0 I.bss_start, .ldrLit r1 I.bss_end, .cmp r0 r1] here ⟨_, rfl⟩ rfl
      (show 9 + 3 < 2 ^ 30 by decide)
    by_cases same : I.bss_start = I.bss_end
    · refine ⟨t, run, ?_⟩
      rw [mem, pc]
      simp [runBlock, exec, Cond.holds, State.zero, on_ddr, JumpToMMU, same]
    · have thirteen : t.pc = (Variant.program .nvi I).address 13 := by
        rw [pc]
        simp [runBlock, exec, Cond.holds, State.zero, same, clean_bss]
      obtain ⟨load, stop⟩ := reaches_block (Variant.program .nvi I) [.mov r2 0] thirteen
        ⟨_, rfl⟩ rfl (show 13 + 1 ≤ 2 ^ 30 by decide)
      refine ⟨_, run.trans load, ?_, fun h => absurd h same, fun _ => ⟨stop, ?_⟩⟩
      · simp [runBlock, exec, mem]
      · simp [runBlock, exec, regs]

theorem clear_part (v : Variant) (linked : I.Linked) {s : State}
    (here : s.pc = (v.program I).address clean_bss) :
    ∃ s', Reaches (step (v.program I)) s s' ∧ s'.pc = (v.program I).address on_ddr ∧
      s'.mem = overlay s.mem I.bss_start I.bssLength fun _ => 0 := by
  obtain ⟨t, run, mem, skipped, entered⟩ := clear_entry v here
  rw [← mem]
  by_cases same : I.bss_start = I.bss_end
  · refine ⟨t, run, skipped same, ?_⟩
    have empty : I.bssLength = 0 := by simp [Image.bssLength, offset, same]
    rw [empty, overlay_zero]
  · obtain ⟨pc, hr0, hr1, hr2⟩ := entered same
    have length := linked.bssLength_eq
    have low := linked.bss_start
    have high := linked.bss_end
    have order : I.bss_start.toNat ≤ I.bss_end.toNat := linked.ordered
    have apart : I.bss_start.toNat ≠ I.bss_end.toNat := fun h => same (BitVec.eq_of_toNat_eq h)
    have words : I.bssLength = 4 * (I.bssLength / 4 - 1 + 1) := by omega
    have bound := I.bss_end.isLt
    obtain ⟨s', rest, stop, final⟩ := clear_run (i := clean_loop) (n := I.bssLength / 4 - 1) pc
      (by decide) (by cases v <;> exact ⟨_, rfl⟩) (by rw [hr0]; exact low) hr2 (by omega)
      (by rw [hr0, hr1, ← words]; exact (add_offset _ _).symm)
    rw [← words, hr0] at final
    exact ⟨s', run.trans rest, stop, final⟩

theorem relocation_ends (v : Variant) (linked : I.Linked) {s : State}
    (here : s.pc = I.load + I.entry) :
    ∃ s' ∈ eval (step (v.program I)) s, s'.pc = (v.program I).address on_ddr ∧
      s'.mem = I.relocated s.mem := by
  obtain ⟨t, copy, middle, copied⟩ := copy_part v linked here
  obtain ⟨s', clear, stop, cleared⟩ := clear_part v linked middle
  refine ⟨s', mem_eval.mpr ⟨copy.trans clear, ?_⟩, stop, ?_⟩
  · rw [step, stop, fetch_address _ (by decide)]
    cases v <;> rfl
  · rw [cleared, copied]
    rfl

theorem relocated_outside (linked : I.Linked) (m : Bytes) {a : Word}
    (outside : a < I.start ∨ I.bss_end ≤ a) : I.relocated m a = m a := by
  have length := linked.length_eq
  have bssLength := linked.bssLength_eq
  have first : I.start.toNat < I.bss_start.toNat := linked.nonempty
  have second : I.bss_start.toNat ≤ I.bss_end.toNat := linked.ordered
  have bound := I.bss_end.isLt
  rw [BitVec.lt_def, BitVec.le_def] at outside
  have far : ∀ b n, I.start.toNat ≤ b.toNat → b.toNat + n ≤ I.bss_end.toNat → n ≤ offset b a := by
    intro b n low high
    have inside := @offset_lt_iff b a n (by omega)
    omega
  rw [Image.relocated, overlay_outside _ _ (far _ _ (by omega) (by omega)), Image.copied]
  split
  · rfl
  · exact copyWords_outside m _ _ (by omega) (Nat.le_trans (Nat.mul_div_le _ _)
      (far _ _ (Nat.le_refl _) (by omega)))

/-- What the relocation is for. For an image that is already in place, the first
field says that it is left alone. -/
structure Image.Relocated (I : Image) (before after : Bytes) : Prop where
  image : ∀ i < I.length, after (I.start + BitVec.ofNat 32 i) = before (I.load + BitVec.ofNat 32 i)
  bss : ∀ i < I.bssLength, after (I.bss_start + BitVec.ofNat 32 i) = 0
  rest : ∀ a, a < I.start ∨ I.bss_end ≤ a → after a = before a

def Image.StartsInside (I : Image) : Prop :=
  I.load < I.start ∧ I.start.toNat < I.load.toNat + I.length

theorem forward_of_apart (linked : I.Linked)
    (safe : I.load = I.start ∨ ¬ I.StartsInside ∧ I.load.toNat + I.length ≤ 2 ^ 32) :
    offset I.start I.load + I.length ≤ 2 ^ 32 := by
  have length := linked.length_eq
  have bound := I.bss_start.isLt
  rcases safe with same | ⟨apart, fits⟩
  · rw [offset_toNat (by rw [same])]
    rw [same]
    omega
  rcases Nat.lt_or_ge I.load.toNat I.start.toNat with below | above
  · have inside : ¬ I.start.toNat < I.load.toNat + I.length := fun h => apart ⟨below, h⟩
    rw [offset_toNat_wrap below]
    omega
  · rw [offset_toNat above]
    omega

theorem relocated_image (linked : I.Linked) (m : Bytes)
    (forward : offset I.start I.load + I.length ≤ 2 ^ 32) {i : Nat} (inside : i < I.length) :
    I.relocated m (I.start + BitVec.ofNat 32 i) = m (I.load + BitVec.ofNat 32 i) := by
  have length := linked.length_eq
  have bssLength := linked.bssLength_eq
  have high := linked.bss_start
  have low := linked.start
  have order : I.bss_start.toNat ≤ I.bss_end.toNat := linked.ordered
  have bound := I.bss_end.isLt
  have place : (I.start + BitVec.ofNat 32 i).toNat = I.start.toNat + i := by
    rw [BitVec.toNat_add, BitVec.toNat_ofNat]
    omega
  have beyond : I.bssLength ≤ offset I.bss_start (I.start + BitVec.ofNat 32 i) := by
    rw [offset_toNat_wrap (by omega)]
    omega
  rw [Image.relocated, overlay_outside _ _ beyond, Image.copied]
  split
  · rename_i same
    rw [same]
  · have words : 4 * (I.length / 4) = I.length := by omega
    rw [copyWords_forward m _ _ (by rw [words]; exact forward), words,
      overlay_at _ _ _ inside (by omega)]

end Run

/-- The relocation code ends for every load address and memory, and an image that is
in place, or whose destination does not start inside its source, is then where it was
linked with its BSS cleared and nothing else changed. The code that runs and its literals are
those of the program, not taken from the memory: the copy and the clearing are not to
overwrite them. -/
theorem relocation_correct (v : Variant) (I : Image) (s : State) (linked : I.Linked)
    (here : s.pc = I.load + I.entry) :
    ∃ s' ∈ eval (step (v.program I)) s, s'.pc = (v.program I).address on_ddr ∧
      ((I.load = I.start ∨ (¬ I.StartsInside ∧ I.load.toNat + I.length ≤ 2 ^ 32)) →
        I.Relocated s.mem s'.mem) := by
  obtain ⟨s', ends, stop, final⟩ := relocation_ends v linked here
  refine ⟨s', ends, stop, fun safe => ?_⟩
  rw [final]
  refine ⟨fun i inside => relocated_image linked s.mem (forward_of_apart linked safe) inside, ?_, ?_⟩
  · intro i inside
    have bound := offset_lt I.bss_start I.bss_end
    exact overlay_at _ _ _ inside (Nat.lt_trans inside bound)
  · exact fun a outside => relocated_outside linked s.mem outside

def steppingStone : Image where
  load := 0x0c000000
  entry := 0x58
  start := 0x50000000
  bss_start := 0x50001000
  bss_end := 0x50001010

theorem steppingStone_linked : steppingStone.Linked :=
  ⟨by decide, by decide, by decide, by decide, by decide, by decide⟩

def bootState : State where
  r := fun _ => 0
  sp := fun _ => 0
  lr := fun _ => 0
  spsr := fun _ => 0
  cpsr := 0xd3
  pc := 0x0c000058
  mem := fun a => a.setWidth 8

theorem relocation_correct_stepping_stone :
    ∃ s' ∈ eval (step (Variant.program .noOs steppingStone)) bootState,
      s'.mem 0x50000123 = 0x23 ∧ s'.mem 0x5000100f = 0 := by
  obtain ⟨s', ends, -, moved⟩ :=
    relocation_correct .noOs steppingStone bootState steppingStone_linked rfl
  have relocated := moved (.inr ⟨fun inside => absurd inside.2 (by decide), by decide⟩)
  exact ⟨s', ends, relocated.image 0x123 (by decide), relocated.bss 15 (by decide)⟩

end Tiny6410.Boot
