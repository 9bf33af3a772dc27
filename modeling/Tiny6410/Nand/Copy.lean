import Tiny6410.Nand.Pages

/-! copy2addr against its purpose, a byte copy out of the main area. The three
parts of the copy (head, whole pages, tail) all start at the same destination, and
nand_read_in_page opens no read, so only a copy without head and tail is right. -/
namespace Tiny6410.Nand

open Memory

/-- What copy2addr is for: the destination holds the flash bytes, the rest is untouched. -/
def Copied (c : Chip) (srcAddr aim size : Word) (before after : Bytes) : Prop :=
  (∀ i < size.toNat, after (aim + BitVec.ofNat 32 i) = c.mainByte (srcAddr.toNat + i)) ∧
    ∀ a, size.toNat ≤ offset aim a → after a = before a

/-- No command sequence is open: the next address cycle is not expected. -/
def Phase.closed : Phase → Bool
  | .idle | .output _ _ => true
  | _ => false

/-- In a closed phase the five cycles and 30h are all out of sequence. -/
theorem openless_read (p : Part) (a : Word) (s : State) (sel : s.selected = true)
    (quiet : s.chip.busy = 0) (closed : s.chip.phase.closed = true) :
    setNFCMD p NAND_CMD_READ_START (nand_write_address a s) =
      { s with
        chip := { s.chip with phase := .idle }
        cycles := s.cycles ++ (addressCycles a).map .address ++ [.command 0x30] } := by
  rw [State.selected] at sel
  cases phase : s.chip.phase <;> simp only [phase, Phase.closed, Bool.false_eq_true] at closed
  all_goals
    simp [nand_write_address, setNFADDR, setNFCMD, State.selected, sel, Chip.address, Chip.command,
      quiet, phase, addressCycles, NAND_CMD_READ_START]

theorem nand_read_in_page_eq (p : Part) (buffer srcAddr size : Word) (s : State) (ready : Ready s)
    (closed : s.chip.phase.closed = true)
    (inside : srcAddr &&& ~~~NAND_PAGE_MASK = (srcAddr + size - 1) &&& ~~~NAND_PAGE_MASK) :
    nand_read_in_page p buffer srcAddr size s =
      NAND_DISABLE_CE { NAND_ENABLE_CE s with
        chip := { s.chip with phase := .idle }
        mem := overlay s.mem buffer size.toInt.toNat (fun _ => p.undriven)
        cycles := s.cycles ++ (addressCycles srcAddr).map .address ++ [.command 0x30, .ready] ++
          List.replicate size.toInt.toNat (.read p.undriven) } := by
  have small : size.toInt.toNat ≤ 2 ^ 32 := by
    have bound := BitVec.toInt_lt (x := size)
    omega
  rw [nand_read_in_page, if_neg (by simpa using inside)]
  simp only
  rw [openless_read p srcAddr _ ready.selected ready.quiet closed,
    nand_wait_idle_eq _ (by exact ready.selected),
    readBytes_idle p _ _ _ (by exact ready.selected) rfl small]
  simp [NAND_ENABLE_CE, ready.quiet]

structure Keeps (s s' : State) : Prop where
  ready : Ready s'
  closed : s'.chip.phase.closed = true
  cells : s'.chip.cells = s.chip.cells

theorem nand_read_in_page_keeps (p : Part) (buffer srcAddr size : Word) (s : State) (ready : Ready s)
    (closed : s.chip.phase.closed = true) :
    Keeps s (nand_read_in_page p buffer srcAddr size s) ∧
      ∀ x, (nand_read_in_page p buffer srcAddr size s).mem x = s.mem x ∨
        (nand_read_in_page p buffer srcAddr size s).mem x = p.undriven := by
  by_cases inside : srcAddr &&& ~~~NAND_PAGE_MASK = (srcAddr + size - 1) &&& ~~~NAND_PAGE_MASK
  · rw [nand_read_in_page_eq p buffer srcAddr size s ready closed inside]
    refine ⟨⟨⟨?_, ready.quiet⟩, rfl, rfl⟩, ?_⟩
    · rw [disable_enabled]
      exact (enable_enabled s).trans ready.enabled
    · intro x
      simp only [NAND_DISABLE_CE, overlay]
      split
      · exact .inr rfl
      · exact .inl rfl
  · rw [nand_read_in_page, if_pos inside]
    exact ⟨⟨ready, closed, rfl⟩, fun _ => .inl rfl⟩

theorem nand_read_page_keeps (p : Part) {start_addr size : Word} (buf : Word) (s : State)
    (ready : Ready s) (closed : s.chip.phase.closed = true)
    (start_aligned : start_addr.toNat % NAND_PAGE_SIZE = 0)
    (size_aligned : size.toNat % NAND_PAGE_SIZE = 0)
    (fits : start_addr.toNat + size.toNat < 2 ^ 32) :
    ∃ s', nand_read_page p buf start_addr size s = some s' ∧ Keeps s s' ∧
      ∀ x, size.toNat ≤ offset buf x → s'.mem x = s.mem x := by
  obtain ⟨l, hl, run⟩ := nand_read_page_eq p buf s ready start_aligned size_aligned fits
  have whole : NAND_PAGE_SIZE * (size.toNat / NAND_PAGE_SIZE) = size.toNat :=
    Nat.mul_div_cancel' (Nat.dvd_of_mod_eq_zero size_aligned)
  refine ⟨_, run, ⟨⟨?_, ?_⟩, ?_, ?_⟩, ?_⟩
  · rw [disable_enabled, hl.nfcont, enable_enabled, ready.enabled]
  · change l.state.chip.busy = 0
    rw [hl.chip]
    exact ready.quiet
  · change l.state.chip.phase.closed = true
    rcases hl.phase with same | ⟨row, out⟩
    · rw [same]
      exact closed
    · rw [out]
      rfl
  · change l.state.chip.cells = _
    rw [hl.chip]
    rfl
  · intro x far
    change l.state.mem x = _
    rw [hl.mem, overlay_outside _ _ (by rw [whole]; exact far)]
    rfl

theorem toNat_whole_pages {size : Word} (low : -2048 < size.toInt) :
    (size.sdiv (BitVec.ofNat 32 NAND_PAGE_SIZE) * BitVec.ofNat 32 NAND_PAGE_SIZE).toNat =
      size.toInt.toNat / NAND_PAGE_SIZE * NAND_PAGE_SIZE := by
  have high := BitVec.toInt_lt (x := size)
  have page : (BitVec.ofNat 32 NAND_PAGE_SIZE).toInt = 2048 := by decide
  have quotient : size.toInt.tdiv 2048 = (size.toInt.toNat / 2048 : Nat) := by
    rcases Int.lt_or_le size.toInt 0 with negative | positive
    · rw [show size.toInt.toNat = 0 by omega]
      have small : (-size.toInt).tdiv 2048 = 0 := Int.tdiv_eq_zero_of_lt (by omega) (by omega)
      rw [Int.neg_tdiv] at small
      omega
    · obtain ⟨n, hn⟩ := Int.eq_ofNat_of_zero_le positive
      rw [hn]
      rfl
  have div : (size.sdiv (BitVec.ofNat 32 NAND_PAGE_SIZE)).toInt = (size.toInt.toNat / 2048 : Nat) := by
    rw [BitVec.toInt_sdiv, page, quotient]
    apply Int.bmod_eq_of_le <;> omega
  have nat : (size.sdiv (BitVec.ofNat 32 NAND_PAGE_SIZE)).toNat = size.toInt.toNat / 2048 := by
    rw [BitVec.toInt_eq_toNat_cond] at div
    split at div <;> omega
  rw [BitVec.toNat_mul, nat]
  simp only [NAND_PAGE_SIZE, BitVec.toNat_ofNat]
  omega

def headLength (srcAddr : Word) : Word := BitVec.ofNat 32 NAND_PAGE_SIZE - (srcAddr &&& NAND_PAGE_MASK)

theorem toNat_headLength (srcAddr : Word) :
    (headLength srcAddr).toNat = NAND_PAGE_SIZE - srcAddr.toNat % NAND_PAGE_SIZE := by
  have page : (BitVec.ofNat 32 NAND_PAGE_SIZE).toNat = 2048 := by decide
  have mask := toNat_mask srcAddr
  rw [headLength, BitVec.toNat_sub, page, mask]
  unfold NAND_PAGE_SIZE
  omega

theorem head_inside (srcAddr : Word) :
    srcAddr &&& ~~~NAND_PAGE_MASK = (srcAddr + headLength srcAddr - 1) &&& ~~~NAND_PAGE_MASK := by
  have length := toNat_headLength srcAddr
  have bound := srcAddr.isLt
  have last : (srcAddr + headLength srcAddr - 1).toNat =
      srcAddr.toNat + (NAND_PAGE_SIZE - srcAddr.toNat % NAND_PAGE_SIZE) - 1 := by
    rw [BitVec.toNat_sub, BitVec.toNat_add, length]
    simp only [NAND_PAGE_SIZE, BitVec.ofNat_eq_ofNat, BitVec.toNat_ofNat]
    omega
  apply BitVec.eq_of_toNat_eq
  rw [and_not_mask, and_not_mask, BitVec.toNat_sub, BitVec.toNat_sub, toNat_mask, toNat_mask, last]
  unfold NAND_PAGE_SIZE
  omega

/-- Beyond the whole pages, copyPages leaves a byte alone or stores the undriven bus. -/
theorem copyPages_keeps (p : Part) {srcAddr size : Word} (aim : Word) (s : State) (ready : Ready s)
    (closed : s.chip.phase.closed = true) (aligned : srcAddr.toNat % NAND_PAGE_SIZE = 0)
    (low : -2048 < size.toInt) (fits : srcAddr.toNat + size.toInt.toNat ≤ 2 ^ 30) :
    ∃ s', copyPages p srcAddr aim size s = some s' ∧
      ∀ x, size.toInt.toNat / NAND_PAGE_SIZE * NAND_PAGE_SIZE ≤ offset aim x →
        s'.mem x = s.mem x ∨ s'.mem x = p.undriven := by
  have pages := toNat_whole_pages low
  have below : size.toInt.toNat / NAND_PAGE_SIZE * NAND_PAGE_SIZE ≤ size.toInt.toNat :=
    Nat.div_mul_le_self _ _
  by_cases tail : size &&& NAND_PAGE_MASK = 0
  · have whole : size.toNat = size.toInt.toNat / NAND_PAGE_SIZE * NAND_PAGE_SIZE := by
      rw [mask_eq_zero_iff] at tail
      rw [BitVec.toInt_eq_toNat_cond] at low ⊢
      unfold NAND_PAGE_SIZE at *
      split at low <;> split <;> omega
    obtain ⟨s', run, -, far⟩ := nand_read_page_keeps p aim s ready closed aligned
      ((mask_eq_zero_iff size).mp tail) (by omega)
    refine ⟨s', ?_, fun x hx => .inl (far x (by rw [whole]; exact hx))⟩
    rw [copyPages, if_neg (not_not_intro tail), run]
  · obtain ⟨m, run, keeps, far⟩ := nand_read_page_keeps p aim s ready closed aligned
      (by rw [pages, Nat.mul_mod_left]) (by omega)
    have last := (nand_read_in_page_keeps p aim srcAddr (size - size.sdiv (BitVec.ofNat 32 NAND_PAGE_SIZE) *
      BitVec.ofNat 32 NAND_PAGE_SIZE) m keeps.ready keeps.closed).2
    refine ⟨_, by simp only [copyPages, if_pos tail, run, Option.map_some]; rfl, ?_⟩
    intro x hx
    rw [← far x (by rw [pages]; exact hx)]
    exact last x

def onePart : Part where
  latency := fun _ => 0
  status := fun _ => 0xc0
  residue := fun _ _ => 0
  ident := fun _ => 0xec
  undriven := 1

def zeroState : State where
  nfconf := 0x2f70
  nfcont := 0x3
  chip := { cells := fun _ _ => 0, phase := .idle, busy := 0, operations := 0, programs := 0 }
  mem := fun _ => 2
  uart := []
  cycles := []

theorem zeroState_ready : Ready zeroState := ⟨by decide, rfl⟩

/-- Neither the old memory nor the undriven bus has the zeros of the flash, so a copy
that is only right for whole pages has a wrong last byte. -/
theorem last_byte_wrong {srcAddr aim size : Word} {pages : Nat} {before after : Bytes}
    (short : pages < size.toNat) (foreign : ∀ x, before x = 1 ∨ before x = 2)
    (far : ∀ x, pages ≤ offset aim x → after x = before x ∨ after x = onePart.undriven) :
    ¬ Copied zeroState.chip srcAddr aim size zeroState.mem after := by
  rintro ⟨copied, -⟩
  have place : offset aim (aim + BitVec.ofNat 32 (size.toNat - 1)) = size.toNat - 1 :=
    offset_add aim (by omega)
  have zero : after (aim + BitVec.ofNat 32 (size.toNat - 1)) = 0 := copied (size.toNat - 1) (by omega)
  rcases far (aim + BitVec.ofNat 32 (size.toNat - 1)) (by omega) with same | bus
  · rw [zero] at same
    rcases foreign (aim + BitVec.ofNat 32 (size.toNat - 1)) with one | two
    · exact absurd (same.trans one) (by decide)
    · exact absurd (same.trans two) (by decide)
  · exact absurd (zero.symm.trans bus) (by decide)

/-- The head is read without 00h, so what it stores is the undriven bus. -/
theorem head_mem (srcAddr aim : Word) :
    (nand_read_in_page onePart aim srcAddr (headLength srcAddr) zeroState).mem =
      overlay zeroState.mem aim (NAND_PAGE_SIZE - srcAddr.toNat % NAND_PAGE_SIZE) fun _ => 1 := by
  have length : (headLength srcAddr).toInt.toNat =
      NAND_PAGE_SIZE - srcAddr.toNat % NAND_PAGE_SIZE := by
    rw [BitVec.toInt_eq_toNat_cond, toNat_headLength]
    unfold NAND_PAGE_SIZE
    split <;> omega
  rw [nand_read_in_page_eq onePart aim srcAddr _ zeroState zeroState_ready rfl (head_inside srcAddr),
    length]
  rfl

/-- The whole pages after a head start at the destination of the head. -/
theorem copy2addr_head_far {srcAddr aim size : Word}
    (range : srcAddr.toNat + size.toNat ≤ 2 ^ 30) (head : srcAddr.toNat % NAND_PAGE_SIZE ≠ 0)
    {s' : State} (run : copy2addr onePart srcAddr aim size zeroState = some s') {x : Word}
    (far : (size.toNat - (NAND_PAGE_SIZE - srcAddr.toNat % NAND_PAGE_SIZE)) / NAND_PAGE_SIZE *
      NAND_PAGE_SIZE ≤ offset aim x) :
    s'.mem x = overlay zeroState.mem aim (NAND_PAGE_SIZE - srcAddr.toNat % NAND_PAGE_SIZE)
      (fun _ => 1) x ∨ s'.mem x = onePart.undriven := by
  have length := toNat_headLength srcAddr
  have keeps := (nand_read_in_page_keeps onePart aim srcAddr (headLength srcAddr) zeroState
    zeroState_ready rfl).1
  have next : (srcAddr + headLength srcAddr).toNat =
      srcAddr.toNat + (NAND_PAGE_SIZE - srcAddr.toNat % NAND_PAGE_SIZE) := by
    rw [BitVec.toNat_add, length]
    unfold NAND_PAGE_SIZE
    omega
  have rest : (size - headLength srcAddr).toInt =
      size.toNat - (NAND_PAGE_SIZE - srcAddr.toNat % NAND_PAGE_SIZE : Nat) := by
    rw [BitVec.toInt_eq_toNat_cond, BitVec.toNat_sub, length]
    unfold NAND_PAGE_SIZE
    split <;> omega
  have positive : (size - headLength srcAddr).toInt.toNat =
      size.toNat - (NAND_PAGE_SIZE - srcAddr.toNat % NAND_PAGE_SIZE) := by omega
  obtain ⟨t, pages, kept⟩ := @copyPages_keeps onePart (srcAddr + headLength srcAddr)
    (size - headLength srcAddr) aim _ keeps.ready keeps.closed
    (by unfold NAND_PAGE_SIZE at *; omega) (by unfold NAND_PAGE_SIZE at *; omega)
    (by unfold NAND_PAGE_SIZE at *; omega)
  rw [copy2addr, if_pos (by rwa [ne_eq, mask_eq_zero_iff])] at run
  have same : t = s' := Option.some.inj (pages.symm.trans run)
  rw [← same, ← head_mem srcAddr aim]
  rw [positive] at kept
  exact kept x far

theorem copy2addr_head_wrong {srcAddr aim size : Word}
    (range : srcAddr.toNat + size.toNat ≤ 2 ^ 30) (head : srcAddr.toNat % NAND_PAGE_SIZE ≠ 0)
    (s' : State) (run : copy2addr onePart srcAddr aim size zeroState = some s') :
    ¬ Copied zeroState.chip srcAddr aim size zeroState.mem s'.mem := by
  rcases Nat.eq_zero_or_pos size.toNat with none | some
  · -- Nothing was asked for, and yet the head has been stored.
    intro copied
    have here : offset aim aim = 0 := by simp [offset]
    have kept : s'.mem aim = 2 := copied.2 aim (by omega)
    have stored := copy2addr_head_far range head run (x := aim) (by
      unfold NAND_PAGE_SIZE at *
      omega)
    rw [overlay_inside _ _ (by unfold NAND_PAGE_SIZE at *; omega), kept] at stored
    exact absurd stored (by decide)
  · refine last_byte_wrong ?_ (fun x => ?_) fun x => copy2addr_head_far range head run
    · unfold NAND_PAGE_SIZE at *
      omega
    · unfold overlay
      split
      · exact .inl rfl
      · exact .inr rfl

theorem copy2addr_tail_wrong {srcAddr aim size : Word}
    (range : srcAddr.toNat + size.toNat ≤ 2 ^ 30) (aligned : srcAddr.toNat % NAND_PAGE_SIZE = 0)
    (tail : size.toNat % NAND_PAGE_SIZE ≠ 0)
    (s' : State) (run : copy2addr onePart srcAddr aim size zeroState = some s') :
    ¬ Copied zeroState.chip srcAddr aim size zeroState.mem s'.mem := by
  have signed : size.toInt = size.toNat := by
    rw [BitVec.toInt_eq_toNat_cond]
    split <;> omega
  obtain ⟨t, pages, far⟩ := @copyPages_keeps onePart srcAddr size aim zeroState zeroState_ready rfl
    aligned (by omega) (by omega)
  rw [copy2addr, if_neg (not_not_intro ((mask_eq_zero_iff srcAddr).mpr aligned))] at run
  obtain rfl : t = s' := Option.some.inj (pages.symm.trans run)
  refine last_byte_wrong ?_ (fun _ => .inr rfl) far
  unfold NAND_PAGE_SIZE at *
  omega

theorem copy2addr_whole_pages (p : Part) {srcAddr size : Word} (aim : Word) (s : State)
    (ready : Ready s) (range : srcAddr.toNat + size.toNat ≤ 2 ^ 30)
    (source : srcAddr.toNat % NAND_PAGE_SIZE = 0) (whole : size.toNat % NAND_PAGE_SIZE = 0) :
    ∃ s', copy2addr p srcAddr aim size s = some s' ∧
      Copied s.chip srcAddr aim size s.mem s'.mem := by
  obtain ⟨l, read, run⟩ := nand_read_page_eq p aim s ready source whole (by omega)
  have pages : NAND_PAGE_SIZE * (size.toNat / NAND_PAGE_SIZE) = size.toNat :=
    Nat.mul_div_cancel' (Nat.dvd_of_mod_eq_zero whole)
  have mem : (NAND_DISABLE_CE l.state).mem =
      overlay s.mem aim size.toNat fun i => s.chip.byteAt (srcAddr.toNat + i) := by
    rw [← pages]
    exact read.mem
  refine ⟨NAND_DISABLE_CE l.state, ?_, ?_, ?_⟩
  · rw [copy2addr, if_neg (not_not_intro ((mask_eq_zero_iff srcAddr).mpr source)), copyPages,
      if_neg (not_not_intro ((mask_eq_zero_iff size).mpr whole)), run]
  · intro i hi
    rw [mem, overlay_at _ _ _ hi (by omega), byteAt_eq_mainByte _ (by omega)]
  · intro a far
    rw [mem, overlay_outside _ _ far]

/-- copy2addr copies whole pages and nothing else: it meets its purpose for every
content of flash and memory exactly when neither a head nor a tail has to be read. -/
theorem copy2addr_copied_iff (srcAddr aim size : Word)
    (range : srcAddr.toNat + size.toNat ≤ 2 ^ 30) :
    (∀ p s, Ready s → ∃ s', copy2addr p srcAddr aim size s = some s' ∧
      Copied s.chip srcAddr aim size s.mem s'.mem) ↔
    srcAddr.toNat % NAND_PAGE_SIZE = 0 ∧ size.toNat % NAND_PAGE_SIZE = 0 := by
  constructor
  · intro correct
    obtain ⟨s', run, copied⟩ := correct onePart zeroState zeroState_ready
    by_contra broken
    by_cases source : srcAddr.toNat % NAND_PAGE_SIZE = 0
    · exact copy2addr_tail_wrong range source (fun whole => broken ⟨source, whole⟩) s' run copied
    · exact copy2addr_head_wrong range source s' run copied
  · rintro ⟨source, whole⟩ p s ready
    exact copy2addr_whole_pages p aim s ready range source whole

theorem copy2addr_copied_iff_boot_image :
    ∃ s', copy2addr onePart 0 0x50000000 0x10000 zeroState = some s' ∧
      Copied zeroState.chip 0 0x50000000 0x10000 zeroState.mem s'.mem :=
  (copy2addr_copied_iff 0 0x50000000 0x10000 (by decide)).mpr ⟨by decide, by decide⟩
    onePart zeroState zeroState_ready

theorem copy2addr_page_and_byte_wrong :
    ¬ ∀ p s, Ready s → ∃ s', copy2addr p 0 0x50000000 2049 s = some s' ∧
      Copied s.chip 0 0x50000000 2049 s.mem s'.mem := by
  intro correct
  obtain ⟨s', run, copied⟩ := correct onePart zeroState zeroState_ready
  exact copy2addr_tail_wrong (by decide) (by decide) (by decide) s' run copied

end Tiny6410.Nand
