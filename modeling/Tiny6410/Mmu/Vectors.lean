import Tiny6410.Boot.Relocate
import Tiny6410.Mmu.PageTable

/-! no-os/interrupt/cpsr: after the relocation, mmu_init maps the first megabyte of
virtual addresses to where the image was linked, so that the exception vectors are
fetched from the copied image. -/
namespace Tiny6410.Mmu

open Memory Arm StateTransition Boot

def readByte (m : Bytes) (va : Word) : Option Byte := (translate m va).map fun t => m t.1

def readWord (m : Bytes) (va : Word) : Option Word := (translate m va).map fun t => word m t.1

/-- What `ldr pc, [pc, #literal]` at a vector loads. -/
def vectorTarget (read : Word → Option Word) (vector : Word) : Option Word :=
  (read vector).bind fun instr => read (vector + 8 + (instr &&& 0xfff))

/-- The memory after create_page_table still holds the image at its link address. -/
theorem image_kept {m : Bytes} {s : State} (confined : Confined m s) {i : Nat} (below : i < 0x1000000) :
    s.mem (0x50000000 + BitVec.ofNat 32 i) = m (0x50000000 + BitVec.ofNat 32 i) := by
  apply confined.outside
  rw [BitVec.toNat_add, BitVec.toNat_ofNat]
  have base : BitVec.toNat (0x50000000 : Word) = 0x50000000 := rfl
  omega

theorem cpsr_alias {m : Bytes} {s : State} (written : Written (declared Program.cpsr.regions) ⟨m, []⟩ s) {i : Nat}
    (inside : i < 0x100000) :
    translate s.mem (BitVec.ofNat 32 i) = some (0x50000000 + BitVec.ofNat 32 i, .nonCached) ∧
      translate s.mem (0x50000000 + BitVec.ofNat 32 i) = some (0x50000000 + BitVec.ofNat 32 i, .nonCached) := by
  have base : BitVec.toNat (0x50000000 : Word) = 0x50000000 := rfl
  constructor
  · apply written.translate (cpsr_mapping_vectors _)
    rw [BitVec.toNat_ofNat]
    omega
  · apply written.translate (cpsr_mapping_nonCached (.inl _))
    rw [BitVec.toNat_add, BitVec.toNat_ofNat]
    omega

/-- The image as it is read through the new table, at its link address and at zero. -/
structure Aliased (I : Image) (before after : Bytes) : Prop where
  bytes : ∀ off < I.length, off < 0x100000 →
    readByte after (BitVec.ofNat 32 off) = some (before (I.load + BitVec.ofNat 32 off)) ∧
      readByte after (0x50000000 + BitVec.ofNat 32 off) = some (before (I.load + BitVec.ofNat 32 off))
  words : ∀ off < I.length, off < 0x100000 → off % 4 = 0 →
    readWord after (BitVec.ofNat 32 off) = some (word before (I.load + BitVec.ofNat 32 off)) ∧
      readWord after (0x50000000 + BitVec.ofNat 32 off) = some (word before (I.load + BitVec.ofNat 32 off))

theorem aliased {I : Image} (linked : I.Linked) (start : I.start = 0x50000000) (size : I.length ≤ 0x1000000)
    (m : Bytes) (forward : offset I.start I.load + I.length ≤ 2 ^ 32) {s : State}
    (written : Written (declared Program.cpsr.regions) ⟨I.relocated m, []⟩ s) : Aliased I m s.mem := by
  have held : ∀ i < I.length,
      s.mem (0x50000000 + BitVec.ofNat 32 i) = m (I.load + BitVec.ofNat 32 i) := by
    intro i inside
    rw [image_kept written.confined (by omega), ← relocated_image linked m forward inside, start]
  constructor
  · intro off inside first
    obtain ⟨low, high⟩ := cpsr_alias written first
    simp only [readByte, low, high, Option.map_some, held off inside, and_self]
  · intro off inside first aligned
    obtain ⟨low, high⟩ := cpsr_alias written first
    have length := linked.length_eq
    have bss := linked.bss_start
    have text := linked.start
    have same : word s.mem (0x50000000 + BitVec.ofNat 32 off) = word m (I.load + BitVec.ofNat 32 off) := by
      apply word_of_bytes
      intro i hi
      rw [wordByte_word m _ hi, BitVec.add_assoc, BitVec.add_assoc, ← BitVec.ofNat_add, held _ (by omega)]
    simp only [readWord, low, high, Option.map_some, same, and_self]

/-- The vectors load what they load in the linked image. -/
theorem Aliased.vectors {I : Image} {before after : Bytes} (h : Aliased I before after) {v literal : Nat}
    (vector : v = 4 ∨ v = 8)
    (place : literal = v + 8 + (word before (I.load + BitVec.ofNat 32 v) &&& 0xfff).toNat)
    (inside : literal < I.length) (aligned : literal % 4 = 0) :
    vectorTarget (readWord after) (BitVec.ofNat 32 v) = some (word before (I.load + BitVec.ofNat 32 literal)) ∧
      vectorTarget (readWord after) (0x50000000 + BitVec.ofNat 32 v) =
        some (word before (I.load + BitVec.ofNat 32 literal)) := by
  have short : (word before (I.load + BitVec.ofNat 32 v) &&& 0xfff).toNat ≤ 0xfff := by
    rw [BitVec.toNat_and]
    exact Nat.and_le_right
  have address : BitVec.ofNat 32 v + 8 + (word before (I.load + BitVec.ofNat 32 v) &&& 0xfff) =
      BitVec.ofNat 32 literal := by
    rw [place, BitVec.ofNat_add, BitVec.ofNat_add, BitVec.ofNat_toNat, BitVec.setWidth_eq]
    rfl
  obtain ⟨first, linked⟩ := h.words v (by omega) (by omega) (by omega)
  obtain ⟨target, same⟩ := h.words literal inside (by omega) aligned
  constructor
  · rw [vectorTarget, first, Option.bind_some, address, target]
  · rw [vectorTarget, linked, Option.bind_some, BitVec.add_assoc, BitVec.add_assoc, ← BitVec.add_assoc _ 8,
      address, same]

/-- For an image that is loaded clear of its destination, whatever memory held before. As in
relocation_correct, the copy and the clearing do not overwrite the code that runs. -/
theorem cpsr_vectors_alias (I : Image) (s : Arm.State) (linked : I.Linked) (start : I.start = 0x50000000)
    (size : I.length ≤ 0x1000000) (here : s.pc = I.load + I.entry)
    (clear : I.length ≤ offset I.start I.load ∧ I.length ≤ offset I.load I.start) :
    ∃ s' ∈ eval (step (Variant.program .noOs I)) s, s'.pc = (Variant.program .noOs I).address on_ddr ∧
      ∃ t, create_page_table Program.cpsr.regions s'.mem = some t ∧ Aliased I s.mem t.mem ∧
        ∀ v literal : Nat, v = 4 ∨ v = 8 →
          literal = v + 8 + (word s.mem (I.load + BitVec.ofNat 32 v) &&& 0xfff).toNat →
          literal < I.length → literal % 4 = 0 →
          vectorTarget (readWord t.mem) (BitVec.ofNat 32 v) =
            some (word s.mem (I.load + BitVec.ofNat 32 literal)) ∧
          vectorTarget (readWord t.mem) (0x50000000 + BitVec.ofNat 32 v) =
            some (word s.mem (I.load + BitVec.ofNat 32 literal)) := by
  obtain ⟨s', ends, stop, final⟩ := relocation_ends .noOs linked here
  obtain ⟨t, table, written⟩ := create_page_table_written .cpsr s'.mem
  rw [final] at written
  have forward : offset I.start I.load + I.length ≤ 2 ^ 32 := by
    have turn := offset_turn I.start I.load
    have above := clear.2
    omega
  have image := aliased linked start size s.mem forward written
  exact ⟨s', ends, stop, t, table, image, fun v literal vector place inside aligned =>
    image.vectors vector place inside aligned⟩

theorem cpsr_vectors_alias_stepping_stone :
    ∃ s' ∈ eval (step (Variant.program .noOs steppingStone)) bootState,
      ∃ t, create_page_table Program.cpsr.regions s'.mem = some t ∧
        readWord t.mem 0x124 = some 0x27262524 ∧ readWord t.mem 0x50000124 = some 0x27262524 := by
  obtain ⟨s', ends, -, t, table, image, -⟩ := cpsr_vectors_alias steppingStone bootState steppingStone_linked rfl
    (by decide) rfl (by decide)
  obtain ⟨low, high⟩ := image.words 0x124 (by decide) (by decide) rfl
  exact ⟨s', ends, t, table, low, high⟩

/-- Loaded one page below its destination, with two pages to copy. -/
def pageBelow : Image where
  load := 0x4ffff000
  entry := 48
  start := 0x50000000
  bss_start := 0x50002000
  bss_end := 0x50002000

theorem pageBelow_linked : pageBelow.Linked :=
  ⟨by decide, by decide, by decide, by decide, by decide, by decide⟩

def pageBelowState : Arm.State where
  r := fun _ => 0
  sp := fun _ => 0
  lr := fun _ => 0
  spsr := fun _ => 0
  cpsr := 0xd3
  pc := 0x4ffff030
  mem := fun a => (a >>> 16).setWidth 8

/-- The first page is copied over the second before the second is read. -/
theorem pageBelow_copied {i : Nat} (inside : i < 4) :
    pageBelow.relocated pageBelowState.mem (0x50001000 + BitVec.ofNat 32 i) = 0xff := by
  have place : offset 0x50001000 (0x50001000 + BitVec.ofNat 32 i) = i := offset_add _ (by omega)
  have later : 4 * 0x3ff ≤ offset (0x50001000 + 4) (0x50001000 + BitVec.ofNat 32 i) := by
    have turn : 4 ≤ 2 ^ 32 := by decide
    have shift := offset_shift 0x50001000 (0x50001000 + BitVec.ofNat 32 i) turn
    rw [place, if_neg (by omega)] at shift
    exact Nat.le_trans (by omega) (Nat.le_of_eq shift.symm)
  have moved : pageBelow.load ≠ pageBelow.start := by decide
  have words : pageBelow.length / 4 = 0x400 + (0x3ff + 1) := by decide
  have bss : pageBelow.bssLength = 0 := by decide
  have source : pageBelow.load + BitVec.ofNat 32 (4 * 0x400) = 0x50000000 := by decide
  have target : pageBelow.start + BitVec.ofNat 32 (4 * 0x400) = 0x50001000 := by decide
  have first := copyWords_forward pageBelowState.mem pageBelow.load pageBelow.start (n := 0x400) (by decide)
  have read : (0x50000000 : Word) + BitVec.ofNat 32 i = pageBelow.start + BitVec.ofNat 32 i := rfl
  rw [Image.relocated, bss, overlay_zero, Image.copied, if_neg moved, words, copyWords_add, source, target,
    copyWords, copyWords_outside _ _ _ (by decide) later, setWord_word,
    overlay_inside _ _ (by rw [place]; exact inside), place, first, read, overlay_at _ _ _ (by omega) (by omega)]
  have cases : i = 0 ∨ i = 1 ∨ i = 2 ∨ i = 3 := by omega
  rcases cases with rfl | rfl | rfl | rfl <;> rfl

theorem cpsr_vectors_page_below :
    pageBelow.length ≤ offset pageBelow.start pageBelow.load ∧
      ∃ s' ∈ eval (step (Variant.program .noOs pageBelow)) pageBelowState,
        ∃ t, create_page_table Program.cpsr.regions s'.mem = some t ∧
          readWord t.mem 0x1000 = some 0xffffffff ∧ word pageBelowState.mem (pageBelow.load + 0x1000) = 0 := by
  refine ⟨by decide, ?_⟩
  obtain ⟨s', ends, -, final⟩ := relocation_ends .noOs pageBelow_linked (s := pageBelowState) rfl
  obtain ⟨t, table, written⟩ := create_page_table_written .cpsr s'.mem
  rw [final] at written
  have held : word t.mem 0x50001000 = 0xffffffff := by
    apply word_of_bytes
    intro i inside
    have below : 0x1000 + i < 0x1000000 := by omega
    have kept := image_kept written.confined below
    rw [BitVec.ofNat_add, ← BitVec.add_assoc] at kept
    refine kept.trans ((pageBelow_copied inside).trans ?_)
    have cases : i = 0 ∨ i = 1 ∨ i = 2 ∨ i = 3 := by omega
    rcases cases with rfl | rfl | rfl | rfl <;> rfl
  have page : 0x1000 < 0x100000 := by decide
  have mapped := (cpsr_alias written page).1
  have second : (0x1000 : Word) = BitVec.ofNat 32 0x1000 := rfl
  have address : (0x50000000 : Word) + BitVec.ofNat 32 0x1000 = 0x50001000 := by decide
  refine ⟨s', ends, t, table, ?_, by decide⟩
  rw [readWord, second, mapped, Option.map_some, address, held]

end Tiny6410.Mmu
