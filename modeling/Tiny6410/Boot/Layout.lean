import Tiny6410.Boot.Relocate

/-! The linker scripts that define the symbols of the boot code. An output section
starts at the location counter rounded up to its alignment, and the counter is then
its end. The relocation loops stop on equality only, so what matters is which of
these symbols are word-aligned for every size and alignment of the sections. -/
namespace Tiny6410.Boot

open Memory Arm StateTransition

inductive Section where
  | text | rodata | data | bss
  deriving DecidableEq

inductive Symbol where
  | bss_start | bss_end
  deriving DecidableEq

/-- `. = address`, `. = ALIGN(n)`, an output section and `name = .`. -/
inductive Command where
  | dot (address : Nat)
  | align (n : Nat)
  | output (sec : Section)
  | assign (name : Symbol)

/-- What the object files bring: for each section its size and the exponent of its alignment. -/
structure Sections where
  size : Section → Nat
  power : Section → Nat
  -- start.o comes first in .text and holds the relocation code.
  boot : 4 * on_ddr ≤ size .text

structure Layout where
  dot : Nat
  -- _start is the first byte of .text.
  start : Nat
  bss_start : Nat
  bss_end : Nat
  deriving DecidableEq

def alignUp (n a : Nat) : Nat := (n + a - 1) / a * a

def Command.run (z : Sections) (l : Layout) : Command → Layout
  | .dot address => { l with dot := address }
  | .align n => { l with dot := alignUp l.dot n }
  | .output sec =>
    let place := alignUp l.dot (2 ^ z.power sec)
    { l with dot := place + z.size sec, start := if sec = .text then place else l.start }
  | .assign .bss_start => { l with bss_start := l.dot }
  | .assign .bss_end => { l with bss_end := l.dot }

/-- nand.lds of no-os, and with other object files the scripts of stdio, mmu, timer,
watchdog and the interrupt programs. Two of its three ALIGN are commented out. -/
def nand_lds : List Command :=
  [.dot 0x50000000, .output .text, .align 4, .output .rodata, .output .data, .assign .bss_start,
    .output .bss, .assign .bss_end]

/-- nand.lds of workspace, and nvi.lds. -/
def workspace_nand_lds : List Command :=
  [.dot 0x50000000, .output .text, .align 4, .output .rodata, .output .data, .align 4,
    .assign .bss_start, .output .bss, .assign .bss_end]

/-- link.lds of relocate/9.link_4096. It does not name .rodata, which the linker then
places after .text. -/
def link_lds : List Command :=
  [.dot 0x1000, .output .text, .output .rodata, .output .data, .assign .bss_start,
    .output .bss, .assign .bss_end]

def sdram_lds : List Command :=
  [.dot 0x50000000, .output .text, .align 4, .output .rodata, .align 4, .output .data, .align 4,
    .assign .bss_start, .output .bss, .assign .bss_end]

def sdramMMU_lds : List Command :=
  [.dot 0x50000000, .output .text, .output .rodata, .output .data, .align 4,
    .assign .bss_start, .output .bss, .assign .bss_end]

inductive Script where
  | nand | workspaceNand | link4096 | sdram | sdramMMU
  deriving DecidableEq

def Script.commands : Script → List Command
  | .nand => nand_lds
  | .workspaceNand => workspace_nand_lds
  | .link4096 => link_lds
  | .sdram => sdram_lds
  | .sdramMMU => sdramMMU_lds

def Script.link (k : Script) (z : Sections) : Option Layout :=
  let l := k.commands.foldl (Command.run z) ⟨0, 0, 0, 0⟩
  if l.dot < 2 ^ 32 then some l else none

def Layout.image (l : Layout) (load entry : Word) : Image where
  load := load
  entry := entry
  start := BitVec.ofNat 32 l.start
  bss_start := BitVec.ofNat 32 l.bss_start
  bss_end := BitVec.ofNat 32 l.bss_end

/-- The symbols are whole words apart, and the loops that rely on it end, from every
word-aligned load address and memory, without a store at or beyond bss_end. -/
structure Layout.Sound (l : Layout) : Prop where
  image : (l.bss_start - l.start) % 4 = 0
  bss : (l.bss_end - l.bss_start) % 4 = 0
  ends : ∀ (v : Variant) (load entry : Word) (s : State), load.toNat % 4 = 0 →
    s.pc = load + entry → ∃ s' ∈ eval (step (v.program (l.image load entry))) s,
      s'.pc = (v.program (l.image load entry)).address on_ddr ∧
      ∀ a : Word, l.bss_end ≤ a.toNat → s'.mem a = s.mem a

def Script.WholeWords (k : Script) (z : Sections) : Prop :=
  match k with
  | .nand => (alignUp (z.size .rodata) (2 ^ z.power .data) + z.size .data) % 4 = 0 ∧ z.size .bss % 4 = 0
  | .link4096 =>
    (alignUp (alignUp (z.size .text) (2 ^ z.power .rodata) + z.size .rodata) (2 ^ z.power .data) +
      z.size .data) % 4 = 0 ∧ z.size .bss % 4 = 0
  | .workspaceNand | .sdram | .sdramMMU => z.size .bss % 4 = 0

instance (k : Script) (z : Sections) : Decidable (k.WholeWords z) :=
  match k with
  | .nand | .link4096 => inferInstanceAs (Decidable (_ ∧ _))
  | .workspaceNand | .sdram | .sdramMMU => inferInstanceAs (Decidable (_ = _))

theorem le_alignUp (n k : Nat) : n ≤ alignUp n (2 ^ k) := by
  have positive := Nat.two_pow_pos k
  have split := Nat.div_add_mod (n + 2 ^ k - 1) (2 ^ k)
  have remainder := Nat.mod_lt (n + 2 ^ k - 1) positive
  rw [Nat.mul_comm] at split
  unfold alignUp
  omega

theorem alignUp_residue {x y : Nat} (k : Nat) (same : x % 4 = y % 4) :
    alignUp x (2 ^ k) % 4 = alignUp y (2 ^ k) % 4 := by
  match k with
  | 0 =>
    simp only [alignUp, Nat.pow_zero, Nat.add_sub_cancel, Nat.div_one, Nat.mul_one]
    exact same
  | 1 =>
    simp only [alignUp, Nat.pow_one]
    omega
  | k + 2 =>
    have four : 2 ^ (k + 2) = 4 * 2 ^ k := by rw [Nat.pow_add, Nat.mul_comm]
    simp only [alignUp, four, Nat.mul_left_comm _ 4, Nat.mul_mod_right]

theorem alignUp_aligned {x : Nat} (k : Nat) (aligned : x % 4 = 0) : alignUp x (2 ^ k) % 4 = 0 := by
  have zero : alignUp 0 (2 ^ k) = 0 := by
    have positive := Nat.two_pow_pos k
    rw [alignUp, Nat.zero_add, Nat.div_eq_of_lt (by omega), Nat.zero_mul]
  have residue := alignUp_residue (y := 0) k aligned
  rw [zero] at residue
  exact residue

theorem alignUp_four (n : Nat) : alignUp n 4 % 4 = 0 ∧ n ≤ alignUp n 4 := by
  unfold alignUp
  omega

def Command.grows : Command → Bool
  | .align n => n == 4
  | .output sec => sec != .text
  | _ => false

theorem run_grows {c : Command} (z : Sections) (l : Layout) (grows : c.grows = true) :
    l.dot ≤ (c.run z l).dot ∧ (c.run z l).start = l.start := by
  cases c with
  | dot | assign => simp [Command.grows] at grows
  | align n =>
    obtain rfl : n = 4 := by simpa [Command.grows] using grows
    exact ⟨(alignUp_four l.dot).2, rfl⟩
  | output sec =>
    have other : sec ≠ .text := by simpa [Command.grows] using grows
    have room := le_alignUp l.dot (z.power sec)
    simp only [Command.run, if_neg other, and_true]
    omega

theorem foldl_grows (cs : List Command) (z : Sections) (l : Layout)
    (grows : cs.all Command.grows = true) :
    l.dot ≤ (cs.foldl (Command.run z) l).dot ∧ (cs.foldl (Command.run z) l).start = l.start := by
  induction cs generalizing l with
  | nil => exact ⟨Nat.le_refl _, rfl⟩
  | cons c rest ih =>
    rw [List.all_cons, Bool.and_eq_true] at grows
    have first := run_grows z l grows.1
    have later := ih (c.run z l) grows.2
    exact ⟨Nat.le_trans first.1 later.1, later.2.trans first.2⟩

def Script.base : Script → Nat
  | .link4096 => 0x1000
  | _ => 0x50000000

def Script.middle : Script → List Command
  | .nand => [.align 4, .output .rodata, .output .data]
  | .workspaceNand => [.align 4, .output .rodata, .output .data, .align 4]
  | .link4096 => [.output .rodata, .output .data]
  | .sdram => [.align 4, .output .rodata, .align 4, .output .data, .align 4]
  | .sdramMMU => [.output .rodata, .output .data, .align 4]

theorem commands_eq (k : Script) : k.commands = [.dot k.base, .output .text] ++ k.middle ++
    [.assign .bss_start, .output .bss, .assign .bss_end] := by
  cases k <;> rfl

def Script.afterText (k : Script) (z : Sections) : Layout :=
  let place := alignUp k.base (2 ^ z.power .text)
  ⟨place + z.size .text, place, 0, 0⟩

def Script.imageEnd (k : Script) (z : Sections) : Nat :=
  (k.middle.foldl (Command.run z) (k.afterText z)).dot

theorem link_eq {k : Script} {z : Sections} {l : Layout} (linked : k.link z = some l) :
    l.start = alignUp k.base (2 ^ z.power .text) ∧ l.bss_start = k.imageEnd z ∧
      l.bss_end = alignUp (k.imageEnd z) (2 ^ z.power .bss) + z.size .bss ∧ l.bss_end < 2 ^ 32 := by
  have start := (foldl_grows k.middle z (k.afterText z) (by cases k <;> rfl)).2
  simp only [Script.link, commands_eq, List.foldl_append] at linked
  split at linked
  · rename_i fits
    have same := Option.some.inj linked
    subst same
    exact ⟨start, rfl, rfl, fits⟩
  · cases linked

theorem base_aligned (k : Script) : k.base % 4 = 0 := by cases k <;> rfl

theorem start_lt_imageEnd (k : Script) (z : Sections) :
    alignUp k.base (2 ^ z.power .text) < k.imageEnd z := by
  have grows := (foldl_grows k.middle z (k.afterText z) (by cases k <;> rfl)).1
  have boot := z.boot
  simp only [Script.afterText, on_ddr, Script.imageEnd] at *
  omega

theorem imageEnd_aligned_iff (k : Script) (z : Sections) :
    k.imageEnd z % 4 = 0 ∧ z.size .bss % 4 = 0 ↔ k.WholeWords z := by
  cases k with
  | nand =>
    have rodata := alignUp_aligned (z.power .rodata)
      (alignUp_four (alignUp 0x50000000 (2 ^ z.power .text) + z.size .text)).1
    have data := alignUp_residue (z.power .data) (x := alignUp (alignUp (alignUp 0x50000000
      (2 ^ z.power .text) + z.size .text) 4) (2 ^ z.power .rodata) + z.size .rodata)
      (y := z.size .rodata) (by omega)
    simp only [Script.imageEnd, Script.middle, Script.afterText, Script.base, List.foldl, Command.run,
      Script.WholeWords]
    omega
  | link4096 =>
    have text := alignUp_aligned (x := 0x1000) (z.power .text) rfl
    have rodata := alignUp_residue (z.power .rodata) (x := alignUp 0x1000 (2 ^ z.power .text) +
      z.size .text) (y := z.size .text) (by omega)
    have data := alignUp_residue (z.power .data) (x := alignUp (alignUp 0x1000 (2 ^ z.power .text) +
      z.size .text) (2 ^ z.power .rodata) + z.size .rodata)
      (y := alignUp (z.size .text) (2 ^ z.power .rodata) + z.size .rodata) (by omega)
    simp only [Script.imageEnd, Script.middle, Script.afterText, Script.base, List.foldl, Command.run,
      Script.WholeWords]
    omega
  | workspaceNand | sdram | sdramMMU =>
    -- The last command before bss_start is ALIGN(4).
    simp only [Script.imageEnd, Script.middle, List.foldl, Command.run, Script.WholeWords,
      (alignUp_four _).1, true_and]

/-- For each script, the exact sizes for which the boot code is safe. -/
theorem layout_sound_iff (k : Script) (z : Sections) (l : Layout) (linked : k.link z = some l) :
    l.Sound ↔ k.WholeWords z := by
  obtain ⟨start, bss_start, bss_end, fits⟩ := link_eq linked
  have origin := alignUp_aligned (z.power .text) (base_aligned k)
  have nonempty := start_lt_imageEnd k z
  have room := le_alignUp (k.imageEnd z) (z.power .bss)
  rw [← imageEnd_aligned_iff]
  constructor
  · intro sound
    have image := sound.image
    have bss := sound.bss
    have aligned : k.imageEnd z % 4 = 0 := by omega
    have begins := alignUp_aligned (z.power .bss) aligned
    exact ⟨aligned, by omega⟩
  · rintro ⟨aligned, whole⟩
    have begins := alignUp_aligned (z.power .bss) aligned
    refine ⟨by omega, by omega, ?_⟩
    intro v load entry s word here
    have value : ∀ n, n < 2 ^ 32 → (BitVec.ofNat 32 n).toNat = n := fun n h => by
      rw [BitVec.toNat_ofNat, Nat.mod_eq_of_lt h]
    have symbols : (l.image load entry).Linked := by
      refine ⟨word, ?_, ?_, ?_, ?_, ?_⟩
      all_goals simp only [Layout.image, BitVec.lt_def, BitVec.le_def]
      all_goals rw [value _ (by omega)]
      all_goals try rw [value _ (by omega)]
      all_goals omega
    obtain ⟨s', ends, stop, final⟩ := relocation_ends v symbols here
    refine ⟨s', ends, stop, fun a beyond => ?_⟩
    rw [final]
    refine relocated_outside symbols s.mem (.inr ?_)
    simp only [Layout.image, BitVec.le_def, value _ fits]
    exact beyond

def wordSections : Sections where
  size
    | .text => 0x1234
    | .rodata => 0x20
    | .data => 8
    | .bss => 0x10
  power := fun _ => 2
  boot := by decide

theorem layout_sound_iff_word_sections :
    ∃ l, Script.nand.link wordSections = some l ∧ l.Sound :=
  ⟨_, rfl, (layout_sound_iff .nand wordSections _ rfl).mpr (by decide)⟩

def byteSections : Sections where
  size
    | .text => 0x1234
    | .rodata => 0x20
    | .data => 1
    | .bss => 0x10
  power := fun sec => if sec = .data then 0 else 2
  boot := by decide

theorem layout_byte_data_unsound : ∃ l, Script.nand.link byteSections = some l ∧ ¬ l.Sound := by
  refine ⟨⟨0x50001268, 0x50000000, 0x50001255, 0x50001268⟩, by decide, fun sound => ?_⟩
  -- bss_start is one byte past a word, and copy_loop steps over it.
  exact absurd sound.image (by decide)

end Tiny6410.Boot
