import Tiny6410.Lib.Loop
import Tiny6410.Lib.Memory

/-! The first-level page tables that create_page_table builds, mmu.c of no-os/mmu,
no-os/timer, no-os/interrupt/cpsr, workspace/nand and workspace/interrupt/NVI. The
functions differ in the regions they map and in their order; none of them clears the
table first. -/
namespace Tiny6410.Mmu

open Memory

def MMU_BASE : Word := 0x51000000

def MMU_SECTION_FULL_ACCESS : Word := 3 <<< 10
def MMU_SECTION_DOMAIN : Word := 0 <<< 5
def MMU_SECTION_SPECIAL : Word := 1 <<< 4
def MMU_SECTION_CACHEABLE : Word := 1 <<< 3
def MMU_SECTION_BUFFERABLE : Word := 1 <<< 2
def MMU_SCETION_SECDESC : Word := 2 <<< 0

def MMU_SECTION_WB : Word :=
  MMU_SECTION_FULL_ACCESS ||| MMU_SECTION_DOMAIN ||| MMU_SECTION_SPECIAL ||| MMU_SECTION_CACHEABLE |||
    MMU_SECTION_BUFFERABLE ||| MMU_SCETION_SECDESC

def MMU_SECTION_NCNB : Word :=
  MMU_SECTION_FULL_ACCESS ||| MMU_SECTION_DOMAIN ||| MMU_SECTION_SPECIAL ||| MMU_SCETION_SECDESC

structure State where
  mem : Bytes
  -- The addresses stored to, newest first.
  stores : List Word

/-- `*(table + (virtul_addr >> 20)) = (physical_addr & 0xFFF00000) | attributes` -/
def mapSection (attributes virtul_addr physical_addr : Word) (s : State) : State where
  mem := setWord s.mem (MMU_BASE + (virtul_addr >>> 20) * 4)
    ((physical_addr &&& 0xfff00000) ||| attributes)
  stores := (MMU_BASE + (virtul_addr >>> 20) * 4) :: s.stores

structure SectionLoop where
  virtul_addr : Word
  physical_addr : Word
  state : State

def mapNext (attributes : Word) (l : SectionLoop) : SectionLoop where
  virtul_addr := l.virtul_addr + 0x100000
  physical_addr := l.physical_addr + 0x100000
  state := mapSection attributes l.virtul_addr l.physical_addr l.state

/-- A step of create_page_table: one descriptor, or one for each section below a bound. -/
inductive Region where
  | single (virtul_addr physical_addr attributes : Word)
  | range (virtul_addr physical_addr bound attributes : Word)

/-- There are 4096 sections, so a loop that makes more tests does not end. -/
def sectionTests : Nat := 4097

def Region.map (s : State) : Region → Option State
  | .single virtul_addr physical_addr attributes =>
    some (mapSection attributes virtul_addr physical_addr s)
  | .range virtul_addr physical_addr bound attributes =>
    (Loop.whileLoop (fun l => l.virtul_addr < bound) (mapNext attributes) sectionTests
      ⟨virtul_addr, physical_addr, s⟩).map SectionLoop.state

def create_page_table (regions : List Region) (m : Bytes) : Option State :=
  regions.foldlM Region.map ⟨m, []⟩

inductive Program where
  | mmu | timer | cpsr | workspaceNand | nvi
  deriving DecidableEq

/-- What each create_page_table maps, in its order. MMU_VIRSUAL_ADDRESS is defined in
no-os/mmu only. -/
def Program.regions : Program → List Region
  | .mmu =>
    [.single 0x0c000000 0x0c000000 MMU_SECTION_WB,
      .single 0x10000000 0x7f000000 MMU_SECTION_NCNB,
      .range 0x50000000 0x50000000 0x54000000 MMU_SECTION_NCNB]
  | .timer =>
    [.range 0x00000000 0x00000000 0x80000000 MMU_SECTION_NCNB,
      .single 0x0c000000 0x0c000000 MMU_SECTION_WB,
      .range 0x50000000 0x50000000 0x60000000 MMU_SECTION_NCNB,
      .range 0x70000000 0x70000000 0x80000000 MMU_SECTION_NCNB]
  | .cpsr =>
    [.single 0x0c000000 0x0c000000 MMU_SECTION_WB,
      .single 0x7f000000 0x7f000000 MMU_SECTION_NCNB,
      .range 0x50000000 0x50000000 0x60000000 MMU_SECTION_NCNB,
      .single 0x00000000 0x50000000 MMU_SECTION_NCNB]
  | .workspaceNand =>
    [.single 0x00000000 0x00000000 MMU_SECTION_WB,
      .single 0x0c000000 0x0c000000 MMU_SECTION_WB,
      .single 0x7f000000 0x7f000000 MMU_SECTION_NCNB,
      .range 0x50000000 0x50000000 0x54000000 MMU_SECTION_NCNB]
  | .nvi =>
    [.single 0x00000000 0x00000000 MMU_SECTION_WB,
      .single 0x0c000000 0x0c000000 MMU_SECTION_WB,
      .single 0x7f000000 0x7f000000 MMU_SECTION_NCNB,
      .range 0x71000000 0x71000000 0x71300000 MMU_SECTION_NCNB,
      .range 0x50000000 0x50000000 0x54000000 MMU_SECTION_NCNB]

/-! The table walk of the processor. -/

inductive Cache where
  | nonCached | buffered | writeThrough | writeBack
  deriving DecidableEq

inductive Descriptor where
  | fault
  | coarse
  | secdesc (base : Word) (cache : Cache)
  | fine
  deriving DecidableEq

def cacheOf (d : Word) : Cache :=
  match d.getLsbD 3, d.getLsbD 2 with
  | false, false => .nonCached
  | false, true => .buffered
  | true, false => .writeThrough
  | true, true => .writeBack

def decode (d : Word) : Descriptor :=
  match (d &&& 3).toNat with
  | 0 => .fault
  | 1 => .coarse
  | 2 => .secdesc (d &&& 0xfff00000) (cacheOf d)
  | _ => .fine

/-- table[va >> 20] -/
def entry (m : Bytes) (i : Nat) : Word := word m (MMU_BASE + BitVec.ofNat 32 (4 * i))

def sectionOf (va : Word) : Nat := va.toNat / 0x100000

/-- The address and cache attributes that a first-level section gives to an access;
`none` for the other descriptors. -/
def translate (m : Bytes) (va : Word) : Option (Word × Cache) :=
  match decode (entry m (sectionOf va)) with
  | .secdesc base cache => some (base ||| (va &&& 0x000fffff), cache)
  | _ => none

/-! The table as a function of the section, and what a region does to it. -/

theorem table_address (va : Word) :
    MMU_BASE + (va >>> 20) * 4 = MMU_BASE + BitVec.ofNat 32 (4 * sectionOf va) := by
  congr 1
  apply BitVec.eq_of_toNat_eq
  rw [BitVec.toNat_mul, BitVec.toNat_ushiftRight, Nat.shiftRight_eq_div_pow, BitVec.toNat_ofNat,
    Nat.mul_comm]
  rfl

theorem sectionOf_lt (va : Word) : sectionOf va < 4096 := by
  have bound := va.isLt
  unfold sectionOf
  omega

theorem entry_setWord (m : Bytes) {i j : Nat} (w : Word) (hi : i < 4096) (hj : j < 4096) :
    entry (setWord m (MMU_BASE + BitVec.ofNat 32 (4 * i)) w) j = if j = i then w else entry m j := by
  unfold entry
  split
  · rename_i same
    rw [same, word_setWord]
  · have below : 4 * j < 2 ^ 32 := by omega
    have turn : 4 * i ≤ 2 ^ 32 := by omega
    have place := offset_add MMU_BASE below
    have shift := offset_shift MMU_BASE (MMU_BASE + BitVec.ofNat 32 (4 * j)) turn
    rw [place] at shift
    split at shift
    · exact word_setWord_apart m w (by omega) (by omega)
    · exact word_setWord_apart m w (by omega) (by omega)

/-- From s to s' the entries that t gives were written, and nothing outside the table. -/
structure Written (t : Nat → Option Word) (s s' : State) : Prop where
  entries : ∀ i < 4096, entry s'.mem i = (t i).getD (entry s.mem i)
  outside : ∀ x, 0x4000 ≤ offset MMU_BASE x → s'.mem x = s.mem x
  stores : ∀ a ∈ s'.stores, a ∈ s.stores ∨ ∃ i < 4096, a = MMU_BASE + BitVec.ofNat 32 (4 * i)

theorem Written.refl (s : State) : Written (fun _ => none) s s :=
  ⟨fun _ _ => rfl, fun _ _ => rfl, fun _ mem => .inl mem⟩

theorem Written.trans {t u : Nat → Option Word} {s s' s'' : State} (first : Written t s s')
    (second : Written u s' s'') : Written (fun i => (u i).or (t i)) s s'' where
  entries := by
    intro i hi
    rw [second.entries i hi, first.entries i hi]
    cases u i <;> rfl
  outside := fun x far => (second.outside x far).trans (first.outside x far)
  stores := by
    intro a mem
    rcases second.stores a mem with before | inside
    · exact first.stores a before
    · exact .inr inside

theorem Written.congr {t u : Nat → Option Word} {s s' : State} (h : Written t s s')
    (same : ∀ i, t i = u i) : Written u s s' := by
  have eq : t = u := funext same
  rwa [← eq]

theorem mapSection_written (attributes va pa : Word) (s : State) :
    Written (fun i => if i = sectionOf va then some ((pa &&& 0xfff00000) ||| attributes) else none) s
      (mapSection attributes va pa s) where
  entries := by
    intro i hi
    rw [mapSection, table_address, entry_setWord _ _ (sectionOf_lt va) hi]
    split <;> rfl
  outside := by
    intro x far
    have inside := sectionOf_lt va
    have turn : 4 * sectionOf va ≤ 2 ^ 32 := by omega
    have shift := offset_shift MMU_BASE x turn
    rw [if_pos (by omega)] at shift
    rw [mapSection, table_address]
    exact overlay_outside _ _ (by rw [shift]; omega)
  stores := by
    intro a mem
    rcases List.mem_cons.mp mem with rfl | before
    · exact .inr ⟨sectionOf va, sectionOf_lt va, table_address va⟩
    · exact .inl before

section Regions

def Region.virtul_addr : Region → Word
  | .single virtul_addr _ _ | .range virtul_addr _ _ _ => virtul_addr

def Region.physical_addr : Region → Word
  | .single _ physical_addr _ | .range _ physical_addr _ _ => physical_addr

def Region.attributes : Region → Word
  | .single _ _ attributes | .range _ _ _ attributes => attributes

def Region.sections : Region → Nat
  | .single _ _ _ => 1
  | .range virtul_addr _ bound _ => sectionOf bound - sectionOf virtul_addr

/-- The descriptor a region declares for a section, if the section is in it. -/
def Region.declares (r : Region) (i : Nat) : Option Word :=
  if sectionOf r.virtul_addr ≤ i ∧ i < sectionOf r.virtul_addr + r.sections then
    some (((r.physical_addr + BitVec.ofNat 32 (0x100000 * (i - sectionOf r.virtul_addr))) &&& 0xfff00000) |||
      r.attributes)
  else none

/-- The last region that has the section declares it. -/
def declared : List Region → Nat → Option Word
  | [], _ => none
  | r :: rest, i => (declared rest i).or (r.declares i)

/-- A loop over whole sections that does not run past the address space. -/
def Region.Whole : Region → Prop
  | .single _ _ _ => True
  | .range virtul_addr _ bound _ =>
    virtul_addr.toNat % 0x100000 = 0 ∧ bound.toNat % 0x100000 = 0 ∧ virtul_addr ≤ bound

instance (r : Region) : Decidable r.Whole :=
  match r with
  | .single _ _ _ => inferInstanceAs (Decidable True)
  | .range _ _ _ _ => inferInstanceAs (Decidable (_ ∧ _ ∧ _))

/-- The loop variables of a region after k sections. -/
structure Looped (attributes va pa : Word) (s : State) (k : Nat) (l : SectionLoop) : Prop where
  virtul_addr : l.virtul_addr = va + BitVec.ofNat 32 (0x100000 * k)
  physical_addr : l.physical_addr = pa + BitVec.ofNat 32 (0x100000 * k)
  written : Written (fun i => if sectionOf va ≤ i ∧ i < sectionOf va + k then
    some (((pa + BitVec.ofNat 32 (0x100000 * (i - sectionOf va))) &&& 0xfff00000) ||| attributes)
    else none) s l.state

theorem next_section (a : Word) (k : Nat) :
    a + BitVec.ofNat 32 (0x100000 * k) + 0x100000 = a + BitVec.ofNat 32 (0x100000 * (k + 1)) := by
  rw [Nat.mul_succ, BitVec.ofNat_add, BitVec.add_assoc]
  rfl

theorem toNat_sections {va : Word} {k : Nat} (fits : va.toNat + 0x100000 * k < 2 ^ 32) :
    (va + BitVec.ofNat 32 (0x100000 * k)).toNat = va.toNat + 0x100000 * k := by
  rw [BitVec.toNat_add, BitVec.toNat_ofNat]
  omega

theorem looped_iterate (attributes va pa : Word) (s : State) {k : Nat}
    (aligned : va.toNat % 0x100000 = 0) (fits : va.toNat + 0x100000 * k ≤ 2 ^ 32) :
    Looped attributes va pa s k ((mapNext attributes)^[k] ⟨va, pa, s⟩) := by
  induction k with
  | zero =>
    refine ⟨by simp, by simp, (Written.refl s).congr fun i => ?_⟩
    rw [if_neg (by omega)]
  | succ k ih =>
    obtain ⟨virtul, physical, written⟩ := ih (by omega)
    rw [Function.iterate_succ_apply']
    refine ⟨?_, ?_, (written.trans (mapSection_written attributes _ _ _)).congr fun i => ?_⟩
    · rw [mapNext, virtul, next_section]
    · rw [mapNext, physical, next_section]
    · have here : sectionOf ((mapNext attributes)^[k] ⟨va, pa, s⟩).virtul_addr = sectionOf va + k := by
        rw [virtul, sectionOf, toNat_sections (by omega), sectionOf]
        omega
      rw [here, physical]
      by_cases last : i = sectionOf va + k
      · subst last
        simp
      · have same : (sectionOf va ≤ i ∧ i < sectionOf va + (k + 1)) ↔
            (sectionOf va ≤ i ∧ i < sectionOf va + k) := by omega
        simp only [if_neg last, same, Option.none_or]

theorem Region.map_written {r : Region} (whole : r.Whole) (s : State) :
    ∃ s', r.map s = some s' ∧ Written r.declares s s' := by
  cases r with
  | single va pa attributes =>
    refine ⟨_, rfl, (mapSection_written attributes va pa s).congr fun i => ?_⟩
    have same : (sectionOf va ≤ i ∧ i < sectionOf va + 1) ↔ i = sectionOf va := by omega
    simp only [declares, virtul_addr, sections, physical_addr, Region.attributes, same]
    split
    · rename_i here
      rw [here, Nat.sub_self, Nat.mul_zero, BitVec.add_zero]
    · rfl
  | range va pa bound attributes =>
    obtain ⟨low, high, order⟩ := whole
    have limit := bound.isLt
    have ordered : va.toNat ≤ bound.toNat := order
    have rounds : ∀ k ≤ sectionOf bound - sectionOf va,
        Looped attributes va pa s k ((mapNext attributes)^[k] ⟨va, pa, s⟩) := by
      intro k hk
      unfold sectionOf at hk
      exact looped_iterate attributes va pa s low (by omega)
    have place : ∀ k ≤ sectionOf bound - sectionOf va,
        ((mapNext attributes)^[k] ⟨va, pa, s⟩).virtul_addr.toNat = va.toNat + 0x100000 * k := by
      intro k hk
      have at_k := (rounds k hk).virtul_addr
      unfold sectionOf at hk
      rw [at_k, toNat_sections (by omega)]
    have run : Loop.whileLoop (fun l => l.virtul_addr < bound) (mapNext attributes) sectionTests ⟨va, pa, s⟩ =
        some ((mapNext attributes)^[sectionOf bound - sectionOf va] ⟨va, pa, s⟩) := by
      apply Loop.whileLoop_iterate
      · have inside := sectionOf_lt bound
        unfold sectionTests
        omega
      · intro k hk
        rw [decide_eq_true_eq, BitVec.lt_def, place k (Nat.le_of_lt hk)]
        unfold sectionOf at hk
        omega
      · rw [decide_eq_false_iff_not, BitVec.lt_def, place _ (Nat.le_refl _)]
        unfold sectionOf
        omega
    refine ⟨_, by rw [Region.map, run]; rfl, (rounds _ (Nat.le_refl _)).written⟩

theorem foldlM_written {regions : List Region} (whole : ∀ r ∈ regions, r.Whole) (s : State) :
    ∃ s', regions.foldlM Region.map s = some s' ∧ Written (declared regions) s s' := by
  induction regions generalizing s with
  | nil => exact ⟨s, rfl, .refl s⟩
  | cons r rest ih =>
    obtain ⟨t, first, written⟩ := Region.map_written (whole r List.mem_cons_self) s
    obtain ⟨s', later, rewritten⟩ := ih (fun q mem => whole q (List.mem_cons_of_mem r mem)) t
    refine ⟨s', ?_, written.trans rewritten⟩
    rw [List.foldlM_cons, first]
    exact later

end Regions

theorem regions_whole (p : Program) : ∀ r ∈ p.regions, r.Whole := by
  cases p <;> decide

/-- create_page_table ends, and has written what it declares and nothing else. -/
theorem create_page_table_written (p : Program) (m : Bytes) :
    ∃ s, create_page_table p.regions m = some s ∧ Written (declared p.regions) ⟨m, []⟩ s :=
  foldlM_written (regions_whole p) ⟨m, []⟩

/-! The declared regions as a map of addresses. -/

theorem and_section_toNat (a : Word) : (a &&& 0x000fffff).toNat = a.toNat % 0x100000 := by
  rw [BitVec.toNat_and]
  exact Nat.and_two_pow_sub_one_eq_mod a.toNat 20

theorem section_base {a : Word} (aligned : a.toNat % 0x100000 = 0) : a &&& 0xfff00000 = a := by
  have low : a &&& 0x000fffff = 0 := by
    apply BitVec.eq_of_toNat_eq
    rw [and_section_toNat, aligned]
    rfl
  have split := and_not_mask a 0x000fffff
  rw [low] at split
  exact split.trans (BitVec.sub_zero a)

theorem section_or {base va : Word} (aligned : base.toNat % 0x100000 = 0) :
    base ||| (va &&& 0x000fffff) = base + (va &&& 0x000fffff) := by
  have apart : base &&& (va &&& 0x000fffff) = 0#32 := by
    rw [BitVec.and_comm va, ← BitVec.and_assoc]
    have low : base &&& 0x000fffff = 0 := by
      apply BitVec.eq_of_toNat_eq
      rw [and_section_toNat, aligned]
      rfl
    rw [low]
    exact BitVec.zero_and
  exact (BitVec.add_eq_or_of_and_eq_zero _ _ apart).symm

def Region.Has (r : Region) (va : Word) : Prop :=
  sectionOf r.virtul_addr ≤ sectionOf va ∧ sectionOf va < sectionOf r.virtul_addr + r.sections

instance (r : Region) (va : Word) : Decidable (r.Has va) := inferInstanceAs (Decidable (_ ∧ _))

/-- The address and the cache attributes that a region declares for an address in it. -/
def Region.target (r : Region) (va : Word) : Option (Word × Cache) :=
  if r.Has va then some (r.physical_addr + (va - r.virtul_addr), cacheOf r.attributes) else none

/-- The last region declared for an address decides. -/
def mapping : List Region → Word → Option (Word × Cache)
  | [], _ => none
  | r :: rest, va => (mapping rest va).or (r.target va)

/-- A section descriptor with nothing in the bits of the base address. -/
structure Region.Section (r : Region) : Prop where
  virtul : r.virtul_addr.toNat % 0x100000 = 0
  physical : r.physical_addr.toNat % 0x100000 = 0
  base : r.attributes &&& 0xfff00000 = 0
  secdesc : r.attributes &&& 3 = 2

theorem decode_section (p : Word) {attributes : Word} (base : attributes &&& 0xfff00000 = 0)
    (secdesc : attributes &&& 3 = 2) :
    decode ((p &&& 0xfff00000) ||| attributes) = .secdesc (p &&& 0xfff00000) (cacheOf attributes) := by
  have kind : ((p &&& 0xfff00000) ||| attributes) &&& 3 = 2 := by
    rw [BitVec.and_comm, BitVec.and_or_distrib_left, BitVec.and_comm _ attributes, secdesc, BitVec.and_comm,
      BitVec.and_assoc]
    exact congrArg (· ||| 2) (BitVec.and_zero (x := p))
  have address : ((p &&& 0xfff00000) ||| attributes) &&& 0xfff00000 = p &&& 0xfff00000 := by
    rw [BitVec.and_comm, BitVec.and_or_distrib_left, BitVec.and_comm _ attributes, base, BitVec.and_comm,
      BitVec.and_assoc, BitVec.and_self]
    exact BitVec.or_zero
  have cache : cacheOf ((p &&& 0xfff00000) ||| attributes) = cacheOf attributes := by
    have bit3 : (0xfff00000 : Word).getLsbD 3 = false := by decide
    have bit2 : (0xfff00000 : Word).getLsbD 2 = false := by decide
    simp only [cacheOf, BitVec.getLsbD_or, BitVec.getLsbD_and, bit3, bit2, Bool.and_false, Bool.false_or]
  simp only [decode, kind, address, cache]
  rfl

theorem decode_fault (d : Word) : decode d = .fault ↔ d &&& 3 = 0 := by
  have small : (d &&& 3).toNat < 4 := by
    rw [BitVec.toNat_and]
    exact Nat.lt_of_le_of_lt Nat.and_le_right (by decide)
  have zero : d &&& 3 = 0 ↔ (d &&& 3).toNat = 0 := BitVec.toNat_inj.symm
  rw [zero, decode]
  generalize (d &&& 3).toNat = kind at small
  match kind, small with
  | 0, _ => simp
  | 1, _ => simp
  | 2, _ => simp
  | 3, _ => simp

/-- The descriptor of a region takes an address in it where the region says. -/
theorem Region.translate_has {r : Region} (sec : r.Section) {va : Word} {m : Bytes} (has : r.Has va)
    (held : some (entry m (sectionOf va)) = r.declares (sectionOf va)) :
    translate m va = some (r.physical_addr + (va - r.virtul_addr), cacheOf r.attributes) := by
  have low := has.1
  have virtul := sec.virtul
  have physical := sec.physical
  have vaLt := va.isLt
  rw [declares, if_pos ⟨has.1, has.2⟩, Option.some_inj] at held
  have aligned : (r.physical_addr +
      BitVec.ofNat 32 (0x100000 * (sectionOf va - sectionOf r.virtul_addr))).toNat % 0x100000 = 0 := by
    rw [BitVec.toNat_add, BitVec.toNat_ofNat]
    omega
  have place : r.physical_addr + BitVec.ofNat 32 (0x100000 * (sectionOf va - sectionOf r.virtul_addr)) +
      (va &&& 0x000fffff) = r.physical_addr + (va - r.virtul_addr) := by
    rw [BitVec.add_assoc]
    congr 1
    apply BitVec.eq_of_toNat_eq
    rw [BitVec.toNat_add, BitVec.toNat_ofNat, and_section_toNat, BitVec.toNat_sub]
    unfold sectionOf at *
    omega
  rw [translate, held, decode_section _ sec.base sec.secdesc]
  simp only [section_base aligned, section_or aligned, place]

theorem mapping_none {regions : List Region} {va : Word} (none : mapping regions va = none) :
    declared regions (sectionOf va) = .none := by
  induction regions with
  | nil => rfl
  | cons r rest ih =>
    rw [mapping, Option.or_eq_none_iff] at none
    have outside : ¬ r.Has va := by
      intro has
      rw [Region.target, if_pos has] at none
      cases none.2
    rw [declared, ih none.1, Option.none_or, Region.declares]
    exact if_neg outside

theorem mapping_some {regions : List Region} {va : Word} {t : Word × Cache}
    (mapped : mapping regions va = some t) : ∃ r ∈ regions, r.Has va ∧
      t = (r.physical_addr + (va - r.virtul_addr), cacheOf r.attributes) ∧
      declared regions (sectionOf va) = r.declares (sectionOf va) := by
  induction regions with
  | nil => cases mapped
  | cons r rest ih =>
    rw [mapping] at mapped
    cases later : mapping rest va with
    | none =>
      rw [later, Option.none_or, Region.target] at mapped
      split at mapped
      · rename_i has
        refine ⟨r, List.mem_cons_self, has, (Option.some.inj mapped).symm, ?_⟩
        rw [declared, mapping_none later, Option.none_or]
      · cases mapped
    | some u =>
      rw [later, Option.some_or] at mapped
      obtain ⟨q, mem, has, target, same⟩ := ih (later.trans mapped)
      refine ⟨q, List.mem_cons_of_mem r mem, has, target, ?_⟩
      have given : q.declares (sectionOf va) = some _ := if_pos has
      rw [declared, same, given, Option.some_or]

theorem mapping_outside {regions : List Region} {va : Word} (outside : ∀ r ∈ regions, ¬ r.Has va) :
    mapping regions va = none := by
  induction regions with
  | nil => rfl
  | cons r rest ih =>
    rw [mapping, ih fun q mem => outside q (List.mem_cons_of_mem r mem), Option.none_or, Region.target]
    exact if_neg (outside r List.mem_cons_self)

theorem regions_section (p : Program) : ∀ r ∈ p.regions, r.Section := by
  intro r mem
  constructor <;> revert r <;> cases p <;> decide

/-- After create_page_table an access to a declared address goes where the last region
declared for it says. -/
theorem Written.translate {p : Program} {m : Bytes} {s : State} (written : Written (declared p.regions) ⟨m, []⟩ s)
    {va : Word} {t : Word × Cache} (mapped : mapping p.regions va = some t) : translate s.mem va = some t := by
  obtain ⟨r, mem, has, rfl, last⟩ := mapping_some mapped
  apply Region.translate_has (regions_section p r mem) has
  have given : r.declares (sectionOf va) = some _ := if_pos has
  rw [written.entries _ (sectionOf_lt va), last, given]
  rfl

/-- Only the 16 KB of the table are stored to and changed. -/
structure Confined (m : Bytes) (s : State) : Prop where
  stores : ∀ a ∈ s.stores, 0x51000000 ≤ a.toNat ∧ a.toNat + 4 ≤ 0x51004000
  outside : ∀ x : Word, ¬ (0x51000000 ≤ x.toNat ∧ x.toNat < 0x51004000) → s.mem x = m x

theorem Written.confined {t : Nat → Option Word} {m : Bytes} {s : State} (written : Written t ⟨m, []⟩ s) :
    Confined m s where
  stores := by
    intro a mem
    rcases written.stores a mem with before | ⟨i, hi, rfl⟩
    · cases before
    · rw [MMU_BASE, BitVec.toNat_add, BitVec.toNat_ofNat]
      have base : BitVec.toNat (0x51000000 : Word) = 0x51000000 := rfl
      omega
  outside := by
    intro x far
    apply written.outside
    have inside : offset MMU_BASE x < 0x4000 ↔ _ := offset_lt_iff (by decide)
    have base : MMU_BASE.toNat = 0x51000000 := rfl
    omega

theorem mapping_later {r : Region} {rest : List Region} {va : Word} {t : Word × Cache}
    (later : mapping rest va = some t) : mapping (r :: rest) va = some t := by
  rw [mapping, later, Option.some_or]

theorem mapping_last {r : Region} {rest : List Region} {va : Word} {t : Word × Cache}
    (later : mapping rest va = none) (here : r.target va = some t) : mapping (r :: rest) va = some t := by
  rw [mapping, later, Option.none_or, here]

theorem Region.target_identity {r : Region} {va : Word} (same : r.physical_addr = r.virtul_addr)
    (has : r.Has va) : r.target va = some (va, cacheOf r.attributes) := by
  rw [target, if_pos has, same, BitVec.add_comm, BitVec.sub_add_cancel]

@[simp] theorem Region.has_single {v p a va : Word} :
    (Region.single v p a).Has va ↔ va.toNat / 0x100000 = v.toNat / 0x100000 := by
  simp only [Has, virtul_addr, sections, sectionOf]
  omega

@[simp] theorem Region.has_range {v p b a va : Word} : (Region.range v p b a).Has va ↔
    v.toNat / 0x100000 ≤ va.toNat / 0x100000 ∧ va.toNat / 0x100000 < b.toNat / 0x100000 := by
  simp only [Has, virtul_addr, sections, sectionOf]
  omega

theorem timer_mapping {va : Word} (low : va.toNat < 0x80000000) : mapping Program.timer.regions va =
    some (va, if sectionOf va = 0x0c0 then .writeBack else .nonCached) := by
  unfold sectionOf
  split
  · refine mapping_later (mapping_last (mapping_outside ?_) (Region.target_identity rfl ?_)) <;> simp <;> omega
  · by_cases io : 0x700 ≤ va.toNat / 0x100000
    · refine mapping_later (mapping_later (mapping_later (mapping_last rfl (Region.target_identity rfl ?_))))
      simp
      omega
    by_cases sdram : 0x500 ≤ va.toNat / 0x100000 ∧ va.toNat / 0x100000 < 0x600
    · refine mapping_later (mapping_later (mapping_last (mapping_outside ?_) (Region.target_identity rfl ?_))) <;> simp <;> omega
    · refine mapping_last (mapping_outside ?_) (Region.target_identity rfl ?_) <;> simp <;> omega

theorem nvi_mapping_writeBack {va : Word}
    (inside : va.toNat < 0x100000 ∨ 0x0c000000 ≤ va.toNat ∧ va.toNat < 0x0c100000) :
    mapping Program.nvi.regions va = some (va, .writeBack) := by
  rcases inside with vectors | stone
  · refine mapping_last (mapping_outside ?_) (Region.target_identity rfl ?_) <;> simp <;> omega
  · refine mapping_later (mapping_last (mapping_outside ?_) (Region.target_identity rfl ?_)) <;> simp <;> omega

theorem nvi_mapping_nonCached {va : Word} (inside : 0x71000000 ≤ va.toNat ∧ va.toNat < 0x71300000 ∨
    0x7f000000 ≤ va.toNat ∧ va.toNat < 0x7f100000 ∨ 0x50000000 ≤ va.toNat ∧ va.toNat < 0x54000000) :
    mapping Program.nvi.regions va = some (va, .nonCached) := by
  rcases inside with vic | gpio | sdram
  · refine mapping_later (mapping_later (mapping_later (mapping_last (mapping_outside ?_)
      (Region.target_identity rfl ?_)))) <;> simp <;> omega
  · refine mapping_later (mapping_later (mapping_last (mapping_outside ?_)
      (Region.target_identity rfl ?_))) <;> simp <;> omega
  · refine mapping_later (mapping_later (mapping_later (mapping_later (mapping_last rfl
      (Region.target_identity rfl ?_)))))
    simp
    omega

theorem cpsr_mapping_vectors {va : Word} (inside : va.toNat < 0x100000) :
    mapping Program.cpsr.regions va = some (0x50000000 + va, .nonCached) := by
  refine mapping_later (mapping_later (mapping_later (mapping_last rfl ?_)))
  have has : (Region.single 0 0x50000000 MMU_SECTION_NCNB).Has va := by
    simp
    omega
  have start : va - 0 = va := BitVec.sub_zero va
  rw [Region.target, if_pos has]
  exact congrArg (fun x => some (0x50000000 + x, Cache.nonCached)) start

theorem cpsr_mapping_writeBack {va : Word} (inside : 0x0c000000 ≤ va.toNat ∧ va.toNat < 0x0c100000) :
    mapping Program.cpsr.regions va = some (va, .writeBack) := by
  refine mapping_last (mapping_outside ?_) (Region.target_identity rfl ?_) <;> simp <;> omega

theorem cpsr_mapping_nonCached {va : Word} (inside : 0x50000000 ≤ va.toNat ∧ va.toNat < 0x60000000 ∨
    0x7f000000 ≤ va.toNat ∧ va.toNat < 0x7f100000) :
    mapping Program.cpsr.regions va = some (va, .nonCached) := by
  rcases inside with sdram | gpio
  · refine mapping_later (mapping_later (mapping_last (mapping_outside ?_)
      (Region.target_identity rfl ?_))) <;> simp <;> omega
  · refine mapping_later (mapping_last (mapping_outside ?_) (Region.target_identity rfl ?_)) <;> simp <;> omega

/-- The tables of no-os/timer, workspace/interrupt/NVI and no-os/interrupt/cpsr. -/
theorem create_page_table_maps (m : Bytes) :
    (∃ s, create_page_table Program.timer.regions m = some s ∧ Confined m s ∧
      ∀ va : Word, va.toNat < 0x80000000 →
        translate s.mem va = some (va, if sectionOf va = 0x0c0 then .writeBack else .nonCached)) ∧
    (∃ s, create_page_table Program.nvi.regions m = some s ∧ Confined m s ∧
      (∀ va : Word, va.toNat < 0x100000 ∨ 0x0c000000 ≤ va.toNat ∧ va.toNat < 0x0c100000 →
        translate s.mem va = some (va, .writeBack)) ∧
      ∀ va : Word, 0x71000000 ≤ va.toNat ∧ va.toNat < 0x71300000 ∨
        0x7f000000 ≤ va.toNat ∧ va.toNat < 0x7f100000 ∨ 0x50000000 ≤ va.toNat ∧ va.toNat < 0x54000000 →
        translate s.mem va = some (va, .nonCached)) ∧
    ∃ s, create_page_table Program.cpsr.regions m = some s ∧ Confined m s ∧
      (∀ va : Word, va.toNat < 0x100000 → translate s.mem va = some (0x50000000 + va, .nonCached)) ∧
      (∀ va : Word, 0x0c000000 ≤ va.toNat ∧ va.toNat < 0x0c100000 →
        translate s.mem va = some (va, .writeBack)) ∧
      ∀ va : Word, 0x50000000 ≤ va.toNat ∧ va.toNat < 0x60000000 ∨
        0x7f000000 ≤ va.toNat ∧ va.toNat < 0x7f100000 → translate s.mem va = some (va, .nonCached) := by
  refine ⟨?_, ?_, ?_⟩
  · obtain ⟨s, run, written⟩ := create_page_table_written .timer m
    exact ⟨s, run, written.confined, fun va low => written.translate (timer_mapping low)⟩
  · obtain ⟨s, run, written⟩ := create_page_table_written .nvi m
    exact ⟨s, run, written.confined, fun va inside => written.translate (nvi_mapping_writeBack inside),
      fun va inside => written.translate (nvi_mapping_nonCached inside)⟩
  · obtain ⟨s, run, written⟩ := create_page_table_written .cpsr m
    exact ⟨s, run, written.confined, fun va inside => written.translate (cpsr_mapping_vectors inside),
      fun va inside => written.translate (cpsr_mapping_writeBack inside),
      fun va inside => written.translate (cpsr_mapping_nonCached inside)⟩

/-- No create_page_table clears its table: outside its regions the descriptor is the word
that memory held there before. -/
theorem create_page_table_leftover (p : Program) (m : Bytes) :
    ∃ s, create_page_table p.regions m = some s ∧ ∀ va : Word, (∀ r ∈ p.regions, ¬ r.Has va) →
      entry s.mem (sectionOf va) = entry m (sectionOf va) ∧
        (decode (entry s.mem (sectionOf va)) = .fault ↔ entry m (sectionOf va) &&& 3 = 0) := by
  obtain ⟨s, run, written⟩ := create_page_table_written p m
  refine ⟨s, run, fun va outside => ?_⟩
  have kept : entry s.mem (sectionOf va) = entry m (sectionOf va) := by
    rw [written.entries _ (sectionOf_lt va), mapping_none (mapping_outside outside)]
    rfl
  rw [kept]
  exact ⟨rfl, decode_fault _⟩

/-- With memory that is not clear at power-up a stray access is translated. -/
theorem create_page_table_stray : ∃ s, create_page_table Program.mmu.regions (fun _ => 2) = some s ∧
    (∀ r ∈ Program.mmu.regions, ¬ r.Has 0xf0000000) ∧
    decode (entry s.mem (sectionOf 0xf0000000)) = .secdesc 0x02000000 .nonCached ∧
    translate s.mem 0xf0000000 = some (0x02000000, .nonCached) := by
  obtain ⟨s, run, written⟩ := create_page_table_written .mmu fun _ => 2
  have outside : ∀ r ∈ Program.mmu.regions, ¬ r.Has 0xf0000000 := by decide
  have held : entry s.mem (sectionOf 0xf0000000) = 0x02020202 := by
    rw [written.entries _ (sectionOf_lt _), mapping_none (mapping_outside outside)]
    rfl
  refine ⟨s, run, outside, ?_, ?_⟩
  · rw [held]
    decide
  · rw [translate, held]
    decide

end Tiny6410.Mmu
