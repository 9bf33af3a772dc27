import Tiny6410.Linux.NandPage
import Tiny6410.Lib.Bch

/-! What multi level cells keep: up to four wrong bits of a sector are put right, but not where the
test for a page that is not in use looks at data. -/
namespace Tiny6410.S3cNand

open Memory (Byte Word)
open Patch

/-- The wrong bits of a sector, each by its byte and its place in it. -/
structure Wrong (errors : List (Nat × Nat)) : Prop where
  few : errors.length ≤ 4
  once : errors.Nodup
  real : ∀ p ∈ errors, p.1 < 512 ∧ p.2 < 8

/-- The engine says that the page is free. -/
def freePage (st : Word × Word × Word) : Prop := (st.1 >>> 29) &&& 0x1 = 1

instance (st : Word × Word × Word) : Decidable (freePage st) := inferInstanceAs (Decidable (_ = _))

/-- The engine counts the wrong bits of a sector and reports them in some order. It takes for a
free page what is all ones only. -/
structure Engine4.Locates (e : Engine4) (d : List Byte) (errors : List (Nat × Nat)) : Prop where
  found : ¬ freePage (e.status (flips errors d ++ e.code d)) →
    errorCount (e.status (flips errors d ++ e.code d)) = errors.length ∧
      ((reported (e.status (flips errors d ++ e.code d))).take errors.length).Perm
        (errors.map fun p => (p.1, bitMask p.2))
  free : freePage (e.status (flips errors d ++ e.code d)) → ∀ b ∈ flips errors d, b = 0xff

/-- "4 bit error (Correctable)": the engine finds up to four wrong bits in any data. -/
def Engine4.Corrects (e : Engine4) : Prop :=
  ∀ d errors, d.length = 512 → Wrong errors → e.Locates d errors

section

variable {e : Engine4} {d : List Byte} {errors : List (Nat × Nat)}

theorem unused_of_ones (length : d.length = 512) (ones : ∀ b ∈ d, b = 0xff) : unused d = true := by
  rw [unused, List.all_eq_true]
  intro i among
  have inside : i < d.length := by
    simp only [List.mem_cons, List.not_mem_nil, or_false] at among
    omega
  rw [List.getD_eq_getElem _ _ inside]
  simpa using ones _ (List.getElem_mem inside)

/-- What becomes of a sector with up to four wrong bits. -/
theorem correct_wrong (length : d.length = 512) (wrong : Wrong errors) (located : e.Locates d errors) :
    correct_data_4bit e (flips errors d ++ e.code d) (flips errors d) =
      if unused (flips errors d) then (flips errors d, 0) else (d, (errors.length : Int)) := by
  have free : freePage (e.status (flips errors d ++ e.code d)) → unused (flips errors d) = true := fun shown =>
    unused_of_ones (by rw [length_flips, length]) (located.free shown)
  have either : ((e.status (flips errors d ++ e.code d)).1 >>> 29) &&& 0x1 = 1 ∨ unused (flips errors d) ↔
      unused (flips errors d) = true := ⟨fun either => either.elim free id, .inr⟩
  simp only [correct_data_4bit, either]
  split
  · rfl
  · rename_i data
    obtain ⟨count, places⟩ := located.found (mt free data)
    have found := patch_patch (l := d) ((List.reverse_perm _).trans places)
    rw [count, if_pos wrong.few]
    exact congrArg (·, (errors.length : Int)) found

theorem length_mecc (e : Engine4) (d : List Byte) : (e.code d).length = 8 := rfl

theorem flatMap_inj {f g : Nat → List Byte} (m : Nat) (lengths : ∀ j < m, (f j).length = (g j).length) :
    (List.range m).flatMap f = (List.range m).flatMap g ↔ ∀ j < m, f j = g j := by
  induction m with
  | zero => simp
  | succ m ih =>
    replace ih := ih fun j among => lengths j (Nat.lt_succ_of_lt among)
    simp only [List.range_succ, List.flatMap_append, List.flatMap_singleton, Nat.lt_succ_iff_lt_or_eq]
    constructor
    · intro same j
      obtain ⟨before, last⟩ := List.append_inj' same (lengths m (Nat.lt_succ_self m))
      rintro (among | rfl)
      · exact ih.mp before j among
      · exact last
    · intro all
      rw [ih.mpr fun j among => all j (.inl among), all m (.inr rfl)]

/-- The spare area with all codes. -/
def codedOob (code : List Byte → List Byte) (buf oob_poi : List Byte) : List Byte :=
  oob_poi.take 32 ++ (List.range 4).flatMap (fun j => code (sector buf j))

theorem length_codedOob {buf oob_poi : List Byte} (oob : oob_poi.length = 64) :
    (codedOob e.code buf oob_poi).length = 64 := by
  simp only [codedOob, List.length_append, List.length_take, List.length_flatMap, length_mecc, oob]
  rfl

theorem kept_page_4bit {buf oob_poi : List Byte} (page : buf.length = 2048) (oob : oob_poi.length = 64) :
    nand_write_page (s3c_nand_write_page_4bit e.code buf oob_poi) erased = buf ++ codedOob e.code buf oob_poi := by
  have codes : ((List.range 4).flatMap fun j => e.code (sector buf j)).length = 32 := by
    simp [List.length_flatMap, length_mecc]
  have length := @length_codedOob e buf _ oob
  refine erased_write (by rw [List.length_append, page, length]) ?_
  obtain ⟨calc', latch⟩ := @writeSectors_eq mlc e.code rfl 4 buf [] ⟨erased, [], 0, [], true⟩
  have placed := place_range' 32 ((List.range 4).flatMap fun j => e.code (sector buf j)) oob_poi
    (by rw [codes, oob])
  rw [codes, List.drop_of_length_le (by omega), List.append_nil] at placed
  have whole : (s3c_nand_write_page_4bit e.code buf oob_poi ⟨erased, [], 0, [], true⟩).2.latch =
      (writeSectors mlc e.code 4 buf [] ⟨erased, [], 0, [], true⟩).2.latch ++
        (place (List.range' 32 32) (writeSectors mlc e.code 4 buf [] ⟨erased, [], 0, [], true⟩).1 oob_poi).take 64 :=
    rfl
  rw [whole, calc', List.nil_append, placed, latch, List.take_of_length_le (by omega), List.nil_append]
  exact congrArg _ (List.take_of_length_le (Nat.le_of_eq length))

theorem code_in_oob {buf oob_poi : List Byte} (oob : oob_poi.length = 64) {j : Nat} (among : j < 4) :
    ((codedOob e.code buf oob_poi).drop (32 + j * 8)).take 8 = e.code (sector buf j) := by
  have front : (oob_poi.take 32).length = 32 := by rw [List.length_take, oob]; rfl
  rw [codedOob, ← List.drop_drop, List.drop_left' front]
  exact take_drop_flatMap (fun j _ => length_mecc e (sector buf j)) among

theorem read_page_4bit_eq (e : Engine4) (failed : Nat) (n : Nand) :
    let oob_poi := (n.cells.drop 2048).take 64
    (s3c_nand_read_page_4bit e failed n).1 =
        (List.range 4).flatMap (fun j => (outcome mlc (decodeSector e) oob_poi n.cells j).1) ∧
      (s3c_nand_read_page_4bit e failed n).2.2.1 =
        failed + (List.range 4).countP fun j => (outcome mlc (decodeSector e) oob_poi n.cells j).2 = -1 :=
  readSectors_eq (decodeSector e) rfl _ 4 failed _ (Nat.le_refl 4)

/-- A page in which bits have turned over since. -/
def damaged (errors : Nat → List (Nat × Nat)) (cells : List Byte) : List Byte :=
  (List.range 4).flatMap (fun j => flips (errors j) (sector cells j)) ++ cells.drop 2048

section

variable {cells : List Byte} (page : cells.length = 2048 + 64) (errors : Nat → List (Nat × Nat))

include page

theorem length_flips_sector {j : Nat} (among : j < 4) : (flips (errors j) (sector cells j)).length = 512 := by
  rw [length_flips, sector, List.length_take, List.length_drop]
  omega

theorem length_damaged_sectors : ((List.range 4).flatMap fun j => flips (errors j) (sector cells j)).length = 2048 := by
  rw [List.length_flatMap, List.map_congr_left fun j mem => length_flips_sector page errors (List.mem_range.mp mem)]
  rfl

theorem sector_damaged {j : Nat} (among : j < 4) :
    sector (damaged errors cells) j = flips (errors j) (sector cells j) := by
  rw [damaged, sector_append (length_damaged_sectors page errors) _ among, sector, Nat.mul_comm]
  exact take_drop_flatMap (fun j => length_flips_sector page errors) among

theorem drop_damaged : (damaged errors cells).drop 2048 = cells.drop 2048 :=
  List.drop_left' (length_damaged_sectors page errors)

end

/-- What is read of a sector in which bits have turned over. -/
theorem outcome_damaged (corrects : e.Corrects) {buf oob_poi : List Byte} (page : buf.length = 2048)
    (oob : oob_poi.length = 64) {errors : Nat → List (Nat × Nat)} {j : Nat} (among : j < 4)
    (wrong : Wrong (errors j)) :
    outcome mlc (decodeSector e) (codedOob e.code buf oob_poi)
        (damaged errors (buf ++ codedOob e.code buf oob_poi)) j =
      if unused (flips (errors j) (sector buf j)) then (flips (errors j) (sector buf j), 0)
      else (sector buf j, ((errors j).length : Int)) := by
  have whole : (buf ++ codedOob e.code buf oob_poi).length = 2048 + 64 := by
    rw [List.length_append, page, length_codedOob oob]
  have code : ((codedOob e.code buf oob_poi).drop (mlc.eccpos.getD 0 0 + j * mlc.bytes)).take mlc.bytes =
      e.code (sector buf j) := code_in_oob oob among
  have length := length_sector page among
  rw [outcome, code, sector_damaged whole errors among, sector_append page _ among]
  exact correct_wrong length wrong (corrects _ _ length wrong)

/-- What nand_write_page puts into an erased page comes back from it, with up to four wrong bits in
each sector, exactly if no sector that has them is taken for one not in use. The page is not
counted as failed in either case. -/
theorem page_4bit_round_trip_iff (corrects : e.Corrects) (buf oob_poi : List Byte) (page : buf.length = 2048)
    (oob : oob_poi.length = 64) (errors : Nat → List (Nat × Nat)) (wrong : ∀ j < 4, Wrong (errors j)) (failed : Nat)
    (n : Nand)
    (cells : n.cells = damaged errors (nand_write_page (s3c_nand_write_page_4bit e.code buf oob_poi) erased)) :
    ((s3c_nand_read_page_4bit e failed n).1 = buf ↔
        ∀ j < 4, errors j = [] ∨ unused (flips (errors j) (sector buf j)) = false) ∧
      (s3c_nand_read_page_4bit e failed n).2.2.1 = failed := by
  have kept := kept_page_4bit (e := e) page oob
  have whole : (buf ++ codedOob e.code buf oob_poi).length = 2048 + 64 := by
    rw [List.length_append, page, length_codedOob oob]
  rw [kept] at cells
  have spare : n.cells.drop 2048 = codedOob e.code buf oob_poi := by
    rw [cells, drop_damaged whole, ← page, List.drop_left]
  have outcomes : ∀ j < 4, outcome mlc (decodeSector e) (codedOob e.code buf oob_poi) n.cells j =
      if unused (flips (errors j) (sector buf j)) then (flips (errors j) (sector buf j), 0)
      else (sector buf j, ((errors j).length : Int)) := fun j among =>
    cells ▸ outcome_damaged corrects page oob among (wrong j among)
  obtain ⟨buf', failures⟩ := read_page_4bit_eq e failed n
  rw [spare, List.take_of_length_le (Nat.le_of_eq (length_codedOob oob))] at buf' failures
  constructor
  · have sectors : buf = (List.range 4).flatMap (sector buf) := by
      rw [flatMap_sector, List.take_of_length_le (by omega)]
    have lengths : ∀ j < 4,
        (outcome mlc (decodeSector e) (codedOob e.code buf oob_poi) n.cells j).1.length = (sector buf j).length := by
      intro j among
      rw [outcomes j among]
      split <;> simp
    have each : ∀ j < 4, (outcome mlc (decodeSector e) (codedOob e.code buf oob_poi) n.cells j).1 = sector buf j ↔
        errors j = [] ∨ unused (flips (errors j) (sector buf j)) = false := by
      intro j among
      have real : ∀ p ∈ errors j, p.1 < (sector buf j).length ∧ p.2 < 8 := by
        rw [length_sector page among]
        exact (wrong j among).real
      rw [outcomes j among]
      split
      · rename_i taken
        rw [flips_eq_self_iff (wrong j among).once real]
        simp [taken]
      · rename_i taken
        simp [taken]
    have parts := flatMap_inj 4 lengths
    rw [← sectors, ← buf'] at parts
    exact parts.trans (forall₂_congr each)
  · rw [failures, Nat.add_eq_left, List.countP_eq_zero]
    intro j mem
    rw [outcomes j (List.mem_range.mp mem)]
    split
    · simp
    · simp only [decide_eq_true_eq]
      omega

end

/-! An engine with the code of 52 bits that corrects four: each bit of a sector has its number in
the field of 2 ^ 13 elements. -/

abbrev Field13 := GaloisField 2 13

abbrev Place := Fin 512 × Fin 8

theorem card_field : Nat.card Field13 = 2 ^ 13 := GaloisField.card 2 13 (by decide)

theorem exists_number : Nonempty (Place ↪ Field13ˣ) := by
  have := Fintype.ofFinite Field13ˣ
  refine Function.Embedding.nonempty_of_card_le ?_
  rw [← Nat.card_eq_fintype_card (α := Field13ˣ), Nat.card_units, card_field]
  simp

theorem exists_register : Nonempty ((Fin 4 → Field13) ↪ Word × Word) := by
  have := Fintype.ofFinite (Fin 4 → Field13)
  have words : Nat.card Word = 2 ^ 32 := by rw [Nat.card_congr BitVec.equivFin.toEquiv, Nat.card_fin]
  refine Function.Embedding.nonempty_of_card_le ?_
  simp only [← Nat.card_eq_fintype_card, Nat.card_fun, Nat.card_prod, card_field, words]
  simp

noncomputable def number : Place ↪ Field13ˣ := exists_number.some

noncomputable def register : (Fin 4 → Field13) ↪ Word × Word := exists_register.some

/-- The bits that are set. -/
def ones (d : List Byte) : Finset Place := {p | bitAt d (p.1, p.2)}

noncomputable def syndrome (places : Finset Place) : Fin 4 → Field13 := Bch.syndrome (fun p => ↑(number p)) 4 places

noncomputable def parity (d : List Byte) : Word × Word := register (syndrome (ones d))

def bytesOf2 (w : Word × Word) : List Byte := bytesOf w.1 ++ bytesOf w.2

/-- How the engine reports wrong bits. -/
def report (errors : List (Nat × Nat)) : Word × Word × Word :=
  let byte k := (errors.getD k (0, 0)).1
  let mask k := 2 ^ (errors.getD k (0, 0)).2
  (BitVec.ofNat 32 (errors.length * 2 ^ 26 + byte 1 * 2 ^ 16 + byte 0), BitVec.ofNat 32 (byte 3 * 2 ^ 16 + byte 2),
    BitVec.ofNat 32 (mask 3 * 2 ^ 24 + mask 2 * 2 ^ 16 + mask 1 * 2 ^ 8 + mask 0))

def Blank (seen : List Byte) : Prop := ∀ b ∈ seen, b = 0xff

open Classical in
/-- It looks for wrong bits that explain the parity. -/
noncomputable def bch : Engine4 where
  mecc := parity
  status seen :=
    if Blank seen then (0x20000000, 0, 0)
    else if found : ∃ errors, Wrong errors ∧ bytesOf2 (parity (flips errors (seen.take 512))) = seen.drop 512 then
      report found.choose
    else (0x14000000, 0, 0)

section

variable {errors found : List (Nat × Nat)} {d : List Byte}

theorem Wrong.getD (wrong : Wrong errors) (k : Nat) :
    (errors.getD k (0, 0)).1 < 512 ∧ (errors.getD k (0, 0)).2 < 8 := by
  rcases Nat.lt_or_ge k errors.length with inside | beyond
  · rw [List.getD_eq_getElem _ _ inside]
    exact wrong.real _ (List.getElem_mem inside)
  · rw [List.getD_eq_default _ _ beyond]
    exact ⟨by decide, by decide⟩

theorem toNat_field (w mask : Word) (shift bits : Nat) (low : mask.toNat = 2 ^ bits - 1) :
    ((w >>> shift) &&& mask).toNat = w.toNat / 2 ^ shift % 2 ^ bits := by
  rw [BitVec.toNat_and, low, Nat.and_two_pow_sub_one_eq_mod, BitVec.toNat_ushiftRight, Nat.shiftRight_eq_div_pow]

theorem report_low (wrong : Wrong errors) :
    errorCount (report errors) = errors.length ∧ ¬ freePage (report errors) := by
  have few := wrong.few
  have first := (wrong.getD 0).1
  have second := (wrong.getD 1).1
  constructor
  · rw [errorCount, toNat_field _ _ 26 3 rfl]
    simp only [report, BitVec.toNat_ofNat]
    omega
  · intro free
    have flag := congrArg BitVec.toNat free
    have one : (1 : Word).toNat = 1 := rfl
    rw [toNat_field _ _ 29 1 rfl, one] at flag
    simp only [report, BitVec.toNat_ofNat] at flag
    omega

theorem mask_eq {w : Word} {shift bit : Nat} (small : bit < 8) (is : w.toNat / 2 ^ shift % 2 ^ 8 = 2 ^ bit) :
    (w >>> shift).setWidth 8 = bitMask bit := by
  have most : 2 ^ bit ≤ 2 ^ 7 := Nat.pow_le_pow_right (by decide) (Nat.le_of_lt_succ small)
  apply BitVec.eq_of_toNat_eq
  rw [BitVec.toNat_setWidth, BitVec.toNat_ushiftRight, Nat.shiftRight_eq_div_pow, is, bitMask, BitVec.toNat_shiftLeft]
  have one : (1 : Byte).toNat = 1 := rfl
  rw [one, Nat.one_shiftLeft, Nat.mod_eq_of_lt (by omega)]

theorem report_places (wrong : Wrong errors) :
    (reported (report errors)).take errors.length = errors.map fun p => (p.1, bitMask p.2) := by
  have few := wrong.few
  have inside := fun k => (wrong.getD k).1
  have small := fun k => (wrong.getD k).2
  have range (k : Nat) : 0 < 2 ^ (errors.getD k (0, 0)).2 ∧ 2 ^ (errors.getD k (0, 0)).2 ≤ 2 ^ 7 :=
    ⟨Nat.two_pow_pos _, Nat.pow_le_pow_right (by decide) (Nat.le_of_lt_succ (small k))⟩
  have first := range 0
  have second := range 1
  have third := range 2
  have fourth := range 3
  have place {w : Word} {shift n : Nat} (is : w.toNat / 2 ^ shift % 2 ^ 10 = n) :
      ((w >>> shift) &&& 0x3ff).toNat = n := (toNat_field w 0x3ff shift 10 rfl).trans is
  have place0 {w : Word} {n : Nat} (is : w.toNat % 2 ^ 10 = n) : (w &&& 0x3ff).toNat = n := by
    rw [← BitVec.ushiftRight_zero w]
    exact place (by rwa [pow_zero, Nat.div_one])
  have mask0 {w : Word} {bit : Nat} (small : bit < 8) (is : w.toNat % 2 ^ 8 = 2 ^ bit) :
      w.setWidth 8 = bitMask bit := by
    rw [← BitVec.ushiftRight_zero w]
    exact mask_eq small (by rwa [pow_zero, Nat.div_one])
  have all : reported (report errors) =
      (List.range 4).map fun k => ((errors.getD k (0, 0)).1, bitMask (errors.getD k (0, 0)).2) := by
    refine congrArg₂ List.cons (Prod.ext (place0 ?_) (mask0 (small 0) ?_))
      (congrArg₂ List.cons (Prod.ext (place ?_) (mask_eq (small 1) ?_))
        (congrArg₂ List.cons (Prod.ext (place0 ?_) (mask_eq (small 2) ?_))
          (congrArg₂ List.cons (Prod.ext (place ?_) (mask_eq (small 3) ?_)) rfl)))
    all_goals
      have low := inside 0
      have next := inside 1
      have high := inside 2
      have last := inside 3
      simp only [report, BitVec.toNat_ofNat]
      omega
  refine List.ext_getElem (by rw [all]; simpa using few) fun k below _ => ?_
  simp only [all, List.getElem_take, List.getElem_map, List.getElem_range]
  rw [List.getD_eq_getElem]

theorem bytesOf2_injective {v w : Word × Word} (same : bytesOf2 v = bytesOf2 w) : v = w := by
  have one {v w : Word} (same : bytesOf v = bytesOf w) : v = w := by
    simp only [bytesOf, List.cons.injEq, and_true, ← BitVec.toNat_inj, BitVec.toNat_setWidth, BitVec.toNat_ushiftRight,
      Nat.shiftRight_eq_div_pow] at same
    obtain ⟨b0, b1, b2, b3⟩ := same
    apply BitVec.eq_of_toNat_eq
    omega
  obtain ⟨low, high⟩ := List.append_inj same rfl
  exact Prod.ext (one low) (one high)

/-- The places of a sector that are among the wrong bits. -/
def placesOf (errors : List (Nat × Nat)) : Finset Place := {p | ((p.1 : Nat), (p.2 : Nat)) ∈ errors}

theorem mem_placesOf {p : Place} : p ∈ placesOf errors ↔ ((p.1 : Nat), (p.2 : Nat)) ∈ errors := by
  rw [placesOf, Finset.mem_filter_univ]

theorem mem_ones {p : Place} : p ∈ ones d ↔ bitAt d (p.1, p.2) := by
  rw [ones, Finset.mem_filter_univ]

-- Sets of so many places are not to be evaluated.
attribute [irreducible] ones placesOf

theorem ones_flips (length : d.length = 512) (wrong : Wrong errors) :
    ones (flips errors d) = symmDiff (ones d) (placesOf errors) := by
  ext p
  have turned := bitAt_flips (p := ((p.1 : Nat), (p.2 : Nat))) wrong.once (by rw [length]; exact p.1.isLt) p.2.isLt
  rw [Finset.mem_symmDiff, mem_ones, mem_ones, mem_placesOf, turned]
  cases bitAt d (p.1, p.2) <;> simp

theorem card_placesOf (wrong : Wrong errors) : (placesOf errors).card ≤ 4 := by
  have listed : ∀ p ∈ placesOf errors, ((p.1 : Nat), (p.2 : Nat)) ∈ errors.toFinset := fun p mem =>
    List.mem_toFinset.mpr (mem_placesOf.mp mem)
  have apart : ∀ p ∈ placesOf errors, ∀ q ∈ placesOf errors,
      ((p.1 : Nat), (p.2 : Nat)) = ((q.1 : Nat), (q.2 : Nat)) → p = q := fun p _ q _ same =>
    Prod.ext (Fin.ext (Prod.mk.inj same).1) (Fin.ext (Prod.mk.inj same).2)
  exact (Finset.card_le_card_of_injOn _ listed apart).trans ((List.toFinset_card_le errors).trans wrong.few)

/-- Other bits than those that are wrong do not explain the parity. -/
theorem perm_of_parity (length : d.length = 512) (wrong : Wrong errors) (wrong' : Wrong found)
    (same : parity (flips found (flips errors d)) = parity d) : found.Perm errors := by
  have sums := register.injective same
  rw [ones_flips (by rw [length_flips, length]) wrong', ones_flips length wrong, syndrome, Bch.syndrome_symmDiff,
    Bch.syndrome_symmDiff, syndrome, add_assoc, add_eq_left] at sums
  have equal : placesOf found = placesOf errors := by
    refine Bch.syndrome_injective (fun p q same => number.injective (Units.ext same)) (fun p => (number p).ne_zero)
      (card_placesOf wrong') (card_placesOf wrong) ?_
    exact funext fun k => (CharTwo.add_eq_zero.mp (congrFun sums k)).symm
  refine (List.perm_ext_iff_of_nodup wrong'.once wrong.once).mpr fun p => ?_
  have both (inside : p.1 < 512 ∧ p.2 < 8) : p ∈ found ↔ p ∈ errors := by
    have place := Finset.ext_iff.mp equal (⟨p.1, inside.1⟩, ⟨p.2, inside.2⟩)
    rwa [mem_placesOf, mem_placesOf] at place
  exact ⟨fun mem => (both (wrong'.real p mem)).mp mem, fun mem => (both (wrong.real p mem)).mpr mem⟩

theorem bch_corrects : bch.Corrects := by
  intro d errors length wrong
  have read : (flips errors d ++ bch.code d).take 512 = flips errors d :=
    List.take_left' (by rw [length_flips, length])
  have stored : (flips errors d ++ bch.code d).drop 512 = bytesOf2 (parity d) :=
    List.drop_left' (by rw [length_flips, length])
  by_cases blank : Blank (flips errors d ++ bch.code d)
  · have status : bch.status (flips errors d ++ bch.code d) = (0x20000000, 0, 0) := if_pos blank
    refine ⟨fun used => absurd ?_ used, fun _ b mem => blank b (List.mem_append_left _ mem)⟩
    rw [status]
    rfl
  · have explained : ∃ found, Wrong found ∧ bytesOf2 (parity (flips found ((flips errors d ++ bch.code d).take 512))) =
        (flips errors d ++ bch.code d).drop 512 :=
      ⟨errors, wrong, by rw [read, stored, flips_flips (List.Perm.refl errors)]⟩
    obtain ⟨found, status, wrong', same⟩ : ∃ found, bch.status (flips errors d ++ bch.code d) = report found ∧
        Wrong found ∧ bytesOf2 (parity (flips found ((flips errors d ++ bch.code d).take 512))) =
          (flips errors d ++ bch.code d).drop 512 :=
      ⟨_, (if_neg blank).trans (dif_pos explained), explained.choose_spec⟩
    rw [read, stored] at same
    have perm := perm_of_parity length wrong wrong' (bytesOf2_injective same)
    obtain ⟨count, used⟩ := report_low wrong'
    constructor
    · intro _
      rw [status, count, ← perm.length_eq, report_places wrong']
      exact ⟨rfl, perm.map _⟩
    · rw [status]
      exact fun free => absurd free used

end

/-- Four wrong bits in the first sector, two of them in one byte, and one in the second. -/
def fiveErrors : Nat → List (Nat × Nat)
  | 0 => [(3, 4), (3, 0), (100, 7), (511, 2)]
  | 1 => [(0, 0)]
  | _ => []

theorem fiveErrors_wrong (j : Nat) : Wrong (fiveErrors j) := by
  match j with
  | 0 | 1 | j + 2 => exact ⟨by simp [fiveErrors], by simp [fiveErrors], by simp [fiveErrors]⟩

/-- The errors in a page of sevens are put right, those in a page of ones are not. -/
theorem page_4bit_round_trip_iff_five :
    let read (b : Byte) := s3c_nand_read_page_4bit bch 0 ⟨damaged fiveErrors (nand_write_page
      (s3c_nand_write_page_4bit bch.code (List.replicate 2048 b) (List.replicate 64 0xff)) erased), [], 0, [], true⟩
    (read 7).1 = List.replicate 2048 7 ∧ (read 0xff).1 ≠ List.replicate 2048 0xff := by
  intro read
  have trip (b : Byte) := (page_4bit_round_trip_iff bch_corrects (List.replicate 2048 b) (List.replicate 64 0xff)
    List.length_replicate List.length_replicate fiveErrors (fun j _ => fiveErrors_wrong j) 0 ⟨damaged fiveErrors
      (nand_write_page (s3c_nand_write_page_4bit bch.code (List.replicate 2048 b) (List.replicate 64 0xff)) erased), [],
      0, [], true⟩ rfl).1
  have each (b : Byte) : ∀ j < 4, sector (List.replicate 2048 b) j = List.replicate 512 b := fun j among => by
    rw [sector, List.drop_replicate, List.take_replicate, Nat.min_eq_left (by omega)]
  constructor
  · refine (trip 7).mpr fun j among => .inr ?_
    rw [each 7 j among]
    rcases j with _ | _ | j <;> rfl
  · intro right
    have first := (trip 0xff).mp right 0 (by decide)
    rw [each 0xff 0 (by decide)] at first
    rcases first with none | used
    · cases none
    · exact absurd used (by decide)

end Tiny6410.S3cNand
