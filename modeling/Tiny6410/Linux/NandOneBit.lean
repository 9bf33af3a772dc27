import Tiny6410.Lib.LineParity
import Tiny6410.Linux.NandPage

/-! What single level cells keep: a page comes back with one wrong bit in each sector. -/
namespace Tiny6410.S3cNand

open Memory (Byte Word)
open Patch

/-- At most one bit has changed. -/
def Decays (stored read : List Byte) : Prop :=
  read = stored ∨ ∃ i bit, i < stored.length ∧ bit < 8 ∧ read = xorAt stored i (bitMask bit)

/-- The results that regs-nand.h names: no error, one wrong bit with its place, and a wrong bit in
the code, which is not taken for one in the data. -/
structure Engine1.Documented (e : Engine1) : Prop where
  none : ∀ d, d.length ≤ 2048 → mainError (e.status d (e.code d)) = 0
  one : ∀ d i bit, d.length ≤ 2048 → i < d.length → bit < 8 →
    mainError (e.status (xorAt d i (bitMask bit)) (e.code d)) = 1 ∧
      errorByte (e.status (xorAt d i (bitMask bit)) (e.code d)) = i ∧
      errorBit (e.status (xorAt d i (bitMask bit)) (e.code d)) = bit
  area : ∀ d i bit, d.length ≤ 2048 → i < 4 → bit < 8 → mainError (e.status d (xorAt (e.code d) i (bitMask bit))) ≠ 1

/-! An engine that computes line parities. -/

/-- The code from the two registers. -/
def fromRegisters (meccdata0 meccdata1 : Word) : Word :=
  (meccdata1 >>> 16).setWidth 8 ++ (meccdata1.setWidth 8 : Byte) ++ ((meccdata0 >>> 16).setWidth 8 : Byte) ++
    (meccdata0.setWidth 8 : Byte)

def errorOf : LineParity.Verdict → Word
  | .same => 0
  | .one p => BitVec.ofNat 32 (16 * p + 1)
  | .other => 3

def parityEngine : Engine1 where
  mecc0 := LineParity.code 16
  eccerr0 seen data0 data1 := errorOf (LineParity.verdict 16 (LineParity.code 16 seen ^^^ fromRegisters data0 data1))

theorem fromRegisters_bytes (b0 b1 b2 b3 : Byte) :
    fromRegisters (meccdata0 [b0, b1, b2, b3]) (meccdata1 [b0, b1, b2, b3]) = b3 ++ b2 ++ b1 ++ b0 := by
  have low : ∀ x y : Byte, (y.setWidth 32 <<< 16 ||| x.setWidth 32 : Word).setWidth 8 = x := by
    intro x y
    ext i small
    simp
  have high : ∀ x y : Byte, ((y.setWidth 32 <<< 16 ||| x.setWidth 32 : Word) >>> 16).setWidth 8 = y := by
    intro x y
    ext i small
    have above : x.getLsbD (16 + i) = false := BitVec.getLsbD_of_ge x _ (by omega)
    have inside : 16 + i < 32 ∧ i < 32 := by omega
    simp [small, above, inside, BitVec.getLsbD_eq_getElem]
  simp only [fromRegisters, meccdata0, meccdata1, List.getD_cons_succ, List.getD_cons_zero, low, high]

theorem fromRegisters_code (w : Word) : fromRegisters (meccdata0 (bytesOf w)) (meccdata1 (bytesOf w)) = w := by
  rw [bytesOf, fromRegisters_bytes]
  ext i small
  simp only [BitVec.getElem_append, BitVec.getElem_setWidth, BitVec.getLsbD_ushiftRight]
  rw [← BitVec.getLsbD_eq_getElem]
  split
  · rfl
  · split
    · congr 1; omega
    · split
      · congr 1; omega
      · congr 1; omega

theorem errorOf_one {i bit : Nat} (among : i < 2048) (small : bit < 8) :
    mainError (errorOf (.one (8 * i + bit))) = 1 ∧ errorByte (errorOf (.one (8 * i + bit))) = i ∧
      errorBit (errorOf (.one (8 * i + bit))) = bit := by
  have whole : (errorOf (.one (8 * i + bit))).toNat = 128 * i + 16 * bit + 1 := by
    rw [errorOf, BitVec.toNat_ofNat, Nat.mod_eq_of_lt (by omega)]
    omega
  have kind : (3 : Nat) = 2 ^ 2 - 1 := rfl
  have bytes : (0x7ff : Nat) = 2 ^ 11 - 1 := rfl
  have bits : (7 : Nat) = 2 ^ 3 - 1 := rfl
  refine ⟨BitVec.eq_of_toNat_eq ?_, ?_, ?_⟩
  · rw [mainError, BitVec.toNat_and, whole]
    have one : (1 : Word).toNat = 1 := rfl
    exact (Nat.and_two_pow_sub_one_eq_mod _ 2).trans (by omega)
  · rw [errorByte, BitVec.toNat_and, BitVec.toNat_ushiftRight, whole, Nat.shiftRight_eq_div_pow]
    exact (Nat.and_two_pow_sub_one_eq_mod _ 11).trans (by omega)
  · rw [errorBit, BitVec.toNat_and, BitVec.toNat_ushiftRight, whole, Nat.shiftRight_eq_div_pow]
    exact (Nat.and_two_pow_sub_one_eq_mod _ 3).trans (by omega)

theorem bytesOf_xor (w : Word) (m : Byte) {i : Nat} (among : i < 4) :
    xorAt (bytesOf w) i m = bytesOf (w ^^^ m.setWidth 32 <<< (8 * i)) := by
  have parts : ∀ (m : Byte) (i j : Fin 4),
      ((m.setWidth 32 <<< (8 * i.val) : Word) >>> (8 * j.val)).setWidth 8 = if i = j then m else 0 := by
    decide +kernel
  have whole : ∀ x : Word, bytesOf x = List.ofFn fun j : Fin 4 => (x >>> (8 * j.val)).setWidth 8 := fun x => by
    simp [bytesOf, List.ofFn_succ]
  rw [whole, whole]
  refine List.ext_getElem? fun k => ?_
  rw [getElem?_xorAt]
  by_cases inside : k < 4
  · rw [List.getElem?_ofFn, List.getElem?_ofFn, dif_pos inside, dif_pos inside, BitVec.ushiftRight_xor_distrib,
      BitVec.setWidth_xor, parts m ⟨i, among⟩ ⟨k, inside⟩]
    by_cases here : i = k
    · simp [here]
    · simp [here]
  · rw [List.getElem?_ofFn, List.getElem?_ofFn, dif_neg inside, dif_neg inside]
    rfl

/-- A wrong bit of the code alone. -/
theorem spoilt_code (w : Word) {i bit : Nat} (among : i < 4) (small : bit < 8) :
    LineParity.verdict 16 (w ^^^ fromRegisters (meccdata0 (xorAt (bytesOf w) i (bitMask bit)))
      (meccdata1 (xorAt (bytesOf w) i (bitMask bit)))) = .other := by
  have single : ∀ (i : Fin 4) (bit : Fin 8),
      LineParity.verdict 16 ((bitMask bit.val).setWidth 32 <<< (8 * i.val)) = .other := by
    decide
  rw [bytesOf_xor w _ among, fromRegisters_code, ← BitVec.xor_assoc, BitVec.xor_self, BitVec.zero_xor]
  exact single ⟨i, among⟩ ⟨bit, small⟩

theorem parity_code (d : List Byte) : parityEngine.code d = bytesOf (LineParity.code 16 d) := rfl

theorem parity_status (seen read_ecc : List Byte) : parityEngine.status seen read_ecc =
    errorOf (LineParity.verdict 16 (LineParity.code 16 seen ^^^ fromRegisters (meccdata0 read_ecc) (meccdata1 read_ecc))) := rfl

theorem parityEngine_documented : parityEngine.Documented where
  none d _ := by
    rw [parity_status, parity_code, fromRegisters_code, LineParity.verdict_same]
    rfl
  one d i bit short inside small := by
    rw [parity_status, parity_code, fromRegisters_code, bitMask,
      LineParity.verdict_xorAt d inside small (by decide) (by omega)]
    exact errorOf_one (by omega) small
  area d i bit _ among small := by
    rw [parity_status, parity_code, spoilt_code _ among small]
    decide

/-! One page. -/

section

variable {e : Engine1}

theorem Decays.length {stored read : List Byte} (decays : Decays stored read) : read.length = stored.length := by
  rcases decays with rfl | ⟨i, bit, -, -, rfl⟩
  · rfl
  · exact length_xorAt

/-- The data may be followed by what the engine does not see. -/
theorem correct_decayed (documented : e.Documented) {d read : List Byte} (rest : List Byte) (short : d.length ≤ 2048)
    (decays : Decays d read) :
    (correct_data_1bit e read (read ++ rest) (e.code d)).1 = d ++ rest ∧
      (correct_data_1bit e read (read ++ rest) (e.code d)).2 ≠ -1 := by
  unfold correct_data_1bit
  rcases decays with rfl | ⟨i, bit, inside, small, rfl⟩
  · simp [documented.none read short]
  · obtain ⟨kind, byte, place⟩ := documented.one d i bit short inside small
    have back : xorAt (xorAt d i (bitMask bit) ++ rest) i (bitMask bit) = d ++ rest := by
      rw [xorAt_append_left (by rwa [length_xorAt]), xorAt_xorAt]
    simp [kind, byte, place, back]

theorem correct_spoilt (documented : e.Documented) {d : List Byte} (dat : List Byte) (short : d.length ≤ 2048)
    {i bit : Nat} (inside : i < 4) (small : bit < 8) :
    (correct_data_1bit e d dat (xorAt (e.code d) i (bitMask bit))).1 = dat := by
  simp only [correct_data_1bit, if_neg (documented.area d i bit short inside small)]
  split
  · rfl
  · rfl

theorem length_code (e : Engine1) (d : List Byte) : (e.code d).length = 4 := rfl

/-- One wrong bit in the spare area is put right unless the marker of JFFS2 is there. -/
theorem spare_recovers (documented : e.Documented) {spare spare' secc' : List Byte} (length : spare.length = 60)
    (length' : spare'.length = 60) (decays : Decays (spare ++ e.code spare) (spare' ++ secc'))
    (marked : jffs2 (spare' ++ secc') = true → spare' ++ secc' = spare ++ e.code spare) :
    (if jffs2 (spare' ++ secc') then spare' ++ secc'
      else (correct_data_1bit e spare' (spare' ++ secc') secc').1).take 60 = spare := by
  have short : spare.length ≤ 2048 := by omega
  have first : ∀ rest : List Byte, (spare ++ rest).take 60 = spare := fun rest => by
    rw [← length, List.take_left]
  split
  · rename_i marker
    rw [marked marker, first]
  · rcases decays with same | ⟨i, bit, inside, small, changed⟩
    · obtain ⟨rfl, rfl⟩ := List.append_inj same (by omega)
      rw [(correct_decayed documented _ short (.inl rfl)).1, first]
    · by_cases front : i < spare.length
      · rw [xorAt_append_left front] at changed
        obtain ⟨rfl, rfl⟩ := List.append_inj changed (by rw [length_xorAt]; omega)
        rw [(correct_decayed documented _ short (.inr ⟨i, bit, front, small, rfl⟩)).1, first]
      · rw [xorAt_append_right (Nat.le_of_not_lt front)] at changed
        obtain ⟨rfl, rfl⟩ := List.append_inj changed (by omega)
        rw [List.length_append, length_code] at inside
        rw [correct_spoilt documented _ short (by omega) small, first]

/-- The spare area up to the code of itself. -/
def spareOf (code : List Byte → List Byte) (buf oob_poi : List Byte) : List Byte :=
  (oob_poi.take 40 ++ (List.range 4).flatMap (fun j => code (sector buf j)) ++ oob_poi.drop 56).take 60

theorem length_codes (buf : List Byte) : ((List.range 4).flatMap fun j => e.code (sector buf j)).length = 16 := by
  simp [List.length_flatMap, length_code]

theorem length_spareOf {buf oob_poi : List Byte} (oob : oob_poi.length = 64) : (spareOf e.code buf oob_poi).length = 60 := by
  simp only [spareOf, List.length_take, List.length_append, List.length_drop, length_codes, oob]
  rfl

theorem writeSpare_latch {oob_poi : List Byte} (oob : oob_poi.length = 64) (n : Nand) :
    (writeSpare slc e.code oob_poi n).2.latch = n.latch ++ (oob_poi.take 60 ++ e.code (oob_poi.take 60)) := by
  have placed := place_range' 60 (e.code (oob_poi.take 60)) oob_poi (by rw [length_code, oob])
  have behind : ((place (List.range' 60 4) (e.code (oob_poi.take 60)) oob_poi).drop 60).take 4 =
      e.code (oob_poi.take 60) := by
    rw [length_code] at placed
    rw [placed, List.append_assoc, List.drop_left' (by rw [List.length_take, oob]; rfl), List.take_left' (length_code e _)]
  have latch : (writeSpare slc e.code oob_poi n).2.latch = n.latch ++ oob_poi.take 60 ++
      ((place (List.range' 60 4) (e.code (oob_poi.take 60)) oob_poi).drop 60).take 4 := rfl
  rw [latch, behind, List.append_assoc]

theorem write_page_latch {buf oob_poi : List Byte} (page : buf.length = 2048) (oob : oob_poi.length = 64) (n : Nand) :
    (s3c_nand_write_page_1bit e.code buf oob_poi n).2.latch =
      n.latch ++ (buf ++ (spareOf e.code buf oob_poi ++ e.code (spareOf e.code buf oob_poi))) := by
  obtain ⟨codes, latch⟩ := @writeSectors_eq slc e.code rfl 4 buf [] n
  rw [List.take_of_length_le (by omega)] at latch
  have placed := place_range' 40 ((List.range 4).flatMap fun j => e.code (sector buf j)) oob_poi
    (by rw [length_codes, oob]; decide)
  rw [length_codes] at placed
  have whole : s3c_nand_write_page_1bit e.code buf oob_poi n =
      writeSpare slc e.code (place (List.range' 40 16) (writeSectors slc e.code 4 buf [] n).1 oob_poi)
        (writeSectors slc e.code 4 buf [] n).2 := rfl
  rw [whole, codes, List.nil_append, placed, writeSpare_latch, latch, List.append_assoc]
  · rfl
  · simp only [List.length_append, List.length_take, List.length_drop, length_codes, oob]
    rfl

theorem kept_page {buf oob_poi : List Byte} (page : buf.length = 2048) (oob : oob_poi.length = 64) :
    nand_write_page (s3c_nand_write_page_1bit e.code buf oob_poi) erased =
      buf ++ (spareOf e.code buf oob_poi ++ e.code (spareOf e.code buf oob_poi)) := by
  refine erased_write ?_ (write_page_latch page oob _)
  simp only [List.length_append, page, length_spareOf oob, length_code]

theorem readSpare_fst (e : Engine1) (n : Nand) :
    let spare := (n.cells.drop 2048).take 60
    let secc := (n.cells.drop (2048 + 60)).take 4
    (readSpare e (rndout n 2048)).1 =
      if jffs2 (spare ++ secc) then spare ++ secc else (correct_data_1bit e spare (spare ++ secc) secc).1 :=
  apply_ite Prod.fst _ _ _

theorem readSpare_cells (e : Engine1) (n : Nand) (col : Nat) : (readSpare e (rndout n col)).2.cells = n.cells := by
  unfold readSpare
  simp only
  split
  · rfl
  · rfl

theorem code_in_spare {buf oob_poi oob : List Byte} (length : oob_poi.length = 64)
    (same : oob.take 60 = spareOf e.code buf oob_poi) {j : Nat} (among : j < 4) :
    (oob.drop (40 + j * 4)).take 4 = e.code (sector buf j) := by
  have inside : (oob.drop (40 + j * 4)).take 4 = ((oob.take 60).drop (40 + j * 4)).take 4 := by
    rw [List.drop_take, List.take_take, Nat.min_eq_left (by omega)]
  have front : (oob_poi.take 40).length = 40 := by rw [List.length_take, length]; rfl
  rw [inside, same, spareOf, List.drop_take, List.take_take, Nat.min_eq_left (by omega), List.append_assoc,
    List.drop_append, front, List.drop_of_length_le (by rw [front]; omega), List.nil_append, Nat.add_sub_cancel_left,
    List.drop_append_of_le_length (by rw [length_codes]; omega),
    List.take_append_of_le_length (by rw [List.length_drop, length_codes]; omega)]
  exact take_drop_flatMap (fun j _ => length_code e (sector buf j)) among

/-- What nand_write_page puts into an erased page comes back from it with one wrong bit in each
sector and one in the spare area, unless the correction of the latter is left out. -/
theorem page_1bit_round_trip (documented : e.Documented) (buf oob_poi : List Byte) (page : buf.length = 2048)
    (oob : oob_poi.length = 64) (failed : Nat) (n : Nand)
    (main : ∀ j < 4, Decays (sector (nand_write_page (s3c_nand_write_page_1bit e.code buf oob_poi) erased) j)
      (sector n.cells j))
    (spare : Decays ((nand_write_page (s3c_nand_write_page_1bit e.code buf oob_poi) erased).drop 2048)
      (n.cells.drop 2048))
    (marked : jffs2 (n.cells.drop 2048) = true → n.cells.drop 2048 =
      (nand_write_page (s3c_nand_write_page_1bit e.code buf oob_poi) erased).drop 2048) :
    (s3c_nand_read_page_1bit e failed n).1 = buf ∧
      (s3c_nand_read_page_1bit e failed n).2.1.take 40 = oob_poi.take 40 ∧
      (s3c_nand_read_page_1bit e failed n).2.2.1 = failed := by
  have width := @length_spareOf e buf _ oob
  have kept := kept_page (e := e) page oob
  have behind : ∀ rest : List Byte, (buf ++ rest).drop 2048 = rest := fun rest => by rw [← page, List.drop_left]
  rw [kept, behind] at spare marked
  have length := spare.length
  rw [List.length_append, width, length_code, List.length_drop] at length
  have parts : n.cells.drop 2048 = (n.cells.drop 2048).take 60 ++ (n.cells.drop (2048 + 60)).take 4 := by
    rw [List.take_of_length_le (i := 4) (by rw [List.length_drop]; omega), ← List.drop_drop, List.take_append_drop]
  rw [parts] at spare marked
  have recovered := spare_recovers documented width (by rw [List.length_take, List.length_drop]; omega) spare marked
  rw [← readSpare_fst] at recovered
  obtain ⟨buf', errors⟩ := readSectors_eq (c := slc) (correct_data_1bit e) rfl (readSpare e (rndout n 2048)).1 4 failed
    (readSpare e (rndout n 2048)).2 (Nat.le_refl 4)
  rw [readSpare_cells] at buf' errors
  have right : ∀ j < 4, (outcome slc (correct_data_1bit e) (readSpare e (rndout n 2048)).1 n.cells j).1 = sector buf j ∧
      (outcome slc (correct_data_1bit e) (readSpare e (rndout n 2048)).1 n.cells j).2 ≠ -1 := by
    intro j among
    have decays := main j among
    rw [kept, sector_append page _ among] at decays
    have short : (sector buf j).length ≤ 2048 := (List.length_take_le _ _).trans (by decide)
    have corrected := correct_decayed documented [] short decays
    rw [List.append_nil, List.append_nil, ← code_in_spare oob recovered among] at corrected
    exact corrected
  have zero : List.range' (slc.steps - 4) 4 = List.range 4 := rfl
  rw [zero] at buf' errors
  refine ⟨Eq.trans buf' ?_, ?_, Eq.trans errors ?_⟩
  · rw [List.flatMap_congr fun j among => (right j (List.mem_range.mp among)).1, flatMap_sector,
      List.take_of_length_le (by omega)]
  · have inside : (readSpare e (rndout n 2048)).1.take 40 = ((readSpare e (rndout n 2048)).1.take 60).take 40 := by
      rw [List.take_take, Nat.min_eq_left (by decide)]
    have front : (oob_poi.take 40).length = 40 := by rw [List.length_take, oob]; rfl
    refine inside.trans ?_
    rw [recovered, spareOf, List.take_take, Nat.min_eq_left (by decide), List.append_assoc, List.take_left' front]
  · rw [Nat.add_eq_left, List.countP_eq_zero]
    intro j among
    simpa using (right j (List.mem_range.mp among)).2

/-- A page with a wrong bit in its byte 5. -/
theorem page_1bit_round_trip_one :
    let buf : List Byte := List.replicate 2048 7
    let cells := nand_write_page (s3c_nand_write_page_1bit parityEngine.code buf (List.replicate 64 0xff)) erased
    (s3c_nand_read_page_1bit parityEngine 0 ⟨xorAt cells 5 (bitMask 4), [], 0, [], true⟩).1 = buf := by
  intro buf cells
  have page : buf.length = 2048 := List.length_replicate
  have spare : (xorAt cells 5 (bitMask 4)).drop 2048 = cells.drop 2048 := List.drop_modify_of_lt _ _ _ _ (by decide)
  refine (page_1bit_round_trip parityEngine_documented buf (List.replicate 64 0xff) page List.length_replicate 0
    ⟨xorAt cells 5 (bitMask 4), [], 0, [], true⟩ (fun j among => ?_) (.inl spare) fun _ => spare).1
  rw [sector_xorAt (by decide)]
  split
  · rename_i zero
    rw [zero]
    refine .inr ⟨5, 4, ?_, by decide, rfl⟩
    rw [kept_page page List.length_replicate, sector_append page _ (by decide), length_sector page (by decide)]
    decide
  · exact .inl rfl

end

end Tiny6410.S3cNand
