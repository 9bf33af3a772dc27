import Mathlib
import Tiny6410.Lib.Memory
import Tiny6410.Lib.Patch

/-! Pages with error correction in the driver s3c_nand.c: of a part with single level cells,
where one bit of a sector can be put right, and of one with multi level cells, where it is four.
The engine of the controller that computes the codes is a parameter. -/
namespace Tiny6410.S3cNand

open Memory (Byte Word)
open Patch

/-- The open page of the part and the engine of the controller. -/
structure Nand where
  cells : List Byte
  -- What was written since SEQIN.
  latch : List Byte
  column : Nat
  -- What the engine has seen since INITMECC, and MECCLOCK.
  seen : List Byte
  locked : Bool

def Nand.pass (n : Nand) (bytes : List Byte) : Nand :=
  { n with seen := if n.locked then n.seen else n.seen ++ bytes }

def write_buf (n : Nand) (bytes : List Byte) : Nand :=
  { n.pass bytes with latch := n.latch ++ bytes }

def read_buf (n : Nand) (len : Nat) : List Byte × Nand :=
  let bytes := (n.cells.drop n.column).take len
  (bytes, { n.pass bytes with column := n.column + len })

/-- NAND_CMD_RNDOUT. -/
def rndout (n : Nand) (col : Nat) : Nand := { n with column := col }

def s3c_nand_enable_hwecc (n : Nand) : Nand := { n with seen := [], locked := false }

/-- What ecc and its layout say of a chip. -/
structure Chip where
  size : Nat
  bytes : Nat
  steps : Nat
  eccpos : List Nat
  writesize : Nat
  oobsize : Nat

/-- A page of 2048 bytes with s3c_nand_oob_64. -/
def slc : Chip where
  size := 512
  bytes := 4
  steps := 4
  eccpos := [40, 41, 42, 43, 44, 45, 46, 47, 48, 49, 50, 51, 52, 53, 54, 55]
  writesize := 2048
  oobsize := 64

/-- A page of 2048 bytes with s3c_nand_oob_mlc_64. -/
def mlc : Chip where
  size := 512
  bytes := 8
  steps := 4
  eccpos := [32, 33, 34, 35, 36, 37, 38, 39, 40, 41, 42, 43, 44, 45, 46, 47,
    48, 49, 50, 51, 52, 53, 54, 55, 56, 57, 58, 59, 60, 61, 62, 63]
  writesize := 2048
  oobsize := 64

def Chip.secc_start (c : Chip) : Nat := c.oobsize - c.bytes

/-- The bytes of a register from the lowest on. -/
def bytesOf (w : Word) : List Byte :=
  [w.setWidth 8, (w >>> 8).setWidth 8, (w >>> 16).setWidth 8, (w >>> 24).setWidth 8]

/-- s3c_nand_calculate_ecc with what the engine computes. -/
def s3c_nand_calculate_ecc (code : List Byte → List Byte) (n : Nand) : List Byte × Nand :=
  (code n.seen, { n with locked := true })

def place (positions : List Nat) (code oob_poi : List Byte) : List Byte :=
  (positions.zip code).foldl (fun oob e => oob.set e.1 e.2) oob_poi

/-- The loop over the main area of both write functions. -/
def writeSectors (c : Chip) (code : List Byte → List Byte) : Nat → List Byte → List Byte → Nand → List Byte × Nand
  | 0, _, ecc_calc, n => (ecc_calc, n)
  | eccsteps + 1, p, ecc_calc, n =>
    let n := write_buf (s3c_nand_enable_hwecc n) (p.take c.size)
    let (ecc_code, n) := s3c_nand_calculate_ecc code n
    writeSectors c code eccsteps (p.drop c.size) (ecc_calc ++ ecc_code) n

/-- The spare area, which s3c_nand_write_oob_1bit writes in the same way. -/
def writeSpare (c : Chip) (code : List Byte → List Byte) (oob_poi : List Byte) (n : Nand) : List Byte × Nand :=
  let n := write_buf (s3c_nand_enable_hwecc n) (oob_poi.take c.secc_start)
  let (ecc_code, n) := s3c_nand_calculate_ecc code n
  let oob_poi := place (List.range' c.secc_start c.bytes) ecc_code oob_poi
  (oob_poi, write_buf n ((oob_poi.drop c.secc_start).take c.bytes))

def s3c_nand_write_page_1bit (code : List Byte → List Byte) (buf oob_poi : List Byte) (n : Nand) : List Byte × Nand :=
  let (ecc_calc, n) := writeSectors slc code slc.steps buf [] n
  writeSpare slc code (place slc.eccpos ecc_calc oob_poi) n

def s3c_nand_write_page_4bit (code : List Byte → List Byte) (buf oob_poi : List Byte) (n : Nand) : List Byte × Nand :=
  let (ecc_calc, n) := writeSectors mlc code mlc.steps buf [] n
  let oob_poi := place mlc.eccpos ecc_calc oob_poi
  (oob_poi, write_buf n (oob_poi.take mlc.oobsize))

def erased : List Byte := List.replicate (2048 + 64) 0xff

/-- nand_write_page: the columns from 0 on, and PAGEPROG, which only clears bits. -/
def nand_write_page (write_page : Nand → List Byte × Nand) (cells : List Byte) : List Byte :=
  cells.zipWith (· &&& ·) (write_page ⟨cells, [], 0, [], true⟩).2.latch

/-- The loop over the main area of both read functions, with what they do between read_buf
and the look at the result. -/
def readSectors (c : Chip) (correct : List Byte → List Byte → List Byte → List Byte × Int) (oob_poi : List Byte) :
    Nat → Nat → Nat → Nand → List Byte × Nat × Nand
  | 0, _, failed, n => ([], failed, n)
  | eccsteps + 1, col, failed, n =>
    let (p, n) := read_buf (s3c_nand_enable_hwecc (rndout n col)) c.size
    let ecc := (oob_poi.drop (c.eccpos.getD 0 0 + (c.steps - (eccsteps + 1)) * c.bytes)).take c.bytes
    let (p, stat) := correct n.seen p ecc
    let failed := if stat = -1 then failed + 1 else failed
    let (rest, failed, n) :=
      readSectors c correct oob_poi eccsteps (c.size * (c.steps + 1 - (eccsteps + 1))) failed { n with locked := true }
    (p ++ rest, failed, n)

/-! Single level cells. -/

/-- NFMECC0 for what was seen, and NFMECCERR0 for it and what is in NFMECCDATA0 and 1. -/
structure Engine1 where
  mecc0 : List Byte → Word
  eccerr0 : List Byte → Word → Word → Word

def meccdata0 (read_ecc : List Byte) : Word :=
  (read_ecc.getD 1 0).setWidth 32 <<< 16 ||| (read_ecc.getD 0 0).setWidth 32

def meccdata1 (read_ecc : List Byte) : Word :=
  (read_ecc.getD 3 0).setWidth 32 <<< 16 ||| (read_ecc.getD 2 0).setWidth 32

def Engine1.code (e : Engine1) (seen : List Byte) : List Byte := bytesOf (e.mecc0 seen)

def Engine1.status (e : Engine1) (seen read_ecc : List Byte) : Word :=
  e.eccerr0 seen (meccdata0 read_ecc) (meccdata1 read_ecc)

def mainError (nfestat0 : Word) : Word := nfestat0 &&& 0x3
def errorByte (nfestat0 : Word) : Nat := ((nfestat0 >>> 7) &&& 0x7ff).toNat
def errorBit (nfestat0 : Word) : Nat := ((nfestat0 >>> 4) &&& 0x7).toNat

def bitMask (bit : Nat) : Byte := (1 : Byte) <<< bit

/-- s3c_nand_correct_data for single level cells. -/
def correct_data_1bit (e : Engine1) (seen dat read_ecc : List Byte) : List Byte × Int :=
  let nfestat0 := e.status seen read_ecc
  if mainError nfestat0 = 0 then (dat, 0)
  else if mainError nfestat0 = 1 then (xorAt dat (errorByte nfestat0) (bitMask (errorBit nfestat0)), 1)
  else (dat, -1)

def jffs2 (oob_poi : List Byte) : Bool :=
  oob_poi.getD 2 0 = 0x85 && oob_poi.getD 3 0 = 0x19

/-- The spare area, which s3c_nand_read_oob_1bit reads in the same way. -/
def readSpare (e : Engine1) (n : Nand) : List Byte × Nand :=
  let (spare, n) := read_buf (s3c_nand_enable_hwecc n) slc.secc_start
  let n := { n with locked := true }
  let (secc, n) := read_buf n slc.bytes
  let oob_poi := spare ++ secc
  if jffs2 oob_poi then (oob_poi, n)
  else ((correct_data_1bit e n.seen oob_poi secc).1, n)

/-- What is in buf and in oob_poi, ecc_stats.failed, and the page. -/
def s3c_nand_read_page_1bit (e : Engine1) (failed : Nat) (n : Nand) : List Byte × List Byte × Nat × Nand :=
  let (oob_poi, n) := readSpare e (rndout n slc.writesize)
  let (buf, failed, n) := readSectors slc (correct_data_1bit e) oob_poi slc.steps 0 failed n
  (buf, oob_poi, failed, n)

/-! Multi level cells. -/

/-- NFMECC0 and 1 for what was seen when encoding, and NFMECCERR0, NFMECCERR1 and NFMLCBITPT
for data with their code when decoding. -/
structure Engine4 where
  mecc : List Byte → Word × Word
  status : List Byte → Word × Word × Word

def Engine4.code (e : Engine4) (seen : List Byte) : List Byte :=
  bytesOf (e.mecc seen).1 ++ bytesOf (e.mecc seen).2

/-- The test of s3c_nand_correct_data that a sector is of a page not in use. -/
def unused (dat : List Byte) : Bool :=
  [17, 26, 35, 44, 54].all fun i => dat.getD i 0 = 0xff

/-- The places of the errors by NFMECCERR0 and 1, with their bits by NFMLCBITPT. -/
def reported (st : Word × Word × Word) : List (Nat × Byte) :=
  [((st.1 &&& 0x3ff).toNat, st.2.2.setWidth 8),
    (((st.1 >>> 16) &&& 0x3ff).toNat, (st.2.2 >>> 8).setWidth 8),
    ((st.2.1 &&& 0x3ff).toNat, (st.2.2 >>> 16).setWidth 8),
    (((st.2.1 >>> 16) &&& 0x3ff).toNat, (st.2.2 >>> 24).setWidth 8)]

def errorCount (st : Word × Word × Word) : Nat := ((st.1 >>> 26) &&& 0x7).toNat

/-- s3c_nand_correct_data for multi level cells. The cases from 4 to 1 fall through. -/
def correct_data_4bit (e : Engine4) (seen dat : List Byte) : List Byte × Int :=
  let st := e.status seen
  let err_type := if (st.1 >>> 29) &&& 0x1 = 1 ∨ unused dat then 0 else errorCount st
  if err_type ≤ 4 then (patch ((reported st).take err_type).reverse dat, err_type) else (dat, -1)

/-- The code from the spare area goes through the engine behind the data. -/
def decodeSector (e : Engine4) (seen p ecc : List Byte) : List Byte × Int := correct_data_4bit e (seen ++ ecc) p

def s3c_nand_read_page_4bit (e : Engine4) (failed : Nat) (n : Nand) : List Byte × List Byte × Nat × Nand :=
  let (oob_poi, n) := read_buf (rndout n mlc.writesize) mlc.oobsize
  let (buf, failed, n) := readSectors mlc (decodeSector e) oob_poi mlc.steps 0 failed n
  (buf, oob_poi, failed, n)

/-! What the two loops do. -/

def sector (l : List Byte) (j : Nat) : List Byte := (l.drop (512 * j)).take 512

theorem flatMap_sector (l : List Byte) (m : Nat) : (List.range m).flatMap (sector l) = l.take (512 * m) := by
  induction m with
  | zero => simp
  | succ m ih => rw [List.range_succ, List.flatMap_append, ih, List.flatMap_singleton, sector, ← List.take_add, Nat.mul_succ]

theorem length_sector {buf : List Byte} (page : buf.length = 2048) {j : Nat} (among : j < 4) :
    (sector buf j).length = 512 := by
  rw [sector, List.length_take, List.length_drop]
  omega

theorem sector_append {buf : List Byte} (page : buf.length = 2048) (rest : List Byte) {j : Nat} (among : j < 4) :
    sector (buf ++ rest) j = sector buf j := by
  rw [sector, List.drop_append_of_le_length (by omega),
    List.take_append_of_le_length (by rw [List.length_drop]; omega), sector]

/-- The code of the sector j among the codes of all. -/
theorem take_drop_flatMap {f : Nat → List Byte} {size j m : Nat} (length : ∀ i < m, (f i).length = size)
    (among : j < m) :
    (((List.range m).flatMap f).drop (j * size)).take size = f j := by
  induction m with
  | zero => cases among
  | succ m ih =>
    have before : ∀ i < m, (f i).length = size := fun i below => length i (Nat.lt_succ_of_lt below)
    have total : ((List.range m).flatMap f).length = m * size := by
      rw [List.length_flatMap, List.map_congr_left fun i mem => before i (List.mem_range.mp mem)]
      simp
    rw [List.range_succ, List.flatMap_append, List.flatMap_singleton]
    rcases Nat.lt_succ_iff_lt_or_eq.mp among with inside | rfl
    · have room : j * size + size ≤ m * size := by
        rw [← Nat.succ_mul]
        exact Nat.mul_le_mul_right size inside
      rw [List.drop_append_of_le_length (by omega), List.take_append_of_le_length (by rw [List.length_drop]; omega)]
      exact ih before inside
    · rw [← total, List.drop_left, ← length j among, List.take_length]

theorem sector_drop (l : List Byte) (j : Nat) : sector (l.drop 512) j = sector l (j + 1) := by
  rw [sector, sector, List.drop_drop, Nat.mul_succ, Nat.add_comm 512]

theorem sector_xorAt {l : List Byte} {i : Nat} (first : i < 512) (m : Byte) (j : Nat) :
    sector (xorAt l i m) j = if j = 0 then xorAt (sector l 0) i m else sector l j := by
  cases j with
  | zero => exact List.take_modify _ _ _ _
  | succ j =>
    rw [if_neg (Nat.succ_ne_zero j), sector, xorAt, List.drop_modify_of_lt _ _ _ _ (by omega), sector]

section

variable {c : Chip} {code : List Byte → List Byte}

theorem writeSectors_eq (size : c.size = 512) (m : Nat) (p ecc_calc : List Byte) (n : Nand) :
    (writeSectors c code m p ecc_calc n).1 = ecc_calc ++ (List.range m).flatMap (fun j => code (sector p j)) ∧
      (writeSectors c code m p ecc_calc n).2.latch = n.latch ++ p.take (512 * m) := by
  induction m generalizing p ecc_calc n with
  | zero => simp [writeSectors]
  | succ m ih =>
    obtain ⟨codes, latch⟩ := ih (p.drop 512) (ecc_calc ++ code (p.take 512))
      { write_buf (s3c_nand_enable_hwecc n) (p.take 512) with locked := true }
    have next : writeSectors c code (m + 1) p ecc_calc n = writeSectors c code m (p.drop 512)
        (ecc_calc ++ code (p.take 512)) { write_buf (s3c_nand_enable_hwecc n) (p.take 512) with locked := true } := by
      rw [writeSectors, size]
      rfl
    rw [next]
    refine ⟨?_, ?_⟩
    · rw [codes, List.range_succ_eq_map, List.flatMap_cons, List.flatMap_map, List.append_assoc]
      simp only [sector_drop]
      rfl
    · rw [latch]
      have first : (write_buf (s3c_nand_enable_hwecc n) (p.take 512)).latch = n.latch ++ p.take 512 := rfl
      rw [first, List.append_assoc, ← List.take_add, Nat.mul_succ, Nat.add_comm 512]

theorem place_range' (a : Nat) (l oob : List Byte) (room : a + l.length ≤ oob.length) :
    place (List.range' a l.length) l oob = oob.take a ++ l ++ oob.drop (a + l.length) := by
  induction l generalizing a oob with
  | nil => simp [place]
  | cons b l ih =>
    rw [List.length_cons] at room
    have rest := ih (a + 1) (oob.set a b) (by rw [List.length_set]; omega)
    have inside : a < oob.length := by omega
    have next : place (List.range' a (b :: l).length) (b :: l) oob = place (List.range' (a + 1) l.length) l (oob.set a b) := rfl
    rw [next, rest, List.drop_set_of_lt (by omega), List.length_cons, List.take_add_one, List.take_set_of_le (Nat.le_refl a)]
    simp [inside, Nat.add_assoc, Nat.add_comm 1]

theorem erased_write {write_page : Nand → List Byte × Nand} {bytes : List Byte} (length : bytes.length = 2048 + 64)
    (latch : (write_page ⟨erased, [], 0, [], true⟩).2.latch = bytes) : nand_write_page write_page erased = bytes := by
  rw [nand_write_page, latch]
  have clear : erased.length = bytes.length := by rw [length, erased, List.length_replicate]
  refine List.ext_getElem (by rw [List.length_zipWith, clear, Nat.min_self]) fun i _ _ => ?_
  have ones : ∀ b : Byte, 0xff &&& b = b := by decide
  simp only [List.getElem_zipWith, erased, List.getElem_replicate, ones]

/-- What is made of the sector j and its code. -/
def outcome (c : Chip) (correct : List Byte → List Byte → List Byte → List Byte × Int) (oob_poi cells : List Byte)
    (j : Nat) : List Byte × Int :=
  correct (sector cells j) (sector cells j) ((oob_poi.drop (c.eccpos.getD 0 0 + j * c.bytes)).take c.bytes)

theorem readSectors_eq (correct : List Byte → List Byte → List Byte → List Byte × Int) (size : c.size = 512)
    (oob_poi : List Byte) (m failed : Nat) (n : Nand) (steps : m ≤ c.steps) :
    (readSectors c correct oob_poi m (512 * (c.steps - m)) failed n).1 =
        (List.range' (c.steps - m) m).flatMap (fun j => (outcome c correct oob_poi n.cells j).1) ∧
      (readSectors c correct oob_poi m (512 * (c.steps - m)) failed n).2.1 =
        failed + (List.range' (c.steps - m) m).countP fun j => (outcome c correct oob_poi n.cells j).2 = -1 := by
  induction m generalizing failed n with
  | zero => simp [readSectors]
  | succ m ih =>
    have behind : c.steps - m = c.steps - (m + 1) + 1 := by omega
    rw [behind] at ih
    generalize place : c.steps - (m + 1) = j at ih ⊢
    let after : Nand := { n with column := 512 * j + 512, seen := sector n.cells j, locked := true }
    let count := if (outcome c correct oob_poi n.cells j).2 = -1 then failed + 1 else failed
    have next : readSectors c correct oob_poi (m + 1) (512 * j) failed n =
        ((outcome c correct oob_poi n.cells j).1 ++ (readSectors c correct oob_poi m (512 * (j + 1)) count after).1,
          (readSectors c correct oob_poi m (512 * (j + 1)) count after).2) := by
      rw [readSectors, size, Nat.add_sub_add_right, behind, place]
      rfl
    obtain ⟨buf, errors⟩ := ih count after (by omega)
    rw [next, List.range'_succ, List.flatMap_cons, List.countP_cons]
    refine ⟨congrArg _ buf, errors.trans ?_⟩
    by_cases bad : (outcome c correct oob_poi n.cells j).2 = -1
    · simp only [count, bad, after, decide_true, if_true]
      omega
    · simp only [count, bad, after, decide_false, if_false, Bool.false_eq_true]
      rfl

end

end Tiny6410.S3cNand
