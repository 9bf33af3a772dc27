import Tiny6410.Nand.Protocol

/-! nand_read_page over all its arguments. The end of the range is computed in unsigned
arithmetic, so it may lie below the start, and a negative size may put it above. -/
namespace Tiny6410.Nand

open Memory

/-- The row addresses of a trace: of every five address cycles, the last three. -/
def rowsSent : List Cycle → List Nat
  | .address _ :: .address _ :: .address low :: .address middle :: .address high :: rest =>
    (low.toNat + 256 * middle.toNat + 65536 * high.toNat) :: rowsSent rest
  | _ :: rest => rowsSent rest
  | [] => []

/-- The bytes that were taken from NFDATA8, each of which the driver stores at once. -/
def dataRead : List Cycle → List Byte
  | .read b :: rest => b :: dataRead rest
  | _ :: rest => dataRead rest
  | [] => []

/-- Whole pages below the end of the address space. -/
def WholeRange (start_addr size : Word) : Prop :=
  start_addr.toNat % NAND_PAGE_SIZE = 0 ∧ size.toNat % NAND_PAGE_SIZE = 0 ∧ 0 ≤ size.toInt ∧
    start_addr.toNat + size.toNat < 2 ^ 32

/-- From s to s': the pages of the range in order, or nothing if it is not a whole range. -/
structure ReadsRange (buf start_addr size : Word) (s s' : State) (t : List Cycle) : Prop where
  cycles : s'.cycles = s.cycles ++ t
  whole : WholeRange start_addr size →
    rowsSent t = (List.range (size.toNat / NAND_PAGE_SIZE)).map (start_addr.toNat / NAND_PAGE_SIZE + ·) ∧
    dataRead t = (List.range size.toNat).map (fun i => s.chip.byteAt (start_addr.toNat + i)) ∧
    s'.mem = overlay s.mem buf size.toNat (fun i => s.chip.byteAt (start_addr.toNat + i))
  other : ¬ WholeRange start_addr size → rowsSent t = [] ∧ dataRead t = [] ∧ s'.mem = s.mem

theorem rowsSent_reads (data : List Byte) (rest : List Cycle) :
    rowsSent (data.map .read ++ rest) = rowsSent rest := by
  induction data with
  | nil => rfl
  | cons b data ih => exact ih

theorem dataRead_reads (data : List Byte) (rest : List Cycle) :
    dataRead (data.map .read ++ rest) = data ++ dataRead rest := by
  induction data with
  | nil => rfl
  | cons b data ih => exact congrArg (b :: ·) ih

theorem row_bytes (a : Word) :
    (((a >>> 11) &&& 0xff).setWidth 8 : Byte).toNat +
      256 * (((a >>> 11 >>> 8) &&& 0xff).setWidth 8 : Byte).toNat +
      65536 * (((a >>> 11 >>> 16) &&& 0xff).setWidth 8 : Byte).toNat = a.toNat / NAND_PAGE_SIZE := by
  have mask : ∀ n : Nat, n &&& 255 = n % 256 := fun n => Nat.and_two_pow_sub_one_eq_mod n 8
  have bound := a.isLt
  simp [mask, Nat.shiftRight_eq_div_pow, NAND_PAGE_SIZE]
  omega

/-- The cycles that read a page, up to its data. -/
def pageOpening (a : Word) : List Cycle :=
  .command 0x00 :: (addressCycles a).map .address ++ [.command 0x30, .ready]

theorem readSentence_eq (a : Word) (page : Nat → Byte) :
    readSentence a page = pageOpening a ++ ((List.range NAND_PAGE_SIZE).map page).map .read := by
  simp [readSentence, pageOpening]

theorem rowsSent_opening (a : Word) (rest : List Cycle) :
    rowsSent (pageOpening a ++ rest) = a.toNat / NAND_PAGE_SIZE :: rowsSent rest := by
  rw [← row_bytes]
  rfl

theorem dataRead_opening (a : Word) (rest : List Cycle) :
    dataRead (pageOpening a ++ rest) = dataRead rest := rfl

theorem rowsSent_sentences (js : List Nat) (a : Nat → Word) (page : Nat → Nat → Byte) :
    rowsSent (js.flatMap fun j => readSentence (a j) (page j)) =
      js.map fun j => (a j).toNat / NAND_PAGE_SIZE := by
  induction js with
  | nil => rfl
  | cons j js ih =>
    rw [List.flatMap_cons, readSentence_eq, List.append_assoc, rowsSent_opening, rowsSent_reads, ih,
      List.map_cons]

theorem dataRead_sentences (js : List Nat) (a : Nat → Word) (page : Nat → Nat → Byte) :
    dataRead (js.flatMap fun j => readSentence (a j) (page j)) =
      js.flatMap fun j => (List.range NAND_PAGE_SIZE).map (page j) := by
  induction js with
  | nil => rfl
  | cons j js ih =>
    rw [List.flatMap_cons, readSentence_eq, List.append_assoc, dataRead_opening, dataRead_reads, ih,
      List.flatMap_cons]

theorem flatMap_pages (k : Nat) (f : Nat → Byte) :
    ((List.range k).flatMap fun j => (List.range NAND_PAGE_SIZE).map fun i => f (NAND_PAGE_SIZE * j + i)) =
      (List.range (NAND_PAGE_SIZE * k)).map f := by
  induction k with
  | zero => rfl
  | succ k ih =>
    rw [List.range_succ, List.flatMap_append, ih, Nat.mul_succ, List.range_add, List.map_append,
      List.map_map]
    simp [Function.comp_def]

/-- With its end in the address space, in unsigned arithmetic, the range is read. -/
theorem PagesRead.trace {s : State} {start_addr buf : Word} {k : Nat} {l : PageLoop}
    (read : PagesRead s start_addr buf k l) (fits : start_addr.toNat + NAND_PAGE_SIZE * k ≤ 2 ^ 32) :
    ∃ t, l.state.cycles = s.cycles ++ t ∧
      rowsSent t = (List.range k).map (start_addr.toNat / NAND_PAGE_SIZE + ·) ∧
      dataRead t = (List.range (NAND_PAGE_SIZE * k)).map fun i => s.chip.byteAt (start_addr.toNat + i) := by
  refine ⟨_, read.cycles, ?_, ?_⟩
  · rw [rowsSent_sentences]
    apply List.map_congr_left
    intro j mem
    have before : NAND_PAGE_SIZE * j < NAND_PAGE_SIZE * k :=
      Nat.mul_lt_mul_of_pos_left (List.mem_range.mp mem) (by decide)
    rw [toNat_add_pages (by omega), Nat.add_mul_div_left _ _ (by decide)]
  · rw [dataRead_sentences, ← flatMap_pages k fun i => s.chip.byteAt (start_addr.toNat + i)]
    simp only [Nat.add_assoc]

theorem nand_read_page_misaligned (p : Part) {start_addr size : Word} (buf : Word) (s : State)
    (misaligned : ¬ (start_addr.toNat % NAND_PAGE_SIZE = 0 ∧ size.toNat % NAND_PAGE_SIZE = 0)) :
    nand_read_page p buf start_addr size s = some s := by
  apply if_pos
  rw [ne_eq, ne_eq, mask_eq_zero_iff, mask_eq_zero_iff]
  omega

/-- The end has wrapped to the start or below, and the loop is not entered. -/
theorem nand_read_page_wrapped (p : Part) {start_addr size : Word} (buf : Word) (s : State)
    (start_aligned : start_addr.toNat % NAND_PAGE_SIZE = 0)
    (size_aligned : size.toNat % NAND_PAGE_SIZE = 0)
    (wraps : 2 ^ 32 ≤ start_addr.toNat + size.toNat) :
    nand_read_page p buf start_addr size s = some (NAND_DISABLE_CE (NAND_ENABLE_CE s)) := by
  have below : ¬ start_addr < start_addr + size := by
    have bound := size.isLt
    have start := start_addr.isLt
    rw [BitVec.lt_def, BitVec.toNat_add]
    omega
  have done : Loop.whileLoop (fun l => decide (l.addr < start_addr + size)) (readPage p) pageTests
      ⟨start_addr, buf, NAND_ENABLE_CE s⟩ = some ⟨start_addr, buf, NAND_ENABLE_CE s⟩ :=
    Loop.whileLoop_iterate _ _ (n := 0) (by decide)
      (fun i none => absurd none (Nat.not_lt_zero i)) (decide_eq_false below)
  rw [nand_read_page, if_neg (page_guard start_aligned size_aligned), done]
  rfl

/-- Whole pages with a negative size that is larger than the address: in unsigned
arithmetic the end lies above the start. -/
def Overruns (start_addr size : Word) : Prop :=
  start_addr.toNat % NAND_PAGE_SIZE = 0 ∧ size.toNat % NAND_PAGE_SIZE = 0 ∧
    start_addr.toNat + size.toInt < 0

/-- A range whose end, in unsigned arithmetic, is in the address space. -/
theorem nand_read_page_inside (p : Part) {start_addr size : Word} (buf : Word) (s : State)
    (ready : Ready s) (start_aligned : start_addr.toNat % NAND_PAGE_SIZE = 0)
    (size_aligned : size.toNat % NAND_PAGE_SIZE = 0) (fits : start_addr.toNat + size.toNat < 2 ^ 32) :
    ∃ s' t, nand_read_page p buf start_addr size s = some s' ∧ s'.cycles = s.cycles ++ t ∧
      rowsSent t = (List.range (size.toNat / NAND_PAGE_SIZE)).map (start_addr.toNat / NAND_PAGE_SIZE + ·) ∧
      dataRead t = (List.range size.toNat).map (fun i => s.chip.byteAt (start_addr.toNat + i)) ∧
      s'.mem = overlay s.mem buf size.toNat (fun i => s.chip.byteAt (start_addr.toNat + i)) := by
  obtain ⟨l, read, returns⟩ := nand_read_page_eq p buf s ready start_aligned size_aligned fits
  have pages : NAND_PAGE_SIZE * (size.toNat / NAND_PAGE_SIZE) = size.toNat :=
    Nat.mul_div_cancel' (Nat.dvd_of_mod_eq_zero size_aligned)
  obtain ⟨t, cycles, rows, data⟩ := read.trace (by rw [pages]; omega)
  have mem := read.mem
  rw [pages] at data mem
  exact ⟨_, t, returns, cycles, rows, data, mem⟩

theorem ReadsRange.nothing {buf start_addr size : Word} {s s' : State}
    (broken : ¬ WholeRange start_addr size) (cycles : s'.cycles = s.cycles) (mem : s'.mem = s.mem) :
    ReadsRange buf start_addr size s s' [] where
  cycles := by rw [cycles, List.append_nil]
  whole := fun range => absurd range broken
  other := fun _ => ⟨rfl, rfl, mem⟩

/-- Every range is read as it should be, or not at all, except those with a negative size
that is larger than the address. -/
theorem nand_read_page_range_iff (p : Part) (buf start_addr size : Word) (s : State) (ready : Ready s) :
    ∃ s', nand_read_page p buf start_addr size s = some s' ∧
      ((∃ t, ReadsRange buf start_addr size s s' t) ↔ ¬ Overruns start_addr size) := by
  have bound := start_addr.isLt
  have sign := toInt_cases size
  by_cases aligned : start_addr.toNat % NAND_PAGE_SIZE = 0 ∧ size.toNat % NAND_PAGE_SIZE = 0
  · by_cases inside : start_addr.toNat + size.toNat < 2 ^ 32
    · obtain ⟨s', t, returns, cycles, rows, data, mem⟩ :=
        nand_read_page_inside p buf s ready aligned.1 aligned.2 inside
      refine ⟨s', returns, ?_⟩
      by_cases negative : size.toInt < 0
      · have overruns : Overruns start_addr size := ⟨aligned.1, aligned.2, by omega⟩
        refine iff_of_false ?_ (not_not_intro overruns)
        rintro ⟨t', reads⟩
        obtain rfl := List.append_cancel_left (cycles.symm.trans reads.cycles)
        have none := (reads.other fun range => absurd range.2.2.1 (by omega)).1
        rw [rows, List.map_eq_nil_iff, List.range_eq_nil] at none
        have first := aligned.2
        unfold NAND_PAGE_SIZE at none first
        omega
      · have range : WholeRange start_addr size := ⟨aligned.1, aligned.2, by omega, inside⟩
        refine iff_of_true ⟨t, cycles, fun _ => ⟨rows, data, mem⟩, absurd range⟩ ?_
        rintro ⟨-, -, below⟩
        omega
    · refine ⟨_, nand_read_page_wrapped p buf s aligned.1 aligned.2 (by omega), ?_⟩
      refine iff_of_true ⟨[], .nothing (fun range => inside range.2.2.2) rfl rfl⟩ ?_
      rintro ⟨-, -, below⟩
      omega
  · refine ⟨s, nand_read_page_misaligned p buf s aligned, ?_⟩
    refine iff_of_true ⟨[], .nothing (fun range => aligned ⟨range.1, range.2.1⟩) rfl rfl⟩ ?_
    exact fun overruns => aligned ⟨overruns.1, overruns.2.1⟩

theorem nand_read_page_range_iff_second_page :
    ∃ s', nand_read_page onePart 0x50000000 0x800 0x1000 zeroState = some s' ∧
      ∃ t, ReadsRange 0x50000000 0x800 0x1000 zeroState s' t := by
  obtain ⟨s', returns, reads⟩ :=
    nand_read_page_range_iff onePart 0x50000000 0x800 0x1000 zeroState zeroState_ready
  exact ⟨s', returns, reads.mpr fun overruns => absurd overruns.2.2 (by decide)⟩

/-- From address 0, minus one page: all pages but the last one of the address space are
read, one after the other, over the whole memory. -/
theorem negative_size_reads_pages :
    (0xfffff800 : Word).toInt = -2048 ∧
    ∃ s' t, nand_read_page onePart 0x50000000 0 0xfffff800 zeroState = some s' ∧
      s'.cycles = zeroState.cycles ++ t ∧ (rowsSent t).length = 2097151 ∧
      ∀ t, ¬ ReadsRange 0x50000000 0 0xfffff800 zeroState s' t := by
  have start : (0 : Word).toNat % NAND_PAGE_SIZE = 0 := rfl
  have page : (0xfffff800 : Word).toNat % NAND_PAGE_SIZE = 0 := rfl
  obtain ⟨s', t, returns, cycles, rows, -, -⟩ :=
    nand_read_page_inside onePart 0x50000000 zeroState zeroState_ready start page (by decide)
  have many : (rowsSent t).length = 2097151 := by
    rw [rows, List.length_map, List.length_range]
    rfl
  refine ⟨by decide, s', t, returns, cycles, many, fun t' reads => ?_⟩
  obtain rfl := List.append_cancel_left (cycles.symm.trans reads.cycles)
  have none := (reads.other fun range => absurd range.2.2.1 (by decide)).1
  rw [none] at many
  cases many

end Tiny6410.Nand
