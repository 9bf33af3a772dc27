import Tiny6410.Nand.Driver

/-! One specification for each driver operation, as an equation on the whole
state where the operation is deterministic. Later modules cite these and do not
unfold the driver again. -/
namespace Tiny6410.Nand

open Memory

/-- What the boot code establishes with nand_init before any other call. -/
structure Ready (s : State) : Prop where
  enabled : s.nfcont.getLsbD 0 = true
  quiet : s.chip.busy = 0

@[simp] theorem enable_selected (s : State) :
    (NAND_ENABLE_CE s).selected = s.nfcont.getLsbD 0 := by
  simp [State.selected, chipSelect, NAND_ENABLE_CE]

theorem Ready.selected {s : State} (ready : Ready s) : (NAND_ENABLE_CE s).selected = true := by
  rw [enable_selected, ready.enabled]

@[simp] theorem disable_enabled (s : State) :
    (NAND_DISABLE_CE s).nfcont.getLsbD 0 = s.nfcont.getLsbD 0 := by
  simp [NAND_DISABLE_CE]

@[simp] theorem enable_enabled (s : State) :
    (NAND_ENABLE_CE s).nfcont.getLsbD 0 = s.nfcont.getLsbD 0 := by
  simp [NAND_ENABLE_CE]

theorem nand_wait_idle_eq (s : State) (sel : s.selected = true) :
    nand_wait_idle s =
      { s with chip := { s.chip with busy := 0 }, cycles := s.cycles ++ [.ready] } := by
  unfold nand_wait_idle
  obtain ⟨n, hn⟩ : ∃ n, s.chip.busy = n := ⟨_, rfl⟩
  rw [hn]
  induction n generalizing s with
  | zero =>
    simp [pollNFSTAT, getNFSTAT, Chip.poll, hn, sel]
  | succ n ih =>
    have next := ih { s with chip := { s.chip with busy := n } } sel rfl
    rw [pollNFSTAT]
    simp [getNFSTAT, Chip.poll, hn] at next ⊢
    exact next

@[simp] theorem setNFCMD_nfcont (p : Part) (v : Word) (s : State) :
    (setNFCMD p v s).nfcont = s.nfcont := by
  unfold setNFCMD
  split <;> rfl

theorem nand_init_ready (p : Part) (s : State) : Ready (nand_init p s) := by
  have on : (s.nfcont ||| (0x3 : Word) <<< 0).getLsbD 0 = true := by simp
  rw [nand_init, nand_reset, nand_wait_idle_eq]
  · refine ⟨?_, rfl⟩
    rw [disable_enabled, setNFCMD_nfcont, enable_enabled]
    exact on
  · rw [State.selected, setNFCMD_nfcont]
    exact (enable_selected _).trans on

def addressCycles (a : Word) : List Byte :=
  [0, 0, ((a >>> 11) &&& 0xff).setWidth 8, ((a >>> 11 >>> 8) &&& 0xff).setWidth 8,
    ((a >>> 11 >>> 16) &&& 0xff).setWidth 8]

theorem columnOf_addressCycles (a : Word) : columnOf (addressCycles a) = 0 := by
  simp [columnOf, addressCycles]

theorem rowOf_addressCycles (a : Word) :
    rowOf (addressCycles a) = a.toNat / NAND_PAGE_SIZE % pageRows := by
  have mask : ∀ n : Nat, n &&& 255 = n % 256 := fun n => Nat.and_two_pow_sub_one_eq_mod n 8
  have bound := a.isLt
  simp [rowOf, addressCycles, mask, Nat.shiftRight_eq_div_pow, NAND_PAGE_SIZE, pageRows]
  omega

theorem nand_write_address_read (a : Word) (s : State) (sel : s.selected = true)
    (quiet : s.chip.busy = 0) (phase : s.chip.phase = .read []) :
    nand_write_address a s =
      { s with chip := { s.chip with phase := .read (addressCycles a) },
               cycles := s.cycles ++ (addressCycles a).map .address } := by
  rw [State.selected] at sel
  simp [nand_write_address, setNFADDR, State.selected, sel, Chip.address, quiet, phase,
    addressCycles]

theorem nand_write_address_program (a : Word) (s : State) (sel : s.selected = true)
    (quiet : s.chip.busy = 0) (phase : s.chip.phase = .program [] []) :
    nand_write_address a s =
      { s with chip := { s.chip with phase := .program (addressCycles a) [] },
               cycles := s.cycles ++ (addressCycles a).map .address } := by
  rw [State.selected] at sel
  simp [nand_write_address, setNFADDR, State.selected, sel, Chip.address, quiet, phase,
    addressCycles]

theorem readBytes_output (p : Part) (n : Nat) (buffer : Word) (s : State) (row column : Nat)
    (sel : s.selected = true) (quiet : s.chip.busy = 0) (phase : s.chip.phase = .output row column)
    (fits : column + n ≤ pageColumns) :
    readBytes p n buffer s =
      { s with
        mem := overlay s.mem buffer n (fun i => s.chip.cells row (column + i))
        chip := { s.chip with phase := .output row (column + n) }
        cycles := s.cycles ++ (List.range n).map fun i => .read (s.chip.cells row (column + i)) } := by
  induction n generalizing buffer s column with
  | zero =>
    obtain ⟨conf, cont, chip, mem, uart, cycles⟩ := s
    simp only at phase
    simp [readBytes, ← phase]
  | succ n ih =>
    have here : column < pageColumns := by omega
    have small : n < 2 ^ 32 := by unfold pageColumns at fits; omega
    rw [State.selected] at sel
    rw [readBytes, ih _ _ (column + 1) (by simp [getNFDATA8, State.selected, sel])
      (by simp [getNFDATA8, State.selected, sel, Chip.read, phase, quiet])
      (by simp [getNFDATA8, State.selected, sel, Chip.read, phase, quiet]) (by omega)]
    simp only [getNFDATA8, State.selected, sel, if_true, Chip.read, phase, quiet, ne_eq,
      not_true_eq_false, if_false, here]
    rw [List.range_succ_eq_map]
    simp [Nat.add_assoc, Nat.add_comm 1, Function.comp_def]
    exact overlay_store s.mem buffer (fun i => s.chip.cells row (column + i)) small

/-- With no operation open, every data cycle samples the undriven bus. -/
theorem readBytes_idle (p : Part) (n : Nat) (buffer : Word) (s : State)
    (sel : s.selected = true) (phase : s.chip.phase = .idle) (fits : n ≤ 2 ^ 32) :
    readBytes p n buffer s =
      { s with mem := overlay s.mem buffer n (fun _ => p.undriven)
               cycles := s.cycles ++ List.replicate n (.read p.undriven) } := by
  induction n generalizing buffer s with
  | zero => simp [readBytes]
  | succ n ih =>
    rw [State.selected] at sel
    rw [readBytes, ih _ _ (by simp [getNFDATA8, State.selected, sel])
      (by simp [getNFDATA8, State.selected, sel, Chip.read, phase]) (by omega)]
    simp [getNFDATA8, State.selected, sel, Chip.read, phase, List.replicate_succ]
    exact overlay_store s.mem buffer (fun _ => p.undriven) (by omega)

def readSentence (a : Word) (page : Nat → Byte) : List Cycle :=
  [.command 0x00] ++ (addressCycles a).map .address ++ [.command 0x30, .ready] ++
    (List.range NAND_PAGE_SIZE).map fun i => .read (page i)

theorem readPage_eq (p : Part) (l : PageLoop) (sel : l.state.selected = true)
    (quiet : l.state.chip.busy = 0) :
    readPage p l =
      { addr := l.addr + BitVec.ofNat 32 NAND_PAGE_SIZE
        buffer := l.buffer + BitVec.ofNat 32 NAND_PAGE_SIZE
        state := { l.state with
          mem := overlay l.state.mem l.buffer NAND_PAGE_SIZE
            (l.state.chip.cells (l.addr.toNat / NAND_PAGE_SIZE % pageRows))
          chip := { l.state.chip with
            phase := .output (l.addr.toNat / NAND_PAGE_SIZE % pageRows) NAND_PAGE_SIZE
            busy := 0
            operations := l.state.chip.operations + 1 }
          cycles := l.state.cycles ++
            readSentence l.addr (l.state.chip.cells (l.addr.toNat / NAND_PAGE_SIZE % pageRows)) } } := by
  have five : (addressCycles l.addr).length = 5 := rfl
  rw [State.selected] at sel
  simp only [readPage]
  rw [nand_write_address_read _ _ (by simp [setNFCMD, State.selected, sel])
    (by simp [setNFCMD, State.selected, sel, Chip.command, NAND_CMD_READ, quiet])
    (by simp [setNFCMD, State.selected, sel, Chip.command, NAND_CMD_READ, quiet])]
  simp [setNFCMD, State.selected, sel, Chip.command, NAND_CMD_READ, NAND_CMD_READ_START, quiet, five,
    Chip.begin]
  rw [nand_wait_idle_eq _ (by simp [State.selected, sel]),
    readBytes_output p _ _ _ (rowOf (addressCycles l.addr)) (columnOf (addressCycles l.addr))
      (by simp [State.selected, sel]) rfl rfl (by rw [columnOf_addressCycles]; decide)]
  simp [rowOf_addressCycles, columnOf_addressCycles, readSentence]

theorem toNat_mask (a : Word) : (a &&& NAND_PAGE_MASK).toNat = a.toNat % NAND_PAGE_SIZE := by
  rw [BitVec.toNat_and]
  exact Nat.and_two_pow_sub_one_eq_mod a.toNat 11

theorem mask_eq_zero_iff (a : Word) : a &&& NAND_PAGE_MASK = 0 ↔ a.toNat % NAND_PAGE_SIZE = 0 := by
  rw [← toNat_mask]
  constructor
  · intro h
    rw [h]
    rfl
  · intro h
    exact BitVec.eq_of_toNat_eq h

/-- Whole pages pass the test at the head of the page functions. -/
theorem page_guard {start_addr size : Word} (start_aligned : start_addr.toNat % NAND_PAGE_SIZE = 0)
    (size_aligned : size.toNat % NAND_PAGE_SIZE = 0) :
    ¬ (start_addr &&& NAND_PAGE_MASK ≠ 0 ∨ size &&& NAND_PAGE_MASK ≠ 0) := by
  rw [ne_eq, ne_eq, mask_eq_zero_iff, mask_eq_zero_iff]
  omega

theorem toNat_add_pages {start : Word} {k : Nat} (fits : start.toNat + NAND_PAGE_SIZE * k < 2 ^ 32) :
    (start + BitVec.ofNat 32 (NAND_PAGE_SIZE * k)).toNat = start.toNat + NAND_PAGE_SIZE * k := by
  rw [BitVec.toNat_add, BitVec.toNat_ofNat]
  omega

theorem add_page (a : Word) (k : Nat) :
    a + BitVec.ofNat 32 (NAND_PAGE_SIZE * k) + BitVec.ofNat 32 NAND_PAGE_SIZE =
      a + BitVec.ofNat 32 (NAND_PAGE_SIZE * (k + 1)) := by
  rw [BitVec.add_assoc, ← BitVec.ofNat_add, Nat.mul_succ]

def Chip.byteAt (c : Chip) (a : Nat) : Byte :=
  c.cells (a / NAND_PAGE_SIZE % pageRows) (a % NAND_PAGE_SIZE)

theorem byteAt_eq_mainByte (c : Chip) {a : Nat} (h : a < 2 ^ 30) : c.byteAt a = c.mainByte a := by
  have row : a / NAND_PAGE_SIZE % pageRows = a / NAND_PAGE_SIZE := by
    apply Nat.mod_eq_of_lt
    unfold NAND_PAGE_SIZE pageRows
    omega
  rw [Chip.byteAt, Chip.mainByte, row]

theorem byteAt_page (c : Chip) {a i : Nat} (aligned : a % NAND_PAGE_SIZE = 0) (h : i < NAND_PAGE_SIZE) :
    c.byteAt (a + i) = c.cells (a / NAND_PAGE_SIZE % pageRows) i := by
  have row : (a + i) / NAND_PAGE_SIZE = a / NAND_PAGE_SIZE := by
    unfold NAND_PAGE_SIZE at *
    omega
  have column : (a + i) % NAND_PAGE_SIZE = i := by
    unfold NAND_PAGE_SIZE at *
    omega
  rw [Chip.byteAt, row, column]

/-- The loop variables of nand_read_page after k rounds from a selected, idle state. -/
structure PagesRead (s : State) (start_addr buf : Word) (k : Nat) (l : PageLoop) : Prop where
  addr : l.addr = start_addr + BitVec.ofNat 32 (NAND_PAGE_SIZE * k)
  buffer : l.buffer = buf + BitVec.ofNat 32 (NAND_PAGE_SIZE * k)
  mem : l.state.mem =
    overlay s.mem buf (NAND_PAGE_SIZE * k) (fun i => s.chip.byteAt (start_addr.toNat + i))
  chip : l.state.chip =
    { s.chip with phase := l.state.chip.phase, operations := s.chip.operations + k }
  phase : l.state.chip.phase = s.chip.phase ∨ ∃ row, l.state.chip.phase = .output row NAND_PAGE_SIZE
  nfconf : l.state.nfconf = s.nfconf
  nfcont : l.state.nfcont = s.nfcont
  uart : l.state.uart = s.uart
  cycles : l.state.cycles = s.cycles ++ (List.range k).flatMap fun j =>
    readSentence (start_addr + BitVec.ofNat 32 (NAND_PAGE_SIZE * j))
      (fun i => s.chip.byteAt (start_addr.toNat + NAND_PAGE_SIZE * j + i))

theorem readSentence_congr (a : Word) {f g : Nat → Byte} (h : ∀ i < NAND_PAGE_SIZE, f i = g i) :
    readSentence a f = readSentence a g := by
  have same : (List.range NAND_PAGE_SIZE).map (fun i => Cycle.read (f i)) =
      (List.range NAND_PAGE_SIZE).map (fun i => Cycle.read (g i)) :=
    List.map_congr_left fun i hi => by rw [h i (List.mem_range.mp hi)]
  rw [readSentence, readSentence, same]

section ReadLoop

variable {p : Part} {s : State} {start_addr buf : Word} {k : Nat} {l : PageLoop}

theorem PagesRead.start : PagesRead s start_addr buf 0 ⟨start_addr, buf, s⟩ where
  addr := by simp
  buffer := by simp
  mem := by simp
  chip := by simp
  phase := .inl rfl
  nfconf := rfl
  nfcont := rfl
  uart := rfl
  cycles := by simp

theorem PagesRead.step (h : PagesRead s start_addr buf k l) (sel : s.selected = true)
    (quiet : s.chip.busy = 0) (aligned : start_addr.toNat % NAND_PAGE_SIZE = 0)
    (fits : start_addr.toNat + NAND_PAGE_SIZE * (k + 1) ≤ 2 ^ 32) :
    PagesRead s start_addr buf (k + 1) (readPage p l) := by
  have sel' : l.state.selected = true := by rw [State.selected, h.nfcont]; exact sel
  have quiet' : l.state.chip.busy = 0 := by rw [h.chip]; exact quiet
  have room : start_addr.toNat + NAND_PAGE_SIZE * k + NAND_PAGE_SIZE ≤ 2 ^ 32 := by
    rw [Nat.mul_succ] at fits
    omega
  have here : l.addr.toNat = start_addr.toNat + NAND_PAGE_SIZE * k := by
    rw [h.addr, toNat_add_pages (Nat.lt_of_lt_of_le (Nat.lt_add_of_pos_right (by decide)) room)]
  have page : ∀ i < NAND_PAGE_SIZE,
      l.state.chip.cells (l.addr.toNat / NAND_PAGE_SIZE % pageRows) i =
        s.chip.byteAt (start_addr.toNat + NAND_PAGE_SIZE * k + i) := by
    intro i hi
    rw [h.chip, here, byteAt_page _ (by rw [Nat.add_mul_mod_self_left]; exact aligned) hi]
  rw [readPage_eq p l sel' quiet']
  refine ⟨?_, ?_, ?_, ?_, .inr ⟨_, rfl⟩, h.nfconf, h.nfcont, h.uart, ?_⟩
  · simp only [h.addr, add_page]
  · simp only [h.buffer, add_page]
  · simp only
    rw [overlay_congr _ _ _ page, h.mem, h.buffer, Nat.mul_succ]
    rw [← overlay_append _ _ _ (by omega)]
    simp only [Nat.add_assoc]
  · simp only
    rw [h.chip]
    simp [quiet, Nat.add_assoc]
  · simp only
    rw [readSentence_congr _ page, h.cycles, h.addr, List.range_succ]
    simp

theorem PagesRead.iterate (sel : s.selected = true) (quiet : s.chip.busy = 0)
    (aligned : start_addr.toNat % NAND_PAGE_SIZE = 0)
    (fits : start_addr.toNat + NAND_PAGE_SIZE * k ≤ 2 ^ 32) :
    PagesRead s start_addr buf k ((readPage p)^[k] ⟨start_addr, buf, s⟩) := by
  induction k with
  | zero => exact .start
  | succ k ih =>
    rw [Function.iterate_succ_apply']
    exact (ih (by rw [Nat.mul_succ] at fits; omega)).step sel quiet aligned fits

end ReadLoop

theorem pageLoop_iterate (round : PageLoop → PageLoop) {start_addr size : Word} (l : PageLoop)
    (aligned : size.toNat % NAND_PAGE_SIZE = 0) (fits : start_addr.toNat + size.toNat < 2 ^ 32)
    (addr : ∀ k ≤ size.toNat / NAND_PAGE_SIZE,
      (round^[k] l).addr = start_addr + BitVec.ofNat 32 (NAND_PAGE_SIZE * k)) :
    Loop.whileLoop (fun l => l.addr < start_addr + size) round pageTests l =
      some (round^[size.toNat / NAND_PAGE_SIZE] l) := by
  have bound := size.isLt
  have pages : NAND_PAGE_SIZE * (size.toNat / NAND_PAGE_SIZE) = size.toNat := by
    unfold NAND_PAGE_SIZE at *
    omega
  have stop : (start_addr + size).toNat = start_addr.toNat + size.toNat := by
    rw [BitVec.toNat_add, Nat.mod_eq_of_lt fits]
  have place : ∀ k ≤ size.toNat / NAND_PAGE_SIZE,
      (round^[k] l).addr.toNat = start_addr.toNat + NAND_PAGE_SIZE * k := by
    intro k hk
    have below := Nat.mul_le_mul_left NAND_PAGE_SIZE hk
    rw [addr k hk, toNat_add_pages (by omega)]
  apply Loop.whileLoop_iterate
  · unfold pageTests NAND_PAGE_SIZE
    omega
  · intro k hk
    have here := place k (Nat.le_of_lt hk)
    have below : NAND_PAGE_SIZE * k < NAND_PAGE_SIZE * (size.toNat / NAND_PAGE_SIZE) :=
      Nat.mul_lt_mul_of_pos_left hk (by decide)
    rw [decide_eq_true_eq, BitVec.lt_def, here, stop]
    omega
  · have here := place _ (Nat.le_refl _)
    rw [decide_eq_false_iff_not, BitVec.lt_def, here, stop]
    omega

theorem nand_read_page_eq (p : Part) {start_addr size : Word} (buf : Word) (s : State)
    (ready : Ready s) (start_aligned : start_addr.toNat % NAND_PAGE_SIZE = 0)
    (size_aligned : size.toNat % NAND_PAGE_SIZE = 0)
    (fits : start_addr.toNat + size.toNat < 2 ^ 32) :
    ∃ l, PagesRead (NAND_ENABLE_CE s) start_addr buf (size.toNat / NAND_PAGE_SIZE) l ∧
      nand_read_page p buf start_addr size s = some (NAND_DISABLE_CE l.state) := by
  have read : ∀ k ≤ size.toNat / NAND_PAGE_SIZE, PagesRead (NAND_ENABLE_CE s) start_addr buf k
      ((readPage p)^[k] ⟨start_addr, buf, NAND_ENABLE_CE s⟩) := by
    intro k hk
    have below := Nat.mul_le_mul_left NAND_PAGE_SIZE hk
    have whole := Nat.mul_div_le size.toNat NAND_PAGE_SIZE
    exact .iterate ready.selected ready.quiet start_aligned (by omega)
  refine ⟨_, read _ (Nat.le_refl _), ?_⟩
  rw [nand_read_page, if_neg (page_guard start_aligned size_aligned),
    pageLoop_iterate (readPage p) _ size_aligned fits (fun k hk => (read k hk).addr)]
  rfl

end Tiny6410.Nand
