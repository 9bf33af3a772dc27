import Tiny6410.Nand.Pages

/-! Page programming: what nand_write_page leaves in the array and on the serial
line, page by page and for every status the part reports. -/
namespace Tiny6410.Nand

open Memory

theorem writeBytes_program (n : Nat) (buffer : Word) (s : State) (cycles data : List Byte)
    (sel : s.selected = true) (quiet : s.chip.busy = 0)
    (phase : s.chip.phase = .program cycles data) (five : cycles.length = 5) :
    writeBytes n buffer s =
      { s with
        chip := { s.chip with
          phase := .program cycles
            (data ++ (List.range n).map fun i => s.mem (buffer + BitVec.ofNat 32 i)) }
        cycles := s.cycles ++
          (List.range n).map fun i => .write (s.mem (buffer + BitVec.ofNat 32 i)) } := by
  induction n generalizing buffer s data with
  | zero =>
    obtain ⟨conf, cont, chip, mem, uart, log⟩ := s
    simp only at phase
    simp [writeBytes, ← phase]
  | succ n ih =>
    have shift : ∀ i, buffer + 1#32 + BitVec.ofNat 32 i = buffer + BitVec.ofNat 32 (i + 1) := by
      intro i
      rw [BitVec.add_assoc, ← BitVec.ofNat_add, Nat.add_comm]
    rw [State.selected] at sel
    rw [writeBytes, ih _ _ (data ++ [s.mem buffer]) (by simp [setNFDATA8, State.selected, sel])
      (by simp [setNFDATA8, State.selected, sel, Chip.write, phase, quiet, five])
      (by simp [setNFDATA8, State.selected, sel, Chip.write, phase, quiet, five])]
    rw [List.range_succ_eq_map]
    simp [setNFDATA8, State.selected, sel, Chip.write, phase, quiet, five, shift, Function.comp_def]

def pageData (m : Bytes) (buffer : Word) : List Byte :=
  (List.range NAND_PAGE_SIZE).map fun i => m (buffer + BitVec.ofNat 32 i)

def programSentence (a : Word) (data : List Byte) (status : Byte) : List Cycle :=
  [.command 0x80] ++ (addressCycles a).map .address ++ data.map .write ++
    [.command 0x10, .ready, .command 0x70, .read status]

def afterProgram (p : Part) (c : Chip) (row : Nat) (data : List Byte) : Nat → Nat → Byte :=
  if p.failed c.programs then damaged c.cells row (p.residue c.programs)
  else programmed c.cells row 0 data

theorem status_bit (p : Part) (k : Nat) : p.status k &&& 1#8 = 0#8 ↔ p.failed k = false := by
  unfold Part.failed
  generalize p.status k = b
  revert b
  decide

theorem writePage_eq (p : Part) (l : PageLoop) (sel : l.state.selected = true)
    (quiet : l.state.chip.busy = 0) :
    writePage p l =
      { addr := l.addr + BitVec.ofNat 32 NAND_PAGE_SIZE
        buffer := l.buffer + BitVec.ofNat 32 NAND_PAGE_SIZE
        state := { l.state with
          chip := { l.state.chip with
            cells := afterProgram p l.state.chip (l.addr.toNat / NAND_PAGE_SIZE % pageRows)
              (pageData l.state.mem l.buffer)
            phase := .status
            busy := 0
            operations := l.state.chip.operations + 1
            programs := l.state.chip.programs + 1 }
          uart := l.state.uart ++ if p.failed l.state.chip.programs then [programError] else []
          cycles := l.state.cycles ++
            programSentence l.addr (pageData l.state.mem l.buffer) (p.status l.state.chip.programs) } } := by
  have five : (addressCycles l.addr).length = 5 := rfl
  rw [State.selected] at sel
  simp only [writePage]
  rw [nand_write_address_program _ _ (by simp [setNFCMD, State.selected, sel])
    (by simp [setNFCMD, State.selected, sel, Chip.command, NAND_CMD_PAGEPROG, quiet])
    (by simp [setNFCMD, State.selected, sel, Chip.command, NAND_CMD_PAGEPROG, quiet])]
  rw [writeBytes_program _ _ _ (addressCycles l.addr) [] (by simp [setNFCMD, State.selected, sel])
    (by simp [setNFCMD, State.selected, sel, Chip.command, NAND_CMD_PAGEPROG, quiet]) rfl five]
  simp [setNFCMD, State.selected, sel, Chip.command, NAND_CMD_PAGEPROG, NAND_CMD_PAGEPROG_START,
    NAND_CMD_STATUS, quiet, five, Chip.commit, Chip.begin]
  rw [nand_wait_idle_eq _ (by simp [State.selected, sel])]
  simp [getNFDATA8, State.selected, sel, Chip.read, rowOf_addressCycles, columnOf_addressCycles,
    programSentence, pageData, afterProgram, UART0_SendString]
  cases failed : p.failed l.state.chip.programs with
  | true => simp [status_bit, failed, Function.comp_def]
  | false => simp [status_bit, failed, Function.comp_def]

def columnLeft (p : Part) (k : Nat) (old : Nat → Byte) (data : List Byte) (c : Nat) : Byte :=
  if p.failed k then p.residue k c else old c &&& registerAt 0 data c

theorem afterProgram_apply (p : Part) (c : Chip) (row : Nat) (data : List Byte) (r col : Nat) :
    afterProgram p c row data r col =
      if r = row ∧ col < pageColumns then columnLeft p c.programs (c.cells r) data col
      else c.cells r col := by
  unfold afterProgram columnLeft
  split <;> rfl

theorem registerAt_pageData (m : Bytes) (buffer : Word) {i : Nat} (h : i < NAND_PAGE_SIZE) :
    registerAt 0 (pageData m buffer) i = m (buffer + BitVec.ofNat 32 i) := by
  simp [registerAt, pageData, List.getD_eq_getElem?_getD, h]

structure PagesWritten (p : Part) (s : State) (start_addr buf : Word) (k : Nat) (l : PageLoop) : Prop where
  addr : l.addr = start_addr + BitVec.ofNat 32 (NAND_PAGE_SIZE * k)
  buffer : l.buffer = buf + BitVec.ofNat 32 (NAND_PAGE_SIZE * k)
  cells : ∀ r c, l.state.chip.cells r c =
    let first := start_addr.toNat / NAND_PAGE_SIZE
    if first ≤ r ∧ r < first + k ∧ c < pageColumns then
      columnLeft p (s.chip.programs + (r - first)) (s.chip.cells r)
        (pageData s.mem (buf + BitVec.ofNat 32 (NAND_PAGE_SIZE * (r - first)))) c
    else s.chip.cells r c
  quiet : l.state.chip.busy = 0
  programs : l.state.chip.programs = s.chip.programs + k
  mem : l.state.mem = s.mem
  nfconf : l.state.nfconf = s.nfconf
  nfcont : l.state.nfcont = s.nfcont
  uart : l.state.uart = s.uart ++
    (List.range k).flatMap fun j => if p.failed (s.chip.programs + j) then [programError] else []
  cycles : l.state.cycles = s.cycles ++ (List.range k).flatMap fun j =>
    programSentence (start_addr + BitVec.ofNat 32 (NAND_PAGE_SIZE * j))
      (pageData s.mem (buf + BitVec.ofNat 32 (NAND_PAGE_SIZE * j))) (p.status (s.chip.programs + j))

section WriteLoop

variable {p : Part} {s : State} {start_addr buf : Word} {k : Nat} {l : PageLoop}

theorem PagesWritten.start (quiet : s.chip.busy = 0) :
    PagesWritten p s start_addr buf 0 ⟨start_addr, buf, s⟩ where
  addr := by simp
  buffer := by simp
  cells := by
    intro r c
    have none : ¬ (start_addr.toNat / NAND_PAGE_SIZE ≤ r ∧ r < start_addr.toNat / NAND_PAGE_SIZE + 0 ∧
        c < pageColumns) := by omega
    simp only [if_neg none]
  quiet := quiet
  programs := rfl
  mem := rfl
  nfconf := rfl
  nfcont := rfl
  uart := by simp
  cycles := by simp

theorem PagesWritten.step (h : PagesWritten p s start_addr buf k l) (sel : s.selected = true)
    (fits : start_addr.toNat + NAND_PAGE_SIZE * (k + 1) ≤ 2 ^ 30) :
    PagesWritten p s start_addr buf (k + 1) (writePage p l) := by
  have sel' : l.state.selected = true := by rw [State.selected, h.nfcont]; exact sel
  have here : l.addr.toNat = start_addr.toNat + NAND_PAGE_SIZE * k := by
    rw [h.addr, toNat_add_pages (by rw [Nat.mul_succ] at fits; omega)]
  have row : l.addr.toNat / NAND_PAGE_SIZE % pageRows = start_addr.toNat / NAND_PAGE_SIZE + k := by
    rw [here, Nat.add_mul_div_left _ _ (by decide)]
    apply Nat.mod_eq_of_lt
    unfold NAND_PAGE_SIZE pageRows at *
    omega
  rw [writePage_eq p l sel' h.quiet]
  refine ⟨?_, ?_, ?_, rfl, ?_, h.mem, h.nfconf, h.nfcont, ?_, ?_⟩
  · simp only [h.addr, add_page]
  · simp only [h.buffer, add_page]
  · intro r c
    simp only [afterProgram_apply, row, h.programs, h.mem, h.buffer, h.cells]
    by_cases new : r = start_addr.toNat / NAND_PAGE_SIZE + k
    · -- The page of this round has not been touched by an earlier one.
      subst new
      have old : l.state.chip.cells (start_addr.toNat / NAND_PAGE_SIZE + k) =
          s.chip.cells (start_addr.toNat / NAND_PAGE_SIZE + k) := by
        funext c
        simp [h.cells]
      simp [old]
    · have same : (start_addr.toNat / NAND_PAGE_SIZE ≤ r ∧
          r < start_addr.toNat / NAND_PAGE_SIZE + (k + 1) ∧ c < pageColumns) ↔
          (start_addr.toNat / NAND_PAGE_SIZE ≤ r ∧
            r < start_addr.toNat / NAND_PAGE_SIZE + k ∧ c < pageColumns) := by omega
      simp only [same, new, false_and, if_false]
  · simp only [h.programs, Nat.add_assoc]
  · simp only [h.uart, h.programs, List.range_succ, List.flatMap_append, List.flatMap_singleton,
      List.append_assoc]
  · simp only [h.cycles, h.programs, h.mem, h.addr, h.buffer, List.range_succ, List.flatMap_append,
      List.flatMap_singleton, List.append_assoc]

theorem PagesWritten.iterate (sel : s.selected = true) (quiet : s.chip.busy = 0)
    (fits : start_addr.toNat + NAND_PAGE_SIZE * k ≤ 2 ^ 30) :
    PagesWritten p s start_addr buf k ((writePage p)^[k] ⟨start_addr, buf, s⟩) := by
  induction k with
  | zero => exact .start quiet
  | succ k ih =>
    rw [Function.iterate_succ_apply']
    exact (ih (by rw [Nat.mul_succ] at fits; omega)).step sel fits

theorem PagesWritten.programmed_byte (h : PagesWritten p s start_addr buf k l)
    (aligned : start_addr.toNat % NAND_PAGE_SIZE = 0) {i j : Nat} (hi : i < k) (hj : j < NAND_PAGE_SIZE)
    (success : p.failed (s.chip.programs + i) = false)
    (blank : s.chip.mainByte (start_addr.toNat + (NAND_PAGE_SIZE * i + j)) = 0xff) :
    l.state.chip.mainByte (start_addr.toNat + (NAND_PAGE_SIZE * i + j)) =
      s.mem (buf + BitVec.ofNat 32 (NAND_PAGE_SIZE * i + j)) := by
  have row : (start_addr.toNat + (NAND_PAGE_SIZE * i + j)) / NAND_PAGE_SIZE =
      start_addr.toNat / NAND_PAGE_SIZE + i := by
    unfold NAND_PAGE_SIZE at *
    omega
  have column : (start_addr.toNat + (NAND_PAGE_SIZE * i + j)) % NAND_PAGE_SIZE = j := by
    unfold NAND_PAGE_SIZE at *
    omega
  have spare : j < pageColumns := Nat.lt_trans hj (by decide)
  have address : buf + BitVec.ofNat 32 (NAND_PAGE_SIZE * i) + BitVec.ofNat 32 j =
      buf + BitVec.ofNat 32 (NAND_PAGE_SIZE * i + j) := by
    rw [BitVec.add_assoc, ← BitVec.ofNat_add]
  rw [Chip.mainByte, row, column] at blank ⊢
  rw [h.cells]
  simp only [Nat.le_add_right, Nat.add_lt_add_iff_left, hi, spare, and_self, if_true,
    Nat.add_sub_cancel_left, columnLeft, success, Bool.false_eq_true, if_false,
    registerAt_pageData _ _ hj]
  rw [blank, address]
  exact BitVec.allOnes_and

theorem PagesWritten.other_byte (h : PagesWritten p s start_addr buf k l)
    (aligned : start_addr.toNat % NAND_PAGE_SIZE = 0) {a : Nat}
    (outside : a < start_addr.toNat ∨ start_addr.toNat + NAND_PAGE_SIZE * k ≤ a) :
    l.state.chip.mainByte a = s.chip.mainByte a := by
  have untouched : ¬ (start_addr.toNat / NAND_PAGE_SIZE ≤ a / NAND_PAGE_SIZE ∧
      a / NAND_PAGE_SIZE < start_addr.toNat / NAND_PAGE_SIZE + k ∧ a % NAND_PAGE_SIZE < pageColumns) := by
    unfold NAND_PAGE_SIZE at *
    omega
  rw [Chip.mainByte, h.cells]
  simp only [if_neg untouched]
  rfl

end WriteLoop

theorem nand_write_page_eq (p : Part) {start_addr size : Word} (buf : Word) (s : State)
    (ready : Ready s) (start_aligned : start_addr.toNat % NAND_PAGE_SIZE = 0)
    (size_aligned : size.toNat % NAND_PAGE_SIZE = 0)
    (fits : start_addr.toNat + size.toNat ≤ 2 ^ 30) :
    ∃ l, PagesWritten p (NAND_ENABLE_CE s) start_addr buf (size.toNat / NAND_PAGE_SIZE) l ∧
      nand_write_page p buf size start_addr s = some (NAND_DISABLE_CE l.state) := by
  have written : ∀ k ≤ size.toNat / NAND_PAGE_SIZE,
      PagesWritten p (NAND_ENABLE_CE s) start_addr buf k
        ((writePage p)^[k] ⟨start_addr, buf, NAND_ENABLE_CE s⟩) := by
    intro k hk
    have below := Nat.mul_le_mul_left NAND_PAGE_SIZE hk
    have whole := Nat.mul_div_le size.toNat NAND_PAGE_SIZE
    exact .iterate ready.selected ready.quiet (by omega)
  refine ⟨_, written _ (Nat.le_refl _), ?_⟩
  rw [nand_write_page, if_neg (page_guard start_aligned size_aligned),
    pageLoop_iterate (writePage p) _ size_aligned (by omega) (fun k hk => (written k hk).addr)]
  rfl

/-- Whole pages written to an erased range and read back. A page whose program
reported success returns its buffer, each failing page is reported once, and no
other page of the array changes. The buffer is compared as it was before the call,
so the two memory ranges may overlap. -/
theorem nand_write_page_read_back (p : Part) (s : State) (buffer out start_addr size : Word)
    (ready : Ready s) (start_aligned : start_addr.toNat % NAND_PAGE_SIZE = 0)
    (size_aligned : size.toNat % NAND_PAGE_SIZE = 0)
    (fits : start_addr.toNat + size.toNat ≤ 2 ^ 30)
    (erased : ∀ i < size.toNat, s.chip.mainByte (start_addr.toNat + i) = 0xff) :
    ∃ written final, nand_write_page p buffer size start_addr s = some written ∧
      nand_read_page p out start_addr size written = some final ∧
      (∀ i < size.toNat / NAND_PAGE_SIZE, p.failed (s.chip.programs + i) = false →
        ∀ j < NAND_PAGE_SIZE, final.mem (out + BitVec.ofNat 32 (NAND_PAGE_SIZE * i + j)) =
          s.mem (buffer + BitVec.ofNat 32 (NAND_PAGE_SIZE * i + j))) ∧
      (final.uart = s.uart ++ (List.range (size.toNat / NAND_PAGE_SIZE)).flatMap fun i =>
        if p.failed (s.chip.programs + i) then [programError] else []) ∧
      ∀ a < 2 ^ 30, a < start_addr.toNat ∨ start_addr.toNat + size.toNat ≤ a →
        final.chip.mainByte a = s.chip.mainByte a := by
  obtain ⟨l, hw, write⟩ := nand_write_page_eq p buffer s ready start_aligned size_aligned fits
  have again : Ready (NAND_DISABLE_CE l.state) := by
    refine ⟨?_, hw.quiet⟩
    rw [disable_enabled, hw.nfcont, enable_enabled, ready.enabled]
  obtain ⟨r, hr, read⟩ := nand_read_page_eq p out _ again start_aligned size_aligned (by omega)
  have whole : NAND_PAGE_SIZE * (size.toNat / NAND_PAGE_SIZE) = size.toNat :=
    Nat.mul_div_cancel' (Nat.dvd_of_mod_eq_zero size_aligned)
  refine ⟨_, _, write, read, ?_, ?_, ?_⟩
  · intro i hi success j hj
    have inside : NAND_PAGE_SIZE * i + j < size.toNat := by
      have below := Nat.mul_le_mul_left NAND_PAGE_SIZE (Nat.succ_le_of_lt hi)
      rw [Nat.mul_succ] at below
      omega
    have stored : (NAND_DISABLE_CE r.state).mem (out + BitVec.ofNat 32 (NAND_PAGE_SIZE * i + j)) =
        l.state.chip.byteAt (start_addr.toNat + (NAND_PAGE_SIZE * i + j)) := by
      change r.state.mem _ = _
      rw [hr.mem, overlay_at _ _ _ (by rw [whole]; exact inside) (by omega)]
      rfl
    rw [stored, byteAt_eq_mainByte _ (by omega)]
    exact hw.programmed_byte start_aligned hi hj success (erased _ inside)
  · change r.state.uart = _
    rw [hr.uart]
    exact hw.uart
  · intro a _ outside
    have same : r.state.chip.cells = l.state.chip.cells := by rw [hr.chip]; rfl
    change r.state.chip.mainByte a = _
    rw [Chip.mainByte, same]
    exact hw.other_byte start_aligned (by rw [whole]; exact outside)

def flakyPart : Part where
  latency := fun _ => 0
  status := fun k => if k = 1 then 0xc1 else 0xc0
  residue := fun _ _ => 0
  ident := fun _ => 0xec
  undriven := 0xff

def erasedState : State where
  nfconf := 0x2f70
  nfcont := 0x3
  chip := { cells := fun _ _ => 0xff, phase := .idle, busy := 0, operations := 0, programs := 0 }
  mem := fun a => a.setWidth 8
  uart := []
  cycles := []

theorem nand_write_page_read_back_two_pages :
    ∃ written final, nand_write_page flakyPart 0x51000005 4096 0x10000000 erasedState = some written ∧
      nand_read_page flakyPart 0x52000000 0x10000000 4096 written = some final ∧
      final.mem 0x52000000 = 0x05 ∧ final.uart = [programError] := by
  obtain ⟨w, r, write, read, page, uart, _⟩ :=
    nand_write_page_read_back flakyPart erasedState 0x51000005 0x52000000 0x10000000 4096
      ⟨by decide, rfl⟩ (by decide) (by decide) (by decide) (fun _ _ => rfl)
  refine ⟨w, r, write, read, ?_, ?_⟩
  · exact page 0 (by decide) rfl 0 (by decide)
  · rw [uart]
    rfl

end Tiny6410.Nand
