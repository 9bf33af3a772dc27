import Tiny6410.Lib.Trace
import Tiny6410.Nand.Copy

/-! The cycles of the driver on the bus against the command set of the part. The trace
of a call does not depend on what the part answers, so the language of each function
holds from every state. -/
namespace Tiny6410.Nand

open Memory Computability Trace

/-! The command set, readme.md of workspace/nand. -/

namespace Bus

def command (b : Byte) : Language Cycle := {[.command b]}
def address : Language Cycle := each .address
def write : Language Cycle := each .write
def read : Language Cycle := each .read
def ready : Language Cycle := {[.ready]}

def reset : Language Cycle := command 0xff * ready
def readID : Language Cycle := command 0x90 * address * read∗
def readPage : Language Cycle := command 0x00 * address ^ 5 * command 0x30 * ready * read∗
def program : Language Cycle :=
  command 0x80 * address ^ 5 * write ^ NAND_PAGE_SIZE * command 0x10 * ready * command 0x70 * read

def sentence : Language Cycle := reset + readID + readPage + program

/-- R/nB is low from an array command until a sample sees it high. -/
def rnb (b : Bool) : Cycle → Bool
  | .command x => b || x == 0xff || x == 0x30 || x == 0x10
  | .ready => false
  | _ => b

def busy (w : List Cycle) : Bool := w.foldl rnb false

/-- A command with its address cycles. -/
def opening (b : Byte) (cycles : List Byte) : List Cycle := .command b :: cycles.map .address

def OpenedRead (x : List Cycle) : Prop :=
  ∃ (before : List Cycle) (cycles : List Byte), cycles.length = 5 ∧ x = before ++ opening 0x00 cycles

def OpenedProgram (x : List Cycle) : Prop :=
  ∃ (before : List Cycle) (cycles data : List Byte), cycles.length = 5 ∧ data.length = NAND_PAGE_SIZE ∧
    x = before ++ (opening 0x80 cycles ++ data.map .write)

/-- The documented command set: complete sentences, no 30h or 10h without what opens it,
and no data cycle while the part is busy. -/
structure Proper (w : List Cycle) : Prop where
  sentences : w ∈ sentence∗
  read_opened : Preceded (· = .command 0x30) OpenedRead w
  program_opened : Preceded (· = .command 0x10) OpenedProgram w
  quiet : Preceded (fun c => ∃ b, c = .read b) (fun x => busy x = false) w

/-! The sentences as lists of cycles. -/

theorem sentence_cases {t : List Cycle} (h : t ∈ sentence) :
    t = [Cycle.command 0xff, Cycle.ready] ∨
    (∃ (a : Byte) (data : List Byte), t = opening 0x90 [a] ++ data.map Cycle.read) ∨
    (∃ cycles data : List Byte, cycles.length = 5 ∧
      t = (opening 0x00 cycles ++ [Cycle.command 0x30, Cycle.ready]) ++ data.map Cycle.read) ∨
    ∃ (cycles data : List Byte) (status : Byte), cycles.length = 5 ∧ data.length = NAND_PAGE_SIZE ∧
      t = (opening 0x80 cycles ++ data.map Cycle.write ++
        [Cycle.command 0x10, Cycle.ready, Cycle.command 0x70]) ++ [status].map Cycle.read := by
  rcases h with ((h | h) | h) | h
  · obtain ⟨_, rfl, _, rfl, rfl⟩ := h
    exact .inl rfl
  · obtain ⟨_, ⟨_, rfl, _, ⟨a, rfl⟩, rfl⟩, u, reads, rfl⟩ := h
    obtain ⟨data, rfl⟩ := mem_each_kstar reads
    exact .inr (.inl ⟨a, data, rfl⟩)
  · obtain ⟨_, ⟨_, ⟨_, ⟨_, rfl, v, address, rfl⟩, _, rfl, rfl⟩, _, rfl, rfl⟩, u, reads, rfl⟩ := h
    obtain ⟨cycles, five, rfl⟩ := mem_each_pow address
    obtain ⟨data, rfl⟩ := mem_each_kstar reads
    exact .inr (.inr (.inl ⟨cycles, data, five, by simp [opening]⟩))
  · obtain ⟨_, ⟨_, ⟨_, ⟨_, ⟨_, ⟨_, rfl, v, address, rfl⟩, u, writes, rfl⟩, _, rfl, rfl⟩, _, rfl, rfl⟩, _, rfl, rfl⟩,
      _, ⟨status, rfl⟩, rfl⟩ := h
    obtain ⟨cycles, five, rfl⟩ := mem_each_pow address
    obtain ⟨data, all, rfl⟩ := mem_each_pow writes
    exact .inr (.inr (.inr ⟨cycles, data, status, five, all, by simp [opening]⟩))

theorem OpenedRead.shift {x : List Cycle} (h : OpenedRead x) (s : List Cycle) : OpenedRead (s ++ x) := by
  obtain ⟨before, cycles, five, rfl⟩ := h
  exact ⟨s ++ before, cycles, five, by rw [List.append_assoc]⟩

theorem OpenedProgram.shift {x : List Cycle} (h : OpenedProgram x) (s : List Cycle) : OpenedProgram (s ++ x) := by
  obtain ⟨before, cycles, data, five, all, rfl⟩ := h
  exact ⟨s ++ before, cycles, data, five, all, by rw [List.append_assoc]⟩

theorem opening_none {kind : Cycle → Prop} {Q : List Cycle → Prop} {b : Byte} (command : ¬ kind (.command b))
    (address : ∀ a, ¬ kind (.address a)) (cycles : List Byte) : Preceded kind Q (opening b cycles) := by
  apply preceded_of_none
  intro c mem
  rcases List.mem_cons.mp mem with rfl | later
  · exact command
  · obtain ⟨a, -, rfl⟩ := List.mem_map.mp later
    exact address a

theorem map_none {kind : Cycle → Prop} {Q : List Cycle → Prop} {f : Byte → Cycle} (other : ∀ b, ¬ kind (f b))
    (data : List Byte) : Preceded kind Q (data.map f) := by
  apply preceded_of_none
  intro c mem
  obtain ⟨b, -, rfl⟩ := List.mem_map.mp mem
  exact other b

theorem sentence_read_opened {t : List Cycle} (h : t ∈ sentence) : Preceded (· = .command 0x30) OpenedRead t := by
  rcases sentence_cases h with rfl | ⟨a, data, rfl⟩ | ⟨cycles, data, five, rfl⟩ |
    ⟨cycles, data, status, five, all, rfl⟩
  · exact preceded_of_none (by decide)
  · exact preceded_append.mpr ⟨opening_none (by decide) (by simp) _, map_none (by simp) _⟩
  · simp only [preceded_append, preceded_cons]
    refine ⟨⟨opening_none (by decide) (by simp) _, fun _ => ⟨[], cycles, five, List.append_nil _⟩, by simp,
      preceded_nil⟩, map_none (by simp) _⟩
  · simp only [preceded_append, preceded_cons]
    exact ⟨⟨⟨opening_none (by decide) (by simp) _, map_none (by simp) _⟩, by simp, by simp, by simp,
      preceded_nil⟩, map_none (by simp) _⟩

theorem sentence_program_opened {t : List Cycle} (h : t ∈ sentence) :
    Preceded (· = .command 0x10) OpenedProgram t := by
  rcases sentence_cases h with rfl | ⟨a, data, rfl⟩ | ⟨cycles, data, five, rfl⟩ |
    ⟨cycles, data, status, five, all, rfl⟩
  · exact preceded_of_none (by decide)
  · exact preceded_append.mpr ⟨opening_none (by decide) (by simp) _, map_none (by simp) _⟩
  · simp only [preceded_append, preceded_cons]
    exact ⟨⟨opening_none (by decide) (by simp) _, by simp, by simp, preceded_nil⟩, map_none (by simp) _⟩
  · simp only [preceded_append, preceded_cons]
    refine ⟨⟨⟨opening_none (by decide) (by simp) _, map_none (by simp) _⟩, fun _ => ?_, by simp, by simp,
      preceded_nil⟩, map_none (by simp) _⟩
    exact ⟨[], cycles, data, five, all, List.append_nil _⟩

theorem foldl_rnb {x : List Cycle} (keeps : ∀ c ∈ x, ∀ b, rnb b c = b) (b : Bool) : x.foldl rnb b = b := by
  induction x with
  | nil => rfl
  | cons c rest ih =>
    rw [List.foldl_cons, keeps c List.mem_cons_self, ih fun d mem => keeps d (List.mem_cons_of_mem c mem)]

theorem foldl_rnb_map {f : Byte → Cycle} (keeps : ∀ d b, rnb b (f d) = b) (b : Bool) (data : List Byte) :
    (data.map f).foldl rnb b = b :=
  foldl_rnb (fun c mem b => by obtain ⟨d, -, rfl⟩ := List.mem_map.mp mem; exact keeps d b) b

theorem busy_append (s x : List Cycle) : busy (s ++ x) = x.foldl rnb (busy s) := List.foldl_append

/-- The data cycles after a prefix that ends ready. -/
theorem reads_quiet {before : List Cycle} (ready : busy before = false) (data : List Byte) :
    Preceded (fun c => ∃ b, c = Cycle.read b) (fun x => busy (before ++ x) = false) (data.map .read) := by
  intro x c y split _
  rw [busy_append, ready]
  apply foldl_rnb
  intro d mem b
  have read : d ∈ data.map Cycle.read := by
    rw [split]
    exact List.mem_append_left _ mem
  obtain ⟨v, -, rfl⟩ := List.mem_map.mp read
  rfl

theorem sentence_quiet {t : List Cycle} (h : t ∈ sentence) :
    Preceded (fun c => ∃ b, c = .read b) (fun x => busy x = false) t ∧ busy t = false := by
  have addresses : ∀ (b : Byte) (cycles : List Byte), (opening b cycles).foldl rnb false = rnb false (.command b) := fun b cycles =>
    foldl_rnb_map (f := .address) (fun _ _ => rfl) _ cycles
  have writes := fun b data => foldl_rnb_map (f := .write) (fun _ _ => rfl) b data
  -- A sentence with data to read has none before, and is ready by then.
  have reading : ∀ (before : List Cycle) (data : List Byte), busy before = false → Preceded (fun c => ∃ b, c = .read b) (fun x => busy x = false)
      before → Preceded (fun c => ∃ b, c = .read b) (fun x => busy x = false) (before ++ data.map .read) ∧
        busy (before ++ data.map .read) = false := by
    intro before data ready none
    refine ⟨preceded_append.mpr ⟨none, reads_quiet ready data⟩, ?_⟩
    rw [busy_append, ready]
    exact foldl_rnb_map (fun _ _ => rfl) _ data
  rcases sentence_cases h with rfl | ⟨a, data, rfl⟩ | ⟨cycles, data, five, rfl⟩ |
    ⟨cycles, data, status, five, all, rfl⟩
  · exact ⟨preceded_of_none (by simp), rfl⟩
  · exact reading _ _ rfl (opening_none (by simp) (by simp) _)
  · apply reading
    · rw [busy, List.foldl_append, addresses]
      rfl
    · exact preceded_append.mpr ⟨opening_none (by simp) (by simp) _, preceded_of_none (by simp)⟩
  · apply reading
    · rw [busy, List.foldl_append, List.foldl_append, addresses, writes]
      rfl
    · exact preceded_append.mpr ⟨preceded_append.mpr ⟨opening_none (by simp) (by simp) _, map_none (by simp) _⟩,
        preceded_of_none (by simp)⟩

theorem proper_of_mem {w : List Cycle} (h : w ∈ sentence∗) : Proper w where
  sentences := h
  read_opened := preceded_kstar (fun _ => sentence_read_opened) (fun s _ _ opened => opened.shift s) h
  program_opened := preceded_kstar (fun _ => sentence_program_opened) (fun s _ _ opened => opened.shift s) h
  quiet := by
    refine preceded_kstar (fun _ mem => (sentence_quiet mem).1) (fun s mem x ready => ?_) h
    rw [busy_append, (sentence_quiet mem).2]
    exact ready

/-- No sentence ends in a command, so none is left open. -/
theorem sentence_last {t : List Cycle} (h : t ∈ sentence) (b : Byte) : t.getLast? ≠ some (.command b) := by
  -- Data cycles at the end leave the rest of the sentence as it is or are the last.
  have reading : ∀ (before : List Cycle) (data : List Byte), before.getLast? ≠ some (.command b) →
      (before ++ data.map Cycle.read).getLast? ≠ some (.command b) := by
    intro before data plain
    rw [List.getLast?_append, List.getLast?_map]
    cases data.getLast? with
    | none => exact plain
    | some d => simp
  rcases sentence_cases h with rfl | ⟨a, data, rfl⟩ | ⟨cycles, data, five, rfl⟩ |
    ⟨cycles, data, status, five, all, rfl⟩
  · simp
  · exact reading _ _ (by simp [opening])
  · exact reading _ _ (by simp)
  · simp

theorem sentences_last {w : List Cycle} (h : w ∈ sentence∗) (b : Byte) : w.getLast? ≠ some (.command b) := by
  obtain ⟨words, rfl, all⟩ := Language.mem_kstar.mp h
  clear h
  induction words with
  | nil => simp
  | cons t rest ih =>
    have first := sentence_last (all t List.mem_cons_self) b
    have later := ih fun u mem => all u (List.mem_cons_of_mem t mem)
    rw [List.flatten_cons, List.getLast?_append]
    cases last : rest.flatten.getLast? with
    | none => simpa using first
    | some c => rwa [last] at later

end Bus

/-- From s to s' the controller register is kept, and the part, if it is selected, has
seen a word of the language. -/
structure Emits (l : Language Cycle) (s s' : State) : Prop where
  nfcont : s'.nfcont = s.nfcont
  selected : s.selected = true → ∃ t ∈ l, s'.cycles = s.cycles ++ t
  deselected : s.selected = false → s'.cycles = s.cycles

section Emits

variable {l m : Language Cycle} {s s' s'' : State}

theorem Emits.refl (s : State) : Emits 1 s s :=
  ⟨rfl, fun _ => ⟨[], rfl, (List.append_nil _).symm⟩, fun _ => rfl⟩

theorem Emits.trans (first : Emits l s s') (second : Emits m s' s'') : Emits (l * m) s s'' where
  nfcont := second.nfcont.trans first.nfcont
  selected := by
    intro sel
    obtain ⟨t, ht, trace⟩ := first.selected sel
    obtain ⟨u, hu, later⟩ := second.selected (by rw [State.selected, first.nfcont]; exact sel)
    exact ⟨t ++ u, Language.append_mem_mul ht hu, by rw [later, trace, List.append_assoc]⟩
  deselected := by
    intro off
    rw [second.deselected (by rw [State.selected, first.nfcont]; exact off), first.deselected off]

theorem Emits.mono (h : Emits l s s') (le : l ≤ m) : Emits m s s' where
  nfcont := h.nfcont
  selected := fun sel => by
    obtain ⟨t, ht, trace⟩ := h.selected sel
    exact ⟨t, le ht, trace⟩
  deselected := h.deselected

theorem Emits.uart (h : Emits l s s') (text : String) : Emits l s (UART0_SendString text s') :=
  ⟨h.nfcont, h.selected, h.deselected⟩

end Emits

/-! The registers and the helper functions of the driver. -/

theorem setNFCMD_emits (p : Part) {v : Word} {b : Byte} (byte : v.setWidth 8 = b) (s : State) :
    Emits (Bus.command b) s (setNFCMD p v s) := by
  unfold setNFCMD
  rw [byte]
  split
  · rename_i sel
    exact ⟨rfl, fun _ => ⟨_, rfl, rfl⟩, fun off => by simp [sel] at off⟩
  · rename_i off
    exact ⟨rfl, fun sel => absurd sel off, fun _ => rfl⟩

theorem setNFADDR_emits (v : Word) (s : State) : Emits Bus.address s (setNFADDR v s) := by
  unfold setNFADDR
  split
  · rename_i sel
    exact ⟨rfl, fun _ => ⟨_, ⟨_, rfl⟩, rfl⟩, fun off => by simp [sel] at off⟩
  · rename_i off
    exact ⟨rfl, fun sel => absurd sel off, fun _ => rfl⟩

theorem setNFDATA8_emits (b : Byte) (s : State) : Emits Bus.write s (setNFDATA8 b s) := by
  unfold setNFDATA8
  split
  · rename_i sel
    exact ⟨rfl, fun _ => ⟨_, ⟨_, rfl⟩, rfl⟩, fun off => by simp [sel] at off⟩
  · rename_i off
    exact ⟨rfl, fun sel => absurd sel off, fun _ => rfl⟩

theorem getNFDATA8_emits (p : Part) (s : State) : Emits Bus.read s (getNFDATA8 p s).2 := by
  unfold getNFDATA8
  split
  · rename_i sel
    exact ⟨rfl, fun _ => ⟨_, ⟨_, rfl⟩, rfl⟩, fun off => by simp [sel] at off⟩
  · rename_i off
    exact ⟨rfl, fun sel => absurd sel off, fun _ => rfl⟩

theorem pollNFSTAT_off (n : Nat) (s : State) (off : s.selected = false) :
    (pollNFSTAT n s).nfcont = s.nfcont ∧ (pollNFSTAT n s).cycles = s.cycles := by
  induction n generalizing s with
  | zero => exact ⟨rfl, rfl⟩
  | succ n ih =>
    have sample : (getNFSTAT s).2.nfcont = s.nfcont ∧ (getNFSTAT s).2.cycles = s.cycles := by
      unfold getNFSTAT
      split <;> simp [off]
    rw [pollNFSTAT]
    split
    · obtain ⟨cont, cycles⟩ := ih (getNFSTAT s).2 (by rw [State.selected, sample.1]; exact off)
      exact ⟨cont.trans sample.1, cycles.trans sample.2⟩
    · exact sample

theorem nand_wait_idle_emits (s : State) : Emits Bus.ready s (nand_wait_idle s) := by
  cases sel : s.selected with
  | true =>
    rw [nand_wait_idle_eq s sel]
    exact ⟨rfl, fun _ => ⟨_, rfl, rfl⟩, fun off => by simp [sel] at off⟩
  | false =>
    obtain ⟨cont, cycles⟩ := pollNFSTAT_off (s.chip.busy + 1) s sel
    exact ⟨cont, fun on => by simp [sel] at on, fun _ => cycles⟩

theorem nand_write_address_emits (a : Word) (s : State) : Emits (Bus.address ^ 5) s (nand_write_address a s) := by
  have five : Bus.address ^ 5 = Bus.address * Bus.address * Bus.address * Bus.address * Bus.address := by
    simp only [pow_succ, pow_zero, one_mul]
  rw [five]
  exact ((((setNFADDR_emits _ _).trans (setNFADDR_emits _ _)).trans (setNFADDR_emits _ _)).trans
    (setNFADDR_emits _ _)).trans (setNFADDR_emits _ _)

theorem readBytes_emits (p : Part) (n : Nat) (buffer : Word) (s : State) :
    Emits (Bus.read ^ n) s (readBytes p n buffer s) := by
  induction n generalizing buffer s with
  | zero => exact .refl s
  | succ n ih =>
    rw [readBytes, pow_succ']
    have first := getNFDATA8_emits p s
    have stored : Emits Bus.read s
        { (getNFDATA8 p s).2 with mem := store (getNFDATA8 p s).2.mem buffer (getNFDATA8 p s).1 } :=
      ⟨first.nfcont, first.selected, first.deselected⟩
    exact stored.trans (ih (buffer + 1) _)

theorem writeBytes_emits (n : Nat) (buffer : Word) (s : State) :
    Emits (Bus.write ^ n) s (writeBytes n buffer s) := by
  induction n generalizing buffer s with
  | zero => exact .refl s
  | succ n ih =>
    rw [writeBytes, pow_succ']
    exact (setNFDATA8_emits _ s).trans (ih (buffer + 1) _)

theorem readPage_emits (p : Part) (l : PageLoop) : Emits Bus.readPage l.state (readPage p l).state := by
  have opening : ∀ s, Emits (Bus.command 0x00) s (setNFCMD p NAND_CMD_READ s) := setNFCMD_emits p rfl
  have start : ∀ s, Emits (Bus.command 0x30) s (setNFCMD p NAND_CMD_READ_START s) := setNFCMD_emits p rfl
  have reads : ∀ s, Emits Bus.read∗ s (readBytes p NAND_PAGE_SIZE l.buffer s) := fun s =>
    (readBytes_emits p NAND_PAGE_SIZE l.buffer s).mono (pow_le_kstar _ _)
  simp only [readPage, Bus.readPage]
  exact ((((opening l.state).trans (nand_write_address_emits l.addr _)).trans (start _)).trans
    (nand_wait_idle_emits _)).trans (reads _)

theorem writePage_emits (p : Part) (l : PageLoop) : Emits Bus.program l.state (writePage p l).state := by
  have opening : ∀ s, Emits (Bus.command 0x80) s (setNFCMD p NAND_CMD_PAGEPROG s) := setNFCMD_emits p rfl
  have start : ∀ s, Emits (Bus.command 0x10) s (setNFCMD p NAND_CMD_PAGEPROG_START s) := setNFCMD_emits p rfl
  have status : ∀ s, Emits (Bus.command 0x70) s (setNFCMD p NAND_CMD_STATUS s) := setNFCMD_emits p rfl
  have programmed := ((((((opening l.state).trans (nand_write_address_emits l.addr _)).trans
    (writeBytes_emits NAND_PAGE_SIZE l.buffer _)).trans (start _)).trans (nand_wait_idle_emits _)).trans
    (status _)).trans (getNFDATA8_emits p _)
  simp only [writePage, Bus.program]
  split
  · exact programmed.uart _
  · exact programmed

/-- The page loops end for all arguments that pass the test at their head: the address
meets its limit, or is not below it from the start. -/
theorem pageLoop_ends (round : PageLoop → PageLoop)
    (next : ∀ l, (round l).addr = l.addr + BitVec.ofNat 32 NAND_PAGE_SIZE) {start_addr size : Word} (l : PageLoop)
    (guard : ¬ (start_addr &&& NAND_PAGE_MASK ≠ 0 ∨ size &&& NAND_PAGE_MASK ≠ 0)) (first : l.addr = start_addr) :
    ∃ n, Loop.whileLoop (fun l => l.addr < start_addr + size) round pageTests l = some (round^[n] l) := by
  rw [not_or, ne_eq, ne_eq, not_not, not_not, mask_eq_zero_iff, mask_eq_zero_iff] at guard
  have addr : ∀ k, (round^[k] l).addr = start_addr + BitVec.ofNat 32 (NAND_PAGE_SIZE * k) := by
    intro k
    induction k with
    | zero => simp [first]
    | succ k ih => rw [Function.iterate_succ_apply', next, ih, add_page]
  have aligned : (start_addr + size).toNat % NAND_PAGE_SIZE = 0 := by
    rw [BitVec.toNat_add]
    unfold NAND_PAGE_SIZE at *
    omega
  have bound := (start_addr + size).isLt
  obtain ⟨limit, hlimit⟩ : ∃ n, (start_addr + size).toNat = n := ⟨_, rfl⟩
  rw [hlimit] at aligned bound
  have place : ∀ k ≤ (limit - start_addr.toNat) / NAND_PAGE_SIZE,
      (round^[k] l).addr.toNat = start_addr.toNat + NAND_PAGE_SIZE * k := by
    intro k hk
    have low := start_addr.isLt
    unfold NAND_PAGE_SIZE at *
    rw [addr k, BitVec.toNat_add, BitVec.toNat_ofNat]
    omega
  refine ⟨(limit - start_addr.toNat) / NAND_PAGE_SIZE, Loop.whileLoop_iterate _ _ ?_ ?_ ?_⟩
  · unfold pageTests NAND_PAGE_SIZE
    omega
  · intro k hk
    have here := place k (Nat.le_of_lt hk)
    unfold NAND_PAGE_SIZE at *
    rw [decide_eq_true_eq, BitVec.lt_def, here, hlimit]
    omega
  · have here := place _ (Nat.le_refl _)
    unfold NAND_PAGE_SIZE at *
    rw [decide_eq_false_iff_not, BitVec.lt_def, here, hlimit]
    omega

theorem iterate_emits {round : PageLoop → PageLoop} {sentence : Language Cycle}
    (one : ∀ l, Emits sentence l.state (round l).state) (n : Nat) (l : PageLoop) :
    Emits sentence∗ l.state (round^[n] l).state := by
  have counted : Emits (sentence ^ n) l.state (round^[n] l).state := by
    induction n with
    | zero => exact .refl _
    | succ n ih =>
      rw [Function.iterate_succ_apply', pow_succ]
      exact ih.trans (one _)
  exact counted.mono (pow_le_kstar _ _)

/-- What a call puts on the bus when the controller is on. Of NFCONT it changes nothing
but the chip select. -/
structure Issues (l : Language Cycle) (s s' : State) : Prop where
  others : ∀ i ≠ 1, s'.nfcont.getLsbD i = s.nfcont.getLsbD i
  on : s.nfcont.getLsbD 0 = true → ∃ t ∈ l, s'.cycles = s.cycles ++ t
  off : s.nfcont.getLsbD 0 = false → s'.cycles = s.cycles

/-- A part that was not selected before is not selected after. -/
def Deselects (s s' : State) : Prop := s.nfcont.getLsbD 1 = true → s'.nfcont.getLsbD 1 = true

section Issues

variable {l m : Language Cycle} {s s' s'' : State}

theorem Issues.enabled (h : Issues l s s') : s'.nfcont.getLsbD 0 = s.nfcont.getLsbD 0 := h.others 0 (by decide)

theorem Issues.refl (s : State) : Issues 1 s s :=
  ⟨fun _ _ => rfl, fun _ => ⟨[], rfl, (List.append_nil _).symm⟩, fun _ => rfl⟩

theorem Issues.trans (first : Issues l s s') (second : Issues m s' s'') : Issues (l * m) s s'' where
  others := fun i hi => (second.others i hi).trans (first.others i hi)
  on := by
    intro on
    obtain ⟨t, ht, trace⟩ := first.on on
    obtain ⟨u, hu, later⟩ := second.on (first.enabled.trans on)
    exact ⟨t ++ u, Language.append_mem_mul ht hu, by rw [later, trace, List.append_assoc]⟩
  off := by
    intro off
    rw [second.off (first.enabled.trans off), first.off off]

theorem Issues.mono (h : Issues l s s') (le : l ≤ m) : Issues m s s' where
  others := h.others
  on := fun on => by
    obtain ⟨t, ht, trace⟩ := h.on on
    exact ⟨t, le ht, trace⟩
  off := h.off

theorem select_bit (i : Nat) : ((1 : Word) <<< 1).getLsbD i = decide (i = 1) :=
  getLsbD_one (by decide) i

theorem enable_others (s : State) {i : Nat} (hi : i ≠ 1) :
    (NAND_ENABLE_CE s).nfcont.getLsbD i = s.nfcont.getLsbD i := by
  rw [NAND_ENABLE_CE, getLsbD_clear, select_bit, decide_eq_false hi, Bool.not_false, Bool.and_true]

theorem disable_others (s : State) {i : Nat} (hi : i ≠ 1) :
    (NAND_DISABLE_CE s).nfcont.getLsbD i = s.nfcont.getLsbD i := by
  rw [NAND_DISABLE_CE, BitVec.getLsbD_or, select_bit, decide_eq_false hi, Bool.or_false]

theorem disable_deselects (s s' : State) : Deselects s (NAND_DISABLE_CE s') := by
  intro _
  rw [NAND_DISABLE_CE, BitVec.getLsbD_or, select_bit, decide_eq_true rfl, Bool.or_true]

theorem Emits.issues (h : Emits l (NAND_ENABLE_CE s) s') : Issues l s s' where
  others := fun i hi => by rw [h.nfcont, enable_others s hi]
  on := fun on => h.selected (by rw [enable_selected, on])
  off := fun off => h.deselected (by rw [enable_selected, off])

theorem Issues.disable (h : Issues l s s') : Issues l s (NAND_DISABLE_CE s') :=
  ⟨fun i hi => (disable_others s' hi).trans (h.others i hi), h.on, h.off⟩

end Issues

/-! The functions of the driver. -/

theorem nand_reset_issues (p : Part) (s : State) :
    Issues Bus.reset s (nand_reset p s) ∧ Deselects s (nand_reset p s) := by
  have command : ∀ s, Emits (Bus.command 0xff) s (setNFCMD p NAND_CMD_RESET s) := setNFCMD_emits p rfl
  exact ⟨((command _).trans (nand_wait_idle_emits _)).issues.disable, disable_deselects _ _⟩

theorem nand_readID_emits (p : Part) (buffer : Word) (s : State) :
    Emits Bus.readID (NAND_ENABLE_CE s) (nand_readID p buffer s) := by
  have command : ∀ s, Emits (Bus.command 0x90) s (setNFCMD p NAND_CMD_READID s) := setNFCMD_emits p rfl
  have reads : ∀ s, Emits Bus.read∗ s (readBytes p 6 buffer s) := fun s =>
    (readBytes_emits p 6 buffer s).mono (pow_le_kstar _ _)
  exact ((command _).trans (setNFADDR_emits 0 _)).trans (reads _)

theorem nand_readID_selects (p : Part) (buffer : Word) (s : State) :
    (nand_readID p buffer s).nfcont.getLsbD 1 = false := by
  rw [(nand_readID_emits p buffer s).nfcont, NAND_ENABLE_CE, BitVec.getLsbD_and, BitVec.getLsbD_not, select_bit]
  simp

theorem readPage_addr (p : Part) (l : PageLoop) :
    (readPage p l).addr = l.addr + BitVec.ofNat 32 NAND_PAGE_SIZE := by
  simp only [readPage]

theorem writePage_addr (p : Part) (l : PageLoop) :
    (writePage p l).addr = l.addr + BitVec.ofNat 32 NAND_PAGE_SIZE := by
  simp only [writePage]

theorem pageLoop_issues {round : PageLoop → PageLoop} {sentence : Language Cycle}
    (next : ∀ l, (round l).addr = l.addr + BitVec.ofNat 32 NAND_PAGE_SIZE)
    (one : ∀ l, Emits sentence l.state (round l).state) {buffer start_addr size : Word} (s : State)
    (guard : ¬ (start_addr &&& NAND_PAGE_MASK ≠ 0 ∨ size &&& NAND_PAGE_MASK ≠ 0)) :
    ∃ s', (Loop.whileLoop (fun l => l.addr < start_addr + size) round pageTests
      ⟨start_addr, buffer, NAND_ENABLE_CE s⟩).map (fun l => NAND_DISABLE_CE l.state) = some s' ∧
        Issues sentence∗ s s' ∧ Deselects s s' := by
  obtain ⟨n, run⟩ := pageLoop_ends round next ⟨start_addr, buffer, NAND_ENABLE_CE s⟩ guard rfl
  have issued : Issues sentence∗ s (round^[n] ⟨start_addr, buffer, NAND_ENABLE_CE s⟩).state :=
    (iterate_emits one n ⟨start_addr, buffer, NAND_ENABLE_CE s⟩).issues
  rw [run]
  exact ⟨_, rfl, issued.disable, disable_deselects _ _⟩

theorem Issues.none (l : Language Cycle) (s : State) : Issues l∗ s s := (Issues.refl s).mono one_le_kstar

theorem nand_read_page_issues (p : Part) (buffer start_addr size : Word) (s : State) :
    ∃ s', nand_read_page p buffer start_addr size s = some s' ∧ Issues Bus.readPage∗ s s' ∧ Deselects s s' := by
  unfold nand_read_page
  split
  · exact ⟨s, rfl, .none _ s, fun h => h⟩
  · rename_i guard
    exact pageLoop_issues (readPage_addr p) (readPage_emits p) s guard

theorem nand_write_page_issues (p : Part) (buffer size start_addr : Word) (s : State) :
    ∃ s', nand_write_page p buffer size start_addr s = some s' ∧ Issues Bus.program∗ s s' ∧ Deselects s s' := by
  unfold nand_write_page
  split
  · exact ⟨s, rfl, .none _ s, fun h => h⟩
  · rename_i guard
    exact pageLoop_issues (writePage_addr p) (writePage_emits p) s guard

/-- What nand_read_in_page sends: there is no 00h before the address. -/
def Bus.unopened : Language Cycle := Bus.address ^ 5 * Bus.command 0x30 * Bus.ready * Bus.read∗

/-- nand_read_in_page returns at once. -/
def OtherPage (srcAddr size : Word) : Prop :=
  srcAddr &&& ~~~NAND_PAGE_MASK ≠ (srcAddr + size - 1) &&& ~~~NAND_PAGE_MASK

instance (srcAddr size : Word) : Decidable (OtherPage srcAddr size) := inferInstanceAs (Decidable (_ ≠ _))

theorem nand_read_in_page_other (p : Part) (buffer : Word) {srcAddr size : Word} (s : State)
    (other : OtherPage srcAddr size) : nand_read_in_page p buffer srcAddr size s = s := if_pos other

theorem nand_read_in_page_issues (p : Part) (buffer : Word) {srcAddr size : Word} (s : State)
    (same : ¬ OtherPage srcAddr size) : Issues Bus.unopened s (nand_read_in_page p buffer srcAddr size s) ∧
      Deselects s (nand_read_in_page p buffer srcAddr size s) := by
  have start : ∀ s, Emits (Bus.command 0x30) s (setNFCMD p NAND_CMD_READ_START s) := setNFCMD_emits p rfl
  have reads : ∀ s, Emits Bus.read∗ s (readBytes p size.toInt.toNat buffer s) := fun s =>
    (readBytes_emits p _ buffer s).mono (pow_le_kstar _ _)
  have run : nand_read_in_page p buffer srcAddr size s = NAND_DISABLE_CE (readBytes p size.toInt.toNat buffer
      (nand_wait_idle (setNFCMD p NAND_CMD_READ_START (nand_write_address srcAddr (NAND_ENABLE_CE s))))) :=
    if_neg same
  rw [run]
  exact ⟨((((nand_write_address_emits srcAddr _).trans (start _)).trans (nand_wait_idle_emits _)).trans
    (reads _)).issues.disable, disable_deselects _ _⟩

theorem tmod_page (x : Int) : x = 2048 * x.tdiv 2048 + x.tmod 2048 ∧ (x.tmod 2048).natAbs < 2048 ∧
    (0 ≤ x → 0 ≤ x.tmod 2048) ∧ (x < 0 → x.tmod 2048 ≤ 0) := by
  refine ⟨(Int.mul_tdiv_add_tmod x 2048).symm, ?_, fun h => Int.tmod_nonneg 2048 h, fun h => ?_⟩
  · rw [Int.natAbs_tmod]
    exact Nat.mod_lt _ (by decide)
  · have positive := Int.tmod_nonneg 2048 (show 0 ≤ -x by omega)
    rw [Int.neg_tmod] at positive
    omega

theorem toInt_rest (size : Word) :
    (size - size.sdiv (BitVec.ofNat 32 NAND_PAGE_SIZE) * BitVec.ofNat 32 NAND_PAGE_SIZE).toInt =
      size.toInt.tmod 2048 := by
  have low := BitVec.le_toInt (x := size)
  have high := BitVec.toInt_lt (x := size)
  have page : (BitVec.ofNat 32 NAND_PAGE_SIZE).toInt = 2048 := by decide
  obtain ⟨split, small, positive, negative⟩ := tmod_page size.toInt
  have div : (size.sdiv (BitVec.ofNat 32 NAND_PAGE_SIZE)).toInt = size.toInt.tdiv 2048 := by
    rw [BitVec.toInt_sdiv, page]
    apply Int.bmod_eq_of_le <;> omega
  have product : (size.toInt.tdiv 2048 * 2048).bmod (2 ^ 32) = size.toInt.tdiv 2048 * 2048 := by
    apply Int.bmod_eq_of_le <;> omega
  have rest : size.toInt - size.toInt.tdiv 2048 * 2048 = size.toInt.tmod 2048 := by omega
  rw [BitVec.toInt_sub, BitVec.toInt_mul, div, page, product, rest]
  apply Int.bmod_eq_of_le <;> omega

/-- The tail of copy2addr is in the page of its source address unless it is negative. -/
theorem same_page_iff (a b : Word) : a &&& ~~~NAND_PAGE_MASK = b &&& ~~~NAND_PAGE_MASK ↔
    a.toNat - a.toNat % 2048 = b.toNat - b.toNat % 2048 := by
  have ha := a.isLt
  have hb := b.isLt
  have ma := toNat_mask a
  have mb := toNat_mask b
  rw [and_not_mask, and_not_mask, ← BitVec.toNat_inj, BitVec.toNat_sub, BitVec.toNat_sub, ma, mb]
  unfold NAND_PAGE_SIZE
  omega

theorem toInt_cases (a : Word) :
    a.toInt = a.toNat ∧ a.toNat < 2 ^ 31 ∨ a.toInt = a.toNat - 2 ^ 32 ∧ 2 ^ 31 ≤ a.toNat := by
  rw [BitVec.toInt_eq_toNat_cond]
  split <;> omega

theorem tail_page {srcAddr size : Word} (aligned : srcAddr &&& NAND_PAGE_MASK = 0)
    (tail : size &&& NAND_PAGE_MASK ≠ 0) :
    OtherPage srcAddr (size - size.sdiv (BitVec.ofNat 32 NAND_PAGE_SIZE) * BitVec.ofNat 32 NAND_PAGE_SIZE) ↔
      size.toInt < 0 := by
  have rest := toInt_rest size
  generalize size - size.sdiv (BitVec.ofNat 32 NAND_PAGE_SIZE) * BitVec.ofNat 32 NAND_PAGE_SIZE = r at rest ⊢
  obtain ⟨split, small, positive, negative⟩ := tmod_page size.toInt
  rw [ne_eq, mask_eq_zero_iff] at tail
  rw [mask_eq_zero_iff] at aligned
  have bound := srcAddr.isLt
  have sizeLt := size.isLt
  have rLt := r.isLt
  have last : (srcAddr + r - 1).toNat = (2 ^ 32 - 1 + (srcAddr.toNat + r.toNat) % 2 ^ 32) % 2 ^ 32 := by
    rw [BitVec.toNat_sub, BitVec.toNat_add]
    rfl
  rw [OtherPage, ne_eq, same_page_iff, last]
  unfold NAND_PAGE_SIZE at *
  rcases toInt_cases size with plus | minus
  · rcases toInt_cases r with low | high <;> omega
  · rcases toInt_cases r with low | high <;> omega

/-! Runs of calls. -/

inductive Call where
  | nand_init
  | nand_reset
  | nand_readID (buffer : Word)
  | nand_read_page (buffer start_addr size : Word)
  | nand_read_in_page (buffer srcAddr size : Word)
  | nand_write_page (buffer size start_addr : Word)
  | copy2addr (srcAddr aim size : Word)
  deriving DecidableEq

def Call.run (p : Part) (s : State) : Call → Option State
  | .nand_init => some (Nand.nand_init p s)
  | .nand_reset => some (Nand.nand_reset p s)
  | .nand_readID buffer => some (Nand.nand_readID p buffer s)
  | .nand_read_page buffer start_addr size => Nand.nand_read_page p buffer start_addr size s
  | .nand_read_in_page buffer srcAddr size => some (Nand.nand_read_in_page p buffer srcAddr size s)
  | .nand_write_page buffer size start_addr => Nand.nand_write_page p buffer size start_addr s
  | .copy2addr srcAddr aim size => Nand.copy2addr p srcAddr aim size s

def runCalls (p : Part) (s : State) (calls : List Call) : Option State := calls.foldlM (Call.run p) s

/-- The call never gets to nand_read_in_page with bytes of one page. -/
def Call.Clean : Call → Prop
  | .nand_read_in_page _ srcAddr size => OtherPage srcAddr size
  | .copy2addr srcAddr _ size => srcAddr &&& NAND_PAGE_MASK = 0 ∧ (size &&& NAND_PAGE_MASK = 0 ∨ size.toInt < 0)
  | _ => True

/-- Cycles that hold an address and 30h after complete sentences. -/
def Bus.broken : Language Cycle := Bus.sentence∗ * (Bus.address ^ 5 * (Bus.command 0x30 * ⊤))

theorem reset_le : Bus.reset ≤ Bus.sentence := fun _ h => .inl (.inl (.inl h))
theorem readID_le : Bus.readID ≤ Bus.sentence := fun _ h => .inl (.inl (.inr h))
theorem readPage_le : Bus.readPage ≤ Bus.sentence := fun _ h => .inl (.inr h)
theorem program_le : Bus.program ≤ Bus.sentence := fun _ h => .inr h

theorem unopened_le : Bus.unopened ≤ Bus.address ^ 5 * (Bus.command 0x30 * ⊤) := by
  rw [Bus.unopened, mul_assoc, mul_assoc]
  exact mul_le_mul_right (mul_le_mul_right le_top _) _

theorem copyPages_issues (p : Part) {srcAddr : Word} (aim size : Word) (s : State)
    (aligned : srcAddr &&& NAND_PAGE_MASK = 0) :
    ∃ s', copyPages p srcAddr aim size s = some s' ∧ Deselects s s' ∧
      (size &&& NAND_PAGE_MASK = 0 ∨ size.toInt < 0 → Issues Bus.sentence∗ s s') ∧
      (¬ (size &&& NAND_PAGE_MASK = 0 ∨ size.toInt < 0) → Issues Bus.broken s s') := by
  unfold copyPages
  split
  · rename_i tail
    obtain ⟨t, run, pages, closed⟩ := nand_read_page_issues p aim srcAddr
      (size.sdiv (BitVec.ofNat 32 NAND_PAGE_SIZE) * BitVec.ofNat 32 NAND_PAGE_SIZE) s
    simp only [run, Option.map_some]
    by_cases negative : size.toInt < 0
    · rw [nand_read_in_page_other p aim t ((tail_page aligned tail).mpr negative)]
      exact ⟨t, rfl, closed, fun _ => pages.mono (kstar_mono readPage_le), fun other => absurd (.inr negative) other⟩
    · obtain ⟨part, still⟩ := nand_read_in_page_issues p aim t fun other =>
        negative ((tail_page aligned tail).mp other)
      refine ⟨_, rfl, fun was => still (closed was), fun clean => ?_, fun _ => ?_⟩
      · exact absurd clean (not_or.mpr ⟨tail, negative⟩)
      · exact (pages.mono (kstar_mono readPage_le)).trans (part.mono unopened_le)
  · rename_i whole
    obtain ⟨s', run, pages, closed⟩ := nand_read_page_issues p aim srcAddr size s
    have aligned_size : size &&& NAND_PAGE_MASK = 0 := not_not.mp whole
    exact ⟨s', run, closed, fun _ => pages.mono (kstar_mono readPage_le), fun other => absurd (.inl aligned_size) other⟩

theorem broken_extend (l : Language Cycle) : Bus.address ^ 5 * (Bus.command 0x30 * ⊤) * l ≤ Bus.broken := by
  have tail : Bus.address ^ 5 * (Bus.command 0x30 * ⊤) * l ≤ Bus.address ^ 5 * (Bus.command 0x30 * ⊤) := by
    rw [mul_assoc, mul_assoc]
    exact mul_le_mul_right (mul_le_mul_right le_top _) _
  exact tail.trans (le_mul_of_one_le_left' one_le_kstar)

theorem head_aligned (srcAddr : Word) : (srcAddr + headLength srcAddr) &&& NAND_PAGE_MASK = 0 := by
  have length := toNat_headLength srcAddr
  have bound := srcAddr.isLt
  rw [mask_eq_zero_iff, BitVec.toNat_add, length]
  unfold NAND_PAGE_SIZE
  omega

theorem copy2addr_issues (p : Part) (srcAddr aim size : Word) (s : State) :
    ∃ s', copy2addr p srcAddr aim size s = some s' ∧ Deselects s s' ∧
      ((Call.copy2addr srcAddr aim size).Clean → Issues Bus.sentence∗ s s') ∧
      (¬ (Call.copy2addr srcAddr aim size).Clean → Issues Bus.broken s s') := by
  unfold copy2addr
  split
  · rename_i head
    obtain ⟨part, closed⟩ := nand_read_in_page_issues p aim s (not_not_intro (head_inside srcAddr))
    obtain ⟨s', run, still, clean, broken⟩ := copyPages_issues p aim (size - headLength srcAddr)
      (nand_read_in_page p aim srcAddr (headLength srcAddr) s) (head_aligned srcAddr)
    refine ⟨s', run, fun was => still (closed was), fun aligned => absurd aligned.1 head, fun _ => ?_⟩
    have any : ∃ l, Issues l (nand_read_in_page p aim srcAddr (headLength srcAddr) s) s' := by
      by_cases whole : (size - headLength srcAddr) &&& NAND_PAGE_MASK = 0 ∨ (size - headLength srcAddr).toInt < 0
      · exact ⟨_, clean whole⟩
      · exact ⟨_, broken whole⟩
    obtain ⟨l, rest⟩ := any
    exact ((part.mono unopened_le).trans rest).mono (broken_extend l)
  · rename_i aligned
    obtain ⟨s', run, closed, clean, broken⟩ := copyPages_issues p aim size s (not_not.mp aligned)
    exact ⟨s', run, closed, fun whole => clean whole.2, fun rest => broken fun whole =>
      rest ⟨not_not.mp aligned, whole⟩⟩

/-- Every call ends. -/
theorem call_issues (p : Part) (s : State) (c : Call) (other : c ≠ .nand_init) :
    ∃ s', c.run p s = some s' ∧ (c.Clean → Issues Bus.sentence∗ s s') ∧
      (¬ c.Clean → Issues Bus.broken s s') := by
  cases c with
  | nand_init => exact absurd rfl other
  | nand_reset => exact ⟨_, rfl, fun _ => (nand_reset_issues p s).1.mono (reset_le.trans le_kstar), fun h => absurd trivial h⟩
  | nand_readID buffer =>
    exact ⟨_, rfl, fun _ => (nand_readID_emits p buffer s).issues.mono (readID_le.trans le_kstar), fun h => absurd trivial h⟩
  | nand_read_page buffer start_addr size =>
    obtain ⟨s', run, issued, -⟩ := nand_read_page_issues p buffer start_addr size s
    exact ⟨s', run, fun _ => issued.mono (kstar_mono readPage_le), fun h => absurd trivial h⟩
  | nand_write_page buffer size start_addr =>
    obtain ⟨s', run, issued, -⟩ := nand_write_page_issues p buffer size start_addr s
    exact ⟨s', run, fun _ => issued.mono (kstar_mono program_le), fun h => absurd trivial h⟩
  | nand_read_in_page buffer srcAddr size =>
    refine ⟨_, rfl, fun clean => ?_, fun same => ?_⟩
    · rw [nand_read_in_page_other p buffer s clean]
      exact .none _ s
    · exact (nand_read_in_page_issues p buffer s same).1.mono
        (unopened_le.trans (le_mul_of_one_le_left' one_le_kstar))
  | copy2addr srcAddr aim size =>
    obtain ⟨s', run, -, clean, broken⟩ := copy2addr_issues p srcAddr aim size s
    exact ⟨s', run, clean, broken⟩

theorem nand_init_issues (p : Part) (s : State) :
    ∃ t ∈ Bus.sentence∗, (nand_init p s).cycles = s.cycles ++ t := by
  obtain ⟨t, mem, trace⟩ := (nand_reset_issues p { s with
    nfconf := NFCONF_MLCCLKCTRL <<< 30 ||| NFCONF_MSGLENGTH <<< 25 ||| NFCONF_ECC_TYPE <<< 23 |||
      NFCONF_TACLS <<< 12 ||| NFCONF_TWRPH0 <<< 8 ||| NFCONF_TWRPH1 <<< 4
    nfcont := s.nfcont ||| (0x3 : Word) <<< 0 }).1.on (by simp)
  exact ⟨t, reset_le.trans le_kstar mem, trace⟩

/-- After complete sentences, an address and 30h cannot be part of another one. -/
theorem not_sentences_of_broken {w t : List Cycle} (h : w ∈ Bus.sentence∗) (broken : t ∈ Bus.broken) :
    w ++ t ∉ Bus.sentence∗ := by
  intro whole
  obtain ⟨u, more, _, ⟨v, address, _, ⟨_, rfl, y, -, rfl⟩, rfl⟩, rfl⟩ := broken
  obtain ⟨sent, five, rfl⟩ := mem_each_pow address
  have complete : w ++ u ∈ Bus.sentence∗ :=
    (kstar_mul_kstar Bus.sentence).le (Language.append_mem_mul h more)
  obtain ⟨before, cycles, length, split⟩ := (Bus.proper_of_mem whole).read_opened (w ++ u ++ sent.map .address)
    (.command 0x30) y (by simp) rfl
  have regroup : (w ++ u) ++ sent.map .address = (before ++ [.command 0x00]) ++ cycles.map .address := by
    rw [split, List.append_assoc]
    rfl
  have ends : w ++ u = before ++ [.command 0x00] := (List.append_inj' regroup (by simp [five, length])).1
  exact Bus.sentences_last complete 0x00 (by rw [ends, List.getLast?_concat])

/-- The controller is on when the next call comes: it was from the start, or a call of
nand_init has turned it on. -/
def Enabled (s : State) (before : List Call) : Prop := s.nfcont.getLsbD 0 = true ∨ .nand_init ∈ before

theorem runCalls_cons {p : Part} {s t : State} {c : Call} (first : c.run p s = some t) (rest : List Call) :
    runCalls p s (c :: rest) = runCalls p t rest := by
  rw [runCalls, List.foldlM_cons, first]
  rfl

/-- One call, as the run sees it. -/
theorem call_step (p : Part) {s : State} (h : s.cycles ∈ Bus.sentence∗) (c : Call) :
    ∃ t, c.run p s = some t ∧ (t.nfcont.getLsbD 0 = true ↔ s.nfcont.getLsbD 0 = true ∨ .nand_init = c) ∧
      (t.cycles ∈ Bus.sentence∗ ↔ s.nfcont.getLsbD 0 = true → c.Clean) := by
  by_cases init : .nand_init = c
  · subst init
    obtain ⟨u, mem, trace⟩ := nand_init_issues p s
    refine ⟨_, rfl, ⟨fun _ => .inr rfl, fun _ => (nand_init_ready p s).enabled⟩, fun _ _ => trivial, fun _ => ?_⟩
    rw [trace]
    exact (kstar_mul_kstar Bus.sentence).le (Language.append_mem_mul h mem)
  · obtain ⟨t, run, clean, broken⟩ := call_issues p s c (fun eq => init eq.symm)
    refine ⟨t, run, ?_, ?_⟩
    · have same : t.nfcont.getLsbD 0 = s.nfcont.getLsbD 0 := by
        by_cases ok : c.Clean
        · exact (clean ok).enabled
        · exact (broken ok).enabled
      rw [same]
      exact ⟨.inl, fun either => either.resolve_right init⟩
    · by_cases ok : c.Clean
      · refine ⟨fun _ _ => ok, fun _ => ?_⟩
        cases on : s.nfcont.getLsbD 0 with
        | true =>
          obtain ⟨u, mem, trace⟩ := (clean ok).on on
          rw [trace]
          exact (kstar_mul_kstar Bus.sentence).le (Language.append_mem_mul h mem)
        | false => rwa [(clean ok).off on]
      · constructor
        · intro whole on
          obtain ⟨u, mem, trace⟩ := (broken ok).on on
          rw [trace] at whole
          exact absurd whole (not_sentences_of_broken h mem)
        · intro off
          rwa [(broken ok).off (Bool.eq_false_iff.mpr fun on => ok (off on))]

theorem runCalls_sentences_iff (p : Part) {s : State} (h : s.cycles ∈ Bus.sentence∗) (calls : List Call) :
    (∀ reached, reached <+: calls → ∃ s', runCalls p s reached = some s' ∧ s'.cycles ∈ Bus.sentence∗) ↔
      ∀ before c, before ++ [c] <+: calls → Enabled s before → c.Clean := by
  induction calls generalizing s with
  | nil =>
    refine ⟨fun _ before c short => by simp at short, fun _ reached short => ?_⟩
    rw [List.prefix_nil.mp short]
    exact ⟨s, rfl, h⟩
  | cons c rest ih =>
    obtain ⟨t, run, on, kept⟩ := call_step p h c
    have enabled : ∀ before, Enabled s (c :: before) ↔ Enabled t before := by
      intro before
      rw [Enabled, Enabled, on, List.mem_cons, or_assoc]
    constructor
    · intro proper
      obtain ⟨s', same, mem⟩ := proper [c] ⟨rest, rfl⟩
      rw [runCalls_cons run] at same
      obtain rfl := Option.some.inj same
      have later := (ih mem).mp fun reached short => by
        have long := proper (c :: reached) (List.cons_prefix_cons.mpr ⟨rfl, short⟩)
        rwa [runCalls_cons run] at long
      intro before d short ready
      rcases snoc_prefix_cons.mp short with ⟨rfl, rfl⟩ | ⟨tail, rfl, inner⟩
      · exact kept.mp mem (ready.resolve_right (by simp))
      · exact later tail d inner ((enabled tail).mp ready)
    · intro clean reached short
      have mem : t.cycles ∈ Bus.sentence∗ := kept.mpr fun was =>
        clean [] c (snoc_prefix_cons.mpr (.inl ⟨rfl, rfl⟩)) (.inl was)
      have later := (ih mem).mpr fun before d inner ready =>
        clean (c :: before) d (snoc_prefix_cons.mpr (.inr ⟨before, rfl, inner⟩)) ((enabled before).mpr ready)
      rcases List.prefix_cons_iff.mp short with rfl | ⟨tail, rfl, inner⟩
      · exact ⟨s, rfl, h⟩
      · rw [runCalls_cons run]
        exact later tail inner

/-- The bus traffic of the workspace driver follows the command set exactly as long as no
call reads a part of a page while the controller is on. -/
theorem runCalls_proper_iff (p : Part) (s : State) (fresh : s.cycles = []) (calls : List Call) :
    (∀ reached, reached <+: calls → ∃ s', runCalls p s reached = some s' ∧ Bus.Proper s'.cycles) ↔
      ∀ before c, before ++ [c] <+: calls → Enabled s before → c.Clean := by
  have none : s.cycles ∈ Bus.sentence∗ := by
    rw [fresh]
    exact Language.nil_mem_kstar _
  rw [← runCalls_sentences_iff p none calls]
  constructor
  · intro proper reached short
    obtain ⟨s', run, words⟩ := proper reached short
    exact ⟨s', run, words.sentences⟩
  · intro proper reached short
    obtain ⟨s', run, mem⟩ := proper reached short
    exact ⟨s', run, Bus.proper_of_mem mem⟩

theorem runCalls_proper_page : ∃ s', runCalls onePart zeroState
    [.nand_init, .nand_readID 0x50000000, .nand_read_page 0x50000000 0 0x800] = some s' ∧ Bus.Proper s'.cycles := by
  refine (runCalls_proper_iff onePart zeroState rfl _).mpr (fun before c short _ => ?_) _ (List.prefix_refl _)
  have mem := short.subset (List.mem_append_right before List.mem_cons_self)
  simp only [List.mem_cons, List.not_mem_nil, or_false] at mem
  rcases mem with rfl | rfl | rfl <;> exact trivial

/-- One byte of page 0: the part gets an address and 30h that no 00h has opened. -/
theorem nand_read_in_page_improper : ∃ s', runCalls onePart zeroState [.nand_read_in_page 0x50000000 0 1] = some s' ∧
    s'.cycles = [.address 0, .address 0, .address 0, .address 0, .address 0, .command 0x30, .ready, .read 1] ∧
    ¬ Bus.Proper s'.cycles := by
  have run := nand_read_in_page_eq onePart 0x50000000 0 1 zeroState zeroState_ready rfl (by decide)
  have cycles : (nand_read_in_page onePart 0x50000000 0 1 zeroState).cycles =
      [.address 0, .address 0, .address 0, .address 0, .address 0, .command 0x30, .ready, .read 1] := by
    rw [run]
    decide
  refine ⟨_, rfl, cycles, fun proper => ?_⟩
  rw [cycles] at proper
  obtain ⟨before, sent, five, split⟩ := proper.read_opened [.address 0, .address 0, .address 0, .address 0, .address 0]
    (.command 0x30) [.ready, .read 1] rfl rfl
  have found : Cycle.command 0x00 ∈ [Cycle.address 0, .address 0, .address 0, .address 0, .address 0] := by
    rw [split, Bus.opening]
    simp
  simp at found

end Tiny6410.Nand
