import Tiny6410.Lib.Trace
import Tiny6410.Boot.Relocate
import Tiny6410.Interrupt.Handlers
import Tiny6410.Interrupt.DoIrq

/-! start.s of workspace/interrupt/NVI enables IRQ (`msr CPSR_cxsf, 0x53`) before it
copies itself. The vector `ldr pc, _irq` of the copy that runs loads the link address
of irq, so an interrupt goes to SDRAM from the first instruction on, whether or not the
handler is there yet. no-os/interrupt/irq enables IRQ after the relocation. -/
namespace Tiny6410.Boot

open Memory Arm Interrupt CString
open Interrupt.DoIrq (Devices Effect releaseText pressText served)

/-- A part of the image. -/
structure Part where
  start : Nat
  size : Nat

def Part.Has (p : Part) (i : Nat) : Prop := p.start ≤ i ∧ i < p.start + p.size

instance (p : Part) (i : Nat) : Decidable (p.Has i) := inferInstanceAs (Decidable (_ ∧ _))

/-- The linked program: where in the image the routines are that an interrupt runs, with
their literal pools, and the strings of do_irq, and how many bytes below 0x53000000 an
interrupt uses as its stack. -/
structure Nvi where
  image : Image
  linked : image.Linked
  irq : Part
  -- The word of `ldr sp, =0x53000000`. The assembler may do without it.
  literal : Part
  do_irq : Part
  UART0_SendString : Part
  routines_fit : ∀ p ∈ [irq, literal, do_irq, UART0_SendString], p.start + p.size ≤ image.length
  release : Nat
  press : Nat
  release_fits : release + releaseText.length < image.length
  press_fits : press + pressText.length < image.length
  stack : Nat
  stack_frame : 56 ≤ stack ∧ stack ≤ 0x53000000
  -- In place, or loaded clear of the destination.
  clear : image.load = image.start ∨
    image.length ≤ offset image.start image.load ∧ image.length ≤ offset image.load image.start
  source_stack : ∀ x, offset image.load x < image.length → 0x53000000 ≤ x.toNat ∨ x.toNat + stack < 0x53000000
  target_stack : image.bss_end.toNat + stack ≤ 0x53000000 ∨ 0x53000000 ≤ image.start.toNat

namespace Nvi

variable (N : Nvi)

/-- The address at which a byte of the image was linked. -/
abbrev linkedAt (i : Nat) : Word := N.image.start + BitVec.ofNat 32 i

abbrev loadedAt (i : Nat) : Word := N.image.load + BitVec.ofNat 32 i

/-- The loaded image has the strings of do_irq. -/
structure Strings (loaded : Bytes) : Prop where
  release : Spells loaded (N.loadedAt N.release) releaseText
  press : Spells loaded (N.loadedAt N.press) pressText

/-- The string that is sent for key i. -/
def string (d : Devices) (i : Nat) : Part :=
  if (d.GPNDAT i).getLsbD i then ⟨N.release, releaseText.length + 1⟩ else ⟨N.press, pressText.length + 1⟩

/-- The code that an interrupt runs. UART0_SendString is called for a pending key. -/
def Code (d : Devices) (i : Nat) : Prop :=
  N.irq.Has i ∨ N.literal.Has i ∨ N.do_irq.Has i ∨ (∃ k < 6, d.pending k) ∧ N.UART0_SendString.Has i

instance (d : Devices) (i : Nat) : Decidable (N.Code d i) := inferInstanceAs (Decidable (_ ∨ _))

/-- All that it takes from the image. -/
def Uses (d : Devices) (i : Nat) : Prop := N.Code d i ∨ ∃ k < 6, d.pending k ∧ (N.string d k).Has i

def OnStack (x : Word) : Prop := 0x53000000 ≤ x.toNat + N.stack ∧ x.toNat < 0x53000000

/-- One interrupt: what do_irq reads of the devices, and how the compiled routines leave the
registers and their stack, which the source does not say. -/
structure Service where
  devices : Devices
  left : State → State
  respects : ∀ t, Respects t (left t)
  outside : ∀ t x, ¬ N.OnStack x → (left t).mem x = t.mem x

inductive Event where
  | instr
  | irq (service : N.Service)

inductive Machine where
  -- With what the interrupts have done so far.
  | running (s : State) (done : List Effect)
  -- Control went to memory that is not the handler.
  | lost

abbrev program : Program := Variant.program .nvi N.image

/-- The handler where it was linked. -/
def handlerProgram : Program where
  origin := N.image.start + BitVec.ofNat 32 N.irq.start
  code := Interrupt.irq.save ++ Interrupt.irq.restore

/-- The boot code after JumpToMMU does not write to the image; it is not modelled. -/
def boot (s : State) : State := (step N.program s).getD s

def enabled (s : State) : Bool := !s.cpsr.getLsbD 7

/-- The memory that `ldr pc, _irq` goes to holds the code of the loaded image. -/
def Holds (loaded m : Bytes) (d : Devices) : Prop :=
  ∀ i < N.image.length, N.Code d i → m (N.linkedAt i) = loaded (N.loadedAt i)

instance (loaded m : Bytes) (d : Devices) : Decidable (N.Holds loaded m d) :=
  inferInstanceAs (Decidable (∀ i < _, _ → _))

/-- The registers are saved. -/
def entered (s : State) : State := runBlock N.handlerProgram Interrupt.irq.save (irqEntry 0x18 s)

/-- do_irq, with the strings where they were linked. -/
def effects (d : Devices) (s : State) : List Effect :=
  DoIrq.do_irq d (N.entered s).mem (N.linkedAt N.release) (N.linkedAt N.press)

def serve (service : N.Service) (s : State) : State :=
  runBlock N.handlerProgram Interrupt.irq.restore (service.left (N.entered s))

def next (loaded : Bytes) : Machine → N.Event → Machine
  | .lost, _ => .lost
  | .running s done, .instr => .running (N.boot s) done
  | .running s done, .irq service =>
    if enabled s then
      if N.Holds loaded s.mem service.devices then
        .running (N.serve service s) (done ++ N.effects service.devices s)
      else .lost
    else .running s done

def run (s : State) (events : List N.Event) : Machine :=
  events.foldl (N.next s.mem) (.running s [])

/-- The boot instructions among the events: the arrival time of what comes next. -/
def instrs : List N.Event → Nat
  | [] => 0
  | .instr :: rest => instrs rest + 1
  | .irq _ :: rest => instrs rest

/-- The boot code of t has got as far as that of u: interrupts have changed their own
stack and registers only. -/
structure Similar (t u : State) : Prop where
  r : t.r = u.r
  cpsr : t.cpsr = u.cpsr
  pc : t.pc = u.pc
  mem : ∀ x, ¬ N.OnStack x → t.mem x = u.mem x

/-- What the interrupts are to do. -/
def allServed : List N.Event → List Effect
  | [] => []
  | .instr :: rest => allServed rest
  | .irq service :: rest => served service.devices ++ allServed rest

/-- Every interrupt found the handler and sent its messages, and the boot code has gone on as
if there had been none. -/
def Transparent (s : State) (events : List N.Event) : Prop :=
  ∃ t, N.run s events = .running t (N.allServed events) ∧ N.Similar t (N.boot^[N.instrs events] s)

/-- After n boot instructions the copy has stored 4 * ((n - 3) / 4) bytes; the rest of what an
interrupt uses must have been in SDRAM before. -/
def InPlace (m : Bytes) (n : Nat) (d : Devices) : Prop :=
  ∀ i < N.image.length, N.Uses d i → i < 4 * ((n - 3) / 4) ∨ m (N.linkedAt i) = m (N.loadedAt i)

def Timely (m : Bytes) (events : List N.Event) : Prop :=
  ∀ before service, before ++ [.irq service] <+: events → N.InPlace m (N.instrs before) service.devices

/-- Only r0 to r12 and memory through them. -/
def general : Instr → Bool
  | .adr (.r _) _ | .ldrLit (.r _) _ | .mov (.r _) _ | .sub (.r _) (.r _) _ | .cmp (.r _) (.r _) | .b _ _
  | .ldr (.r _) (.r _) _ | .str (.r _) (.r _) _ => true
  | _ => false

/-! Where the boot code is after n instructions. -/

def words : Nat := N.image.length / 4

/-- Memory after j words. -/
def stored (m : Bytes) (j : Nat) : Bytes := copyWords m N.image.load N.image.start j

/-- CleanBss and CleanLoop. -/
inductive Clearing (N : Nvi) : State → Prop
  | bssStart {s : State} : s.pc = N.program.address 9 → Clearing N s
  | bssEnd {s : State} : s.pc = N.program.address 10 → s.r 0 = N.image.bss_start → Clearing N s
  | cmp {s : State} : s.pc = N.program.address 11 → s.r 0 = N.image.bss_start → s.r 1 = N.image.bss_end → Clearing N s
  | beq {s : State} : s.pc = N.program.address 12 → s.r 0 = N.image.bss_start → s.r 1 = N.image.bss_end →
      s.zero = (N.image.bss_start == N.image.bss_end) → Clearing N s
  | mov {s : State} : s.pc = N.program.address 13 → s.r 0 = N.image.bss_start → s.r 1 = N.image.bss_end →
      N.image.bss_start ≠ N.image.bss_end → Clearing N s
  | str {s : State} (j : Nat) : 4 * j < N.image.bssLength → s.pc = N.program.address 14 →
      s.r 0 = N.image.bss_start + BitVec.ofNat 32 (4 * j) → s.r 1 = N.image.bss_end → Clearing N s
  | cmpLoop {s : State} (j : Nat) : 4 * j < N.image.bssLength → s.pc = N.program.address 15 →
      s.r 0 = N.image.bss_start + BitVec.ofNat 32 (4 * (j + 1)) → s.r 1 = N.image.bss_end → Clearing N s
  | bne {s : State} (j : Nat) : 4 * j < N.image.bssLength → s.pc = N.program.address 16 →
      s.r 0 = N.image.bss_start + BitVec.ofNat 32 (4 * (j + 1)) → s.r 1 = N.image.bss_end →
      s.zero = (N.image.bss_start + BitVec.ofNat 32 (4 * (j + 1)) == N.image.bss_end) → Clearing N s
  | done {s : State} : s.pc = N.program.address JumpToMMU → Clearing N s

/-- Where the boot code is after n instructions, by the instruction it is at. -/
inductive Phase (N : Nvi) (m : Bytes) : Nat → State → Prop
  | adr {s : State} : s.pc = N.program.address 0 → s.mem = m → Phase N m 0 s
  | start {s : State} : s.pc = N.program.address 1 → s.mem = m → s.r 0 = N.image.load → Phase N m 1 s
  | cmp {s : State} : s.pc = N.program.address 2 → s.mem = m → s.r 0 = N.image.load → s.r 1 = N.image.start →
      Phase N m 2 s
  | beq {s : State} : s.pc = N.program.address 3 → s.mem = m → s.r 0 = N.image.load → s.r 1 = N.image.start →
      s.zero = (N.image.load == N.image.start) → Phase N m 3 s
  | copyCode {s : State} : N.image.load ≠ N.image.start → s.pc = N.program.address 4 → s.mem = m →
      s.r 0 = N.image.load → s.r 1 = N.image.start → Phase N m 4 s
  | ldr {s : State} (j : Nat) : N.image.load ≠ N.image.start → j < N.words → s.pc = N.program.address 5 →
      s.mem = N.stored m j → s.r 0 = N.image.load + BitVec.ofNat 32 (4 * j) →
      s.r 1 = N.image.start + BitVec.ofNat 32 (4 * j) → s.r 2 = N.image.bss_start → Phase N m (5 + 4 * j) s
  | str {s : State} (j : Nat) : N.image.load ≠ N.image.start → j < N.words → s.pc = N.program.address 6 →
      s.mem = N.stored m j → s.r 0 = N.image.load + BitVec.ofNat 32 (4 * (j + 1)) →
      s.r 1 = N.image.start + BitVec.ofNat 32 (4 * j) → s.r 2 = N.image.bss_start →
      s.r 3 = word (N.stored m j) (N.image.load + BitVec.ofNat 32 (4 * j)) → Phase N m (6 + 4 * j) s
  | cmpLoop {s : State} (j : Nat) : N.image.load ≠ N.image.start → j < N.words → s.pc = N.program.address 7 →
      s.mem = N.stored m (j + 1) → s.r 0 = N.image.load + BitVec.ofNat 32 (4 * (j + 1)) →
      s.r 1 = N.image.start + BitVec.ofNat 32 (4 * (j + 1)) → s.r 2 = N.image.bss_start →
      Phase N m (7 + 4 * j) s
  | bne {s : State} (j : Nat) : N.image.load ≠ N.image.start → j < N.words → s.pc = N.program.address 8 →
      s.mem = N.stored m (j + 1) → s.r 0 = N.image.load + BitVec.ofNat 32 (4 * (j + 1)) →
      s.r 1 = N.image.start + BitVec.ofNat 32 (4 * (j + 1)) → s.r 2 = N.image.bss_start →
      s.zero = (N.image.start + BitVec.ofNat 32 (4 * (j + 1)) == N.image.bss_start) → Phase N m (8 + 4 * j) s
  | cleanBss {s : State} {n : Nat} : (N.image.load ≠ N.image.start → 5 + 4 * N.words ≤ n) →
      (∀ i < N.image.length, s.mem (N.image.start + BitVec.ofNat 32 i) = m (N.image.load + BitVec.ofNat 32 i)) →
      N.Clearing s → Phase N m n s

section Boot

variable {N} {m : Bytes} {s : State}

theorem boot_at {k : Nat} {i : Instr} (small : k < 2 ^ 30) (here : s.pc = N.program.address k)
    (code : N.program.code[k]? = some i) : N.boot s = exec N.program i s := by
  rw [boot, step, here, fetch_address _ small, code]
  rfl

theorem words_eq : 4 * N.words = N.image.length := by
  have length := N.linked.length_eq
  have low := N.linked.start
  have high := N.linked.bss_start
  unfold words
  omega

theorem words_pos : 0 < N.words := by
  have length := N.linked.length_eq
  have order : N.image.start.toNat < N.image.bss_start.toNat := N.linked.nonempty
  have words := words_eq (N := N)
  omega

theorem forward : offset N.image.start N.image.load + N.image.length ≤ 2 ^ 32 := by
  have length := N.linked.length_eq
  have bound := N.image.bss_start.isLt
  rcases N.clear with same | ⟨-, apart⟩
  · rw [same, offset, BitVec.sub_self]
    simp
    omega
  · have turn := offset_turn N.image.start N.image.load
    omega

theorem stored_succ (m : Bytes) (j : Nat) : N.stored m (j + 1) =
    setWord (N.stored m j) (N.image.start + BitVec.ofNat 32 (4 * j))
      (word (N.stored m j) (N.image.load + BitVec.ofNat 32 (4 * j))) :=
  copyWords_add m N.image.load N.image.start j 1

theorem stored_at {i j : Nat} (some : j ≤ N.words) (inside : i < N.image.length) :
    N.stored m j (N.image.start + BitVec.ofNat 32 i) =
      if i < 4 * j then m (N.image.load + BitVec.ofNat 32 i) else m (N.image.start + BitVec.ofNat 32 i) := by
  have bound := offset_lt N.image.start N.image.bss_start
  have forward := forward (N := N)
  have length := words_eq (N := N)
  have place := offset_add N.image.start (Nat.lt_trans inside bound)
  rw [stored, copyWords_forward m _ _ (by omega), overlay, place]

theorem aligned_words {a : Word} (aligned : a.toNat % 4 = 0) (j : Nat) :
    (a + BitVec.ofNat 32 (4 * j)).toNat % 4 = 0 := by
  rw [BitVec.toNat_add, BitVec.toNat_ofNat]
  omega

theorem add_four_words (a : Word) (j : Nat) :
    a + BitVec.ofNat 32 (4 * j) + 4 = a + BitVec.ofNat 32 (4 * (j + 1)) := by
  rw [Nat.mul_succ, BitVec.ofNat_add, BitVec.add_assoc]
  rfl

theorem address_next {k : Nat} (here : s.pc = N.program.address k) : s.pc + 4 = N.program.address (k + 1) := by
  rw [here, address_succ]

/-- The cleared words are beyond the image. -/
theorem clear_beyond {j i : Nat} (bss : 4 * j < N.image.bssLength) (inside : i < N.image.length) (t : Bytes)
    (w : Word) : setWord t (N.image.bss_start + BitVec.ofNat 32 (4 * j)) w (N.image.start + BitVec.ofNat 32 i) =
      t (N.image.start + BitVec.ofNat 32 i) := by
  have length := N.linked.length_eq
  have bssLength := N.linked.bssLength_eq
  have bound := N.image.bss_end.isLt
  have order : N.image.start.toNat < N.image.bss_start.toNat := N.linked.nonempty
  have bssOrder : N.image.bss_start.toNat ≤ N.image.bss_end.toNat := N.linked.ordered
  have low := N.linked.bss_start
  have high := N.linked.bss_end
  apply overlay_outside
  have place : (N.image.start + BitVec.ofNat 32 i).toNat = N.image.start.toNat + i := by
    rw [BitVec.toNat_add, BitVec.toNat_ofNat]
    omega
  have target : (N.image.bss_start + BitVec.ofNat 32 (4 * j)).toNat = N.image.bss_start.toNat + 4 * j := by
    rw [BitVec.toNat_add, BitVec.toNat_ofNat]
    omega
  rw [offset_toNat_wrap (by omega)]
  omega

theorem clear_end {j : Nat} (bss : 4 * j < N.image.bssLength)
    (more : N.image.bss_start + BitVec.ofNat 32 (4 * (j + 1)) ≠ N.image.bss_end) :
    4 * (j + 1) < N.image.bssLength := by
  have bssLength := N.linked.bssLength_eq
  have low := N.linked.bss_start
  have high := N.linked.bss_end
  have apart : 4 * (j + 1) ≠ N.image.bssLength := by
    intro met
    apply more
    rw [met]
    exact add_offset _ _
  omega

theorem clearing_boot (h : N.Clearing s) : N.Clearing (N.boot s) ∧
    ∀ i < N.image.length, (N.boot s).mem (N.image.start + BitVec.ofNat 32 i) =
      s.mem (N.image.start + BitVec.ofNat 32 i) := by
  cases h with
  | bssStart here =>
    rw [boot_at (by decide) here rfl]
    exact ⟨.bssEnd (address_next here) rfl, fun i _ => rfl⟩
  | bssEnd here low =>
    rw [boot_at (by decide) here rfl]
    exact ⟨.cmp (address_next here) (by simp [exec, low]) rfl, fun i _ => rfl⟩
  | cmp here low high =>
    rw [boot_at (by decide) here rfl]
    exact ⟨.beq (address_next here) low high (by simp [exec, State.zero, low, high]), fun i _ => rfl⟩
  | beq here low high zero =>
    rw [boot_at (by decide) here rfl]
    simp only [exec, Cond.holds, zero]
    split
    · exact ⟨.done rfl, fun i _ => rfl⟩
    · rename_i apart
      exact ⟨.mov (address_next here) low high (by simpa using apart), fun i _ => rfl⟩
  | mov here low high apart =>
    rw [boot_at (by decide) here rfl]
    refine ⟨.str 0 ?_ (address_next here) (by simp [exec, low]) (by simp [exec, high]), fun i _ => rfl⟩
    have bssLength := N.linked.bssLength_eq
    have bssOrder : N.image.bss_start.toNat ≤ N.image.bss_end.toNat := N.linked.ordered
    have differ : N.image.bss_start.toNat ≠ N.image.bss_end.toNat := fun same =>
      apart (BitVec.eq_of_toNat_eq same)
    omega
  | str j bss here low high =>
    rw [boot_at (by decide) here rfl]
    refine ⟨.cmpLoop j bss (address_next here) ?_ (by simp [exec, State.store, high]), fun i inside => ?_⟩
    · simpa [exec, State.store, low] using add_four_words N.image.bss_start j
    · have aligned := aligned_words N.linked.bss_start j
      simp only [exec, next_mem, set_mem, State.store, get_r, low, wordAddress_aligned aligned]
      exact clear_beyond bss inside _ _
  | cmpLoop j bss here low high =>
    rw [boot_at (by decide) here rfl]
    exact ⟨.bne j bss (address_next here) low high (by simp [exec, State.zero, low, high]), fun i _ => rfl⟩
  | bne j bss here low high zero =>
    rw [boot_at (by decide) here rfl]
    simp only [exec, Cond.holds, zero]
    split
    · rename_i apart
      exact ⟨.str (j + 1) (clear_end bss (by simpa using apart)) rfl low high, fun i _ => rfl⟩
    · exact ⟨.done (address_next here), fun i _ => rfl⟩
  | done here =>
    have stop : N.boot s = s := by
      rw [boot, step, here, fetch_address _ (by decide)]
      rfl
    rw [stop]
    exact ⟨.done here, fun i _ => rfl⟩

/-- CopyLoop stops behind the last word. -/
theorem copy_end {j : Nat} (more : j < N.words) :
    N.image.start + BitVec.ofNat 32 (4 * (j + 1)) = N.image.bss_start ↔ j + 1 = N.words := by
  have length := words_eq (N := N)
  have bound := offset_lt N.image.start N.image.bss_start
  have whole : N.image.length = offset N.image.start N.image.bss_start := rfl
  have met := offset_eq_iff N.image.start N.image.bss_start (show 4 * (j + 1) < 2 ^ 32 by omega)
  rw [eq_comm, ← met, ← whole]
  omega

theorem phase_boot {n : Nat} (h : Phase N m n s) : Phase N m (n + 1) (N.boot s) := by
  cases h with
  | adr here mem =>
    rw [boot_at (by decide) here rfl]
    have loaded : s.pc - N.image.entry = N.image.load := by
      rw [here, Program.address]
      simp [Variant.program]
    exact .start (address_next here) mem (by simp [exec, loaded])
  | start here mem load =>
    rw [boot_at (by decide) here rfl]
    exact .cmp (address_next here) mem (by simp [exec, load]) rfl
  | cmp here mem load start =>
    rw [boot_at (by decide) here rfl]
    exact .beq (address_next here) mem load start (by simp [exec, State.zero, load, start])
  | beq here mem load start zero =>
    rw [boot_at (by decide) here rfl]
    simp only [exec, Cond.holds, zero]
    split
    · rename_i same
      have inPlace : N.image.load = N.image.start := by simpa using same
      exact .cleanBss (fun moved => absurd inPlace moved) (fun i _ => by rw [inPlace]; exact congrFun mem _)
        (.bssStart rfl)
    · rename_i moved
      exact .copyCode (by simpa using moved) (address_next here) mem load start
  | copyCode moved here mem load start =>
    rw [boot_at (by decide) here rfl]
    exact .ldr 0 moved words_pos (address_next here) mem (by simp [exec, load]) (by simp [exec, start]) rfl
  | ldr j moved more here mem source target stop =>
    rw [boot_at (by decide) here rfl]
    have aligned := aligned_words N.linked.load j
    have read : (exec N.program (.ldr r3 r0 4) s).r 3 =
        word (N.stored m j) (N.image.load + BitVec.ofNat 32 (4 * j)) := by
      simp [exec, source, load_aligned s aligned, mem]
    rw [Nat.add_right_comm]
    refine .str j moved more (address_next here) mem ?_ ?_ ?_ read
    · simpa [exec, source] using add_four_words N.image.load j
    · simp [exec, target]
    · simp [exec, stop]
  | str j moved more here mem source target stop read =>
    rw [boot_at (by decide) here rfl]
    have aligned := aligned_words N.linked.start j
    rw [Nat.add_right_comm]
    refine .cmpLoop j moved more (address_next here) ?_ ?_ ?_ ?_
    · rw [stored_succ]
      simp only [exec, next_mem, set_mem, State.store, get_r, target, read, mem, wordAddress_aligned aligned]
    · simp [exec, State.store, source]
    · simpa [exec, State.store, target] using add_four_words N.image.start j
    · simp [exec, State.store, stop]
  | cmpLoop j moved more here mem source target stop =>
    rw [boot_at (by decide) here rfl, Nat.add_right_comm]
    exact .bne j moved more (address_next here) mem source target stop
      (by simp [exec, State.zero, target, stop])
  | bne j moved more here mem source target stop zero =>
    rw [boot_at (by decide) here rfl]
    simp only [exec, Cond.holds, zero]
    split
    · rename_i apart
      have going : N.image.start + BitVec.ofNat 32 (4 * (j + 1)) ≠ N.image.bss_start := by simpa using apart
      have next : j + 1 < N.words := Nat.lt_of_le_of_ne more (mt (copy_end more).mpr going)
      have count : 8 + 4 * j + 1 = 5 + 4 * (j + 1) := by omega
      rw [count]
      exact .ldr (j + 1) moved next rfl mem source target stop
    · rename_i same
      have all : j + 1 = N.words := (copy_end more).mp (by simpa using same)
      have length := words_eq (N := N)
      refine .cleanBss (fun _ => by omega) (fun i inside => ?_) (.bssStart (address_next here))
      have copied := stored_at (m := m) (Nat.le_of_eq all) inside
      rw [if_pos (by omega), ← mem] at copied
      exact copied
  | cleanBss late image clearing =>
    obtain ⟨next, kept⟩ := clearing_boot clearing
    exact .cleanBss (fun moved => by have := late moved; omega)
      (fun i inside => (kept i inside).trans (image i inside)) next

/-- What is where the image was linked, after n boot instructions. -/
theorem phase_image {n i : Nat} (h : Phase N m n s) (inside : i < N.image.length) :
    s.mem (N.image.start + BitVec.ofNat 32 i) =
      if i < 4 * ((n - 3) / 4) then m (N.image.load + BitVec.ofNat 32 i)
      else m (N.image.start + BitVec.ofNat 32 i) := by
  have length := words_eq (N := N)
  cases h with
  | adr here mem => rw [mem, if_neg (by omega)]
  | start here mem => rw [mem, if_neg (by omega)]
  | cmp here mem => rw [mem, if_neg (by omega)]
  | beq here mem => rw [mem, if_neg (by omega)]
  | copyCode moved here mem => rw [mem, if_neg (by omega)]
  | ldr j moved more here mem =>
    have copied : (5 + 4 * j - 3) / 4 = j := by omega
    rw [mem, stored_at (Nat.le_of_lt more) inside, copied]
  | str j moved more here mem =>
    have copied : (6 + 4 * j - 3) / 4 = j := by omega
    rw [mem, stored_at (Nat.le_of_lt more) inside, copied]
  | cmpLoop j moved more here mem =>
    have copied : (7 + 4 * j - 3) / 4 = j + 1 := by omega
    rw [mem, stored_at more inside, copied]
  | bne j moved more here mem =>
    have copied : (8 + 4 * j - 3) / 4 = j + 1 := by omega
    rw [mem, stored_at more inside, copied]
  | cleanBss late image =>
    rw [image i inside]
    by_cases same : N.image.load = N.image.start
    · rw [same, ite_self]
    · have all := late same
      rw [if_pos (by omega)]

theorem enabled_exec (P : Program) {i : Instr} (only : general i = true) : enabled (exec P i s) = enabled s := by
  cases i with
  | stmdb | ldmia => simp [general] at only
  | b cond label =>
    simp only [exec]
    split <;> rfl
  | cmp => simp [exec, enabled, Arm.compare]
  | _ => simp [exec, enabled, State.store]

theorem boot_cases (s : State) : N.boot s = s ∨ ∃ i ∈ relocationNVI N.image, N.boot s = exec N.program i s := by
  rw [boot, step]
  cases fetched : N.program.fetch s.pc with
  | none => exact .inl rfl
  | some i =>
    refine .inr ⟨i, ?_, rfl⟩
    unfold Program.fetch at fetched
    split at fetched
    · exact List.mem_of_getElem? fetched
    · cases fetched

theorem relocationNVI_general (I : Image) : ∀ i ∈ relocationNVI I, general i = true := by
  simp [relocationNVI, general]

theorem enabled_boot (on : enabled s = true) : enabled (N.boot s) = true := by
  rcases boot_cases (N := N) s with stop | ⟨i, mem, run⟩
  · rwa [stop]
  · rwa [run, enabled_exec _ (relocationNVI_general N.image i mem)]

theorem setWord_congr {t u : Bytes} {x : Word} (a w : Word) (same : t x = u x) :
    setWord t a w x = setWord u a w x := by
  simp only [setWord, overlay, same]

/-- An instruction reads and writes what the boot code has in common. -/
theorem exec_similar (P : Program) {i : Instr} {t u : State} (same : N.Similar t u) (only : general i = true)
    (read : ∀ rd rn next, i = .ldr rd rn next → t.load (u.get rn) = u.load (u.get rn)) :
    N.Similar (exec P i t) (exec P i u) := by
  obtain ⟨r, cpsr, pc, mem⟩ := same
  match i, only, read with
  | .adr (.r d) back, _, _ => exact ⟨by simp [exec, r, pc], cpsr, by simp [exec, pc], mem⟩
  | .ldrLit (.r d) value, _, _ => exact ⟨by simp [exec, r], cpsr, by simp [exec, pc], mem⟩
  | .mov (.r d) value, _, _ => exact ⟨by simp [exec, r], cpsr, by simp [exec, pc], mem⟩
  | .sub (.r d) (.r n) value, _, _ => exact ⟨by simp [exec, r], cpsr, by simp [exec, pc], mem⟩
  | .cmp (.r n) (.r k), _, _ => exact ⟨r, by simp [exec, r, cpsr], by simp [exec, pc], mem⟩
  | .b cond label, _, _ =>
    have flag : cond.holds t = cond.holds u := by cases cond <;> simp [Cond.holds, State.zero, cpsr]
    simp only [exec, flag]
    split
    · exact ⟨r, cpsr, rfl, mem⟩
    · exact ⟨r, cpsr, by rw [next_pc, next_pc, pc], mem⟩
  | .ldr (.r d) (.r n) next, _, read =>
    have value : t.load (u.r n) = u.load (u.r n) := read (.r d) (.r n) next rfl
    refine ⟨by simp [exec, r, value], by simp [exec, cpsr], by simp [exec, pc], fun x off => ?_⟩
    simpa only [exec, next_mem, set_mem] using mem x off
  | .str (.r d) (.r n) next, _, _ =>
    refine ⟨by simp [exec, State.store, r], by simp [exec, State.store, cpsr],
      by simp [exec, State.store, pc], fun x off => ?_⟩
    simp only [exec, next_mem, set_mem, State.store, get_r, r]
    exact setWord_congr _ _ (mem x off)

theorem boot_similar_at {k : Nat} {i : Instr} {t u : State} (small : k < 2 ^ 30)
    (here : u.pc = N.program.address k) (code : N.program.code[k]? = some i) (same : N.Similar t u)
    (only : general i = true)
    (read : ∀ rd rn next, i = .ldr rd rn next → t.load (u.get rn) = u.load (u.get rn)) :
    N.Similar (N.boot t) (N.boot u) := by
  rw [boot_at small here code, boot_at small (same.pc.trans here) code]
  exact exec_similar N.program same only read

/-- The word that the copy reads is not on the stack of an interrupt. -/
theorem source_read {j : Nat} {t u : State} (same : N.Similar t u) (more : j < N.words)
    (source : u.r 0 = N.image.load + BitVec.ofNat 32 (4 * j)) : t.load (u.r 0) = u.load (u.r 0) := by
  have length := words_eq (N := N)
  have bound := offset_lt N.image.start N.image.bss_start
  have aligned := aligned_words N.linked.load j
  rw [source, load_aligned t aligned, load_aligned u aligned]
  apply word_congr
  intro i hi
  rw [BitVec.add_assoc, ← BitVec.ofNat_add]
  apply same.mem
  have place : offset N.image.load (N.image.load + BitVec.ofNat 32 (4 * j + i)) = 4 * j + i :=
    offset_add _ (by rw [Image.length] at length; omega)
  have off := N.source_stack (N.image.load + BitVec.ofNat 32 (4 * j + i)) (by omega)
  unfold OnStack
  omega

theorem boot_similar {n : Nat} {t u : State} (h : Phase N m n u) (same : N.Similar t u) :
    N.Similar (N.boot t) (N.boot u) := by
  cases h with
  | ldr j moved more here mem source =>
    refine boot_similar_at (by decide) here rfl same rfl fun rd rn next eq => ?_
    injection eq with _ base
    subst base
    exact source_read same more source
  | adr here | start here | cmp here | beq here | copyCode _ here | str _ _ _ here | cmpLoop _ _ _ here
  | bne _ _ _ here => exact boot_similar_at (by decide) here rfl same rfl fun _ _ _ eq => by cases eq
  | cleanBss late image clearing =>
    cases clearing with
    | bssStart here | bssEnd here | cmp here | beq here | mov here | str _ _ here | cmpLoop _ _ here
    | bne _ _ here => exact boot_similar_at (by decide) here rfl same rfl fun _ _ _ eq => by cases eq
    | done here =>
      have stop : ∀ v : State, v.pc = N.program.address JumpToMMU → N.boot v = v := by
        intro v there
        rw [boot, step, there, fetch_address _ (by decide)]
        rfl
      rwa [stop u here, stop t (same.pc.trans here)]

theorem entered_mem (t : State) {x : Word} (off : ¬ N.OnStack x) : (N.entered t).mem x = t.mem x := by
  have stack := N.stack_frame
  exact irq_save_mem N.handlerProgram (mode_irqEntry 0x18 t) (by unfold OnStack at off; omega)

/-- An interrupt that finds the handler leaves the boot code where it was. -/
theorem serve_similar (service : N.Service) {t u : State} (same : N.Similar t u) :
    N.Similar (N.serve service t) u := by
  obtain ⟨r, cpsr, pc⟩ := irq_resumed N.handlerProgram 0x18 (s := t) (service.respects _)
  refine ⟨r.trans same.r, cpsr.trans same.cpsr, pc.trans same.pc, fun x off => ?_⟩
  exact (service.outside _ x off).trans ((entered_mem t off).trans (same.mem x off))

theorem image_off_stack {i : Nat} (inside : i < N.image.length) : ¬ N.OnStack (N.linkedAt i) := by
  have length := N.linked.length_eq
  have order : N.image.bss_start.toNat ≤ N.image.bss_end.toNat := N.linked.ordered
  have bound := N.image.bss_end.isLt
  have place : (N.linkedAt i).toNat = N.image.start.toNat + i := by
    rw [BitVec.toNat_add, BitVec.toNat_ofNat]
    omega
  have off := N.target_stack
  unfold OnStack
  omega

/-- A byte of the image is in place, whatever interrupts there have been, if the copy has
passed it or if it was there before. -/
theorem placed_iff {n i : Nat} {t u : State} (phase : Phase N m n u) (same : N.Similar t u)
    (inside : i < N.image.length) : t.mem (N.linkedAt i) = m (N.loadedAt i) ↔
      i < 4 * ((n - 3) / 4) ∨ m (N.linkedAt i) = m (N.loadedAt i) := by
  rw [same.mem _ (image_off_stack inside), phase_image phase inside]
  split
  · rename_i copied
    exact iff_of_true rfl (.inl copied)
  · rename_i later
    exact (or_iff_right later).symm

theorem holds_iff {n : Nat} {t u : State} (phase : Phase N m n u) (same : N.Similar t u) (d : Devices) :
    N.Holds m t.mem d ↔ ∀ i < N.image.length, N.Code d i →
      i < 4 * ((n - 3) / 4) ∨ m (N.linkedAt i) = m (N.loadedAt i) :=
  forall₂_congr fun _ inside => imp_congr_right fun _ => placed_iff phase same inside

/-- A string is where do_irq takes it from exactly if each of its bytes is. -/
theorem string_iff (strings : N.Strings m) (t : State) (d : Devices) (k : Nat) :
    Spells (N.entered t).mem (if (d.GPNDAT k).getLsbD k then N.linkedAt N.release else N.linkedAt N.press)
        (d.text k) ↔
      ∀ i < N.image.length, (N.string d k).Has i → t.mem (N.linkedAt i) = m (N.loadedAt i) := by
  have spelled {off : Nat} {text : List Byte} (spells : Spells m (N.loadedAt off) text)
      (fits : off + text.length < N.image.length) : Spells (N.entered t).mem (N.linkedAt off) text ↔
        ∀ i < N.image.length, Part.Has ⟨off, text.length + 1⟩ i → t.mem (N.linkedAt i) = m (N.loadedAt i) := by
    have place (a : Word) (i : Nat) : a + BitVec.ofNat 32 off + BitVec.ofNat 32 i = a + BitVec.ofNat 32 (off + i) := by
      rw [BitVec.add_assoc, ← BitVec.ofNat_add]
    rw [spells.copied_iff]
    constructor
    · rintro same i inside ⟨from_start, below⟩
      obtain ⟨j, rfl⟩ := Nat.exists_eq_add_of_le from_start
      have byte := same j (by change off + j < off + (text.length + 1) at below; omega)
      rwa [place, place, entered_mem t (image_off_stack inside)] at byte
    · intro same i within
      rw [place, place, entered_mem t (image_off_stack (by omega))]
      exact same (off + i) (by omega) ⟨Nat.le_add_right _ _, by change off + i < off + (text.length + 1); omega⟩
  rw [string, Devices.text]
  split
  · exact spelled strings.release N.release_fits
  · exact spelled strings.press N.press_fits

/-- An interrupt finds the handler and sends its messages exactly if all it uses is there. -/
theorem served_iff {n : Nat} {t u : State} (phase : Phase N m n u) (same : N.Similar t u) (strings : N.Strings m)
    (d : Devices) : N.Holds m t.mem d ∧ N.effects d t = served d ↔ N.InPlace m n d := by
  rw [effects, DoIrq.do_irq_served_iff, holds_iff phase same]
  simp only [string_iff strings t]
  constructor
  · rintro ⟨code, texts⟩ i inside (routine | ⟨k, key, pending, has⟩)
    · exact code i inside routine
    · exact (placed_iff phase same inside).mp (texts k key pending i inside has)
  · intro placed
    refine ⟨fun i inside routine => placed i inside (.inl routine), fun k key pending i inside has => ?_⟩
    exact (placed_iff phase same inside).mpr (placed i inside (.inr ⟨k, key, pending, has⟩))

theorem next_irq (service : N.Service) (done : List Effect) (unmasked : enabled s = true) :
    N.next m (.running s done) (.irq service) =
      if N.Holds m s.mem service.devices then .running (N.serve service s) (done ++ N.effects service.devices s)
      else .lost := by
  rw [next, if_pos unmasked]

theorem lost_absorbs (events : List N.Event) : events.foldl (N.next m) .lost = .lost := by
  induction events with
  | nil => rfl
  | cons e rest ih => exact ih

/-- What has been done stays done. -/
theorem done_prefix {events : List N.Event} {t t' : State} {done done' : List Effect}
    (run : events.foldl (N.next m) (.running t done) = .running t' done') : done <+: done' := by
  induction events generalizing t done with
  | nil =>
    cases run
    exact List.prefix_refl _
  | cons e rest ih =>
    rw [List.foldl_cons] at run
    cases e with
    | instr => exact ih run
    | irq service =>
      rw [next] at run
      split_ifs at run
      · exact (List.prefix_append _ _).trans (ih run)
      · rw [lost_absorbs] at run
        cases run
      · exact ih run

/-- An interrupt has as many effects as it should have. If they were others, no run after it
would have those that are asked for. -/
theorem effects_of_run {d : Devices} {events : List N.Event} {t t' : State} {done later : List Effect}
    (run : events.foldl (N.next m) (.running t (done ++ N.effects d s)) = .running t' (done ++ served d ++ later)) :
    N.effects d s = served d := by
  have begun := done_prefix run
  rw [List.append_assoc, List.prefix_append_right_inj] at begun
  have whole := List.prefix_of_prefix_length_le begun (List.prefix_append _ _) DoIrq.length_do_irq.le
  exact whole.eq_of_length DoIrq.length_do_irq

end Boot

/-- The invariant of a run: t is the machine, u the boot code without interrupts. -/
theorem foldl_running_iff {N : Nvi} {m : Bytes} {n : Nat} {t u : State} (strings : N.Strings m)
    (phase : Phase N m n u) (on : enabled u = true) (same : N.Similar t u) (done : List Effect)
    (events : List N.Event) :
    (∃ t', events.foldl (N.next m) (.running t done) = .running t' (done ++ N.allServed events) ∧
        N.Similar t' (N.boot^[N.instrs events] u)) ↔
      ∀ before service, before ++ [.irq service] <+: events →
        N.InPlace m (n + N.instrs before) service.devices := by
  induction events generalizing n t u done with
  | nil =>
    refine ⟨fun _ before service short => ?_, fun _ => ⟨t, by simp [allServed], same⟩⟩
    simp at short
  | cons e rest ih =>
    cases e with
    | instr =>
      refine (ih (phase_boot phase) (enabled_boot on) (boot_similar phase same) done).trans ⟨?_, ?_⟩
      · intro timely before service short
        rcases Trace.snoc_prefix_cons.mp short with ⟨-, impossible⟩ | ⟨later, rfl, inner⟩
        · cases impossible
        · rw [instrs, ← Nat.add_assoc, Nat.add_right_comm]
          exact timely later service inner
      · intro timely later service inner
        rw [Nat.add_right_comm, Nat.add_assoc]
        exact timely (.instr :: later) service (Trace.snoc_prefix_cons.mpr (.inr ⟨later, rfl, inner⟩))
    | irq service =>
      have inPlace := served_iff phase same strings service.devices
      have unmasked : enabled t = true := by rwa [enabled, same.cpsr]
      have first : (∀ before other, before ++ [.irq other] <+: Event.irq service :: rest →
          N.InPlace m (n + N.instrs before) other.devices) → N.InPlace m n service.devices := fun timely =>
        timely [] service (Trace.snoc_prefix_cons.mpr (.inl ⟨rfl, rfl⟩))
      rw [List.foldl_cons, next_irq service done unmasked, allServed, ← List.append_assoc]
      by_cases holds : N.Holds m t.mem service.devices
      · rw [if_pos holds]
        by_cases sent : N.effects service.devices t = served service.devices
        · rw [sent]
          refine (ih phase on (serve_similar service same) (done ++ served service.devices)).trans ⟨?_, ?_⟩
          · intro timely before other short
            rcases Trace.snoc_prefix_cons.mp short with ⟨rfl, here⟩ | ⟨later, rfl, inner⟩
            · cases here
              exact inPlace.mp ⟨holds, sent⟩
            · exact timely later other inner
          · intro timely later other inner
            exact timely (.irq service :: later) other (Trace.snoc_prefix_cons.mpr (.inr ⟨later, rfl, inner⟩))
        · refine iff_of_false ?_ fun timely => sent (inPlace.mpr (first timely)).2
          rintro ⟨t', run, -⟩
          exact sent (effects_of_run run)
      · rw [if_neg holds, lost_absorbs]
        refine iff_of_false ?_ fun timely => holds (inPlace.mpr (first timely)).1
        rintro ⟨t', impossible, -⟩
        cases impossible

/-- From the instruction that enables IRQ on, for every arrival of interrupts: they all
find the handler, send its messages and leave no trace in the boot code exactly if each comes
when the copy has passed all that it uses, or finds in SDRAM what is still to be copied. -/
theorem transparent_iff_timely (N : Nvi) (s : State) (here : s.pc = N.image.load + N.image.entry)
    (status : s.cpsr = 0x53) (strings : N.Strings s.mem) (events : List N.Event) :
    (∀ reached, reached <+: events → N.Transparent s reached) ↔ N.Timely s.mem events := by
  have first : Phase N s.mem 0 s := by
    refine .adr ?_ rfl
    rw [here, Program.address]
    simp [Variant.program]
  have on : enabled s = true := by
    rw [enabled, status]
    decide
  have same : N.Similar s s := ⟨rfl, rfl, rfl, fun _ _ => rfl⟩
  have runs := foldl_running_iff strings first on same []
  simp only [Nat.zero_add, List.nil_append] at runs
  constructor
  · intro transparent
    exact (runs events).mp (transparent events (List.prefix_refl events))
  · intro timely reached short
    exact (runs reached).mpr fun before service inner => timely before service (inner.trans short)

/-- As start.s is laid out, where `ldr sp, =0x53000000` is a mov, with the C code and the
strings further on and a stack of 256 bytes. -/
def board : Nvi where
  image := ⟨0x0c000000, 0x6c, 0x50000000, 0x50001000, 0x50001010⟩
  linked := ⟨by decide, by decide, by decide, by decide, by decide, by decide⟩
  irq := ⟨0xc0, 20⟩
  literal := ⟨0xd8, 0⟩
  do_irq := ⟨0x800, 0x100⟩
  UART0_SendString := ⟨0xa00, 0x80⟩
  routines_fit := by decide
  release := 0xf00
  press := 0xf10
  release_fits := by decide
  press_fits := by decide
  stack := 0x100
  stack_frame := by decide
  clear := .inr (by decide)
  source_stack := by
    intro x inside
    have range : offset 0x0c000000 x < 0x1000 ↔ _ := offset_lt_iff (by decide)
    have low : BitVec.toNat (0x0c000000 : Word) = 0x0c000000 := rfl
    have near : offset 0x0c000000 x < 0x1000 := inside
    omega
  target_stack := .inl (by decide)

/-- Key 0 has been pressed. -/
def pressed : board.Service where
  devices := ⟨fun _ => 1, fun _ => 0, fun _ => 0, fun n => ⟨n, le_rfl, rfl⟩⟩
  left := id
  respects := fun _ => ⟨rfl, rfl, rfl, fun _ _ => rfl⟩
  outside := fun _ _ _ => rfl

def enabledState (m : Bytes) : State where
  r := fun _ => 0
  sp := fun _ => 0x0c002000
  lr := fun _ => 0
  spsr := fun _ => 0
  cpsr := 0x53
  pc := 0x0c00006c
  mem := m

/-- An image with its strings; the code is anything. -/
def content (i : Nat) : Byte :=
  if i < 0xf00 then 1 else if i < 0xf10 then releaseText.getD (i - 0xf00) 0 else pressText.getD (i - 0xf10) 0

/-- SDRAM still holds the image. -/
def warmStart : Bytes := fun a => content (a.toNat % 0x1000)

def powerUp : Bytes := fun a => if a < 0x50000000 then content (a.toNat % 0x1000) else 0

theorem instrs_replicate (k : Nat) : board.instrs (List.replicate k .instr) = k := by
  induction k with
  | zero => rfl
  | succ k ih => rw [List.replicate_succ, instrs, ih]

theorem last_irq {k : Nat} {last service : board.Service} {before : List board.Event}
    (short : before ++ [.irq service] <+: List.replicate k .instr ++ [.irq last]) :
    before = List.replicate k .instr ∧ service = last := by
  induction k generalizing before with
  | zero =>
    rcases Trace.snoc_prefix_cons.mp short with ⟨rfl, same⟩ | ⟨later, -, inner⟩
    · exact ⟨rfl, Event.irq.inj same⟩
    · simp at inner
  | succ k ih =>
    rcases Trace.snoc_prefix_cons.mp short with ⟨-, impossible⟩ | ⟨later, rfl, inner⟩
    · cases impossible
    · obtain ⟨rfl, same⟩ := ih inner
      exact ⟨rfl, same⟩

/-- A key may be pressed at once after a warm start, and when the image has been copied after
power-up. -/
theorem transparent_warm_start :
    board.Transparent (enabledState warmStart) [.irq pressed] ∧
    board.Transparent (enabledState powerUp) (List.replicate 4099 .instr ++ [.irq pressed]) := by
  constructor
  · refine (transparent_iff_timely board (enabledState warmStart) rfl rfl ⟨by decide, by decide⟩ [.irq pressed]).mpr
      ?_ _ (List.prefix_refl _)
    intro before service short i inside uses
    right
    have page (a : Word) (aligned : a.toNat % 0x1000 = 0) :
        (a + BitVec.ofNat 32 i).toNat % 0x1000 = i % 0x1000 := by
      rw [BitVec.toNat_add, BitVec.toNat_ofNat]
      omega
    exact congrArg content ((page 0x50000000 rfl).trans (page 0x0c000000 rfl).symm)
  · refine (transparent_iff_timely board (enabledState powerUp) rfl rfl ⟨by decide, by decide⟩
      (List.replicate 4099 .instr ++ [.irq pressed])).mpr ?_ _ (List.prefix_refl _)
    intro before service short i inside uses
    obtain ⟨rfl, -⟩ := last_irq short
    left
    rw [instrs_replicate]
    exact inside

/-- After power-up the first interrupt goes to whatever SDRAM holds. -/
theorem lost_at_power_up : board.run (enabledState powerUp) [.irq pressed] = .lost ∧
    ¬ board.Transparent (enabledState powerUp) [.irq pressed] := by
  have missing : ¬ board.Holds (enabledState powerUp).mem (enabledState powerUp).mem pressed.devices := by
    intro holds
    have first := holds 0xc0 (by decide) (by decide)
    revert first
    decide
  have gone : board.run (enabledState powerUp) [.irq pressed] = .lost := by
    rw [run, List.foldl_cons, List.foldl_nil, next_irq pressed [] rfl, if_neg missing]
  refine ⟨gone, ?_⟩
  rintro ⟨t, running, -⟩
  rw [gone] at running
  cases running

end Nvi

end Tiny6410.Boot
