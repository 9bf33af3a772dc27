import Tiny6410.Lib.Arm

/-! Entry to and return from the IRQ handlers. A handler is the instructions that
save the interrupted registers, a body, and the instructions that restore them. On
entry lr_irq is four past the next instruction, so a handler that saves it as it is
returns to the wrong place. -/
namespace Tiny6410.Interrupt

open Memory Arm

/-- CPSR on IRQ entry: IRQ mode, ARM state, IRQ and imprecise aborts masked. -/
def irqStatus (cpsr : Word) : Word := (cpsr &&& ~~~0x0100003f) ||| 0x192

def irqEntry (vector : Word) (s : State) : State :=
  { s with
    lr := Function.update s.lr .irq (s.pc + 4)
    spsr := Function.update s.spsr .irq s.cpsr
    cpsr := irqStatus s.cpsr
    pc := vector }

structure Handler where
  save : List Instr
  restore : List Instr

/-- All handlers save and restore with `stmdb sp!, {r0-r12, lr}` and `ldmia sp!, {r0-r12, pc}^`;
they differ in what they do before. -/
def fullFrame (lead : List Instr) : Handler := ⟨lead ++ [.stmdb .sp], [.ldmia .sp]⟩

/-! The __asm__ statements of the handlers written in C. What the compiler puts before
the first one is not in the source. -/

def key_irq_handler : Handler := fullFrame []
def timer0_irq_handler : Handler := fullFrame []
def watchdog_irq_handler : Handler := fullFrame []

/-- start.S of no-os/interrupt/irq. Its `sub lr, lr, #4` is commented out. -/
def key_handle_asm : Handler := fullFrame []

/-- start.s of workspace/interrupt/NVI. -/
def irq : Handler := fullFrame [.ldrLit .sp 0x53000000, .sub .lr .lr 4]

inductive Source where
  | key_irq_handler | timer0_irq_handler | watchdog_irq_handler | key_handle_asm | irq
  deriving DecidableEq

def Source.handler : Source → Handler
  | .key_irq_handler => Interrupt.key_irq_handler
  | .timer0_irq_handler => Interrupt.timer0_irq_handler
  | .watchdog_irq_handler => Interrupt.watchdog_irq_handler
  | .key_handle_asm => Interrupt.key_handle_asm
  | .irq => Interrupt.irq

/-- A body may change every register and any memory but its own stack frame. -/
structure Respects (t u : State) : Prop where
  mode : u.mode = t.mode
  sp : u.sp .irq = t.sp .irq
  spsr : u.spsr .irq = t.spsr .irq
  frame : ∀ k < 14, word u.mem (wordAddress (t.sp .irq) + BitVec.ofNat 32 (4 * k)) =
    word t.mem (wordAddress (t.sp .irq) + BitVec.ofNat 32 (4 * k))

structure Resumed (s s' : State) : Prop where
  r : s'.r = s.r
  cpsr : s'.cpsr = s.cpsr
  pc : s'.pc = s.pc

theorem mode_irqStatus (cpsr : Word) : modeOf (irqStatus cpsr) = .irq := by
  have low : irqStatus cpsr &&& 0x1f = 0x12 := by
    have none : cpsr &&& ~~~0x0100003f &&& 0x1f = 0#32 := by
      rw [BitVec.and_assoc, show ~~~(0x0100003f : Word) &&& 0x1f = 0 by decide]
      exact BitVec.and_zero
    rw [irqStatus, BitVec.and_comm, BitVec.and_or_distrib_left, BitVec.and_comm, none]
    rfl
  rw [modeOf, low]
  rfl

theorem mode_irqEntry (vector : Word) (s : State) : (irqEntry vector s).mode = .irq :=
  mode_irqStatus s.cpsr

theorem lr_irqEntry (vector : Word) (s : State) : (irqEntry vector s).lr .irq = s.pc + 4 := by
  simp [irqEntry]

theorem spsr_irqEntry (vector : Word) (s : State) : (irqEntry vector s).spsr .irq = s.cpsr := by
  simp [irqEntry]

/-- A frame saved by stmdb and left alone by the body comes back through ldmia, with
the saved lr as the place to resume. -/
theorem restored_frame (P : Program) {t u : State} (mode : t.mode = .irq)
    (body : Respects (exec P (.stmdb .sp) t) u) :
    (exec P (.ldmia .sp) u).r = t.r ∧ (exec P (.ldmia .sp) u).cpsr = t.spsr .irq ∧
      (exec P (.ldmia .sp) u).pc = t.lr .irq := by
  have stack : (exec P (.stmdb .sp) t).sp .irq = t.sp .irq - 56 := by
    rw [State.mode] at mode
    simp [exec, State.get, State.set, State.next, State.mode, mode]
  have stored : (exec P (.stmdb .sp) t).mem =
      setWords t.mem (wordAddress (t.sp .irq - 56)) 14 t.frame := by
    simp [exec, State.get, mode]
  have saved : ∀ k < 14, word u.mem (wordAddress (u.sp .irq) + BitVec.ofNat 32 (4 * k)) =
      t.frame k := by
    intro k hk
    rw [body.sp, body.frame k hk, stack, stored]
    exact word_setWords _ _ _ hk (by decide)
  have inside : u.mode = .irq := by
    rw [body.mode]
    simpa [exec, State.mode] using mode
  have status : u.spsr .irq = t.spsr .irq := by
    rw [body.spsr]
    simp [exec, State.next]
  refine ⟨?_, ?_, ?_⟩
  · funext i
    have register := saved i (by omega)
    rw [State.frame, dif_pos i.isLt] at register
    simpa [exec, State.get, inside] using register
  · simpa [exec, inside] using status
  · have link := saved 13 (by decide)
    rw [State.frame, dif_neg (by decide), mode] at link
    simpa [exec, State.get, inside] using link

theorem irq_save (P : Program) {s : State} (mode : s.mode = .irq) :
    ∃ t, runBlock P irq.save s = exec P (.stmdb .sp) t ∧ t.mode = .irq ∧ t.r = s.r ∧
      t.spsr = s.spsr ∧ t.lr .irq = s.lr .irq - 4 := by
  refine ⟨_, rfl, ?_⟩
  rw [State.mode] at *
  simp [exec, State.mode, mode, State.set, State.get, State.next]

theorem irq_save_mem (P : Program) {s : State} (mode : s.mode = .irq) {x : Word}
    (off : ¬ (0x53000000 ≤ x.toNat + 56 ∧ x.toNat < 0x53000000)) : (runBlock P irq.save s).mem x = s.mem x := by
  have saved : (runBlock P irq.save s).mem = setWords s.mem 0x52ffffc8 14
      (exec P (.sub .lr .lr 4) (exec P (.ldrLit .sp 0x53000000) s)).frame := by
    have base : wordAddress 0x52ffffc8#32 = 0x52ffffc8#32 := by decide
    rw [State.mode] at mode
    simp [runBlock, irq, fullFrame, exec, State.get, State.set, State.next, State.mode, mode, base]
  have inside : offset 0x52ffffc8 x < 4 * 14 ↔ _ := offset_lt_iff (by decide)
  have low : BitVec.toNat (0x52ffffc8 : Word) = 0x52ffffc8 := rfl
  rw [saved]
  exact overlay_outside _ _ (by omega)

theorem uncorrected_not_resumed (P : Program) (vector : Word) {s u : State}
    (body : Respects (exec P (.stmdb .sp) (irqEntry vector s)) u) :
    ¬ Resumed s (exec P (.ldmia .sp) u) := by
  intro resumed
  have link := (restored_frame P (mode_irqEntry vector s) body).2.2
  rw [resumed.pc, lr_irqEntry] at link
  have distance : offset s.pc (s.pc + 4) = 4 := offset_add s.pc (by decide)
  rw [← link, offset, BitVec.sub_self] at distance
  simp at distance

theorem irq_resumed (P : Program) (vector : Word) {s u : State}
    (body : Respects (runBlock P irq.save (irqEntry vector s)) u) : Resumed s (runBlock P irq.restore u) := by
  obtain ⟨t, save, inside, regs, status, link⟩ := irq_save P (mode_irqEntry vector s)
  rw [save] at body
  obtain ⟨r, cpsr, pc⟩ := restored_frame P inside body
  refine ⟨r.trans regs, ?_, ?_⟩
  · change (exec P (.ldmia .sp) u).cpsr = _
    rw [cpsr, status, spsr_irqEntry]
  · change (exec P (.ldmia .sp) u).pc = _
    rw [pc, link, lr_irqEntry, BitVec.add_sub_cancel]

/-- Of the five handlers only the NVI stub is transparent. The others come back one
instruction too far, from every state and with every body. -/
theorem handler_resumed_iff (h : Source) (P : Program) (vector : Word) (s u : State)
    (body : Respects (runBlock P h.handler.save (irqEntry vector s)) u) :
    Resumed s (runBlock P h.handler.restore u) ↔ h = .irq := by
  cases h with
  | key_irq_handler | timer0_irq_handler | watchdog_irq_handler | key_handle_asm =>
    exact ⟨fun resumed => absurd resumed (uncorrected_not_resumed P vector body),
      fun impossible => by cases impossible⟩
  | irq => exact ⟨fun _ => rfl, fun _ => irq_resumed P vector body⟩

def mainState : State where
  r := fun i => BitVec.ofNat 32 (100 + i)
  sp := fun _ => 0x57000000
  lr := fun _ => 0x50000040
  spsr := fun _ => 0
  cpsr := 0x60000013
  pc := 0x50000200
  mem := fun _ => 0

def clobber (s : State) : State := { s with r := fun _ => 0, lr := fun _ => 0 }

theorem clobber_respects (t : State) : Respects t (clobber t) := ⟨rfl, rfl, rfl, fun _ _ => rfl⟩

def irqProgram : Program := ⟨0x50000100, irq.save ++ irq.restore⟩

theorem handler_resumed_iff_clobbered :
    Resumed mainState (runBlock irqProgram Source.irq.handler.restore
      (clobber (runBlock irqProgram Source.irq.handler.save (irqEntry 0x18 mainState)))) :=
  (handler_resumed_iff .irq irqProgram 0x18 mainState _ (clobber_respects _)).mpr rfl

def keyProgram : Program := ⟨0x50000100, key_irq_handler.save ++ key_irq_handler.restore⟩

theorem key_irq_handler_skips_instruction :
    Respects (runBlock keyProgram key_irq_handler.save (irqEntry 0x50000100 mainState))
      (clobber (runBlock keyProgram key_irq_handler.save (irqEntry 0x50000100 mainState))) ∧
    ¬ Resumed mainState (runBlock keyProgram key_irq_handler.restore
      (clobber (runBlock keyProgram key_irq_handler.save (irqEntry 0x50000100 mainState)))) :=
  ⟨clobber_respects _, uncorrected_not_resumed keyProgram 0x50000100 (clobber_respects _)⟩

end Tiny6410.Interrupt
