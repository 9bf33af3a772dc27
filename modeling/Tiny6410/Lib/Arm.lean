import Mathlib.Computability.StateTransition
import Tiny6410.Lib.Memory

/-! The ARM instructions of hand-written boot and interrupt code. Instructions are
fetched from a program placed at an origin, not from the data memory, so code that
overwrites the instructions it is running is outside this model. A word access
ignores the low address bits and a load rotates by them, as with CP15 c1 U and A
clear. The r8 to r12 that FIQ mode has for itself are left out. -/
namespace Arm

open Memory StateTransition

/-- The register banks; system mode uses the user bank. -/
inductive Mode where
  | usr | fiq | irq | svc | abt | und
  deriving DecidableEq

inductive Reg where
  | r (i : Fin 13)
  | sp
  | lr
  deriving DecidableEq

structure State where
  r : Fin 13 → Word
  sp : Mode → Word
  lr : Mode → Word
  spsr : Mode → Word
  cpsr : Word
  pc : Word
  mem : Bytes

def modeOf (cpsr : Word) : Mode :=
  match (cpsr &&& 0x1f).toNat with
  | 0x11 => .fiq
  | 0x12 => .irq
  | 0x13 => .svc
  | 0x17 => .abt
  | 0x1b => .und
  | _ => .usr

def State.mode (s : State) : Mode := modeOf s.cpsr

def State.get (s : State) : Reg → Word
  | .r i => s.r i
  | .sp => s.sp s.mode
  | .lr => s.lr s.mode

def State.set (s : State) (rd : Reg) (v : Word) : State :=
  match rd with
  | .r i => { s with r := Function.update s.r i v }
  | .sp => { s with sp := Function.update s.sp s.mode v }
  | .lr => { s with lr := Function.update s.lr s.mode v }

def State.next (s : State) : State := { s with pc := s.pc + 4 }

section Updates

variable (s : State) (i j : Fin 13) (v : Word) (rd : Reg)

@[simp] theorem get_r : s.get (.r i) = s.r i := rfl
@[simp] theorem set_r : (s.set (.r i) v).r = Function.update s.r i v := rfl
@[simp] theorem set_mem : (s.set rd v).mem = s.mem := by cases rd <;> rfl
@[simp] theorem set_pc : (s.set rd v).pc = s.pc := by cases rd <;> rfl
@[simp] theorem set_cpsr : (s.set rd v).cpsr = s.cpsr := by cases rd <;> rfl
@[simp] theorem set_spsr : (s.set rd v).spsr = s.spsr := by cases rd <;> rfl
@[simp] theorem next_r : s.next.r = s.r := rfl
@[simp] theorem next_mem : s.next.mem = s.mem := rfl
@[simp] theorem next_pc : s.next.pc = s.pc + 4 := rfl
@[simp] theorem next_cpsr : s.next.cpsr = s.cpsr := rfl

end Updates

def wordAddress (a : Word) : Word := a &&& ~~~3

def State.load (s : State) (a : Word) : Word :=
  (word s.mem (wordAddress a)).rotateRight (8 * (a.toNat % 4))

def State.store (s : State) (a w : Word) : State :=
  { s with mem := setWord s.mem (wordAddress a) w }

def compare (a b cpsr : Word) : Word :=
  (cpsr &&& 0x0fffffff) ||| (BitVec.ofBool (a - b).msb).setWidth 32 <<< 31 |||
    (BitVec.ofBool (a == b)).setWidth 32 <<< 30 ||| (BitVec.ofBool (b.ule a)).setWidth 32 <<< 29 |||
    (BitVec.ofBool (a.ssubOverflow b)).setWidth 32 <<< 28

def State.zero (s : State) : Bool := s.cpsr.getLsbD 30

inductive Cond where
  | al | eq | ne
  deriving DecidableEq

def Cond.holds (s : State) : Cond → Bool
  | .al => true
  | .eq => s.zero
  | .ne => !s.zero

/-- A label is the index of its instruction; adr counts the bytes back to its label, and
ldrLit is `ldr rd, =value`. ldr and str are post-indexed, and stmdb and ldmia move r0 to
r12 with lr and with pc, writing their base back. -/
inductive Instr where
  | adr (rd : Reg) (back : Word)
  | ldrLit (rd : Reg) (value : Word)
  | mov (rd : Reg) (value : Word)
  | sub (rd rn : Reg) (value : Word)
  | cmp (rn rm : Reg)
  | b (cond : Cond) (label : Nat)
  | ldr (rd rn : Reg) (step : Word)
  | str (rd rn : Reg) (step : Word)
  | stmdb (rn : Reg)
  | ldmia (rn : Reg)
  deriving DecidableEq

/-- Code at the place where it runs. Branches are relative to the pc, so labels
are resolved against the origin, not against a link address. -/
structure Program where
  origin : Word
  code : List Instr

def Program.address (P : Program) (i : Nat) : Word := P.origin + BitVec.ofNat 32 (4 * i)

def Program.fetch (P : Program) (pc : Word) : Option Instr :=
  if offset P.origin pc % 4 = 0 then P.code[offset P.origin pc / 4]? else none

def State.frame (s : State) (k : Nat) : Word := if h : k < 13 then s.r ⟨k, h⟩ else s.lr s.mode

def exec (P : Program) (i : Instr) (s : State) : State :=
  match i with
  | .adr rd back => (s.set rd (s.pc - back)).next
  | .ldrLit rd value => (s.set rd value).next
  | .mov rd value => (s.set rd value).next
  | .sub rd rn value => (s.set rd (s.get rn - value)).next
  | .cmp rn rm => { s.next with cpsr := compare (s.get rn) (s.get rm) s.cpsr }
  | .b cond label => if cond.holds s then { s with pc := P.address label } else s.next
  | .ldr rd rn step => ((s.set rn (s.get rn + step)).set rd (s.load (s.get rn))).next
  | .str rd rn step => ((s.store (s.get rn) (s.get rd)).set rn (s.get rn + step)).next
  | .stmdb rn =>
    let base := s.get rn - 56
    ({ s with mem := setWords s.mem (wordAddress base) 14 s.frame }.set rn base).next
  | .ldmia rn =>
    let base := s.get rn
    let loaded := fun k => word s.mem (wordAddress base + BitVec.ofNat 32 (4 * k))
    { s.set rn (base + 56) with
      r := fun i => loaded i
      pc := loaded 13
      cpsr := s.spsr s.mode }

def step (P : Program) (s : State) : Option State := (P.fetch s.pc).map fun i => exec P i s

theorem address_succ (P : Program) (i : Nat) : P.address i + 4 = P.address (i + 1) := by
  rw [Program.address, Program.address, BitVec.add_assoc, Nat.mul_succ, BitVec.ofNat_add]
  rfl

theorem fetch_address (P : Program) {i : Nat} (small : i < 2 ^ 30) :
    P.fetch (P.address i) = P.code[i]? := by
  have place : offset P.origin (P.address i) = 4 * i := offset_add _ (by omega)
  rw [Program.fetch, place, if_pos (Nat.mul_mod_right 4 i), Nat.mul_div_cancel_left i (by decide)]

theorem reaches_exec (P : Program) {i : Nat} {instr : Instr} {s : State} (small : i < 2 ^ 30)
    (here : s.pc = P.address i) (code : P.code[i]? = some instr) :
    Reaches (step P) s (exec P instr s) := by
  apply Relation.ReflTransGen.single
  rw [Option.mem_def, step, here, fetch_address P small, code]
  rfl

def Instr.straight : Instr → Bool
  | .b _ _ | .ldmia _ => false
  | _ => true

theorem exec_pc (P : Program) {i : Instr} (s : State) (straight : i.straight = true) :
    (exec P i s).pc = s.pc + 4 := by
  cases i with
  | b | ldmia => simp [Instr.straight] at straight
  | _ => simp [exec, State.store]

def runBlock (P : Program) (block : List Instr) (s : State) : State :=
  block.foldl (fun s i => exec P i s) s

theorem reaches_block (P : Program) (block : List Instr) {i : Nat} {s : State}
    (here : s.pc = P.address i) (code : block <+: P.code.drop i)
    (straight : block.all Instr.straight = true) (small : i + block.length ≤ 2 ^ 30) :
    Reaches (step P) s (runBlock P block s) ∧
      (runBlock P block s).pc = P.address (i + block.length) := by
  induction block generalizing i s with
  | nil => exact ⟨.refl, here⟩
  | cons a rest ih =>
    obtain ⟨tail, split⟩ := code
    rw [List.all_cons, Bool.and_eq_true] at straight
    rw [List.length_cons] at small
    have first : P.code[i]? = some a := by
      have head := congrArg (fun l => l[0]?) split
      simpa using head.symm
    have later : rest <+: P.code.drop (i + 1) := by
      refine ⟨tail, ?_⟩
      rw [← List.tail_drop, ← split]
      rfl
    have place : (exec P a s).pc = P.address (i + 1) := by
      rw [exec_pc P s straight.1, here, address_succ]
    obtain ⟨run, stop⟩ := ih place later straight.2 (by omega)
    refine ⟨(reaches_exec P (by omega) here first).trans run, ?_⟩
    rw [List.length_cons, ← Nat.add_assoc, Nat.add_right_comm]
    exact stop

theorem reaches_branch (P : Program) (block : List Instr) {i label : Nat} {cond : Cond} {s : State}
    (here : s.pc = P.address i) (code : block ++ [.b cond label] <+: P.code.drop i)
    (straight : block.all Instr.straight = true) (small : i + block.length < 2 ^ 30) :
    ∃ s', Reaches (step P) s s' ∧ s'.r = (runBlock P block s).r ∧
      s'.mem = (runBlock P block s).mem ∧
      s'.pc = P.address (if cond.holds (runBlock P block s) then label else i + block.length + 1) := by
  obtain ⟨run, stop⟩ := reaches_block P block here ((List.prefix_append _ _).trans code) straight
    (Nat.le_of_lt small)
  have branch : P.code[i + block.length]? = some (.b cond label) := by
    obtain ⟨tail, split⟩ := code
    have last := congrArg (fun l => l[block.length]?) split
    simpa using last.symm
  refine ⟨_, run.trans (reaches_exec P small stop branch), ?_⟩
  simp only [exec]
  split
  · exact ⟨rfl, rfl, rfl⟩
  · refine ⟨rfl, rfl, ?_⟩
    rw [next_pc, stop, address_succ]

@[simp] theorem compare_zero (a b cpsr : Word) : (compare a b cpsr)[30] = (a == b) := by
  simp [compare]

theorem wordAddress_aligned {a : Word} (aligned : a.toNat % 4 = 0) : wordAddress a = a := by
  apply BitVec.eq_of_getLsbD_eq
  intro i hi
  have low : i < 2 → a.getLsbD i = false := by
    intro two
    have bit := Nat.testBit_mod_two_pow a.toNat 2 i
    rw [show a.toNat % 2 ^ 2 = 0 from aligned, Nat.zero_testBit, decide_eq_true two] at bit
    exact bit.symm
  have three : (3 : Word).getLsbD i = decide (i < 2) := by
    have all : ∀ j : Fin 32, (3 : Word).getLsbD j = decide (j.val < 2) := by decide
    exact all ⟨i, hi⟩
  rw [wordAddress, BitVec.getLsbD_and, BitVec.getLsbD_not, three]
  by_cases two : i < 2
  · rw [low two]
    rfl
  · simp [hi, two]

theorem load_aligned (s : State) {a : Word} (aligned : a.toNat % 4 = 0) :
    s.load a = word s.mem a := by
  rw [State.load, wordAddress_aligned aligned, aligned]
  simp [BitVec.rotateRight, BitVec.rotateRightAux]

end Arm
