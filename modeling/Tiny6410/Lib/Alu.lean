import Mathlib.Computability.StateTransition
import Tiny6410.Lib.Memory

/-! ARM routines that compute: data processing with a condition, a shifted operand and the
four flags, branches to numeric labels, and the return through lr. A routine is a listing,
and the pc is an index into it until the routine is left. For such listings there are rules
that lead from one place to another, by blocks, by branches and by loops with a measure. -/
namespace Alu

open Memory StateTransition

inductive Reg where
  | r0 | r1 | r2 | r3 | r4 | r5 | r6 | r7 | r8 | r9 | r10 | r11 | ip | sp | lr
  deriving DecidableEq

structure Core where
  r : Reg → Word
  n : Bool
  z : Bool
  c : Bool
  v : Bool
  mem : Bytes

def Core.set (s : Core) (rd : Reg) (w : Word) : Core := { s with r := Function.update s.r rd w }

inductive Cond where
  | al | eq | ne | cs | cc | mi | hi | ls | ge | lt
  deriving DecidableEq

abbrev Cond.hs : Cond := cs
abbrev Cond.lo : Cond := cc

def Cond.holds (s : Core) : Cond → Bool
  | al => true
  | eq => s.z
  | ne => !s.z
  | cs => s.c
  | cc => !s.c
  | mi => s.n
  | hi => s.c && !s.z
  | ls => !s.c || s.z
  | ge => s.n == s.v
  | lt => s.n != s.v

/-- The second operand. A shift by a constant is by 1 to 31, and one by a register by the
low byte of it. -/
inductive Operand where
  | imm (w : Word)
  | reg (r : Reg)
  | lsl (r : Reg) (k : Nat)
  | lsr (r : Reg) (k : Nat)
  | asr (r : Reg) (k : Nat)
  | lslBy (r k : Reg)
  | lsrBy (r k : Reg)
  deriving DecidableEq

instance (n : Nat) : OfNat Operand n := ⟨.imm (BitVec.ofNat 32 n)⟩

instance : Coe Reg Operand := ⟨.reg⟩

def Core.amount (s : Core) (k : Reg) : Nat := (s.r k).toNat % 256

def Operand.value (s : Core) : Operand → Word
  | imm w => w
  | reg r => s.r r
  | lsl r k => s.r r <<< k
  | lsr r k => s.r r >>> k
  | asr r k => (s.r r).sshiftRight k
  | lslBy r k => s.r r <<< s.amount k
  | lsrBy r k => s.r r >>> s.amount k

/-- The carry of the shifter: the last bit that is shifted out. A constant that is rotated
gives its own top bit. -/
def Operand.carry (s : Core) : Operand → Bool
  | imm w => if w.toNat < 256 then s.c else w.msb
  | reg _ => s.c
  | lsl r k => (s.r r).getLsbD (32 - k)
  | lsr r k | asr r k => (s.r r).getLsbD (k - 1)
  | lslBy r k => if s.amount k = 0 then s.c else s.amount k ≤ 32 && (s.r r).getLsbD (32 - s.amount k)
  | lsrBy r k => if s.amount k = 0 then s.c else (s.r r).getLsbD (s.amount k - 1)

inductive Op where
  | and (rd rn : Reg) (o : Operand)
  | eor (rd rn : Reg) (o : Operand)
  | orr (rd rn : Reg) (o : Operand)
  | bic (rd rn : Reg) (o : Operand)
  | mov (rd : Reg) (o : Operand)
  | add (rd rn : Reg) (o : Operand)
  | adc (rd rn : Reg) (o : Operand)
  | sub (rd rn : Reg) (o : Operand)
  | rsb (rd rn : Reg) (o : Operand)
  | mul (rd rm rs : Reg)
  | tst (rn : Reg) (o : Operand)
  | teq (rn : Reg) (o : Operand)
  | cmp (rn : Reg) (o : Operand)
  | cmn (rn : Reg) (o : Operand)
  deriving DecidableEq

def Core.logical (s : Core) (result : Word) (carry : Bool) : Core :=
  { s with n := result.msb, z := result == 0, c := carry }

def Core.sum (s : Core) (a b : Word) (carry : Bool) : Core :=
  let total := a.toNat + b.toNat + carry.toNat
  let result := BitVec.ofNat 32 total
  { s with
    n := result.msb
    z := result == 0
    c := 2 ^ 32 ≤ total
    v := a.msb == b.msb && result.msb != a.msb }

def Core.difference (s : Core) (a b : Word) : Core :=
  { s with n := (a - b).msb, z := a == b, c := b.ule a, v := a.ssubOverflow b }

section Updates

variable (s : Core) (rd : Reg) (a b : Word) (carry : Bool)

@[simp] theorem set_r : (s.set rd a).r = Function.update s.r rd a := rfl
@[simp] theorem set_n : (s.set rd a).n = s.n := rfl
@[simp] theorem set_z : (s.set rd a).z = s.z := rfl
@[simp] theorem set_c : (s.set rd a).c = s.c := rfl
@[simp] theorem set_v : (s.set rd a).v = s.v := rfl
@[simp] theorem set_mem : (s.set rd a).mem = s.mem := rfl
@[simp] theorem logical_r : (s.logical a carry).r = s.r := rfl
@[simp] theorem logical_n : (s.logical a carry).n = a.msb := rfl
@[simp] theorem logical_z : (s.logical a carry).z = (a == 0) := rfl
@[simp] theorem logical_c : (s.logical a carry).c = carry := rfl
@[simp] theorem logical_mem : (s.logical a carry).mem = s.mem := rfl
@[simp] theorem sum_r : (s.sum a b carry).r = s.r := rfl
@[simp] theorem sum_c : (s.sum a b carry).c = decide (2 ^ 32 ≤ a.toNat + b.toNat + carry.toNat) := rfl
@[simp] theorem sum_z : (s.sum a b carry).z = (BitVec.ofNat 32 (a.toNat + b.toNat + carry.toNat) == 0) := rfl
@[simp] theorem sum_mem : (s.sum a b carry).mem = s.mem := rfl
@[simp] theorem difference_r : (s.difference a b).r = s.r := rfl
@[simp] theorem difference_n : (s.difference a b).n = (a - b).msb := rfl
@[simp] theorem difference_z : (s.difference a b).z = (a == b) := rfl
@[simp] theorem difference_c : (s.difference a b).c = decide (b ≤ a) := rfl
@[simp] theorem difference_mem : (s.difference a b).mem = s.mem := rfl

end Updates

/-- The flags of an instruction that may leave them alone. -/
def Core.flags (s : Core) (setsFlags : Bool) (changed : Core) : Core := if setsFlags then changed else s

def Op.exec (setsFlags : Bool) : Op → Core → Core
  | and rd rn o, s =>
    (s.flags setsFlags (s.logical (s.r rn &&& o.value s) (o.carry s))).set rd (s.r rn &&& o.value s)
  | eor rd rn o, s =>
    (s.flags setsFlags (s.logical (s.r rn ^^^ o.value s) (o.carry s))).set rd (s.r rn ^^^ o.value s)
  | orr rd rn o, s =>
    (s.flags setsFlags (s.logical (s.r rn ||| o.value s) (o.carry s))).set rd (s.r rn ||| o.value s)
  | bic rd rn o, s =>
    (s.flags setsFlags (s.logical (s.r rn &&& ~~~o.value s) (o.carry s))).set rd (s.r rn &&& ~~~o.value s)
  | mov rd o, s => (s.flags setsFlags (s.logical (o.value s) (o.carry s))).set rd (o.value s)
  | add rd rn o, s => (s.flags setsFlags (s.sum (s.r rn) (o.value s) false)).set rd (s.r rn + o.value s)
  | adc rd rn o, s =>
    (s.flags setsFlags (s.sum (s.r rn) (o.value s) s.c)).set rd
      (s.r rn + o.value s + (BitVec.ofBool s.c).setWidth 32)
  | sub rd rn o, s => (s.flags setsFlags (s.difference (s.r rn) (o.value s))).set rd (s.r rn - o.value s)
  | rsb rd rn o, s => (s.flags setsFlags (s.difference (o.value s) (s.r rn))).set rd (o.value s - s.r rn)
  | mul rd rm rs, s => s.set rd (s.r rm * s.r rs)
  | tst rn o, s => s.logical (s.r rn &&& o.value s) (o.carry s)
  | teq rn o, s => s.logical (s.r rn ^^^ o.value s) (o.carry s)
  | cmp rn o, s => s.difference (s.r rn) (o.value s)
  | cmn rn o, s => s.sum (s.r rn) (o.value s) false

@[simp] theorem holds_al (s : Core) : Cond.al.holds s = true := rfl

@[simp] theorem holds_set (s : Core) (rd : Reg) (a : Word) (cond : Cond) :
    cond.holds (s.set rd a) = cond.holds s := by
  cases cond <;> rfl

theorem msb_difference (a b : Word) : ((a - b).msb != a.ssubOverflow b) = a.slt b := by
  have low : -2 ^ 31 ≤ a.toInt := BitVec.le_toInt a
  have high : a.toInt < 2 ^ 31 := BitVec.toInt_lt
  have low' : -2 ^ 31 ≤ b.toInt := BitVec.le_toInt b
  have high' : b.toInt < 2 ^ 31 := BitVec.toInt_lt
  have wrap : (a - b).toInt = (a.toInt - b.toInt).bmod (2 ^ 32) := BitVec.toInt_sub
  have flag : a.ssubOverflow b = decide (a.toInt - b.toInt ≥ 2 ^ 31 ∨ a.toInt - b.toInt < -2 ^ 31) := by
    rw [BitVec.ssubOverflow, Bool.decide_or]
  rw [Int.bmod_def] at wrap
  rw [flag, BitVec.msb_eq_toInt, BitVec.slt_eq_decide, Bool.eq_iff_iff, bne_iff_ne, ne_eq, decide_eq_decide,
    decide_eq_true_iff]
  omega

/-- The signed conditions after a comparison. -/
theorem lt_difference (s : Core) (a b : Word) : Cond.lt.holds (s.difference a b) = a.slt b :=
  msb_difference a b

theorem ge_difference (s : Core) (a b : Word) : Cond.ge.holds (s.difference a b) = !a.slt b := by
  rw [← msb_difference, bne, Bool.not_not]
  rfl

section Exec

variable (s t : Core) (b : Bool) (rd rn rm : Reg) (o : Operand) (w : Word) (k : Nat)

@[simp] theorem flags_true : s.flags true t = t := rfl
@[simp] theorem flags_false : s.flags false t = s := rfl
@[simp] theorem value_imm : (Operand.imm w).value s = w := rfl
@[simp] theorem value_ofNat : (no_index (OfNat.ofNat k) : Operand).value s = BitVec.ofNat 32 k := rfl
@[simp] theorem value_reg : (Operand.reg rn).value s = s.r rn := rfl
@[simp] theorem value_lsl : (Operand.lsl rn k).value s = s.r rn <<< k := rfl
@[simp] theorem value_lsr : (Operand.lsr rn k).value s = s.r rn >>> k := rfl
@[simp] theorem value_asr : (Operand.asr rn k).value s = (s.r rn).sshiftRight k := rfl
@[simp] theorem value_lslBy : (Operand.lslBy rn rm).value s = s.r rn <<< s.amount rm := rfl
@[simp] theorem value_lsrBy : (Operand.lsrBy rn rm).value s = s.r rn >>> s.amount rm := rfl
@[simp] theorem exec_and : (Op.and rd rn o).exec b s =
    (s.flags b (s.logical (s.r rn &&& o.value s) (o.carry s))).set rd (s.r rn &&& o.value s) := rfl
@[simp] theorem exec_eor : (Op.eor rd rn o).exec b s =
    (s.flags b (s.logical (s.r rn ^^^ o.value s) (o.carry s))).set rd (s.r rn ^^^ o.value s) := rfl
@[simp] theorem exec_orr : (Op.orr rd rn o).exec b s =
    (s.flags b (s.logical (s.r rn ||| o.value s) (o.carry s))).set rd (s.r rn ||| o.value s) := rfl
@[simp] theorem exec_bic : (Op.bic rd rn o).exec b s =
    (s.flags b (s.logical (s.r rn &&& ~~~o.value s) (o.carry s))).set rd (s.r rn &&& ~~~o.value s) := rfl
@[simp] theorem exec_mov : (Op.mov rd o).exec b s =
    (s.flags b (s.logical (o.value s) (o.carry s))).set rd (o.value s) := rfl
@[simp] theorem exec_add : (Op.add rd rn o).exec b s =
    (s.flags b (s.sum (s.r rn) (o.value s) false)).set rd (s.r rn + o.value s) := rfl
@[simp] theorem exec_adc : (Op.adc rd rn o).exec b s =
    (s.flags b (s.sum (s.r rn) (o.value s) s.c)).set rd
      (s.r rn + o.value s + (BitVec.ofBool s.c).setWidth 32) := rfl
@[simp] theorem exec_sub : (Op.sub rd rn o).exec b s =
    (s.flags b (s.difference (s.r rn) (o.value s))).set rd (s.r rn - o.value s) := rfl
@[simp] theorem exec_rsb : (Op.rsb rd rn o).exec b s =
    (s.flags b (s.difference (o.value s) (s.r rn))).set rd (o.value s - s.r rn) := rfl
@[simp] theorem exec_mul : (Op.mul rd rn rm).exec b s = s.set rd (s.r rn * s.r rm) := rfl
@[simp] theorem exec_tst : (Op.tst rn o).exec b s = s.logical (s.r rn &&& o.value s) (o.carry s) := rfl
@[simp] theorem exec_teq : (Op.teq rn o).exec b s = s.logical (s.r rn ^^^ o.value s) (o.carry s) := rfl
@[simp] theorem exec_cmp : (Op.cmp rn o).exec b s = s.difference (s.r rn) (o.value s) := rfl
@[simp] theorem exec_cmn : (Op.cmn rn o).exec b s = s.sum (s.r rn) (o.value s) false := rfl

end Exec

/-- The register an operation writes to. -/
def Op.dest : Op → Option Reg
  | and rd _ _ | eor rd _ _ | orr rd _ _ | bic rd _ _ | mov rd _ => rd
  | add rd _ _ | adc rd _ _ | sub rd _ _ | rsb rd _ _ | mul rd _ _ => rd
  | tst _ _ | teq _ _ | cmp _ _ | cmn _ _ => none

theorem exec_r (o : Op) (b : Bool) (s : Core) {y : Reg} (apart : o.dest ≠ some y) : (o.exec b s).r y = s.r y := by
  cases o <;> cases b <;> simp_all [Op.dest, Op.exec, eq_comm]

theorem exec_mem (o : Op) (b : Bool) (s : Core) : (o.exec b s).mem = s.mem := by
  cases o <;> cases b <;> simp

/-- An operation with a condition, a branch by a number of instructions, `mov pc, lr`,
`str rd, [sp, #-4]!` and `ldr pc, [sp], #4`. -/
inductive Instr where
  | op (cond : Cond) (setsFlags : Bool) (op : Op)
  | b (cond : Cond) (distance : Int)
  | ret (cond : Cond)
  | push (rd : Reg)
  | popPc
  deriving DecidableEq

inductive Target where
  | back (label : Nat)
  | ahead (label : Nat)
  deriving DecidableEq

/-- A line of a listing. The branches are to the nearest label of that number. -/
inductive Line where
  | label (k : Nat)
  | instr (i : Instr)
  | branch (cond : Cond) (target : Target)

instance : Coe Op Line := ⟨fun o => .instr (.op .al false o)⟩

def Op.s (o : Op) : Line := .instr (.op .al true o)
def Op.when (o : Op) (cond : Cond) : Line := .instr (.op cond false o)
def Op.sWhen (o : Op) (cond : Cond) : Line := .instr (.op cond true o)

/-- How many instructions ahead a label is. -/
def distanceTo (label : Nat) : List Line → Nat
  | [] => 0
  | .label k :: rest => if k = label then 0 else distanceTo label rest
  | _ :: rest => distanceTo label rest + 1

/-- The lines before are given last first. -/
def resolve (before after : List Line) : Line → List Instr
  | .label _ => []
  | .instr i => [i]
  | .branch cond (.ahead k) => [.b cond (distanceTo k after + 1)]
  | .branch cond (.back k) => [.b cond (-distanceTo k before)]

def assembleAfter (before : List Line) : List Line → List Instr
  | [] => []
  | line :: rest => resolve before rest line ++ assembleAfter (line :: before) rest

def assemble (lines : List Line) : List Instr := assembleAfter [] lines

/-! Execution -/

inductive Pc where
  | at (i : Nat)
  | left (a : Word)

structure State where
  core : Core
  pc : Pc

def Instr.exec (i : Nat) (s : Core) : Instr → State
  | op cond setsFlags o => ⟨if cond.holds s then o.exec setsFlags s else s, .at (i + 1)⟩
  | b cond distance => ⟨s, .at (if cond.holds s then (i + distance).toNat else i + 1)⟩
  | ret cond => ⟨s, if cond.holds s then .left (s.r .lr) else .at (i + 1)⟩
  | push rd => ⟨{ s.set .sp (s.r .sp - 4) with mem := setWord s.mem (s.r .sp - 4) (s.r rd) }, .at (i + 1)⟩
  | popPc => ⟨s.set .sp (s.r .sp + 4), .left (word s.mem (s.r .sp))⟩

def WordAligned (a : Word) : Prop := a.toNat % 4 = 0

instance (a : Word) : Decidable (WordAligned a) := inferInstanceAs (Decidable (_ = _))

theorem WordAligned.pushed {a : Word} (aligned : WordAligned a) : WordAligned (a - 4) := by
  unfold WordAligned at *
  rw [BitVec.toNat_sub]
  have four : (4 : Word).toNat = 4 := rfl
  omega

def Instr.onStack : Instr → Bool
  | push _ | popPc => true
  | _ => false

/-- What a word access off the word boundary does depends on settings of the core, so there is
no step for it here. -/
def step (code : List Instr) (s : State) : Option State :=
  match s.pc with
  | .at i => code[i]?.bind fun instr =>
    if instr.onStack = true ∧ ¬ WordAligned (s.core.r .sp) then none else some (instr.exec i s.core)
  | .left _ => none

/-! Rules -/

/-- The run from s gets to a state as asked for. -/
def Ends (code : List Instr) (s : State) (Q : State → Prop) : Prop :=
  ∃ t, Reaches (step code) s t ∧ Q t

/-- The body is the code from p on. -/
def Placed (code body : List Instr) (p : Nat) : Prop := body <+: code.drop p

instance (code body : List Instr) (p : Nat) : Decidable (Placed code body p) :=
  inferInstanceAs (Decidable (_ <+: _))

namespace Placed

variable {code body front back : List Instr} {p : Nat}

theorem get (placed : Placed code body p) {k : Nat} {i : Instr} (here : body[k]? = some i) :
    code[p + k]? = some i := by
  obtain ⟨rest, split⟩ := placed
  rw [← List.getElem?_drop, ← split, List.getElem?_append_left (List.getElem?_eq_some_iff.mp here).1]
  exact here

theorem part (placed : Placed code body p) {k : Nat} (inside : Placed body front k) : Placed code front (p + k) := by
  rw [Placed, ← List.drop_drop]
  exact List.IsPrefix.trans inside (List.IsPrefix.drop placed k)

theorem append_left (placed : Placed code (front ++ back) p) : Placed code front p :=
  (List.prefix_append front back).trans placed

theorem append_right (placed : Placed code (front ++ back) p) : Placed code back (p + front.length) := by
  obtain ⟨rest, split⟩ := placed
  refine ⟨rest, ?_⟩
  rw [← List.drop_drop, ← split, List.append_assoc, List.drop_left]

end Placed

/-- What a list of instructions does that has no branch in it. -/
def run (block : List (Cond × Bool × Op)) (s : Core) : Core :=
  block.foldl (fun s i => if i.1.holds s then i.2.2.exec i.2.1 s else s) s

@[simp] theorem run_nil (s : Core) : run [] s = s := rfl

theorem run_cons (i : Cond × Bool × Op) (block : List (Cond × Bool × Op)) (s : Core) :
    run (i :: block) s = run block (if i.1.holds s then i.2.2.exec i.2.1 s else s) := rfl

theorem run_append (front back : List (Cond × Bool × Op)) (s : Core) :
    run (front ++ back) s = run back (run front s) := List.foldl_append

/-- The registers that no operation of a block writes to are kept. -/
theorem run_others {block : List (Cond × Bool × Op)} {changed : List Reg}
    (only : ∀ i ∈ block, ∀ y ∈ i.2.2.dest, y ∈ changed) (s : Core) {y : Reg} (apart : y ∉ changed) :
    (run block s).r y = s.r y := by
  induction block generalizing s with
  | nil => rfl
  | cons i rest ih =>
    rw [run_cons, ih fun i h => only i (List.mem_cons_of_mem _ h)]
    split_ifs
    · exact exec_r _ _ _ fun writes => apart (only i List.mem_cons_self y writes)
    · rfl

theorem run_mem (block : List (Cond × Bool × Op)) (s : Core) : (run block s).mem = s.mem := by
  induction block generalizing s with
  | nil => rfl
  | cons i rest ih =>
    rw [run_cons, ih]
    split_ifs
    · exact exec_mem _ _ _
    · rfl

def ops (block : List (Cond × Bool × Op)) : List Instr := block.map fun i => .op i.1 i.2.1 i.2.2

namespace Ends

variable {code : List Instr} {s : State} {c : Core} {p : Nat} {P Q : State → Prop}

theorem now (holds : Q s) : Ends code s Q := ⟨s, .refl, holds⟩

theorem bind (first : Ends code s P) (later : ∀ t, P t → Ends code t Q) : Ends code s Q := by
  obtain ⟨t, reached, holds⟩ := first
  obtain ⟨u, reached', holds'⟩ := later t holds
  exact ⟨u, reached.trans reached', holds'⟩

theorem mono (first : Ends code s P) (weaker : ∀ t, P t → Q t) : Ends code s Q :=
  first.bind fun t holds => now (weaker t holds)

theorem stacked {i : Instr} (here : code[p]? = some i) (stack : i.onStack = true → WordAligned (c.r .sp))
    (later : Ends code (i.exec p c) Q) : Ends code ⟨c, .at p⟩ Q := by
  obtain ⟨t, reached, holds⟩ := later
  refine ⟨t, .head ?_ reached, holds⟩
  have taken : ¬ (i.onStack = true ∧ ¬ WordAligned (c.r .sp)) := fun off => off.2 (stack off.1)
  simp only [Option.mem_def, step, here, Option.bind_some, if_neg taken]

theorem instr {i : Instr} (here : code[p]? = some i) (apart : i.onStack = false)
    (later : Ends code (i.exec p c) Q) : Ends code ⟨c, .at p⟩ Q :=
  stacked here (fun stack => absurd (stack.symm.trans apart) (by decide)) later

variable {cond : Cond} {distance : Int}

theorem taken (here : code[p]? = some (.b cond distance)) (holds : cond.holds c = true)
    (later : Ends code ⟨c, .at (p + distance).toNat⟩ Q) : Ends code ⟨c, .at p⟩ Q :=
  instr here rfl (by simpa only [Instr.exec, if_pos holds] using later)

theorem takenTo {q : Nat} (here : code[p]? = some (.b cond distance)) (holds : cond.holds c = true)
    (target : (p + distance).toNat = q) (later : Ends code ⟨c, .at q⟩ Q) : Ends code ⟨c, .at p⟩ Q :=
  taken here holds (target ▸ later)

theorem passed (here : code[p]? = some (.b cond distance)) (fails : cond.holds c = false)
    (later : Ends code ⟨c, .at (p + 1)⟩ Q) : Ends code ⟨c, .at p⟩ Q :=
  instr here rfl (by simpa only [Instr.exec, fails, Bool.false_eq_true, if_false] using later)

theorem returned (here : code[p]? = some (.ret cond)) (holds : cond.holds c = true)
    (result : Q ⟨c, .left (c.r .lr)⟩) : Ends code ⟨c, .at p⟩ Q :=
  instr here rfl (by simpa only [Instr.exec, if_pos holds] using now result)

theorem stayed (here : code[p]? = some (.ret cond)) (fails : cond.holds c = false)
    (later : Ends code ⟨c, .at (p + 1)⟩ Q) : Ends code ⟨c, .at p⟩ Q :=
  instr here rfl (by simpa only [Instr.exec, fails, Bool.false_eq_true, if_false] using later)

theorem block {block : List (Cond × Bool × Op)} (placed : Placed code (ops block) p)
    (later : Ends code ⟨run block c, .at (p + block.length)⟩ Q) : Ends code ⟨c, .at p⟩ Q := by
  induction block generalizing c p with
  | nil => exact later
  | cons i rest ih =>
    have first : Placed code ([.op i.1 i.2.1 i.2.2] ++ ops rest) p := placed
    have here : code[p]? = some (.op i.1 i.2.1 i.2.2) := first.append_left.get (k := 0) rfl
    rw [List.length_cons, Nat.add_comm _ 1, ← Nat.add_assoc] at later
    exact instr here rfl (ih first.append_right later)

/-- A loop that gets smaller with each round is left. -/
theorem loop (Inv : Core → Prop) (size : Core → Nat)
    (round : ∀ c, Inv c → Ends code ⟨c, .at p⟩ fun t =>
      (t.pc = .at p ∧ Inv t.core ∧ size t.core < size c) ∨ Q t)
    (start : Inv c) : Ends code ⟨c, .at p⟩ Q := by
  induction bound : size c using Nat.strong_induction_on generalizing c with
  | h n ih =>
    refine (round c start).bind fun t cases => ?_
    obtain ⟨again, inv, less⟩ | done := cases
    · obtain ⟨core, pc⟩ := t
      cases again
      exact ih _ (bound ▸ less) inv rfl
    · exact now done

/-- What is so of the run that leaves the code is so of every one. -/
theorem left {t : Core} {a : Word} (ends : Ends code s Q) (leaves : ∀ u, Q u → ∃ a, u.pc = .left a)
    (reached : Reaches (step code) s ⟨t, .left a⟩) : Q ⟨t, .left a⟩ := by
  obtain ⟨u, reached', holds⟩ := ends
  obtain ⟨b, pc⟩ := leaves u holds
  have stops : step code u = none := by rw [step, pc]
  exact Part.mem_unique (mem_eval.mpr ⟨reached', stops⟩) (mem_eval.mpr ⟨reached, rfl⟩) ▸ holds

end Ends

end Alu
