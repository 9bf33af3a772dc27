import Tiny6410.Lib.Field
import Tiny6410.Lib.Memory
import Tiny6410.Sdram.Timing

/-! Register fields in no-os/timer: the macros of common.h that set bits of a register,
and sdram_init, which sets up the DRAM controller with them. -/
namespace Tiny6410.Sdram

open Field (Write put mask)
open Memory (Word getLsbD_clear getLsbD_one)

def VI_SET_BIT_ZERO (bit : Nat) (reg : Word) : Word := reg &&& ~~~((1 : Word) <<< bit)

def VI_SET_BIT_ONE (bit : Nat) (reg : Word) : Word := reg ||| (1 : Word) <<< bit

/-- The register is stored to twice, first with the bit clear. -/
def VI_SET_BIT (bit val : Nat) (reg : Word) : Word :=
  let reg := VI_SET_BIT_ZERO bit reg
  reg ||| BitVec.ofNat 32 val <<< bit

/-- Here too. -/
def VI_SET_2BIT (bit val : Nat) (reg : Word) : Word :=
  let reg := reg &&& ~~~((3 : Word) <<< bit)
  reg ||| BitVec.ofNat 32 val <<< bit

def VI_SET_NBIT (bit len val : Nat) (reg : Word) : Word :=
  (reg &&& ~~~(((1 : Word) <<< len - 1) <<< bit)) ||| BitVec.ofNat 32 val <<< bit

inductive Op where
  | setBit (bit val : Nat)
  | setBitZero (bit : Nat)
  | setBitOne (bit : Nat)
  | set2Bit (bit val : Nat)
  | setNBit (bit len val : Nat)
  deriving DecidableEq

namespace Op

def run : Op → Word → Word
  | setBit bit val => VI_SET_BIT bit val
  | setBitZero bit => VI_SET_BIT_ZERO bit
  | setBitOne bit => VI_SET_BIT_ONE bit
  | set2Bit bit val => VI_SET_2BIT bit val
  | setNBit bit len val => VI_SET_NBIT bit len val

def bit : Op → Nat
  | setBit bit _ | setBitZero bit | setBitOne bit | set2Bit bit _ | setNBit bit _ _ => bit

def len : Op → Nat
  | setBit _ _ | setBitZero _ | setBitOne _ => 1
  | set2Bit _ _ => 2
  | setNBit _ len _ => len

def val : Op → Nat
  | setBit _ val | set2Bit _ val | setNBit _ _ val => val
  | setBitZero _ => 0
  | setBitOne _ => 1

def Fits (op : Op) : Prop := op.bit + op.len ≤ 32 ∧ op.len < 32 ∧ op.val < 2 ^ op.len

instance (op : Op) : Decidable op.Fits := inferInstanceAs (Decidable (_ ∧ _ ∧ _))

def Covers (op : Op) (j : Nat) : Prop := op.bit ≤ j ∧ j < op.bit + op.len

def Apart (a b : Op) : Prop := a.bit + a.len ≤ b.bit ∨ b.bit + b.len ≤ a.bit

def write (op : Op) (fits : op.Fits) : Write 32 := ⟨op.bit, op.len, op.val, fits.1, fits.2.2⟩

theorem len_mask {len : Nat} (short : len < 32) (bit : Nat) :
    ((1 : Word) <<< len - 1) <<< bit = mask 32 bit len := by
  have room : 2 ^ len < 2 ^ 32 := Nat.pow_lt_pow_right (by decide) short
  have some : 0 < 2 ^ len := Nat.two_pow_pos len
  have ones : (1 : Word) <<< len - 1 = BitVec.ofNat 32 (2 ^ len - 1) := by
    apply BitVec.eq_of_toNat_eq
    have one : ((1 : Word) <<< len).toNat = 2 ^ len := by
      rw [BitVec.toNat_shiftLeft, Nat.shiftLeft_eq, show (1 : Word).toNat = 1 from rfl, Nat.one_mul,
        Nat.mod_eq_of_lt room]
    rw [BitVec.toNat_sub_of_le (by rw [BitVec.le_def, one]; exact some), one, BitVec.toNat_ofNat,
      Nat.mod_eq_of_lt (by omega)]
    rfl
  rw [ones, mask]

theorem put_one (bit : Nat) (reg : Word) : put bit 1 1 reg = VI_SET_BIT_ONE bit reg := by
  have set : ∀ x y : Word, (x &&& ~~~y) ||| y = x ||| y := by
    intro x y
    ext i within
    rw [BitVec.getElem_or, BitVec.getElem_and, BitVec.getElem_not, BitVec.getElem_or]
    cases y[i] <;> simp
  exact set reg ((1 : Word) <<< bit)

theorem put_len {len : Nat} (short : len < 32) (bit val : Nat) (reg : Word) :
    put bit len val reg = VI_SET_NBIT bit len val reg := by
  rw [VI_SET_NBIT, len_mask short, put]

/-- All of the macros clear their field and set the value in it. -/
theorem run_eq_write (op : Op) (fits : op.Fits) (reg : Word) : op.run reg = (op.write fits).apply reg := by
  cases op with
  | setBit bit val => rfl
  | setBitZero bit => exact (Field.put_zero bit 1 reg).symm
  | setBitOne bit => exact (put_one bit reg).symm
  | set2Bit bit val => rfl
  | setNBit bit len val => exact (put_len fits.2.1 bit val reg).symm

end Op

/-- An operation whose field lies in the register and holds its value. -/
structure Fitting where
  op : Op
  fits : op.Fits

namespace Fitting

def run (f : Fitting) (reg : Word) : Word := f.op.run reg

def write (f : Fitting) : Write 32 := f.op.write f.fits

theorem run_eq (f : Fitting) (reg : Word) : f.run reg = f.write.apply reg := f.op.run_eq_write f.fits reg

def runAll (ops : List Fitting) (reg : Word) : Word := ops.foldl (fun reg f => f.run reg) reg

theorem runAll_eq (ops : List Fitting) (reg : Word) :
    runAll ops reg = (ops.map write).foldl (fun w f => f.apply w) reg := by
  rw [runAll, List.foldl_map]
  exact congrArg (fun step => ops.foldl step reg) (funext fun reg => funext fun f => f.run_eq reg)

theorem runAll_last (before after : List Fitting) (f : Fitting) (reg : Word) {j : Nat}
    (covered : f.op.Covers j) (last : ∀ g ∈ after, ¬ g.op.Covers j) :
    (runAll (before ++ f :: after) reg).getLsbD j = f.op.val.testBit (j - f.op.bit) := by
  rw [runAll_eq, List.map_append, List.map_cons]
  exact Write.run_last _ _ f.write reg covered (List.forall_mem_map.mpr last)

theorem runAll_keeps (ops : List Fitting) (reg : Word) {j : Nat} (outside : ∀ f ∈ ops, ¬ f.op.Covers j) :
    (runAll ops reg).getLsbD j = reg.getLsbD j := by
  rw [runAll_eq]
  exact Write.run_keeps _ reg (List.forall_mem_map.mpr outside)

theorem run_comm {f g : Fitting} (apart : f.op.Apart g.op) (reg : Word) :
    g.run (f.run reg) = f.run (g.run reg) := by
  have separate : f.write.Apart g.write := apart
  rw [run_eq, run_eq, run_eq, run_eq]
  exact Write.apply_comm separate reg

end Fitting

/-! sdram_init -/

def P1MEMCCMD : Word := 0x7e001004
def P1DIRECTCMD : Word := 0x7e001008
def P1MEMCFG : Word := 0x7e00100c
def P1REFRESH : Word := 0x7e001010
def P1CASLAT : Word := 0x7e001014
def P1T_DQSS : Word := 0x7e001018
def P1T_MRD : Word := 0x7e00101c
def P1T_RAS : Word := 0x7e001020
def P1T_RC : Word := 0x7e001024
def P1T_RCD : Word := 0x7e001028
def P1T_RFC : Word := 0x7e00102c
def P1T_RP : Word := 0x7e001030
def P1T_RRD : Word := 0x7e001034
def P1T_WR : Word := 0x7e001038
def P1T_WTR : Word := 0x7e00103c
def P1T_XP : Word := 0x7e001040
def P1T_XSR : Word := 0x7e001044
def P1T_ESR : Word := 0x7e001048
def P1MEMCFG2 : Word := 0x7e00104c
def P1_chip_0_cfg : Word := 0x7e001200
def MEM_SYS_CFG : Word := 0x7e00f120

abbrev Registers := Word → Word

def VI_SET_VAL (r : Registers) (access : Word × Word) : Registers := Function.update r access.1 access.2

def setField (r : Registers) (access : Word × Fitting) : Registers :=
  Function.update r access.1 (access.2.run (r access.1))

def clocks (nanosecond : Int) : Word := BitVec.ofInt 32 (NS_TO_CLOCKPERIOD nanosecond)

def timing : List (Word × Word) :=
  let trcd := clocks 15
  let trfc := clocks 120
  let trp := clocks 15
  [(P1MEMCCMD, 0x4), (P1REFRESH, clocks 7800), (P1CASLAT, 3 <<< 1), (P1T_DQSS, 0x1), (P1T_MRD, 0x2),
    (P1T_RAS, clocks 40), (P1T_RC, clocks 55), (P1T_RCD, trcd ||| (trcd - 3) <<< 3),
    (P1T_RFC, trfc ||| (trfc - 3) <<< 5), (P1T_RP, trp ||| (trp - 3) <<< 3), (P1T_RRD, clocks 10),
    (P1T_WR, clocks 12), (P1T_WTR, 0x1), (P1T_XP, 0x1), (P1T_XSR, clocks 120), (P1T_ESR, clocks 120)]

def fields : List (Word × Fitting) :=
  [(P1MEMCFG, ⟨.setNBit 0 3 0x2, by decide⟩), (P1MEMCFG, ⟨.setNBit 3 3 0x3, by decide⟩),
    (P1MEMCFG, ⟨.setBitZero 6, by decide⟩), (P1MEMCFG, ⟨.setNBit 15 3 0x2, by decide⟩),
    (P1MEMCFG2, ⟨.setNBit 0 4 0x5, by decide⟩), (P1MEMCFG2, ⟨.set2Bit 6 0x1, by decide⟩),
    (P1MEMCFG2, ⟨.setNBit 8 3 0x3, by decide⟩), (P1MEMCFG2, ⟨.set2Bit 11 0x1, by decide⟩),
    (P1_chip_0_cfg, ⟨.setBitOne 16, by decide⟩)]

def commands : List (Word × Word) :=
  [(P1DIRECTCMD, 0xc0000), (P1DIRECTCMD, 0x00000), (P1DIRECTCMD, 0x40000), (P1DIRECTCMD, 0x40000),
    (P1DIRECTCMD, 0xa0000), (P1DIRECTCMD, 0x80032), (MEM_SYS_CFG, 0x0), (P1MEMCCMD, 0x000)]

/-- sdram_init with its field writes in some order, up to the wait for the controller. -/
def initInOrder (order : List (Word × Fitting)) (r : Registers) : Registers :=
  commands.foldl VI_SET_VAL (order.foldl setField (timing.foldl VI_SET_VAL r))

def sdram_init (r : Registers) : Registers := initInOrder fields r

theorem setField_eq (order : List (Word × Fitting)) (r : Registers) :
    order.foldl setField r = (order.map (Prod.map id Fitting.write)).foldl Field.store r := by
  rw [List.foldl_map]
  refine congrArg (fun step => order.foldl step r) (funext fun r => funext fun access => ?_)
  rw [setField, access.2.run_eq]
  rfl

/-- The fields of one register. -/
def fieldsOf (a : Word) : List Fitting := (fields.filter (·.1 = a)).map Prod.snd

theorem values_kept {accesses : List (Word × Word)} {a : Word} (other : a ∉ accesses.map Prod.fst)
    (r : Registers) : accesses.foldl VI_SET_VAL r a = r a := by
  induction accesses generalizing r with
  | nil => rfl
  | cons access accesses ih =>
    rw [List.map_cons, List.mem_cons, not_or] at other
    obtain ⟨here, others⟩ := other
    rw [List.foldl_cons, ih others, VI_SET_VAL, Function.update_of_ne here]

theorem setField_at (order : List (Word × Fitting)) (r : Registers) (a : Word) :
    order.foldl setField r a = Fitting.runAll ((order.filter (·.1 = a)).map Prod.snd) (r a) := by
  induction order generalizing r with
  | nil => rfl
  | cons access order ih =>
    rw [List.foldl_cons, ih, setField]
    by_cases here : access.1 = a
    · rw [List.filter_cons_of_pos (by simpa using here), List.map_cons, Fitting.runAll, Fitting.runAll, List.foldl_cons,
        ← here, Function.update_self]
    · rw [List.filter_cons_of_neg (by simpa using here), Function.update_of_ne (Ne.symm here)]

/-- The other stores do not touch a register that has fields. -/
theorem sdram_init_at {a : Word} (early : a ∉ timing.map Prod.fst) (late : a ∉ commands.map Prod.fst)
    (r : Registers) : sdram_init r a = Fitting.runAll (fieldsOf a) (r a) := by
  rw [sdram_init, initInOrder, values_kept late, setField_at, values_kept early]
  rfl

theorem fields_separate : (fields.map (Prod.map id Fitting.write)).Pairwise Field.Separate := by
  decide

theorem initInOrder_perm {order : List (Word × Fitting)} (perm : order.Perm fields) (r : Registers) :
    initInOrder order r = sdram_init r := by
  unfold sdram_init initInOrder
  rw [setField_eq, setField_eq, Field.run_perm fields_separate (perm.map _)]

/-- Each bit of a register holds what the last operation that covers it gives it, or what
it held before. Fields that share no bit may be written in any order, in sdram_init too, which
does to its two configuration registers just what the operations on their fields do. -/
theorem last_write_decides (reg : Word) :
    (∀ (before after : List Fitting) (f : Fitting) (j : Nat), f.op.Covers j →
      (∀ g ∈ after, ¬ g.op.Covers j) →
      (Fitting.runAll (before ++ f :: after) reg).getLsbD j = f.op.val.testBit (j - f.op.bit)) ∧
    (∀ (ops : List Fitting) (j : Nat), (∀ f ∈ ops, ¬ f.op.Covers j) →
      (Fitting.runAll ops reg).getLsbD j = reg.getLsbD j) ∧
    (∀ f g : Fitting, f.op.Apart g.op → g.run (f.run reg) = f.run (g.run reg)) ∧
    ∀ (order : List (Word × Fitting)) (r : Registers), order.Perm fields →
      (initInOrder order r P1MEMCFG = sdram_init r P1MEMCFG ∧
        initInOrder order r P1MEMCFG2 = sdram_init r P1MEMCFG2) ∧
      sdram_init r P1MEMCFG = Fitting.runAll (fieldsOf P1MEMCFG) (r P1MEMCFG) ∧
      sdram_init r P1MEMCFG2 = Fitting.runAll (fieldsOf P1MEMCFG2) (r P1MEMCFG2) := by
  refine ⟨?_, ?_, ?_, ?_⟩
  · intro before after f j covered last
    exact Fitting.runAll_last before after f reg covered last
  · intro ops j outside
    exact Fitting.runAll_keeps ops reg outside
  · intro f g apart
    exact Fitting.run_comm apart reg
  · intro order r perm
    rw [initInOrder_perm perm]
    have early : P1MEMCFG ∉ timing.map Prod.fst ∧ P1MEMCFG2 ∉ timing.map Prod.fst := by decide
    exact ⟨⟨rfl, rfl⟩, sdram_init_at early.1 (by decide) r, sdram_init_at early.2 (by decide) r⟩

end Tiny6410.Sdram
