import Tiny6410.Lib.Alu

/-! The division routines of no-os/stdio/lib/lib1funcs.S, as they are assembled for
__LINUX_ARM_ARCH__ = 1. -/
namespace Tiny6410.Div

open Alu Alu.Reg Alu.Op
open Memory (Word)

/-- The lines of several parts. -/
def listing (parts : List (List Line)) : List Line := parts.flatten

/-- Shift the divisor left, and the other register with it, while it is below the bound and
below the dividend. -/
def alignLoop (dividend divisor : Reg) (bound : Word) (k : Nat) (also : Op) : List Line :=
  [ .label 1,
    cmp divisor (.imm bound),
    (cmp divisor dividend).when .lo,
    (mov divisor (.lsl divisor k)).when .lo,
    also.when .lo,
    .branch .lo (.back 1) ]

def ARM_DIV_BODY (dividend divisor result curbit : Reg) : List Line :=
  listing [
    [ tst divisor (.imm 0xe0000000),
      (mov divisor (.lsl divisor 3)).when .eq,
      (mov curbit 8).when .eq,
      (mov curbit 1).when .ne ],
    alignLoop dividend divisor 0x10000000 4 (mov curbit (.lsl curbit 4)),
    alignLoop dividend divisor 0x80000000 1 (mov curbit (.lsl curbit 1)),
    [ mov result 0,
      -- Division loop
      .label 1,
      cmp dividend divisor,
      (sub dividend dividend divisor).when .hs,
      (orr result result curbit).when .hs,
      cmp dividend (.lsr divisor 1),
      (sub dividend dividend (.lsr divisor 1)).when .hs,
      (orr result result (.lsr curbit 1)).when .hs,
      cmp dividend (.lsr divisor 2),
      (sub dividend dividend (.lsr divisor 2)).when .hs,
      (orr result result (.lsr curbit 2)).when .hs,
      cmp dividend (.lsr divisor 3),
      (sub dividend dividend (.lsr divisor 3)).when .hs,
      (orr result result (.lsr curbit 3)).when .hs ],
    [ cmp dividend 0,
      (mov curbit (.lsr curbit 4)).sWhen .ne,
      (mov divisor (.lsr divisor 4)).when .ne,
      .branch .ne (.back 1) ] ]

def ARM_DIV2_ORDER (divisor order : Reg) : List Line :=
  [ cmp divisor (.imm 0x10000),
    (mov divisor (.lsr divisor 16)).when .hs,
    (mov order 16).when .hs,
    (mov order 0).when .lo,
    cmp divisor (.imm 0x100),
    (mov divisor (.lsr divisor 8)).when .hs,
    (add order order 8).when .hs,
    cmp divisor (.imm 0x10),
    (mov divisor (.lsr divisor 4)).when .hs,
    (add order order 4).when .hs,
    cmp divisor (.imm 0x4),
    (add order order 3).when .hi,
    (add order order (.lsr divisor 1)).when .ls ]

def ARM_MOD_BODY (dividend divisor order : Reg) : List Line :=
  listing [
    [ mov order 0 ],
    alignLoop dividend divisor 0x10000000 4 (add order order 4),
    alignLoop dividend divisor 0x80000000 1 (add order order 1),
    [ (sub order order 3).s,
      .branch .lt (.ahead 2),
      .label 1,
      cmp dividend divisor,
      (sub dividend dividend divisor).when .hs,
      cmp dividend (.lsr divisor 1),
      (sub dividend dividend (.lsr divisor 1)).when .hs,
      cmp dividend (.lsr divisor 2),
      (sub dividend dividend (.lsr divisor 2)).when .hs,
      cmp dividend (.lsr divisor 3),
      (sub dividend dividend (.lsr divisor 3)).when .hs,
      cmp dividend 1,
      mov divisor (.lsr divisor 4),
      (sub order order 4).sWhen .ge,
      .branch .ge (.back 1),
      tst order 3,
      (teq dividend 0).when .ne,
      .branch .eq (.ahead 5) ],
    -- Either 1, 2 or 3 comparison/substractions are left.
    [ .label 2,
      cmn order 2,
      .branch .lt (.ahead 4),
      .branch .eq (.ahead 3),
      cmp dividend divisor,
      (sub dividend dividend divisor).when .hs,
      mov divisor (.lsr divisor 1),
      .label 3,
      cmp dividend divisor,
      (sub dividend dividend divisor).when .hs,
      mov divisor (.lsr divisor 1),
      .label 4,
      cmp dividend divisor,
      (sub dividend dividend divisor).when .hs,
      .label 5 ] ]

/-- The number that stands for the label Ldiv0. -/
def Ldiv0 : Nat := 100

def ret (cond : Cond) : Line := .instr (.ret cond)

def udivsi3 : List Line :=
  listing [
    [ (sub r2 r1 1).s,
      ret .eq,
      .branch .cc (.ahead Ldiv0),
      cmp r0 r1,
      .branch .ls (.ahead 11),
      tst r1 r2,
      .branch .eq (.ahead 12) ],
    ARM_DIV_BODY r0 r1 r2 r3,
    [ mov r0 r2,
      ret .al,
      .label 11,
      (mov r0 1).when .eq,
      (mov r0 0).when .ne,
      ret .al,
      .label 12 ],
    ARM_DIV2_ORDER r1 r2,
    [ mov r0 (.lsrBy r0 r2),
      ret .al ] ]

def umodsi3 : List Line :=
  listing [
    [ (sub r2 r1 1).s,
      .branch .cc (.ahead Ldiv0),
      (cmp r0 r1).when .ne,
      (mov r0 0).when .eq,
      (tst r1 r2).when .hi,
      (Op.and r0 r0 r2).when .eq,
      ret .ls ],
    ARM_MOD_BODY r0 r1 r2,
    [ ret .al ] ]

def divsi3 : List Line :=
  listing [
    [ cmp r1 0,
      eor ip r0 r1,
      .branch .eq (.ahead Ldiv0),
      (rsb r1 r1 0).when .mi,
      (sub r2 r1 1).s,
      .branch .eq (.ahead 10),
      (mov r3 r0).s,
      (rsb r3 r0 0).when .mi,
      cmp r3 r1,
      .branch .ls (.ahead 11),
      tst r1 r2,
      .branch .eq (.ahead 12) ],
    ARM_DIV_BODY r3 r1 r0 r2,
    [ cmp ip 0,
      (rsb r0 r0 0).when .mi,
      ret .al,
      .label 10,
      teq ip r0,
      (rsb r0 r0 0).when .mi,
      ret .al,
      .label 11,
      (mov r0 0).when .lo,
      (mov r0 (.asr ip 31)).when .eq,
      (orr r0 r0 1).when .eq,
      ret .al,
      .label 12 ],
    ARM_DIV2_ORDER r1 r2,
    [ cmp ip 0,
      mov r0 (.lsrBy r3 r2),
      (rsb r0 r0 0).when .mi,
      ret .al ] ]

def modsi3 : List Line :=
  listing [
    [ cmp r1 0,
      .branch .eq (.ahead Ldiv0),
      (rsb r1 r1 0).when .mi,
      (mov ip r0).s,
      (rsb r0 r0 0).when .mi,
      (sub r2 r1 1).s,
      (cmp r0 r1).when .ne,
      (mov r0 0).when .eq,
      (tst r1 r2).when .hi,
      (Op.and r0 r0 r2).when .eq,
      .branch .ls (.ahead 10) ],
    ARM_MOD_BODY r0 r1 r2,
    [ .label 10,
      cmp ip 0,
      (rsb r0 r0 0).when .mi,
      ret .al ] ]

def div0 : List Line :=
  [ .label Ldiv0,
    .instr (.push lr),
    mov r0 0,
    .instr .popPc ]

/-- The whole file. -/
def lib1funcs : List Instr := assemble (udivsi3 ++ umodsi3 ++ divsi3 ++ modsi3 ++ div0)

/-! Where the routines begin. -/

def udivsi3Entry : Nat := 0
def umodsi3Entry : Nat := (assemble udivsi3).length
def divsi3Entry : Nat := (assemble (udivsi3 ++ umodsi3)).length
def modsi3Entry : Nat := (assemble (udivsi3 ++ umodsi3 ++ divsi3)).length

end Tiny6410.Div
