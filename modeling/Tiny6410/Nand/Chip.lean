import Tiny6410.Lib.Memory

/-! The K9K8G08U0E as the readme documents it: a page is 2048 + 64 bytes, a row
address selects one of 2^19 pages, and every operation is a sequence of command,
address and data cycles. What the part itself decides is a parameter: how long it
stays busy, the status byte of a program, what a failed program leaves behind. -/
namespace Tiny6410.Nand

open Memory

def NAND_PAGE_SIZE : Nat := 2048
def pageColumns : Nat := 2048 + 64
def pageRows : Nat := 2 ^ 19

/-- The choices of the part: the polls of R/nB that still read busy after the k-th array
operation, the status byte after the k-th program (bit 0 set reports a failure), the
columns that a failed k-th program leaves in its page, the bytes of the read ID
operation, and what is sampled when the part does not drive the bus. -/
structure Part where
  latency : Nat → Nat
  status : Nat → Byte
  residue : Nat → Nat → Byte
  ident : Nat → Byte
  undriven : Byte

def Part.failed (p : Part) (k : Nat) : Bool := (p.status k).getLsbD 0

/-- Where the part stands in a command sequence. A cycle that the command set
does not allow there abandons the sequence. -/
inductive Phase where
  | idle
  | read (cycles : List Byte)
  | output (row column : Nat)
  | program (cycles data : List Byte)
  | status
  | readID
  | ident (next : Nat)
  deriving DecidableEq

/-- The array by row and column, and how many polls away R/nB is from high. -/
structure Chip where
  cells : Nat → Nat → Byte
  phase : Phase
  busy : Nat
  operations : Nat
  programs : Nat

def columnOf (cycles : List Byte) : Nat :=
  (cycles.getD 0 0).toNat + 256 * (cycles.getD 1 0).toNat

def rowOf (cycles : List Byte) : Nat :=
  ((cycles.getD 2 0).toNat + 256 * (cycles.getD 3 0).toNat + 65536 * (cycles.getD 4 0).toNat) % pageRows

/-- The page register at 10h: the columns that were not loaded stay at FFh. -/
def registerAt (column : Nat) (data : List Byte) (c : Nat) : Byte :=
  if column ≤ c then data.getD (c - column) 0xff else 0xff

/-- A program can only clear bits, so the array keeps the conjunction. -/
def programmed (cells : Nat → Nat → Byte) (row column : Nat) (data : List Byte) : Nat → Nat → Byte :=
  fun r c => if r = row ∧ c < pageColumns then cells r c &&& registerAt column data c else cells r c

def damaged (cells : Nat → Nat → Byte) (row : Nat) (left : Nat → Byte) : Nat → Nat → Byte :=
  fun r c => if r = row ∧ c < pageColumns then left c else cells r c

def Chip.begin (p : Part) (c : Chip) (phase : Phase) : Chip :=
  { c with phase := phase, busy := p.latency c.operations, operations := c.operations + 1 }

def Chip.commit (p : Part) (c : Chip) (cycles data : List Byte) : Chip :=
  let cells := if p.failed c.programs then damaged c.cells (rowOf cycles) (p.residue c.programs)
    else programmed c.cells (rowOf cycles) (columnOf cycles) data
  Chip.begin p { c with cells := cells, programs := c.programs + 1 } .idle

/-- A command cycle. Busy, the part takes only reset and read status. -/
def Chip.command (p : Part) (c : Chip) (b : Byte) : Chip :=
  if b = 0xff then c.begin p .idle
  else if b = 0x70 then { c with phase := .status }
  else if c.busy ≠ 0 then c
  else if b = 0x00 then { c with phase := .read [] }
  else if b = 0x80 then { c with phase := .program [] [] }
  else if b = 0x90 then { c with phase := .readID }
  else match c.phase with
    | .read cycles =>
      if b = 0x30 ∧ cycles.length = 5 then c.begin p (.output (rowOf cycles) (columnOf cycles))
      else { c with phase := .idle }
    | .program cycles data =>
      if b = 0x10 ∧ cycles.length = 5 then c.commit p cycles data else { c with phase := .idle }
    | _ => { c with phase := .idle }

def Chip.address (c : Chip) (b : Byte) : Chip :=
  if c.busy ≠ 0 then c
  else match c.phase with
    | .read cycles => if cycles.length < 5 then { c with phase := .read (cycles ++ [b]) }
      else { c with phase := .idle }
    | .program cycles [] => if cycles.length < 5 then { c with phase := .program (cycles ++ [b]) [] }
      else { c with phase := .idle }
    | .readID => { c with phase := .ident 0 }
    | _ => { c with phase := .idle }

def Chip.write (c : Chip) (b : Byte) : Chip :=
  if c.busy ≠ 0 then c
  else match c.phase with
    | .program cycles data => if cycles.length = 5 then { c with phase := .program cycles (data ++ [b]) }
      else { c with phase := .idle }
    | _ => { c with phase := .idle }

def Chip.read (p : Part) (c : Chip) : Byte × Chip :=
  match c.phase with
  | .status => (p.status (c.programs - 1), c)
  | .output row column =>
    if c.busy ≠ 0 then (p.undriven, c)
    else (if column < pageColumns then c.cells row column else p.undriven,
      { c with phase := .output row (column + 1) })
  | .ident next => (p.ident next, { c with phase := .ident (next + 1) })
  | _ => (p.undriven, c)

/-- R/nB is sampled; a poll lets one unit of busy time pass. -/
def Chip.poll (c : Chip) : Bool × Chip := (decide (c.busy = 0), { c with busy := c.busy - 1 })

def Chip.mainByte (c : Chip) (a : Nat) : Byte := c.cells (a / NAND_PAGE_SIZE) (a % NAND_PAGE_SIZE)

end Tiny6410.Nand
