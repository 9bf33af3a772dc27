import Tiny6410.Lib.Loop
import Tiny6410.Nand.Chip

/-! The NAND driver, nand.c of no-os/nand and workspace/nand. The first copy ends
after nand_write_page; the functions the two share have the same text. An unsigned
long and an int are both 32-bit words here, read as the C operators read them. -/
namespace Tiny6410.Nand

open Memory

inductive Cycle where
  | command (b : Byte)
  | address (b : Byte)
  | write (b : Byte)
  | read (b : Byte)
  | ready
  deriving DecidableEq

structure State where
  nfconf : Word
  nfcont : Word
  chip : Chip
  mem : Bytes
  uart : List String
  cycles : List Cycle

/-- The controller is on (NFCONT[0]) and holds nCE low (NFCONT[1] = 0). -/
def chipSelect (nfcont : Word) : Bool := nfcont.getLsbD 0 && !nfcont.getLsbD 1

def State.selected (s : State) : Bool := chipSelect s.nfcont

/-! The registers. A cycle that the part does not see changes nothing. -/

def setNFCMD (p : Part) (v : Word) (s : State) : State :=
  if s.selected then
    { s with chip := s.chip.command p (v.setWidth 8), cycles := s.cycles ++ [.command (v.setWidth 8)] }
  else s

def setNFADDR (v : Word) (s : State) : State :=
  if s.selected then
    { s with chip := s.chip.address (v.setWidth 8), cycles := s.cycles ++ [.address (v.setWidth 8)] }
  else s

def setNFDATA8 (b : Byte) (s : State) : State :=
  if s.selected then { s with chip := s.chip.write b, cycles := s.cycles ++ [.write b] } else s

def getNFDATA8 (p : Part) (s : State) : Byte × State :=
  if s.selected then
    ((s.chip.read p).1,
      { s with chip := (s.chip.read p).2, cycles := s.cycles ++ [.read (s.chip.read p).1] })
  else (p.undriven, s)

/-- NFSTAT[0] is R/nB. The trace keeps the sample that sees it high. -/
def getNFSTAT (s : State) : Word × State :=
  if s.chip.poll.1 then
    (1, { s with chip := s.chip.poll.2,
                 cycles := if s.selected then s.cycles ++ [.ready] else s.cycles })
  else (0, { s with chip := s.chip.poll.2 })

def NAND_DISABLE_CE (s : State) : State := { s with nfcont := s.nfcont ||| (1 : Word) <<< 1 }
def NAND_ENABLE_CE (s : State) : State := { s with nfcont := s.nfcont &&& ~~~((1 : Word) <<< 1) }

def UART0_SendString (text : String) (s : State) : State := { s with uart := s.uart ++ [text] }

def NAND_PAGE_MASK : Word := BitVec.ofNat 32 (NAND_PAGE_SIZE - 1)

def NFCONF_TWRPH1 : Word := 0x7
def NFCONF_TWRPH0 : Word := 0xf
def NFCONF_TACLS : Word := 0x2
def NFCONF_ECC_TYPE : Word := 0x0
def NFCONF_MSGLENGTH : Word := 0x0
def NFCONF_MLCCLKCTRL : Word := 0x0

def NAND_CMD_READ : Word := 0x0
def NAND_CMD_READ_START : Word := 0x30
def NAND_CMD_PAGEPROG : Word := 0x80
def NAND_CMD_PAGEPROG_START : Word := 0x10
def NAND_CMD_STATUS : Word := 0x70
def NAND_CMD_READID : Word := 0x90
def NAND_CMD_RESET : Word := 0xff

def pollNFSTAT : Nat → State → State
  | 0, s => s
  | n + 1, s => if (getNFSTAT s).1 &&& 1 = 0 then pollNFSTAT n (getNFSTAT s).2 else (getNFSTAT s).2

/-- R/nB comes back after the part's busy time, so one poll more than that leaves the loop. -/
def nand_wait_idle (s : State) : State := pollNFSTAT (s.chip.busy + 1) s

def nand_reset (p : Part) (s : State) : State :=
  NAND_DISABLE_CE (nand_wait_idle (setNFCMD p NAND_CMD_RESET (NAND_ENABLE_CE s)))

def nand_init (p : Part) (s : State) : State :=
  nand_reset p { s with
    nfconf := NFCONF_MLCCLKCTRL <<< 30 ||| NFCONF_MSGLENGTH <<< 25 ||| NFCONF_ECC_TYPE <<< 23 |||
      NFCONF_TACLS <<< 12 ||| NFCONF_TWRPH0 <<< 8 ||| NFCONF_TWRPH1 <<< 4
    nfcont := s.nfcont ||| (0x3 : Word) <<< 0 }

/-- `for (index = 0; index < n; index++) *buffer++ = NFDATA8_REG;` -/
def readBytes (p : Part) : Nat → Word → State → State
  | 0, _, s => s
  | n + 1, buffer, s =>
    readBytes p n (buffer + 1)
      { (getNFDATA8 p s).2 with mem := store (getNFDATA8 p s).2.mem buffer (getNFDATA8 p s).1 }

/-- `for (index = 0; index < n; index++) NFDATA8_REG = *buffer++;` -/
def writeBytes : Nat → Word → State → State
  | 0, _, s => s
  | n + 1, buffer, s => writeBytes n (buffer + 1) (setNFDATA8 (s.mem buffer) s)

/-- The part is left selected: this function has no NAND_DISABLE_CE. -/
def nand_readID (p : Part) (buffer : Word) (s : State) : State :=
  readBytes p 6 buffer (setNFADDR 0 (setNFCMD p NAND_CMD_READID (NAND_ENABLE_CE s)))

/-- Column 0 is sent whatever the low bits of the address are. -/
def nand_write_address (address : Word) (s : State) : State :=
  let page_address := address >>> 11
  let s := setNFADDR 0 s
  let s := setNFADDR 0 s
  let s := setNFADDR (page_address &&& 0xff) s
  let s := setNFADDR ((page_address >>> 8) &&& 0xff) s
  setNFADDR ((page_address >>> 16) &&& 0xff) s

structure PageLoop where
  addr : Word
  buffer : Word
  state : State

/-- Tests of a page loop after which it never ends: the page addresses of the 32-bit space.
A loop that does not end gives `none`. -/
def pageTests : Nat := 2 ^ 21 + 1

def readPage (p : Part) (l : PageLoop) : PageLoop :=
  let s := setNFCMD p NAND_CMD_READ l.state
  let s := nand_write_address l.addr s
  let s := setNFCMD p NAND_CMD_READ_START s
  let s := nand_wait_idle s
  let s := readBytes p NAND_PAGE_SIZE l.buffer s
  { addr := l.addr + BitVec.ofNat 32 NAND_PAGE_SIZE
    buffer := l.buffer + BitVec.ofNat 32 NAND_PAGE_SIZE
    state := s }

def nand_read_page (p : Part) (buffer start_addr size : Word) (s : State) : Option State :=
  if start_addr &&& NAND_PAGE_MASK ≠ 0 ∨ size &&& NAND_PAGE_MASK ≠ 0 then some s
  else
    (Loop.whileLoop (fun l => l.addr < start_addr + size) (readPage p) pageTests
      { addr := start_addr, buffer := buffer, state := NAND_ENABLE_CE s }).map
      fun l => NAND_DISABLE_CE l.state

def programError : String := "\n\rError in Program\n\r"

def writePage (p : Part) (l : PageLoop) : PageLoop :=
  let s := setNFCMD p NAND_CMD_PAGEPROG l.state
  let s := nand_write_address l.addr s
  let s := writeBytes NAND_PAGE_SIZE l.buffer s
  let s := setNFCMD p NAND_CMD_PAGEPROG_START s
  let s := nand_wait_idle s
  let s := setNFCMD p NAND_CMD_STATUS s
  let data := (getNFDATA8 p s).1
  let s := (getNFDATA8 p s).2
  { addr := l.addr + BitVec.ofNat 32 NAND_PAGE_SIZE
    buffer := l.buffer + BitVec.ofNat 32 NAND_PAGE_SIZE
    state := if data &&& 0x1 ≠ 0 then UART0_SendString programError s else s }

def nand_write_page (p : Part) (buffer size start_addr : Word) (s : State) : Option State :=
  if start_addr &&& NAND_PAGE_MASK ≠ 0 ∨ size &&& NAND_PAGE_MASK ≠ 0 then some s
  else
    (Loop.whileLoop (fun l => l.addr < start_addr + size) (writePage p) pageTests
      { addr := start_addr, buffer := buffer, state := NAND_ENABLE_CE s }).map
      fun l => NAND_DISABLE_CE l.state

/-- workspace/nand/nand.c only. The opening NAND_CMD_READ of nand_read_page is absent here. -/
def nand_read_in_page (p : Part) (buffer srcAddr size : Word) (s : State) : State :=
  if srcAddr &&& ~~~NAND_PAGE_MASK ≠ (srcAddr + size - 1) &&& ~~~NAND_PAGE_MASK then s
  else
    let s := NAND_ENABLE_CE s
    let s := nand_write_address srcAddr s
    let s := setNFCMD p NAND_CMD_READ_START s
    let s := nand_wait_idle s
    -- The loop counter is an int, so a negative size reads nothing.
    let s := readBytes p size.toInt.toNat buffer s
    NAND_DISABLE_CE s

/-- copy2addr after its head: whole pages, then the rest of the last page. -/
def copyPages (p : Part) (srcAddr aim size : Word) (s : State) : Option State :=
  if size &&& NAND_PAGE_MASK ≠ 0 then
    let length := size.sdiv (BitVec.ofNat 32 NAND_PAGE_SIZE) * BitVec.ofNat 32 NAND_PAGE_SIZE
    (nand_read_page p aim srcAddr length s).map (nand_read_in_page p aim srcAddr (size - length))
  else nand_read_page p aim srcAddr size s

/-- The destination pointer is the same in every part of the copy. -/
def copy2addr (p : Part) (srcAddr aim size : Word) (s : State) : Option State :=
  if srcAddr &&& NAND_PAGE_MASK ≠ 0 then
    let length := BitVec.ofNat 32 NAND_PAGE_SIZE - (srcAddr &&& NAND_PAGE_MASK)
    copyPages p (srcAddr + length) aim (size - length) (nand_read_in_page p aim srcAddr length s)
  else copyPages p srcAddr aim size s

end Tiny6410.Nand
