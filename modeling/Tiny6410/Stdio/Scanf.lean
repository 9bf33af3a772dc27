import Tiny6410.Stdio.Printf

/-! The scanner of no-os/stdio/lib: simple_strtoul and its kin and vsscanf of
vsprintf.c, scanf of printf.c. -/
namespace Tiny6410.Stdio

open Memory (Byte Word)

/-- The value of a hexadecimal digit in simple_strtoul. -/
def digitValue (c : Byte) : Nat :=
  if isdigit c then c.toNat - (ch '0').toNat else (toupper c).toNat - (ch 'A').toNat + 10

/-- The same in simple_strtoull. -/
def digitValueLong (c : Byte) : Nat :=
  if isdigit c then c.toNat - (ch '0').toNat
  else (if islower c then toupper c else c).toNat - (ch 'A').toNat + 10

/-- The base, and what is left after the 0 or 0x that says it. -/
def baseOf (cp : List Byte) (base : Nat) : Nat × List Byte :=
  if base = 0 then
    if cp.headD 0 = ch '0' then
      let cp := cp.tail
      if toupper (cp.headD 0) = ch 'X' ∧ isxdigit (cp.tail.headD 0) then (16, cp.tail)
      else (8, cp)
    else (10, cp)
  else if base = 16 then
    if cp.headD 0 = ch '0' ∧ toupper (cp.tail.headD 0) = ch 'X' then (16, cp.tail.tail) else (16, cp)
  else (base, cp)

/-- The digit loop, over the width of its result. -/
def digitLoop {w : Nat} (value : Byte → Nat) (base : Nat) :
    List Byte → BitVec w → BitVec w × List Byte
  | [], result => (result, [])
  | c :: cp, result =>
    if isxdigit c ∧ value c < base then
      digitLoop value base cp (result * BitVec.ofNat w base + BitVec.ofNat w (value c))
    else (result, c :: cp)

def strtou (w : Nat) (value : Byte → Nat) (cp : List Byte) (base : Nat) : BitVec w × List Byte :=
  digitLoop value (baseOf cp base).1 (baseOf cp base).2 0

def strto (w : Nat) (value : Byte → Nat) (cp : List Byte) (base : Nat) : BitVec w × List Byte :=
  if cp.headD 0 = ch '-' then
    (-(strtou w value cp.tail base).1, (strtou w value cp.tail base).2)
  else strtou w value cp base

def simple_strtoul := strtou 32 digitValue
def simple_strtoull := strtou 64 digitValueLong
def simple_strtol := strto 32 digitValue
def simple_strtoll := strto 64 digitValueLong

/-! vsscanf -/

structure Scan where
  num : Nat
  stores : List Store
  deriving DecidableEq

def Scan.convert (s : Scan) (ptr : Word) (bytes : List Byte) : Scan :=
  ⟨s.num + 1, s.stores ++ [⟨ptr, bytes⟩]⟩

def scanQualifierOf (fmt : List Byte) : Qualifier × List Byte :=
  if fmt.headD 0 = ch 'h' then
    if fmt.tail.headD 0 = ch 'h' then (.H, fmt.tail.tail) else (.h, fmt.tail)
  else if fmt.headD 0 = ch 'l' then
    if fmt.tail.headD 0 = ch 'l' then (.L, fmt.tail.tail) else (.l, fmt.tail)
  else if fmt.headD 0 = ch 'L' then (.L, fmt.tail)
  else if fmt.headD 0 = ch 'Z' then (.Z, fmt.tail)
  else if fmt.headD 0 = ch 'z' then (.z, fmt.tail)
  else (.none, fmt)

def scanWidthOf (fmt : List Byte) : Word × List Byte :=
  if isdigit (fmt.headD 0) then ((skip_atoi fmt).1, (skip_atoi fmt).2) else (-1, fmt)

/-- The text of a conversion c. The first character is taken in any case. -/
def takeChars (str : List Byte) (field_width : Word) : List Byte :=
  let width := if field_width = -1 then 1 else field_width
  str.take 1 ++ (str.tail.take (rounds 0 (width - 1))).takeWhile (· ≠ 0)

/-- The text of a conversion s, without the zero. A width of -1 is INT_MAX, and the
count goes down to zero, from a negative int through all the others. -/
def takeWord (str : List Byte) (field_width : Word) : List Byte :=
  let width := if field_width = -1 then 0x7fffffff else field_width
  (str.take width.toNat).takeWhile fun c => c ≠ 0 ∧ ¬ isspace c

/-- The character that decides whether a number follows. -/
def leadDigit (str : List Byte) (is_sign : Bool) : Byte :=
  if is_sign ∧ str.headD 0 = ch '-' then str.tail.headD 0 else str.headD 0

def startsNumber (digit : Byte) (base : Nat) : Bool :=
  ¬ (digit = 0 ∨ (base = 16 ∧ ¬ isxdigit digit) ∨ (base = 10 ∧ ¬ isdigit digit) ∨
    (base = 8 ∧ (¬ isdigit digit ∨ digit > ch '7')) ∨ (base = 0 ∧ ¬ isdigit digit))

/-- The bytes that an integer conversion stores, and what is left of the input. -/
def integerStore (qualifier : Qualifier) (is_sign : Bool) (base : Nat) (str : List Byte) :
    List Byte × List Byte :=
  let long := if is_sign then simple_strtol str base else simple_strtoul str base
  let longLong := if is_sign then simple_strtoll str base else simple_strtoull str base
  match qualifier with
  | .H => (objectBytes (long.1.setWidth 8), long.2)
  | .h => (objectBytes (long.1.setWidth 16), long.2)
  | .l | .none => (objectBytes long.1, long.2)
  | .L => (objectBytes longLong.1, longLong.2)
  | .Z | .z => (objectBytes (simple_strtoul str base).1, (simple_strtoul str base).2)

/-- The base and signedness of an integer conversion. -/
def integerKind (c : Byte) : Option (Nat × Bool) :=
  if c = ch 'o' then some (8, false)
  else if c = ch 'x' ∨ c = ch 'X' then some (16, false)
  else if c = ch 'i' then some (0, true)
  else if c = ch 'd' then some (10, true)
  else if c = ch 'u' then some (10, false)
  else none

/-- The loop over the format. Each round takes at least one character of it. The length
is that of the whole input. -/
def scanLoop (length : Nat) : Nat → List Byte → List Byte → List Word → Scan → Scan
  | 0, _, _, _, s => s
  | fuel + 1, str, fmt, args, s =>
    if fmt.headD 0 = 0 ∨ str.headD 0 = 0 then s
    else
      let blank := isspace (fmt.headD 0)
      let fmt := if blank then fmt.dropWhile isspace else fmt
      let str := if blank then str.dropWhile isspace else str
      if fmt.headD 0 ≠ ch '%' ∧ fmt.headD 0 ≠ 0 then
        if fmt.headD 0 ≠ str.headD 0 then s else scanLoop length fuel str.tail fmt.tail args s
      else if fmt.headD 0 = 0 then s
      else if fmt.tail.headD 0 = ch '*' then
        let skip := List.dropWhile fun c => ¬ isspace c ∧ c ≠ 0
        scanLoop length fuel (skip str) (skip fmt.tail) args s
      else
        let (field_width, fmt) := scanWidthOf fmt.tail
        let (qualifier, fmt) := scanQualifierOf fmt
        if fmt.headD 0 = 0 ∨ str.headD 0 = 0 then s
        else
          let c := fmt.headD 0
          let (ptr, rest) := va_word args
          if c = ch 'c' then
            let text := takeChars str field_width
            scanLoop length fuel (str.drop text.length) fmt.tail rest (s.convert ptr text)
          else if c = ch 's' then
            let str := str.dropWhile isspace
            let text := takeWord str field_width
            scanLoop length fuel (str.drop text.length) fmt.tail rest (s.convert ptr (text ++ [0]))
          else if c = ch 'n' then
            let offset := objectBytes (BitVec.ofNat 32 (length - str.length))
            scanLoop length fuel str fmt.tail rest { s with stores := s.stores ++ [⟨ptr, offset⟩] }
          else if c = ch '%' then
            if str.headD 0 ≠ ch '%' then s else scanLoop length fuel str.tail fmt.tail args s
          else
            match integerKind c with
            | none => s
            | some (base, is_sign) =>
              let str := str.dropWhile isspace
              if startsNumber (leadDigit str is_sign) base then
                let (bytes, next) := integerStore qualifier is_sign base str
                scanLoop length fuel next fmt.tail rest (s.convert ptr bytes)
              else s

def vsscanf (buf fmt : List Byte) (args : List Word) : Scan :=
  scanLoop buf.length fmt.length buf fmt args ⟨0, []⟩

def INBUFSIZE : Nat := 1024

/-- The characters up to the first carriage return or line feed, put into the buffer
from index i on. Without one, scanf waits for more. -/
def getLoop : List Byte → Nat → (Nat → Byte) → Option (Nat × (Nat → Byte))
  | [], _, _ => none
  | c :: typed, i, buf =>
    if c = 0x0d ∨ c = 0x0a then some (i, Function.update buf i 0)
    else getLoop typed (i + 1) (Function.update buf i c)

structure Scanned where
  result : Nat
  stores : List Store
  -- What putc has sent back while typing.
  echoed : List Byte
  g_pcInBuf : Nat → Byte

/-- scanf, with the memory from g_pcInBuf on and the characters that are typed. -/
def scanf (g_pcInBuf : Nat → Byte) (typed fmt : List Byte) (args : List Word) : Option Scanned :=
  (getLoop typed 0 g_pcInBuf).map fun r =>
    let s := vsscanf (stringAt r.2) fmt args
    ⟨s.num, s.stores, typed.take (r.1 + 1), r.2⟩

end Tiny6410.Stdio
