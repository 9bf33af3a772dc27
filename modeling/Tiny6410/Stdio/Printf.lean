import Tiny6410.Stdio.Ctype

/-! The formatter of no-os/stdio/lib: number and vsnprintf of vsprintf.c, printf of
printf.c. The arguments are the words that va_arg of vsprintf.h steps through, a long
long as two of them with the low one first. An int is a word that wraps around, and so is
a pointer. -/
namespace Tiny6410.Stdio

open Memory (Byte Word Bytes)

/-- The flags of number. -/
structure Flags where
  zeropad : Bool
  sign : Bool
  plus : Bool
  space : Bool
  left : Bool
  special : Bool
  large : Bool
  deriving DecidableEq

def noFlags : Flags := ⟨false, false, false, false, false, false, false⟩

/-- A base that number does not reject. -/
structure Base where
  val : Nat
  known : 2 ≤ val ∧ val ≤ 36

def octal : Base := ⟨8, by decide⟩
def decimal : Base := ⟨10, by decide⟩
def hexadecimal : Base := ⟨16, by decide⟩

def small_digits : List Byte := chs "0123456789abcdefghijklmnopqrstuvwxyz"
def large_digits : List Byte := chs "0123456789ABCDEFGHIJKLMNOPQRSTUVWXYZ"

def digitChar (large : Bool) (d : Nat) : Byte :=
  (if large then large_digits else small_digits).getD d 0

/-- The division loop: the digits in tmp, the last one first. do_div leaves the
quotient and returns the remainder. -/
def divLoop (large : Bool) (base : Nat) : Nat → Nat → List Byte
  | 0, _ => []
  | fuel + 1, num =>
    if num = 0 then [] else digitChar large (num % base) :: divLoop large base fuel (num / base)

/-- How often `while (low < n--)` goes round. -/
def rounds (low n : Word) : Nat := (n.toInt - low.toInt).toNat

/-- What n is behind that loop. -/
def ranOut (low n : Word) : Word := if low.slt n then low - 1 else n - 1

/-- What n is behind `while (--n > 0)`, which goes round as the other does for n - 1. -/
def countedDown (n : Word) : Word := if (0 : Word).slt (n - 1) then 0 else n - 1

def fill (n : Nat) (c : Char) : List Byte := List.replicate n (ch c)

/-- The sign, the magnitude and the width left. -/
def signOf (num : BitVec 64) (size : Word) (type : Flags) : List Byte × BitVec 64 × Word :=
  if type.sign then
    if num.slt 0 then ([ch '-'], -num, size - 1)
    else if type.plus then ([ch '+'], num, size - 1)
    else if type.space then ([ch ' '], num, size - 1)
    else ([], num, size)
  else ([], num, size)

/-- The second half of number: sign and digits, padded to the width that is left. -/
def layout (sign tmp : List Byte) (base : Base) (size precision : Word) (type : Flags) : List Byte :=
  let zeropad := type.zeropad && !type.left
  let c := if zeropad then '0' else ' '
  let i := BitVec.ofNat 32 tmp.length
  let precision := if precision.slt i then i else precision
  let size := size - precision
  let blank := if !(zeropad || type.left) then fill (rounds 0 size) ' ' else []
  let size := if !(zeropad || type.left) then ranOut 0 size else size
  let special := if type.special then
    if base.val = 8 then [ch '0'] else if base.val = 16 then [ch '0', digitChar type.large 33] else []
    else []
  let padding := if !type.left then fill (rounds 0 size) c else []
  let size := if !type.left then ranOut 0 size else size
  blank ++ sign ++ special ++ padding ++ fill (rounds i precision) '0' ++ tmp.reverse ++ fill (rounds 0 size) ' '

/-- The characters that number puts into the buffer. tmp has 66 places. -/
def number (num : BitVec 64) (base : Base) (size precision : Word) (type : Flags) : List Byte :=
  let (sign, num, size) := signOf num size type
  let size := if type.special then
    if base.val = 16 then size - 2 else if base.val = 8 then size - 1 else size else size
  let tmp := if num = 0 then [ch '0'] else divLoop type.large base.val 66 num.toNat
  layout sign tmp base size precision type

/-! vsnprintf -/

/-- A store through a pointer argument. -/
structure Store where
  ptr : Word
  bytes : List Byte
  deriving DecidableEq

/-- The bytes of an object, the low one first. -/
def objectBytes {w : Nat} (v : BitVec w) : List Byte :=
  (List.range (w / 8)).map fun i => v.extractLsb' (8 * i) 8

/-- The output: the pointer str, the memory, and the stores of the conversion n, which go to
objects of the caller and are kept apart from the memory. The text is a record of all
characters, also of those that are not stored. -/
structure Out where
  str : Word
  mem : Bytes
  text : List Byte
  stores : List Store

/-- One character. It is stored only while str <= end. -/
def Out.put (stop : Word) (o : Out) (c : Byte) : Out :=
  { o with
    str := o.str + 1
    mem := if o.str ≤ stop then Memory.store o.mem o.str c else o.mem
    text := o.text ++ [c] }

def Out.puts (stop : Word) (o : Out) (cs : List Byte) : Out := cs.foldl (Out.put stop) o

inductive Qualifier where
  | none | H | h | l | L | Z | z
  deriving DecidableEq

def va_word (args : List Word) : Word × List Word := (args.headD 0, args.tail)

def va_long_long (args : List Word) : BitVec 64 × List Word :=
  (args.tail.headD 0 ++ args.headD 0, args.tail.tail)

/-- The flags after the per cent sign. -/
def flagLoop : List Byte → Flags → Flags × List Byte
  | [], flags => (flags, [])
  | c :: fmt, flags =>
    if c = ch '-' then flagLoop fmt { flags with left := true }
    else if c = ch '+' then flagLoop fmt { flags with plus := true }
    else if c = ch ' ' then flagLoop fmt { flags with space := true }
    else if c = ch '#' then flagLoop fmt { flags with special := true }
    else if c = ch '0' then flagLoop fmt { flags with zeropad := true }
    else (flags, c :: fmt)

def atoiLoop : List Byte → Word → Word × List Byte
  | [], i => (i, [])
  | c :: s, i => if isdigit c then atoiLoop s (i * 10 + c.setWidth 32 - 48) else (i, c :: s)

def skip_atoi (s : List Byte) : Word × List Byte := atoiLoop s 0

structure Spec where
  flags : Flags
  field_width : Word
  precision : Word
  qualifier : Qualifier

def widthOf (fmt : List Byte) (args : List Word) (flags : Flags) :
    Word × Flags × List Byte × List Word :=
  if isdigit (fmt.headD 0) then ((skip_atoi fmt).1, flags, (skip_atoi fmt).2, args)
  else if fmt.headD 0 = ch '*' then
    let width := (va_word args).1
    if width.slt 0 then (-width, { flags with left := true }, fmt.tail, (va_word args).2)
    else (width, flags, fmt.tail, (va_word args).2)
  else (-1, flags, fmt, args)

def precisionOf (fmt : List Byte) (args : List Word) : Word × List Byte × List Word :=
  if fmt.headD 0 = ch '.' then
    let fmt := fmt.tail
    let (precision, fmt, args) : Word × List Byte × List Word :=
      if isdigit (fmt.headD 0) then ((skip_atoi fmt).1, (skip_atoi fmt).2, args)
      else if fmt.headD 0 = ch '*' then ((va_word args).1, fmt.tail, (va_word args).2)
      else (-1, fmt, args)
    (if precision.slt 0 then 0 else precision, fmt, args)
  else (-1, fmt, args)

def qualifierOf (fmt : List Byte) : Qualifier × List Byte :=
  if fmt.headD 0 = ch 'h' then (.h, fmt.tail)
  else if fmt.headD 0 = ch 'l' then
    if fmt.tail.headD 0 = ch 'l' then (.L, fmt.tail.tail) else (.l, fmt.tail)
  else if fmt.headD 0 = ch 'L' then (.L, fmt.tail)
  else if fmt.headD 0 = ch 'Z' then (.Z, fmt.tail)
  else if fmt.headD 0 = ch 'z' then (.z, fmt.tail)
  else (.none, fmt)

/-- Everything between the per cent sign and the conversion character. -/
def specOf (fmt : List Byte) (args : List Word) : Spec × List Byte × List Word :=
  let (flags, fmt) := flagLoop fmt noFlags
  let (field_width, flags, fmt, args) := widthOf fmt args flags
  let (precision, fmt, args) := precisionOf fmt args
  let (qualifier, fmt) := qualifierOf fmt
  (⟨flags, field_width, precision, qualifier⟩, fmt, args)

/-- The integer argument of a conversion. -/
def integerArg (qualifier : Qualifier) (signed : Bool) (args : List Word) :
    BitVec 64 × List Word :=
  match qualifier with
  | .L => va_long_long args
  | .Z | .z => ((va_word args).1.setWidth 64, (va_word args).2)
  | .h =>
    let num := (va_word args).1.setWidth 16
    (if signed then num.signExtend 64 else num.setWidth 64, (va_word args).2)
  | .l | .none | .H =>
    let num := (va_word args).1
    (if signed then num.signExtend 64 else num.setWidth 64, (va_word args).2)

def strnlen (mem : Bytes) (s : Word) : Nat → Nat
  | 0 => 0
  | count + 1 => if mem s = 0 then 0 else strnlen mem (s + 1) count + 1

/-- The characters of a string argument. A precision of -1 is no limit. -/
def stringArg (mem : Bytes) (s precision : Word) : List Byte :=
  if s.toNat < 1024 then (chs "<NULL>").take precision.toNat
  else (List.range (strnlen mem s precision.toNat)).map fun i => mem (s + BitVec.ofNat 32 i)

/-- The conversion c. -/
def padChar (c : Byte) (field_width : Word) (left : Bool) : List Byte :=
  let before := if left then 0 else rounds 0 (field_width - 1)
  let field_width := if left then field_width else countedDown field_width
  fill before ' ' ++ [c] ++ fill (rounds 0 (field_width - 1)) ' '

/-- The conversion s. The length is an int. -/
def padString (text : List Byte) (field_width : Word) (left : Bool) : List Byte :=
  let len := BitVec.ofNat 32 text.length
  let before := if left then 0 else rounds len field_width
  let field_width := if left then field_width else ranOut len field_width
  fill before ' ' ++ text.take (rounds 0 len) ++ fill (rounds len field_width) ' '

/-- One conversion: its output, and the arguments left. -/
def convert (mem : Bytes) (buf stop : Word) (spec : Spec) (c : Byte) (args : List Word) (o : Out) :
    Out × List Word :=
  let integer (base : Base) (flags : Flags) : Out × List Word :=
    let (num, args) := integerArg spec.qualifier flags.sign args
    (o.puts stop (number num base spec.field_width spec.precision flags), args)
  if c = ch 'c' then
    (o.puts stop (padChar ((va_word args).1.setWidth 8) spec.field_width spec.flags.left), (va_word args).2)
  else if c = ch 's' then
    let text := stringArg mem (va_word args).1 spec.precision
    (o.puts stop (padString text spec.field_width spec.flags.left), (va_word args).2)
  else if c = ch 'p' then
    let width := if spec.field_width = -1 then 8 else spec.field_width
    let flags := if spec.field_width = -1 then { spec.flags with zeropad := true } else spec.flags
    (o.puts stop (number ((va_word args).1.setWidth 64) hexadecimal width spec.precision flags),
      (va_word args).2)
  else if c = ch 'n' then
    ({ o with stores := o.stores ++ [⟨(va_word args).1, objectBytes (o.str - buf)⟩] }, (va_word args).2)
  else if c = ch '%' then (o.put stop (ch '%'), args)
  else if c = ch 'o' then integer octal spec.flags
  else if c = ch 'X' then integer hexadecimal { spec.flags with large := true }
  else if c = ch 'x' then integer hexadecimal spec.flags
  else if c = ch 'd' ∨ c = ch 'i' then integer decimal { spec.flags with sign := true }
  else if c = ch 'u' then integer decimal spec.flags
  else (o.puts stop [ch '%', c], args)

/-- The loop over the format. Each round takes at least one character of it. -/
def formatLoop (mem : Bytes) (buf stop : Word) : Nat → List Byte → List Word → Out → Out
  | 0, _, _, o => o
  | fuel + 1, fmt, args, o =>
    if fmt.headD 0 = 0 then o
    else if fmt.headD 0 ≠ ch '%' then
      formatLoop mem buf stop fuel fmt.tail args (o.put stop (fmt.headD 0))
    else
      let (spec, fmt, args) := specOf fmt.tail args
      -- The format ends inside a conversion.
      if fmt.headD 0 = 0 then o.put stop (ch '%')
      else
        let (o, args) := convert mem buf stop spec (fmt.headD 0) args o
        formatLoop mem buf stop fuel fmt.tail args o

/-- end, and the size that goes with it. -/
def limit (buf size : Word) : Word × Word :=
  if buf + size - 1 < buf - 1 then (-1, -1 - buf + 1) else (buf + size - 1, size)

/-- The terminating zero, at str or else at end. -/
def Out.terminate (stop size : Word) (o : Out) : Out :=
  if o.str ≤ stop then { o with mem := Memory.store o.mem o.str 0 }
  else if 0 < size then { o with mem := Memory.store o.mem stop 0 }
  else o

/-- What the caller gets is str - buf. The format and the strings among the arguments are
taken to lie apart from what the call writes: they are as they are in mem. -/
def vsnprintf (mem : Bytes) (buf size : Word) (fmt : List Byte) (args : List Word)
    (before : Bytes) : Out :=
  if size.slt 0 then ⟨buf, before, [], []⟩
  else (formatLoop mem buf (limit buf size).1 fmt.length fmt args ⟨buf, before, [], []⟩).terminate
    (limit buf size).1 (limit buf size).2

def Out.result (buf : Word) (o : Out) : Int := (o.str - buf).toInt

def vsprintf (mem : Bytes) (buf : Word) (fmt : List Byte) (args : List Word) (before : Bytes) : Out :=
  vsnprintf mem buf 0x7fffffff fmt args before

/-- The text of a format and its arguments: every character that the loop comes to, whether
there is room for it or not. -/
def formatted (mem : Bytes) (fmt : List Byte) (args : List Word) : List Byte :=
  (formatLoop mem 0 0 fmt.length fmt args ⟨0, fun _ => 0, [], []⟩).text

def strlenLoop (s : Nat → Byte) : Nat → Nat → Nat
  | 0, i => i
  | fuel + 1, i => if s i = 0 then i else strlenLoop s fuel (i + 1)

/-- strlen, over at most the whole address space. -/
def strlen (s : Nat → Byte) : Nat := strlenLoop s (2 ^ 32) 0

/-- The string that memory holds from s on. -/
def stringAt (s : Nat → Byte) : List Byte := (List.range (strlen s)).map s

structure Printed where
  result : Int
  sent : List Byte
  mem : Bytes

def OUTBUFSIZE : Nat := 1024

/-- Where the linker has put g_pcOutBuf. -/
structure Place where
  addr : Word
  fits : addr.toNat + OUTBUFSIZE ≤ 2 ^ 32

/-- Memory as it is indexed from an address on. -/
def window (mem : Bytes) (a : Word) : Nat → Byte := fun i => mem (a + BitVec.ofNat 32 i)

/-- printf, with g_pcOutBuf at its place. -/
def printf (mem : Bytes) (place : Place) (fmt : List Byte) (args : List Word) (before : Bytes) : Printed :=
  let o := vsprintf mem place.addr fmt args before
  ⟨o.result place.addr, stringAt (window o.mem place.addr), o.mem⟩

end Tiny6410.Stdio
