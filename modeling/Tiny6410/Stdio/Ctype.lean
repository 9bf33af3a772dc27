import Tiny6410.Lib.Memory

/-! Characters of no-os/stdio/lib: the table of ctype.c and the macros of ctype.h, and
strings that end at the first zero. -/
namespace Tiny6410.Stdio

open Memory (Byte Word)

def ch (c : Char) : Byte := BitVec.ofNat 8 c.toNat

/-- The characters of a string literal. -/
def chs (s : String) : List Byte := s.toList.map ch

/-! The masks of ctype.h. -/

namespace Mask

def U : Byte := 0x01
def L : Byte := 0x02
def D : Byte := 0x04
def C : Byte := 0x08
def P : Byte := 0x10
def S : Byte := 0x20
def X : Byte := 0x40
def SP : Byte := 0x80

end Mask

open Mask

/-- The table _ctype of ctype.c. -/
def ctype : List Byte :=
  [C, C, C, C, C, C, C, C, C, C ||| S, C ||| S, C ||| S, C ||| S, C ||| S, C, C] ++
  List.replicate 16 C ++
  (S ||| SP) :: List.replicate 15 P ++
  List.replicate 10 D ++ List.replicate 6 P ++
  P :: List.replicate 6 (U ||| X) ++ List.replicate 20 U ++ List.replicate 5 P ++
  P :: List.replicate 6 (L ||| X) ++ List.replicate 20 L ++ List.replicate 4 P ++ [C] ++
  List.replicate 32 0 ++
  (S ||| SP) :: List.replicate 31 P ++
  List.replicate 23 U ++ [P] ++ List.replicate 7 U ++ List.replicate 24 L ++ [P] ++
  List.replicate 8 L

def ismask (c : Byte) : Byte := ctype.getD c.toNat 0

def isdigit (c : Byte) : Bool := ismask c &&& D ≠ 0
def islower (c : Byte) : Bool := ismask c &&& L ≠ 0
def isspace (c : Byte) : Bool := ismask c &&& S ≠ 0
def isxdigit (c : Byte) : Bool := ismask c &&& (D ||| X) ≠ 0

def toupper (c : Byte) : Byte := if islower c then c - (ch 'a' - ch 'A') else c

end Tiny6410.Stdio
