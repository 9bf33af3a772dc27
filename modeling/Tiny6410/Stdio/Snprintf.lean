import Tiny6410.Stdio.Output

/-! snprintf and scnprintf of no-os/stdio/lib/vsprintf.c, for every buffer and size. The
bound holds as long as the pointer str does not come round to the start of memory. -/
namespace Tiny6410.Stdio

open Memory (Byte Word Bytes offset offset_add overlay overlay_outside)

def snprintf (mem : Bytes) (buf size : Word) (fmt : List Byte) (args : List Word) (before : Bytes) : Int × Bytes :=
  let o := vsnprintf mem buf size fmt args before
  (o.result buf, o.mem)

/-- The result is compared with the size as an unsigned number. -/
def scnprintf (mem : Bytes) (buf size : Word) (fmt : List Byte) (args : List Word) (before : Bytes) : Int × Bytes :=
  let o := vsnprintf mem buf size fmt args before
  let i := o.str - buf
  ((if size ≤ i then size - 1 else i).toInt, o.mem)

/-- A text of n characters and its terminator do not get past the size: it fits, or end
stays above the buffer and str stays behind it. -/
def Held (buf size : Word) (n : Nat) : Prop := n < size.toNat ∨ buf ≠ 0 ∧ buf.toNat + n < 2 ^ 32

instance (buf size : Word) (n : Nat) : Decidable (Held buf size n) := inferInstanceAs (Decidable (_ ∨ _))

section

variable {mem : Bytes} {buf size : Word} {fmt : List Byte} {args : List Word}

/-- snprintf returns the length of the whole text, and stores nothing above the size. -/
structure Bounded (mem : Bytes) (buf size : Word) (fmt : List Byte) (args : List Word) : Prop where
  result : ∀ before, (snprintf mem buf size fmt args before).1 = (formatted mem fmt args).length
  inside : ∀ before x, size.toNat ≤ offset buf x → (snprintf mem buf size fmt args before).2 x = before x

/-- scnprintf returns the number r of characters that it has stored: memory holds the first
r of the text with a terminator behind them, and is as it was elsewhere. -/
def Counts (mem : Bytes) (buf size : Word) (fmt : List Byte) (args : List Word) : Prop :=
  ∃ r : Nat, ∀ before, (scnprintf mem buf size fmt args before).1 = r ∧
    (scnprintf mem buf size fmt args before).2 =
      overlay before buf (r + 1) (((formatted mem fmt args).take r).getD · 0)

end

end Tiny6410.Stdio
