import Tiny6410.Lib.CString
import Mathlib.Data.Nat.Find

/-! do_irq of workspace/interrupt/NVI/irq.c with UART0_SendString of uart.c, byte by byte:
the strings are read from memory, and what is there may be something else. -/
namespace Tiny6410.Interrupt.DoIrq

open Memory CString

def MAX_STRING_LENGTH : Nat := 250

/-- What the devices show one run: the two registers at the test of key i, and UFSTAT0 at
its n-th read. The UART goes on sending, so that its FIFO does not stay full. -/
structure Devices where
  EINT0PEND : Nat → Word
  GPNDAT : Nat → Word
  UFSTAT0 : Nat → Word
  drains : ∀ n, ∃ k, n ≤ k ∧ (UFSTAT0 k).getLsbD 14 = false

/-- `while (UFSTAT0 & (1 << 14));` from the n-th read on: the number of reads after it. -/
def Devices.waited (d : Devices) (n : Nat) : Nat := Nat.find (d.drains n) + 1

/-- The loop of UART0_SendString: what it stores in UTXH0, and the reads of UFSTAT0. -/
def sendFrom (d : Devices) (m : Bytes) : Nat → Word → Nat → List Byte × Nat
  | 0, _, reads => ([], reads)
  | left + 1, string, reads =>
    if m string = 0 then ([], reads)
    else
      let (sent, reads) := sendFrom d m left (string + 1) (d.waited reads)
      (m string :: sent, reads)

def UART0_SendString (d : Devices) (m : Bytes) (string : Word) (reads : Nat) : List Byte × Nat :=
  sendFrom d m MAX_STRING_LENGTH string reads

inductive Effect where
  | UART0_SendString (sent : List Byte)
  | EINT0PEND (value : Word)
  | VIC0ADDRESS (value : Word)
  deriving DecidableEq

def Devices.pending (d : Devices) (i : Nat) : Bool := (d.EINT0PEND i).getLsbD i

/-- One round of the loop over the keys. -/
def testKey (d : Devices) (m : Bytes) (release press : Word) (s : List Effect × Nat) (i : Nat) : List Effect × Nat :=
  if d.pending i then
    let (sent, reads) := UART0_SendString d m (if (d.GPNDAT i).getLsbD i then release else press) s.2
    (s.1 ++ [.UART0_SendString sent], reads)
  else s

/-- The two strings are where the addresses say, or something else is. -/
def do_irq (d : Devices) (m : Bytes) (release press : Word) : List Effect :=
  ((List.range 6).foldl (testKey d m release press) ([], 0)).1 ++ [.EINT0PEND 0x3f, .VIC0ADDRESS 0]

/-! What it is to do -/

def releaseText : List Byte := literal "key release\n\r"
def pressText : List Byte := literal "key press\n\r"

def Devices.text (d : Devices) (i : Nat) : List Byte := if (d.GPNDAT i).getLsbD i then releaseText else pressText

/-- A message for each key that is pending, and the interrupt cleared. -/
def served (d : Devices) : List Effect :=
  ((List.range 6).filter (d.pending ·)).map (fun i => .UART0_SendString (d.text i)) ++
    [.EINT0PEND 0x3f, .VIC0ADDRESS 0]

section

variable {d : Devices} {m : Bytes} {release press : Word}

/-- What is sent does not depend on how long the FIFO is full. -/
theorem sendFrom_reads (left : Nat) (string : Word) (reads reads' : Nat) :
    (sendFrom d m left string reads).1 = (sendFrom d m left string reads').1 := by
  induction left generalizing string reads reads' with
  | zero => rfl
  | succ left ih =>
    rw [sendFrom, sendFrom]
    split
    · rfl
    · exact congrArg (m string :: ·) (ih (string + 1) _ _)

theorem sendFrom_iff {left : Nat} {string : Word} {text : List Byte} (plain : 0 ∉ text) (short : text.length < left)
    (reads : Nat) : (sendFrom d m left string reads).1 = text ↔ Spells m string text := by
  induction text generalizing left string reads with
  | nil =>
    obtain ⟨left, rfl⟩ : ∃ k, left = k + 1 := ⟨left - 1, by simp at short; omega⟩
    rw [sendFrom, Spells]
    split
    · rename_i zero
      exact iff_of_true rfl zero
    · rename_i nonzero
      exact iff_of_false (List.cons_ne_nil _ _) nonzero
  | cons c text ih =>
    obtain ⟨left, rfl⟩ : ∃ k, left = k + 1 := ⟨left - 1, by simp at short; omega⟩
    obtain ⟨nonzero, others⟩ := List.ne_and_not_mem_of_not_mem_cons plain
    rw [sendFrom, Spells]
    split
    · rename_i zero
      refine iff_of_false (List.cons_ne_nil _ _).symm fun spells => nonzero ?_
      rw [← spells.1, zero]
    · have later := @ih left (string + 1) others (Nat.lt_of_succ_lt_succ short) (d.waited reads)
      constructor
      · intro same
        obtain ⟨head, tail⟩ := List.cons.inj same
        exact ⟨head, nonzero.symm, later.mp tail⟩
      · rintro ⟨head, -, spells⟩
        exact List.cons_eq_cons.mpr ⟨head, later.mpr spells⟩

theorem foldl_testKey (keys : List Nat) (s : List Effect × Nat) :
    (keys.foldl (testKey d m release press) s).1 = s.1 ++ (keys.filter (d.pending ·)).map fun i =>
      .UART0_SendString (UART0_SendString d m (if (d.GPNDAT i).getLsbD i then release else press) 0).1 := by
  induction keys generalizing s with
  | nil => simp
  | cons i keys ih =>
    rw [List.foldl_cons, ih, testKey]
    cases pending : d.pending i with
    | false =>
      rw [List.filter_cons_of_neg (by simp [pending]), if_neg Bool.false_ne_true]
    | true =>
      rw [List.filter_cons_of_pos pending, if_pos rfl, List.map_cons, List.append_assoc, List.singleton_append]
      exact congrArg (fun sent => s.1 ++ Effect.UART0_SendString sent :: _) (sendFrom_reads _ _ _ _)

/-- Whatever is sent, there is one message for each key. -/
theorem length_do_irq : (do_irq d m release press).length = (served d).length := by
  rw [do_irq, served, foldl_testKey]
  simp

/-- The messages are those of the source exactly if the strings of the pending keys are
where do_irq takes them from. -/
theorem do_irq_served_iff : do_irq d m release press = served d ↔
    ∀ i < 6, d.pending i → Spells m (if (d.GPNDAT i).getLsbD i then release else press) (d.text i) := by
  have sends (i : Nat) (a : Word) : (UART0_SendString d m a 0).1 = d.text i ↔ Spells m a (d.text i) := by
    refine sendFrom_iff ?_ ?_ 0
    · rw [Devices.text]
      split <;> decide
    · rw [Devices.text]
      split <;> decide
  rw [do_irq, served, foldl_testKey, List.nil_append, List.append_left_inj, List.map_inj_left]
  simp only [List.mem_filter, List.mem_range, Effect.UART0_SendString.injEq, sends, and_imp]

end

end Tiny6410.Interrupt.DoIrq
