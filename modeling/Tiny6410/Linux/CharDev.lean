import Tiny6410.Lib.Memory
import Tiny6410.Lib.Simulation

/-! The character driver char_dev.c: a string of at most 1024 bytes that a write
replaces, a read delivers and an ioctl clears. The lengths of a write are reduced
modulo the size of the buffer. -/
namespace Tiny6410.CharDev

open Memory (Byte Word)

def BUFFER_CLEAR_CMD : Word := 0x909090
def BUFFER_SIZE : Nat := 1025

structure Driver where
  -- The memory from char_dev_buffer on; the buffer is its first BUFFER_SIZE bytes.
  char_dev_buffer : Nat → Byte
  char_dev_string_len : Word

def defaultString : List Byte := [0x32, 0x30, 0x31, 0x35, 0x31, 0x31, 0x30, 0x38, 0x00]

def loaded : Driver where
  char_dev_buffer := fun i => defaultString.getD i 0
  char_dev_string_len := 9

/-- copy_from_user of n bytes, the last of which could not be read and become zero. -/
def copy_from_user (buffer buf : Nat → Byte) (n missed : Nat) : Nat → Byte :=
  fun i => if i + missed < n then buf i else if i < n then 0 else buffer i

def copy_to_user (buffer : Nat → Byte) (n missed : Nat) : List Byte :=
  (List.range (n - missed)).map buffer

/-- The length after the clamp. The int is converted to unsigned for the comparison. -/
def readLength (count : Word) (d : Driver) : Word :=
  if count > d.char_dev_string_len then d.char_dev_string_len else count

/-- The result of the copy is not looked at, and the return value is always 0. -/
def chr_read (count : Word) (missed : Nat) (d : Driver) : List Byte × Int :=
  (copy_to_user d.char_dev_buffer (readLength count d).toNat missed, 0)

def chr_write (buf : Nat → Byte) (count : Word) (missed : Nat) (d : Driver) : Driver × Int :=
  let count := count % BitVec.ofNat 32 BUFFER_SIZE
  let buffer := if count ≠ 0 then copy_from_user d.char_dev_buffer buf count.toNat missed
    else d.char_dev_buffer
  (⟨buffer, count⟩, count.toNat)

def chr_ioctl (cmd : Word) (d : Driver) : Driver × Int :=
  if cmd = BUFFER_CLEAR_CMD then ({ d with char_dev_string_len := 0 }, 0) else (d, 0)

inductive Call where
  | write (buf : Nat → Byte) (count : Word)
  | read (count : Word)
  | ioctl (cmd : Word)

inductive Response where
  | wrote (n : Int)
  | delivered (bytes : List Byte)
  | controlled (n : Int)
  deriving DecidableEq

def driverCall (d : Driver) : Call → Driver × Response
  | .write buf count => ((chr_write buf count 0 d).1, .wrote (chr_write buf count 0 d).2)
  | .read count => (d, .delivered (chr_read count 0 d).1)
  | .ioctl cmd => ((chr_ioctl cmd d).1, .controlled (chr_ioctl cmd d).2)

/-- What the readme asks for: one string, of which a write keeps the first 1024 bytes. -/
def storeCall (content : List Byte) : Call → List Byte × Response
  | .write buf count =>
    ((List.range (min count.toNat 1024)).map buf, .wrote (min count.toNat 1024 : Nat))
  | .read count => (content, .delivered (content.take count.toNat))
  | .ioctl cmd => (if cmd = BUFFER_CLEAR_CMD then [] else content, .controlled 0)

/-- The string in the buffer. Bytes of an earlier, longer string are not part of it. -/
def Driver.content (d : Driver) : List Byte :=
  (List.range d.char_dev_string_len.toNat).map d.char_dev_buffer

def Call.Kept : Call → Prop
  | .write _ count => count.toNat ≤ 1024 ∨ count.toNat % BUFFER_SIZE = 1024
  | _ => True

theorem toNat_reduced (count : Word) :
    (count % BitVec.ofNat 32 BUFFER_SIZE).toNat = count.toNat % BUFFER_SIZE := by
  rw [BitVec.toNat_umod]
  rfl

theorem chr_write_content (buf : Nat → Byte) (count : Word) (d : Driver) :
    (chr_write buf count 0 d).1.content = (List.range (count.toNat % BUFFER_SIZE)).map buf := by
  simp only [chr_write, Driver.content, toNat_reduced]
  apply List.map_congr_left
  intro i mem
  have inside := List.mem_range.mp mem
  have nonzero : count % BitVec.ofNat 32 BUFFER_SIZE ≠ 0 := by
    intro zero
    rw [← toNat_reduced, zero] at inside
    exact absurd inside (Nat.not_lt_zero i)
  rw [if_pos nonzero, copy_from_user, if_pos (by rw [Nat.add_zero]; exact inside)]

theorem toNat_readLength (count : Word) (d : Driver) :
    (readLength count d).toNat = min count.toNat d.char_dev_string_len.toNat := by
  unfold readLength
  split
  · rename_i longer
    have order : d.char_dev_string_len.toNat < count.toNat := longer
    omega
  · rename_i shorter
    have order : count.toNat ≤ d.char_dev_string_len.toNat := Nat.not_lt.mp shorter
    omega

theorem chr_read_bytes (count : Word) (d : Driver) :
    (chr_read count 0 d).1 = d.content.take count.toNat := by
  rw [chr_read, copy_to_user, Driver.content, toNat_readLength, Nat.sub_zero, ← List.map_take,
    List.take_range]

theorem driver_simulates :
    Simulation.Simulates driverCall storeCall (fun d content => d.content = content) Call.Kept := by
  rintro d content call rfl kept
  cases call with
  | write buf count =>
    have length : count.toNat % BUFFER_SIZE = min count.toNat 1024 := by
      rcases kept with small | whole
      · rw [Nat.mod_eq_of_lt (by unfold BUFFER_SIZE; omega)]
        omega
      · have bound := Nat.mod_le count.toNat BUFFER_SIZE
        omega
    refine ⟨?_, ?_⟩
    · simp only [driverCall, storeCall, chr_write, toNat_reduced, length]
    · simp only [driverCall, storeCall, chr_write_content, length]
  | read count => exact ⟨by simp only [driverCall, storeCall, chr_read_bytes], rfl⟩
  | ioctl cmd =>
    by_cases clear : cmd = BUFFER_CLEAR_CMD
    · simp only [driverCall, storeCall, chr_ioctl, if_pos clear, true_and]
      rfl
    · simp only [driverCall, storeCall, chr_ioctl, if_neg clear, and_self]

theorem unkept_write_shows (d : Driver) (content : List Byte) (call : Call) (lost : ¬ call.Kept) :
    (driverCall d call).2 ≠ (storeCall content call).2 := by
  cases call with
  | write buf count =>
    simp only [Call.Kept, not_or] at lost
    simp only [driverCall, storeCall, chr_write, toNat_reduced, ne_eq, Response.wrote.injEq]
    omega
  | read | ioctl => exact absurd trivial lost

theorem loaded_content : loaded.content = defaultString := by decide

/-- The driver is the store of the readme on exactly the runs in which every write has
at most 1024 bytes, or a length that leaves 1024 modulo the buffer size. -/
theorem driver_refines_store_iff (calls : List Call) :
    Simulation.responses driverCall loaded calls =
      Simulation.responses storeCall defaultString calls ↔ ∀ call ∈ calls, call.Kept :=
  Simulation.responses_eq_iff driver_simulates
    (fun d content call _ lost => unkept_write_shows d content call lost) loaded_content calls

theorem write_of_buffer_size_lost :
    Simulation.responses driverCall loaded [.write (fun _ => 0x41) 1025, .read 1] =
      [.wrote 0, .delivered []] ∧
    Simulation.responses storeCall defaultString [.write (fun _ => 0x41) 1025, .read 1] =
      [.wrote 1024, .delivered [0x41]] := by
  exact ⟨by decide, by decide +kernel⟩

/-! Copies that fail on the way. -/

/-- Some of the bytes asked for are not copied. -/
def Incomplete (count : Word) (missed : Nat) : Prop := 0 < min missed (count.toNat % BUFFER_SIZE)

/-- A write whose copy is incomplete reports an error, and a read after it delivers the
string of before. -/
def KeepsOnFault (buf : Nat → Byte) (count : Word) (missed : Nat) (d : Driver) : Prop :=
  Incomplete count missed → (chr_write buf count missed d).2 < 0 ∧
    ∀ n, (chr_read n 0 (chr_write buf count missed d).1).1 = (chr_read n 0 d).1

theorem copy_from_user_bytes (buffer buf : Nat → Byte) {n missed : Nat} (some : missed ≤ n) :
    (List.range n).map (copy_from_user buffer buf n missed) =
      (List.range (n - missed)).map buf ++ List.replicate missed 0 := by
  have split : List.range n = List.range (n - missed) ++ (List.range missed).map (n - missed + ·) := by
    rw [← List.range_add, Nat.sub_add_cancel some]
  rw [split, List.map_append, List.map_map]
  congr 1
  · apply List.map_congr_left
    intro i mem
    have inside := List.mem_range.mp mem
    exact if_pos (by omega)
  · rw [List.eq_replicate_iff]
    refine ⟨by simp, fun b mem => ?_⟩
    obtain ⟨i, inside, rfl⟩ := List.mem_map.mp mem
    have below := List.mem_range.mp inside
    simp only [Function.comp_apply, copy_from_user]
    rw [if_neg (by omega), if_pos (by omega)]

/-- A write never reports an error, so it keeps its promise only where the copy is
complete. What an incomplete copy leaves is the bytes that came through and zeros, for
the length of the whole write. -/
theorem chr_write_fault_iff (buf : Nat → Byte) (count : Word) (missed : Nat) (d : Driver) :
    (KeepsOnFault buf count missed d ↔ ¬ Incomplete count missed) ∧
    (Incomplete count missed → missed ≤ count.toNat % BUFFER_SIZE →
      (chr_write buf count missed d).2 = (count.toNat % BUFFER_SIZE : Nat) ∧
      (chr_write buf count missed d).1.content =
        (List.range (count.toNat % BUFFER_SIZE - missed)).map buf ++ List.replicate missed 0) := by
  have result : (chr_write buf count missed d).2 = (count.toNat % BUFFER_SIZE : Nat) := by
    simp only [chr_write, toNat_reduced]
  refine ⟨⟨fun keeps incomplete => ?_, fun complete incomplete => absurd incomplete complete⟩,
    fun incomplete some => ⟨result, ?_⟩⟩
  · have negative := (keeps incomplete).1
    rw [result] at negative
    omega
  · have nonzero : count % BitVec.ofNat 32 BUFFER_SIZE ≠ 0 := by
      intro zero
      have none := toNat_reduced count
      rw [zero] at none
      unfold Incomplete at incomplete
      change 0 = _ at none
      omega
    simp only [Driver.content, chr_write, if_pos nonzero, toNat_reduced]
    exact copy_from_user_bytes d.char_dev_buffer buf some

/-- "AB" with the second byte out of reach: reported as two bytes written. -/
theorem faulting_write_replaces_string :
    Incomplete 2 1 ∧ (chr_write (fun _ => 0x41) 2 1 loaded).2 = 2 ∧
      (chr_read 9 0 (chr_write (fun _ => 0x41) 2 1 loaded).1).1 = [0x41, 0x00] ∧
      (chr_read 9 0 loaded).1 = defaultString ∧ ¬ KeepsOnFault (fun _ => 0x41) 2 1 loaded := by
  have incomplete : Incomplete 2 1 := Nat.one_pos
  refine ⟨incomplete, by decide, by decide, by decide, fun keeps => ?_⟩
  exact absurd (keeps incomplete).1 (by decide)

/-! The bound on the length, over all calls. -/

/-- A call, with the bytes that its copy misses. -/
def faultingCall (d : Driver) : Call × Nat → Driver
  | (.write buf count, missed) => (chr_write buf count missed d).1
  | (.read _, _) => d
  | (.ioctl cmd, _) => (chr_ioctl cmd d).1

/-- The indices of char_dev_buffer that the copy of a call touches. -/
def touched (d : Driver) : Call → List Nat
  | .write _ count => List.range (count % BitVec.ofNat 32 BUFFER_SIZE).toNat
  | .read count => List.range (readLength count d).toNat
  | .ioctl _ => []

/-- The length is at most 1024, as a word and so as an int. -/
def Bounded (d : Driver) : Prop := d.char_dev_string_len.toNat ≤ 1024

theorem Bounded.toInt {d : Driver} (bounded : Bounded d) :
    d.char_dev_string_len.toInt = d.char_dev_string_len.toNat := by
  unfold Bounded at bounded
  exact BitVec.toInt_eq_toNat_of_lt (by omega)

theorem reduced_bounded (count : Word) : (count % BitVec.ofNat 32 BUFFER_SIZE).toNat ≤ 1024 := by
  rw [toNat_reduced]
  unfold BUFFER_SIZE
  omega

theorem Bounded.call {d : Driver} (bounded : Bounded d) (c : Call × Nat) : Bounded (faultingCall d c) := by
  obtain ⟨call, missed⟩ := c
  cases call with
  | write buf count => exact reduced_bounded count
  | read count => exact bounded
  | ioctl cmd =>
    simp only [faultingCall, chr_ioctl]
    split
    · exact Nat.zero_le 1024
    · exact bounded

theorem Bounded.touched {d : Driver} (bounded : Bounded d) (call : Call) : ∀ i ∈ touched d call, i ≤ 1024 := by
  intro i mem
  cases call with
  | write buf count =>
    have length := reduced_bounded count
    have below := List.mem_range.mp mem
    omega
  | read count =>
    have below := List.mem_range.mp mem
    rw [toNat_readLength] at below
    unfold Bounded at bounded
    omega
  | ioctl cmd => cases mem

/-- A call changes no byte that it does not touch. -/
theorem faultingCall_frame (d : Driver) (call : Call) (missed : Nat) {i : Nat} (apart : i ∉ touched d call) :
    (faultingCall d (call, missed)).char_dev_buffer i = d.char_dev_buffer i := by
  cases call with
  | write buf count =>
    simp only [CharDev.touched, List.mem_range, Nat.not_lt] at apart
    simp only [faultingCall, chr_write]
    split
    · rw [copy_from_user, if_neg (by omega), if_neg (by omega)]
    · rfl
  | read count => rfl
  | ioctl cmd =>
    simp only [faultingCall, chr_ioctl]
    split
    all_goals rfl

/-- A read depends on no byte that it does not touch. -/
theorem chr_read_frame {d d' : Driver} (count : Word) (missed : Nat)
    (length : d'.char_dev_string_len = d.char_dev_string_len)
    (same : ∀ i ∈ touched d (.read count), d'.char_dev_buffer i = d.char_dev_buffer i) :
    chr_read count missed d' = chr_read count missed d := by
  have clamp : readLength count d' = readLength count d := by rw [readLength, readLength, length]
  simp only [chr_read, copy_to_user, clamp, Prod.mk.injEq, and_true]
  apply List.map_congr_left
  intro i mem
  apply same i
  have inside := List.mem_range.mp mem
  exact List.mem_range.mpr (by omega)

structure Contained (d : Driver) : Prop where
  bounded : Bounded d
  beyond : ∀ i, 1024 < i → d.char_dev_buffer i = loaded.char_dev_buffer i

theorem Contained.call {d : Driver} (h : Contained d) (c : Call × Nat) : Contained (faultingCall d c) where
  bounded := h.bounded.call c
  beyond := by
    intro i outside
    have apart : i ∉ CharDev.touched d c.1 := by
      intro mem
      have inside := h.bounded.touched c.1 i mem
      omega
    rw [faultingCall_frame d c.1 c.2 apart, h.beyond i outside]

theorem contained_run (calls : List (Call × Nat)) : Contained (calls.foldl faultingCall loaded) :=
  List.foldlRecOn calls faultingCall ⟨by unfold Bounded; decide, fun _ _ => rfl⟩ fun _ h c _ => h.call c

/-- In every state that any calls lead to, the length is in bounds, every copy of a next
call stays in the buffer, and the comparison of the clamp is the one of the numbers. -/
theorem string_len_bounded (calls : List (Call × Nat)) :
    let d := calls.foldl faultingCall loaded
    (0 ≤ d.char_dev_string_len.toInt ∧ d.char_dev_string_len.toInt ≤ 1024) ∧
    (∀ call, ∀ i ∈ touched d call, i ≤ 1024) ∧
    (∀ i, 1024 < i → d.char_dev_buffer i = loaded.char_dev_buffer i) ∧
    (∀ count missed d', d'.char_dev_string_len = d.char_dev_string_len →
      (∀ i ≤ 1024, d'.char_dev_buffer i = d.char_dev_buffer i) →
      chr_read count missed d' = chr_read count missed d) ∧
    ∀ count : Word, ((readLength count d).toNat : Int) = min (count.toNat : Int) d.char_dev_string_len.toInt := by
  intro d
  have contained : Contained d := contained_run calls
  have bounded := contained.bounded
  have int := bounded.toInt
  refine ⟨?_, bounded.touched, contained.beyond, fun count missed d' length same => ?_, fun count => ?_⟩
  · unfold Bounded at bounded
    omega
  · exact chr_read_frame count missed length fun i mem => same i (bounded.touched _ i mem)
  · rw [toNat_readLength, int]
    omega

end Tiny6410.CharDev
