import Tiny6410.Linux.ButtonsRead
import Tiny6410.Linux.Leds

/-! The read operations of the three drivers against what read promises: no more bytes
than asked for, their number as the result, and an error if the copy to the user fails. -/
namespace Tiny6410.ReadContract

open Memory (Word)

structure Outcome where
  -- The bytes that were stored in the user buffer.
  stored : Nat
  -- What copy_to_user returned, if it was called.
  uncopied : Option Nat
  result : Int

structure Obeys (count : Nat) (o : Outcome) : Prop where
  room : o.stored ≤ count
  success : o.uncopied = some 0 → o.result = o.stored
  failure : ∀ n, o.uncopied = some n → n ≠ 0 → o.result < 0

/-- At most as many bytes as asked for can be missed. -/
def chr_read (count : Word) (missed : Nat) (d : CharDev.Driver) : Outcome where
  stored := (CharDev.chr_read count missed d).1.length
  uncopied := some (min missed (CharDev.readLength count d).toNat)
  result := (CharDev.chr_read count missed d).2

def s3c6410_leds_read (missed : Nat) (d : Leds.Driver) : Outcome where
  stored := (Leds.s3c6410_leds_read missed d).1.length
  uncopied := some (min missed 4)
  result := (Leds.s3c6410_leds_read missed d).2

def s3c6410_buttons_read (r : Buttons.Request) (d : Buttons.Device) : Outcome where
  stored := (Buttons.s3c6410_buttons_read r d).2.1.length
  uncopied := if d.action_flag = false ∧ r.nonblock = true then none else some r.failedCopyCount
  result := (Buttons.s3c6410_buttons_read r d).2.2

/-- Always 0 is the number of bytes only if there are none to deliver. -/
theorem chr_read_obeys_iff (count : Word) (missed : Nat) (d : CharDev.Driver) :
    Obeys count.toNat (chr_read count missed d) ↔
      count.toNat = 0 ∨ d.char_dev_string_len.toNat = 0 := by
  have clamp := CharDev.toNat_readLength count d
  have stored : (chr_read count missed d).stored = (CharDev.readLength count d).toNat - missed := by
    simp [chr_read, CharDev.chr_read, CharDev.copy_to_user]
  have uncopied : (chr_read count missed d).uncopied = some (min missed (CharDev.readLength count d).toNat) := rfl
  have result : (chr_read count missed d).result = 0 := rfl
  constructor
  · intro obeys
    by_cases copied : min missed (CharDev.readLength count d).toNat = 0
    · have bytes := obeys.success (by rw [uncopied, copied])
      rw [result, stored] at bytes
      omega
    · have error := obeys.failure _ uncopied copied
      rw [result] at error
      cases error
  · intro empty
    refine ⟨by omega, fun _ => by rw [result, stored]; omega, fun n found some_left => ?_⟩
    rw [uncopied, Option.some.injEq] at found
    omega

/-- Four bytes are stored and reported as none; a failure is reported, but what was
stored until then may be more than asked for. -/
theorem leds_read_obeys_iff (count missed : Nat) (d : Leds.Driver) :
    Obeys count (s3c6410_leds_read missed d) ↔ missed ≠ 0 ∧ 4 - missed ≤ count := by
  have stored : (s3c6410_leds_read missed d).stored = 4 - missed := by
    simp [s3c6410_leds_read, Leds.s3c6410_leds_read, Leds.userBytes, CharDev.copy_to_user]
  have uncopied : (s3c6410_leds_read missed d).uncopied = some (min missed 4) := rfl
  have result : (s3c6410_leds_read missed d).result = if missed ≠ 0 then -Leds.EFAULT else 0 := rfl
  constructor
  · intro obeys
    have room := obeys.room
    rw [stored] at room
    refine ⟨?_, room⟩
    rintro rfl
    have bytes := obeys.success uncopied
    rw [result, stored] at bytes
    cases bytes
  · rintro ⟨fault, room⟩
    refine ⟨by rw [stored]; exact room, fun copied => ?_, fun n _ _ => ?_⟩
    · rw [uncopied, Option.some.injEq] at copied
      omega
    · rw [result, if_pos fault]
      decide

theorem buttons_read_obeys (r : Buttons.Request) (d : Buttons.Device) :
    Obeys r.count (s3c6410_buttons_read r d) := by
  by_cases refused : d.action_flag = false ∧ r.nonblock = true
  · simp only [s3c6410_buttons_read, Buttons.s3c6410_buttons_read, if_pos refused]
    refine ⟨Nat.zero_le _, fun impossible => ?_, fun n impossible => ?_⟩
    all_goals cases impossible
  · simp only [s3c6410_buttons_read, Buttons.s3c6410_buttons_read, if_neg refused, List.length_map,
      List.length_range]
    have fewer : r.failedCopyCount ≤ r.readCount := Nat.min_le_right _ _
    have clamp : r.readCount ≤ r.count := Nat.min_le_right _ _
    refine ⟨?_, fun copied => ?_, fun n found some_left => ?_⟩
    · simp only
      omega
    · simp only [Option.some.injEq] at copied
      simp [Buttons.Request.result, copied]
    · simp only [Option.some.injEq] at found
      subst found
      simp [Buttons.Request.result, some_left, Buttons.EFAULT]

/-- Which reads of the three drivers keep the promise. -/
theorem reads_obey_iff (count : Word) (missed : Nat) (c : CharDev.Driver) (l : Leds.Driver)
    (r : Buttons.Request) (b : Buttons.Device) :
    (Obeys count.toNat (chr_read count missed c) ↔
      count.toNat = 0 ∨ c.char_dev_string_len.toNat = 0) ∧
    (Obeys count.toNat (s3c6410_leds_read missed l) ↔ missed ≠ 0 ∧ 4 - missed ≤ count.toNat) ∧
    Obeys r.count (s3c6410_buttons_read r b) :=
  ⟨chr_read_obeys_iff count missed c, leds_read_obeys_iff count.toNat missed l, buttons_read_obeys r b⟩

/-- A string is delivered and 0 returned; a LED state is stored where no byte was asked for. -/
theorem reads_break_promise :
    ¬ Obeys 9 (chr_read 9 0 CharDev.loaded) ∧ ¬ Obeys 0 (s3c6410_leds_read 0 (Leds.loaded 0 0)) := by
  refine ⟨fun obeys => ?_, fun obeys => ?_⟩
  · exact absurd (obeys.success rfl) (by decide)
  · exact absurd obeys.room (by decide)

end Tiny6410.ReadContract
