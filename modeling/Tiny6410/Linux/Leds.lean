import Mathlib
import Tiny6410.Linux.CharDev

/-! The LED drivers: the character drivers char_leds.c and char_udev_leds.c, which have
the same operations, and the misc driver leds_dev.c. The LEDs are active low on
GPKDAT[7:4], and are compared with the set of those that are on. -/
namespace Tiny6410.Leds

open Memory (Byte Word getLsbD_clear getLsbD_one getLsbD_pattern)
open CharDev (copy_to_user)
open Simulation

def EINVAL : Int := 22
def EFAULT : Int := 14

structure Driver where
  gpkcon : Word
  gpkdat : Word
  -- 0 until the first open.
  leds_status : Int
  deriving DecidableEq

def loaded (gpkcon gpkdat : Word) : Driver := ⟨gpkcon, gpkdat, 0⟩

/-- The pins as outputs, and the LEDs off. -/
def initLeds (d : Driver) : Driver :=
  { d with
    gpkcon := (d.gpkcon &&& ~~~0xFFFF0000) ||| 0x11110000
    gpkdat := d.gpkdat ||| ((0xF : Word) <<< 4) }

def s3c6410_leds_open (d : Driver) : Driver × Int :=
  if d.leds_status = 0 then ({ initLeds d with leds_status := 1 }, 0) else (d, 0)

def s3c6410_leds_close (d : Driver) : Driver × Int := (d, 0)

/-- The operator ! of C. -/
def cNot (w : Word) : Word := if w = 0 then 1 else 0

def s3c6410_leds_ioctl (cmd arg : Word) (d : Driver) : Driver × Int :=
  if cmd = 0 ∨ cmd = 1 then
    if arg > 4 then (d, -EINVAL)
    else if arg = 0 then
      let tmp := d.gpkdat
      let tmp := if cmd = 1 then tmp &&& ~~~((0xF : Word) <<< 4)
        else if cmd = 0 then tmp ||| ((0xF : Word) <<< 4) else tmp
      ({ d with gpkdat := tmp }, 0)
    else
      let tmp := d.gpkdat &&& ~~~((1 : Word) <<< (3 + arg))
      let tmp := tmp ||| (cNot cmd <<< (3 + arg))
      ({ d with gpkdat := tmp }, 0)
  else (d, -EINVAL)

/-- The bytes that reach the user, of the four of a word. -/
def userBytes (tmp : Word) (missed : Nat) : List Byte :=
  copy_to_user (fun i => tmp.extractLsb' (8 * i) 8) 4 missed

/-- The count of the call is not looked at: four bytes are copied, of which the last
ones may be missed. -/
def s3c6410_leds_read (missed : Nat) (d : Driver) : List Byte × Int :=
  let tmp := (d.gpkdat &&& ((0xF : Word) <<< 4)) >>> 4
  (userBytes tmp missed, if missed ≠ 0 then -EFAULT else 0)

inductive Call where
  | open
  | close
  | ioctl (cmd arg : Word)
  | read (missed : Nat)

inductive Response where
  | returned (n : Int)
  | reported (bytes : List Byte) (n : Int)
  deriving DecidableEq

def driverCall (d : Driver) : Call → Driver × Response
  | .open => (s3c6410_leds_open d).map id .returned
  | .close => (s3c6410_leds_close d).map id .returned
  | .ioctl cmd arg => (s3c6410_leds_ioctl cmd arg d).map id .returned
  | .read missed => (d, .reported (s3c6410_leds_read missed d).1 (s3c6410_leds_read missed d).2)

/-! The LEDs that are on. LED n of the source is element n - 1. -/

abbrev Lit := Finset (Fin 4)

/-- The LEDs that an argument stands for, all of them for 0. -/
def addressed (arg : Nat) : Lit := Finset.univ.filter fun i => arg = 0 ∨ i.val + 1 = arg

def command (cmd arg : Word) (on : Lit) : Lit × Int :=
  if arg > 4 then (on, -EINVAL)
  else if cmd = 1 then (on ∪ addressed arg.toNat, 0)
  else if cmd = 0 then (on \ addressed arg.toNat, 0)
  else (on, -EINVAL)

def unlit (on : Lit) : Word := BitVec.ofNat 32 (∑ i ∈ onᶜ, 2 ^ i.val)

def litCall (on : Lit) : Call → Lit × Response
  | .open => (on, .returned 0)
  | .close => (on, .returned 0)
  | .ioctl cmd arg => (command cmd arg on).map id .returned
  | .read missed => (on, .reported (userBytes (unlit on) missed) (if missed = 0 then 0 else -EFAULT))

/-- The registers show a set of LEDs, over the register values of the start. -/
structure Shows (start d : Driver) (on : Lit) : Prop where
  outputs : d.gpkcon = (start.gpkcon &&& ~~~0xFFFF0000) ||| 0x11110000
  leds : ∀ i : Fin 4, d.gpkdat.getLsbD (4 + i) = decide (i ∉ on)
  others : ∀ j, j < 4 ∨ 8 ≤ j → d.gpkdat.getLsbD j = start.gpkdat.getLsbD j


theorem all_bit (j : Nat) : ((0xF : Word) <<< 4).getLsbD j = decide (4 ≤ j ∧ j < 8) :=
  getLsbD_pattern (P := fun j => 4 ≤ j ∧ j < 8) (by decide) (fun _ _ => by omega) j

theorem unlit_bit (on : Lit) (j : Nat) :
    (unlit on).getLsbD j = decide (∃ i : Fin 4, i.val = j ∧ i ∉ on) := by
  have bits : ∀ on : Lit, ∀ j : Fin 32,
      (unlit on).getLsbD j = decide (∃ i : Fin 4, i.val = j.val ∧ i ∉ on) := by decide
  exact getLsbD_pattern (P := fun j => ∃ i : Fin 4, i.val = j ∧ i ∉ on) (bits on)
    (fun _ ⟨_, _, _⟩ => by omega) j

theorem one_bit {arg : Word} (v : Word) (small : v = 0 ∨ v = 1) (within : arg ≤ 4) (j : Nat) :
    (v <<< (3 + arg)).getLsbD j = decide (v = 1 ∧ j = 3 + arg.toNat) := by
  have bound : arg.toNat ≤ 4 := within
  have shift : (3 + arg).toNat = 3 + arg.toNat := by
    have fits : 3 + arg.toNat < 2 ^ 32 := by omega
    rw [BitVec.toNat_add]
    exact Nat.mod_eq_of_lt fits
  rw [BitVec.shiftLeft_eq', shift]
  rcases small with rfl | rfl
  · simp
  · rw [getLsbD_one (by omega)]
    simp

/-- What a valid command does to each bit, with or without a single LED. -/
theorem ioctl_bit {cmd arg : Word} (known : cmd = 0 ∨ cmd = 1) (within : arg ≤ 4) (d : Driver)
    (j : Nat) : (s3c6410_leds_ioctl cmd arg d).1.gpkdat.getLsbD j =
      if 4 ≤ j ∧ j < 8 ∧ (arg.toNat = 0 ∨ j = 3 + arg.toNat) then decide (cmd = 0)
      else d.gpkdat.getLsbD j := by
  have bound : arg.toNat ≤ 4 := within
  have fits : ¬ arg > 4 := BitVec.not_lt.mpr within
  rw [s3c6410_leds_ioctl, if_pos known, if_neg fits]
  by_cases every : arg = 0
  · subst every
    have zero : (0 : Word).toNat = 0 := rfl
    have apart : ¬ (0 : Word) = 1 := by decide
    rcases known with rfl | rfl
    · simp only [apart, BitVec.getLsbD_or, all_bit, zero, true_or, and_true, if_true, if_false]
      split <;> simp [*]
    · simp only [getLsbD_clear, all_bit, zero, true_or, and_true, if_true]
      split <;> simp [*]
  · have single : arg.toNat ≠ 0 := fun zero => every (BitVec.eq_of_toNat_eq zero)
    have small : cNot cmd = 0 ∨ cNot cmd = 1 := by
      rcases known with rfl | rfl <;> decide
    have value : (cNot cmd = 1) = (cmd = 0) := by
      rcases known with rfl | rfl <;> decide
    rw [if_neg every]
    simp only [BitVec.getLsbD_or, getLsbD_clear, one_bit _ small within,
      one_bit 1 (Or.inr rfl) within, value, single, false_or, true_and]
    by_cases here : j = 3 + arg.toNat
    · rw [if_pos (by omega)]
      simp [here]
    · rw [if_neg (by omega)]
      simp [here]

theorem ioctl_invalid {cmd arg : Word} (d : Driver) (bad : (cmd ≠ 0 ∧ cmd ≠ 1) ∨ 4 < arg) :
    s3c6410_leds_ioctl cmd arg d = (d, -EINVAL) := by
  rw [s3c6410_leds_ioctl]
  by_cases known : cmd = 0 ∨ cmd = 1
  · have high : 4 < arg := by
      rcases bad with unknown | high
      · exact absurd known (not_or.mpr unknown)
      · exact high
    rw [if_pos known, if_pos high]
  · rw [if_neg known]

theorem ioctl_valid {cmd arg : Word} (known : cmd = 0 ∨ cmd = 1) (within : arg ≤ 4) (d : Driver) :
    s3c6410_leds_ioctl cmd arg d =
      ({ d with gpkdat := (s3c6410_leds_ioctl cmd arg d).1.gpkdat }, 0) := by
  have fits : ¬ arg > 4 := BitVec.not_lt.mpr within
  rw [s3c6410_leds_ioctl, if_pos known, if_neg fits]
  split <;> rfl

theorem mem_addressed {arg : Nat} {i : Fin 4} : i ∈ addressed arg ↔ arg = 0 ∨ i.val + 1 = arg := by
  simp [addressed]

theorem mem_command {cmd arg : Word} (known : cmd = 0 ∨ cmd = 1) (within : arg ≤ 4) (on : Lit)
    (i : Fin 4) : i ∈ (command cmd arg on).1 ↔
      if i ∈ addressed arg.toNat then cmd = 1 else i ∈ on := by
  rw [command, if_neg (BitVec.not_lt.mpr within)]
  have apart : ¬ (0 : Word) = 1 := by decide
  rcases known with rfl | rfl
  · rw [if_neg apart, if_pos rfl, Finset.mem_sdiff]
    split <;> simp [*]
  · rw [if_pos rfl, Finset.mem_union]
    split <;> simp [*]

theorem command_valid {cmd arg : Word} (known : cmd = 0 ∨ cmd = 1) (within : arg ≤ 4) (on : Lit) :
    (command cmd arg on).2 = 0 := by
  rw [command, if_neg (BitVec.not_lt.mpr within)]
  rcases known with rfl | rfl <;> rfl

theorem command_invalid {cmd arg : Word} (on : Lit) (bad : (cmd ≠ 0 ∧ cmd ≠ 1) ∨ 4 < arg) :
    command cmd arg on = (on, -EINVAL) := by
  rw [command]
  by_cases high : 4 < arg
  · rw [if_pos high]
  · obtain ⟨one, two⟩ := bad.resolve_right high
    rw [if_neg high, if_neg two, if_neg one]

variable {start d : Driver} {on : Lit}

theorem shows_initLeds (d : Driver) : Shows d (initLeds d) ∅ where
  outputs := rfl
  leds i := by
    have inside : 4 ≤ 4 + i.val ∧ 4 + i.val < 8 := by omega
    rw [initLeds, BitVec.getLsbD_or, all_bit, decide_eq_true inside]
    simp
  others j outside := by
    have apart : ¬ (4 ≤ j ∧ j < 8) := by omega
    rw [initLeds, BitVec.getLsbD_or, all_bit, decide_eq_false apart, Bool.or_false]

theorem shows_valid {cmd arg : Word} (shown : Shows start d on) (known : cmd = 0 ∨ cmd = 1)
    (within : arg ≤ 4) :
    Shows start (s3c6410_leds_ioctl cmd arg d).1 (command cmd arg on).1 where
  outputs := by
    rw [ioctl_valid known within]
    exact shown.outputs
  leds i := by
    have named : (4 ≤ 4 + i.val ∧ 4 + i.val < 8 ∧ (arg.toNat = 0 ∨ 4 + i.val = 3 + arg.toNat)) ↔
        i ∈ addressed arg.toNat := by
      rw [mem_addressed]
      omega
    have lit := mem_command known within on i
    rw [ioctl_bit known within]
    by_cases member : i ∈ addressed arg.toNat
    · rw [if_pos member] at lit
      rw [if_pos (named.mpr member), decide_eq_decide, lit]
      rcases known with rfl | rfl <;> decide
    · rw [if_neg member] at lit
      rw [if_neg (fun h => member (named.mp h)), shown.leds i, decide_eq_decide, lit]
  others j outside := by
    rw [ioctl_bit known within, if_neg (by omega), shown.others j outside]

theorem shows_ioctl (shown : Shows start d on) (cmd arg : Word) :
    (s3c6410_leds_ioctl cmd arg d).2 = (command cmd arg on).2 ∧
      Shows start (s3c6410_leds_ioctl cmd arg d).1 (command cmd arg on).1 := by
  by_cases valid : (cmd = 0 ∨ cmd = 1) ∧ arg ≤ 4
  · obtain ⟨known, within⟩ := valid
    refine ⟨?_, shows_valid shown known within⟩
    rw [ioctl_valid known within, command_valid known within]
  · have bad : (cmd ≠ 0 ∧ cmd ≠ 1) ∨ 4 < arg := by
      rw [not_and_or, not_or, BitVec.not_le] at valid
      exact valid
    rw [ioctl_invalid d bad, command_invalid on bad]
    exact ⟨rfl, shown⟩

theorem unlit_read (shown : Shows start d on) :
    (d.gpkdat &&& ((0xF : Word) <<< 4)) >>> 4 = unlit on := by
  apply BitVec.eq_of_getLsbD_eq
  intro j within
  rw [BitVec.getLsbD_ushiftRight, BitVec.getLsbD_and, all_bit, unlit_bit]
  by_cases low : j < 4
  · rw [shown.leds ⟨j, low⟩]
    have only : (∃ i : Fin 4, i.val = j ∧ i ∉ on) ↔ (⟨j, low⟩ : Fin 4) ∉ on := by
      constructor
      · rintro ⟨i, rfl, out⟩
        exact out
      · exact fun out => ⟨_, rfl, out⟩
    have inside : 4 ≤ 4 + j ∧ 4 + j < 8 := by omega
    rw [decide_eq_true inside, Bool.and_true]
    exact (decide_eq_decide.mpr only).symm
  · have outside : ¬ (4 ≤ 4 + j ∧ 4 + j < 8) := by omega
    rw [decide_eq_false outside, Bool.and_false]
    exact (decide_eq_false fun ⟨i, here, _⟩ => by omega).symm

theorem shows_read (shown : Shows start d on) (missed : Nat) : s3c6410_leds_read missed d =
    (userBytes (unlit on) missed, if missed = 0 then 0 else -EFAULT) := by
  rw [s3c6410_leds_read, unlit_read shown, ite_not]

/-- One call, once the driver is initialised. -/
theorem call_simulates (start : Driver) : Simulates driverCall litCall
    (fun d on => d.leds_status = 1 ∧ Shows start d on) (fun _ => True) := by
  rintro d on call ⟨ready, shown⟩ -
  cases call with
  | «open» =>
    have skip : s3c6410_leds_open d = (d, 0) := if_neg (by rw [ready]; decide)
    rw [driverCall, skip]
    exact ⟨rfl, ready, shown⟩
  | close => exact ⟨rfl, ready, shown⟩
  | ioctl cmd arg =>
    obtain ⟨same, next⟩ := shows_ioctl shown cmd arg
    have kept : (s3c6410_leds_ioctl cmd arg d).1.leds_status = d.leds_status := by
      rw [s3c6410_leds_ioctl]
      split_ifs <;> rfl
    exact ⟨congrArg Response.returned same, kept.trans ready, next⟩
  | read missed =>
    rw [driverCall, shows_read shown]
    exact ⟨rfl, ready, shown⟩

theorem leds_follow_commands (gpkcon gpkdat : Word) (calls : List Call) :
    let d := after driverCall (loaded gpkcon gpkdat) (.open :: calls)
    let on := after litCall ∅ calls
    responses driverCall (loaded gpkcon gpkdat) (.open :: calls) =
        .returned 0 :: responses litCall ∅ calls ∧
      (∀ i : Fin 4, d.gpkdat.getLsbD (4 + i) = decide (i ∉ on)) ∧
      (∀ j, j < 4 ∨ 8 ≤ j → d.gpkdat.getLsbD j = gpkdat.getLsbD j) ∧
      (∀ cmd arg, (cmd ≠ 0 ∧ cmd ≠ 1) ∨ 4 < arg →
        s3c6410_leds_ioctl cmd arg d = (d, -EINVAL)) ∧
      s3c6410_leds_read 0 d = (userBytes (unlit on) 0, 0) := by
  have shown := shows_initLeds (loaded gpkcon gpkdat)
  obtain ⟨same, -, final⟩ := (call_simulates (loaded gpkcon gpkdat)).run calls (t := (∅ : Lit))
    (s := { initLeds (loaded gpkcon gpkdat) with leds_status := 1 })
    ⟨rfl, shown.outputs, shown.leds, shown.others⟩
  refine ⟨congrArg _ same, final.leds, final.others, ?_, shows_read final 0⟩
  exact fun cmd arg bad => ioctl_invalid _ bad

/-- The misc driver initialises the LEDs when it is loaded, and has no open and no
read. -/
def miscLoaded (gpkcon gpkdat : Word) : Driver := initLeds (loaded gpkcon gpkdat)

theorem misc_leds_follow_commands (gpkcon gpkdat : Word) (calls : List (Word × Word)) :
    Shows (loaded gpkcon gpkdat)
      (calls.foldl (fun d c => (s3c6410_leds_ioctl c.1 c.2 d).1) (miscLoaded gpkcon gpkdat))
      (calls.foldl (fun on c => (command c.1 c.2 on).1) ∅) := by
  have keep : ∀ d on, Shows (loaded gpkcon gpkdat) d on → Shows (loaded gpkcon gpkdat)
      (calls.foldl (fun d c => (s3c6410_leds_ioctl c.1 c.2 d).1) d)
      (calls.foldl (fun on c => (command c.1 c.2 on).1) on) := by
    induction calls with
    | nil => exact fun _ _ shown => shown
    | cons c rest ih => exact fun _ _ shown => ih _ _ (shows_ioctl shown c.1 c.2).2
  exact keep _ _ (shows_initLeds _)

end Tiny6410.Leds
