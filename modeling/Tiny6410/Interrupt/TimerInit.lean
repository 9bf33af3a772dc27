import Tiny6410.Lib.Field
import Tiny6410.Interrupt.Timer

/-! timer_init on the registers of all five timers. Its timer_id picks the nibble of TCFG1
and the enable bit of TINT_CSTAT, but the prescaler, the buffers and the bits of TCON that
it stores to are those of timer 0. -/
namespace Tiny6410.Timer

open Field (Write)
open Memory (Word getLsbD_clear getLsbD_one)

/-- The registers with the buffers of timers 1 to 4. -/
structure Bank where
  regs : Registers
  tcntb1 : Word
  tcmpb1 : Word
  tcntb2 : Word
  tcmpb2 : Word
  tcntb3 : Word
  tcmpb3 : Word
  tcntb4 : Word

namespace Bank

def timer_init (timer_id prescaler divider tcntbn tcmpbn : Word) (during : List (Fin 5)) (b : Bank) : Bank :=
  { b with regs := Timer.timer_init timer_id prescaler divider tcntbn tcmpbn during b.regs }

def tcntb (b : Bank) : Fin 5 → Word
  | 0 => b.regs.tcntb0
  | 1 => b.tcntb1
  | 2 => b.tcntb2
  | 3 => b.tcntb3
  | 4 => b.tcntb4

/-- Timer 4 has no compare buffer. -/
def tcmpb (b : Bank) : Fin 5 → Option Word
  | 0 => some b.regs.tcmpb0
  | 1 => some b.tcmpb1
  | 2 => some b.tcmpb2
  | 3 => some b.tcmpb3
  | 4 => none

end Bank

/-- The prescaler field of TCFG0 that a timer shares with others. -/
def group : Fin 5 → Nat
  | 0 | 1 => 0
  | 2 | 3 | 4 => 8

/-- The start bit in TCON. -/
def start : Fin 5 → Nat
  | 0 => 0
  | 1 => 8
  | 2 => 12
  | 3 => 16
  | 4 => 20

/-- The auto-reload bit, the last one of the timer in TCON. -/
def reload : Fin 5 → Nat
  | 0 => 3
  | 1 => 11
  | 2 => 15
  | 3 => 19
  | 4 => 22

/-- Timer k is set up from the arguments, and nothing of the other timers has changed. -/
structure Programmed (k : Fin 5) (prescaler divider tcntbn tcmpbn : Word) (b b' : Bank) : Prop where
  prescaler : (b'.regs.tcfg0.extractLsb' (group k) 8).toNat = prescaler.toNat - 1
  divider : (b'.regs.tcfg1.extractLsb' (4 * k) 4).toNat = divider.toNat
  count : b'.tcntb k = tcntbn
  compare : ∀ v ∈ b'.tcmpb k, v = tcmpbn
  started : b'.regs.tcon.getLsbD (start k) = true
  reloading : b'.regs.tcon.getLsbD (reload k) = true
  enabled : b'.regs.tint_cstat.getLsbD k = true
  other_group : b'.regs.tcfg0.extractLsb' (8 - group k) 8 = b.regs.tcfg0.extractLsb' (8 - group k) 8
  other_divider : ∀ j : Fin 5, j ≠ k →
    b'.regs.tcfg1.extractLsb' (4 * j) 4 = b.regs.tcfg1.extractLsb' (4 * j) 4
  other_count : ∀ j, j ≠ k → b'.tcntb j = b.tcntb j
  other_compare : ∀ j, j ≠ k → b'.tcmpb j = b.tcmpb j
  other_control : ∀ j, j ≠ k → ∀ i, start j ≤ i → i ≤ reload j →
    b'.regs.tcon.getLsbD i = b.regs.tcon.getLsbD i
  other_enable : ∀ j : Fin 5, j ≠ k → b'.regs.tint_cstat.getLsbD j = b.regs.tint_cstat.getLsbD j

/-- The arguments that the comment on timer_init allows. -/
structure Arguments (prescaler divider : Word) : Prop where
  low : 1 ≤ prescaler.toNat
  high : prescaler.toNat ≤ 255
  known : divider.toNat ≤ 5

theorem expired_eq (during : List (Fin 5)) (r : Registers) :
    during.foldl expire r = { r with tint_cstat := (during.foldl expire r).tint_cstat } := by
  induction during generalizing r with
  | nil => rfl
  | cons k during ih =>
    rw [List.foldl_cons, ih]
    rfl

theorem setTINT_CSTAT_eq (bits : Word) (during : List (Fin 5)) (r : Registers) :
    setTINT_CSTAT bits during r = { r with tint_cstat := (setTINT_CSTAT bits during r).tint_cstat } := by
  unfold setTINT_CSTAT
  rw [expired_eq]

section After

variable (timer_id prescaler divider tcntbn tcmpbn : Word) (during : List (Fin 5)) (r : Registers)

theorem timer_init_tcntb0 : (timer_init timer_id prescaler divider tcntbn tcmpbn during r).tcntb0 = tcntbn := by
  unfold timer_init
  rw [setTINT_CSTAT_eq]

theorem timer_init_tcmpb0 : (timer_init timer_id prescaler divider tcntbn tcmpbn during r).tcmpb0 = tcmpbn := by
  unfold timer_init
  rw [setTINT_CSTAT_eq]

theorem timer_init_tcfg0 (low : 1 ≤ prescaler.toNat) (small : prescaler.toNat - 1 < 2 ^ 8) :
    (timer_init timer_id prescaler divider tcntbn tcmpbn during r).tcfg0 =
      Write.apply ⟨0, 8, prescaler.toNat - 1, by decide, small⟩ r.tcfg0 := by
  have value : BitVec.ofNat 32 (prescaler.toNat - 1) = prescaler - 1 := by
    apply BitVec.eq_of_toNat_eq
    have one : (1 : Word) ≤ prescaler := low
    rw [BitVec.toNat_sub_of_le one, BitVec.toNat_ofNat, Nat.mod_eq_of_lt (by omega)]
    rfl
  have stored : (timer_init timer_id prescaler divider tcntbn tcmpbn during r).tcfg0 =
      (r.tcfg0 &&& ~~~(0xff : Word)) ||| (prescaler - 1) <<< 0 := by
    unfold timer_init
    rw [setTINT_CSTAT_eq]
  rw [stored, ← value]
  rfl

theorem timer_init_tcfg1 (k : Fin 5) (known : divider.toNat < 2 ^ 4) :
    (timer_init (BitVec.ofNat 32 k) prescaler divider tcntbn tcmpbn during r).tcfg1 =
      Write.apply ⟨20, 4, 0, by decide, by decide⟩
        (Write.apply ⟨4 * k, 4, divider.toNat, by omega, known⟩ r.tcfg1) := by
  have nibble : (4 * BitVec.ofNat 32 k.val : Word).toNat = 4 * k := by
    have four : (4 : Word).toNat = 4 := rfl
    rw [BitVec.toNat_mul, BitVec.toNat_ofNat, four]
    omega
  have value : BitVec.ofNat 32 divider.toNat = divider := by rw [BitVec.ofNat_toNat, BitVec.setWidth_eq]
  have unselected : ∀ w : Word, w &&& ~~~((0xf : Word) <<< 20) = Write.apply ⟨20, 4, 0, by decide, by decide⟩ w :=
    fun w => (Field.put_zero 20 4 w).symm
  have selected : ∀ w : Word, (w &&& ~~~((0xf : Word) <<< (4 * k.val))) ||| divider <<< (4 * k.val) =
      Write.apply ⟨4 * k, 4, divider.toNat, by omega, known⟩ w := by
    intro w
    rw [Write.apply, Field.put, value]
    rfl
  have stored : (timer_init (BitVec.ofNat 32 k) prescaler divider tcntbn tcmpbn during r).tcfg1 =
      ((r.tcfg1 &&& ~~~((0xf : Word) <<< (4 * BitVec.ofNat 32 k.val : Word))) |||
        divider <<< (4 * BitVec.ofNat 32 k.val : Word)) &&& ~~~((0xf : Word) <<< 20) := by
    unfold timer_init
    rw [setTINT_CSTAT_eq]
  rw [stored, ← unselected, ← selected, ← nibble]
  rfl

theorem timer_init_tcon (i : Nat) :
    (timer_init timer_id prescaler divider tcntbn tcmpbn during r).tcon.getLsbD i =
      (decide (i = 0 ∨ i = 3) || (r.tcon.getLsbD i && decide (i ≠ 1))) := by
  have bit : ∀ {k : Nat}, k < 32 → ((1 : Word) <<< k).getLsbD i = decide (i = k) := fun within =>
    getLsbD_one within i
  unfold timer_init
  rw [setTINT_CSTAT_eq]
  simp only [BitVec.getLsbD_or, getLsbD_clear, bit (k := 0) (by decide), bit (k := 1) (by decide),
    bit (k := 3) (by decide)]
  grind

theorem timer_init_enable (k : Fin 5) {i : Nat} (enable : i < 5) :
    (timer_init (BitVec.ofNat 32 k) prescaler divider tcntbn tcmpbn during r).tint_cstat.getLsbD i =
      (r.tint_cstat.getLsbD i || decide (k.val = i)) := by
  have number : (BitVec.ofNat 32 k.val).toNat = k := by
    rw [BitVec.toNat_ofNat, Nat.mod_eq_of_lt (by omega)]
  rw [timer_init_tint_cstat, setTINT_CSTAT_enable _ _ _ enable, timer_id_bit _ (by omega), number]

end After

/-- What timer_init does to the registers. Only the nibble and the enable bit go by k. -/
structure Effect (k : Fin 5) (prescaler divider tcntbn tcmpbn : Word) (b b' : Bank) : Prop where
  prescaler : (b'.regs.tcfg0.extractLsb' 0 8).toNat = prescaler.toNat - 1
  second_group : b'.regs.tcfg0.extractLsb' 8 8 = b.regs.tcfg0.extractLsb' 8 8
  divider : (b'.regs.tcfg1.extractLsb' (4 * k) 4).toNat = divider.toNat
  other_divider : ∀ j : Fin 5, j ≠ k →
    b'.regs.tcfg1.extractLsb' (4 * j) 4 = b.regs.tcfg1.extractLsb' (4 * j) 4
  count : b'.tcntb 0 = tcntbn
  other_count : ∀ j, j ≠ 0 → b'.tcntb j = b.tcntb j
  compare : b'.tcmpb 0 = some tcmpbn
  other_compare : ∀ j, j ≠ 0 → b'.tcmpb j = b.tcmpb j
  control : ∀ i, b'.regs.tcon.getLsbD i = (decide (i = 0 ∨ i = 3) || (b.regs.tcon.getLsbD i && decide (i ≠ 1)))
  enabled : b'.regs.tint_cstat.getLsbD k = true
  other_enable : ∀ j : Fin 5, j ≠ k → b'.regs.tint_cstat.getLsbD j = b.regs.tint_cstat.getLsbD j

theorem timer_init_effect (k : Fin 5) {prescaler divider : Word} (arguments : Arguments prescaler divider)
    (tcntbn tcmpbn : Word) (during : List (Fin 5)) (b : Bank) :
    Effect k prescaler divider tcntbn tcmpbn b
      (b.timer_init (BitVec.ofNat 32 k) prescaler divider tcntbn tcmpbn during) := by
  have low := arguments.low
  have small : prescaler.toNat - 1 < 2 ^ 8 := by
    have most := arguments.high
    omega
  have known : divider.toNat < 2 ^ 4 := Nat.lt_of_le_of_lt arguments.known (by decide)
  have tcfg0 := timer_init_tcfg0 (BitVec.ofNat 32 k) prescaler divider tcntbn tcmpbn during b.regs low small
  have tcfg1 := timer_init_tcfg1 prescaler divider tcntbn tcmpbn during b.regs k known
  have enable := fun {i} (enable : i < 5) =>
    timer_init_enable prescaler divider tcntbn tcmpbn during b.regs k enable
  constructor
  case prescaler =>
    rw [Bank.timer_init, tcfg0]
    exact Write.apply_field _ _
  case second_group =>
    rw [Bank.timer_init, tcfg0]
    exact Write.apply_apart _ _ (.inl (Nat.le_refl 8))
  case divider =>
    rw [Bank.timer_init, tcfg1, Write.apply_apart _ _ (.inr (by simp only; omega))]
    exact Write.apply_field _ _
  case other_divider =>
    intro j other
    rw [Bank.timer_init, tcfg1, Write.apply_apart _ _ (.inr (by simp only; omega))]
    exact Write.apply_apart _ _ (by simp only; omega)
  case count => exact timer_init_tcntb0 _ _ _ _ _ _ _
  case other_count =>
    intro j other
    fin_cases j
    · exact absurd rfl other
    all_goals rfl
  case compare => exact congrArg some (timer_init_tcmpb0 _ _ _ _ _ _ _)
  case other_compare =>
    intro j other
    fin_cases j
    · exact absurd rfl other
    all_goals rfl
  case control => exact fun i => timer_init_tcon _ _ _ _ _ _ _ i
  case enabled =>
    rw [Bank.timer_init, enable k.isLt]
    simp
  case other_enable =>
    intro j other
    rw [Bank.timer_init, enable j.isLt, decide_eq_false fun same => other (Fin.ext same.symm), Bool.or_false]

theorem group_cases (k : Fin 5) : group k = 0 ∨ group k = 8 := by
  revert k
  decide

theorem start_high {k : Fin 5} (other : k ≠ 0) : 8 ≤ start k ∧ 8 ≤ reload k := by
  revert k
  decide

/-- Timer k is none of those that are stored to, but it is already set up, and so is timer 0. -/
structure Already (k : Fin 5) (prescaler tcntbn tcmpbn : Word) (b : Bank) : Prop where
  prescaler : group k = 8 → (b.regs.tcfg0.extractLsb' 8 8).toNat = prescaler.toNat - 1 ∧
    (b.regs.tcfg0.extractLsb' 0 8).toNat = prescaler.toNat - 1
  count : b.tcntb k = tcntbn ∧ b.tcntb 0 = tcntbn
  compare : (∀ v ∈ b.tcmpb k, v = tcmpbn) ∧ b.tcmpb 0 = some tcmpbn
  running : b.regs.tcon.getLsbD (start k) = true ∧ b.regs.tcon.getLsbD (reload k) = true
  running0 : b.regs.tcon.getLsbD 0 = true ∧ b.regs.tcon.getLsbD 1 = false ∧ b.regs.tcon.getLsbD 3 = true

namespace Effect

variable {k : Fin 5} {prescaler divider tcntbn tcmpbn : Word} {b b' : Bank}
  (effect : Effect k prescaler divider tcntbn tcmpbn b b')
include effect

theorem control_high {i : Nat} (high : 4 ≤ i) : b'.regs.tcon.getLsbD i = b.regs.tcon.getLsbD i := by
  rw [effect.control, decide_eq_false (by omega), decide_eq_true (by omega), Bool.false_or, Bool.and_true]

theorem programs_timer0 (own : k = 0) : Programmed k prescaler divider tcntbn tcmpbn b b' := by
  subst own
  constructor
  case prescaler => exact effect.prescaler
  case divider => exact effect.divider
  case count => exact effect.count
  case compare =>
    rw [effect.compare]
    rintro v ⟨⟩
    rfl
  case started => exact effect.control 0
  case reloading => exact effect.control 3
  case enabled => exact effect.enabled
  case other_group => exact effect.second_group
  case other_divider => exact effect.other_divider
  case other_count => exact effect.other_count
  case other_compare => exact effect.other_compare
  case other_control =>
    intro j other i low _
    have high := (start_high other).1
    exact effect.control_high (by omega)
  case other_enable => exact effect.other_enable

/-- The bits of timer 0 stay as they are if it is running and not being updated. -/
theorem control_low_iff :
    (∀ i ≤ 3, b'.regs.tcon.getLsbD i = b.regs.tcon.getLsbD i) ↔
      b.regs.tcon.getLsbD 0 = true ∧ b.regs.tcon.getLsbD 1 = false ∧ b.regs.tcon.getLsbD 3 = true := by
  have set0 : b'.regs.tcon.getLsbD 0 = true := effect.control 0
  have set3 : b'.regs.tcon.getLsbD 3 = true := effect.control 3
  have clear1 : b'.regs.tcon.getLsbD 1 = false := by simpa using effect.control 1
  have kept2 : b'.regs.tcon.getLsbD 2 = b.regs.tcon.getLsbD 2 := by simpa using effect.control 2
  constructor
  · intro same
    exact ⟨(same 0 (by decide)).symm.trans set0, (same 1 (by decide)).symm.trans clear1,
      (same 3 (by decide)).symm.trans set3⟩
  · rintro ⟨was0, was1, was3⟩ i low
    have cases : i = 0 ∨ i = 1 ∨ i = 2 ∨ i = 3 := by omega
    rcases cases with rfl | rfl | rfl | rfl
    · exact set0.trans was0.symm
    · exact clear1.trans was1.symm
    · exact kept2
    · exact set3.trans was3.symm

section Other

variable (other : k ≠ 0)
include other

theorem start_kept : b'.regs.tcon.getLsbD (start k) = b.regs.tcon.getLsbD (start k) := by
  have high := (start_high other).1
  exact effect.control_high (by omega)

theorem reload_kept : b'.regs.tcon.getLsbD (reload k) = b.regs.tcon.getLsbD (reload k) := by
  have high := (start_high other).2
  exact effect.control_high (by omega)

/-- What timer k is not given it must have had, and what timer 0 is given too. -/
theorem already_of_programmed (programmed : Programmed k prescaler divider tcntbn tcmpbn b b') :
    Already k prescaler tcntbn tcmpbn b := by
  have zero : (0 : Fin 5) ≠ k := Ne.symm other
  constructor
  case prescaler =>
    intro second
    have first := effect.prescaler
    have mine := programmed.prescaler
    have kept := programmed.other_group
    rw [second, effect.second_group] at mine
    rw [second, Nat.sub_self] at kept
    exact ⟨mine, by rw [← kept]; exact first⟩
  case count =>
    exact ⟨(effect.other_count k other).symm.trans programmed.count,
      (programmed.other_count 0 zero).symm.trans effect.count⟩
  case compare =>
    have mine := programmed.compare
    rw [effect.other_compare k other] at mine
    exact ⟨mine, (programmed.other_compare 0 zero).symm.trans effect.compare⟩
  case running =>
    exact ⟨(effect.start_kept other).symm.trans programmed.started,
      (effect.reload_kept other).symm.trans programmed.reloading⟩
  case running0 =>
    exact effect.control_low_iff.mp fun i low => programmed.other_control 0 zero i (Nat.zero_le i) low

theorem programmed_of_already (already : Already k prescaler tcntbn tcmpbn b) :
    Programmed k prescaler divider tcntbn tcmpbn b b' := by
  have groups := group_cases k
  constructor
  case prescaler =>
    rcases groups with first | second
    · rw [first]
      exact effect.prescaler
    · rw [second, effect.second_group]
      exact (already.prescaler second).1
  case divider => exact effect.divider
  case count => exact (effect.other_count k other).trans already.count.1
  case compare =>
    rw [effect.other_compare k other]
    exact already.compare.1
  case started => exact (effect.start_kept other).trans already.running.1
  case reloading => exact (effect.reload_kept other).trans already.running.2
  case enabled => exact effect.enabled
  case other_group =>
    rcases groups with first | second
    · rw [first]
      exact effect.second_group
    · rw [second, Nat.sub_self]
      exact BitVec.eq_of_toNat_eq (effect.prescaler.trans (already.prescaler second).2.symm)
  case other_divider => exact effect.other_divider
  case other_count =>
    intro j apart
    by_cases first : j = 0
    · rw [first]
      exact effect.count.trans already.count.2.symm
    · exact effect.other_count j first
  case other_compare =>
    intro j apart
    by_cases first : j = 0
    · rw [first]
      exact effect.compare.trans already.compare.2.symm
    · exact effect.other_compare j first
  case other_control =>
    intro j apart i low up
    by_cases first : j = 0
    · subst first
      exact effect.control_low_iff.mpr already.running0 i up
    · have above := (start_high first).1
      exact effect.control_high (by omega)
  case other_enable => exact effect.other_enable

end Other

end Effect

/-- timer_init programs timer k, and only it, exactly if that is timer 0, or if timer k and
timer 0 are already set up and running with these values. -/
theorem timer_init_programs_iff (k : Fin 5) (prescaler divider tcntbn tcmpbn : Word)
    (during : List (Fin 5)) (b : Bank) (arguments : Arguments prescaler divider) :
    Programmed k prescaler divider tcntbn tcmpbn b
      (b.timer_init (BitVec.ofNat 32 k) prescaler divider tcntbn tcmpbn during) ↔
    k = 0 ∨ Already k prescaler tcntbn tcmpbn b := by
  have effect := timer_init_effect k arguments tcntbn tcmpbn during b
  by_cases own : k = 0
  · exact iff_of_true (effect.programs_timer0 own) (.inl own)
  · rw [or_iff_right own]
    exact ⟨effect.already_of_programmed own, effect.programmed_of_already own⟩

/-- All registers of the five timers zero. -/
def resetBank : Bank := ⟨⟨0, 0, 0, 0, 0, 0, 0, 0, 0⟩, 0, 0, 0, 0, 0, 0, 0⟩

/-- The call of the comment on timer_init, for timer 0. -/
theorem timer0_programmed :
    Programmed 0 66 4 62500 0 resetBank
      (resetBank.timer_init (BitVec.ofNat 32 (0 : Fin 5)) 66 4 62500 0 []) ↔
    (0 : Fin 5) = 0 ∨ Already 0 66 62500 0 resetBank :=
  timer_init_programs_iff 0 66 4 62500 0 [] resetBank ⟨by decide, by decide, by decide⟩

/-- The same for timer 2 starts timer 0, with the prescaler of the other group. -/
theorem timer2_not_programmed :
    ¬ Programmed 2 66 4 62500 0 resetBank
      (resetBank.timer_init (BitVec.ofNat 32 (2 : Fin 5)) 66 4 62500 0 []) := by
  intro programmed
  have idle : (resetBank.timer_init (BitVec.ofNat 32 (2 : Fin 5)) 66 4 62500 0 []).tcntb 2 = 0 := by decide
  have count := idle.symm.trans programmed.count
  exact absurd count (by decide)

end Tiny6410.Timer
