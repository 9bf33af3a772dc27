import Mathlib

/-! The divisor of the baud rate in no-os/timer: UBRDIV0 has its whole part, and the ones
of UDIVSLOT0 its sixteenths. Both come from UART0_DIV_VAL, which is an integer. -/
namespace Tiny6410.Uart

def UDIVSLOT_LIST : List (BitVec 16) :=
  [0x0000, 0x0080, 0x0808, 0x0888,
    0x2222, 0x4924, 0x4A52, 0x54AA,
    0x5555, 0xD555, 0xD5D5, 0xDDD5,
    0xDDDD, 0xDFDD, 0xDFDF, 0xFFDF]

section Macros

variable (UART0_CLK UART0_BAUDRATE : Int)

def UART0_DIV_VAL : Int := UART0_CLK.tdiv (UART0_BAUDRATE * 16) - 1

def UART0_UBRDIV0 : Int := UART0_DIV_VAL UART0_CLK UART0_BAUDRATE

def UART0_UDIVSLOT_NUM : Int :=
  (UART0_DIV_VAL UART0_CLK UART0_BAUDRATE - UART0_UBRDIV0 UART0_CLK UART0_BAUDRATE) * 16

end Macros

structure Divisor where
  ubrdiv0 : BitVec 16
  udivslot0 : BitVec 16

def UART0_Set_BaudRate (clock baud : Int) : Divisor :=
  ⟨BitVec.ofInt 16 (UART0_UBRDIV0 clock baud), UDIVSLOT_LIST.getD (UART0_UDIVSLOT_NUM clock baud).toNat 0⟩

def ones (v : BitVec 16) : Nat := (List.range 16).countP v.getLsbD

def Divisor.effective (d : Divisor) : ℚ := d.ubrdiv0.toNat + (ones d.udivslot0 : ℚ) / 16

/-- DIV_VAL as the comment on UART0_Set_BaudRate has it. -/
def exactDivisor (clock baud : Int) : ℚ := clock / (16 * baud) - 1

/-- The index is in the table, and the divisor off by less than a sixteenth. -/
def Close (clock baud : Int) : Prop :=
  (0 ≤ UART0_UDIVSLOT_NUM clock baud ∧ UART0_UDIVSLOT_NUM clock baud ≤ 15) ∧
  |(UART0_Set_BaudRate clock baud).effective - exactDivisor clock baud| < 1 / 16

/-- Clocks and rates for which UBRDIV0 can hold the whole part. -/
structure Rates (clock baud : Int) : Prop where
  positive : 0 < baud
  slow : 16 * baud ≤ clock
  fits : clock < 65536 * (16 * baud)

theorem ones_slot : ∀ k < 16, ones (UDIVSLOT_LIST.getD k 0) = k := by decide +kernel

/-- The macro subtracts its own integer, so no fraction is left. -/
theorem slot_zero (clock baud : Int) : UART0_UDIVSLOT_NUM clock baud = 0 := by
  rw [UART0_UDIVSLOT_NUM, UART0_UBRDIV0, Int.sub_self, Int.zero_mul]

section Rates

variable {clock baud : Int} (rates : Rates clock baud)
include rates

theorem quotient_bounds : 1 ≤ clock / (16 * baud) ∧ clock / (16 * baud) ≤ 65535 := by
  have positive : 0 < 16 * baud := by
    have some := rates.positive
    omega
  constructor
  · exact (Int.le_ediv_iff_mul_le positive).mpr (by rw [Int.one_mul]; exact rates.slow)
  · exact Int.le_of_lt_add_one ((Int.ediv_lt_iff_lt_mul positive).mpr rates.fits)

theorem ubrdiv0_eq : UART0_UBRDIV0 clock baud = clock / (16 * baud) - 1 := by
  have clockPositive : 0 ≤ clock := by
    have some := rates.positive
    have slow := rates.slow
    omega
  rw [UART0_UBRDIV0, UART0_DIV_VAL, Int.tdiv_eq_ediv_of_nonneg clockPositive, Int.mul_comm baud]

theorem ubrdiv0_toNat : (((UART0_Set_BaudRate clock baud).ubrdiv0.toNat : Int)) = clock / (16 * baud) - 1 := by
  obtain ⟨low, high⟩ := quotient_bounds rates
  rw [UART0_Set_BaudRate, ubrdiv0_eq rates, BitVec.toNat_ofInt]
  have small : (clock / (16 * baud) - 1) % (2 ^ 16 : Nat) = clock / (16 * baud) - 1 :=
    Int.emod_eq_of_lt (by omega) (by omega)
  rw [small]
  omega

/-- What is left of the clock after the whole part. -/
theorem exact_eq : exactDivisor clock baud =
    ((clock / (16 * baud) - 1 : Int) : ℚ) + ((clock % (16 * baud) : Int) : ℚ) / (16 * baud) := by
  have positive : (0 : ℚ) < 16 * baud := by
    have some : (0 : ℚ) < baud := by exact_mod_cast rates.positive
    linarith
  have split : ((16 * baud * (clock / (16 * baud)) + clock % (16 * baud) : Int) : ℚ) = clock := by
    rw [Int.mul_ediv_add_emod]
  rw [exactDivisor, ← split]
  push_cast
  rw [add_div, mul_div_cancel_left₀ _ positive.ne']
  ring

theorem effective_eq : (UART0_Set_BaudRate clock baud).effective = ((clock / (16 * baud) - 1 : Int) : ℚ) := by
  have none : ones (UART0_Set_BaudRate clock baud).udivslot0 = 0 := by
    rw [UART0_Set_BaudRate, slot_zero]
    exact ones_slot 0 (by decide)
  have whole : ((UART0_Set_BaudRate clock baud).ubrdiv0.toNat : ℚ) = ((clock / (16 * baud) - 1 : Int) : ℚ) := by
    rw [← ubrdiv0_toNat rates]
    exact (Int.cast_natCast _).symm
  rw [Divisor.effective, none, whole]
  simp

/-- A remainder below k sixteenths. -/
theorem fraction_lt_iff (k : Int) :
    ((clock % (16 * baud) : Int) : ℚ) / (16 * baud) < k / 16 ↔ clock % (16 * baud) < k * baud := by
  have positive : (0 : ℚ) < baud := by exact_mod_cast rates.positive
  rw [div_lt_div_iff₀ (by linarith) (by norm_num)]
  constructor
  · intro below
    have scaled : ((clock % (16 * baud) : Int) : ℚ) < ((k * baud : Int) : ℚ) := by
      push_cast
      linarith
    exact_mod_cast scaled
  · intro below
    have scaled : ((clock % (16 * baud) : Int) : ℚ) < ((k * baud : Int) : ℚ) := by exact_mod_cast below
    push_cast at scaled
    linarith

theorem fraction_nonneg : (0 : ℚ) ≤ ((clock % (16 * baud) : Int) : ℚ) / (16 * baud) := by
  have positive : (0 : ℚ) < baud := by exact_mod_cast rates.positive
  have modulus : 16 * baud ≠ 0 := by
    have some := rates.positive
    omega
  have remainder : (0 : ℚ) ≤ ((clock % (16 * baud) : Int) : ℚ) := by exact_mod_cast Int.emod_nonneg clock modulus
  exact div_nonneg remainder (by linarith)

end Rates

/-- The table could do it: its entry for the sixteenths of the remainder is close for all
clocks and rates. -/
theorem slot_of_remainder_close (clock baud : Int) (rates : Rates clock baud) :
    ∃ k < 16, |((clock / (16 * baud) - 1 : Int) : ℚ) + (ones (UDIVSLOT_LIST.getD k 0) : ℚ) / 16 -
      exactDivisor clock baud| < 1 / 16 := by
  have some := rates.positive
  have positive : (0 : ℚ) < baud := by exact_mod_cast some
  have modulus : 16 * baud ≠ 0 := by omega
  have low := Int.emod_nonneg clock modulus
  have high := Int.emod_lt_of_pos clock (show 0 < 16 * baud by omega)
  obtain ⟨k, slot⟩ := Int.eq_ofNat_of_zero_le (Int.ediv_nonneg low (Int.le_of_lt some))
  have below : k < 16 := by
    have quotient : clock % (16 * baud) / baud < 16 := (Int.ediv_lt_iff_lt_mul some).mpr high
    omega
  have from_k : k * baud ≤ clock % (16 * baud) := by
    rw [← slot]
    exact Int.ediv_mul_le _ (by omega)
  have to_next : clock % (16 * baud) < (k + 1 : Int) * baud := by
    rw [← slot]
    exact Int.lt_ediv_add_one_mul_self _ some
  have less := (fraction_lt_iff rates (k + 1)).mpr to_next
  have least : (k : ℚ) / 16 ≤ ((clock % (16 * baud) : Int) : ℚ) / (16 * baud) := by
    have not_less : ¬ clock % (16 * baud) < (k : Int) * baud := Int.not_lt.mpr from_k
    rw [← fraction_lt_iff rates k, not_lt, Int.cast_natCast] at not_less
    exact not_less
  refine ⟨k, below, ?_⟩
  rw [ones_slot k below, exact_eq rates, abs_lt]
  push_cast at less
  constructor
  · linarith
  · linarith

theorem close_iff_fraction {clock baud : Int} (rates : Rates clock baud) :
    Close clock baud ↔ ((clock % (16 * baud) : Int) : ℚ) / (16 * baud) < 1 / 16 := by
  have gap : (UART0_Set_BaudRate clock baud).effective - exactDivisor clock baud =
      -(((clock % (16 * baud) : Int) : ℚ) / (16 * baud)) := by
    rw [effective_eq rates, exact_eq rates]
    ring
  have index : 0 ≤ UART0_UDIVSLOT_NUM clock baud ∧ UART0_UDIVSLOT_NUM clock baud ≤ 15 := by
    rw [slot_zero]
    decide
  rw [Close, and_iff_right index, gap, abs_neg, abs_of_nonneg (fraction_nonneg rates)]

/-- The divisor is close exactly if less than a sixteenth is cut off, for the number of
ones in UDIVSLOT0 is always zero. -/
theorem baud_rate_close_iff (clock baud : Int) (rates : Rates clock baud) :
    Close clock baud ↔ clock % (16 * baud) < baud := by
  have sixteenth := fraction_lt_iff rates 1
  rw [Int.cast_one, Int.one_mul] at sixteenth
  rw [close_iff_fraction rates, sixteenth]

/-- The clock is sixteen times the rate. At 9600 baud from 66.5 MHz the rest is too large. -/
theorem whole_divisor_close : Close 16000 1000 ∧ ¬ Close 66500000 9600 :=
  ⟨(baud_rate_close_iff 16000 1000 ⟨by decide, by decide, by decide⟩).mpr (by decide),
    (baud_rate_close_iff 66500000 9600 ⟨by decide, by decide, by decide⟩).not.mpr (by decide)⟩

/-- The rate that is configured is not close: 35.08 is programmed as 35. -/
theorem configured_rate_not_close : ¬ Close 66500000 115200 := by
  have rates : Rates 66500000 115200 := ⟨by decide, by decide, by decide⟩
  have rest : (66500000 : Int) % (16 * 115200) = 144800 := by decide
  rw [close_iff_fraction rates, rest]
  norm_num

end Tiny6410.Uart
