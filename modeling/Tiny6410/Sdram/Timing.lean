import Mathlib

/-! Delays in sdram.h of no-os/timer: NS_TO_CLOCKPERIOD turns nanoseconds into cycles of
HCLK. The period of the clock is cut down to 7 ns before it divides the delay, so the
result runs ahead of the time by 69 thousandths of a cycle for each 7 ns. -/
namespace Tiny6410.Sdram

def HCLK : Int := 133000000

def NS_TO_CLOCKPERIOD (nanosecond : Int) : Int :=
  nanosecond.tdiv ((1000000000 : Int).tdiv HCLK) + 1

/-- The cycles in a time. -/
def cycles (nanosecond : Int) : ℚ := nanosecond * HCLK / 10 ^ 9

/-- Not too short, and too long by one cycle at most. -/
def Rounded (nanosecond : Int) : Prop :=
  cycles nanosecond ≤ NS_TO_CLOCKPERIOD nanosecond ∧
  (NS_TO_CLOCKPERIOD nanosecond : ℚ) ≤ cycles nanosecond + 1

theorem NS_TO_CLOCKPERIOD_eq {ns : Int} (nonneg : 0 ≤ ns) : NS_TO_CLOCKPERIOD ns = ns / 7 + 1 := by
  have period : (1000000000 : Int).tdiv HCLK = 7 := by decide
  rw [NS_TO_CLOCKPERIOD, period, Int.tdiv_eq_ediv_of_nonneg nonneg]

theorem cycles_eq (ns : Int) : cycles ns = ((133 * ns : Int) : ℚ) / 1000 := by
  unfold cycles HCLK
  push_cast
  ring

theorem excess {ns : Int} (nonneg : 0 ≤ ns) :
    (NS_TO_CLOCKPERIOD ns : ℚ) - cycles ns = 1 + ((69 * (ns / 7) - 133 * (ns % 7) : Int) : ℚ) / 1000 := by
  have split : 133 * ns = 133 * (7 * (ns / 7) + ns % 7) := by rw [Int.mul_ediv_add_emod]
  rw [NS_TO_CLOCKPERIOD_eq nonneg, cycles_eq, split]
  push_cast
  ring

theorem not_too_short {ns : Int} (nonneg : 0 ≤ ns) : cycles ns ≤ NS_TO_CLOCKPERIOD ns := by
  have late : -1000 ≤ 69 * (ns / 7) - 133 * (ns % 7) := by omega
  have late' : (-1000 : ℚ) ≤ ((69 * (ns / 7) - 133 * (ns % 7) : Int) : ℚ) := by exact_mod_cast late
  have gap := excess nonneg
  linarith

theorem rounded_iff {ns : Int} (nonneg : 0 ≤ ns) :
    (NS_TO_CLOCKPERIOD ns : ℚ) ≤ cycles ns + 1 ↔ 69 * (ns / 7) ≤ 133 * (ns % 7) := by
  have gap := excess nonneg
  have sign : ((69 * (ns / 7) - 133 * (ns % 7) : Int) : ℚ) ≤ 0 ↔ 69 * (ns / 7) - 133 * (ns % 7) ≤ 0 :=
    Int.cast_nonpos
  constructor
  · intro within
    have early := sign.mp (by linarith)
    omega
  · intro early
    have early' := sign.mpr (by omega)
    linarith

/-- A delay is never programmed too short. It is too long by more than a cycle unless its
periods of 7 ns are fewer than twice the nanoseconds over, and so from 84 ns on. -/
theorem clock_period_rounded_iff (ns : Int) (nonneg : 0 ≤ ns) :
    cycles ns ≤ NS_TO_CLOCKPERIOD ns ∧
    (Rounded ns ↔ ns = 0 ∨ ns / 7 < 2 * (ns % 7)) ∧
    (Rounded ns → ns < 84) := by
  have same : Rounded ns ↔ 69 * (ns / 7) ≤ 133 * (ns % 7) := by
    rw [Rounded, and_iff_right (not_too_short nonneg), rounded_iff nonneg]
  refine ⟨not_too_short nonneg, ?_, ?_⟩
  · rw [same]
    omega
  · rw [same]
    omega

/-- The refresh interval is programmed as 1115 cycles, where it has 1037.4. -/
theorem refresh_overshoots : NS_TO_CLOCKPERIOD 7800 = 1115 ∧ ¬ Rounded 7800 := by
  refine ⟨by decide, fun rounded => ?_⟩
  have early := (rounded_iff (by decide)).mp rounded.2
  norm_num at early

/-- The row active time of 40 ns is one of the delays that are right. -/
theorem row_active_rounded :
    cycles 40 ≤ NS_TO_CLOCKPERIOD 40 ∧
    (Rounded 40 ↔ (40 : Int) = 0 ∨ (40 : Int) / 7 < 2 * (40 % 7)) ∧
    (Rounded 40 → (40 : Int) < 84) :=
  clock_period_rounded_iff 40 (by decide)

end Tiny6410.Sdram
