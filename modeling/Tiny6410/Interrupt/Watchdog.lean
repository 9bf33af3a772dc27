import Tiny6410.Lib.Field
import Tiny6410.Lib.Memory

/-! The watchdog of no-os/watchdog. The counter WTCNT goes down to zero and is reloaded
from WTDAT, the only one of the two that watchdog_init sets. -/
namespace Tiny6410.Watchdog

open Field (Write)
open Memory (Word getLsbD_clear getLsbD_one)

/-- The count and its reload value have 16 bits. -/
structure Registers where
  wtcon : Word
  wtdat : BitVec 16
  wtcnt : BitVec 16

def watchdog_start (r : Registers) : Registers := { r with wtcon := r.wtcon ||| (1 : Word) <<< 5 }

def watchdog_stop (r : Registers) : Registers := { r with wtcon := r.wtcon &&& ~~~((1 : Word) <<< 5) }

def control (prescaler divider interrupt reset : Word) : Word :=
  (prescaler - 1) <<< 8 ||| divider <<< 3 ||| interrupt <<< 2 ||| reset <<< 0

def watchdog_init (prescaler divider wtdat interrupt reset : Word) (r : Registers) : Registers :=
  let r := { r with wtdat := wtdat.setWidth 16 }
  let r := { r with wtcon := control prescaler divider interrupt reset }
  watchdog_start r

/-- A tick of the divided clock, and whether the count reaches zero with it. -/
def tick (r : Registers) : Registers × Bool :=
  if r.wtcon.getLsbD 5 then
    if r.wtcnt - 1 = 0 then ({ r with wtcnt := r.wtdat }, true)
    else ({ r with wtcnt := r.wtcnt - 1 }, false)
  else (r, false)

/-- The cycles of PCLK to a tick. -/
def period (wtcon : Word) : Nat :=
  ((wtcon.extractLsb' 8 8).toNat + 1) * 16 <<< (wtcon.extractLsb' 3 2).toNat

inductive Event where
  | tick
  | start
  | stop

/-- A run with its enabled ticks and those of them that were timeouts. -/
structure Run where
  regs : Registers
  ticks : Nat
  timeouts : List Nat

def step (s : Run) : Event → Run
  | .tick =>
    let (regs, timeout) := tick s.regs
    let ticks := if s.regs.wtcon.getLsbD 5 then s.ticks + 1 else s.ticks
    ⟨regs, ticks, if timeout then s.timeouts ++ [ticks] else s.timeouts⟩
  | .start => { s with regs := watchdog_start s.regs }
  | .stop => { s with regs := watchdog_stop s.regs }

def run (r : Registers) (events : List Event) : Run := events.foldl step ⟨r, 0, []⟩

/-- The arguments that the comment on watchdog_init allows. -/
structure Arguments (prescaler divider wtdat interrupt reset : Word) : Prop where
  prescaler : 1 ≤ prescaler.toNat ∧ prescaler.toNat ≤ 255
  divider : divider.toNat ≤ 3
  wtdat : 1 ≤ wtdat.toNat ∧ wtdat.toNat ≤ 65535
  interrupt : interrupt.toNat ≤ 1
  reset : reset.toNat ≤ 1

/-- All timeouts are wtdat enabled ticks apart, the first one from the start, and the
ticks have the rate and WTCON the fields that were asked for. -/
structure Timely (prescaler divider wtdat interrupt reset : Word) (s : Run) : Prop where
  timeouts : s.timeouts = (List.range (s.ticks / wtdat.toNat)).map fun i => (i + 1) * wtdat.toNat
  rate : period s.regs.wtcon = prescaler.toNat * 16 <<< divider.toNat
  fields : ∀ i, i ≠ 5 → s.regs.wtcon.getLsbD i = (control prescaler divider interrupt reset).getLsbD i

/-- What start and stop leave of a register. -/
def OnlyEnable (change : Registers → Registers) : Prop :=
  ∀ r i, i ≠ 5 → (change r).wtcon.getLsbD i = r.wtcon.getLsbD i

theorem start_onlyEnable : OnlyEnable watchdog_start := by
  intro r i other
  rw [watchdog_start, BitVec.getLsbD_or, getLsbD_one (by decide), decide_eq_false other, Bool.or_false]

theorem stop_onlyEnable : OnlyEnable watchdog_stop := by
  intro r i other
  rw [watchdog_stop, getLsbD_clear, getLsbD_one (by decide), decide_eq_false other, Bool.not_false, Bool.and_true]

/-! The count -/

/-- The ticks up to the next timeout. A count of zero goes round. -/
def remaining (wtcnt : BitVec 16) : Nat := (wtcnt - 1).toNat + 1

theorem remaining_inj {a b : BitVec 16} : remaining a = remaining b ↔ a = b := by
  rw [remaining, remaining, Nat.add_right_cancel_iff, ← BitVec.toNat_eq]
  exact BitVec.sub_left_inj 1

theorem remaining_of_pos {c : BitVec 16} (some : 1 ≤ c.toNat) : remaining c = c.toNat := by
  have one : (1 : BitVec 16) ≤ c := some
  rw [remaining, BitVec.toNat_sub_of_le one]
  exact Nat.sub_add_cancel some

theorem remaining_one {c : BitVec 16} (out : c - 1 = 0) : remaining c = 1 := by
  rw [remaining, out]
  rfl

theorem remaining_pred {c : BitVec 16} (more : c - 1 ≠ 0) : remaining c = remaining (c - 1) + 1 := by
  have some : 1 ≤ (c - 1).toNat := by
    have zero : (c - 1).toNat ≠ 0 := fun zero => more (BitVec.eq_of_toNat_eq zero)
    omega
  rw [remaining_of_pos some, remaining]

/-- After some timeouts, the next one is due at first plus as many reloads. -/
structure Counting (first w : Nat) (s : Run) (m : Nat) : Prop where
  timeouts : s.timeouts = (List.range m).map fun i => first + i * w
  due : s.ticks + remaining s.regs.wtcnt = first + m * w
  within : m = 0 ∨ remaining s.regs.wtcnt ≤ w
  reload : remaining s.regs.wtdat = w

theorem step_disabled {s : Run} (disabled : s.regs.wtcon.getLsbD 5 = false) : step s .tick = s := by
  unfold step tick
  rw [disabled]
  rfl

theorem step_timeout {s : Run} (enabled : s.regs.wtcon.getLsbD 5 = true) (out : s.regs.wtcnt - 1 = 0) :
    step s .tick =
      ⟨{ s.regs with wtcnt := s.regs.wtdat }, s.ticks + 1, s.timeouts ++ [s.ticks + 1]⟩ := by
  unfold step tick
  simp only [enabled, out, if_true]

theorem step_count {s : Run} (enabled : s.regs.wtcon.getLsbD 5 = true) (more : s.regs.wtcnt - 1 ≠ 0) :
    step s .tick = ⟨{ s.regs with wtcnt := s.regs.wtcnt - 1 }, s.ticks + 1, s.timeouts⟩ := by
  unfold step tick
  simp only [enabled, more, if_true, if_false, Bool.false_eq_true]

theorem Counting.step {first w m : Nat} {s : Run} (counting : Counting first w s m) (e : Event) :
    ∃ m, Counting first w (step s e) m := by
  obtain ⟨timeouts, due, within, reload⟩ := counting
  cases e with
  | start => exact ⟨m, timeouts, due, within, reload⟩
  | stop => exact ⟨m, timeouts, due, within, reload⟩
  | tick =>
    cases enabled : s.regs.wtcon.getLsbD 5 with
    | false =>
      rw [step_disabled enabled]
      exact ⟨m, timeouts, due, within, reload⟩
    | true =>
      by_cases out : s.regs.wtcnt - 1 = 0
      · have last := remaining_one out
        have now : s.ticks + 1 = first + m * w := by omega
        rw [step_timeout enabled out]
        refine ⟨m + 1, ?_, ?_, .inr (Nat.le_of_eq reload), reload⟩
        · rw [timeouts, List.range_succ, List.map_append, now]
          rfl
        · rw [now, reload, Nat.succ_mul, Nat.add_assoc]
      · have next := remaining_pred out
        rw [step_count enabled out]
        exact ⟨m, timeouts, by simp only; omega, by simp only; omega, reload⟩

theorem counting_run {r : Registers} {w : Nat} (reload : remaining r.wtdat = w) (events : List Event) :
    ∃ m, Counting (remaining r.wtcnt) w (run r events) m := by
  have each : ∀ (s : Run) (m : Nat), Counting (remaining r.wtcnt) w s m →
      ∃ m, Counting (remaining r.wtcnt) w (events.foldl step s) m := by
    induction events with
    | nil => exact fun s m counting => ⟨m, counting⟩
    | cons e events ih =>
      intro s m counting
      obtain ⟨m, next⟩ := counting.step e
      exact ih _ m next
  exact each ⟨r, 0, []⟩ 0 ⟨rfl, by simp, .inl rfl, reload⟩

/-- With a first count like the others the timeouts are the multiples of the reload value. -/
theorem Counting.multiples {w m : Nat} {s : Run} (counting : Counting w w s m) :
    s.timeouts = (List.range (s.ticks / w)).map fun i => (i + 1) * w := by
  have due := counting.due
  have some : 0 < remaining s.regs.wtcnt := Nat.succ_pos _
  have passed : s.ticks / w = m := by
    apply Nat.div_eq_of_lt_le
    · have within := counting.within
      rcases within with none | within
      · rw [none, Nat.zero_mul]
        exact Nat.zero_le _
      · omega
    · rw [Nat.succ_mul]
      omega
  rw [counting.timeouts, passed]
  apply List.map_congr_left
  intro i _
  rw [Nat.succ_mul, Nat.add_comm]

/-- Otherwise the first of the two times that comes shows the difference. -/
theorem Counting.first_shows {first w m : Nat} {s : Run} (counting : Counting first w s m)
    (other : first ≠ w) (now : s.ticks = min first w) :
    s.timeouts ≠ (List.range (s.ticks / w)).map fun i => (i + 1) * w := by
  have due := counting.due
  have positive : 0 < remaining s.regs.wtcnt := Nat.succ_pos _
  intro same
  have length := congrArg List.length (counting.timeouts.symm.trans same)
  rw [List.length_map, List.length_map, List.length_range, List.length_range] at length
  rcases Nat.lt_or_gt_of_ne other with early | late
  · -- A timeout has come, where none is due.
    rw [now, Nat.min_eq_left (Nat.le_of_lt early), Nat.div_eq_of_lt early] at length
    rw [length, Nat.zero_mul, now, Nat.min_eq_left (Nat.le_of_lt early)] at due
    omega
  · -- One is due, and none has come.
    have reload : 0 < w := by
      rw [← counting.reload]
      exact Nat.succ_pos _
    rw [now, Nat.min_eq_right (Nat.le_of_lt late), Nat.div_self reload] at length
    have within := counting.within
    rw [length, Nat.one_mul, now, Nat.min_eq_right (Nat.le_of_lt late)] at due
    omega

theorem tick_enabled {s : Run} (enabled : s.regs.wtcon.getLsbD 5 = true) :
    (step s .tick).ticks = s.ticks + 1 ∧ (step s .tick).regs.wtcon = s.regs.wtcon := by
  by_cases out : s.regs.wtcnt - 1 = 0
  · rw [step_timeout enabled out]
    exact ⟨rfl, rfl⟩
  · rw [step_count enabled out]
    exact ⟨rfl, rfl⟩

theorem ticks_enabled {s : Run} (enabled : s.regs.wtcon.getLsbD 5 = true) (n : Nat) :
    ((List.replicate n Event.tick).foldl step s).ticks = s.ticks + n := by
  induction n generalizing s with
  | zero => rfl
  | succ n ih =>
    obtain ⟨counted, kept⟩ := tick_enabled enabled
    rw [List.replicate_succ, List.foldl_cons, ih (by rw [kept]; exact enabled), counted, Nat.add_assoc,
      Nat.add_comm 1]

/-! The fields of WTCON -/

theorem step_wtcon (s : Run) (e : Event) {i : Nat} (other : i ≠ 5) :
    (step s e).regs.wtcon.getLsbD i = s.regs.wtcon.getLsbD i := by
  cases e with
  | start => exact start_onlyEnable s.regs i other
  | stop => exact stop_onlyEnable s.regs i other
  | tick =>
    cases enabled : s.regs.wtcon.getLsbD 5 with
    | false => rw [step_disabled enabled]
    | true => rw [(tick_enabled enabled).2]

theorem run_wtcon (r : Registers) (events : List Event) {i : Nat} (other : i ≠ 5) :
    (run r events).regs.wtcon.getLsbD i = r.wtcon.getLsbD i := by
  have each : ∀ s : Run, (events.foldl step s).regs.wtcon.getLsbD i = s.regs.wtcon.getLsbD i := by
    induction events with
    | nil => exact fun _ => rfl
    | cons e events ih => exact fun s => (ih _).trans (step_wtcon s e other)
  exact each ⟨r, 0, []⟩

theorem period_congr {a b : Word} (same : ∀ i, i ≠ 5 → a.getLsbD i = b.getLsbD i) : period a = period b := by
  have prescaler : a.extractLsb' 8 8 = b.extractLsb' 8 8 := by
    apply BitVec.eq_of_getLsbD_eq
    intro i _
    rw [BitVec.getLsbD_extractLsb', BitVec.getLsbD_extractLsb', same (8 + i) (by omega)]
  have divider : a.extractLsb' 3 2 = b.extractLsb' 3 2 := by
    apply BitVec.eq_of_getLsbD_eq
    intro i within
    rw [BitVec.getLsbD_extractLsb', BitVec.getLsbD_extractLsb', same (3 + i) (by omega)]
  rw [period, period, prescaler, divider]

section Init

variable {prescaler divider wtdat interrupt reset : Word}
  (arguments : Arguments prescaler divider wtdat interrupt reset)
include arguments

theorem period_control : period (control prescaler divider interrupt reset) = prescaler.toNat * 16 <<< divider.toNat := by
  have one : (1 : Word) ≤ prescaler := arguments.prescaler.1
  have before : (prescaler - 1).toNat = prescaler.toNat - 1 := BitVec.toNat_sub_of_le one
  have small : (prescaler - 1).toNat < 2 ^ 8 := by
    have high := arguments.prescaler.2
    omega
  have known : divider.toNat < 2 ^ 2 := Nat.lt_of_le_of_lt arguments.divider (by decide)
  have flag : interrupt.toNat < 2 ^ 1 := Nat.lt_of_le_of_lt arguments.interrupt (by decide)
  have flag' : reset.toNat < 2 ^ 1 := Nat.lt_of_le_of_lt arguments.reset (by decide)
  have prescaler_bits : ∀ {j}, ¬ (8 ≤ j ∧ j < 16) → ((prescaler - 1) <<< 8).getLsbD j = false :=
    Write.shift_outside (by decide) small
  have divider_bits : ∀ {j}, ¬ (3 ≤ j ∧ j < 5) → (divider <<< 3).getLsbD j = false :=
    Write.shift_outside (by decide) known
  have interrupt_bits : ∀ {j}, ¬ (2 ≤ j ∧ j < 3) → (interrupt <<< 2).getLsbD j = false :=
    Write.shift_outside (by decide) flag
  have reset_bits : ∀ {j}, ¬ (0 ≤ j ∧ j < 1) → (reset <<< 0).getLsbD j = false :=
    Write.shift_outside (by decide) flag'
  have value : ((control prescaler divider interrupt reset).extractLsb' 8 8).toNat = prescaler.toNat - 1 := by
    have shape : control prescaler divider interrupt reset =
        (divider <<< 3 ||| interrupt <<< 2 ||| reset <<< 0) ||| (prescaler - 1) <<< 8 := by
      simp only [control, BitVec.or_assoc, BitVec.or_comm ((prescaler - 1) <<< 8)]
    rw [shape, ← before]
    apply Write.or_field (by decide) small
    intro j low high
    rw [BitVec.getLsbD_or, BitVec.getLsbD_or, divider_bits (by omega), interrupt_bits (by omega),
      reset_bits (by omega)]
    rfl
  have factor : ((control prescaler divider interrupt reset).extractLsb' 3 2).toNat = divider.toNat := by
    have shape : control prescaler divider interrupt reset =
        ((prescaler - 1) <<< 8 ||| interrupt <<< 2 ||| reset <<< 0) ||| divider <<< 3 := by
      simp only [control, BitVec.or_assoc, BitVec.or_comm (divider <<< 3)]
    rw [shape]
    apply Write.or_field (by decide) known
    intro j low high
    rw [BitVec.getLsbD_or, BitVec.getLsbD_or, prescaler_bits (by omega), interrupt_bits (by omega),
      reset_bits (by omega)]
    rfl
  rw [period, value, factor, Nat.sub_add_cancel arguments.prescaler.1]

variable (r : Registers)

omit arguments in
theorem init_enabled : (watchdog_init prescaler divider wtdat interrupt reset r).wtcon.getLsbD 5 = true := by
  rw [watchdog_init, watchdog_start, BitVec.getLsbD_or, getLsbD_one (by decide), decide_eq_true rfl, Bool.or_true]

omit arguments in
theorem init_wtcon {i : Nat} (other : i ≠ 5) :
    (watchdog_init prescaler divider wtdat interrupt reset r).wtcon.getLsbD i =
      (control prescaler divider interrupt reset).getLsbD i :=
  start_onlyEnable _ i other

omit arguments in
theorem init_wtcnt : (watchdog_init prescaler divider wtdat interrupt reset r).wtcnt = r.wtcnt := rfl

theorem init_reload : remaining (watchdog_init prescaler divider wtdat interrupt reset r).wtdat = wtdat.toNat := by
  have low := arguments.wtdat.1
  have high := arguments.wtdat.2
  have kept : (wtdat.setWidth 16).toNat = wtdat.toNat := by
    rw [BitVec.toNat_setWidth, Nat.mod_eq_of_lt (by omega)]
  have value : remaining (wtdat.setWidth 16) = (wtdat.setWidth 16).toNat := remaining_of_pos (by omega)
  exact value.trans kept

/-- A run is timely if WTCNT held the reload value already. -/
theorem timely_of_loaded (loaded : r.wtcnt = wtdat.setWidth 16) (events : List Event) :
    Timely prescaler divider wtdat interrupt reset
      (run (watchdog_init prescaler divider wtdat interrupt reset r) events) := by
  have reload := init_reload arguments r
  have first : remaining r.wtcnt = wtdat.toNat := by
    rw [loaded]
    exact reload
  obtain ⟨m, counting⟩ := counting_run reload events
  have fields : ∀ i, i ≠ 5 →
      (run (watchdog_init prescaler divider wtdat interrupt reset r) events).regs.wtcon.getLsbD i =
        (control prescaler divider interrupt reset).getLsbD i :=
    fun i other => (run_wtcon _ events other).trans (init_wtcon r other)
  constructor
  case timeouts =>
    rw [init_wtcnt, first] at counting
    exact counting.multiples
  case rate => rw [period_congr fields, period_control arguments]
  case fields => exact fields

theorem loaded_of_timely
    (timely : ∀ events, Timely prescaler divider wtdat interrupt reset
      (run (watchdog_init prescaler divider wtdat interrupt reset r) events)) :
    r.wtcnt = wtdat.setWidth 16 := by
  have reload := init_reload arguments r
  by_contra unloaded
  have other : remaining r.wtcnt ≠ wtdat.toNat := by
    rw [← reload]
    exact fun same => unloaded (remaining_inj.mp same)
  let events := List.replicate (min (remaining r.wtcnt) wtdat.toNat) Event.tick
  obtain ⟨m, counting⟩ := counting_run reload events
  have now : (run (watchdog_init prescaler divider wtdat interrupt reset r) events).ticks =
      min (remaining r.wtcnt) wtdat.toNat := by
    have counted := ticks_enabled
      (s := ⟨watchdog_init prescaler divider wtdat interrupt reset r, 0, []⟩) (init_enabled r)
      (min (remaining r.wtcnt) wtdat.toNat)
    exact counted.trans (Nat.zero_add _)
  rw [init_wtcnt] at counting
  exact counting.first_shows other now (timely events).timeouts

end Init

/-- After watchdog_init every timeout comes after wtdat enabled ticks, over all starts and
stops, if and only if WTCNT held wtdat before it. -/
theorem watchdog_timely_iff (prescaler divider wtdat interrupt reset : Word) (r : Registers)
    (arguments : Arguments prescaler divider wtdat interrupt reset) :
    ((∀ events, Timely prescaler divider wtdat interrupt reset
        (run (watchdog_init prescaler divider wtdat interrupt reset r) events)) ∧
      OnlyEnable watchdog_start ∧ OnlyEnable watchdog_stop) ↔
    r.wtcnt = wtdat.setWidth 16 := by
  constructor
  · rintro ⟨timely, -⟩
    exact loaded_of_timely arguments r timely
  · intro loaded
    exact ⟨timely_of_loaded arguments r loaded, start_onlyEnable, stop_onlyEnable⟩

/-- The call of the comment on watchdog_init, over a count that is already loaded. -/
theorem loaded_watchdog_timely :
    ((∀ events, Timely 66 0 62500 1 0 (run (watchdog_init 66 0 62500 1 0 ⟨0, 0, 62500⟩) events)) ∧
      OnlyEnable watchdog_start ∧ OnlyEnable watchdog_stop) ↔
    (62500 : BitVec 16) = (62500 : Word).setWidth 16 :=
  watchdog_timely_iff 66 0 62500 1 0 ⟨0, 0, 62500⟩
    ⟨by decide, by decide, by decide, by decide, by decide⟩

/-- Over a count of 3, a period of 5 ticks starts with a timeout after 3. -/
theorem leftover_count_times_out :
    (run (watchdog_init 66 0 5 1 0 ⟨0, 0, 3⟩) [.tick, .tick, .tick]).timeouts = [3] ∧
    ¬ Timely 66 0 5 1 0 (run (watchdog_init 66 0 5 1 0 ⟨0, 0, 3⟩) [.tick, .tick, .tick]) := by
  refine ⟨by decide, fun timely => ?_⟩
  exact absurd timely.timeouts (by decide)

end Tiny6410.Watchdog
