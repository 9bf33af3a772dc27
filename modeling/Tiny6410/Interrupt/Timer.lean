import Tiny6410.Lib.Simulation
import Tiny6410.Interrupt.LedRace

/-! The PWM timers of no-os/timer. TINT_CSTAT keeps the enable bits of the five timers and
their pending bits, which a store of ones clears, and both functions that touch it load
the register, set a bit and store it back. -/
namespace Tiny6410.Timer

open Simulation
open Memory (Word getLsbD_clear getLsbD_one getLsbD_pattern)

structure Registers where
  tcfg0 : Word
  tcfg1 : Word
  tcon : Word
  tcntb0 : Word
  tcmpb0 : Word
  tint_cstat : Word
  gpkdat : Word
  vic0address : Word
  my_led_flag : Word

/-- A store: [4:0] take the value, ones clear the status bits [9:5]. -/
def writeTINT_CSTAT (old v : Word) : Word :=
  (old &&& ~~~0x1f &&& ~~~(v &&& 0x3e0)) ||| (v &&& 0x1f)

/-- The timer reaches zero. -/
def expire (r : Registers) (k : Fin 5) : Registers :=
  { r with tint_cstat := r.tint_cstat ||| (1 : Word) <<< (5 + k.val) }

/-- The load of TINT_CSTAT, the timers that expire before the store, and the store. -/
def setTINT_CSTAT (bits : Word) (during : List (Fin 5)) (r : Registers) : Registers :=
  let temp_data := r.tint_cstat ||| bits
  let r := during.foldl expire r
  { r with tint_cstat := writeTINT_CSTAT r.tint_cstat temp_data }

def timer_init (timer_id prescaler divider tcntbn tcmpbn : Word) (during : List (Fin 5))
    (r : Registers) : Registers :=
  let temp_data := r.tcfg0
  let temp_data := (temp_data &&& ~~~(0xff : Word)) ||| ((prescaler - 1) <<< 0)
  let r := { r with tcfg0 := temp_data }
  let temp_data := r.tcfg1
  let temp_data := (temp_data &&& ~~~((0xf : Word) <<< (4 * timer_id))) ||| (divider <<< (4 * timer_id))
  let temp_data := temp_data &&& ~~~((0xf : Word) <<< 20)
  let r := { r with tcfg1 := temp_data, tcntb0 := tcntbn, tcmpb0 := tcmpbn }
  let r := { r with tcon := r.tcon ||| (1 : Word) <<< 1 }
  let r := { r with tcon := r.tcon &&& ~~~((1 : Word) <<< 1) }
  let r := { r with tcon := r.tcon ||| ((1 : Word) <<< 0 ||| (1 : Word) <<< 3) }
  setTINT_CSTAT ((1 : Word) <<< timer_id) during r

def timer0_irq_handler (during : List (Fin 5)) (r : Registers) : Registers :=
  let my_led_flag := (r.my_led_flag + 1) % 2
  let leds := if my_led_flag = 1 then LedRace.leds_ON 1 else LedRace.leds_OFF 1
  let r := { r with
    my_led_flag := my_led_flag
    gpkdat := leds.foldl (fun gpkdat c => c.apply gpkdat) r.gpkdat }
  let r := setTINT_CSTAT ((1 : Word) <<< 5) during r
  { r with vic0address := 0 }

inductive Event where
  | expire (k : Fin 5)
  | init (timer_id prescaler divider tcntbn tcmpbn : Word) (during : List (Fin 5))
  | handler (during : List (Fin 5))

def step (r : Registers) : Event → Registers
  | .expire k => expire r k
  | .init timer_id prescaler divider tcntbn tcmpbn during =>
    timer_init timer_id prescaler divider tcntbn tcmpbn during r
  | .handler during => timer0_irq_handler during r

def run (r : Registers) (events : List Event) : Registers := events.foldl step r

def Pending (k : Fin 5) (r : Registers) : Prop := r.tint_cstat.getLsbD (5 + k.val) = true

instance (k : Fin 5) (r : Registers) : Decidable (Pending k r) := inferInstanceAs (Decidable (_ = _))

/-- What an event may do to the status of the timers: the start of a timer clears no
pending bit, and the handler only that of timer 0, without a change of the enable bits. -/
def Keeps (r : Registers) : Event → Prop
  | .expire _ => True
  | .init timer_id prescaler divider tcntbn tcmpbn during =>
    ∀ k, Pending k r ∨ k ∈ during →
      Pending k (timer_init timer_id prescaler divider tcntbn tcmpbn during r)
  | .handler during =>
    (∀ k, k ≠ 0 → (Pending k r ∨ k ∈ during) → Pending k (timer0_irq_handler during r)) ∧
    ¬ Pending 0 (timer0_irq_handler during r) ∧
    ∀ i < 5, (timer0_irq_handler during r).tint_cstat.getLsbD i = r.tint_cstat.getLsbD i

/-- No bit is loaded as pending that the store would clear. -/
def Quiet (r : Registers) : Event → Prop
  | .expire _ => True
  | .init timer_id _ _ _ _ during => (∀ k, ¬ Pending k r) ∧ ∀ k ∈ during, timer_id.toNat ≠ 5 + k.val
  | .handler _ => ∀ k, k ≠ 0 → ¬ Pending k r

theorem enables_bit (j : Nat) : (0x1f : Word).getLsbD j = decide (j < 5) :=
  getLsbD_pattern (P := fun j => j < 5) (by decide) (fun _ _ => by omega) j

theorem status_bit (j : Nat) : (0x3e0 : Word).getLsbD j = decide (5 ≤ j ∧ j < 10) :=
  getLsbD_pattern (P := fun j => 5 ≤ j ∧ j < 10) (by decide) (fun _ _ => by omega) j

theorem write_enable (old v : Word) {j : Nat} (enable : j < 5) :
    (writeTINT_CSTAT old v).getLsbD j = v.getLsbD j := by
  have here := enables_bit j
  have elsewhere := status_bit j
  rw [writeTINT_CSTAT, BitVec.getLsbD_or, getLsbD_clear, getLsbD_clear, BitVec.getLsbD_and,
    BitVec.getLsbD_and, here, elsewhere]
  simp [enable]

theorem write_status (old v : Word) (k : Fin 5) :
    (writeTINT_CSTAT old v).getLsbD (5 + k) = (old.getLsbD (5 + k) && !v.getLsbD (5 + k)) := by
  have here := status_bit (5 + k)
  have elsewhere := enables_bit (5 + k)
  have bound : 5 + k.val < 10 := by omega
  rw [writeTINT_CSTAT, BitVec.getLsbD_or, getLsbD_clear, getLsbD_clear, BitVec.getLsbD_and,
    BitVec.getLsbD_and, here, elsewhere]
  simp [bound]

theorem expire_bit (r : Registers) (k : Fin 5) (j : Nat) :
    (expire r k).tint_cstat.getLsbD j = (r.tint_cstat.getLsbD j || decide (j = 5 + k.val)) := by
  rw [expire, BitVec.getLsbD_or, getLsbD_one (by omega)]

theorem expire_pending (r : Registers) (j k : Fin 5) : Pending k (expire r j) ↔ Pending k r ∨ k = j := by
  rw [Pending, expire_bit, Bool.or_eq_true, decide_eq_true_eq, Nat.add_left_cancel_iff, Fin.val_inj,
    Pending]

theorem expired_pending (r : Registers) (during : List (Fin 5)) (k : Fin 5) :
    Pending k (during.foldl expire r) ↔ Pending k r ∨ k ∈ during := by
  induction during generalizing r with
  | nil => simp
  | cons j during ih => rw [List.foldl_cons, ih, expire_pending, List.mem_cons, or_assoc]

theorem setTINT_CSTAT_pending (bits : Word) (during : List (Fin 5)) (r : Registers) (k : Fin 5) :
    Pending k (setTINT_CSTAT bits during r) ↔
      (Pending k r ∨ k ∈ during) ∧ ¬ Pending k r ∧ bits.getLsbD (5 + k) = false := by
  have expired := expired_pending r during k
  unfold Pending at expired ⊢
  simp only [setTINT_CSTAT, write_status, Bool.and_eq_true, expired, BitVec.getLsbD_or,
    Bool.not_eq_true', Bool.or_eq_false_iff, Bool.not_eq_true]

theorem setTINT_CSTAT_enable (bits : Word) (during : List (Fin 5)) (r : Registers) {i : Nat} (enable : i < 5) :
    (setTINT_CSTAT bits during r).tint_cstat.getLsbD i = (r.tint_cstat.getLsbD i || bits.getLsbD i) := by
  rw [setTINT_CSTAT, write_enable _ _ enable, BitVec.getLsbD_or]

/-- The store keeps a status bit that is set by then exactly if it was not loaded as set,
and is not the one to be set. -/
theorem setTINT_CSTAT_keeps_iff (bits : Word) (during : List (Fin 5)) (r : Registers) (k : Fin 5) :
    (Pending k r ∨ k ∈ during → Pending k (setTINT_CSTAT bits during r)) ↔
      ¬ Pending k r ∧ (k ∈ during → bits.getLsbD (5 + k) = false) := by
  rw [setTINT_CSTAT_pending]
  constructor
  · intro keeps
    have idle : ¬ Pending k r := fun pending => (keeps (.inl pending)).2.1 pending
    exact ⟨idle, fun late => (keeps (.inr late)).2.2⟩
  · rintro ⟨idle, other⟩ (pending | late)
    · exact absurd pending idle
    · exact ⟨.inr late, idle, other late⟩

theorem expired_congr {r r' : Registers} (same : r.tint_cstat = r'.tint_cstat) (during : List (Fin 5)) :
    (during.foldl expire r).tint_cstat = (during.foldl expire r').tint_cstat := by
  induction during generalizing r r' with
  | nil => exact same
  | cons k during ih => exact ih (by rw [expire, expire, same])

/-- The other registers have no part in it. -/
theorem setTINT_CSTAT_congr {r r' : Registers} (same : r.tint_cstat = r'.tint_cstat) (bits : Word)
    (during : List (Fin 5)) :
    (setTINT_CSTAT bits during r).tint_cstat = (setTINT_CSTAT bits during r').tint_cstat := by
  rw [setTINT_CSTAT, setTINT_CSTAT, same, expired_congr same during]

theorem timer_init_tint_cstat (timer_id prescaler divider tcntbn tcmpbn : Word) (during : List (Fin 5))
    (r : Registers) :
    (timer_init timer_id prescaler divider tcntbn tcmpbn during r).tint_cstat =
      (setTINT_CSTAT ((1 : Word) <<< timer_id) during r).tint_cstat := by
  unfold timer_init
  apply setTINT_CSTAT_congr
  rfl

theorem handler_tint_cstat (during : List (Fin 5)) (r : Registers) :
    (timer0_irq_handler during r).tint_cstat = (setTINT_CSTAT ((1 : Word) <<< 5) during r).tint_cstat := by
  unfold timer0_irq_handler
  apply setTINT_CSTAT_congr
  rfl

theorem pending_congr {r r' : Registers} (same : r.tint_cstat = r'.tint_cstat) (k : Fin 5) :
    Pending k r ↔ Pending k r' := by
  rw [Pending, Pending, same]

theorem timer_id_bit (timer_id : Word) {j : Nat} (small : j < 32) :
    ((1 : Word) <<< timer_id).getLsbD j = decide (timer_id.toNat = j) := by
  rw [BitVec.shiftLeft_eq']
  by_cases within : timer_id.toNat < 32
  · rw [getLsbD_one within, decide_eq_decide]
    exact eq_comm
  · rw [BitVec.shiftLeft_eq_zero (by omega), BitVec.getLsbD_zero, eq_comm, decide_eq_false_iff_not]
    omega

theorem init_keeps_iff (r : Registers) (timer_id prescaler divider tcntbn tcmpbn : Word)
    (during : List (Fin 5)) :
    Keeps r (.init timer_id prescaler divider tcntbn tcmpbn during) ↔
      Quiet r (.init timer_id prescaler divider tcntbn tcmpbn during) := by
  have each : ∀ k : Fin 5, ((1 : Word) <<< timer_id).getLsbD (5 + k) = decide (timer_id.toNat = 5 + k.val) :=
    fun k => timer_id_bit timer_id (by omega)
  simp only [Keeps, Quiet, pending_congr (timer_init_tint_cstat _ _ _ _ _ _ _), setTINT_CSTAT_keeps_iff,
    each, decide_eq_false_iff_not, forall_and, ne_eq]

theorem handler_keeps_iff (r : Registers) (during : List (Fin 5)) :
    Keeps r (.handler during) ↔ Quiet r (.handler during) := by
  have bit : ∀ j, ((1 : Word) <<< 5).getLsbD j = decide (j = 5) := getLsbD_one (by decide)
  have own : ¬ Pending 0 (timer0_irq_handler during r) := by
    rw [pending_congr (handler_tint_cstat during r), setTINT_CSTAT_pending]
    rintro ⟨-, -, unset⟩
    rw [bit] at unset
    cases unset
  have enables : ∀ i < 5, (timer0_irq_handler during r).tint_cstat.getLsbD i = r.tint_cstat.getLsbD i := by
    intro i enable
    rw [handler_tint_cstat, setTINT_CSTAT_enable _ _ _ enable, bit, decide_eq_false (by omega),
      Bool.or_false]
  have others : ∀ k : Fin 5, k ≠ 0 → ((1 : Word) <<< 5).getLsbD (5 + k) = false := by
    intro k other
    rw [bit, decide_eq_false_iff_not]
    omega
  rw [Keeps, and_iff_left ⟨own, enables⟩]
  refine forall_congr' fun k => imp_congr_right fun other => ?_
  rw [pending_congr (handler_tint_cstat during r), setTINT_CSTAT_keeps_iff]
  exact and_iff_left fun _ => others k other

theorem keeps_iff_quiet (r : Registers) (e : Event) : Keeps r e ↔ Quiet r e := by
  cases e with
  | expire k => exact Iff.rfl
  | init timer_id prescaler divider tcntbn tcmpbn during => exact init_keeps_iff r _ _ _ _ _ during
  | handler during => exact handler_keeps_iff r during

/-- The event is not the service of the timer. -/
def Foreign (k : Fin 5) : Event → Prop
  | .handler _ => k ≠ 0
  | _ => True

theorem Keeps.pending {r : Registers} {e : Event} (keeps : Keeps r e) {k : Fin 5} (foreign : Foreign k e)
    (pending : Pending k r) : Pending k (step r e) := by
  cases e with
  | expire j => exact (expire_pending r j k).mpr (.inl pending)
  | init timer_id prescaler divider tcntbn tcmpbn during => exact keeps k (.inl pending)
  | handler during => exact keeps.1 k foreign (.inl pending)

theorem pending_run {r : Registers} {events : List Event} (keeps : Along step Keeps r events) {k : Fin 5}
    (foreign : ∀ e ∈ events, Foreign k e) (pending : Pending k r) : Pending k (run r events) :=
  (keeps.and foreign).keeps pending fun _ _ before here => here.1.pending here.2 before

/-- The runs in which no event takes the status of another timer are those in which no
pending bit is loaded that the store clears. In such a run a timer that is pending stays
so up to its own handler. -/
theorem timers_keep_pending_iff (r : Registers) (events : List Event) :
    (Along step Keeps r events ↔ Along step Quiet r events) ∧
    (Along step Quiet r events → ∀ k, (∀ e ∈ events, Foreign k e) → Pending k r → Pending k (run r events)) := by
  have same : Along step Keeps r events ↔ Along step Quiet r events :=
    along_congr keeps_iff_quiet r events
  exact ⟨same, fun quiet k foreign pending => pending_run (same.mpr quiet) foreign pending⟩

/-- Timer 0 is started, expires and is served; timer 1 expires between load and store of the
handler, and stays pending. -/
def quietRun : List Event := [.init 0 66 4 62500 0 [], .expire 0, .handler [1]]

theorem timers_keep_pending_quiet :
    Along step Keeps ⟨0, 0, 0, 0, 0, 0, 0, 0, 0⟩ quietRun ∧
    ¬ Pending 0 (run ⟨0, 0, 0, 0, 0, 0, 0, 0, 0⟩ quietRun) ∧ Pending 1 (run ⟨0, 0, 0, 0, 0, 0, 0, 0, 0⟩ quietRun) := by
  refine ⟨(timers_keep_pending_iff ⟨0, 0, 0, 0, 0, 0, 0, 0, 0⟩ quietRun).1.mpr ?_, by decide, by decide⟩
  have started : Quiet ⟨0, 0, 0, 0, 0, 0, 0, 0, 0⟩ (.init 0 66 4 62500 0 []) := ⟨by decide, nofun⟩
  have served : Quiet (run ⟨0, 0, 0, 0, 0, 0, 0, 0, 0⟩ [.init 0 66 4 62500 0 [], .expire 0]) (.handler [1]) := by
    change ∀ k, k ≠ 0 → ¬ Pending k _
    decide
  exact ⟨started, trivial, served, trivial⟩

/-- All registers zero but for the status of timer 1. -/
def timer1Pending : Registers := ⟨0, 0, 0, 0, 0, 0x40, 0, 0, 0⟩

/-- Timer 1 has expired; the handler of timer 0, and a start of timer 0, take that away. -/
theorem timer1_pending_lost :
    Pending 1 timer1Pending ∧
    ¬ Pending 1 (run timer1Pending [.expire 0, .handler []]) ∧
    ¬ Pending 1 (run timer1Pending [.init 0 66 4 62500 0 []]) ∧
    ¬ Along step Keeps timer1Pending [.expire 0, .handler []] := by
  have lost : ¬ Pending 1 (run timer1Pending [.expire 0, .handler []]) := by
    decide
  refine ⟨by decide, lost, by decide, fun keeps => lost ?_⟩
  exact keeps.2.1.1 1 (by decide) (.inl (by decide))

end Tiny6410.Timer
