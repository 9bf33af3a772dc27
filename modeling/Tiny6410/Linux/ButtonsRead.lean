import Tiny6410.Linux.Buttons

/-! s3c6410_buttons_read as one call. The statements of the reader make up the call, and
over histories of calls and interrupts it is asked what becomes of an event. -/
namespace Tiny6410.Buttons

open Memory (Word)

/-- What ends a wait for action_flag. -/
inductive Wake where
  | event (button : Fin 4) (gpndat : Word)
  | signal

structure Request where
  nonblock : Bool
  count : Nat
  wake : Wake
  -- The bytes that copy_to_user does not reach, if it is asked for as many.
  missed : Nat

def Request.readCount (r : Request) : Nat := min 4 r.count
def Request.failedCopyCount (r : Request) : Nat := min r.missed r.readCount

/-- What the end of the function returns. -/
def Request.result (r : Request) : Int := if r.failedCopyCount ≠ 0 then -EFAULT else r.readCount

/-- The device behind the wait, if there is one. -/
def waited (r : Request) (d : Device) : Device :=
  if d.action_flag = true ∨ r.nonblock = true then d
  else match r.wake with
    | .event button gpndat => buttons_interrupt button gpndat d
    | .signal => d

/-- The device, the bytes in the user buffer and the return value. -/
def s3c6410_buttons_read (r : Request) (d : Device) : Device × List Char × Int :=
  if d.action_flag = false ∧ r.nonblock = true then (d, [], -EAGAIN)
  else
    let d := waited r d
    ({ d with action_flag := false },
      (List.range (r.readCount - r.failedCopyCount)).map (valueAt d), r.result)

/-! The call as a run of the statements, with nothing in between but what ends the wait. -/

def Wake.actions : Wake → List Action
  | .event button gpndat => [.irq button gpndat, .step]
  | .signal => [.signal]

def Request.approach (r : Request) (flag : Bool) : List Action :=
  .read r.nonblock r.count :: .step :: if flag then [] else .step :: r.wake.actions

def Request.transfer (r : Request) : List Action :=
  .step :: List.replicate (r.readCount - r.failedCopyCount) .step ++
    [if r.failedCopyCount ≠ 0 then .fault else .step]

def Request.actions (r : Request) (flag : Bool) : List Action :=
  if flag = false ∧ r.nonblock = true then [.read r.nonblock r.count, .step, .step]
  else r.approach flag ++ r.transfer

theorem run_approach {s : State} (r : Request) (idle : s.point = .idle)
    (stays : ¬ (s.dev.action_flag = false ∧ r.nonblock = true)) :
    run s (r.approach s.dev.action_flag) = { s with dev := waited r s.dev, point := .clear r.count } := by
  obtain ⟨dev, point, buff, delivered, returned⟩ := s
  cases idle
  cases flag : dev.action_flag with
  | true => simp [run, Request.approach, step, readStep, waited, flag]
  | false =>
    have blocking : r.nonblock = false := by
      simpa [flag] using stays
    cases woken : r.wake with
    | event button gpndat =>
      have raised := buttons_interrupt_raises button gpndat dev
      simp [run, Request.approach, Wake.actions, step, readStep, waited, flag, blocking, woken, raised]
    | signal =>
      simp [run, Request.approach, Wake.actions, step, readStep, waited, flag, blocking, woken]

theorem run_copies {s : State} {n i : Nat} (here : s.point = copyFrom n i) {k : Nat} (within : i + k ≤ n) :
    ∃ delivered, run s (List.replicate k .step) =
      { s with
        point := copyFrom n (i + k)
        buff := fun j => if i ≤ j ∧ j < i + k then valueAt s.dev j else s.buff j
        delivered := delivered } := by
  induction k generalizing s i with
  | zero =>
    refine ⟨s.delivered, ?_⟩
    have none : (fun j => if i ≤ j ∧ j < i + 0 then valueAt s.dev j else s.buff j) = s.buff := by
      funext j
      exact if_neg (by omega)
    rw [none, Nat.add_zero, ← here]
    rfl
  | succ k ih =>
    have copying : s.point = .copy n i := by rw [here, copyFrom, if_pos (by omega)]
    have moved : (readStep s).point = copyFrom n (i + 1) := by simp [readStep, copying]
    obtain ⟨delivered, later⟩ := ih moved (by omega)
    refine ⟨delivered, ?_⟩
    have first : run s (List.replicate (k + 1) .step) = run (readStep s) (List.replicate k .step) := rfl
    rw [first, later]
    simp only [readStep, copying, State.mk.injEq, true_and, and_true]
    refine ⟨by rw [Nat.add_assoc, Nat.add_comm 1], ?_⟩
    funext j
    by_cases same : j = i
    · subst same
      rw [if_neg (by omega), if_pos rfl, if_pos (by omega)]
    · by_cases later : i + 1 ≤ j ∧ j < i + 1 + k
      · rw [if_pos later, if_pos (by omega)]
      · rw [if_neg later, if_neg same, if_neg (by omega)]

theorem run_transfer {s : State} (r : Request) (here : s.point = .clear r.count) :
    ∃ delivered, run s r.transfer =
      { dev := { s.dev with action_flag := false }
        point := .idle
        buff := fun j => if j < r.readCount - r.failedCopyCount then valueAt s.dev j else s.buff j
        delivered := delivered
        returned := r.result :: s.returned } := by
  have fewer : r.failedCopyCount ≤ r.readCount := Nat.min_le_right _ _
  have cleared : (step s .step).point = copyFrom r.readCount 0 := by
    simp [step, readStep, here, Request.readCount]
  have dev : (step s .step).dev = { s.dev with action_flag := false } := by simp [step, readStep, here]
  have buff : (step s .step).buff = s.buff := by simp [step, readStep, here]
  have returned : (step s .step).returned = s.returned := by simp [step, readStep, here]
  obtain ⟨delivered, copied⟩ :=
    run_copies cleared (k := r.readCount - r.failedCopyCount) (by omega)
  refine ⟨delivered, ?_⟩
  have split : run s r.transfer =
      step (run (step s .step) (List.replicate (r.readCount - r.failedCopyCount) .step))
        (if r.failedCopyCount ≠ 0 then .fault else .step) := by
    simp only [run, Request.transfer, List.cons_append, List.foldl_cons, List.foldl_append, List.foldl_nil]
  have bytes : (fun j => if 0 ≤ j ∧ j < 0 + (r.readCount - r.failedCopyCount)
      then valueAt (step s .step).dev j else (step s .step).buff j) =
      fun j => if j < r.readCount - r.failedCopyCount then valueAt s.dev j else s.buff j := by
    funext j
    simp only [Nat.zero_le, true_and, Nat.zero_add, dev, buff]
    rfl
  rw [split, copied, bytes, dev, returned, Nat.zero_add]
  by_cases fails : r.failedCopyCount = 0
  · simp [fails, step, readStep, copyFrom, Request.result]
  · have short : r.readCount - r.failedCopyCount < r.readCount := by omega
    simp [fails, step, copyFrom, short, Request.result]

/-- The statements of the reader, run one after the other, are the call. -/
theorem run_call {s : State} (r : Request) (idle : s.point = .idle) :
    let s' := run s (r.actions s.dev.action_flag)
    let call := s3c6410_buttons_read r s.dev
    s'.point = .idle ∧ s'.dev = call.1 ∧ s'.returned = call.2.2 :: s.returned ∧
      ∀ i < call.2.1.length, call.2.1[i]? = some (s'.buff i) := by
  by_cases refused : s.dev.action_flag = false ∧ r.nonblock = true
  · simp [Request.actions, s3c6410_buttons_read, refused, run, step, readStep, idle]
  · obtain ⟨delivered, transferred⟩ := run_transfer (s := { s with dev := waited r s.dev, point := .clear r.count })
      r rfl
    have whole : run s (r.actions s.dev.action_flag) =
        run { s with dev := waited r s.dev, point := .clear r.count } r.transfer := by
      rw [Request.actions, if_neg refused, ← run_approach r idle refused, run, List.foldl_append]
      rfl
    simp only [s3c6410_buttons_read, if_neg refused, whole, transferred, true_and]
    intro i inside
    rw [List.length_map, List.length_range] at inside
    rw [if_pos inside, List.getElem?_map, List.getElem?_range inside]
    rfl

/-! Histories of an opened device. -/

structure History where
  dev : Device
  -- A button interrupt has come since the last successful read, or since the open.
  fresh : Bool

inductive Event where
  | irq (button : Fin 4) (gpndat : Word)
  | read (r : Request)

def Interrupted (r : Request) (d : Device) : Prop :=
  d.action_flag = false ∧ r.nonblock = false ∧ r.wake = .signal

/-- The interrupt that ends the wait of a read. -/
def woken (r : Request) (d : Device) : Bool := !d.action_flag && (waited r d).action_flag

def observe (h : History) : Event → History
  | .irq button gpndat => ⟨buttons_interrupt button gpndat h.dev, true⟩
  | .read r =>
    let call := s3c6410_buttons_read r h.dev
    ⟨call.1, if 0 ≤ call.2.2 then false else h.fresh || woken r h.dev⟩

def afterOpen (events : List Event) : History := events.foldl observe ⟨opened, false⟩

/-- A read without the full snapshot leaves the flag as it was, the interrupt that ended
its wait included. -/
def KeepsEvent (r : Request) (d : Device) : Prop :=
  let call := s3c6410_buttons_read r d
  call.2.2 = -EAGAIN ∨ call.2.2 = -EFAULT ∨ (0 ≤ call.2.2 ∧ call.2.2 < 4) ∨ Interrupted r d →
    call.1.action_flag = (waited r d).action_flag

/-- A blocking read returns a count only after an interrupt that no successful read has had. -/
def AwaitsEvent (r : Request) (h : History) : Prop :=
  r.nonblock = false → 0 ≤ (s3c6410_buttons_read r h.dev).2.2 → h.fresh = true ∨ woken r h.dev = true

def Request.Full (r : Request) : Prop := 4 ≤ r.count ∧ r.failedCopyCount = 0

theorem result_nonneg_iff (r : Request) : 0 ≤ r.result ↔ r.failedCopyCount = 0 := by
  unfold Request.result EFAULT
  split <;> omega

theorem Interrupted.down {r : Request} {d : Device} (h : Interrupted r d) :
    (waited r d).action_flag = false := by
  obtain ⟨down, blocking, signal⟩ := h
  simp [waited, down, blocking, signal]

/-- The ends of the call that leave less than the snapshot, other than by a signal. -/
theorem result_partial_iff (r : Request) :
    r.result = -EAGAIN ∨ r.result = -EFAULT ∨ (0 ≤ r.result ∧ r.result < 4) ↔ ¬ r.Full := by
  unfold Request.result Request.Full EAGAIN EFAULT
  split
  · rename_i fails
    simp [fails]
  · rename_i copied
    have count : r.readCount = min 4 r.count := rfl
    omega

theorem keepsEvent_iff (r : Request) (d : Device) :
    KeepsEvent r d ↔ ((waited r d).action_flag = true → r.Full) := by
  by_cases refused : d.action_flag = false ∧ r.nonblock = true
  · have down : (waited r d).action_flag = false := by simp [waited, refused]
    simp [KeepsEvent, s3c6410_buttons_read, refused, down]
  · simp only [KeepsEvent, s3c6410_buttons_read, if_neg refused]
    cases taken : (waited r d).action_flag with
    | false => simp
    | true =>
      have uninterrupted : ¬ Interrupted r d := fun h => by simp [h.down] at taken
      simp only [uninterrupted, or_false, result_partial_iff, Bool.false_eq_true, imp_false, not_not,
        true_imp_iff]

/-- The flag is up only for an interrupt that no successful read has had. -/
def Accounted (h : History) : Prop := h.dev.action_flag = true → h.fresh = true

theorem awaitsEvent_iff (r : Request) {h : History} (known : Accounted h) :
    AwaitsEvent r h ↔ (Interrupted r h.dev → r.failedCopyCount ≠ 0 ∨ h.fresh = true) := by
  cases flag : h.dev.action_flag with
  | true => simp [AwaitsEvent, Interrupted, known flag, flag]
  | false =>
    cases mode : r.nonblock with
    | true => simp [AwaitsEvent, Interrupted, mode]
    | false =>
      have passes : ¬ (h.dev.action_flag = false ∧ r.nonblock = true) := by simp [mode]
      cases ends : r.wake with
      | event button gpndat =>
        have raised := buttons_interrupt_raises button gpndat h.dev
        simp [AwaitsEvent, Interrupted, woken, waited, flag, mode, ends, raised]
      | signal =>
        have returns : (s3c6410_buttons_read r h.dev).2.2 = r.result := by
          rw [s3c6410_buttons_read, if_neg passes]
        have asleep : woken r h.dev = false := by simp [woken, waited, flag, mode, ends]
        by_cases copied : r.failedCopyCount = 0
        all_goals simp [AwaitsEvent, Interrupted, returns, asleep, result_nonneg_iff, flag, mode, ends, copied]

theorem Accounted.observe {h : History} (known : Accounted h) (e : Event) : Accounted (observe h e) := by
  cases e with
  | irq button gpndat => exact fun _ => rfl
  | read r =>
    simp only [Buttons.observe, s3c6410_buttons_read]
    split
    · intro up
      simp [EAGAIN, known up]
    · intro impossible
      cases impossible

theorem accounted_afterOpen (events : List Event) : Accounted (afterOpen events) :=
  List.foldlRecOn events observe (fun up => by cases up) fun _ known e _ => known.observe e

/-- Which reads treat events as they should, in any state of the opened device. -/
theorem buttons_read_events_iff (events : List Event) (r : Request) :
    let h := afterOpen events
    KeepsEvent r h.dev ∧ AwaitsEvent r h ↔
      ((waited r h.dev).action_flag = true → r.Full) ∧
      (Interrupted r h.dev → r.failedCopyCount ≠ 0 ∨ h.fresh = true) := by
  intro h
  rw [keepsEvent_iff, awaitsEvent_iff r (accounted_afterOpen events)]

/-- A press is lost to a read into memory that cannot be written, and a signal returns a
snapshot though no button was touched. -/
theorem failed_read_loses_press :
    (let d := (afterOpen [.irq 0 0]).dev
     let r : Request := ⟨false, 4, .signal, 4⟩
     d.action_flag = true ∧ (s3c6410_buttons_read r d).2.2 = -EFAULT ∧
       (s3c6410_buttons_read r d).1.action_flag = false ∧ ¬ KeepsEvent r d) ∧
    (let r : Request := ⟨false, 4, .signal, 0⟩
     (s3c6410_buttons_read r (afterOpen []).dev).2.2 = 4 ∧ ¬ AwaitsEvent r (afterOpen [])) := by
  refine ⟨⟨rfl, rfl, rfl, fun keeps => ?_⟩, rfl, fun awaits => ?_⟩
  · exact absurd (keeps (.inr (.inl rfl))) (by decide)
  · exact absurd (awaits rfl (by decide)) (by decide)

end Tiny6410.Buttons
