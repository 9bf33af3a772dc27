import Tiny6410.Linux.ButtonsOpen

/-! s3c6410_buttons_open statement by statement. A button whose handler is registered may
interrupt between any two statements, and the resets at the end of the function come
after the registrations. -/
namespace Tiny6410.ButtonsOpening

open Memory (Word)
open Buttons

/-- Where open stands: at the pin configuration, the registrations, the reset of entry i
of buttons_values, the clear of action_flag, the return, or on the error path. -/
inductive Point where
  | config
  | request (todo done : List ButtonIrq)
  | reset (i : Nat)
  | clear
  | ret
  | undo (done : List ButtonIrq)
  | returned (result : Int)
  deriving DecidableEq

/-- An interrupt, with the point at which it came and the value that it stored. -/
structure Delivery where
  point : Point
  button : Fin 4
  value : Char
  deriving DecidableEq

structure State where
  sys : System
  point : Point
  -- Newest first.
  deliveries : List Delivery

inductive Action where
  | step
  | irq (line : Nat) (gpndat : Word)

def begin (s : System) : State := ⟨s, .config, []⟩

def resetEntry (i : Nat) (d : Device) : Device :=
  { d with buttons_values := fun n => if n.val = i then 'r' else d.buttons_values n }

/-- The next statement of open; fails are the requests that the kernel refuses. -/
def statement (fails : ButtonIrq → Bool) (s : State) : State :=
  match s.point with
  | .config =>
    { s with
      sys := { s.sys with gpncon := (s.sys.gpncon &&& ~~~0xff) ||| 0xaa }
      point := .request buttons_irqs [] }
  | .request [] _ => { s with point := .reset 0 }
  | .request (b :: todo) done =>
    if b.irq < 0 then { s with point := .request todo (b :: done) }
    else
      let r := request_irq (fails b) b s.sys.kernel
      { s with
        sys := { s.sys with kernel := r.2 }
        point := if r.1 ≠ 0 then .undo done else .request todo (b :: done) }
  | .reset i =>
    { s with
      sys := { s.sys with dev := resetEntry i s.sys.dev }
      point := if i + 1 < buttons_irqs.length then .reset (i + 1) else .clear }
  | .clear => { s with sys := { s.sys with dev := { s.sys.dev with action_flag := false } }, point := .ret }
  | .ret => { s with sys := { s.sys with files := s.sys.files + 1 }, point := .returned 0 }
  | .undo [] => { s with point := .returned (-EBUSY) }
  | .undo (b :: done) =>
    { s with sys := { s.sys with kernel := release b s.sys.kernel }, point := .undo done }
  | .returned _ => s

/-- The interrupt of a button whose handler is registered and enabled. -/
def interrupt (line : Nat) (gpndat : Word) (s : State) : State :=
  match s.sys.kernel.table line with
  | ⟨some (.button b), _, false⟩ =>
    let dev := buttons_interrupt b.number gpndat s.sys.dev
    { s with
      sys := { s.sys with dev := dev }
      deliveries := if h : b.number < 4 then ⟨s.point, ⟨b.number, h⟩, dev.buttons_values ⟨b.number, h⟩⟩ :: s.deliveries
        else s.deliveries }
  | _ => s

/-- The run ends with the return of open. -/
def step (fails : ButtonIrq → Bool) (s : State) : Action → State
  | .step => statement fails s
  | .irq line gpndat =>
    match s.point with
    | .returned _ => s
    | _ => interrupt line gpndat s

def run (fails : ButtonIrq → Bool) (s : State) (actions : List Action) : State :=
  actions.foldl (step fails) s

/-! Without interrupts, the statements are the open of ButtonsOpen. -/

def Reaches (fails : ButtonIrq → Bool) (s t : State) : Prop := ∃ n, (statement fails)^[n] s = t

section Alone

variable {fails : ButtonIrq → Bool} {s t u : State}

theorem Reaches.step (h : Reaches fails (statement fails s) t) : Reaches fails s t := by
  obtain ⟨n, rfl⟩ := h
  exact ⟨n + 1, rfl⟩

theorem Reaches.trans (first : Reaches fails s t) (second : Reaches fails t u) : Reaches fails s u := by
  obtain ⟨m, rfl⟩ := first
  obtain ⟨n, rfl⟩ := second
  exact ⟨n + m, Function.iterate_add_apply _ n m s⟩

theorem reaches_requested (sys : System) (todo done : List ButtonIrq) (ds : List Delivery) :
    let r := requestLoop fails todo done sys.kernel
    Reaches fails ⟨sys, .request todo done, ds⟩
      ⟨{ sys with kernel := r.2.2 }, if r.1 ≠ 0 then .undo r.2.1 else .request [] r.2.1, ds⟩ := by
  induction todo generalizing sys done with
  | nil => exact ⟨0, rfl⟩
  | cons b todo ih =>
    refine .step ?_
    simp only [requestLoop, statement]
    by_cases skip : b.irq < 0
    · simp only [if_pos skip]
      exact ih sys (b :: done)
    · simp only [if_neg skip]
      by_cases refused : (request_irq (fails b) b sys.kernel).1 ≠ 0
      · simp only [if_pos refused]
        exact ⟨0, rfl⟩
      · simp only [if_neg refused]
        exact ih { sys with kernel := (request_irq (fails b) b sys.kernel).2 } (b :: done)

theorem reaches_undone (sys : System) (done : List ButtonIrq) (ds : List Delivery) :
    Reaches fails ⟨sys, .undo done, ds⟩
      ⟨{ sys with kernel := rollback done sys.kernel }, .returned (-EBUSY), ds⟩ := by
  induction done generalizing sys with
  | nil => exact ⟨1, rfl⟩
  | cons b done ih => exact .step (ih { sys with kernel := release b sys.kernel })

theorem resets_opened (d : Device) :
    { resetEntry 3 (resetEntry 2 (resetEntry 1 (resetEntry 0 d))) with action_flag := false } = opened := by
  simp only [resetEntry, opened, Device.mk.injEq, and_true]
  funext n
  match n with
  | 0 | 1 | 2 | 3 => rfl

theorem reaches_reset (sys : System) (ds : List Delivery) :
    Reaches fails ⟨sys, .reset 0, ds⟩
      ⟨{ sys with dev := opened, files := sys.files + 1 }, .returned 0, ds⟩ := by
  rw [← resets_opened sys.dev]
  exact ⟨6, rfl⟩

theorem reaches_opened (s : System) :
    Reaches fails (begin s) ⟨(s3c6410_buttons_open fails s).2, .returned (s3c6410_buttons_open fails s).1, []⟩ := by
  refine .step ?_
  refine (reaches_requested { s with gpncon := (s.gpncon &&& ~~~0xff) ||| 0xaa } buttons_irqs [] []).trans ?_
  simp only [s3c6410_buttons_open]
  by_cases failed : (requestLoop fails buttons_irqs [] s.kernel).1 ≠ 0
  · simp only [if_pos failed]
    exact reaches_undone _ _ []
  · simp only [if_neg failed]
    exact .step (reaches_reset _ [])

end Alone

/-- The entry of a button has been reset. -/
def Point.resets (n : Fin 4) : Point → Bool
  | .reset i => decide (n.val < i)
  | .clear | .ret => true
  | .returned result => decide (result = 0)
  | _ => false

/-- The flag has been cleared. -/
def Point.clears : Point → Bool
  | .ret => true
  | .returned result => decide (result = 0)
  | _ => false

def latest (n : Fin 4) (deliveries : List Delivery) : Option Delivery :=
  deliveries.find? fun d => d.button = n

/-- Every interrupt can still be seen. -/
def Visible (s : State) : Prop :=
  (∀ n d, latest n s.deliveries = some d → s.sys.dev.buttons_values n = d.value) ∧
  (s.deliveries ≠ [] → s.sys.dev.action_flag = true)

/-- The last interrupt of all came after the clear of the flag; and the last one of each
button after the reset of its entry, unless it found the button released. -/
def Timely (deliveries : List Delivery) : Prop :=
  (∀ d, deliveries.head? = some d → d.point.clears = true) ∧
  (∀ n d, latest n deliveries = some d → d.point.resets n = true ∨ d.value = 'r')

structure Inv (s : State) : Prop where
  resets : ∀ d ∈ s.deliveries, ∀ n, d.point.resets n = true → s.point.resets n = true
  clears : ∀ d ∈ s.deliveries, d.point.clears = true → s.point.clears = true
  values : ∀ n d, latest n s.deliveries = some d →
    s.sys.dev.buttons_values n = if s.point.resets n = true ∧ d.point.resets n = false then 'r' else d.value
  flag : ∀ d, s.deliveries.head? = some d →
    s.sys.dev.action_flag = (!s.point.clears || d.point.clears)

theorem inv_begin (s : System) : Inv (begin s) where
  resets := by simp [begin]
  clears := by simp [begin]
  values := by simp [begin, latest]
  flag := by simp [begin]

theorem latest_mem {n : Fin 4} {deliveries : List Delivery} {d : Delivery}
    (found : latest n deliveries = some d) : d ∈ deliveries :=
  List.mem_of_find?_eq_some found

section Steps

variable {s s' : State}

/-- A statement that resets nothing. -/
theorem Inv.moved (inv : Inv s) (same : s'.deliveries = s.deliveries) (dev : s'.sys.dev = s.sys.dev)
    (resets : ∀ n, s'.point.resets n = s.point.resets n) (clears : s'.point.clears = s.point.clears) :
    Inv s' where
  resets := by simpa only [same, resets] using inv.resets
  clears := by simpa only [same, clears] using inv.clears
  values := by simpa only [same, dev, resets] using inv.values
  flag := by simpa only [same, dev, clears] using inv.flag

theorem reset_next (n : Fin 4) (i : Nat) :
    (if i + 1 < buttons_irqs.length then Point.reset (i + 1) else .clear).resets n =
      ((Point.reset i).resets n || decide (n.val = i)) := by
  have four : buttons_irqs.length = 4 := rfl
  have bound := n.isLt
  split
  · simp only [Point.resets, ← Bool.decide_or, decide_eq_decide]
    omega
  · have behind : n.val < i ∨ n.val = i := by omega
    simp only [Point.resets, ← Bool.decide_or]
    exact (decide_eq_true behind).symm

theorem Inv.reset (fails : ButtonIrq → Bool) (inv : Inv s) {i : Nat} (here : s.point = .reset i) :
    Inv (statement fails s) := by
  have point : (statement fails s).point =
      if i + 1 < buttons_irqs.length then .reset (i + 1) else .clear := by simp only [statement, here]
  have same : (statement fails s).deliveries = s.deliveries := by simp only [statement, here]
  have dev : (statement fails s).sys.dev = resetEntry i s.sys.dev := by simp only [statement, here]
  have early : s.point.clears = false := by rw [here]; rfl
  have early' : (statement fails s).point.clears = false := by rw [point]; split <;> rfl
  refine ⟨?_, ?_, ?_, ?_⟩
  · intro d mem n done
    rw [same] at mem
    rw [point, reset_next, ← here, inv.resets d mem n done, Bool.true_or]
  · intro d mem done
    rw [same] at mem
    have before := inv.clears d mem done
    rw [early] at before
    cases before
  · intro n d found
    rw [same] at found
    rw [dev, point, reset_next, ← here]
    by_cases this : n.val = i
    · have undone : d.point.resets n = false := by
        by_contra done
        have before := inv.resets d (latest_mem found) n (by simpa using done)
        rw [here, Point.resets, this] at before
        simp at before
      simp [resetEntry, this, undone]
    · have value := inv.values n d found
      simp only [resetEntry, this, if_false, decide_false, Bool.or_false]
      exact value
  · intro d first
    rw [same] at first
    have flag := inv.flag d first
    rw [early] at flag
    rw [early', dev]
    exact flag

theorem Inv.clear (fails : ButtonIrq → Bool) (inv : Inv s) (here : s.point = .clear) :
    Inv (statement fails s) := by
  have point : (statement fails s).point = .ret := by simp only [statement, here]
  have same : (statement fails s).deliveries = s.deliveries := by simp only [statement, here]
  have dev : (statement fails s).sys.dev = { s.sys.dev with action_flag := false } := by
    simp only [statement, here]
  refine ⟨?_, ?_, ?_, ?_⟩
  · intro d mem n _
    rw [point]
    rfl
  · intro d mem _
    rw [point]
    rfl
  · intro n d found
    rw [same] at found
    have value := inv.values n d found
    rw [here] at value
    rw [dev, point]
    exact value
  · intro d first
    rw [same] at first
    have undone : d.point.clears = false := by
      by_contra done
      have before := inv.clears d (List.mem_of_head? first) (by simpa using done)
      rw [here] at before
      cases before
    rw [dev, point, undone]
    rfl

theorem Inv.statement (fails : ButtonIrq → Bool) (inv : Inv s) : Inv (statement fails s) := by
  obtain ⟨sys, point, deliveries⟩ := s
  cases point with
  | config => exact inv.moved rfl rfl (fun _ => rfl) rfl
  | request todo done =>
    cases todo with
    | nil => exact inv.moved rfl rfl (fun n => by simp [ButtonsOpening.statement, Point.resets]) rfl
    | cons b todo =>
      simp only [ButtonsOpening.statement]
      split
      · exact inv.moved rfl rfl (fun _ => rfl) rfl
      · split
        all_goals exact inv.moved rfl rfl (fun _ => rfl) rfl
  | reset i => exact inv.reset fails rfl
  | clear => exact inv.clear fails rfl
  | ret => exact inv.moved rfl rfl (fun _ => rfl) rfl
  | undo done =>
    cases done with
    | nil => exact inv.moved rfl rfl (fun _ => rfl) rfl
    | cons b done => exact inv.moved rfl rfl (fun _ => rfl) rfl
  | returned result => exact inv

/-- What an interrupt does to the device and to the record of interrupts. -/
theorem interrupt_cases (line : Nat) (gpndat : Word) (s : State) :
    interrupt line gpndat s = s ∨ ∃ button : Fin 4,
      let dev := buttons_interrupt button gpndat s.sys.dev
      interrupt line gpndat s =
        { s with
          sys := { s.sys with dev := dev }
          deliveries := ⟨s.point, button, dev.buttons_values button⟩ :: s.deliveries } := by
  unfold interrupt
  split
  · rename_i b depth registered
    by_cases known : b.number < 4
    · exact .inr ⟨⟨b.number, known⟩, by simp [known]⟩
    · left
      simp only [buttons_interrupt_unknown known, known, dite_false]
  · exact .inl rfl

theorem latest_cons {n : Fin 4} {d : Delivery} {deliveries : List Delivery} :
    latest n (d :: deliveries) = if d.button = n then some d else latest n deliveries := by
  rw [latest, List.find?_cons]
  by_cases here : d.button = n
  · simp [here]
  · simp [here, latest]

theorem Inv.interrupt (line : Nat) (gpndat : Word) (inv : Inv s) : Inv (interrupt line gpndat s) := by
  rcases interrupt_cases line gpndat s with same | ⟨button, delivered⟩
  · rw [same]
    exact inv
  · rw [delivered]
    refine ⟨?_, ?_, ?_, ?_⟩
    · intro d mem n done
      rcases List.mem_cons.mp mem with rfl | before
      · exact done
      · exact inv.resets d before n done
    · intro d mem done
      rcases List.mem_cons.mp mem with rfl | before
      · exact done
      · exact inv.clears d before done
    · intro n d found
      simp only [latest_cons] at found
      split at found
      · rename_i here
        cases found
        cases here
        rw [if_neg (by simp)]
      · rename_i elsewhere
        simp only [buttons_interrupt_other (Ne.symm elsewhere)]
        exact inv.values n d found
    · intro d first
      cases first
      simp only [buttons_interrupt_raises, Bool.not_or_self]

theorem Inv.step (fails : ButtonIrq → Bool) (inv : Inv s) (a : Action) : Inv (step fails s a) := by
  cases a with
  | step => exact inv.statement fails
  | irq line gpndat =>
    simp only [ButtonsOpening.step]
    split
    · exact inv
    · exact inv.interrupt line gpndat

theorem inv_run (fails : ButtonIrq → Bool) (s : System) (actions : List Action) :
    Inv (run fails (begin s) actions) :=
  List.foldlRecOn actions (ButtonsOpening.step fails) (inv_begin s) fun _ inv a _ => inv.step fails a

end Steps

/-- After a successful open the interrupts that came during it are visible exactly if
they were timely. -/
theorem open_keeps_interrupts_iff (fails : ButtonIrq → Bool) (s : System) (actions : List Action)
    (success : (run fails (begin s) actions).point = .returned 0) :
    Visible (run fails (begin s) actions) ↔ Timely (run fails (begin s) actions).deliveries := by
  have inv := inv_run fails s actions
  generalize run fails (begin s) actions = t at success inv
  have resets : ∀ n, t.point.resets n = true := fun n => by rw [success]; rfl
  have clears : t.point.clears = true := by rw [success]; rfl
  rw [Visible, Timely, and_comm]
  refine and_congr ?_ (forall_congr' fun n => forall_congr' fun d => imp_congr_right fun found => ?_)
  · cases recorded : t.deliveries with
    | nil => simp
    | cons d rest =>
      have flag := inv.flag d (by rw [recorded]; rfl)
      rw [clears, Bool.not_true, Bool.false_or] at flag
      simp [flag]
  · rw [inv.values n d found, resets n]
    cases d.point.resets n <;> simp [eq_comm]

/-- No handler is registered. -/
def freeBoard : System := ⟨⟨fun _ => ⟨none, 1, true⟩, 0⟩, ⟨fun _ => 'r', false⟩, 0, 0⟩

def steps (n : Nat) : List Action := List.replicate n .step

/-- Button 0 is pressed once the flag is clear. -/
theorem open_keeps_interrupts_iff_late_press :
    let s := run (fun _ => false) (begin freeBoard) (steps 11 ++ [.irq 101 0, .step])
    s.point = .returned 0 ∧ s.sys.dev.buttons_values 0 = 'p' ∧ s.sys.dev.action_flag = true ∧ Visible s := by
  have success : (run (fun _ => false) (begin freeBoard) (steps 11 ++ [.irq 101 0, .step])).point =
      .returned 0 := by decide
  refine ⟨success, by decide, by decide, (open_keeps_interrupts_iff _ _ _ success).mpr ⟨?_, ?_⟩⟩
  · intro d first
    cases first
    rfl
  · intro n d found
    have recorded : (run (fun _ => false) (begin freeBoard) (steps 11 ++ [.irq 101 0, .step])).deliveries =
        [⟨.ret, 0, 'p'⟩] := by decide
    have only := latest_mem found
    rw [recorded, List.mem_singleton] at only
    rw [only]
    exact .inl rfl

/-- Button 0 is pressed before the resets, and neither its state nor the flag is left. -/
theorem early_press_lost :
    let s := run (fun _ => false) (begin freeBoard) (steps 5 ++ .irq 101 0 :: steps 7)
    s.point = .returned 0 ∧ s.deliveries = [⟨.request [] buttons_irqs.reverse, 0, 'p'⟩] ∧
      s.sys.dev.buttons_values 0 = 'r' ∧ s.sys.dev.action_flag = false ∧ ¬ Visible s := by
  refine ⟨by decide, by decide, by decide, by decide, fun visible => ?_⟩
  exact absurd (visible.2 (by decide)) (by decide)

end Tiny6410.ButtonsOpening
