import Mathlib.Logic.Function.Basic

/-! Loading and unloading the four character drivers. An init function acquires a device
number, a cdev and, for the udev driver, a class and a device, each of which may fail;
the exit function releases them. A module whose init function fails is gone, with
whatever it has registered. -/
namespace Tiny6410.Registration

inductive Resource where
  | region | cdev | cls | device
  deriving DecidableEq

inductive Outcome where
  | ok
  | error (errno : Nat)
  deriving DecidableEq

def Outcome.ret : Outcome → Int
  | .ok => 0
  | .error errno => -(errno + 1)

/-- What the kernel answers to the acquisitions of one load. alloc_chrdev_region and
register_chrdev_region are the two ways to the device number. -/
abbrev Outcomes := Resource → Outcome

abbrev Own := Resource → Bool

def nothing : Own := fun _ => false

def acquire (r : Resource) (o : Outcomes) (own : Own) : Own :=
  match o r with
  | .ok => Function.update own r true
  | .error _ => own

/-- char_dev.c. The device number is kept when cdev_add fails. -/
def chr_init (o : Outcomes) (own : Own) : Int × Own :=
  let own := acquire .region o own
  if (o .region).ret < 0 then ((o .region).ret, own)
  else
    let own := acquire .cdev o own
    if (o .cdev).ret < 0 then ((o .cdev).ret, own) else (0, own)

/-- A device number and a cdev; the result of cdev_add is not looked at. -/
def regionAndCdev (o : Outcomes) (own : Own) : Int × Own :=
  let own := acquire .region o own
  if (o .region).ret < 0 then ((o .region).ret, own)
  else (0, acquire .cdev o own)

/-- char_leds.c -/
def s3c6410_leds_init : Outcomes → Own → Int × Own := regionAndCdev

def s3c6410_buttons_init : Outcomes → Own → Int × Own := regionAndCdev

/-- char_udev_leds.c. Only the class is checked after the device number. -/
def Udev.s3c6410_leds_init (o : Outcomes) (own : Own) : Int × Own :=
  let own := acquire .region o own
  if (o .region).ret < 0 then ((o .region).ret, own)
  else
    let own := acquire .cdev o own
    let own := acquire .cls o own
    if (o .cls).ret < 0 then ((o .cls).ret, own)
    else (0, acquire .device o own)

def chr_exit : List Resource := [.cdev, .region]
def s3c6410_leds_exit : List Resource := [.cdev, .region]
def s3c6410_buttons_exit : List Resource := [.cdev, .region]
def Udev.s3c6410_leds_exit : List Resource := [.device, .cls, .cdev, .region]

inductive Driver where
  | char_dev | char_leds | char_udev_leds | buttons_dev
  deriving DecidableEq

def Driver.init : Driver → Outcomes → Own → Int × Own
  | .char_dev => chr_init
  | .char_leds => s3c6410_leds_init
  | .char_udev_leds => Udev.s3c6410_leds_init
  | .buttons_dev => s3c6410_buttons_init

def Driver.exit : Driver → List Resource
  | .char_dev => chr_exit
  | .char_leds => s3c6410_leds_exit
  | .char_udev_leds => Udev.s3c6410_leds_exit
  | .buttons_dev => s3c6410_buttons_exit

def Driver.resources : Driver → List Resource
  | .char_udev_leds => [.region, .cdev, .cls, .device]
  | _ => [.region, .cdev]

structure System where
  loaded : Bool
  own : Own
  -- Registrations left behind by a module that is gone.
  leaked : Resource → Nat
  -- Releases of a resource that was not registered.
  badReleases : Nat

def start : System := ⟨false, nothing, fun _ => 0, 0⟩

def leak (leaked : Resource → Nat) (own : Own) : Resource → Nat :=
  fun r => leaked r + if own r then 1 else 0

def release (s : System) (r : Resource) : System :=
  if s.own r then { s with own := Function.update s.own r false }
  else { s with badReleases := s.badReleases + 1 }

inductive Event where
  | load (o : Outcomes)
  | unload

/-- A module that is loaded is not loaded again, and only a loaded one is unloaded. -/
def step (d : Driver) (s : System) : Event → System
  | .load o =>
    if s.loaded then s
    else
      let r := d.init o nothing
      if r.1 < 0 then { s with leaked := leak s.leaked r.2 }
      else { s with loaded := true, own := r.2 }
  | .unload =>
    if s.loaded then
      let s := d.exit.foldl release s
      { s with loaded := false, own := nothing, leaked := leak s.leaked s.own }
    else s

/-- A loaded module has all its resources, and an unloaded one has left none. -/
structure Clean (d : Driver) (s : System) : Prop where
  registered : s.loaded = true → ∀ r, s.own r = decide (r ∈ d.resources)
  leaked : ∀ r, s.leaked r = 0
  balanced : s.badReleases = 0

def Complete (d : Driver) (o : Outcomes) : Prop :=
  o .region ≠ .ok ∨ ∀ r ∈ d.resources, o r = .ok

def Met (d : Driver) (s : System) : Event → Prop
  | .load o => s.loaded = true ∨ Complete d o
  | .unload => True

def AllClean (d : Driver) (s : System) : List Event → Prop
  | [] => Clean d s
  | e :: rest => Clean d s ∧ AllClean d (step d s e) rest

def AllMet (d : Driver) (s : System) : List Event → Prop
  | [] => True
  | e :: rest => Met d s e ∧ AllMet d (step d s e) rest

def full (d : Driver) : Own := fun r => decide (r ∈ d.resources)

@[simp] theorem ret_neg_iff (o : Outcome) : o.ret < 0 ↔ o ≠ .ok := by
  cases o with
  | ok => simp [Outcome.ret]
  | error errno =>
    simp only [Outcome.ret, ne_eq, reduceCtorEq, not_false_eq_true, iff_true]
    omega

theorem own_eq_iff (own own' : Own) : own = own' ↔ own .region = own' .region ∧
    own .cdev = own' .cdev ∧ own .cls = own' .cls ∧ own .device = own' .device := by
  constructor
  · rintro rfl
    exact ⟨rfl, rfl, rfl, rfl⟩
  · rintro ⟨region, cdev, cls, device⟩
    funext r
    cases r <;> assumption

theorem acquire_ok {r : Resource} {o : Outcomes} (own : Own) (ok : o r = .ok) :
    acquire r o own = Function.update own r true := by
  simp [acquire, ok]

theorem acquire_error {r : Resource} {o : Outcomes} (own : Own) (failed : o r ≠ .ok) :
    acquire r o own = own := by
  unfold acquire
  split
  · contradiction
  · rfl

def InitClean (d : Driver) (result : Int × Own) : Prop :=
  if result.1 < 0 then result.2 = nothing else result.2 = full d

theorem chr_init_clean_iff (o : Outcomes) :
    InitClean .char_dev (chr_init o nothing) ↔ Complete .char_dev o := by
  by_cases region : o .region = .ok
  · by_cases cdev : o .cdev = .ok
    · simp [InitClean, chr_init, acquire_ok, region, cdev, own_eq_iff, full, nothing, Complete,
        Driver.resources]
    · simp [InitClean, chr_init, acquire_ok, acquire_error, region, cdev, nothing, Complete, Driver.resources]
  · simp [InitClean, chr_init, acquire_error, region, Complete]

theorem regionAndCdev_clean_iff {d : Driver} (two : d.resources = [.region, .cdev]) (o : Outcomes) :
    InitClean d (regionAndCdev o nothing) ↔ Complete d o := by
  by_cases region : o .region = .ok
  · by_cases cdev : o .cdev = .ok
    · simp [InitClean, regionAndCdev, acquire_ok, region, cdev, own_eq_iff, full, nothing, Complete, two]
    · simp [InitClean, regionAndCdev, acquire_ok, acquire_error, region, cdev, own_eq_iff, full, nothing,
        Complete, two]
  · simp [InitClean, regionAndCdev, acquire_error, region, Complete]

theorem udev_leds_init_clean_iff (o : Outcomes) :
    InitClean .char_udev_leds (Udev.s3c6410_leds_init o nothing) ↔ Complete .char_udev_leds o := by
  by_cases region : o .region = .ok
  · by_cases cls : o .cls = .ok
    · by_cases cdev : o .cdev = .ok <;> by_cases device : o .device = .ok
      all_goals
        simp [InitClean, Udev.s3c6410_leds_init, acquire_ok, acquire_error, region, cdev, cls, device, own_eq_iff,
          full, nothing, Complete, Driver.resources]
    · by_cases cdev : o .cdev = .ok
      all_goals
        simp [InitClean, Udev.s3c6410_leds_init, acquire_ok, acquire_error, region, cdev, cls, own_eq_iff,
          nothing, Complete, Driver.resources]
  · simp [InitClean, Udev.s3c6410_leds_init, acquire_error, region, Complete]

theorem init_clean_iff (d : Driver) (o : Outcomes) :
    InitClean d (d.init o nothing) ↔ Complete d o := by
  cases d with
  | char_dev => exact chr_init_clean_iff o
  | char_leds | buttons_dev => exact regionAndCdev_clean_iff rfl o
  | char_udev_leds => exact udev_leds_init_clean_iff o

theorem foldl_release {l : List Resource} (nodup : l.Nodup) (s : System)
    (owned : ∀ r ∈ l, s.own r = true) :
    l.foldl release s = { s with own := fun r => s.own r && decide (r ∉ l) } := by
  induction l generalizing s with
  | nil => simp
  | cons a rest ih =>
    rw [List.nodup_cons] at nodup
    have first : release s a = { s with own := Function.update s.own a false } :=
      if_pos (owned a List.mem_cons_self)
    have later : ∀ r ∈ rest, (release s a).own r = true := by
      intro r mem
      have other : r ≠ a := fun same => nodup.1 (same ▸ mem)
      simp only [first, Function.update_of_ne other]
      exact owned r (List.mem_cons_of_mem a mem)
    rw [List.foldl_cons, ih nodup.2 _ later, first]
    congr 1
    funext r
    by_cases here : r = a
    · simp [here]
    · simp [here]

theorem exit_full (d : Driver) {s : System} (owned : s.own = full d) :
    d.exit.foldl release s = { s with own := nothing } := by
  have nodup : d.exit.Nodup := by cases d <;> decide
  have same : ∀ r, r ∈ d.exit ↔ r ∈ d.resources := by
    intro r
    cases d <;> cases r <;> decide
  have all : ∀ r ∈ d.exit, s.own r = true := by
    intro r mem
    rw [owned, full, decide_eq_true_eq]
    exact (same r).mp mem
  rw [foldl_release nodup s all]
  congr 1
  funext r
  simp [owned, full, nothing, same]

theorem clean_load_iff {d : Driver} {s : System} (clean : Clean d s) (idle : s.loaded = false)
    (o : Outcomes) : Clean d (step d s (.load o)) ↔ Complete d o := by
  rw [← init_clean_iff, InitClean, step, if_neg (by simp [idle])]
  by_cases failed : (d.init o nothing).1 < 0
  · simp only [if_pos failed]
    constructor
    · intro h
      funext r
      have left := h.leaked r
      simp only [leak, clean.leaked r] at left
      simpa [nothing] using left
    · intro none
      refine ⟨fun loaded => absurd (idle.symm.trans loaded) (by decide), fun r => ?_, clean.balanced⟩
      simp [leak, clean.leaked r, none, nothing]
  · simp only [if_neg failed]
    constructor
    · intro h
      funext r
      exact h.registered rfl r
    · intro all
      exact ⟨fun _ r => congrFun all r, clean.leaked, clean.balanced⟩

theorem clean_unload {d : Driver} {s : System} (clean : Clean d s) : Clean d (step d s .unload) := by
  simp only [step]
  split
  · rename_i loaded
    have owned : s.own = full d := funext (clean.registered loaded)
    rw [exit_full d owned]
    refine ⟨fun impossible => absurd impossible Bool.false_ne_true, fun r => ?_, clean.balanced⟩
    simp [leak, clean.leaked r, nothing]
  · exact clean

theorem clean_step_iff {d : Driver} {s : System} (clean : Clean d s) (e : Event) :
    Clean d (step d s e) ↔ Met d s e := by
  cases e with
  | load o =>
    cases loaded : s.loaded with
    | false =>
      rw [clean_load_iff clean loaded]
      simp [Met, loaded]
    | true =>
      simp only [step, loaded, if_true, Met, true_or, iff_true]
      exact clean
  | unload => exact ⟨fun _ => trivial, fun _ => clean_unload clean⟩

theorem allClean_iff_allMet {d : Driver} {s : System} (clean : Clean d s) (events : List Event) :
    AllClean d s events ↔ AllMet d s events := by
  induction events generalizing s with
  | nil => exact ⟨fun _ => trivial, fun _ => clean⟩
  | cons e rest ih =>
    rw [AllClean, AllMet, ← clean_step_iff clean e]
    constructor
    · rintro ⟨-, later⟩
      have next : Clean d (step d s e) := by
        cases rest with
        | nil => exact later
        | cons => exact later.1
      exact ⟨next, (ih next).mp later⟩
    · rintro ⟨next, later⟩
      exact ⟨clean, (ih next).mpr later⟩

theorem start_clean (d : Driver) : Clean d start :=
  ⟨fun loaded => absurd loaded Bool.false_ne_true, fun _ => rfl, rfl⟩

/-- In a history of loads and unloads of a driver, a failed load leaves nothing, a
successful one has everything, and an unload releases all of it once, exactly when
every load either gets no device number or gets everything it asks for. -/
theorem history_clean_iff (d : Driver) (events : List Event) :
    AllClean d start events ↔ AllMet d start events :=
  allClean_iff_allMet (start_clean d) events

def noCdev : Outcomes
  | .cdev => .error 11
  | _ => .ok

theorem load_without_cdev_unclean :
    (step .char_dev start (.load noCdev)).loaded = false ∧
    (step .char_dev start (.load noCdev)).leaked .region = 1 ∧
    ¬ AllClean .char_dev start [.load noCdev] ∧
    (step .char_leds start (.load noCdev)).loaded = true ∧
    (step .char_leds start (.load noCdev)).own .cdev = false ∧
    ¬ AllClean .char_leds start [.load noCdev] := by
  refine ⟨rfl, rfl, fun clean => ?_, rfl, rfl, fun clean => ?_⟩
  · exact absurd (clean.2.leaked .region) (by decide)
  · exact absurd (clean.2.registered rfl .cdev) (by decide)

end Tiny6410.Registration
