import Mathlib.Logic.Function.Basic
import Tiny6410.Linux.Buttons

/-! Opening and closing the buttons device. open registers one interrupt handler per
button and, when a registration fails, takes back those it has made. The interrupt
table follows kernel/irq/manage.c of the kernel in this repository. -/
namespace Tiny6410.Buttons

open Memory (Word)

structure ButtonIrq where
  irq : Int
  flags : Nat
  name : String
  number : Nat
  deriving DecidableEq

def IRQ_EINT (x : Nat) : Int := x + 32 + 69
def IRQ_TYPE_EDGE_BOTH : Nat := 3

def buttons_irqs : List ButtonIrq :=
  [⟨IRQ_EINT 0, IRQ_TYPE_EDGE_BOTH, "BUTTON0", 0⟩,
    ⟨IRQ_EINT 1, IRQ_TYPE_EDGE_BOTH, "BUTTON1", 1⟩,
    ⟨IRQ_EINT 2, IRQ_TYPE_EDGE_BOTH, "BUTTON2", 2⟩,
    ⟨IRQ_EINT 3, IRQ_TYPE_EDGE_BOTH, "BUTTON3", 3⟩]

/-- Who has registered a handler: this driver, with an entry of its table as dev_id,
or another one. -/
inductive Owner where
  | button (b : ButtonIrq)
  | other (id : Nat)
  deriving DecidableEq

structure IrqDesc where
  action : Option Owner
  depth : Nat
  disabled : Bool
  deriving DecidableEq

abbrev IrqTable := Nat → IrqDesc

structure Kernel where
  table : IrqTable
  -- Calls of free_irq that found no such handler, "Trying to free already-free IRQ".
  badFrees : Nat

def EBUSY : Int := 16
def ENOMEM : Int := 12

/-- request_irq without IRQF_SHARED. A line that has a handler is refused; a free one
may still fail for want of memory or an unsupported trigger type. -/
def request_irq (fails : Bool) (b : ButtonIrq) (k : Kernel) : Int × Kernel :=
  if (k.table b.irq.toNat).action.isSome then (-EBUSY, k)
  else if fails then (-ENOMEM, k)
  else (0, { k with table := Function.update k.table b.irq.toNat ⟨some (.button b), 0, false⟩ })

def disable_irq (irq : Nat) (k : Kernel) : Kernel :=
  let d := k.table irq
  let d' := { d with depth := d.depth + 1, disabled := if d.depth = 0 then true else d.disabled }
  { k with table := Function.update k.table irq d' }

def free_irq (irq : Nat) (owner : Owner) (k : Kernel) : Kernel :=
  if (k.table irq).action = some owner then
    let d := { k.table irq with action := none, disabled := true }
    { k with table := Function.update k.table irq d }
  else { k with badFrees := k.badFrees + 1 }

/-- The registration loop. The entries behind it are kept with the last one first; on
an error the failing entry is not among them. -/
def requestLoop (fails : ButtonIrq → Bool) :
    List ButtonIrq → List ButtonIrq → Kernel → Int × List ButtonIrq × Kernel
  | [], done, k => (0, done, k)
  | b :: rest, done, k =>
    if b.irq < 0 then requestLoop fails rest (b :: done) k
    else
      let r := request_irq (fails b) b k
      if r.1 ≠ 0 then (r.1, done, r.2) else requestLoop fails rest (b :: done) r.2

def release (b : ButtonIrq) (k : Kernel) : Kernel :=
  if b.irq < 0 then k else free_irq b.irq.toNat (.button b) (disable_irq b.irq.toNat k)

def rollback (done : List ButtonIrq) (k : Kernel) : Kernel := done.foldl (fun k b => release b k) k

structure System where
  kernel : Kernel
  dev : Device
  gpncon : Word
  files : Nat

def s3c6410_buttons_open (fails : ButtonIrq → Bool) (s : System) : Int × System :=
  let s := { s with gpncon := (s.gpncon &&& ~~~0xff) ||| 0xaa }
  let r := requestLoop fails buttons_irqs [] s.kernel
  if r.1 ≠ 0 then (-EBUSY, { s with kernel := rollback r.2.1 r.2.2 })
  else (0, { s with kernel := r.2.2, dev := opened, files := s.files + 1 })

def closeEntry (b : ButtonIrq) (k : Kernel) : Kernel :=
  if b.irq < 0 then k else free_irq b.irq.toNat (.button b) k

def s3c6410_buttons_close (s : System) : System :=
  { s with
    kernel := buttons_irqs.foldl (fun k b => closeEntry b k) s.kernel
    files := s.files - 1 }

inductive Call where
  -- An open, and which of its requests the kernel refuses.
  | open (fails : ButtonIrq → Bool)
  | close
  -- A button interrupt on a line, handled if this driver is registered and enabled.
  | irq (line : Nat) (gpndat : Word)

def perform (s : System) : Call → System
  | .open fails => (s3c6410_buttons_open fails s).2
  | .close => if s.files = 0 then s else s3c6410_buttons_close s
  | .irq line gpndat =>
    match s.kernel.table line with
    | ⟨some (.button b), _, false⟩ => { s with dev := buttons_interrupt b.number gpndat s.dev }
    | _ => s

def Tidy (t : IrqTable) : Prop := ∀ irq, (t irq).action = none → (t irq).disabled = true

/-- The same handlers, with the same enable state. The depth of a line without a
handler is not compared: the next registration sets it. -/
def Agrees (t t' : IrqTable) : Prop :=
  ∀ irq, (t irq).action = (t' irq).action ∧ (t irq).disabled = (t' irq).disabled ∧
    ((t irq).action.isSome = true → (t irq).depth = (t' irq).depth)

theorem Agrees.refl (t : IrqTable) : Agrees t t := fun _ => ⟨rfl, rfl, fun _ => rfl⟩

def registered (t : IrqTable) : List ButtonIrq → IrqTable
  | [] => t
  | b :: done =>
    if b.irq < 0 then registered t done
    else Function.update (registered t done) b.irq.toNat ⟨some (.button b), 0, false⟩

def Held (t : IrqTable) : List ButtonIrq → Prop
  | [] => True
  | b :: done => Held t done ∧ (0 ≤ b.irq → (registered t done b.irq.toNat).action = none)

theorem tidy_registered {t : IrqTable} (tidy : Tidy t) (done : List ButtonIrq) :
    Tidy (registered t done) := by
  induction done with
  | nil => exact tidy
  | cons b done ih =>
    rw [registered]
    split
    · exact ih
    · intro irq free
      by_cases here : irq = b.irq.toNat
      · subst here
        rw [Function.update_self] at free
        cases free
      · rw [Function.update_of_ne here] at free ⊢
        exact ih irq free

theorem request_irq_cases (fails : Bool) (b : ButtonIrq) (k : Kernel) :
    ((request_irq fails b k).1 ≠ 0 ∧ (request_irq fails b k).2 = k) ∨
    ((k.table b.irq.toNat).action = none ∧ request_irq fails b k =
      (0, { k with table := Function.update k.table b.irq.toNat ⟨some (.button b), 0, false⟩ })) := by
  unfold request_irq
  split
  · exact .inl ⟨by simp [EBUSY], rfl⟩
  · rename_i free
    split
    · exact .inl ⟨by simp [ENOMEM], rfl⟩
    · exact .inr ⟨by simpa using free, rfl⟩

theorem requestLoop_registered (fails : ButtonIrq → Bool) (t : IrqTable) (bad : Nat)
    (todo done : List ButtonIrq) (held : Held t done) :
    ∃ after, (requestLoop fails todo done ⟨registered t done, bad⟩).2 =
        (after, ⟨registered t after, bad⟩) ∧ Held t after ∧
      ((requestLoop fails todo done ⟨registered t done, bad⟩).1 = 0 → after = todo.reverse ++ done) := by
  induction todo generalizing done with
  | nil => exact ⟨done, rfl, held, fun _ => rfl⟩
  | cons b rest ih =>
    rw [requestLoop]
    by_cases skip : b.irq < 0
    · obtain ⟨after, eq, keeps, all⟩ := ih (b :: done) ⟨held, fun h => by omega⟩
      rw [registered, if_pos skip] at eq all
      rw [if_pos skip]
      exact ⟨after, eq, keeps, fun ok => by simpa using all ok⟩
    · rw [if_neg skip]
      rcases request_irq_cases (fails b) b ⟨registered t done, bad⟩ with ⟨err, same⟩ | ⟨free, ok⟩
      · simp only [if_pos err]
        exact ⟨done, by rw [same], held, fun zero => absurd zero err⟩
      · obtain ⟨after, eq, keeps, all⟩ := ih (b :: done) ⟨held, fun _ => free⟩
        rw [registered, if_neg skip] at eq all
        rw [ok]
        exact ⟨after, eq, keeps, fun zero => by simpa using all zero⟩

theorem release_agrees {t : IrqTable} {b : ButtonIrq} {done : List ButtonIrq} {k : Kernel}
    (tidy : Tidy t) (held : Held t (b :: done)) (agrees : Agrees k.table (registered t (b :: done))) :
    Agrees (release b k).table (registered t done) ∧ (release b k).badFrees = k.badFrees := by
  unfold release
  by_cases skip : b.irq < 0
  · rw [registered, if_pos skip] at agrees
    rw [if_pos skip]
    exact ⟨agrees, rfl⟩
  · rw [registered, if_neg skip] at agrees
    rw [if_neg skip]
    have free := held.2 (by omega)
    have idle := tidy_registered tidy done _ free
    have mine := agrees b.irq.toNat
    rw [Function.update_self] at mine
    have found : ((disable_irq b.irq.toNat k).table b.irq.toNat).action = some (.button b) := by
      simp [disable_irq, mine.1]
    rw [free_irq, if_pos found]
    refine ⟨fun irq => ?_, rfl⟩
    by_cases here : irq = b.irq.toNat
    · subst here
      simp [free, idle]
    · have others := agrees irq
      rw [Function.update_of_ne here] at others
      simp only [disable_irq, Function.update_of_ne here]
      exact others

theorem rollback_agrees {t : IrqTable} {done : List ButtonIrq} {k : Kernel} (tidy : Tidy t)
    (held : Held t done) (agrees : Agrees k.table (registered t done)) :
    Agrees (rollback done k).table t ∧ (rollback done k).badFrees = k.badFrees := by
  induction done generalizing k with
  | nil => exact ⟨agrees, rfl⟩
  | cons b done ih =>
    obtain ⟨released, quiet⟩ := release_agrees tidy held agrees
    obtain ⟨back, still⟩ := ih held.1 released
    exact ⟨back, still.trans quiet⟩

def Exactly (t : IrqTable) (l : List ButtonIrq) : Prop :=
  ∀ irq b, (t irq).action = some (.button b) ↔ b ∈ l ∧ irq = b.irq.toNat

structure Lines (l : List ButtonIrq) : Prop where
  valid : ∀ b ∈ l, 0 ≤ b.irq
  apart : l.Pairwise fun a b => a.irq.toNat ≠ b.irq.toNat

theorem Lines.tail {b : ButtonIrq} {l : List ButtonIrq} (h : Lines (b :: l)) :
    Lines l ∧ ∀ c ∈ l, b.irq.toNat ≠ c.irq.toNat :=
  ⟨⟨fun c hc => h.valid c (List.mem_cons_of_mem b hc), h.apart.of_cons⟩, (List.pairwise_cons.mp h.apart).1⟩

/-- On the line of the first entry there is only the first entry. -/
theorem Lines.here_iff {b c : ButtonIrq} {l : List ButtonIrq} (h : Lines (c :: l)) :
    b ∈ c :: l ∧ c.irq.toNat = b.irq.toNat ↔ b = c := by
  constructor
  · rintro ⟨mem, line⟩
    rcases List.mem_cons.mp mem with same | later
    · exact same
    · exact absurd line (h.tail.2 b later)
  · rintro rfl
    exact ⟨List.mem_cons_self, rfl⟩

theorem mem_elsewhere_iff {b c : ButtonIrq} {l : List ButtonIrq} {irq : Nat} (other : irq ≠ c.irq.toNat) :
    b ∈ c :: l ∧ irq = b.irq.toNat ↔ b ∈ l ∧ irq = b.irq.toNat := by
  constructor
  · rintro ⟨mem, line⟩
    rcases List.mem_cons.mp mem with rfl | later
    · exact absurd line other
    · exact ⟨later, line⟩
  · rintro ⟨mem, line⟩
    exact ⟨List.mem_cons_of_mem c mem, line⟩

theorem Lines.head_valid {c : ButtonIrq} {l : List ButtonIrq} (h : Lines (c :: l)) : ¬ c.irq < 0 := by
  have valid := h.valid c List.mem_cons_self
  omega

theorem exactly_registered {t : IrqTable} {done : List ButtonIrq} (none : Exactly t [])
    (lines : Lines done) : Exactly (registered t done) done := by
  induction done with
  | nil => exact none
  | cons c done ih =>
    intro irq b
    rw [registered, if_neg lines.head_valid]
    by_cases here : irq = c.irq.toNat
    · subst here
      rw [Function.update_self, lines.here_iff]
      constructor
      · intro same
        cases same
        rfl
      · rintro rfl
        rfl
    · rw [Function.update_of_ne here, ih lines.tail.1 irq b, mem_elsewhere_iff here]

theorem closeEntry_exactly {k : Kernel} {c : ButtonIrq} {l : List ButtonIrq}
    (exactly : Exactly k.table (c :: l)) (lines : Lines (c :: l)) (tidy : Tidy k.table) :
    Exactly (closeEntry c k).table l ∧ Tidy (closeEntry c k).table ∧
      (closeEntry c k).badFrees = k.badFrees := by
  have found := (exactly c.irq.toNat c).mpr ⟨List.mem_cons_self, rfl⟩
  rw [closeEntry, if_neg lines.head_valid, free_irq, if_pos found]
  refine ⟨fun irq b => ?_, fun irq free => ?_, rfl⟩
  · by_cases here : irq = c.irq.toNat
    · subst here
      simp only [Function.update_self]
      constructor
      · intro impossible
        cases impossible
      · rintro ⟨mem, line⟩
        exact absurd line (lines.tail.2 b mem)
    · simp only [Function.update_of_ne here]
      rw [exactly irq b, mem_elsewhere_iff here]
  · by_cases here : irq = c.irq.toNat
    · subst here
      simp only [Function.update_self]
    · simp only [Function.update_of_ne here] at free ⊢
      exact tidy irq free

theorem closeAll_exactly {k : Kernel} {l : List ButtonIrq} (exactly : Exactly k.table l)
    (lines : Lines l) (tidy : Tidy k.table) :
    let k' := l.foldl (fun k b => closeEntry b k) k
    Exactly k'.table [] ∧ Tidy k'.table ∧ k'.badFrees = k.badFrees := by
  induction l generalizing k with
  | nil => exact ⟨exactly, tidy, rfl⟩
  | cons c l ih =>
    obtain ⟨fewer, still, quiet⟩ := closeEntry_exactly exactly lines tidy
    obtain ⟨empty, last, same⟩ := ih fewer lines.tail.1 still
    exact ⟨empty, last, same.trans quiet⟩

theorem buttons_lines : Lines buttons_irqs := ⟨by decide, by decide⟩

theorem request_irq_ok_iff (fails : Bool) (b : ButtonIrq) (k : Kernel) :
    (request_irq fails b k).1 = 0 ↔ (k.table b.irq.toNat).action = none ∧ fails = false := by
  unfold request_irq
  cases fails <;> cases (k.table b.irq.toNat).action <;> simp [EBUSY, ENOMEM]

/-- The loop ends without an error if and only if the kernel refuses none of the requests and
none of the lines has a handler; its own registrations are on other lines. -/
theorem requestLoop_ok_iff (fails : ButtonIrq → Bool) {todo : List ButtonIrq} (lines : Lines todo)
    (done : List ButtonIrq) (k : Kernel) :
    (requestLoop fails todo done k).1 = 0 ↔
      ∀ b ∈ todo, (k.table b.irq.toNat).action = none ∧ fails b = false := by
  induction todo generalizing done k with
  | nil => simp [requestLoop]
  | cons b rest ih =>
    rw [requestLoop, if_neg lines.head_valid, List.forall_mem_cons, ← request_irq_ok_iff]
    rcases request_irq_cases (fails b) b k with ⟨err, -⟩ | ⟨-, ok⟩
    · simp only [if_pos err]
      exact ⟨fun zero => absurd zero err, fun all => absurd all.1 err⟩
    · rw [ok]
      simp only [ne_eq, not_true_eq_false, if_false, true_and]
      rw [ih lines.tail.1]
      refine forall₂_congr fun c later => ?_
      simp only [Function.update_of_ne (lines.tail.2 c later).symm]

theorem open_ok_iff (fails : ButtonIrq → Bool) (s : System) :
    (s3c6410_buttons_open fails s).1 = 0 ↔
      ∀ b ∈ buttons_irqs, (s.kernel.table b.irq.toNat).action = none ∧ fails b = false := by
  rw [← requestLoop_ok_iff fails buttons_lines [] s.kernel]
  unfold s3c6410_buttons_open
  by_cases ok : (requestLoop fails buttons_irqs [] s.kernel).1 = 0
  · simp [ok]
  · simp [ok, EBUSY]

theorem exactly_reverse (t : IrqTable) (l : List ButtonIrq) : Exactly t l.reverse ↔ Exactly t l := by
  simp only [Exactly, List.mem_reverse]

structure Unchanged (s s' : System) : Prop where
  table : Agrees s'.kernel.table s.kernel.table
  quiet : s'.kernel.badFrees = s.kernel.badFrees
  dev : s'.dev = s.dev
  files : s'.files = s.files

structure Opened (s s' : System) : Prop where
  table : s'.kernel.table = registered s.kernel.table buttons_irqs.reverse
  held : Held s.kernel.table buttons_irqs.reverse
  quiet : s'.kernel.badFrees = s.kernel.badFrees
  dev : s'.dev = opened
  files : s'.files = s.files + 1

theorem open_cases (fails : ButtonIrq → Bool) {s : System} (tidy : Tidy s.kernel.table) :
    ((s3c6410_buttons_open fails s).1 = -EBUSY ∧ Unchanged s (s3c6410_buttons_open fails s).2) ∨
    ((s3c6410_buttons_open fails s).1 = 0 ∧ Opened s (s3c6410_buttons_open fails s).2) := by
  obtain ⟨after, eq, held, all⟩ :=
    requestLoop_registered fails s.kernel.table s.kernel.badFrees buttons_irqs [] trivial
  change (requestLoop fails buttons_irqs [] s.kernel).2 = _ at eq
  change (requestLoop fails buttons_irqs [] s.kernel).1 = 0 → _ at all
  rw [List.append_nil] at all
  unfold s3c6410_buttons_open
  by_cases ok : (requestLoop fails buttons_irqs [] s.kernel).1 = 0
  · right
    obtain rfl := all ok
    simp only [ok, ne_eq, not_true_eq_false, if_false, true_and, eq]
    exact ⟨rfl, held, rfl, rfl, rfl⟩
  · left
    simp only [ne_eq, ok, not_false_eq_true, if_true, true_and, eq]
    obtain ⟨back, quiet⟩ := rollback_agrees (k := ⟨registered s.kernel.table after, s.kernel.badFrees⟩)
      tidy held (Agrees.refl _)
    exact ⟨back, quiet, rfl, rfl⟩

theorem Agrees.tidy {t t' : IrqTable} (agrees : Agrees t t') (tidy : Tidy t') : Tidy t := by
  intro irq free
  rw [(agrees irq).2.1]
  exact tidy irq ((agrees irq).1.symm.trans free)

theorem Agrees.exactly {t t' : IrqTable} {l : List ButtonIrq} (agrees : Agrees t t')
    (exactly : Exactly t' l) : Exactly t l := by
  intro irq b
  rw [(agrees irq).1]
  exact exactly irq b

/-- What holds between the calls: at most one file, which holds all the handlers. -/
structure Steady (s : System) : Prop where
  tidy : Tidy s.kernel.table
  quiet : s.kernel.badFrees = 0
  files : s.files ≤ 1
  handlers : Exactly s.kernel.table (if s.files = 0 then [] else buttons_irqs)

section Calls

variable {s s' : System}

theorem Steady.unchanged (steady : Steady s) (same : Unchanged s s') : Steady s' where
  tidy := same.table.tidy steady.tidy
  quiet := same.quiet.trans steady.quiet
  files := by rw [same.files]; exact steady.files
  handlers := by rw [same.files]; exact same.table.exactly steady.handlers

/-- While a file is open its first line is taken, so no further open succeeds. -/
theorem Steady.opened_alone (steady : Steady s) (ok : Opened s s') : s.files = 0 := by
  by_contra busy
  have first := ok.held.1.1.1.2 (by decide)
  have mine := steady.handlers
  rw [if_neg busy] at mine
  have taken := (mine (IRQ_EINT 0).toNat _).mpr ⟨List.mem_cons_self, rfl⟩
  exact absurd (first.symm.trans taken) (by simp)

theorem Steady.alone {fails : ButtonIrq → Bool} (steady : Steady s)
    (zero : (s3c6410_buttons_open fails s).1 = 0) : s.files = 0 := by
  rcases open_cases fails steady.tidy with ⟨busy, -⟩ | ⟨-, ok⟩
  · rw [zero] at busy
    exact absurd busy (by decide)
  · exact steady.opened_alone ok

theorem Steady.opened (steady : Steady s) (ok : Opened s s') :
    Steady s' ∧ Exactly s'.kernel.table buttons_irqs := by
  have alone := steady.opened_alone ok
  have none := steady.handlers
  rw [if_pos alone] at none
  have reversed : Lines buttons_irqs.reverse := ⟨by decide, by decide⟩
  have all : Exactly s'.kernel.table buttons_irqs := by
    rw [ok.table, ← exactly_reverse]
    exact exactly_registered none reversed
  refine ⟨⟨?_, ok.quiet.trans steady.quiet, ?_, ?_⟩, all⟩
  · rw [ok.table]
    exact tidy_registered steady.tidy _
  · have count := ok.files
    omega
  · rw [ok.files, if_neg (Nat.succ_ne_zero _)]
    exact all

theorem Steady.close (steady : Steady s) (file : s.files ≠ 0) :
    Steady (s3c6410_buttons_close s) ∧ Exactly (s3c6410_buttons_close s).kernel.table [] := by
  have mine := steady.handlers
  rw [if_neg file] at mine
  obtain ⟨none, tidy, quiet⟩ := closeAll_exactly mine buttons_lines steady.tidy
  have last : s.files - 1 = 0 := by
    have one := steady.files
    omega
  refine ⟨⟨tidy, quiet.trans steady.quiet, ?_, ?_⟩, none⟩
  · change s.files - 1 ≤ 1
    omega
  · change Exactly _ (if s.files - 1 = 0 then [] else buttons_irqs)
    rw [if_pos last]
    exact none

theorem Steady.perform (steady : Steady s) (c : Call) : Steady (perform s c) := by
  cases c with
  | «open» fails =>
    rcases open_cases fails steady.tidy with ⟨-, same⟩ | ⟨-, ok⟩
    · exact steady.unchanged same
    · exact (steady.opened ok).1
  | close =>
    simp only [Buttons.perform]
    split
    · exact steady
    · rename_i file
      exact (steady.close file).1
  | irq line gpndat =>
    simp only [Buttons.perform]
    split
    · exact ⟨steady.tidy, steady.quiet, steady.files, steady.handlers⟩
    · exact steady

end Calls

/-- In every history of opens and closes, whatever requests fail: no handler is freed
that is not there; an open either fails and changes nothing, or leaves exactly the
handlers of the four buttons; and the close after it leaves none. An open succeeds when no
button has a handler and no request is refused, so never while a file is open. -/
theorem open_close_registrations (s₀ : System) (start : Steady s₀) (calls : List Call) :
    let s := calls.foldl perform s₀
    s.kernel.badFrees = 0 ∧
    (∀ fails,
      ((s3c6410_buttons_open fails s).1 = -EBUSY ∧ Unchanged s (s3c6410_buttons_open fails s).2) ∨
      ((s3c6410_buttons_open fails s).1 = 0 ∧
        Exactly (s3c6410_buttons_open fails s).2.kernel.table buttons_irqs)) ∧
    (∀ fails, (s3c6410_buttons_open fails s).1 = 0 ↔ s.files = 0 ∧
      ∀ b ∈ buttons_irqs, (s.kernel.table b.irq.toNat).action = none ∧ fails b = false) ∧
    (s.files ≠ 0 → Exactly (s3c6410_buttons_close s).kernel.table []) := by
  intro s
  have steady : Steady s := List.foldlRecOn calls perform start fun _ h c _ => h.perform c
  refine ⟨steady.quiet, fun fails => ?_, fun fails => ?_, fun file => (steady.close file).2⟩
  · rcases open_cases fails steady.tidy with failed | ⟨zero, ok⟩
    · exact .inl failed
    · exact .inr ⟨zero, (steady.opened ok).2⟩
  · rw [← open_ok_iff]
    constructor
    · intro zero
      exact ⟨steady.alone zero, zero⟩
    · exact fun ok => ok.2

/-- A board at whose start no handler of the buttons is registered; others may be. -/
def board (others : List Nat) : System where
  kernel := ⟨fun irq => if irq ∈ others then ⟨some (.other 7), 0, false⟩ else ⟨none, 1, true⟩, 0⟩
  dev := ⟨fun _ => 'p', true⟩
  gpncon := 0
  files := 0

theorem board_steady (others : List Nat) : Steady (board others) := by
  refine ⟨fun irq free => ?_, rfl, Nat.zero_le 1, fun irq b => ?_⟩
  all_goals
    simp only [board] at *
    split <;> simp_all

/-- Where another driver has the third line the open fails. On a board of its own the first open
registers the buttons, the second fails and disturbs nothing, and the close leaves no handler. -/
theorem open_close_registrations_boards :
    ((s3c6410_buttons_open (fun _ => false) (board [103])).1 = -EBUSY ∧
      Unchanged (board [103]) (s3c6410_buttons_open (fun _ => false) (board [103])).2) ∧
    ((s3c6410_buttons_open (fun _ => false) (board [])).1 = 0 ∧
      Exactly (s3c6410_buttons_open (fun _ => false) (board [])).2.kernel.table buttons_irqs) ∧
    let s := perform (board []) (.open fun _ => false)
    ((s3c6410_buttons_open (fun _ => false) s).1 = -EBUSY ∧
      Unchanged s (s3c6410_buttons_open (fun _ => false) s).2) ∧
    Exactly (s3c6410_buttons_close s).kernel.table [] := by
  have shared := open_close_registrations (board [103]) (board_steady _) []
  have first := open_close_registrations (board []) (board_steady _) []
  have second := open_close_registrations (board []) (board_steady _) [.open fun _ => false]
  refine ⟨?_, ?_, ?_, second.2.2.2 (by decide)⟩
  · exact (shared.2.1 fun _ => false).resolve_right fun ok => absurd ok.1 (by decide)
  · exact (first.2.1 fun _ => false).resolve_left fun failed => absurd failed.1 (by decide)
  · exact (second.2.1 fun _ => false).resolve_right fun ok => absurd ok.1 (by decide)

end Tiny6410.Buttons
