import Tiny6410.Strings.Search
import Mathlib.Data.List.TakeWhile

/-! The two functions of no-os/stdio/lib/string.c that cut a string into tokens, and the
loops in which their callers use them. -/
namespace Tiny6410.Strings

open Memory CString

/-- What a call returns, what it leaves for the next one, and the memory. NULL is the address
zero. -/
structure Cut where
  token : Word
  rest : Word
  mem : Bytes

/-- The pointer that strpbrk returns. -/
def pointer (found : Option Word) : Word := found.getD 0

def strsep (fuel : Nat) (m : Bytes) (s ct : Word) : Option Cut :=
  let sbegin := s
  if sbegin = 0 then some ⟨0, s, m⟩
  else
    (strpbrk fuel m sbegin ct).map fun found =>
      let stop := pointer found
      if stop ≠ 0 then ⟨sbegin, stop + 1, store m stop 0⟩ else ⟨sbegin, stop, m⟩

/-- The pointer of the last call is ___strtok. -/
def strtok (fuel : Nat) (m : Bytes) (saved s ct : Word) : Option Cut :=
  let sbegin := if s ≠ 0 then s else saved
  if sbegin = 0 then some ⟨0, saved, m⟩
  else
    (strspn fuel m sbegin ct).bind fun skipped =>
      let sbegin := sbegin + skipped
      if m sbegin = 0 then some ⟨0, 0, m⟩
      else
        (strpbrk fuel m sbegin ct).map fun found =>
          let send := pointer found
          if send ≠ 0 ∧ m send ≠ 0 then ⟨sbegin, send + 1, store m send 0⟩ else ⟨sbegin, send, m⟩

/-- `while ((p = strsep(&s, ct)) != NULL)`: each p, and the memory in the end. -/
def separate (fuel : Nat) (ct : Word) : Nat → Bytes → Word → Option (List Word × Bytes)
  | 0, _, _ => none
  | rounds + 1, m, s =>
    (strsep fuel m s ct).bind fun cut =>
      if cut.token = 0 then some ([], cut.mem)
      else (separate fuel ct rounds cut.mem cut.rest).map fun r => (cut.token :: r.1, r.2)

/-- `for (p = strtok(s, ct); p != NULL; p = strtok(NULL, ct))` -/
def tokenize (fuel : Nat) (ct : Word) : Nat → Bytes → Word → Word → Option (List Word × Bytes)
  | 0, _, _, _ => none
  | rounds + 1, m, saved, s =>
    (strtok fuel m saved s ct).bind fun cut =>
      if cut.token = 0 then some ([], cut.mem)
      else (tokenize fuel ct rounds cut.mem cut.rest 0).map fun r => (cut.token :: r.1, r.2)

/-- A part of a text and the place where it starts. -/
abbrev Part := Nat × List Byte

def Part.shift (k : Nat) (p : Part) : Part := (k + p.1, p.2)

/-- Texts one after the other, with one character between them. -/
def placed : Nat → List (List Byte) → List Part
  | _, [] => []
  | i, text :: rest => (i, text) :: placed (i + text.length + 1) rest

/-- The texts between the characters of a set, each with its place. -/
def fields (set text : List Byte) : List Part := placed 0 (text.splitOnP (· ∈ set))

/-- Those that are not empty. -/
def tokens (set text : List Byte) : List Part := (fields set text).filter (·.2 ≠ [])

/-- The text with a zero for each separator. -/
def zeroed (set text : List Byte) : List Byte := text.map fun c => if c ∈ set then 0 else c

/-- The text with a zero for each separator that ends a token. Inside says that the character
before is one of a token. -/
def ended (set : List Byte) (inside : Bool) : List Byte → List Byte
  | [] => []
  | c :: text => if c ∈ set then (if inside then 0 else c) :: ended set false text else c :: ended set true text

/-- What a string that is cut up and the string of its separators have in common: nothing. -/
def Apart (s : Word) (n : Nat) (ct : Word) (k : Nat) : Prop := ∀ j ≤ k, n ≤ offset s (ct + BitVec.ofNat 32 j)

section

variable {m : Bytes} {s ct : Word} {text set : List Byte}

/-- A text has no separator, or one that is the first. -/
theorem first_separator (set text : List Byte) :
    (∀ c ∈ text, c ∉ set) ∨
      ∃ front d rest, text = front ++ d :: rest ∧ (∀ c ∈ front, c ∉ set) ∧ d ∈ set := by
  induction text with
  | nil => simp
  | cons c text ih =>
    by_cases mem : c ∈ set
    · exact Or.inr ⟨[], c, text, rfl, by simp, mem⟩
    · rcases ih with none | ⟨front, d, rest, rfl, none, separator⟩
      · exact Or.inl (by simpa [mem] using none)
      · exact Or.inr ⟨c :: front, d, rest, rfl, by simpa [mem] using none, separator⟩

theorem placed_shift (k i : Nat) (texts : List (List Byte)) :
    placed (k + i) texts = (placed i texts).map (Part.shift k) := by
  induction texts generalizing i with
  | nil => rfl
  | cons text rest ih =>
    rw [placed, placed, List.map_cons, ← ih, Nat.add_assoc k, Nat.add_assoc k]
    rfl

theorem fields_none (none : ∀ c ∈ text, c ∉ set) : fields set text = [(0, text)] := by
  rw [fields, List.splitOnP_eq_singleton (by simpa using none)]
  rfl

theorem fields_cut {front rest : List Byte} {d : Byte} (none : ∀ c ∈ front, c ∉ set) (separator : d ∈ set) :
    fields set (front ++ d :: rest) = (0, front) :: (fields set rest).map (Part.shift (front.length + 1)) := by
  have split := List.splitOnP_append_cons_of_forall_mem (p := (· ∈ set)) (by simpa using none) d
    (by simpa using separator) rest
  rw [fields, split, placed, fields, ← placed_shift, Nat.zero_add, Nat.add_zero]

theorem zeroed_none (none : ∀ c ∈ text, c ∉ set) : zeroed set text = text :=
  (List.map_congr_left fun c mem => if_neg (none c mem)).trans (List.map_id' text)

theorem ended_none (inside : Bool) (none : ∀ c ∈ text, c ∉ set) : ended set inside text = text := by
  induction text generalizing inside with
  | nil => rfl
  | cons c text ih =>
    obtain ⟨here, others⟩ := List.forall_mem_cons.mp none
    rw [ended, if_neg here, ih true others]

theorem ended_cut {token rest : List Byte} {d : Byte} (inside : Bool) (filled : token ≠ [])
    (none : ∀ c ∈ token, c ∉ set) (separator : d ∈ set) :
    ended set inside (token ++ d :: rest) = token ++ 0 :: ended set false rest := by
  induction token generalizing inside with
  | nil => exact absurd rfl filled
  | cons c token ih =>
    obtain ⟨here, others⟩ := List.forall_mem_cons.mp none
    rw [List.cons_append, ended, if_neg here]
    cases token with
    | nil => rw [List.nil_append, ended, if_pos separator, if_pos rfl, List.singleton_append]
    | cons e token =>
      rw [ih true (List.cons_ne_nil _ _) others]
      rfl

theorem ended_lead {lead body : List Byte} (leads : ∀ c ∈ lead, c ∈ set) :
    ended set false (lead ++ body) = lead ++ ended set false body := by
  induction lead with
  | nil => rfl
  | cons c lead ih =>
    obtain ⟨here, others⟩ := List.forall_mem_cons.mp leads
    rw [List.cons_append, ended, if_pos here, if_neg Bool.false_ne_true, ih others, List.cons_append]

theorem length_ended (set text : List Byte) (inside : Bool) : (ended set inside text).length = text.length := by
  induction text generalizing inside with
  | nil => rfl
  | cons c text ih =>
    rw [ended]
    split
    · rw [List.length_cons, ih, List.length_cons]
    · rw [List.length_cons, ih, List.length_cons]

theorem Apart.behind {k n c : Nat} (apart : Apart s (k + n) ct c) : Apart (s + BitVec.ofNat 32 k) n ct c := by
  intro j within
  have far := apart j within
  have bound := offset_lt s (ct + BitVec.ofNat 32 j)
  rw [offset_shift _ _ (by omega), if_pos (by omega)]
  omega

theorem separators_kept {a : Word} (spells : Spells m ct set) {n : Nat} (apart : Apart s n ct set.length)
    (inside : offset s a < n) (b : Byte) : Spells (store m a b) ct set := by
  refine spells.congr fun j within => store_of_ne m b ?_
  rintro rfl
  have far := apart j within
  omega

section Calls

variable {fuel : Nat} {d : Byte} {front rest : List Byte}

theorem strpbrk_last (spells : Spells m s text) (spells' : Spells m ct set) (enough : text.length < fuel)
    (enough' : set.length < fuel) (none : ∀ c ∈ text, c ∉ set) : strpbrk fuel m s ct = some .none := by
  have whole : (text.takeWhile (· ∉ set)).length = text.length := by
    rw [List.takeWhile_eq_self_iff.mpr (by simpa using none)]
  rw [strpbrk, breakFrom_eq spells spells' enough enough', if_pos whole]

theorem strpbrk_cut (spells : Spells m s (front ++ d :: rest)) (spells' : Spells m ct set)
    (enough : (front ++ d :: rest).length < fuel) (enough' : set.length < fuel) (none : ∀ c ∈ front, c ∉ set)
    (separator : d ∈ set) : strpbrk fuel m s ct = some (some (s + BitVec.ofNat 32 front.length)) := by
  have taken : (front ++ d :: rest).takeWhile (· ∉ set) = front := by
    rw [List.takeWhile_append_of_pos (by simpa using none), List.takeWhile_cons_of_neg (by simpa using separator),
      List.append_nil]
  rw [strpbrk, breakFrom_eq spells spells' enough enough', taken, if_neg]
  rw [List.length_append, List.length_cons]
  omega

end Calls

theorem place_step (s : Word) (k i : Nat) :
    s + BitVec.ofNat 32 (k + i) = s + BitVec.ofNat 32 k + BitVec.ofNat 32 i := by
  rw [BitVec.ofNat_add, BitVec.add_assoc]

theorem place_toNat {k : Nat} (fits : s.toNat + k < 2 ^ 32) : (s + BitVec.ofNat 32 k).toNat = s.toNat + k := by
  rw [BitVec.toNat_add, BitVec.toNat_ofNat]
  omega

theorem place_ne_zero {k : Nat} (start : s ≠ 0) (fits : s.toNat + k < 2 ^ 32) : s + BitVec.ofNat 32 k ≠ 0 := by
  intro zero
  have place := place_toNat fits
  rw [zero] at place
  have none : s.toNat = 0 := Nat.eq_zero_of_add_eq_zero_right place.symm
  exact start (BitVec.eq_of_toNat_eq none)

/-- What the calls rely on, and what one of them leaves for those behind it. -/
structure Ready (m : Bytes) (s : Word) (text : List Byte) (ct : Word) (set : List Byte) : Prop where
  start : s ≠ 0
  fits : s.toNat + text.length < 2 ^ 32
  spells : Spells m s text
  separators : Spells m ct set
  apart : Apart s text.length ct set.length

theorem Ready.behind {lead body : List Byte} (ready : Ready m s (lead ++ body) ct set) :
    Ready m (s + BitVec.ofNat 32 lead.length) body ct set := by
  obtain ⟨start, fits, spells, separators, apart⟩ := ready
  rw [List.length_append] at fits apart
  have place : (s + BitVec.ofNat 32 lead.length).toNat = s.toNat + lead.length := place_toNat (by omega)
  exact ⟨place_ne_zero start (by omega), by omega, spells.behind, separators, apart.behind⟩

theorem Ready.cut {front rest : List Byte} {d : Byte} (ready : Ready m s (front ++ d :: rest) ct set) :
    Ready (store m (s + BitVec.ofNat 32 front.length) 0) (s + BitVec.ofNat 32 (front.length + 1)) rest ct set := by
  obtain ⟨start, fits, spells, separators, apart⟩ := ready
  have length : (front ++ d :: rest).length = front.length + 1 + rest.length := by
    rw [List.length_append, List.length_cons]
    omega
  rw [length] at fits apart
  have inside : offset s (s + BitVec.ofNat 32 front.length) < front.length + 1 + rest.length := by
    rw [offset_add s (by omega)]
    omega
  have place : (s + BitVec.ofNat 32 (front.length + 1)).toNat = s.toNat + (front.length + 1) :=
    place_toNat (by omega)
  exact ⟨place_ne_zero start (by omega), by omega, spells.cut.2, separators_kept separators apart inside 0,
    apart.behind⟩

/-- The parts stand at their places in the memory that a run leaves, each as a string. The
text has become the one after, and nothing else has changed. -/
structure Cuts (m : Bytes) (s : Word) (after : List Byte) (parts : List Part) (r : List Word × Bytes) : Prop where
  places : r.1 = parts.map fun p => s + BitVec.ofNat 32 p.1
  spelled : ∀ p ∈ parts, Spells r.2 (s + BitVec.ofNat 32 p.1) p.2
  bytes : ∀ i < after.length, r.2 (s + BitVec.ofNat 32 i) = after.getD i 0
  kept : ∀ x, after.length ≤ offset s x → r.2 x = m x

theorem shifted_places (s : Word) (k : Nat) (parts : List Part) :
    (parts.map (Part.shift k)).map (fun p => s + BitVec.ofNat 32 p.1) =
      parts.map fun p => s + BitVec.ofNat 32 k + BitVec.ofNat 32 p.1 := by
  rw [List.map_map]
  exact List.map_congr_left fun p _ => place_step s k p.1

/-- The text behind what a run has cut up, in front of which nothing is changed. -/
theorem Cuts.behind {lead body after : List Byte} {parts : List Part} {r : List Word × Bytes}
    (spells : Spells m s (lead ++ body)) (same : after.length = body.length)
    (cuts : Cuts m (s + BitVec.ofNat 32 lead.length) after parts r) :
    Cuts m s (lead ++ after) (parts.map (Part.shift lead.length)) r := by
  have short := spells.short
  rw [List.length_append] at short
  constructor
  case places => exact cuts.places.trans (shifted_places s lead.length parts).symm
  case spelled =>
    intro p mem
    obtain ⟨q, inner, rfl⟩ := List.mem_map.mp mem
    rw [Part.shift, place_step]
    exact cuts.spelled q inner
  case bytes =>
    intro i within
    rw [List.length_append] at within
    rcases Nat.lt_or_ge i lead.length with before | beyond
    · have far : after.length ≤ offset (s + BitVec.ofNat 32 lead.length) (s + BitVec.ofNat 32 i) := by
        rw [offset_shift _ _ (by omega), offset_add s (by omega), if_neg (by omega)]
        omega
      rw [cuts.kept _ far, spells.byte (by rw [List.length_append]; omega), List.getD_append _ _ _ _ before,
        List.getD_append _ _ _ _ before]
    · obtain ⟨j, rfl⟩ := Nat.exists_eq_add_of_le beyond
      rw [place_step, cuts.bytes j (by omega), List.getD_append_right _ _ _ _ beyond, Nat.add_sub_cancel_left]
  case kept =>
    intro x far
    rw [List.length_append] at far
    have bound := offset_lt s x
    exact cuts.kept x (by rw [offset_shift _ _ (by omega), if_pos (by omega)]; omega)

/-- A part in front of what a run has cut up, and the zero that ends it. -/
theorem Cuts.cons {front rest after : List Byte} {d : Byte} {parts : List Part} {r : List Word × Bytes}
    (spells : Spells m s (front ++ d :: rest)) (same : after.length = rest.length)
    (cuts : Cuts (store m (s + BitVec.ofNat 32 front.length) 0) (s + BitVec.ofNat 32 (front.length + 1))
      after parts r) :
    Cuts m s (front ++ 0 :: after) ((0, front) :: parts.map (Part.shift (front.length + 1))) (s :: r.1, r.2) := by
  have short := spells.short
  rw [List.length_append, List.length_cons] at short
  have before : ∀ i ≤ front.length, r.2 (s + BitVec.ofNat 32 i) =
      store m (s + BitVec.ofNat 32 front.length) 0 (s + BitVec.ofNat 32 i) := by
    intro i within
    refine cuts.kept _ ?_
    rw [offset_shift _ _ (by omega), offset_add s (by omega), if_neg (by omega)]
    omega
  have apart : ∀ x, offset s x ≠ front.length → x ≠ s + BitVec.ofNat 32 front.length := by
    rintro x other rfl
    exact other (offset_add s (by omega))
  constructor
  case places => rw [List.map_cons, shifted_places, ← cuts.places, BitVec.add_zero]
  case spelled =>
    intro p mem
    rcases List.mem_cons.mp mem with rfl | mem
    · rw [BitVec.add_zero]
      exact spells.cut.1.congr before
    · obtain ⟨q, inner, rfl⟩ := List.mem_map.mp mem
      rw [Part.shift, place_step]
      exact cuts.spelled q inner
  case bytes =>
    intro i within
    rw [List.length_append, List.length_cons] at within
    rcases Nat.lt_trichotomy i front.length with less | rfl | more
    · rw [before i (Nat.le_of_lt less), store_of_ne _ _ (apart _ (by rw [offset_add s (by omega)]; omega)),
        spells.byte (by rw [List.length_append]; omega), List.getD_append _ _ _ _ less, List.getD_append _ _ _ _ less]
    · rw [before _ le_rfl, store_same, List.getD_append_right _ _ _ _ le_rfl, Nat.sub_self, List.getD_cons_zero]
    · obtain ⟨j, rfl⟩ := Nat.exists_eq_add_of_le (Nat.succ_le_of_lt more)
      rw [Nat.succ_eq_add_one, place_step, cuts.bytes j (by omega), List.getD_append_right _ _ _ _ (by omega)]
      have index : front.length + 1 + j - front.length = j + 1 := by omega
      rw [index, List.getD_cons_succ]
  case kept =>
    intro x far
    rw [List.length_append, List.length_cons] at far
    have bound := offset_lt s x
    rw [cuts.kept x (by rw [offset_shift _ _ (by omega), if_pos (by omega)]; omega)]
    exact store_of_ne _ _ (apart x (by omega))

/-- A string that is one part, whole. -/
theorem Cuts.whole (spells : Spells m s text) : Cuts m s text [(0, text)] ([s], m) := by
  refine ⟨by rw [List.map_singleton, BitVec.add_zero], fun p mem => ?_,
    fun i within => spells.byte (Nat.le_of_lt within), fun x _ => rfl⟩
  rw [List.mem_singleton.mp mem, BitVec.add_zero]
  exact spells

theorem strsep_last {fuel : Nat} (start : s ≠ 0) (spells : Spells m s text) (spells' : Spells m ct set)
    (enough : text.length < fuel) (enough' : set.length < fuel) (none : ∀ c ∈ text, c ∉ set) :
    strsep fuel m s ct = some ⟨s, 0, m⟩ := by
  rw [strsep, if_neg start, strpbrk_last spells spells' enough enough' none]
  rfl

theorem strsep_cut {fuel : Nat} {front rest : List Byte} {d : Byte} (start : s ≠ 0)
    (fits : s.toNat + front.length < 2 ^ 32) (spells : Spells m s (front ++ d :: rest))
    (spells' : Spells m ct set) (enough : (front ++ d :: rest).length < fuel) (enough' : set.length < fuel)
    (none : ∀ c ∈ front, c ∉ set) (separator : d ∈ set) :
    strsep fuel m s ct = some ⟨s, s + BitVec.ofNat 32 (front.length + 1),
      store m (s + BitVec.ofNat 32 front.length) 0⟩ := by
  have found := place_ne_zero start fits
  rw [strsep, if_neg start, strpbrk_cut spells spells' enough enough' none separator, Option.map_some]
  simp only [pointer, Option.getD_some, ne_eq, found, not_false_eq_true, if_true, place_step]
  rfl

/-- Calls of strsep until it returns NULL give the fields of the text, each at its place, and
put a zero for each separator. -/
theorem separate_cuts {fuel rounds : Nat} (start : s ≠ 0) (fits : s.toNat + text.length < 2 ^ 32)
    (spells : Spells m s text) (spells' : Spells m ct set) (apart : Apart s text.length ct set.length)
    (enough : text.length < fuel) (enough' : set.length < fuel) (often : text.length + 1 < rounds) :
    ∃ r, separate fuel ct rounds m s = some r ∧ Cuts m s (zeroed set text) (fields set text) r := by
  have ready : Ready m s text ct set := ⟨start, fits, spells, spells', apart⟩
  clear start fits spells spells' apart
  obtain ⟨rounds, rfl⟩ : ∃ k, rounds = k + 1 := ⟨rounds - 1, by omega⟩
  induction length : text.length using Nat.strong_induction_on generalizing m s text rounds with
  | h n ih =>
    subst length
    have ⟨start, fits, spells, separators, apart⟩ := ready
    rcases first_separator set text with none | ⟨front, d, rest, rfl, none, separator⟩
    · obtain ⟨rounds, rfl⟩ : ∃ k, rounds = k + 1 := ⟨rounds - 1, by omega⟩
      refine ⟨([s], m), ?_, ?_⟩
      · rw [separate, strsep_last start spells separators enough enough' none, Option.bind_some, if_neg start]
        rfl
      · rw [fields_none none, zeroed_none none]
        exact .whole spells
    · have length : (front ++ d :: rest).length = front.length + 1 + rest.length := by
        rw [List.length_append, List.length_cons]
        omega
      obtain ⟨rounds, rfl⟩ : ∃ k, rounds = k + 1 := ⟨rounds - 1, by omega⟩
      obtain ⟨r, run, cuts⟩ := ih rest.length (by omega) (by omega) ready.cut rounds (by omega) rfl
      refine ⟨(s :: r.1, r.2), ?_, ?_⟩
      · rw [separate, strsep_cut start (by omega) spells separators enough enough' none separator, Option.bind_some,
          if_neg start]
        simp only [run, Option.map_some]
      · have zeros : zeroed set (front ++ d :: rest) = front ++ 0 :: zeroed set rest := by
          rw [zeroed, List.map_append, List.map_cons, if_pos separator]
          exact congrArg (· ++ 0 :: zeroed set rest) (zeroed_none none)
        rw [fields_cut none separator, zeros]
        exact cuts.cons spells (List.length_map _)

theorem sample_apart : Apart 16 3 20 1 := by
  intro j within
  rcases Nat.le_one_iff_eq_zero_or_eq_one.mp within with rfl | rfl
  · decide
  · decide

theorem separate_cuts_sample : ∃ r, separate 4 20 5 sample 16 = some r ∧
    Cuts sample 16 [97, 0, 99] [(0, [97]), (2, [99])] r :=
  separate_cuts (by decide) (by decide) sample_text sample_letter sample_apart (by decide) (by decide) (by decide)

/-- What is in front of the first token, the token and what is behind it. -/
inductive Shape (set : List Byte) : List Byte → Prop
  | empty {lead : List Byte} : (∀ c ∈ lead, c ∈ set) → Shape set lead
  | last {lead token : List Byte} : (∀ c ∈ lead, c ∈ set) → token ≠ [] → (∀ c ∈ token, c ∉ set) →
      Shape set (lead ++ token)
  | more {lead token rest : List Byte} {d : Byte} : (∀ c ∈ lead, c ∈ set) → token ≠ [] → (∀ c ∈ token, c ∉ set) →
      d ∈ set → Shape set (lead ++ (token ++ d :: rest))

theorem shape (set text : List Byte) : Shape set text := by
  have leads : ∀ c ∈ text.takeWhile (· ∈ set), c ∈ set := fun c mem => by simpa using List.mem_takeWhile_imp mem
  rw [← List.takeWhile_append_dropWhile (p := (· ∈ set)) (l := text)]
  cases behind : text.dropWhile (· ∈ set) with
  | nil =>
    rw [List.append_nil]
    exact .empty leads
  | cons c body =>
    have start : c ∉ set := by
      have head := List.head?_dropWhile_not (· ∈ set) text
      rw [behind] at head
      simpa using head
    rcases first_separator set (c :: body) with none | ⟨front, d, rest, split, none, separator⟩
    · exact .last leads (List.cons_ne_nil _ _) none
    · rw [split]
      refine .more leads ?_ none separator
      rintro rfl
      cases split
      exact start separator

theorem tokens_cut {front rest : List Byte} {d : Byte} (none : ∀ c ∈ front, c ∉ set) (separator : d ∈ set) :
    tokens set (front ++ d :: rest) =
      if front = [] then (tokens set rest).map (Part.shift 1)
      else (0, front) :: (tokens set rest).map (Part.shift (front.length + 1)) := by
  have later (k : Nat) : ((fields set rest).map (Part.shift k)).filter (·.2 ≠ []) =
      (tokens set rest).map (Part.shift k) := List.filter_map
  rw [tokens, fields_cut none separator]
  split
  · rename_i empty
    rw [empty, List.filter_cons_of_neg (by simp), later]
    rfl
  · rename_i filled
    rw [List.filter_cons_of_pos (by simpa using filled), later]

theorem tokens_lead {lead body : List Byte} (leads : ∀ c ∈ lead, c ∈ set) :
    tokens set (lead ++ body) = (tokens set body).map (Part.shift lead.length) := by
  induction lead with
  | nil =>
    have same : Part.shift 0 = id := by
      funext p
      rw [Part.shift, Nat.zero_add]
      rfl
    rw [List.length_nil, same, List.map_id, List.nil_append]
  | cons c lead ih =>
    obtain ⟨here, others⟩ := List.forall_mem_cons.mp leads
    have cut := @tokens_cut set [] (lead ++ body) c (by simp) here
    rw [List.nil_append, if_pos rfl] at cut
    rw [List.cons_append, cut, ih others, List.map_map]
    refine List.map_congr_left fun p _ => ?_
    simp only [Function.comp_apply, Part.shift, List.length_cons]
    rw [← Nat.add_assoc, Nat.add_comm 1]

theorem tokens_none (filled : text ≠ []) (none : ∀ c ∈ text, c ∉ set) : tokens set text = [(0, text)] := by
  rw [tokens, fields_none none, List.filter_cons_of_pos (by simpa using filled)]
  rfl

theorem tokens_nil : tokens set [] = [] := by
  rw [tokens, fields_none (by simp)]
  rfl

/-- The call that starts in front of a token. -/
theorem strtok_starts {fuel : Nat} {saved arg : Word} {lead body : List Byte}
    (starts : (if arg ≠ 0 then arg else saved) = s) (start : s ≠ 0)
    (spells : Spells m s (lead ++ body)) (spells' : Spells m ct set) (enough : (lead ++ body).length < fuel)
    (enough' : set.length < fuel) (leads : ∀ c ∈ lead, c ∈ set) (front : ∀ c ∈ body.head?, c ∉ set) :
    strtok fuel m saved arg ct =
      if m (s + BitVec.ofNat 32 lead.length) = 0 then some ⟨0, 0, m⟩
      else (strpbrk fuel m (s + BitVec.ofNat 32 lead.length) ct).map fun found =>
        if pointer found ≠ 0 ∧ m (pointer found) ≠ 0 then
          ⟨s + BitVec.ofNat 32 lead.length, pointer found + 1, store m (pointer found) 0⟩
        else ⟨s + BitVec.ofNat 32 lead.length, pointer found, m⟩ := by
  have taken : (lead ++ body).takeWhile (· ∈ set) = lead := by
    rw [List.takeWhile_append_of_pos (by simpa using leads)]
    cases body with
    | nil => simp
    | cons c body =>
      rw [List.takeWhile_cons_of_neg (by simpa using front), List.append_nil]
  have span : strspn fuel m s ct = some (BitVec.ofNat 32 lead.length) := by
    rw [strspn, spanFrom_eq spells spells' enough enough', taken]
    simp
  simp only [strtok, starts, if_neg start, span, Option.bind_some]

theorem strtok_none {fuel : Nat} {saved arg : Word} (starts : (if arg ≠ 0 then arg else saved) = s) (start : s ≠ 0)
    (spells : Spells m s text) (spells' : Spells m ct set) (enough : text.length < fuel) (enough' : set.length < fuel)
    (leads : ∀ c ∈ text, c ∈ set) : strtok fuel m saved arg ct = some ⟨0, 0, m⟩ := by
  have whole : Spells m s (text ++ []) := by rwa [List.append_nil]
  rw [strtok_starts starts start whole spells' (by rwa [List.append_nil]) enough' leads (by simp), if_pos spells.ended]

theorem strtok_last {fuel : Nat} {saved arg : Word} {lead token : List Byte}
    (starts : (if arg ≠ 0 then arg else saved) = s) (start : s ≠ 0)
    (spells : Spells m s (lead ++ token)) (spells' : Spells m ct set) (enough : (lead ++ token).length < fuel)
    (enough' : set.length < fuel) (leads : ∀ c ∈ lead, c ∈ set) (filled : token ≠ []) (none : ∀ c ∈ token, c ∉ set) :
    strtok fuel m saved arg ct = some ⟨s + BitVec.ofNat 32 lead.length, 0, m⟩ := by
  have first : ∀ c ∈ token.head?, c ∉ set := fun c mem => none c (List.mem_of_mem_head? mem)
  have here := spells.behind
  have nonzero : m (s + BitVec.ofNat 32 lead.length) ≠ 0 := by
    simpa using here.inside (List.length_pos_iff.mpr filled)
  rw [strtok_starts starts start spells spells' enough enough' leads first, if_neg nonzero]
  rw [List.length_append] at enough
  rw [strpbrk_last here spells' (by omega) enough' none, Option.map_some]
  rfl

theorem strtok_cut {fuel : Nat} {saved arg : Word} {lead token rest : List Byte} {d : Byte}
    (starts : (if arg ≠ 0 then arg else saved) = s) (start : s ≠ 0)
    (fits : s.toNat + lead.length + token.length < 2 ^ 32)
    (spells : Spells m s (lead ++ (token ++ d :: rest))) (spells' : Spells m ct set)
    (enough : (lead ++ (token ++ d :: rest)).length < fuel) (enough' : set.length < fuel)
    (leads : ∀ c ∈ lead, c ∈ set) (filled : token ≠ []) (none : ∀ c ∈ token, c ∉ set) (separator : d ∈ set) :
    strtok fuel m saved arg ct = some ⟨s + BitVec.ofNat 32 lead.length,
      s + BitVec.ofNat 32 lead.length + BitVec.ofNat 32 (token.length + 1),
      store m (s + BitVec.ofNat 32 lead.length + BitVec.ofNat 32 token.length) 0⟩ := by
  have front : ∀ c ∈ (token ++ d :: rest).head?, c ∉ set := by
    intro c mem
    rw [List.head?_append_of_ne_nil _ filled] at mem
    exact none c (List.mem_of_mem_head? mem)
  have here := spells.behind
  have inside : token.length < (token ++ d :: rest).length := by
    rw [List.length_append, List.length_cons]
    omega
  have nonzero : m (s + BitVec.ofNat 32 lead.length) ≠ 0 := by
    simpa using here.inside (i := 0) (by omega)
  have separate : m (s + BitVec.ofNat 32 lead.length + BitVec.ofNat 32 token.length) ≠ 0 := here.inside inside
  have found : s + BitVec.ofNat 32 lead.length + BitVec.ofNat 32 token.length ≠ 0 := by
    rw [← place_step]
    exact place_ne_zero start (by omega)
  rw [strtok_starts starts start spells spells' enough enough' leads front, if_neg nonzero]
  rw [List.length_append] at enough
  rw [strpbrk_cut here spells' (by omega) enough' none separator, Option.map_some]
  simp only [pointer, Option.getD_some, ne_eq, found, separate, not_false_eq_true, and_self, if_true,
    place_step _ token.length 1]
  rfl

/-- Calls of strtok until it returns NULL give the fields that are not empty, each at its
place, and put a zero for each separator behind one of them, and for no other. -/
theorem tokenize_cuts {fuel rounds : Nat} {saved arg : Word} (starts : (if arg ≠ 0 then arg else saved) = s)
    (start : s ≠ 0) (fits : s.toNat + text.length < 2 ^ 32)
    (spells : Spells m s text) (spells' : Spells m ct set) (apart : Apart s text.length ct set.length)
    (enough : text.length < fuel) (enough' : set.length < fuel) (often : text.length + 1 < rounds) :
    ∃ r, tokenize fuel ct rounds m saved arg = some r ∧ Cuts m s (ended set false text) (tokens set text) r := by
  have ready : Ready m s text ct set := ⟨start, fits, spells, spells', apart⟩
  clear start fits spells spells' apart
  obtain ⟨rounds, rfl⟩ : ∃ k, rounds = k + 1 := ⟨rounds - 1, by omega⟩
  induction length : text.length using Nat.strong_induction_on generalizing m s text saved arg rounds with
  | h n ih =>
    subst length
    have ⟨start, fits, spells, separators, apart⟩ := ready
    cases shape set text with
    | empty leads =>
      refine ⟨([], m), ?_, ?_⟩
      · rw [tokenize, strtok_none starts start spells separators enough enough' leads]
        rfl
      · have lead := @tokens_lead set text [] leads
        have kept := @ended_lead set text [] leads
        rw [List.append_nil, tokens_nil] at lead
        rw [List.append_nil, ended, List.append_nil] at kept
        rw [lead, kept]
        exact ⟨rfl, fun p mem => absurd mem List.not_mem_nil, fun i within => spells.byte (Nat.le_of_lt within),
          fun x _ => rfl⟩
    | @last lead token leads filled none =>
      obtain ⟨rounds, rfl⟩ : ∃ k, rounds = k + 1 := ⟨rounds - 1, by omega⟩
      refine ⟨([s + BitVec.ofNat 32 lead.length], m), ?_, ?_⟩
      · rw [tokenize, strtok_last starts start spells separators enough enough' leads filled none, Option.bind_some,
          if_neg ready.behind.start]
        rfl
      · rw [tokens_lead leads, tokens_none filled none, ended_lead leads, ended_none false none]
        exact .behind spells rfl (.whole spells.behind)
    | @more lead token rest d leads filled none separator =>
      obtain ⟨rounds, rfl⟩ : ∃ k, rounds = k + 1 := ⟨rounds - 1, by omega⟩
      have length : (lead ++ (token ++ d :: rest)).length = lead.length + (token.length + 1 + rest.length) := by
        rw [List.length_append, List.length_append, List.length_cons]
        omega
      obtain ⟨r, run, cuts⟩ := @ih rest.length (by omega) _ _ _
        (s + BitVec.ofNat 32 lead.length + BitVec.ofNat 32 (token.length + 1)) 0 (if_neg (not_not.mpr rfl)) (by omega)
        ready.behind.cut rounds (by omega) rfl
      refine ⟨((s + BitVec.ofNat 32 lead.length) :: r.1, r.2), ?_, ?_⟩
      · rw [tokenize, strtok_cut starts start (by omega) spells separators enough enough' leads filled none separator,
          Option.bind_some, if_neg ready.behind.start]
        simp only [run, Option.map_some]
      · rw [tokens_lead leads, tokens_cut none separator, if_neg filled, ended_lead leads,
          ended_cut false filled none separator]
        refine .behind spells ?_ (cuts.cons spells.behind (length_ended set rest false))
        rw [List.length_append, List.length_append, List.length_cons, List.length_cons, length_ended]

theorem tokenize_cuts_sample : ∃ r, tokenize 4 20 5 sample 0 16 = some r ∧
    Cuts sample 16 [97, 0, 99] [(0, [97]), (2, [99])] r :=
  tokenize_cuts (show (if (16 : Word) ≠ 0 then 16 else 0) = 16 from rfl) (by decide) (by decide) sample_text
    sample_letter sample_apart (by decide) (by decide) (by decide)

end

end Tiny6410.Strings
