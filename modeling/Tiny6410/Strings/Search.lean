import Tiny6410.Strings.Compare
import Mathlib.Data.List.Infix

/-! The functions of no-os/stdio/lib/string.c that read strings and blocks of memory.
A pointer that may be NULL is an option; a loop without a count has a bound on its rounds. -/
namespace Tiny6410.Strings

open Memory CString

def strlen (fuel : Nat) (m : Bytes) (s : Word) : Option Word := (skip fuel m s).map fun sc => sc - s

theorem strlen_eq {fuel : Nat} {m : Bytes} {s : Word} {text : List Byte} (spells : Spells m s text)
    (enough : text.length < fuel) : strlen fuel m s = some (BitVec.ofNat 32 text.length) := by
  rw [strlen, skip_eq spells, if_pos enough, Option.map_some, BitVec.add_comm, BitVec.add_sub_cancel]

/-- The loop of strstr. -/
def findFrom : Nat → Bytes → Word → Word → Word → Word → Option (Option Word)
  | 0, _, _, _, _, _ => none
  | fuel + 1, m, s1, s2, l1, l2 =>
    if l2.sle l1 then
      if memcmp m s1 s2 l2.toNat = 0 then some (some s1) else findFrom fuel m (s1 + 1) s2 (l1 - 1) l2
    else some none

def strstr (fuel : Nat) (m : Bytes) (s1 s2 : Word) : Option (Option Word) :=
  (strlen fuel m s2).bind fun l2 =>
    if l2 = 0 then some (some s1)
    else (strlen fuel m s1).bind fun l1 => findFrom fuel m s1 s2 l1 l2

section

variable {m : Bytes} {s s1 s2 : Word} {text pattern : List Byte}

/-- Where the pattern first starts in the text. -/
structure First (pattern text : List Byte) (i : Nat) : Prop where
  within : i ≤ text.length
  here : pattern <+: text.drop i
  before : ∀ j < i, ¬ pattern <+: text.drop j

/-- What a search for the pattern in the text at an address says. -/
inductive Finds (pattern text : List Byte) (s : Word) : Option Word → Prop
  | found {i : Nat} : First pattern text i → Finds pattern text s (some (s + BitVec.ofNat 32 i))
  | absent : ¬ pattern <:+: text → Finds pattern text s none

theorem sle_lengths {n k : Nat} (hn : n < 2 ^ 31) (hk : k < 2 ^ 31) :
    (BitVec.ofNat 32 n).sle (BitVec.ofNat 32 k) = true ↔ n ≤ k := by
  have small : ∀ i < 2 ^ 31, (BitVec.ofNat 32 i).toInt = i := by
    intro i low
    rw [BitVec.toInt_eq_toNat_of_lt] <;> simp only [BitVec.toNat_ofNat] <;> omega
  rw [BitVec.sle_iff_toInt_le, small n hn, small k hk, Int.ofNat_le]

theorem First.start (prefixed : pattern <+: text) : First pattern text 0 :=
  ⟨Nat.zero_le _, prefixed, fun _ low => absurd low (Nat.not_lt_zero _)⟩

theorem First.later {c : Byte} {i : Nat} (first : First pattern text i) (apart : ¬ pattern <+: c :: text) :
    First pattern (c :: text) (i + 1) := by
  refine ⟨Nat.succ_le_succ first.within, first.here, fun j low => ?_⟩
  cases j with
  | zero => exact apart
  | succ j => exact first.before j (Nat.lt_of_succ_lt_succ low)

theorem Finds.later {c : Byte} {r : Option Word} (finds : Finds pattern text (s + 1) r)
    (apart : ¬ pattern <+: c :: text) : Finds pattern (c :: text) s r := by
  cases finds with
  | found first =>
    rw [step_add]
    exact .found (first.later apart)
  | absent none =>
    refine .absent fun infixed => ?_
    rcases List.infix_cons_iff.mp infixed with prefixed | behind
    · exact apart prefixed
    · exact none behind

theorem findFrom_finds {fuel : Nat} (spells : Spells m s1 text) (spells' : Spells m s2 pattern)
    (filled : pattern ≠ []) (small : text.length < 2 ^ 31) (small' : pattern.length < 2 ^ 31)
    (enough : text.length < fuel) :
    ∃ r, findFrom fuel m s1 s2 (BitVec.ofNat 32 text.length) (BitVec.ofNat 32 pattern.length) = some r ∧
      Finds pattern text s1 r := by
  have counted : (BitVec.ofNat 32 pattern.length).toNat = pattern.length := by
    rw [BitVec.toNat_ofNat, Nat.mod_eq_of_lt (by omega)]
  obtain ⟨fuel, rfl⟩ : ∃ k, fuel = k + 1 := ⟨fuel - 1, by omega⟩
  induction text generalizing s1 fuel with
  | nil =>
    have longer := List.length_pos_iff.mpr filled
    refine ⟨none, ?_, .absent fun infixed => filled (List.infix_nil.mp infixed)⟩
    rw [findFrom, if_neg]
    rw [sle_lengths small' (by decide), List.length_nil]
    omega
  | cons c text ih =>
    rw [findFrom, counted]
    split
    · split
      · rename_i same
        have prefixed := (memcmp_prefix_iff spells spells').mp same
        refine ⟨_, rfl, ?_⟩
        simpa using Finds.found (s := s1) (First.start prefixed)
      · rename_i other
        obtain ⟨fuel, rfl⟩ : ∃ k, fuel = k + 1 := ⟨fuel - 1, by rw [List.length_cons] at enough; omega⟩
        rw [List.length_cons] at small enough
        have counter : BitVec.ofNat 32 (c :: text).length - 1 = BitVec.ofNat 32 text.length := by
          rw [List.length_cons, BitVec.ofNat_add]
          exact BitVec.add_sub_cancel _ _
        rw [counter]
        obtain ⟨r, result, finds⟩ := ih spells.2.2 (by omega) fuel (by omega)
        exact ⟨r, result, finds.later fun prefixed => other ((memcmp_prefix_iff spells spells').mpr prefixed)⟩
    · rename_i longer
      refine ⟨none, rfl, .absent fun infixed => longer ?_⟩
      exact (sle_lengths small' small).mpr infixed.length_le

/-- strstr finds the first place of the pattern, for lengths that an int holds. -/
theorem strstr_finds {fuel : Nat} (spells : Spells m s1 text) (spells' : Spells m s2 pattern)
    (small : text.length < 2 ^ 31) (small' : pattern.length < 2 ^ 31)
    (enough : text.length < fuel) (enough' : pattern.length < fuel) :
    ∃ r, strstr fuel m s1 s2 = some r ∧ Finds pattern text s1 r := by
  rw [strstr, strlen_eq spells' enough', Option.bind_some]
  cases pattern with
  | nil =>
    refine ⟨some s1, rfl, ?_⟩
    simpa using Finds.found (s := s1) (First.start (List.nil_prefix (l := text)))
  | cons c pattern =>
    have long : BitVec.ofNat 32 (c :: pattern).length ≠ 0 := by
      intro zero
      have counted := congrArg BitVec.toNat zero
      simp only [BitVec.toNat_ofNat, List.length_cons, BitVec.ofNat_eq_ofNat] at counted small'
      omega
    rw [if_neg long, strlen_eq spells enough, Option.bind_some]
    exact findFrom_finds spells spells' (List.cons_ne_nil _ _) small small' enough

theorem strstr_finds_sample : ∃ r, strstr 4 sample 16 20 = some r ∧ Finds [98] [97, 98, 99] 16 r :=
  strstr_finds sample_text sample_letter (by decide) (by decide) (by decide) (by decide)

end

def strchr : Nat → Bytes → Word → Word → Option (Option Word)
  | 0, _, _, _ => none
  | fuel + 1, m, s, c =>
    if m s ≠ c.setWidth 8 then
      if m s = 0 then some none else strchr fuel m (s + 1) c
    else some (some s)

/-- The loop of strrchr, from its pointer back to the start. -/
def findBack : Nat → Bytes → Word → Word → Word → Option (Option Word)
  | 0, _, _, _, _ => none
  | fuel + 1, m, s, p, c =>
    if m p = c.setWidth 8 then some (some p)
    else if s ≤ p - 1 then findBack fuel m s (p - 1) c else some none

def strrchr (fuel : Nat) (m : Bytes) (s c : Word) : Option (Option Word) :=
  (strlen fuel m s).bind fun length => findBack fuel m s (s + length) c

def memchr (m : Bytes) (p c : Word) : Nat → Option Word
  | 0 => none
  | n + 1 => if c.setWidth 8 = m p then some p else memchr m (p + 1) c n

/-- The byte is compared with an int. -/
def memscan (m : Bytes) (p c : Word) : Nat → Word
  | 0 => p
  | size + 1 => if (m p).setWidth 32 = c then p else memscan m (p + 1) c size

def block (m : Bytes) (s : Word) : Nat → List Byte
  | 0 => []
  | n + 1 => m s :: block m (s + 1) n

/-- Where a byte is in a block for the last time. -/
inductive FindsLast (c : Byte) (bytes : List Byte) (s : Word) : Option Word → Prop
  | found {i : Nat} : bytes[i]? = some c → c ∉ bytes.drop (i + 1) → FindsLast c bytes s (some (s + BitVec.ofNat 32 i))
  | absent : c ∉ bytes → FindsLast c bytes s none

section

variable {m : Bytes} {s : Word} {text : List Byte}

theorem one_prefix_iff {c d : Byte} {bytes : List Byte} : [c] <+: d :: bytes ↔ c = d := by
  simp [List.cons_prefix_cons]

theorem memchr_finds (m : Bytes) (s c : Word) (n : Nat) : Finds [c.setWidth 8] (block m s n) s (memchr m s c n) := by
  induction n generalizing s with
  | zero => exact .absent fun infixed => by simpa [block] using infixed.length_le
  | succ n ih =>
    rw [memchr, block]
    split
    · rename_i here
      simpa using Finds.found (s := s) (First.start (one_prefix_iff.mpr here))
    · rename_i other
      exact (ih (s + 1)).later fun prefixed => other (one_prefix_iff.mp prefixed)

/-- memscan finds what memchr does for a byte, and nothing for another int. -/
theorem memscan_memchr (m : Bytes) (s c : Word) (size : Nat) :
    memscan m s c size =
      if (c.setWidth 8).setWidth 32 = c then (memchr m s c size).getD (s + BitVec.ofNat 32 size)
      else s + BitVec.ofNat 32 size := by
  induction size generalizing s with
  | zero => simp [memscan, memchr]
  | succ size ih =>
    have compared : (m s).setWidth 32 = c ↔ (c.setWidth 8).setWidth 32 = c ∧ c.setWidth 8 = m s := by
      constructor
      · rintro rfl
        simp
      · rintro ⟨wide, same⟩
        rw [← same, wide]
    rw [memscan, memchr, ih, step_add]
    simp only [compared]
    by_cases wide : (c.setWidth 8).setWidth 32 = c
    · simp only [wide, true_and]
      split <;> rfl
    · simp only [wide, false_and, if_false]

theorem strchr_finds {fuel : Nat} (c : Word) (spells : Spells m s text) (enough : text.length < fuel) :
    ∃ r, strchr fuel m s c = some r ∧ Finds [c.setWidth 8] (text ++ [0]) s r := by
  obtain ⟨fuel, rfl⟩ : ∃ k, fuel = k + 1 := ⟨fuel - 1, by omega⟩
  induction text generalizing s fuel with
  | nil =>
    have zero : m s = 0 := spells
    rw [strchr, zero]
    split
    · rename_i other
      refine ⟨none, rfl, .absent fun infixed => other ?_⟩
      rcases List.infix_cons_iff.mp infixed with prefixed | nothing
      · exact (one_prefix_iff.mp prefixed).symm
      · simpa using nothing.length_le
    · rename_i here
      refine ⟨_, rfl, ?_⟩
      simpa using Finds.found (s := s) (First.start (one_prefix_iff.mpr (not_not.mp here).symm))
  | cons d text ih =>
    rw [strchr, spells.1, if_neg spells.2.1]
    split
    · rename_i other
      obtain ⟨fuel, rfl⟩ : ∃ k, fuel = k + 1 := ⟨fuel - 1, by rw [List.length_cons] at enough; omega⟩
      obtain ⟨r, result, finds⟩ := ih spells.2.2 fuel (by simpa using enough)
      exact ⟨r, result, finds.later fun prefixed => other (one_prefix_iff.mp prefixed).symm⟩
    · rename_i here
      refine ⟨_, rfl, ?_⟩
      simpa using Finds.found (s := s) (First.start (one_prefix_iff.mpr (not_not.mp here).symm))

theorem spells_whole (spells : Spells m s text) {i : Nat} (within : i ≤ text.length) :
    (text ++ [0])[i]? = some (m (s + BitVec.ofNat 32 i)) := by
  rw [spells.byte within]
  rcases Nat.lt_or_eq_of_le within with inside | rfl
  · rw [List.getElem?_append_left inside, List.getD_eq_getElem _ _ inside, List.getElem?_eq_getElem inside]
  · simp

/-- At the start of the address space the pointer never gets below the string. -/
theorem findBack_zero (fuel : Nat) (m : Bytes) (p c : Word) : findBack fuel m 0 p c ≠ some none := by
  induction fuel generalizing p with
  | zero => exact fun none => nomatch none
  | succ fuel ih =>
    rw [findBack]
    split
    · exact fun same => nomatch same
    · rw [if_pos (BitVec.le_def.mpr (Nat.zero_le _))]
      exact ih _

theorem not_mem_drop {bytes : List Byte} {b c : Byte} {i : Nat} (here : bytes[i]? = some b) (other : b ≠ c)
    (later : c ∉ bytes.drop (i + 1)) : c ∉ bytes.drop i := by
  obtain ⟨within, byte⟩ := List.getElem?_eq_some_iff.mp here
  rw [List.drop_eq_getElem_cons within, byte]
  exact List.not_mem_cons_of_ne_of_not_mem other.symm later

theorem findBack_finds {fuel i : Nat} {c : Word} (spells : Spells m s text) (within : i ≤ text.length)
    (fits : s.toNat + text.length < 2 ^ 32) (later : c.setWidth 8 ∉ (text ++ [0]).drop (i + 1))
    (proper : c.setWidth 8 ∈ text ++ [0] ∨ s ≠ 0) (enough : i < fuel) :
    ∃ r, findBack fuel m s (s + BitVec.ofNat 32 i) c = some r ∧
      FindsLast (c.setWidth 8) (text ++ [0]) s r := by
  obtain ⟨fuel, rfl⟩ : ∃ k, fuel = k + 1 := ⟨fuel - 1, by omega⟩
  induction i generalizing fuel with
  | zero =>
    have here := spells_whole spells within
    rw [findBack]
    split
    · rename_i found
      rw [found] at here
      exact ⟨_, rfl, .found here later⟩
    · rename_i other
      have absent : c.setWidth 8 ∉ text ++ [0] := by simpa using not_mem_drop here other later
      have positive : s.toNat ≠ 0 := fun zero => proper.resolve_left absent (BitVec.eq_of_toNat_eq zero)
      have below : ¬ s ≤ s + BitVec.ofNat 32 0 - 1 := by
        have one : (1 : Word).toNat = 1 := rfl
        rw [BitVec.le_def, BitVec.add_zero, BitVec.toNat_sub, one]
        omega
      rw [if_neg below]
      exact ⟨none, rfl, .absent absent⟩
  | succ i ih =>
    have here := spells_whole spells within
    rw [findBack]
    split
    · rename_i found
      rw [found] at here
      exact ⟨_, rfl, .found here later⟩
    · rename_i other
      have back : s + BitVec.ofNat 32 (i + 1) - 1 = s + BitVec.ofNat 32 i := by
        rw [BitVec.ofNat_add, ← BitVec.add_assoc]
        exact BitVec.add_sub_cancel _ _
      have above : s ≤ s + BitVec.ofNat 32 i := by
        rw [BitVec.le_def, BitVec.toNat_add, BitVec.toNat_ofNat]
        omega
      obtain ⟨fuel, rfl⟩ : ∃ k, fuel = k + 1 := ⟨fuel - 1, by omega⟩
      rw [back, if_pos above]
      exact ih (by omega) (not_mem_drop here other later) fuel (by omega)

/-- strrchr finds the last place of a byte or says that there is none, except in a string at
address zero, where it never says so. -/
theorem strrchr_finds (c : Word) (spells : Spells m s text) (fits : s.toNat + text.length < 2 ^ 32) :
    if c.setWidth 8 ∈ text ++ [0] ∨ s ≠ 0 then
      ∀ fuel, text.length < fuel →
        ∃ r, strrchr fuel m s c = some r ∧ FindsLast (c.setWidth 8) (text ++ [0]) s r
    else ∀ fuel, strrchr fuel m s c ≠ some none := by
  split
  · rename_i proper
    intro fuel enough
    rw [strrchr, strlen_eq spells enough, Option.bind_some]
    exact findBack_finds spells le_rfl fits (by simp) proper enough
  · rename_i improper
    intro fuel
    have zero : s = 0 := by
      by_contra other
      exact improper (Or.inr other)
    rw [strrchr, zero]
    cases strlen fuel m 0 with
    | none => exact fun same => nomatch same
    | some length => exact findBack_zero fuel m _ c

theorem strrchr_finds_sample : ∃ r, strrchr 4 sample 16 98 = some r ∧ FindsLast 98 [97, 98, 99, 0] 16 r := by
  have finds := strrchr_finds 98 sample_text (by decide)
  rw [if_pos (.inr (by decide))] at finds
  exact finds 4 (by decide)

/-- Where the loop over a set of characters stops: at the character or at the end of the set. -/
def lookup : Nat → Bytes → Word → Byte → Option Word
  | 0, _, _, _ => none
  | fuel + 1, m, a, c =>
    if m a ≠ 0 then if c = m a then some a else lookup fuel m (a + 1) c else some a

/-- The loop of strspn; the inner loop has its own bound. -/
def spanFrom (inner : Nat) : Nat → Bytes → Word → Word → Word → Option Word
  | 0, _, _, _, _ => none
  | fuel + 1, m, p, accept, count =>
    if m p ≠ 0 then
      (lookup inner m accept (m p)).bind fun a =>
        if m a = 0 then some count else spanFrom inner fuel m (p + 1) accept (count + 1)
    else some count

def strspn (fuel : Nat) (m : Bytes) (s accept : Word) : Option Word := spanFrom fuel fuel m s accept 0

/-- The loop of strpbrk, which returns from inside its inner loop. -/
def breakFrom (inner : Nat) : Nat → Bytes → Word → Word → Option (Option Word)
  | 0, _, _, _ => none
  | fuel + 1, m, sc1, ct =>
    if m sc1 ≠ 0 then
      (lookup inner m ct (m sc1)).bind fun sc2 =>
        if m sc2 ≠ 0 then some (some sc1) else breakFrom inner fuel m (sc1 + 1) ct
    else some none

def strpbrk (fuel : Nat) (m : Bytes) (cs ct : Word) : Option (Option Word) := breakFrom fuel fuel m cs ct

theorem lookup_stops {fuel : Nat} {a : Word} {set : List Byte} {c : Byte} (spells : Spells m a set)
    (enough : set.length < fuel) : ∃ stop, lookup fuel m a c = some stop ∧ (m stop = 0 ↔ c ∉ set) := by
  obtain ⟨fuel, rfl⟩ : ∃ k, fuel = k + 1 := ⟨fuel - 1, by omega⟩
  induction set generalizing a fuel with
  | nil =>
    have zero : m a = 0 := spells
    exact ⟨a, by rw [lookup, if_neg (not_not.mpr zero)], by simp [zero]⟩
  | cons d set ih =>
    rw [lookup, spells.1, if_pos spells.2.1]
    split
    · rename_i here
      refine ⟨a, rfl, ?_⟩
      rw [spells.1]
      exact iff_of_false spells.2.1 (not_not.mpr (here ▸ List.mem_cons_self))
    · rename_i other
      obtain ⟨fuel, rfl⟩ : ∃ k, fuel = k + 1 := ⟨fuel - 1, by rw [List.length_cons] at enough; omega⟩
      obtain ⟨stop, result, found⟩ := ih spells.2.2 fuel (by simpa using enough)
      refine ⟨stop, result, ?_⟩
      rw [found, List.mem_cons, not_or, and_iff_right other]

theorem spanFrom_eq {inner fuel : Nat} {p accept count : Word} {set : List Byte} (spells : Spells m p text)
    (spells' : Spells m accept set) (enough : text.length < fuel) (enough' : set.length < inner) :
    spanFrom inner fuel m p accept count =
      some (count + BitVec.ofNat 32 (text.takeWhile (· ∈ set)).length) := by
  obtain ⟨fuel, rfl⟩ : ∃ k, fuel = k + 1 := ⟨fuel - 1, by omega⟩
  induction text generalizing p count fuel with
  | nil =>
    have zero : m p = 0 := spells
    simp [spanFrom, zero]
  | cons d text ih =>
    obtain ⟨stop, result, found⟩ := lookup_stops (c := d) spells' enough'
    rw [spanFrom, spells.1, if_pos spells.2.1, result, Option.bind_some]
    by_cases mem : d ∈ set
    · obtain ⟨fuel, rfl⟩ : ∃ k, fuel = k + 1 := ⟨fuel - 1, by rw [List.length_cons] at enough; omega⟩
      rw [if_neg (fun zero => found.mp zero mem), ih spells.2.2 fuel (by simpa using enough), step_add,
        List.takeWhile_cons_of_pos (by simpa using mem), List.length_cons]
    · rw [if_pos (found.mpr mem), List.takeWhile_cons_of_neg (by simpa using mem)]
      simp

theorem breakFrom_eq {inner fuel : Nat} {ct : Word} {set : List Byte} (spells : Spells m s text)
    (spells' : Spells m ct set) (enough : text.length < fuel) (enough' : set.length < inner) :
    breakFrom inner fuel m s ct =
      some (if (text.takeWhile (· ∉ set)).length = text.length then none
        else some (s + BitVec.ofNat 32 (text.takeWhile (· ∉ set)).length)) := by
  obtain ⟨fuel, rfl⟩ : ∃ k, fuel = k + 1 := ⟨fuel - 1, by omega⟩
  induction text generalizing s fuel with
  | nil =>
    have zero : m s = 0 := spells
    simp [breakFrom, zero]
  | cons d text ih =>
    obtain ⟨stop, result, found⟩ := lookup_stops (c := d) spells' enough'
    rw [breakFrom, spells.1, if_pos spells.2.1, result, Option.bind_some]
    by_cases mem : d ∈ set
    · rw [if_pos (fun zero => found.mp zero mem), List.takeWhile_cons_of_neg (by simpa using mem)]
      simp
    · obtain ⟨fuel, rfl⟩ : ∃ k, fuel = k + 1 := ⟨fuel - 1, by rw [List.length_cons] at enough; omega⟩
      rw [if_neg (not_not.mpr (found.mpr mem)), ih spells.2.2 fuel (by simpa using enough), step_add,
        List.takeWhile_cons_of_pos (by simpa using mem), List.length_cons, List.length_cons]
      simp only [Nat.add_right_cancel_iff]

end

end Tiny6410.Strings
