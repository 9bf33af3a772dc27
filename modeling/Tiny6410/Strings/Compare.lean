import Tiny6410.Strings.Copy
import Tiny6410.Stdio.Ctype
import Mathlib.Data.List.Lex

/-! The comparisons of no-os/stdio/lib/string.c. -/
namespace Tiny6410.Strings

open Memory CString
open Stdio (ch ismask)

def memcmp (m : Bytes) (cs ct : Word) : Nat → Int
  | 0 => 0
  | count + 1 =>
    let res : Int := (m cs).toNat - (m ct).toNat
    if res ≠ 0 then res else memcmp m (cs + 1) (ct + 1) count

/-- The difference is kept in a signed char. -/
def strcmp : Nat → Bytes → Word → Word → Option Int
  | 0, _, _, _ => none
  | fuel + 1, m, cs, ct =>
    let res := m cs - m ct
    if res ≠ 0 ∨ m cs = 0 then some res.toInt else strcmp fuel m (cs + 1) (ct + 1)

def strncmp (m : Bytes) (cs ct : Word) : Nat → Int
  | 0 => 0
  | count + 1 =>
    let res := m cs - m ct
    if res ≠ 0 ∨ m cs = 0 then res.toInt else strncmp m (cs + 1) (ct + 1) count

def isupper (c : Byte) : Bool := ismask c &&& Stdio.Mask.U ≠ 0

def tolower (c : Byte) : Byte := if isupper c then c - (ch 'A' - ch 'a') else c

/-- The rounds of strnicmp, with the characters that the last one left. -/
def strnicmpLoop (m : Bytes) (s1 s2 : Word) (c1 c2 : Byte) : Nat → Byte × Byte
  | 0 => (c1, c2)
  | len + 1 =>
    let c1 := m s1
    let c2 := m s2
    if c1 = 0 then (c1, c2)
    else if c2 = 0 then (c1, c2)
    else if c1 = c2 then strnicmpLoop m (s1 + 1) (s2 + 1) c1 c2 len
    else if tolower c1 ≠ tolower c2 then (tolower c1, tolower c2)
    else strnicmpLoop m (s1 + 1) (s2 + 1) (tolower c1) (tolower c2) len

def strnicmp (m : Bytes) (s1 s2 len : Word) : Int :=
  let left := strnicmpLoop m s1 s2 0 0 len.toNat
  (left.1.toNat : Int) - left.2.toNat

/-- The first bytes in which two texts differ; a text that has ended shows its terminator. -/
def difference : List Byte → List Byte → Byte × Byte
  | [], [] => (0, 0)
  | c :: _, [] => (c, 0)
  | [], d :: _ => (0, d)
  | c :: s, d :: t => if c = d then difference s t else (c, d)

theorem pos_of_ne {c : Byte} (nonzero : c ≠ 0) : 0 < c := by
  rw [BitVec.lt_def]
  exact Nat.pos_of_ne_zero fun zero => nonzero (BitVec.eq_of_toNat_eq zero)

theorem plain_cons {c : Byte} {text : List Byte} (plain : 0 ∉ c :: text) : c ≠ 0 ∧ 0 ∉ text :=
  ⟨fun zero => plain (zero ▸ List.mem_cons_self), fun mem => plain (List.mem_cons_of_mem _ mem)⟩

/-- The bytes are in the order of the texts. -/
theorem difference_order {s t : List Byte} (plain : 0 ∉ s) (plain' : 0 ∉ t) :
    ((difference s t).1 = (difference s t).2 ↔ s = t) ∧
      ((difference s t).1 < (difference s t).2 ↔ s < t) := by
  induction s generalizing t with
  | nil =>
    cases t with
    | nil => simp [difference]
    | cons d t =>
      have apart : ¬ 0#8 = d := (plain_cons plain').1.symm
      have above : 0#8 < d := pos_of_ne (plain_cons plain').1
      simp [difference, apart, above]
  | cons c s ih =>
    cases t with
    | nil =>
      have apart : ¬ c = 0#8 := (plain_cons plain).1
      simp [difference, apart]
    | cons d t =>
      have tails := ih (plain_cons plain).2 (plain_cons plain').2
      rw [difference, List.cons_lt_cons_iff, List.cons_eq_cons]
      by_cases same : c = d
      · rw [if_pos same, tails.1, tails.2]
        simp [same]
      · simp [same]

/-- What a signed char says of the order of two bytes. -/
theorem signed_order (c d : Byte) :
    ((c - d).toInt = 0 ↔ c = d) ∧
      (((c - d).toInt < 0 ↔ c < d) ↔ -128 ≤ (c.toNat : Int) - d.toNat ∧ (c.toNat : Int) - d.toNat < 128) := by
  have hc := c.isLt
  have hd := d.isLt
  rw [BitVec.toInt_eq_toNat_cond, BitVec.toNat_sub, BitVec.lt_def, ← BitVec.toNat_inj]
  constructor <;> split <;> omega

section

variable {m : Bytes} {s1 s2 : Word} {s t : List Byte}

theorem memcmp_prefix_iff (spells : Spells m s1 s) (spells' : Spells m s2 t) :
    memcmp m s1 s2 t.length = 0 ↔ t <+: s := by
  induction t generalizing s1 s2 s with
  | nil => simp [memcmp]
  | cons c t ih =>
    rw [List.length_cons, memcmp]
    cases s with
    | nil =>
      have zero : m s1 = 0 := spells
      have other : c.toNat ≠ 0 := fun null => spells'.2.1 (BitVec.eq_of_toNat_eq null)
      simp [zero, spells'.1, other]
    | cons d s =>
      rw [spells.1, spells'.1, List.cons_prefix_cons, ← ih spells.2.2 spells'.2.2]
      have same : (d.toNat : Int) - c.toNat = 0 ↔ c = d := by
        rw [← BitVec.toNat_inj]
        omega
      by_cases equal : c = d
      · simp [equal]
      · simp [equal, same]

theorem round_ends {c d : Byte} (apart : c ≠ d) : c - d ≠ 0 ∨ c = 0 := by
  left
  intro zero
  rw [BitVec.sub_eq_iff_eq_add] at zero
  exact apart (by simpa using zero)

theorem round_goes_on {c : Byte} (nonzero : c ≠ 0) : ¬ (c - c ≠ 0 ∨ c = 0) := by
  rintro (other | zero)
  · exact other (BitVec.sub_self c)
  · exact nonzero zero

theorem strcmp_eq {fuel : Nat} (spells : Spells m s1 s) (spells' : Spells m s2 t) (enough : s.length < fuel) :
    strcmp fuel m s1 s2 = some ((difference s t).1 - (difference s t).2).toInt := by
  obtain ⟨fuel, rfl⟩ : ∃ k, fuel = k + 1 := ⟨fuel - 1, by omega⟩
  induction s generalizing s1 s2 t fuel with
  | nil =>
    have zero : m s1 = 0 := spells
    cases t with
    | nil => rw [strcmp, if_pos (Or.inr zero), zero, show m s2 = 0 from spells']; rfl
    | cons d t => rw [strcmp, if_pos (Or.inr zero), zero, spells'.1]; rfl
  | cons c s ih =>
    cases t with
    | nil =>
      have zero : m s2 = 0 := spells'
      rw [strcmp, spells.1, zero, if_pos (round_ends spells.2.1)]
      rfl
    | cons d t =>
      rw [strcmp, spells.1, spells'.1, difference]
      by_cases same : c = d
      · obtain ⟨fuel, rfl⟩ : ∃ k, fuel = k + 1 := ⟨fuel - 1, by rw [List.length_cons] at enough; omega⟩
        rw [← same, if_neg (round_goes_on spells.2.1), if_pos rfl]
        exact ih spells.2.2 spells'.2.2 _ (by simpa using enough)
      · rw [if_pos (round_ends same), if_neg same]

theorem strncmp_eq {count : Nat} (spells : Spells m s1 s) (spells' : Spells m s2 t) :
    strncmp m s1 s2 count =
      ((difference (s.take count) (t.take count)).1 - (difference (s.take count) (t.take count)).2).toInt := by
  induction count generalizing s1 s2 s t with
  | zero => simp [strncmp, difference]
  | succ count ih =>
    cases s with
    | nil =>
      have zero : m s1 = 0 := spells
      cases t with
      | nil => rw [strncmp, if_pos (Or.inr zero), zero, show m s2 = 0 from spells']; rfl
      | cons d t => rw [strncmp, if_pos (Or.inr zero), zero, spells'.1]; rfl
    | cons c s =>
      cases t with
      | nil =>
        have zero : m s2 = 0 := spells'
        rw [strncmp, spells.1, zero, if_pos (round_ends spells.2.1)]
        rfl
      | cons d t =>
        rw [strncmp, spells.1, spells'.1, List.take_succ_cons, List.take_succ_cons, difference]
        by_cases same : c = d
        · rw [← same, if_neg (round_goes_on spells.2.1), if_pos rfl]
          exact ih spells.2.2 spells'.2.2
        · rw [if_pos (round_ends same), if_neg same]

/-- strcmp tells equal strings from others, and their order just where the bytes that differ
are near enough for a signed char. -/
theorem strcmp_orders (spells : Spells m s1 s) (spells' : Spells m s2 t) :
    ∃ r, (∀ fuel, s.length < fuel → strcmp fuel m s1 s2 = some r) ∧ (r = 0 ↔ s = t) ∧
      ((r < 0 ↔ s < t) ↔ -128 ≤ ((difference s t).1.toNat : Int) - (difference s t).2.toNat ∧
        ((difference s t).1.toNat : Int) - (difference s t).2.toNat < 128) := by
  obtain ⟨equal, less⟩ := difference_order spells.plain spells'.plain
  obtain ⟨zero, sign⟩ := signed_order (difference s t).1 (difference s t).2
  rw [← equal, ← less]
  exact ⟨_, fun fuel enough => strcmp_eq spells spells' enough, zero, sign⟩

theorem strcmp_orders_sample : ∃ r, strcmp 4 sample 16 20 = some r ∧ r < 0 := by
  obtain ⟨r, returns, -, sign⟩ := strcmp_orders sample_text sample_letter
  exact ⟨r, returns 4 (by decide), (sign.mpr (by decide)).mpr (by decide)⟩

theorem tolower_ne_zero : ∀ c : Byte, c ≠ 0 → tolower c ≠ 0 := by decide +kernel

/-- What is compared of a text, without its case. -/
def lowered (len : Nat) (text : List Byte) : List Byte := (text.take len).map tolower

theorem lowered_plain {len : Nat} {text : List Byte} (plain : 0 ∉ text) : 0 ∉ lowered len text := by
  intro mem
  obtain ⟨c, taken, zero⟩ := List.mem_map.mp mem
  refine tolower_ne_zero c ?_ zero
  rintro rfl
  exact plain (List.mem_of_mem_take taken)

/-- Two bytes are in the order of two others. -/
def Agree (x y : Byte × Byte) : Prop := (x.1 = x.2 ↔ y.1 = y.2) ∧ (x.1 < x.2 ↔ y.1 < y.2)

theorem agree_equal {c d : Byte} : Agree (c, c) (d, d) :=
  ⟨iff_of_true rfl rfl, iff_of_false (BitVec.lt_irrefl c) (BitVec.lt_irrefl d)⟩

theorem agree_ended {c d : Byte} (nonzero : c ≠ 0) (nonzero' : d ≠ 0) : Agree (0, c) (0, d) :=
  ⟨iff_of_false nonzero.symm nonzero'.symm, iff_of_true (pos_of_ne nonzero) (pos_of_ne nonzero')⟩

theorem agree_longer {c d : Byte} (nonzero : c ≠ 0) (nonzero' : d ≠ 0) : Agree (c, 0) (d, 0) :=
  ⟨iff_of_false nonzero nonzero', iff_of_false BitVec.not_lt_zero BitVec.not_lt_zero⟩

theorem strnicmpLoop_agrees {len : Nat} {c : Byte} (spells : Spells m s1 s) (spells' : Spells m s2 t) :
    Agree (strnicmpLoop m s1 s2 c c len) (difference (lowered len s) (lowered len t)) := by
  induction len generalizing s1 s2 s t c with
  | zero => exact agree_equal
  | succ len ih =>
    rw [strnicmpLoop]
    cases s with
    | nil =>
      have zero : m s1 = 0 := spells
      simp only [zero, if_true]
      cases t with
      | nil =>
        rw [show m s2 = 0 from spells']
        exact agree_equal
      | cons d t =>
        rw [spells'.1]
        exact agree_ended spells'.2.1 (tolower_ne_zero d spells'.2.1)
    | cons c s =>
      simp only [spells.1, if_neg spells.2.1]
      cases t with
      | nil =>
        simp only [show m s2 = 0 from spells', if_true]
        exact agree_longer spells.2.1 (tolower_ne_zero c spells.2.1)
      | cons d t =>
        simp only [spells'.1, if_neg spells'.2.1, lowered, List.take_succ_cons, List.map_cons, difference]
        by_cases same : c = d
        · subst same
          rw [if_pos rfl, if_pos rfl]
          exact ih spells.2.2 spells'.2.2
        · rw [if_neg same]
          by_cases close : tolower c = tolower d
          · rw [if_neg (not_not.mpr close), if_pos close, close]
            exact ih spells.2.2 spells'.2.2
          · rw [if_pos close, if_neg close]
            exact ⟨Iff.rfl, Iff.rfl⟩

/-- strnicmp orders strings by their lower case, up to the length. -/
theorem strnicmp_orders (len : Word) (spells : Spells m s1 s) (spells' : Spells m s2 t) :
    (strnicmp m s1 s2 len = 0 ↔ lowered len.toNat s = lowered len.toNat t) ∧
      (strnicmp m s1 s2 len < 0 ↔ lowered len.toNat s < lowered len.toNat t) := by
  have order := difference_order (@lowered_plain len.toNat _ spells.plain)
    (@lowered_plain len.toNat _ spells'.plain)
  obtain ⟨equal, less⟩ := @strnicmpLoop_agrees _ _ _ _ _ len.toNat 0 spells spells'
  rw [← order.1, ← order.2, ← equal, ← less, strnicmp, ← BitVec.toNat_inj, BitVec.lt_def]
  omega

theorem strnicmp_orders_sample : strnicmp sample 16 20 1 < 0 :=
  (strnicmp_orders 1 sample_text sample_letter).2.mpr (by decide)

end

end Tiny6410.Strings
