import Mathlib.Data.List.TakeWhile
import Tiny6410.Lib.Separated
import Tiny6410.Stdio.Scanf

/-! dm9000_set_mac of mach-mini6410.c: the address of the DM9000 from the kernel command
line. Its numbers are read by simple_strtoul of the kernel, whose table of characters is
also that of no-os/stdio. A string is the list of its bytes before the terminator. -/
namespace Tiny6410.SetMac

open Memory (Byte Word)
open Separated
open Stdio (ch chs isdigit isxdigit digitLoop)

/-! simple_strtoul of lib/vsprintf.c -/

def TOLOWER (c : Byte) : Byte := c ||| 0x20

def digitValue (c : Byte) : Nat :=
  if isdigit c then c.toNat - (ch '0').toNat else (TOLOWER c).toNat - (ch 'a').toNat + 10

def simple_guess_base (cp : List Byte) : Nat :=
  if cp.headD 0 = ch '0' then
    if TOLOWER (cp.tail.headD 0) = ch 'x' ∧ isxdigit (cp.tail.tail.headD 0) then 16 else 8
  else 10

/-- The mark of a hexadecimal number. -/
def Marked (cp : List Byte) : Prop := cp.headD 0 = ch '0' ∧ TOLOWER (cp.tail.headD 0) = ch 'x'

instance (cp : List Byte) : Decidable (Marked cp) := inferInstanceAs (Decidable (_ ∧ _))

def simple_strtoull (cp : List Byte) (base : Nat) : BitVec 64 × List Byte :=
  let base := if base = 0 then simple_guess_base cp else base
  let cp := if base = 16 ∧ Marked cp then cp.tail.tail else cp
  digitLoop digitValue base cp 0

def simple_strtoul (cp : List Byte) (base : Nat) : Word × List Byte :=
  ((simple_strtoull cp base).1.setWidth 32, (simple_strtoull cp base).2)

/-- The loop for the numbers that are still to come, with those stored so far. -/
def macLoop : Nat → List Byte → List Byte → List Byte
  | 0, _, addr => addr
  | n + 1, p, addr =>
    if p.headD 0 = 0 then addr
    else
      let (val, stop) := simple_strtoul p 16
      -- convert failed
      if p.length ≤ stop.length then addr
      else
        let addr := addr ++ [val.setWidth 8]
        if stop.headD 0 = ch ':' ∨ stop.headD 0 = ch '-' then macLoop n stop.tail addr else addr

/-- param_addr of the platform data. -/
structure Setup where
  param_addr : List Byte
  six : param_addr.length = 6

def dm9000_set_mac (str : List Byte) (setup : Setup) : Setup :=
  let addr := macLoop 6 str []
  if six : addr.length = 6 then ⟨addr, six⟩ else setup

/-! Addresses -/

/-- The digits of a number, without its mark. -/
def digitsOf (t : List Byte) : List Byte := if Marked t then t.tail.tail else t

def hexValue (digits : List Byte) : Nat := digits.foldl (fun r c => r * 16 + digitValue c) 0

/-- What is converted as a number in front of a rest: an optional mark and digits, as many
as there are. -/
structure Token (t rest : List Byte) : Prop where
  some : t ≠ []
  hex : ∀ c ∈ digitsOf t, isxdigit c = true
  ends : isxdigit (rest.headD 0) = false
  unmarked : t = [ch '0'] → TOLOWER (rest.headD 0) ≠ ch 'x'

/-- It has a digit, and its value is that of a byte. -/
def Proper (t : List Byte) : Prop := digitsOf t ≠ [] ∧ hexValue (digitsOf t) ≤ 255

instance (t : List Byte) : Decidable (Proper t) := inferInstanceAs (Decidable (_ ∧ _))

def separator (c : Byte) : Bool := c = ch ':' ∨ c = ch '-'

/-- A string is an address of six groups. -/
def Address (str : List Byte) (groups : List (List Byte)) : Prop :=
  groups.length = 6 ∧ Splits Token separator groups [] str ∧ ∀ t ∈ groups, Proper t

/-- The values of an address are stored, and nothing else is. -/
def SetsAddress (str : List Byte) : Prop :=
  ∀ setup,
    (∀ groups, Address str groups →
      (dm9000_set_mac str setup).param_addr.map BitVec.toNat = groups.map fun t => hexValue (digitsOf t)) ∧
    ((¬ ∃ groups, Address str groups) → dm9000_set_mac str setup = setup)

/-! The scanner takes the numbers of the grammar. -/

theorem digit_lt {c : Byte} (hex : isxdigit c = true) : digitValue c < 16 := by
  have all : ∀ c : Byte, isxdigit c = true → digitValue c < 16 := by decide +kernel
  exact all c hex

theorem digit_unmarked {c : Byte} (hex : isxdigit c = true) : TOLOWER c ≠ ch 'x' := by
  have all : ∀ c : Byte, isxdigit c = true → TOLOWER c ≠ ch 'x' := by decide +kernel
  exact all c hex

theorem digitLoop_eq {w : Nat} (cp : List Byte) (r : BitVec w) :
    digitLoop digitValue 16 cp r =
      ((cp.takeWhile isxdigit).foldl (fun r c => r * BitVec.ofNat w 16 + BitVec.ofNat w (digitValue c)) r,
        cp.dropWhile isxdigit) := by
  induction cp generalizing r with
  | nil => rfl
  | cons c cp ih =>
    cases hex : isxdigit c with
    | true => rw [digitLoop, if_pos ⟨hex, digit_lt hex⟩, ih, List.takeWhile_cons_of_pos hex,
        List.dropWhile_cons_of_pos hex, List.foldl_cons]
    | false =>
      have stop : ¬ (isxdigit c = true ∧ digitValue c < 16) := by
        rw [hex]
        exact fun both => Bool.false_ne_true both.1
      rw [digitLoop, if_neg stop, List.takeWhile_cons_of_neg (by rw [hex]; decide),
        List.dropWhile_cons_of_neg (by rw [hex]; decide)]
      rfl

theorem foldl_digits {w : Nat} (digits : List Byte) (r : Nat) :
    digits.foldl (fun r c => r * BitVec.ofNat w 16 + BitVec.ofNat w (digitValue c)) (BitVec.ofNat w r) =
      BitVec.ofNat w (digits.foldl (fun r c => r * 16 + digitValue c) r) := by
  induction digits generalizing r with
  | nil => rfl
  | cons c digits ih => rw [List.foldl_cons, List.foldl_cons, ← ih, BitVec.ofNat_add, BitVec.ofNat_mul]

/-- A conversion to the base 16. -/
theorem strtoul_eq (p : List Byte) :
    simple_strtoul p 16 =
      (BitVec.ofNat 32 (hexValue ((digitsOf p).takeWhile isxdigit)), (digitsOf p).dropWhile isxdigit) := by
  have long : simple_strtoull p 16 =
      (BitVec.ofNat 64 (hexValue ((digitsOf p).takeWhile isxdigit)), (digitsOf p).dropWhile isxdigit) := by
    have digits : simple_strtoull p 16 = digitLoop digitValue 16 (digitsOf p) 0 := by
      simp [simple_strtoull, digitsOf]
    rw [digits, digitLoop_eq]
    exact congrArg (·, _) (foldl_digits _ 0)
  rw [simple_strtoul, long]
  exact congrArg (·, _) (BitVec.setWidth_ofNat_of_le (by decide) _)

theorem digitsOf_append {t rest : List Byte} (some : t ≠ [])
    (unmarked : t = [ch '0'] → TOLOWER (rest.headD 0) ≠ ch 'x') :
    digitsOf (t ++ rest) = digitsOf t ++ rest := by
  cases t with
  | nil => exact absurd rfl some
  | cons c t =>
    cases t with
    | nil =>
      have bare : ¬ Marked [c] := by
        rintro ⟨-, mark⟩
        have blank : TOLOWER 0 = ch 'x' := mark
        exact absurd blank (by decide)
      have joined : ¬ Marked ([c] ++ rest) := by
        rintro ⟨zero, mark⟩
        have same : c = ch '0' := zero
        exact unmarked (by rw [same]) mark
      rw [digitsOf, digitsOf, if_neg bare, if_neg joined]
    | cons d t =>
      have same : Marked (c :: d :: t ++ rest) ↔ Marked (c :: d :: t) := Iff.rfl
      rw [digitsOf, digitsOf]
      by_cases marked : Marked (c :: d :: t)
      · rw [if_pos marked, if_pos (same.mpr marked)]
        rfl
      · rw [if_neg marked, if_neg (fun joined => marked (same.mp joined))]

theorem Token.strtoul {t rest : List Byte} (token : Token t rest) :
    simple_strtoul (t ++ rest) 16 = (BitVec.ofNat 32 (hexValue (digitsOf t)), rest) := by
  have stop : rest.takeWhile isxdigit = [] ∧ rest.dropWhile isxdigit = rest := by
    cases rest with
    | nil => exact ⟨rfl, rfl⟩
    | cons c rest =>
      have other : ¬ isxdigit c = true := by
        have ends : isxdigit c = false := token.ends
        rw [ends]
        decide
      exact ⟨List.takeWhile_cons_of_neg other, List.dropWhile_cons_of_neg other⟩
  rw [strtoul_eq, digitsOf_append token.some token.unmarked, List.takeWhile_append_of_pos token.hex,
    List.dropWhile_append_of_pos token.hex, stop.1, stop.2, List.append_nil]

/-- The number in front of a string, as far as simple_strtoul takes it. -/
def scanNumber (p : List Byte) : Option (List Byte × List Byte) :=
  let stop := (simple_strtoul p 16).2
  if p.length ≤ stop.length then none else some (p.take (p.length - stop.length), stop)

theorem Token.head {t rest : List Byte} (token : Token t rest) : (t ++ rest).headD 0 ≠ 0 := by
  intro ended
  cases t with
  | nil => exact token.some rfl
  | cons c t =>
    have zero : c = 0 := ended
    subst zero
    have bare : ¬ Marked (0 :: t) := by
      rintro ⟨zero, -⟩
      have first : (0 : Byte) = ch '0' := zero
      exact absurd first (by decide)
    have hex := token.hex
    rw [digitsOf, if_neg bare] at hex
    exact absurd (hex 0 List.mem_cons_self) (by decide)

theorem Token.longer {t rest : List Byte} (token : Token t rest) : ¬ (t ++ rest).length ≤ rest.length := by
  have some := List.length_pos_iff.mpr token.some
  rw [List.length_append]
  omega

theorem scanNumber_complete {t rest : List Byte} (token : Token t rest) : scanNumber (t ++ rest) = some (t, rest) := by
  have front : (t ++ rest).length - rest.length = t.length := by
    rw [List.length_append, Nat.add_sub_cancel]
  unfold scanNumber
  simp only [token.strtoul, if_neg token.longer, front, List.take_left]

theorem dropWhile_ends (p : List Byte) : isxdigit ((p.dropWhile isxdigit).headD 0) = false := by
  induction p with
  | nil => decide
  | cons c p ih =>
    cases hex : isxdigit c with
    | true =>
      rw [List.dropWhile_cons_of_pos hex]
      exact ih
    | false =>
      rw [List.dropWhile_cons_of_neg (by rw [hex]; decide)]
      exact hex

theorem marked_cons {p : List Byte} (marked : Marked p) :
    ∃ d q, p = ch '0' :: d :: q ∧ TOLOWER d = ch 'x' := by
  obtain ⟨zero, mark⟩ := marked
  cases p with
  | nil => exact absurd zero (by decide)
  | cons c p =>
    cases p with
    | nil => exact absurd (show TOLOWER 0 = ch 'x' from mark) (by decide)
    | cons d q =>
      have first : c = ch '0' := zero
      exact ⟨d, q, by rw [first], mark⟩

/-- What simple_strtoul takes of a string is a number, if it takes anything. -/
theorem token_of_strtoul (p : List Byte) :
    ∃ t, p = t ++ (digitsOf p).dropWhile isxdigit ∧ (t ≠ [] → Token t ((digitsOf p).dropWhile isxdigit)) := by
  by_cases marked : Marked p
  · obtain ⟨d, q, rfl, mark⟩ := marked_cons marked
    have digits : digitsOf (ch '0' :: d :: q) = q := if_pos marked
    rw [digits]
    refine ⟨ch '0' :: d :: q.takeWhile isxdigit, by simp, fun some => ⟨some, ?_, dropWhile_ends q, ?_⟩⟩
    · intro c mem
      have own : digitsOf (ch '0' :: d :: q.takeWhile isxdigit) = q.takeWhile isxdigit := if_pos ⟨rfl, mark⟩
      rw [own] at mem
      exact List.mem_takeWhile_imp mem
    · intro short
      cases short
  · have digits : digitsOf p = p := if_neg marked
    rw [digits]
    have hex : ∀ c ∈ p.takeWhile isxdigit, isxdigit c = true := fun c mem => List.mem_takeWhile_imp mem
    refine ⟨p.takeWhile isxdigit, (List.takeWhile_append_dropWhile).symm, fun some => ⟨some, ?_, dropWhile_ends p, ?_⟩⟩
    · -- A second digit is no mark.
      have bare : ¬ Marked (p.takeWhile isxdigit) := by
        intro inner
        obtain ⟨d, q, text, mark⟩ := marked_cons inner
        have digit := hex d (by rw [text]; simp)
        exact digit_unmarked digit mark
      rw [digitsOf, if_neg bare]
      exact hex
    · intro zero mark
      have split := List.takeWhile_append_dropWhile (p := isxdigit) (l := p)
      rw [zero] at split
      apply marked
      rw [← split]
      exact ⟨rfl, mark⟩

theorem scanNumber_sound {p t rest : List Byte} (found : scanNumber p = some (t, rest)) :
    p = t ++ rest ∧ Token t rest := by
  obtain ⟨text, split, token⟩ := token_of_strtoul p
  have stop : (simple_strtoul p 16).2 = (digitsOf p).dropWhile isxdigit := by rw [strtoul_eq]
  unfold scanNumber at found
  simp only [stop] at found
  by_cases stays : p.length ≤ ((digitsOf p).dropWhile isxdigit).length
  · rw [if_pos stays] at found
    cases found
  · rw [if_neg stays] at found
    generalize (digitsOf p).dropWhile isxdigit = left at *
    obtain ⟨rfl, rfl⟩ := Prod.mk.inj (Option.some.inj found)
    have front : p.take (p.length - left.length) = text := by
      rw [split, List.length_append, Nat.add_sub_cancel, List.take_left]
    rw [front]
    refine ⟨split, token ?_⟩
    rintro rfl
    rw [List.nil_append] at split
    exact stays (Nat.le_of_eq (congrArg List.length split))

theorem scanNumber_scans : Scans Token scanNumber := ⟨scanNumber_sound, scanNumber_complete⟩

/-! The loop collects numbers. -/

def byteOf (t : List Byte) : Byte := BitVec.ofNat 8 (hexValue (digitsOf t))

theorem macLoop_collect (n : Nat) (p addr : List Byte) :
    macLoop n p addr = addr ++ (collect scanNumber separator n p).map byteOf := by
  induction n generalizing p addr with
  | zero => simp [macLoop, collect]
  | succ n ih =>
    cases found : scanNumber p with
    | none =>
      rw [collect_none found, List.map_nil, List.append_nil, macLoop]
      unfold scanNumber at found
      split
      · rfl
      · by_cases stays : p.length ≤ (simple_strtoul p 16).2.length
        · simp only [if_pos stays]
        · simp [stays] at found
    | some taken =>
      obtain ⟨t, rest⟩ := taken
      obtain ⟨rfl, token⟩ := scanNumber_sound found
      have narrow : (BitVec.ofNat 32 (hexValue (digitsOf t))).setWidth 8 = byteOf t :=
        BitVec.setWidth_ofNat_of_le (by decide) _
      rw [macLoop, if_neg token.head]
      simp only [token.strtoul, if_neg token.longer, narrow]
      cases rest with
      | nil =>
        rw [collect_end found, if_neg (by decide)]
        rfl
      | cons s rest =>
        have same : separator s = true ↔ (s :: rest).headD 0 = ch ':' ∨ (s :: rest).headD 0 = ch '-' :=
          decide_eq_true_iff
        rw [collect_next found]
        by_cases separated : separator s = true
        · rw [if_pos (same.mp separated), if_pos separated, List.tail_cons, ih, List.map_cons, List.append_assoc]
          rfl
        · rw [if_neg (fun marks => separated (same.mpr marks)), if_neg separated]
          rfl

/-- Six numbers are stored, whatever they are and whatever follows them. -/
theorem set_mac_of_splits {groups : List (List Byte)} {rest str : List Byte} (six : groups.length = 6)
    (splits : Splits Token separator groups rest str) (setup : Setup) :
    (dm9000_set_mac str setup).param_addr = groups.map byteOf := by
  have all : macLoop 6 str [] = groups.map byteOf := by
    rw [macLoop_collect, List.nil_append, ← six, collect_splits scanNumber_scans splits]
  have length : (macLoop 6 str []).length = 6 := by rw [all, List.length_map, six]
  rw [dm9000_set_mac, dif_pos length]
  exact all

theorem set_mac_kept {str : List Byte} (none : ∀ groups rest, groups.length = 6 → ¬ Splits Token separator groups rest str)
    (setup : Setup) : dm9000_set_mac str setup = setup := by
  have short : (macLoop 6 str []).length ≠ 6 := by
    intro six
    rw [macLoop_collect, List.nil_append, List.length_map] at six
    obtain ⟨rest, splits⟩ := splits_collect scanNumber_scans six
    exact none _ rest six splits
  rw [dm9000_set_mac, dif_neg short]

/-- The values of proper groups fit into the bytes that are stored. -/
theorem bytes_of_proper {groups : List (List Byte)} (proper : ∀ t ∈ groups, Proper t) :
    (groups.map byteOf).map BitVec.toNat = groups.map fun t => hexValue (digitsOf t) := by
  rw [List.map_map]
  apply List.map_congr_left
  intro t mem
  have small := (proper t mem).2
  have fits : hexValue (digitsOf t) < 2 ^ 8 := by omega
  exact (BitVec.toNat_ofNat _ _).trans (Nat.mod_eq_of_lt fits)

theorem SetsAddress.proper {str : List Byte} (sets : SetsAddress str) {groups : List (List Byte)} {rest : List Byte}
    (six : groups.length = 6) (splits : Splits Token separator groups rest str) :
    rest = [] ∧ ∀ t ∈ groups, Proper t := by
  by_contra improper
  have no_address : ¬ ∃ groups, Address str groups := by
    rintro ⟨groups', six', whole, proper⟩
    obtain ⟨rfl, rfl⟩ := splits_unique scanNumber_scans splits whole (six.trans six'.symm)
    exact improper ⟨rfl, proper⟩
  -- A store shows over other bytes.
  have length : ((groups.map byteOf).map (· + 1)).length = 6 := by rw [List.length_map, List.length_map, six]
  have kept := (sets ⟨(groups.map byteOf).map (· + 1), length⟩).2 no_address
  have stored := set_mac_of_splits six splits ⟨(groups.map byteOf).map (· + 1), length⟩
  rw [kept] at stored
  obtain ⟨t, ts, rfl⟩ := List.exists_cons_of_ne_nil splits.ne_nil
  have first : byteOf t + 1 = byteOf t := (List.cons.inj stored).1
  have other : ∀ c : Byte, c + 1 ≠ c := by decide
  exact other _ first

/-- The address is set right exactly for the strings that do not start with six numbers, and
for those whose six numbers are the whole string, with a digit each and no value above 255. -/
theorem set_mac_iff (str : List Byte) :
    SetsAddress str ↔ ∀ groups rest, groups.length = 6 → Splits Token separator groups rest str →
      rest = [] ∧ ∀ t ∈ groups, Proper t := by
  constructor
  · exact fun sets groups rest six splits => sets.proper six splits
  · intro proper setup
    constructor
    · rintro groups ⟨six, splits, small⟩
      rw [set_mac_of_splits six splits, bytes_of_proper small]
    · intro no_address
      apply set_mac_kept
      intro groups rest six splits
      obtain ⟨rfl, small⟩ := proper groups rest six splits
      exact no_address ⟨groups, six, splits, small⟩

/-- A sixth number of 0x100 is stored as zero, and text behind the sixth is passed over. -/
theorem wrong_addresses_stored :
    (∀ setup, (dm9000_set_mac (chs "1:2:3:4:5:100") setup).param_addr = [1, 2, 3, 4, 5, 0]) ∧
    (∀ setup, (dm9000_set_mac (chs "1:2:3:4:5:6 ?") setup).param_addr = [1, 2, 3, 4, 5, 6]) ∧
    ¬ SetsAddress (chs "1:2:3:4:5:100") := by
  refine ⟨fun setup => ?_, fun setup => ?_, fun sets => ?_⟩
  · rw [dm9000_set_mac, dif_pos (by decide)]
    decide
  · rw [dm9000_set_mac, dif_pos (by decide)]
    decide
  · have six : (collect scanNumber separator 6 (chs "1:2:3:4:5:100")).length = 6 := by decide
    obtain ⟨rest, splits⟩ := splits_collect scanNumber_scans six
    have proper := (sets.proper six splits).2 (chs "100") (by decide)
    exact absurd proper (by decide)

end Tiny6410.SetMac
