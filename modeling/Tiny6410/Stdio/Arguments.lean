import Tiny6410.Stdio.RoundTrip

/-! The arguments of printf, as the calling convention of the ARM lays them out, against the
va_arg of vsprintf.h. The convention starts a long long at an even word; va_arg goes on by
whole ints only. -/
namespace Tiny6410.Stdio

open Memory (Byte Word Bytes)
open Numeral

/-- A long long starts at an even word, counted from r0: the convention skips a word in
front of it where it would not. -/
def Item.skips (n : Nat) (a : Item) : Bool := a.length.width = 64 ∧ n % 2 = 1

/-- The arguments from the word n on, r0 to r3 and then the stack. What is in a word that is
skipped is not the caller's. -/
def laidOut (skipped : Nat → Word) : Nat → List Item → List Word
  | _, [] => []
  | n, a :: rest =>
    if a.skips n then skipped n :: a.words ++ laidOut skipped (n + 1 + a.words.length) rest
    else a.words ++ laidOut skipped (n + a.words.length) rest

/-- The words behind the format, which is the word 0. -/
def arguments (skipped : Nat → Word) (items : List Item) : List Word := laidOut skipped 1 items

/-! Where no word is skipped, the values are those that were passed. -/

/-- No argument from the word n on has a skipped word in front of it. -/
def Packed : Nat → List Item → Prop
  | _, [] => True
  | n, a :: rest => a.skips n = false ∧ Packed (n + a.words.length) rest

instance decidablePacked : ∀ n items, Decidable (Packed n items)
  | _, [] => isTrue trivial
  | n, a :: rest =>
    have := decidablePacked (n + a.words.length) rest
    inferInstanceAs (Decidable (_ ∧ _))

theorem received_packed (skipped : Nat → Word) {n : Nat} {items : List Item} (packed : Packed n items) :
    received items (laidOut skipped n items) = items := by
  induction items generalizing n with
  | nil => rfl
  | cons a rest ih =>
    obtain ⟨here, later⟩ := packed
    rw [laidOut, if_neg (by rw [here]; exact Bool.false_ne_true), received, read_words, drop_words, ih later]

/-! Where one is skipped, it is read in place of the first word of a long long, and there is
a value for it that makes a difference and no longer text. -/

theorem laidOut_congr {skipped skipped' : Nat → Word} {n : Nat} (items : List Item)
    (same : ∀ i, n ≤ i → skipped i = skipped' i) : laidOut skipped n items = laidOut skipped' n items := by
  induction items generalizing n with
  | nil => rfl
  | cons a rest ih =>
    rw [laidOut, laidOut, same n le_rfl, ih fun i above => same i (by omega), ih fun i above => same i (by omega)]

/-- The text of a long long. -/
def longText (c : Letter) (v : BitVec 64) : List Byte :=
  if c.signed ∧ v.slt 0 then ch '-' :: digitsText (c = .X) c.base.val (-v).toNat
  else digitsText (c = .X) c.base.val v.toNat

theorem length_digitsText_le (large : Bool) (b : Nat) {n m : Nat} (less : n ≤ m) :
    (digitsText large b n).length ≤ (digitsText large b m).length := by
  rw [digitsText, digitsText, List.length_map, List.length_map]
  exact length_numeral_le less

theorem digitsText_one (c : Letter) {n : Nat} (small : n < 8) :
    (digitsText (c = .X) c.base.val n).length = 1 := by
  have all : ∀ n < 8, (digitsText (c = .X) c.base.val n).length = 1 := by
    cases c <;> decide +kernel
  exact all n small

theorem slt_zero_iff (v : BitVec 64) : v.slt 0 = true ↔ 2 ^ 63 ≤ v.toNat := by
  have msb := BitVec.slt_zero_iff_msb_cond (x := v)
  rw [BitVec.msb_eq_decide, decide_eq_true_eq] at msb
  exact msb

/-- The word before s, or the one behind it, where that is nearer to zero. -/
theorem longText_other (c : Letter) (s : Word) :
    ∃ x, x ≠ s ∧ (longText c (s ++ x)).length ≤ (longText c (s ++ s)).length := by
  have bound := s.isLt
  have one : (1 : Word).toNat = 1 := rfl
  have value (x : Word) := Memory.toNat_append_words s x
  have sign (x : Word) : (s ++ x).slt 0 = true ↔ 2 ^ 31 ≤ s.toNat := by
    have low := x.isLt
    rw [slt_zero_iff, value]
    omega
  have other {x : Word} {n : Nat} (is : x.toNat = n) (apart : n ≠ s.toNat) : x ≠ s := by
    rintro rfl
    exact apart is.symm
  by_cases negative : c.signed = true ∧ 2 ^ 31 ≤ s.toNat
  · have minus (x : Word) : (-(s ++ x)).toNat = 2 ^ 64 - (s.toNat * 2 ^ 32 + x.toNat) := by
      rw [BitVec.toNat_neg, value]
      have low := x.isLt
      omega
    have shown (x : Word) : longText c (s ++ x) = ch '-' :: digitsText (c = .X) c.base.val (-(s ++ x)).toNat :=
      if_pos ⟨negative.1, (sign x).mpr negative.2⟩
    by_cases last : s.toNat = 2 ^ 32 - 1
    · have two : (0xfffffffe : Word).toNat = 2 ^ 32 - 2 := rfl
      refine ⟨0xfffffffe, other two (by omega), ?_⟩
      rw [shown, shown, List.length_cons, List.length_cons, minus, minus, digitsText_one c (by omega),
        digitsText_one c (by omega)]
    · have next : (s + 1).toNat = s.toNat + 1 := by
        rw [BitVec.toNat_add, one]
        omega
      refine ⟨s + 1, other next (by omega), ?_⟩
      rw [shown, shown, List.length_cons, List.length_cons, minus, minus]
      exact Nat.succ_le_succ (length_digitsText_le _ _ (by omega))
  · have shown (x : Word) : longText c (s ++ x) = digitsText (c = .X) c.base.val (s ++ x).toNat :=
      if_neg fun h => negative ⟨h.1, (sign x).mp h.2⟩
    by_cases zero : s.toNat = 0
    · refine ⟨1, other one (by omega), ?_⟩
      rw [shown, shown, value, value, digitsText_one c (by omega), digitsText_one c (by omega)]
    · have before : (s - 1).toNat = s.toNat - 1 := by
        rw [BitVec.toNat_sub, one]
        omega
      refine ⟨s - 1, other before (by omega), ?_⟩
      rw [shown, shown, value, value]
      exact length_digitsText_le _ _ (by omega)

theorem printed_long {length : Length} (c : Letter) (long : length = .ll ∨ length = .L) (v : BitVec length.width)
    (args : List Word) : (Item.read ⟨length, c, v⟩ args).printed = longText c (va_long_long args).1 := by
  have wide (v : BitVec 64) : (if c.signed then v.signExtend 64 else v.setWidth 64) = v := by
    rw [BitVec.signExtend_eq, BitVec.setWidth_eq, ite_self]
  have ll (v : BitVec 64) : (Item.mk .ll c v).num = v := wide v
  have L (v : BitVec 64) : (Item.mk .L c v).num = v := wide v
  rcases long with rfl | rfl
  · simp only [Item.read, valueAt, Item.printed, ll, longText]
    rfl
  · simp only [Item.read, valueAt, Item.printed, L, longText]
    rfl

/-- The first word read is the low one. -/
theorem low_long {length : Length} (c : Letter) (long : length = .ll ∨ length = .L) (v : BitVec length.width)
    (x y : Word) (args : List Word) :
    (Item.read ⟨length, c, v⟩ (x :: y :: args)).value.extractLsb' 0 32 = x := by
  have low : (y ++ x).extractLsb' 0 32 = x := BitVec.extractLsb'_append_eq_right
  rcases long with rfl | rfl
  · exact low
  · exact low

theorem words_long {length : Length} (c : Letter) (long : length = .ll ∨ length = .L) (v : BitVec length.width) :
    ∃ high, (Item.mk length c v).words = [v.extractLsb' 0 32, high] := by
  rcases long with rfl | rfl
  · exact ⟨_, rfl⟩
  · exact ⟨_, rfl⟩

theorem printedText_length (a : Item) (rest : List Item) : (printedText (a :: rest)).length =
    a.printed.length + if rest = [] then 0 else 1 + (printedText rest).length := by
  cases rest with
  | nil => simp [printedText]
  | cons b rest =>
    rw [printedText_cons_cons, if_neg (List.cons_ne_nil _ _), List.length_append, List.length_cons]
    omega

/-- What is read of a long long with a word in front, and behind it. -/
theorem laidOut_skipped {n : Nat} {length : Length} {c : Letter} {v : BitVec length.width}
    (skips : (Item.mk length c v).skips n = true) (long : length = .ll ∨ length = .L) (skipped : Nat → Word)
    (rest : List Item) : ∃ tail, ∀ x, laidOut (Function.update skipped n x) n (⟨length, c, v⟩ :: rest) =
      x :: v.extractLsb' 0 32 :: tail := by
  obtain ⟨high, words⟩ := words_long c long v
  refine ⟨high :: laidOut skipped (n + 1 + 2) rest, fun x => ?_⟩
  rw [laidOut, if_pos skips, words, Function.update_self]
  refine congrArg (fun tail => x :: _ :: _ :: tail) (laidOut_congr rest fun i above => ?_)
  exact Function.update_of_ne (by simp at above; omega) _ _

/-- Such a word can be such that the values read are not those passed, and their text is no
longer than it was. -/
theorem received_other_here {n : Nat} {a : Item} (skips : a.skips n = true) (rest : List Item)
    (skipped : Nat → Word) :
    ∃ skipped', received (a :: rest) (laidOut skipped' n (a :: rest)) ≠ a :: rest ∧
      (printedText (received (a :: rest) (laidOut skipped' n (a :: rest)))).length ≤
        (printedText (received (a :: rest) (laidOut skipped n (a :: rest)))).length := by
  by_cases same : received (a :: rest) (laidOut skipped n (a :: rest)) = a :: rest
  case neg => exact ⟨skipped, same, le_rfl⟩
  obtain ⟨length, c, v⟩ := a
  have long : length = .ll ∨ length = .L := by
    have wide : length.width = 64 := (of_decide_eq_true skips).1
    cases length <;> simp [Length.width] at wide ⊢
  obtain ⟨tail, split⟩ := laidOut_skipped skips long skipped rest
  have first := split (skipped n)
  rw [Function.update_eq_self] at first
  rw [first] at same ⊢
  have low : v.extractLsb' 0 32 = skipped n := by
    have read := low_long c long v (skipped n) (v.extractLsb' 0 32) tail
    rwa [(List.cons.inj same).1] at read
  obtain ⟨x, other, short⟩ := longText_other c (skipped n)
  refine ⟨Function.update skipped n x, ?_, ?_⟩
  · rw [split]
    intro again
    have read := low_long c long v x (v.extractLsb' 0 32) tail
    rw [(List.cons.inj again).1] at read
    exact other (read.symm.trans low)
  · have taken : length.count = 2 := by rcases long with rfl | rfl <;> rfl
    rw [split, received, received, printedText_length, printedText_length, printed_long c long,
      printed_long c long, low]
    simp only [taken, List.drop_succ_cons, List.drop_zero]
    exact Nat.add_le_add_right short _

/-- It is the word in front of the first long long that needs one. -/
theorem received_other {n : Nat} {items : List Item} (loose : ¬ Packed n items) (skipped : Nat → Word) :
    ∃ skipped', received items (laidOut skipped' n items) ≠ items ∧
      (printedText (received items (laidOut skipped' n items))).length ≤
        (printedText (received items (laidOut skipped n items))).length := by
  induction items generalizing n with
  | nil => exact absurd trivial loose
  | cons a rest ih =>
    cases skips : a.skips n with
    | true => exact received_other_here skips rest skipped
    | false =>
      have later : ¬ Packed (n + a.words.length) rest := fun packed => loose ⟨skips, packed⟩
      obtain ⟨skipped', other, short⟩ := ih later
      have split (skipped : Nat → Word) : received (a :: rest) (laidOut skipped n (a :: rest)) =
          a :: received rest (laidOut skipped (n + a.words.length) rest) := by
        rw [laidOut, if_neg (by rw [skips]; exact Bool.false_ne_true), received, read_words, drop_words]
      have some (args : List Word) : received rest args = [] ↔ rest = [] := by
        rw [← List.length_eq_zero_iff, length_received, List.length_eq_zero_iff]
      refine ⟨skipped', fun same => other (List.cons.inj ((split skipped').symm.trans same)).2, ?_⟩
      rw [split, split, printedText_length, printedText_length]
      simp only [some]
      split_ifs <;> omega

theorem objectBytes_injective {w : Nat} (whole : w % 8 = 0) {u v : BitVec w} (same : objectBytes u = objectBytes v) :
    u = v := by
  apply BitVec.eq_of_getLsbD_eq
  intro i inside
  have place : i / 8 < w / 8 := by omega
  have byte := congrArg (fun bytes : List Byte => bytes[i / 8]?) same
  simp only [objectBytes, List.getElem?_map, List.getElem?_range place, Option.map_some, Option.some.injEq] at byte
  have bit := congrArg (fun b : Byte => b.getLsbD (i % 8)) byte
  have low : i % 8 < 8 := Nat.mod_lt _ (by decide)
  have index : 8 * (i / 8) + i % 8 = i := Nat.div_add_mod i 8
  simpa only [BitVec.getLsbD_extractLsb', low, decide_true, Bool.true_and, index] using bit

/-- Only the values that were passed are stored as they are. -/
theorem stores_received_iff (items : List Item) (args ptrs : List Word) (same : ptrs.length = items.length) :
    List.zipWith Item.store ptrs (received items args) = List.zipWith Item.store ptrs items ↔
      received items args = items := by
  refine ⟨fun stores => ?_, fun equal => by rw [equal]⟩
  induction items generalizing args ptrs with
  | nil => rfl
  | cons a rest ih =>
    obtain ⟨ptr, ptrs, rfl⟩ := List.exists_cons_of_length_eq_add_one same
    rw [received, List.zipWith_cons_cons, List.zipWith_cons_cons] at stores
    obtain ⟨here, later⟩ := List.cons.inj stores
    have whole : a.length.width % 8 = 0 := by cases a.length <;> rfl
    have value : (a.read args).value = a.value := objectBytes_injective whole (Store.mk.inj here).2
    have read : a.read args = a := by
      obtain ⟨length, c, v⟩ := a
      exact congrArg (Item.mk length c) value
    rw [received, read, ih _ ptrs (Nat.succ.inj same) later]

/-- printf and scanf with the same format, whatever is in the words that the caller skips:
where the text has at most 1023 characters, typing it stores the values that were passed
and returns their number. -/
def RoundTrips (items : List Item) (ptrs : List Word) : Prop :=
  ∀ skipped mem place outBuf inBuf, (formatted mem (format items) (arguments skipped items)).length ≤ 1023 →
    ∃ s, scanf inBuf ((printf mem place (format items) (arguments skipped items) outBuf).sent ++ [0x0d])
        (format items) ptrs = some s ∧
      s.result = items.length ∧ s.stores = List.zipWith Item.store ptrs items

def samplePlace : Place := ⟨0x50008000, by decide⟩

/-- They do so exactly if no word is skipped in front of a long long. va_arg of vsprintf.h
goes from word to word, and takes the skipped one for the first of the two. -/
theorem scanf_printf_iff (items : List Item) (ptrs : List Word) (same : ptrs.length = items.length)
    (short : ∃ skipped mem, (formatted mem (format items) (arguments skipped items)).length ≤ 1023) :
    RoundTrips items ptrs ↔ Packed 1 items := by
  constructor
  · intro trips
    by_contra loose
    obtain ⟨skipped, mem, small⟩ := short
    obtain ⟨skipped', other, less⟩ := received_other loose skipped
    rw [formatted_items] at small
    have fits : (formatted (fun _ => 0) (format items) (arguments skipped' items)).length ≤ 1023 := by
      rw [formatted_items]
      exact Nat.le_trans less small
    obtain ⟨s, scanned, -, stores⟩ := trips skipped' (fun _ => 0) samplePlace (fun _ => 0) (fun _ => 0) fits
    obtain ⟨t, scanned', -, stores', -⟩ := scanf_printf (fun _ => 0) samplePlace (fun _ => 0) (fun _ => 0) items
      (arguments skipped' items) ptrs same (Nat.lt_succ_of_le fits)
    cases scanned.symm.trans scanned'
    exact other ((stores_received_iff items _ ptrs same).mp (stores'.symm.trans stores))
  · intro packed skipped mem place outBuf inBuf fits
    obtain ⟨s, scanned, count, stores, -⟩ := scanf_printf mem place outBuf inBuf items (arguments skipped items) ptrs
      same (Nat.lt_succ_of_le fits)
    refine ⟨s, scanned, count, ?_⟩
    rw [stores, arguments, received_packed skipped packed]

/-- The least int, a long long in its two words, and an unsigned short in hexadecimal. -/
def sample : List Item :=
  [⟨.none, .d, 0x80000000#32⟩, ⟨.ll, .u, 0x100000002#64⟩, ⟨.h, .x, 0xffff#16⟩]

theorem scanf_printf_iff_sample : RoundTrips sample [0x57000000, 0x57000004, 0x5700000c] := by
  refine (scanf_printf_iff sample [0x57000000, 0x57000004, 0x5700000c] rfl ⟨fun _ => 0, fun _ => 0, ?_⟩).mpr (by decide)
  rw [formatted_items]
  decide +kernel

/-- The long long 5 alone: r1 is skipped, and what it holds is printed as the low word. -/
theorem long_long_misread : ¬ RoundTrips [⟨.ll, .d, 5#64⟩] [0x57000000] := by
  intro trips
  have read : received [⟨.ll, .d, 5#64⟩] (arguments (fun _ => 7) [⟨.ll, .d, 5#64⟩]) = [⟨.ll, .d, 0x500000007#64⟩] := by
    rfl
  have text : formatted (fun _ => 0) (format [⟨.ll, .d, 5#64⟩]) (arguments (fun _ => 7) [⟨.ll, .d, 5#64⟩]) =
      chs "21474836487" := by
    rw [formatted_items, read]
    decide +kernel
  obtain ⟨s, scanned, -, stores⟩ := trips (fun _ => 7) (fun _ => 0) samplePlace (fun _ => 0) (fun _ => 0)
    (by rw [text]; decide)
  obtain ⟨t, scanned', -, stores', -⟩ := scanf_printf (fun _ => 0) samplePlace (fun _ => 0) (fun _ => 0)
    [⟨.ll, .d, 5#64⟩] (arguments (fun _ => 7) [⟨.ll, .d, 5#64⟩]) [0x57000000] rfl (by rw [text]; decide)
  cases scanned.symm.trans scanned'
  rw [stores, read] at stores'
  exact absurd stores' (by decide)

end Tiny6410.Stdio
