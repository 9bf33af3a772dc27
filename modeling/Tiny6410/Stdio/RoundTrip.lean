import Tiny6410.Stdio.Integers

/-! Integers through printf and back through scanf. Both read the same format, each
with its own parser for it. -/
namespace Tiny6410.Stdio

open Memory (Byte Word Bytes)
open Numeral

/-- A line and what ends it. -/
theorem getLoop_line (before : Nat → Byte) (text line : List Byte) (line_plain : ∀ c ∈ line, c ≠ 0x0d ∧ c ≠ 0x0a)
    {stop : Byte} (ends : stop = 0x0d ∨ stop = 0x0a) (rest : List Byte) :
    getLoop (line ++ stop :: rest) text.length (written before text) =
      some ((text ++ line).length, written before (text ++ line ++ [0])) := by
  induction line generalizing text with
  | nil =>
    rw [List.nil_append, getLoop, if_pos ends, written_snoc, List.append_nil]
  | cons c line ih =>
    obtain ⟨key, others⟩ := List.forall_mem_cons.mp line_plain
    rw [List.cons_append, getLoop, if_neg (not_or.mpr key), written_snoc]
    have next := ih (text ++ [c]) others
    rw [List.length_append, List.length_singleton] at next
    rw [next, List.append_assoc]
    rfl

/-- What follows a number: not a digit, and not the mark of a hexadecimal number. -/
def Ends (tail : List Byte) : Prop :=
  isxdigit (tail.headD 0) = false ∧ toupper (tail.headD 0) ≠ ch 'X'

section Parse

variable {w : Nat} {value : Byte → Nat} (reads : ∀ {c d}, Digit c d → value c = d)
  {tail : List Byte} (ends : Ends tail)
include reads ends

theorem digitLoop_digits (large : Bool) {b : Nat} (base : b ≤ 16) (ds : List Nat)
    (below : ∀ d ∈ ds, d < b) (r : BitVec w) :
    digitLoop value b (ds.map (digitChar large) ++ tail) r =
      (ds.foldl (fun r d => r * BitVec.ofNat w b + BitVec.ofNat w d) r, tail) := by
  induction ds generalizing r with
  | nil =>
    cases tail with
    | nil => rfl
    | cons c tail =>
      have stop : isxdigit c = false := ends.1
      simp [digitLoop, stop]
  | cons d ds ih =>
    have small := below d List.mem_cons_self
    have within : d < 16 := by omega
    have facts := digit_char large within
    rw [List.map_cons, List.cons_append, digitLoop, reads facts, if_pos ⟨facts.hex, small⟩,
      ih fun d mem => below d (List.mem_cons_of_mem _ mem)]
    rfl

theorem digitLoop_text (large : Bool) {b n : Nat} (base : 2 ≤ b ∧ b ≤ 16) :
    digitLoop value b (digitsText large b n ++ tail) (0 : BitVec w) = (BitVec.ofNat w n, tail) := by
  rw [digitsText, digitLoop_digits reads ends large base.2 _
    (fun d mem => lt_of_mem_numeral base.1 mem)]
  exact congrArg (·, tail) (foldl_numeral (R := BitVec w) b n)

/-- The base that reads a text back: its own, or 0 for a decimal one. -/
def Reads (sb b : Nat) : Prop := sb = b ∧ 2 ≤ b ∧ b ≤ 16 ∨ sb = 0 ∧ b = 10

omit reads in
theorem second_unmarked (large : Bool) {b n : Nat} (base : 2 ≤ b ∧ b ≤ 16) :
    toupper ((digitsText large b n ++ tail).tail.headD 0) ≠ ch 'X' := by
  cases text : digitsText large b n with
  | nil => exact absurd (List.map_eq_nil_iff.mp text) numeral_ne_nil
  | cons c cs =>
    cases cs with
    | nil => exact ends.2
    | cons e cs =>
      have mem : e ∈ digitsText large b n := by simp [text]
      obtain ⟨d, -, facts⟩ := digitsText_digit base mem
      exact facts.mark

omit reads ends in
theorem head_digitsText (large : Bool) {b n : Nat} (base : 2 ≤ b ∧ b ≤ 16) (tail : List Byte) :
    ∃ c d, (digitsText large b n ++ tail).headD 0 = c ∧ d < b ∧ Digit c d ∧ (d = 0 → n = 0) := by
  have head := List.cons_head_tail (numeral_ne_nil (b := b) (n := n))
  set d := (numeral b n).head numeral_ne_nil with named
  have mem : d ∈ numeral b n := List.head_mem numeral_ne_nil
  have below := lt_of_mem_numeral base.1 mem
  refine ⟨digitChar large d, d, ?_, below, digit_char large (by omega), ?_⟩
  · rw [digitsText, ← head]
    rfl
  · exact fun zero => head_numeral_eq_zero zero

/-- Base 0 reads a decimal text. A leading zero would make it octal, and only 0 has one. -/
theorem strtou_zero (large : Bool) (n : Nat) :
    strtou w value (digitsText large 10 n ++ tail) 0 = (BitVec.ofNat w n, tail) := by
  unfold strtou baseOf
  rw [if_pos rfl]
  by_cases zero : n = 0
  · have text : digitsText large 10 n = [ch '0'] := by
      rw [zero]
      cases large <;> rfl
    have plain : ¬ (toupper (tail.headD 0) = ch 'X' ∧ isxdigit (tail.tail.headD 0) = true) :=
      fun marked => ends.2 marked.1
    rw [text, List.singleton_append, List.headD_cons, if_pos rfl, List.tail_cons, if_neg plain, zero]
    exact digitLoop_digits reads ends large (b := 8) (by decide) [] (by simp) 0
  · obtain ⟨c, d, head, -, facts, first⟩ :=
      head_digitsText large (b := 10) (n := n) (by decide) tail
    have other : (digitsText large 10 n ++ tail).headD 0 ≠ ch '0' := by
      rw [head]
      exact fun same => zero (first (facts.zero same))
    rw [if_neg other]
    exact digitLoop_text reads ends large (b := 10) (by decide)

theorem strtou_text (large : Bool) {sb b n : Nat} (read : Reads sb b) :
    strtou w value (digitsText large b n ++ tail) sb = (BitVec.ofNat w n, tail) := by
  rcases read with ⟨rfl, base⟩ | ⟨rfl, rfl⟩
  · have second := second_unmarked ends large (n := n) base
    have kept : baseOf (digitsText large sb n ++ tail) sb = (sb, digitsText large sb n ++ tail) := by
      unfold baseOf
      rw [if_neg (by omega)]
      split
      · rename_i hexadecimal
        rw [if_neg fun marked => second marked.2, hexadecimal]
      · rfl
    rw [strtou, kept]
    exact digitLoop_text reads ends large base
  · exact strtou_zero reads ends large n

theorem strto_text (large : Bool) {sb b n : Nat} (base : 2 ≤ b ∧ b ≤ 16) (read : Reads sb b) :
    strto w value (digitsText large b n ++ tail) sb = (BitVec.ofNat w n, tail) := by
  obtain ⟨c, d, head, -, facts, -⟩ := head_digitsText large (n := n) base tail
  have unsigned : (digitsText large b n ++ tail).headD 0 ≠ ch '-' := by
    rw [head]
    exact fun same => facts.text (by simp [same])
  rw [strto, if_neg unsigned]
  exact strtou_text reads ends large read

theorem strto_minus (large : Bool) {sb b n : Nat} (read : Reads sb b) :
    strto w value (ch '-' :: digitsText large b n ++ tail) sb = (-BitVec.ofNat w n, tail) := by
  rw [strto, List.cons_append, List.headD_cons, if_pos rfl, List.tail_cons,
    strtou_text reads ends large read]

end Parse

theorem reads_letter (c : Letter) : Reads c.scanBase c.base.val := by
  cases c <;> unfold Reads <;> decide

theorem num_value (a : Item) : a.num.setWidth a.length.width = a.value := by
  obtain ⟨length, c, v⟩ := a
  cases length with
  | z => exact setWidth_widen (w := 32) (k := 64) (by decide) false v
  | Z => exact setWidth_widen (w := 32) (k := 64) (by decide) false v
  | none => exact setWidth_widen (w := 32) (k := 64) (by decide) c.signed v
  | l => exact setWidth_widen (w := 32) (k := 64) (by decide) c.signed v
  | h => exact setWidth_widen (w := 16) (k := 64) (by decide) c.signed v
  | ll => exact setWidth_widen (w := 64) (k := 64) (by decide) c.signed v
  | L => exact setWidth_widen (w := 64) (k := 64) (by decide) c.signed v

section Stored

variable {w : Nat} {value : Byte → Nat} (reads : ∀ {c d}, Digit c d → value c = d)
  {tail : List Byte} (ends : Ends tail) (a : Item)
include reads ends

theorem strto_printed (small : w ≤ 64) :
    (if a.letter.signed then strto w value (a.printed ++ tail) a.letter.scanBase
      else strtou w value (a.printed ++ tail) a.letter.scanBase) = (a.num.setWidth w, tail) := by
  have read := reads_letter a.letter
  unfold Item.printed
  cases signed : a.letter.signed with
  | true =>
    rw [if_pos rfl]
    by_cases negative : a.num.slt 0 = true
    · rw [if_pos ⟨rfl, negative⟩, strto_minus reads ends _ read, BitVec.ofNat_toNat,
        BitVec.setWidth_neg_of_le small, BitVec.neg_neg]
    · rw [if_neg fun h => negative h.2, strto_text reads ends _ (base_le a.letter) read,
        BitVec.ofNat_toNat]
  | false =>
    rw [if_neg Bool.false_ne_true, if_neg fun h => Bool.false_ne_true h.1,
      strtou_text reads ends _ read, BitVec.ofNat_toNat]

theorem strtou_printed (positive : ¬ a.num.slt 0 = true) :
    strtou w value (a.printed ++ tail) a.letter.scanBase = (a.num.setWidth w, tail) := by
  rw [Item.printed, if_neg fun h => positive h.2, strtou_text reads ends _ (reads_letter a.letter),
    BitVec.ofNat_toNat]

end Stored

/-- A size_t is never printed with a sign. -/
theorem size_positive (v : BitVec 32) : ¬ (v.setWidth 64).slt 0 = true := by
  have small : v.toNat < 2 ^ 32 := v.isLt
  have kept : (v.setWidth 64).toNat = v.toNat := by
    rw [BitVec.toNat_setWidth]
    exact Nat.mod_eq_of_lt (by omega)
  intro negative
  have msb := BitVec.slt_zero_iff_msb_cond.mp negative
  rw [BitVec.msb_eq_decide, kept] at msb
  have high := of_decide_eq_true msb
  omega

theorem integerStore_printed (a : Item) {tail : List Byte} (ends : Ends tail) :
    integerStore a.length.qualifier a.letter.signed a.letter.scanBase (a.printed ++ tail) =
      (objectBytes a.value, tail) := by
  have long := strto_printed (w := 32) Digit.value ends a (by decide)
  have longLong := strto_printed (w := 64) Digit.valueLong ends a (by decide)
  have size := strtou_printed (w := 32) Digit.value ends a
  have same := num_value a
  unfold integerStore simple_strtol simple_strtoul simple_strtoll simple_strtoull
  rw [long, longLong]
  obtain ⟨length, c, v⟩ := a
  have stored {w : Nat} {x y : BitVec w} (same : x = y) :
      (objectBytes x, tail) = (objectBytes y, tail) := by rw [same]
  cases length with
  | none => exact stored same
  | l => exact stored same
  | h =>
    have narrower : 16 ≤ 32 := by decide
    exact stored ((BitVec.setWidth_setWidth_of_le _ narrower).trans same)
  | ll => exact stored same
  | L => exact stored same
  | z =>
    rw [size (size_positive v)]
    exact stored same
  | Z =>
    rw [size (size_positive v)]
    exact stored same

theorem startsNumber_digit (l : Letter) {c : Byte} {d : Nat} (facts : Digit c d)
    (below : d < l.base.val) : startsNumber c l.scanBase = true := by
  have zero : c ≠ 0#8 := fun zero => facts.text (by simp [zero])
  unfold startsNumber
  cases l with
  | d => simp [Letter.scanBase, Letter.base, decimal, zero, facts.ten below]
  | u => simp [Letter.scanBase, Letter.base, decimal, zero, facts.ten below]
  | i => simp [Letter.scanBase, zero, facts.ten below]
  | x => simp [Letter.scanBase, Letter.base, hexadecimal, zero, facts.hex]
  | X => simp [Letter.scanBase, Letter.base, hexadecimal, zero, facts.hex]
  | o =>
    have eight : d < 8 := below
    have digit := facts.ten (by omega)
    have small := BitVec.not_lt.mpr (facts.eight eight)
    simp [Letter.scanBase, Letter.base, octal, zero, digit, small]

theorem leadDigit_printed (a : Item) (tail : List Byte) :
    ∃ d < a.letter.base.val, Digit (leadDigit (a.printed ++ tail) a.letter.signed) d := by
  have base := base_le a.letter
  unfold Item.printed leadDigit
  by_cases negative : a.letter.signed = true ∧ a.num.slt 0 = true
  · obtain ⟨c, d, head, below, facts, -⟩ := head_digitsText (a.letter = .X) (n := (-a.num).toNat)
      base tail
    rw [if_pos negative, List.cons_append, List.headD_cons, if_pos ⟨negative.1, rfl⟩, List.tail_cons,
      head]
    exact ⟨d, below, facts⟩
  · obtain ⟨c, d, head, below, facts, -⟩ := head_digitsText (a.letter = .X) (n := a.num.toNat)
      base tail
    have unsigned : c ≠ ch '-' := fun same => facts.text (by simp [same])
    rw [if_neg negative, head, if_neg fun h => unsigned h.2]
    exact ⟨d, below, facts⟩

theorem head_printed (a : Item) (tail : List Byte) :
    (a.printed ++ tail).headD 0 ≠ 0 ∧ isspace ((a.printed ++ tail).headD 0) = false := by
  unfold Item.printed
  split
  · rw [List.cons_append, List.headD_cons]
    decide +kernel
  · obtain ⟨c, d, head, -, facts, -⟩ := head_digitsText (a.letter = .X) (n := a.num.toNat)
      (base_le a.letter) tail
    rw [head]
    exact ⟨fun zero => facts.text (by simp [zero]), facts.solid⟩

theorem dropWhile_solid {s : List Byte} (solid : isspace (s.headD 0) = false) :
    s.dropWhile isspace = s := by
  cases s with
  | nil => rfl
  | cons c s =>
    have here : isspace c = false := solid
    rw [List.dropWhile_cons, if_neg (by simp [here])]

theorem scanQualifierOf_text (length : Length) (c : Letter) (rest : List Byte) :
    scanQualifierOf (length.text ++ [c.char] ++ rest) = (length.qualifier, c.char :: rest) := by
  cases length <;> cases c <;> rfl

theorem integerKind_letter (c : Letter) : integerKind c.char = some (c.scanBase, c.signed) := by
  cases c <;> rfl

theorem percent_facts : ch '%' ≠ 0 ∧ isspace (ch '%') = false ∧ ch ' ' ≠ 0 ∧
    isspace (ch ' ') = true := by
  decide +kernel

theorem letter_facts (c : Letter) :
    c.char ≠ 0 ∧ c.char ≠ ch 'c' ∧ c.char ≠ ch 's' ∧ c.char ≠ ch 'n' ∧ c.char ≠ ch '%' := by
  cases c <;> decide

/-- A round of the scanner for a conversion, with the format at the per cent sign. -/
theorem scanLoop_percent (length fuel : Nat) (a : Item) {tail : List Byte} (ends : Ends tail)
    (rest : List Byte) (ptr : Word) (args : List Word) (s : Scan) :
    scanLoop length (fuel + 1) (a.printed ++ tail) (a.text ++ rest) (ptr :: args) s =
      scanLoop length fuel tail rest args (s.convert ptr (objectBytes a.value)) := by
  obtain ⟨first, more, text, digit, other⟩ := text_plain a.length a.letter
  obtain ⟨some, solid⟩ := head_printed a tail
  obtain ⟨d, below, facts⟩ := leadDigit_printed a tail
  obtain ⟨percent, black, -⟩ := percent_facts
  obtain ⟨letter, notC, notS, notN, notPercent⟩ := letter_facts a.letter
  have starts := startsNumber_digit a.letter facts below
  have qualifier := scanQualifierOf_text a.length a.letter rest
  have fmt : a.text ++ rest = ch '%' :: (a.length.text ++ [a.letter.char] ++ rest) := rfl
  have star : first ≠ ch '*' := fun same => other (by simp [same])
  have width : scanWidthOf (first :: (more ++ rest)) = (-1, first :: (more ++ rest)) := by
    simp [scanWidthOf, digit]
  rw [text, List.cons_append] at fmt qualifier
  have both : ¬ (ch '%' = 0 ∨ (a.printed ++ tail).headD 0 = 0) := not_or.mpr ⟨percent, some⟩
  have going : ¬ (a.letter.char = 0 ∨ (a.printed ++ tail).headD 0 = 0) := not_or.mpr ⟨letter, some⟩
  rw [scanLoop, fmt]
  simp only [List.headD_cons, List.tail_cons, if_neg both, black, Bool.false_eq_true, if_false,
    ne_eq, not_true_eq_false, false_and, if_neg percent, if_neg star, width, qualifier,
    if_neg going, if_neg notC, if_neg notS, if_neg notN, if_neg notPercent, integerKind_letter,
    dropWhile_solid solid, starts, if_true, integerStore_printed a ends, va_word]

/-- A space in the format skips the space in the input, in the same round. -/
theorem scanLoop_blank (length fuel : Nat) {str fmt : List Byte} (args : List Word) (s : Scan)
    (some : str.headD 0 ≠ 0) (solid : isspace (str.headD 0) = false) (here : fmt.headD 0 = ch '%') :
    scanLoop length (fuel + 1) (ch ' ' :: str) (ch ' ' :: fmt) args s =
      scanLoop length (fuel + 1) str fmt args s := by
  obtain ⟨percent, black, space, blank⟩ := percent_facts
  have solidFmt : isspace (fmt.headD 0) = false := by rw [here, black]
  have skipStr : (ch ' ' :: str).dropWhile isspace = str := by
    rw [List.dropWhile_cons, if_pos blank, dropWhile_solid solid]
  have skipFmt : (ch ' ' :: fmt).dropWhile isspace = fmt := by
    rw [List.dropWhile_cons, if_pos blank, dropWhile_solid solidFmt]
  have both : ¬ (fmt.headD 0 = 0 ∨ str.headD 0 = 0) :=
    not_or.mpr ⟨by rw [here]; exact percent, some⟩
  conv_lhs => rw [scanLoop]
  conv_rhs => rw [scanLoop]
  simp only [List.headD_cons, space, or_self, if_false, blank, if_true, skipStr, skipFmt,
    if_neg both, solidFmt, Bool.false_eq_true]

theorem ends_nil : Ends [] := by
  unfold Ends
  decide +kernel

theorem ends_space (rest : List Byte) : Ends (ch ' ' :: rest) := by
  unfold Ends
  rw [List.headD_cons]
  decide +kernel

theorem printedText_cons (a : Item) (rest : List Item) :
    ∃ tail, printedText (a :: rest) = a.printed ++ tail := by
  cases rest with
  | nil => exact ⟨[], by simp [printedText]⟩
  | cons b rest => exact ⟨_, printedText_cons_cons a b rest⟩

theorem head_format (a : Item) (rest : List Item) : (format (a :: rest)).headD 0 = ch '%' := by
  cases rest with
  | nil => simp [format, Item.text]
  | cons b rest =>
    rw [format_cons_cons]
    rfl

theorem scanLoop_nil (length fuel : Nat) (str : List Byte) (args : List Word) (s : Scan) :
    scanLoop length fuel str [] args s = s := by
  cases fuel <;> simp [scanLoop]

theorem scanLoop_items (length : Nat) (items : List Item) (ptrs : List Word)
    (same : ptrs.length = items.length) {fuel : Nat} (enough : items.length ≤ fuel) (s : Scan) :
    scanLoop length fuel (printedText items) (format items) ptrs s =
      ⟨s.num + items.length, s.stores ++ List.zipWith Item.store ptrs items⟩ := by
  induction items generalizing ptrs fuel s with
  | nil =>
    have none : format [] = [] := rfl
    rw [none, scanLoop_nil]
    simp
  | cons a rest ih =>
    obtain ⟨ptr, ptrs, rfl⟩ := List.exists_cons_of_length_eq_add_one same
    simp only [List.length_cons, Nat.add_right_cancel_iff] at same enough
    obtain ⟨fuel, rfl⟩ : ∃ more, fuel = more + 1 := ⟨fuel - 1, by omega⟩
    cases rest with
    | nil =>
      have text : printedText [a] = a.printed ++ [] := by simp [printedText]
      have fmt : format [a] = a.text ++ [] := by simp [format]
      rw [text, fmt, scanLoop_percent length fuel a ends_nil, scanLoop_nil]
      simp [Scan.convert, Item.store]
    | cons b rest =>
      obtain ⟨tail, next⟩ := printedText_cons b rest
      obtain ⟨some, solid⟩ := head_printed b tail
      rw [← next] at some solid
      rw [List.length_cons] at enough
      obtain ⟨fuel, rfl⟩ : ∃ more, fuel = more + 1 := ⟨fuel - 1, by omega⟩
      rw [printedText_cons_cons, format_cons_cons,
        scanLoop_percent length (fuel + 1) a (ends_space _),
        scanLoop_blank length fuel _ _ some solid (head_format b rest),
        ih ptrs same (by rw [List.length_cons]; omega)]
      simp [Scan.convert, Item.store]
      omega

theorem scanf_items (before : Nat → Byte) (items : List Item) (ptrs : List Word)
    (same : ptrs.length = items.length) (short : (printedText items).length < 2 ^ 32) :
    scanf before (printedText items ++ [0x0d]) (format items) ptrs =
      some ⟨items.length, List.zipWith Item.store ptrs items, printedText items ++ [0x0d],
        written before (printedText items ++ [0])⟩ := by
  have typed := getLoop_line before [] (printedText items)
    (fun _ mem => Typable.line (printedText_typable items mem)) (.inl rfl) []
  rw [List.nil_append, List.length_nil, written_nil] at typed
  have enough : items.length ≤ (format items).length := by
    have length := length_format items
    omega
  rw [scanf, typed, Option.map_some, stringAt_written before (printedText_plain items) short, vsscanf,
    scanLoop_items _ items ptrs same enough]
  simp

theorem written_outside (before : Nat → Byte) (text : List Byte) {i : Nat}
    (outside : text.length ≤ i) : written before text i = before i := by
  rw [written, dif_neg (by omega)]

/-- Whatever words the arguments are: the values that va_arg finds in them make the round
trip. -/
theorem scanf_printf (mem : Bytes) (place : Place) (outBuf : Bytes) (inBuf : Nat → Byte) (items : List Item)
    (args ptrs : List Word) (same : ptrs.length = items.length)
    (short : (formatted mem (format items) args).length < OUTBUFSIZE) :
    let p := printf mem place (format items) args outBuf
    ∃ s, scanf inBuf (p.sent ++ [0x0d]) (format items) ptrs = some s ∧
      s.result = items.length ∧
      s.stores = List.zipWith Item.store ptrs (received items args) ∧
      p.sent.length = p.result ∧
      (∀ x, OUTBUFSIZE ≤ Memory.offset place.addr x → p.mem x = outBuf x) ∧
      ∀ i ≥ INBUFSIZE, s.g_pcInBuf i = inBuf i := by
  have size : OUTBUFSIZE = 1024 := rfl
  have size' : INBUFSIZE = 1024 := rfl
  have printed := printf_short mem place (format items) args outBuf short
  have text := formatted_items mem items args
  have plain : Text.string 0 (formatted mem (format items) args) = printedText (received items args) := by
    rw [text, Text.string_eq_self (printedText_plain _)]
  rw [plain, text] at printed
  rw [text] at short
  have scanned := scanf_items inBuf (received items args) ptrs (same.trans (length_received items args).symm)
    (by omega)
  rw [format_received, length_received] at scanned
  rw [printed]
  refine ⟨_, scanned, rfl, rfl, rfl, fun x above => ?_, fun i above => ?_⟩
  · exact Memory.overlay_outside outBuf (fun i => (printedText (received items args)).getD i 0)
      (Nat.le_trans short above)
  · exact written_outside _ _ (by rw [List.length_append, List.length_singleton]; omega)

end Tiny6410.Stdio
