import Tiny6410.Lib.Numeral
import Tiny6410.Stdio.Output
import Tiny6410.Stdio.Scanf

/-! Lists of integer conversions, joined by single spaces, and what printf sends for
them. The values are those that va_arg of vsprintf.h finds in the words of the arguments. -/
namespace Tiny6410.Stdio

open Memory (Byte Word Bytes)
open Numeral

inductive Letter where
  | d | i | u | o | x | X
  deriving DecidableEq

inductive Length where
  | none | h | l | ll | L | z | Z
  deriving DecidableEq

def Letter.char : Letter → Byte
  | .d => ch 'd'
  | .i => ch 'i'
  | .u => ch 'u'
  | .o => ch 'o'
  | .x => ch 'x'
  | .X => ch 'X'

def Letter.signed : Letter → Bool
  | .d | .i => true
  | _ => false

def Letter.base : Letter → Base
  | .o => octal
  | .x | .X => hexadecimal
  | _ => decimal

def Letter.flags (c : Letter) : Flags := { noFlags with sign := c.signed, large := c = .X }

/-- The base that vsscanf passes on. -/
def Letter.scanBase : Letter → Nat
  | .i => 0
  | c => c.base.val

def Length.text : Length → List Byte
  | .none => []
  | .h => [ch 'h']
  | .l => [ch 'l']
  | .ll => [ch 'l', ch 'l']
  | .L => [ch 'L']
  | .z => [ch 'z']
  | .Z => [ch 'Z']

def Length.qualifier : Length → Qualifier
  | .none => .none
  | .h => .h
  | .l => .l
  | .ll | .L => .L
  | .z => .z
  | .Z => .Z

/-- The width of the integer type. -/
def Length.width : Length → Nat
  | .h => 16
  | .ll | .L => 64
  | _ => 32

/-- A conversion and a value of its type, signed or not as the conversion has it. -/
structure Item where
  length : Length
  letter : Letter
  value : BitVec length.width

def Item.text (a : Item) : List Byte := ch '%' :: a.length.text ++ [a.letter.char]

/-- The words in which a value is passed. A short is passed as an int. -/
def argWords (signed : Bool) : (length : Length) → BitVec length.width → List Word
  | .h, v => [if signed then BitVec.signExtend 32 v else BitVec.setWidth 32 v]
  | .ll, v | .L, v => [BitVec.extractLsb' 0 32 v, BitVec.extractLsb' 32 32 v]
  | .none, v | .l, v | .z, v | .Z, v => [v]

def Item.words (a : Item) : List Word := argWords a.letter.signed a.length a.value

def format (items : List Item) : List Byte := [ch ' '].intercalate (items.map Item.text)

/-- What scanf has to store for a value. -/
def Item.store (ptr : Word) (a : Item) : Store := ⟨ptr, objectBytes a.value⟩

/-! The formatter. -/

/-- The value as number gets it. -/
def Item.num (a : Item) : BitVec 64 :=
  match a.length with
  | .z | .Z => a.value.setWidth 64
  | _ => if a.letter.signed then a.value.signExtend 64 else a.value.setWidth 64

def digitsText (large : Bool) (b n : Nat) : List Byte := (numeral b n).map (digitChar large)

def Item.printed (a : Item) : List Byte :=
  if a.letter.signed ∧ a.num.slt 0 then
    ch '-' :: digitsText (a.letter = .X) a.letter.base.val (-a.num).toNat
  else digitsText (a.letter = .X) a.letter.base.val a.num.toNat

/-! What va_arg makes of the words. -/

/-- How many words a conversion takes. -/
def Length.count : Length → Nat
  | .ll | .L => 2
  | _ => 1

def valueAt : (length : Length) → List Word → BitVec length.width
  | .h, args => (va_word args).1.setWidth 16
  | .ll, args | .L, args => (va_long_long args).1
  | .none, args | .l, args | .z, args | .Z, args => (va_word args).1

/-- The conversion with the value that is found where the arguments are read. -/
def Item.read (a : Item) (args : List Word) : Item := { a with value := valueAt a.length args }

def received : List Item → List Word → List Item
  | [], _ => []
  | a :: rest, args => a.read args :: received rest (args.drop a.length.count)

/-- A character that vsnprintf does not take for a flag, a width or a precision. -/
def Plain (c : Byte) : Prop :=
  isdigit c = false ∧ c ∉ [ch '-', ch '+', ch ' ', ch '#', ch '0', ch '*', ch '.']

instance (c : Byte) : Decidable (Plain c) := inferInstanceAs (Decidable (_ ∧ _))

theorem specOf_plain {c : Byte} (plain : Plain c) (fmt : List Byte) (args : List Word) :
    specOf (c :: fmt) args = (⟨noFlags, -1, -1, (qualifierOf (c :: fmt)).1⟩,
      (qualifierOf (c :: fmt)).2, args) := by
  obtain ⟨digit, other⟩ := plain
  simp only [List.mem_cons, List.not_mem_nil, or_false, not_or] at other
  obtain ⟨minus, plus, space, hash, zero, star, dot⟩ := other
  simp [specOf, flagLoop, widthOf, precisionOf, digit, minus, plus, space, hash, zero, star, dot]

theorem text_plain (length : Length) (c : Letter) :
    ∃ first more, length.text ++ [c.char] = first :: more ∧ Plain first := by
  have plain : Plain (length.text.headD c.char) := by
    cases length <;> cases c <;> decide +kernel
  cases text : length.text with
  | nil =>
    rw [text] at plain
    exact ⟨_, _, rfl, plain⟩
  | cons first more =>
    rw [text] at plain
    exact ⟨_, _, rfl, plain⟩

theorem qualifierOf_text (length : Length) (c : Letter) (rest : List Byte) :
    qualifierOf (length.text ++ [c.char] ++ rest) = (length.qualifier, c.char :: rest) := by
  cases length <;> cases c <;> rfl

theorem specOf_text (length : Length) (c : Letter) (rest : List Byte) (args : List Word) :
    specOf (length.text ++ [c.char] ++ rest) args =
      (⟨noFlags, -1, -1, length.qualifier⟩, c.char :: rest, args) := by
  obtain ⟨first, more, text, plain⟩ := text_plain length c
  have parsed := qualifierOf_text length c rest
  rw [text, List.cons_append] at parsed ⊢
  rw [specOf_plain plain, parsed]

theorem convert_letter (mem : Bytes) (buf stop : Word) (q : Qualifier) (c : Letter) (args : List Word)
    (o : Out) : convert mem buf stop ⟨noFlags, -1, -1, q⟩ c.char args o =
      (o.puts stop (number (integerArg q c.signed args).1 c.base (-1) (-1) c.flags),
        (integerArg q c.signed args).2) := by
  cases c <;> rfl

theorem setWidth_signExtend {w k : Nat} (wide : w ≤ k) (v : BitVec w) :
    (v.signExtend k).setWidth w = v := by
  apply BitVec.eq_of_getLsbD_eq
  intro i low
  have inside : i < k := by omega
  rw [BitVec.getLsbD_setWidth, BitVec.getLsbD_signExtend, if_pos low, decide_eq_true low,
    decide_eq_true inside, Bool.true_and, Bool.true_and]

theorem setWidth_widen {w k : Nat} (wide : w ≤ k) (signed : Bool) (v : BitVec w) :
    (if signed then v.signExtend k else v.setWidth k).setWidth w = v := by
  split
  · exact setWidth_signExtend wide v
  · rw [BitVec.setWidth_setWidth_of_le v wide, BitVec.setWidth_eq]

theorem length_words (a : Item) : a.words.length = a.length.count := by
  obtain ⟨length, c, v⟩ := a
  cases length <;> rfl

/-- A value is read back from its own words. -/
theorem read_words (a : Item) (args : List Word) : a.read (a.words ++ args) = a := by
  obtain ⟨length, c, v⟩ := a
  have joined (v : BitVec 64) : v.extractLsb' 32 32 ++ v.extractLsb' 0 32 = v :=
    BitVec.extractLsb'_append_extractLsb'
  cases length with
  | h => exact congrArg (Item.mk .h c) (setWidth_widen (w := 16) (k := 32) (by decide) c.signed v)
  | ll => exact congrArg (Item.mk .ll c) (joined v)
  | L => exact congrArg (Item.mk .L c) (joined v)
  | none => rfl
  | l => rfl
  | z => rfl
  | Z => rfl

theorem drop_words (a : Item) (args : List Word) : (a.words ++ args).drop a.length.count = args := by
  rw [← length_words, List.drop_left]

theorem tail_drop (args : List Word) : args.tail = args.drop 1 := List.drop_one.symm

theorem integerArg_read (a : Item) (args : List Word) :
    integerArg a.length.qualifier a.letter.signed args = ((a.read args).num, args.drop a.length.count) := by
  obtain ⟨length, c, v⟩ := a
  have long (v : BitVec 64) : (if c.signed then v.signExtend 64 else v.setWidth 64) = v := by
    rw [BitVec.signExtend_eq, BitVec.setWidth_eq, ite_self]
  have two : args.tail.tail = args.drop 2 := by rw [tail_drop, tail_drop, List.drop_drop]
  cases length with
  | ll => exact Prod.ext (long _).symm two
  | L => exact Prod.ext (long _).symm two
  | h => exact Prod.ext rfl (tail_drop args)
  | none => exact Prod.ext rfl (tail_drop args)
  | l => exact Prod.ext rfl (tail_drop args)
  | z => exact Prod.ext rfl (tail_drop args)
  | Z => exact Prod.ext rfl (tail_drop args)

theorem divLoop_eq (large : Bool) {b : Nat} (many : 1 < b) (fuel : Nat) {n : Nat}
    (fits : n < b ^ fuel) : divLoop large b fuel n = (Nat.digits b n).map (digitChar large) := by
  induction fuel generalizing n with
  | zero =>
    have zero : n = 0 := by simpa using fits
    simp [divLoop, zero]
  | succ fuel ih =>
    rw [divLoop]
    split
    · rename_i zero
      simp [zero]
    · rename_i positive
      have less : n / b < b ^ fuel := by
        rw [Nat.div_lt_iff_lt_mul (by omega), ← Nat.pow_succ]
        exact fits
      rw [ih less, Nat.digits_eq_cons_digits_div many positive, List.map_cons]

theorem digits_number (large : Bool) (base : Base) (num : BitVec 64) :
    (if num = 0 then [ch '0'] else divLoop large base.val 66 num.toNat).reverse =
      digitsText large base.val num.toNat := by
  have many : 1 < base.val := base.known.1
  unfold digitsText numeral
  by_cases zero : num = 0
  · rw [if_pos zero, if_pos (by rw [zero]; rfl)]
    cases large <;> rfl
  · have positive : num.toNat ≠ 0 := fun h => zero (BitVec.eq_of_toNat_eq h)
    have fits : num.toNat < base.val ^ 66 :=
      calc num.toNat < 2 ^ 64 := num.isLt
        _ ≤ 2 ^ 66 := by decide
        _ ≤ base.val ^ 66 := Nat.pow_le_pow_left many 66
    rw [if_neg zero, if_neg positive, divLoop_eq large many 66 fits, List.map_reverse]

/-- A counter that is not above zero, and not near the least int. -/
def Spent (n : Word) (steps : Nat) : Prop := n.toInt ≤ 0 ∧ -2 ^ 31 + (steps : Int) ≤ n.toInt

theorem Spent.rounds {n : Word} {steps : Nat} (spent : Spent n steps) : rounds 0 n = 0 := by
  have zero : (0 : Word).toInt = 0 := rfl
  have low := spent.1
  rw [Stdio.rounds, zero]
  omega

theorem Spent.sub {n k : Word} {steps : Nat} (spent : Spent n (steps + k.toNat)) (small : k.toNat < 2 ^ 31) :
    Spent (n - k) steps := by
  obtain ⟨low, high⟩ := spent
  have value : k.toInt = k.toNat := BitVec.toInt_eq_toNat_of_lt (by omega)
  have less : (n - k).toInt = n.toInt - k.toNat := by
    rw [BitVec.toInt_sub, value]
    exact Int.bmod_eq_of_le (by omega) (by omega)
  unfold Spent
  omega

theorem Spent.ranOut {n : Word} {steps : Nat} (spent : Spent n (steps + 1)) : Spent (ranOut 0 n) steps := by
  have zero : (0 : Word).toInt = 0 := rfl
  have stays : (0 : Word).slt n = false := by
    rw [BitVec.slt_eq_decide, zero, decide_eq_false_iff_not]
    exact not_lt.mpr spent.1
  rw [Stdio.ranOut, stays]
  exact spent.sub (k := 1) (by decide)

theorem signOf_plain (num : BitVec 64) (c : Letter) : signOf num (-1) c.flags =
    if c.signed ∧ num.slt 0 then ([ch '-'], -num, -2) else ([], num, -1) := by
  unfold signOf Letter.flags noFlags
  cases c.signed <;> cases num.slt 0 <;> rfl

theorem layout_plain (sign : List Byte) {tmp : List Byte} (base : Base) {size : Word} (spent : Spent size 99)
    (c : Letter) (short : tmp.length ≤ 66) : layout sign tmp base size (-1) c.flags = sign ++ tmp.reverse := by
  have length : (BitVec.ofNat 32 tmp.length).toNat = tmp.length := by
    rw [BitVec.toNat_ofNat]
    omega
  have value : (BitVec.ofNat 32 tmp.length).toInt = tmp.length := by
    rw [BitVec.toInt_eq_toNat_of_lt (by omega), length]
  have longer : (-1 : Word).slt (BitVec.ofNat 32 tmp.length) = true := by
    rw [BitVec.slt_iff_toInt_lt, value]
    exact lt_of_lt_of_le (by decide) (Int.natCast_nonneg _)
  have enough : 2 + (BitVec.ofNat 32 tmp.length).toNat ≤ 99 := by omega
  have first : Spent (size - BitVec.ofNat 32 tmp.length) 2 := by
    refine Spent.sub ⟨spent.1, ?_⟩ (by omega)
    have high := spent.2
    omega
  have second : Spent (ranOut 0 (size - BitVec.ofNat 32 tmp.length)) 1 := first.ranOut
  have third : Spent (ranOut 0 (ranOut 0 (size - BitVec.ofNat 32 tmp.length))) 0 := second.ranOut
  have none (n : Word) : rounds n n = 0 := by
    rw [rounds, Int.sub_self]
    rfl
  have blank (c : Char) : fill 0 c = [] := rfl
  simp only [layout, Letter.flags, noFlags, Bool.false_and, Bool.or_self, Bool.not_false, Bool.false_eq_true, if_true,
    if_false, longer, first.rounds, second.rounds, third.rounds, none, blank, List.nil_append, List.append_nil]

theorem divLoop_length (large : Bool) (b fuel n : Nat) : (divLoop large b fuel n).length ≤ fuel := by
  induction fuel generalizing n with
  | zero => exact le_rfl
  | succ fuel ih =>
    rw [divLoop]
    split
    · exact Nat.zero_le _
    · exact Nat.succ_le_succ (ih _)

theorem number_plain (num : BitVec 64) (base : Base) (c : Letter) :
    number num base (-1) (-1) c.flags =
      if c.signed ∧ num.slt 0 then ch '-' :: digitsText (c = .X) base.val (-num).toNat
      else digitsText (c = .X) base.val num.toNat := by
  have digits := digits_number (c = .X) base
  have short (num : BitVec 64) :
      (if num = 0 then [ch '0'] else divLoop (c = .X) base.val 66 num.toNat).length ≤ 66 := by
    split
    · decide
    · exact divLoop_length _ _ _ _
  have plain : c.flags.special = false := rfl
  have large : c.flags.large = decide (c = .X) := rfl
  have two : Spent (-2) 99 := by
    unfold Spent
    decide
  have one : Spent (-1) 99 := by
    unfold Spent
    decide
  unfold number
  rw [signOf_plain]
  by_cases negative : c.signed = true ∧ num.slt 0 = true
  · simp only [if_pos negative, plain, large, Bool.false_eq_true, if_false]
    rw [layout_plain _ base two c (short _), digits (-num)]
    rfl
  · simp only [if_neg negative, plain, large, Bool.false_eq_true, if_false]
    rw [layout_plain _ base one c (short _), digits num]
    rfl

theorem formatLoop_item (mem : Bytes) (buf stop : Word) (fuel : Nat) (a : Item) (rest : List Byte)
    (args : List Word) (o : Out) :
    formatLoop mem buf stop (fuel + 1) (a.text ++ rest) args o =
      formatLoop mem buf stop fuel rest (args.drop a.length.count) (o.puts stop (a.read args).printed) := by
  have letter : a.letter.char ≠ 0 := by
    cases a.letter <;> decide
  have text : a.text ++ rest = ch '%' :: (a.length.text ++ [a.letter.char] ++ rest) := rfl
  rw [formatLoop, text, List.headD_cons, if_neg (by decide), if_neg (by decide), List.tail_cons,
    specOf_text]
  simp only [List.headD_cons, List.tail_cons, if_neg letter, convert_letter, integerArg_read,
    number_plain]
  rfl

theorem formatLoop_space (mem : Bytes) (buf stop : Word) (fuel : Nat) (rest : List Byte)
    (args : List Word) (o : Out) : formatLoop mem buf stop (fuel + 1) (ch ' ' :: rest) args o =
      formatLoop mem buf stop fuel rest args (o.put stop (ch ' ')) := by
  rw [formatLoop, List.headD_cons, if_neg (by decide), if_pos (by decide), List.tail_cons]

/-- What printf sends. -/
def printedText (items : List Item) : List Byte := [ch ' '].intercalate (items.map Item.printed)

theorem format_cons_cons (a b : Item) (rest : List Item) :
    format (a :: b :: rest) = a.text ++ ch ' ' :: format (b :: rest) := by
  simp [format]

theorem printedText_cons_cons (a b : Item) (rest : List Item) :
    printedText (a :: b :: rest) = a.printed ++ ch ' ' :: printedText (b :: rest) := by
  simp [printedText]

theorem formatLoop_nil (mem : Bytes) (buf stop : Word) (fuel : Nat) (args : List Word) (o : Out) :
    formatLoop mem buf stop fuel [] args o = o := by
  cases fuel <;> rfl

/-- The formatter prints what it reads. -/
theorem formatLoop_items (mem : Bytes) (buf stop : Word) (items : List Item) (args : List Word) {fuel : Nat}
    (enough : 2 * items.length ≤ fuel) (o : Out) :
    formatLoop mem buf stop fuel (format items) args o = o.puts stop (printedText (received items args)) := by
  induction items generalizing fuel args o with
  | nil => exact formatLoop_nil mem buf stop fuel args o
  | cons a rest ih =>
    simp only [List.length_cons] at enough
    obtain ⟨fuel, rfl⟩ : ∃ more, fuel = more + 1 + 1 := ⟨fuel - 2, by omega⟩
    cases rest with
    | nil =>
      have single : format [a] = a.text ++ [] := by simp [format]
      rw [single, formatLoop_item, formatLoop_nil]
      simp [received, printedText]
    | cons b rest =>
      have shown : printedText (received (a :: b :: rest) args) = (a.read args).printed ++
          ch ' ' :: printedText (received (b :: rest) (args.drop a.length.count)) :=
        printedText_cons_cons _ _ _
      rw [format_cons_cons, formatLoop_item, formatLoop_space, ih _ (by omega), shown, puts_append]
      rfl

theorem two_le_text (a : Item) : 2 ≤ a.text.length := by
  simp [Item.text]

theorem length_format (items : List Item) : 2 * items.length ≤ (format items).length := by
  induction items with
  | nil => exact Nat.zero_le _
  | cons a rest ih =>
    have two := two_le_text a
    cases rest with
    | nil =>
      simp [format]
      omega
    | cons b rest =>
      rw [format_cons_cons]
      simp only [List.length_append, List.length_cons] at ih ⊢
      omega

/-! Text in memory. -/

/-- The memory with a text written from its start. -/
def written (before : Nat → Byte) (text : List Byte) : Nat → Byte :=
  fun i => if h : i < text.length then text[i] else before i

theorem written_nil (before : Nat → Byte) : written before [] = before := by
  funext i
  simp [written]

theorem written_snoc (before : Nat → Byte) (text : List Byte) (c : Byte) :
    Function.update (written before text) text.length c = written before (text ++ [c]) := by
  funext i
  unfold written
  rcases Nat.lt_trichotomy i text.length with less | rfl | more
  · rw [Function.update_of_ne (by omega), dif_pos less, dif_pos (by simp; omega)]
    exact (List.getElem_append_left less).symm
  · rw [Function.update_self, dif_pos (by simp)]
    exact (List.getElem_concat_length rfl _).symm
  · rw [Function.update_of_ne (by omega), dif_neg (by omega), dif_neg (by simp; omega)]

/-- The string ends at the first zero, whatever is behind it. -/
theorem stringAt_written (before : Nat → Byte) {text rest : List Byte} (plain : (0 : Byte) ∉ text)
    (short : text.length < 2 ^ 32) : stringAt (written before (text ++ 0 :: rest)) = text := by
  refine stringAt_eq plain short fun i low => ?_
  rw [written, dif_pos (by simp; omega)]
  rcases Nat.lt_or_eq_of_le low with inside | rfl
  · rw [List.getElem_append_left inside, List.getD_eq_getElem _ _ inside]
  · rw [List.getD_eq_default _ _ le_rfl]
    simp

/-! Digits as characters. -/

/-- What the scanner finds out about a digit of value d. -/
structure Digit (c : Byte) (d : Nat) : Prop where
  hex : isxdigit c = true
  value : digitValue c = d
  valueLong : digitValueLong c = d
  solid : isspace c = false
  text : c ∉ [0, 0x0d, 0x0a, ch '-']
  mark : toupper c ≠ ch 'X'
  zero : c = ch '0' → d = 0
  ten : d < 10 → isdigit c = true
  eight : d < 8 → c ≤ ch '7'

theorem digit_char (large : Bool) {d : Nat} (small : d < 16) : Digit (digitChar large d) d := by
  have all : ∀ large : Bool, ∀ d < 16, isxdigit (digitChar large d) = true ∧
      digitValue (digitChar large d) = d ∧ digitValueLong (digitChar large d) = d ∧
      isspace (digitChar large d) = false ∧ digitChar large d ∉ [0, 0x0d, 0x0a, ch '-'] ∧
      toupper (digitChar large d) ≠ ch 'X' ∧ (digitChar large d = ch '0' → d = 0) ∧
      (d < 10 → isdigit (digitChar large d) = true) ∧ (d < 8 → digitChar large d ≤ ch '7') := by
    decide +kernel
  obtain ⟨hex, value, valueLong, solid, text, mark, zero, ten, eight⟩ := all large d small
  exact ⟨hex, value, valueLong, solid, text, mark, zero, ten, eight⟩

theorem base_le (c : Letter) : 2 ≤ c.base.val ∧ c.base.val ≤ 16 := by
  cases c <;> decide

theorem digitsText_digit {large : Bool} {b n : Nat} (base : 2 ≤ b ∧ b ≤ 16) {c : Byte}
    (mem : c ∈ digitsText large b n) : ∃ d < b, Digit c d := by
  obtain ⟨d, inside, rfl⟩ := List.mem_map.mp mem
  have below := lt_of_mem_numeral base.1 inside
  exact ⟨d, below, digit_char large (by omega)⟩

/-- No character of the text ends the input. -/
def Typable (c : Byte) : Prop := c ∉ [0, 0x0d, 0x0a]

theorem Typable.line {c : Byte} (typable : Typable c) : c ≠ 0x0d ∧ c ≠ 0x0a := by
  simp only [Typable, List.mem_cons, List.not_mem_nil, or_false, not_or] at typable
  exact typable.2

theorem printed_typable (a : Item) {c : Byte} (mem : c ∈ a.printed) : Typable c := by
  have digit : ∀ n, c ∈ digitsText (a.letter = .X) a.letter.base.val n → Typable c := by
    intro n mem
    obtain ⟨d, -, facts⟩ := digitsText_digit (base_le a.letter) mem
    exact fun bad => facts.text (by simp at bad ⊢; tauto)
  unfold Item.printed at mem
  split at mem
  · rcases List.mem_cons.mp mem with rfl | mem
    · unfold Typable
      decide
    · exact digit _ mem
  · exact digit _ mem

theorem printedText_typable (items : List Item) {c : Byte} (mem : c ∈ printedText items) :
    Typable c := by
  induction items with
  | nil => cases mem
  | cons a rest ih =>
    cases rest with
    | nil => exact printed_typable a (by simpa [printedText] using mem)
    | cons b rest =>
      rw [printedText_cons_cons, List.mem_append, List.mem_cons] at mem
      rcases mem with mem | rfl | mem
      · exact printed_typable a mem
      · unfold Typable
        decide
      · exact ih mem

theorem printedText_plain (items : List Item) : (0 : Byte) ∉ printedText items := by
  intro mem
  exact printedText_typable items mem (by decide)

/-! printf -/

theorem format_received (items : List Item) (args : List Word) : format (received items args) = format items := by
  have texts : (received items args).map Item.text = items.map Item.text := by
    induction items generalizing args with
    | nil => rfl
    | cons a rest ih => exact congrArg (a.text :: ·) (ih _)
  rw [format, texts, format]

theorem length_received (items : List Item) (args : List Word) : (received items args).length = items.length := by
  induction items generalizing args with
  | nil => rfl
  | cons a rest ih => exact congrArg (· + 1) (ih _)

theorem formatted_items (mem : Bytes) (items : List Item) (args : List Word) :
    formatted mem (format items) args = printedText (received items args) := by
  rw [formatted, formatLoop_items mem 0 0 items args (length_format items)]
  exact (puts_text 0 _ _).trans (List.nil_append _)

/-- The largest int leaves the buffer whole, and the place behind it too. -/
theorem place_below (place : Place) {i : Nat} (within : i ≤ OUTBUFSIZE) :
    place.addr + BitVec.ofNat 32 i ≤ (limit place.addr 0x7fffffff).1 := by
  have fits := place.fits
  have size : (0x7fffffff : Word).toNat = 0x7fffffff := rfl
  have one : (1 : Word).toNat = 1 := rfl
  have last : (-1 : Word).toNat = 0xffffffff := rfl
  unfold OUTBUFSIZE at *
  unfold limit
  rw [BitVec.le_def, BitVec.toNat_add, BitVec.toNat_ofNat]
  split
  · change (place.addr.toNat + i % 2 ^ 32) % 2 ^ 32 ≤ (-1 : Word).toNat
    rw [last]
    omega
  · rename_i stays
    rw [BitVec.lt_def, BitVec.toNat_sub, BitVec.toNat_sub, BitVec.toNat_add, size, one] at stays
    change (place.addr.toNat + i % 2 ^ 32) % 2 ^ 32 ≤ (place.addr + 0x7fffffff - 1).toNat
    rw [BitVec.toNat_sub, BitVec.toNat_add, size, one]
    omega

/-- A text with its terminator, within the buffer. -/
theorem printf_short (mem : Bytes) (place : Place) (fmt : List Byte) (args : List Word) (before : Bytes)
    (short : (formatted mem fmt args).length < OUTBUFSIZE) :
    printf mem place fmt args before =
      ⟨(formatted mem fmt args).length, Text.string 0 (formatted mem fmt args),
        Memory.overlay before place.addr ((formatted mem fmt args).length + 1) ((formatted mem fmt args).getD · 0)⟩ := by
  have positive : (0x7fffffff : Word).slt 0 = false := rfl
  have fits := place.fits
  have size : OUTBUFSIZE = 1024 := rfl
  have room : place.addr.toNat + (formatted mem fmt args).length ≤ (limit place.addr 0x7fffffff).1.toNat := by
    have below := place_below place (Nat.le_of_lt short)
    rw [BitVec.le_def, BitVec.toNat_add, BitVec.toNat_ofNat] at below
    omega
  have memory := @vsnprintf_whole mem place.addr _ fmt args positive (by omega)
    room before
  have result := @vsnprintf_result mem place.addr _ fmt args positive before
  have value : (BitVec.ofNat 32 (formatted mem fmt args).length).toInt = (formatted mem fmt args).length := by
    rw [BitVec.toInt_eq_toNat_of_lt] <;> rw [BitVec.toNat_ofNat] <;> omega
  simp only [printf, vsprintf, memory, result, value]
  rw [stringAt_overlay before place.addr (by omega)]

end Tiny6410.Stdio
