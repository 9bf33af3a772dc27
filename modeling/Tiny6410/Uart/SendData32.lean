import Tiny6410.Lib.Loop
import Tiny6410.Lib.Text
import Tiny6410.Stdio.RoundTrip

/-! UART0_SendData32 of the uart.c of each program: a word as a hexadecimal text. The
digits go into hex_string from its end, one for each round of the loop. -/
namespace Tiny6410.Uart

open Memory (Byte Word)
open Numeral
open Stdio (ch chs toupper digitChar digitsText simple_strtoul)

def MAX_STRING_LENGTH : Nat := 250

/-- The characters that UART0_SendString sends of an array. -/
def UART0_SendString (string : List Byte) : List Byte := (Text.string 0 string).take MAX_STRING_LENGTH

/-- The locals of the function, and the places of hex_string it has used. -/
structure Locals where
  hex_string : List Byte
  index : Byte
  data : Word
  used : List Int

def hexDigit (c : Byte) : Byte :=
  if c ≤ 9 then ch '0' + c else if c ≤ 15 then ch 'A' + c - 10 else ch 'X'

/-- A store through an index. One that is not in the array does not change it. -/
def setAt (array : List Byte) (i : Int) (c : Byte) : List Byte := if 0 ≤ i then array.set i.toNat c else array

def digitRound (s : Locals) : Locals :=
  let c := (s.data &&& 0x0000000f).setWidth 8
  let i : Int := s.index.toNat - 1
  ⟨setAt s.hex_string i (hexDigit c), s.index - 1, s.data >>> 4, s.used ++ [i]⟩

/-- What has been sent, and the places of hex_string that were used for it. -/
structure Sent where
  text : List Byte
  used : List Int
  deriving DecidableEq

/-- The function with or without its test for an index of 8. -/
def sendData32 (testsIndex : Bool) (data : Word) : Option Sent :=
  (Loop.whileLoop (fun s : Locals => s.data ≠ 0) digitRound 9 ⟨chs "00000000" ++ [0], 8, data, []⟩).map fun s =>
    let sent := UART0_SendString (chs "0x")
    if testsIndex ∧ s.index = 8 then ⟨sent ++ UART0_SendString (chs "0"), s.used⟩
    else
      let text := UART0_SendString (s.hex_string.drop s.index.toNat)
      ⟨sent ++ text, s.used ++ (List.range (text.length + 1)).map fun i : Nat => (s.index.toNat : Int) + i⟩

/-- The programs that have a copy of it. -/
inductive Copy where
  | nand | stdio | sdram | timer | irq_advanced
  deriving DecidableEq

def Copy.testsIndex : Copy → Bool
  | nand | stdio => true
  | sdram | timer | irq_advanced => false

def UART0_SendData32 (copy : Copy) (data : Word) : Option Sent := sendData32 copy.testsIndex data

/-- The canonical text of a word. -/
def hexText (data : Word) : List Byte := chs "0x" ++ digitsText true 16 data.toNat

/-- The canonical text is sent, from within hex_string, and reads back as the word. -/
def Sends (sent : Option Sent) (data : Word) : Prop :=
  ∃ s, sent = some s ∧ s.text = hexText data ∧ (∀ i ∈ s.used, 0 ≤ i ∧ i ≤ 8) ∧
    simple_strtoul s.text 16 = (data, [])

theorem hexDigit_eq {d : Nat} (small : d < 16) : hexDigit (BitVec.ofNat 8 d) = digitChar true d := by
  have all : ∀ d < 16, hexDigit (BitVec.ofNat 8 d) = digitChar true d := by decide +kernel
  exact all d small

theorem low_digit (data : Word) : (data &&& 0x0000000f).setWidth 8 = BitVec.ofNat 8 (data.toNat % 16) := by
  apply BitVec.eq_of_toNat_eq
  have mask : (0x0000000f : Word).toNat = 2 ^ 4 - 1 := rfl
  rw [BitVec.toNat_setWidth, BitVec.toNat_and, mask, Nat.and_two_pow_sub_one_eq_mod, BitVec.toNat_ofNat]

theorem setAt_end (front rest : List Byte) (old c : Byte) :
    setAt (front ++ old :: rest) front.length c = front ++ c :: rest := by
  rw [setAt, if_pos (Int.natCast_nonneg _), Int.toNat_natCast]
  simp

/-- What the loop leaves if there is room for the digits in front of the rest. -/
structure Digits (ds : List Nat) (front rest : List Byte) (s t : Locals) : Prop where
  done : t.data = 0
  index : t.index.toNat + ds.length = s.index.toNat
  array : t.hex_string = front.take t.index.toNat ++ (ds.reverse.map (digitChar true) ++ rest)
  used : ∀ i ∈ t.used, i ∈ s.used ∨ 0 ≤ i ∧ i < s.index.toNat

theorem digit_round {front rest : List Byte} {old : Byte} {s : Locals}
    (array : s.hex_string = front ++ old :: rest) (here : s.index.toNat = front.length + 1) :
    digitRound s =
      ⟨front ++ digitChar true (s.data.toNat % 16) :: rest, s.index - 1, s.data >>> 4, s.used ++ [(front.length : Int)]⟩ := by
  have place : (s.index.toNat : Int) - 1 = front.length := by omega
  unfold digitRound
  simp only [place, array, setAt_end, low_digit, hexDigit_eq (Nat.mod_lt _ (by decide : 0 < 16))]

/-- A round and the rounds after it. -/
theorem Digits.cons {d : Nat} {ds : List Nat} {front rest : List Byte} {old : Byte} {s next t : Locals}
    (here : s.index.toNat = front.length + 1) (moved : next.index.toNat = front.length)
    (used : next.used = s.used ++ [(front.length : Int)])
    (wrote : Digits ds front (digitChar true d :: rest) next t) :
    Digits (d :: ds) (front ++ [old]) rest s t := by
  have index := wrote.index
  constructor
  case done => exact wrote.done
  case index =>
    rw [List.length_cons, here]
    omega
  case array =>
    have short : t.index.toNat ≤ front.length := by omega
    rw [wrote.array, List.take_append_of_le_length short]
    simp
  case used =>
    intro i mem
    have later := wrote.used i mem
    rw [used, List.mem_append, List.mem_singleton] at later
    rcases later with (before | place) | new
    · exact .inl before
    · right
      omega
    · right
      omega

theorem digitLoop_writes {fuel : Nat} {s : Locals} {front rest : List Byte}
    (enough : (Nat.digits 16 s.data.toNat).length < fuel)
    (room : (Nat.digits 16 s.data.toNat).length ≤ front.length)
    (array : s.hex_string = front ++ rest) (here : s.index.toNat = front.length) :
    ∃ t, Loop.whileLoop (fun s : Locals => s.data ≠ 0) digitRound fuel s = some t ∧
      Digits (Nat.digits 16 s.data.toNat) front rest s t := by
  induction fuel generalizing s front rest with
  | zero => omega
  | succ fuel ih =>
    by_cases done : s.data = 0
    · refine ⟨s, by simp [Loop.whileLoop, done], ?_⟩
      have none : Nat.digits 16 s.data.toNat = [] := by simp [done]
      rw [none]
      exact ⟨done, rfl, by simp [array, here], fun i mem => .inl mem⟩
    · have positive : s.data.toNat ≠ 0 := fun zero => done (BitVec.eq_of_toNat_eq zero)
      have digits : Nat.digits 16 s.data.toNat = s.data.toNat % 16 :: Nat.digits 16 (s.data.toNat / 16) :=
        Nat.digits_eq_cons_digits_div (by decide) positive
      rw [digits, List.length_cons] at enough room
      obtain ⟨front, old, rfl⟩ : ∃ init last, front = init ++ [last] :=
        ⟨front.dropLast, front.getLast (List.ne_nil_of_length_pos (by omega)), (List.dropLast_append_getLast _).symm⟩
      rw [List.append_assoc, List.singleton_append] at array
      rw [List.length_append, List.length_singleton] at here room
      have round := digit_round array here
      have shifted : (digitRound s).data.toNat = s.data.toNat / 16 := by
        rw [round, BitVec.toNat_ushiftRight, Nat.shiftRight_eq_div_pow]
      have stored : (digitRound s).hex_string = front ++ digitChar true (s.data.toNat % 16) :: rest := by rw [round]
      have moved : (digitRound s).index.toNat = front.length := by
        have one : (1 : Byte) ≤ s.index := by
          rw [BitVec.le_def, here]
          exact Nat.le_add_left 1 _
        rw [round, BitVec.toNat_sub_of_le one, here]
        rfl
      have used : (digitRound s).used = s.used ++ [(front.length : Int)] := by rw [round]
      obtain ⟨t, ends, wrote⟩ := ih (by rw [shifted]; omega) (by rw [shifted]; omega) stored moved
      rw [shifted] at wrote
      rw [digits, Loop.whileLoop, if_pos (by simpa using done)]
      exact ⟨t, ends, wrote.cons here moved used⟩

theorem length_digits (data : Word) : (Nat.digits 16 data.toNat).length ≤ 8 := by
  rw [Nat.digits_length_le_iff (by decide)]
  exact data.isLt

/-- The loop ends, with the digits in front of the terminator. -/
theorem hex_digits (data : Word) :
    ∃ t, Loop.whileLoop (fun s : Locals => s.data ≠ 0) digitRound 9 ⟨chs "00000000" ++ [0], 8, data, []⟩ = some t ∧
      t.index.toNat + (Nat.digits 16 data.toNat).length = 8 ∧
      t.hex_string.drop t.index.toNat = (Nat.digits 16 data.toNat).reverse.map (digitChar true) ++ [0] ∧
      ∀ i ∈ t.used, 0 ≤ i ∧ i < 8 := by
  have short := length_digits data
  have zeros : (⟨chs "00000000" ++ [0], 8, data, []⟩ : Locals).hex_string = chs "00000000" ++ [0] := rfl
  have rounds : (Nat.digits 16 data.toNat).length < 9 := Nat.lt_succ_of_le short
  obtain ⟨t, ends, wrote⟩ := digitLoop_writes rounds short zeros rfl
  have index : t.index.toNat + (Nat.digits 16 data.toNat).length = 8 := wrote.index
  refine ⟨t, ends, index, ?_, ?_⟩
  · have front : ((chs "00000000").take t.index.toNat).length = t.index.toNat := by
      have eight : (chs "00000000").length = 8 := rfl
      rw [List.length_take, eight]
      omega
    rw [wrote.array]
    nth_rewrite 1 [← front]
    rw [List.drop_left]
  · intro i mem
    rcases wrote.used i mem with none | new
    · cases none
    · exact new

theorem digitsText_plain (data : Word) : (0 : Byte) ∉ digitsText true 16 data.toNat := by
  intro mem
  obtain ⟨d, -, facts⟩ := Stdio.digitsText_digit (by decide) mem
  exact facts.text (by simp)

theorem sendString_digits {ds : List Byte} (plain : (0 : Byte) ∉ ds) (short : ds.length ≤ 8) :
    UART0_SendString (ds ++ [0]) = ds := by
  rw [UART0_SendString, Text.string_terminated plain]
  exact List.take_of_length_le (Nat.le_trans short (by decide))

theorem sent_prefix : UART0_SendString (chs "0x") = chs "0x" := by decide

theorem hexText_reads (data : Word) : simple_strtoul (hexText data) 16 = (data, []) := by
  have ends : Stdio.Ends [] := ⟨by decide, by decide⟩
  have reads : ∀ {c d}, Stdio.Digit c d → Stdio.digitValue c = d := fun facts => facts.value
  have digits := Stdio.digitLoop_text (w := 32) reads ends true (b := 16) (n := data.toNat) (by decide)
  have base : Stdio.baseOf (hexText data) 16 = (16, digitsText true 16 data.toNat) := by
    have text : hexText data = ch '0' :: ch 'x' :: digitsText true 16 data.toNat := rfl
    have marked : toupper (ch 'x') = ch 'X' := by decide
    rw [text, Stdio.baseOf, if_neg (by decide), if_pos rfl]
    exact if_pos ⟨rfl, marked⟩
  rw [List.append_nil, BitVec.ofNat_toNat, BitVec.setWidth_eq] at digits
  rw [simple_strtoul, Stdio.strtou, base]
  exact digits

theorem positive_digits {data : Word} (positive : data ≠ 0) :
    digitsText true 16 data.toNat = (Nat.digits 16 data.toNat).reverse.map (digitChar true) := by
  have some : data.toNat ≠ 0 := fun zero => positive (BitVec.eq_of_toNat_eq zero)
  rw [digitsText, numeral, if_neg some]

theorem sends_positive (testsIndex : Bool) {data : Word} (positive : data ≠ 0) :
    Sends (sendData32 testsIndex data) data := by
  obtain ⟨t, ends, index, array, used⟩ := hex_digits data
  have some : data.toNat ≠ 0 := fun zero => positive (BitVec.eq_of_toNat_eq zero)
  have digit : 0 < (Nat.digits 16 data.toNat).length :=
    List.length_pos_iff.mpr (Nat.digits_ne_nil_iff_ne_zero.mpr some)
  have moved : ¬ (testsIndex = true ∧ t.index = 8) := by
    rintro ⟨-, here⟩
    rw [here] at index
    have eight : (8 : Byte).toNat = 8 := rfl
    omega
  have length : (digitsText true 16 data.toNat).length = (Nat.digits 16 data.toNat).length := by
    rw [positive_digits positive, List.length_map, List.length_reverse]
  have text : UART0_SendString (t.hex_string.drop t.index.toNat) = digitsText true 16 data.toNat := by
    rw [array, ← positive_digits positive]
    exact sendString_digits (digitsText_plain data) (by rw [length]; exact length_digits data)
  have sent : sendData32 testsIndex data = Option.some ⟨hexText data, t.used ++
      (List.range ((digitsText true 16 data.toNat).length + 1)).map fun i : Nat => (t.index.toNat : Int) + i⟩ := by
    unfold sendData32
    rw [ends, Option.map_some]
    simp only [if_neg moved, text, sent_prefix]
    rfl
  refine ⟨_, sent, rfl, ?_, hexText_reads data⟩
  intro i mem
  rcases List.mem_append.mp mem with stored | read
  · have within := used i stored
    omega
  · obtain ⟨k, below, rfl⟩ := List.mem_map.mp read
    have within := List.mem_range.mp below
    omega

theorem sends_zero_iff (testsIndex : Bool) : Sends (sendData32 testsIndex 0) 0 ↔ testsIndex = true := by
  cases testsIndex with
  | true =>
    refine iff_of_true ⟨⟨chs "0x" ++ chs "0", []⟩, by decide, by decide, by decide, hexText_reads 0⟩ rfl
  | false =>
    refine iff_of_false ?_ (by decide)
    rintro ⟨s, sent, text, -⟩
    have bare : sendData32 false 0 = Option.some ⟨chs "0x", [8]⟩ := by decide
    rw [bare] at sent
    cases sent
    exact absurd text (by decide)

theorem sends_iff (copy : Copy) (data : Word) :
    Sends (UART0_SendData32 copy data) data ↔ copy.testsIndex = true ∨ data ≠ 0 := by
  by_cases zero : data = 0
  · subst zero
    rw [UART0_SendData32, sends_zero_iff]
    exact (or_iff_left fun positive => positive rfl).symm
  · exact iff_of_true (sends_positive _ zero) (.inr zero)

theorem Sends.same {a b : Option Sent} {data : Word} (first : Sends a data) (second : Sends b data) :
    a.map Sent.text = b.map Sent.text := by
  obtain ⟨s, rfl, text, -⟩ := first
  obtain ⟨t, rfl, text', -⟩ := second
  rw [Option.map_some, Option.map_some, text, text']

/-- Every copy sends the canonical text, and all of them the same, exactly for the words
other than zero. The copies for nand and stdio do so for all words. -/
theorem send_data32_iff (data : Word) :
    (((∀ copy, Sends (UART0_SendData32 copy data) data) ∧
        ∀ a b, (UART0_SendData32 a data).map Sent.text = (UART0_SendData32 b data).map Sent.text) ↔
      data ≠ 0) ∧
    ∀ copy, Sends (UART0_SendData32 copy data) data ↔ copy.testsIndex = true ∨ data ≠ 0 := by
  refine ⟨⟨?_, ?_⟩, fun copy => sends_iff copy data⟩
  · rintro ⟨each, -⟩
    exact ((sends_iff .timer data).mp (each .timer)).resolve_left (by decide)
  · intro positive
    have each := fun copy => (sends_iff copy data).mpr (.inr positive)
    exact ⟨each, fun a b => (each a).same (each b)⟩

/-- For zero the copy for timer sends no digit, and the one for nand does. -/
theorem zero_without_digit :
    (UART0_SendData32 .timer 0).map Sent.text = Option.some (chs "0x") ∧
    (UART0_SendData32 .nand 0).map Sent.text = Option.some (chs "0x0") ∧
    ¬ Sends (UART0_SendData32 .timer 0) 0 := by
  refine ⟨by decide, by decide, fun sends => ?_⟩
  have tested := (sends_zero_iff false).mp sends
  cases tested

end Tiny6410.Uart
