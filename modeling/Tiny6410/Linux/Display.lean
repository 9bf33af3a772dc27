import Mathlib
import Tiny6410.Stdio.Ctype

/-! The display option in mach-mini6410.c: mini6410_features_setup for each mini6410= of the
kernel command line and mini6410_parse_features on the text that they leave. -/
namespace Tiny6410.Display

open Memory (Byte Word)
open Stdio (ch chs)

structure Mode where
  xres : Nat
  yres : Nat
  deriving DecidableEq

def mini6410_fb_win : List Mode := [⟨480, 272⟩, ⟨800, 480⟩]

/-- Its 12 bytes as they are at the start. -/
def mini6410_features_str : List Byte := ch '0' :: List.replicate 11 0

/-- strlcpy of lib/string.c. The source is given up to its terminator. -/
def strlcpy (dest src : List Byte) (size : Nat) : List Byte :=
  if size = 0 then dest
  else
    let len := if size ≤ src.length then size - 1 else src.length
    src.take len ++ 0 :: dest.drop (len + 1)

def mini6410_features_setup (features_str : List Byte) (str : Option (List Byte)) : List Byte :=
  match str with
  | none => features_str
  | some str => strlcpy features_str str 12

def FEATURE_SCREEN : Word := 1

/-! What is printed about a digit. -/

def ignored (f : Byte) : List Byte := chs "MINI6410: '" ++ f :: chs "' ignored, screen type already set\n"

def outOfRange (f : Byte) : List Byte := chs "MINI6410: '" ++ f :: chs "' out of range LCD mode\n"

/-- With what has been printed so far. -/
structure mini6410_features_t where
  done : Word
  lcd_index : Nat
  notices : List (List Byte)

/-- The case '0'...'9'. -/
def isScreen (f : Byte) : Bool := ch '0' ≤ f && f ≤ ch '9'

def screen (f : Byte) : Nat := f.toNat - (ch '0').toNat

def parseOne (features : mini6410_features_t) (f : Byte) : mini6410_features_t :=
  if isScreen f then
    let features :=
      if features.done &&& FEATURE_SCREEN ≠ 0 then { features with notices := features.notices ++ [ignored f] }
      else if mini6410_fb_win.length ≤ screen f then
        { features with notices := features.notices ++ [outOfRange f] }
      else { features with lcd_index := screen f }
    { features with done := features.done ||| FEATURE_SCREEN }
  else features

/-- The loop over the bytes of the array, with no result where it would leave the array. -/
def parseLoop : List Byte → mini6410_features_t → Option mini6410_features_t
  | [], _ => none
  | f :: fp, features => if f = 0 then some features else parseLoop fp (parseOne features f)

def mini6410_parse_features (features_str : List Byte) : Option mini6410_features_t :=
  parseLoop features_str ⟨0, 0, []⟩

/-- The window with this index, with what has been printed, and no result behind the table. -/
def window (features : mini6410_features_t) : Option (Mode × List (List Byte)) :=
  (mini6410_fb_win[features.lcd_index]?).map (·, features.notices)

/-- What mini6410_machine_init takes. -/
def mini6410_machine_init (features_str : List Byte) : Option (Mode × List (List Byte)) :=
  (mini6410_parse_features features_str).bind window

/-- The command line with its options in their order. -/
def boot (options : List (Option (List Byte))) : List Byte :=
  options.foldl mini6410_features_setup mini6410_features_str

/-! What it is for -/

/-- The text of the last option as far as there is room for it. -/
def lastText (options : List (Option (List Byte))) : List Byte :=
  options.reduceOption.getLast?.elim [ch '0'] (·.take 11)

/-- The first digit decides, and also one that stands for no screen is the first. -/
def selected : List Byte → Mode × List (List Byte)
  | [] => (⟨480, 272⟩, [])
  | f :: later =>
    (mini6410_fb_win.getD (screen f) ⟨480, 272⟩,
      (if screen f < mini6410_fb_win.length then [] else [outOfRange f]) ++ later.map ignored)

section

variable {text rest : List Byte}

theorem parseLoop_text (plain : 0 ∉ text) (features : mini6410_features_t) :
    parseLoop (text ++ 0 :: rest) features = some (text.foldl parseOne features) := by
  induction text generalizing features with
  | nil => rfl
  | cons f text ih =>
    rw [List.mem_cons, not_or] at plain
    rw [List.cons_append, parseLoop, if_neg (Ne.symm plain.1), ih plain.2, List.foldl_cons]

theorem parse_later (text : List Byte) (lcd_index : Nat) (notices : List (List Byte)) :
    text.foldl parseOne ⟨FEATURE_SCREEN, lcd_index, notices⟩ =
      ⟨FEATURE_SCREEN, lcd_index, notices ++ (text.filter isScreen).map ignored⟩ := by
  induction text generalizing notices with
  | nil => simp
  | cons f text ih =>
    rw [List.foldl_cons]
    cases digit : isScreen f with
    | false =>
      have skipped : parseOne ⟨FEATURE_SCREEN, lcd_index, notices⟩ f = ⟨FEATURE_SCREEN, lcd_index, notices⟩ := by
        simp [parseOne, digit]
      rw [skipped, ih, List.filter_cons_of_neg (by simp [digit])]
    | true =>
      have set : FEATURE_SCREEN &&& FEATURE_SCREEN ≠ 0 := by decide
      have ignored : parseOne ⟨FEATURE_SCREEN, lcd_index, notices⟩ f =
          ⟨FEATURE_SCREEN, lcd_index, notices ++ [ignored f]⟩ := by
        simp only [parseOne, if_pos digit, if_pos set]
        rfl
      rw [ignored, ih, List.filter_cons_of_pos digit, List.map_cons, List.append_assoc, List.singleton_append]

/-- The first digit in a text, whether it stands for a screen or not. -/
theorem parse_first (f : Byte) (digit : isScreen f = true) :
    parseOne ⟨0, 0, []⟩ f =
      if screen f < mini6410_fb_win.length then ⟨FEATURE_SCREEN, screen f, []⟩
      else ⟨FEATURE_SCREEN, 0, [outOfRange f]⟩ := by
  have unset : ¬ (0 &&& FEATURE_SCREEN ≠ 0) := by decide
  by_cases known : screen f < mini6410_fb_win.length
  · simp only [parseOne, if_pos digit, if_neg unset, if_neg (not_le.mpr known), if_pos known]
    rfl
  · simp only [parseOne, if_pos digit, if_neg unset, if_pos (not_lt.mp known), if_neg known]
    rfl

theorem parse_selects (text : List Byte) :
    window (text.foldl parseOne ⟨0, 0, []⟩) = some (selected (text.filter isScreen)) := by
  induction text with
  | nil => rfl
  | cons f text ih =>
    cases digit : isScreen f with
    | false =>
      have skipped : parseOne ⟨0, 0, []⟩ f = ⟨0, 0, []⟩ := by simp [parseOne, digit]
      rw [List.foldl_cons, skipped, ih, List.filter_cons_of_neg (by simp [digit])]
    | true =>
      rw [List.foldl_cons, parse_first f digit, List.filter_cons_of_pos digit]
      by_cases known : screen f < mini6410_fb_win.length
      · rw [if_pos known, parse_later, window, selected, if_pos known, List.getD_eq_getElem _ _ known,
          List.getElem?_eq_getElem known, Option.map_some]
      · rw [if_neg known, parse_later, window, selected, if_neg known, List.getD_eq_default _ _ (not_lt.mp known)]
        rfl

theorem strlcpy_eq (dest src : List Byte) {size : Nat} (room : 0 < size) :
    ∃ rest, strlcpy dest src size = src.take (size - 1) ++ 0 :: rest ∧
      (size ≤ dest.length → (strlcpy dest src size).length = dest.length) := by
  have whole : src.take (if size ≤ src.length then size - 1 else src.length) = src.take (size - 1) := by
    split
    · rfl
    · rw [List.take_length, List.take_of_length_le (by omega)]
  have copied : strlcpy dest src size = src.take (size - 1) ++
      0 :: dest.drop ((if size ≤ src.length then size - 1 else src.length) + 1) := by
    simp only [strlcpy, if_neg room.ne', whole]
  refine ⟨_, copied, fun fits => ?_⟩
  rw [copied]
  simp only [List.length_append, List.length_cons, List.length_take, List.length_drop]
  split <;> omega

theorem boot_text (options : List (Option (List Byte))) :
    ∃ rest, boot options = lastText options ++ 0 :: rest ∧ (boot options).length = 12 := by
  induction options using List.reverseRecOn with
  | nil => exact ⟨List.replicate 10 0, rfl, rfl⟩
  | append_singleton options str ih =>
    have step : boot (options ++ [str]) = mini6410_features_setup (boot options) str := by
      rw [boot, List.foldl_append]
      rfl
    cases str with
    | none =>
      rw [step, lastText, List.reduceOption_append]
      simpa [mini6410_features_setup, lastText] using ih
    | some str =>
      obtain ⟨-, -, before⟩ := ih
      obtain ⟨rest, copied, length⟩ := @strlcpy_eq (boot options) str 12 (by decide)
      refine ⟨rest, ?_, ?_⟩
      · rw [step, lastText, List.reduceOption_append]
        simpa [mini6410_features_setup] using copied
      · rw [step]
        exact (length (Nat.le_of_eq before.symm)).trans before

end

/-- Whatever the command line is, the array is not left and a screen of the table is chosen, by
the first digit in the first 11 bytes of the last option. -/
theorem last_option_selects (options : List (Option (List Byte)))
    (plain : ∀ str ∈ options.reduceOption, 0 ∉ str) :
    (boot options).length = 12 ∧
      mini6410_machine_init (boot options) = some (selected ((lastText options).filter isScreen)) := by
  obtain ⟨rest, left, length⟩ := boot_text options
  refine ⟨length, ?_⟩
  have nonzero : 0 ∉ lastText options := by
    unfold lastText
    cases last : options.reduceOption.getLast? with
    | none => decide
    | some str => exact fun mem => plain str (List.mem_of_getLast? last) (List.mem_of_mem_take mem)
  rw [mini6410_machine_init, left, mini6410_parse_features, parseLoop_text nonzero, Option.bind_some, parse_selects]

/-- The 7 stands for no screen, and then the 1 comes too late. -/
theorem last_option_selects_seven :
    mini6410_machine_init (boot [some (chs "1"), some (chs "71")]) =
      some (⟨480, 272⟩, [outOfRange (ch '7'), ignored (ch '1')]) :=
  (last_option_selects [some (chs "1"), some (chs "71")] (by decide)).2.trans (by decide)

end Tiny6410.Display
