import Tiny6410.Lib.Memory
import Mathlib.Data.List.GetD

/-! Strings in a byte memory, each ended by its first zero. -/
namespace CString

open Memory

/-- The bytes of a string literal, without its terminator. -/
def literal (text : String) : List Byte := text.toList.map fun c => BitVec.ofNat 8 c.toNat

/-- The bytes from an address on are those of the text, and a zero follows them. -/
def Spells (m : Bytes) : Word → List Byte → Prop
  | s, [] => m s = 0
  | s, c :: text => m s = c ∧ c ≠ 0 ∧ Spells m (s + 1) text

instance decidableSpells (m : Bytes) : ∀ s text, Decidable (Spells m s text)
  | s, [] => inferInstanceAs (Decidable (m s = 0))
  | s, c :: text =>
    have := decidableSpells m (s + 1) text
    inferInstanceAs (Decidable (m s = c ∧ c ≠ 0 ∧ Spells m (s + 1) text))

theorem step_add (s : Word) (i : Nat) : s + 1 + BitVec.ofNat 32 i = s + BitVec.ofNat 32 (i + 1) := by
  rw [Nat.add_comm, BitVec.ofNat_add, ← BitVec.add_assoc]
  rfl

/-- Where a text and its terminator lie, and what they are. -/
theorem spells_iff {m : Bytes} {s : Word} {text : List Byte} :
    Spells m s text ↔ 0 ∉ text ∧ ∀ i ≤ text.length, m (s + BitVec.ofNat 32 i) = text.getD i 0 := by
  induction text generalizing s with
  | nil => simp [Spells]
  | cons c text ih =>
    rw [Spells, ih]
    constructor
    · rintro ⟨first, nonzero, plain, others⟩
      refine ⟨List.not_mem_cons_of_ne_of_not_mem nonzero.symm plain, fun i within => ?_⟩
      cases i with
      | zero => simpa using first
      | succ i =>
        rw [← step_add, others i (Nat.le_of_succ_le_succ within), List.getD_cons_succ]
    · rintro ⟨plain, bytes⟩
      have nonzero : c ≠ 0 := fun zero => plain (zero ▸ List.mem_cons_self)
      have tail : 0 ∉ text := fun mem => plain (List.mem_cons_of_mem _ mem)
      refine ⟨by simpa using bytes 0 (Nat.zero_le _), nonzero, tail, fun i within => ?_⟩
      rw [step_add, bytes (i + 1) (Nat.succ_le_succ within), List.getD_cons_succ]

section

variable {m m' : Bytes} {s : Word} {text : List Byte}

theorem Spells.plain (spells : Spells m s text) : 0 ∉ text := (spells_iff.mp spells).1

theorem Spells.byte (spells : Spells m s text) {i : Nat} (within : i ≤ text.length) :
    m (s + BitVec.ofNat 32 i) = text.getD i 0 := (spells_iff.mp spells).2 i within

theorem Spells.ended (spells : Spells m s text) : m (s + BitVec.ofNat 32 text.length) = 0 := by
  rw [spells.byte le_rfl, List.getD_eq_default _ _ le_rfl]

theorem Spells.inside (spells : Spells m s text) {i : Nat} (within : i < text.length) :
    m (s + BitVec.ofNat 32 i) ≠ 0 := by
  rw [spells.byte (Nat.le_of_lt within), List.getD_eq_getElem _ _ within]
  intro zero
  exact spells.plain (zero ▸ List.getElem_mem within)

/-- A text that went round the address space would meet its own terminator. -/
theorem Spells.short (spells : Spells m s text) : text.length < 2 ^ 32 := by
  by_contra long
  have turn : BitVec.ofNat 32 (text.length - 2 ^ 32) = BitVec.ofNat 32 text.length := by
    apply BitVec.eq_of_toNat_eq
    simp only [BitVec.toNat_ofNat]
    omega
  apply spells.inside (i := text.length - 2 ^ 32) (by omega)
  rw [turn, spells.ended]

theorem Spells.congr (spells : Spells m s text)
    (same : ∀ i ≤ text.length, m' (s + BitVec.ofNat 32 i) = m (s + BitVec.ofNat 32 i)) :
    Spells m' s text := by
  refine spells_iff.mpr ⟨spells.plain, fun i within => ?_⟩
  rw [same i within, spells.byte within]

/-- A text is at another place too exactly if its bytes and its terminator are. -/
theorem Spells.copied_iff {s' : Word} (spells : Spells m s text) : Spells m' s' text ↔
    ∀ i ≤ text.length, m' (s' + BitVec.ofNat 32 i) = m (s + BitVec.ofNat 32 i) := by
  constructor
  · intro spells' i within
    rw [spells'.byte within, spells.byte within]
  · intro same
    refine spells_iff.mpr ⟨spells.plain, fun i within => ?_⟩
    rw [same i within, spells.byte within]

theorem Spells.store (spells : Spells m s text) {a : Word} (b : Byte) (apart : text.length < offset s a) :
    Spells (store m a b) s text := by
  have short := spells.short
  refine spells.congr fun i within => store_of_ne m b ?_
  rintro rfl
  rw [offset_add s (by omega)] at apart
  omega

theorem Spells.unique {text' : List Byte} (spells : Spells m s text) (spells' : Spells m s text') :
    text = text' := by
  induction text generalizing s text' with
  | nil =>
    cases text' with
    | nil => rfl
    | cons c text' => exact absurd (spells'.1.symm.trans spells) spells'.2.1
  | cons c text ih =>
    cases text' with
    | nil => exact absurd (spells.1.symm.trans spells') spells.2.1
    | cons c' text' =>
      have head : c = c' := spells.1.symm.trans spells'.1
      rw [head, ih spells.2.2 spells'.2.2]

theorem spells_written (m : Bytes) (s : Word) (plain : 0 ∉ text) (short : text.length < 2 ^ 32) :
    Spells (Memory.overlay m s (text.length + 1) (text.getD · 0)) s text := by
  refine spells_iff.mpr ⟨plain, fun i within => ?_⟩
  rw [overlay_at m s _ (by omega) (by omega)]

/-- A text written over the terminator of another, with its own behind it. -/
theorem Spells.appended {front : List Byte} (spells : Spells m s front) (plain : 0 ∉ text)
    (room : front.length + text.length < 2 ^ 32) :
    Spells (Memory.overlay m (s + BitVec.ofNat 32 front.length) (text.length + 1) (text.getD · 0)) s
      (front ++ text) := by
  refine spells_iff.mpr ⟨List.not_mem_append spells.plain plain, fun i within => ?_⟩
  rw [List.length_append] at within
  have place := offset_shift s (s + BitVec.ofNat 32 i) (k := front.length) (by omega)
  rw [offset_add s (by omega)] at place
  rcases Nat.lt_or_ge i front.length with before | behind
  · rw [if_neg (by omega)] at place
    rw [overlay_outside _ _ (by omega), List.getD_append _ _ _ _ before, spells.byte (Nat.le_of_lt before)]
  · rw [if_pos behind] at place
    rw [overlay_inside _ _ (by omega), place, List.getD_append_right _ _ _ _ behind]

/-- Two strings with one terminator are one a tail of the other. -/
theorem Spells.meets {a : Word} {front : List Byte} (spells : Spells m s text) (spells' : Spells m a front) :
    (0 < offset s (a + BitVec.ofNat 32 front.length) ∧
        offset s (a + BitVec.ofNat 32 front.length) ≤ text.length) ↔
      text ≠ [] ∧ s + BitVec.ofNat 32 text.length = a + BitVec.ofNat 32 front.length := by
  have ended := spells'.ended
  generalize a + BitVec.ofNat 32 front.length = stop at *
  constructor
  · rintro ⟨ahead, within⟩
    rcases Nat.lt_or_eq_of_le within with inside | last
    · refine absurd ?_ (spells.inside inside)
      rwa [add_offset]
    · refine ⟨?_, by rw [← last, add_offset]⟩
      rintro rfl
      rw [last] at ahead
      exact absurd ahead (Nat.lt_irrefl 0)
  · rintro ⟨some, here⟩
    rw [← here, offset_add s spells.short]
    exact ⟨List.length_pos_iff.mpr some, le_rfl⟩

/-- A zero in a text ends one string there and leaves another behind it. -/
theorem Spells.cut {d : Byte} {rest : List Byte} (spells : Spells m s (text ++ d :: rest)) :
    Spells (Memory.store m (s + BitVec.ofNat 32 text.length) 0) s text ∧
      Spells (Memory.store m (s + BitVec.ofNat 32 text.length) 0) (s + BitVec.ofNat 32 (text.length + 1)) rest := by
  have short := spells.short
  rw [List.length_append, List.length_cons] at short
  have plain := spells.plain
  rw [List.mem_append, List.mem_cons, not_or, not_or] at plain
  have apart : ∀ i, i ≠ text.length → i ≤ text.length + 1 + rest.length →
      s + BitVec.ofNat 32 i ≠ s + BitVec.ofNat 32 text.length := by
    intro i other within same
    have place := congrArg (offset s) same
    rw [offset_add s (by omega), offset_add s (by omega)] at place
    exact other place
  constructor
  · refine spells_iff.mpr ⟨plain.1, fun i within => ?_⟩
    rcases Nat.lt_or_eq_of_le within with inside | rfl
    · rw [store_of_ne _ _ (apart i (by omega) (by omega)), spells.byte (by rw [List.length_append]; omega),
        List.getD_append _ _ _ _ inside]
    · rw [store_same, List.getD_eq_default _ _ le_rfl]
  · refine spells_iff.mpr ⟨plain.2.2, fun i within => ?_⟩
    rw [BitVec.add_assoc, ← BitVec.ofNat_add, store_of_ne _ _ (apart _ (by omega) (by omega)),
      spells.byte (by rw [List.length_append, List.length_cons]; omega),
      List.getD_append_right _ _ _ _ (by omega)]
    have index : text.length + 1 + i - text.length = i + 1 := by omega
    rw [index, List.getD_cons_succ]

theorem Spells.behind {front : List Byte} (spells : Spells m s (front ++ text)) :
    Spells m (s + BitVec.ofNat 32 front.length) text := by
  induction front generalizing s with
  | nil => simpa using spells
  | cons c front ih =>
    rw [List.length_cons, ← step_add]
    exact ih spells.2.2

theorem offset_next {s a : Word} (ahead : 0 < offset s a) : offset (s + 1) a = offset s a - 1 :=
  (offset_shift s a (k := 1) (by decide)).trans (if_pos ahead)

theorem store_self (m : Bytes) (a : Word) : Memory.store m a (m a) = m := Function.update_eq_self a m

theorem offset_both (s a : Word) : offset (s + 1) (a + 1) = offset s a := by
  unfold offset
  congr 1
  grind

theorem overlay_terminated (m : Bytes) (dest : Word) {c : Byte} (short : text.length + 1 < 2 ^ 32) :
    Memory.overlay (Memory.store m dest c) (dest + 1) (text.length + 1) (text.getD · 0) =
      Memory.overlay m dest (text.length + 2) ((c :: text).getD · 0) :=
  overlay_store m dest ((c :: text).getD · 0) short

/-- A text is still to be read behind its first byte, where that byte was stored outside it or
over itself. -/
theorem Spells.after {src dest : Word} {c : Byte} (spells : Spells m src (c :: text))
    (apart : ¬ (0 < offset src dest ∧ offset src dest ≤ text.length + 1)) :
    Spells (Memory.store m dest c) (src + 1) text ∧
      ¬ (0 < offset (src + 1) (dest + 1) ∧ offset (src + 1) (dest + 1) ≤ text.length) := by
  rw [offset_both]
  refine ⟨?_, by omega⟩
  rcases Nat.eq_zero_or_pos (offset src dest) with level | ahead
  · have here : dest = src := by rw [← add_offset src dest, level, BitVec.add_zero]
    rw [here, ← spells.1, store_self]
    exact spells.2.2
  · refine spells.2.2.store c ?_
    rw [offset_next ahead]
    omega

end

end CString
