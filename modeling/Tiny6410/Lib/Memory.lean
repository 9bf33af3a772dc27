import Mathlib.Algebra.Order.Group.Nat

/-! A flat byte memory over 32-bit addresses. Address arithmetic is modular, and
a block is given by its base and the modular distance from it, so no lemma below
needs a hypothesis that a block does not wrap around the address space. -/
namespace Memory

abbrev Byte := BitVec 8
abbrev Word := BitVec 32
abbrev Bytes := Word → Byte

theorem getLsbD_clear (x y : Word) (j : Nat) :
    (x &&& ~~~y).getLsbD j = (x.getLsbD j && !y.getLsbD j) := by
  rw [BitVec.getLsbD_and, BitVec.getLsbD_not]
  by_cases wide : j < 32
  · simp [wide]
  · simp [BitVec.getLsbD_of_ge x j (by omega)]

theorem getLsbD_one {k : Nat} (within : k < 32) (j : Nat) :
    ((1 : Word) <<< k).getLsbD j = decide (j = k) := by
  have one : (1 : Word) = 1#32 := rfl
  rw [one, ← BitVec.twoPow_eq, BitVec.getLsbD_twoPow]
  simp [within, eq_comm]

/-- What holds of the bits of a word holds of all indices. -/
theorem getLsbD_pattern {mask : Word} {P : Nat → Prop} [DecidablePred P]
    (bits : ∀ j : Fin 32, mask.getLsbD j = decide (P j)) (within : ∀ j, P j → j < 32) (j : Nat) :
    mask.getLsbD j = decide (P j) := by
  by_cases inside : j < 32
  · exact bits ⟨j, inside⟩
  · rw [BitVec.getLsbD_of_ge _ _ (Nat.le_of_not_lt inside), eq_comm, decide_eq_false_iff_not]
    exact fun holds => inside (within j holds)

/-- The distance of an address above a base, modulo the address space. -/
def offset (base a : Word) : Nat := (a - base).toNat

theorem offset_lt (base a : Word) : offset base a < 2 ^ 32 := (a - base).isLt

theorem offset_add (base : Word) {n : Nat} (h : n < 2 ^ 32) :
    offset base (base + BitVec.ofNat 32 n) = n := by
  unfold offset
  have cancel : base + BitVec.ofNat 32 n - base = BitVec.ofNat 32 n := by
    rw [BitVec.add_comm, BitVec.add_sub_cancel]
  rw [cancel, BitVec.toNat_ofNat, Nat.mod_eq_of_lt h]

theorem add_offset (base a : Word) : base + BitVec.ofNat 32 (offset base a) = a := by
  unfold offset
  rw [BitVec.ofNat_toNat, BitVec.setWidth_eq, BitVec.add_comm, BitVec.sub_add_cancel]

theorem offset_eq_iff (base a : Word) {n : Nat} (h : n < 2 ^ 32) :
    offset base a = n ↔ a = base + BitVec.ofNat 32 n := by
  constructor
  · intro eq
    rw [← eq, add_offset]
  · rintro rfl
    exact offset_add base h

theorem offset_toNat {base a : Word} (h : base.toNat ≤ a.toNat) :
    offset base a = a.toNat - base.toNat := by
  unfold offset
  rw [BitVec.toNat_sub_of_le]
  exact h

theorem offset_toNat_wrap {base a : Word} (h : a.toNat < base.toNat) :
    offset base a = 2 ^ 32 - base.toNat + a.toNat := by
  unfold offset
  have bound := base.isLt
  rw [BitVec.toNat_sub]
  omega

theorem offset_turn (a b : Word) : offset a b + offset b a = 0 ∨ offset a b + offset b a = 2 ^ 32 := by
  have ha := a.isLt
  have hb := b.isLt
  unfold offset
  simp only [BitVec.toNat_sub]
  omega

theorem offset_above {base a : Word} {n : Nat} (h : offset base a + n < 2 ^ 32) :
    offset base (a + BitVec.ofNat 32 n) = offset base a + n := by
  have ha := a.isLt
  have hb := base.isLt
  unfold offset at *
  simp only [BitVec.toNat_sub, BitVec.toNat_add, BitVec.toNat_ofNat] at *
  omega

theorem offset_lt_iff {base a : Word} {n : Nat} (fits : base.toNat + n ≤ 2 ^ 32) :
    offset base a < n ↔ base.toNat ≤ a.toNat ∧ a.toNat < base.toNat + n := by
  rcases Nat.lt_or_ge a.toNat base.toNat with below | above
  · rw [offset_toNat_wrap below]
    omega
  · rw [offset_toNat above]
    omega

def store (m : Bytes) (a : Word) (b : Byte) : Bytes := Function.update m a b

@[simp] theorem store_same (m : Bytes) (a : Word) (b : Byte) : store m a b a = b :=
  Function.update_self ..

theorem store_of_ne (m : Bytes) {a x : Word} (b : Byte) (h : x ≠ a) : store m a b x = m x :=
  Function.update_of_ne h ..

/-- The memory whose n bytes from the base are f 0, f 1, ..., f (n - 1). -/
def overlay (m : Bytes) (base : Word) (n : Nat) (f : Nat → Byte) : Bytes :=
  fun x => if offset base x < n then f (offset base x) else m x

@[simp] theorem overlay_zero (m : Bytes) (base : Word) (f : Nat → Byte) :
    overlay m base 0 f = m := by
  funext x
  simp [overlay]

theorem overlay_inside (m : Bytes) {base x : Word} {n : Nat} (f : Nat → Byte)
    (h : offset base x < n) : overlay m base n f x = f (offset base x) := if_pos h

theorem overlay_outside (m : Bytes) {base x : Word} {n : Nat} (f : Nat → Byte)
    (h : n ≤ offset base x) : overlay m base n f x = m x := if_neg (Nat.not_lt.mpr h)

theorem overlay_at (m : Bytes) (base : Word) {i n : Nat} (f : Nat → Byte)
    (h : i < n) (fits : i < 2 ^ 32) :
    overlay m base n f (base + BitVec.ofNat 32 i) = f i := by
  rw [overlay_inside m f (by rwa [offset_add base fits]), offset_add base fits]

theorem overlay_congr (m : Bytes) (base : Word) (n : Nat) {f g : Nat → Byte}
    (h : ∀ i < n, f i = g i) : overlay m base n f = overlay m base n g := by
  funext x
  unfold overlay
  split
  · rename_i inside
    exact h _ inside
  · rfl

theorem store_overlay (m : Bytes) (base : Word) {n : Nat} (f : Nat → Byte) (fits : n < 2 ^ 32) :
    store (overlay m base n f) (base + BitVec.ofNat 32 n) (f n) = overlay m base (n + 1) f := by
  funext x
  by_cases here : x = base + BitVec.ofNat 32 n
  · subst here
    rw [store_same, overlay_at m base f (Nat.lt_succ_self n) fits]
  · have ne : offset base x ≠ n := fun eq => here ((offset_eq_iff base x fits).mp eq)
    rw [store_of_ne _ _ here]
    unfold overlay
    have same : offset base x < n + 1 ↔ offset base x < n := by omega
    simp only [same]

theorem overlay_one (m : Bytes) (base : Word) (f : Nat → Byte) :
    overlay m base 1 f = store m base (f 0) := by
  have h := store_overlay m base (n := 0) f (by decide)
  rw [overlay_zero, BitVec.add_zero] at h
  exact h.symm

theorem offset_shift (base x : Word) {k : Nat} (h : k ≤ 2 ^ 32) :
    offset (base + BitVec.ofNat 32 k) x =
      if k ≤ offset base x then offset base x - k else 2 ^ 32 - k + offset base x := by
  have hx := x.isLt
  have hb := base.isLt
  unfold offset
  simp only [BitVec.toNat_sub, BitVec.toNat_add, BitVec.toNat_ofNat]
  split <;> omega

theorem overlay_append (m : Bytes) (base : Word) {k n : Nat} (f : Nat → Byte)
    (fits : k + n ≤ 2 ^ 32) :
    overlay (overlay m base k f) (base + BitVec.ofNat 32 k) n (fun i => f (k + i)) =
      overlay m base (k + n) f := by
  funext x
  have turn : k ≤ 2 ^ 32 := by omega
  have shift := offset_shift base x turn
  by_cases low : k ≤ offset base x
  · rw [if_pos low] at shift
    have inside : offset base x - k < n ↔ offset base x < k + n := by omega
    have index : k + (offset base x - k) = offset base x := by omega
    simp only [overlay, shift, inside, index, if_neg (Nat.not_lt.mpr low)]
  · rw [if_neg low] at shift
    have outside : ¬ 2 ^ 32 - k + offset base x < n := by omega
    have inside : offset base x < k + n := by omega
    simp only [overlay, shift, if_neg outside, if_pos inside, if_pos (Nat.not_le.mp low)]

theorem overlay_store (m : Bytes) (base : Word) {n : Nat} (f : Nat → Byte) (fits : n < 2 ^ 32) :
    overlay (store m base (f 0)) (base + 1) n (fun i => f (i + 1)) = overlay m base (n + 1) f := by
  have h := overlay_append m base (k := 1) (n := n) f (by omega)
  rw [overlay_one] at h
  simpa only [Nat.add_comm 1, BitVec.ofNat_eq_ofNat] using h

/-! A word is the sum of its bits under a mask and its other bits. -/

theorem mask_add_not_mask (a mask : Word) : (a &&& mask) + (a &&& ~~~mask) = a := by
  have apart : a &&& mask &&& (a &&& ~~~mask) = 0#32 := by
    ext i hi
    simp only [BitVec.getElem_and, BitVec.getElem_not, BitVec.getElem_zero]
    cases mask[i] <;> simp
  rw [BitVec.add_eq_or_of_and_eq_zero _ _ apart]
  ext i hi
  simp only [BitVec.getElem_or, BitVec.getElem_and, BitVec.getElem_not]
  cases mask[i] <;> simp

theorem and_not_mask (a mask : Word) : a &&& ~~~mask = a - (a &&& mask) := by
  rw [← BitVec.add_sub_cancel (a &&& ~~~mask) (a &&& mask), BitVec.add_comm, mask_add_not_mask]

theorem toNat_append_words (h l : Word) : (h ++ l).toNat = h.toNat * 2 ^ 32 + l.toNat := by
  rw [BitVec.toNat_append, ← Nat.shiftLeft_add_eq_or_of_lt l.isLt, Nat.shiftLeft_eq]

/-! Words are stored with their low byte first. -/

def wordByte (w : Word) (i : Nat) : Byte := (w >>> (8 * i)).setWidth 8

def word (m : Bytes) (a : Word) : Word :=
  (m a).setWidth 32 ||| (m (a + 1)).setWidth 32 <<< 8 ||| (m (a + 2)).setWidth 32 <<< 16 |||
    (m (a + 3)).setWidth 32 <<< 24

theorem wordByte_word (m : Bytes) (a : Word) {i : Nat} (h : i < 4) :
    wordByte (word m a) i = m (a + BitVec.ofNat 32 i) := by
  have cases : i = 0 ∨ i = 1 ∨ i = 2 ∨ i = 3 := by omega
  rcases cases with rfl | rfl | rfl | rfl
  all_goals
    apply BitVec.eq_of_getLsbD_eq
    intro j hj
    simp [wordByte, word, hj]
    try grind

theorem word_of_bytes {m : Bytes} {a w : Word}
    (h : ∀ i < 4, m (a + BitVec.ofNat 32 i) = wordByte w i) : word m a = w := by
  have b0 := h 0 (by decide)
  have b1 : m (a + 1) = wordByte w 1 := h 1 (by decide)
  have b2 : m (a + 2) = wordByte w 2 := h 2 (by decide)
  have b3 : m (a + 3) = wordByte w 3 := h 3 (by decide)
  rw [BitVec.add_zero] at b0
  rw [word, b0, b1, b2, b3]
  apply BitVec.eq_of_getLsbD_eq
  intro j hj
  simp [wordByte]
  grind

theorem word_congr {m n : Bytes} {a : Word}
    (h : ∀ i < 4, m (a + BitVec.ofNat 32 i) = n (a + BitVec.ofNat 32 i)) : word m a = word n a :=
  word_of_bytes fun i hi => by rw [h i hi, wordByte_word n a hi]

def setWord (m : Bytes) (a w : Word) : Bytes := overlay m a 4 (wordByte w)

@[simp] theorem word_setWord (m : Bytes) (a w : Word) : word (setWord m a w) a = w :=
  word_of_bytes fun _ hi => overlay_at m a (wordByte w) hi (by omega)

theorem word_setWord_apart (m : Bytes) {a b : Word} (w : Word) (low : 4 ≤ offset a b)
    (high : offset a b + 4 ≤ 2 ^ 32) : word (setWord m a w) b = word m b := by
  apply word_congr
  intro i hi
  exact overlay_outside m _ (by rw [offset_above (by omega)]; omega)

theorem setWord_word (m n : Bytes) (a b : Word) :
    setWord m a (word n b) = overlay m a 4 fun i => n (b + BitVec.ofNat 32 i) :=
  overlay_congr m a 4 fun _ h => wordByte_word n b h

def copyWords (m : Bytes) (src dst : Word) : Nat → Bytes
  | 0 => m
  | n + 1 => copyWords (setWord m dst (word m src)) (src + 4) (dst + 4) n

theorem copyWords_outside (m : Bytes) (src dst : Word) {n : Nat} {x : Word} (fits : 4 * n ≤ 2 ^ 32)
    (far : 4 * n ≤ offset dst x) : copyWords m src dst n x = m x := by
  induction n generalizing m src dst with
  | zero => rfl
  | succ n ih =>
    have shift := offset_shift dst x (show 4 ≤ 2 ^ 32 by decide)
    rw [if_pos (by omega)] at shift
    rw [copyWords, ih _ _ _ (by omega) (by rw [show (4 : Word) = BitVec.ofNat 32 4 from rfl, shift]; omega)]
    exact overlay_outside _ _ (by omega)

theorem copyWords_add (m : Bytes) (src dst : Word) (k n : Nat) :
    copyWords m src dst (k + n) =
      copyWords (copyWords m src dst k) (src + BitVec.ofNat 32 (4 * k)) (dst + BitVec.ofNat 32 (4 * k)) n := by
  induction k generalizing m src dst with
  | zero => simp [copyWords]
  | succ k ih =>
    have next : ∀ a : Word, a + 4 + BitVec.ofNat 32 (4 * k) = a + BitVec.ofNat 32 (4 * (k + 1)) := by
      intro a
      rw [Nat.mul_succ, Nat.add_comm (4 * k), BitVec.ofNat_add, ← BitVec.add_assoc]
      rfl
    rw [Nat.add_right_comm, copyWords, ih, next, next]
    rfl

/-- A copy whose destination does not start inside its source is a copy of the
bytes that were there at the start. -/
theorem copyWords_forward (m : Bytes) (src dst : Word) {n : Nat}
    (forward : offset dst src + 4 * n ≤ 2 ^ 32) :
    copyWords m src dst n = overlay m dst (4 * n) fun i => m (src + BitVec.ofNat 32 i) := by
  induction n generalizing m src dst with
  | zero => simp [copyWords]
  | succ n ih =>
    have same : offset (dst + 4) (src + 4) = offset dst src := by
      have hs := src.isLt
      have hd := dst.isLt
      simp only [offset, BitVec.toNat_sub, BitVec.toNat_add, BitVec.ofNat_eq_ofNat, BitVec.toNat_ofNat]
      omega
    -- What is still to be copied lies beyond the word that has just been stored.
    have later : ∀ i < 4 * n, setWord m dst (word m src) (src + 4 + BitVec.ofNat 32 i) =
        m (src + BitVec.ofNat 32 (4 + i)) := by
      intro i hi
      rw [show (4 : Word) = BitVec.ofNat 32 4 from rfl, BitVec.add_assoc, ← BitVec.ofNat_add]
      exact overlay_outside _ _ (by rw [offset_above (by omega)]; omega)
    have join := overlay_append m dst (k := 4) (n := 4 * n) (fun i => m (src + BitVec.ofNat 32 i))
      (by omega)
    rw [copyWords, ih _ _ _ (by omega), overlay_congr _ _ _ later, setWord_word, Nat.mul_succ,
      Nat.add_comm (4 * n)]
    exact join

def setWords (m : Bytes) (base : Word) (n : Nat) (w : Nat → Word) : Bytes :=
  overlay m base (4 * n) fun i => wordByte (w (i / 4)) (i % 4)

theorem word_setWords (m : Bytes) (base : Word) {k n : Nat} (w : Nat → Word) (h : k < n)
    (fits : 4 * n ≤ 2 ^ 32) : word (setWords m base n w) (base + BitVec.ofNat 32 (4 * k)) = w k := by
  apply word_of_bytes
  intro i hi
  have quotient : (4 * k + i) / 4 = k := by omega
  have remainder : (4 * k + i) % 4 = i := by omega
  rw [BitVec.add_assoc, ← BitVec.ofNat_add, setWords, overlay_at _ _ _ (by omega) (by omega),
    quotient, remainder]

end Memory
