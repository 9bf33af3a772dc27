import Tiny6410.Lib.CString

/-! The functions of no-os/stdio/lib/string.c that write memory. Each returns its
destination and the memory it leaves; a loop without a count has a bound on its rounds. -/
namespace Tiny6410.Strings

open Memory CString

/-- `while (count--) *xs++ = c` -/
def fill (m : Bytes) (xs : Word) (c : Byte) : Nat → Bytes
  | 0 => m
  | count + 1 => fill (store m xs c) (xs + 1) c count

/-- `while (count--) *tmp++ = *s++` -/
def copyUp (m : Bytes) (tmp s : Word) : Nat → Bytes
  | 0 => m
  | count + 1 => copyUp (store m tmp (m s)) (tmp + 1) (s + 1) count

/-- `while (count--) *--tmp = *--s` -/
def copyDown (m : Bytes) (tmp s : Word) : Nat → Bytes
  | 0 => m
  | count + 1 => copyDown (store m (tmp - 1) (m (s - 1))) (tmp - 1) (s - 1) count

def memset (m : Bytes) (s c count : Word) : Word × Bytes := (s, fill m s (c.setWidth 8) count.toNat)

def bcopy (m : Bytes) (src dest count : Word) : Bytes := copyUp m dest src count.toNat

def memcpy (m : Bytes) (dest src count : Word) : Word × Bytes := (dest, copyUp m dest src count.toNat)

def memmove (m : Bytes) (dest src count : Word) : Word × Bytes :=
  (dest, if dest ≤ src then copyUp m dest src count.toNat
    else copyDown m (dest + count) (src + count) count.toNat)

/-- The memory in which a block holds what another one held. -/
def moved (m : Bytes) (dest src : Word) (n : Nat) : Bytes :=
  overlay m dest n fun i => m (src + BitVec.ofNat 32 i)

theorem fill_eq (m : Bytes) (xs : Word) (c : Byte) {count : Nat} (fits : count ≤ 2 ^ 32) :
    fill m xs c count = overlay m xs count fun _ => c := by
  induction count generalizing m xs with
  | zero => simp [fill]
  | succ count ih =>
    rw [fill, ih _ _ (by omega)]
    exact overlay_store m xs (fun _ => c) (by omega)

theorem copyUp_succ (m : Bytes) (tmp s : Word) (count : Nat) :
    copyUp m tmp s (count + 1) =
      store (copyUp m tmp s count) (tmp + BitVec.ofNat 32 count)
        (copyUp m tmp s count (s + BitVec.ofNat 32 count)) := by
  induction count generalizing m tmp s with
  | zero => simp [copyUp]
  | succ count ih => rw [copyUp, ih, copyUp, step_add, step_add]

/-- What has been copied is met again where the destination starts inside the source. -/
theorem copied_meets (m : Bytes) (tmp s : Word) {count : Nat} (fits : count < 2 ^ 32) :
    overlay m tmp count (fun i => m (s + BitVec.ofNat 32 (i % offset s tmp))) (s + BitVec.ofNat 32 count) =
      m (s + BitVec.ofNat 32 (count % offset s tmp)) := by
  have turn := offset_turn s tmp
  have start := add_offset s tmp
  generalize offset s tmp = d at *
  rcases Nat.eq_zero_or_pos d with rfl | ahead
  · rw [BitVec.add_zero] at start
    rw [start, Nat.mod_zero]
    exact overlay_outside m _ (by rw [offset_add tmp fits])
  · rcases Nat.lt_or_ge count d with before | behind
    · rw [Nat.mod_eq_of_lt before]
      exact overlay_outside m _ (by rw [offset_above (by omega)]; omega)
    · have again : s + BitVec.ofNat 32 count = tmp + BitVec.ofNat 32 (count - d) := by
        rw [← start, BitVec.add_assoc, ← BitVec.ofNat_add, Nat.add_sub_cancel' behind]
      rw [again, overlay_at m tmp _ (by omega) (by omega), ← Nat.mod_eq_sub_mod behind]

/-- Where the destination starts inside the source, what lies before it is repeated. -/
theorem copyUp_eq (m : Bytes) (tmp s : Word) {count : Nat} (fits : count ≤ 2 ^ 32) :
    copyUp m tmp s count =
      overlay m tmp count fun i => m (s + BitVec.ofNat 32 (i % offset s tmp)) := by
  induction count with
  | zero => simp [copyUp]
  | succ count ih =>
    rw [copyUp_succ, ih (by omega), copied_meets m tmp s (by omega)]
    exact store_overlay m tmp (fun i => m (s + BitVec.ofNat 32 (i % offset s tmp))) (by omega)

/-- The memory read from the other end. -/
def mirror (m : Bytes) : Bytes := fun x => m (~~~x)

theorem mirror_store (m : Bytes) (a : Word) (b : Byte) : mirror (store m a b) = store (mirror m) (~~~a) b := by
  funext x
  by_cases here : x = ~~~a
  · rw [here, store_same, mirror, BitVec.not_not, store_same]
  · have elsewhere : ~~~x ≠ a := fun same => here (by rw [← same, BitVec.not_not])
    rw [store_of_ne _ _ here, mirror, store_of_ne _ _ elsewhere]
    rfl

@[simp] theorem mirror_mirror (m : Bytes) : mirror (mirror m) = m := by
  funext x
  rw [mirror, mirror, BitVec.not_not]

theorem not_pred (a : Word) : ~~~(a - 1) = -a := by
  rw [BitVec.not_eq_neg_add]
  grind

theorem neg_pred (a : Word) : -(a - 1) = -a + 1 := by grind

/-- Copying down is copying up in the mirror. -/
theorem copyDown_mirror (m : Bytes) (tmp s : Word) (count : Nat) :
    mirror (copyDown m tmp s count) = copyUp (mirror m) (-tmp) (-s) count := by
  induction count generalizing m tmp s with
  | zero => rfl
  | succ count ih =>
    have read : m (s - 1) = mirror m (-s) := by rw [mirror, ← not_pred, BitVec.not_not]
    rw [copyDown, ih, copyUp, mirror_store, not_pred, neg_pred, neg_pred, read]

theorem offset_mirror (base x : Word) {n : Nat} (fits : n ≤ 2 ^ 32) :
    offset (-(base + BitVec.ofNat 32 n)) (~~~x) =
      if offset base x < n then n - 1 - offset base x else 2 ^ 32 + n - 1 - offset base x := by
  have turned : ~~~x - -(base + BitVec.ofNat 32 n) = BitVec.ofNat 32 n - 1 - (x - base) := by
    rw [BitVec.not_eq_neg_add]
    grind
  have bound := offset_lt base x
  unfold offset at *
  rw [turned]
  generalize x - base = y at *
  simp only [BitVec.toNat_sub, BitVec.ofNat_eq_ofNat, BitVec.toNat_ofNat]
  split <;> omega

theorem not_back (s : Word) {k n : Nat} (within : k < n) :
    ~~~(-(s + BitVec.ofNat 32 n) + BitVec.ofNat 32 k) = s + BitVec.ofNat 32 (n - 1 - k) := by
  have whole : BitVec.ofNat 32 n = BitVec.ofNat 32 (n - 1 - k) + BitVec.ofNat 32 k + 1#32 := by
    rw [← BitVec.ofNat_add, ← BitVec.ofNat_add]
    congr 1
    omega
  rw [BitVec.not_eq_neg_add, whole]
  grind

theorem copyDown_eq (m : Bytes) (dest src : Word) {count : Nat} (fits : count ≤ 2 ^ 32) :
    copyDown m (dest + BitVec.ofNat 32 count) (src + BitVec.ofNat 32 count) count =
      overlay m dest count fun i => m (src + BitVec.ofNat 32 (count - 1 - (count - 1 - i) % offset dest src)) := by
  have distance : offset (-(src + BitVec.ofNat 32 count)) (-(dest + BitVec.ofNat 32 count)) = offset dest src := by
    unfold offset
    congr 1
    grind
  rw [← mirror_mirror (copyDown _ _ _ _), copyDown_mirror, copyUp_eq _ _ _ fits, distance]
  funext x
  rw [mirror]
  have place := offset_mirror dest x fits
  by_cases inside : offset dest x < count
  · rw [if_pos inside] at place
    have back : (count - 1 - offset dest x) % offset dest src < count :=
      Nat.lt_of_le_of_lt (Nat.mod_le _ _) (by omega)
    rw [overlay_inside _ _ (by omega), place, overlay_inside _ _ inside, mirror, not_back src back]
  · rw [if_neg inside] at place
    have distance := offset_lt dest x
    rw [overlay_outside _ _ (by omega), overlay_outside _ _ (by omega), mirror, BitVec.not_not]

/-- A copy over itself shows what it was given only where no byte was repeated. -/
theorem overlay_moved_iff (dest src : Word) {count : Nat} (fits : count ≤ 2 ^ 32) (index : Nat → Nat)
    (small : ∀ i < count, index i < 2 ^ 32) :
    (∀ m, overlay m dest count (fun i => m (src + BitVec.ofNat 32 (index i))) = moved m dest src count) ↔
      ∀ i < count, index i = i := by
  constructor
  · intro same i within
    have read := congrFun (same fun x => if offset src x = i then 1 else 0) (dest + BitVec.ofNat 32 i)
    rw [moved, overlay_at _ _ _ within (by omega), overlay_at _ _ _ within (by omega),
      offset_add src (small i within), offset_add src (by omega)] at read
    by_contra other
    rw [if_neg other, if_pos rfl] at read
    cases read
  · intro same m
    refine overlay_congr m dest count fun i within => ?_
    rw [same i within]

theorem mod_same_iff {n d : Nat} : (∀ i < n, i % d = i) ↔ ¬ (0 < d ∧ d < n) := by
  constructor
  · rintro same ⟨positive, inside⟩
    have zero := same d inside
    rw [Nat.mod_self] at zero
    omega
  · intro apart i within
    rcases Nat.eq_zero_or_pos d with rfl | positive
    · exact Nat.mod_zero i
    · exact Nat.mod_eq_of_lt (by omega)

theorem copyUp_moved_iff (dest src : Word) {count : Nat} (fits : count ≤ 2 ^ 32) :
    (∀ m, copyUp m dest src count = moved m dest src count) ↔
      ¬ (0 < offset src dest ∧ offset src dest < count) := by
  simp only [copyUp_eq _ _ _ fits]
  rw [overlay_moved_iff dest src fits _ fun i _ => by have := Nat.mod_le i (offset src dest); omega, mod_same_iff]

theorem copyDown_moved_iff (dest src : Word) {count : Nat} (fits : count ≤ 2 ^ 32) :
    (∀ m, copyDown m (dest + BitVec.ofNat 32 count) (src + BitVec.ofNat 32 count) count = moved m dest src count) ↔
      ¬ (0 < offset dest src ∧ offset dest src < count) := by
  simp only [copyDown_eq _ _ _ fits]
  rw [overlay_moved_iff dest src fits _ fun i _ => by omega, ← mod_same_iff]
  constructor
  · intro same i within
    have back := same (count - 1 - i) (by omega)
    have low := Nat.mod_le i (offset dest src)
    have turn : count - 1 - (count - 1 - i) = i := by omega
    rw [turn] at back
    omega
  · intro same i within
    rw [same _ (by omega)]
    omega

/-- A copy upwards gives the destination what the source held, for every content,
unless the destination starts inside the source. -/
theorem memcpy_moves_iff (dest src count : Word) :
    (∀ m, memcpy m dest src count = (dest, moved m dest src count.toNat)) ↔
      ¬ (0 < offset src dest ∧ offset src dest < count.toNat) := by
  rw [← copyUp_moved_iff dest src (Nat.le_of_lt count.isLt)]
  simp only [memcpy, Prod.mk.injEq, true_and]

theorem bcopy_moves_iff (src dest count : Word) :
    (∀ m, bcopy m src dest count = moved m dest src count.toNat) ↔
      ¬ (0 < offset src dest ∧ offset src dest < count.toNat) := by
  rw [← copyUp_moved_iff dest src (Nat.le_of_lt count.isLt)]
  simp only [bcopy]

/-- The direction that memmove takes is right for every content, unless a block goes
round the end of the address space into the other one. -/
theorem memmove_moves_iff (dest src count : Word) :
    (∀ m, memmove m dest src count = (dest, moved m dest src count.toNat)) ↔
      dest = src ∨ count.toNat + (max dest.toNat src.toNat - min dest.toNat src.toNat) ≤ 2 ^ 32 := by
  have fits := Nat.le_of_lt count.isLt
  have same : dest = src ↔ dest.toNat = src.toNat := BitVec.toNat_inj.symm
  have hd := dest.isLt
  have hs := src.isLt
  rw [same]
  rcases Nat.lt_or_ge src.toNat dest.toNat with above | below
  · have down := copyDown_moved_iff dest src fits
    rw [BitVec.ofNat_toNat, BitVec.setWidth_eq] at down
    rw [offset_toNat_wrap above] at down
    simp only [memmove, Prod.mk.injEq, true_and, BitVec.le_def, if_neg (Nat.not_le.mpr above), down]
    omega
  · have up := copyUp_moved_iff dest src fits
    simp only [memmove, Prod.mk.injEq, true_and, BitVec.le_def, if_pos below, up]
    rcases Nat.eq_or_lt_of_le below with level | under
    · rw [offset_toNat (Nat.le_of_eq level.symm)]
      omega
    · rw [offset_toNat_wrap under]
      omega

/-- `while ((*dest++ = *src++) != 0)` -/
def copyString : Nat → Bytes → Word → Word → Option Bytes
  | 0, _, _, _ => none
  | fuel + 1, m, dest, src =>
    if m src ≠ 0 then copyString fuel (store m dest (m src)) (dest + 1) (src + 1)
    else some (store m dest (m src))

/-- `while (*dest) dest++` -/
def skip : Nat → Bytes → Word → Option Word
  | 0, _, _ => none
  | fuel + 1, m, dest => if m dest ≠ 0 then skip fuel m (dest + 1) else some dest

/-- `while ((*dest++ = *src++)) if (--count == 0) { *dest = 0; break; }` -/
def appendUpTo (m : Bytes) (dest src : Word) : Nat → Bytes
  | 0 => m
  | count + 1 =>
    let stored := store m dest (m src)
    if m src ≠ 0 then
      if count = 0 then store stored (dest + 1) 0
      else appendUpTo stored (dest + 1) (src + 1) count
    else stored

/-- `while (count-- && (*dest++ = *src++) != 0)` -/
def copyUpTo (m : Bytes) (dest src : Word) : Nat → Bytes
  | 0 => m
  | count + 1 =>
    if m src ≠ 0 then copyUpTo (store m dest (m src)) (dest + 1) (src + 1) count
    else store m dest (m src)

def strcpy (fuel : Nat) (m : Bytes) (dest src : Word) : Option (Word × Bytes) :=
  (copyString fuel m dest src).map fun m => (dest, m)

def strncpy (m : Bytes) (dest src count : Word) : Word × Bytes := (dest, copyUpTo m dest src count.toNat)

def strcat (fuel : Nat) (m : Bytes) (dest src : Word) : Option (Word × Bytes) :=
  (skip fuel m dest).bind fun stop => (copyString fuel m stop src).map fun m => (dest, m)

def strncat (fuel : Nat) (m : Bytes) (dest src count : Word) : Option (Word × Bytes) :=
  if count ≠ 0 then (skip fuel m dest).map fun stop => (dest, appendUpTo m stop src count.toNat)
  else some (dest, m)

section

variable {m : Bytes} {dest src : Word} {text : List Byte}

theorem copyString_eq {fuel : Nat} (spells : Spells m src text) (enough : text.length < fuel)
    (apart : ¬ (0 < offset src dest ∧ offset src dest ≤ text.length)) :
    copyString fuel m dest src = some (overlay m dest (text.length + 1) (text.getD · 0)) := by
  induction text generalizing m dest src fuel with
  | nil =>
    obtain ⟨fuel, rfl⟩ := Nat.exists_eq_add_of_lt enough
    have zero : m src = 0 := spells
    simp [copyString, zero, overlay_one]
  | cons c text ih =>
    obtain ⟨fuel, rfl⟩ : ∃ k, fuel = k + 1 := ⟨fuel - 1, by omega⟩
    have long : m src ≠ 0 := spells.1 ▸ spells.2.1
    obtain ⟨after, apart⟩ := spells.after apart
    rw [copyString, if_pos long, spells.1, ih after (by simpa using enough) apart,
      overlay_terminated m dest spells.short]
    rfl

/-- With no zero between the source and the destination there is none after a step either:
the byte that was read has been stored at the other end. -/
theorem window_next (ahead : 0 < offset src dest)
    (window : ∀ j < offset src dest, m (src + BitVec.ofNat 32 j) ≠ 0) :
    ∀ j < offset (src + 1) (dest + 1), store m dest (m src) (src + 1 + BitVec.ofNat 32 j) ≠ 0 := by
  rw [offset_both]
  intro j low
  rw [step_add]
  by_cases here : src + BitVec.ofNat 32 (j + 1) = dest
  · rw [here, store_same]
    simpa using window 0 ahead
  · rw [store_of_ne _ _ here]
    refine window (j + 1) (Nat.lt_of_le_of_ne low fun last => here ?_)
    rw [last, add_offset]

theorem copyString_trapped (ahead : 0 < offset src dest)
    (window : ∀ j < offset src dest, m (src + BitVec.ofNat 32 j) ≠ 0) (fuel : Nat) :
    copyString fuel m dest src = none := by
  induction fuel generalizing m dest src with
  | zero => rfl
  | succ fuel ih =>
    have first : m src ≠ 0 := by simpa using window 0 ahead
    rw [copyString, if_pos first]
    exact ih (offset_both src dest ▸ ahead) (window_next ahead window)

theorem appendUpTo_trapped (ahead : 0 < offset src dest)
    (window : ∀ j < offset src dest, m (src + BitVec.ofNat 32 j) ≠ 0) (count : Nat) :
    appendUpTo m dest src (count + 1) =
      store (copyUp m dest src (count + 1)) (dest + BitVec.ofNat 32 (count + 1)) 0 := by
  have first : m src ≠ 0 := by simpa using window 0 ahead
  induction count generalizing m dest src with
  | zero =>
    rw [appendUpTo]
    simp only [if_pos first]
    rfl
  | succ count ih =>
    have next := window_next ahead window
    have ahead' : 0 < offset (src + 1) (dest + 1) := offset_both src dest ▸ ahead
    rw [appendUpTo]
    simp only [if_pos first, if_neg (Nat.succ_ne_zero count)]
    rw [ih ahead' next (by simpa using next 0 ahead'), step_add]
    rfl

theorem appendUpTo_eq {count : Nat} (positive : 0 < count) (spells : Spells m src text)
    (apart : ¬ (0 < offset src dest ∧ offset src dest ≤ text.length)) :
    appendUpTo m dest src count =
      overlay m dest ((text.take count).length + 1) ((text.take count).getD · 0) := by
  induction text generalizing m dest src count with
  | nil =>
    obtain ⟨count, rfl⟩ := Nat.exists_eq_add_of_lt positive
    have zero : m src = 0 := spells
    simp [appendUpTo, zero, overlay_one]
  | cons c text ih =>
    obtain ⟨count, rfl⟩ : ∃ k, count = k + 1 := ⟨count - 1, by omega⟩
    have short := spells.short
    rw [List.length_cons] at short
    obtain ⟨after, apart⟩ := spells.after apart
    have taken : (text.take count).length + 1 < 2 ^ 32 := by
      rw [List.length_take]
      omega
    rw [List.take_succ_cons, List.length_cons, ← overlay_terminated m dest taken, appendUpTo]
    simp only [spells.1, if_pos spells.2.1]
    split
    · rename_i last
      rw [last]
      simp [overlay_one]
    · rename_i further
      exact ih (Nat.pos_of_ne_zero further) after apart

theorem copyUpTo_eq {count : Nat} (spells : Spells m src text)
    (apart : ¬ (0 < offset src dest ∧ offset src dest ≤ text.length)) :
    copyUpTo m dest src count = overlay m dest (min count (text.length + 1)) (text.getD · 0) := by
  induction text generalizing m dest src count with
  | nil =>
    have zero : m src = 0 := spells
    cases count with
    | zero => simp [copyUpTo]
    | succ count => simp [copyUpTo, zero, overlay_one]
  | cons c text ih =>
    cases count with
    | zero => simp [copyUpTo]
    | succ count =>
      have long : m src ≠ 0 := spells.1 ▸ spells.2.1
      have short := spells.short
      rw [List.length_cons] at short
      obtain ⟨after, apart⟩ := spells.after apart
      rw [copyUpTo, if_pos long, spells.1, ih after apart, List.length_cons, Nat.add_min_add_right]
      exact overlay_store m dest ((c :: text).getD · 0) (by omega)

theorem skip_eq (spells : Spells m dest text) (fuel : Nat) :
    skip fuel m dest = if text.length < fuel then some (dest + BitVec.ofNat 32 text.length) else none := by
  induction text generalizing dest fuel with
  | nil =>
    have zero : m dest = 0 := spells
    cases fuel with
    | zero => rfl
    | succ fuel => simp [skip, zero]
  | cons c text ih =>
    have long : m dest ≠ 0 := spells.1 ▸ spells.2.1
    cases fuel with
    | zero => rfl
    | succ fuel =>
      simp only [skip, if_pos long, ih spells.2.2, step_add, List.length_cons, Nat.add_lt_add_iff_right]

theorem memset_eq (m : Bytes) (s c count : Word) :
    memset m s c count = (s, overlay m s count.toNat fun _ => c.setWidth 8) := by
  rw [memset, fill_eq _ _ _ (Nat.le_of_lt count.isLt)]

/-- Nothing ends what strncpy writes where the text is as long as the count. -/
theorem strncpy_eq {count : Word} (spells : Spells m src text)
    (apart : ¬ (0 < offset src dest ∧ offset src dest ≤ text.length)) :
    strncpy m dest src count = (dest, overlay m dest (min count.toNat (text.length + 1)) (text.getD · 0)) := by
  rw [strncpy, copyUpTo_eq spells apart]

/-- The strings abc and b. -/
def sample : Bytes := fun a => ([97, 98, 99, 0, 98, 0] : List Byte).getD (a.toNat - 16) 0

theorem sample_text : Spells sample 16 [97, 98, 99] := by simp [Spells, sample]

theorem sample_letter : Spells sample 20 [98] := by simp [Spells, sample]

/-- strcpy writes the text with its terminator, unless the destination lies in the text or
on its terminator: then it never returns. -/
theorem strcpy_copies (dest : Word) (spells : Spells m src text) :
    if 0 < offset src dest ∧ offset src dest ≤ text.length then ∀ fuel, strcpy fuel m dest src = none
    else ∀ fuel, text.length < fuel → ∃ m', strcpy fuel m dest src = some (dest, m') ∧
      Spells m' dest text ∧ ∀ x, text.length < offset dest x → m' x = m x := by
  split
  · rename_i overlap
    intro fuel
    rw [strcpy, copyString_trapped overlap.1 fun j low => spells.inside (by omega)]
    rfl
  · rename_i apart
    intro fuel enough
    refine ⟨_, by rw [strcpy, copyString_eq spells enough apart]; rfl, ?_, ?_⟩
    · exact spells_written m dest spells.plain spells.short
    · exact fun x far => overlay_outside m _ far

theorem strcpy_copies_sample : ∃ m', strcpy 4 sample 64 16 = some (64, m') ∧ Spells m' 64 [97, 98, 99] := by
  have copies := strcpy_copies 64 sample_text
  rw [if_neg (by decide)] at copies
  obtain ⟨m', result, spells, -⟩ := copies 4 (by decide)
  exact ⟨m', result, spells⟩

/-- strcat writes the text behind the string that was there, unless the text is a tail of
that string: then it never returns. -/
theorem strcat_appends {front : List Byte} (there : Spells m dest front) (spells : Spells m src text)
    (room : front.length + text.length < 2 ^ 32) :
    if text ≠ [] ∧ src + BitVec.ofNat 32 text.length = dest + BitVec.ofNat 32 front.length then
      ∀ fuel, strcat fuel m dest src = none
    else ∀ fuel, front.length < fuel → text.length < fuel → ∃ m', strcat fuel m dest src = some (dest, m') ∧
      Spells m' dest (front ++ text) ∧
      ∀ x, text.length < offset (dest + BitVec.ofNat 32 front.length) x → m' x = m x := by
  have meets := spells.meets there
  split
  · rename_i tail
    have overlap := meets.mpr tail
    intro fuel
    rw [strcat, skip_eq there]
    split
    · rw [Option.bind_some, copyString_trapped overlap.1 fun j low => spells.inside (by omega)]
      rfl
    · rfl
  · rename_i apart
    intro fuel long enough
    have copied := copyString_eq spells enough fun overlap => apart (meets.mp overlap)
    refine ⟨_, by rw [strcat, skip_eq there, if_pos long, Option.bind_some, copied]; rfl, ?_, ?_⟩
    · exact there.appended spells.plain room
    · exact fun x far => overlay_outside m _ far

theorem strcat_appends_sample : ∃ m', strcat 4 sample 20 16 = some (20, m') ∧ Spells m' 20 [98, 97, 98, 99] := by
  have appends := strcat_appends sample_letter sample_text (by decide)
  rw [if_neg (by decide)] at appends
  obtain ⟨m', result, spells, -⟩ := appends 4 (by decide) (by decide)
  exact ⟨m', result, spells⟩

/-- What strncat appends: as much of the text as it may, and a tail of the string that was
there over and over. -/
def appendedText (text : List Byte) (tail : Prop) [Decidable tail] (count : Nat) : List Byte :=
  if tail then (List.range count).map fun i => text.getD (i % text.length) 0 else text.take count

theorem appendedText_plain {count : Nat} (plain : 0 ∉ text) {tail : Prop} [Decidable tail]
    (some : tail → text ≠ []) : 0 ∉ appendedText text tail count := by
  unfold appendedText
  split
  · rename_i here
    intro mem
    obtain ⟨i, -, zero⟩ := List.mem_map.mp mem
    have within := Nat.mod_lt i (List.length_pos_iff.mpr (some here))
    rw [List.getD_eq_getElem _ _ within] at zero
    exact plain (zero ▸ List.getElem_mem within)
  · exact fun mem => plain (List.mem_of_mem_take mem)

theorem appendUpTo_appended {count : Nat} (positive : 0 < count) (fits : count < 2 ^ 32)
    (spells : Spells m src text) {tail : Prop} [Decidable tail]
    (meets : (0 < offset src dest ∧ offset src dest ≤ text.length) ↔ tail)
    (last : tail → offset src dest = text.length) :
    appendUpTo m dest src count = overlay m dest ((appendedText text tail count).length + 1)
      ((appendedText text tail count).getD · 0) := by
  unfold appendedText
  split
  · rename_i here
    obtain ⟨count, rfl⟩ : ∃ k, count = k + 1 := ⟨count - 1, by omega⟩
    have distance := last here
    have ahead := (meets.mpr here).1
    rw [appendUpTo_trapped ahead (fun j low => spells.inside (by omega)), copyUp_eq _ _ _ (Nat.le_of_lt fits),
      List.length_map, List.length_range, distance]
    rw [← store_overlay m dest _ fits]
    congr 1
    · refine overlay_congr m dest _ fun i within => ?_
      have inside := Nat.mod_lt i (distance ▸ ahead)
      have listed : i < ((List.range (count + 1)).map fun i => text.getD (i % text.length) 0).length := by
        rwa [List.length_map, List.length_range]
      rw [spells.byte (Nat.le_of_lt inside), List.getD_eq_getElem _ _ listed, List.getElem_map, List.getElem_range]
    · rw [List.getD_eq_default]
      rw [List.length_map, List.length_range]
  · rename_i apart
    exact appendUpTo_eq positive spells fun overlap => apart (meets.mp overlap)

/-- strncat always returns, with the same string over and over where strcat would not. -/
theorem strncat_appends {front : List Byte} {count : Word} (there : Spells m dest front)
    (spells : Spells m src text) :
    let stop := dest + BitVec.ofNat 32 front.length
    let appended := appendedText text (text ≠ [] ∧ src + BitVec.ofNat 32 text.length = stop) count.toNat
    front.length + appended.length < 2 ^ 32 → ∀ fuel, front.length < fuel →
      ∃ m', strncat fuel m dest src count = some (dest, m') ∧ Spells m' dest (front ++ appended) ∧
        ∀ x, appended.length < offset stop x → m' x = m x := by
  intro stop appended room fuel long
  have meets := spells.meets there
  have plain : 0 ∉ appended := appendedText_plain spells.plain And.left
  rw [strncat, skip_eq there, if_pos long]
  split
  · rename_i positive
    have counted : 0 < count.toNat := Nat.pos_of_ne_zero fun zero => positive (BitVec.eq_of_toNat_eq zero)
    have written := appendUpTo_appended counted count.isLt spells meets fun tail => by
      rw [← tail.2, offset_add src spells.short]
    refine ⟨_, rfl, ?_, ?_⟩
    · rw [written]
      exact there.appended plain room
    · rw [written]
      exact fun x far => overlay_outside m _ far
  · rename_i zero
    have none : appended = [] := by
      have nothing : count.toNat = 0 := by
        have here := not_not.mp zero
        rw [here]
        rfl
      simp only [appended, nothing, appendedText]
      split <;> rfl
    refine ⟨m, rfl, ?_, fun x _ => rfl⟩
    rw [none, List.append_nil]
    exact there

theorem strncat_appends_sample : ∃ m', strncat 2 sample 20 16 2 = some (20, m') ∧ Spells m' 20 [98, 97, 98] := by
  obtain ⟨m', result, spells, -⟩ := @strncat_appends _ _ _ _ _ 2 sample_letter sample_text (by decide) 2 (by decide)
  exact ⟨m', result, spells⟩

end

end Tiny6410.Strings
