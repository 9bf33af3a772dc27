import Mathlib

/-! Places of a list changed by exclusive or, as errors change what is stored and a correction
changes it back. -/
namespace Patch

variable {w : Nat}

def xorAt (l : List (BitVec w)) (i : Nat) (mask : BitVec w) : List (BitVec w) :=
  l.modify i (· ^^^ mask)

/-- The changes one after another. -/
def patch (errors : List (Nat × BitVec w)) (l : List (BitVec w)) : List (BitVec w) :=
  errors.foldl (fun l e => xorAt l e.1 e.2) l

section

variable {errors : List (Nat × BitVec w)} {l : List (BitVec w)} {i j : Nat} {mask other : BitVec w}

@[simp] theorem length_xorAt : (xorAt l i mask).length = l.length := List.length_modify _ _ _

@[simp] theorem length_patch : (patch errors l).length = l.length := by
  induction errors generalizing l with
  | nil => rfl
  | cons e errors ih => exact ih.trans length_xorAt

theorem getElem?_xorAt : (xorAt l i mask)[j]? = (l[j]?).map fun b => if i = j then b ^^^ mask else b := by
  rw [xorAt, List.getElem?_modify]
  split <;> simp

theorem xorAt_append_left {rest : List (BitVec w)} (inside : i < l.length) :
    xorAt (l ++ rest) i mask = xorAt l i mask ++ rest := by
  refine List.ext_getElem? fun j => ?_
  simp only [getElem?_xorAt, List.getElem?_append, length_xorAt]
  by_cases first : j < l.length
  · simp only [first, if_true]
  · have other : i ≠ j := by omega
    simp [first, other]

theorem xorAt_append_right {rest : List (BitVec w)} (outside : l.length ≤ i) :
    xorAt (l ++ rest) i mask = l ++ xorAt rest (i - l.length) mask := by
  refine List.ext_getElem? fun j => ?_
  simp only [getElem?_xorAt, List.getElem?_append]
  by_cases first : j < l.length
  · have other : i ≠ j := by omega
    simp [first, other]
  · have same : i = j ↔ i - l.length = j - l.length := by omega
    simp only [first, if_false, same]

/-- What is changed the same way twice is as before. -/
theorem xorAt_xorAt : xorAt (xorAt l i mask) i mask = l := by
  refine List.ext_getElem? fun j => ?_
  simp only [getElem?_xorAt, Option.map_map]
  cases l[j]? with
  | none => rfl
  | some b =>
    by_cases here : i = j
    · simp [here]
    · simp [here]

theorem xorAt_comm : xorAt (xorAt l i mask) j other = xorAt (xorAt l j other) i mask := by
  refine List.ext_getElem? fun k => ?_
  simp only [getElem?_xorAt, Option.map_map]
  cases l[k]? with
  | none => rfl
  | some b =>
    by_cases first : i = k
    · by_cases second : j = k
      · simp [first, second, BitVec.xor_assoc, BitVec.xor_comm mask]
      · simp [first, second]
    · simp [first]

theorem patch_perm {changed : List (Nat × BitVec w)} (same : errors.Perm changed) : patch errors l = patch changed l := by
  refine same.foldl_eq' (fun a _ b _ l => ?_) l
  exact xorAt_comm

theorem patch_self : patch errors (patch errors l) = l := by
  induction errors generalizing l with
  | nil => rfl
  | cons e errors ih =>
    have last : patch (e :: errors) (patch (e :: errors) l) = patch (errors ++ [e]) (patch (e :: errors) l) :=
      patch_perm (List.perm_append_singleton e errors).symm
    rw [last, patch, List.foldl_append]
    exact (congrArg (fun l => xorAt l e.1 e.2) ih).trans xorAt_xorAt

/-- A correction may find the errors in any order. -/
theorem patch_patch {found : List (Nat × BitVec w)} (same : found.Perm errors) : patch found (patch errors l) = l := by
  rw [patch_perm same, patch_self]

/-! Single bits, each by its element and its place there. -/

/-- The bits are turned over. -/
def flips (bits : List (Nat × Nat)) (l : List (BitVec w)) : List (BitVec w) :=
  patch (bits.map fun p => (p.1, (1 : BitVec w) <<< p.2)) l

def bitAt (l : List (BitVec w)) (p : Nat × Nat) : Bool := (l.getD p.1 0).getLsbD p.2

variable {bits : List (Nat × Nat)} {p q : Nat × Nat}

@[simp] theorem length_flips : (flips bits l).length = l.length := length_patch

theorem bitAt_xorAt (inside : p.1 < l.length) (small : p.2 < w) :
    bitAt (xorAt l q.1 ((1 : BitVec w) <<< q.2)) p = (bitAt l p ^^ decide (q = p)) := by
  have element := @getElem?_xorAt w l q.1 p.1 ((1 : BitVec w) <<< q.2)
  have one : ((1 : BitVec w) <<< q.2).getLsbD p.2 = decide (q.2 = p.2) := by
    change (BitVec.twoPow w q.2).getLsbD p.2 = _
    by_cases same : q.2 = p.2
    · simp [same, small]
    · simp [BitVec.getLsbD_twoPow, same]
  rw [List.getElem?_eq_getElem inside] at element
  rw [bitAt, bitAt, List.getD_eq_getElem?_getD, element, List.getD_eq_getElem _ _ inside]
  by_cases here : q.1 = p.1
  · simp only [Option.map_some, Option.getD_some, if_true, BitVec.getLsbD_xor, one, Prod.ext_iff, here, true_and]
  · simp [here, Prod.ext_iff]

theorem bitAt_flips (once : bits.Nodup) (inside : p.1 < l.length) (small : p.2 < w) :
    bitAt (flips bits l) p = (bitAt l p ^^ decide (p ∈ bits)) := by
  induction bits generalizing l with
  | nil => simp [flips, patch]
  | cons q bits ih =>
    obtain ⟨new, others⟩ := List.nodup_cons.mp once
    have rest := ih (l := xorAt l q.1 ((1 : BitVec w) <<< q.2)) others (by rwa [length_xorAt])
    rw [bitAt_xorAt inside small] at rest
    refine rest.trans ?_
    by_cases same : q = p
    · simp [same, same ▸ new]
    · simp [same, Ne.symm same]

theorem flips_eq_self_iff (once : bits.Nodup) (real : ∀ p ∈ bits, p.1 < l.length ∧ p.2 < w) :
    flips bits l = l ↔ bits = [] := by
  constructor
  · intro same
    refine List.eq_nil_iff_forall_not_mem.mpr fun p mem => ?_
    have turned := bitAt_flips once (real p mem).1 (real p mem).2
    rw [same] at turned
    simp [mem] at turned
  · rintro rfl
    rfl

theorem flips_flips {found : List (Nat × Nat)} (same : found.Perm bits) : flips found (flips bits l) = l :=
  patch_patch (same.map _)

end

end Patch
