import Mathlib.Logic.Function.Iterate

/-! Loops as iterated state transformers. A while loop is run with a bound on
its rounds, and running out of rounds is a separate outcome: a result is only
ever obtained by leaving through the loop's own test. -/
namespace Loop

variable {S : Type}

/-- `while (test) body`, in at most the given number of tests; `none` if it is still running. -/
def whileLoop (test : S → Bool) (body : S → S) : Nat → S → Option S
  | 0, _ => none
  | fuel + 1, s => if test s then whileLoop test body fuel (body s) else some s

theorem whileLoop_iterate (test : S → Bool) (body : S → S) {n fuel : Nat} {s : S}
    (enough : n < fuel) (holds : ∀ i < n, test (body^[i] s) = true)
    (ends : test (body^[n] s) = false) :
    whileLoop test body fuel s = some (body^[n] s) := by
  induction n generalizing fuel s with
  | zero =>
    obtain ⟨fuel, rfl⟩ : ∃ k, fuel = k + 1 := ⟨fuel - 1, by omega⟩
    have stop : test s = false := ends
    simp [whileLoop, stop]
  | succ n ih =>
    obtain ⟨fuel, rfl⟩ : ∃ k, fuel = k + 1 := ⟨fuel - 1, by omega⟩
    have first : test s = true := holds 0 (Nat.succ_pos n)
    simp only [whileLoop, first, if_true, Function.iterate_succ_apply]
    apply ih (by omega)
    · intro i hi
      exact holds (i + 1) (by omega)
    · exact ends

end Loop
