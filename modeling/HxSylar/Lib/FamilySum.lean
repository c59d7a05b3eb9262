import Mathlib.Algebra.BigOperators.Group.Finset.Piecewise
import Mathlib.Tactic.Abel

namespace HxSylar.Lib

open scoped BigOperators

variable {ι α M : Type*} [Fintype ι] [DecidableEq ι]

/-- Replacing one member of a finite family exchanges its contribution to a sum
over the family, and nothing else. -/
theorem sum_update [AddCommMonoid M] (f : ι → α) (i : ι) (v : α) (g : α → M) :
    (∑ j, g (Function.update f i v j)) + g (f i) = (∑ j, g (f j)) + g v := by
  have hu : ∀ j, g (Function.update f i v j) = Function.update (fun j => g (f j)) i (g v) j := by
    intro j
    by_cases h : j = i
    · subst h; simp
    · simp [h]
  simp only [hu]
  rw [Finset.sum_update_of_mem (Finset.mem_univ i),
    ← Finset.add_sum_erase Finset.univ (fun j => g (f j)) (Finset.mem_univ i),
    Finset.sdiff_singleton_eq_erase]
  abel

end HxSylar.Lib
