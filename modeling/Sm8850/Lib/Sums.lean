import Mathlib.Algebra.Order.BigOperators.Group.Finset
import Mathlib.Data.Fintype.BigOperators

/-! Sums over a finite family of records of which one is changed. -/
namespace Sums
open Function Finset

variable {ι τ M : Type} [Fintype ι] [DecidableEq ι] [AddCommGroup M]

/-- Changing one member changes the sum by what the member counts for. -/
theorem sum_update (f : τ → M) (g : ι → τ) (i : ι) (x : τ) :
    ∑ j, f (update g i x j) = ∑ j, f (g j) - f (g i) + f x := by
  have hcomp : ∀ j, f (update g i x j) = update (fun j => f (g j)) i (f x) j := by
    intro j
    rcases eq_or_ne j i with rfl | hne
    · simp
    · simp [hne]
  rw [sum_congr rfl fun j _ => hcomp j, sum_update_of_mem (mem_univ i),
    ← add_sum_erase _ _ (mem_univ i), sdiff_singleton_eq_erase]
  rw [add_sub_cancel_left, add_comm]

end Sums
