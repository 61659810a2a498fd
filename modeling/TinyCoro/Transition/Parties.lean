import Mathlib.Algebra.BigOperators.Group.Finset.Basic
import Mathlib.Data.Fintype.Basic

/-! Sums over the parties of a system, one of which moves. -/
namespace TinyCoro.Transition
open Finset
variable {ι M : Type} [Fintype ι] [DecidableEq ι] [AddCommMonoid M]

/-- One party gives up `d` and gets `e`, and the others stay. -/
theorem sum_move {f g : ι → M} {i : ι} {d e : M} (hrest : ∀ x, x ≠ i → g x = f x) (hi : g i + d = f i + e) :
    ∑ x, g x + d = ∑ x, f x + e := by
  have herase : ∑ x ∈ univ.erase i, g x = ∑ x ∈ univ.erase i, f x :=
    sum_congr rfl fun x hx => hrest x (ne_of_mem_erase hx)
  calc ∑ x, g x + d = g i + d + ∑ x ∈ univ.erase i, g x := by
        rw [← add_sum_erase univ g (mem_univ i), add_right_comm]
    _ = f i + e + ∑ x ∈ univ.erase i, f x := by rw [hi, herase]
    _ = ∑ x, f x + e := by rw [← add_sum_erase univ f (mem_univ i), add_right_comm]

end TinyCoro.Transition
