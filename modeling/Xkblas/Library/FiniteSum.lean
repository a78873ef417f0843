import Mathlib.Algebra.BigOperators.Intervals
import Mathlib.Algebra.Order.BigOperators.Group.Finset

/-!
# Sums over the parties of a system

A shared counter or a measure of a system of parties is a sum over the parties. A step of one
party changes one term; `sum_add_of_eq_off` relates the sums before and after.
-/

namespace Xkblas.Library

open Finset

/-- Two families that agree off `d` have sums that differ by their values at `d`. -/
theorem sum_add_of_eq_off {ι M : Type*} [DecidableEq ι] [AddCommMonoid M] {parties : Finset ι}
    {u v : ι → M} {d : ι} (hd : d ∈ parties) (hoff : ∀ e ∈ parties, e ≠ d → u e = v e) :
    ∑ e ∈ parties, u e + v d = ∑ e ∈ parties, v e + u d := by
  have hrest : ∑ e ∈ parties.erase d, u e = ∑ e ∈ parties.erase d, v e := by
    refine sum_congr rfl ?_
    intro e he
    obtain ⟨hed, he⟩ := mem_erase.mp he
    exact hoff e he hed
  rw [← add_sum_erase parties u hd, ← add_sum_erase parties v hd, hrest]
  ac_rfl

/-- The same for numbered parties. -/
theorem sum_range_add_of_eq_off {M : Type*} [AddCommMonoid M] {u v : Nat → M} {n d : Nat}
    (hd : d < n) (hoff : ∀ e < n, e ≠ d → u e = v e) :
    ∑ e ∈ range n, u e + v d = ∑ e ∈ range n, v e + u d :=
  sum_add_of_eq_off (mem_range.mpr hd) fun e he => hoff e (mem_range.mp he)

end Xkblas.Library
