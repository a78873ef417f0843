import Mathlib.Algebra.BigOperators.Group.List.Basic
import Mathlib.Algebra.GroupWithZero.Nat
import Mathlib.Data.List.Sublists

/-!
# Taking elements until a target is reached

`pick p weight target l` goes through `l` and takes the elements that satisfy `p` while the weight
of those that it has taken is below `target`. Either the target is reached, or every element with
`p` is taken.
-/

namespace Xkblas.Library

variable {α : Type*}

/-- The elements with `p`, from the front, until their weight reaches the target. -/
def pick (p : α → Prop) [DecidablePred p] (weight : α → ℕ) : ℕ → List α → List α
  | _, [] => []
  | target, x :: l =>
      if target = 0 then []
      else if p x then x :: pick p weight (target - weight x) l
      else pick p weight target l

section

variable {p q : α → Prop} [DecidablePred p] [DecidablePred q] {weight weight' : α → ℕ}
  {target : ℕ} {l : List α} {x : α}

/-- What is taken is a prefix of the elements with `p`. -/
theorem pick_isPrefix (target : ℕ) (l : List α) : pick p weight target l <+: l.filter p := by
  induction l generalizing target with
  | nil => exact List.nil_prefix
  | cons x l ih =>
      unfold pick
      by_cases hzero : target = 0
      · rw [if_pos hzero]
        exact List.nil_prefix
      · rw [if_neg hzero]
        by_cases hp : p x
        · rw [if_pos hp, List.filter_cons_of_pos (by simpa using hp)]
          exact (List.prefix_cons_inj x).mpr (ih _)
        · rw [if_neg hp, List.filter_cons_of_neg (by simpa using hp)]
          exact ih target

theorem of_mem_pick (h : x ∈ pick p weight target l) : x ∈ l ∧ p x := by
  have hmem := (pick_isPrefix target l).subset h
  rw [List.mem_filter, decide_eq_true_eq] at hmem
  exact hmem

/-- Only the elements of the list matter. -/
theorem pick_congr (hp : ∀ x ∈ l, p x ↔ q x) (hweight : ∀ x ∈ l, weight x = weight' x) :
    pick p weight target l = pick q weight' target l := by
  induction l generalizing target with
  | nil => rfl
  | cons x l ih =>
      have hrest : ∀ target, pick p weight target l = pick q weight' target l := fun target =>
        ih (fun y hy => hp y (List.mem_cons_of_mem _ hy))
          fun y hy => hweight y (List.mem_cons_of_mem _ hy)
      unfold pick
      rw [hweight x List.mem_cons_self, hrest, hrest]
      simp only [hp x List.mem_cons_self]

end

end Xkblas.Library
