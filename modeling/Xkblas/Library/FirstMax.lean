import Mathlib.Algebra.Order.Ring.Nat

/-!
# The first maximum

`firstMax f n` is the index that a loop over the first `n + 1` values finds when it replaces its
candidate by a larger value only.
-/

namespace Xkblas.Library

variable {f : ℕ → ℕ} {i n : ℕ}

/-- The first index up to `n` with the largest value. -/
def firstMax (f : ℕ → ℕ) : ℕ → ℕ
  | 0 => 0
  | n + 1 => if f (firstMax f n) < f (n + 1) then n + 1 else firstMax f n

/-- A value that no other up to `n` exceeds, and that those before it do not reach. -/
structure IsFirstMax (f : ℕ → ℕ) (n i : ℕ) : Prop where
  le : i ≤ n
  max : ∀ j ≤ n, f j ≤ f i
  first : ∀ j < i, f j < f i

theorem firstMax_spec (f : ℕ → ℕ) (n : ℕ) : IsFirstMax f n (firstMax f n) := by
  induction n with
  | zero =>
      refine ⟨Nat.le_refl 0, fun j hj => ?_, fun j hj => absurd hj (Nat.not_lt_zero j)⟩
      rw [Nat.le_zero.mp hj]
      exact Nat.le_refl _
  | succ n ih =>
      unfold firstMax
      by_cases hlt : f (firstMax f n) < f (n + 1)
      · rw [if_pos hlt]
        refine ⟨Nat.le_refl _, fun j hj => ?_, fun j hj => ?_⟩
        · rcases Nat.le_or_eq_of_le_succ hj with hj | rfl
          · exact Nat.le_of_lt (Nat.lt_of_le_of_lt (ih.max j hj) hlt)
          · exact Nat.le_refl _
        · exact Nat.lt_of_le_of_lt (ih.max j (Nat.le_of_lt_succ hj)) hlt
      · rw [if_neg hlt]
        refine ⟨Nat.le_succ_of_le ih.le, fun j hj => ?_, ih.first⟩
        rcases Nat.le_or_eq_of_le_succ hj with hj | rfl
        · exact ih.max j hj
        · exact Nat.le_of_not_lt hlt

/-- There is only one. -/
theorem IsFirstMax.eq {j : ℕ} (hi : IsFirstMax f n i) (hj : IsFirstMax f n j) : i = j := by
  rcases Nat.lt_trichotomy i j with hlt | heq | hgt
  · exact absurd (hj.first i hlt) (Nat.not_lt.mpr (hi.max j hj.le))
  · exact heq
  · exact absurd (hi.first j hgt) (Nat.not_lt.mpr (hj.max i hi.le))

theorem firstMax_eq_iff : firstMax f n = i ↔ IsFirstMax f n i := by
  constructor
  · intro heq
    rw [← heq]
    exact firstMax_spec f n
  · exact fun hi => (firstMax_spec f n).eq hi

/-- All values are 0 when the maximum is. -/
theorem firstMax_eq_zero_iff : f (firstMax f n) = 0 ↔ ∀ j ≤ n, f j = 0 := by
  constructor
  · intro hzero j hj
    have hle := (firstMax_spec f n).max j hj
    omega
  · exact fun hzero => hzero _ (firstMax_spec f n).le

end Xkblas.Library
