import Mathlib.Order.Bounds.Basic

/-!
# Leading runs

`leading p n i` is the number of indices from `i` on, at most `n`, that satisfy `p` before the
first that does not: what a loop counts that stops at the first failure.
-/

namespace Xkblas.Library

variable {p q : ℕ → Prop} [DecidablePred p] [DecidablePred q] {n i k : ℕ}

/-- The length of the run of `p` from `i` on, at most `n`. -/
def leading (p : ℕ → Prop) [DecidablePred p] : ℕ → ℕ → ℕ
  | 0, _ => 0
  | n + 1, i => if p i then leading p n (i + 1) + 1 else 0

theorem leading_succ_of_pos (h : p i) : leading p (n + 1) i = leading p n (i + 1) + 1 :=
  if_pos h

theorem leading_succ_of_neg (h : ¬ p i) : leading p (n + 1) i = 0 :=
  if_neg h

theorem leading_le (p : ℕ → Prop) [DecidablePred p] (n i : ℕ) : leading p n i ≤ n := by
  induction n generalizing i with
  | zero => exact le_rfl
  | succ n ih =>
      by_cases h : p i
      · rw [leading_succ_of_pos h]
        exact Nat.succ_le_succ (ih (i + 1))
      · rw [leading_succ_of_neg h]
        exact Nat.zero_le _

/-- A run reaches `k` when all indices before `k` satisfy `p`. -/
theorem le_leading_iff (hk : k ≤ n) : k ≤ leading p n i ↔ ∀ j, i ≤ j → j < i + k → p j := by
  induction n generalizing i k with
  | zero =>
      obtain rfl : k = 0 := Nat.le_zero.mp hk
      exact iff_of_true (Nat.zero_le _) fun j hlo hhi => absurd hhi (not_lt.mpr hlo)
  | succ n ih =>
      cases k with
      | zero => exact iff_of_true (Nat.zero_le _) fun j hlo hhi => absurd hhi (not_lt.mpr hlo)
      | succ k =>
          by_cases h : p i
          · rw [leading_succ_of_pos h, Nat.succ_le_succ_iff, ih (Nat.le_of_succ_le_succ hk)]
            constructor
            · intro hrun j hlo hhi
              rcases hlo.eq_or_lt with rfl | hlt
              · exact h
              · exact hrun j hlt (by omega)
            · exact fun hrun j hlo hhi => hrun j (by omega) (by omega)
          · rw [leading_succ_of_neg h]
            exact iff_of_false (by omega) fun hrun => h (hrun i le_rfl (by omega))

/-- The end of the run is the greatest index before which all satisfy `p`. -/
theorem isGreatest_leading (p : ℕ → Prop) [DecidablePred p] (n i : ℕ) :
    IsGreatest {j | i ≤ j ∧ j ≤ i + n ∧ ∀ k, i ≤ k → k < j → p k} (i + leading p n i) := by
  constructor
  · have hle := leading_le p n i
    exact ⟨by omega, by omega, (le_leading_iff hle).mp le_rfl⟩
  · rintro j ⟨hlo, hhi, hrun⟩
    have hreach : j - i ≤ leading p n i :=
      (le_leading_iff (by omega)).mpr fun k hk hk' => hrun k hk (by omega)
    omega

/-- A stronger property has shorter runs. -/
theorem leading_mono (h : ∀ j, p j → q j) : leading p n i ≤ leading q n i :=
  (le_leading_iff (leading_le p n i)).mpr fun j hlo hhi =>
    h j ((le_leading_iff (leading_le p n i)).mp le_rfl j hlo hhi)

end Xkblas.Library
