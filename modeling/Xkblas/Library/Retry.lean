import Mathlib.Data.Option.Basic

/-!
# Loops that try until they succeed

A round of such a loop gives a result, or a state for the next round, or it fails for good. The loop
is run with a bound on its rounds; it ends when some bound is enough. `afterRounds` is the state
after a number of rounds without a result, and the loop ends exactly when a round that is reached so
gives a result.
-/

namespace Xkblas.Library

variable {σ ρ : Type*} (round : σ → Option (σ ⊕ ρ))

/-- The loop with at most `fuel` rounds. -/
def retry : Nat → σ → Option ρ
  | 0, _ => none
  | fuel + 1, s =>
      match round s with
      | none => none
      | some (.inr r) => some r
      | some (.inl t) => retry fuel t

/-- The state after `k` rounds without a result. -/
def afterRounds : Nat → σ → Option σ
  | 0, s => some s
  | k + 1, s =>
      match round s with
      | some (.inl t) => afterRounds k t
      | _ => none

variable {round} {s t : σ} {r : ρ}

theorem retry_next (h : round s = some (.inl t)) (fuel : Nat) :
    retry round (fuel + 1) s = retry round fuel t := by
  rw [retry, h]

theorem retry_done (h : round s = some (.inr r)) (fuel : Nat) :
    retry round (fuel + 1) s = some r := by
  rw [retry, h]

theorem afterRounds_next (h : round s = some (.inl t)) (k : Nat) :
    afterRounds round (k + 1) s = afterRounds round k t := by
  rw [afterRounds, h]

/-- The rounds before the one with the result. -/
theorem retry_eq_some_iff {fuel : Nat} :
    retry round fuel s = some r ↔
      ∃ k < fuel, ∃ t, afterRounds round k s = some t ∧ round t = some (.inr r) := by
  induction fuel generalizing s with
  | zero => exact ⟨nofun, fun ⟨_, hk, _⟩ => absurd hk (Nat.not_lt_zero _)⟩
  | succ fuel ih =>
      cases hround : round s with
      | none =>
          rw [retry, hround]
          refine ⟨nofun, fun ⟨k, _, t, ht, hr⟩ => ?_⟩
          cases k with
          | zero =>
              cases ht
              rw [hround] at hr
              cases hr
          | succ k =>
              rw [afterRounds, hround] at ht
              cases ht
      | some next =>
          cases next with
          | inr r' =>
              rw [retry_done hround]
              constructor
              · intro h
                cases h
                exact ⟨0, Nat.succ_pos _, s, rfl, hround⟩
              · intro ⟨k, _, t, ht, hr⟩
                cases k with
                | zero =>
                    cases ht
                    rw [hround] at hr
                    cases hr
                    rfl
                | succ k =>
                    rw [afterRounds, hround] at ht
                    cases ht
          | inl t =>
              rw [retry_next hround, ih]
              constructor
              · intro ⟨k, hk, u, hu, hr⟩
                exact ⟨k + 1, Nat.succ_lt_succ hk, u, (afterRounds_next hround k).trans hu, hr⟩
              · intro ⟨k, hk, u, hu, hr⟩
                cases k with
                | zero =>
                    cases hu
                    rw [hround] at hr
                    cases hr
                | succ k =>
                    rw [afterRounds_next hround] at hu
                    exact ⟨k, Nat.lt_of_succ_lt_succ hk, u, hu, hr⟩

/-- The loop ends when a round that it reaches gives a result. -/
theorem exists_retry_iff :
    (∃ fuel, retry round fuel s = some r) ↔
      ∃ k t, afterRounds round k s = some t ∧ round t = some (.inr r) := by
  constructor
  · intro ⟨fuel, h⟩
    obtain ⟨k, _, t, ht⟩ := retry_eq_some_iff.mp h
    exact ⟨k, t, ht⟩
  · intro ⟨k, t, ht⟩
    exact ⟨k + 1, retry_eq_some_iff.mpr ⟨k, Nat.lt_succ_self k, t, ht⟩⟩

/-- What every round without a result keeps holds after the rounds. -/
theorem afterRounds_invariant (inv : σ → Prop)
    (hround : ∀ s t, inv s → round s = some (.inl t) → inv t) {k : Nat} (hs : inv s)
    (h : afterRounds round k s = some t) : inv t := by
  induction k generalizing s with
  | zero =>
      cases h
      exact hs
  | succ k ih =>
      rw [afterRounds] at h
      split at h
      case h_1 u hu => exact ih (hround s u hs hu) h
      case h_2 => cases h

end Xkblas.Library
