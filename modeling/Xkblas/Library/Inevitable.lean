import Mathlib.Data.Nat.Notation
import Xkblas.Library.TransitionSystem

/-!
# What a system does by itself

A set of the actions of a system belongs to the system itself, the others to its users. A goal is
inevitable in a state when every run of actions of the system reaches it, whichever is taken in
each state, and the system does not stop before. The rule is a rank that every step lowers.
-/

namespace Xkblas.Library

namespace TransitionSystem

variable {σ α : Type*} (sys : TransitionSystem σ α)

/-- Every run of steps in `own` reaches the goal, and none stops before. -/
inductive Inevitable (own : α → Prop) (goal : σ → Prop) : σ → Prop where
  | here {s : σ} (hgoal : goal s) : Inevitable own goal s
  | next {s : σ} (henabled : ∃ a t, own a ∧ sys.step s a = some t)
      (hall : ∀ a t, own a → sys.step s a = some t → Inevitable own goal t) :
      Inevitable own goal s

variable {sys} {own : α → Prop} {goal : σ → Prop} {s : σ}

/-- A goal that some step can reach or come closer to, and that every step reaches or comes closer
to, is inevitable. -/
theorem Inevitable.of_rank {ranked : ℕ → σ → Prop}
    (henabled : ∀ n s, ranked n s → ∃ a t, own a ∧ sys.step s a = some t)
    (hstep : ∀ n s a t, ranked n s → own a → sys.step s a = some t →
      goal t ∨ ∃ m < n, ranked m t)
    {n : ℕ} (hs : ranked n s) : sys.Inevitable own goal s := by
  induction n using Nat.strongRecOn generalizing s with
  | ind n ih =>
      refine .next (henabled n s hs) fun a t ha ht => ?_
      rcases hstep n s a t hs ha ht with hgoal | ⟨m, hm, hranked⟩
      · exact .here hgoal
      · exact ih m hm hranked

theorem Inevitable.mono {goal' : σ → Prop} (h : sys.Inevitable own goal s)
    (hle : ∀ t, goal t → goal' t) : sys.Inevitable own goal' s := by
  induction h with
  | here hgoal => exact .here (hle _ hgoal)
  | next henabled _ ih => exact .next henabled ih

/-- What the steps of the system preserve still holds when it reaches the goal. -/
theorem Inevitable.and_invariant {inv : σ → Prop} (h : sys.Inevitable own goal s)
    (hinv : ∀ s a t, inv s → own a → sys.step s a = some t → inv t) (hs : inv s) :
    sys.Inevitable own (fun t => goal t ∧ inv t) s := by
  induction h with
  | here hgoal => exact .here ⟨hgoal, hs⟩
  | next henabled _ ih =>
      exact .next henabled fun a t ha ht => ih a t ha ht (hinv _ a t hs ha ht)

end TransitionSystem

end Xkblas.Library
