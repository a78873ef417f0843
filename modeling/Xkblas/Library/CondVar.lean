import Mathlib.Data.Finset.Basic

/-!
# Condition variables

A condition variable has the threads that are blocked in a wait and those that a signal has woken
but that do not have the mutex again yet. A signal wakes one of the blocked threads, if there is
one.
-/

namespace Xkblas.Library

/-- The threads of a condition variable. -/
structure CondVar (θ : Type*) where
  waiting : Finset θ
  signalled : Finset θ
  deriving DecidableEq

namespace CondVar

variable {θ : Type*} [DecidableEq θ] {c c' : CondVar θ} {t w : θ} {woken : Option θ}

/-- No thread waits. -/
def empty : CondVar θ where
  waiting := ∅
  signalled := ∅

/-- A thread that has the mutex blocks. -/
def wait (c : CondVar θ) (t : θ) : CondVar θ where
  waiting := insert t c.waiting
  signalled := c.signalled.erase t

/-- A thread that has the mutex does not wait again. -/
def leave (c : CondVar θ) (t : θ) : CondVar θ :=
  { c with signalled := c.signalled.erase t }

/-- A signal wakes the thread `woken`, or none when none is blocked. -/
def signal (c : CondVar θ) : Option θ → Option (CondVar θ)
  | none => if c.waiting = ∅ then some c else none
  | some w =>
      if w ∈ c.waiting then
        some { waiting := c.waiting.erase w, signalled := insert w c.signalled }
      else none

/-- The threads that are blocked or woken. -/
def Has (c : CondVar θ) (t : θ) : Prop :=
  t ∈ c.waiting ∨ t ∈ c.signalled

theorem has_wait : (c.wait t).Has w ↔ w = t ∨ c.Has w := by
  unfold Has wait
  rw [Finset.mem_insert, Finset.mem_erase]
  by_cases hw : w = t
  · exact iff_of_true (Or.inl (Or.inl hw)) (Or.inl hw)
  · rw [and_iff_right hw, or_assoc]

theorem has_of_leave (h : (c.leave t).Has w) : c.Has w := by
  unfold Has leave at h
  rw [Finset.mem_erase] at h
  exact h.imp_right And.right

/-- A thread that leaves and was not blocked is out. -/
theorem not_has_leave (h : t ∉ c.waiting) : ¬ (c.leave t).Has t := by
  unfold Has leave
  rw [Finset.mem_erase]
  exact not_or.mpr ⟨h, fun hin => hin.1 rfl⟩

theorem has_signal (h : c.signal woken = some c') : c'.Has w ↔ c.Has w := by
  unfold signal at h
  split at h
  · split at h
    · cases h
      exact Iff.rfl
    · cases h
  next v =>
    split at h
    next hin =>
      cases h
      unfold Has
      rw [Finset.mem_erase, Finset.mem_insert]
      by_cases hw : w = v
      · subst hw
        exact iff_of_true (Or.inr (Or.inl rfl)) (Or.inl hin)
      · rw [and_iff_right hw, or_iff_right hw]
    next => cases h

/-- A signal leaves a blocked thread only when it has woken another one. -/
theorem signalled_of_signal (h : c.signal woken = some c') (hwaiting : c'.waiting.Nonempty) :
    c'.signalled.Nonempty := by
  unfold signal at h
  split at h
  · split at h
    next hempty =>
      cases h
      rw [hempty] at hwaiting
      exact absurd hwaiting Finset.not_nonempty_empty
    next => cases h
  · split at h
    · cases h
      exact Finset.insert_nonempty _ _
    · cases h

end CondVar

end Xkblas.Library
