import Mathlib.Data.Option.Basic

/-!
# Guarded transition systems

A system is an executable partial step function: `step s a` is the successor of `s`
under the action `a`, or `none` when `a` is not enabled in `s`. `ReachableWhen ok`
collects the states of those runs in which every step satisfies the side condition
`ok`; the unconditioned runs are `Reachable`. The main rule is
`ReachableWhen.invariant`, and `ReachableWhen.replay` turns a computed trace into a
reachable state.
-/

namespace Xkblas.Library

/-- A transition system with an executable partial step function. -/
structure TransitionSystem (σ α : Type*) where
  initial : σ → Prop
  step : σ → α → Option σ

namespace TransitionSystem

variable {σ α : Type*} (sys : TransitionSystem σ α)

/-- The states of the runs whose every step meets `ok` in the state it is taken from. -/
inductive ReachableWhen (ok : σ → α → Prop) : σ → Prop where
  | start {s : σ} (hinit : sys.initial s) : ReachableWhen ok s
  | next {s t : σ} {a : α} (hs : ReachableWhen ok s) (hok : ok s a)
      (hstep : sys.step s a = some t) : ReachableWhen ok t

/-- `t` is reached from `s` by steps that meet `ok`. -/
inductive LeadsTo (ok : σ → α → Prop) (s : σ) : σ → Prop where
  | refl : LeadsTo ok s s
  | next {t u : σ} {a : α} (ht : LeadsTo ok s t) (hok : ok t a)
      (hstep : sys.step t a = some u) : LeadsTo ok s u

/-- The states of all runs. -/
abbrev Reachable (s : σ) : Prop :=
  sys.ReachableWhen (fun _ _ => True) s

/-- Execute the actions in order, stopping at the first one that is not enabled or that does
not meet the side condition. -/
def replay (ok : σ → α → Prop) [∀ s a, Decidable (ok s a)] (s : σ) : List α → Option σ
  | [] => some s
  | a :: rest =>
      if ok s a then (sys.step s a).bind fun t => replay ok t rest else none

/-- Execute the actions in order, stopping at the first one that is not enabled. -/
abbrev run (s : σ) (actions : List α) : Option σ :=
  sys.replay (fun _ _ => True) s actions

variable {sys}

/-- A property of the initial states that every conditioned step preserves holds in every
state of the conditioned runs. -/
theorem ReachableWhen.invariant {ok : σ → α → Prop} {inv : σ → Prop}
    (hinit : ∀ s, sys.initial s → inv s)
    (hstep : ∀ s a t, inv s → ok s a → sys.step s a = some t → inv t)
    {s : σ} (h : sys.ReachableWhen ok s) : inv s := by
  induction h with
  | start hs => exact hinit _ hs
  | next _ hok hst ih => exact hstep _ _ _ ih hok hst

/-- The same for a property whose preservation relies on others that hold in the states of the
conditioned runs. -/
theorem ReachableWhen.invariant_of_reachable {ok : σ → α → Prop} {inv : σ → Prop}
    (hinit : ∀ s, sys.initial s → inv s)
    (hstep : ∀ s a t, sys.ReachableWhen ok s → inv s → ok s a → sys.step s a = some t → inv t)
    {s : σ} (h : sys.ReachableWhen ok s) : inv s := by
  induction h with
  | start hs => exact hinit _ hs
  | next hs hok hst ih => exact hstep _ _ _ hs ih hok hst

/-- Weakening the side condition keeps every run. -/
theorem ReachableWhen.mono {ok ok' : σ → α → Prop} (hle : ∀ s a, ok s a → ok' s a)
    {s : σ} (h : sys.ReachableWhen ok s) : sys.ReachableWhen ok' s := by
  induction h with
  | start hs => exact .start hs
  | next _ hok hst ih => exact .next ih (hle _ _ hok) hst

/-- One step that meets the condition. -/
theorem LeadsTo.single {ok : σ → α → Prop} {s t : σ} {a : α} (hok : ok s a)
    (hstep : sys.step s a = some t) : sys.LeadsTo ok s t :=
  .next .refl hok hstep

theorem LeadsTo.trans {ok : σ → α → Prop} {s t u : σ} (hst : sys.LeadsTo ok s t)
    (htu : sys.LeadsTo ok t u) : sys.LeadsTo ok s u := by
  induction htu with
  | refl => exact hst
  | next _ hok hstep ih => exact .next ih hok hstep

theorem LeadsTo.mono {ok ok' : σ → α → Prop} (hle : ∀ s a, ok s a → ok' s a) {s t : σ}
    (h : sys.LeadsTo ok s t) : sys.LeadsTo ok' s t := by
  induction h with
  | refl => exact .refl
  | next _ hok hstep ih => exact .next ih (hle _ _ hok) hstep

/-- A state that a reachable state leads to is reachable. -/
theorem ReachableWhen.leadsTo {ok : σ → α → Prop} {s t : σ} (hs : sys.ReachableWhen ok s)
    (h : sys.LeadsTo ok s t) : sys.ReachableWhen ok t := by
  induction h with
  | refl => exact hs
  | next _ hok hstep ih => exact .next ih hok hstep

/-- If every state of an invariant that misses the goal leads to a state of the invariant
with a smaller measure, every state of the invariant leads to the goal. -/
theorem exists_leadsTo_of_measure {ok : σ → α → Prop} {inv goal : σ → Prop} (measure : σ → Nat)
    (hprogress : ∀ s, inv s → ¬ goal s →
      ∃ t, sys.LeadsTo ok s t ∧ inv t ∧ measure t < measure s)
    {s : σ} (hs : inv s) : ∃ t, sys.LeadsTo ok s t ∧ inv t ∧ goal t := by
  induction hm : measure s using Nat.strongRecOn generalizing s with
  | ind m ih =>
      by_cases hgoal : goal s
      · exact ⟨s, .refl, hs, hgoal⟩
      · obtain ⟨t, hst, ht, hlt⟩ := hprogress s hs hgoal
        obtain ⟨u, htu, hu, hg⟩ := ih (measure t) (hm ▸ hlt) ht rfl
        exact ⟨u, hst.trans htu, hu, hg⟩

/-- A state computed by `replay` from a reachable state is reachable. -/
theorem ReachableWhen.replay {ok : σ → α → Prop} [∀ s a, Decidable (ok s a)]
    {actions : List α} {s t : σ} (hs : sys.ReachableWhen ok s)
    (h : sys.replay ok s actions = some t) : sys.ReachableWhen ok t := by
  induction actions generalizing s with
  | nil =>
      cases h
      exact hs
  | cons a rest ih =>
      simp only [TransitionSystem.replay] at h
      split at h
      case isTrue hok =>
        obtain ⟨u, hu, hrest⟩ := Option.bind_eq_some_iff.mp h
        exact ih (.next hs hok hu) hrest
      case isFalse => cases h

/-- A computed trace takes its own actions only. -/
theorem LeadsTo.of_run {actions : List α} {s t : σ} (h : sys.run s actions = some t) :
    sys.LeadsTo (fun _ a => a ∈ actions) s t := by
  induction actions generalizing s with
  | nil =>
      cases h
      exact .refl
  | cons a rest ih =>
      simp only [TransitionSystem.replay, if_true] at h
      obtain ⟨u, hu, hrest⟩ := Option.bind_eq_some_iff.mp h
      have hfirst : sys.LeadsTo (fun _ b => b ∈ a :: rest) s u := .single List.mem_cons_self hu
      exact hfirst.trans ((ih hrest).mono fun _ b hb => List.mem_cons_of_mem a hb)

end TransitionSystem

end Xkblas.Library
