import Mathlib.Logic.Function.Basic
import Xkblas.Library.KeyedList

/-!
# Machines with an entry for each key

A program reads a list of events. An event has at most one key, and it changes the entry of this key
in a table and gives out some records. What happens to an entry, and the records of its key, are
those of a run on this entry alone over the events of the key (`KeyedMachine.entry_of_run`), and the
whole run is defined when these runs are (`KeyedMachine.exists_run`). So the order of events of
different keys does not matter.
-/

namespace Xkblas.Library

variable {κ ε σ ρ α : Type*}

/-- The key of an event, if it has one, and what the event does to the entry of this key, with the
records that it gives out. Without a value the step is undefined. -/
structure KeyedMachine (κ ε σ ρ : Type*) where
  key : ε → Option κ
  step : ε → σ → Option (σ × List ρ)

namespace KeyedMachine

variable (M : KeyedMachine κ ε σ ρ)

/-- The run on one entry over events of its key. -/
def entry : σ → List ε → Option (σ × List ρ)
  | x, [] => some (x, [])
  | x, e :: es => (M.step e x).bind fun p => (entry p.1 es).map fun q => (q.1, p.2 ++ q.2)

section Entry

variable {M}

theorem entry_cons {e : ε} {es : List ε} {x y z : σ} {rs rs' : List ρ}
    (hstep : M.step e x = some (y, rs)) (hrun : M.entry y es = some (z, rs')) :
    M.entry x (e :: es) = some (z, rs ++ rs') := by
  unfold entry
  rw [hstep]
  show (M.entry y es).map _ = _
  rw [hrun]
  rfl

/-- A step without a record. -/
theorem entry_silent {e : ε} {es : List ε} {x y z : σ} {rs : List ρ}
    (hstep : M.step e x = some (y, [])) (hrun : M.entry y es = some (z, rs)) :
    M.entry x (e :: es) = some (z, rs) :=
  entry_cons hstep hrun

theorem entry_singleton {e : ε} {x y : σ} {rs : List ρ} (hstep : M.step e x = some (y, rs)) :
    M.entry x [e] = some (y, rs) := by
  rw [entry_cons hstep (show M.entry y [] = some (y, []) from rfl), List.append_nil]

theorem of_entry_cons {e : ε} {es : List ε} {x z : σ} {out : List ρ}
    (h : M.entry x (e :: es) = some (z, out)) :
    ∃ y rs rs', M.step e x = some (y, rs) ∧ M.entry y es = some (z, rs') ∧ out = rs ++ rs' := by
  unfold entry at h
  obtain ⟨⟨y, rs⟩, hstep, h⟩ := Option.bind_eq_some_iff.mp h
  obtain ⟨⟨z', rs'⟩, hrun, heq⟩ := Option.map_eq_some_iff.mp h
  obtain ⟨rfl, rfl⟩ := Prod.mk.inj heq
  exact ⟨y, rs, rs', hstep, hrun, rfl⟩

theorem entry_append {es es' : List ε} {x y z : σ} {rs rs' : List ρ}
    (h : M.entry x es = some (y, rs)) (h' : M.entry y es' = some (z, rs')) :
    M.entry x (es ++ es') = some (z, rs ++ rs') := by
  induction es generalizing x rs with
  | nil =>
      obtain ⟨rfl, rfl⟩ := Prod.mk.inj (Option.some.inj h)
      exact h'
  | cons e es ih =>
      obtain ⟨w, rs₁, rs₂, hstep, hrun, rfl⟩ := of_entry_cons h
      rw [List.append_assoc]
      exact entry_cons hstep (ih hrun)

/-- Steps without records, from entries for which `P` holds. -/
theorem exists_entry_silent {P : σ → Prop} {es : List ε}
    (h : ∀ e ∈ es, ∀ x, P x → ∃ y, P y ∧ M.step e x = some (y, [])) {x : σ} (hx : P x) :
    ∃ y, M.entry x es = some (y, []) := by
  induction es generalizing x with
  | nil => exact ⟨x, rfl⟩
  | cons e es ih =>
      obtain ⟨he, hes⟩ := List.forall_mem_cons.mp h
      obtain ⟨y, hy, hstep⟩ := he x hx
      obtain ⟨z, hz⟩ := ih hes hy
      exact ⟨z, entry_silent hstep hz⟩

/-- Phases that each start and end with the entry `x`. -/
theorem entry_flatMap {phases : List α} {events : α → List ε} {records : α → List ρ} {x : σ}
    (h : ∀ a ∈ phases, M.entry x (events a) = some (x, records a)) :
    M.entry x (phases.flatMap events) = some (x, phases.flatMap records) := by
  induction phases with
  | nil => rfl
  | cons a phases ih =>
      have ha := h a List.mem_cons_self
      exact entry_append ha (ih fun b hb => h b (List.mem_cons_of_mem a hb))

end Entry

section Table

variable [DecidableEq κ]

/-- The run on the table. A record stands with the key of its event. -/
def run : (κ → σ) → List ε → Option ((κ → σ) × List (κ × ρ))
  | t, [] => some (t, [])
  | t, e :: es =>
      match M.key e with
      | none => run t es
      | some k => (M.step e (t k)).bind fun p =>
          (run (Function.update t k p.1) es).map fun q => (q.1, p.2.map (k, ·) ++ q.2)

/-- The events of a key. -/
def about (k : κ) (es : List ε) : List ε :=
  es.filter fun e => M.key e = some k

variable {M} {k : κ} {e : ε} {es : List ε} {t t' : κ → σ} {out : List (κ × ρ)}

theorem about_cons_of_key (hkey : M.key e = some k) : M.about k (e :: es) = e :: M.about k es :=
  List.filter_cons_of_pos (decide_eq_true hkey)

theorem about_cons_of_ne (hkey : M.key e ≠ some k) : M.about k (e :: es) = M.about k es := by
  unfold about
  rw [List.filter_cons_of_neg]
  rw [decide_eq_true_eq]
  exact hkey

/-- An event without a key is passed over. -/
theorem run_cons_none (hkey : M.key e = none) : M.run t (e :: es) = M.run t es := by
  show (match M.key e with | none => M.run t es | some k => _) = _
  rw [hkey]

theorem run_cons_some {y : σ} {rs : List ρ} (hkey : M.key e = some k)
    (hstep : M.step e (t k) = some (y, rs))
    (hrun : M.run (Function.update t k y) es = some (t', out)) :
    M.run t (e :: es) = some (t', rs.map (k, ·) ++ out) := by
  show (match M.key e with | none => M.run t es | some k => _) = _
  rw [hkey]
  show (M.step e (t k)).bind _ = _
  rw [hstep]
  show (M.run (Function.update t k y) es).map _ = _
  rw [hrun]
  rfl

theorem of_run_cons_some (hkey : M.key e = some k) (h : M.run t (e :: es) = some (t', out)) :
    ∃ y rs out', M.step e (t k) = some (y, rs) ∧
      M.run (Function.update t k y) es = some (t', out') ∧ out = rs.map (k, ·) ++ out' := by
  have h : (match M.key e with | none => M.run t es | some k => _) = some (t', out) := h
  rw [hkey] at h
  obtain ⟨⟨y, rs⟩, hstep, h⟩ := Option.bind_eq_some_iff.mp h
  obtain ⟨⟨t₁, out₁⟩, hrun, heq⟩ := Option.map_eq_some_iff.mp h
  obtain ⟨rfl, rfl⟩ := Prod.mk.inj heq
  exact ⟨y, rs, out₁, hstep, hrun, rfl⟩

/-- The run on one event, in the forms in which a step of a program uses it. -/
theorem run_singleton_none (hkey : M.key e = none) : M.run t [e] = some (t, []) :=
  run_cons_none hkey

theorem run_singleton_some {y : σ} {rs : List ρ} (hkey : M.key e = some k)
    (hstep : M.step e (t k) = some (y, rs)) :
    M.run t [e] = some (Function.update t k y, rs.map (k, ·)) := by
  have hnil : M.run (Function.update t k y) [] = some (Function.update t k y, []) := rfl
  rw [run_cons_some hkey hstep hnil, List.append_nil]

/-- A run does its first event and then the other ones. -/
theorem of_run_cons (h : M.run t (e :: es) = some (t', out)) :
    ∃ t₁ out₁ out₂, M.run t [e] = some (t₁, out₁) ∧ M.run t₁ es = some (t', out₂) ∧
      out = out₁ ++ out₂ := by
  cases hkey : M.key e with
  | none =>
      rw [run_cons_none hkey] at h
      exact ⟨t, [], out, run_singleton_none hkey, h, rfl⟩
  | some k =>
      obtain ⟨y, rs, out', hstep, hrun, rfl⟩ := of_run_cons_some hkey h
      exact ⟨_, _, out', run_singleton_some hkey hstep, hrun, rfl⟩

/-- An entry and its records are those of a run on this entry alone. -/
theorem entry_of_run (h : M.run t es = some (t', out)) (k : κ) :
    M.entry (t k) (M.about k es) = some (t' k, recordsOf k out) := by
  induction es generalizing t out with
  | nil =>
      obtain ⟨rfl, rfl⟩ := Prod.mk.inj (Option.some.inj h)
      rfl
  | cons e es ih =>
      cases hkey : M.key e with
      | none =>
          rw [run_cons_none hkey] at h
          rw [about_cons_of_ne (by rw [hkey]; exact Option.some_ne_none k |>.symm)]
          exact ih h
      | some k' =>
          obtain ⟨y, rs, out', hstep, hrun, rfl⟩ := of_run_cons_some hkey h
          have hrest := ih hrun
          rw [recordsOf_append]
          by_cases hk : k' = k
          · subst hk
            rw [Function.update_self] at hrest
            rw [about_cons_of_key hkey, recordsOf_map_self]
            exact entry_cons hstep hrest
          · rw [Function.update_of_ne (Ne.symm hk)] at hrest
            rw [about_cons_of_ne (by rw [hkey]; exact fun heq => hk (Option.some.inj heq)),
              recordsOf_map_of_ne hk, List.nil_append]
            exact hrest

/-- The run is defined when the run on each entry is. -/
theorem exists_run (h : ∀ k, ∃ p, M.entry (t k) (M.about k es) = some p) :
    ∃ t' out, M.run t es = some (t', out) := by
  induction es generalizing t with
  | nil => exact ⟨t, [], rfl⟩
  | cons e es ih =>
      cases hkey : M.key e with
      | none =>
          rw [run_cons_none hkey]
          refine ih fun k => ?_
          obtain ⟨p, hp⟩ := h k
          rw [about_cons_of_ne (by rw [hkey]; exact Option.some_ne_none k |>.symm)] at hp
          exact ⟨p, hp⟩
      | some k =>
          obtain ⟨⟨z, rs⟩, hk⟩ := h k
          rw [about_cons_of_key hkey] at hk
          obtain ⟨y, rs₁, rs₂, hstep, hentry, _⟩ := of_entry_cons hk
          obtain ⟨t', out, hrun⟩ := ih (t := Function.update t k y) fun k' => by
            by_cases hk' : k' = k
            · subst hk'
              rw [Function.update_self]
              exact ⟨_, hentry⟩
            · obtain ⟨p, hp⟩ := h k'
              rw [about_cons_of_ne
                (by rw [hkey]; exact fun heq => hk' (Option.some.inj heq).symm)] at hp
              rw [Function.update_of_ne hk']
              exact ⟨p, hp⟩
          exact ⟨t', _, run_cons_some hkey hstep hrun⟩

end Table

end KeyedMachine

end Xkblas.Library
