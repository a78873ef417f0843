import Mathlib.Algebra.Order.BigOperators.Group.Finset
import Mathlib.Logic.Relation
import Xkblas.Memory.ReplicaCallbacksInvariant
import Xkblas.Library.FinLiteral

/-!
# Every callback is called once

A state without copies, without threads that emit one and without callbacks that run has no
replica under transfer, because the replicas that wait for others have increasing ranks. Every
state leads to such a state by the steps that end the copies, so every callback is called.
-/

namespace Xkblas.Memory.ReplicaCallbacks

open Library
open scoped Library.FinLiteral
open Dsm (Lid host)

variable {τ : Type*} {n : Nat}

/-! ## No destination is left waiting -/

section Waiting

variable {s s' : State τ n}

/-- No copy is in flight, no thread is about to emit one, and none has arrived whose callbacks
are still to run. -/
structure State.Quiet (s : State τ n) : Prop where
  copies : s.copies = []
  thread : ∀ t k src, s.thread t ≠ .emitting k src
  receiving : ∀ l, s.receiving l = false

/-- A replica under transfer without a copy waits for another one. -/
theorem Inv.exists_forwards (h : Inv s) (hs : s.Quiet) {l : Lid n} (hl : l ∈ s.xfer) :
    ∃ l' ∈ s.xfer, s.Forwards l' l := by
  obtain ⟨i, hi⟩ := (h.carriers.mem l).mp hl
  cases i with
  | copies =>
      replace hi : l ∈ s.copies.map Copy.dest := hi
      rw [hs.copies] at hi
      cases hi
  | thread t =>
      rw [carried_of_not_emitting (hs.thread t)] at hi
      cases hi
  | replica l' =>
      obtain ⟨c, hc, htarget⟩ := List.mem_filterMap.mp hi
      cases c with
      | user k => cases htarget
      | resend src dest =>
          obtain rfl := Option.some.inj htarget
          refine ⟨l', (h.live l' (List.ne_nil_of_mem hc)).resolve_right ?_, src, hc⟩
          rw [hs.receiving l']
          exact Bool.false_ne_true

theorem Inv.xfer_eq_empty (h : Inv s) (hs : s.Quiet) : s.xfer = ∅ := by
  obtain ⟨rank, hrank⟩ := h.ranked
  have hnot : ∀ m l, rank l = m → l ∉ s.xfer := by
    intro m
    induction m using Nat.strongRecOn with
    | ind m ih =>
        intro l hm hl
        obtain ⟨l', hl', hforwards⟩ := h.exists_forwards hs hl
        exact ih (rank l') (hm ▸ hrank l' l hforwards) l' rfl hl'
  exact Finset.eq_empty_of_forall_notMem fun l => hnot (rank l) l rfl

theorem Inv.callbacks_eq_nil_of_quiet (h : Inv s) (hs : s.Quiet) (l : Lid n) :
    s.callbacks l = [] := by
  refine h.callbacks_eq_nil ?_ (hs.receiving l)
  rw [h.xfer_eq_empty hs]
  exact Finset.notMem_empty l

/-- A fetch that has left its callback has been called back. -/
theorem Inv.called_of_quiet (h : Inv s) (hs : s.Quiet) {k : Nat} (hk : s.Registered k) :
    k ∈ s.called.map Prod.fst := by
  obtain ⟨i, hi⟩ := (h.fetches.mem k).mp hk
  cases i with
  | none => exact hi
  | some l =>
      replace hi : k ∈ (s.callbacks l).filterMap Callback.fetch? := hi
      rw [h.callbacks_eq_nil_of_quiet hs l] at hi
      cases hi

/-- What is left to run on a replica. -/
def State.load (s : State τ n) (l : Lid n) : Nat :=
  (s.callbacks l).length + (s.receiving l).toNat

/-- What is left to do without a new fetch. -/
def State.work (s : State τ n) : Nat :=
  2 * s.xfer.card + ∑ l, s.load l

/-- The callback at the head of the list of a replica can run. -/
theorem Inv.runCallback_enabled (h : Inv s) {l : Lid n} {c : Callback n}
    {slot : Lid n → Option (Callback n)} {rest : Lid n → List (Callback n)}
    (hl : s.callbacks l = c :: ({ s with slot := slot, rest := rest } : State τ n).callbacks l)
    (hother : ∀ l' ≠ l, slot l' = s.slot l' ∧ rest l' = s.rest l') :
    ∃ s', ({ s with slot := slot, rest := rest } : State τ n).runCallback c = some s' ∧
      s'.xfer = s.xfer ∧ (∀ l' ≠ l, s'.load l' = s.load l') ∧ s'.load l < s.load l := by
  have hload : ∀ l' ≠ l,
      ((slot l').toList ++ rest l').length + (s.receiving l').toNat = s.load l' := by
    intro l' hl'
    rw [(hother l' hl').1, (hother l' hl').2]
    rfl
  have hless : ((slot l).toList ++ rest l).length + (s.receiving l).toNat < s.load l := by
    refine Nat.add_lt_add_right ?_ _
    rw [hl]
    exact Nat.lt_succ_self _
  cases c with
  | user k => exact ⟨_, rfl, rfl, hload, hless⟩
  | resend src dest =>
      have hdest : dest ∈ s.xfer := by
        refine h.mem_xfer_of_forwards (l := l) ⟨src, ?_⟩
        rw [hl]
        exact List.mem_cons_self
      exact ⟨_, if_neg (h.disjoint dest hdest), rfl, hload, hless⟩

variable [DecidableEq τ]

/-- A completed copy can run the next callback of its destination: what is sent on has not
been received. -/
theorem Inv.callback_enabled (h : Inv s) {l : Lid n} (hrec : s.receiving l = true) :
    ∃ s', step s (.callback l) = some s' ∧ s'.xfer = s.xfer ∧
      (∀ l' ≠ l, s'.load l' = s.load l') ∧ s'.load l < s.load l := by
  simp only [step, hrec, if_true]
  cases hslot : s.slot l with
  | some c =>
      refine h.runCallback_enabled ?_ fun l' hl' => ⟨Function.update_of_ne hl' _ _, rfl⟩
      show (s.slot l).toList ++ s.rest l =
        c :: ((Function.update s.slot l none l).toList ++ s.rest l)
      rw [hslot, Function.update_self]
      rfl
  | none =>
      cases hrest : s.rest l with
      | cons c rest =>
          refine h.runCallback_enabled ?_ fun l' hl' => ⟨rfl, Function.update_of_ne hl' _ _⟩
          show (s.slot l).toList ++ s.rest l =
            c :: ((s.slot l).toList ++ Function.update s.rest l rest l)
          rw [hslot, hrest, Function.update_self]
          rfl
      | nil =>
          refine ⟨_, rfl, rfl, fun l' hl' => ?_, ?_⟩
          · show _ + (Function.update s.receiving l false l').toNat = _
            rw [Function.update_of_ne hl']
            rfl
          · show _ + (Function.update s.receiving l false l).toNat < _ + (s.receiving l).toNat
            rw [Function.update_self, hrec]
            exact Nat.lt_succ_self _

/-- The steps that end the copies, without a step of a new fetch. -/
def Action.Completes : Action τ n → Prop
  | .emit _ | .receive _ | .callback _ => True
  | .fetch _ _ | .choose _ _ | .lock _ => False

omit [DecidableEq τ] in
/-- A callback that runs does not change the fetches. -/
theorem registered_runCallback {c : Callback n} (hstep : s.runCallback c = some s') {k : Nat}
    (hk : s.Registered k) : s'.Registered k := by
  cases c with
  | user j =>
      cases hstep
      exact hk
  | resend src dest =>
      simp only [State.runCallback] at hstep
      split at hstep
      case isTrue => cases hstep
      case isFalse =>
        cases hstep
        exact hk

/-- A fetch that has left its callback does not take it back. -/
theorem registered_step {a : Action τ n} (ha : a.Completes) (hstep : step s a = some s')
    {k : Nat} (hk : s.Registered k) : s'.Registered k := by
  cases a with
  | fetch t dest | choose t src | lock t => exact ha.elim
  | emit t =>
      simp only [step] at hstep
      split at hstep
      case h_2 => cases hstep
      case h_1 j src hthread =>
        cases hstep
        exact (Set.ext_iff.mp (registered_emit hthread) k).mpr hk
  | receive i =>
      simp only [step] at hstep
      split at hstep
      case h_1 => cases hstep
      case h_2 c hc =>
        split at hstep
        case isFalse => cases hstep
        case isTrue =>
          cases hstep
          exact hk
  | callback l =>
      simp only [step] at hstep
      split at hstep
      case isFalse => cases hstep
      case isTrue =>
        split at hstep
        case h_1 => exact registered_runCallback hstep hk
        case h_2 =>
          split at hstep
          case h_1 => exact registered_runCallback hstep hk
          case h_2 =>
            cases hstep
            exact hk

/-- Running callbacks is progress. -/
theorem Inv.work_callback (h : Inv s) {l : Lid n} (hrec : s.receiving l = true) :
    ∃ s', step s (.callback l) = some s' ∧ s'.work < s.work := by
  obtain ⟨s', hstep, hxfer, hother, hl⟩ := h.callback_enabled hrec
  refine ⟨s', hstep, ?_⟩
  unfold State.work
  rw [hxfer]
  refine Nat.add_lt_add_left (Finset.sum_lt_sum (fun l' _ => ?_) ⟨l, Finset.mem_univ l, hl⟩) _
  by_cases hl' : l' = l
  · subst hl'
    exact hl.le
  · exact (hother l' hl').le

/-- The end of a copy is progress: its destination is no longer under transfer. -/
theorem Inv.work_receive (h : Inv s) {c : Copy n} {copies : List (Copy n)}
    (hcopies : s.copies = c :: copies) (hfree : s.receiving c.dest = false) :
    ∃ s', step s (.receive 0) = some s' ∧ s'.work < s.work := by
  have hxfer : c.dest ∈ s.xfer := by
    refine (h.carriers.mem _).mpr ⟨.copies, List.mem_map.mpr ⟨c, ?_, rfl⟩⟩
    rw [hcopies]
    exact List.mem_cons_self
  let s' : State τ n := { s with copies := copies }.markReceived c.dest
  have hother : ∑ l ∈ Finset.univ.erase c.dest, s'.load l =
      ∑ l ∈ Finset.univ.erase c.dest, s.load l := by
    refine Finset.sum_congr rfl fun l hl => ?_
    show _ + (s'.receiving l).toNat = _
    rw [State.receiving_markReceived_of_ne (Finset.ne_of_mem_erase hl)]
    rfl
  have hdest : s'.load c.dest = s.load c.dest + 1 := by
    show (s.callbacks c.dest).length + (s'.receiving c.dest).toNat =
      (s.callbacks c.dest).length + (s.receiving c.dest).toNat + 1
    rw [State.receiving_markReceived_self, hfree]
    rfl
  refine ⟨s', by simp [step, hcopies, hfree, s'], ?_⟩
  have hcard : (s.xfer.erase c.dest).card + 1 = s.xfer.card := Finset.card_erase_add_one hxfer
  have hload' := Finset.add_sum_erase Finset.univ s'.load (Finset.mem_univ c.dest)
  have hload := Finset.add_sum_erase Finset.univ s.load (Finset.mem_univ c.dest)
  show 2 * (s.xfer.erase c.dest).card + ∑ l, s'.load l < 2 * s.xfer.card + ∑ l, s.load l
  omega

/-- Every state leads to one without copies by the steps that end them. -/
theorem Inv.exists_quiet (h : Inv s) {k : Nat} (hk : s.Registered k) :
    ∃ s', (system τ n).LeadsTo (fun _ a => a.Completes) s s' ∧
      (Inv s' ∧ s'.Registered k) ∧ s'.Quiet := by
  refine TransitionSystem.exists_leadsTo_of_measure State.work ?_ ⟨h, hk⟩
  intro s ⟨h, hk⟩ hnot
  by_cases hrec : ∃ l, s.receiving l = true
  · obtain ⟨l, hl⟩ := hrec
    obtain ⟨s', hstep, hwork⟩ := h.work_callback hl
    have hok : (Action.callback l : Action τ n).Completes := trivial
    exact ⟨s', .single hok hstep, ⟨inv_step h hstep, registered_step hok hstep hk⟩, hwork⟩
  replace hrec : ∀ l, s.receiving l = false := fun l =>
    Bool.eq_false_iff.mpr fun hl => hrec ⟨l, hl⟩
  cases hcopies : s.copies with
  | cons c copies =>
      obtain ⟨s', hstep, hwork⟩ := h.work_receive hcopies (hrec c.dest)
      have hok : (Action.receive 0 : Action τ n).Completes := trivial
      exact ⟨s', .single hok hstep, ⟨inv_step h hstep, registered_step hok hstep hk⟩, hwork⟩
  | nil =>
      by_cases hemit : ∃ t k src, s.thread t = .emitting k src
      case neg =>
        exact absurd ⟨hcopies, fun t k src ht => hemit ⟨t, k, src, ht⟩, hrec⟩ hnot
      case pos =>
        -- the thread emits its copy, and the copy arrives
        obtain ⟨t, j, src, hthread⟩ := hemit
        let s₁ : State τ n := State.return_
          { s with copies := ⟨src, s.dest j⟩ :: s.copies } t j .inProgress
        have hstep₁ : step s (.emit t) = some s₁ := by simp only [step, hthread, s₁]
        have hok₁ : (Action.emit t : Action τ n).Completes := trivial
        have h₁ := inv_step h hstep₁
        obtain ⟨s', hstep, hwork⟩ := h₁.work_receive (c := ⟨src, s.dest j⟩) rfl (hrec _)
        have hok : (Action.receive 0 : Action τ n).Completes := trivial
        refine ⟨s', .next (.single hok₁ hstep₁) hok hstep, ⟨inv_step h₁ hstep, ?_⟩, hwork⟩
        exact registered_step hok hstep (registered_step hok₁ hstep₁ hk)

omit [DecidableEq τ] in
/-- A fetch that has left its callback has been called back, or has its callback on its
destination. -/
theorem Inv.called_or_waiting (h : Inv s) {k : Nat} (hk : s.Registered k) :
    k ∈ s.called.map Prod.fst ∨ .user k ∈ s.callbacks (s.dest k) := by
  obtain ⟨i, hi⟩ := (h.fetches.mem k).mp hk
  cases i with
  | none => exact .inl hi
  | some l =>
      obtain ⟨c, hc, hfetch⟩ := List.mem_filterMap.mp hi
      cases c with
      | user j =>
          obtain rfl := Option.some.inj hfetch
          have hl : s.dest j = l := h.placed hc
          rw [← hl] at hc
          exact .inr hc
      | resend src dest => cases hfetch

omit [DecidableEq τ] in
/-- A fetch that has returned 0 has left no callback. -/
theorem Inv.not_registered_of_ok (h : Inv s) {k : Nat} (hk : s.result k = some .ok) :
    ¬ s.Registered k := by
  rintro (hresult | ⟨t, src, ht⟩)
  · rw [hk] at hresult
    cases hresult
  · have hnone := (h.threads.running (t := t) (k := k) (by rw [ht]; rfl)).2
    rw [hk] at hnone
    cases hnone

omit [DecidableEq τ] in
/-- Chains of replicas that send the data on are not cycles. -/
theorem Inv.forwards_acyclic (h : Inv s) (l : Lid n) : ¬ Relation.TransGen s.Forwards l l := by
  obtain ⟨rank, hrank⟩ := h.ranked
  have hlt : ∀ {a b}, Relation.TransGen s.Forwards a b → rank a < rank b := by
    intro a b hab
    induction hab with
    | single hab => exact hrank _ _ hab
    | tail _ hbc ih => exact ih.trans (hrank _ _ hbc)
  exact fun hl => Nat.lt_irrefl _ (hlt hl)

/-- In every run, a fetch that has returned `EINPROGRESS`, and no other, is called back, once,
and when its destination is valid. A replica is the destination of one copy at most, and no chain
of replicas that send the data on is a cycle. When no copy is in flight or about to be, and no
callback is running, nothing is under transfer and all are called, and every state leads to such a
state. -/
theorem callbacks_called_once (hs : (system τ n).Reachable s) :
    (s.called.map Prod.fst).Nodup ∧
      (∀ c ∈ s.called, c.2 = true ∧ s.Registered c.1) ∧
      (∀ k, s.result k = some .ok →
        k ∉ s.called.map Prod.fst ∧ ∀ l, .user k ∉ s.callbacks l) ∧
      (∀ k, s.result k = some .inProgress →
        k ∈ s.called.map Prod.fst ∨ .user k ∈ s.callbacks (s.dest k)) ∧
      (s.copies.map Copy.dest).Nodup ∧
      (∀ l, ¬ Relation.TransGen s.Forwards l l) ∧
      (s.Quiet → s.xfer = ∅ ∧ (∀ l, s.callbacks l = []) ∧
        ∀ k, s.result k = some .inProgress → k ∈ s.called.map Prod.fst) ∧
      ∀ k, s.result k = some .inProgress →
        ∃ s', (system τ n).LeadsTo (fun _ a => a.Completes) s s' ∧ s'.Quiet ∧
          k ∈ s'.called.map Prod.fst := by
  have h := Inv.of_reachable hs
  refine ⟨h.fetches.nodup none, fun c hc => ⟨h.called c hc, ?_⟩, fun k hk => ⟨?_, ?_⟩,
    fun k hk => h.called_or_waiting (.inl hk), h.carriers.nodup .copies, h.forwards_acyclic,
    fun hquiet => ⟨h.xfer_eq_empty hquiet, h.callbacks_eq_nil_of_quiet hquiet,
      fun k hk => h.called_of_quiet hquiet (.inl hk)⟩, fun k hk => ?_⟩
  · exact (h.fetches.mem c.1).mpr ⟨none, List.mem_map.mpr ⟨c, hc, rfl⟩⟩
  · exact fun hmem => h.not_registered_of_ok hk ((h.fetches.mem k).mpr ⟨none, hmem⟩)
  · intro l hl
    refine h.not_registered_of_ok hk ((h.fetches.mem k).mpr ⟨some l, ?_⟩)
    exact List.mem_filterMap.mpr ⟨_, hl, rfl⟩
  · obtain ⟨s', hleads, ⟨h', hk'⟩, hquiet⟩ := h.exists_quiet (.inl hk)
    exact ⟨s', hleads, hquiet, h'.called_of_quiet hquiet hk'⟩

/-- A replica that is valid from the start. -/
def exampleStart : State Bool 2 where
  valid := {0}
  xfer := ∅
  slot := fun _ => none
  rest := fun _ => []
  receiving := fun _ => false
  copies := []
  thread := fun _ => .idle
  dest := fun _ => 0
  result := fun _ => none
  nextFetch := 0
  called := []

/-- Two fetches to the replica 1, and one to the replica 2 that the first one sends the data on
to. -/
def chainRun : List (Action Bool 2) :=
  [.fetch true 1, .choose true 0, .lock true, .fetch false 2, .choose false 1, .lock false,
    .emit true, .fetch true 1, .choose true 0, .lock true, .receive 0, .callback 1, .callback 1,
    .callback 1, .callback 1, .receive 0, .callback 2, .callback 2]

theorem initial_exampleStart : Initial exampleStart where
  valid := ⟨0, Finset.mem_singleton_self 0⟩
  xfer := rfl
  slot := fun _ => rfl
  rest := fun _ => rfl
  receiving := fun _ => rfl
  copies := rfl
  thread := fun _ => rfl
  result := fun _ => rfl
  called := rfl
  nextFetch := rfl

theorem callbacks_chainRun :
    ∃ s : State Bool 2, (system Bool 2).run exampleStart chainRun = some s ∧
      s.called.map Prod.fst = [1, 2, 0] ∧ (s.called.map Prod.fst).Nodup ∧
      ∀ c ∈ s.called, c.2 = true ∧ s.Registered c.1 := by
  let s := ((system Bool 2).run exampleStart chainRun).get (by decide)
  have hrun : (system Bool 2).run exampleStart chainRun = some s := (Option.some_get _).symm
  have hs : (system Bool 2).Reachable s :=
    (TransitionSystem.ReachableWhen.start initial_exampleStart).replay hrun
  have hcalled := callbacks_called_once hs
  exact ⟨s, hrun, by decide, hcalled.1, hcalled.2.1⟩

end Waiting

end Xkblas.Memory.ReplicaCallbacks
