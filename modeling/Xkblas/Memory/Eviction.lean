import Xkblas.Memory.DsmInvariant
import Xkblas.Library.FinLiteral

/-!
# The last valid replica

An eviction tests, under the lock of its own replica only, that the data is valid elsewhere. Two
devices with the only valid replicas may both pass the test and both drop
(`last_replica_dropped`). If a device only passes it when some other valid replica is not itself
about to be dropped, some replica stays valid in every run (`valid_nonempty_of_safeTest`).
-/

namespace Xkblas.Memory.Dsm

open Library
open scoped Library.FinLiteral

variable {n : Nat}

/-- A valid replica other than `l` that no device has decided to drop. -/
def OtherKept (s : State n) (l : Lid n) : Prop :=
  ∃ d ∈ s.valid.erase l, s.thread d ≠ .evictLocked

instance (s : State n) (l : Lid n) : Decidable (OtherKept s l) := by
  unfold OtherKept
  infer_instance

/-- The test under the lock passes only if another replica is kept. -/
def SafeTest (s : State n) (a : Action n) : Prop :=
  match a with
  | .evictLock l => s.Evictable l → OtherKept s l
  | _ => True

instance (s : State n) : ∀ a : Action n, Decidable (SafeTest s a) := by
  rintro ⟨⟩
  case evictLock l => exact inferInstanceAs (Decidable (_ → _))
  all_goals exact instDecidableTrue

/-- A valid replica that no device has decided to drop. -/
def SomeKept (s : State n) : Prop :=
  ∃ l ∈ s.valid, s.thread l ≠ .evictLocked

/-- A step that drops nothing, and decides no drop, keeps a replica. -/
theorem SomeKept.frame {s t : State n} (h : SomeKept s) (hvalid : s.valid ⊆ t.valid)
    (hthread : ∀ l, t.thread l = .evictLocked → s.thread l = .evictLocked) : SomeKept t := by
  obtain ⟨l, hl, hkept⟩ := h
  exact ⟨l, hvalid hl, fun hlocked => hkept (hthread l hlocked)⟩

/-- A thread that leaves its program point for one that is not the drop. -/
theorem SomeKept.setThread {s t : State n} (h : SomeKept s) {l : Lid n} {pc : ThreadPc n}
    (hvalid : t.valid = s.valid) (hthread : t.thread = Function.update s.thread l pc)
    (hpc : pc ≠ .evictLocked) : SomeKept t := by
  refine h.frame hvalid.ge fun d hlocked => ?_
  rw [hthread] at hlocked
  by_cases hd : d = l
  · rw [hd, Function.update_self] at hlocked
    exact absurd hlocked hpc
  · rwa [Function.update_of_ne hd] at hlocked

theorem SomeKept.step {s t : State n} {a : Action n} (hb : Inv s) (h : SomeKept s)
    (hok : SafeTest s a) (he : Effect s a t) : SomeKept t := by
  cases he with
  | acquireFetch | acquireMark =>
      exact h.frame (by simp [State.startAccess]) fun d hd => by
        simpa [State.startAccess] using hd
  | fetch | fetchHost =>
      exact h.frame (by simp [State.setAccess]) fun d hd => by simpa [State.setAccess] using hd
  | @markWrite i l mode waiting hi =>
      -- the writer keeps its replica: its device is in an acquisition, not in an eviction
      have hthread := (hb.allocated.acquired _ (List.mem_of_getElem? hi) rfl).2
      refine ⟨l, Finset.mem_singleton_self l, fun hlocked => ?_⟩
      have hev : (s.thread l).evicting = true := by
        rw [show s.thread l = .evictLocked from hlocked]
        rfl
      rw [hev] at hthread
      cases hthread
  | post | postHost | markRead | release | prefetch | copy | writebackSkip =>
      exact h.frame (Finset.Subset.refl _) fun _ hd => hd
  | complete => exact h.frame (Finset.subset_insert _ _) fun _ hd => hd
  | evictTest | evictSkip | writebackSelect | writebackPost =>
      exact h.setThread rfl rfl (by simp)
  | @evictLock l hthread hevict =>
      obtain ⟨d, hd, hkept⟩ := hok hevict
      obtain ⟨hne, hvalid⟩ := Finset.mem_erase.mp hd
      refine ⟨d, hvalid, ?_⟩
      show Function.update s.thread l _ d ≠ _
      rwa [Function.update_of_ne hne]
  | @evictDrop l hthread =>
      obtain ⟨d, hvalid, hkept⟩ := h
      have hne : d ≠ l := by
        rintro rfl
        exact hkept hthread
      refine ⟨d, Finset.mem_erase.mpr ⟨hne, hvalid⟩, ?_⟩
      show Function.update s.thread l _ d ≠ _
      rwa [Function.update_of_ne hne]
  | @writebackFetch l src =>
      have hpc : s.afterFetch host src .posting .idle ≠ (.evictLocked : ThreadPc n) :=
        State.afterFetch_ind (p := fun pc : ThreadPc n => pc ≠ .evictLocked) (by simp) (by simp)
      refine h.setThread (l := l) ?_ ?_ hpc
      · simp [State.addSynced, State.setThread]
      · simp [State.addSynced, State.setThread]

/-- In every run in which a device decides to drop its replica only when another valid replica
is kept, some replica is valid. -/
theorem valid_nonempty_of_safeTest {s : State n} (hs : (system n).ReachableWhen SafeTest s) :
    s.valid.Nonempty := by
  have hkept : SomeKept s := by
    refine hs.invariant_of_reachable (fun t ht => ?_) fun t a u ht h hok hstep => ?_
    · cases ht
      exact ⟨host, Finset.mem_singleton_self _, by simp [initial]⟩
    · exact h.step (inv_of_reachableWhen ht) hok (step_effect hstep)
  obtain ⟨l, hl, _⟩ := hkept
  exact ⟨l, hl⟩

/-- The first device writes the data, the second reads it, and both replicas are released. -/
def sharedRun : List (Action 2) :=
  [.acquire 1 .w 0, .mark 0, .release 0,
   .acquire 2 .r 1, .fetch 0, .post 0, .mark 0, .copy 0, .complete 0, .release 0]

/-- The first device evicts its replica. The second device tests its own before and after. -/
def singleDropRun : List (Action 2) :=
  sharedRun ++ [.evictTest 1, .evictTest 2, .evictLock 1, .evictDrop 1, .evictLock 2]

theorem valid_nonempty_singleDropRun :
    ∃ s, (system 2).replay SafeTest initial singleDropRun = some s ∧ s.valid = {2} ∧
      s.valid.Nonempty :=
  ⟨((system 2).replay SafeTest initial singleDropRun).get (by decide), by simp, by decide,
    valid_nonempty_of_safeTest (.replay (.start rfl) (Option.some_get _).symm)⟩

/-- Both devices test their replicas before either drops its own. -/
def doubleDropRun : List (Action 2) :=
  sharedRun ++
    [.evictTest 1, .evictTest 2, .evictLock 1, .evictLock 2, .evictDrop 1, .evictDrop 2]

/-- Without a condition on the tests the last valid replica can be dropped. -/
theorem last_replica_dropped :
    ¬ ∀ (n : Nat) (s : State n), (system n).Reachable s → s.valid.Nonempty := by
  intro hall
  refine absurd (hall 2 (((system 2).run initial doubleDropRun).get (by decide)) ?_) (by decide)
  exact .replay (.start rfl) (Option.some_get _).symm

end Xkblas.Memory.Dsm
