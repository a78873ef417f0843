import Xkblas.Memory.DsmInvariant
import Xkblas.Library.FinLiteral

/-!
# The write-back of the memory

`kaapi_memory_writeback_all` only looks at the `rw` list of a device. A data that a device has
written and another has read is in the `rw` list of the first and in the `ro` list of the
second, so after an eviction on the first device no `rw` list has it, and the host is not
written (`writeback_incomplete`). If a replica of an `rw` list is evicted only when the host is
valid or another `rw` list has a valid replica, the write-back is complete
(`writeback_complete`).
-/

namespace Xkblas.Memory.Dsm

open Library
open scoped Library.FinLiteral

variable {n : Nat}

/-- A valid replica is in the `rw` list of its device. -/
def IsDirtyOn (s : State n) (l : Lid n) : Prop :=
  l ∈ s.valid ∧ s.cachelist l = some .rw

instance (s : State n) (l : Lid n) : Decidable (IsDirtyOn s l) :=
  inferInstanceAs (Decidable (_ ∧ _))

/-- `kaapi_memory_writeback_all` has been run for every device, and no copy is left. -/
def WrittenBack (s : State n) : Prop :=
  (∀ l, l ≠ host → l ∈ s.synced) ∧ s.transfers = []

instance (s : State n) : Decidable (WrittenBack s) :=
  inferInstanceAs (Decidable (_ ∧ _))

/-- The data has a valid host replica if it has a valid replica on some device. -/
def OnHost (s : State n) : Prop :=
  (∃ l ∈ s.valid, l ≠ host) → host ∈ s.valid

instance (s : State n) : Decidable (OnHost s) :=
  inferInstanceAs (Decidable (_ → _))

/-- A replica of an `rw` list is dropped only if the host is valid or another valid replica is in
an `rw` list. -/
def KeepsDirty (s : State n) (a : Action n) : Prop :=
  match a with
  | .evictDrop l =>
      s.cachelist l = some .rw → host ∈ s.valid ∨ ∃ d, d ≠ l ∧ IsDirtyOn s d
  | _ => True

instance (s : State n) : ∀ a : Action n, Decidable (KeepsDirty s a) := by
  rintro ⟨⟩
  case evictDrop l => exact inferInstanceAs (Decidable (_ → _ ∨ _))
  all_goals exact instDecidableTrue

/-! ## The invariant -/

/-- The data is on the host or in an `rw` list, and a device that `kaapi_memory_writeback_all`
has passed over has it on the host, or on its way. -/
structure Tracked (s : State n) : Prop where
  dirty : host ∉ s.valid → ∃ l, IsDirtyOn s l
  quiet : s.synced.Nonempty → s.accesses = []
  synced : ∀ l ∈ s.synced, IsDirtyOn s l → host ∈ s.valid ∨ host ∈ s.xfer
  threads : ∀ l, (s.thread l).writesBack = true → s.accesses = []

theorem tracked_initial : Tracked (initial : State n) := by
  refine ⟨?_, ?_, ?_, ?_⟩
  all_goals simp [initial, ThreadPc.writesBack]

/-- A step that keeps the replicas and their lists, and does not lower the `xfer` bits. -/
theorem Tracked.frame {s t : State n} (h : Tracked s) (hvalid : t.valid = s.valid)
    (hlist : t.cachelist = s.cachelist) (hxfer : host ∈ s.xfer → host ∈ t.xfer)
    (hsynced : t.synced ⊆ s.synced) (haccesses : s.accesses = [] → t.accesses = [])
    (hthreads : ∀ l, (t.thread l).writesBack = true → t.accesses = []) : Tracked t := by
  have hdirty : ∀ l, IsDirtyOn t l ↔ IsDirtyOn s l := by
    intro l
    unfold IsDirtyOn
    rw [hvalid, hlist]
  refine ⟨fun hhost => ?_, fun hne => ?_, fun l hl hd => ?_, hthreads⟩
  · rw [hvalid] at hhost
    exact (h.dirty hhost).imp fun l => (hdirty l).mpr
  · exact haccesses (h.quiet (hne.mono hsynced))
  · rw [hvalid]
    exact (h.synced l (hsynced hl) ((hdirty l).mp hd)).imp_right hxfer

/-! ## The steps -/

/-- While an access is served nothing is written back. -/
theorem Tracked.synced_eq_empty {s : State n} (h : Tracked s) {i : Nat} {a : Access n}
    (hi : s.accesses[i]? = some a) : s.synced = ∅ := by
  by_contra hne
  rw [h.quiet (Finset.nonempty_iff_ne_empty.mpr hne)] at hi
  cases hi

/-- While an access is served no thread writes back. -/
theorem Tracked.threads_of_access {s : State n} (h : Tracked s) {i : Nat} {a : Access n}
    (hi : s.accesses[i]? = some a) {l : Lid n} (hback : (s.thread l).writesBack = true)
    {p : Prop} : p := by
  rw [h.threads l hback] at hi
  cases hi

/-- A step of an access that keeps the replicas and their lists. -/
theorem Tracked.access {s t : State n} (h : Tracked s) {i : Nat} {a : Access n}
    (hi : s.accesses[i]? = some a) (hvalid : t.valid = s.valid)
    (hlist : t.cachelist = s.cachelist) (hxfer : t.xfer = s.xfer) (hsynced : t.synced = s.synced)
    (hthread : t.thread = s.thread) : Tracked t := by
  refine h.frame hvalid hlist (fun hx => hxfer ▸ hx) hsynced.subset (fun hnil => ?_)
    fun l hback => h.threads_of_access hi (hthread ▸ hback)
  rw [hnil] at hi
  cases hi

/-- The start of an access ends the synchronisation. -/
theorem Tracked.startAccess {s : State n} (h : Tracked s) {l : Lid n} {mode : AccessMode}
    {pc : AccessPc n} (hthreads : ∀ d, (s.thread d).writesBack = false) :
    Tracked (s.startAccess l mode pc) := by
  refine ⟨fun hhost => ?_, fun hne => ?_, fun d hd => ?_, fun d hback => ?_⟩
  · unfold IsDirtyOn
    simp only [State.startAccess, State.allocate_valid, State.allocate_cachelist] at hhost ⊢
    exact h.dirty hhost
  · exact absurd hne (by simp [State.startAccess])
  · exact absurd hd (by simp [State.startAccess])
  · have hold : (s.thread d).writesBack = true := by simpa [State.startAccess] using hback
    rw [hthreads d] at hold
    cases hold

/-- A write access puts its replica in the `rw` list. -/
theorem isDirtyOn_cacheTouch_self {s : State n} {l : Lid n} {mode : AccessMode}
    (hvalid : l ∈ s.valid) (hwrite : mode.isWrite = true) :
    IsDirtyOn (s.cacheTouch l mode) l := by
  refine ⟨hvalid, ?_⟩
  simp [State.cacheTouch, hwrite]

/-- While the host is not valid a touch leaves the `rw` lists as they are. -/
theorem IsDirtyOn.cacheTouch {s : State n} {d : Lid n} (h : IsDirtyOn s d)
    (hhost : host ∉ s.valid) (l : Lid n) (mode : AccessMode) :
    IsDirtyOn (s.cacheTouch l mode) d := by
  refine ⟨h.1, ?_⟩
  by_cases hd : d = l
  · subst hd
    simp [State.cacheTouch, h.2, hhost]
  · simpa [State.cacheTouch, hd] using h.2

/-- The fetch of a write-back leaves the data on the host, or on its way. -/
theorem host_of_fetchOn (s : State n) (src : Lid n) :
    host ∈ (s.fetchOn host src).valid ∨ host ∈ (s.fetchOn host src).xfer := by
  rw [State.fetchOn_valid]
  by_cases hhost : host ∈ s.valid
  · exact .inl hhost
  · exact .inr ((s.mem_fetchOn_xfer host src host).mpr (.inr ⟨rfl, hhost⟩))

/-- The completion of a copy while the data is written back is one on the host. -/
theorem Tracked.complete {s : State n} (hb : Inv s) (h : Tracked s) {k : Nat} {t : Transfer n}
    {payload : Option Nat} (hk : s.transfers[k]? = some t) :
    Tracked (s.activateReplica t.dest payload (s.transfers.eraseIdx k)) := by
  have hnil : s.accesses = [] →
      (s.activateReplica t.dest payload (s.transfers.eraseIdx k)).accesses = [] := by
    intro hnil
    show s.accesses.map _ = []
    rw [hnil]
    rfl
  refine ⟨fun hhost => ?_, fun hne => hnil (h.quiet hne), fun l hl hd => ?_,
    fun l hback => hnil (h.threads l hback)⟩
  · have hnot : host ∉ s.valid := fun hv => hhost (Finset.mem_insert_of_mem hv)
    obtain ⟨l, hvalid, hlist⟩ := h.dirty hnot
    exact ⟨l, Finset.mem_insert_of_mem hvalid, hlist⟩
  · have hdest : t.dest = host := by
      by_contra hne
      have hxfer := (hb.transfers.mem_xfer _).mpr
        (List.mem_map_of_mem (f := Transfer.dest) (List.mem_of_getElem? hk))
      obtain ⟨a, ha, _⟩ := hb.transfers.waiting _ hxfer hne
      rw [h.quiet ⟨l, hl⟩] at ha
      cases ha
    exact .inl (hdest ▸ Finset.mem_insert_self _ _)

/-- The eviction of a replica that is not the last one of the `rw` lists. -/
theorem Tracked.dropReplica {s : State n} (hb : Inv s) (h : Tracked s) {l : Lid n}
    (hthread : s.thread l = .evictLocked)
    (hok : s.cachelist l = some .rw → host ∈ s.valid ∨ ∃ d, d ≠ l ∧ IsDirtyOn s d) :
    Tracked (s.dropReplica l) := by
  have hne : host ≠ l := ((hb.allocated.of_evicting (by rw [hthread]; rfl)).1).symm
  have hkeep : ∀ d, d ≠ l → IsDirtyOn s d → IsDirtyOn (s.dropReplica l) d := by
    rintro d hd ⟨hvalid, hlist⟩
    refine ⟨Finset.mem_erase.mpr ⟨hd, hvalid⟩, ?_⟩
    simpa [State.dropReplica, hd] using hlist
  refine ⟨fun hhost => ?_, h.quiet, fun d hd hdirty => ?_, fun d hback => ?_⟩
  · have hnot : host ∉ s.valid := fun hv => hhost (Finset.mem_erase.mpr ⟨hne, hv⟩)
    obtain ⟨d, hdirty⟩ := h.dirty hnot
    by_cases hd : d = l
    · obtain ⟨e, he, hedirty⟩ := (hok (hd ▸ hdirty.2)).resolve_left hnot
      exact ⟨e, hkeep e he hedirty⟩
    · exact ⟨d, hkeep d hd hdirty⟩
  · have hdl : d ≠ l := by
      rintro rfl
      exact absurd hdirty.1 (Finset.notMem_erase d _)
    have hold : IsDirtyOn s d :=
      ⟨Finset.mem_of_mem_erase hdirty.1, by simpa [State.dropReplica, hdl] using hdirty.2⟩
    exact (h.synced d hd hold).imp_left fun hv => Finset.mem_erase.mpr ⟨hne, hv⟩
  · by_cases hd : d = l
    · rw [hd] at hback
      simp [State.dropReplica, ThreadPc.writesBack] at hback
    · exact h.threads d (by simpa [State.dropReplica, hd] using hback)

/-- A change of a thread to a point that is not in a write-back, or without accesses. -/
theorem Tracked.setThread {s : State n} (h : Tracked s) {l : Lid n} {pc : ThreadPc n}
    (hpc : pc.writesBack = true → s.accesses = []) : Tracked (s.setThread l pc) := by
  refine h.frame rfl rfl id (Finset.Subset.refl _) id fun d hback => ?_
  by_cases hd : d = l
  · refine hpc ?_
    rw [← hback, hd]
    simp [State.setThread]
  · exact h.threads d (by simpa [State.setThread, hd] using hback)

/-- `kaapi_memory_writeback_all` has passed over a device. -/
theorem Tracked.addSynced {s : State n} (h : Tracked s) {l : Lid n} (hdone : s.accesses = [])
    (hhost : IsDirtyOn s l → host ∈ s.valid ∨ host ∈ s.xfer) : Tracked (s.addSynced l) := by
  refine ⟨h.dirty, fun _ => hdone, fun d hd hdirty => ?_, h.threads⟩
  rcases Finset.mem_insert.mp hd with rfl | hd
  · exact hhost hdirty
  · exact h.synced d hd hdirty

theorem Tracked.fetchOn {s : State n} (h : Tracked s) (dest src : Lid n) :
    Tracked (s.fetchOn dest src) := by
  refine h.frame (s.fetchOn_valid dest src) (s.fetchOn_cachelist dest src) ?_ ?_ ?_ ?_
  · exact fun hx => (s.mem_fetchOn_xfer dest src host).mpr (.inl hx)
  · rw [State.fetchOn_synced]
  · rw [State.fetchOn_accesses]
    exact id
  · rw [State.fetchOn_accesses, State.fetchOn_thread]
    exact h.threads

theorem Tracked.step {s t : State n} {a : Action n} (hb : Inv s) (h : Tracked s)
    (hok : KeepsDirty s a) (he : Effect s a t) : Tracked t := by
  cases he with
  | acquireFetch hlid hidle hordered hthreads => exact h.startAccess hthreads
  | acquireMark hlid hidle hordered hthreads => exact h.startAccess hthreads
  | @fetch i l src mode waiting hi =>
      exact (h.fetchOn l src).access (by rwa [State.fetchOn_accesses]) rfl rfl rfl rfl rfl
  | post hi | postHost hi => exact h.access hi rfl rfl rfl rfl rfl
  | @markWrite i l mode waiting hi hwrite =>
      refine ⟨fun _ => ⟨l, ?_⟩, fun hne => ?_, fun d hd => ?_, fun d hback => ?_⟩
      · exact isDirtyOn_cacheTouch_self (s := s.setAllDirtyExcept l)
          (Finset.mem_singleton_self l) hwrite
      · exact absurd hne (by simp [State.setAccess, State.cacheTouch, State.setAllDirtyExcept,
          h.synced_eq_empty hi])
      · exact absurd hd (by simp [State.setAccess, State.cacheTouch, State.setAllDirtyExcept,
          h.synced_eq_empty hi])
      · exact h.threads_of_access hi hback
  | @markRead i l mode waiting hi hread =>
      refine ⟨fun hhost => ?_, fun hne => ?_, fun d hd => ?_, fun d hback => ?_⟩
      · obtain ⟨d, hd⟩ := h.dirty hhost
        exact ⟨d, hd.cacheTouch hhost l mode⟩
      · exact absurd hne (by simp [State.setAccess, State.cacheTouch, h.synced_eq_empty hi])
      · exact absurd hd (by simp [State.setAccess, State.cacheTouch, h.synced_eq_empty hi])
      · exact h.threads_of_access hi hback
  | release hi | prefetch hi => exact h.access hi rfl rfl rfl rfl rfl
  | @fetchHost i l src mode waiting hi =>
      exact (h.fetchOn host src).access (by rwa [State.fetchOn_accesses]) rfl rfl rfl rfl rfl
  | copy => exact h.frame rfl rfl id (Finset.Subset.refl _) id h.threads
  | complete hk => exact h.complete hb hk
  | evictTest | evictLock | evictSkip => exact h.setThread fun hback => by cases hback
  | evictDrop hthread => exact h.dropReplica hb hthread hok
  | writebackSelect hlid hidle hdone => exact h.setThread fun _ => hdone
  | writebackSkip hlid hidle hdone hskip =>
      exact h.addSynced hdone fun hdirty => .inl (hskip hdirty.2 hdirty.1)
  | @writebackFetch l src hthread =>
      have hdone := h.threads l (by rw [hthread]; rfl)
      have hnil : (s.fetchOn host src).accesses = [] := by
        rw [State.fetchOn_accesses]
        exact hdone
      exact ((h.fetchOn host src).setThread fun _ => hnil).addSynced hnil fun _ =>
        host_of_fetchOn s src
  | @writebackPost l hthread =>
      have hdone := h.threads l (by rw [hthread]; rfl)
      have hpost : Tracked (s.postCopy host) :=
        h.frame rfl rfl id (Finset.Subset.refl _) id h.threads
      exact hpost.setThread fun _ => hdone

/-! ## The write-back is complete -/

/-- In every run in which the evictions keep a replica in an `rw` list, once
`kaapi_memory_writeback_all` has been run for every device and the copies are completed, a data
that is valid on some device is valid on the host. -/
theorem writeback_complete {s : State n} (hs : (system n).ReachableWhen KeepsDirty s)
    (hdone : WrittenBack s) : OnHost s := by
  have htracked : Tracked s := by
    refine hs.invariant_of_reachable (fun t ht => ?_) fun t a u ht h hok hstep => ?_
    · cases ht
      exact tracked_initial
    · exact h.step (inv_of_reachableWhen ht) hok (step_effect hstep)
  intro _
  by_contra hhost
  obtain ⟨l, hdirty⟩ := htracked.dirty hhost
  have hne : l ≠ host := by
    rintro rfl
    exact hhost hdirty.1
  rcases htracked.synced l (hdone.1 l hne) hdirty with hvalid | hxfer
  · exact hhost hvalid
  · have hmem := ((inv_of_reachableWhen hs).transfers.mem_xfer host).mp hxfer
    rw [hdone.2] at hmem
    cases hmem

/-- The first device writes the data and the second reads it. -/
def writeReadRun : List (Action 2) :=
  [.acquire 1 .w 0, .mark 0, .release 0,
   .acquire 2 .r 1, .fetch 0, .post 0, .mark 0, .copy 0, .complete 0, .release 0]

/-- The replica of the reader is evicted before the write-back. -/
def keptWritebackRun : List (Action 2) :=
  writeReadRun ++ [.evictTest 2, .evictLock 2, .evictDrop 2,
    .writebackAll 1 1, .writebackFetch 1, .writebackPost 1, .writebackAll 2 0, .copy 0, .complete 0]

theorem writeback_complete_keptWritebackRun :
    ∃ s, (system 2).replay KeepsDirty initial keptWritebackRun = some s ∧ WrittenBack s ∧
      OnHost s :=
  ⟨((system 2).replay KeepsDirty initial keptWritebackRun).get (by decide), by simp, by decide,
    writeback_complete (.replay (.start rfl) (Option.some_get _).symm) (by decide)⟩

/-- The replica of the writer is evicted before the write-back. -/
def lostWritebackRun : List (Action 2) :=
  writeReadRun ++ [.evictTest 1, .evictLock 1, .evictDrop 1,
    .writebackAll 1 0, .writebackAll 2 0]

/-- Without a condition the write-back can leave the host without the data. -/
theorem writeback_incomplete :
    ¬ ∀ (n : Nat) (s : State n), (system n).Reachable s → WrittenBack s → OnHost s := by
  intro hall
  refine absurd (hall 2 (((system 2).run initial lostWritebackRun).get (by decide)) ?_
    (by decide)) (by decide)
  exact .replay (.start rfl) (Option.some_get _).symm

end Xkblas.Memory.Dsm
