import Xkblas.Memory.DsmInvariant
import Xkblas.Library.FinLiteral

/-!
# The source of a copy

`kaapi_dsm_fetch_on` does not pin the source of its copy, so the source may be evicted while the
device reads it (`source_dropped`), before the copy is submitted, or before the fetch locks it;
and it may be the destination of a write access when the copy goes to the host
(`source_overwritten`). In every run in which an eviction drops a replica only when no `xfer`
bit of the data is set and no fetch is about to lock the replica, and a write access is acquired
only when the `xfer` bit of the host is not set, the sources of the copies keep their allocation
and are not written (`sourceLive_of_sparesSources`).
-/

namespace Xkblas.Memory.Dsm

open Library
open scoped Library.FinLiteral

variable {n : Nat}

/-- The source of the copy has the buffer that the copy was given, and no write access has been
acquired on it since. -/
def SourceKept (s : State n) (t : Transfer n) : Prop :=
  s.ptr t.src = t.srcPtr ∧ t.srcPtr ≠ none ∧ s.writes t.src = t.srcWrites

instance (s : State n) (t : Transfer n) : Decidable (SourceKept s t) :=
  inferInstanceAs (Decidable (_ ∧ _))

/-- The sources of all the copies between their submission and their callback are kept. -/
def SourceLive (s : State n) : Prop :=
  ∀ t ∈ s.transfers, t.pc.inFlight = true → SourceKept s t

instance (s : State n) : Decidable (SourceLive s) := by
  unfold SourceLive
  infer_instance

/-- A fetch has chosen the replica `l` and has not locked it yet. -/
def IsSelected (s : State n) (l : Lid n) : Prop :=
  (∃ a ∈ s.accesses, a.pc.selected = some l) ∨ ∃ d, (s.thread d).selected = some l

instance (s : State n) (l : Lid n) : Decidable (IsSelected s l) := by
  unfold IsSelected
  infer_instance

/-- An eviction drops a replica when no `xfer` bit is set and no fetch has chosen the replica, and
a write access is acquired when the `xfer` bit of the host is not set. -/
def SparesSources (s : State n) (a : Action n) : Prop :=
  match a with
  | .evictDrop l => s.xfer = ∅ ∧ ¬ IsSelected s l
  | .mark i => ∀ b ∈ s.accesses[i]?, b.mode.isWrite = true → host ∉ s.xfer
  | _ => True

instance (s : State n) : ∀ a : Action n, Decidable (SparesSources s a) := by
  rintro ⟨⟩
  case evictDrop l => exact inferInstanceAs (Decidable (_ ∧ _))
  case mark i =>
    exact inferInstanceAs
      (Decidable (∀ b ∈ s.accesses[i]?, b.mode.isWrite = true → host ∉ s.xfer))
  all_goals exact instDecidableTrue

/-! ## The two ends of a copy -/

/-- A copy to a device comes from another replica: a fetch that has chosen its own replica finds
it in transfer, or valid. -/
structure Directed (s : State n) : Prop where
  transfers : ∀ t ∈ s.transfers, t.dest ≠ host → t.src ≠ t.dest
  fetching : ∀ a ∈ s.accesses, a.pc = .fetching a.lid → Supplied s a.lid

theorem directed_initial : Directed (initial : State n) := by
  refine ⟨?_, ?_⟩
  all_goals simp [initial]

/-- A step that keeps the ends of the transfers, starts no fetch and takes the data from no
replica. -/
theorem Directed.frame {s t : State n} (h : Directed s)
    (htransfers : ∀ v ∈ t.transfers, ∃ u ∈ s.transfers, u.src = v.src ∧ u.dest = v.dest)
    (haccesses : ∀ b ∈ t.accesses, b.pc = .fetching b.lid →
      ∃ a ∈ s.accesses, a.pc = b.pc ∧ a.lid = b.lid)
    (hsupplied : ∀ l, Supplied s l → Supplied t l) : Directed t where
  transfers := by
    intro v hv hdest
    obtain ⟨u, hu, hsrc, hdst⟩ := htransfers v hv
    rw [← hsrc, ← hdst]
    exact h.transfers u hu (hdst ▸ hdest)
  fetching := by
    intro b hb hpc
    obtain ⟨a, ha, hapc, hlid⟩ := haccesses b hb hpc
    rw [← hlid]
    exact hsupplied _ (h.fetching a ha (by rw [hapc, hpc, hlid]))

/-- The replacement of an access by one that has chosen no source. -/
theorem fetching_mem_set {s : State n} {i : Nat} {b : Access n} (hb : b.pc ≠ .fetching b.lid) :
    ∀ c ∈ s.accesses.set i b, c.pc = .fetching c.lid →
      ∃ a ∈ s.accesses, a.pc = c.pc ∧ a.lid = c.lid := by
  intro c hc hpc
  rcases List.mem_or_eq_of_mem_set hc with hc | rfl
  · exact ⟨c, hc, rfl, rfl⟩
  · exact absurd hpc hb

/-- The start of an access, which may choose its own replica only if it is in transfer. -/
theorem Directed.startAccess {s : State n} (h : Directed s) {l : Lid n} {mode : AccessMode}
    {pc : AccessPc n} (hpc : pc = .fetching l → Supplied s l) :
    Directed (s.startAccess l mode pc) := by
  have hsupplied : ∀ d, Supplied s d → Supplied (s.startAccess l mode pc) d :=
    fun d hd => hd.mono (s.allocate_valid l).ge (s.allocate_xfer l).ge
  refine ⟨by simpa [State.startAccess] using h.transfers, fun a ha hfetch => ?_⟩
  rcases List.mem_append.mp ha with ha | ha
  · exact hsupplied _ (h.fetching a ha hfetch)
  · rw [List.mem_singleton.mp ha] at hfetch ⊢
    exact hsupplied l (hpc hfetch)

/-- A fetch on the host, or from another replica than its own. -/
theorem Directed.fetchOn {s : State n} (h : Directed s) {dest src : Lid n}
    (hsrc : dest ≠ host → src = dest → Supplied s dest) : Directed (s.fetchOn dest src) := by
  refine ⟨fun t ht hhost => ?_, ?_⟩
  · rcases s.fetchOn_transfers dest src with heq | ⟨u, heq, hvalid, hxfer, husrc, hudest, _⟩
    · rw [heq] at ht
      exact h.transfers t ht hhost
    · rw [heq] at ht
      rcases List.mem_append.mp ht with ht | ht
      · exact h.transfers t ht hhost
      · rw [List.mem_singleton.mp ht, hudest] at hhost
        rw [List.mem_singleton.mp ht, husrc, hudest]
        exact fun hsame => (hsrc hhost hsame).elim hvalid hxfer
  · rw [State.fetchOn_accesses]
    exact fun a ha hpc => (h.fetching a ha hpc).mono (by simp)
      fun l hl => (s.mem_fetchOn_xfer dest src l).mpr (.inl hl)

theorem Directed.postCopy {s : State n} (h : Directed s) (dest : Lid n) :
    Directed (s.postCopy dest) := by
  refine h.frame (fun v hv => ?_) (fun b hb _ => ⟨b, hb, rfl, rfl⟩) fun _ => id
  obtain ⟨u, hu, rfl⟩ := List.mem_map.mp hv
  exact ⟨u, hu, (s.posted_src dest u).symm, (s.posted_dest dest u).symm⟩

/-- The change of an access to a point that has chosen no source. -/
theorem Directed.setAccess {s : State n} (h : Directed s) {i : Nat} {b : Access n}
    (hb : b.pc ≠ .fetching b.lid) : Directed (s.setAccess i b) :=
  h.frame (fun u hu => ⟨u, hu, rfl, rfl⟩) (fetching_mem_set hb) fun _ => id

theorem Directed.step {s t : State n} {a : Action n} (hb : Inv s) (h : Directed s)
    (he : Effect s a t) : Directed t := by
  cases he with
  | @acquireFetch l mode src hlid hidle hordered hthreads hvalid hsrc =>
      refine h.startAccess fun hpc => ?_
      obtain rfl : src = l := by
        injection hpc
      rcases hsrc.mem with hv | hx | ⟨hhost, _⟩
      · exact .inl hv
      · exact .inr hx
      · exact absurd hhost hlid
  | acquireMark => exact h.startAccess fun hpc => by cases hpc
  | @fetch i l src mode waiting hi =>
      have hfetch : Directed (s.fetchOn l src) := by
        refine h.fetchOn fun _ hsame => ?_
        exact h.fetching _ (List.mem_of_getElem? hi) (by rw [hsame])
      exact hfetch.setAccess
        (State.afterFetch_ind (p := fun pc : AccessPc n => pc ≠ .fetching l) (by simp) (by simp))
  | post => exact (h.postCopy _).setAccess (by simp)
  | postHost => exact (h.postCopy host).setAccess (by simp)
  | @markWrite i l mode waiting hi hwrite =>
      refine ⟨h.transfers, fun a ha hpc => ?_⟩
      -- a write access is the only one, and it has fetched its data
      rcases List.mem_or_eq_of_mem_set ha with ha | rfl
      · have hmem := List.mem_of_getElem? hi
        rw [eq_of_mem_of_length_le_one (hb.exclusive _ hmem hwrite) ha hmem] at hpc
        cases hpc
      · cases hpc
  | markRead =>
      exact h.frame (fun u hu => ⟨u, hu, rfl, rfl⟩) (fetching_mem_set (by simp)) fun _ => id
  | release =>
      refine h.frame (fun u hu => ⟨u, hu, rfl, rfl⟩) (fun b hbmem _ => ?_) fun _ => id
      exact ⟨b, List.mem_of_mem_eraseIdx hbmem, rfl, rfl⟩
  | prefetch => exact h.setAccess (by simp)
  | @fetchHost i l src mode waiting hi =>
      exact (h.fetchOn fun hne => absurd rfl hne).setAccess
        (State.afterFetch_ind (p := fun pc : AccessPc n => pc ≠ .fetching l) (by simp) (by simp))
  | @copy k t hk =>
      refine h.frame (fun v hv => ?_) (fun b hbmem _ => ⟨b, hbmem, rfl, rfl⟩) fun _ => id
      rcases List.mem_or_eq_of_mem_set hv with hv | rfl
      · exact ⟨v, hv, rfl, rfl⟩
      · exact ⟨t, List.mem_of_getElem? hk, rfl, rfl⟩
  | @complete k t payload =>
      refine h.frame (fun v hv => ?_) (fun b hbmem hpc => ?_) fun l hl => hl.complete t.dest _ _
      · obtain ⟨u, hu, rfl⟩ := List.mem_map.mp hv
        exact ⟨u, List.mem_of_mem_eraseIdx hu, (s.resend_src _ u).symm, (s.resend_dest _ u).symm⟩
      · obtain ⟨c, hc, rfl⟩ := List.mem_map.mp hbmem
        refine ⟨c, hc, ?_⟩
        split <;> exact ⟨rfl, rfl⟩
  | evictTest | evictLock | evictSkip | writebackSelect | writebackSkip =>
      exact ⟨h.transfers, h.fetching⟩
  | @evictDrop l hthread =>
      refine ⟨h.transfers, fun a ha hpc => ?_⟩
      -- the device of the replica acquires nothing while it evicts
      have hne : a.lid ≠ l := by
        intro hal
        have hacq := (hb.allocated.of_evicting (by rw [hthread]; rfl)).2 a ha hal
        rw [hpc] at hacq
        cases hacq
      exact (h.fetching a ha hpc).imp_left fun hv => Finset.mem_erase.mpr ⟨hne, hv⟩
  | @writebackFetch l src =>
      have hfetch : Directed (s.fetchOn host src) := h.fetchOn fun hne => absurd rfl hne
      exact ⟨hfetch.transfers, hfetch.fetching⟩
  | writebackPost =>
      have hpost := h.postCopy host
      exact ⟨hpost.transfers, hpost.fetching⟩

theorem directed_of_reachableWhen {ok : State n → Action n → Prop} {s : State n}
    (h : (system n).ReachableWhen ok s) : Directed s := by
  refine h.invariant_of_reachable (fun t ht => ?_) fun t a u ht hd _ hstep => ?_
  · cases ht
    exact directed_initial
  · exact hd.step (inv_of_reachableWhen ht) (step_effect hstep)

/-! ## The invariant -/

/-- The invariant of the runs that spare the sources: the source of a fetch is allocated from its
choice to the submission of the copy, and kept from there on. -/
structure Spared (s : State n) : Prop where
  live : SourceLive s
  selected : ∀ l, IsSelected s l → l ∈ s.alloc
  unposted : ∀ t ∈ s.transfers, t.pc = .unposted → t.src ∈ s.alloc

theorem spared_initial : Spared (initial : State n) := by
  refine ⟨?_, ?_, ?_⟩
  all_goals simp [initial, SourceLive, IsSelected, ThreadPc.selected]

/-- The choice of a source finds an allocated replica. -/
theorem State.IsSource.allocated {s : State n} (h : Allocated s) {src : Lid n}
    (hsrc : s.IsSource src) : src ∈ s.alloc := by
  rcases hsrc.mem with hvalid | hxfer | ⟨rfl, _⟩
  · exact h.valid_subset hvalid
  · exact h.xfer_subset hxfer
  · exact h.host_mem

/-- A copy of an allocated replica starts with its source kept. -/
theorem sourceKept_copyAsync {s : State n} (h : Allocated s) {src : Lid n} (dest : Lid n)
    (hsrc : src ∈ s.alloc) : SourceKept s (s.copyAsync src dest) :=
  ⟨rfl, (h.mem_alloc src).mp hsrc, rfl⟩

/-- A step that keeps the buffers, the writes and the transfers. -/
theorem Spared.frame {s t : State n} (h : Spared s) (hptr : t.ptr = s.ptr)
    (hwrites : t.writes = s.writes) (htransfers : t.transfers = s.transfers)
    (halloc : t.alloc = s.alloc) (hselected : ∀ l, IsSelected t l → IsSelected s l ∨ l ∈ s.alloc) :
    Spared t := by
  constructor
  · unfold SourceLive SourceKept
    rw [hptr, hwrites, htransfers]
    exact h.live
  · intro l hl
    rw [halloc]
    exact (hselected l hl).elim (h.selected l) id
  · rw [htransfers, halloc]
    exact h.unposted

/-- The replacement of an access by one that has chosen no source, or an allocated one. -/
theorem isSelected_setAccess {s t : State n} {i : Nat} {b : Access n}
    (haccesses : t.accesses = s.accesses.set i b) (hthread : t.thread = s.thread)
    (hb : ∀ l, b.pc.selected = some l → l ∈ s.alloc) :
    ∀ l, IsSelected t l → IsSelected s l ∨ l ∈ s.alloc := by
  rintro l (⟨a, ha, hsel⟩ | ⟨d, hsel⟩)
  · rw [haccesses] at ha
    rcases List.mem_or_eq_of_mem_set ha with ha | rfl
    · exact .inl (.inl ⟨a, ha, hsel⟩)
    · exact .inr (hb l hsel)
  · rw [hthread] at hsel
    exact .inl (.inr ⟨d, hsel⟩)

/-- A change of a thread to a point that has chosen no source, or an allocated one. -/
theorem isSelected_setThread {s t : State n} {l : Lid n} {pc : ThreadPc n}
    (haccesses : t.accesses = s.accesses) (hthread : t.thread = Function.update s.thread l pc)
    (hpc : ∀ d, pc.selected = some d → d ∈ s.alloc) :
    ∀ d, IsSelected t d → IsSelected s d ∨ d ∈ s.alloc := by
  rintro d (⟨a, ha, hsel⟩ | ⟨e, hsel⟩)
  · rw [haccesses] at ha
    exact .inl (.inl ⟨a, ha, hsel⟩)
  · rw [hthread] at hsel
    by_cases he : e = l
    · rw [he, Function.update_self] at hsel
      exact .inr (hpc d hsel)
    · rw [Function.update_of_ne he] at hsel
      exact .inl (.inr ⟨e, hsel⟩)

/-! ## The steps -/

/-- A fetch from an allocated source adds a transfer that no device has yet. -/
theorem Spared.fetchOn {s : State n} (h : Spared s) (dest : Lid n) {src : Lid n}
    (hsrc : src ∈ s.alloc) : Spared (s.fetchOn dest src) := by
  have hmem : ∀ t ∈ (s.fetchOn dest src).transfers, t ∈ s.transfers ∨
      t.pc.inFlight = false ∧ t.src = src := by
    intro t ht
    rcases s.fetchOn_transfers dest src with heq | ⟨u, heq, _, _, husrc, _, hkind⟩
    · rw [heq] at ht
      exact .inl ht
    · rw [heq] at ht
      refine (List.mem_append.mp ht).imp_right fun ht => ?_
      rw [List.mem_singleton.mp ht]
      refine ⟨?_, husrc⟩
      rcases hkind with ⟨_, hpc⟩ | ⟨_, hpc⟩
      · rw [hpc]
        rfl
      · rw [hpc]
        rfl
  constructor
  · intro t ht hflight
    unfold SourceKept
    rw [State.fetchOn_ptr, State.fetchOn_writes]
    rcases hmem t ht with hold | ⟨hnot, _⟩
    · exact h.live t hold hflight
    · rw [hnot] at hflight
      cases hflight
  · unfold IsSelected
    rw [State.fetchOn_accesses, State.fetchOn_thread, State.fetchOn_alloc]
    exact h.selected
  · intro t ht hpc
    rw [State.fetchOn_alloc]
    rcases hmem t ht with hold | ⟨_, hnew⟩
    · exact h.unposted t hold hpc
    · exact hnew ▸ hsrc

/-- A submission reads the pointer of an allocated replica. -/
theorem Spared.postCopy {s : State n} (hb : Inv s) (h : Spared s) (dest : Lid n) :
    Spared (s.postCopy dest) := by
  refine ⟨fun v hv hflight => ?_, h.selected, fun v hv hpc => ?_⟩
  · obtain ⟨t, ht, rfl⟩ := List.mem_map.mp hv
    rcases s.posted_cases dest t with ⟨hpc, heq⟩ | heq
    · rw [heq]
      exact sourceKept_copyAsync hb.allocated t.dest (h.unposted t ht hpc)
    · rw [heq] at hflight ⊢
      exact h.live t ht hflight
  · obtain ⟨t, ht, rfl⟩ := List.mem_map.mp hv
    rw [State.posted_src]
    rcases s.posted_cases dest t with ⟨hold, _⟩ | heq
    · exact h.unposted t ht hold
    · exact h.unposted t ht (heq ▸ hpc)

/-- The start of an access leaves the allocated replicas in place. -/
theorem Spared.startAccess {s : State n} (hb : Inv s) (h : Spared s) {l : Lid n}
    {mode : AccessMode} {pc : AccessPc n} (hpc : ∀ d, pc.selected = some d → d ∈ s.alloc) :
    Spared (s.startAccess l mode pc) := by
  have halloc : ∀ d ∈ s.alloc, d ∈ (s.startAccess l mode pc).alloc := by
    intro d hd
    simpa [State.startAccess] using .inr hd
  constructor
  · intro t ht hflight
    replace ht : t ∈ s.transfers := by simpa [State.startAccess] using ht
    obtain ⟨hptr, hsome, hwrites⟩ := h.live t ht hflight
    have hmem : t.src ∈ s.alloc := (hb.allocated.mem_alloc _).mpr (hptr ▸ hsome)
    refine ⟨(s.allocate_of_mem hmem).1.trans hptr, hsome, ?_⟩
    simpa [State.startAccess] using hwrites
  · intro d hd
    refine halloc d ?_
    rcases hd with ⟨a, ha, hsel⟩ | ⟨e, hsel⟩
    · rcases List.mem_append.mp ha with ha | ha
      · exact h.selected d (.inl ⟨a, ha, hsel⟩)
      · rw [List.mem_singleton.mp ha] at hsel
        exact hpc d hsel
    · exact h.selected d (.inr ⟨e, by simpa [State.startAccess] using hsel⟩)
  · intro t ht hpost
    exact halloc _ (h.unposted t (by simpa [State.startAccess] using ht) hpost)

/-- While no copy goes to the host, the copies bring the input of the write access, from other
replicas. -/
theorem src_ne_of_write {s : State n} (hb : Inv s) (hd : Directed s) (hhost : host ∉ s.xfer)
    {a : Access n} (ha : a ∈ s.accesses) (hwrite : a.mode.isWrite = true) :
    ∀ t ∈ s.transfers, t.src ≠ a.lid := by
  intro t ht
  have hxfer := (hb.transfers.mem_xfer _).mpr (List.mem_map_of_mem (f := Transfer.dest) ht)
  have hdest := (xfer_subset_of_write hb hhost ha hwrite t.dest hxfer).1
  rw [← hdest]
  refine hd.transfers t ht fun heq => ?_
  rw [heq] at hxfer
  exact hhost hxfer

/-- A write access on a replica that no transfer has as its source. -/
theorem Spared.setAllDirtyExcept {s : State n} (h : Spared s) {l : Lid n}
    (hsrc : ∀ t ∈ s.transfers, t.src ≠ l) : Spared (s.setAllDirtyExcept l) := by
  refine ⟨fun t ht hflight => ?_, h.selected, h.unposted⟩
  obtain ⟨hptr, hsome, hwrites⟩ := h.live t ht hflight
  refine ⟨hptr, hsome, ?_⟩
  rw [← hwrites]
  exact Function.update_of_ne (hsrc t ht) _ _

/-- An eviction while no `xfer` bit is set finds no transfer. -/
theorem Spared.dropReplica {s : State n} (hb : Inv s) (h : Spared s) {l : Lid n}
    (hxfer : s.xfer = ∅) (hselected : ¬ IsSelected s l) : Spared (s.dropReplica l) := by
  have hnone : ∀ t, t ∉ s.transfers := by
    intro t ht
    have hmem := (hb.transfers.mem_xfer _).mpr (List.mem_map_of_mem (f := Transfer.dest) ht)
    rw [hxfer] at hmem
    exact absurd hmem (Finset.notMem_empty _)
  refine ⟨fun t ht => absurd ht (hnone t), fun d hd => ?_, fun t ht => absurd ht (hnone t)⟩
  have hold : IsSelected s d := by
    refine hd.imp_right ?_
    rintro ⟨e, hsel⟩
    by_cases he : e = l
    · rw [he] at hsel
      simp [State.dropReplica, ThreadPc.selected] at hsel
    · exact ⟨e, by simpa [State.dropReplica, he] using hsel⟩
  refine Finset.mem_erase.mpr ⟨?_, h.selected d hold⟩
  rintro rfl
  exact hselected hold

/-- The callback of a copy forwards the data from a replica that is allocated. -/
theorem Spared.complete {s : State n} (hb : Inv s) (h : Spared s) {k : Nat} {t : Transfer n}
    {payload : Option Nat} (hk : s.transfers[k]? = some t) :
    Spared (s.activateReplica t.dest payload (s.transfers.eraseIdx k)) := by
  have hdest : t.dest ∈ s.alloc := hb.allocated.xfer_subset
    ((hb.transfers.mem_xfer _).mpr (List.mem_map_of_mem (List.mem_of_getElem? hk)))
  have hcases : ∀ v ∈ (s.transfers.eraseIdx k).map (s.resend t.dest),
      (∃ dest, v = s.copyAsync t.dest dest) ∨ v ∈ s.transfers := by
    intro v hv
    obtain ⟨u, hu, rfl⟩ := List.mem_map.mp hv
    by_cases hforward : u.src = t.dest ∧ u.pc = .onReceive
    · exact .inl ⟨u.dest, if_pos hforward⟩
    · have hsame : s.resend t.dest u = u := if_neg hforward
      rw [hsame]
      exact .inr (List.mem_of_mem_eraseIdx hu)
  refine ⟨fun v hv hflight => ?_, fun d hd => ?_, fun v hv hpc => ?_⟩
  · rcases hcases v hv with ⟨dest, rfl⟩ | hold
    · exact sourceKept_copyAsync hb.allocated dest hdest
    · exact h.live v hold hflight
  · refine h.selected d (hd.imp_left ?_)
    rintro ⟨a, ha, hsel⟩
    obtain ⟨b, hbmem, rfl⟩ := List.mem_map.mp ha
    refine ⟨b, hbmem, ?_⟩
    rw [← hsel]
    split <;> rfl
  · rcases hcases v hv with ⟨dest, rfl⟩ | hold
    · cases hpc
    · exact h.unposted v hold hpc

theorem Spared.step {s t : State n} {a : Action n} (hb : Inv s) (hd : Directed s) (h : Spared s)
    (hok : SparesSources s a) (he : Effect s a t) : Spared t := by
  cases he with
  | acquireFetch hlid hidle hordered hthreads hvalid hsrc =>
      refine h.startAccess hb fun d hd => ?_
      rw [← Option.some.inj hd]
      exact hsrc.allocated hb.allocated
  | acquireMark => exact h.startAccess hb fun d hd => by cases hd
  | @fetch i l src mode waiting hi =>
      have hsrc := h.selected src (.inl ⟨_, List.mem_of_getElem? hi, rfl⟩)
      refine (h.fetchOn l hsrc).frame rfl rfl rfl rfl (isSelected_setAccess rfl rfl fun d hd => ?_)
      rw [State.afterFetch_ind (p := fun pc : AccessPc n => pc.selected = none) rfl rfl] at hd
      cases hd
  | post | postHost =>
      refine (h.postCopy hb _).frame rfl rfl rfl rfl ?_
      exact isSelected_setAccess rfl rfl fun d hd => by cases hd
  | @markWrite i l mode waiting hi hwrite =>
      have hsrc := src_ne_of_write hb hd (hok _ hi hwrite) (List.mem_of_getElem? hi) hwrite
      refine (h.setAllDirtyExcept hsrc).frame rfl rfl rfl rfl ?_
      exact isSelected_setAccess rfl rfl fun d hd => by cases hd
  | markRead =>
      exact h.frame rfl rfl rfl rfl (isSelected_setAccess rfl rfl fun d hd => by cases hd)
  | release =>
      refine h.frame rfl rfl rfl rfl fun l hl => .inl (hl.imp_left ?_)
      rintro ⟨b, hbmem, hsel⟩
      exact ⟨b, List.mem_of_mem_eraseIdx hbmem, hsel⟩
  | prefetch hi hhost hsrc =>
      refine h.frame rfl rfl rfl rfl (isSelected_setAccess rfl rfl fun d hd => ?_)
      rw [← Option.some.inj hd]
      exact hsrc.allocated hb.allocated
  | @fetchHost i l src mode waiting hi =>
      have hsrc := h.selected src (.inl ⟨_, List.mem_of_getElem? hi, rfl⟩)
      refine (h.fetchOn host hsrc).frame rfl rfl rfl rfl
        (isSelected_setAccess rfl rfl fun d hd => ?_)
      rw [State.afterFetch_ind (p := fun pc : AccessPc n => pc.selected = none) rfl rfl] at hd
      cases hd
  | copy hk hpc =>
      have hkept := h.live _ (List.mem_of_getElem? hk) (by rw [hpc]; rfl)
      exact ⟨forall_mem_set h.live fun _ => hkept, h.selected,
        forall_mem_set h.unposted fun hpost => by cases hpost⟩
  | complete hk => exact h.complete hb hk
  | evictTest | evictLock | evictSkip =>
      exact h.frame rfl rfl rfl rfl (isSelected_setThread rfl rfl fun d hd => by cases hd)
  | evictDrop => exact h.dropReplica hb hok.1 hok.2
  | writebackSelect hlid hidle hdone hlist hhost hvalid hsrc =>
      refine h.frame rfl rfl rfl rfl (isSelected_setThread rfl rfl fun d hd => ?_)
      rw [← Option.some.inj hd]
      exact hsrc.allocated hb.allocated
  | writebackSkip => exact h.frame rfl rfl rfl rfl fun l hl => .inl hl
  | @writebackFetch l src hthread =>
      have hsrc := h.selected src (.inr ⟨l, by rw [hthread]; rfl⟩)
      refine (h.fetchOn host hsrc).frame rfl rfl rfl rfl
        (isSelected_setThread rfl rfl fun d hd => ?_)
      rw [State.afterFetch_ind (p := fun pc : ThreadPc n => pc.selected = none) rfl rfl] at hd
      cases hd
  | writebackPost =>
      refine (h.postCopy hb host).frame rfl rfl rfl rfl ?_
      exact isSelected_setThread rfl rfl fun d hd => by cases hd

/-! ## The sources of the copies -/

/-- In every run that spares the sources, the source of a copy keeps its buffer and is not
written from the submission of the copy to its callback. -/
theorem sourceLive_of_sparesSources {s : State n}
    (hs : (system n).ReachableWhen SparesSources s) : SourceLive s := by
  have hspared : Spared s := by
    refine hs.invariant_of_reachable (fun t ht => ?_) fun t a u ht h hok hstep => ?_
    · cases ht
      exact spared_initial
    · exact h.step (inv_of_reachableWhen ht) (directed_of_reachableWhen ht) hok
        (step_effect hstep)
  exact hspared.live

/-- The first device reads the data, and the second fetches it from there: the replicas are
unlocked, and the copy is not submitted. -/
def fetchRun : List (Action 2) :=
  [.acquire 1 .r 0, .fetch 0, .post 0, .mark 0, .copy 0, .complete 0, .release 0,
   .acquire 2 .r 1, .fetch 0]

/-- The first device evicts its replica after the copy. -/
def lateDropRun : List (Action 2) :=
  fetchRun ++
    [.post 0, .copy 0, .mark 0, .evictTest 1, .complete 0, .evictLock 1, .evictDrop 1]

theorem sourceLive_lateDropRun :
    ∃ s, (system 2).replay SparesSources initial lateDropRun = some s ∧ s.valid = {0, 2} ∧
      SourceLive s :=
  ⟨((system 2).replay SparesSources initial lateDropRun).get (by decide), by simp, by decide,
    sourceLive_of_sparesSources (.replay (.start rfl) (Option.some_get _).symm)⟩

/-- The first device evicts its replica, which is not pinned and which the host has as well,
while the device of the copy has still to read it. -/
def earlyDropRun : List (Action 2) :=
  fetchRun ++ [.post 0, .evictTest 1, .evictLock 1, .evictDrop 1]

/-- The same eviction between the unlocking of the replicas and the submission, which then gives
the device a null pointer. -/
def unlockedDropRun : List (Action 2) :=
  fetchRun ++ [.evictTest 1, .evictLock 1, .evictDrop 1, .post 0]

example : ∃ s, (system 2).run initial unlockedDropRun = some s ∧
    s.transfers.map Transfer.srcPtr = [none] ∧ ¬ SourceLive s :=
  ⟨((system 2).run initial unlockedDropRun).get (by decide), by simp, by decide, by decide⟩

/-- A task writes on the first device, a write-back task reads there and sends the data to the
host, and a second task writes before the device of the copy has read the data. -/
def overwriteRun : List (Action 1) :=
  [.acquire 1 .w 0, .mark 0, .release 0,
   .acquire 1 .r 0, .mark 0, .prefetch 0 1, .fetchHost 0, .post 0, .release 0,
   .acquire 1 .rw 0, .mark 0]

/-- Without evictions, the source of a copy can still be written by a later task. -/
theorem source_overwritten :
    ¬ ∀ (n : Nat) (s : State n),
      (system n).ReachableWhen (fun _ a => a.evicts = false) s → SourceLive s := by
  intro hall
  refine absurd (hall 1 (((system 1).replay (fun _ a => a.evicts = false) initial
    overwriteRun).get (by decide)) ?_) (by decide)
  exact .replay (.start rfl) (Option.some_get _).symm

/-- Without a condition the source of a copy can be dropped. -/
theorem source_dropped :
    ¬ ∀ (n : Nat) (s : State n), (system n).Reachable s → SourceLive s := by
  intro hall
  refine absurd (hall 2 (((system 2).run initial earlyDropRun).get (by decide)) ?_) (by decide)
  exact .replay (.start rfl) (Option.some_get _).symm

end Xkblas.Memory.Dsm
