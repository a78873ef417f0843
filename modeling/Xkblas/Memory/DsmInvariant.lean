import Xkblas.Library.ListUpdate
import Xkblas.Memory.Dsm

/-!
# The bookkeeping of the replicas

The invariant `Inv` holds in every state of every run, whatever is evicted or written. The
`xfer` bits are the destinations of the transfers, one transfer each; a device whose bit is set
has an access that waits for the data; and a replica that is valid or in transfer is allocated.
-/

namespace Xkblas.Memory.Dsm

open Library

variable {n : Nat}

namespace State

/-! ## What the operations change -/

@[simp] theorem allocate_accesses (s : State n) (l : Lid n) :
    (s.allocate l).accesses = s.accesses := by
  unfold allocate
  split <;> rfl

@[simp] theorem allocate_transfers (s : State n) (l : Lid n) :
    (s.allocate l).transfers = s.transfers := by
  unfold allocate
  split <;> rfl

@[simp] theorem allocate_valid (s : State n) (l : Lid n) : (s.allocate l).valid = s.valid := by
  unfold allocate
  split <;> rfl

@[simp] theorem allocate_xfer (s : State n) (l : Lid n) : (s.allocate l).xfer = s.xfer := by
  unfold allocate
  split <;> rfl

@[simp] theorem allocate_thread (s : State n) (l : Lid n) : (s.allocate l).thread = s.thread := by
  unfold allocate
  split <;> rfl

@[simp] theorem allocate_cachelist (s : State n) (l : Lid n) :
    (s.allocate l).cachelist = s.cachelist := by
  unfold allocate
  split <;> rfl

@[simp] theorem allocate_version (s : State n) (l : Lid n) :
    (s.allocate l).version = s.version := by
  unfold allocate
  split <;> rfl

@[simp] theorem allocate_writes (s : State n) (l : Lid n) : (s.allocate l).writes = s.writes := by
  unfold allocate
  split <;> rfl

@[simp] theorem allocate_alloc (s : State n) (l : Lid n) :
    (s.allocate l).alloc = insert l s.alloc := by
  unfold allocate
  split
  · rw [Finset.insert_eq_of_mem ‹_›]
  · rfl

/-- An allocation leaves the allocated replicas in place. -/
theorem allocate_of_mem (s : State n) {l d : Lid n} (hd : d ∈ s.alloc) :
    (s.allocate l).ptr d = s.ptr d ∧ (s.allocate l).holds d = s.holds d := by
  unfold allocate
  split
  · exact ⟨rfl, rfl⟩
  · have hne : d ≠ l := by
      rintro rfl
      contradiction
    exact ⟨Function.update_of_ne hne _ _, Function.update_of_ne hne _ _⟩

@[simp] theorem fetchOn_accesses (s : State n) (dest src : Lid n) :
    (s.fetchOn dest src).accesses = s.accesses := by
  unfold fetchOn
  split_ifs <;> rfl

theorem fetchOn_setAccess_accesses (s : State n) (dest src : Lid n) (i : Nat) (a : Access n) :
    ((s.fetchOn dest src).setAccess i a).accesses = s.accesses.set i a := by
  simp only [setAccess, fetchOn_accesses]

@[simp] theorem fetchOn_valid (s : State n) (dest src : Lid n) :
    (s.fetchOn dest src).valid = s.valid := by
  unfold fetchOn
  split_ifs <;> rfl

@[simp] theorem fetchOn_alloc (s : State n) (dest src : Lid n) :
    (s.fetchOn dest src).alloc = s.alloc := by
  unfold fetchOn
  split_ifs <;> rfl

@[simp] theorem fetchOn_ptr (s : State n) (dest src : Lid n) :
    (s.fetchOn dest src).ptr = s.ptr := by
  unfold fetchOn
  split_ifs <;> rfl

@[simp] theorem fetchOn_holds (s : State n) (dest src : Lid n) :
    (s.fetchOn dest src).holds = s.holds := by
  unfold fetchOn
  split_ifs <;> rfl

@[simp] theorem fetchOn_version (s : State n) (dest src : Lid n) :
    (s.fetchOn dest src).version = s.version := by
  unfold fetchOn
  split_ifs <;> rfl

@[simp] theorem fetchOn_writes (s : State n) (dest src : Lid n) :
    (s.fetchOn dest src).writes = s.writes := by
  unfold fetchOn
  split_ifs <;> rfl

@[simp] theorem fetchOn_thread (s : State n) (dest src : Lid n) :
    (s.fetchOn dest src).thread = s.thread := by
  unfold fetchOn
  split_ifs <;> rfl

@[simp] theorem fetchOn_cachelist (s : State n) (dest src : Lid n) :
    (s.fetchOn dest src).cachelist = s.cachelist := by
  unfold fetchOn
  split_ifs <;> rfl

@[simp] theorem fetchOn_synced (s : State n) (dest src : Lid n) :
    (s.fetchOn dest src).synced = s.synced := by
  unfold fetchOn
  split_ifs <;> rfl

/-- After a fetch the destination is valid or in transfer. -/
theorem mem_fetchOn_xfer (s : State n) (dest src l : Lid n) :
    l ∈ (s.fetchOn dest src).xfer ↔ l ∈ s.xfer ∨ l = dest ∧ dest ∉ s.valid := by
  unfold fetchOn
  split_ifs with hvalid hxfer
  · simp [hvalid]
  · constructor
    · exact Or.inl
    · rintro (h | ⟨rfl, _⟩)
      · exact h
      · exact hxfer
  · simp [hvalid, or_comm]
  · simp [hvalid, or_comm]

/-- A fetch adds at most one transfer, for a destination that had none: a copy to submit, or a
forwarding if the source is in transfer. -/
theorem fetchOn_transfers (s : State n) (dest src : Lid n) :
    (s.fetchOn dest src).transfers = s.transfers ∨
      ∃ t, (s.fetchOn dest src).transfers = s.transfers ++ [t] ∧ dest ∉ s.valid ∧
        dest ∉ s.xfer ∧ t.src = src ∧ t.dest = dest ∧
        (src ∈ s.xfer ∧ t.pc = .onReceive ∨ src ∉ s.xfer ∧ t.pc = .unposted) := by
  unfold fetchOn
  split_ifs with hvalid hxfer hsrc
  · exact .inl rfl
  · exact .inl rfl
  · exact .inr ⟨_, rfl, hvalid, hxfer, rfl, rfl, .inl ⟨hsrc, rfl⟩⟩
  · exact .inr ⟨_, rfl, hvalid, hxfer, rfl, rfl, .inr ⟨hsrc, rfl⟩⟩

/-- A property of both points holds of the point after the locks. -/
theorem afterFetch_ind {α : Type*} {p : α → Prop} {s : State n} {dest src : Lid n}
    {posting returned : α} (hposting : p posting) (hreturned : p returned) :
    p (s.afterFetch dest src posting returned) := by
  unfold afterFetch
  split
  · exact hposting
  · exact hreturned

@[simp] theorem posted_dest (s : State n) (dest : Lid n) (t : Transfer n) :
    (s.posted dest t).dest = t.dest := by
  unfold posted
  split <;> rfl

@[simp] theorem posted_src (s : State n) (dest : Lid n) (t : Transfer n) :
    (s.posted dest t).src = t.src := by
  unfold posted
  split <;> rfl

/-- A submission keeps the destinations of the transfers. -/
theorem postCopy_map_dest (s : State n) (dest : Lid n) :
    (s.postCopy dest).transfers.map Transfer.dest = s.transfers.map Transfer.dest := by
  show (s.transfers.map (s.posted dest)).map Transfer.dest = _
  rw [List.map_map]
  exact List.map_congr_left fun t _ => s.posted_dest dest t

/-- A transfer after a submission is one that was to be submitted, or it is as before. -/
theorem posted_cases (s : State n) (dest : Lid n) (t : Transfer n) :
    t.pc = .unposted ∧ s.posted dest t = s.copyAsync t.src t.dest ∨ s.posted dest t = t := by
  by_cases hpost : t.dest = dest ∧ t.pc = .unposted
  · exact .inl ⟨hpost.2, if_pos hpost⟩
  · exact .inr (if_neg hpost)

@[simp] theorem resend_dest (s : State n) (l : Lid n) (t : Transfer n) :
    (s.resend l t).dest = t.dest := by
  unfold resend
  split <;> rfl

@[simp] theorem resend_src (s : State n) (l : Lid n) (t : Transfer n) :
    (s.resend l t).src = t.src := by
  unfold resend
  split
  case isTrue h => exact h.1.symm
  case isFalse => rfl

/-- A source is valid or in transfer, or it is the host and nothing else is. -/
theorem IsSource.mem {s : State n} {src : Lid n} (h : s.IsSource src) :
    src ∈ s.valid ∨ src ∈ s.xfer ∨ src = host ∧ s.valid.erase host = ∅ := by
  unfold IsSource at h
  split_ifs at h with hvalid hxfer
  · exact .inr (.inr ⟨h, hvalid⟩)
  · exact .inr (.inl (Finset.mem_of_mem_erase h))
  · exact .inl (Finset.mem_of_mem_erase h)

end State

/-- A thread that does not write back has chosen no source. -/
theorem ThreadPc.selected_of_writesBack {pc : ThreadPc n} (h : pc.writesBack = false) :
    pc.selected = none := by
  cases pc with
  | writingBack src => cases h
  | idle | evictTested | evictLocked | posting => rfl

/-! ## The replicas that have the data or wait for it -/

/-- The replica has the data or waits for it: a fetch can choose it. -/
def Supplied (s : State n) (src : Lid n) : Prop :=
  src ∈ s.valid ∨ src ∈ s.xfer

/-- The replicas that a fetch can rely on stay when the bits grow. -/
theorem Supplied.mono {s t : State n} {src : Lid n} (h : Supplied s src)
    (hvalid : s.valid ⊆ t.valid) (hxfer : s.xfer ⊆ t.xfer) : Supplied t src :=
  h.imp (fun hv => hvalid hv) fun hx => hxfer hx

/-- The completion of a transfer gives its destination the data. -/
theorem Supplied.complete {s : State n} {src : Lid n} (h : Supplied s src) (l : Lid n)
    (payload : Option Nat) (transfers : List (Transfer n)) :
    Supplied (s.activateReplica l payload transfers) src := by
  by_cases hdest : src = l
  · exact .inl (hdest ▸ Finset.mem_insert_self _ _)
  · exact h.imp Finset.mem_insert_of_mem fun hx => Finset.mem_erase.mpr ⟨hdest, hx⟩

/-! ## The invariant -/

/-- The transfers and the `xfer` bits agree, and every device in transfer has a waiting access. -/
structure Transfers (s : State n) : Prop where
  nodup : (s.transfers.map Transfer.dest).Nodup
  mem_xfer : ∀ l, l ∈ s.xfer ↔ l ∈ s.transfers.map Transfer.dest
  waiting : ∀ l ∈ s.xfer, l ≠ host → ∃ a ∈ s.accesses, a.lid = l ∧ a.waiting = true
  selected : ∀ a ∈ s.accesses, a.waiting = true → a.pc.selected = none

/-- The replicas in use are allocated, and no eviction of the replica runs while its device
acquires it. -/
structure Allocated (s : State n) : Prop where
  host_mem : host ∈ s.alloc
  valid_subset : s.valid ⊆ s.alloc
  xfer_subset : s.xfer ⊆ s.alloc
  mem_alloc : ∀ l, l ∈ s.alloc ↔ s.ptr l ≠ none
  device : ∀ a ∈ s.accesses, a.lid ≠ host
  acquired : ∀ a ∈ s.accesses, a.pc.acquiring = true →
    a.lid ∈ s.alloc ∧ (s.thread a.lid).evicting = false
  hostThread : (s.thread host).evicting = false

/-- The accesses respect the dependency order. -/
def Exclusive (s : State n) : Prop :=
  ∀ a ∈ s.accesses, a.mode.isWrite = true → s.accesses.length ≤ 1

/-- The bookkeeping invariant. -/
structure Inv (s : State n) : Prop where
  transfers : Transfers s
  allocated : Allocated s
  exclusive : Exclusive s

theorem inv_initial : Inv (initial : State n) := by
  refine ⟨⟨?_, ?_, ?_, ?_⟩, ⟨?_, ?_, ?_, ?_, ?_, ?_, ?_⟩, ?_⟩
  all_goals simp [initial, Exclusive, ThreadPc.evicting]

/-! ## The transfers -/

/-- The bookkeeping of the transfers only looks at their destinations and at the waiting
accesses. -/
theorem Transfers.frame {s t : State n} (h : Transfers s)
    (hdest : t.transfers.map Transfer.dest = s.transfers.map Transfer.dest)
    (hxfer : t.xfer = s.xfer)
    (hwaiting : ∀ l, (∃ a ∈ s.accesses, a.lid = l ∧ a.waiting = true) →
      ∃ a ∈ t.accesses, a.lid = l ∧ a.waiting = true)
    (hselected : ∀ a ∈ t.accesses, a.waiting = true → a.pc.selected = none) : Transfers t where
  nodup := by
    rw [hdest]
    exact h.nodup
  mem_xfer := by
    rw [hdest, hxfer]
    exact h.mem_xfer
  waiting := by
    intro l hl hne
    rw [hxfer] at hl
    exact hwaiting l (h.waiting l hl hne)
  selected := hselected

/-- The replacement of an access by one on the same device that waits as well. -/
theorem Transfers.setAccess {s t : State n} (h : Transfers s) {i : Nat} {a b : Access n}
    (hi : s.accesses[i]? = some a) (haccesses : t.accesses = s.accesses.set i b)
    (hdest : t.transfers.map Transfer.dest = s.transfers.map Transfer.dest)
    (hxfer : t.xfer = s.xfer) (hlid : b.lid = a.lid) (hwaiting : b.waiting = a.waiting)
    (hselected : b.waiting = true → b.pc.selected = none) : Transfers t := by
  refine h.frame hdest hxfer ?_ ?_ <;> rw [haccesses]
  case refine_2 => exact forall_mem_set h.selected hselected
  intro l hl
  refine exists_mem_set hi hl ?_
  rw [hlid, hwaiting]
  exact id

/-- A fetch gives its destination a transfer if it has none, and a waiting access if it is a
device. -/
theorem Transfers.fetchOn {s t : State n} (h : Transfers s) {dest src : Lid n}
    (htransfers : t.transfers = (s.fetchOn dest src).transfers)
    (hxfer : t.xfer = (s.fetchOn dest src).xfer)
    (hwaiting : ∀ l, (∃ a ∈ s.accesses, a.lid = l ∧ a.waiting = true) →
      ∃ a ∈ t.accesses, a.lid = l ∧ a.waiting = true)
    (hdest : dest ∉ s.valid → dest ≠ host → ∃ a ∈ t.accesses, a.lid = dest ∧ a.waiting = true)
    (hselected : ∀ a ∈ t.accesses, a.waiting = true → a.pc.selected = none) : Transfers t where
  nodup := by
    rw [htransfers]
    rcases s.fetchOn_transfers dest src with heq | ⟨u, heq, _, hnew, _, hu, _⟩
    · rw [heq]
      exact h.nodup
    · rw [heq, List.map_append, List.map_singleton, hu]
      rw [h.mem_xfer] at hnew
      exact List.nodup_append'.mpr ⟨h.nodup, List.nodup_singleton _, by simpa using hnew⟩
  mem_xfer := by
    intro l
    rw [htransfers, hxfer, State.mem_fetchOn_xfer]
    by_cases hbusy : dest ∈ s.valid ∨ dest ∈ s.xfer
    · have heq : (s.fetchOn dest src).transfers = s.transfers := by
        unfold State.fetchOn
        rcases hbusy with hb | hb <;> split_ifs <;> rfl
      rw [heq, ← h.mem_xfer l]
      constructor
      · rintro (hl | ⟨rfl, hl⟩)
        · exact hl
        · exact hbusy.resolve_left hl
      · exact Or.inl
    · obtain ⟨hvalid, hnone⟩ := not_or.mp hbusy
      rcases s.fetchOn_transfers dest src with heq | ⟨u, heq, _, _, _, hu, _⟩
      · exfalso
        unfold State.fetchOn at heq
        rw [if_neg hvalid, if_neg hnone] at heq
        split at heq <;> simp at heq
      · rw [heq, List.map_append, List.map_singleton, hu, List.mem_append, ← h.mem_xfer l]
        simp [hvalid]
  waiting := by
    intro l hl hne
    rw [hxfer, State.mem_fetchOn_xfer] at hl
    rcases hl with hl | ⟨rfl, hvalid⟩
    · exact hwaiting l (h.waiting l hl hne)
    · exact hdest hvalid hne
  selected := hselected

/-- The completion of a transfer ends the only transfer of its destination. -/
theorem Transfers.complete {s : State n} (h : Transfers s) {k : Nat} {t : Transfer n}
    (hk : s.transfers[k]? = some t) (payload : Option Nat) :
    Transfers (s.activateReplica t.dest payload (s.transfers.eraseIdx k)) := by
  have hk' : (s.transfers.map Transfer.dest)[k]? = some t.dest := by
    rw [List.getElem?_map, hk]
    rfl
  have hmap : ((s.transfers.eraseIdx k).map (s.resend t.dest)).map Transfer.dest =
      (s.transfers.map Transfer.dest).eraseIdx k := by
    rw [List.map_map, List.eraseIdx_map]
    exact List.map_congr_left fun u _ => s.resend_dest t.dest u
  constructor
  · show (((s.transfers.eraseIdx k).map (s.resend t.dest)).map Transfer.dest).Nodup
    rw [hmap]
    exact h.nodup.sublist (List.eraseIdx_sublist _ _)
  · intro l
    show l ∈ s.xfer.erase t.dest ↔
      l ∈ ((s.transfers.eraseIdx k).map (s.resend t.dest)).map Transfer.dest
    rw [hmap, mem_eraseIdx_of_nodup h.nodup hk', Finset.mem_erase, h.mem_xfer]
  · intro l hl hne
    obtain ⟨hdest, hl⟩ := Finset.mem_erase.mp hl
    obtain ⟨a, ha, rfl, hwait⟩ := h.waiting l hl hne
    refine ⟨a, List.mem_map.mpr ⟨a, ha, ?_⟩, rfl, hwait⟩
    rw [if_neg hdest]
  · intro a ha hwait
    obtain ⟨b, hb, rfl⟩ := List.mem_map.mp ha
    by_cases hdest : b.lid = t.dest
    · simp [hdest] at hwait
    · rw [if_neg hdest] at hwait ⊢
      exact h.selected b hb hwait

theorem Transfers.step {s t : State n} {a : Action n} (h : Transfers s) (he : Effect s a t) :
    Transfers t := by
  cases he with
  | acquireFetch | acquireMark =>
      refine h.frame (by simp [State.startAccess]) (by simp [State.startAccess]) ?_ ?_
      · rintro l ⟨b, hb, hlid⟩
        exact ⟨b, List.mem_append_left _ hb, hlid⟩
      · intro b hb hwait
        rcases List.mem_append.mp hb with hb | hb
        · exact h.selected b hb hwait
        · rw [List.mem_singleton.mp hb] at hwait
          cases hwait
  | @fetch i l src mode waiting hi hlock hlockSrc =>
      refine h.fetchOn rfl rfl ?_ ?_ ?_
      · intro d hd
        refine exists_mem_set (by simpa using hi) (by simpa using hd) ?_
        intro hw
        exact absurd (h.selected _ (List.mem_of_getElem? hi) hw.2) (by simp [AccessPc.selected])
      · intro hvalid _
        obtain ⟨hlt, _⟩ := List.getElem?_eq_some_iff.mp hi
        exact ⟨_, List.mem_set (by simpa using hlt) _, rfl, by simpa using hvalid⟩
      · exact forall_mem_set (by simpa using h.selected) fun _ =>
          State.afterFetch_ind (p := fun pc : AccessPc n => pc.selected = none) rfl rfl
  | post hi | postHost hi =>
      exact h.setAccess hi rfl (s.postCopy_map_dest _) rfl rfl rfl fun _ => rfl
  | markWrite hi => exact h.setAccess hi rfl rfl rfl rfl rfl fun _ => rfl
  | markRead hi => exact h.setAccess hi rfl rfl rfl rfl rfl fun _ => rfl
  | release hi =>
      refine h.frame rfl rfl ?_ (forall_mem_eraseIdx h.selected)
      intro l hl
      exact exists_mem_eraseIdx hi hl (by simp)
  | prefetch hi => exact h.setAccess hi rfl rfl rfl rfl rfl fun hw => by cases hw
  | @fetchHost i l src mode waiting hi hlock =>
      refine h.fetchOn rfl rfl ?_ (fun _ hne => absurd rfl hne) ?_
      · intro d hd
        rw [← s.fetchOn_accesses host src] at hi hd
        exact exists_mem_set hi hd fun hw => hw
      · exact forall_mem_set (by simpa using h.selected) fun _ =>
          State.afterFetch_ind (p := fun pc : AccessPc n => pc.selected = none) rfl rfl
  | copy hk hpc =>
      exact h.frame (map_set_of_eq hk rfl) rfl (fun _ => id) h.selected
  | complete hk hpc hlock hresend => exact h.complete hk _
  | evictTest | evictLock | evictSkip | evictDrop | writebackSelect | writebackSkip =>
      exact h.frame rfl rfl (fun _ => id) h.selected
  | writebackFetch hthread =>
      refine h.fetchOn rfl rfl (fun _ hl => by simpa [State.addSynced, State.setThread] using hl)
        (fun _ hne => absurd rfl hne) ?_
      simpa [State.addSynced, State.setThread] using h.selected
  | writebackPost => exact h.frame (s.postCopy_map_dest host) rfl (fun _ => id) h.selected

/-! ## The allocations -/

/-- A step that keeps the allocations and does not start an eviction of an acquired replica. -/
theorem Allocated.frame {s t : State n} (h : Allocated s) (halloc : t.alloc = s.alloc)
    (hptr : t.ptr = s.ptr) (hvalid : t.valid ⊆ s.alloc) (hxfer : t.xfer ⊆ s.alloc)
    (haccesses : ∀ a ∈ t.accesses, a.lid ≠ host ∧ (a.pc.acquiring = true →
      a.lid ∈ s.alloc ∧ (t.thread a.lid).evicting = false))
    (hthread : (t.thread host).evicting = false) : Allocated t where
  host_mem := halloc ▸ h.host_mem
  valid_subset := halloc ▸ hvalid
  xfer_subset := halloc ▸ hxfer
  mem_alloc := by
    rw [halloc, hptr]
    exact h.mem_alloc
  device := fun a ha => (haccesses a ha).1
  acquired := by
    rw [halloc]
    exact fun a ha => (haccesses a ha).2
  hostThread := hthread

/-- What the invariant says about the accesses, in one statement. -/
theorem Allocated.accesses {s : State n} (h : Allocated s) : ∀ a ∈ s.accesses,
    a.lid ≠ host ∧ (a.pc.acquiring = true →
      a.lid ∈ s.alloc ∧ (s.thread a.lid).evicting = false) :=
  fun a ha => ⟨h.device a ha, h.acquired a ha⟩

/-- A device thread that is idle may start an eviction or a write-back: it acquires nothing. -/
theorem Allocated.setThread {s : State n} (h : Allocated s) {l : Lid n} {pc : ThreadPc n}
    (hpc : pc.evicting = true →
      l ≠ host ∧ ∀ a ∈ s.accesses, a.lid = l → a.pc.acquiring = false) :
    Allocated (s.setThread l pc) := by
  refine h.frame rfl rfl h.valid_subset h.xfer_subset ?_ ?_
  · intro a ha
    refine ⟨h.device a ha, fun hacq => ⟨(h.acquired a ha hacq).1, ?_⟩⟩
    simp only [State.setThread]
    by_cases hal : a.lid = l
    · rw [hal, Function.update_self]
      by_contra hev
      have hfalse := (hpc (by simpa using hev)).2 a ha hal
      rw [hacq] at hfalse
      cases hfalse
    · rw [Function.update_of_ne hal]
      exact (h.acquired a ha hacq).2
  · simp only [State.setThread]
    by_cases hhost : host = l
    · rw [← hhost, Function.update_self]
      by_contra hev
      exact (hpc (by simpa using hev)).1 hhost.symm
    · rw [Function.update_of_ne hhost]
      exact h.hostThread

/-- A thread that tests the bits of its replica acquires nothing, and is not the host. -/
theorem Allocated.of_evicting {s : State n} (h : Allocated s) {l : Lid n}
    (hthread : (s.thread l).evicting = true) :
    l ≠ host ∧ ∀ a ∈ s.accesses, a.lid = l → a.pc.acquiring = false := by
  constructor
  · rintro rfl
    rw [h.hostThread] at hthread
    cases hthread
  · rintro a ha rfl
    by_contra hacq
    rw [(h.acquired a ha (by simpa using hacq)).2] at hthread
    cases hthread

/-- A fetch of an allocated replica marks only its destination. -/
theorem Allocated.fetchOn_xfer_subset {s : State n} (h : Allocated s) {dest : Lid n}
    (hdest : dest ∈ s.alloc) (src : Lid n) : (s.fetchOn dest src).xfer ⊆ s.alloc := by
  intro l hl
  rcases (s.mem_fetchOn_xfer dest src l).mp hl with hl | ⟨rfl, _⟩
  · exact h.xfer_subset hl
  · exact hdest

theorem Allocated.startAccess {s : State n} (h : Allocated s) {l : Lid n} {mode : AccessMode}
    {pc : AccessPc n} (hlid : l ≠ host) (hidle : s.ThreadIdle l) :
    Allocated (s.startAccess l mode pc) := by
  have hsub : s.alloc ⊆ insert l s.alloc := Finset.subset_insert _ _
  constructor
  case host_mem => simpa [State.startAccess] using .inr h.host_mem
  case valid_subset => simpa [State.startAccess] using h.valid_subset.trans hsub
  case xfer_subset => simpa [State.startAccess] using h.xfer_subset.trans hsub
  case hostThread => simpa [State.startAccess] using h.hostThread
  case mem_alloc =>
    intro d
    simp only [State.startAccess, State.allocate]
    split
    · exact h.mem_alloc d
    · by_cases hd : d = l
      · simp [hd]
      · simpa [hd] using h.mem_alloc d
  case device =>
    intro a ha
    rcases List.mem_append.mp ha with ha | ha
    · exact h.device a ha
    · rw [List.mem_singleton.mp ha]
      exact hlid
  case acquired =>
    intro a ha hacq
    rcases List.mem_append.mp ha with ha | ha
    · obtain ⟨hmem, hthread⟩ := h.acquired a ha hacq
      exact ⟨by simpa [State.startAccess] using .inr hmem,
        by simpa [State.startAccess] using hthread⟩
    · rw [List.mem_singleton.mp ha]
      refine ⟨by simp [State.startAccess], ?_⟩
      simp [State.startAccess, hidle.1, ThreadPc.evicting]

theorem Allocated.dropReplica {s : State n} (h : Allocated s) {l : Lid n}
    (hthread : s.thread l = .evictLocked) (hxfer : l ∉ s.xfer) : Allocated (s.dropReplica l) := by
  have hhost : host ≠ l := by
    rintro rfl
    have := h.hostThread
    rw [hthread] at this
    cases this
  constructor
  case host_mem => exact Finset.mem_erase.mpr ⟨hhost, h.host_mem⟩
  case valid_subset => exact Finset.erase_subset_erase l h.valid_subset
  case xfer_subset =>
    intro d hd
    refine Finset.mem_erase.mpr ⟨?_, h.xfer_subset hd⟩
    rintro rfl
    exact hxfer hd
  case mem_alloc =>
    intro d
    by_cases hd : d = l
    · simp [State.dropReplica, hd]
    · simpa [State.dropReplica, hd] using h.mem_alloc d
  case device => exact h.device
  case acquired =>
    intro a ha hacq
    obtain ⟨hmem, hev⟩ := h.acquired a ha hacq
    have hne : a.lid ≠ l := by
      rintro rfl
      rw [hthread] at hev
      cases hev
    refine ⟨Finset.mem_erase.mpr ⟨hne, hmem⟩, ?_⟩
    simpa [State.dropReplica, hne] using hev
  case hostThread => simpa [State.dropReplica, hhost] using h.hostThread

theorem Allocated.step {s t : State n} {a : Action n} (h : Allocated s) (htr : Transfers s)
    (he : Effect s a t) : Allocated t := by
  cases he with
  | acquireFetch hlid hidle => exact h.startAccess hlid hidle
  | acquireMark hlid hidle => exact h.startAccess hlid hidle
  | fetch hi =>
      have ha := h.accesses _ (List.mem_of_getElem? hi)
      refine h.frame (by simp [State.setAccess]) (by simp [State.setAccess])
        (by simpa [State.setAccess] using h.valid_subset)
        (h.fetchOn_xfer_subset (ha.2 rfl).1 _) ?_ (by simpa [State.setAccess] using h.hostThread)
      simp only [State.setAccess, State.fetchOn_accesses, State.fetchOn_thread]
      exact forall_mem_set h.accesses ⟨ha.1, fun _ => ha.2 rfl⟩
  | post hi =>
      have ha := h.accesses _ (List.mem_of_getElem? hi)
      exact h.frame rfl rfl h.valid_subset h.xfer_subset
        (forall_mem_set h.accesses ⟨ha.1, fun _ => ha.2 rfl⟩) h.hostThread
  | postHost hi =>
      have ha := h.accesses _ (List.mem_of_getElem? hi)
      exact h.frame rfl rfl h.valid_subset h.xfer_subset
        (forall_mem_set h.accesses ⟨ha.1, fun hacq => by cases hacq⟩) h.hostThread
  | markWrite hi =>
      have ha := h.accesses _ (List.mem_of_getElem? hi)
      refine h.frame rfl rfl ?_ h.xfer_subset ?_ h.hostThread
      · exact Finset.singleton_subset_iff.mpr (ha.2 rfl).1
      · exact forall_mem_set h.accesses ⟨ha.1, fun hacq => by cases hacq⟩
  | markRead hi =>
      have ha := h.accesses _ (List.mem_of_getElem? hi)
      exact h.frame rfl rfl h.valid_subset h.xfer_subset
        (forall_mem_set h.accesses ⟨ha.1, fun hacq => by cases hacq⟩) h.hostThread
  | release hi =>
      exact h.frame rfl rfl h.valid_subset h.xfer_subset (forall_mem_eraseIdx h.accesses)
        h.hostThread
  | prefetch hi =>
      have ha := h.accesses _ (List.mem_of_getElem? hi)
      exact h.frame rfl rfl h.valid_subset h.xfer_subset
        (forall_mem_set h.accesses ⟨ha.1, fun hacq => by cases hacq⟩) h.hostThread
  | fetchHost hi =>
      have ha := h.accesses _ (List.mem_of_getElem? hi)
      refine h.frame (by simp [State.setAccess]) (by simp [State.setAccess])
        (by simpa [State.setAccess] using h.valid_subset)
        (h.fetchOn_xfer_subset h.host_mem _) ?_ (by simpa [State.setAccess] using h.hostThread)
      simp only [State.setAccess, State.fetchOn_accesses, State.fetchOn_thread]
      refine forall_mem_set h.accesses ⟨ha.1, fun hacq => ?_⟩
      rw [State.afterFetch_ind (p := fun pc : AccessPc n => pc.acquiring = false) rfl rfl] at hacq
      cases hacq
  | copy => exact h.frame rfl rfl h.valid_subset h.xfer_subset h.accesses h.hostThread
  | complete hk =>
      have hdest := h.xfer_subset ((htr.mem_xfer _).mpr
        (List.mem_map_of_mem (List.mem_of_getElem? hk)))
      refine h.frame rfl rfl (Finset.insert_subset hdest h.valid_subset)
        ((Finset.erase_subset _ _).trans h.xfer_subset) ?_ h.hostThread
      intro a ha
      obtain ⟨b, hb, rfl⟩ := List.mem_map.mp ha
      have hkeep := h.accesses b hb
      split
      · exact hkeep
      · exact hkeep
  | evictTest hlid hidle => exact h.setThread fun _ => ⟨hlid, hidle.2⟩
  | evictLock hthread => exact h.setThread fun _ => h.of_evicting (by rw [hthread]; rfl)
  | evictSkip hthread => exact h.setThread fun hev => by cases hev
  | evictDrop hthread hxfer => exact h.dropReplica hthread hxfer
  | writebackSelect => exact h.setThread fun hev => by cases hev
  | writebackSkip => exact h.frame rfl rfl h.valid_subset h.xfer_subset h.accesses h.hostThread
  | @writebackFetch l src =>
      have hset : Allocated (s.setThread l (s.afterFetch host src .posting .idle)) := by
        refine h.setThread fun hev => ?_
        rw [State.afterFetch_ind (p := fun pc : ThreadPc n => pc.evicting = false) rfl rfl] at hev
        cases hev
      refine hset.frame ?_ ?_ ?_ (h.fetchOn_xfer_subset h.host_mem src) ?_ ?_
      · simp [State.addSynced, State.setThread]
      · simp [State.addSynced, State.setThread]
      · simpa [State.addSynced, State.setThread] using h.valid_subset
      · simpa [State.addSynced, State.setThread] using hset.accesses
      · simpa [State.addSynced, State.setThread] using hset.hostThread
  | @writebackPost l =>
      have hset : Allocated (s.setThread l .idle) := h.setThread fun hev => by cases hev
      exact hset.frame rfl rfl h.valid_subset h.xfer_subset hset.accesses hset.hostThread

/-! ## The dependency order -/

/-- The order only looks at the number of the accesses and at their modes. -/
theorem Exclusive.frame {s t : State n} (h : Exclusive s)
    (hlength : t.accesses.length ≤ s.accesses.length)
    (hmode : ∀ b ∈ t.accesses, ∃ a ∈ s.accesses, a.mode = b.mode) : Exclusive t := by
  intro b hb hwrite
  obtain ⟨a, ha, hab⟩ := hmode b hb
  exact hlength.trans (h a ha (hab ▸ hwrite))

theorem Exclusive.setAccess {s t : State n} (h : Exclusive s) {i : Nat} {a b : Access n}
    (hi : s.accesses[i]? = some a) (haccesses : t.accesses = s.accesses.set i b)
    (hmode : b.mode = a.mode) : Exclusive t := by
  refine h.frame (by simp [haccesses]) ?_
  rw [haccesses]
  exact forall_mem_set (fun x hx => ⟨x, hx, rfl⟩) ⟨a, List.mem_of_getElem? hi, hmode.symm⟩

theorem exclusive_startAccess {s : State n} {l : Lid n} {mode : AccessMode}
    {pc : AccessPc n} (hordered : s.Ordered mode) : Exclusive (s.startAccess l mode pc) := by
  intro a ha hwrite
  show (s.accesses ++ [_]).length ≤ 1
  unfold State.Ordered at hordered
  split at hordered
  case isTrue => simp [hordered]
  case isFalse hread =>
    rcases List.mem_append.mp ha with ha | ha
    · rw [hordered a ha] at hwrite
      cases hwrite
    · rw [List.mem_singleton.mp ha] at hwrite
      exact absurd hwrite hread

theorem Exclusive.step {s t : State n} {a : Action n} (h : Exclusive s) (he : Effect s a t) :
    Exclusive t := by
  cases he with
  | acquireFetch hlid hidle hordered => exact exclusive_startAccess hordered
  | acquireMark hlid hidle hordered => exact exclusive_startAccess hordered
  | fetch hi => exact h.setAccess hi (s.fetchOn_setAccess_accesses _ _ _ _) rfl
  | post hi | postHost hi | markWrite hi | markRead hi | prefetch hi =>
      exact h.setAccess hi rfl rfl
  | fetchHost hi => exact h.setAccess hi (s.fetchOn_setAccess_accesses _ _ _ _) rfl
  | release =>
      exact h.frame (List.length_eraseIdx_le _ _) fun b hb => ⟨b, List.mem_of_mem_eraseIdx hb, rfl⟩
  | complete =>
      refine h.frame (by simp [State.activateReplica]) ?_
      intro b hb
      obtain ⟨a, ha, rfl⟩ := List.mem_map.mp hb
      refine ⟨a, ha, ?_⟩
      split <;> rfl
  | writebackFetch =>
      refine h.frame (by simp [State.addSynced, State.setThread]) fun b hb => ⟨b, ?_, rfl⟩
      simpa [State.addSynced, State.setThread] using hb
  | copy | evictTest | evictLock | evictSkip | evictDrop | writebackSelect | writebackSkip
  | writebackPost =>
      exact h

/-- A write acquired while no copy goes to the host finds no transfer but its own. -/
theorem xfer_subset_of_write {s : State n} (hb : Inv s) (hhost : host ∉ s.xfer) {a : Access n}
    (ha : a ∈ s.accesses) (hwrite : a.mode.isWrite = true) :
    ∀ l ∈ s.xfer, l = a.lid ∧ a.waiting = true := by
  intro l hl
  have hne : l ≠ host := by
    rintro rfl
    exact hhost hl
  obtain ⟨b, hmem, hlid, hwait⟩ := hb.transfers.waiting l hl hne
  have hba : b = a := eq_of_mem_of_length_le_one (hb.exclusive a ha hwrite) hmem ha
  exact ⟨by rw [← hba, hlid], hba ▸ hwait⟩

/-! ## All runs -/

theorem Inv.step {s t : State n} {a : Action n} (h : Inv s) (he : Effect s a t) : Inv t :=
  ⟨h.transfers.step he, h.allocated.step h.transfers he, h.exclusive.step he⟩

/-- The bookkeeping holds in every state of every run. -/
theorem inv_of_reachableWhen {ok : State n → Action n → Prop} {s : State n}
    (h : (system n).ReachableWhen ok s) : Inv s :=
  h.invariant (fun _ hs => hs ▸ inv_initial) fun _ _ _ hs _ hstep => hs.step (step_effect hstep)

end Xkblas.Memory.Dsm
