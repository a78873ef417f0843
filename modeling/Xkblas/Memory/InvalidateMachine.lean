import Xkblas.Memory.Invalidate
import Xkblas.Memory.ReclaimSafety

/-!
# The bits of a data and its replicas

The bits `alloc` of a data say which of its replicas hold memory, and the bits `valid` and `xfer`
and the places in the caches are among them. Every step of an operation keeps this, and the data
of an operation stays known while it runs.
-/

namespace Xkblas.Memory.Invalidate

open Library
open LruCache
open Dsm (Lid host CacheList)
open Reclaim (Running Phase fetchMdi pinMdi allocateMdi bindMdi bindMdi_spec newMdi newReplica)

variable {δ : Type*} {n : Nat}

/-! ## The metadata of one data -/

/-- The bits of a data agree with its replicas, and a data that is known has memory on the
host. -/
structure Sound (m : Metadata n) : Prop where
  memory : ∀ l, (m.replicas l).ptr ≠ 0 ↔ l ∈ m.alloc
  valid : m.valid ⊆ m.alloc
  xfer : m.xfer ⊆ m.alloc
  cached : ∀ l ≠ host, (m.replicas l).cacheentry ≠ none → l ∈ m.alloc
  host : host ∉ m.alloc → m.alloc = ∅

namespace Sound

variable {m : Metadata n} {l : Lid n} {r : Replica}

/-- A replica changes, but not its memory. -/
theorem setReplica (h : Sound m) (hptr : r.ptr = (m.replicas l).ptr)
    (hentry : l ≠ Dsm.host → r.cacheentry ≠ none → l ∈ m.alloc) : Sound (m.setReplica l r) := by
  constructor
  case memory =>
    intro l'
    by_cases hl : l' = l
    · subst hl
      rw [Metadata.replicas_setReplica_self, hptr]
      exact h.memory l'
    · rw [Metadata.replicas_setReplica_of_ne hl]
      exact h.memory l'
  case valid => exact h.valid
  case xfer => exact h.xfer
  case cached =>
    intro l' hne hl'
    by_cases hl : l' = l
    · subst hl
      rw [Metadata.replicas_setReplica_self] at hl'
      exact hentry hne hl'
    · rw [Metadata.replicas_setReplica_of_ne hl] at hl'
      exact h.cached l' hne hl'
  case host => exact h.host

/-- The bits `valid` and `xfer` change among the allocated replicas. -/
theorem setBits (h : Sound m) {valid xfer : Finset (Lid n)} (hvalid : valid ⊆ m.alloc)
    (hxfer : xfer ⊆ m.alloc) : Sound { m with valid := valid, xfer := xfer } :=
  ⟨h.memory, hvalid, hxfer, h.cached, h.host⟩

/-- The counter of reservations of a replica changes. -/
theorem pin (h : Sound m) (pinned : Int) : Sound (pinMdi m l pinned) :=
  h.setReplica rfl (h.cached l)

/-- A copy to an allocated replica is asked for. -/
theorem fetch (h : Sound m) (hl : l ∈ m.alloc) : Sound (fetchMdi m l) := by
  unfold fetchMdi
  split
  · exact h
  · exact h.setBits h.valid (Finset.insert_subset hl h.xfer)

/-- A replica of a known data gets memory. -/
theorem allocate (h : Sound m) {ptr : Nat} (hptr : ptr ≠ 0) (hhost : Dsm.host ∈ m.alloc) :
    Sound (allocateMdi m l ptr) := by
  have hsub : m.alloc ⊆ insert l m.alloc := Finset.subset_insert l m.alloc
  constructor
  case memory =>
    intro l'
    show ((m.setReplica l _).replicas l').ptr ≠ 0 ↔ l' ∈ insert l m.alloc
    by_cases hl : l' = l
    · subst hl
      rw [Metadata.replicas_setReplica_self]
      exact iff_of_true hptr (Finset.mem_insert_self l' m.alloc)
    · rw [Metadata.replicas_setReplica_of_ne hl, h.memory l']
      exact (Finset.mem_insert.trans (or_iff_right hl)).symm
  case valid => exact h.valid.trans hsub
  case xfer => exact h.xfer.trans hsub
  case cached =>
    intro l' hne hl'
    by_cases hl : l' = l
    · exact hl ▸ Finset.mem_insert_self l m.alloc
    · refine hsub (h.cached l' hne ?_)
      rwa [show (allocateMdi m l ptr).replicas l' = m.replicas l' from
        Metadata.replicas_setReplica_of_ne hl] at hl'
  case host => exact fun hnot => absurd (hsub hhost) hnot

/-- The replica of a device loses its memory and leaves the cache. -/
theorem deallocate (h : Sound m) (hl : l ≠ Dsm.host) (hxfer : l ∉ m.xfer) (hptr : r.ptr = 0)
    (hentry : r.cacheentry = none) : Sound (m.deallocate l r) := by
  constructor
  case memory =>
    intro l'
    by_cases hll : l' = l
    · subst hll
      rw [Metadata.replicas_deallocate_self]
      exact iff_of_false (not_not.mpr hptr) (Finset.notMem_erase l' m.alloc)
    · rw [Metadata.replicas_deallocate_of_ne hll, h.memory l']
      exact (Finset.mem_erase.trans (and_iff_right hll)).symm
  case valid => exact Finset.erase_subset_erase l h.valid
  case xfer =>
    exact fun l' hl' => Finset.mem_erase.mpr ⟨fun heq => hxfer (heq ▸ hl'), h.xfer hl'⟩
  case cached =>
    intro l' hne hl'
    by_cases hll : l' = l
    · subst hll
      rw [Metadata.replicas_deallocate_self] at hl'
      exact absurd hentry hl'
    · rw [Metadata.replicas_deallocate_of_ne hll] at hl'
      exact Finset.mem_erase.mpr ⟨hll, h.cached l' hne hl'⟩
  case host =>
    intro hnot
    have hhost : Dsm.host ∉ m.alloc :=
      fun hmem => hnot (Finset.mem_erase.mpr ⟨hl.symm, hmem⟩)
    show m.alloc.erase l = ∅
    rw [h.host hhost, Finset.erase_empty]

/-- The metadata of a data that is not known have no bit set. -/
theorem empty (h : Sound m) (hhost : Dsm.host ∉ m.alloc) : m.valid = ∅ ∧ m.xfer = ∅ := by
  have halloc := h.host hhost
  exact ⟨Finset.subset_empty.mp (halloc ▸ h.valid), Finset.subset_empty.mp (halloc ▸ h.xfer)⟩

/-- `_kaapi_new_mdi` on a data that is not known. -/
theorem newMdi (h : Sound m) (hhost : Dsm.host ∉ m.alloc) {ptr size : Nat} (hptr : ptr ≠ 0) :
    Sound (newMdi m ptr size) := by
  have halloc := h.host hhost
  constructor
  case memory =>
    intro l
    show (Function.update m.replicas Dsm.host _ l).ptr ≠ 0 ↔ l ∈ ({Dsm.host} : Finset (Lid n))
    by_cases hl : l = Dsm.host
    · subst hl
      rw [Function.update_self]
      exact iff_of_true hptr (Finset.mem_singleton_self _)
    · rw [Function.update_of_ne hl, h.memory l, halloc]
      exact iff_of_false (Finset.notMem_empty l) fun hmem => hl (Finset.mem_singleton.mp hmem)
  case valid => exact Finset.Subset.refl _
  case xfer => exact Finset.empty_subset _
  case cached =>
    intro l hne hl
    rw [show (Reclaim.newMdi m ptr size).replicas l = m.replicas l from
      Function.update_of_ne hne _ _] at hl
    have hmem := h.cached l hne hl
    rw [halloc] at hmem
    exact absurd hmem (Finset.notMem_empty l)
  case host => exact fun hnot => absurd (Finset.mem_singleton_self _) hnot

end Sound

/-- What `kaapi_dsm_findaccess_on_node` leaves of the bits. -/
theorem sound_bindMdi {m m' : Metadata n} {l : Lid n} {ptr size : Nat} (h : Sound m)
    (hptr : ptr ≠ 0) (hbind : bindMdi m l ptr size = some m') :
    Sound m' ∧ m.alloc ⊆ m'.alloc ∧ m'.xfer = m.xfer ∧ host ∈ m'.alloc := by
  obtain ⟨m₁, hm₁, hbind⟩ := Option.bind_eq_some_iff.mp hbind
  have hfound : Sound m₁ ∧ m.alloc ⊆ m₁.alloc ∧ m₁.xfer = m.xfer ∧ host ∈ m₁.alloc := by
    split_ifs at hm₁ with hknown hunknown
    · cases hm₁
      exact ⟨h, Finset.Subset.refl _, rfl, (h.memory host).mp (hknown ▸ hptr)⟩
    · cases hm₁
      have hhost : host ∉ m.alloc := fun hmem => (h.memory host).mpr hmem hunknown.1
      refine ⟨h.newMdi hhost hptr, ?_, (h.empty hhost).2.symm, Finset.mem_singleton_self _⟩
      rw [h.host hhost]
      exact Finset.empty_subset _
  obtain ⟨hsound, hsub, hxfer, hhost⟩ := hfound
  split_ifs at hbind with hmem
  · cases hbind
    exact ⟨hsound, hsub, hxfer, hhost⟩
  · cases hbind
    -- a replica that is not allocated has no memory
    have hzero : (m₁.replicas l).ptr = 0 := not_not.mp fun hne => hmem ((hsound.memory l).mp hne)
    unfold newReplica
    rw [if_pos hzero]
    exact ⟨hsound.setReplica rfl (hsound.cached l), hsub, hxfer, hhost⟩

/-! ## The devices -/

/-- The data of an operation is known, and after the first step the device has memory for it. -/
structure Ready (s : Reclaim.State δ n) (l : Lid n) (op : Running δ) : Prop where
  device : l ≠ host
  known : host ∈ (s.base.mdi op.data).alloc
  allocated : op.phase ≠ .allocate → l ∈ (s.base.mdi op.data).alloc

/-- The invariant of the machine without the copies. -/
structure Machine (s : Reclaim.State δ n) : Prop where
  cached : ∃ outs : Lid n → Set EntryId, ∀ l ≠ host, Cached s.base l (outs l)
  sound : ∀ d, Sound (s.base.mdi d)
  ready : ∀ l op, s.running l = some op → Ready s l op

/-- A step leaves the bits `xfer`. -/
def SameXfer (s t : LruCache.State δ n) : Prop :=
  ∀ d, (t.mdi d).xfer = (s.mdi d).xfer

variable [DecidableEq δ]

theorem SameXfer.setMdi {s : LruCache.State δ n} {d : δ} {m : Metadata n}
    (h : m.xfer = (s.mdi d).xfer) : SameXfer s (s.setMdi d m) := by
  intro d'
  by_cases hd : d' = d
  · subst hd
    rw [State.mdi_setMdi_self, h]
  · rw [State.mdi_setMdi_of_ne hd]

namespace Machine

variable {s t : Reclaim.State δ n} {l : Lid n} {d : δ}

/-- The metadata of one data change. No replica loses its memory or moves in a cache. -/
theorem setMdi (h : Machine s) {m : Metadata n} (hsound : Sound m)
    (halloc : (s.base.mdi d).alloc ⊆ m.alloc)
    (hcache : ∀ l ≠ host, (m.replicas l).cacheentry = (s.base.rep l d).cacheentry ∧
      (m.replicas l).cachelist = (s.base.rep l d).cachelist) : Machine (s.setMdi d m) := by
  obtain ⟨outs, hcached⟩ := h.cached
  have hmono : ∀ d' l, l ∈ (s.base.mdi d').alloc → l ∈ ((s.setMdi d m).base.mdi d').alloc := by
    intro d' l hl
    show l ∈ ((s.base.setMdi d m).mdi d').alloc
    by_cases hd : d' = d
    · subst hd
      rw [State.mdi_setMdi_self]
      exact halloc hl
    · rwa [State.mdi_setMdi_of_ne hd]
  constructor
  case cached => exact ⟨outs, fun l hl => (hcached l hl).setMdi (hcache l hl).1 (hcache l hl).2⟩
  case sound =>
    intro d'
    show Sound ((s.base.setMdi d m).mdi d')
    by_cases hd : d' = d
    · subst hd
      rwa [State.mdi_setMdi_self]
    · rw [State.mdi_setMdi_of_ne hd]
      exact h.sound d'
  case ready =>
    intro l op hop
    have hready := h.ready l op hop
    exact ⟨hready.device, hmono _ _ hready.known,
      fun hphase => hmono _ _ (hready.allocated hphase)⟩

/-- The bits `valid` and `xfer` of one data change. -/
theorem setBits (h : Machine s) {m : Metadata n} (hsound : Sound m)
    (halloc : m.alloc = (s.base.mdi d).alloc) (hrep : m.replicas = (s.base.mdi d).replicas) :
    Machine (s.setMdi d m) :=
  h.setMdi hsound (halloc ▸ Finset.Subset.refl _) fun l _ => by
    rw [hrep]
    exact ⟨rfl, rfl⟩

/-- The counter of reservations of one replica changes. -/
theorem pin (h : Machine s) (pinned : Int) :
    Machine (s.setMdi d (pinMdi (s.base.mdi d) l pinned)) := by
  refine h.setMdi ((h.sound d).pin pinned) (Finset.Subset.refl _) fun l' _ => ?_
  by_cases hl : l' = l
  · subst hl
    rw [pinMdi, Metadata.replicas_setReplica_self]
    exact ⟨rfl, rfl⟩
  · rw [pinMdi, Metadata.replicas_setReplica_of_ne hl]
    exact ⟨rfl, rfl⟩

omit [DecidableEq δ] in
/-- The operation of a device changes. -/
theorem setRunning (h : Machine s) {op : Option (Running δ)}
    (hop : ∀ op', op = some op' → Ready s l op') : Machine (s.setRunning l op) := by
  refine ⟨h.cached, h.sound, fun l' op' hop' => ?_⟩
  have hready : Ready s l' op' := by
    by_cases hl : l' = l
    · subst hl
      have hself : (s.setRunning l' op).running l' = op := Function.update_self _ _ _
      exact hop op' (hself.symm.trans hop')
    · have hother : (s.setRunning l op).running l' = s.running l' :=
        Function.update_of_ne hl _ _
      exact h.ready l' op' (hother.symm.trans hop')
  exact ⟨hready.device, hready.known, hready.allocated⟩

omit [DecidableEq δ] in
/-- An operation that has passed its first step goes on. -/
theorem setPhase (h : Machine s) (op : Running δ) {phase : Phase} (hready : Ready s l op)
    (hphase : op.phase ≠ .allocate) : Machine (s.setRunning l (some { op with phase := phase })) :=
  h.setRunning fun op' hop' => by
    cases hop'
    exact ⟨hready.device, hready.known, fun _ => hready.allocated hphase⟩

/-! ### The steps of an operation -/

/-- `kaapi_dsm_findaccess_on_node` makes a data known. -/
theorem bind {ptr size : Nat} (h : Machine s)
    (hstep : Reclaim.step s (.bind l d ptr size) = some t) :
    Machine t ∧ SameXfer s.base t.base ∧ host ∈ (t.base.mdi d).alloc := by
  simp only [Reclaim.step] at hstep
  split at hstep
  case isTrue => cases hstep
  case isFalse hguard =>
    obtain ⟨m, hm, rfl⟩ := Option.map_eq_some_iff.mp hstep
    obtain ⟨hsound, halloc, hxfer, hhost⟩ :=
      sound_bindMdi (h.sound d) (not_or.mp hguard).1 hm
    refine ⟨h.setMdi hsound halloc fun l' hl' => (bindMdi_spec hm l' hl').1, .setMdi hxfer, ?_⟩
    show host ∈ ((s.base.setMdi d m).mdi d).alloc
    rwa [State.mdi_setMdi_self]

omit [DecidableEq δ] in
/-- An operation on a known data starts. -/
theorem start {operation : Reclaim.Operation} (h : Machine s)
    (hhost : host ∈ (s.base.mdi d).alloc) (hstep : s.start l d operation = some t) :
    Machine t ∧ t.base = s.base := by
  unfold Reclaim.State.start at hstep
  split at hstep
  case isTrue => cases hstep
  case isFalse hguard =>
    cases hstep
    refine ⟨h.setRunning fun op hop => ?_, rfl⟩
    cases hop
    refine ⟨(not_or.mp hguard).1, hhost, fun hphase => ?_⟩
    by_contra hnot
    exact hphase (if_neg hnot)

/-- Both kinds of operations. -/
theorem startAction {operation : Reclaim.Operation} (h : Machine s)
    (hhost : host ∈ (s.base.mdi d).alloc)
    (hstep : Reclaim.step s (startAction l d operation) = some t) :
    Machine t ∧ SameXfer s.base t.base := by
  cases operation with
  | prefetch =>
      obtain ⟨hmachine, hbase⟩ := h.start hhost hstep
      exact ⟨hmachine, fun _ => by rw [hbase]⟩
  | acquire mode =>
      obtain ⟨u, hu, rfl⟩ := Option.map_eq_some_iff.mp hstep
      obtain ⟨hmachine, hbase⟩ := h.start hhost hu
      rw [← hbase]
      refine ⟨hmachine.pin _, ?_⟩
      exact SameXfer.setMdi (s := u.base) (m := pinMdi (u.base.mdi d) l _) rfl

/-- Replicas of the device `l` are dropped. -/
structure Dropped (s t : LruCache.State δ n) (l : Lid n) : Prop where
  sound : ∀ d, Sound (t.mdi d)
  alloc : ∀ d, ∀ l' ≠ l, l' ∈ (s.mdi d).alloc → l' ∈ (t.mdi d).alloc
  xfer : SameXfer s t

theorem dropped_evictLoop {s t : LruCache.State δ n} {k : CacheList} {fuel size2 r : Nat}
    {curr : Option EntryId} (hl : l ≠ host) (h : ∀ d, Sound (s.mdi d))
    (hstep : State.evictLoop l k fuel curr size2 s = some (t, r)) : Dropped s t l := by
  refine State.evictLoop_rule (p := fun u => Dropped s u l) (fun u e d hu hxfer => ?_)
    ⟨h, fun _ _ _ hmem => hmem, fun _ => rfl⟩ hstep
  -- the replica of `d` is dropped, and it is not under transfer
  have hmdi : ∀ d', (u.evictEntry l k e d).mdi d' = (u.mdi d).drop l ∧ d' = d ∨
      (u.evictEntry l k e d).mdi d' = u.mdi d' := by
    intro d'
    show Function.update u.mdi d ((u.mdi d).drop l) d' = _ ∧ _ ∨ _
    by_cases hd : d' = d
    · rw [hd, Function.update_self]
      exact .inl ⟨rfl, rfl⟩
    · exact .inr (Function.update_of_ne hd _ _)
  refine ⟨fun d' => ?_, fun d' l' hne hmem => ?_, fun d' => ?_⟩
  · rcases hmdi d' with ⟨heq, rfl⟩ | heq <;> rw [heq]
    · exact (hu.sound d').deallocate hl hxfer rfl rfl
    · exact hu.sound d'
  · have hold := hu.alloc d' l' hne hmem
    rcases hmdi d' with ⟨heq, rfl⟩ | heq <;> rw [heq]
    · exact Finset.mem_erase.mpr ⟨hne, hold⟩
    · exact hold
  · rw [← hu.xfer d']
    rcases hmdi d' with ⟨heq, rfl⟩ | heq <;> rw [heq]
    rfl

/-- An operation that has no memory yet evicts other replicas of its device. -/
theorem evict {k : CacheList} {size : Nat} (h : Machine s)
    (hstep : Reclaim.step s (.evict l k size) = some t) :
    Machine t ∧ SameXfer s.base t.base := by
  obtain ⟨op, hop, hstep⟩ := Option.bind_eq_some_iff.mp hstep
  obtain ⟨⟨base, r⟩, hbase, rfl⟩ := Option.map_eq_some_iff.mp hstep
  obtain ⟨hrunning, hphase⟩ := Reclaim.at?_spec hop
  have hl := (h.ready l op hrunning).device
  obtain ⟨outs, hcached⟩ := h.cached
  have hkept := (Cached.evictFromlist hcached hl).1 base r hbase
  obtain ⟨⟨u, r'⟩, hloop, heq⟩ := Option.map_eq_some_iff.mp hbase
  cases heq
  obtain ⟨hsound, halloc, hxfer⟩ := dropped_evictLoop hl h.sound hloop
  refine ⟨⟨⟨outs, hkept⟩, hsound, fun l' op' hop' => ?_⟩, hxfer⟩
  have hready := h.ready l' op' hop'
  refine ⟨hready.device, halloc _ _ hl.symm hready.known, fun hphase' => ?_⟩
  -- the operation of the device `l` itself has no memory to lose
  have hne : l' ≠ l := by
    intro hll
    subst hll
    obtain rfl : op = op' := Option.some.inj (hrunning.symm.trans hop')
    exact hphase' hphase
  exact halloc _ _ hne (hready.allocated hphase')

theorem allocate {ptr : Nat} (h : Machine s)
    (hstep : Reclaim.step s (.allocate l ptr) = some t) : Machine t ∧ SameXfer s.base t.base := by
  simp only [Reclaim.step] at hstep
  split at hstep
  case isTrue => cases hstep
  case isFalse hptr =>
    obtain ⟨op, hop, rfl⟩ := Option.map_eq_some_iff.mp hstep
    have hready := h.ready l op (Reclaim.at?_spec hop).1
    have hmachine : Machine (s.setMdi op.data (allocateMdi (s.base.mdi op.data) l ptr)) := by
      refine h.setMdi ((h.sound op.data).allocate hptr hready.known)
        (Finset.subset_insert _ _) fun l' _ => ?_
      by_cases hl : l' = l
      · subst hl
        rw [allocateMdi, Metadata.replicas_setReplica_self]
        exact ⟨rfl, rfl⟩
      · rw [allocateMdi, Metadata.replicas_setReplica_of_ne hl]
        exact ⟨rfl, rfl⟩
    have hself : ((s.base.setMdi op.data (allocateMdi (s.base.mdi op.data) l ptr)).mdi
        op.data).alloc = insert l (s.base.mdi op.data).alloc := by
      rw [State.mdi_setMdi_self]
      rfl
    refine ⟨hmachine.setRunning fun op' hop' => ?_, ?_⟩
    · cases hop'
      refine ⟨hready.device, ?_, fun _ => ?_⟩
      · exact hself.symm ▸ Finset.mem_insert_of_mem hready.known
      · exact hself.symm ▸ Finset.mem_insert_self l _
    · exact SameXfer.setMdi (m := allocateMdi (s.base.mdi op.data) l ptr) rfl

/-- The end of a fetch. A copy to `l` is asked for unless the replica is only written. -/
theorem fetch {op : Running δ} (h : Machine s) (hop : s.at? l .fetch = some op) :
    Machine (s.fetch l op) := by
  obtain ⟨hrunning, hphase⟩ := Reclaim.at?_spec hop
  have hready := h.ready l op hrunning
  have hmoved : op.phase ≠ .allocate := fun heq => by
    rw [heq] at hphase
    cases hphase
  have halloc := hready.allocated hmoved
  have hsame : ∀ m : Metadata n, (fetchMdi m l).alloc = m.alloc ∧
      (fetchMdi m l).replicas = m.replicas := by
    intro m
    unfold fetchMdi
    split
    · exact ⟨rfl, rfl⟩
    · exact ⟨rfl, rfl⟩
  have hkept := hsame (s.base.mdi op.data)
  have hfetch : Machine (s.setMdi op.data (fetchMdi (s.base.mdi op.data) l)) :=
    h.setBits ((h.sound op.data).fetch halloc) hkept.1 hkept.2
  have hmem : ∀ l', l' ∈ (s.base.mdi op.data).alloc →
      l' ∈ ((s.base.setMdi op.data (fetchMdi (s.base.mdi op.data) l)).mdi op.data).alloc := by
    intro l' hl'
    rw [State.mdi_setMdi_self, hkept.1]
    exact hl'
  unfold Reclaim.State.fetch
  split
  case h_1 => exact hfetch.setRunning fun _ hnone => nomatch hnone
  case h_2 mode _ =>
    cases mode.isRead with
    | true =>
        exact hfetch.setPhase op ⟨hready.device, hmem _ hready.known,
          fun _ => hmem _ halloc⟩ hmoved
    | false =>
        have hnone : Machine (s.setMdi op.data (s.base.mdi op.data)) :=
          h.setBits (h.sound op.data) rfl rfl
        refine hnone.setPhase op ⟨hready.device, ?_, fun _ => ?_⟩ hmoved
        · show host ∈ ((s.base.setMdi op.data (s.base.mdi op.data)).mdi op.data).alloc
          rw [State.mdi_setMdi_self]
          exact hready.known
        · show l ∈ ((s.base.setMdi op.data (s.base.mdi op.data)).mdi op.data).alloc
          rw [State.mdi_setMdi_self]
          exact halloc

/-- A write access makes its replica the only valid one. -/
theorem mark (h : Machine s) (hstep : Reclaim.step s (.mark l) = some t) :
    Machine t ∧ SameXfer s.base t.base := by
  obtain ⟨op, hop, rfl⟩ := Option.map_eq_some_iff.mp hstep
  obtain ⟨hrunning, hphase⟩ := Reclaim.at?_spec hop
  have hready := h.ready l op hrunning
  have hmoved : op.phase ≠ .allocate := fun heq => by
    rw [heq] at hphase
    cases hphase
  obtain ⟨m, hm, halloc, hrep, hxfer, hsound⟩ : ∃ m : Metadata n,
      s.mark l op = (s.setMdi op.data m).setRunning l (some { op with phase := .touch }) ∧
      m.alloc = (s.base.mdi op.data).alloc ∧ m.replicas = (s.base.mdi op.data).replicas ∧
      m.xfer = (s.base.mdi op.data).xfer ∧ Sound m := by
    have hold := h.sound op.data
    refine ⟨_, rfl, ?_⟩
    split
    case h_2 => exact ⟨rfl, rfl, rfl, hold⟩
    case h_1 =>
      split
      case isFalse => exact ⟨rfl, rfl, rfl, hold⟩
      case isTrue =>
        exact ⟨rfl, rfl, rfl, hold.setBits
          (Finset.singleton_subset_iff.mpr (hready.allocated hmoved)) hold.xfer⟩
  rw [hm]
  have hmem : ((s.base.setMdi op.data m).mdi op.data).alloc = (s.base.mdi op.data).alloc := by
    rw [State.mdi_setMdi_self, halloc]
  refine ⟨(h.setBits hsound halloc hrep).setPhase op ⟨hready.device, ?_, fun hphase' => ?_⟩ hmoved,
    SameXfer.setMdi hxfer⟩
  · exact hmem.symm ▸ hready.known
  · exact hmem.symm ▸ hready.allocated hphase'

/-- The touch puts an allocated replica into the cache. -/
theorem touch (h : Machine s) (hstep : Reclaim.step s (.touch l) = some t) :
    Machine t ∧ SameXfer s.base t.base := by
  obtain ⟨op, hop, hstep⟩ := Option.bind_eq_some_iff.mp hstep
  obtain ⟨base, hbase, rfl⟩ := Option.map_eq_some_iff.mp hstep
  obtain ⟨hrunning, hphase⟩ := Reclaim.at?_spec hop
  have hready := h.ready l op hrunning
  have halloc := hready.allocated fun heq => by
    rw [heq] at hphase
    cases hphase
  obtain ⟨outs, hcached⟩ := h.cached
  have hkept : ∀ l' ≠ host, Cached base l' (outs l') := by
    intro l' hl'
    by_cases hll : l' = l
    · subst hll
      obtain ⟨u, hu : s.base.touch l' op.operation.isWrite op.data = some u, hcached'⟩ :=
        (hcached l' hl').touch hl'
      obtain rfl : base = u := Option.some.inj (hbase.symm.trans hu)
      exact hcached'
    · exact (hcached l' hl').touch_other hll hbase
  -- the touch only changes the place of one replica
  obtain ⟨m, hm, hsound, halloc', hxfer⟩ : ∃ m : Metadata n,
      base.mdi = Function.update s.base.mdi op.data m ∧ Sound m ∧
      m.alloc = (s.base.mdi op.data).alloc ∧ m.xfer = (s.base.mdi op.data).xfer := by
    unfold LruCache.State.touch at hbase
    rw [if_neg hready.device] at hbase
    obtain ⟨⟨c, e⟩, _, rfl⟩ := Option.map_eq_some_iff.mp hbase
    exact ⟨_, rfl, (h.sound op.data).setReplica rfl fun _ _ => halloc, rfl, rfl⟩
  have hall : ∀ d, Sound (base.mdi d) ∧ (base.mdi d).alloc = (s.base.mdi d).alloc ∧
      (base.mdi d).xfer = (s.base.mdi d).xfer := by
    intro d
    rw [hm]
    by_cases hd : d = op.data
    · subst hd
      rw [Function.update_self]
      exact ⟨hsound, halloc', hxfer⟩
    · rw [Function.update_of_ne hd]
      exact ⟨h.sound d, rfl, rfl⟩
  have hmachine : Machine { s with base := base } := by
    refine ⟨⟨outs, hkept⟩, fun d => (hall d).1, fun l' op' hop' => ?_⟩
    have hready' := h.ready l' op' hop'
    refine ⟨hready'.device, ?_, fun hphase' => ?_⟩
    · exact (hall op'.data).2.1.symm ▸ hready'.known
    · exact (hall op'.data).2.1.symm ▸ hready'.allocated hphase'
  exact ⟨hmachine.setRunning fun _ hnone => (nomatch hnone), fun d => (hall d).2.2⟩

end Machine

end Xkblas.Memory.Invalidate
