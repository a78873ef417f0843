import Xkblas.Memory.Reclaim
import Xkblas.Library.FinLiteral

/-!
# No memory of a device is out of reach

A replica is stray if it holds memory of its device and is in no list of the cache. A step makes a
replica stray only if it allocates it. The invariant is that a stray replica is that of a running
acquisition, which will touch it. The allocation of a prefetch breaks it, unless the replica is in
the cache already.
-/

namespace Xkblas.Memory.Reclaim

open Library
open scoped Library.FinLiteral
open LruCache
open Dsm (Lid host CacheList AccessMode)

variable {δ : Type*} {n : Nat}

/-- The replica of `d` on `l` holds memory, and has no entry in the cache. -/
def Stray (s : LruCache.State δ n) (l : Lid n) (d : δ) : Prop :=
  (s.rep l d).ptr ≠ 0 ∧ (s.rep l d).cacheentry = none

section Stray

variable [DecidableEq δ] {s t : LruCache.State δ n} {l l' : Lid n} {d d' : δ}

/-- A change to the metadata of `d` that gives the replica on `l'` no memory out of the cache. -/
theorem Stray.of_setMdi {m : Metadata n} (h : Stray (s.setMdi d m) l' d')
    (hm : (m.replicas l').ptr = 0 ∨ (m.replicas l').cacheentry ≠ none ∨
      (m.replicas l').ptr = (s.rep l' d).ptr ∧
        (m.replicas l').cacheentry = (s.rep l' d).cacheentry) : Stray s l' d' := by
  unfold Stray at h
  rw [State.rep_setMdi] at h
  by_cases hd : d' = d
  · subst hd
    rw [Function.update_self] at h
    rcases hm with hptr | hcached | ⟨hptr, hentry⟩
    · exact absurd hptr h.1
    · exact absurd h.2 hcached
    · rwa [hptr, hentry] at h
  · rwa [Function.update_of_ne hd] at h

/-- A replica that loses its memory is not stray. -/
theorem Stray.of_deallocate {m : Metadata n} {r : Replica} (h : Stray (s.setMdi d
    (m.deallocate l r)) l' d') (hm : m.replicas l' = s.rep l' d) (hr : r.ptr = 0) :
    Stray s l' d' := by
  refine h.of_setMdi ?_
  by_cases hl : l' = l
  · subst hl
    rw [Metadata.replicas_deallocate_self]
    exact .inl hr
  · rw [Metadata.replicas_deallocate_of_ne hl]
    exact .inr (.inr (by rw [hm]; exact ⟨rfl, rfl⟩))

theorem Stray.of_evictEntry {k : CacheList} {e : EntryId}
    (h : Stray (s.evictEntry l k e d) l' d') : Stray s l' d' :=
  Stray.of_deallocate (m := s.mdi d) (l := l) h rfl rfl

theorem Stray.of_evictLoop {k : CacheList} {fuel size2 r : Nat} {curr : Option EntryId}
    (hstep : State.evictLoop l k fuel curr size2 s = some (t, r)) :
    Stray t l' d → Stray s l' d :=
  State.evictLoop_rule (p := fun u => Stray u l' d → Stray s l' d)
    (fun _ _ _ hu _ h => hu h.of_evictEntry) id hstep

theorem Stray.of_invalidateReplica (hstep : s.invalidateReplica d l = some t)
    (h : Stray t l' d') : Stray s l' d' := by
  unfold State.invalidateReplica at hstep
  split at hstep
  case isTrue =>
    cases hstep
    exact h.of_deallocate rfl rfl
  case isFalse =>
    obtain ⟨c, _, rfl⟩ := Option.map_eq_some_iff.mp hstep
    exact Stray.of_deallocate (s := s.setCache l c) h rfl rfl

theorem Stray.of_invalidateData (hstep : s.invalidateData d = some t) :
    Stray t l' d' → Stray s l' d' :=
  State.invalidateData_rule (p := fun u => Stray u l' d' → Stray s l' d')
    (fun _ _ _ hu hv h => hu (h.of_invalidateReplica hv)) id hstep

theorem Stray.of_invalidateBloc (hstep : s.invalidateBloc l d = some t) (h : Stray t l' d') :
    Stray s l' d' := by
  rcases LruCache.State.invalidateBloc_cases hstep with rfl | ⟨_, rfl⟩
  · exact h
  · exact h.of_deallocate rfl rfl

/-- A touch puts the replica into the cache and makes no replica stray. -/
theorem Stray.of_touch {write : Bool} (hl : l ≠ host) (hstep : s.touch l write d = some t)
    (h : Stray t l' d') : Stray s l' d' ∧ ¬ (l' = l ∧ d' = d) := by
  unfold State.touch at hstep
  rw [if_neg hl] at hstep
  obtain ⟨⟨c, e⟩, _, rfl⟩ := Option.map_eq_some_iff.mp hstep
  constructor
  · refine Stray.of_setMdi (s := s.setCache l _) h ?_
    by_cases hll : l' = l
    · subst hll
      rw [Metadata.replicas_setReplica_self]
      exact .inr (.inl (Option.some_ne_none e))
    · rw [Metadata.replicas_setReplica_of_ne hll]
      exact .inr (.inr ⟨rfl, rfl⟩)
  · rintro ⟨rfl, rfl⟩
    have hentry := h.2
    rw [State.rep_setMdi, Function.update_self, Metadata.replicas_setReplica_self] at hentry
    cases hentry

end Stray

/-! ## The invariant -/

variable [DecidableEq δ] {s t : State δ n} {l : Lid n} {d : δ}

/-- The caches are in place, and a stray replica is that of a running acquisition. -/
structure Inv (s : State δ n) : Prop where
  cached : ∃ outs : Lid n → Set EntryId, ∀ l ≠ host, Cached s.base l (outs l)
  stray : ∀ l ≠ host, ∀ d, Stray s.base l d →
    ∃ op, s.running l = some op ∧ op.data = d ∧ op.operation ≠ .prefetch
  idle : s.running host = none

/-- A prefetch only allocates a replica that is in the cache. -/
def CachedPrefetch (s : State δ n) (a : Action δ n) : Prop :=
  match a with
  | .allocate l _ => ∀ op ∈ s.running l, op.operation = .prefetch →
      (s.base.rep l op.data).cacheentry ≠ none
  | _ => True

omit [DecidableEq δ] in
instance (s : State δ n) (a : Action δ n) : Decidable (CachedPrefetch s a) := by
  unfold CachedPrefetch
  split
  · infer_instance
  · infer_instance

omit [DecidableEq δ] in
theorem inv_initial (h : Initial s) : Inv s := by
  refine ⟨⟨fun _ => ∅, fun l _ => h.base.cached l⟩, fun l _ d hstray => ?_, h.idle host⟩
  exact absurd (h.free d l) hstray.1

namespace Inv

omit [DecidableEq δ] in
/-- An operation on the caches that makes no replica stray. -/
theorem setBase (h : Inv s) {base : LruCache.State δ n}
    (hcached : ∃ outs : Lid n → Set EntryId, ∀ l ≠ host, Cached base l (outs l))
    (hstray : ∀ l d, Stray base l d → Stray s.base l d) : Inv { s with base := base } :=
  ⟨hcached, fun l hl d hd => h.stray l hl d (hstray l d hd), h.idle⟩

/-- The metadata of one data change, but no place in a cache does, and no memory is allocated. -/
theorem setMdi (h : Inv s) {m : Metadata n}
    (hm : ∀ l ≠ host, ((m.replicas l).cacheentry = (s.base.rep l d).cacheentry ∧
        (m.replicas l).cachelist = (s.base.rep l d).cachelist) ∧
      ((m.replicas l).ptr = (s.base.rep l d).ptr ∨ (m.replicas l).ptr = 0)) :
    Inv (s.setMdi d m) := by
  obtain ⟨outs, hcached⟩ := h.cached
  refine ⟨⟨outs, fun l hl => (hcached l hl).setMdi (hm l hl).1.1 (hm l hl).1.2⟩, ?_,
    h.idle⟩
  intro l hl d' hd'
  refine h.stray l hl d' (hd'.of_setMdi ?_)
  rcases (hm l hl).2 with hptr | hzero
  · exact .inr (.inr ⟨hptr, (hm l hl).1.1⟩)
  · exact .inl hzero

/-- The same when the replicas do not change. -/
theorem setBits (h : Inv s) {m : Metadata n} (hm : m.replicas = (s.base.mdi d).replicas) :
    Inv (s.setMdi d m) :=
  h.setMdi fun l _ => by rw [hm]; exact ⟨⟨rfl, rfl⟩, .inl rfl⟩

/-- The counter of reservations of one replica changes. -/
theorem setPinned (h : Inv s) (l : Lid n) (pinned : Int) :
    Inv (s.setMdi d (pinMdi (s.base.mdi d) l pinned)) := by
  refine h.setMdi fun l' _ => ?_
  by_cases hl : l' = l
  · subst hl
    rw [pinMdi, Metadata.replicas_setReplica_self]
    exact ⟨⟨rfl, rfl⟩, .inl rfl⟩
  · rw [pinMdi, Metadata.replicas_setReplica_of_ne hl]
    exact ⟨⟨rfl, rfl⟩, .inl rfl⟩

omit [DecidableEq δ] in
/-- The thread of a device goes on to an operation that accounts for its stray replicas. -/
theorem setRunning (h : Inv s) (hl : l ≠ host) {op : Option (Running δ)}
    (hop : ∀ d, Stray s.base l d → ∃ op', op = some op' ∧ op'.data = d ∧
      op'.operation ≠ .prefetch) : Inv (s.setRunning l op) := by
  refine ⟨h.cached, fun l' hl' d hd => ?_, (Function.update_of_ne hl.symm _ _).trans h.idle⟩
  by_cases hll : l' = l
  · subst hll
    obtain ⟨op', rfl, hop'⟩ := hop d hd
    exact ⟨op', Function.update_self _ _ _, hop'⟩
  · obtain ⟨op', hrunning, hop'⟩ := h.stray l' hl' d hd
    exact ⟨op', (Function.update_of_ne hll _ _).trans hrunning, hop'⟩

omit [DecidableEq δ] in
/-- An operation goes on to another point. -/
theorem setPhase (h : Inv s) {op : Running δ} {phase : Phase} (hrunning : s.running l = some op)
    (hl : l ≠ host) : Inv (s.setRunning l (some { op with phase := phase })) := by
  refine h.setRunning hl fun d hd => ?_
  obtain ⟨op', hop', hdata, hkind⟩ := h.stray l hl d hd
  obtain rfl : op = op' := Option.some.inj (hrunning.symm.trans hop')
  exact ⟨_, rfl, hdata, hkind⟩

omit [DecidableEq δ] in
/-- On an idle device no replica is stray. -/
theorem not_stray (h : Inv s) (hl : l ≠ host) (hidle : s.running l = none) (d : δ) :
    ¬ Stray s.base l d := by
  intro hd
  obtain ⟨op, hop, _⟩ := h.stray l hl d hd
  rw [hidle] at hop
  cases hop

end Inv

/-! ## Steps -/

/-- What `kaapi_dsm_findaccess_on_node` leaves of the replicas of the devices. -/
theorem bindMdi_spec {m m' : Metadata n} {ptr size : Nat} (h : bindMdi m l ptr size = some m') :
    ∀ l' ≠ host, ((m'.replicas l').cacheentry = (m.replicas l').cacheentry ∧
        (m'.replicas l').cachelist = (m.replicas l').cachelist) ∧
      ((m'.replicas l').ptr = (m.replicas l').ptr ∨ (m'.replicas l').ptr = 0) := by
  intro l' hl'
  obtain ⟨m₁, hm₁, h⟩ := Option.bind_eq_some_iff.mp h
  -- the search for the metadata keeps the replicas of the devices
  have hfound : m₁.replicas l' = m.replicas l' := by
    split_ifs at hm₁
    · cases hm₁
      rfl
    · cases hm₁
      exact Function.update_of_ne hl' _ _
  rw [← hfound]
  split_ifs at h
  · cases h
    exact ⟨⟨rfl, rfl⟩, .inl rfl⟩
  · cases h
    unfold newReplica
    by_cases hl : l' = l
    · subst hl
      split
      · rw [Metadata.replicas_setReplica_self]
        exact ⟨⟨rfl, rfl⟩, .inl rfl⟩
      · rw [Metadata.replicas_deallocate_self]
        exact ⟨⟨rfl, rfl⟩, .inr rfl⟩
    · split
      · rw [Metadata.replicas_setReplica_of_ne hl]
        exact ⟨⟨rfl, rfl⟩, .inl rfl⟩
      · rw [Metadata.replicas_deallocate_of_ne hl]
        exact ⟨⟨rfl, rfl⟩, .inl rfl⟩

omit [DecidableEq δ] in
theorem at?_spec {phase : Phase} {op : Running δ} (h : s.at? l phase = some op) :
    s.running l = some op ∧ op.phase = phase := by
  obtain ⟨hrunning, hphase⟩ := Option.filter_eq_some_iff.mp h
  exact ⟨hrunning, by simpa using hphase⟩

/-- A device invalidates its cache. -/
theorem inv_invalidateCache (h : Inv s) (hl : l ≠ host) {base : LruCache.State δ n}
    (hstep : s.base.invalidateCache l = some base) : Inv { s with base := base } := by
  obtain ⟨outs, hcached⟩ := h.cached
  obtain ⟨es, free, hinv⟩ := hcached l hl
  obtain ⟨⟨es', free', hinv'⟩, hothers, hrep⟩ := invalidateCache_inv hl hstep hinv
  obtain ⟨out, hself⟩ : ∃ out, Cached base l out := ⟨_, es', free', hinv'⟩
  refine h.setBase ⟨Function.update outs l out, fun l' hl' => ?_⟩ fun l' d hd => ?_
  · by_cases hll : l' = l
    · subst hll
      rw [Function.update_self]
      exact hself
    · rw [Function.update_of_ne hll]
      refine (hcached l' hl').congr (hothers l' hll).1 fun d => ?_
      rw [(hothers l' hll).2]
      exact ⟨rfl, rfl⟩
  · by_cases hll : l' = l
    · subst hll
      rcases hrep d with hptr | ⟨_, hsame⟩
      · exact absurd hptr hd.1
      · unfold Stray at hd ⊢
        rwa [hsame] at hd
    · unfold Stray at hd ⊢
      rwa [(hothers l' hll).2] at hd

/-- The touch of an acquisition ends it, with its replica in the cache. -/
theorem inv_touch (h : Inv s) {op : Running δ} (hl : l ≠ host) (hrunning : s.running l = some op)
    {write : Bool} {base : LruCache.State δ n} (hstep : s.base.touch l write op.data = some base) :
    Inv ({ s with base := base }.setRunning l none) := by
  obtain ⟨outs, hcached⟩ := h.cached
  have hkept : ∀ l' ≠ host, Cached base l' (outs l') := by
    intro l' hl'
    by_cases hll : l' = l
    · subst hll
      obtain ⟨u, hu : s.base.touch l' write op.data = some u, hcached'⟩ :=
        (hcached l' hl').touch hl'
      obtain rfl : base = u := Option.some.inj (hstep.symm.trans hu)
      exact hcached'
    · exact (hcached l' hl').touch_other hll hstep
  refine (h.setBase ⟨outs, hkept⟩ fun l' d hd => (hd.of_touch hl hstep).1).setRunning hl ?_
  intro d hd
  -- only the replica of the operation could be stray, and it has been touched
  obtain ⟨hold, hne⟩ := hd.of_touch hl hstep
  obtain ⟨op', hop', rfl, _⟩ := h.stray l hl d hold
  obtain rfl : op = op' := Option.some.inj (hrunning.symm.trans hop')
  exact absurd ⟨rfl, rfl⟩ hne

/-- The memory of an acquisition, or of a prefetch of a cached replica, is allocated. -/
theorem inv_allocate (h : Inv s) {op : Running δ} (hl : l ≠ host)
    (hrunning : s.running l = some op)
    (hok : op.operation = .prefetch → (s.base.rep l op.data).cacheentry ≠ none) (ptr : Nat) :
    Inv ((s.setMdi op.data (allocateMdi (s.base.mdi op.data) l ptr)).setRunning l
      (some { op with phase := .fetch })) := by
  obtain ⟨outs, hcached⟩ := h.cached
  have hself : (allocateMdi (s.base.mdi op.data) l ptr).replicas l =
      { s.base.rep l op.data with ptr := ptr } := Metadata.replicas_setReplica_self
  have hother : ∀ l' ≠ l, (allocateMdi (s.base.mdi op.data) l ptr).replicas l' =
      s.base.rep l' op.data := fun l' hll => Metadata.replicas_setReplica_of_ne hll
  refine ⟨⟨outs, fun l' hl' => ?_⟩, ?_, ?_⟩
  · refine (hcached l' hl').setMdi (d := op.data) ?_ ?_
    all_goals
      by_cases hll : l' = l
      · subst hll
        rw [hself]
      · rw [hother l' hll]
  · intro l' hl' d hd
    by_cases hll : l' = l
    · subst hll
      refine ⟨_, Function.update_self _ _ _, ?_⟩
      by_cases hdd : d = op.data
      · -- the replica of the operation itself: it is cached, or the operation will touch it
        refine ⟨hdd.symm, fun hprefetch => hok hprefetch ?_⟩
        have hentry := hd.2
        rw [show ((s.setMdi op.data _).setRunning l' _).base = (s.setMdi op.data _).base from rfl,
          State.setMdi, LruCache.State.rep_setMdi, hdd, Function.update_self, hself] at hentry
        exact hentry
      · have hold : Stray s.base l' d := by
          unfold Stray at hd ⊢
          rwa [show ((s.setMdi op.data _).setRunning l' _).base = (s.setMdi op.data _).base from
            rfl, State.setMdi, LruCache.State.rep_setMdi, Function.update_of_ne hdd] at hd
        obtain ⟨op', hop', hdata, hkind⟩ := h.stray l' hl' d hold
        obtain rfl : op = op' := Option.some.inj (hrunning.symm.trans hop')
        exact ⟨hdata, hkind⟩
    · have hold : Stray s.base l' d := by
        refine Stray.of_setMdi (d := op.data) hd ?_
        rw [hother l' hll]
        exact .inr (.inr ⟨rfl, rfl⟩)
      obtain ⟨op', hop', hop⟩ := h.stray l' hl' d hold
      exact ⟨op', (Function.update_of_ne hll _ _).trans hop', hop⟩
  · exact (Function.update_of_ne hl.symm _ _).trans h.idle

omit [DecidableEq δ] in
/-- An idle thread starts an operation. -/
theorem inv_start (h : Inv s) {operation : Operation} (hstep : s.start l d operation = some t) :
    Inv t ∧ t.base = s.base := by
  unfold State.start at hstep
  split at hstep
  case isTrue => cases hstep
  case isFalse hguard =>
    cases hstep
    obtain ⟨hl, hidle⟩ := not_or.mp hguard
    refine ⟨h.setRunning hl fun d hd => ?_, rfl⟩
    exact absurd hd (h.not_stray hl (not_not.mp hidle) d)

/-- One step that meets the condition keeps the invariant. -/
theorem inv_step {a : Action δ n} (h : Inv s) (hok : CachedPrefetch s a)
    (hstep : step s a = some t) : Inv t := by
  obtain ⟨outs, hcached⟩ := h.cached
  have hhost : ∀ {l op}, s.running l = some op → l ≠ host := by
    rintro l op hrunning rfl
    rw [h.idle] at hrunning
    cases hrunning
  cases a with
  | bind l d ptr size =>
      simp only [step] at hstep
      split at hstep
      case isTrue => cases hstep
      case isFalse =>
        obtain ⟨m, hm, rfl⟩ := Option.map_eq_some_iff.mp hstep
        exact h.setMdi (bindMdi_spec hm)
  | acquire l d mode =>
      obtain ⟨u, hu, rfl⟩ := Option.map_eq_some_iff.mp hstep
      obtain ⟨hinv, hbase⟩ := inv_start h hu
      rw [← hbase]
      exact hinv.setPinned l _
  | prefetch l d => exact (inv_start h hstep).1
  | evict l k size =>
      obtain ⟨op, hop, hevict⟩ := Option.bind_eq_some_iff.mp hstep
      obtain ⟨⟨base, r⟩, hbase, rfl⟩ := Option.map_eq_some_iff.mp hevict
      refine h.setBase ⟨outs, (Cached.evictFromlist hcached (hhost (at?_spec hop).1)).1 _ r hbase⟩ ?_
      intro l' d hd
      obtain ⟨⟨u, r'⟩, hu, heq⟩ := Option.map_eq_some_iff.mp hbase
      cases heq
      exact hd.of_evictLoop hu
  | allocate l ptr =>
      simp only [step] at hstep
      split at hstep
      case isTrue => cases hstep
      case isFalse =>
        obtain ⟨op, hop, rfl⟩ := Option.map_eq_some_iff.mp hstep
        have hrunning := (at?_spec hop).1
        exact inv_allocate h (hhost hrunning) hrunning (hok op hrunning) ptr
  | fetch l =>
      obtain ⟨op, hop, rfl⟩ := Option.map_eq_some_iff.mp hstep
      have hrunning := (at?_spec hop).1
      have hbits : ∀ m : Metadata n, (fetchMdi m l).replicas = m.replicas := by
        intro m
        unfold fetchMdi
        split <;> rfl
      unfold State.fetch
      split
      case h_1 hprefetch =>
        refine (h.setBits (hbits _)).setRunning (hhost hrunning) fun d hd => ?_
        have hold : Stray s.base l d := by
          refine Stray.of_setMdi (d := op.data) hd (.inr (.inr ?_))
          rw [hbits]
          exact ⟨rfl, rfl⟩
        obtain ⟨op', hop', _, hkind⟩ := h.stray l (hhost hrunning) d hold
        obtain rfl : op = op' := Option.some.inj (hrunning.symm.trans hop')
        exact absurd hprefetch hkind
      case h_2 mode _ =>
        refine Inv.setPhase (h.setBits ?_) hrunning (hhost hrunning)
        split
        · exact hbits _
        · rfl
  | mark l =>
      obtain ⟨op, hop, rfl⟩ := Option.map_eq_some_iff.mp hstep
      have hrunning := (at?_spec hop).1
      refine Inv.setPhase (h.setBits ?_) hrunning (hhost hrunning)
      split
      · split <;> rfl
      · rfl
  | touch l =>
      obtain ⟨op, hop, htouch⟩ := Option.bind_eq_some_iff.mp hstep
      obtain ⟨base, hbase, rfl⟩ := Option.map_eq_some_iff.mp htouch
      have hrunning := (at?_spec hop).1
      exact inv_touch h (hhost hrunning) hrunning hbase
  | fetchHost d =>
      cases hstep
      refine h.setBits ?_
      unfold fetchMdi
      split <;> rfl
  | complete l d =>
      simp only [step] at hstep
      split at hstep
      case isFalse => cases hstep
      case isTrue =>
        cases hstep
        exact h.setBits rfl
  | release l d =>
      cases hstep
      exact h.setPinned l _
  | invalidateBloc l d =>
      obtain ⟨base, hbase, rfl⟩ := Option.map_eq_some_iff.mp hstep
      exact h.setBase ⟨outs, fun l' hl' => (hcached l' hl').invalidateBloc hbase⟩
        fun _ _ hd => hd.of_invalidateBloc hbase
  | invalidateData d =>
      obtain ⟨base, hbase, rfl⟩ := Option.map_eq_some_iff.mp hstep
      obtain ⟨u, hu, hkept⟩ := Cached.invalidateData (d := d) hcached
      obtain rfl : base = u := Option.some.inj (hbase.symm.trans hu)
      exact h.setBase ⟨outs, hkept⟩ fun _ _ hd => hd.of_invalidateData hbase
  | invalidateCache l =>
      simp only [step] at hstep
      split at hstep
      case isTrue => cases hstep
      case isFalse =>
        obtain ⟨base, hbase, rfl⟩ := Option.map_eq_some_iff.mp hstep
        by_cases hl : l = host
        · rw [LruCache.State.invalidateCache, if_pos hl] at hbase
          cases hbase
          exact h
        · exact inv_invalidateCache h hl hbase

theorem inv_of_reachableWhen (hs : (system δ n).ReachableWhen CachedPrefetch s) : Inv s :=
  hs.invariant (fun _ hinit => inv_initial hinit) fun _ _ _ h hok hstep => inv_step h hok hstep

/-! ## Reclaiming -/

/-- The replica of `d` is that of an entry of one of the lists of the device `l`. -/
def Linked (s : LruCache.State δ n) (l : Lid n) (d : δ) : Prop :=
  ∃ k es, DoublyLinked (s.cache l).next (s.cache l).prev ((s.cache l).list k).beg
      ((s.cache l).list k).fin es ∧ ∃ e ∈ es, (s.cache l).mdi e = some d

omit [DecidableEq δ] in
/-- A replica that has an entry is linked. -/
theorem linked_of_cacheentry (h : Inv s) (hl : l ≠ host)
    (hentry : (s.base.rep l d).cacheentry ≠ none) : Linked s.base l d := by
  obtain ⟨outs, hcached⟩ := h.cached
  obtain ⟨es, free, hinv⟩ := hcached l hl
  obtain ⟨e, he⟩ := Option.ne_none_iff_exists'.mp hentry
  obtain ⟨k, _, hek, hd⟩ := hinv.mem_of_cacheentry he
  exact ⟨k, es k, hinv.linked k, e, hek, hd⟩

/-- In every run in which a prefetch allocates no replica that is not in the cache, a replica that
holds memory of a device is linked in a list of its cache, or the running operation of the device
is about it. When a device has invalidated its cache no replica holds its memory. -/
theorem reclaimable_of_cachedPrefetch (hs : (system δ n).ReachableWhen CachedPrefetch s) :
    (∀ l ≠ host, ∀ d, (s.base.rep l d).ptr ≠ 0 →
        (∃ op, s.running l = some op ∧ op.data = d) ∨ Linked s.base l d) ∧
      ∀ l ≠ host, ∀ t, step s (.invalidateCache l) = some t →
        ∀ d, (t.base.rep l d).ptr = 0 := by
  have h := inv_of_reachableWhen hs
  constructor
  · intro l hl d hptr
    by_cases hentry : (s.base.rep l d).cacheentry = none
    · obtain ⟨op, hop, hdata, _⟩ := h.stray l hl d ⟨hptr, hentry⟩
      exact .inl ⟨op, hop, hdata⟩
    · exact .inr (linked_of_cacheentry h hl hentry)
  · intro l hl t hstep d
    simp only [step] at hstep
    split at hstep
    case isTrue => cases hstep
    case isFalse hidle =>
      obtain ⟨base, hbase, rfl⟩ := Option.map_eq_some_iff.mp hstep
      obtain ⟨outs, hcached⟩ := h.cached
      obtain ⟨es, free, hinv⟩ := hcached l hl
      rcases (invalidateCache_inv hl hbase hinv).2.2 d with hptr | ⟨hentry, hsame⟩
      · exact hptr
      · -- a replica out of the cache that keeps its memory would be stray on an idle device
        by_contra hptr
        rw [show ({ s with base := base } : State δ n).base.rep l d = s.base.rep l d from hsame]
          at hptr
        exact h.not_stray hl (not_not.mp hidle) d ⟨hptr, hentry⟩

/-- One data that is not known, and one device. -/
def emptyState : State Unit 1 where
  base :=
    { mdi := fun _ =>
        { replicas := fun _ => ⟨0, 0, 0, none, none⟩, alloc := ∅, valid := ∅, xfer := ∅ }
      cache := fun _ =>
        ⟨fun _ => ⟨none, none⟩, none, [], fun _ => none, fun _ => none, fun _ => none⟩ }
  running := fun _ => none

theorem initial_emptyState : Initial emptyState where
  base :=
    { list := fun _ _ => rfl
      freelist := fun _ => rfl
      bloc := fun _ => rfl
      uncached := fun _ _ => ⟨rfl, rfl⟩
      consistent := fun _ => ⟨fun _ hl => hl, fun _ hl => absurd hl (Finset.notMem_empty _)⟩ }
  free := fun _ _ => rfl
  idle := fun _ => rfl

/-- The device reads the data for a task. -/
def acquireRun : List (Action Unit 1) :=
  [.bind 1 () 16 8, .acquire 1 () .r, .allocate 1 32, .fetch 1, .mark 1, .touch 1,
    .complete 1 ()]

theorem reclaimable_acquireRun :
    ∃ s, (system Unit 1).replay CachedPrefetch emptyState acquireRun = some s ∧
      (s.base.rep 1 ()).ptr = 32 ∧ s.running 1 = none ∧ Linked s.base 1 () ∧
      ∀ t, step s (.invalidateCache 1) = some t → (t.base.rep 1 ()).ptr = 0 := by
  let s := ((system Unit 1).replay CachedPrefetch emptyState acquireRun).get (by decide)
  have hs := reclaimable_of_cachedPrefetch (s := s)
    (.replay (.start initial_emptyState) (Option.some_get _).symm)
  have hidle : s.running 1 = none := by decide
  refine ⟨s, (Option.some_get _).symm, by decide, hidle, ?_, fun t ht => ?_⟩
  · rcases hs.1 1 (by decide) () (by decide) with ⟨op, hop, _⟩ | hlinked
    · rw [hidle] at hop
      cases hop
    · exact hlinked
  · exact hs.2 1 (by decide) t ht ()

/-- The device prefetches the data, and the copy ends. -/
def prefetchRun : List (Action Unit 1) :=
  [.bind 1 () 16 8, .prefetch 1 (), .allocate 1 32, .fetch 1, .complete 1 ()]

/-- Without a condition on the prefetches a replica keeps memory that no eviction and no
invalidation of the cache finds. -/
theorem prefetch_leaks :
    ¬ ∀ (s : State Unit 1), (system Unit 1).Reachable s →
      (∀ l ≠ host, ∀ d, (s.base.rep l d).ptr ≠ 0 →
          (∃ op, s.running l = some op ∧ op.data = d) ∨ Linked s.base l d) ∧
        ∀ l ≠ host, ∀ t, step s (.invalidateCache l) = some t →
          ∀ d, (t.base.rep l d).ptr = 0 := by
  intro hall
  let s := ((system Unit 1).run emptyState prefetchRun).get (by decide)
  have hs : (system Unit 1).Reachable s :=
    .replay (.start initial_emptyState) (Option.some_get _).symm
  have hmemory := (hall s hs).2 1 (by decide) ((step s (.invalidateCache 1)).get (by decide))
    (Option.some_get _).symm ()
  exact absurd hmemory (by decide)

end Xkblas.Memory.Reclaim
