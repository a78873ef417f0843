import Xkblas.Memory.LruCacheInvariant

/-!
# The operations of a software cache keep its invariant

`Cached s l out` says that the cache of the device `l` has its entries in place, those of `out`
outside. A touch, an eviction and the invalidation of a data or of a replica keep it. The first
and the third always end, and an eviction ends unless it meets a replica under transfer.
-/

namespace Xkblas.Memory.LruCache

open Library
open Dsm (Lid host CacheList)

variable {δ : Type*} {n : Nat} {es : CacheList → List EntryId}
  {free before after : List EntryId} {out : Set EntryId} {k : CacheList} {e : EntryId}

namespace CacheInv

variable {c c' : Cache δ} {rep rep' : δ → Replica} {d : δ}

/-- A cached replica leaves its list. -/
theorem removeFromList [DecidableEq δ] (h : CacheInv c rep es free out)
    (hes : es k = before ++ e :: after) (hd : c.mdi e = some d) {r : Replica}
    (hentry : r.cacheentry = none) (hlist : r.cachelist = none) :
    CacheInv (c.removeFromList k e) (Function.update rep d r)
      (Function.update es k (before ++ after)) free (insert e out) := by
  refine (h.unlink hes hd hentry hlist).congr rfl rfl rfl (fun x hx => ?_) (fun x hx => ?_)
    (fun _ _ => rfl) fun _ => ⟨rfl, rfl⟩
  · exact Function.update_of_ne (fun heq => hx (Set.mem_insert_iff.mpr (.inl heq))) _ _
  · exact Function.update_of_ne (fun heq => hx (Set.mem_insert_iff.mpr (.inl heq))) _ _

/-- The entry of a touched replica is outside and holds its data. -/
theorem takeEntry [DecidableEq δ] (h : CacheInv c rep es free out) {r : Replica}
    (hentry : r.cacheentry = none) (hlist : r.cachelist = none) :
    ∃ c' e, c.takeEntry d (rep d) = some (c', e) ∧ e ∉ out ∧ c'.mdi e = some d ∧
      ∃ es' free', CacheInv c' (Function.update rep d r) es' free' (insert e out) := by
  unfold Cache.takeEntry
  split
  case h_1 hnone =>
    obtain ⟨free', hinv, hnew⟩ := h.allocateEntry
    refine ⟨_, _, rfl, hnew, Function.update_self _ _ _, es, free', ?_⟩
    refine hinv.congr rfl rfl rfl (fun _ _ => rfl) (fun _ _ => rfl) (fun x hx => ?_) fun d' => ?_
    · exact Function.update_of_ne (fun heq => hx (Set.mem_insert_iff.mpr (.inl heq))) _ _
    · by_cases hdd : d' = d
      · subst hdd
        rw [Function.update_self, hentry, hlist]
        exact ⟨hnone.symm, ((h.paired d').mp hnone).symm⟩
      · rw [Function.update_of_ne hdd]
        exact ⟨rfl, rfl⟩
  case h_2 e hsome =>
    obtain ⟨k, hk, he, hd⟩ := h.mem_of_cacheentry hsome
    obtain ⟨before, after, hes⟩ := List.append_of_mem he
    rw [hk]
    exact ⟨_, e, rfl, h.placed.notOut he, hd, _, free, h.removeFromList hes hd hentry hlist⟩

/-- A replica leaves the cache. -/
theorem uncache [DecidableEq δ] (h : CacheInv c rep es free out) {r : Replica}
    (hentry : r.cacheentry = none) (hlist : r.cachelist = none) :
    ∃ c', c.uncache (rep d) = some c' ∧
      ∃ es' free', CacheInv c' (Function.update rep d r) es' free' out := by
  unfold Cache.uncache
  split
  case h_1 hnone =>
    refine ⟨c, rfl, es, free, h.congr rfl rfl rfl (fun _ _ => rfl) (fun _ _ => rfl)
      (fun _ _ => rfl) fun d' => ?_⟩
    by_cases hdd : d' = d
    · subst hdd
      rw [Function.update_self, hentry, hlist]
      exact ⟨hnone.symm, ((h.paired d').mp hnone).symm⟩
    · rw [Function.update_of_ne hdd]
      exact ⟨rfl, rfl⟩
  case h_2 e hsome =>
    obtain ⟨k, hk, he, hd⟩ := h.mem_of_cacheentry hsome
    obtain ⟨before, after, hes⟩ := List.append_of_mem he
    rw [hk]
    have hremoved := h.removeFromList hes hd hentry hlist
    have hout : e ∈ insert e out := Set.mem_insert e out
    have hreset : CacheInv { c.removeFromList k e with
        mdi := Function.update (c.removeFromList k e).mdi e none } _ _ _ _ :=
      hremoved.congr rfl rfl rfl (fun _ _ => rfl) (fun _ _ => rfl)
        (fun x hx => Function.update_of_ne (ne_of_mem_of_not_mem hout hx).symm _ _)
        fun _ => ⟨rfl, rfl⟩
    have hfreed := hreset.pushFree hout
    rw [Set.insert_sdiff_self_of_notMem (h.placed.notOut he)] at hfreed
    exact ⟨_, rfl, _, e :: free, hfreed⟩

end CacheInv

/-! ## The caches of a state -/

namespace State

/-- The replicas of one locality domain. -/
def rep (s : State δ n) (l : Lid n) (d : δ) : Replica :=
  (s.mdi d).replicas l

variable {s : State δ n} {l l' : Lid n} {d : δ} {m : Metadata n} {c : Cache δ}

@[simp] theorem mdi_setCache : (s.setCache l c).mdi = s.mdi :=
  rfl

@[simp] theorem cache_setCache_self : (s.setCache l c).cache l = c :=
  Function.update_self _ _ _

theorem cache_setCache_of_ne (h : l' ≠ l) : (s.setCache l c).cache l' = s.cache l' :=
  Function.update_of_ne h _ _

@[simp] theorem rep_setCache : (s.setCache l c).rep l' = s.rep l' :=
  rfl

variable [DecidableEq δ]

@[simp] theorem cache_setMdi : (s.setMdi d m).cache = s.cache :=
  rfl

@[simp] theorem mdi_setMdi_self : (s.setMdi d m).mdi d = m :=
  Function.update_self _ _ _

theorem mdi_setMdi_of_ne {d' : δ} (h : d' ≠ d) : (s.setMdi d m).mdi d' = s.mdi d' :=
  Function.update_of_ne h _ _

theorem rep_setMdi : (s.setMdi d m).rep l = Function.update (s.rep l) d (m.replicas l) := by
  funext d'
  unfold rep setMdi
  by_cases hd : d' = d
  · subst hd
    simp
  · simp [hd]

/-- `kaapi_memory_cache_invalidate_bloc` does nothing on the host, and it ends elsewhere if the host
is allocated. -/
theorem invalidateBloc_cases {t : State δ n} (hstep : s.invalidateBloc l d = some t) :
    t = s ∨ host ∈ (s.mdi d).alloc ∧
      t = s.setMdi d (Metadata.deallocate { s.mdi d with valid := {host} } l
        { (s.mdi d).replicas l with ptr := 0, pinned := 0 }) := by
  unfold State.invalidateBloc at hstep
  split at hstep
  case isTrue => exact .inl (Option.some.inj hstep).symm
  case isFalse =>
    split at hstep
    case isFalse => cases hstep
    case isTrue halloc => exact .inr ⟨halloc, (Option.some.inj hstep).symm⟩

end State

namespace Metadata

variable {m : Metadata n} {l l' : Lid n} {r : Replica}

@[simp] theorem replicas_setReplica_self : (m.setReplica l r).replicas l = r :=
  Function.update_self _ _ _

theorem replicas_setReplica_of_ne (h : l' ≠ l) : (m.setReplica l r).replicas l' = m.replicas l' :=
  Function.update_of_ne h _ _

@[simp] theorem replicas_deallocate_self : (m.deallocate l r).replicas l = r :=
  Function.update_self _ _ _

theorem replicas_deallocate_of_ne (h : l' ≠ l) :
    (m.deallocate l r).replicas l' = m.replicas l' :=
  Function.update_of_ne h _ _

@[simp] theorem replicas_drop_self : (m.drop l).replicas l =
    { m.replicas l with ptr := 0, cachelist := none, cacheentry := none } :=
  Function.update_self _ _ _

theorem replicas_drop_of_ne (h : l' ≠ l) : (m.drop l).replicas l' = m.replicas l' :=
  Function.update_of_ne h _ _

end Metadata

/-- The entries of the cache of `l` are in place, those of `out` outside. -/
def Cached (s : State δ n) (l : Lid n) (out : Set EntryId) : Prop :=
  ∃ es free, CacheInv (s.cache l) (s.rep l) es free out

namespace Cached

variable {s t : State δ n} {l l' : Lid n} {d : δ}

/-- A step that keeps a cache and what the replicas say about it. -/
theorem congr (h : Cached s l out) (hcache : t.cache l = s.cache l)
    (hrep : ∀ d, (t.rep l d).cacheentry = (s.rep l d).cacheentry ∧
      (t.rep l d).cachelist = (s.rep l d).cachelist) : Cached t l out := by
  obtain ⟨es, free, hinv⟩ := h
  refine ⟨es, free, hinv.congr ?_ ?_ ?_ ?_ ?_ ?_ hrep⟩
  all_goals simp [hcache]

variable [DecidableEq δ]

/-- The metadata of one data changes, but not its place in the cache. -/
theorem setMdi (h : Cached s l out) {m : Metadata n}
    (hentry : (m.replicas l).cacheentry = (s.rep l d).cacheentry)
    (hlist : (m.replicas l).cachelist = (s.rep l d).cachelist) :
    Cached (s.setMdi d m) l out := by
  refine h.congr rfl fun d' => ?_
  rw [State.rep_setMdi]
  by_cases hd : d' = d
  · subst hd
    rw [Function.update_self]
    exact ⟨hentry, hlist⟩
  · rw [Function.update_of_ne hd]
    exact ⟨rfl, rfl⟩

/-- An operation on the cache of `l` and on one replica of `l` leaves the other caches. -/
theorem other (h : Cached s l' out) (hl : l' ≠ l) {c : Cache δ} {m : Metadata n}
    (hm : m.replicas l' = s.rep l' d) : Cached ((s.setCache l c).setMdi d m) l' out := by
  refine Cached.setMdi ?_ (congrArg Replica.cacheentry hm) (congrArg Replica.cachelist hm)
  exact h.congr (State.cache_setCache_of_ne hl) fun _ => ⟨rfl, rfl⟩

/-- A touch on the device `l`. -/
theorem touch {write : Bool} (h : Cached s l out) (hl : l ≠ host) :
    ∃ t, s.touch l write d = some t ∧ Cached t l out := by
  obtain ⟨es, free, hinv⟩ := h
  let r := { s.rep l d with cachelist := none, cacheentry := none }
  obtain ⟨c, e, htake, hout, hd, es', free', hinv'⟩ :=
    hinv.takeEntry (d := d) (r := r) rfl rfl
  unfold State.touch
  rw [if_neg hl, show (s.mdi d).replicas l = s.rep l d from rfl, htake]
  let list := (s.mdi d).touchList l write
  refine ⟨(s.setCache l (c.pushFront list e)).setMdi d ((s.mdi d).setReplica l
    { s.rep l d with cachelist := some list, cacheentry := some e }), rfl, ?_⟩
  have hpush := hinv'.pushFront (k := list) (Set.mem_insert e out) hd
    (by rw [Function.update_self])
    (r := { s.rep l d with cachelist := some list, cacheentry := some e }) rfl rfl
  rw [Set.insert_sdiff_self_of_notMem hout, Function.update_idem] at hpush
  refine ⟨Function.update es' list (e :: es' list), free', ?_⟩
  rw [State.rep_setMdi, State.cache_setMdi, State.cache_setCache_self, State.rep_setCache,
    Metadata.replicas_setReplica_self]
  exact hpush

/-- A touch leaves the caches of the other devices. -/
theorem touch_other {write : Bool} (h : Cached s l' out) (hl : l' ≠ l)
    (hstep : s.touch l write d = some t) : Cached t l' out := by
  unfold State.touch at hstep
  split at hstep
  case isTrue => exact Option.some.inj hstep ▸ h
  case isFalse =>
    obtain ⟨⟨c, e⟩, _, rfl⟩ := Option.map_eq_some_iff.mp hstep
    exact h.other hl (Metadata.replicas_setReplica_of_ne hl)

/-! ### Eviction -/

/-- The entry of a dropped replica leaves its list for the free list. -/
theorem evictEntry_inv (h : CacheInv (s.cache l) (s.rep l) es free out)
    (hes : es k = before ++ e :: after) (hd : (s.cache l).mdi e = some d) :
    CacheInv ((s.evictEntry l k e d).cache l) ((s.evictEntry l k e d).rep l)
      (Function.update es k (before ++ after)) (e :: free) out := by
  have he : e ∈ es k := by simp [hes]
  have hout : e ∈ insert e out := Set.mem_insert e out
  have hunlinked := h.unlink hes hd (r := ((s.mdi d).drop l).replicas l)
    (by rw [Metadata.replicas_drop_self]) (by rw [Metadata.replicas_drop_self])
  have hreset : CacheInv { (s.cache l).unlink k e with
      prev := Function.update ((s.cache l).unlink k e).prev e none } _ _ _ _ :=
    hunlinked.congr rfl rfl rfl (fun _ _ => rfl)
      (fun x hx => Function.update_of_ne (ne_of_mem_of_not_mem hout hx).symm _ _) (fun _ _ => rfl)
      fun _ => ⟨rfl, rfl⟩
  have hfreed := hreset.pushFree hout
  rw [Set.insert_sdiff_self_of_notMem (h.placed.notOut he)] at hfreed
  unfold State.evictEntry
  rw [State.cache_setCache_self, State.rep_setCache, State.rep_setMdi]
  exact hfreed

/-- An eviction leaves the caches of the other devices. -/
theorem evictEntry_other (h : Cached s l' out) (hl : l' ≠ l) :
    Cached (s.evictEntry l k e d) l' out := by
  exact h.other hl (Metadata.replicas_drop_of_ne hl)

/-- The walk of an eviction from the last entry of `before`. It keeps the caches, and it only
stops without a result at a replica that is under transfer. -/
theorem evictLoop_spec {outs : Lid n → Set EntryId} {fuel : Nat} (size2 : Nat)
    (hinv : CacheInv (s.cache l) (s.rep l) es free (outs l))
    (hothers : ∀ l' ≠ l, l' ≠ host → Cached s l' (outs l')) (hes : es k = before ++ after)
    (hfuel : before.length < fuel) :
    (∀ t r, State.evictLoop l k fuel before.getLast? size2 s = some (t, r) →
      ∀ l' ≠ host, Cached t l' (outs l')) ∧
    (State.evictLoop l k fuel before.getLast? size2 s = none → ∃ d, l ∈ (s.mdi d).xfer) := by
  have hkept : ∀ l' ≠ host, Cached s l' (outs l') := by
    intro l' hl'
    by_cases hl : l' = l
    · exact hl ▸ ⟨es, free, hinv⟩
    · exact hothers l' hl hl'
  induction fuel generalizing before after s es free size2 with
  | zero => exact absurd hfuel (Nat.not_lt_zero _)
  | succ fuel ih =>
      rcases List.eq_nil_or_concat before with rfl | ⟨init, e, rfl⟩
      · refine ⟨fun t r hstep => ?_, fun hstep => by cases hstep⟩
        cases hstep
        exact hkept
      · rw [List.concat_eq_append] at hes hfuel ⊢
        have hsplit : es k = init ++ e :: after := by rw [hes, List.append_assoc]; rfl
        have hlen : init.length < fuel := by simpa using hfuel
        have hlinked := hinv.linked k
        rw [hsplit] at hlinked
        obtain ⟨d, hd⟩ := hinv.owned (k := k) (e := e) (by simp [hsplit])
        rw [List.getLast?_concat]
        simp only [State.evictLoop, hd, hlinked.prev_eq]
        split_ifs with hzero hevict hxfer
        · refine ⟨fun t r hstep => ?_, fun hstep => by cases hstep⟩
          cases hstep
          exact hkept
        · exact ⟨fun t r hstep => (by cases hstep), fun _ => ⟨d, hxfer⟩⟩
        · -- the replica is dropped, and the rest of the walk is that of the shorter list
          have hinv' := evictEntry_inv hinv hsplit hd
          have hothers' : ∀ l' ≠ l, l' ≠ host → Cached (s.evictEntry l k e d) l' (outs l') :=
            fun l' hl hl' => (hothers l' hl hl').evictEntry_other hl
          have hkept' : ∀ l' ≠ host, Cached (s.evictEntry l k e d) l' (outs l') := by
            intro l' hl'
            by_cases hl : l' = l
            · subst hl
              exact ⟨_, _, hinv'⟩
            · exact hothers' l' hl hl'
          have hes' : Function.update es k (init ++ after) k = init ++ after :=
            Function.update_self _ _ _
          refine ⟨(ih _ hinv' hothers' hes' hlen hkept').1, fun hstep => ?_⟩
          obtain ⟨d', hd'⟩ := (ih _ hinv' hothers' hes' hlen hkept').2 hstep
          refine ⟨d', ?_⟩
          by_cases hdd : d' = d
          · subst hdd
            simpa [State.evictEntry, State.setMdi, Metadata.drop, Metadata.deallocate] using hd'
          · simpa [State.evictEntry, State.setMdi, hdd] using hd'
        · exact ih _ hinv hothers hsplit hlen hkept

/-- `kaapi_memory_cache_evict_fromlist` keeps the caches, and it ends unless it meets a replica
that is under transfer. -/
theorem evictFromlist {outs : Lid n → Set EntryId} {size : Nat}
    (h : ∀ l ≠ host, Cached s l (outs l)) (hl : l ≠ host) :
    (∀ t r, s.evictFromlist l k size = some (t, r) → ∀ l' ≠ host, Cached t l' (outs l')) ∧
    (s.evictFromlist l k size = none → ∃ d, l ∈ (s.mdi d).xfer) := by
  obtain ⟨es, free, hinv⟩ := h l hl
  obtain ⟨hsome, hnone⟩ := evictLoop_spec (2 * size % 2 ^ 64) hinv (fun l' _ hl' => h l' hl')
    (List.append_nil (es k)).symm (hinv.length_lt_fuel k)
  rw [← (hinv.linked k).fin_eq] at hsome hnone
  unfold State.evictFromlist
  constructor
  · intro t r hstep
    obtain ⟨⟨t', r'⟩, hloop, heq⟩ := Option.map_eq_some_iff.mp hstep
    cases heq
    exact hsome _ _ hloop
  · intro hstep
    exact hnone (Option.map_eq_none_iff.mp hstep)

/-! ### Invalidation -/

/-- The replica of one locality domain is invalidated. -/
theorem invalidateReplica {outs : Lid n → Set EntryId}
    (h : ∀ l ≠ host, Cached s l (outs l)) (l : Lid n) :
    ∃ t, s.invalidateReplica d l = some t ∧ ∀ l' ≠ host, Cached t l' (outs l') := by
  unfold State.invalidateReplica
  by_cases hl : l = host
  · rw [if_pos hl]
    refine ⟨_, rfl, fun l' hl' => ?_⟩
    have hne : l' ≠ l := hl ▸ hl'
    have hm := Metadata.replicas_deallocate_of_ne (m := s.mdi d)
      (r := { (s.mdi d).replicas l with ptr := 0, pinned := 0 }) hne
    exact (h l' hl').setMdi (congrArg Replica.cacheentry hm) (congrArg Replica.cachelist hm)
  · rw [if_neg hl]
    obtain ⟨es, free, hinv⟩ := h l hl
    obtain ⟨c, hc, es', free', hinv'⟩ := hinv.uncache (d := d)
      (r := { s.rep l d with ptr := 0, pinned := 0, cachelist := none, cacheentry := none }) rfl rfl
    rw [show (s.mdi d).replicas l = s.rep l d from rfl, hc]
    refine ⟨_, rfl, fun l' hl' => ?_⟩
    by_cases hll : l' = l
    · subst hll
      refine ⟨es', free', ?_⟩
      rw [State.rep_setMdi, State.cache_setMdi, State.cache_setCache_self, State.rep_setCache,
        Metadata.replicas_deallocate_self]
      exact hinv'
    · exact (h l' hl').other hll (Metadata.replicas_deallocate_of_ne hll)

/-- `kaapi_memory_cache_invalidate_data` always ends and keeps the caches. -/
theorem invalidateData {outs : Lid n → Set EntryId} (h : ∀ l ≠ host, Cached s l (outs l)) :
    ∃ t, s.invalidateData d = some t ∧ ∀ l ≠ host, Cached t l (outs l) := by
  unfold State.invalidateData
  generalize (List.finRange (n + 1)).filter (· ∈ (s.mdi d).alloc) = lids
  induction lids generalizing s with
  | nil => exact ⟨s, rfl, h⟩
  | cons l lids ih =>
      obtain ⟨t, ht, hkept⟩ := Cached.invalidateReplica (d := d) h l
      obtain ⟨u, hu, hfinal⟩ := ih hkept
      refine ⟨u, ?_, hfinal⟩
      rw [List.foldlM_cons, ht]
      exact hu

/-- `kaapi_memory_cache_invalidate_bloc` leaves the caches. -/
theorem invalidateBloc (hstep : s.invalidateBloc l d = some t) (h : Cached s l' out) :
    Cached t l' out := by
  rcases State.invalidateBloc_cases hstep with rfl | ⟨_, rfl⟩
  · exact h
  · by_cases hl : l' = l
    · subst hl
      exact h.setMdi (by rw [Metadata.replicas_deallocate_self]; rfl)
        (by rw [Metadata.replicas_deallocate_self]; rfl)
    · exact h.setMdi (congrArg Replica.cacheentry (Metadata.replicas_deallocate_of_ne hl))
        (congrArg Replica.cachelist (Metadata.replicas_deallocate_of_ne hl))

end Cached

end Xkblas.Memory.LruCache
