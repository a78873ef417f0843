import Xkblas.Memory.LruCacheMoves

/-!
# The invalidation of a software cache

`kaapi_memory_cache_invalidate_fromlist` sets the head of the free list to the entry after the
one that it has just freed. When the list is over the free list is empty, and the entries of the
list and those that were free are in no list (`Swept.cacheInv`). An empty list loses nothing.
-/

namespace Xkblas.Memory.LruCache

open Library
open Dsm (Lid host CacheList)

variable {δ : Type*} {n : Nat} {es : CacheList → List EntryId} {free : List EntryId}
  {out : Set EntryId} {k : CacheList} {e : EntryId}

/-! ## The loop over a list -/

/-- What `kaapi_memory_cache_invalidate_fromlist` has done to the entries `es` of the device `l`
when it leaves its loop. -/
structure Swept (s t : State δ n) (l : Lid n) (es : List EntryId) : Prop where
  list : (t.cache l).list = (s.cache l).list
  freelist : (t.cache l).freelist = if es = [] then (s.cache l).freelist else none
  bloc : (t.cache l).allocatedBloc = (s.cache l).allocatedBloc
  mdi : (t.cache l).mdi = (s.cache l).mdi
  prev : (t.cache l).prev = (s.cache l).prev
  next : ∀ e ∉ es, (t.cache l).next e = (s.cache l).next e
  others : ∀ l' ≠ l, t.cache l' = s.cache l' ∧ t.rep l' = s.rep l'
  cleared : ∀ d, (∃ e ∈ es, (s.cache l).mdi e = some d) →
    (t.rep l d).cacheentry = none ∧ (t.rep l d).cachelist = none ∧ (t.rep l d).ptr = 0 ∧
      l ∉ (t.mdi d).alloc ∧ (t.mdi d).valid = {host}
  kept : ∀ d, (¬ ∃ e ∈ es, (s.cache l).mdi e = some d) → t.mdi d = s.mdi d

/-- The metadata of a data whose replica on `l` has been invalidated and has left the cache. -/
def Metadata.invalidated (m : Metadata n) (l : Lid n) : Metadata n :=
  { m with valid := {host} }.deallocate l
    { m.replicas l with ptr := 0, pinned := 0, cacheentry := none, cachelist := none }

variable [DecidableEq δ] {s t : State δ n} {l l' : Lid n} {d : δ} {rest : List EntryId}

/-- The replica of one entry is invalidated. -/
theorem invalidateEntry_eq (hl : l ≠ host) (halloc : host ∈ (s.mdi d).alloc) :
    s.invalidateEntry l e d =
      some ((s.setMdi d ((s.mdi d).invalidated l)).setCache l
        { s.cache l with
          next := Function.update (s.cache l).next e (s.cache l).freelist
          freelist := (s.cache l).next e }) := by
  unfold State.invalidateEntry State.invalidateBloc
  rw [if_neg hl, if_pos halloc]
  simp [State.setMdi, Metadata.setReplica, Metadata.deallocate, Metadata.invalidated]

/-- The first entry of a list is swept, and then the others. -/
theorem Swept.cons (hl : l ≠ host) (hd : (s.cache l).mdi e = some d) (he : e ∉ rest)
    (hnext : (s.cache l).next e = rest.head?) {u : State δ n}
    (hu : u = (s.setMdi d ((s.mdi d).invalidated l)).setCache l
        { s.cache l with
          next := Function.update (s.cache l).next e (s.cache l).freelist
          freelist := (s.cache l).next e })
    (h : Swept u t l rest) : Swept s t l (e :: rest) := by
  have hcache : u.cache l = { s.cache l with
      next := Function.update (s.cache l).next e (s.cache l).freelist
      freelist := (s.cache l).next e } := by
    rw [hu, State.cache_setCache_self]
  have hmdi : u.mdi = Function.update s.mdi d ((s.mdi d).invalidated l) := by
    rw [hu]
    rfl
  have humdi : (u.cache l).mdi = (s.cache l).mdi := by rw [hcache]
  constructor
  case list => rw [h.list, hcache]
  case freelist =>
    rw [h.freelist, hcache, if_neg (List.cons_ne_nil _ _)]
    split
    case isTrue hrest => rw [hnext, hrest, List.head?_nil]
    case isFalse => rfl
  case bloc => rw [h.bloc, hcache]
  case mdi => rw [h.mdi, hcache]
  case prev => rw [h.prev, hcache]
  case next =>
    intro x hx
    rw [h.next x fun hmem => hx (List.mem_cons_of_mem _ hmem), hcache]
    exact Function.update_of_ne (List.ne_of_not_mem_cons hx) _ _
  case others =>
    intro l' hll
    rw [(h.others l' hll).1, (h.others l' hll).2, hu]
    refine ⟨State.cache_setCache_of_ne hll, ?_⟩
    rw [State.rep_setCache, State.rep_setMdi]
    have hrep : ((s.mdi d).invalidated l).replicas l' = s.rep l' d :=
      Metadata.replicas_deallocate_of_ne hll
    rw [hrep, Function.update_eq_self]
  case cleared =>
    intro d' hd'
    by_cases hrest : ∃ x ∈ rest, (u.cache l).mdi x = some d'
    · exact h.cleared d' hrest
    · have hdd : d' = d := by
        obtain ⟨x, hx, hxd⟩ := hd'
        rcases List.mem_cons.mp hx with rfl | hx
        · exact Option.some.inj (hxd.symm.trans hd)
        · exact absurd ⟨x, hx, humdi ▸ hxd⟩ hrest
      subst hdd
      rw [State.rep, h.kept d' hrest, hmdi, Function.update_self]
      refine ⟨?_, ?_, ?_, Finset.notMem_erase _ _, ?_⟩
      · rw [Metadata.invalidated, Metadata.replicas_deallocate_self]
      · rw [Metadata.invalidated, Metadata.replicas_deallocate_self]
      · rw [Metadata.invalidated, Metadata.replicas_deallocate_self]
      · exact Finset.erase_eq_of_notMem (by simpa using hl)
  case kept =>
    intro d' hd'
    have hne : d' ≠ d := fun heq => hd' ⟨e, List.mem_cons_self, heq ▸ hd⟩
    have hrest : ¬ ∃ x ∈ rest, (u.cache l).mdi x = some d' := by
      rintro ⟨x, hx, hxd⟩
      exact hd' ⟨x, List.mem_cons_of_mem _ hx, humdi ▸ hxd⟩
    rw [h.kept d' hrest, hmdi, Function.update_of_ne hne]

/-- The loop over a list, on a device. It stops without a result only at a data whose host replica
is not allocated. -/
theorem invalidateLoop_spec {fuel : Nat} {curr : Option EntryId} (hl : l ≠ host)
    (hpath : IsPath (s.cache l).next curr rest none) (hnodup : rest.Nodup)
    (howned : ∀ e ∈ rest, ∃ d, (s.cache l).mdi e = some d) (hfuel : rest.length < fuel) :
    (∀ t, State.invalidateLoop l fuel curr s = some t → Swept s t l rest) ∧
      ((∀ d, host ∈ (s.mdi d).alloc) → (State.invalidateLoop l fuel curr s).isSome) := by
  induction rest generalizing fuel curr s with
  | nil =>
      obtain ⟨fuel, rfl⟩ := Nat.exists_eq_succ_of_ne_zero (by omega : fuel ≠ 0)
      obtain rfl : curr = none := hpath
      refine ⟨fun t hstep => ?_, fun _ => rfl⟩
      cases hstep
      constructor <;> simp
  | cons e rest ih =>
      obtain ⟨fuel, rfl⟩ := Nat.exists_eq_succ_of_ne_zero (by omega : fuel ≠ 0)
      obtain ⟨rfl, htail⟩ := hpath
      obtain ⟨he, hnodup⟩ := List.nodup_cons.mp hnodup
      obtain ⟨⟨d, hd⟩, howned⟩ := List.forall_mem_cons.mp howned
      simp only [State.invalidateLoop, hd]
      by_cases halloc : host ∈ (s.mdi d).alloc
      · rw [invalidateEntry_eq hl halloc, Option.bind_some]
        have htail' : IsPath (Function.update (s.cache l).next e (s.cache l).freelist)
            ((s.cache l).next e) rest none :=
          htail.congr fun x hx => Function.update_of_ne (ne_of_mem_of_not_mem hx he) _ _
        obtain ⟨hswept, hsome⟩ := ih (s := (s.setMdi d ((s.mdi d).invalidated l)).setCache l
            { s.cache l with
              next := Function.update (s.cache l).next e (s.cache l).freelist
              freelist := (s.cache l).next e })
          (by rw [State.cache_setCache_self]; exact htail')
          hnodup (by rw [State.cache_setCache_self]; exact howned) (by simpa using hfuel)
        refine ⟨fun t hstep => ?_, fun hall => hsome fun d' => ?_⟩
        · exact Swept.cons hl hd he htail.eq_head? rfl (hswept t hstep)
        · by_cases hdd : d' = d
          · subst hdd
            have hne : host ≠ l := hl.symm
            simpa [State.setMdi, Metadata.invalidated, Metadata.deallocate, hne] using halloc
          · simpa [State.setMdi, hdd] using hall d'
      · constructor
        · intro t hstep
          simp [State.invalidateEntry, State.invalidateBloc, hl, halloc] at hstep
        · exact fun hall => absurd (hall d) halloc

/-! ## The entries that are lost -/

/-- The entries of the list and the free entries of a cache that is invalidated are lost, unless
the list is empty. -/
def lost (es : CacheList → List EntryId) (free : List EntryId) (k : CacheList) : Set EntryId :=
  { e | es k ≠ [] ∧ (e ∈ es k ∨ e ∈ free) }

/-- The entries when a list has been invalidated. -/
theorem Placed.sweep {all : List EntryId} (h : Placed es free out all) (k : CacheList) :
    Placed (Function.update es k []) (if es k = [] then free else []) (out ∪ lost es free k)
      all := by
  by_cases hk : es k = []
  · have hlost : lost es free k = ∅ := Set.eq_empty_of_forall_notMem fun e he => he.1 hk
    rw [if_pos hk, hlost, Set.union_empty, ← hk, Function.update_eq_self]
    exact h
  · rw [if_neg hk]
    have hmem : ∀ {k' x}, x ∈ Function.update es k [] k' ↔ x ∈ es k' ∧ k' ≠ k := by
      intro k' x
      by_cases hkk : k' = k
      · subst hkk
        simp
      · simp [hkk]
    constructor
    case unique => exact fun hx hx' => h.unique (hmem.mp hx).1 (hmem.mp hx').1
    case freeNodup => exact List.nodup_nil
    case notFree => exact fun _ => List.not_mem_nil
    case notOut =>
      intro k' x hx hout
      obtain ⟨hx, hkk⟩ := hmem.mp hx
      rcases hout with hout | ⟨_, hxk | hfree⟩
      · exact h.notOut hx hout
      · exact hkk (h.unique hx hxk)
      · exact h.notFree hx hfree
    case freeNotOut => exact fun hx => absurd hx List.not_mem_nil
    case covers =>
      intro x
      rw [h.covers]
      constructor
      · rintro (⟨k', hx⟩ | hfree | hout)
        · by_cases hkk : k' = k
          · exact .inr (.inr (.inr ⟨hk, .inl (hkk ▸ hx)⟩))
          · exact .inl ⟨k', hmem.mpr ⟨hx, hkk⟩⟩
        · exact .inr (.inr (.inr ⟨hk, .inr hfree⟩))
        · exact .inr (.inr (.inl hout))
      · rintro (⟨k', hx⟩ | hfree | hout | ⟨_, hx | hfree⟩)
        · exact .inl ⟨k', (hmem.mp hx).1⟩
        · exact absurd hfree List.not_mem_nil
        · exact .inr (.inr hout)
        · exact .inl ⟨k, hx⟩
        · exact .inr (.inl hfree)

/-- The cache of a device when the loop over a list is over and its ends are reset. -/
theorem Swept.cacheInv (hswept : Swept s t l (es k))
    (h : CacheInv (s.cache l) (s.rep l) es free out) :
    CacheInv { t.cache l with list := Function.update (t.cache l).list k ⟨none, none⟩ } (t.rep l)
      (Function.update es k []) (if es k = [] then free else []) (out ∪ lost es free k) := by
  have hrep : ∀ d, (¬ ∃ e ∈ es k, (s.cache l).mdi e = some d) → t.rep l d = s.rep l d := by
    intro d hd
    rw [State.rep, hswept.kept d hd]
    rfl
  constructor
  case linked =>
    intro k'
    by_cases hk : k' = k
    · subst hk
      simp only [Function.update_self]
      exact .empty _ _
    · simp only [Function.update_of_ne hk, hswept.list]
      refine (h.linked k').congr (fun x hx => ?_) fun x _ => by rw [hswept.prev]
      exact hswept.next x fun hxk => hk (h.placed.unique hx hxk)
  case freePath =>
    show IsPath _ (t.cache l).freelist _ none
    rw [hswept.freelist]
    by_cases hk : es k = []
    · rw [if_pos hk, if_pos hk]
      refine h.freePath.congr fun x _ => hswept.next x ?_
      rw [hk]
      exact List.not_mem_nil
    · rw [if_neg hk, if_neg hk]
      exact rfl
  case placed => exact hswept.bloc ▸ h.placed.sweep k
  case bounds => exact hswept.bloc ▸ h.bounds
  case owned =>
    intro k' x hx
    show ∃ d, (t.cache l).mdi x = some d
    rw [hswept.mdi]
    by_cases hk : k' = k
    · subst hk
      rw [Function.update_self] at hx
      exact absurd hx List.not_mem_nil
    · rw [Function.update_of_ne hk] at hx
      exact h.owned hx
  case back =>
    intro k' x d
    show _ ∧ (t.cache l).mdi x = some d ↔ _
    rw [hswept.mdi]
    by_cases hd : ∃ e ∈ es k, (s.cache l).mdi e = some d
    · -- the replica of `d` was in the list, and is in none now
      obtain ⟨hentry, _⟩ := hswept.cleared d hd
      rw [hentry]
      refine ⟨fun hx => ?_, fun hnone => by cases hnone.1⟩
      obtain ⟨e, he, hed⟩ := hd
      have hback := (h.back k e d).mp ⟨he, hed⟩
      by_cases hk : k' = k
      · subst hk
        rw [Function.update_self] at hx
        exact absurd hx.1 List.not_mem_nil
      · rw [Function.update_of_ne hk] at hx
        have hback' := ((h.back k' x d).mp hx).2
        rw [hback.2] at hback'
        exact absurd (Option.some.inj hback').symm hk
    · rw [hrep d hd, ← h.back]
      by_cases hk : k' = k
      · subst hk
        rw [Function.update_self]
        exact ⟨fun hx => absurd hx.1 List.not_mem_nil, fun hx => absurd ⟨x, hx⟩ hd⟩
      · rw [Function.update_of_ne hk]
  case paired =>
    intro d
    by_cases hd : ∃ e ∈ es k, (s.cache l).mdi e = some d
    · obtain ⟨hentry, hlist, _⟩ := hswept.cleared d hd
      simp [hentry, hlist]
    · rw [hrep d hd]
      exact h.paired d

/-- The device keeps its caches while one of its lists is invalidated. -/
theorem invalidateFromlist_inv (hl : l ≠ host) (hstep : s.invalidateFromlist l k = some t)
    (h : CacheInv (s.cache l) (s.rep l) es free out) :
    CacheInv (t.cache l) (t.rep l) (Function.update es k []) (if es k = [] then free else [])
        (out ∪ lost es free k) ∧
      (∀ l' ≠ l, t.cache l' = s.cache l' ∧ t.rep l' = s.rep l') ∧
      (∀ d, (∃ e ∈ es k, (s.cache l).mdi e = some d) → (t.rep l d).ptr = 0) ∧
      ∀ d, (¬ ∃ e ∈ es k, (s.cache l).mdi e = some d) → t.mdi d = s.mdi d := by
  obtain ⟨u, hu, rfl⟩ := Option.map_eq_some_iff.mp hstep
  have hswept := (invalidateLoop_spec hl (h.linked k).forward (h.linked k).nodup
    (fun e he => h.owned he) (h.length_lt_fuel k)).1 u hu
  refine ⟨?_, fun l' hll => ?_, fun d hd => (hswept.cleared d hd).2.2.1, hswept.kept⟩
  · rw [State.cache_setCache_self, State.rep_setCache]
    exact hswept.cacheInv h
  · rw [State.cache_setCache_of_ne hll]
    exact hswept.others l' hll

/-- The caches when a device has invalidated its own: the entries of the lists and the free ones
are outside, unless both lists are empty, and the replicas of the lists have lost their memory. -/
theorem invalidateCache_inv (hl : l ≠ host) (hstep : s.invalidateCache l = some t)
    (h : CacheInv (s.cache l) (s.rep l) es free out) :
    (∃ es' free', CacheInv (t.cache l) (t.rep l) es' free'
        (out ∪ lost es free .ro ∪
          lost (Function.update es .ro []) (if es .ro = [] then free else []) .rw)) ∧
      (∀ l' ≠ l, t.cache l' = s.cache l' ∧ t.rep l' = s.rep l') ∧
      ∀ d, (t.rep l d).ptr = 0 ∨ (s.rep l d).cacheentry = none ∧ t.rep l d = s.rep l d := by
  unfold State.invalidateCache at hstep
  rw [if_neg hl] at hstep
  obtain ⟨u, hro, hrw⟩ := Option.bind_eq_some_iff.mp hstep
  obtain ⟨hu, hothers, hptr, hkept⟩ := invalidateFromlist_inv hl hro h
  obtain ⟨ht, hothers', hptr', hkept'⟩ := invalidateFromlist_inv hl hrw hu
  refine ⟨⟨_, _, ht⟩, fun l' hll => ?_, fun d => ?_⟩
  · rw [(hothers' l' hll).1, (hothers' l' hll).2]
    exact hothers l' hll
  · by_cases hmem : ∃ x ∈ Function.update es .ro [] .rw, (u.cache l).mdi x = some d
    · exact .inl (hptr' d hmem)
    · rw [show t.rep l d = u.rep l d by rw [State.rep, State.rep, hkept' d hmem]]
      by_cases hdro : ∃ x ∈ es .ro, (s.cache l).mdi x = some d
      · exact .inl (hptr d hdro)
      · -- the replica is in neither list, so it has no entry
        have hrep : u.rep l d = s.rep l d := by rw [State.rep, State.rep, hkept d hdro]
        refine .inr ⟨?_, hrep⟩
        by_contra hentry
        obtain ⟨e, he⟩ := Option.ne_none_iff_exists'.mp hentry
        obtain ⟨k, hk, hek, hed⟩ := h.mem_of_cacheentry he
        cases k with
        | ro => exact hdro ⟨e, hek, hed⟩
        | rw => exact hmem ⟨e, (hu.back .rw e d).mpr (by rw [hrep]; exact ⟨he, hk⟩)⟩

/-- A device whose lists are empty loses nothing. -/
theorem Cached.invalidateCache_empty (hl : l ≠ host) (hstep : s.invalidateCache l = some t)
    (h : Cached s l out) (hempty : ∀ k, ((s.cache l).list k).beg = none) : Cached t l out := by
  obtain ⟨es, free, hinv⟩ := h
  have hnil : ∀ k, es k = [] := fun k => by
    have hk := hinv.linked k
    rw [hempty k] at hk
    exact hk.eq_nil
  obtain ⟨⟨es', free', ht⟩, _⟩ := invalidateCache_inv hl hstep hinv
  have hro : lost es free .ro = ∅ := Set.eq_empty_of_forall_notMem fun e he => he.1 (hnil .ro)
  have hrw : ∀ free', lost (Function.update es .ro []) free' .rw = ∅ := fun free' =>
    Set.eq_empty_of_forall_notMem fun e he => he.1 (hnil .rw)
  rw [hro, hrw, Set.union_empty, Set.union_empty] at ht
  exact ⟨es', free', ht⟩

end Xkblas.Memory.LruCache
