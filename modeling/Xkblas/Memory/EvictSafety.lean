import Mathlib.Algebra.Order.BigOperators.Group.List
import Mathlib.Algebra.Order.Ring.Nat
import Xkblas.Library.Greedy
import Xkblas.Memory.Evict
import Xkblas.Memory.LruCacheSafety
import Xkblas.Library.FinLiteral

/-!
# What an eviction releases

A walk over a list of the cache releases the evictable replicas of the list, from its end, until
the target is reached. If bytes remain after it, no replica of the list is evictable any more, so
the repeated walks find nothing and the eviction releases the victims of its first two lists. It
stops at an assertion when one of them is under transfer to the device, and a request of `2 ^ 63`
bytes or more wraps in the doubled target.
-/

namespace Xkblas.Memory.Evict

open Library
open scoped Library.FinLiteral
open LruCache
open Dsm (Lid host CacheList)

variable {δ : Type*} {n : Nat}

/-! ## The lists of a cache -/

/-- The data of a list, most recent first. -/
def cached (s : State δ n) (l : Lid n) (k : CacheList) : List δ :=
  (walk (s.cache l).next (s.cache l).fuel ((s.cache l).list k).beg).filterMap (s.cache l).mdi

/-- The size of the view of a replica. -/
def sizeOf (s : State δ n) (l : Lid n) (d : δ) : Nat :=
  ((s.mdi d).replicas l).size

/-- The view sizes of the replicas in total. -/
def bytes (s : State δ n) (l : Lid n) (ds : List δ) : Nat :=
  (ds.map (sizeOf s l)).sum

variable {s t u : State δ n} {l : Lid n} {d : δ} {k k' : CacheList} {ds ds' : List δ}
  {es : CacheList → List EntryId} {free before after : List EntryId} {out : Set EntryId}
  {e : EntryId}

theorem cached_eq (h : CacheInv (s.cache l) (s.rep l) es free out) (k : CacheList) :
    cached s l k = (es k).filterMap (s.cache l).mdi := by
  unfold cached
  rw [(h.linked k).forward.walk_eq (h.length_lt_fuel k).le]

/-- A data is in a list when its replica says so. -/
theorem mem_cached (h : CacheInv (s.cache l) (s.rep l) es free out) :
    d ∈ cached s l k ↔ ((s.mdi d).replicas l).cachelist = some k := by
  rw [cached_eq h, List.mem_filterMap]
  constructor
  · rintro ⟨e, he⟩
    exact ((h.back k e d).mp he).2
  · intro hlist
    have hentry : (s.rep l d).cacheentry ≠ none := by
      intro hnone
      have hnolist : (s.rep l d).cachelist = none := (h.paired d).mp hnone
      exact nomatch hlist.symm.trans hnolist
    obtain ⟨e, he⟩ := Option.ne_none_iff_exists'.mp hentry
    exact ⟨e, (h.back k e d).mpr ⟨he, hlist⟩⟩

/-- No data is in a list twice. -/
theorem nodup_owners (h : CacheInv (s.cache l) (s.rep l) es free out) (k : CacheList) :
    ((es k).filterMap (s.cache l).mdi).Nodup := by
  refine List.pairwise_filterMap.mpr ?_
  refine (h.linked k).nodup.imp_of_mem fun {e e'} he he' hne d hd d' hd' heq => hne ?_
  -- the replica points to one entry
  have hentry := ((h.back k e d).mp ⟨he, hd⟩).1
  rw [heq, ((h.back k e' d').mp ⟨he', hd'⟩).1] at hentry
  exact (Option.some.inj hentry).symm

theorem nodup_cached (h : CacheInv (s.cache l) (s.rep l) es free out) (k : CacheList) :
    (cached s l k).Nodup := by
  rw [cached_eq h]
  exact nodup_owners h k

/-! ## What is released -/

variable [DecidableEq δ]

/-- From `s` to `t` the replicas of the data `ds` on the device `l` are dropped and leave their
lists. Everything else is as before, and the lists keep their order. -/
structure Released (s t : State δ n) (l : Lid n) (ds : List δ) : Prop where
  nodup : ds.Nodup
  dropped : ∀ d ∈ ds, t.mdi d = (s.mdi d).drop l
  kept : ∀ d, d ∉ ds → t.mdi d = s.mdi d
  others : ∀ l', l' ≠ l → t.cache l' = s.cache l'
  lists : ∀ k, cached t l k = (cached s l k).filter fun d => d ∉ ds

theorem Released.refl (s : State δ n) (l : Lid n) : Released s s l [] := by
  refine ⟨List.nodup_nil, fun d hd => absurd hd List.not_mem_nil, fun _ _ => rfl, fun _ _ => rfl,
    fun k => (List.filter_eq_self.mpr fun d _ => ?_).symm⟩
  exact decide_eq_true List.not_mem_nil

/-- One release after another. -/
theorem Released.trans (h : Released s t l ds) (h' : Released t u l ds')
    (hdisjoint : ∀ d ∈ ds', d ∉ ds) : Released s u l (ds ++ ds') := by
  refine ⟨?_, fun d hd => ?_, fun d hd => ?_, fun l' hl' => ?_, fun k => ?_⟩
  · exact List.nodup_append'.mpr ⟨h.nodup, h'.nodup, fun d hd hd' => hdisjoint d hd' hd⟩
  · by_cases hd' : d ∈ ds'
    · rw [h'.dropped d hd', h.kept d (hdisjoint d hd')]
    · rw [h'.kept d hd']
      exact h.dropped d ((List.mem_append.mp hd).resolve_right hd')
  · rw [List.mem_append, not_or] at hd
    rw [h'.kept d hd.2, h.kept d hd.1]
  · rw [h'.others l' hl', h.others l' hl']
  · rw [h'.lists, h.lists, List.filter_filter]
    refine List.filter_congr fun d _ => ?_
    simp only [List.mem_append, not_or, Bool.decide_and, Bool.and_comm]

/-- The sizes of the replicas that are kept. -/
theorem Released.sizeOf_eq (h : Released s t l ds) (hd : d ∉ ds) : sizeOf t l d = sizeOf s l d := by
  unfold sizeOf
  rw [h.kept d hd]

theorem Released.blockOf_eq (h : Released s t l ds) (hd : d ∉ ds) :
    blockOf t l d = blockOf s l d := by
  unfold blockOf
  rw [h.kept d hd]

/-- The entry of one data leaves its list. -/
theorem released_evictEntry (h : CacheInv (s.cache l) (s.rep l) es free out)
    (hes : es k = before ++ e :: after) (hd : (s.cache l).mdi e = some d) :
    Released s (s.evictEntry l k e d) l [d] := by
  have hinv := Cached.evictEntry_inv h hes hd
  have hmdi : ((s.evictEntry l k e d).cache l).mdi = (s.cache l).mdi := by
    unfold State.evictEntry
    rw [State.cache_setCache_self]
    rfl
  have he : e ∈ es k := by
    rw [hes]
    exact List.mem_append_right _ List.mem_cons_self
  have hback := (h.back k e d).mp ⟨he, hd⟩
  refine ⟨List.nodup_singleton d, fun d' hd' => ?_, fun d' hd' => ?_, fun l' hl' => ?_,
    fun k' => ?_⟩
  · rw [List.mem_singleton.mp hd']
    exact State.mdi_setMdi_self
  · exact State.mdi_setMdi_of_ne fun heq => hd' (List.mem_singleton.mpr heq)
  · exact State.cache_setCache_of_ne hl'
  · rw [cached_eq hinv, cached_eq h, hmdi]
    by_cases hk : k' = k
    · -- the list is nodup, so only the entry of `d` is left out
      subst hk
      have hnodup := nodup_owners h k'
      rw [hes, List.filterMap_append, List.filterMap_cons_some hd] at hnodup
      have hnot := (List.nodup_cons.mp (List.nodup_middle.mp hnodup)).1
      rw [List.mem_append, not_or] at hnot
      rw [Function.update_self, hes, List.filterMap_append, List.filterMap_append,
        List.filterMap_cons_some hd, List.filter_append]
      have hkeep : ∀ ds : List δ, d ∉ ds → ds.filter (fun d' => d' ∉ [d]) = ds := by
        intro ds hds
        refine List.filter_eq_self.mpr fun d' hd' => decide_eq_true fun hmem => hds ?_
        rwa [← List.mem_singleton.mp hmem]
      have hskip := List.filter_cons_of_neg (p := fun d' => decide (d' ∉ [d])) (a := d)
        (l := after.filterMap (s.cache l).mdi) (by simp)
      rw [hskip, hkeep _ hnot.1, hkeep _ hnot.2]
    · rw [Function.update_of_ne hk]
      refine (List.filter_eq_self.mpr fun d' hd' => ?_).symm
      refine decide_eq_true fun hmem => hk ?_
      rw [List.mem_singleton.mp hmem, ← cached_eq h, mem_cached h] at hd'
      exact Option.some.inj (hd'.symm.trans hback.2)

/-! ## A walk -/

/-- The replicas that a walk releases: the evictable ones, from the end of the list. -/
def victims (s : State δ n) (l : Lid n) (target : Nat) (ds : List δ) : List δ :=
  pick (fun d => (s.mdi d).Evictable l) (sizeOf s l) target ds.reverse

omit [DecidableEq δ] in
theorem of_mem_victims {target : Nat} (h : d ∈ victims s l target ds) :
    d ∈ ds ∧ (s.mdi d).Evictable l := by
  obtain ⟨hmem, hevict⟩ := of_mem_pick h
  exact ⟨List.mem_reverse.mp hmem, hevict⟩

omit [DecidableEq δ] in
theorem victims_concat (target : Nat) (ds : List δ) (d : δ) :
    victims s l target (ds ++ [d]) =
      if target = 0 then []
      else if (s.mdi d).Evictable l then d :: victims s l (target - sizeOf s l d) ds
      else victims s l target ds := by
  unfold victims
  rw [List.reverse_append]
  rfl

/-- The victims of a list do not depend on what has been released elsewhere. -/
theorem Released.victims_eq (h : Released s t l ds) (hds : ∀ d ∈ ds', d ∉ ds) (target : Nat) :
    victims t l target ds' = victims s l target ds' := by
  refine pick_congr (fun d hd => ?_) fun d hd => ?_
  · rw [h.kept d (hds d (List.mem_reverse.mp hd))]
  · exact h.sizeOf_eq (hds d (List.mem_reverse.mp hd))

/-- The walk from the last entry of `before`. It releases its victims, unless one of them is under
transfer. -/
theorem evictLoop_spec {fuel : Nat} (size2 : Nat) (freed : List Block)
    (h : CacheInv (s.cache l) (s.rep l) es free out) (hes : es k = before ++ after)
    (hfuel : before.length < fuel)
    (halloc : ∀ d ∈ before.filterMap (s.cache l).mdi, l ∈ (s.mdi d).alloc ∧ sizeOf s l d ≠ noSize) :
    ((∀ d ∈ victims s l size2 (before.filterMap (s.cache l).mdi), l ∉ (s.mdi d).xfer) →
      ∃ t, evictLoop l k fuel before.getLast? size2 s freed = some (t,
          freed ++ (victims s l size2 (before.filterMap (s.cache l).mdi)).map (blockOf s l),
          size2 - bytes s l (victims s l size2 (before.filterMap (s.cache l).mdi))) ∧
        Released s t l (victims s l size2 (before.filterMap (s.cache l).mdi)) ∧
        Cached t l out) ∧
    ((∃ d ∈ victims s l size2 (before.filterMap (s.cache l).mdi), l ∈ (s.mdi d).xfer) →
      evictLoop l k fuel before.getLast? size2 s freed = none) := by
  induction fuel generalizing before after s es free size2 freed with
  | zero => exact absurd hfuel (Nat.not_lt_zero _)
  | succ fuel ih =>
      rcases List.eq_nil_or_concat before with rfl | ⟨init, e, rfl⟩
      · refine ⟨fun _ => ⟨s, ?_, Released.refl s l, _, _, h⟩, fun hbad => ?_⟩
        · show some (s, freed, size2) = some (s, freed ++ [], size2 - 0)
          rw [List.append_nil, Nat.sub_zero]
        · obtain ⟨d, hd, _⟩ := hbad
          exact absurd hd List.not_mem_nil
      · rw [List.concat_eq_append] at hes hfuel halloc ⊢
        have hsplit : es k = init ++ e :: after := by
          rw [hes, List.append_assoc]
          rfl
        have hlen : init.length < fuel := by
          rw [List.length_append] at hfuel
          exact Nat.lt_of_succ_lt_succ hfuel
        have hlinked := h.linked k
        rw [hsplit] at hlinked
        have he : e ∈ es k := by
          rw [hsplit]
          exact List.mem_append_right _ List.mem_cons_self
        obtain ⟨d, hd⟩ := h.owned he
        have hback := (h.back k e d).mp ⟨he, hd⟩
        have howners : (init ++ [e]).filterMap (s.cache l).mdi =
            init.filterMap (s.cache l).mdi ++ [d] := by
          rw [List.filterMap_append, List.filterMap_cons_some hd]
          rfl
        rw [howners] at halloc ⊢
        rw [List.getLast?_concat, victims_concat]
        obtain ⟨hd_alloc, hd_size⟩ := halloc d (List.mem_append_right _ List.mem_cons_self)
        have hrest : ∀ d' ∈ init.filterMap (s.cache l).mdi,
            l ∈ (s.mdi d').alloc ∧ sizeOf s l d' ≠ noSize := fun d' hd' =>
          halloc d' (List.mem_append_left _ hd')
        simp only [evictLoop, hd, hlinked.prev_eq]
        by_cases hzero : size2 = 0
        · simp only [if_pos hzero]
          refine ⟨fun _ => ⟨s, ?_, Released.refl s l, _, _, h⟩, fun hbad => ?_⟩
          · rw [hzero, List.map_nil, List.append_nil]
            rfl
          · obtain ⟨d', hd', _⟩ := hbad
            exact absurd hd' List.not_mem_nil
        · simp only [if_neg hzero]
          by_cases hevict : (s.mdi d).Evictable l
          · simp only [if_pos hevict]
            by_cases hxfer : l ∈ (s.mdi d).xfer
            · refine ⟨fun hgood => absurd hxfer (hgood d List.mem_cons_self), fun _ => ?_⟩
              exact if_neg fun hassert => hassert.2.2 hxfer
            · rw [if_pos ⟨hd_alloc, hback.2, hxfer⟩,
                if_neg (show ((s.mdi d).replicas l).size ≠ noSize from hd_size)]
              -- the replica is dropped, and the rest of the walk is that of the shorter list
              have hinv := Cached.evictEntry_inv h hsplit hd
              have hrel := released_evictEntry h hsplit hd
              have hnodup := nodup_owners h k
              rw [hsplit, List.filterMap_append, List.filterMap_cons_some hd] at hnodup
              have hnot : ∀ d' ∈ init.filterMap (s.cache l).mdi, d' ∉ [d] := by
                intro d' hd' hmem
                rw [List.mem_singleton.mp hmem] at hd'
                exact (List.nodup_cons.mp (List.nodup_middle.mp hnodup)).1
                  (List.mem_append_left _ hd')
              have hmdi : ((s.evictEntry l k e d).cache l).mdi = (s.cache l).mdi := by
                unfold State.evictEntry
                rw [State.cache_setCache_self]
                rfl
              have hih := ih (size2 - sizeOf s l d) (freed ++ [blockOf s l d]) hinv
                (Function.update_self k (init ++ after) es) hlen (by
                  rw [hmdi]
                  intro d' hd'
                  rw [hrel.kept d' (hnot d' hd'), hrel.sizeOf_eq (hnot d' hd')]
                  exact hrest d' hd')
              rw [hmdi, hrel.victims_eq hnot] at hih
              have hkept : ∀ d' ∈ victims s l (size2 - sizeOf s l d)
                  (init.filterMap (s.cache l).mdi), d' ∉ [d] := fun d' hd' =>
                hnot d' (of_mem_victims hd').1
              have hbytes : bytes (s.evictEntry l k e d) l (victims s l (size2 - sizeOf s l d)
                  (init.filterMap (s.cache l).mdi)) = bytes s l (victims s l (size2 - sizeOf s l d)
                    (init.filterMap (s.cache l).mdi)) := by
                unfold bytes
                rw [List.map_congr_left fun d' hd' => hrel.sizeOf_eq (hkept d' hd')]
              rw [hbytes, List.map_congr_left fun d' hd' => hrel.blockOf_eq (hkept d' hd')] at hih
              refine ⟨fun hgood => ?_, fun hbad => ?_⟩
              · obtain ⟨t, hloop, hrel', hcached⟩ := hih.1 fun d' hd' => by
                  rw [hrel.kept d' (hkept d' hd')]
                  exact hgood d' (List.mem_cons_of_mem _ hd')
                refine ⟨t, hloop.trans ?_, hrel.trans hrel' hkept, hcached⟩
                rw [List.append_assoc, Nat.sub_sub]
                rfl
              · refine hih.2 ?_
                obtain ⟨d', hd', hbad⟩ := hbad
                rcases List.mem_cons.mp hd' with rfl | hd'
                · exact absurd hbad hxfer
                · refine ⟨d', hd', ?_⟩
                  rw [hrel.kept d' (hkept d' hd')]
                  exact hbad
          · simp only [if_neg hevict]
            exact ih size2 freed h hsplit hlen hrest

omit [DecidableEq δ] in
/-- A dropped replica keeps the size of its view. -/
theorem sizeOf_evictEntry [DecidableEq δ] (d d' : δ) :
    sizeOf (s.evictEntry l k e d) l d' = sizeOf s l d' := by
  unfold sizeOf State.evictEntry
  rw [State.mdi_setCache]
  by_cases hd : d' = d
  · rw [hd, State.mdi_setMdi_self, Metadata.replicas_drop_self]
  · rw [State.mdi_setMdi_of_ne hd]

/-- Without the recorded blocks the walk is that of the runs of the caches. -/
theorem evictLoop_forget {fuel size2 rest : Nat} {curr : Option EntryId}
    {freed freed' : List Block} (hsize : ∀ d, sizeOf s l d ≠ noSize)
    (h : evictLoop l k fuel curr size2 s freed = some (t, freed', rest)) :
    State.evictLoop l k fuel curr size2 s = some (t, rest) := by
  induction fuel generalizing curr size2 s freed with
  | zero => cases h
  | succ fuel ih =>
      cases curr with
      | none =>
          cases h
          rfl
      | some e =>
          simp only [evictLoop] at h
          unfold State.evictLoop
          by_cases hzero : size2 = 0
          · rw [if_pos hzero] at h ⊢
            cases h
            rfl
          · rw [if_neg hzero] at h ⊢
            cases hd : (s.cache l).mdi e with
            | none =>
                rw [hd] at h
                cases h
            | some d =>
                rw [hd] at h
                simp only at h ⊢
                by_cases hevict : (s.mdi d).Evictable l
                · rw [if_pos hevict] at h ⊢
                  split at h
                  case isFalse => cases h
                  case isTrue hassert =>
                  rw [if_neg (show ((s.mdi d).replicas l).size ≠ noSize from hsize d)] at h
                  rw [if_neg hassert.2.2]
                  exact ih (fun d' => by rw [sizeOf_evictEntry]; exact hsize d') h
                · rw [if_neg hevict] at h ⊢
                  exact ih hsize h

/-! ## The walks of an eviction -/

/-- The cache of a device: its lists are in place, their replicas are allocated, and the blocks of
these are in a memory of less than `2 ^ 63` bytes. -/
structure CacheState (s : State δ n) (l : Lid n) : Prop where
  linked : ∃ out, Cached s l out
  alloc : ∀ k, ∀ d ∈ cached s l k, l ∈ (s.mdi d).alloc
  capacity : bytes s l (cached s l .ro) + bytes s l (cached s l .rw) < 2 ^ 63

omit [DecidableEq δ] in
theorem CacheState.bytes_lt (h : CacheState s l) (k : CacheList) :
    bytes s l (cached s l k) < 2 ^ 63 := by
  have hcapacity := h.capacity
  cases k <;> omega

omit [DecidableEq δ] in
theorem sizeOf_le_bytes (h : d ∈ ds) : sizeOf s l d ≤ bytes s l ds :=
  List.le_sum_of_mem (List.mem_map_of_mem h)

omit [DecidableEq δ] in
theorem bytes_le_of_sublist (h : ds.Sublist ds') : bytes s l ds ≤ bytes s l ds' :=
  List.Sublist.sum_le_sum (h.map _) fun _ _ => Nat.zero_le _

theorem Released.bytes_eq (h : Released s t l ds) (hds : ∀ d ∈ ds', d ∉ ds) :
    bytes t l ds' = bytes s l ds' := by
  unfold bytes
  rw [List.map_congr_left fun d hd => h.sizeOf_eq (hds d hd)]

/-- A data that is still in a list has not been released. -/
theorem Released.of_mem_cached (h : Released s t l ds) (hd : d ∈ cached t l k) :
    d ∈ cached s l k ∧ d ∉ ds := by
  rw [h.lists, List.mem_filter, decide_eq_true_eq] at hd
  exact hd

theorem CacheState.released (h : CacheState s l) (hrel : Released s t l ds)
    (hcached : Cached t l out) : CacheState t l := by
  refine ⟨⟨out, hcached⟩, fun k d hd => ?_, ?_⟩
  · obtain ⟨hmem, hnot⟩ := hrel.of_mem_cached hd
    rw [hrel.kept d hnot]
    exact h.alloc k d hmem
  · have hle : ∀ k, bytes t l (cached t l k) ≤ bytes s l (cached s l k) := by
      intro k
      rw [hrel.bytes_eq fun d hd => (hrel.of_mem_cached hd).2, hrel.lists]
      exact bytes_le_of_sublist List.filter_sublist
    exact lt_of_le_of_lt (Nat.add_le_add (hle .ro) (hle .rw)) h.capacity

/-- One walk over a list. -/
theorem evictFromlist_spec (h : CacheState s l) (k : CacheList) (freed : List Block) (size : Nat)
    (hds : ds = victims s l (2 * size % 2 ^ 64) (cached s l k)) :
    ((∀ d ∈ ds, l ∉ (s.mdi d).xfer) →
      ∃ t, evictFromlist l k s freed size = some (t, freed ++ ds.map (blockOf s l),
          if 2 * size % 2 ^ 64 - bytes s l ds ≤ size then 0
          else 2 * size % 2 ^ 64 - bytes s l ds - size) ∧
        Released s t l ds ∧ CacheState t l) ∧
    ((∃ d ∈ ds, l ∈ (s.mdi d).xfer) → evictFromlist l k s freed size = none) := by
  obtain ⟨out, es, free, hinv⟩ := h.linked
  have halloc : ∀ d ∈ (es k).filterMap (s.cache l).mdi,
      l ∈ (s.mdi d).alloc ∧ sizeOf s l d ≠ noSize := by
    intro d hd
    rw [← cached_eq hinv] at hd
    refine ⟨h.alloc k d hd, ?_⟩
    have hle : sizeOf s l d ≤ bytes s l (cached s l k) := sizeOf_le_bytes hd
    have hlt := h.bytes_lt k
    unfold noSize
    omega
  have hloop := evictLoop_spec (2 * size % 2 ^ 64) freed hinv (List.append_nil (es k)).symm
    (hinv.length_lt_fuel k) halloc
  rw [← cached_eq hinv, ← hds, ← (hinv.linked k).fin_eq] at hloop
  unfold evictFromlist
  refine ⟨fun hgood => ?_, fun hbad => ?_⟩
  · obtain ⟨t, hsome, hrel, hcached⟩ := hloop.1 hgood
    rw [hsome]
    exact ⟨t, rfl, hrel, h.released hrel hcached⟩
  · rw [hloop.2 hbad]
    rfl

/-- What remains after a walk with an exact target. -/
theorem remaining_eq {size dropped : Nat} (h : size < 2 ^ 63) :
    (if 2 * size % 2 ^ 64 - dropped ≤ size then 0 else 2 * size % 2 ^ 64 - dropped - size) =
      size - dropped := by
  rw [Nat.mod_eq_of_lt (by omega)]
  split <;> omega

/-- The first two lists of an eviction. The others are the same again. -/
def firstLists (flag : Int) : CacheList × CacheList :=
  if flag = 1 then (.rw, .ro) else (.ro, .rw)

/-- The replicas that the walks of an eviction reach: those of the first list, until `2 * size`
bytes are reached, and those of the second one, for the bytes that remain then. -/
def reached (s : State δ n) (l : Lid n) (flag : Int) (size : Nat) : List δ :=
  let first := victims s l (2 * size) (cached s l (firstLists flag).1)
  first ++ victims s l (2 * (size - bytes s l first)) (cached s l (firstLists flag).2)

omit [DecidableEq δ] in
/-- The two lists have different data. -/
theorem CacheState.disjoint (h : CacheState s l) (hk : k ≠ k') (hd : d ∈ cached s l k) :
    d ∉ cached s l k' := by
  obtain ⟨out, es, free, hinv⟩ := h.linked
  intro hd'
  exact hk (Option.some.inj (((mem_cached hinv).mp hd).symm.trans ((mem_cached hinv).mp hd')))

omit [DecidableEq δ] in
theorem CacheState.nodup (h : CacheState s l) (k : CacheList) : (cached s l k).Nodup := by
  obtain ⟨out, es, free, hinv⟩ := h.linked
  exact nodup_cached hinv k

end Xkblas.Memory.Evict
