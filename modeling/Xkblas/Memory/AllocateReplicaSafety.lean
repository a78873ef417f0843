import Xkblas.Memory.AllocateReplica
import Xkblas.Library.FinLiteral

/-!
# When the allocation of a replica ends

A walk releases its victims, or it stops the program because one of them is under transfer. A failed
round changes nothing but what its walks and polls change, so the rounds of the loop are one
sequence of walks. The loop ends with the first walk that makes room; there is no other end, and
`ENOMEM` is never returned.
-/

namespace Xkblas.Memory.AllocateReplica

open Library
open scoped Library.FinLiteral
open LruCache
open Dsm (Lid CacheList)
open Evict (Block Err blockOf bytes cached sizeOf victims CacheState Released)
open Heap (Device Config HeapInv roundSize)

variable {δ : Type*} {n : Nat} {cfg : Config} {heap : Device} {refs : List Heap.Ref} {size : Nat}

/-! ## The heap -/

/-- A pointer to a block of the heap with at least this many bytes. -/
def Given (heap : Device) (size ptr : Nat) : Prop :=
  ptr ≠ 0 ∧ heap.allocated (ptr - 1) = true ∧ heap.isFree (ptr - 1) = false ∧
    size ≤ heap.size (ptr - 1)

/-- Blocks of different used chunks are freed. The other used chunks stay as they are. -/
theorem freeBlocks_spec (blocks : List Block) (h : HeapInv cfg heap refs)
    (hnodup : (blocks.map Block.ptr).Nodup) (hused : ∀ b ∈ blocks, Given heap 0 b.ptr) :
    ∃ heap' refs', freeBlocks heap blocks = some heap' ∧ HeapInv cfg heap' refs' ∧
      ∀ {ptr size}, Given heap size ptr → (∀ b ∈ blocks, b.ptr ≠ ptr) → Given heap' size ptr := by
  induction blocks generalizing heap refs with
  | nil => exact ⟨heap, refs, rfl, h, fun hgiven _ => hgiven⟩
  | cons b blocks ih =>
      obtain ⟨hptr, halloc, hfree, _⟩ := hused b List.mem_cons_self
      obtain ⟨hnotMem, hnodup⟩ := List.nodup_cons.mp hnodup
      obtain ⟨heap₁, refs₁, hfirst, hfreed⟩ :=
        Heap.free_spec h ((h.allocated _).mp halloc) hfree
      have hkept : ∀ {ptr size}, Given heap size ptr → ptr ≠ b.ptr → Given heap₁ size ptr := by
        intro ptr size hgiven hne
        obtain ⟨hptr', halloc', hfree', hsize⟩ := hgiven
        have hne' : ptr - 1 ≠ b.ptr - 1 := by omega
        have hmem := (h.allocated _).mp halloc'
        obtain ⟨hmem₁, hfree₁⟩ := (hfreed.used (ptr - 1)).mpr ⟨⟨hmem, hfree'⟩, hne'⟩
        refine ⟨hptr', (hfreed.inv.allocated _).mpr hmem₁, hfree₁, ?_⟩
        rw [(hfreed.kept _ hmem hfree' hne').2]
        exact hsize
      obtain ⟨heap', refs', hrest, hinv, hkept'⟩ := ih hfreed.inv hnodup fun b' hb' => by
        refine hkept (hused b' (List.mem_cons_of_mem _ hb')) fun heq => hnotMem ?_
        rw [← heq]
        exact List.mem_map_of_mem hb'
      refine ⟨heap', refs', ?_, hinv, fun hgiven hne => ?_⟩
      · have hmemory : memoryFree heap b.ptr = some heap₁ := by
          unfold memoryFree
          rw [if_neg hptr]
          exact hfirst
        rw [freeBlocks, hmemory]
        exact hrest
      · refine hkept' (hkept hgiven (hne b List.mem_cons_self).symm) fun b' hb' => ?_
        exact hne b' (List.mem_cons_of_mem _ hb')

/-- The heap of a device: before its first allocation, or with its block reserved. -/
def HeapState (cfg : Config) (heap : Device) : Prop :=
  heap = .initial ∨ ∃ refs, HeapInv cfg heap refs

/-- The first allocation reserves the block. -/
theorem HeapState.reserve (h : HeapState cfg heap) :
    (∃ refs, HeapInv cfg (heap.reserve cfg) refs) ∧
      ∀ size, heap.alloc cfg size = (heap.reserve cfg).alloc cfg size := by
  rcases h with rfl | ⟨refs, hinv⟩
  · exact ⟨⟨[0], Heap.heapInv_reserve cfg⟩, Heap.alloc_initial cfg⟩
  · have hreserve : heap.reserve cfg = heap := if_neg (by simp [hinv.hasMain])
    rw [hreserve]
    exact ⟨⟨refs, hinv⟩, fun _ => rfl⟩

theorem Given.reserve {ptr : Nat} (hstate : HeapState cfg heap) (h : Given heap size ptr) :
    Given (heap.reserve cfg) size ptr := by
  rcases hstate with rfl | ⟨refs, hinv⟩
  · exact absurd h.2.1 Bool.false_ne_true
  · have hreserve : heap.reserve cfg = heap := if_neg (by simp [hinv.hasMain])
    rw [hreserve]
    exact h

/-- A heap with room gives a block. -/
theorem memoryAlloc_of_fits (h : HeapState cfg heap) (hsize : size < 2 ^ 63)
    (hfits : Fits cfg heap size) :
    ∃ heap' ptr, memoryAlloc cfg heap size = some (heap', ptr) ∧ Given heap' size ptr := by
  obtain ⟨⟨refs, hinv⟩, halloc⟩ := h.reserve
  obtain ⟨c, _, hc, hfree, hle⟩ := hfits
  rcases Heap.alloc_spec hinv size with hnone | ⟨heap', refs', c', hsome, hallocated⟩
  · have hsmall := (Heap.alloc_eq_none_iff hinv size).mp hnone c ((hinv.allocated c).mp hc) hfree
    exact absurd hle (not_le.mpr hsmall)
  · obtain ⟨hmem, hused⟩ := (hallocated.used c').mpr (.inr rfl)
    refine ⟨heap', c' + 1, ?_, Nat.succ_ne_zero _, ?_, hused, ?_⟩
    · unfold memoryAlloc
      rw [halloc, hsome]
      rfl
    · exact (hallocated.inv.allocated c').mpr hmem
    · exact (Heap.le_roundSize (by omega)).trans hallocated.fits

/-- A heap without room gives none, and stays as it is. -/
theorem memoryAlloc_of_not_fits (h : HeapState cfg heap) (hfits : ¬ Fits cfg heap size) :
    memoryAlloc cfg heap size = some (heap.reserve cfg, 0) := by
  obtain ⟨⟨refs, hinv⟩, halloc⟩ := h.reserve
  have hnone : (heap.reserve cfg).alloc cfg size = some (heap.reserve cfg, none) := by
    refine (Heap.alloc_eq_none_iff hinv size).mpr fun c hc hfree => ?_
    by_contra hlarge
    exact hfits ⟨c, hinv.fresh c hc, (hinv.allocated c).mpr hc, hfree, not_lt.mp hlarge⟩
  unfold memoryAlloc
  rw [halloc, hnone]
  rfl

/-! ## A walk -/

/-- The state of a device: its cache is in place, its views are in a memory of less than `2 ^ 63`
bytes, and its allocated replicas, and only these, have blocks, each its own. -/
structure NodeState (cfg : Config) (l : Lid n) (v : Node δ n) : Prop where
  cache : CacheState v.dsm l
  views : ∀ d, sizeOf v.dsm l d < 2 ^ 63
  heap : HeapState cfg v.heap
  placed : ∀ d, l ∈ (v.dsm.mdi d).alloc → Placed v l d
  apart : ∀ d d', l ∈ (v.dsm.mdi d).alloc → l ∈ (v.dsm.mdi d').alloc →
    ((v.dsm.mdi d).replicas l).ptr = ((v.dsm.mdi d').replicas l).ptr → d = d'
  bare : ∀ d, l ∉ (v.dsm.mdi d).alloc → ((v.dsm.mdi d).replicas l).ptr = 0

variable {l : Lid n} {v w : Node δ n} {d : δ} {poll : Nat → Node δ n → Node δ n}

/-- The block of the device is reserved. -/
theorem NodeState.reserve (h : NodeState cfg l v) :
    NodeState cfg l { v with heap := v.heap.reserve cfg } where
  cache := h.cache
  views := h.views
  heap := .inr h.heap.reserve.1
  placed d hd := ⟨hd, Given.reserve h.heap (h.placed d hd).2⟩
  apart := h.apart
  bare := h.bare

variable [DecidableEq δ]

/-- A walk that does not meet a replica under transfer. The blocks of its victims are freed. -/
theorem evictFromlist_of_clean {k : CacheList} {rest : Nat} {ds : List δ} (h : NodeState cfg l v)
    (hheap : ∃ refs, HeapInv cfg v.heap refs) (hrest : rest < 2 ^ 63)
    (hds : ds = victims v.dsm l (2 * rest) (cached v.dsm l k))
    (hclean : ∀ d ∈ ds, l ∉ (v.dsm.mdi d).xfer) :
    ∃ w, evictFromlist l k v rest = some (w, rest - bytes v.dsm l ds) ∧
      freeBlocks v.heap (ds.map (blockOf v.dsm l)) = some w.heap ∧
        Released v.dsm w.dsm l ds ∧ NodeState cfg l w ∧ ∃ refs, HeapInv cfg w.heap refs := by
  have htarget : 2 * rest % 2 ^ 64 = 2 * rest := Nat.mod_eq_of_lt (by omega)
  have hds' : ds = victims v.dsm l (2 * rest % 2 ^ 64) (cached v.dsm l k) := by rwa [htarget]
  obtain ⟨t, hwalk, hrel, hcache⟩ := (Evict.evictFromlist_spec h.cache k [] rest hds').1 hclean
  rw [Evict.remaining_eq hrest] at hwalk
  obtain ⟨refs, hinv⟩ := hheap
  have hlisted : ∀ d ∈ ds, l ∈ (v.dsm.mdi d).alloc := by
    intro d hd
    rw [hds] at hd
    exact h.cache.alloc k d (Evict.of_mem_victims hd).1
  have hblocks : (ds.map (blockOf v.dsm l)).map Block.ptr =
      ds.map fun d => ((v.dsm.mdi d).replicas l).ptr := List.map_map
  obtain ⟨heap', refs', hfree, hinv', hkept⟩ := freeBlocks_spec
    (ds.map (blockOf v.dsm l)) hinv (by
      rw [hblocks]
      exact hrel.nodup.map_on fun d hd d' hd' => h.apart d d' (hlisted d hd) (hlisted d' hd'))
    (fun b hb => by
      obtain ⟨d, hd, rfl⟩ := List.mem_map.mp hb
      obtain ⟨_, hptr, halloc, hused, _⟩ := h.placed d (hlisted d hd)
      exact ⟨hptr, halloc, hused, Nat.zero_le _⟩)
  refine ⟨⟨t, heap'⟩, ?_, hfree, hrel, ?_, refs', hinv'⟩
  · unfold evictFromlist
    rw [hwalk]
    show ((freeBlocks v.heap (ds.map (blockOf v.dsm l))).map fun heap =>
      ((⟨t, heap⟩ : Node δ n), rest - bytes v.dsm l ds)) = _
    rw [hfree]
    rfl
  · have hkeptMdi : ∀ d, l ∈ (t.mdi d).alloc → d ∉ ds ∧ t.mdi d = v.dsm.mdi d := by
      intro d hd
      by_cases hmem : d ∈ ds
      · rw [hrel.dropped d hmem] at hd
        exact absurd rfl (Finset.mem_erase.mp hd).1
      · exact ⟨hmem, hrel.kept d hmem⟩
    constructor
    case cache => exact hcache
    case views =>
      intro d
      have hview : sizeOf t l d = sizeOf v.dsm l d := by
        by_cases hmem : d ∈ ds
        · show ((t.mdi d).replicas l).size = _
          rw [hrel.dropped d hmem]
          show (Function.update (v.dsm.mdi d).replicas l _ l).size = _
          rw [Function.update_self]
          rfl
        · exact hrel.sizeOf_eq hmem
      exact hview.trans_lt (h.views d)
    case heap => exact .inr ⟨refs', hinv'⟩
    case placed =>
      intro d hd
      obtain ⟨hmem, hmdi⟩ := hkeptMdi d hd
      show l ∈ (t.mdi d).alloc ∧ Given heap' ((t.mdi d).replicas l).size ((t.mdi d).replicas l).ptr
      have hd : l ∈ (t.mdi d).alloc := hd
      rw [hmdi] at hd ⊢
      refine ⟨hd, hkept (h.placed d hd).2 fun b hb heq => ?_⟩
      obtain ⟨d', hd', rfl⟩ := List.mem_map.mp hb
      exact hmem (h.apart d' d (hlisted d' hd') hd heq ▸ hd')
    case apart =>
      intro d d' hd hd' heq
      obtain ⟨_, hmdi⟩ := hkeptMdi d hd
      obtain ⟨_, hmdi'⟩ := hkeptMdi d' hd'
      have hd : l ∈ (t.mdi d).alloc := hd
      have hd' : l ∈ (t.mdi d').alloc := hd'
      have heq : ((t.mdi d).replicas l).ptr = ((t.mdi d').replicas l).ptr := heq
      rw [hmdi] at hd heq
      rw [hmdi'] at hd' heq
      exact h.apart d d' hd hd' heq
    case bare =>
      intro d hd
      have hd : l ∉ (t.mdi d).alloc := hd
      show ((t.mdi d).replicas l).ptr = 0
      by_cases hmem : d ∈ ds
      · rw [hrel.dropped d hmem]
        show (Function.update (v.dsm.mdi d).replicas l _ l).ptr = 0
        rw [Function.update_self]
      · rw [hrel.kept d hmem] at hd ⊢
        exact h.bare d hd

/-- A walk that meets a replica under transfer stops the program. -/
theorem evictFromlist_of_xfer {k : CacheList} {rest : Nat} (h : NodeState cfg l v)
    (hrest : rest < 2 ^ 63)
    (hbad : ∃ d ∈ victims v.dsm l (2 * rest) (cached v.dsm l k), l ∈ (v.dsm.mdi d).xfer) :
    evictFromlist l k v rest = none := by
  have htarget : 2 * rest % 2 ^ 64 = 2 * rest := Nat.mod_eq_of_lt (by omega)
  rw [← htarget] at hbad
  unfold evictFromlist
  rw [(Evict.evictFromlist_spec h.cache k [] rest rfl).2 hbad]
  rfl

/-- The device while it allocates a replica. -/
structure Waiting (cfg : Config) (l : Lid n) (d : δ) (size : Nat) (v : Node δ n) : Prop where
  state : NodeState cfg l v
  heap : ∃ refs, HeapInv cfg v.heap refs
  unallocated : l ∉ (v.dsm.mdi d).alloc
  view : sizeOf v.dsm l d = size

omit [DecidableEq δ] in
theorem Waiting.size_lt (h : Waiting cfg l d size v) : size < 2 ^ 63 :=
  h.view ▸ h.state.views d

/-- A walk stops the program, or it ends and makes room exactly when no bytes remain and a chunk is
large enough. -/
theorem evictFromlist_waiting {rest : Nat} (h : Waiting cfg l d size v) (hrest : rest ≤ size)
    (k : CacheList) :
    (evictFromlist l k v rest = none ∧
      ∀ order polls, ¬ Stage.MakesRoom cfg l size ⟨k :: order, polls, v, rest⟩) ∨
    ∃ w rest', evictFromlist l k v rest = some (w, rest') ∧ Waiting cfg l d size w ∧
      rest' ≤ rest ∧ ∀ order polls, Stage.MakesRoom cfg l size ⟨k :: order, polls, v, rest⟩ ↔
        rest' = 0 ∧ Fits cfg w.heap size := by
  have hlt : rest < 2 ^ 63 := hrest.trans_lt h.size_lt
  by_cases hbad : ∃ d ∈ victims v.dsm l (2 * rest) (cached v.dsm l k), l ∈ (v.dsm.mdi d).xfer
  · refine .inl ⟨evictFromlist_of_xfer h.state hlt hbad, fun order polls hmakes => ?_⟩
    obtain ⟨d, hd, hxfer⟩ := hbad
    exact hmakes.1 d hd hxfer
  · have hclean : ∀ d ∈ victims v.dsm l (2 * rest) (cached v.dsm l k), l ∉ (v.dsm.mdi d).xfer :=
      fun d hd hxfer => hbad ⟨d, hd, hxfer⟩
    obtain ⟨w, hwalk, hfree, hrel, hstate, hheap⟩ :=
      evictFromlist_of_clean h.state h.heap hlt rfl hclean
    have hmem : d ∉ victims v.dsm l (2 * rest) (cached v.dsm l k) := fun hmem =>
      h.unallocated (h.state.cache.alloc k d (Evict.of_mem_victims hmem).1)
    refine .inr ⟨w, _, hwalk, ⟨hstate, hheap, ?_, ?_⟩, Nat.sub_le _ _, fun order polls => ?_⟩
    · rw [hrel.kept d hmem]
      exact h.unallocated
    · exact (hrel.sizeOf_eq hmem).trans h.view
    · rw [Nat.sub_eq_zero_iff_le]
      constructor
      · intro ⟨_, hbytes, heap, hfree', hfits⟩
        cases hfree.symm.trans hfree'
        exact ⟨hbytes, hfits⟩
      · intro ⟨hbytes, hfits⟩
        exact ⟨hclean, hbytes, w.heap, hfree, hfits⟩

omit [DecidableEq δ] in
/-- The block of a device that allocates is reserved. -/
theorem Waiting.reserve_eq (h : Waiting cfg l d size v) : v.heap.reserve cfg = v.heap := by
  obtain ⟨refs, hinv⟩ := h.heap
  exact if_neg (by simp [hinv.hasMain])

/-! ## An eviction as a list of walks -/

/-- The walks of an eviction, over one list each, until enough bytes are evicted. -/
def evictWalks (poll : Nat → Node δ n → Node δ n) (l : Lid n) :
    List CacheList → Evicting δ n → Option (Evicting δ n)
  | [], e => some e
  | k :: order, e =>
      if e.size = 0 then some e
      else
        (evictFromlist l k e.node e.size).bind fun (v, size) =>
          if size = 0 then some ⟨e.polls, v, size⟩
          else evictWalks poll l order ⟨e.polls + 1, poll e.polls v, size⟩

/-- After enough bytes the walks that are left are skipped. -/
theorem evictWalks_of_size {e : Evicting δ n} (h : e.size = 0) (order : List CacheList) :
    evictWalks poll l order e = some e := by
  cases order with
  | nil => rfl
  | cons k order => exact if_pos h

theorem evictWalks_append (order order' : List CacheList) (e : Evicting δ n) :
    evictWalks poll l (order ++ order') e =
      (evictWalks poll l order e).bind (evictWalks poll l order') := by
  induction order generalizing e with
  | nil => rfl
  | cons k order ih =>
      by_cases hzero : e.size = 0
      · rw [evictWalks_of_size hzero, evictWalks_of_size hzero]
        exact (evictWalks_of_size hzero _).symm
      · simp only [List.cons_append, evictWalks, if_neg hzero]
        cases evictFromlist l k e.node e.size with
        | none => rfl
        | some r =>
            obtain ⟨v, size⟩ := r
            dsimp only [Option.bind_some]
            by_cases hsize : size = 0
            · rw [if_pos hsize, if_pos hsize]
              exact (evictWalks_of_size hsize _).symm
            · rw [if_neg hsize, if_neg hsize]
              exact ih _

theorem evictList_eq (k : CacheList) (cnt : Nat) (e : Evicting δ n) :
    evictList poll l k cnt e = evictWalks poll l (List.replicate cnt k) e := by
  induction cnt generalizing e with
  | zero => rfl
  | succ cnt ih =>
      simp only [evictList, List.replicate_succ, evictWalks, ih]

theorem evictLists_eq (order : List CacheList) (e : Evicting δ n) :
    evictLists poll l order e = evictWalks poll l (order.flatMap (List.replicate 2)) e := by
  induction order generalizing e with
  | nil => rfl
  | cons k order ih =>
      rw [evictLists, List.flatMap_cons, evictWalks_append, evictList_eq]
      exact congrArg (Option.bind _) (funext ih)

/-- A walk for no bytes releases nothing. -/
theorem evictFromlist_zero (k : CacheList) : evictFromlist l k v 0 = some (v, 0) := by
  have hloop : Evict.evictLoop l k (v.dsm.cache l).fuel ((v.dsm.cache l).list k).fin
      (2 * 0 % 2 ^ 64) v.dsm [] = some (v.dsm, [], 0) := by
    cases ((v.dsm.cache l).list k).fin with
    | none => rfl
    | some e => exact if_pos rfl
  unfold evictFromlist Evict.evictFromlist
  rw [hloop]
  rfl

variable (poll) in
/-- The first walk of an eviction ends. When no bytes remain it is skipped. -/
theorem evictWalks_walk {k : CacheList} {rest rest' : Nat}
    (hwalk : evictFromlist l k v rest = some (w, rest')) (order : List CacheList) (polls : Nat) :
    evictWalks poll l (k :: order) ⟨polls, v, rest⟩ =
      if rest' = 0 then some ⟨polls, w, 0⟩
      else evictWalks poll l order ⟨polls + 1, poll polls w, rest'⟩ := by
  by_cases hzero : rest = 0
  · subst hzero
    cases hwalk.symm.trans (evictFromlist_zero k)
    exact evictWalks_of_size rfl _
  · rw [evictWalks, if_neg hzero, hwalk, Option.bind_some]
    refine ite_congr rfl (fun hzero' => ?_) fun _ => rfl
    rw [hzero']

/-- The first walk of an eviction stops the program. -/
theorem evictWalks_stop {k : CacheList} {rest : Nat} (hwalk : evictFromlist l k v rest = none)
    (order : List CacheList) (polls : Nat) :
    evictWalks poll l (k :: order) ⟨polls, v, rest⟩ = none := by
  have hzero : rest ≠ 0 := by
    intro hzero
    rw [hzero, evictFromlist_zero] at hwalk
    cases hwalk
  rw [evictWalks, if_neg hzero, hwalk]
  rfl

variable (poll size) in
theorem Stage.next_walk {k : CacheList} {rest rest' : Nat}
    (hwalk : evictFromlist l k v rest = some (w, rest')) (order : List CacheList) (polls : Nat) :
    Stage.next poll l size ⟨k :: order, polls, v, rest⟩ =
      some (if rest' = 0 then ⟨walks, polls + 1, poll polls w, size⟩
        else ⟨order, polls + 1, poll polls w, rest'⟩) := by
  rw [Stage.next, hwalk]
  rfl

/-- The walks keep a device that allocates. -/
theorem evictWalks_waiting
    (hpoll : ∀ i w, Waiting cfg l d size w → Waiting cfg l d size (poll i w))
    {order : List CacheList} {polls rest : Nat} {e : Evicting δ n} (h : Waiting cfg l d size v)
    (hrest : rest ≤ size) (hwalks : evictWalks poll l order ⟨polls, v, rest⟩ = some e) :
    Waiting cfg l d size e.node := by
  induction order generalizing polls v rest with
  | nil =>
      cases hwalks
      exact h
  | cons k order ih =>
      rcases evictFromlist_waiting h hrest k with ⟨hnone, _⟩ | ⟨w, rest', hwalk, hw, hle, _⟩
      · rw [evictWalks_stop hnone] at hwalks
        cases hwalks
      · rw [evictWalks_walk poll hwalk] at hwalks
        split at hwalks
        case isTrue =>
          cases hwalks
          exact hw
        case isFalse => exact ih (hpoll polls w hw) (hle.trans hrest) hwalks

/-- An eviction that is over with enough bytes, and with a large enough chunk. -/
def Evicting.Done (cfg : Config) (size : Nat) (e : Evicting δ n) : Prop :=
  e.size = 0 ∧ Fits cfg e.node.heap size

/-- The walks that are left of an eviction lead to room when the eviction is enough, or when the
walks after it lead to room. -/
theorem leads_of_evictWalks
    (hpoll : ∀ i w, Waiting cfg l d size w → Waiting cfg l d size (poll i w))
    {order : List CacheList} {polls rest : Nat} {e : Evicting δ n} (h : Waiting cfg l d size v)
    (hrest : rest ≤ size) (horder : order = [] → rest ≠ 0)
    (hwalks : evictWalks poll l order ⟨polls, v, rest⟩ = some e)
    (hleads : e.Done cfg size ∨
      Stage.Leads cfg poll l size ⟨walks, e.polls + 1, poll e.polls e.node, size⟩) :
    Stage.Leads cfg poll l size ⟨order, polls, v, rest⟩ := by
  induction order generalizing polls v rest with
  | nil =>
      cases hwalks
      exact .later rfl (hleads.resolve_left fun hdone => horder rfl hdone.1)
  | cons k order ih =>
      rcases evictFromlist_waiting h hrest k with ⟨hnone, _⟩ | ⟨w, rest', hwalk, hw, hle, hmakes⟩
      · rw [evictWalks_stop hnone] at hwalks
        cases hwalks
      · have hnext := Stage.next_walk size poll hwalk order polls
        rw [evictWalks_walk poll hwalk] at hwalks
        by_cases hzero : rest' = 0
        · rw [if_pos hzero] at hwalks hnext
          cases hwalks
          rcases hleads with hdone | hleads
          · exact .makes ((hmakes order polls).mpr ⟨hzero, hdone.2⟩)
          · exact .later hnext hleads
        · rw [if_neg hzero] at hwalks hnext
          exact .later hnext (ih (hpoll polls w hw) (hle.trans hrest) (fun _ => hzero) hwalks)

/-! ## The loop -/

/-- A round stops the program, or its eviction is enough and it gives a block, or it is the eviction
and a poll. -/
theorem round_cases (hpoll : ∀ i w, Waiting cfg l d size w → Waiting cfg l d size (poll i w))
    (h : Waiting cfg l d size v) (polls : Nat) :
    (evictWalks poll l walks ⟨polls, v, size⟩ = none ∧
      round cfg poll l size (polls, v) = none) ∨
    ∃ e, evictWalks poll l walks ⟨polls, v, size⟩ = some e ∧ Waiting cfg l d size e.node ∧
      ((e.Done cfg size ∧ ∃ w ptr, round cfg poll l size (polls, v) = some (.inr (w, ptr)) ∧
          Given w.heap size ptr ∧ sizeOf w.dsm l d = size) ∨
        (¬ e.Done cfg size ∧
          round cfg poll l size (polls, v) = some (.inl (e.polls + 1, poll e.polls e.node)))) := by
  unfold round cacheEvict
  simp only [evictLists_eq]
  rw [← walks]
  cases hwalks : evictWalks poll l walks ⟨polls, v, size⟩ with
  | none => exact .inl ⟨rfl, rfl⟩
  | some e =>
      have he : Waiting cfg l d size e.node := evictWalks_waiting hpoll h le_rfl hwalks
      refine .inr ⟨e, rfl, he, ?_⟩
      dsimp only [Option.map_some, Option.bind_some]
      by_cases hsize : e.size = 0
      · rw [if_pos hsize, if_pos rfl]
        by_cases hfits : Fits cfg e.node.heap size
        · obtain ⟨heap, ptr, halloc, hgiven⟩ := memoryAlloc_of_fits he.state.heap he.size_lt hfits
          rw [halloc]
          exact .inl ⟨⟨hsize, hfits⟩, _, _, congrArg some (if_neg hgiven.1), hgiven, he.view⟩
        · rw [memoryAlloc_of_not_fits he.state.heap hfits, he.reserve_eq]
          exact .inr ⟨fun hdone => hfits hdone.2, rfl⟩
      · rw [if_neg hsize, if_neg nofun]
        exact .inr ⟨fun hdone => hsize hdone.1, rfl⟩

/-- The loop reaches a round that gives a block. -/
def Ends (cfg : Config) (poll : Nat → Node δ n → Node δ n) (l : Lid n) (size : Nat)
    (t : Nat × Node δ n) : Prop :=
  ∃ k u r, afterRounds (round cfg poll l size) k t = some u ∧
    round cfg poll l size u = some (.inr r)

/-- The loop ends with an eviction that is enough, or after one that is not. -/
theorem ends_of_evictWalks
    (hpoll : ∀ i w, Waiting cfg l d size w → Waiting cfg l d size (poll i w))
    (h : Waiting cfg l d size v) {polls : Nat} {e : Evicting δ n}
    (hwalks : evictWalks poll l walks ⟨polls, v, size⟩ = some e)
    (hends : e.Done cfg size ∨ Ends cfg poll l size (e.polls + 1, poll e.polls e.node)) :
    Ends cfg poll l size (polls, v) := by
  rcases round_cases hpoll h polls with ⟨hnone, _⟩ | ⟨e', hwalks', _, hround⟩
  · cases hwalks.symm.trans hnone
  · cases hwalks.symm.trans hwalks'
    rcases hround with ⟨_, w, ptr, hround, _⟩ | ⟨hnot, hround⟩
    · exact ⟨0, _, _, rfl, hround⟩
    · obtain ⟨k, u, r, hrounds, hdone⟩ := hends.resolve_left hnot
      exact ⟨k + 1, u, r, (afterRounds_next hround k).trans hrounds, hdone⟩

/-- The walks from a point that leads to room are an eviction that is enough, or the loop ends after
it. -/
theorem evictWalks_of_leads
    (hpoll : ∀ i w, Waiting cfg l d size w → Waiting cfg l d size (poll i w)) {p : Stage δ n}
    (h : Waiting cfg l d size p.node) (hrest : p.rest ≤ size) (hleads : p.Leads cfg poll l size) :
    ∃ e, evictWalks poll l p.order ⟨p.polls, p.node, p.rest⟩ = some e ∧
      (e.Done cfg size ∨ Ends cfg poll l size (e.polls + 1, poll e.polls e.node)) := by
  induction hleads with
  | @makes p hmakes =>
      obtain ⟨order, polls, v, rest⟩ := p
      cases order with
      | nil => exact hmakes.elim
      | cons k order =>
          rcases evictFromlist_waiting h hrest k with ⟨_, hnot⟩ | ⟨w, rest', hwalk, _, _, hiff⟩
          · exact absurd hmakes (hnot order polls)
          · obtain ⟨hzero, hfits⟩ := (hiff order polls).mp hmakes
            exact ⟨⟨polls, w, 0⟩, (evictWalks_walk poll hwalk order polls).trans (if_pos hzero),
              .inl ⟨rfl, hfits⟩⟩
  | @later p q hnext _ ih =>
      obtain ⟨order, polls, v, rest⟩ := p
      -- a new eviction begins at the next point
      have hagain : ∀ {w : Node δ n}, Waiting cfg l d size w →
          q = ⟨walks, polls + 1, poll polls w, size⟩ →
            Ends cfg poll l size (polls + 1, poll polls w) := by
        intro w hw hq
        subst hq
        have hw' := hpoll polls w hw
        obtain ⟨e, hwalks, hends⟩ := ih hw' le_rfl
        exact ends_of_evictWalks hpoll hw' hwalks hends
      cases order with
      | nil => exact ⟨⟨polls, v, rest⟩, rfl, .inr (hagain h (Option.some.inj hnext).symm)⟩
      | cons k order =>
          rcases evictFromlist_waiting h hrest k with ⟨hnone, _⟩ | ⟨w, rest', hwalk, hw, hle, _⟩
          · rw [Stage.next, hnone] at hnext
            cases hnext
          · rw [Stage.next_walk size poll hwalk] at hnext
            have hwalks := evictWalks_walk poll hwalk order polls
            by_cases hzero : rest' = 0
            · rw [if_pos hzero] at hnext hwalks
              exact ⟨_, hwalks, .inr (hagain hw (Option.some.inj hnext).symm)⟩
            · rw [if_neg hzero] at hnext hwalks
              cases hnext
              obtain ⟨e, hrest', hends⟩ := ih (hpoll polls w hw) (hle.trans hrest)
              exact ⟨e, hwalks.trans hrest', hends⟩

/-- The loop ends exactly when one of its walks makes room. -/
theorem ends_iff_leads (hpoll : ∀ i w, Waiting cfg l d size w → Waiting cfg l d size (poll i w))
    (h : Waiting cfg l d size v) (polls : Nat) :
    Ends cfg poll l size (polls, v) ↔ Stage.Leads cfg poll l size ⟨walks, polls, v, size⟩ := by
  constructor
  · rintro ⟨k, u, r, hrounds, hdone⟩
    induction k generalizing v polls with
    | zero =>
        cases hrounds
        rcases round_cases hpoll h polls with
          ⟨_, hround⟩ | ⟨e, hwalks, _, ⟨henough, _⟩ | ⟨_, hround⟩⟩
        · cases hdone.symm.trans hround
        · exact leads_of_evictWalks hpoll h le_rfl nofun hwalks (.inl henough)
        · cases hdone.symm.trans hround
    | succ k ih =>
        rw [afterRounds] at hrounds
        rcases round_cases hpoll h polls with
          ⟨_, hround⟩ | ⟨e, hwalks, he, ⟨henough, _⟩ | ⟨_, hround⟩⟩
        · rw [hround] at hrounds
          cases hrounds
        · exact leads_of_evictWalks hpoll h le_rfl nofun hwalks (.inl henough)
        · rw [hround] at hrounds
          exact leads_of_evictWalks hpoll h le_rfl nofun hwalks
            (.inr (ih (hpoll e.polls e.node he) (e.polls + 1) hrounds))
  · intro hleads
    obtain ⟨e, hwalks, hends⟩ := evictWalks_of_leads hpoll h le_rfl hleads
    exact ends_of_evictWalks hpoll h hwalks hends

/-- The block that the loop ends with. -/
theorem given_of_retry (hpoll : ∀ i w, Waiting cfg l d size w → Waiting cfg l d size (poll i w))
    (h : Waiting cfg l d size v) {fuel polls ptr : Nat}
    (hretry : retry (round cfg poll l size) fuel (polls, v) = some (w, ptr)) :
    Given w.heap size ptr ∧ sizeOf w.dsm l d = size := by
  obtain ⟨k, _, ⟨polls', t⟩, hrounds, hdone⟩ := retry_eq_some_iff.mp hretry
  have hkept : ∀ s u : Nat × Node δ n, Waiting cfg l d size s.2 →
      round cfg poll l size s = some (.inl u) → Waiting cfg l d size u.2 := by
    intro ⟨i, s⟩ u hs hround
    rcases round_cases hpoll hs i with
      ⟨_, hround'⟩ | ⟨e, _, he, ⟨_, _, _, hround', _⟩ | ⟨_, hround'⟩⟩
    · cases hround.symm.trans hround'
    · cases hround.symm.trans hround'
    · cases hround.symm.trans hround'
      exact hpoll e.polls e.node he
  have ht : Waiting cfg l d size t :=
    afterRounds_invariant (fun s => Waiting cfg l d size s.2) hkept h hrounds
  rcases round_cases hpoll ht polls' with
    ⟨_, hround⟩ | ⟨e, _, _, ⟨_, w', ptr', hround, hgiven, hview⟩ | ⟨_, hround⟩⟩
  · cases hdone.symm.trans hround
  · cases hdone.symm.trans hround
    exact ⟨hgiven, hview⟩
  · cases hdone.symm.trans hround

/-! ## The allocation -/

/-- The replica has the block that it is given. -/
theorem placed_setAllocated {ptr : Nat} (h : Given v.heap (sizeOf v.dsm l d) ptr) :
    Placed ((v.setPtr l d ptr).setAllocated l d) l d := by
  have hmdi : ((v.setPtr l d ptr).setAllocated l d).dsm.mdi d =
      { (v.dsm.mdi d).setReplica l { (v.dsm.mdi d).replicas l with ptr := ptr } with
        alloc := insert l (v.dsm.mdi d).alloc } := by
    unfold Node.setAllocated Node.setPtr
    simp only [State.mdi_setMdi_self]
    rfl
  have hreplica : (((v.setPtr l d ptr).setAllocated l d).dsm.mdi d).replicas l =
      { (v.dsm.mdi d).replicas l with ptr := ptr } := by
    rw [hmdi]
    exact Function.update_self _ _ _
  unfold Placed
  rw [hreplica]
  refine ⟨?_, h⟩
  rw [hmdi]
  exact Finset.mem_insert_self _ _

/-- A result of the loop is not null. -/
theorem ptr_ne_zero_of_retry {fuel : Nat} {t : Nat × Node δ n} {ptr : Nat}
    (h : retry (round cfg poll l size) fuel t = some (w, ptr)) : ptr ≠ 0 := by
  obtain ⟨k, _, ⟨cnt, u⟩, _, hdone⟩ := retry_eq_some_iff.mp h
  unfold round at hdone
  obtain ⟨⟨u', err⟩, _, hdone⟩ := Option.bind_eq_some_iff.mp hdone
  obtain ⟨⟨heap, ptr'⟩, _, hdone⟩ := Option.map_eq_some_iff.mp hdone
  dsimp only at hdone
  split at hdone
  case isTrue => cases hdone
  case isFalse hne =>
    cases hdone
    exact hne

/-- `ENOMEM` is not returned. -/
theorem allocateReplica_ne_enomem {fuel : Nat} :
    allocateReplica cfg poll l d fuel v ≠ some (w, .enomem) := by
  intro h
  unfold allocateReplica at h
  dsimp only at h
  split at h
  case isTrue => cases h
  case isFalse =>
    obtain ⟨⟨heap, ptr⟩, _, h⟩ := Option.bind_eq_some_iff.mp h
    obtain ⟨⟨u, ptr'⟩, hresult, h⟩ := Option.map_eq_some_iff.mp h
    have hne : ptr' ≠ 0 := by
      dsimp only at hresult
      split at hresult
      case isTrue => exact ptr_ne_zero_of_retry hresult
      case isFalse hptr =>
        cases hresult
        exact hptr
    dsimp only at h
    rw [if_neg hne] at h
    cases h

theorem acquireData_ne_enomem {rest : Node δ n → Node δ n × Bool} {fuel : Nat} :
    acquireData cfg poll rest l d fuel v ≠ some (w, .enomem) := by
  intro h
  obtain ⟨⟨u, err⟩, hallocate, h⟩ := Option.map_eq_some_iff.mp h
  cases err with
  | enomem =>
      split at hallocate
      case isTrue => cases hallocate
      case isFalse => exact allocateReplica_ne_enomem hallocate
  | ok =>
      dsimp only at h
      split at h <;> cases h

/-- A replica that is not allocated gets a block when the heap has room or a walk makes room. -/
theorem ends_iff (hpoll : ∀ i w, Waiting cfg l d (sizeOf v.dsm l d) w →
      Waiting cfg l d (sizeOf v.dsm l d) (poll i w))
    (h : NodeState cfg l v) (hd : l ∉ (v.dsm.mdi d).alloc) :
    (∃ fuel w err, allocateReplica cfg poll l d fuel v = some (w, err)) ↔
      HasRoom cfg poll l (sizeOf v.dsm l d) v := by
  unfold allocateReplica
  dsimp only
  simp only [if_neg hd]
  by_cases hfits : Fits cfg v.heap (sizeOf v.dsm l d)
  · obtain ⟨heap, ptr, halloc, hgiven⟩ := memoryAlloc_of_fits h.heap (h.views d) hfits
    refine iff_of_true ⟨0, ?_⟩ (.inl hfits)
    rw [show ((v.dsm.mdi d).replicas l).size = sizeOf v.dsm l d from rfl, halloc,
      Option.bind_some, if_neg hgiven.1, Option.map_some]
    exact ⟨_, _, rfl⟩
  · have hwaiting : Waiting cfg l d (sizeOf v.dsm l d) { v with heap := v.heap.reserve cfg } :=
      ⟨h.reserve, h.heap.reserve.1, hd, rfl⟩
    have hends := ends_iff_leads hpoll hwaiting 0
    have hnone := memoryAlloc_of_not_fits h.heap hfits
    simp only [show ((v.dsm.mdi d).replicas l).size = sizeOf v.dsm l d from rfl, hnone,
      Option.bind_some, if_true]
    constructor
    · rintro ⟨fuel, w, err, hresult⟩
      obtain ⟨r, hretry, _⟩ := Option.map_eq_some_iff.mp hresult
      obtain ⟨k, t, hdone⟩ := exists_retry_iff.mp ⟨fuel, hretry⟩
      exact .inr (hends.mp ⟨k, t, r, hdone⟩)
    · intro hroom
      obtain ⟨k, t, r, hdone⟩ := hends.mpr (hroom.resolve_left hfits)
      obtain ⟨fuel, hretry⟩ := exists_retry_iff.mpr ⟨k, t, hdone⟩
      refine ⟨fuel, ?_⟩
      rw [hretry]
      exact ⟨_, _, rfl⟩

/-- A result is an allocated replica. -/
theorem placed_of_allocateReplica
    (hpoll : ∀ i w, Waiting cfg l d (sizeOf v.dsm l d) w →
      Waiting cfg l d (sizeOf v.dsm l d) (poll i w))
    (h : NodeState cfg l v) {fuel : Nat} {err : Err}
    (hresult : allocateReplica cfg poll l d fuel v = some (w, err)) : Placed w l d := by
  unfold allocateReplica at hresult
  dsimp only at hresult
  split at hresult
  case isTrue hd =>
    cases hresult
    exact h.placed d hd
  case isFalse hd =>
    by_cases hfits : Fits cfg v.heap (sizeOf v.dsm l d)
    · obtain ⟨heap, ptr, halloc, hgiven⟩ := memoryAlloc_of_fits h.heap (h.views d) hfits
      have halloc : memoryAlloc cfg v.heap ((v.dsm.mdi d).replicas l).size = some (heap, ptr) :=
        halloc
      simp only [halloc, Option.bind_some, if_neg hgiven.1, Option.map_some] at hresult
      cases hresult
      exact placed_setAllocated hgiven
    · have hnone : memoryAlloc cfg v.heap ((v.dsm.mdi d).replicas l).size =
          some (v.heap.reserve cfg, 0) := memoryAlloc_of_not_fits h.heap hfits
      simp only [hnone, Option.bind_some, if_true] at hresult
      obtain ⟨⟨u, ptr⟩, hretry, hresult⟩ := Option.map_eq_some_iff.mp hresult
      have hwaiting : Waiting cfg l d (sizeOf v.dsm l d) { v with heap := v.heap.reserve cfg } :=
        ⟨h.reserve, h.heap.reserve.1, hd, rfl⟩
      obtain ⟨hgiven, hview⟩ := given_of_retry hpoll hwaiting hretry
      dsimp only at hresult
      rw [if_neg hgiven.1] at hresult
      cases hresult
      refine placed_setAllocated ?_
      rw [hview]
      exact hgiven

/-- An allocation is sound exactly when the replica is allocated, the heap has room, or one of the
walks makes room: it releases the bytes that remain, meets no replica under transfer, and leaves a
free chunk that is large enough. -/
theorem allocate_sound_iff (rest : Node δ n → Node δ n × Bool) (h : NodeState cfg l v)
    (hpoll : ∀ i w, Waiting cfg l d (sizeOf v.dsm l d) w →
      Waiting cfg l d (sizeOf v.dsm l d) (poll i w)) :
    AllocateSound cfg poll rest l d v ↔
      l ∈ (v.dsm.mdi d).alloc ∨ HasRoom cfg poll l (sizeOf v.dsm l d) v := by
  by_cases hd : l ∈ (v.dsm.mdi d).alloc
  · refine iff_of_true ⟨⟨0, v, .ok, if_pos hd, fun _ => h.placed d hd, nofun⟩, ?_⟩ (.inl hd)
    exact fun fuel w hresult => absurd hresult acquireData_ne_enomem
  · constructor
    · intro hsound
      obtain ⟨fuel, w, err, hresult, _⟩ := hsound.ends
      exact .inr ((ends_iff hpoll h hd).mp ⟨fuel, w, err, hresult⟩)
    · intro hroom
      obtain ⟨fuel, w, err, hresult⟩ := (ends_iff hpoll h hd).mpr (hroom.resolve_left hd)
      refine ⟨⟨fuel, w, err, hresult, ?_, ?_⟩, ?_⟩
      · exact fun _ => placed_of_allocateReplica hpoll h hresult
      · intro herr
        subst herr
        exact absurd hresult allocateReplica_ne_enomem
      · exact fun fuel w hresult => absurd hresult acquireData_ne_enomem

/-! ## A full device -/

/-- A device with 64 bytes of memory. -/
def tinyConfig : Config where
  memLimit := 64
  base := 4096
  base_pos := Heap.page_pos
  strategy := .firstFit

/-- Its heap after an allocation of 64 bytes. -/
def fullHeap : Device :=
  (Device.initial.alloc tinyConfig 64).elim .initial Prod.fst

theorem heapInv_fullHeap : ∃ refs, HeapInv tinyConfig fullHeap refs := by
  have hchunk : (Device.initial.alloc tinyConfig 64).map Prod.snd = some (some 0) := by decide
  rw [Heap.alloc_initial] at hchunk
  rcases Heap.alloc_spec (Heap.heapInv_reserve tinyConfig) 64 with
    hnone | ⟨heap, refs, c, hsome, hallocated⟩
  · rw [hnone] at hchunk
    cases hchunk
  · refine ⟨refs, ?_⟩
    unfold fullHeap
    rw [Heap.alloc_initial, hsome]
    exact hallocated.inv

/-- Two data of 64 bytes that are valid on the host. The first one is also valid on the device. -/
def fullMetadata (pinned : Bool) : Bool → Metadata 1
  | true =>
      { replicas := fun l => ⟨1, 64, if l = 1 ∧ pinned then 1 else 0, none, none⟩
        alloc := Finset.univ
        valid := Finset.univ
        xfer := ∅ }
  | false =>
      { replicas := fun l => ⟨if l = 1 then 0 else 1, 64, 0, none, none⟩
        alloc := {0}
        valid := {0}
        xfer := ∅ }

/-- The caches before the device touches the first data. -/
def fullStart (pinned : Bool) : LruCache.State Bool 1 where
  mdi := fullMetadata pinned
  cache := LruCache.sharedState.cache

theorem initial_fullStart (pinned : Bool) : LruCache.Initial (fullStart pinned) where
  list := fun _ _ => rfl
  freelist := fun _ => rfl
  bloc := fun _ => rfl
  uncached := fun d _ => by cases d <;> exact ⟨rfl, rfl⟩
  consistent := fun d => by cases d <;> cases pinned <;> constructor <;> decide

theorem isSome_fullStart (pinned : Bool) :
    ((LruCache.system Bool 1).replay EmptyInvalidation (fullStart pinned)
      [.touch 1 false true]).isSome := by
  cases pinned <;> decide

/-- The memory of the device has the block of the first data, which may be pinned. -/
def fullNode (pinned : Bool) : Node Bool 1 where
  dsm := Option.get _ (isSome_fullStart pinned)
  heap := fullHeap

theorem nodeState_fullNode (pinned : Bool) : NodeState tinyConfig 1 (fullNode pinned) where
  cache := by
    have hrun : (LruCache.system Bool 1).replay EmptyInvalidation (fullStart pinned)
        [.touch 1 false true] = some (fullNode pinned).dsm :=
      (Option.some_get (isSome_fullStart pinned)).symm
    refine ⟨⟨∅, cached_of_emptyInvalidation (.replay (.start (initial_fullStart pinned)) hrun) 1
      (by decide)⟩, fun k => ?_, ?_⟩
    · cases pinned <;> cases k <;> decide
    · cases pinned <;> decide
  views := by cases pinned <;> decide
  heap := .inr heapInv_fullHeap
  placed d hd := by
    cases d with
    | true => cases pinned <;> exact ⟨hd, by decide⟩
    | false => cases pinned <;> exact absurd hd (by decide)
  apart := by cases pinned <;> decide
  bare := by cases pinned <;> decide

/-- The first walk releases the replica of the first data, which makes room for the second one. -/
theorem allocate_sound_fullNode :
    AllocateSound tinyConfig (fun _ v => v) (fun v => (v, false)) 1 false (fullNode false) :=
  (allocate_sound_iff (fun v => (v, false)) (nodeState_fullNode false) fun _ _ h => h).mpr
    (.inr (.inr (.makes ⟨by decide, by decide, _, rfl, by decide⟩)))

/-- No walk makes room while the first data is pinned. -/
theorem not_leads_fullNode {p : Stage Bool 1}
    (h : p.Leads tinyConfig (fun _ v => v) 1 64) : ¬ (p.node = fullNode true ∧ p.rest = 64) := by
  have hwalk : ∀ k, evictFromlist 1 k (fullNode true) 64 = some (fullNode true, 64) := by
    intro k
    cases k <;> rfl
  induction h with
  | @makes p hmakes =>
      obtain ⟨order, polls, v, rest⟩ := p
      rintro ⟨rfl, rfl⟩
      cases order with
      | nil => exact hmakes
      | cons k order => exact absurd hmakes.2.1 (by cases k <;> decide)
  | @later p q hnext _ ih =>
      obtain ⟨order, polls, v, rest⟩ := p
      rintro ⟨rfl, rfl⟩
      refine ih ?_
      cases order with
      | nil =>
          cases hnext
          exact ⟨rfl, rfl⟩
      | cons k order =>
          rw [Stage.next_walk 64 _ (hwalk k)] at hnext
          cases hnext
          exact ⟨rfl, rfl⟩

/-- With the first data pinned the allocation for the second one never ends. -/
theorem not_allocate_sound :
    ¬ ∀ (cfg : Config) (rest : Node Bool 1 → Node Bool 1 × Bool) (l : Lid 1) (d : Bool)
      (v : Node Bool 1), NodeState cfg l v → AllocateSound cfg (fun _ v => v) rest l d v := by
  intro hall
  have hsound := hall tinyConfig (fun v => (v, false)) 1 false (fullNode true)
    (nodeState_fullNode true)
  obtain ⟨fuel, w, err, hresult, _⟩ := hsound.ends
  rcases (ends_iff (fun _ _ h => h) (nodeState_fullNode true) (by decide)).mp
    ⟨fuel, w, err, hresult⟩ with hfits | hleads
  · exact absurd hfits (by decide)
  · exact not_leads_fullNode hleads ⟨rfl, rfl⟩

end Xkblas.Memory.AllocateReplica
