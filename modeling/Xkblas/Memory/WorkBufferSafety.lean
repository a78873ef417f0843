import Mathlib.Data.List.Perm.Subperm
import Xkblas.Library.DoublyLinked
import Xkblas.Library.Tiling
import Xkblas.Memory.HeapInvariant
import Xkblas.Memory.WorkBuffer

/-!
# The segments of the work buffer

`Layout` says that the segments of a list are linked both ways and tile the buffer, and that the
segments of another list are linked both ways as the free ones. Each function of the allocator is a
local change of these lists. `SegInv` adds that the second list is that of the free segments, in the
order of the addresses, and that no two neighbours are free.
-/

namespace Xkblas.Memory.WorkBuffer

open Library
open Heap (Sparse EndsUsed StartsUsed sparse_used sparse_free notMem_of_nodup
  filter_append_cons_free filter_append_cons_used)

variable {s s' : Segments} {refs before after free front back : List Ref} {base total : ℕ}
  {c n p : Ref}

/-- The segments in the order of their addresses, and the free list. -/
structure Layout (s : Segments) (refs free : List Ref) (base total : ℕ) : Prop where
  segs : DoublyLinked s.next s.prev s.firstSegment refs.getLast? refs
  frees : DoublyLinked s.freeNext s.freePrev s.freeSegmentList free.getLast? free
  tiles : Tiles s.ptr s.size base refs (base + total)

/-! ## The changes of the lists -/

/-- A segment is cut in two. -/
theorem Layout.split (h : Layout s (before ++ c :: after) (front ++ c :: back) base total)
    {size : ℕ} (hsize : size ≤ s.size c) (hfresh : s.brk ∉ before ++ c :: after)
    (hfreshFree : s.brk ∉ front ++ c :: back) :
    Layout (s.split c size) (before ++ c :: s.brk :: after) (front ++ c :: s.brk :: back) base
      total := by
  have hcb : c ≠ s.brk := fun heq => hfresh (heq ▸ List.mem_append_right _ List.mem_cons_self)
  have hlist : ∀ l₁ l₂ : List Ref, l₁ ++ c :: l₂ = (l₁ ++ [c]) ++ l₂ := fun l₁ l₂ => by simp
  have hrestart : ∀ (q : Option Ref) (l : List Ref), restart q (l ++ [c]) (some s.brk) = q :=
    fun q l => if_neg (by simp)
  constructor
  case segs =>
    have hsegs := h.segs
    have hnext := hsegs.next_eq
    rw [hlist] at hsegs
    have hnew := (hsegs.insert (by rwa [← hlist])).toLast
    rw [List.getLast?_concat, hrestart, assignAt_some, ← hnext, ← hlist] at hnew
    exact hnew
  case frees =>
    have hfrees := h.frees
    have hnext := hfrees.next_eq
    rw [hlist] at hfrees
    have hnew := (hfrees.insert (by rwa [← hlist])).toLast
    rw [List.getLast?_concat, hrestart, assignAt_some, ← hnext, ← hlist] at hnew
    exact hnew
  case tiles =>
    obtain ⟨hcbefore, hcafter, _⟩ := notMem_of_nodup h.segs.nodup
    have hsizeC : (s.split c size).size c = size := Function.update_self _ _ _
    refine h.tiles.split (fun z hz => ?_) (Function.update_of_ne hcb _ _) ?_ ?_
    · have hzc : z ≠ c := by
        rintro rfl
        exact (List.mem_append.mp hz).elim hcbefore hcafter
      have hzb : z ≠ s.brk := by
        rintro rfl
        refine hfresh ?_
        rcases List.mem_append.mp hz with hz | hz
        · exact List.mem_append_left _ hz
        · exact List.mem_append_right _ (List.mem_cons_of_mem _ hz)
      refine ⟨Function.update_of_ne hzb _ _, ?_⟩
      exact (Function.update_of_ne hzc _ _).trans (Function.update_of_ne hzb _ _)
    · rw [hsizeC]
      exact Function.update_self _ _ _
    · have hsizeB : (s.split c size).size s.brk = s.size c - size :=
        (Function.update_of_ne hcb.symm _ _).trans (Function.update_self _ _ _)
      rw [hsizeC, hsizeB]
      exact Nat.add_sub_cancel' hsize

/-- A segment leaves the free list. -/
theorem Layout.take (h : Layout s refs (front ++ c :: back) base total) :
    Layout (s.take c) refs (front ++ back) base total := by
  obtain ⟨hfront, hback⟩ := h.frees.notMem
  have hne : ∀ y ∈ front ++ back, y ≠ c := fun y hy heq => by
    rw [heq] at hy
    exact (List.mem_append.mp hy).elim hfront hback
  refine ⟨h.segs, ?_, h.tiles⟩
  exact (h.frees.unlink.congr (fun y hy => Function.update_of_ne (hne y hy) _ _)
    fun y hy => Function.update_of_ne (hne y hy) _ _).toLast

/-- A segment is merged with the free one behind it. -/
theorem Layout.mergeNext (h : Layout s (before ++ c :: n :: after) (front ++ n :: back) base total)
    (hc : c ∉ front ++ n :: back) :
    Layout (s.mergeNext c n) (before ++ c :: after) (front ++ c :: back) base total := by
  have hlist : ∀ l : List Ref, before ++ c :: l = (before ++ [c]) ++ l := fun l => by simp
  have hcn : c ≠ n := fun heq => hc (heq ▸ List.mem_append_right _ List.mem_cons_self)
  obtain ⟨hcb, hca, hba⟩ := notMem_of_nodup h.segs.nodup
  constructor
  case segs =>
    have hsegs := h.segs
    rw [hlist] at hsegs
    have hprev := hsegs.prev_eq
    have hnew := hsegs.unlink.toLast
    rw [hprev, List.getLast?_concat, assignAt_some, if_neg (Option.some_ne_none c), ← hlist]
      at hnew
    exact hnew
  case frees =>
    have hcfb : c ∉ front ++ back := fun hmem => hc <| by
      rcases List.mem_append.mp hmem with hmem | hmem
      · exact List.mem_append_left _ hmem
      · exact List.mem_append_right _ (List.mem_cons_of_mem _ hmem)
    -- the pointer of `c` is written after that of the segment behind it
    refine ((h.frees.replace hcfb).congr (fun _ _ => rfl) fun y _ => ?_).toLast
    have hnext : s.freeNext n ≠ some c := by
      rw [h.frees.next_eq]
      intro hhead
      exact hcfb (List.mem_append_right _ (List.mem_of_mem_head? hhead))
    show Function.update _ c _ y = assignAt (Function.update _ c _) _ _ y
    by_cases hy : y = c
    · rw [hy, Function.update_self, assignAt_of_ne hnext, Function.update_self]
    · unfold assignAt
      rw [Function.update_of_ne hy, Function.update_of_ne hy]
  case tiles =>
    refine h.tiles.join (fun z hz => ⟨rfl, Function.update_of_ne ?_ _ _⟩) rfl
      (Function.update_self _ _ _)
    rintro rfl
    rcases List.mem_append.mp hz with hz | hz
    · exact hcb hz
    · exact hca (List.mem_cons_of_mem _ hz)

/-- A segment is merged with the one before it. -/
theorem Layout.mergePrev (h : Layout s (before ++ p :: c :: after) free base total) :
    Layout (s.mergePrev p c) (before ++ p :: after) free base total := by
  have hlist : ∀ l : List Ref, before ++ p :: l = (before ++ [p]) ++ l := fun l => by simp
  obtain ⟨hpb, hpa, _⟩ := notMem_of_nodup h.segs.nodup
  constructor
  case segs =>
    have hsegs := h.segs
    rw [hlist] at hsegs
    have hprev := hsegs.prev_eq
    have hnew := hsegs.unlink.toLast
    rw [hprev, List.getLast?_concat, assignAt_some, if_neg (Option.some_ne_none p), ← hlist]
      at hnew
    exact hnew
  case frees => exact h.frees
  case tiles =>
    refine h.tiles.join (fun z hz => ⟨rfl, Function.update_of_ne ?_ _ _⟩) rfl
      (Function.update_self _ _ _)
    rintro rfl
    rcases List.mem_append.mp hz with hz | hz
    · exact hpb hz
    · exact hpa (List.mem_cons_of_mem _ hz)

/-- The free segment `c` behind the free segment `p` leaves the free list. -/
theorem Layout.dropFree (h : Layout s refs (front ++ p :: c :: back) base total) :
    Layout (s.dropFree p c) refs (front ++ p :: back) base total := by
  have hlist : ∀ l : List Ref, front ++ p :: l = (front ++ [p]) ++ l := fun l => by simp
  have hfrees := h.frees
  rw [hlist] at hfrees
  have hprev := hfrees.prev_eq
  have hnew := hfrees.unlink.toLast
  rw [hprev, List.getLast?_concat, assignAt_some, if_neg (Option.some_ne_none p), ← hlist] at hnew
  exact ⟨h.segs, hnew, h.tiles⟩

/-- A segment enters the free list. -/
theorem Layout.linkFree (h : Layout s refs (front ++ back) base total) (hc : c ∉ front ++ back) :
    Layout (s.linkFree c front.getLast? back.head?) refs (front ++ c :: back) base total := by
  have hnew := (h.frees.insert hc).toLast
  refine ⟨?_, ?_, ?_⟩
  · unfold Segments.linkFree
    split <;> exact h.segs
  · unfold Segments.linkFree Segments.linkNeighbours
    by_cases hlast : front.getLast? = none
    · obtain rfl := List.getLast?_eq_none_iff.mp hlast
      have hbeg : s.freeSegmentList = back.head? := h.frees.beg_eq
      rw [if_pos hlast]
      dsimp only
      rw [Function.update_self, Function.update_self, hbeg]
      exact hnew
    · have hne : front ≠ [] := fun heq => hlast (List.getLast?_eq_none_iff.mpr heq)
      rw [restart, if_neg hne] at hnew
      rw [if_neg hlast]
      dsimp only
      rw [Function.update_self, Function.update_self]
      exact hnew
  · unfold Segments.linkFree
    split <;> exact h.tiles

/-- The first segment of the free list. -/
theorem Layout.linkFirst (h : Layout s refs [] base total) (hnext : s.freeNext c = none)
    (hprev : s.freePrev c = none) :
    Layout { s with freeSegmentList := some c } refs [c] base total := by
  refine ⟨h.segs, ⟨List.nodup_singleton c, ⟨rfl, hnext⟩, ?_⟩, h.tiles⟩
  rw [List.reverse_singleton]
  exact ⟨rfl, hprev⟩

/-! ## The invariant of the segments -/

/-- The free list is that of the free segments, and the others are in no free list. -/
structure Core (base total : ℕ) (s : Segments) (refs : List Ref) : Prop where
  layout : Layout s refs (refs.filter s.isFree) base total
  fresh : ∀ r ∈ refs, r < s.brk
  positive : 1 < refs.length → ∀ r ∈ refs, 0 < s.size r
  detached : ∀ r ∈ refs, s.isFree r = false → s.freeNext r = none ∧ s.freePrev r = none
  total_eq : s.totalSize = total

/-- The segments between two calls: no two neighbours are free. -/
structure SegInv (base total : ℕ) (s : Segments) (refs : List Ref) : Prop extends
    Core base total s refs where
  sparse : Sparse s.isFree refs
  nonempty : refs ≠ []

/-- The loops over the segments end. -/
theorem Core.length_lt_fuel (h : Core base total s refs) : refs.length < s.fuel := by
  have hsub := h.layout.segs.nodup.subperm fun r hr => List.mem_range.mpr (h.fresh r hr)
  have hle := hsub.length_le
  rw [List.length_range] at hle
  exact Nat.lt_succ_of_le hle

theorem Core.filter_length_lt_fuel (h : Core base total s refs) :
    (refs.filter s.isFree).length < s.fuel :=
  lt_of_le_of_lt (List.length_filter_le _ _) h.length_lt_fuel

/-- The two sides of a segment. -/
theorem Core.sides (h : Core base total s (before ++ c :: after)) :
    (∀ r ∈ before, r ≠ c) ∧ ∀ r ∈ after, r ≠ c := by
  obtain ⟨hb, ha, _⟩ := notMem_of_nodup h.layout.segs.nodup
  exact ⟨fun r hr => ne_of_mem_of_not_mem hr hb, fun r hr => ne_of_mem_of_not_mem hr ha⟩

/-- The state of a segment is set. -/
theorem filter_update {b : Bool} (hb : ∀ r ∈ before, r ≠ c) (ha : ∀ r ∈ after, r ≠ c) :
    (before ++ c :: after).filter (Function.update s.isFree c b) =
      before.filter s.isFree ++
        if b then c :: after.filter s.isFree else after.filter s.isFree := by
  have hbefore : before.filter (Function.update s.isFree c b) = before.filter s.isFree :=
    List.filter_congr fun r hr => Function.update_of_ne (hb r hr) _ _
  have hafter : after.filter (Function.update s.isFree c b) = after.filter s.isFree :=
    List.filter_congr fun r hr => Function.update_of_ne (ha r hr) _ _
  cases b with
  | false =>
      rw [filter_append_cons_used (Function.update_self _ _ _), hbefore, hafter]
      rfl
  | true =>
      rw [filter_append_cons_free (Function.update_self _ _ _), hbefore, hafter]
      rfl

/-- A used segment is not in a free list. -/
theorem notMem_filter {r : Ref} (hr : s.isFree r = false) : r ∉ refs.filter s.isFree := by
  intro hmem
  have hfree := (List.mem_filter.mp hmem).2
  rw [hr] at hfree
  cases hfree

/-! ## A request -/

/-- A free segment is cut in two free ones. -/
theorem Core.split (h : Core base total s (before ++ c :: after)) (hc : s.isFree c = true)
    {size : ℕ} (hpos : 0 < size) (hsize : size < s.size c) :
    Core base total (s.split c size) (before ++ c :: s.brk :: after) := by
  have hne : ∀ r ∈ before ++ c :: after, r ≠ s.brk := fun r hr => (h.fresh r hr).ne
  have hfresh : s.brk ∉ before ++ c :: after := fun hmem => hne _ hmem rfl
  have hmem : ∀ r, r ∈ before ++ c :: s.brk :: after ↔ r = s.brk ∨ r ∈ before ++ c :: after := by
    intro r
    simp only [List.mem_append, List.mem_cons]
    tauto
  have hkeep : ∀ r ∈ before ++ c :: after, (s.split c size).isFree r = s.isFree r :=
    fun r hr => Function.update_of_ne (hne r hr) _ _
  have hfilter : (before ++ c :: s.brk :: after).filter (s.split c size).isFree =
      before.filter s.isFree ++ c :: s.brk :: after.filter s.isFree := by
    have hcFree : (s.split c size).isFree c = true :=
      (hkeep c (List.mem_append_right _ List.mem_cons_self)).trans hc
    have hbrk : (s.split c size).isFree s.brk = true := Function.update_self _ _ _
    rw [filter_append_cons_free hcFree, List.filter_cons_of_pos hbrk]
    refine congrArg₂ _ (List.filter_congr fun r hr => hkeep r (List.mem_append_left _ hr)) ?_
    refine congrArg (fun l => c :: s.brk :: l) (List.filter_congr fun r hr => hkeep r ?_)
    exact List.mem_append_right _ (List.mem_cons_of_mem _ hr)
  have hlayout := h.layout
  rw [filter_append_cons_free hc] at hlayout
  constructor
  case layout =>
    rw [hfilter]
    refine hlayout.split hsize.le hfresh fun hbrk => hfresh ?_
    rw [← filter_append_cons_free hc] at hbrk
    exact (List.mem_filter.mp hbrk).1
  case fresh =>
    intro r hr
    show r < s.brk + 1
    rcases (hmem r).mp hr with rfl | hr
    · exact Nat.lt_succ_self _
    · exact Nat.lt_succ_of_lt (h.fresh r hr)
  case positive =>
    intro _ r hr
    show 0 < Function.update (Function.update s.size s.brk (s.size c - size)) c size r
    by_cases hrc : r = c
    · rw [hrc, Function.update_self]
      exact hpos
    rw [Function.update_of_ne hrc]
    rcases (hmem r).mp hr with rfl | hr
    · rw [Function.update_self]
      omega
    · rw [Function.update_of_ne (hne r hr)]
      refine h.positive ?_ r hr
      have hlength : (before ++ c :: after).length = before.length + (after.length + 1) := by
        rw [List.length_append, List.length_cons]
      rcases List.mem_append.mp hr with hr | hr
      · have := List.length_pos_of_mem hr
        omega
      · have := List.length_pos_of_mem ((List.mem_cons.mp hr).resolve_left hrc)
        omega
  case detached =>
    intro r hr hused
    rcases (hmem r).mp hr with rfl | hr
    · have hbrk : (s.split c size).isFree s.brk = true := Function.update_self _ _ _
      rw [hbrk] at hused
      cases hused
    rw [hkeep r hr] at hused
    obtain ⟨hnext, hprev⟩ := h.detached r hr hused
    have hrc : r ≠ c := by
      rintro rfl
      rw [hc] at hused
      cases hused
    constructor
    · refine (Function.update_of_ne hrc _ _).trans ?_
      exact (Function.update_of_ne (hne r hr) _ _).trans hnext
    · show assignAt (Function.update s.freePrev s.brk (some c)) (s.freeNext c) (some s.brk) r = none
      rw [hlayout.frees.next_eq, assignAt_head?_of_notMem (notMem_filter hused),
        Function.update_of_ne (hne r hr)]
      exact hprev
  case total_eq => exact h.total_eq

/-- A free segment is taken. -/
theorem Core.take (h : Core base total s (before ++ c :: after)) (hc : s.isFree c = true) :
    Core base total (s.take c) (before ++ c :: after) := by
  obtain ⟨hb, ha⟩ := h.sides
  have hlayout := h.layout
  rw [filter_append_cons_free hc] at hlayout
  constructor
  case layout =>
    show Layout _ _ ((before ++ c :: after).filter (Function.update s.isFree c false)) _ _
    rw [filter_update hb ha]
    exact hlayout.take
  case fresh => exact h.fresh
  case positive => exact h.positive
  case detached =>
    intro r hr hused
    by_cases hrc : r = c
    · rw [hrc]
      exact ⟨Function.update_self _ _ _, Function.update_self _ _ _⟩
    have hused : s.isFree r = false := by
      rw [← hused]
      exact (Function.update_of_ne hrc _ _).symm
    obtain ⟨hnext, hprev⟩ := h.detached r hr hused
    constructor
    · refine (Function.update_of_ne hrc _ _).trans ?_
      rw [hlayout.frees.prev_eq, assignAt_getLast?_of_notMem (notMem_filter hused)]
      exact hnext
    · refine (Function.update_of_ne hrc _ _).trans ?_
      rw [hlayout.frees.next_eq, assignAt_head?_of_notMem (notMem_filter hused)]
      exact hprev
  case total_eq => exact h.total_eq

/-- What a request does that returns the block of `c`. -/
structure Taken (base total : ℕ) (s s' : Segments) (refs refs' : List Ref) (c : Ref) (size : ℕ) :
    Prop where
  inv : SegInv base total s' refs'
  wasFree : s.isFree c = true
  used : ∀ r, r ∈ refs' ∧ s'.isFree r = false ↔ r ∈ refs ∧ s.isFree r = false ∨ r = c
  kept : ∀ r ∈ refs, s.isFree r = false → s'.ptr r = s.ptr r ∧ s'.size r = s.size r
  fits : size ≤ s'.size c

/-- A free segment is taken whole. -/
theorem SegInv.takeWhole (h : SegInv base total s (before ++ c :: after)) (hc : s.isFree c = true)
    {size : ℕ} (hfits : size ≤ s.size c) :
    Taken base total s (s.take c) (before ++ c :: after) (before ++ c :: after) c size := by
  obtain ⟨hb, ha⟩ := h.sides
  have hused : (s.take c).isFree c = false := Function.update_self _ _ _
  have hkeep : ∀ r, r ≠ c → (s.take c).isFree r = s.isFree r := fun r hr =>
    Function.update_of_ne hr _ _
  obtain ⟨hsb, hsa, _, _⟩ := (sparse_free hc).mp h.sparse
  refine ⟨⟨h.toCore.take hc, ?_, h.nonempty⟩, hc, fun r => ?_, fun r _ _ => ⟨rfl, rfl⟩, hfits⟩
  · exact (sparse_used hused).mpr ⟨hsb.congr fun r hr => hkeep r (hb r hr),
      hsa.congr fun r hr => hkeep r (ha r hr)⟩
  · by_cases hr : r = c
    · rw [hr]
      exact ⟨fun _ => .inr rfl, fun _ => ⟨List.mem_append_right _ List.mem_cons_self, hused⟩⟩
    · rw [hkeep r hr]
      exact ⟨.inl, fun hor => hor.resolve_right hr⟩

/-- A free segment is cut, and its first part is taken. -/
theorem SegInv.takeSplit (h : SegInv base total s (before ++ c :: after)) (hc : s.isFree c = true)
    {size : ℕ} (hpos : 0 < size) (hsize : size < s.size c) :
    Taken base total s ((s.split c size).take c) (before ++ c :: after)
      (before ++ c :: s.brk :: after) c size := by
  have hsplit := h.toCore.split hc hpos hsize
  have hne : ∀ r ∈ before ++ c :: after, r ≠ s.brk := fun r hr => (h.fresh r hr).ne
  have hcb : c ≠ s.brk := hne c (List.mem_append_right _ List.mem_cons_self)
  obtain ⟨hb, ha⟩ := h.sides
  have hcFree : (s.split c size).isFree c = true := (Function.update_of_ne hcb _ _).trans hc
  have hused : ((s.split c size).take c).isFree c = false := Function.update_self _ _ _
  have hrest : ((s.split c size).take c).isFree s.brk = true :=
    (Function.update_of_ne hcb.symm _ _).trans (Function.update_self _ _ _)
  have hkeep : ∀ r, r ≠ c → r ≠ s.brk → ((s.split c size).take c).isFree r = s.isFree r :=
    fun r hrc hrb => (Function.update_of_ne hrc _ _).trans (Function.update_of_ne hrb _ _)
  have hkeepBefore : ∀ r ∈ before, _ := fun r hr =>
    hkeep r (hb r hr) (hne r (List.mem_append_left _ hr))
  have hkeepAfter : ∀ r ∈ after, _ := fun r hr =>
    hkeep r (ha r hr) (hne r (List.mem_append_right _ (List.mem_cons_of_mem _ hr)))
  obtain ⟨hsb, hsa, _, hstart⟩ := (sparse_free hc).mp h.sparse
  refine ⟨⟨hsplit.take hcFree, ?_, by simp⟩, hc, fun r => ?_, fun r hr hru => ?_, ?_⟩
  · refine (sparse_used hused).mpr ⟨hsb.congr hkeepBefore, ?_⟩
    have hlast : Sparse ((s.split c size).take c).isFree ([] ++ s.brk :: after) :=
      (sparse_free hrest).mpr ⟨List.isChain_nil, hsa.congr hkeepAfter, nofun,
        hstart.congr hkeepAfter⟩
    exact hlast
  · by_cases hrc : r = c
    · rw [hrc]
      exact ⟨fun _ => .inr rfl, fun _ => ⟨List.mem_append_right _ List.mem_cons_self, hused⟩⟩
    by_cases hrb : r = s.brk
    · rw [hrb, hrest]
      refine ⟨fun hand => (nomatch hand.2), fun hor => ?_⟩
      rcases hor with hand | heq
      · exact absurd rfl (hne _ hand.1)
      · exact absurd heq hcb.symm
    · rw [hkeep r hrc hrb, List.mem_append, List.mem_append, List.mem_cons, List.mem_cons,
        List.mem_cons]
      tauto
  · have hrc : r ≠ c := fun heq => by
      rw [heq, hc] at hru
      cases hru
    have hrb := hne r hr
    exact ⟨Function.update_of_ne hrb _ _,
      (Function.update_of_ne hrc _ _).trans (Function.update_of_ne hrb _ _)⟩
  · show size ≤ Function.update (Function.update s.size s.brk _) c size c
    rw [Function.update_self]

/-- A size that does not overflow is rounded up. -/
theorem le_roundSize {size : ℕ} (hsize : size ≤ 2 ^ 64 - 8) : size ≤ roundSize size := by
  have hmod : (size + 7) % 2 ^ 64 = size + 7 := Nat.mod_eq_of_lt (by omega)
  unfold roundSize
  rw [hmod]
  omega

/-- A request that finds room takes a free segment. -/
theorem SegInv.getWorkPos (h : SegInv base total s refs) {size : ℕ} {r : Option Ref}
    (hsize : size ≤ 2 ^ 64 - 8) (hget : s.getWorkPos size = some (s', r)) :
    s' = s ∧ r = none ∨ ∃ c refs', r = some c ∧ Taken base total s s' refs refs' c size := by
  unfold Segments.getWorkPos at hget
  by_cases hzero : size = 0
  · rw [if_pos hzero] at hget
    obtain ⟨rfl, rfl⟩ := Prod.mk.inj (Option.some.inj hget)
    exact .inl ⟨rfl, rfl⟩
  rw [if_neg hzero] at hget
  dsimp only at hget
  split at hget
  · cases hget
  rw [h.layout.frees.forward.search_eq h.filter_length_lt_fuel] at hget
  cases hfind : (refs.filter s.isFree).find? fun curr => decide (roundSize size ≤ s.size curr) with
  | none =>
      rw [hfind] at hget
      cases hget
  | some c =>
      rw [hfind] at hget
      obtain ⟨rfl, rfl⟩ := Prod.mk.inj (Option.some.inj hget)
      obtain ⟨hmem, hc⟩ := List.mem_filter.mp (List.mem_of_find?_eq_some hfind)
      have hfits : roundSize size ≤ s.size c := by simpa using List.find?_some hfind
      have hround := le_roundSize hsize
      obtain ⟨before, after, rfl⟩ := List.append_of_mem hmem
      refine .inr ⟨c, ?_⟩
      by_cases hrest : 0 < s.size c - roundSize size
      · rw [if_pos hrest]
        have htaken := h.takeSplit hc (lt_of_lt_of_le (Nat.pos_of_ne_zero hzero) hround)
          (Nat.lt_of_sub_pos hrest)
        exact ⟨_, rfl, { htaken with fits := hround.trans htaken.fits }⟩
      · rw [if_neg hrest]
        exact ⟨_, rfl, h.takeWhole hc (hround.trans hfits)⟩

/-! ## A free -/

/-- What the free of the block of `c` does. -/
structure Released (base total : ℕ) (s s' : Segments) (refs refs' : List Ref) (c : Ref) : Prop where
  inv : SegInv base total s' refs'
  used : ∀ r, r ∈ refs' ∧ s'.isFree r = false ↔ r ∈ refs ∧ s.isFree r = false ∧ r ≠ c
  kept : ∀ r ∈ refs, s.isFree r = false → r ≠ c → s'.ptr r = s.ptr r ∧ s'.size r = s.size r

/-- The changes of a free, apart from the lists: the segment is free, other free segments may be
gone, and the fields of the used ones are not written. -/
structure Merged (s s' : Segments) (refs refs' : List Ref) (c : Ref) : Prop where
  isFree : s'.isFree = Function.update s.isFree c true
  subset : ∀ r ∈ refs', r ∈ refs
  stays : ∀ r ∈ refs, s.isFree r = false → r ≠ c → r ∈ refs'
  shorter : refs'.length ≤ refs.length
  sizes : ∀ r ∈ refs', s.size r ≤ s'.size r
  brk : s'.brk = s.brk
  total : s'.totalSize = s.totalSize
  ptrs : s'.ptr = s.ptr
  kept : ∀ r ∈ refs, s.isFree r = false → r ≠ c → s'.size r = s.size r ∧
    s'.freeNext r = s.freeNext r ∧ s'.freePrev r = s.freePrev r

/-- The segments after such changes. -/
theorem SegInv.released {refs' : List Ref} (h : SegInv base total s refs)
    (hm : Merged s s' refs refs' c)
    (hlayout : Layout s' refs' (refs'.filter s'.isFree) base total)
    (hsparse : Sparse s'.isFree refs') (hnonempty : refs' ≠ []) :
    Released base total s s' refs refs' c := by
  have hused : ∀ r, s'.isFree r = false ↔ s.isFree r = false ∧ r ≠ c := by
    intro r
    rw [hm.isFree]
    by_cases hr : r = c
    · rw [hr, Function.update_self]
      exact ⟨nofun, fun hand => absurd rfl hand.2⟩
    · rw [Function.update_of_ne hr]
      exact ⟨fun hf => ⟨hf, hr⟩, And.left⟩
  refine ⟨⟨⟨hlayout, ?_, ?_, ?_, hm.total.trans h.total_eq⟩, hsparse, hnonempty⟩, ?_, ?_⟩
  · intro r hr
    rw [hm.brk]
    exact h.fresh r (hm.subset r hr)
  · intro hlength r hr
    exact (h.positive (hlength.trans_le hm.shorter) r (hm.subset r hr)).trans_le (hm.sizes r hr)
  · intro r hr hf
    obtain ⟨hf, hrc⟩ := (hused r).mp hf
    obtain ⟨_, hnext, hprev⟩ := hm.kept r (hm.subset r hr) hf hrc
    rw [hnext, hprev]
    exact h.detached r (hm.subset r hr) hf
  · intro r
    rw [hused]
    exact ⟨fun ⟨hr, hf⟩ => ⟨hm.subset r hr, hf⟩, fun ⟨hr, hf, hrc⟩ =>
      ⟨hm.stays r hr hf hrc, hf, hrc⟩⟩
  · intro r hr hf hrc
    rw [hm.ptrs]
    exact ⟨rfl, (hm.kept r hr hf hrc).1⟩

/-- The loop that looks for the place in the free list ends behind the segments that are not
behind `c`. -/
theorem findGap_eq {fuel : ℕ} {last q : Option Ref}
    (hpath : IsPath s.freeNext q (front ++ back) none)
    (hfuel : (front ++ back).length < fuel) (hfront : ∀ r ∈ front, s.ptr r ≤ s.ptr c)
    (hback : ∀ r ∈ back, s.ptr c < s.ptr r) :
    s.findGap c fuel last q = some ((front.getLast?).or last, back.head?) := by
  induction front generalizing fuel last q with
  | nil =>
      obtain ⟨fuel, rfl⟩ := Nat.exists_eq_succ_of_ne_zero (Nat.ne_of_gt (Nat.zero_lt_of_lt hfuel))
      cases back with
      | nil =>
          obtain rfl : q = none := hpath
          rfl
      | cons b back =>
          obtain rfl : q = some b := hpath.1
          exact if_pos (hback b List.mem_cons_self)
  | cons f front ih =>
      obtain ⟨fuel, rfl⟩ := Nat.exists_eq_succ_of_ne_zero (Nat.ne_of_gt (Nat.zero_lt_of_lt hfuel))
      obtain ⟨rfl, htail⟩ := hpath
      have hrec : s.findGap c fuel (some f) (s.freeNext f) =
          some ((front.getLast?).or (some f), back.head?) :=
        ih htail (Nat.lt_of_succ_lt_succ hfuel) fun r hr => hfront r (List.mem_cons_of_mem _ hr)
      refine (if_neg (not_lt.mpr (hfront f List.mem_cons_self))).trans (hrec.trans ?_)
      cases front with
      | nil => rfl
      | cons g front =>
          rw [List.getLast?_cons_cons, List.getLast?_cons]
          rfl

/-- The addresses around a segment. -/
theorem SegInv.ptr_order (h : SegInv base total s (before ++ c :: after)) :
    (∀ r ∈ before, s.ptr r < s.ptr c) ∧ ∀ r ∈ after, s.ptr c < s.ptr r := by
  have hpair := h.layout.tiles.pairwise
  obtain ⟨_, hcafter, hbefore⟩ := List.pairwise_append.mp hpair
  have hlength : (before ++ c :: after).length = before.length + (after.length + 1) := by
    rw [List.length_append, List.length_cons]
  refine ⟨fun r hr => ?_, fun r hr => ?_⟩
  · have hle := hbefore r hr c List.mem_cons_self
    have hlt := List.length_pos_of_mem hr
    have hpos := h.positive (by omega) r (List.mem_append_left _ hr)
    omega
  · have hle := (List.pairwise_cons.mp hcafter).1 r hr
    have hlt := List.length_pos_of_mem hr
    have hpos := h.positive (by omega) c (List.mem_append_right _ List.mem_cons_self)
    omega

/-- The freed segment has no free neighbour. -/
theorem SegInv.releaseAlone (h : SegInv base total s (before ++ c :: after))
    (hc : s.isFree c = false) (hends : EndsUsed s.isFree before)
    (hstarts : StartsUsed s.isFree after)
    (hm : Merged s s' (before ++ c :: after) (before ++ c :: after) c)
    (hlayout : Layout s' (before ++ c :: after)
      (before.filter s.isFree ++ c :: after.filter s.isFree) base total) :
    Released base total s s' (before ++ c :: after) (before ++ c :: after) c := by
  obtain ⟨hb, ha⟩ := h.sides
  obtain ⟨hsb, hsa⟩ := (sparse_used hc).mp h.sparse
  have hkeep : ∀ r, r ≠ c → s'.isFree r = s.isFree r := fun r hr => by
    rw [hm.isFree, Function.update_of_ne hr]
  refine h.released hm ?_ ?_ h.nonempty
  · rw [hm.isFree, filter_update hb ha]
    exact hlayout
  · have hself : s'.isFree c = true := by rw [hm.isFree, Function.update_self]
    exact (sparse_free hself).mpr ⟨hsb.congr fun r hr => hkeep r (hb r hr),
      hsa.congr fun r hr => hkeep r (ha r hr), hends.congr fun r hr => hkeep r (hb r hr),
      hstarts.congr fun r hr => hkeep r (ha r hr)⟩

/-- The segment is set free, and is in no list yet. -/
def markFree (s : Segments) (c : Ref) : Segments :=
  { s with isFree := Function.update s.isFree c true }

/-- The lists before the free segments are merged. -/
theorem SegInv.setFree (h : SegInv base total s (before ++ c :: after)) (hc : s.isFree c = false) :
    Layout (markFree s c) (before ++ c :: after) (before.filter s.isFree ++ after.filter s.isFree)
      base total := by
  have hlayout := h.layout
  rw [filter_append_cons_used hc] at hlayout
  exact ⟨hlayout.segs, hlayout.frees, hlayout.tiles⟩

/-- The used segments are not in the lists of the free ones around `c`. -/
theorem notMem_filters {r : Ref} (hr : s.isFree r = false) :
    r ∉ before.filter s.isFree ++ after.filter s.isFree := fun hmem =>
  (List.mem_append.mp hmem).elim (notMem_filter hr) (notMem_filter hr)

/-- A free segment at the front. -/
theorem sparse_free_cons (hn : s.isFree n = true) (h : Sparse s.isFree (n :: after)) :
    Sparse s.isFree after ∧ StartsUsed s.isFree after := by
  have hsparse : Sparse s.isFree ([] ++ n :: after) := h
  obtain ⟨_, hafter, _, hstart⟩ := (sparse_free hn).mp hsparse
  exact ⟨hafter, hstart⟩

/-- A free segment at the end. -/
theorem sparse_free_concat (hp : s.isFree p = true) (h : Sparse s.isFree (before ++ [p])) :
    Sparse s.isFree before ∧ EndsUsed s.isFree before := by
  obtain ⟨hbefore, _, hend, _⟩ := (sparse_free hp).mp h
  exact ⟨hbefore, hend⟩

/-- No neighbour is free, and no other segment at all. -/
theorem SegInv.releaseFirst (h : SegInv base total s (before ++ c :: after))
    (hc : s.isFree c = false) (hends : EndsUsed s.isFree before)
    (hstarts : StartsUsed s.isFree after)
    (hnone : s.freeSegmentList = none) :
    Released base total s { markFree s c with freeSegmentList := some c } (before ++ c :: after)
      (before ++ c :: after) c := by
  have hlayout := h.setFree hc
  have hnil : before.filter s.isFree ++ after.filter s.isFree = [] := by
    have hfrees := hlayout.frees
    rw [show (markFree s c).freeSegmentList = none from hnone] at hfrees
    exact hfrees.eq_nil
  obtain ⟨hb, ha⟩ := List.append_eq_nil_iff.mp hnil
  obtain ⟨hnext, hprev⟩ := h.detached c (List.mem_append_right _ List.mem_cons_self) hc
  rw [hnil] at hlayout
  refine h.releaseAlone hc hends hstarts ?_ ?_
  · exact ⟨rfl, fun _ hr => hr, fun _ hr _ _ => hr, le_rfl, fun _ _ => le_rfl, rfl, rfl, rfl,
      fun _ _ _ _ => ⟨rfl, rfl, rfl⟩⟩
  · rw [hb, ha]
    exact hlayout.linkFirst hnext hprev

/-- No neighbour is free: the segment enters the free list at its place. -/
theorem SegInv.releaseLink (h : SegInv base total s (before ++ c :: after))
    (hc : s.isFree c = false) (hends : EndsUsed s.isFree before)
    (hstarts : StartsUsed s.isFree after) :
    Released base total s ((markFree s c).linkFree c (before.filter s.isFree).getLast?
      (after.filter s.isFree).head?) (before ++ c :: after) (before ++ c :: after) c := by
  have hfields : ∀ last next, ((markFree s c).linkFree c last next).isFree =
      Function.update s.isFree c true ∧
      ((markFree s c).linkFree c last next).size = s.size ∧
      ((markFree s c).linkFree c last next).brk = s.brk ∧
      ((markFree s c).linkFree c last next).totalSize = s.totalSize ∧
      ((markFree s c).linkFree c last next).ptr = s.ptr := by
    intro last next
    unfold Segments.linkFree
    split <;> exact ⟨rfl, rfl, rfl, rfl, rfl⟩
  obtain ⟨hfree, hsize, hbrk, htotal, hptr⟩ := hfields _ _
  have hlayout := (h.setFree hc).linkFree (notMem_filters hc)
  refine h.releaseAlone hc hends hstarts ?_ hlayout
  refine ⟨hfree, fun _ hr => hr, fun _ hr _ _ => hr, le_rfl, fun r _ => ?_, hbrk, htotal, hptr,
    fun r hr hf hrc => ?_⟩
  · rw [hsize]
  · have hold : r ∉ before.filter s.isFree ++ after.filter s.isFree := notMem_filters hf
    have hbefore : r ∉ before.filter s.isFree := fun hmem => hold (List.mem_append_left _ hmem)
    have hafter : r ∉ after.filter s.isFree := fun hmem => hold (List.mem_append_right _ hmem)
    refine ⟨by rw [hsize], ?_⟩
    have hbeg := (h.setFree hc).frees.beg_eq
    unfold Segments.linkFree Segments.linkNeighbours
    by_cases hlast : (before.filter s.isFree).getLast? = none
    · rw [if_pos hlast]
      dsimp only
      rw [Function.update_self, Function.update_self, assignAt_none, Function.update_of_ne hrc,
        hbeg, assignAt_head?_of_notMem hold, Function.update_of_ne hrc]
      exact ⟨rfl, rfl⟩
    · rw [if_neg hlast]
      dsimp only
      rw [Function.update_self, Function.update_self, assignAt_getLast?_of_notMem hbefore,
        assignAt_head?_of_notMem hafter, Function.update_of_ne hrc, Function.update_of_ne hrc]
      exact ⟨rfl, rfl⟩

/-- The segment behind the freed one is free. -/
theorem SegInv.releaseNext (h : SegInv base total s (before ++ c :: n :: after))
    (hc : s.isFree c = false) (hn : s.isFree n = true) (hends : EndsUsed s.isFree before) :
    Released base total s ((markFree s c).mergeNext c n) (before ++ c :: n :: after)
      (before ++ c :: after) c := by
  obtain ⟨hb, ha⟩ := h.sides
  have hlayout := h.setFree hc
  rw [List.filter_cons_of_pos hn] at hlayout
  have hcs : c ∉ before.filter s.isFree ++ n :: after.filter s.isFree := by
    rw [← List.filter_cons_of_pos hn]
    exact notMem_filters hc
  have hmerged := hlayout.mergeNext hcs
  have hcn : c ≠ n := (ha n List.mem_cons_self).symm
  have hafter : ∀ r ∈ after, r ≠ c := fun r hr => ha r (List.mem_cons_of_mem _ hr)
  refine h.released ?_ ?_ ?_ (by simp)
  · refine ⟨rfl, fun r hr => ?_, fun r hr hf hrc => ?_, ?_, fun r _ => ?_, rfl, rfl, rfl,
      fun r hr hf hrc => ⟨Function.update_of_ne hrc _ _, ?_, ?_⟩⟩
    · simp only [List.mem_append, List.mem_cons] at hr ⊢
      tauto
    · have hrn : r ≠ n := fun heq => by
        rw [heq, hn] at hf
        cases hf
      simp only [List.mem_append, List.mem_cons] at hr ⊢
      tauto
    · simp only [List.length_append, List.length_cons]
      omega
    · show s.size r ≤ Function.update s.size c (s.size c + s.size n) r
      by_cases hrc : r = c
      · rw [hrc, Function.update_self]
        exact Nat.le_add_right _ _
      · rw [Function.update_of_ne hrc]
    · show assignAt (Function.update s.freeNext c (s.freeNext n)) (s.freePrev n) (some c) r = _
      have hprev : s.freePrev n = _ := hlayout.frees.prev_eq
      rw [hprev, assignAt_getLast?_of_notMem (notMem_filter hf), Function.update_of_ne hrc]
    · refine (Function.update_of_ne hrc _ _).trans ?_
      show assignAt s.freePrev (s.freeNext n) (some c) r = _
      have hnext : s.freeNext n = _ := hlayout.frees.next_eq
      rw [hnext, assignAt_head?_of_notMem (notMem_filter hf)]
  · show Layout _ _ ((before ++ c :: after).filter (Function.update s.isFree c true)) _ _
    rw [filter_update hb hafter]
    exact hmerged
  · obtain ⟨hsb, hsna⟩ := (sparse_used hc).mp h.sparse
    obtain ⟨hsa, hstart⟩ := sparse_free_cons hn hsna
    have hkeep : ∀ r, r ≠ c → ((markFree s c).mergeNext c n).isFree r = s.isFree r :=
      fun r hr => Function.update_of_ne hr _ _
    exact (sparse_free (Function.update_self _ _ _)).mpr ⟨hsb.congr fun r hr => hkeep r (hb r hr),
      hsa.congr fun r hr => hkeep r (hafter r hr), hends.congr fun r hr => hkeep r (hb r hr),
      hstart.congr fun r hr => hkeep r (hafter r hr)⟩

/-- The segment before the freed one is free. -/
theorem SegInv.releasePrev (h : SegInv base total s (before ++ p :: c :: after))
    (hc : s.isFree c = false) (hp : s.isFree p = true) (hstarts : StartsUsed s.isFree after) :
    Released base total s ((markFree s c).mergePrev p c) (before ++ p :: c :: after)
      (before ++ p :: after) c := by
  have hlist : ∀ l : List Ref, before ++ p :: l = (before ++ [p]) ++ l := fun l => by simp
  have h' := h
  rw [hlist] at h'
  obtain ⟨hbp, ha⟩ := h'.sides
  have hb : ∀ r ∈ before, r ≠ c := fun r hr => hbp r (List.mem_append_left _ hr)
  have hpc : p ≠ c := hbp p (List.mem_append_right _ List.mem_cons_self)
  have hlayout := h'.setFree hc
  rw [← hlist, List.filter_append, List.filter_cons_of_pos hp, List.filter_nil, List.append_assoc,
    List.singleton_append] at hlayout
  have hkeep : ∀ r, r ≠ c → ((markFree s c).mergePrev p c).isFree r = s.isFree r :=
    fun r hr => Function.update_of_ne hr _ _
  have hpFree : ((markFree s c).mergePrev p c).isFree p = true := (hkeep p hpc).trans hp
  refine h.released ?_ ?_ ?_ (by simp)
  · refine ⟨rfl, fun r hr => ?_, fun r hr hf hrc => ?_, ?_, fun r _ => ?_, rfl, rfl, rfl,
      fun r hr hf hrc => ⟨Function.update_of_ne ?_ _ _, rfl, rfl⟩⟩
    · simp only [List.mem_append, List.mem_cons] at hr ⊢
      tauto
    · simp only [List.mem_append, List.mem_cons] at hr ⊢
      tauto
    · simp only [List.length_append, List.length_cons]
      omega
    · show s.size r ≤ Function.update s.size p (s.size p + s.size c) r
      by_cases hrp : r = p
      · rw [hrp, Function.update_self]
        exact Nat.le_add_right _ _
      · rw [Function.update_of_ne hrp]
    · rintro rfl
      rw [hp] at hf
      cases hf
  · have hfilter : (before ++ p :: after).filter ((markFree s c).mergePrev p c).isFree =
        before.filter s.isFree ++ p :: after.filter s.isFree := by
      rw [filter_append_cons_free hpFree, List.filter_congr fun r hr => hkeep r (hb r hr),
        List.filter_congr fun r hr => hkeep r (ha r hr)]
    rw [hfilter]
    exact hlayout.mergePrev
  · obtain ⟨hsbp, hsa⟩ := (sparse_used hc).mp h'.sparse
    obtain ⟨hsb, hend⟩ := sparse_free_concat hp hsbp
    exact (sparse_free hpFree).mpr ⟨hsb.congr fun r hr => hkeep r (hb r hr),
      hsa.congr fun r hr => hkeep r (ha r hr), hend.congr fun r hr => hkeep r (hb r hr),
      hstarts.congr fun r hr => hkeep r (ha r hr)⟩

/-- Both neighbours of the freed segment are free. -/
theorem SegInv.releaseBoth (h : SegInv base total s (before ++ p :: c :: n :: after))
    (hc : s.isFree c = false) (hp : s.isFree p = true) (hn : s.isFree n = true) :
    Released base total s ((((markFree s c).mergeNext c n).mergePrev p c).dropFree p c)
      (before ++ p :: c :: n :: after) (before ++ p :: after) c := by
  have hlist : ∀ k l : List Ref, k ++ p :: l = (k ++ [p]) ++ l := fun k l => by simp
  have h' := h
  rw [hlist] at h'
  obtain ⟨hbp, hna⟩ := h'.sides
  have hb : ∀ r ∈ before, r ≠ c := fun r hr => hbp r (List.mem_append_left _ hr)
  have ha : ∀ r ∈ after, r ≠ c := fun r hr => hna r (List.mem_cons_of_mem _ hr)
  have hpc : p ≠ c := hbp p (List.mem_append_right _ List.mem_cons_self)
  have hlayout := h'.setFree hc
  have hcs : c ∉ (before ++ [p]).filter s.isFree ++ (n :: after).filter s.isFree :=
    notMem_filters hc
  rw [List.filter_append, List.filter_cons_of_pos hp, List.filter_nil,
    List.filter_cons_of_pos hn] at hlayout hcs
  -- the three changes, one after the other
  have hnext := hlayout.mergeNext hcs
  have hdrop := hnext
  rw [← hlist, ← hlist] at hdrop
  have hfinal := hdrop.mergePrev.dropFree
  have hkeep : ∀ r, r ≠ c → Function.update s.isFree c true r = s.isFree r :=
    fun r hr => Function.update_of_ne hr _ _
  have hpFree : Function.update s.isFree c true p = true := (hkeep p hpc).trans hp
  refine h.released ?_ ?_ ?_ (by simp)
  · refine ⟨rfl, fun r hr => ?_, fun r hr hf hrc => ?_, ?_, fun r hr => ?_, rfl, rfl, rfl,
      fun r hr hf hrc => ?_⟩
    · simp only [List.mem_append, List.mem_cons] at hr ⊢
      tauto
    · have hrn : r ≠ n := fun heq => by
        rw [heq, hn] at hf
        cases hf
      simp only [List.mem_append, List.mem_cons] at hr ⊢
      tauto
    · simp only [List.length_append, List.length_cons]
      omega
    · show s.size r ≤ Function.update (Function.update s.size c (s.size c + s.size n)) p
        (Function.update s.size c (s.size c + s.size n) p + _) r
      by_cases hrp : r = p
      · rw [hrp, Function.update_self, Function.update_of_ne hpc]
        exact Nat.le_add_right _ _
      · have hrc : r ≠ c := by
          rcases List.mem_append.mp hr with hr | hr
          · exact hb r hr
          · exact ha r ((List.mem_cons.mp hr).resolve_left hrp)
        rw [Function.update_of_ne hrp, Function.update_of_ne hrc]
    · have hrp : r ≠ p := by
        rintro rfl
        rw [hp] at hf
        cases hf
      have hnprev : s.freePrev n = some p :=
        hlayout.frees.prev_eq.trans List.getLast?_concat
      have hnnext : s.freeNext n = (after.filter s.isFree).head? := hlayout.frees.next_eq
      have hcnext : ((markFree s c).mergeNext c n).freeNext c = (after.filter s.isFree).head? :=
        hnext.frees.next_eq
      have hlast : r ∉ after.filter s.isFree := notMem_filter hf
      refine ⟨?_, ?_, ?_⟩
      · exact (Function.update_of_ne hrp _ _).trans (Function.update_of_ne hrc _ _)
      · refine (Function.update_of_ne hrp _ _).trans ?_
        show assignAt (Function.update s.freeNext c (s.freeNext n)) (s.freePrev n) (some c) r = _
        rw [hnprev, assignAt_some, Function.update_of_ne hrp, Function.update_of_ne hrc]
      · show assignAt (Function.update (assignAt s.freePrev (s.freeNext n) (some c)) c _)
          (((markFree s c).mergeNext c n).freeNext c) (some p) r = _
        rw [hcnext, hnnext, assignAt_head?_of_notMem hlast, Function.update_of_ne hrc,
          assignAt_head?_of_notMem hlast]
  · show Layout _ _ ((before ++ p :: after).filter (Function.update s.isFree c true)) _ _
    rw [filter_append_cons_free hpFree, List.filter_congr fun r hr => hkeep r (hb r hr),
      List.filter_congr fun r hr => hkeep r (ha r hr)]
    exact hfinal
  · obtain ⟨hsbp, hsna⟩ := (sparse_used hc).mp h'.sparse
    obtain ⟨hsb, hend⟩ := sparse_free_concat hp hsbp
    obtain ⟨hsa, hstart⟩ := sparse_free_cons hn hsna
    exact (sparse_free hpFree).mpr ⟨hsb.congr fun r hr => hkeep r (hb r hr),
      hsa.congr fun r hr => hkeep r (ha r hr), hend.congr fun r hr => hkeep r (hb r hr),
      hstart.congr fun r hr => hkeep r (ha r hr)⟩

/-- The free of a used segment. -/
theorem SegInv.release (h : SegInv base total s (before ++ c :: after)) (hc : s.isFree c = false) :
    ∃ s' refs', s.release c = some s' ∧
      Released base total s s' (before ++ c :: after) refs' c := by
  obtain ⟨hb, ha⟩ := h.sides
  have hnext : s.next c = after.head? := h.layout.segs.next_eq
  have hprev : s.prev c = before.getLast? := h.layout.segs.prev_eq
  have hhead : (after.head?).filter (Function.update s.isFree c true) =
      (after.head?).filter s.isFree := by
    cases after with
    | nil => rfl
    | cons n after =>
        have hn := ha n List.mem_cons_self
        rw [List.head?_cons, Option.filter_some, Option.filter_some, Function.update_of_ne hn]
  have hlast : (before.getLast?).filter (Function.update s.isFree c true) =
      (before.getLast?).filter s.isFree := by
    cases hp : before.getLast? with
    | none => rfl
    | some p =>
        have hne := hb p (List.mem_of_getLast? hp)
        rw [Option.filter_some, Option.filter_some, Function.update_of_ne hne]
  unfold Segments.release
  simp only [hnext, hprev, hhead, hlast]
  cases hn : (after.head?).filter s.isFree with
  | some n =>
      obtain ⟨hafter, hnFree⟩ := Option.filter_eq_some_iff.mp hn
      obtain ⟨after, rfl⟩ := List.head?_eq_some_iff.mp hafter
      cases hp : (before.getLast?).filter s.isFree with
      | some p =>
          obtain ⟨hbefore, hpFree⟩ := Option.filter_eq_some_iff.mp hp
          obtain ⟨before, rfl⟩ := List.getLast?_eq_some_iff.mp hbefore
          rw [List.append_assoc, List.singleton_append] at h ⊢
          exact ⟨_, _, rfl, h.releaseBoth hc hpFree hnFree⟩
      | none =>
          refine ⟨_, _, rfl, h.releaseNext hc hnFree fun p hp' => ?_⟩
          simpa using Option.filter_eq_none_iff.mp hp p hp'
  | none =>
      have hstarts : StartsUsed s.isFree after := fun n hn' => by
        simpa using Option.filter_eq_none_iff.mp hn n hn'
      cases hp : (before.getLast?).filter s.isFree with
      | some p =>
          obtain ⟨hbefore, hpFree⟩ := Option.filter_eq_some_iff.mp hp
          obtain ⟨before, rfl⟩ := List.getLast?_eq_some_iff.mp hbefore
          rw [List.append_assoc, List.singleton_append] at h ⊢
          exact ⟨_, _, rfl, h.releasePrev hc hpFree hstarts⟩
      | none =>
          have hends : EndsUsed s.isFree before := fun p hp' => by
            simpa using Option.filter_eq_none_iff.mp hp p hp'
          by_cases hlist : s.freeSegmentList = none
          · rw [if_pos hlist]
            exact ⟨_, _, rfl, h.releaseFirst hc hends hstarts hlist⟩
          · rw [if_neg hlist]
            have hframe := (h.setFree hc).frees.forward
            obtain ⟨hbefore, hafter⟩ := h.ptr_order
            have hlength := h.filter_length_lt_fuel
            rw [filter_append_cons_used hc] at hlength
            have hgap : (markFree s c).findGap c s.fuel none s.freeSegmentList = some _ :=
              findGap_eq hframe hlength (fun r hr => (hbefore r (List.mem_filter.mp hr).1).le)
                fun r hr => hafter r (List.mem_filter.mp hr).1
            refine ⟨_, before ++ c :: after, Option.map_eq_some_iff.mpr ⟨_, hgap, rfl⟩, ?_⟩
            rw [Option.or_none]
            exact h.releaseLink hc hends hstarts

/-- The free of the address of a used segment. -/
theorem SegInv.freeWorkPos (h : SegInv base total s refs) (hmem : c ∈ refs)
    (hc : s.isFree c = false) :
    ∃ s' refs', s.freeWorkPos (s.ptr c) = some s' ∧ Released base total s s' refs refs' c := by
  have hfind : s.findSegment (s.ptr c) = some (some c) := by
    obtain ⟨before, after, rfl⟩ := List.append_of_mem hmem
    unfold Segments.findSegment
    obtain ⟨hbefore, _⟩ := h.ptr_order
    have hnone : (before.find? fun curr => decide (s.ptr c ≤ s.ptr curr)) = none :=
      List.find?_eq_none.mpr fun r hr => by
        rw [decide_eq_true_eq]
        exact not_le.mpr (hbefore r hr)
    have hself : ((c :: after).find? fun curr => decide (s.ptr c ≤ s.ptr curr)) = some c :=
      List.find?_cons_of_pos (decide_eq_true le_rfl)
    rw [h.layout.segs.forward.search_eq h.length_lt_fuel, List.find?_append, hnone, hself,
      Option.none_or, Option.map_some, Option.filter_some]
    exact congrArg some (if_pos (decide_eq_true rfl))
  obtain ⟨before, after, rfl⟩ := List.append_of_mem hmem
  obtain ⟨s', refs', hrel, hreleased⟩ := h.release hc
  refine ⟨s', refs', ?_, hreleased⟩
  unfold Segments.freeWorkPos
  rw [hfind]
  show (if s.isFree c then none else s.release c) = some s'
  rw [hc]
  exact hrel

end Xkblas.Memory.WorkBuffer
