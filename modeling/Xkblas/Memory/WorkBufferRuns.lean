import Xkblas.Memory.HeapSafety
import Xkblas.Memory.WorkBufferSafety

/-!
# Runs of the work buffer

The used segments are those of the live blocks: a live block starts at the address of its segment
and fits in it. This and `SegInv` hold after every call that asks for at most `2 ^ 64 - 8` bytes. A
request of more is rounded to zero bytes, and gets a segment without a byte.
-/

namespace Xkblas.Memory.WorkBuffer

open Library
open Heap (Sparse eq_singleton_of_free)

variable {s s' : Segments} {refs refs' before after : List Ref} {base total : ℕ} {c : Ref}

/-! ## The check -/

/-- The test of the pointer to the cell before `c`. -/
theorem check_prev {next prev : Ref → Option Ref} {ptr : Ref → ℕ} {beg fin : Option Ref} {d : Bool}
    (h : DoublyLinked next prev beg fin (before ++ c :: after)) (hptr : ∀ r ∈ before, ptr r < ptr c)
    (hd : before = [] → d = true) :
    (match prev c with
      | some p => ptr p < ptr c && next p == some c
      | none => d) = true := by
  rw [h.prev_eq]
  cases hlast : before.getLast? with
  | none => exact hd (List.getLast?_eq_none_iff.mp hlast)
  | some p =>
      obtain ⟨before, rfl⟩ := List.getLast?_eq_some_iff.mp hlast
      rw [List.append_assoc, List.singleton_append] at h
      have hnext : next p = some c := h.next_eq
      have hlt := hptr p (List.mem_append_right _ List.mem_cons_self)
      simp [hnext, hlt]

/-- The test of the pointer to the cell behind `c`. -/
theorem check_next {next prev : Ref → Option Ref} {ptr : Ref → ℕ} {beg fin : Option Ref} {d : Bool}
    (h : DoublyLinked next prev beg fin (before ++ c :: after)) (hptr : ∀ r ∈ after, ptr c < ptr r)
    (hd : after = [] → d = true) :
    (match next c with
      | some n => ptr c < ptr n && prev n == some c
      | none => d) = true := by
  rw [h.next_eq]
  cases hhead : after.head? with
  | none => exact hd (List.head?_eq_none_iff.mp hhead)
  | some n =>
      obtain ⟨after, rfl⟩ := List.head?_eq_some_iff.mp hhead
      have hprev : prev n = some c := by
        rw [← List.singleton_append, ← List.append_assoc] at h
        exact h.prev_eq.trans List.getLast?_concat
      have hlt := hptr n List.mem_cons_self
      simp [hprev, hlt]

/-- No test fails at a segment. -/
theorem SegInv.checkSegment (h : SegInv base total s (before ++ c :: after)) :
    s.checkSegment c = true := by
  obtain ⟨hbefore, hafter⟩ := h.ptr_order
  have hends : (before = [] → s.freePrev c = none) ∧ (after = [] → s.freeNext c = none) := by
    cases hc : s.isFree c with
    | false =>
        obtain ⟨hnext, hprev⟩ := h.detached c (List.mem_append_right _ List.mem_cons_self) hc
        exact ⟨fun _ => hprev, fun _ => hnext⟩
    | true =>
        have hfrees := h.layout.frees
        rw [Heap.filter_append_cons_free hc] at hfrees
        rw [hfrees.prev_eq, hfrees.next_eq]
        constructor <;> rintro rfl <;> rfl
  have hprev := check_prev h.layout.segs hbefore fun hnil => beq_iff_eq.mpr (hends.1 hnil)
  have hnext := check_next h.layout.segs hafter fun hnil => beq_iff_eq.mpr (hends.2 hnil)
  refine Bool.and_eq_true_iff.mpr ⟨Bool.and_eq_true_iff.mpr ⟨hprev, hnext⟩, ?_⟩
  cases hc : s.isFree c with
  | false =>
      obtain ⟨hnext, hprev⟩ := h.detached c (List.mem_append_right _ List.mem_cons_self) hc
      rw [hnext, hprev]
      rfl
  | true =>
      have hfrees := h.layout.frees
      rw [Heap.filter_append_cons_free hc] at hfrees
      refine Bool.and_eq_true_iff.mpr ⟨?_, ?_⟩
      · refine check_prev hfrees (fun r hr => hbefore r (List.mem_filter.mp hr).1) fun hnil => ?_
        rw [hfrees.beg_eq, hnil]
        exact beq_self_eq_true _
      · exact check_next hfrees (fun r hr => hafter r (List.mem_filter.mp hr).1) fun _ => rfl

/-- The check succeeds. -/
theorem SegInv.coherencyCheck (h : SegInv base total s refs) : s.coherencyCheck = some true := by
  have hnone : refs.find? (fun curr => !s.checkSegment curr) = none := by
    refine List.find?_eq_none.mpr fun r hr => ?_
    obtain ⟨before, after, rfl⟩ := List.append_of_mem hr
    rw [h.checkSegment]
    exact Bool.false_ne_true
  unfold Segments.coherencyCheck
  rw [h.layout.segs.forward.search_eq h.length_lt_fuel, hnone]
  rfl

/-! ## The live blocks -/

/-- The block is in the segment. -/
def Holds (s : Segments) (r : Ref) (b : Block) : Prop :=
  s.isFree r = false ∧ s.ptr r = b.ptr ∧ b.size ≤ s.size r

/-- The live blocks are in the used segments. -/
structure LiveInv (s : Segments) (refs : List Ref) (live : List Block) : Prop where
  nodup : (live.map Block.ptr).Nodup
  held : ∀ b ∈ live, ∃ r ∈ refs, Holds s r b
  covered : ∀ r ∈ refs, s.isFree r = false → s.ptr r ∈ live.map Block.ptr

/-- Two segments have two addresses. -/
theorem SegInv.eq_of_ptr (h : SegInv base total s refs) {r r' : Ref} (hr : r ∈ refs)
    (hr' : r' ∈ refs) (hptr : s.ptr r = s.ptr r') : r = r' := by
  obtain ⟨before, after, rfl⟩ := List.append_of_mem hr
  obtain ⟨hbefore, hafter⟩ := h.ptr_order
  rcases List.mem_append.mp hr' with hmem | hmem
  · exact absurd hptr.symm (hbefore r' hmem).ne
  · rcases List.mem_cons.mp hmem with heq | hmem
    · exact heq.symm
    · exact absurd hptr (hafter r' hmem).ne

/-- A new block. -/
theorem LiveInv.taken {live : List Block} {size : ℕ} (hlive : LiveInv s refs live)
    (ht : Taken base total s s' refs refs' c size) :
    LiveInv s' refs' (⟨s'.ptr c, size⟩ :: live) := by
  have hold : ∀ b ∈ live, ∃ r ∈ refs', r ≠ c ∧ Holds s' r b := by
    intro b hb
    obtain ⟨r, hr, hused, hptr, hsize⟩ := hlive.held b hb
    obtain ⟨hptr', hsize'⟩ := ht.kept r hr hused
    obtain ⟨hmem, hused'⟩ := (ht.used r).mpr (.inl ⟨hr, hused⟩)
    refine ⟨r, hmem, fun heq => ?_, hused', hptr'.trans hptr, hsize.trans_eq hsize'.symm⟩
    rw [heq, ht.wasFree] at hused
    cases hused
  obtain ⟨hc, hcUsed⟩ := (ht.used c).mpr (.inr rfl)
  constructor
  case nodup =>
    refine List.nodup_cons.mpr ⟨fun hmem => ?_, hlive.nodup⟩
    obtain ⟨b, hb, hptr⟩ := List.mem_map.mp hmem
    obtain ⟨r, hr, hne, _, hrptr, _⟩ := hold b hb
    exact hne (ht.inv.eq_of_ptr hr hc (hrptr.trans hptr))
  case held =>
    intro b hb
    rcases List.mem_cons.mp hb with rfl | hb
    · exact ⟨c, hc, hcUsed, rfl, ht.fits⟩
    · obtain ⟨r, hr, _, hholds⟩ := hold b hb
      exact ⟨r, hr, hholds⟩
  case covered =>
    intro r hr hused
    rcases (ht.used r).mp ⟨hr, hused⟩ with ⟨hr, hused⟩ | rfl
    · rw [(ht.kept r hr hused).1]
      exact List.mem_cons_of_mem _ (hlive.covered r hr hused)
    · exact List.mem_cons_self

/-- A block is gone. -/
theorem LiveInv.released {live : List Block} (h : SegInv base total s refs)
    (hlive : LiveInv s refs live) (hc : c ∈ refs)
    (hr : Released base total s s' refs refs' c) :
    LiveInv s' refs' (live.filter fun b => b.ptr ≠ s.ptr c) := by
  have hptrs : ∀ r ∈ refs, s.ptr r ≠ s.ptr c ↔ r ≠ c := fun r hmem =>
    not_congr ⟨h.eq_of_ptr hmem hc, fun heq => heq ▸ rfl⟩
  constructor
  case nodup => exact hlive.nodup.sublist ((List.filter_sublist).map _)
  case held =>
    intro b hb
    obtain ⟨hb, hne⟩ := List.mem_filter.mp hb
    obtain ⟨r, hmem, hused, hptr, hsize⟩ := hlive.held b hb
    have hrc : r ≠ c := (hptrs r hmem).mp (hptr ▸ of_decide_eq_true hne)
    obtain ⟨hptr', hsize'⟩ := hr.kept r hmem hused hrc
    obtain ⟨hmem', hused'⟩ := (hr.used r).mpr ⟨hmem, hused, hrc⟩
    exact ⟨r, hmem', hused', hptr'.trans hptr, hsize.trans_eq hsize'.symm⟩
  case covered =>
    intro r hmem hused
    obtain ⟨hmem, hused, hrc⟩ := (hr.used r).mp ⟨hmem, hused⟩
    obtain ⟨b, hb, hptr⟩ := List.mem_map.mp (hlive.covered r hmem hused)
    rw [(hr.kept r hmem hused hrc).1, ← hptr]
    refine List.mem_map_of_mem (List.mem_filter.mpr ⟨hb, decide_eq_true ?_⟩)
    rw [hptr]
    exact (hptrs r hmem).mpr hrc

/-! ## Runs -/

/-- No request writes the pointer to the first segment, -/
theorem getWorkPos_first {size : ℕ} {r : Option Ref} (hget : s.getWorkPos size = some (s', r)) :
    s'.firstSegment = s.firstSegment := by
  unfold Segments.getWorkPos at hget
  split at hget
  · obtain ⟨rfl, _⟩ := Prod.mk.inj (Option.some.inj hget)
    rfl
  · dsimp only at hget
    split at hget
    · cases hget
    · split at hget
      · obtain ⟨rfl, _⟩ := Prod.mk.inj (Option.some.inj hget)
        split <;> rfl
      · cases hget

/-- and no free, since the segment before the merged ones stays. -/
theorem freeWorkPos_first {ptr : ℕ} (hfree : s.freeWorkPos ptr = some s') :
    s'.firstSegment = s.firstSegment := by
  unfold Segments.freeWorkPos at hfree
  obtain ⟨r, _, hfree⟩ := Option.bind_eq_some_iff.mp hfree
  obtain ⟨curr, _, hfree⟩ := Option.bind_eq_some_iff.mp hfree
  split at hfree
  · cases hfree
  unfold Segments.release at hfree
  dsimp only at hfree
  split at hfree
  · exact (congrArg Segments.firstSegment (Option.some.inj hfree)).symm
  · exact (congrArg Segments.firstSegment (Option.some.inj hfree)).symm
  · exact (congrArg Segments.firstSegment (Option.some.inj hfree)).symm
  · split at hfree
    · exact (congrArg Segments.firstSegment (Option.some.inj hfree)).symm
    · obtain ⟨gap, _, rfl⟩ := Option.map_eq_some_iff.mp hfree
      unfold Segments.linkFree
      split <;> rfl

/-- The invariant of the runs. The first segment is always that of the registration. -/
structure Inv (base total : ℕ) (s : State) : Prop where
  first : s.segs.firstSegment = some 0
  blocks : ∃ refs, SegInv base total s.segs refs ∧ LiveInv s.segs refs s.live

/-- The buffer after the registration. -/
theorem inv_register (base total : ℕ) : Inv base total ⟨.register base total, []⟩ := by
  refine ⟨rfl, [0], ⟨⟨⟨?_, ?_, ?_⟩, ?_, ?_, ?_, rfl⟩, ?_, ?_⟩, ?_⟩
  · exact ⟨List.nodup_singleton 0, ⟨rfl, rfl⟩, ⟨rfl, rfl⟩⟩
  · exact ⟨List.nodup_singleton 0, ⟨rfl, rfl⟩, ⟨rfl, rfl⟩⟩
  · exact ⟨rfl, rfl⟩
  · intro r hr
    rw [List.mem_singleton.mp hr]
    exact Nat.one_pos
  · intro hlength
    exact absurd hlength (lt_irrefl 1)
  · intro _ _ hused
    cases hused
  · exact List.isChain_singleton 0
  · exact List.cons_ne_nil _ _
  · exact ⟨List.nodup_nil, nofun, fun _ _ hused => (nomatch hused)⟩

/-- A request keeps the invariant. -/
theorem Inv.get {s t : State} {size : ℕ} (h : Inv base total s) (hsize : size ≤ 2 ^ 64 - 8)
    (hstep : step s (.get size) = some t) : Inv base total t := by
  obtain ⟨hfirst, refs, hsegs, hlive⟩ := h
  simp only [step] at hstep
  split at hstep
  case isFalse => cases hstep
  obtain ⟨⟨segs, r⟩, hget, rfl⟩ := Option.map_eq_some_iff.mp hstep
  have hfirst' := (getWorkPos_first hget).trans hfirst
  rcases hsegs.getWorkPos hsize hget with ⟨rfl, rfl⟩ | ⟨c, refs', rfl, htaken⟩
  · exact ⟨hfirst', refs, hsegs, hlive⟩
  · exact ⟨hfirst', refs', htaken.inv, hlive.taken htaken⟩

/-- The free of a live block succeeds, and keeps the invariant. -/
theorem Inv.free {s : State} {ptr : ℕ} (h : Inv base total s) (hptr : ptr ∈ s.live.map Block.ptr) :
    ∃ t, step s (.free ptr) = some t ∧ Inv base total t ∧
      t.live = s.live.filter fun b => b.ptr ≠ ptr := by
  obtain ⟨hfirst, refs, hsegs, hlive⟩ := h
  obtain ⟨b, hb, rfl⟩ := List.mem_map.mp hptr
  obtain ⟨c, hc, hused, hcptr, _⟩ := hlive.held b hb
  obtain ⟨segs, refs', hfree, hreleased⟩ := hsegs.freeWorkPos hc hused
  rw [hcptr] at hfree
  refine ⟨⟨segs, s.live.filter fun b' => b'.ptr ≠ b.ptr⟩, ?_,
    ⟨(freeWorkPos_first hfree).trans hfirst, refs', hreleased.inv, ?_⟩, rfl⟩
  · simp only [step]
    rw [if_pos hptr, hfree]
    rfl
  · rw [← hcptr]
    exact hlive.released hsegs hc hreleased

theorem Inv.step {s t : State} {a : Action} (h : Inv base total s) (hfits : Fits a)
    (hstep : WorkBuffer.step s a = some t) : Inv base total t := by
  cases a with
  | get size => exact h.get hfits hstep
  | free ptr =>
      have hptr : ptr ∈ s.live.map Block.ptr := by
        by_contra hnot
        simp only [WorkBuffer.step] at hstep
        rw [if_neg hnot] at hstep
        cases hstep
      obtain ⟨t', hfree, hinv, _⟩ := h.free hptr
      obtain rfl := Option.some.inj (hfree.symm.trans hstep)
      exact hinv

/-! ## Soundness -/

/-- The only segment is that of the registration, with the same fields. -/
structure Whole (base total : ℕ) (s : Segments) : Prop where
  first : s.firstSegment = some 0
  list : s.freeSegmentList = some 0
  ptr : s.ptr 0 = base
  size : s.size 0 = total
  isFree : s.isFree 0 = true
  prev : s.prev 0 = none
  next : s.next 0 = none
  freePrev : s.freePrev 0 = none
  freeNext : s.freeNext 0 = none

/-- What the allocator promises between two calls. -/
structure Sound (base total : ℕ) (s : State) : Prop where
  /-- The segments tile the buffer, the free list is that of the free ones, in the order of the
  addresses, no two neighbours are free, and each live block is in a used segment of its own. -/
  segments : ∃ refs, Layout s.segs refs (refs.filter s.segs.isFree) base total ∧
    refs.Pairwise (fun r r' => s.segs.ptr r < s.segs.ptr r') ∧
    refs.IsChain (fun r r' => ¬ (s.segs.isFree r = true ∧ s.segs.isFree r' = true)) ∧
    (∀ b ∈ s.live, ∃ r ∈ refs, Holds s.segs r b) ∧
    ∀ r ∈ refs, s.segs.isFree r = false → s.segs.ptr r ∈ s.live.map Block.ptr
  coherent : s.segs.coherencyCheck = some true
  disjoint : s.live.Pairwise fun a b => a.ptr + a.size ≤ b.ptr ∨ b.ptr + b.size ≤ a.ptr
  /-- The frees of all live blocks, in any order, end with the one free segment. -/
  restored : ∀ ptrs : List ℕ, ptrs.Perm (s.live.map Block.ptr) →
    ∃ t, (system base total).run s (ptrs.map .free) = some t ∧ t.live = [] ∧
      Whole base total t.segs

/-- The addresses of the segments increase. -/
theorem SegInv.increasing (h : SegInv base total s refs) :
    refs.Pairwise fun r r' => s.ptr r < s.ptr r' := by
  match refs, h with
  | [], _ => exact List.Pairwise.nil
  | [c], _ => exact List.pairwise_singleton _ c
  | x :: y :: rest, h =>
      refine h.layout.tiles.pairwise.imp_of_mem fun {u v} hu _ huv => ?_
      have hpos := h.positive (by simp) u hu
      omega

/-- The live blocks are in disjoint segments. -/
theorem live_disjoint {live : List Block} (h : SegInv base total s refs)
    (hlive : LiveInv s refs live) :
    live.Pairwise fun a b => a.ptr + a.size ≤ b.ptr ∨ b.ptr + b.size ≤ a.ptr := by
  have hrefs : ∀ x ∈ refs, ∀ y ∈ refs, x ≠ y →
      s.ptr x + s.size x ≤ s.ptr y ∨ s.ptr y + s.size y ≤ s.ptr x := by
    intro x hx y hy hxy
    obtain ⟨before, after, rfl⟩ := List.append_of_mem hx
    obtain ⟨_, hafter, hcross⟩ := List.pairwise_append.mp h.layout.tiles.pairwise
    rcases List.mem_append.mp hy with hy | hy
    · exact .inr (hcross y hy x List.mem_cons_self)
    · rcases List.mem_cons.mp hy with rfl | hy
      · exact absurd rfl hxy
      · exact .inl ((List.pairwise_cons.mp hafter).1 y hy)
  refine (List.pairwise_map.mp hlive.nodup).imp_of_mem fun {a b} ha hb hne => ?_
  obtain ⟨x, hx, _, hxptr, hxsize⟩ := hlive.held a ha
  obtain ⟨y, hy, _, hyptr, hysize⟩ := hlive.held b hb
  have hxy : x ≠ y := by
    rintro rfl
    exact hne (hxptr.symm.trans hyptr)
  have hdisjoint := hrefs x hx y hy hxy
  omega

/-- Without a live block there is one segment. -/
theorem Inv.whole {s : State} (h : Inv base total s) (hnil : s.live = []) :
    Whole base total s.segs := by
  obtain ⟨hfirst, refs, hsegs, hlive⟩ := h
  have hfree : ∀ r ∈ refs, s.segs.isFree r = true := by
    intro r hr
    by_contra hused
    have hmem := hlive.covered r hr (by simpa using hused)
    rw [hnil] at hmem
    cases hmem
  obtain ⟨r, rfl⟩ := eq_singleton_of_free hsegs.nonempty hsegs.sparse hfree
  have hzero : some 0 = some r := hfirst.symm.trans hsegs.layout.segs.beg_eq
  obtain rfl := Option.some.inj hzero
  have hr := hfree 0 List.mem_cons_self
  have hlayout := hsegs.layout
  rw [List.filter_cons_of_pos hr] at hlayout
  obtain ⟨hstart, hend⟩ : s.segs.ptr 0 = base ∧ base + s.segs.size 0 = base + total :=
    hlayout.tiles
  refine ⟨hlayout.segs.beg_eq, hlayout.frees.beg_eq, hstart, Nat.add_left_cancel hend, hr, ?_,
    ?_, ?_, ?_⟩
  · exact hlayout.segs.backward.2
  · exact hlayout.segs.forward.2
  · exact hlayout.frees.backward.2
  · exact hlayout.frees.forward.2

/-- The frees of all live blocks. -/
theorem Inv.restored {s : State} (h : Inv base total s) {ptrs : List ℕ}
    (hperm : ptrs.Perm (s.live.map Block.ptr)) :
    ∃ t, (system base total).run s (ptrs.map .free) = some t ∧ t.live = [] ∧
      Whole base total t.segs := by
  induction ptrs generalizing s with
  | nil =>
      have hnil := List.map_eq_nil_iff.mp hperm.nil_eq.symm
      exact ⟨s, rfl, hnil, h.whole hnil⟩
  | cons ptr ptrs ih =>
      obtain ⟨t, hstep, hinv, hlive⟩ := h.free (hperm.mem_iff.mp List.mem_cons_self)
      have hnodup : (ptr :: ptrs).Nodup := by
        obtain ⟨_, _, _, hheld⟩ := h
        exact hperm.nodup_iff.mpr hheld.nodup
      have hrest : ptrs.Perm (t.live.map Block.ptr) := by
        have hfilter := hperm.filter fun q => decide (q ≠ ptr)
        have hself : ptrs.filter (fun q => decide (q ≠ ptr)) = ptrs := by
          refine List.filter_eq_self.mpr fun q hq => decide_eq_true ?_
          exact ne_of_mem_of_not_mem hq (List.nodup_cons.mp hnodup).1
        rw [List.filter_cons_of_neg (by simp), hself, List.filter_map] at hfilter
        rw [hlive]
        exact hfilter
      obtain ⟨u, hrun, hu⟩ := ih hinv hrest
      refine ⟨u, ?_, hu⟩
      rw [List.map_cons]
      show (if True then (WorkBuffer.step s (.free ptr)).bind _ else none) = _
      rw [if_pos trivial, hstep]
      exact hrun

theorem Inv.isSound {s : State} (h : Inv base total s) : Sound base total s := by
  obtain ⟨refs, hsegs, hlive⟩ := h.blocks
  exact ⟨⟨refs, hsegs.layout, hsegs.increasing, hsegs.sparse, hlive.held, hlive.covered⟩,
    hsegs.coherencyCheck, live_disjoint hsegs hlive, fun _ hperm => h.restored hperm⟩

/-- In every run whose requests are rounded up without an overflow, the buffer is sound. -/
theorem workBuffer_sound {s : State}
    (hs : (system base total).ReachableWhen (fun _ a => Fits a) s) : Sound base total s := by
  refine Inv.isSound (hs.invariant (fun s hinit => ?_) fun s a t h hok hstep => h.step hok hstep)
  rw [hinit.2]
  exact inv_register base total

/-- The middle one of three blocks is freed, then the two others, which merges all segments. -/
def mergingRun : List Action :=
  [.get 100, .get 20, .get 8, .free 4200, .free 4096, .free 4224]

theorem workBuffer_sound_mergingRun :
    ∃ s, (system 4096 1000).replay (fun _ a => Fits a) ⟨.register 4096 1000, []⟩ mergingRun =
      some s ∧ s.live = [] ∧ s.segs.size 0 = 1000 ∧ Sound 4096 1000 s :=
  ⟨((system 4096 1000).replay (fun _ a => Fits a) _ mergingRun).get (by decide), by simp, by decide,
    by decide, workBuffer_sound (.replay (.start ⟨by decide, rfl⟩) (Option.some_get _).symm)⟩

/-- A request of almost the whole address space is rounded to zero, and gets a segment without a
byte. -/
theorem not_workBuffer_sound :
    ¬ ∀ (base total : ℕ) (s : State), (system base total).Reachable s → Sound base total s := by
  intro hall
  let s := ((system 4096 1000).run ⟨.register 4096 1000, []⟩ [.get (2 ^ 64 - 1)]).get (by decide)
  have hs : (system 4096 1000).Reachable s :=
    .replay (.start ⟨by decide, rfl⟩) (Option.some_get _).symm
  have hcheck : s.segs.coherencyCheck = some false := by decide
  rw [(hall 4096 1000 s hs).coherent] at hcheck
  cases hcheck

end Xkblas.Memory.WorkBuffer
