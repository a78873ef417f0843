import Xkblas.Library.Tiling
import Xkblas.Memory.Heap

/-!
# The two lists of a heap

`Layout` says that the cells of `refs` are linked both ways by `prev` and `next` and tile the
block of the device, and that the cells of `free` are linked by `freelink` from the head of the
free list. Every change that `kaapi_memory_alloc` and `kaapi_memory_free` make is a local change
of the two lists.
-/

namespace Xkblas.Memory.Heap

open Library

/-- The chunks of a heap in the order of their addresses, and its free list. -/
structure Layout (d : Device) (refs free : List Ref) (base top : Nat) : Prop where
  nodup : refs.Nodup
  next : IsPath d.next refs.head? refs none
  prev : IsPath d.prev refs.getLast? refs.reverse none
  tiles : Tiles d.devicePtr d.size base refs top
  free : IsPath d.freelink d.freeChunkList free none

variable {d : Device} {refs before after free front back : List Ref} {base top : Nat}
  {c n x : Ref}

/-- The links from any first cell will do, as a list determines its first cell. -/
theorem Layout.mk' {p q : Option Ref} (hnodup : refs.Nodup) (hnext : IsPath d.next p refs none)
    (hprev : IsPath d.prev q refs.reverse none)
    (htiles : Tiles d.devicePtr d.size base refs top)
    (hfree : IsPath d.freelink d.freeChunkList free none) : Layout d refs free base top where
  nodup := hnodup
  next := hnext.eq_head? ▸ hnext
  prev := by
    have hq := hprev.eq_head?
    rw [List.head?_reverse] at hq
    exact hq ▸ hprev
  tiles := htiles
  free := hfree

/-- A cell of a list without duplicates is not met before or after. -/
theorem notMem_of_nodup (h : (before ++ c :: after).Nodup) :
    c ∉ before ∧ c ∉ after ∧ (before ++ after).Nodup := by
  obtain ⟨hc, hrest⟩ := List.nodup_cons.mp (List.nodup_middle.mp h)
  exact ⟨fun hb => hc (List.mem_append_left _ hb), fun ha => hc (List.mem_append_right _ ha),
    hrest⟩

/-- The forward links around a cell. -/
theorem Layout.next_split (h : Layout d (before ++ c :: after) free base top) :
    ∃ p, IsPath d.next p before (some c) ∧ IsPath d.next (d.next c) after none :=
  ⟨_, isPath_append_cons.mp h.next⟩

/-- The backward links around a cell. -/
theorem Layout.prev_split (h : Layout d (before ++ c :: after) free base top) :
    ∃ p, IsPath d.prev p after.reverse (some c) ∧ IsPath d.prev (d.prev c) before.reverse none := by
  have hprev := h.prev
  rw [List.reverse_append, List.reverse_cons, List.append_assoc, List.singleton_append] at hprev
  exact ⟨_, isPath_append_cons.mp hprev⟩

theorem Layout.next_eq (h : Layout d (before ++ c :: after) free base top) :
    d.next c = after.head? := by
  obtain ⟨_, _, hafter⟩ := h.next_split
  exact hafter.eq_head?

theorem Layout.prev_eq (h : Layout d (before ++ c :: after) free base top) :
    d.prev c = before.getLast? := by
  obtain ⟨_, _, hbefore⟩ := h.prev_split
  rw [hbefore.eq_head?, List.head?_reverse]

/-- The reversed list around two cells. -/
theorem reverse_append_cons_cons :
    (before ++ c :: n :: after).reverse = after.reverse ++ n :: c :: before.reverse := by
  simp

theorem reverse_append_cons :
    (before ++ c :: after).reverse = after.reverse ++ c :: before.reverse := by
  simp

/-! ## Allocation -/

/-- The split of a chunk puts a new cell after it in both lists. -/
theorem Layout.splitChunk (h : Layout d (before ++ c :: after) (front ++ c :: back) base top)
    (hfree : (front ++ c :: back).Nodup) {size : Nat} (hsize : size ≤ d.size c)
    (hfresh : d.nextRef ∉ before ++ c :: after) (hfreshFree : d.nextRef ∉ front ++ c :: back) :
    Layout (d.splitChunk c size) (before ++ c :: d.nextRef :: after)
      (front ++ c :: d.nextRef :: back) base top := by
  obtain ⟨hcb, hca, hba⟩ := notMem_of_nodup h.nodup
  obtain ⟨p, hnextBefore, hnextAfter⟩ := h.next_split
  obtain ⟨q, hprevAfter, hprevBefore⟩ := h.prev_split
  obtain ⟨hfreeFront, hfreeBack⟩ := isPath_append_cons.mp h.free
  have hne : ∀ y ∈ before ++ c :: after, y ≠ d.nextRef := fun y hy heq => hfresh (heq ▸ hy)
  have hneFree : ∀ y ∈ front ++ c :: back, y ≠ d.nextRef := fun y hy heq => hfreshFree (heq ▸ hy)
  have hcr : c ≠ d.nextRef := hne c (by simp)
  have hother : ∀ y ∈ before ++ after, y ≠ c ∧ y ≠ d.nextRef := by
    intro y hy
    refine ⟨?_, hne y ?_⟩
    · rintro rfl
      exact (List.mem_append.mp hy).elim hcb hca
    · rcases List.mem_append.mp hy with hy | hy <;> simp [hy]
  refine Layout.mk' (p := restart p (before ++ [c]) (some d.nextRef))
    (q := restart q after.reverse (some d.nextRef)) ?_ ?_ ?_ ?_ ?_
  · rw [show before ++ c :: d.nextRef :: after = (before ++ [c]) ++ d.nextRef :: after by simp]
    refine List.nodup_middle.mpr (List.nodup_cons.mpr ⟨by simpa using hfresh, ?_⟩)
    simpa using h.nodup
  · rw [show before ++ c :: d.nextRef :: after = (before ++ [c]) ++ d.nextRef :: after by simp]
    refine IsPath.insert (isPath_append_cons.mpr ⟨hnextBefore, rfl⟩) hnextAfter ?_ ?_ ?_ ?_
    · refine h.nodup.sublist ?_
      simp
    · intro z hz
      have hzr : z ≠ d.nextRef := hne z (by simp at hz ⊢; tauto)
      rw [List.getLast?_concat, assignAt_some]
      by_cases hzc : z = c <;> simp [Device.splitChunk, hzc, hzr]
    · simp [Device.splitChunk, hcr.symm]
    · intro z hz
      obtain ⟨hzc, hzr⟩ := hother z (List.mem_append_right _ hz)
      simp [Device.splitChunk, hzc, hzr]
  · have hprev : ∀ z, z ≠ d.nextRef →
        (d.splitChunk c size).prev z = assignAt d.prev after.head? (some d.nextRef) z := by
      intro z hz
      simp [Device.splitChunk, hz, h.next_eq]
    rw [show before ++ c :: d.nextRef :: after = before ++ [c] ++ d.nextRef :: after by simp,
      reverse_append_cons, List.reverse_concat]
    refine IsPath.insert hprevAfter ⟨rfl, hprevBefore⟩ ?_ ?_ ?_ ?_
    · exact List.nodup_reverse.mpr (List.nodup_append'.mp hba).2.1
    · intro z hz
      rw [List.getLast?_reverse]
      exact hprev z (hother z (List.mem_append_right _ (List.mem_reverse.mp hz))).2
    · simp [Device.splitChunk]
    · intro z hz
      have hmem : z ∈ before ++ c :: after := by simp at hz ⊢; tauto
      rw [hprev z (hne z hmem)]
      refine assignAt_head?_of_notMem ?_
      rcases List.mem_cons.mp hz with rfl | hz
      · exact hca
      · exact fun hza => (List.nodup_append'.mp hba).2.2 (List.mem_reverse.mp hz) hza
  · refine h.tiles.split (fun z hz => ?_) ?_ ?_ ?_
    · obtain ⟨hzc, hzr⟩ := hother z hz
      simp [Device.splitChunk, hzc, hzr]
    · simp [Device.splitChunk, hcr]
    · simp [Device.splitChunk, Nat.add_comm]
    · simp [Device.splitChunk, hcr.symm]
      omega
  · rw [show front ++ c :: d.nextRef :: back = (front ++ [c]) ++ d.nextRef :: back by simp]
    have hstart : restart d.freeChunkList (front ++ [c]) (some d.nextRef) = d.freeChunkList :=
      if_neg (by simp)
    rw [show (d.splitChunk c size).freeChunkList = d.freeChunkList from rfl, ← hstart]
    refine IsPath.insert (isPath_append_cons.mpr ⟨hfreeFront, rfl⟩) hfreeBack ?_ ?_ ?_ ?_
    · refine hfree.sublist ?_
      simp
    · intro z hz
      have hzr : z ≠ d.nextRef := hneFree z (by simp at hz ⊢; tauto)
      rw [List.getLast?_concat, assignAt_some]
      by_cases hzc : z = c <;> simp [Device.splitChunk, hzc, hzr]
    · simp [Device.splitChunk, hcr.symm]
    · intro z hz
      have hzc : z ≠ c := by
        rintro rfl
        exact (notMem_of_nodup hfree).2.1 hz
      simp [Device.splitChunk, hzc, hneFree z (by simp [hz])]

/-- The chunk of an allocation leaves the free list. -/
theorem Layout.takeChunk (h : Layout d refs (front ++ c :: back) base top)
    (hfree : (front ++ c :: back).Nodup) :
    Layout (d.takeChunk c front.getLast?) refs (front ++ back) base top := by
  obtain ⟨hcf, hcb, hfb⟩ := notMem_of_nodup hfree
  have hlink : ∀ z, z ≠ c → (d.takeChunk c front.getLast?).freelink z =
      assignAt d.freelink front.getLast? (d.freelink c) z := by
    intro z hz
    simp [Device.takeChunk, hz]
  have hstart : (d.takeChunk c front.getLast?).freeChunkList =
      restart d.freeChunkList front (d.freelink c) := by
    simp [Device.takeChunk, restart]
  refine ⟨h.nodup, h.next, h.prev, h.tiles, ?_⟩
  rw [hstart]
  refine h.free.remove (List.nodup_append'.mp hfb).1 (fun z hz => hlink z ?_) fun z hz => ?_
  · rintro rfl
    exact hcf hz
  · have hzf : z ∉ front := fun hzf => (List.nodup_append'.mp hfb).2.2 hzf hz
    rw [hlink z (by rintro rfl; exact hcb hz), assignAt_getLast?_of_notMem hzf]

/-! ## Deallocation -/

/-- A freed chunk `c` before a free chunk `n` leaves the list of the chunks. -/
theorem Layout.absorbNext (h : Layout d (before ++ c :: n :: after) free base top) :
    Layout (d.absorbNext c n) (before ++ n :: after) free base top := by
  obtain ⟨hcb, hcna, hbna⟩ := notMem_of_nodup h.nodup
  obtain ⟨hnb, hna, hba⟩ := notMem_of_nodup hbna
  have hnextEq : d.next c = some n := h.next_eq
  have hprevEq : d.prev c = before.getLast? := h.prev_eq
  refine Layout.mk' (p := restart (before ++ c :: n :: after).head? before (d.next c))
    (q := restart (before ++ c :: n :: after).getLast? (after.reverse ++ [n]) (d.prev c))
    hbna ?_ ?_ ?_ h.free
  · refine h.next.remove (List.nodup_append'.mp hba).1 (fun z _ => ?_) fun z hz => ?_
    · rw [hnextEq, ← hprevEq]
      rfl
    · have hzb : z ∉ before := fun hzb => (List.nodup_append'.mp hbna).2.2 hzb hz
      simp only [Device.absorbNext, hprevEq]
      exact assignAt_getLast?_of_notMem hzb
  · have hprev := h.prev
    rw [reverse_append_cons_cons,
      show after.reverse ++ n :: c :: before.reverse =
        (after.reverse ++ [n]) ++ c :: before.reverse by simp] at hprev
    rw [reverse_append_cons,
      show after.reverse ++ n :: before.reverse = (after.reverse ++ [n]) ++ before.reverse by simp]
    refine hprev.remove ?_ (fun z _ => ?_) fun z hz => ?_
    · rw [← List.reverse_cons]
      exact List.nodup_reverse.mpr (List.nodup_append'.mp hbna).2.1
    · rw [List.getLast?_concat, assignAt_some]
      rfl
    · have hzn : z ≠ n := by
        rintro rfl
        exact hnb (List.mem_reverse.mp hz)
      simp [Device.absorbNext, hzn]
  · refine h.tiles.join (fun z hz => ?_) ?_ ?_
    · have hzn : z ≠ n := by
        rintro rfl
        exact (List.mem_append.mp hz).elim hnb hna
      simp [Device.absorbNext, hzn]
    · simp [Device.absorbNext]
    · simp [Device.absorbNext, Nat.add_comm]

/-- A chunk `x` after a free chunk `c` leaves the list of the chunks. -/
theorem Layout.mergeIntoPrev (h : Layout d (before ++ c :: x :: after) free base top) :
    Layout (d.mergeIntoPrev c x) (before ++ c :: after) free base top := by
  have hnodup : ((before ++ [c]) ++ x :: after).Nodup := by simpa using h.nodup
  obtain ⟨hxbc, hxa, hbca⟩ := notMem_of_nodup hnodup
  have hcons : before ++ [c] ++ after = before ++ c :: after := by simp
  rw [hcons] at hbca
  obtain ⟨hcb, hca, hba⟩ := notMem_of_nodup hbca
  have hsplit : Layout d ((before ++ [c]) ++ x :: after) free base top := by simpa using h
  have hnextEq : d.next x = after.head? := hsplit.next_eq
  have hprevEq : d.prev x = some c := by
    rw [hsplit.prev_eq, List.getLast?_concat]
  refine Layout.mk' (p := restart (before ++ c :: x :: after).head? (before ++ [c]) (d.next x))
    (q := restart (before ++ c :: x :: after).getLast? after.reverse (d.prev x))
    hbca ?_ ?_ ?_ h.free
  · have hnext := h.next
    rw [show before ++ c :: x :: after = (before ++ [c]) ++ x :: after by simp] at hnext
    rw [← hcons, show before ++ c :: x :: after = (before ++ [c]) ++ x :: after by simp]
    refine hnext.remove ?_ (fun z _ => ?_) fun z hz => ?_
    · exact (List.nodup_append'.mp hnodup).1
    · rw [List.getLast?_concat, assignAt_some]
      rfl
    · have hzc : z ≠ c := by
        rintro rfl
        exact hca hz
      simp [Device.mergeIntoPrev, hzc]
  · have hprev := h.prev
    rw [reverse_append_cons_cons] at hprev
    rw [reverse_append_cons]
    refine hprev.remove ?_ (fun z _ => ?_) fun z hz => ?_
    · exact List.nodup_reverse.mpr (List.nodup_append'.mp hba).2.1
    · rw [List.getLast?_reverse, ← hnextEq, hprevEq]
      rfl
    · have hza : z ∉ after := by
        rcases List.mem_cons.mp hz with rfl | hz
        · exact hca
        · exact fun hza => (List.nodup_append'.mp hba).2.2 (List.mem_reverse.mp hz) hza
      simp only [Device.mergeIntoPrev, hnextEq]
      exact assignAt_head?_of_notMem hza
  · refine h.tiles.join (fun z hz => ?_) rfl ?_
    · have hzc : z ≠ c := by
        rintro rfl
        exact (List.mem_append.mp hz).elim hcb hca
      simp [Device.mergeIntoPrev, hzc]
    · simp [Device.mergeIntoPrev]

/-- A freed chunk enters the free list. -/
theorem Layout.linkFree (h : Layout d refs (front ++ back) base top)
    (hfree : (front ++ c :: back).Nodup) :
    Layout (d.linkFree c front.getLast?) refs (front ++ c :: back) base top := by
  obtain ⟨hcf, hcb, hfb⟩ := notMem_of_nodup hfree
  rcases List.eq_nil_or_concat front with rfl | ⟨init, p, rfl⟩
  · have hpath :
        IsPath (Function.update d.freelink c d.freeChunkList) d.freeChunkList back none := by
      refine (show IsPath d.freelink _ back none from h.free).congr fun z hz => ?_
      refine Function.update_of_ne ?_ _ _
      rintro rfl
      exact hcb hz
    refine ⟨h.nodup, h.next, h.prev, h.tiles, rfl, ?_⟩
    simpa [Device.linkFree] using hpath
  · rw [List.concat_eq_append] at *
    rw [List.getLast?_concat]
    obtain ⟨m, hfront, hback⟩ := isPath_append.mp h.free
    have hm : m = d.freelink p := ((isPath_append_cons.mp hfront).2).symm
    have hcp : c ≠ p := by
      rintro rfl
      exact hcf (by simp)
    have hstart : restart d.freeChunkList (init ++ [p]) (some c) = d.freeChunkList :=
      if_neg (by simp)
    refine ⟨h.nodup, h.next, h.prev, h.tiles, ?_⟩
    rw [show (d.linkFree c (some p)).freeChunkList = d.freeChunkList from rfl, ← hstart]
    refine hfront.insert hback (List.nodup_append'.mp hfb).1 (fun z hz => ?_) ?_ fun z hz => ?_
    · rw [List.getLast?_concat, assignAt_some]
      have hzc : z ≠ c := by
        rintro rfl
        exact hcf hz
      by_cases hzp : z = p <;> simp [Device.linkFree, hzp, hzc]
    · simp [Device.linkFree, hcp, hm]
    · have hzc : z ≠ c := by
        rintro rfl
        exact hcb hz
      have hzp : z ≠ p := by
        rintro rfl
        exact (List.nodup_append'.mp hfb).2.2 (by simp) hz
      simp [Device.linkFree, hzc, hzp]

/-- The free chunk `n` after the free chunk `c` leaves the free list. -/
theorem Layout.unlinkFree (h : Layout d refs (front ++ c :: n :: back) base top)
    (hfree : (front ++ c :: n :: back).Nodup) :
    Layout { d with freelink := Function.update d.freelink c (d.freelink n) } refs
      (front ++ c :: back) base top := by
  have hnodup : ((front ++ [c]) ++ n :: back).Nodup := by simpa using hfree
  have hpath := h.free
  rw [show front ++ c :: n :: back = (front ++ [c]) ++ n :: back by simp] at hpath
  have hstart : restart d.freeChunkList (front ++ [c]) (d.freelink n) = d.freeChunkList :=
    if_neg (by simp)
  refine ⟨h.nodup, h.next, h.prev, h.tiles, ?_⟩
  rw [show front ++ c :: back = (front ++ [c]) ++ back by simp]
  show IsPath _ d.freeChunkList _ _
  rw [← hstart]
  refine hpath.remove (List.nodup_append'.mp hnodup).1 (fun z _ => ?_) fun z hz => ?_
  · rw [List.getLast?_concat, assignAt_some]
  · refine Function.update_of_ne ?_ _ _
    rintro rfl
    exact (notMem_of_nodup hfree).2.1 (by simp [hz])

end Xkblas.Memory.Heap
