import Mathlib.Data.List.Nodup
import Xkblas.Library.LinkedPath

/-!
# Doubly linked lists

A list in a store with the pointers `beg` and `fin` to its two ends and the fields `next` and
`prev` in each cell. `DoublyLinked` says that the forward pointers go through the cells of a list
and the backward pointers through the same cells in reverse. The two operations are the insertion
of a cell at the front and the removal of a cell, given as the assignments that a program makes.
-/

namespace Xkblas.Library

variable {α : Type*}

/-- The cells from `beg` to `fin` are those of the list, in this order. -/
structure DoublyLinked (next prev : α → Option α) (beg fin : Option α) (l : List α) : Prop where
  nodup : l.Nodup
  forward : IsPath next beg l none
  backward : IsPath prev fin l.reverse none

namespace DoublyLinked

variable {next prev next' prev' : α → Option α} {beg fin : Option α} {l before after : List α}
  {x : α}

/-- The empty list. -/
theorem empty (next prev : α → Option α) : DoublyLinked next prev none none [] :=
  ⟨List.nodup_nil, rfl, rfl⟩

/-- A list only reads the fields of its cells. -/
theorem congr (h : DoublyLinked next prev beg fin l) (hnext : ∀ y ∈ l, next' y = next y)
    (hprev : ∀ y ∈ l, prev' y = prev y) : DoublyLinked next' prev' beg fin l :=
  ⟨h.nodup, h.forward.congr hnext,
    h.backward.congr fun y hy => hprev y (List.mem_reverse.mp hy)⟩

theorem beg_eq (h : DoublyLinked next prev beg fin l) : beg = l.head? :=
  h.forward.eq_head?

theorem fin_eq (h : DoublyLinked next prev beg fin l) : fin = l.getLast? := by
  rw [h.backward.eq_head?, List.head?_reverse]

/-- A list whose first pointer is null is empty. -/
theorem eq_nil (h : DoublyLinked next prev none fin l) : l = [] :=
  List.head?_eq_none_iff.mp h.beg_eq.symm

/-- A cell points forward to the one after it. -/
theorem next_eq (h : DoublyLinked next prev beg fin (before ++ x :: after)) :
    next x = after.head? :=
  (isPath_append_cons.mp h.forward).2.eq_head?

/-- A cell points backward to the one before it. -/
theorem prev_eq (h : DoublyLinked next prev beg fin (before ++ x :: after)) :
    prev x = before.getLast? := by
  have hpath := h.backward
  rw [List.reverse_append, List.reverse_cons, List.append_assoc, List.singleton_append] at hpath
  rw [(isPath_append_cons.mp hpath).2.eq_head?, List.head?_reverse]

/-- The cells on the two sides of a cell are other cells. -/
theorem notMem (h : DoublyLinked next prev beg fin (before ++ x :: after)) :
    x ∉ before ∧ x ∉ after := by
  have hx := (List.nodup_cons.mp (List.nodup_middle.mp h.nodup)).1
  exact ⟨fun hb => hx (List.mem_append_left _ hb), fun ha => hx (List.mem_append_right _ ha)⟩

variable [DecidableEq α]

/-- A cell is linked in at the front. -/
theorem pushFront (h : DoublyLinked next prev beg fin l) (hx : x ∉ l) :
    DoublyLinked (Function.update next x beg)
      (assignAt (Function.update prev x none) beg (some x)) (some x)
      (if beg = none then some x else fin) (x :: l) := by
  have hbeg := h.beg_eq
  refine ⟨List.nodup_cons.mpr ⟨hx, h.nodup⟩, ⟨rfl, ?_⟩, ?_⟩
  · rw [Function.update_self]
    exact h.forward.congr fun y hy => Function.update_of_ne (ne_of_mem_of_not_mem hy hx) _ _
  · -- backward, the new cell is the last one, and the old first cell points to it
    have hself : assignAt (Function.update prev x none) beg (some x) x = none := by
      rw [hbeg, assignAt_head?_of_notMem hx, Function.update_self]
    have hstart : restart fin l.reverse (some x) = if beg = none then some x else fin := by
      unfold restart
      simp only [List.reverse_eq_nil_iff, hbeg, List.head?_eq_none_iff]
    rw [List.reverse_cons, ← hstart]
    have hend : IsPath prev none [] none := rfl
    refine IsPath.insert h.backward hend (List.nodup_reverse.mpr h.nodup) ?_ hself ?_
    · intro y hy
      have hne : y ≠ x := ne_of_mem_of_not_mem (List.mem_reverse.mp hy) hx
      rw [List.getLast?_reverse, ← hbeg]
      unfold assignAt
      rw [Function.update_of_ne hne]
    · intro y hy
      exact absurd hy List.not_mem_nil

/-- A cell is unlinked: its two neighbours, or the ends of the list, point past it. -/
theorem unlink (h : DoublyLinked next prev beg fin (before ++ x :: after)) :
    DoublyLinked (assignAt next (prev x) (next x)) (assignAt prev (next x) (prev x))
      (if prev x = none then next x else beg) (if next x = none then prev x else fin)
      (before ++ after) := by
  have hnodup : (before ++ after).Nodup := (List.nodup_cons.mp (List.nodup_middle.mp h.nodup)).2
  obtain ⟨hb, ha, hba⟩ := List.nodup_append'.mp hnodup
  have hprev := h.prev_eq
  have hnext := h.next_eq
  refine ⟨hnodup, ?_, ?_⟩
  · have hstart : (if prev x = none then next x else beg) = restart beg before (next x) := by
      unfold restart
      simp only [hprev, List.getLast?_eq_none_iff]
    rw [hstart]
    refine h.forward.remove hb (fun y _ => by rw [hprev]) fun y hy => ?_
    rw [hprev]
    exact assignAt_getLast?_of_notMem fun hmem => hba hmem hy
  · have hpath := h.backward
    rw [List.reverse_append, List.reverse_cons, List.append_assoc,
      List.singleton_append] at hpath
    have hstart : (if next x = none then prev x else fin) =
        restart fin after.reverse (prev x) := by
      unfold restart
      simp only [hnext, List.head?_eq_none_iff, List.reverse_eq_nil_iff]
    rw [hstart, List.reverse_append]
    refine hpath.remove (List.nodup_reverse.mpr ha) (fun y _ => ?_) fun y hy => ?_
    · rw [hnext, List.getLast?_reverse]
    · rw [hnext]
      exact assignAt_head?_of_notMem fun hmem => hba (List.mem_reverse.mp hy) hmem

/-- A cell is linked in between two parts of a list. -/
theorem insert (h : DoublyLinked next prev beg fin (before ++ after)) (hx : x ∉ before ++ after) :
    DoublyLinked (assignAt (Function.update next x after.head?) before.getLast? (some x))
      (assignAt (Function.update prev x before.getLast?) after.head? (some x))
      (restart beg before (some x)) (restart fin after.reverse (some x))
      (before ++ x :: after) := by
  obtain ⟨hb, ha, hba⟩ := List.nodup_append'.mp h.nodup
  have hxb : x ∉ before := fun hmem => hx (List.mem_append_left _ hmem)
  have hxa : x ∉ after := fun hmem => hx (List.mem_append_right _ hmem)
  refine ⟨List.nodup_middle.mpr (List.nodup_cons.mpr ⟨hx, h.nodup⟩), ?_, ?_⟩
  · obtain ⟨r, hbefore, hafter⟩ := isPath_append.mp h.forward
    refine hbefore.insert hafter hb (fun z hz => ?_) ?_ fun z hz => ?_
    · unfold assignAt
      rw [Function.update_of_ne (ne_of_mem_of_not_mem hz hxb)]
    · rw [assignAt_getLast?_of_notMem hxb, Function.update_self]
      exact hafter.eq_head?.symm
    · rw [assignAt_getLast?_of_notMem fun hmem => hba hmem hz,
        Function.update_of_ne (ne_of_mem_of_not_mem hz hxa)]
  · have hback := h.backward
    rw [List.reverse_append] at hback
    obtain ⟨r, hafter, hbefore⟩ := isPath_append.mp hback
    rw [List.reverse_append, List.reverse_cons, List.append_assoc, List.singleton_append]
    refine hafter.insert hbefore (List.nodup_reverse.mpr ha) (fun z hz => ?_) ?_ fun z hz => ?_
    · unfold assignAt
      rw [List.getLast?_reverse,
        Function.update_of_ne (ne_of_mem_of_not_mem (List.mem_reverse.mp hz) hxa)]
    · rw [assignAt_head?_of_notMem hxa, Function.update_self, ← List.head?_reverse]
      exact hbefore.eq_head?.symm
    · have hz := List.mem_reverse.mp hz
      rw [assignAt_head?_of_notMem fun hmem => hba hz hmem,
        Function.update_of_ne (ne_of_mem_of_not_mem hz hxb)]

/-- The cell `y` takes the place of `x`. -/
theorem replace {y : α} (h : DoublyLinked next prev beg fin (before ++ x :: after))
    (hy : y ∉ before ++ after) :
    DoublyLinked (assignAt (Function.update next y (next x)) (prev x) (some y))
      (assignAt (Function.update prev y (prev x)) (next x) (some y))
      (if prev x = none then some y else beg) (if next x = none then some y else fin)
      (before ++ y :: after) := by
  have hprev := h.prev_eq
  have hnext := h.next_eq
  have hmoved := h.unlink.insert hy
  rw [hprev, hnext] at hmoved ⊢
  have hbeg : restart (if before.getLast? = none then after.head? else beg) before (some y) =
      if before.getLast? = none then some y else beg := by
    unfold restart
    simp only [List.getLast?_eq_none_iff]
    split <;> rfl
  have hfin : restart (if after.head? = none then before.getLast? else fin) after.reverse (some y) =
      if after.head? = none then some y else fin := by
    unfold restart
    simp only [List.head?_eq_none_iff, List.reverse_eq_nil_iff]
    split <;> rfl
  rw [hbeg, hfin] at hmoved
  refine hmoved.congr (fun z _ => ?_) fun z _ => ?_
  · unfold assignAt
    split
    · rfl
    · by_cases hz : z = y
      · rw [hz, Function.update_self, Function.update_self]
      · rw [Function.update_of_ne hz, Function.update_of_ne hz]
        exact (if_neg ‹_›).symm
  · unfold assignAt
    split
    · rfl
    · by_cases hz : z = y
      · rw [hz, Function.update_self, Function.update_self]
      · rw [Function.update_of_ne hz, Function.update_of_ne hz]
        exact (if_neg ‹_›).symm

/-- The last pointer of a list is its last cell. -/
theorem toLast {α : Type*} {next prev : α → Option α} {beg fin : Option α} {l : List α}
    (h : DoublyLinked next prev beg fin l) : DoublyLinked next prev beg l.getLast? l := by
  rw [← h.fin_eq]
  exact h

end DoublyLinked

end Xkblas.Library
