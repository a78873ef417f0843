import Mathlib.Data.List.Basic

/-!
# Tilings of an interval

The cells of a list tile the interval from `b` to `t` if each starts where the one before it
ends, the first at `b`, and the last ends at `t`. The start and the size of a cell are functions
of the cell, so that a change of the cells outside of the list does not touch the tiling.
-/

namespace Xkblas.Library

variable {α : Type*}

/-- The cells of the list are laid out from `b` to `t` without a gap. -/
def Tiles (start size : α → Nat) (b : Nat) : List α → Nat → Prop
  | [], t => b = t
  | x :: l, t => start x = b ∧ Tiles start size (b + size x) l t

variable {start size start' size' : α → Nat} {b t : Nat} {l l' : List α} {x : α}

@[simp] theorem tiles_nil : Tiles start size b [] t ↔ b = t :=
  Iff.rfl

@[simp] theorem tiles_cons :
    Tiles start size b (x :: l) t ↔ start x = b ∧ Tiles start size (b + size x) l t :=
  Iff.rfl

/-- A tiling up to a cell and on. -/
theorem tiles_append_cons :
    Tiles start size b (l ++ x :: l') t ↔
      Tiles start size b l (start x) ∧ Tiles start size (start x + size x) l' t := by
  induction l generalizing b with
  | nil =>
      show start x = b ∧ Tiles start size (b + size x) l' t ↔ b = start x ∧ _
      constructor
      · rintro ⟨rfl, h⟩
        exact ⟨rfl, h⟩
      · rintro ⟨rfl, h⟩
        exact ⟨rfl, h⟩
  | cons y l ih =>
      show start y = b ∧ Tiles start size (b + size y) (l ++ x :: l') t ↔
        (start y = b ∧ Tiles start size (b + size y) l (start x)) ∧ _
      rw [ih, and_assoc]

/-- A tiling only reads its own cells. -/
theorem Tiles.congr (h : Tiles start size b l t) (hstart : ∀ y ∈ l, start' y = start y)
    (hsize : ∀ y ∈ l, size' y = size y) : Tiles start' size' b l t := by
  induction l generalizing b with
  | nil => exact h
  | cons y l ih =>
      obtain ⟨hb, htail⟩ := h
      refine ⟨(hstart y List.mem_cons_self).trans hb, ?_⟩
      rw [hsize y List.mem_cons_self]
      exact ih htail (fun z hz => hstart z (List.mem_cons_of_mem _ hz))
        fun z hz => hsize z (List.mem_cons_of_mem _ hz)

theorem Tiles.le (h : Tiles start size b l t) : b ≤ t := by
  induction l generalizing b with
  | nil => exact Nat.le_of_eq h
  | cons y l ih => exact Nat.le_trans (Nat.le_add_right _ _) (ih h.2)

/-- Every cell lies in the interval. -/
theorem Tiles.bounds (h : Tiles start size b l t) :
    ∀ y ∈ l, b ≤ start y ∧ start y + size y ≤ t := by
  intro y hy
  obtain ⟨init, rest, rfl⟩ := List.append_of_mem hy
  obtain ⟨hinit, hrest⟩ := tiles_append_cons.mp h
  exact ⟨hinit.le, hrest.le⟩

/-- The cells are disjoint and their addresses increase. -/
theorem Tiles.pairwise (h : Tiles start size b l t) :
    l.Pairwise fun x y => start x + size x ≤ start y := by
  induction l generalizing b with
  | nil => exact List.Pairwise.nil
  | cons y l ih =>
      obtain ⟨rfl, htail⟩ := h
      exact List.pairwise_cons.mpr ⟨fun z hz => (htail.bounds z hz).1, ih htail⟩

/-- A cell is cut in two. -/
theorem Tiles.split {y : α} (h : Tiles start size b (l ++ x :: l') t)
    (hold : ∀ z ∈ l ++ l', start' z = start z ∧ size' z = size z) (hx : start' x = start x)
    (hy : start' y = start x + size' x) (hsum : size' x + size' y = size x) :
    Tiles start' size' b (l ++ x :: y :: l') t := by
  obtain ⟨hl, hl'⟩ := tiles_append_cons.mp h
  refine tiles_append_cons.mpr ⟨?_, ?_, ?_⟩
  · rw [hx]
    exact hl.congr (fun z hz => (hold z (List.mem_append_left _ hz)).1)
      fun z hz => (hold z (List.mem_append_left _ hz)).2
  · rw [hx, hy]
  · rw [hx, Nat.add_assoc, hsum]
    exact hl'.congr (fun z hz => (hold z (List.mem_append_right _ hz)).1)
      fun z hz => (hold z (List.mem_append_right _ hz)).2

/-- Two cells are joined to the cell `z`. -/
theorem Tiles.join {y z : α} (h : Tiles start size b (l ++ x :: y :: l') t)
    (hold : ∀ u ∈ l ++ l', start' u = start u ∧ size' u = size u) (hstart : start' z = start x)
    (hsize : size' z = size x + size y) : Tiles start' size' b (l ++ z :: l') t := by
  obtain ⟨hl, hy, hl'⟩ := tiles_append_cons.mp h
  refine tiles_append_cons.mpr ⟨?_, ?_⟩
  · rw [hstart]
    exact hl.congr (fun u hu => (hold u (List.mem_append_left _ hu)).1)
      fun u hu => (hold u (List.mem_append_left _ hu)).2
  · rw [hstart, hsize, ← Nat.add_assoc]
    exact hl'.congr (fun u hu => (hold u (List.mem_append_right _ hu)).1)
      fun u hu => (hold u (List.mem_append_right _ hu)).2

end Xkblas.Library
