import Mathlib.Data.List.Basic

/-!
# Growing tables of pointers

A table is an array of pointers from `realloc`, or null. Its capacity is the length of the list. A
new cell is uninitialized, and to read it is undefined, as it is to read or write beyond the
capacity. `Lists a n P` says that a table has `n` cells that are all initialized, and that the cell
`i` points to `x` exactly when `P i x`.
-/

namespace Xkblas.Library

/-- A cell of a table. -/
inductive Cell (α : Type*) where
  | uninit
  | null
  | pointer (x : α)
  deriving DecidableEq, Repr

/-- A table, or the null pointer. -/
abbrev PointerTable (α : Type*) := Option (List (Cell α))

namespace PointerTable

variable {α : Type*} {a b : PointerTable α} {c : Cell α} {i j n size : ℕ} {x y : α} {fails : Bool}

/-- The cells of a table. The null pointer has none. -/
def cells (a : PointerTable α) : List (Cell α) :=
  a.getD []

/-- `realloc`, which keeps the cells that fit. It gives the null pointer when the memory is
exhausted, and frees the table when the size is 0. -/
def realloc (a : PointerTable α) (size : ℕ) (fails : Bool) : PointerTable α :=
  if fails = true ∨ size = 0 then none
  else some (a.cells.take size ++ List.replicate (size - a.cells.length) Cell.uninit)

/-- The pointer in the cell `i`, where it is defined. -/
def read (a : PointerTable α) (i : ℕ) : Option (Option α) :=
  match a.cells[i]? with
  | some .null => some none
  | some (.pointer x) => some (some x)
  | some .uninit => none
  | none => none

/-- The cell `i` is written, where it is defined. -/
def write (a : PointerTable α) (i : ℕ) (c : Cell α) : Option (PointerTable α) :=
  if i < a.cells.length then some (some (a.cells.set i c)) else none

/-- The `n` cells of a table are initialized, and they point to what `P` says. -/
structure Lists (a : PointerTable α) (n : ℕ) (P : ℕ → α → Prop) : Prop where
  length : a.cells.length = n
  initialized : ∀ i : ℕ, a.cells[i]? ≠ some .uninit
  pointer : ∀ (i : ℕ) (x : α), a.cells[i]? = some (.pointer x) ↔ P i x

theorem realloc_isSome : (∃ l, realloc a size fails = some l) ↔ fails = false ∧ size ≠ 0 := by
  unfold realloc
  split
  next h =>
    refine iff_of_false (fun hb => nomatch hb.choose_spec) fun hok => ?_
    rcases h with hfails | hsize
    · rw [hok.1] at hfails
      cases hfails
    · exact hok.2 hsize
  next h =>
    obtain ⟨hfails, hsize⟩ := not_or.mp h
    exact iff_of_true ⟨_, rfl⟩ ⟨Bool.eq_false_iff.mpr hfails, hsize⟩

theorem cells_realloc {l : List (Cell α)} (h : realloc a size fails = some l) :
    l = a.cells.take size ++ List.replicate (size - a.cells.length) Cell.uninit := by
  unfold realloc at h
  split at h
  · cases h
  · exact (Option.some.inj h).symm

theorem write_eq_some (h : write a i c = some b) :
    i < a.cells.length ∧ b.cells = a.cells.set i c := by
  unfold write at h
  split at h
  next hlt =>
    cases h
    exact ⟨hlt, rfl⟩
  next => cases h

theorem write_of_lt (h : i < a.cells.length) : write a i c = some (some (a.cells.set i c)) :=
  if_pos h

theorem read_eq_pointer : a.read i = some (some x) ↔ a.cells[i]? = some (.pointer x) := by
  unfold read
  constructor
  · intro h
    split at h
    · cases h
    next y hy =>
      cases h
      exact hy
    · cases h
    · cases h
  · intro h
    rw [h]

namespace Lists

variable {P Q : ℕ → α → Prop}

theorem nil : Lists (none : PointerTable α) 0 fun _ _ => False where
  length := rfl
  initialized := fun i h => by
    rw [show cells (none : PointerTable α) = [] from rfl, List.getElem?_nil] at h
    cases h
  pointer := fun i x => by
    rw [show cells (none : PointerTable α) = [] from rfl, List.getElem?_nil]
    exact iff_of_false nofun id

theorem congr (h : Lists a n P) (heq : ∀ i x, P i x ↔ Q i x) : Lists a n Q where
  length := h.length
  initialized := h.initialized
  pointer := fun i x => (h.pointer i x).trans (heq i x)

theorem lt (h : Lists a n P) (hP : P i x) : i < n := by
  have hget := (h.pointer i x).mpr hP
  rw [← h.length]
  exact (List.getElem?_eq_some_iff.mp hget).1

/-- A cell points to one thing. -/
theorem unique (h : Lists a n P) (hx : P i x) (hy : P i y) : x = y := by
  have hx := (h.pointer i x).mpr hx
  rw [(h.pointer i y).mpr hy] at hx
  cases hx
  rfl

/-- The reads of the table are defined, and they give what the table lists. -/
theorem read (h : Lists a n P) (hi : i < n) : ∃ r, a.read i = some r ∧ ∀ x, r = some x ↔ P i x := by
  have hi : i < a.cells.length := h.length ▸ hi
  have hget := List.getElem?_eq_getElem hi
  unfold PointerTable.read
  rw [hget]
  cases hcell : a.cells[i] with
  | uninit => exact absurd (hget.trans (congrArg some hcell)) (h.initialized i)
  | null =>
      refine ⟨none, rfl, fun x => iff_of_false nofun fun hP => ?_⟩
      have hpointer := (h.pointer i x).mpr hP
      rw [hget, hcell] at hpointer
      cases hpointer
  | pointer y =>
      refine ⟨some y, rfl, fun x => ?_⟩
      rw [← h.pointer i x, hget, hcell]
      constructor
      · intro heq
        rw [Option.some.inj heq]
      · intro heq
        cases heq
        rfl

/-- One more cell. -/
theorem push {l : List (Cell α)} (h : Lists a n P) (hl : realloc a (n + 1) fails = some l) :
    Lists (some (l.set n (.pointer x))) (n + 1) fun i y => i = n ∧ y = x ∨ i ≠ n ∧ P i y := by
  have hcells : l = a.cells ++ [Cell.uninit] := by
    rw [cells_realloc hl, List.take_of_length_le (by rw [h.length]; omega), h.length]
    simp
  have hset : cells (some (l.set n (.pointer x))) = a.cells ++ [Cell.pointer x] := by
    show l.set n (.pointer x) = _
    rw [hcells, ← h.length, List.set_append_right _ _ (Nat.le_refl _)]
    simp
  constructor
  case length => rw [hset, List.length_append, h.length]; rfl
  case initialized =>
    intro i hi
    rw [hset] at hi
    rcases Nat.lt_or_ge i a.cells.length with hlt | hge
    · rw [List.getElem?_append_left hlt] at hi
      exact h.initialized i hi
    · rw [List.getElem?_append_right hge, List.getElem?_singleton] at hi
      split at hi
      · cases hi
      · cases hi
  case pointer =>
    intro i y
    rw [hset]
    rcases Nat.lt_trichotomy i n with hlt | rfl | hgt
    · rw [List.getElem?_append_left (by rw [h.length]; exact hlt), h.pointer]
      constructor
      · exact fun hP => Or.inr ⟨Nat.ne_of_lt hlt, hP⟩
      · intro hP
        rcases hP with ⟨heq, _⟩ | ⟨_, hP⟩
        · omega
        · exact hP
    · rw [List.getElem?_append_right (Nat.le_of_eq h.length), h.length, Nat.sub_self]
      constructor
      · intro heq
        cases heq
        exact Or.inl ⟨rfl, rfl⟩
      · intro hP
        rcases hP with ⟨_, rfl⟩ | ⟨hne, _⟩
        · rfl
        · exact absurd rfl hne
    · rw [List.getElem?_eq_none (by rw [List.length_append, h.length]; exact hgt)]
      refine iff_of_false nofun fun hP => ?_
      rcases hP with ⟨heq, _⟩ | ⟨_, hP⟩
      · omega
      · exact absurd (h.lt hP) (by omega)

/-- A cell is cleared. -/
theorem clear (h : Lists a n P) (hb : write a i .null = some b) :
    Lists b n fun j y => j ≠ i ∧ P j y := by
  obtain ⟨hlt, hcells⟩ := write_eq_some hb
  constructor
  case length => rw [hcells, List.length_set, h.length]
  case initialized =>
    intro j hj
    rw [hcells] at hj
    by_cases hji : i = j
    · subst hji
      rw [List.getElem?_set_self hlt] at hj
      cases hj
    · rw [List.getElem?_set_ne hji] at hj
      exact h.initialized j hj
  case pointer =>
    intro j y
    rw [hcells]
    by_cases hji : i = j
    · subst hji
      rw [List.getElem?_set_self hlt]
      exact iff_of_false nofun fun hP => hP.1 rfl
    · rw [List.getElem?_set_ne hji, h.pointer]
      exact (and_iff_right (Ne.symm hji)).symm

end Lists

end PointerTable

end Xkblas.Library
