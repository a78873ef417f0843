import Mathlib.Data.List.Basic
import Mathlib.Logic.Function.Basic

/-!
# Ring buffers

A ring buffer stores the element of index `i` in slot `i % size`. `Window ring size lo hi content`
says that the slots hold the content of the indices from `lo` to `hi`. A window that is not
longer than the ring can be written at its end, changed inside, and shortened at its start.
`contents ring size lo hi` is the list of the elements of these indices.
-/

namespace Xkblas.Library

variable {α : Type*}

/-- The slots of the indices in `[lo, hi)` hold their content. -/
def Window (ring : Nat → α) (size lo hi : Nat) (content : Nat → α) : Prop :=
  ∀ i, lo ≤ i → i < hi → ring (i % size) = content i

/-- Different indices of a window that fits in the ring have different slots. -/
theorem mod_ne_of_window {size i j : Nat} (hlt : i < j) (hfit : j < i + size) :
    i % size ≠ j % size := by
  intro heq
  have hzero : (j - i) % size = 0 := Nat.sub_mod_eq_zero_of_mod_eq heq.symm
  rw [Nat.mod_eq_of_lt (by omega)] at hzero
  omega

namespace Window

variable {ring content : Nat → α} {size lo hi : Nat}

/-- The content may change outside the window. -/
theorem congr {content' : Nat → α} (h : Window ring size lo hi content)
    (heq : ∀ i, lo ≤ i → i < hi → content' i = content i) : Window ring size lo hi content' := by
  intro i hlo hhi
  rw [heq i hlo hhi]
  exact h i hlo hhi

/-- Writing the slot of an index of the window changes its content and no other. -/
theorem set (h : Window ring size lo hi content) (hfit : hi ≤ lo + size) {i : Nat}
    (hlo : lo ≤ i) (hhi : i < hi) (x : α) :
    Window (Function.update ring (i % size) x) size lo hi (Function.update content i x) := by
  intro j hjlo hjhi
  by_cases hji : j = i
  · subst hji
    simp
  · have hslot : j % size ≠ i % size := by
      rcases Nat.lt_or_gt_of_ne hji with hlt | hlt
      · exact mod_ne_of_window hlt (by omega)
      · exact (mod_ne_of_window hlt (by omega)).symm
    rw [Function.update_of_ne hslot, Function.update_of_ne hji]
    exact h j hjlo hjhi

/-- Writing the slot past the end of a window that is not full extends the window. -/
theorem push (h : Window ring size lo hi content) (hle : lo ≤ hi) (hfit : hi < lo + size)
    (x : α) : Window (Function.update ring (hi % size) x) size lo (hi + 1)
      (Function.update content hi x) := by
  intro j hjlo hjhi
  by_cases hji : j = hi
  · subst hji
    simp
  · have hslot : j % size ≠ hi % size := mod_ne_of_window (by omega) (by omega)
    rw [Function.update_of_ne hslot, Function.update_of_ne hji]
    exact h j hjlo (by omega)

/-- A window may start later. -/
theorem drop {lo' : Nat} (h : Window ring size lo hi content) (hle : lo ≤ lo') :
    Window ring size lo' hi content :=
  fun i hlo hhi => h i (Nat.le_trans hle hlo) hhi

end Window

/-! ## The list of the elements -/

/-- The elements of the indices in `[lo, hi)`. -/
def contents (ring : Nat → α) (size lo hi : Nat) : List α :=
  (List.range' lo (hi - lo)).map fun i => ring (i % size)

section Contents

variable {ring ring' : Nat → α} {size lo hi : Nat} {x : α}

theorem contents_self (ring : Nat → α) (size lo : Nat) : contents ring size lo lo = [] := by
  unfold contents
  rw [Nat.sub_self, List.range'_zero, List.map_nil]

theorem length_contents : (contents ring size lo hi).length = hi - lo := by
  unfold contents
  rw [List.length_map, List.length_range']

/-- The list depends on the slots of its indices only. -/
theorem contents_congr (h : ∀ i, lo ≤ i → i < hi → ring' (i % size) = ring (i % size)) :
    contents ring' size lo hi = contents ring size lo hi := by
  unfold contents
  refine List.map_congr_left fun i hi => ?_
  have hmem := List.mem_range'_1.mp hi
  exact h i hmem.1 (by omega)

theorem contents_cons (h : lo < hi) :
    contents ring size lo hi = ring (lo % size) :: contents ring size (lo + 1) hi := by
  unfold contents
  rw [show hi - lo = hi - (lo + 1) + 1 by omega, List.range'_succ, List.map_cons]

theorem contents_split {mid : Nat} (hlo : lo ≤ mid) (hhi : mid ≤ hi) :
    contents ring size lo hi = contents ring size lo mid ++ contents ring size mid hi := by
  unfold contents
  rw [← List.map_append, show hi - lo = (mid - lo) + (hi - mid) by omega, ← List.range'_append_1,
    Nat.add_sub_cancel' hlo]

/-- Writing the slot past the end of a list that does not fill the ring keeps the list. -/
theorem contents_update_end (hfit : hi < lo + size) :
    contents (Function.update ring (hi % size) x) size lo hi = contents ring size lo hi := by
  refine contents_congr fun i hlo hhi => ?_
  exact Function.update_of_ne (mod_ne_of_window hhi (by omega)) _ _

/-- The slot past the end may be counted to the list. -/
theorem contents_snoc (hle : lo ≤ hi) :
    contents ring size lo (hi + 1) = contents ring size lo hi ++ [ring (hi % size)] := by
  rw [contents_split hle (Nat.le_succ hi), contents_cons (Nat.lt_succ_self hi), contents_self]

/-- An element is added at the end. -/
theorem contents_push (hle : lo ≤ hi) (hfit : hi < lo + size) :
    contents (Function.update ring (hi % size) x) size lo (hi + 1) =
      contents ring size lo hi ++ [x] := by
  rw [contents_snoc hle, contents_update_end hfit, Function.update_self]

/-- The slot of an index before the list may be written, if the ring holds both. -/
theorem contents_update_before {i : Nat} (hlt : i < lo) (hfit : hi ≤ i + size) :
    contents (Function.update ring (i % size) x) size lo hi = contents ring size lo hi := by
  refine contents_congr fun j hlo hhi => ?_
  exact Function.update_of_ne (mod_ne_of_window (Nat.lt_of_lt_of_le hlt hlo) (by omega)).symm _ _

/-- A list that is consumed from position `i` on is consumed by a part of its rest. -/
theorem consume_of_drop {l taken rest : List α} {i : Nat} (h : l.drop i = taken ++ rest) :
    l.drop (i + taken.length) = rest ∧ l.take (i + taken.length) = l.take i ++ taken := by
  constructor
  · rw [← List.drop_drop, h, List.drop_left]
  · rw [List.take_add, h, List.take_left]

end Contents

end Xkblas.Library
