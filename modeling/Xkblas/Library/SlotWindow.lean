import Mathlib.Algebra.Order.Group.Nat
import Mathlib.Data.Finset.Card
import Mathlib.Data.Int.Interval
import Mathlib.Order.Interval.Finset.SuccPred

/-!
# A window of slots with holes

The indices of a window `[lo, hi)` of integers have different slots, each of which is empty or holds
an entry. `occurrences` counts how often an entry occurs. It changes by one when an entry is written
at an end of the window or removed inside of it, and it does not change when the window loses an
empty slot at one of its ends.
-/

namespace Xkblas.Library

open Finset

variable {ι τ : Type*} [DecidableEq τ] {slot : ℤ → ι} {cells : ι → Option τ}
  {lo hi i : ℤ}

/-- Different indices of the window have different slots. -/
def SlotsDiffer (slot : ℤ → ι) (lo hi : ℤ) : Prop :=
  ∀ i j, lo ≤ i → i < hi → lo ≤ j → j < hi → slot i = slot j → i = j

/-- How often `x` occurs in the slots of the window. -/
def occurrences (slot : ℤ → ι) (cells : ι → Option τ) (lo hi : ℤ) (x : τ) : ℕ :=
  -- the order of the integers is named, since Mathlib has one more that is not computable
  #{i ∈ @Ico ℤ instLatticeInt.toSemilatticeInf.toPreorder Int.instLocallyFiniteOrder lo hi |
    cells (slot i) = some x}

theorem occurrences_empty (h : hi ≤ lo) (x : τ) : occurrences slot cells lo hi x = 0 := by
  unfold occurrences
  rw [Ico_eq_empty (not_lt.mpr h)]
  rfl

/-- Only the slots of the window are counted. -/
theorem occurrences_congr {cells' : ι → Option τ}
    (h : ∀ i, lo ≤ i → i < hi → cells (slot i) = cells' (slot i)) (x : τ) :
    occurrences slot cells lo hi x = occurrences slot cells' lo hi x := by
  unfold occurrences
  refine congrArg card (filter_congr fun i hi => ?_)
  obtain ⟨hlo, hhi⟩ := mem_Ico.mp hi
  rw [h i hlo hhi]

/-- The entry at the end of the window. -/
theorem occurrences_succ (h : lo ≤ hi) (x : τ) :
    occurrences slot cells lo (hi + 1) x =
      occurrences slot cells lo hi x + if cells (slot hi) = some x then 1 else 0 := by
  have hIco : Ico lo (hi + 1) = insert hi (Ico lo hi) := by
    ext a
    simp only [mem_insert, mem_Ico]
    omega
  unfold occurrences
  rw [hIco, filter_insert]
  split
  next => rw [card_insert_of_notMem (by simp)]
  next => rfl

/-- The entry at the start of the window. -/
theorem occurrences_pred (h : lo ≤ hi) (x : τ) :
    occurrences slot cells (lo - 1) hi x =
      occurrences slot cells lo hi x + if cells (slot (lo - 1)) = some x then 1 else 0 := by
  have hIco : Ico (lo - 1) hi = insert (lo - 1) (Ico lo hi) := by
    ext a
    simp only [mem_insert, mem_Ico]
    omega
  unfold occurrences
  rw [hIco, filter_insert]
  split
  next => rw [card_insert_of_notMem (by simp)]
  next => rfl

variable [DecidableEq ι]

/-- An entry that is removed. -/
theorem occurrences_remove (hslot : SlotsDiffer slot lo hi) (hlo : lo ≤ i) (hhi : i < hi) (x : τ) :
    occurrences slot cells lo hi x =
      occurrences slot (Function.update cells (slot i) none) lo hi x +
        if cells (slot i) = some x then 1 else 0 := by
  have hcells : ∀ j, lo ≤ j → j < hi → j ≠ i →
      Function.update cells (slot i) none (slot j) = cells (slot j) := by
    intro j hjlo hjhi hne
    exact Function.update_of_ne (fun heq => hne (hslot j i hjlo hjhi hlo hhi heq)) _ _
  have hfilter : {j ∈ Ico lo hi | Function.update cells (slot i) none (slot j) = some x} =
      {j ∈ Ico lo hi | cells (slot j) = some x}.erase i := by
    ext j
    simp only [mem_filter, mem_Ico, mem_erase]
    by_cases hji : j = i
    · subst hji
      simp
    · constructor
      · rintro ⟨hj, hx⟩
        rw [hcells j hj.1 hj.2 hji] at hx
        exact ⟨hji, hj, hx⟩
      · rintro ⟨_, hj, hx⟩
        rw [hcells j hj.1 hj.2 hji]
        exact ⟨hj, hx⟩
  unfold occurrences
  rw [hfilter]
  split
  next hx =>
    exact (card_erase_add_one (mem_filter.mpr ⟨mem_Ico.mpr ⟨hlo, hhi⟩, hx⟩)).symm
  next hx =>
    have hnot : i ∉ {j ∈ Ico lo hi | cells (slot j) = some x} := fun h => hx (mem_filter.mp h).2
    rw [erase_eq_of_notMem hnot, Nat.add_zero]

/-- An entry that is written to a slot that no index of the window has. -/
theorem occurrences_write {o : Option τ} (h : ∀ j, lo ≤ j → j < hi → slot j ≠ slot i) (x : τ) :
    occurrences slot (Function.update cells (slot i) o) lo hi x =
      occurrences slot cells lo hi x :=
  occurrences_congr (fun j hlo hhi => Function.update_of_ne (h j hlo hhi) _ _) x

end Xkblas.Library
