import Mathlib.Data.Finset.Card
import Mathlib.Data.Fintype.Basic
import Mathlib.Data.Fintype.Card
import Mathlib.Data.List.Sort

/-!
# Bit masks

A machine word of `w` bits stands for the set of its positions that are 1 (`ones`). `ffs` is one
more than the lowest position of a word, `popcount` the number of positions, and `clear` takes a
position out. `nthOne k` takes `k` positions out, lowest first, and gives `ffs` of the rest. `positions` is
the list of all of them.
-/

namespace Xkblas.Library.BitMask

variable {w : ℕ} {v : BitVec w} {i k : ℕ}

/-- The positions that are 1. -/
def ones (v : BitVec w) : Finset (Fin w) :=
  Finset.univ.filter fun i => v.getLsbD i = true

/-- One more than the lowest position that is 1, and 0 if there is none. -/
def ffs (v : BitVec w) : ℕ :=
  if v = 0#w then 0 else v.ctz.toNat + 1

/-- The number of positions that are 1. -/
def popcount (v : BitVec w) : ℕ :=
  (ones v).card

/-- The position `i` becomes 0. -/
def clear (v : BitVec w) (i : ℕ) : BitVec w :=
  v &&& ~~~(BitVec.twoPow w i)

/-- One more than the position that is 1 after the lowest `k` ones. -/
def nthOne : ℕ → BitVec w → ℕ
  | 0, v => ffs v
  | k + 1, v => nthOne k (clear v (ffs v - 1))

theorem mem_ones {j : Fin w} : j ∈ ones v ↔ v.getLsbD j = true :=
  Finset.mem_filter.trans (and_iff_right (Finset.mem_univ j))

/-- A word has a position that is 1 unless it is 0. -/
theorem ffs_eq_zero_iff : ffs v = 0 ↔ v = 0#w := by
  unfold ffs
  split
  case isTrue hzero => exact iff_of_true rfl hzero
  case isFalse hne => exact iff_of_false (Nat.succ_ne_zero _) hne

/-- The position that `ffs` finds is 1. -/
theorem getLsbD_ffs (h : v ≠ 0#w) : v.getLsbD (ffs v - 1) = true := by
  unfold ffs
  rw [if_neg h]
  exact BitVec.getLsbD_true_ctz_of_ne_zero h

theorem lt_of_getLsbD (h : v.getLsbD i = true) : i < w := by
  by_contra hle
  rw [BitVec.getLsbD_of_ge v i (Nat.le_of_not_lt hle)] at h
  cases h

theorem ne_zero_of_getLsbD (h : v.getLsbD i = true) : v ≠ 0#w := by
  rintro rfl
  rw [BitVec.getLsbD_zero] at h
  cases h

theorem getLsbD_clear : (clear v i).getLsbD k = true ↔ v.getLsbD k = true ∧ k ≠ i := by
  unfold clear
  rw [BitVec.getLsbD_and, BitVec.getLsbD_not, BitVec.getLsbD_twoPow, Bool.and_eq_true]
  refine and_congr_right fun hk => ?_
  have hlt := lt_of_getLsbD hk
  simp only [Bool.and_eq_true, decide_eq_true_eq, Bool.not_eq_eq_eq_not, Bool.not_true]
  constructor
  · rintro ⟨_, hne⟩ rfl
    rw [decide_eq_true hlt, decide_eq_true rfl] at hne
    cases hne
  · intro hne
    refine ⟨hlt, ?_⟩
    rw [Bool.and_eq_false_iff]
    exact .inr (decide_eq_false hne.symm)

/-- A word that is not 0 has a one. -/
theorem ne_zero_iff : v ≠ 0#w ↔ ∃ i, v.getLsbD i = true :=
  ⟨fun h => ⟨_, getLsbD_ffs h⟩, fun ⟨_, hi⟩ => ne_zero_of_getLsbD hi⟩

theorem popcount_pos_iff : 0 < popcount v ↔ v ≠ 0#w := by
  unfold popcount
  rw [Finset.card_pos, ne_zero_iff]
  constructor
  · rintro ⟨j, hj⟩
    exact ⟨j, mem_ones.mp hj⟩
  · rintro ⟨i, hi⟩
    exact ⟨⟨i, lt_of_getLsbD hi⟩, mem_ones.mpr hi⟩

/-- A word has one position less when one of its ones is cleared. -/
theorem popcount_clear (h : v.getLsbD i = true) : popcount (clear v i) = popcount v - 1 := by
  have herase : ones (clear v i) = (ones v).erase ⟨i, lt_of_getLsbD h⟩ := by
    ext j
    rw [mem_ones, getLsbD_clear, Finset.mem_erase, mem_ones, and_comm, Ne, Ne, Fin.ext_iff]
  unfold popcount
  rw [herase]
  exact Finset.card_erase_of_mem (mem_ones.mpr h)

/-- While there are more than `k` ones, `nthOne k` finds one of them. -/
theorem getLsbD_nthOne (h : k < popcount v) :
    v.getLsbD (nthOne k v - 1) = true ∧ 0 < nthOne k v := by
  induction k generalizing v with
  | zero =>
      have hne := popcount_pos_iff.mp h
      exact ⟨getLsbD_ffs hne, Nat.pos_of_ne_zero fun hzero => hne (ffs_eq_zero_iff.mp hzero)⟩
  | succ k ih =>
      have hlow := getLsbD_ffs (popcount_pos_iff.mp (Nat.zero_lt_of_lt h))
      have hrest : k < popcount (clear v (ffs v - 1)) := by
        rw [popcount_clear hlow]
        omega
      obtain ⟨hone, hpos⟩ := ih hrest
      exact ⟨(getLsbD_clear.mp hone).1, hpos⟩

/-! ## All positions -/

/-- The positions that a loop takes out with `ffs`, at most `k` of them. -/
def positionsFrom : ℕ → BitVec w → List ℕ
  | 0, _ => []
  | k + 1, v => if v = 0#w then [] else (ffs v - 1) :: positionsFrom k (clear v (ffs v - 1))

/-- The positions that are 1, lowest first. -/
def positions (v : BitVec w) : List ℕ :=
  positionsFrom w v

/-- No position is lower than the one that `ffs` finds. -/
theorem ffs_le (h : v.getLsbD i = true) : ffs v - 1 ≤ i := by
  by_contra hlt
  have hne := ne_zero_of_getLsbD h
  unfold ffs at hlt
  rw [if_neg hne, Nat.add_sub_cancel] at hlt
  rw [BitVec.getLsbD_false_of_lt_ctz (not_le.mp hlt)] at h
  cases h

theorem getLsbD_of_mem_positionsFrom (h : i ∈ positionsFrom k v) : v.getLsbD i = true := by
  induction k generalizing v with
  | zero => cases h
  | succ k ih =>
      unfold positionsFrom at h
      split at h
      case isTrue => cases h
      case isFalse hne =>
        rcases List.mem_cons.mp h with rfl | hmem
        · exact getLsbD_ffs hne
        · exact (getLsbD_clear.mp (ih hmem)).1

/-- The loop takes out every position. -/
theorem mem_positionsFrom (hk : popcount v ≤ k) : i ∈ positionsFrom k v ↔ v.getLsbD i = true := by
  refine ⟨getLsbD_of_mem_positionsFrom, fun h => ?_⟩
  induction k generalizing v with
  | zero =>
      have hpos := popcount_pos_iff.mpr (ne_zero_of_getLsbD h)
      omega
  | succ k ih =>
      have hne := ne_zero_of_getLsbD h
      unfold positionsFrom
      rw [if_neg hne, List.mem_cons]
      by_cases hi : i = ffs v - 1
      · exact .inl hi
      · refine .inr (ih ?_ (getLsbD_clear.mpr ⟨h, hi⟩))
        rw [popcount_clear (getLsbD_ffs hne)]
        omega

theorem pairwise_positionsFrom (k : ℕ) (v : BitVec w) :
    (positionsFrom k v).Pairwise (· < ·) := by
  induction k generalizing v with
  | zero => exact .nil
  | succ k ih =>
      unfold positionsFrom
      split
      case isTrue => exact .nil
      case isFalse =>
        refine .cons (fun i hi => ?_) (ih _)
        obtain ⟨hone, hne⟩ := getLsbD_clear.mp (getLsbD_of_mem_positionsFrom hi)
        exact Nat.lt_of_le_of_ne (ffs_le hone) hne.symm

theorem popcount_le (v : BitVec w) : popcount v ≤ w :=
  (Finset.card_le_univ _).trans_eq (Fintype.card_fin w)

/-- The loop takes the positions out in increasing order. -/
theorem positions_eq (v : BitVec w) :
    positions v = (List.range w).filter fun i => v.getLsbD i := by
  refine (pairwise_positionsFrom w v).eq_of_mem_iff (List.pairwise_lt_range.filter _) fun i => ?_
  rw [List.mem_filter, List.mem_range]
  exact (mem_positionsFrom (popcount_le v)).trans ⟨fun h => ⟨lt_of_getLsbD h, h⟩, fun h => h.2⟩

theorem mem_positions : i ∈ positions v ↔ v.getLsbD i = true :=
  mem_positionsFrom (popcount_le v)

end Xkblas.Library.BitMask
