import Mathlib.Algebra.BigOperators.Intervals

/-!
# A range cut into tiles

The indices below `n` are cut into tiles of size `b`; the last tile holds what is left. The tile
`k` starts at `k * b`. `lt_tile_iff` locates an index, and `sum_tiles` turns the sum over the
tiles of a sum over a tile into the sum over the range.
-/

namespace Xkblas.Library

open Finset

/-- The number of tiles of size `b` that cover `n` indices. -/
def numTiles (n b : ℕ) : ℕ :=
  (n + b - 1) / b

/-- The size of the tile `k`. -/
def tileSize (n b k : ℕ) : ℕ :=
  if k = numTiles n b - 1 then n - k * b else b

variable {n b k i : ℕ}

/-- The tiles are those that start in the range. -/
theorem lt_numTiles (hb : 0 < b) : k < numTiles n b ↔ k * b < n := by
  unfold numTiles
  rw [Nat.lt_iff_add_one_le, Nat.le_div_iff_mul_le hb, Nat.succ_mul]
  omega

theorem numTiles_pos (hb : 0 < b) (hn : 0 < n) : 0 < numTiles n b :=
  (lt_numTiles hb).mpr (by simpa using hn)

theorem numTiles_zero (hb : 0 < b) : numTiles 0 b = 0 := by
  by_contra hne
  have h := (lt_numTiles hb).mp (Nat.pos_of_ne_zero hne)
  omega

/-- A tile that is not the last one ends in the range. -/
theorem succ_mul_le (hb : 0 < b) (hk : k + 1 < numTiles n b) : k * b + b ≤ n := by
  have h := (lt_numTiles hb).mp hk
  rw [Nat.succ_mul] at h
  exact h.le

/-- The last tile reaches the end of the range. -/
theorem le_numTiles_mul (hb : 0 < b) : n ≤ numTiles n b * b := by
  by_contra hlt
  exact absurd ((lt_numTiles hb).mpr (Nat.lt_of_not_le hlt)) (Nat.lt_irrefl _)

/-- Every tile lies in the range. -/
theorem tile_le (hb : 0 < b) (hk : k < numTiles n b) : k * b + tileSize n b k ≤ n := by
  have hstart := (lt_numTiles hb).mp hk
  unfold tileSize
  split
  · omega
  · exact succ_mul_le hb (by omega)

theorem tileSize_le (hb : 0 < b) (hk : k < numTiles n b) : tileSize n b k ≤ b := by
  unfold tileSize
  split
  next hlast =>
    have hend := le_numTiles_mul (n := n) hb
    have hsucc : numTiles n b = k + 1 := by omega
    rw [hsucc, Nat.succ_mul] at hend
    omega
  next => exact le_rfl

theorem tileSize_pos (hb : 0 < b) (hk : k < numTiles n b) : 0 < tileSize n b k := by
  have hstart := (lt_numTiles hb).mp hk
  unfold tileSize
  split <;> omega

/-- A tile that is followed by another one is full. -/
theorem tileSize_of_lt (hk : k + 1 < numTiles n b) : tileSize n b k = b :=
  if_neg (by omega)

/-- The indices of the tile `k`. -/
theorem mem_tile (hb : 0 < b) (hk : k < numTiles n b) :
    k * b ≤ i ∧ i < k * b + tileSize n b k ↔ i < n ∧ i / b = k := by
  have hle := tile_le hb hk
  constructor
  · rintro ⟨hlo, hhi⟩
    refine ⟨by omega, ?_⟩
    have hsize := tileSize_le hb hk
    refine (Nat.div_eq_iff hb).mpr ⟨hlo, ?_⟩
    omega
  · rintro ⟨hi, hdiv⟩
    obtain ⟨hlo, hhi⟩ := (Nat.div_eq_iff hb).mp hdiv
    refine ⟨hlo, ?_⟩
    unfold tileSize
    split <;> omega

theorem div_lt_numTiles (hb : 0 < b) (hi : i < n) : i / b < numTiles n b := by
  refine (lt_numTiles hb).mpr (lt_of_le_of_lt ?_ hi)
  exact Nat.div_mul_le_self i b

/-- The first `k` tiles are the first `k * b` indices. -/
theorem sum_full_tiles {R : Type*} [AddCommMonoid R] (f : ℕ → R) (k : ℕ) :
    ∑ m ∈ range k, ∑ i ∈ range b, f (m * b + i) = ∑ i ∈ range (k * b), f i := by
  induction k with
  | zero => simp
  | succ k ih => rw [sum_range_succ, ih, Nat.succ_mul, sum_range_add]

/-- The sum over the tiles is the sum over the range. -/
theorem sum_tiles {R : Type*} [AddCommMonoid R] (hb : 0 < b) (f : ℕ → R) :
    ∑ k ∈ range (numTiles n b), ∑ i ∈ range (tileSize n b k), f (k * b + i) =
      ∑ i ∈ range n, f i := by
  cases hmt : numTiles n b with
  | zero =>
      have hn := le_numTiles_mul (n := n) hb
      rw [hmt] at hn
      simp [Nat.le_zero.mp (by simpa using hn)]
  | succ last =>
      have hfull : ∀ k ∈ range last, ∑ i ∈ range (tileSize n b k), f (k * b + i) =
          ∑ i ∈ range b, f (k * b + i) := by
        intro k hk
        have hlt : k + 1 < numTiles n b := by
          rw [hmt]
          exact Nat.succ_lt_succ (mem_range.mp hk)
        rw [tileSize_of_lt hlt]
      have hlast : tileSize n b last = n - last * b := if_pos (by omega)
      have hstart : last * b < n := (lt_numTiles hb).mp (by omega)
      rw [sum_range_succ, sum_congr rfl hfull, sum_full_tiles, hlast, ← sum_range_add,
        Nat.add_sub_cancel' hstart.le]

/-- The tiles as disjoint sets of indices. -/
def tile (n b k : ℕ) : Finset ℕ :=
  (range n).filter fun i => i / b = k

@[simp] theorem mem_tile_iff : i ∈ tile n b k ↔ i < n ∧ i / b = k := by
  simp [tile]

/-- A sum over the indices of a tile. -/
theorem sum_tile {R : Type*} [AddCommMonoid R] (hb : 0 < b) (hk : k < numTiles n b)
    (f : ℕ → R) : ∑ i ∈ tile n b k, f i = ∑ i ∈ range (tileSize n b k), f (k * b + i) := by
  have himage : tile n b k = (range (tileSize n b k)).image fun i => k * b + i := by
    ext i
    rw [mem_tile_iff, ← mem_tile hb hk, mem_image]
    constructor
    · rintro ⟨hlo, hhi⟩
      exact ⟨i - k * b, mem_range.mpr (by omega), by omega⟩
    · rintro ⟨r, hr, rfl⟩
      have := mem_range.mp hr
      omega
  rw [himage, sum_image]
  intro x _ y _ hxy
  simpa using hxy

end Xkblas.Library
