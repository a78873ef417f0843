import Xkblas.Library.TileRange

/-!
# The tiles of a triangle

Two ranges of indices are cut into tiles. The pair of tiles `(k, k')` meets the triangle when it
has indices `i ≤ j`. `exists_le_iff` finds this from the tile sizes, and `staircase_iff` says when
the pairs that meet the triangle are those with `k ≤ k'`.
-/

namespace Xkblas.Library

variable {n n' b b' k k' kt kt' : ℕ}

/-- Two tiles meet the triangle when the first index of the one is below the end of the other. -/
theorem exists_le_iff (hb : 0 < b) (hb' : 0 < b') (hk : k < numTiles n b)
    (hk' : k' < numTiles n' b') :
    (∃ i ∈ tile n b k, ∃ j ∈ tile n' b' k', i ≤ j) ↔ k * b < min n' ((k' + 1) * b') := by
  have hstart := (lt_numTiles hb).mp hk
  have hstart' := (lt_numTiles hb').mp hk'
  constructor
  · rintro ⟨i, hi, j, hj, hle⟩
    obtain ⟨_, hidiv⟩ := mem_tile_iff.mp hi
    obtain ⟨hjn, hjdiv⟩ := mem_tile_iff.mp hj
    have hlow : k * b ≤ i := hidiv ▸ Nat.div_mul_le_self i b
    have hhigh : j < (k' + 1) * b' := by
      rw [← hjdiv, Nat.mul_comm]
      exact Nat.lt_mul_div_succ j hb'
    exact lt_min (by omega) (by omega)
  · intro hlt
    obtain ⟨hn', hend⟩ := lt_min_iff.mp hlt
    -- the first index of the one tile, the last index of the other
    refine ⟨k * b, mem_tile_iff.mpr ⟨hstart, Nat.mul_div_cancel k hb⟩,
      min n' ((k' + 1) * b') - 1, mem_tile_iff.mpr ⟨by omega, ?_⟩, by omega⟩
    rw [Nat.succ_mul] at hend ⊢
    refine (Nat.div_eq_iff hb').mpr ?_
    omega

/-- In the grid of `kt` by `kt'` tiles the tiles of the diagonal meet the triangle, and those next
to the diagonal on the other side do not. -/
structure Staircase (b kt n' b' kt' : ℕ) : Prop where
  diagonal : ∀ k, k < kt → k < kt' → k * b < min n' ((k + 1) * b')
  below : ∀ k, k + 1 < kt → k < kt' → min n' ((k + 1) * b') ≤ (k + 1) * b

/-- The tiles beside the diagonal decide for all tiles. -/
theorem staircase_iff :
    Staircase b kt n' b' kt' ↔
      ∀ k < kt, ∀ k' < kt', (k ≤ k' ↔ k * b < min n' ((k' + 1) * b')) := by
  constructor
  · intro h k hk k' hk'
    rcases le_or_gt k k' with hle | hlt
    · have hend : min n' ((k + 1) * b') ≤ min n' ((k' + 1) * b') :=
        min_le_min_left n' (Nat.mul_le_mul_right b' (by omega))
      exact ⟨fun _ => (h.diagonal k hk (by omega)).trans_le hend, fun _ => hle⟩
    · have hend := h.below k' (by omega) hk'
      have hstart : (k' + 1) * b ≤ k * b := Nat.mul_le_mul_right b hlt
      exact ⟨fun hle => absurd hle (by omega), fun hmeets => absurd hmeets (by omega)⟩
  · intro h
    constructor
    case diagonal => exact fun k hk hk' => (h k hk k hk').mp le_rfl
    case below =>
      intro k hk hk'
      exact not_lt.mp fun hlt => absurd ((h (k + 1) hk k hk').mpr hlt) (by omega)

/-- Tiles of one size in both directions make a staircase. -/
theorem staircase_of_square (hb : 0 < b) : Staircase b kt n' b (numTiles n' b) where
  diagonal := fun k _ hk => lt_min ((lt_numTiles hb).mp hk) (Nat.mul_lt_mul_of_pos_right
    (Nat.lt_succ_self k) hb)
  below := fun _ _ _ => min_le_right _ _

end Xkblas.Library
