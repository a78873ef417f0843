import Mathlib.Algebra.Order.Ring.Nat
import Mathlib.Data.Nat.Basic

/-!
# Blocks of memory at aligned addresses

Memory is divided into blocks of `B` bytes that start at the multiples of `B`, so that the block of
an address can be computed from the address. A region is a range of bytes.
-/

namespace Xkblas.Library

variable {B a b : ℕ}

/-- The start of the block of the address `a`. -/
def blockOf (B a : ℕ) : ℕ :=
  a / B * B

theorem blockOf_eq_iff (hB : 0 < B) (hb : B ∣ b) : blockOf B a = b ↔ b ≤ a ∧ a < b + B := by
  obtain ⟨k, rfl⟩ := hb
  unfold blockOf
  rw [mul_comm B k]
  constructor
  · intro h
    have hk : a / B = k := Nat.eq_of_mul_eq_mul_right hB h
    subst hk
    exact ⟨Nat.div_mul_le_self a B, Nat.lt_div_mul_add hB⟩
  · rintro ⟨hle, hlt⟩
    rw [Nat.div_eq_of_lt_le hle (by rwa [Nat.succ_mul])]

/-- An address is in its block. -/
theorem blockOf_spec (hB : 0 < B) (a : ℕ) : blockOf B a ≤ a ∧ a < blockOf B a + B :=
  ⟨Nat.div_mul_le_self a B, Nat.lt_div_mul_add hB⟩

/-- Two blocks that share an address are the same. -/
theorem block_unique {b' : ℕ} (hB : 0 < B) (hb : B ∣ b) (hb' : B ∣ b') (h : b ≤ a ∧ a < b + B)
    (h' : b' ≤ a ∧ a < b' + B) : b = b' :=
  ((blockOf_eq_iff hB hb).mpr h).symm.trans ((blockOf_eq_iff hB hb').mpr h')

/-- Different blocks do not overlap. -/
theorem block_apart {b' : ℕ} (hB : 0 < B) (hb : B ∣ b) (hb' : B ∣ b') (h : b ≠ b') :
    b + B ≤ b' ∨ b' + B ≤ b := by
  by_contra hover
  obtain ⟨hlt, hlt'⟩ := not_or.mp hover
  rcases le_total b b' with hle | hle
  · exact h (block_unique hB hb hb' ⟨hle, not_le.mp hlt⟩ ⟨le_refl b', by omega⟩)
  · exact h (block_unique hB hb hb' ⟨le_refl b, by omega⟩ ⟨hle, not_le.mp hlt'⟩)

/-- A range of bytes. -/
structure Region where
  start : ℕ
  size : ℕ
  deriving DecidableEq, Repr

/-- Two regions have no byte in common. -/
def Region.Apart (r r' : Region) : Prop :=
  min (r.start + r.size) (r'.start + r'.size) ≤ max r.start r'.start

instance (r r' : Region) : Decidable (r.Apart r') :=
  inferInstanceAs (Decidable (_ ≤ _))

/-- A region lies in the block at `b`, behind its header. -/
def Region.Inside (B header b : ℕ) (r : Region) : Prop :=
  b + header ≤ r.start ∧ r.start + r.size ≤ b + B

end Xkblas.Library
