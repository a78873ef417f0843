import Mathlib.Algebra.Order.Ring.Nat
import Mathlib.Tactic.Linarith
import Mathlib.Tactic.Ring

/-!
# Rounding to nearest, ties to even

`roundEven ulp n` is the multiple of `ulp` that is nearest to `n`, the even one of the two when
`n` is halfway between them. `roundBits p n` keeps `p` significant bits of `n`: this is the
conversion of a natural number to a binary floating point number of precision `p`, when its
exponent is in range. Both are monotone, and doubling is exact.
-/

namespace Xkblas.Library

variable {ulp k m n p : ℕ}

/-- The multiple of `ulp` nearest to `n`, ties to even. -/
def roundEven (ulp n : ℕ) : ℕ :=
  let quotient := n / ulp
  let rest := n % ulp
  if 2 * rest < ulp ∨ 2 * rest = ulp ∧ quotient % 2 = 0 then quotient * ulp
  else (quotient + 1) * ulp

/-- The rounding is one of the two multiples around the number. -/
theorem div_mul_le_roundEven : n / ulp * ulp ≤ roundEven ulp n := by
  unfold roundEven
  dsimp only
  split
  · exact le_rfl
  · exact Nat.mul_le_mul_right ulp (Nat.le_succ _)

theorem roundEven_le_succ : roundEven ulp n ≤ (n / ulp + 1) * ulp := by
  unfold roundEven
  dsimp only
  split
  · exact Nat.mul_le_mul_right ulp (Nat.le_succ _)
  · exact le_rfl

/-- A multiple of the unit is exact. -/
theorem roundEven_mul (hulp : 0 < ulp) : roundEven ulp (k * ulp) = k * ulp := by
  unfold roundEven
  dsimp only
  rw [Nat.mul_mod_left, Nat.mul_div_cancel k hulp, if_pos (.inl (by omega))]

/-- Rounding with one unit is monotone. -/
theorem roundEven_mono (hle : m ≤ n) : roundEven ulp m ≤ roundEven ulp n := by
  rcases (Nat.div_le_div_right hle : m / ulp ≤ n / ulp).eq_or_lt with heq | hlt
  · -- with one quotient, the rests are ordered as the numbers
    have hrest : m % ulp ≤ n % ulp := by
      have hm := Nat.div_add_mod m ulp
      have hn := Nat.div_add_mod n ulp
      rw [heq] at hm
      omega
    unfold roundEven
    dsimp only
    rw [heq]
    split_ifs with hdown hdown'
    · exact le_rfl
    · exact Nat.mul_le_mul_right ulp (Nat.le_succ _)
    · omega
    · exact le_rfl
  · calc roundEven ulp m ≤ (m / ulp + 1) * ulp := roundEven_le_succ
      _ ≤ n / ulp * ulp := Nat.mul_le_mul_right ulp hlt
      _ ≤ roundEven ulp n := div_mul_le_roundEven

/-- The unit and the number are doubled. -/
theorem roundEven_two_mul : roundEven (2 * ulp) (2 * n) = 2 * roundEven ulp n := by
  unfold roundEven
  dsimp only
  rw [Nat.mul_div_mul_left n ulp two_pos, Nat.mul_mod_mul_left]
  split_ifs with hdouble h h
  · ring
  · omega
  · omega
  · ring

/-- The number with `p` significant bits. -/
def roundBits (p n : ℕ) : ℕ :=
  roundEven (2 ^ (n.log2 + 1 - p)) n

/-- A number of at most `p` bits is exact. -/
theorem roundBits_of_lt (h : n.log2 < p) : roundBits p n = n := by
  have hexact := roundEven_mul (k := n) one_pos
  rw [Nat.mul_one] at hexact
  unfold roundBits
  rw [Nat.sub_eq_zero_of_le h, Nat.pow_zero, hexact]

/-- The rounding stays between the powers of two around the number. -/
theorem roundBits_le (hp : 0 < p) : roundBits p n ≤ 2 ^ (n.log2 + 1) := by
  have hunit : 2 ^ (n.log2 + 1) =
      2 ^ (n.log2 + 1 - (n.log2 + 1 - p)) * 2 ^ (n.log2 + 1 - p) := by
    rw [← pow_add]
    congr 1
    omega
  have hle : roundEven (2 ^ (n.log2 + 1 - p)) n ≤ roundEven _ (2 ^ (n.log2 + 1)) :=
    roundEven_mono Nat.lt_log2_self.le
  rwa [hunit, roundEven_mul (Nat.two_pow_pos _), ← hunit] at hle

theorem le_roundBits (hp : 0 < p) (hn : n ≠ 0) : 2 ^ n.log2 ≤ roundBits p n := by
  have hunit : 2 ^ n.log2 = 2 ^ (n.log2 - (n.log2 + 1 - p)) * 2 ^ (n.log2 + 1 - p) := by
    rw [← pow_add]
    congr 1
    omega
  have hle : roundEven _ (2 ^ n.log2) ≤ roundEven (2 ^ (n.log2 + 1 - p)) n :=
    roundEven_mono (Nat.log2_self_le hn)
  rwa [hunit, roundEven_mul (Nat.two_pow_pos _), ← hunit] at hle

/-- Keeping `p` bits is monotone. -/
theorem roundBits_mono (hp : 0 < p) (hle : m ≤ n) : roundBits p m ≤ roundBits p n := by
  rcases Nat.eq_zero_or_pos m with rfl | hm
  · rw [roundBits_of_lt (by rwa [Nat.log2_zero])]
    exact Nat.zero_le _
  · have hlog : m.log2 ≤ n.log2 :=
      (Nat.le_log2 (by omega)).mpr ((Nat.log2_self_le hm.ne').trans hle)
    rcases hlog.eq_or_lt with heq | hlt
    · unfold roundBits
      rw [heq]
      exact roundEven_mono hle
    · -- a power of two lies between the numbers
      calc roundBits p m ≤ 2 ^ (m.log2 + 1) := roundBits_le hp
        _ ≤ 2 ^ n.log2 := Nat.pow_le_pow_right two_pos hlt
        _ ≤ roundBits p n := le_roundBits hp (by omega)

/-- Doubling commutes with keeping `p` bits. -/
theorem roundBits_two_mul : roundBits p (2 * n) = 2 * roundBits p n := by
  rcases Nat.eq_zero_or_pos n with rfl | hn
  · simp [roundBits, roundEven]
  · have hlog : (2 * n).log2 = n.log2 + 1 := Nat.log2_two_mul hn.ne'
    rcases Nat.lt_or_ge (n.log2 + 1) p with hsmall | hlarge
    · rw [roundBits_of_lt (by omega), roundBits_of_lt (by omega)]
    · unfold roundBits
      rw [hlog, show n.log2 + 1 + 1 - p = n.log2 + 1 - p + 1 by omega, Nat.pow_succ,
        Nat.mul_comm _ 2, roundEven_two_mul]

end Xkblas.Library
