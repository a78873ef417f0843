import Mathlib.Algebra.Group.Int.Defs
import Mathlib.Algebra.Group.Nat.Defs
import Mathlib.Data.Int.Basic

/-!
# Machine integers

The values that variables of the types `int32_t`, `uint32_t` and `uint64_t` take. An integer in the
range of the type is kept. `checkedInt` is for the operations of the type `int`, which are undefined
when they overflow.
-/

namespace Xkblas.Library

/-- The value that an `int32_t` takes for the integer `x`. -/
def int32 (x : ℤ) : ℤ :=
  (x + 2 ^ 31) % 2 ^ 32 - 2 ^ 31

/-- The value that a `uint32_t` takes for the integer `x`. -/
def uint32 (x : ℤ) : ℕ :=
  (x % 2 ^ 32).toNat

/-- The value that a `uint64_t` takes for the integer `x`. -/
def uint64 (x : ℤ) : ℕ :=
  (x % 2 ^ 64).toNat

/-- The result of an operation of the type `int`, where it is defined. -/
def checkedInt (x : ℤ) : Option ℤ :=
  if 0 ≤ x + 2 ^ 31 ∧ x < 2 ^ 31 then some x else none

theorem checkedInt_of_lt {i : ℤ} (hlo : 0 ≤ i + 2 ^ 31) (hhi : i < 2 ^ 31) :
    checkedInt i = some i :=
  if_pos ⟨hlo, hhi⟩

theorem checkedInt_eq_some {i j : ℤ} (h : checkedInt i = some j) :
    j = i ∧ 0 ≤ i + 2 ^ 31 ∧ i < 2 ^ 31 := by
  unfold checkedInt at h
  split at h
  case isTrue hrange => exact ⟨(Option.some.inj h).symm, hrange⟩
  case isFalse => cases h

theorem int32_of_lt {i : ℤ} (hlo : 0 ≤ i + 2 ^ 31) (hhi : i < 2 ^ 31) : int32 i = i := by
  unfold int32
  omega

theorem uint32_of_lt {i : ℤ} (hlo : 0 ≤ i) (hhi : i < 2 ^ 32) : uint32 i = i.toNat := by
  unfold uint32
  omega

theorem uint64_of_lt {i : ℤ} (hlo : 0 ≤ i) (hhi : i < 2 ^ 64) : uint64 i = i.toNat := by
  unfold uint64
  omega

/-- The successor of a counter that does not wrap. -/
theorem uint64_succ {n : ℕ} (h : n + 1 < 2 ^ 64) : uint64 (n + 1) = n + 1 := by
  rw [uint64_of_lt (by omega) (by omega)]
  omega

/-- The distance of two counters. -/
theorem uint64_sub {m n : ℕ} (hle : m ≤ n) (h : n < 2 ^ 64) : uint64 (n - m) = n - m := by
  rw [uint64_of_lt (by omega) (by omega)]
  omega

end Xkblas.Library
