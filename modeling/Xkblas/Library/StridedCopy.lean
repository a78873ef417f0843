import Mathlib.Algebra.Order.Ring.Nat
import Mathlib.Data.List.Range
import Mathlib.Tactic.Ring

/-!
# Strided copies

A memory gives a value for each address. `memcpy` copies a contiguous range from one memory to
another, and `copyRows` copies `height` such ranges of `width` values, whose starts are a pitch
apart in each memory. Rows that overlap are written in order.
-/

namespace Xkblas.Library

variable {β : Type*} {mem src : ℕ → β} {d s n a height width dpitch spitch r c : ℕ}

/-- `n` values from the address `s` of `src` to the address `d` of `mem`. -/
def memcpy (mem src : ℕ → β) (d s n : ℕ) : ℕ → β :=
  fun a => if d ≤ a ∧ a < d + n then src (s + (a - d)) else mem a

theorem memcpy_inside (hc : c < n) : memcpy mem src d s n (d + c) = src (s + c) := by
  unfold memcpy
  rw [if_pos ⟨Nat.le_add_right d c, by omega⟩, Nat.add_sub_cancel_left]

theorem memcpy_outside (h : ¬ (d ≤ a ∧ a < d + n)) : memcpy mem src d s n a = mem a :=
  if_neg h

theorem memcpy_zero : memcpy mem src d s 0 = mem :=
  funext fun _ => memcpy_outside (by omega)

/-- The first `height` rows of `width` values. -/
def copyRows (mem src : ℕ → β) (height width d dpitch s spitch : ℕ) : ℕ → β :=
  (List.range height).foldl
    (fun mem i => memcpy mem src (d + i * dpitch) (s + i * spitch) width) mem

theorem copyRows_succ :
    copyRows mem src (height + 1) width d dpitch s spitch =
      memcpy (copyRows mem src height width d dpitch s spitch) src (d + height * dpitch)
        (s + height * spitch) width := by
  unfold copyRows
  rw [List.range_succ, List.foldl_append]
  rfl

theorem copyRows_one : copyRows mem src 1 width d dpitch s spitch = memcpy mem src d s width := by
  rw [copyRows_succ, Nat.zero_mul, Nat.zero_mul, Nat.add_zero, Nat.add_zero]
  rfl

/-- The address is in the row `r`. -/
def InRow (width d dpitch r a : ℕ) : Prop :=
  d + r * dpitch ≤ a ∧ a < d + r * dpitch + width

/-- What is in no row is kept. -/
theorem copyRows_outside (h : ∀ r < height, ¬ InRow width d dpitch r a) :
    copyRows mem src height width d dpitch s spitch a = mem a := by
  induction height with
  | zero => rfl
  | succ height ih =>
      rw [copyRows_succ, memcpy_outside (h height (Nat.lt_succ_self height))]
      exact ih fun r hr => h r (Nat.lt_succ_of_lt hr)

/-- The last row that has the address gives its value. -/
theorem copyRows_last (hr : r < height) (hc : c < width)
    (hlast : ∀ r', r < r' → r' < height → ¬ InRow width d dpitch r' (d + r * dpitch + c)) :
    copyRows mem src height width d dpitch s spitch (d + r * dpitch + c) =
      src (s + r * spitch + c) := by
  induction height with
  | zero => exact absurd hr (Nat.not_lt_zero r)
  | succ height ih =>
      rw [copyRows_succ]
      rcases (Nat.lt_succ_iff_lt_or_eq.mp hr) with hlt | rfl
      · rw [memcpy_outside (hlast height hlt (Nat.lt_succ_self height))]
        exact ih hlt fun r' hr' hlt' => hlast r' hr' (Nat.lt_succ_of_lt hlt')
      · exact memcpy_inside hc

/-- The first value stays when the later rows start after it. -/
theorem copyRows_start (hheight : 0 < height) (hwidth : 0 < width)
    (hlater : height = 1 ∨ 0 < dpitch) :
    copyRows mem src height width d dpitch s spitch d = src s := by
  have hlast : ∀ r, 0 < r → r < height → ¬ InRow width d dpitch r (d + 0 * dpitch + 0) := by
    intro r hr hlt hin
    have hfirst := hin.1
    rcases hlater with hone | hpitch
    · omega
    · have hpos := Nat.mul_pos hr hpitch
      omega
  have hstart : copyRows mem src height width d dpitch s spitch (d + 0 * dpitch + 0) =
      src (s + 0 * spitch + 0) := copyRows_last hheight hwidth hlast
  simpa using hstart

/-- Rows without a gap are one contiguous range. -/
theorem copyRows_packed :
    copyRows mem src height width d width s width = memcpy mem src d s (height * width) := by
  induction height with
  | zero => rw [Nat.zero_mul, memcpy_zero]; rfl
  | succ height ih =>
      rw [copyRows_succ, ih, Nat.succ_mul]
      funext a
      unfold memcpy
      by_cases hlast : d + height * width ≤ a ∧ a < d + height * width + width
      · rw [if_pos hlast, if_pos (by omega)]
        congr 1
        omega
      · rw [if_neg hlast]
        refine if_congr ?_ rfl rfl
        omega

/-- A row of words has a word when the row of their bytes has its first byte. -/
theorem InRow.words {pitch index w : ℕ}
    (h : InRow (width * w) 0 (pitch * w) r (index * w)) :
    r * pitch ≤ index ∧ index < r * pitch + width := by
  obtain ⟨hfirst, hlast⟩ := h
  have hstart : 0 + r * (pitch * w) = r * pitch * w := by ring
  have hend : r * pitch * w + width * w = (r * pitch + width) * w := by ring
  rw [hstart] at hfirst
  rw [hstart, hend] at hlast
  have hw : 0 < w := Nat.pos_of_ne_zero fun hzero => by
    rw [hzero, Nat.mul_zero, Nat.mul_zero] at hlast
    exact absurd hlast (Nat.lt_irrefl 0)
  exact ⟨Nat.le_of_mul_le_mul_right hfirst hw, Nat.lt_of_mul_lt_mul_right hlast⟩

/-- The rows of a view that is stored by columns miss an element, unless the columns are single
elements. -/
theorem exists_missed {size0 size1 ld : ℕ} (h0 : 0 < size0) (h1 : 0 < size1) (hne : size0 ≠ size1)
    (hld : size0 ≤ ld) (hlong : 1 < ld) :
    ∃ i < size0, ∃ j < size1, ∀ r < size0,
      ¬ (r * ld ≤ i + j * ld ∧ i + j * ld < r * ld + size1) := by
  rcases Nat.lt_or_gt_of_ne hne with hlt | hgt
  · -- a wide view: the last element is behind the last row
    refine ⟨size0 - 1, by omega, size1 - 1, by omega, fun r hr hin => ?_⟩
    have hlast : r * ld ≤ (size0 - 1) * ld := Nat.mul_le_mul_right ld (by omega)
    obtain ⟨k, hk⟩ : ∃ k, size1 - 1 = (size0 - 1) + (k + 1) := ⟨size1 - size0 - 1, by omega⟩
    have hsplit : (size1 - 1) * ld = (size0 - 1) * ld + k * ld + ld := by rw [hk]; ring
    have hgap : k * 2 ≤ k * ld := Nat.mul_le_mul_left k hlong
    have hin := hin.2
    omega
  · -- a tall view: the first row does not reach the end of the first column
    refine ⟨size0 - 1, by omega, 0, h1, fun r hr hin => ?_⟩
    rw [Nat.zero_mul, Nat.add_zero] at hin
    rcases Nat.eq_zero_or_pos r with hzero | hpos
    · rw [hzero, Nat.zero_mul] at hin
      omega
    · have hnext : 1 * ld ≤ r * ld := Nat.mul_le_mul_right ld hpos
      omega

end Xkblas.Library
