import Xkblas.Blas.Niv12
import Xkblas.Library.ColumnMajor
import Mathlib.Algebra.Group.Basic
import Mathlib.Algebra.Order.Group.Int

/-!
# What the extend-add kernel adds

For every order of the thread blocks and of the threads between two barriers, the kernel adds to
each element of the front that the lower triangle of the son goes to one element of the son, and
leaves the others alone (`kernel_adds`). The element of the son that is added is the one at the
value of the variable `id_son`, which is of type `int`: it is the element `(i, j)` for every
`j <= i` exactly when the largest position in the son is below `2 ^ 31`.
-/

namespace Xkblas.Blas.Niv12

open Library

/-- The arguments that the caller passes: the indices increase, and are those of columns of the
front. -/
structure Valid (a : Args) : Prop where
  nelim : a.nelim = 0
  nfront_pos : 1 ≤ a.nfront
  nfront_lt : a.nfront < 2 ^ 31
  nrows_nonneg : 0 ≤ a.nrows
  nrows_le : a.nrows ≤ a.ncols
  ncols_lt : a.ncols < 2 ^ 31
  IW_pos : ∀ i, 0 ≤ i → i < a.nrows → 1 ≤ a.IW i
  IW_le : ∀ i, 0 ≤ i → i < a.nrows → a.IW i ≤ a.nfront
  IW_mono : ∀ i j, 0 ≤ i → i < j → j < a.nrows → a.IW i < a.IW j

/-- The row and the column of the front that the index `i` goes to. -/
def Args.at (a : Args) (i : ℤ) : ℕ :=
  (a.IW i - 1).toNat

/-- The element of the front that the element `(i, j)` of the son goes to. -/
def Args.target (a : Args) (i j : ℤ) : ℕ :=
  a.at i * a.nfront.toNat + a.at j

/-- The position of the element `(i, j)` in the son. -/
def Args.sonIndex (a : Args) (i j : ℤ) : ℤ :=
  if a.cb_compressed ≠ 0 then i * (i + 1) / 2 + j else i * a.ncols + j

variable {α : Type*} {a : Args} {i j : ℤ} {block : Block} {thread : ℕ}

/-! ## The indices -/

theorem Valid.at_eq (h : Valid a) (hi : 0 ≤ i) (hlt : i < a.nrows) : (a.at i : ℤ) = a.IW i - 1 := by
  have hpos := h.IW_pos i hi hlt
  unfold Args.at
  omega

theorem Valid.at_lt (h : Valid a) (hi : 0 ≤ i) (hlt : i < a.nrows) : a.at i < a.nfront.toNat := by
  have heq := h.at_eq hi hlt
  have hle := h.IW_le i hi hlt
  omega

theorem Valid.at_mono (h : Valid a) (hi : 0 ≤ i) (hij : i ≤ j) (hlt : j < a.nrows) :
    (a.at i : ℤ) + (j - i) ≤ a.at j := by
  induction j, hij using Int.leInduction with
  | base => omega
  | succ j hij ih =>
      have hstep := h.IW_mono j (j + 1) (by omega) (by omega) hlt
      have hprev := h.at_eq (i := j) (by omega) (by omega)
      have hnext := h.at_eq (i := j + 1) (by omega) hlt
      have hle := ih (by omega)
      omega

theorem Valid.at_inj (h : Valid a) (hi : 0 ≤ i) (hilt : i < a.nrows) (hj : 0 ≤ j)
    (hjlt : j < a.nrows) (heq : a.at i = a.at j) : i = j := by
  rcases lt_trichotomy i j with hlt | heq' | hlt
  · have hle := h.at_mono hi hlt.le hjlt
    omega
  · exact heq'
  · have hle := h.at_mono hj hlt.le hilt
    omega

theorem Valid.column_eq (h : Valid a) (hi : 0 ≤ i) (hlt : i < a.nrows) :
    a.column i = a.at i / blockDim := by
  have heq := h.at_eq hi hlt
  have hle := h.IW_le i hi hlt
  have hfront := h.nfront_lt
  unfold Args.column
  rw [← heq, uint32_of_lt (by omega) (by omega), Int.toNat_natCast]

/-! ## The ranges of the host -/

/-- The ranges after the indices before `n`. -/
structure Ranged (a : Args) (n : ℕ) (ranges : Ranges) : Prop where
  empty : ∀ x, ranges.starts x = -1 → ∀ i < n, a.column i ≠ x
  ends : ∀ x, ranges.starts x ≠ -1 → 0 ≤ ranges.starts x ∧ ranges.stops x < n ∧
    ranges.starts x ≤ ranges.stops x ∧ a.column (ranges.starts x) = x ∧
    a.column (ranges.stops x) = x
  within : ∀ i < n, ranges.starts (a.column i) ≤ i ∧ (i : ℤ) ≤ ranges.stops (a.column i)

theorem ranged_visit {n : ℕ} {ranges : Ranges} (h : Ranged a n ranges) :
    Ranged a (n + 1) (a.visit ranges n) := by
  have hstart : ∀ x, x ≠ a.column n → (a.visit ranges n).starts x = ranges.starts x := by
    intro x hx
    simp only [Args.visit]
    split
    · exact Function.update_of_ne hx _ _
    · rfl
  have hstop : ∀ x, x ≠ a.column n → (a.visit ranges n).stops x = ranges.stops x :=
    fun x hx => Function.update_of_ne hx _ _
  have hlast : (a.visit ranges n).stops (a.column n) = n := Function.update_self _ _ _
  have hfirst : (a.visit ranges n).starts (a.column n) =
      if ranges.starts (a.column n) = -1 then (n : ℤ) else ranges.starts (a.column n) := by
    simp only [Args.visit]
    split
    · exact Function.update_self _ _ _
    · rfl
  constructor
  case empty =>
    intro x hempty i hi heq
    by_cases hx : x = a.column n
    · subst hx
      rw [hfirst] at hempty
      split at hempty
      · omega
      · contradiction
    · rw [hstart x hx] at hempty
      rcases Nat.lt_succ_iff_lt_or_eq.mp hi with hi | rfl
      · exact h.empty x hempty i hi heq
      · exact hx heq.symm
  case ends =>
    intro x hfull
    by_cases hx : x = a.column n
    · subst hx
      rw [hlast, hfirst]
      split
      · exact ⟨by omega, by omega, le_rfl, rfl, rfl⟩
      case isFalse hne =>
        obtain ⟨hnonneg, hlt, hle, hcol, -⟩ := h.ends _ hne
        exact ⟨hnonneg, by omega, by omega, hcol, rfl⟩
    · rw [hstart x hx] at hfull
      obtain ⟨hnonneg, hlt, hle, hcols⟩ := h.ends x hfull
      rw [hstart x hx, hstop x hx]
      exact ⟨hnonneg, by omega, hle, hcols⟩
  case within =>
    intro i hi
    by_cases hx : a.column i = a.column n
    · rw [hx, hlast, hfirst]
      refine ⟨?_, by omega⟩
      split
      case isTrue hnone =>
        rcases Nat.lt_succ_iff_lt_or_eq.mp hi with hi | rfl
        · exact absurd hx (h.empty _ hnone i hi)
        · exact le_rfl
      case isFalse hne =>
        rcases Nat.lt_succ_iff_lt_or_eq.mp hi with hi | rfl
        · exact hx ▸ (h.within i hi).1
        · obtain ⟨-, hlt, hle, -⟩ := h.ends _ hne
          omega
    · rw [hstart _ hx, hstop _ hx]
      rcases Nat.lt_succ_iff_lt_or_eq.mp hi with hi | rfl
      · exact h.within i hi
      · exact absurd rfl hx

theorem ranged_foldl (n : ℕ) : Ranged a n
    ((List.range n).foldl a.visit { starts := fun _ => -1, stops := fun _ => -1 }) := by
  induction n with
  | zero =>
      constructor
      case empty => exact fun _ _ i hi => absurd hi (Nat.not_lt_zero i)
      case ends => exact fun _ hne => absurd rfl hne
      case within => exact fun i hi => absurd hi (Nat.not_lt_zero i)
  | succ n ih =>
      rw [List.range_succ, List.foldl_append]
      exact ranged_visit ih

/-- The indices that fall into the columns of a block, when there are some. -/
structure Valid.Covers (a : Args) (x : ℕ) : Prop where
  nonneg : 0 ≤ a.ranges.starts x
  le : a.ranges.starts x ≤ a.ranges.stops x
  lt : a.ranges.stops x < a.nrows
  /-- They fit in a block. -/
  length : a.ranges.stops x - a.ranges.starts x < blockDim
  mem_iff : ∀ j, a.ranges.starts x ≤ j ∧ j ≤ a.ranges.stops x ↔
    (0 ≤ j ∧ j < a.nrows) ∧ a.column j = x

theorem Valid.covers (h : Valid a) {x : ℕ} (hne : a.ranges.starts x ≠ -1) : Valid.Covers a x := by
  have hranged : Ranged a a.nrows.toNat a.ranges := ranged_foldl _
  have hrows := h.nrows_nonneg
  obtain ⟨hnonneg, hlt, hle, hfirst, hlast⟩ := hranged.ends x hne
  rw [h.column_eq hnonneg (by omega)] at hfirst
  rw [h.column_eq (by omega) (by omega)] at hlast
  simp only [blockDim] at hfirst hlast
  have hspread := h.at_mono hnonneg hle (by omega)
  constructor
  case nonneg => exact hnonneg
  case le => exact hle
  case lt => omega
  case length =>
    unfold blockDim
    omega
  case mem_iff =>
    intro j
    constructor
    · intro hj
      obtain ⟨hstart, hstop⟩ := hj
      have hlow := h.at_mono hnonneg hstart (by omega)
      have hhigh := h.at_mono (by omega) hstop (by omega)
      refine ⟨by omega, ?_⟩
      rw [h.column_eq (by omega) (by omega)]
      unfold blockDim
      omega
    · intro hj
      obtain ⟨⟨hj, hjlt⟩, hcol⟩ := hj
      have hwithin := hranged.within j.toNat (by omega)
      rw [Int.toNat_of_nonneg hj, hcol] at hwithin
      exact hwithin

theorem Valid.not_covers (h : Valid a) {x : ℕ} (hnone : a.ranges.starts x = -1) (hj : 0 ≤ j)
    (hjlt : j < a.nrows) : a.column j ≠ x := by
  have hrows := h.nrows_nonneg
  have hranged : Ranged a a.nrows.toNat a.ranges := ranged_foldl _
  have hempty := hranged.empty x hnone j.toNat (by omega)
  rwa [Int.toNat_of_nonneg hj] at hempty

/-! ## The indices of the kernel -/

theorem Valid.gridX_eq (h : Valid a) : a.gridX = (a.nfront.toNat + 511) / 512 := by
  have hpos := h.nfront_pos
  have hlt := h.nfront_lt
  unfold Args.gridX blockDim
  rw [uint32_of_lt (i := a.nfront) (by omega) (by omega), uint32_of_lt (by omega) (by omega)]
  omega

theorem Valid.gridY_eq (h : Valid a) : a.gridY = a.nrows.toNat := by
  have hpos := h.nrows_nonneg
  have hle := h.nrows_le
  have hlt := h.ncols_lt
  unfold Args.gridY
  rw [uint32_of_lt (i := a.nrows) (by omega) (by omega), uint32_of_lt (by omega) (by omega)]
  omega

/-- A block of the grid. -/
structure InGrid (a : Args) (block : Block) : Prop where
  x : block.x < a.gridX
  y : (block.y : ℤ) < a.nrows

theorem Valid.mem_grid (h : Valid a) : block ∈ a.grid ↔ InGrid a block := by
  have hy := h.gridY_eq
  have hrows := h.nrows_nonneg
  simp only [Args.grid, List.mem_flatMap, List.mem_map, List.mem_range]
  constructor
  · intro hmem
    obtain ⟨y, hylt, x, hxlt, rfl⟩ := hmem
    exact ⟨hxlt, show (y : ℤ) < a.nrows by omega⟩
  · intro hin
    have hylt := hin.y
    exact ⟨block.y, by omega, block.x, hin.x, rfl⟩

theorem Valid.block_column (h : Valid a) (hin : InGrid a block) (hthread : thread < blockDim) :
    block.column thread = 512 * block.x + thread := by
  have hx := hin.x
  have hlt := h.nfront_lt
  rw [h.gridX_eq] at hx
  unfold blockDim at hthread
  unfold Block.column blockDim
  rw [uint32_of_lt (by omega) (by omega)]
  omega

theorem Valid.inFront_iff (h : Valid a) (hin : InGrid a block) (hthread : thread < blockDim) :
    a.inFront block thread ↔ 512 * block.x + thread < a.nfront.toNat := by
  have hpos := h.nfront_pos
  have hlt := h.nfront_lt
  unfold Args.inFront
  rw [h.block_column hin hthread, uint64_of_lt (by omega) (by omega)]

/-- The element of the front that a thread loads and stores. -/
theorem Valid.position_eq (h : Valid a) (hin : InGrid a block) (hthread : thread < blockDim)
    (hfront : 512 * block.x + thread < a.nfront.toNat) :
    a.position block thread = a.at block.y * a.nfront.toNat + (512 * block.x + thread) := by
  have hpos := h.nfront_pos
  have hlt := h.nfront_lt
  have hat := h.at_eq (i := block.y) (by omega) hin.y
  have hrow : a.row block = a.at block.y := by
    have hrowlt := h.at_lt (i := block.y) (by omega) hin.y
    unfold Args.row
    rw [← hat, uint64_of_lt (by omega) (by omega), Int.toNat_natCast]
  have hsize : a.at block.y * a.nfront.toNat ≤ 2 ^ 31 * 2 ^ 31 := by
    have hrowlt := h.at_lt (i := block.y) (by omega) hin.y
    exact Nat.mul_le_mul (by omega) (by omega)
  unfold Args.position
  rw [h.block_column hin hthread, hrow, uint64_of_lt (i := a.nfront) (by omega) (by omega)]
  generalize hm : a.at block.y * a.nfront.toNat = m at hsize
  rw [← Int.natCast_mul, hm, uint64_of_lt (by omega) (by omega)]
  omega

theorem Valid.j_eq (h : Valid a) (hcovers : Valid.Covers a block.x)
    (hle : a.ranges.starts block.x + thread ≤ a.ranges.stops block.x) :
    a.ranges.j block thread = a.ranges.starts block.x + thread := by
  have hnonneg := hcovers.nonneg
  have hlt := hcovers.lt
  have hrows := h.nrows_le
  have hcols := h.ncols_lt
  unfold Ranges.j
  rw [uint32_of_lt (by omega) (by omega), int32_of_lt (by omega) (by omega)]
  omega

/-- A thread adds the element of the column `start + threadIdx.x` of the son, if this is a column
of the block and of the lower triangle. -/
theorem Valid.adds_iff (h : Valid a) (hcovers : Valid.Covers a block.x) :
    a.ranges.adds block thread ↔
      a.ranges.starts block.x + thread ≤ a.ranges.stops block.x ∧
        a.ranges.starts block.x + thread ≤ block.y := by
  have hnonneg := hcovers.nonneg
  have hle := hcovers.le
  have hlt := hcovers.lt
  have hlength := hcovers.length
  have hrows := h.nrows_le
  have hcols := h.ncols_lt
  unfold blockDim at hlength
  unfold Ranges.adds
  have hcount : thread <
      uint32 (int32 (a.ranges.stops block.x - a.ranges.starts block.x + 1)) ↔
      a.ranges.starts block.x + thread ≤ a.ranges.stops block.x := by
    rw [int32_of_lt (by omega) (by omega), uint32_of_lt (by omega) (by omega)]
    omega
  rw [hcount]
  refine and_congr_right fun hle => ?_
  rw [h.j_eq hcovers hle, uint64_of_lt (by omega) (by omega)]
  omega

theorem Valid.apos_eq (h : Valid a) (hj : 0 ≤ j) (hjlt : j < a.nrows)
    (hcol : a.column j = block.x) : a.apos block j = a.at j - 512 * block.x := by
  have hat := h.at_eq hj hjlt
  have hfront := h.at_lt hj hjlt
  have hlt := h.nfront_lt
  rw [h.column_eq hj hjlt] at hcol
  unfold blockDim at hcol
  unfold Args.apos blockDim
  rw [← hat, uint32_of_lt (by omega) (by omega), int32_of_lt (by omega) (by omega)]
  omega

/-! ## One block -/

section Block

variable [Add α] (A_SON : ℤ → α) {schedule : Schedule α} {p : ℕ}

theorem mem_threads {threads : List ℕ} (h : threads.Perm (List.range blockDim)) :
    thread ∈ threads ↔ thread < blockDim := by
  rw [h.mem_iff, List.mem_range]

omit [Add α] in
/-- The elements of the front that a block loads are in the shared memory after the first
barrier. -/
theorem Valid.loaded (h : Valid a) (hcomplete : schedule.Complete a) (hin : InGrid a block)
    (hthread : thread < blockDim) (hfront : 512 * block.x + thread < a.nfront.toNat)
    (A : ℕ → α) :
    (schedule.run block).load.foldl
      (scatter (a.inFront block) (fun thread => (thread : ℤ))
        fun thread _ => A (a.position block thread)) (schedule.run block).SA thread =
      A (a.at block.y * a.nfront.toNat + (512 * block.x + thread)) := by
  have hload := hcomplete.load block
  rw [← h.position_eq hin hthread hfront]
  exact foldl_scatter (a.inFront block) (fun thread => (thread : ℤ))
    (fun thread _ => A (a.position block thread)) (hload.nodup_iff.mpr List.nodup_range)
    (fun t _ u _ _ _ heq => Int.ofNat.inj heq) ((mem_threads hload).mpr hthread)
    ((h.inFront_iff hin hthread).mpr hfront) _

/-- The elements of the front to which the block adds. -/
def Args.touched (a : Args) (block : Block) : Set ℕ :=
  {p | ∃ j : ℤ, (0 ≤ j ∧ j ≤ block.y) ∧ a.column j = block.x ∧ p = a.target block.y j}

/-- The place of a column of the son in the shared memory. -/
theorem Valid.place (h : Valid a) (hin : InGrid a block) (hj : 0 ≤ j) (hjy : j ≤ block.y)
    (hcol : a.column j = block.x) :
    ∃ thread < blockDim, a.at j = 512 * block.x + thread ∧
      512 * block.x + thread < a.nfront.toNat ∧ a.apos block j = thread := by
  have hjlt : j < a.nrows := lt_of_le_of_lt hjy hin.y
  have hfront := h.at_lt hj hjlt
  have hapos := h.apos_eq hj hjlt hcol
  rw [h.column_eq hj hjlt] at hcol
  unfold blockDim at hcol ⊢
  exact ⟨a.at j - 512 * block.x, by omega, by omega, by omega, by omega⟩

/-- The shared memory after the second barrier, at the place of an element that is added to. -/
theorem Valid.processed_of_mem (h : Valid a) (hcomplete : schedule.Complete a)
    (hin : InGrid a block) (hj : 0 ≤ j) (hjy : j ≤ block.y) (hcol : a.column j = block.x)
    (SA : ℤ → α) :
    (schedule.run block).process.foldl
      (scatter (a.ranges.adds block) (fun thread => a.apos block (a.ranges.j block thread))
        fun thread v => v + A_SON (a.idSon block.y (a.ranges.j block thread))) SA
      (a.apos block j) =
      SA (a.apos block j) + A_SON (a.idSon block.y j) := by
  have hjlt : j < a.nrows := lt_of_le_of_lt hjy hin.y
  have hcovers : Valid.Covers a block.x :=
    h.covers fun hnone => h.not_covers hnone hj hjlt hcol
  obtain ⟨hstart, hstop⟩ := (hcovers.mem_iff j).mpr ⟨⟨hj, hjlt⟩, hcol⟩
  have hlength := hcovers.length
  -- The thread of the column `j`.
  obtain ⟨thread, hthread⟩ := Int.eq_ofNat_of_zero_le (sub_nonneg.mpr hstart)
  have hprocess := hcomplete.process block
  have hjeq : a.ranges.j block thread = j := by
    rw [h.j_eq hcovers (by omega)]
    omega
  have hadds : a.ranges.adds block thread := (h.adds_iff hcovers).mpr ⟨by omega, by omega⟩
  have hinj : ∀ t ∈ (schedule.run block).process, ∀ u ∈ (schedule.run block).process,
      a.ranges.adds block t → a.ranges.adds block u →
      a.apos block (a.ranges.j block t) = a.apos block (a.ranges.j block u) → t = u := by
    intro t _ u _ ht hu heq
    obtain ⟨htstop, -⟩ := (h.adds_iff hcovers).mp ht
    obtain ⟨hustop, -⟩ := (h.adds_iff hcovers).mp hu
    obtain ⟨⟨ht0, htlt⟩, htcol⟩ :=
      (hcovers.mem_iff (a.ranges.starts block.x + t)).mp ⟨by omega, htstop⟩
    obtain ⟨⟨hu0, hult⟩, hucol⟩ :=
      (hcovers.mem_iff (a.ranges.starts block.x + u)).mp ⟨by omega, hustop⟩
    rw [h.j_eq hcovers htstop, h.j_eq hcovers hustop, h.apos_eq ht0 htlt htcol,
      h.apos_eq hu0 hult hucol] at heq
    have hsame := h.at_inj ht0 htlt hu0 hult (by omega)
    omega
  have hscatter := foldl_scatter (a.ranges.adds block)
    (fun thread => a.apos block (a.ranges.j block thread))
    (fun thread v => v + A_SON (a.idSon block.y (a.ranges.j block thread)))
    (hprocess.nodup_iff.mpr List.nodup_range) hinj
    ((mem_threads hprocess).mpr (by omega)) hadds SA
  simp only [hjeq] at hscatter
  exact hscatter

/-- The shared memory after the second barrier, at a place where nothing is added. -/
theorem Valid.processed_of_notMem (h : Valid a)
    (hfull : a.ranges.starts block.x ≠ -1)
    (hp : a.at block.y * a.nfront.toNat + (512 * block.x + thread) ∉ a.touched block)
    (SA : ℤ → α) :
    (schedule.run block).process.foldl
      (scatter (a.ranges.adds block) (fun thread => a.apos block (a.ranges.j block thread))
        fun thread v => v + A_SON (a.idSon block.y (a.ranges.j block thread))) SA thread =
      SA thread := by
  have hcovers := h.covers hfull
  refine foldl_scatter_of_ne (fun t _ ht heq => hp ?_) SA
  obtain ⟨hstop, hy⟩ := (h.adds_iff hcovers).mp ht
  obtain ⟨⟨h0, hlt⟩, hcol⟩ :=
    (hcovers.mem_iff (a.ranges.starts block.x + t)).mp ⟨by omega, hstop⟩
  rw [h.j_eq hcovers hstop, h.apos_eq h0 hlt hcol] at heq
  refine ⟨a.ranges.starts block.x + t, ⟨h0, hy⟩, hcol, ?_⟩
  unfold Args.target
  omega

omit [Add α] in
/-- The threads of a block store distinct elements. -/
theorem Valid.position_inj (h : Valid a) (hcomplete : schedule.Complete a)
    (hin : InGrid a block) :
    ∀ t ∈ (schedule.run block).store, ∀ u ∈ (schedule.run block).store,
      a.inFront block t → a.inFront block u →
      a.position block t = a.position block u → t = u := by
  intro t ht u hu htfront hufront heq
  have hstore := hcomplete.store block
  have htlt := (mem_threads hstore).mp ht
  have hult := (mem_threads hstore).mp hu
  rw [h.position_eq hin htlt ((h.inFront_iff hin htlt).mp htfront),
    h.position_eq hin hult ((h.inFront_iff hin hult).mp hufront)] at heq
  omega

/-- What a block does to an element that it adds to. -/
theorem Valid.block_of_mem (h : Valid a) (hcomplete : schedule.Complete a)
    (hin : InGrid a block) (hj : 0 ≤ j) (hjy : j ≤ block.y) (hcol : a.column j = block.x)
    (A : ℕ → α) :
    kernelZniv12C a A_SON a.ranges schedule.run A block (a.target block.y j) =
      A (a.target block.y j) + A_SON (a.idSon block.y j) := by
  have hjlt : j < a.nrows := lt_of_le_of_lt hjy hin.y
  have hfull : a.ranges.starts block.x ≠ -1 := fun hnone => h.not_covers hnone hj hjlt hcol
  obtain ⟨thread, hthread, hat, hfront, hapos⟩ := h.place hin hj hjy hcol
  have htarget : a.target block.y j = a.position block thread := by
    rw [h.position_eq hin hthread hfront, Args.target, hat]
  have hstore := hcomplete.store block
  have hprocessed := h.processed_of_mem A_SON hcomplete hin hj hjy hcol
    ((schedule.run block).load.foldl
      (scatter (a.inFront block) (fun thread => (thread : ℤ))
        fun thread _ => A (a.position block thread)) (schedule.run block).SA)
  rw [hapos, h.loaded hcomplete hin hthread hfront, ← h.position_eq hin hthread hfront]
    at hprocessed
  unfold kernelZniv12C
  rw [if_neg hfull, htarget]
  exact (foldl_scatter _ _ _ (hstore.nodup_iff.mpr List.nodup_range) (h.position_inj hcomplete hin)
    ((mem_threads hstore).mpr hthread) ((h.inFront_iff hin hthread).mpr hfront) A).trans hprocessed

/-- The other elements keep their value. -/
theorem Valid.block_of_notMem (h : Valid a) (hcomplete : schedule.Complete a)
    (hin : InGrid a block) (hp : p ∉ a.touched block) (A : ℕ → α) :
    kernelZniv12C a A_SON a.ranges schedule.run A block p = A p := by
  unfold kernelZniv12C
  split
  case isTrue => rfl
  case isFalse hfull =>
    have hstore := hcomplete.store block
    by_cases hstored : ∃ thread < blockDim,
        512 * block.x + thread < a.nfront.toNat ∧ p = a.position block thread
    · -- The element is stored as it was loaded.
      obtain ⟨thread, hthread, hfront, rfl⟩ := hstored
      refine (foldl_scatter _ _ _ (hstore.nodup_iff.mpr List.nodup_range)
        (h.position_inj hcomplete hin) ((mem_threads hstore).mpr hthread)
        ((h.inFront_iff hin hthread).mpr hfront) A).trans ?_
      rw [h.position_eq hin hthread hfront] at hp ⊢
      rw [h.processed_of_notMem A_SON hfull hp]
      exact h.loaded hcomplete hin hthread hfront A
    · refine foldl_scatter_of_ne (fun t ht htf heq => hstored ?_) A
      have htlt := (mem_threads hstore).mp ht
      exact ⟨t, htlt, (h.inFront_iff hin htlt).mp htf, heq⟩

/-! ## The grid -/

theorem Valid.worksIn (h : Valid a) (hcomplete : schedule.Complete a) (hin : InGrid a block) :
    WorksIn (fun A => A) (kernelZniv12C a A_SON a.ranges schedule.run) a.touched a.touched
      block := by
  constructor
  case frame => exact fun A p hp => h.block_of_notMem A_SON hcomplete hin hp A
  case congr =>
    intro A A' heq p hp
    obtain ⟨j, ⟨hj, hjy⟩, hcol, rfl⟩ := id hp
    rw [h.block_of_mem A_SON hcomplete hin hj hjy hcol,
      h.block_of_mem A_SON hcomplete hin hj hjy hcol, heq _ hp]

theorem Valid.target_inj (h : Valid a) {i' j' : ℤ} (hi : 0 ≤ i) (hilt : i < a.nrows) (hj : 0 ≤ j)
    (hjlt : j < a.nrows) (hi' : 0 ≤ i') (hilt' : i' < a.nrows) (hj' : 0 ≤ j')
    (hjlt' : j' < a.nrows) (heq : a.target i j = a.target i' j') : i = i' ∧ j = j' := by
  obtain ⟨hrow, hcol⟩ := mul_add_inj (h.at_lt hj hjlt) (h.at_lt hj' hjlt') heq
  exact ⟨h.at_inj hi hilt hi' hilt' hrow, h.at_inj hj hjlt hj' hjlt' hcol⟩

/-- No two blocks add to the same element. -/
theorem Valid.disjoint (h : Valid a) {block' : Block} (hin : InGrid a block)
    (hin' : InGrid a block') (hne : block ≠ block') :
    Disjoint (a.touched block) (a.touched block') := by
  refine Set.disjoint_left.mpr fun p hp hp' => hne ?_
  obtain ⟨j, ⟨hj, hjy⟩, hcol, rfl⟩ := hp
  obtain ⟨j', ⟨hj', hjy'⟩, hcol', heq⟩ := hp'
  have hy := hin.y
  have hy' := hin'.y
  obtain ⟨hrow, rfl⟩ := h.target_inj (by omega) hy hj (by omega) (by omega) hy' hj' (by omega) heq
  cases block
  cases block'
  exact congrArg₂ Block.mk (hcol.symm.trans hcol') (Int.ofNat.inj hrow)

theorem nodup_grid : a.grid.Nodup := by
  refine List.nodup_flatMap.mpr ⟨fun y _ => ?_, ?_⟩
  · exact List.nodup_range.map fun x x' heq => congrArg Block.x heq
  · refine List.nodup_range.imp fun {y y'} hne => List.disjoint_left.mpr ?_
    intro block hmem hmem'
    obtain ⟨x, -, rfl⟩ := List.mem_map.mp hmem
    obtain ⟨x', -, heq⟩ := List.mem_map.mp hmem'
    exact hne (congrArg Block.y heq).symm

/-- The kernel adds to each element that the lower triangle goes to the element of the son at
`id_son`, once. -/
theorem Valid.kernel_adds (h : Valid a) (hcomplete : schedule.Complete a) (hj : 0 ≤ j)
    (hji : j ≤ i) (hi : i < a.nrows) (A : ℕ → α) :
    schedule.blocks.foldl (kernelZniv12C a A_SON a.ranges schedule.run) A (a.target i j) =
      A (a.target i j) + A_SON (a.idSon i.toNat j) := by
  have hmem : ∀ block, block ∈ schedule.blocks ↔ InGrid a block := fun block => by
    rw [hcomplete.blocks.mem_iff, h.mem_grid]
  have hapart : schedule.blocks.Pairwise (Apart a.touched a.touched) := by
    refine (hcomplete.blocks.nodup_iff.mpr nodup_grid).imp_of_mem fun hin hin' hne => ?_
    have hdisjoint := h.disjoint ((hmem _).mp hin) ((hmem _).mp hin') hne
    exact ⟨hdisjoint, hdisjoint, hdisjoint.symm⟩
  have hin : InGrid a ⟨a.column j, i.toNat⟩ := by
    constructor
    case x =>
      have hlt := h.at_lt hj (by omega)
      show a.column j < a.gridX
      rw [h.column_eq hj (by omega), h.gridX_eq]
      unfold blockDim
      omega
    case y =>
      show (i.toNat : ℤ) < a.nrows
      omega
  have hrow : ((⟨a.column j, i.toNat⟩ : Block).y : ℤ) = i := Int.toNat_of_nonneg (by omega)
  have htouched : a.target i j ∈ a.touched ⟨a.column j, i.toNat⟩ :=
    ⟨j, ⟨hj, by omega⟩, rfl, by rw [hrow]⟩
  rw [foldl_of_mem (fun A => A)
    (fun block hblock => h.worksIn A_SON hcomplete ((hmem block).mp hblock)) hapart
    ((hmem _).mpr hin) htouched]
  have hblock := h.block_of_mem A_SON hcomplete hin hj (by omega) rfl A
  rw [hrow] at hblock
  exact hblock

/-- The other elements keep their value. -/
theorem Valid.kernel_keeps (h : Valid a) (hcomplete : schedule.Complete a)
    (hp : ∀ i j, 0 ≤ j → j ≤ i → i < a.nrows → p ≠ a.target i j) (A : ℕ → α) :
    schedule.blocks.foldl (kernelZniv12C a A_SON a.ranges schedule.run) A p = A p := by
  have hmem : ∀ block ∈ schedule.blocks, InGrid a block := fun block hblock =>
    h.mem_grid.mp (hcomplete.blocks.mem_iff.mp hblock)
  refine foldl_of_notMem (fun A => A)
    (fun block hblock => h.worksIn A_SON hcomplete (hmem block hblock)) ?_ A
  intro block hblock htouched
  obtain ⟨j, ⟨hj, hjy⟩, -, heq⟩ := htouched
  exact hp block.y j hj hjy (hmem block hblock).y heq

end Block

/-! ## The position in the son -/

theorem Valid.idSon_eq (h : Valid a) (hj : 0 ≤ j) (hji : j ≤ i) (hi : i < a.nrows) :
    a.idSon i.toNat j = int32 (a.sonIndex i j) := by
  have hrows := h.nrows_le
  have hcols := h.ncols_lt
  have hcast : ((i.toNat : ℕ) : ℤ) = i := Int.toNat_of_nonneg (by omega)
  unfold Args.idSon Args.sonIndex
  rw [hcast, uint64_of_lt (i := j) (by omega) (by omega)]
  split
  case isTrue =>
    have hlow : 0 ≤ i * (i + 1) := Int.mul_nonneg (by omega) (by omega)
    have hhigh : i * (i + 1) ≤ 2 ^ 31 * 2 ^ 31 :=
      Int.mul_le_mul (by omega) (by omega) (by omega) (by omega)
    generalize i * (i + 1) = m at hlow hhigh
    rw [uint64_of_lt (i := m) hlow (by omega), uint64_of_lt (by omega) (by omega)]
    congr 1
    omega
  case isFalse =>
    rw [uint64_of_lt (i := a.ncols) (by omega) (by omega), Int.toNat_of_nonneg (by omega)]
    have hlow : 0 ≤ i * a.ncols := Int.mul_nonneg (by omega) (by omega)
    have hhigh : i * a.ncols ≤ 2 ^ 31 * 2 ^ 31 :=
      Int.mul_le_mul (by omega) (by omega) (by omega) (by omega)
    generalize i * a.ncols = m at hlow hhigh
    rw [uint64_of_lt (i := m) hlow (by omega), uint64_of_lt (by omega) (by omega)]
    congr 1
    omega

/-- The positions in the son are those of an `int`. -/
def Fits (a : Args) : Prop :=
  if a.cb_compressed ≠ 0 then a.nrows ≤ 65535
  else a.nrows = 0 ∨ (a.nrows - 1) * a.ncols + a.nrows ≤ 2 ^ 31

theorem Valid.sonIndex_nonneg (h : Valid a) (hj : 0 ≤ j) (hji : j ≤ i) (hi : i < a.nrows) :
    0 ≤ a.sonIndex i j := by
  have hrows := h.nrows_le
  unfold Args.sonIndex
  split
  case isTrue =>
    have hlow : 0 ≤ i * (i + 1) := Int.mul_nonneg (by omega) (by omega)
    omega
  case isFalse =>
    have hlow : 0 ≤ i * a.ncols := Int.mul_nonneg (by omega) (by omega)
    omega

/-- The last element of the triangle has the largest position. -/
theorem Valid.sonIndex_le (h : Valid a) (hj : 0 ≤ j) (hji : j ≤ i) (hi : i < a.nrows) :
    a.sonIndex i j ≤ a.sonIndex (a.nrows - 1) (a.nrows - 1) := by
  have hrows := h.nrows_le
  unfold Args.sonIndex
  split
  case isTrue =>
    have hle : i * (i + 1) ≤ (a.nrows - 1) * (a.nrows - 1 + 1) :=
      Int.mul_le_mul (by omega) (by omega) (by omega) (by omega)
    omega
  case isFalse =>
    have hle : i * a.ncols ≤ (a.nrows - 1) * a.ncols :=
      Int.mul_le_mul_of_nonneg_right (by omega) (by omega)
    omega

theorem fits_iff (hpos : 0 < a.nrows) :
    Fits a ↔ a.sonIndex (a.nrows - 1) (a.nrows - 1) < 2 ^ 31 := by
  unfold Fits Args.sonIndex
  split
  case isTrue =>
    constructor
    · intro hle
      have hmul : (a.nrows - 1) * (a.nrows - 1 + 1) ≤ 65534 * 65535 :=
        Int.mul_le_mul (by omega) (by omega) (by omega) (by omega)
      omega
    · intro hlt
      by_contra hnot
      have hmul : 65535 * 65536 ≤ (a.nrows - 1) * (a.nrows - 1 + 1) :=
        Int.mul_le_mul (by omega) (by omega) (by omega) (by omega)
      omega
  case isFalse => omega

/-! ## The claim on the element that is added -/

/-- `A'` is the front `A` with the lower triangle of the son added to it. -/
structure Adds [Add α] (a : Args) (A_SON : ℤ → α) (A A' : ℕ → α) : Prop where
  added : ∀ i j, 0 ≤ j → j ≤ i → i < a.nrows →
    A' (a.target i j) = A (a.target i j) + A_SON (a.sonIndex i j)
  kept : ∀ p, (∀ i j, 0 ≤ j → j ≤ i → i < a.nrows → p ≠ a.target i j) → A' p = A p

/-- In every order of the blocks and for all matrices, the kernel adds the son to the front. -/
def ExtendAdds (α : Type*) [Add α] (a : Args) : Prop :=
  ∀ (A_SON : ℤ → α) (schedule : Schedule α) (A : ℕ → α), schedule.Complete a →
    ∃ A', cudaZniv12 a A_SON schedule A = some A' ∧ Adds a A_SON A A'

/-- The blocks and the threads in the order of their numbers. -/
def inOrder (a : Args) (SA : ℤ → α) : Schedule α where
  blocks := a.grid
  run := fun _ =>
    { load := List.range blockDim
      process := List.range blockDim
      store := List.range blockDim
      SA := SA }

theorem complete_inOrder (SA : ℤ → α) : (inOrder a SA).Complete a := by
  unfold inOrder
  constructor
  case blocks => exact .refl a.grid
  all_goals
    intro block
    dsimp only
    exact .refl _

/-- The kernel adds the son to the front when the positions fit. -/
theorem Valid.extendAdds [Add α] (h : Valid a) (hfits : Fits a) : ExtendAdds α a := by
  intro A_SON schedule A hcomplete
  refine ⟨_, if_neg (not_not.mpr h.nelim), ?_, ?_⟩
  · intro i j hj hji hi
    have hlt := (fits_iff (by omega)).mp hfits
    have hnonneg := h.sonIndex_nonneg hj hji hi
    have hle := h.sonIndex_le hj hji hi
    rw [h.kernel_adds A_SON hcomplete hj hji hi, h.idSon_eq hj hji hi,
      int32_of_lt (by omega) (by omega)]
  · exact fun p hp => h.kernel_keeps A_SON hcomplete hp A

/-- When they do not, the last element of the triangle is read elsewhere. -/
theorem Valid.not_extendAdds [AddGroup α] [Nontrivial α] (h : Valid a) (hnot : ¬ Fits a) :
    ¬ ExtendAdds α a := by
  intro hadds
  have hrows := h.nrows_nonneg
  have hpos : 0 < a.nrows := by
    rcases Int.lt_or_le 0 a.nrows with hpos | hle
    · exact hpos
    · refine absurd ?_ hnot
      unfold Fits
      split <;> omega
  have hwide := mt (fits_iff hpos).mpr hnot
  generalize hlast : a.sonIndex (a.nrows - 1) (a.nrows - 1) = last at hwide
  have hother : int32 last ≠ last := by
    unfold int32
    omega
  -- The son is zero except at this element.
  obtain ⟨c, hc⟩ := exists_ne (0 : α)
  obtain ⟨A', hA', hadded⟩ := hadds (fun p => if p = last then c else 0) (inOrder a 0)
    (fun _ => 0) (complete_inOrder 0)
  have hkernel := h.kernel_adds (fun p => if p = last then c else 0)
    (complete_inOrder (0 : ℤ → α)) (i := a.nrows - 1) (j := a.nrows - 1) (by omega) le_rfl
    (by omega) (fun _ => 0)
  have hclaim := hadded.added (a.nrows - 1) (a.nrows - 1) (by omega) le_rfl (by omega)
  unfold cudaZniv12 at hA'
  rw [if_neg (not_not.mpr h.nelim), Option.some.injEq] at hA'
  rw [hA', h.idSon_eq (by omega) le_rfl (by omega), hlast] at hkernel
  rw [hlast, hkernel, if_neg hother, if_pos rfl] at hclaim
  exact hc (add_left_cancel hclaim).symm

/-- The kernel adds the son to the front if and only if the positions in the son are those of an
`int`. -/
theorem extendAdd_iff (α : Type*) [AddGroup α] [Nontrivial α] (h : Valid a) :
    ExtendAdds α a ↔ Fits a := by
  constructor
  · intro hadds
    by_contra hnot
    exact h.not_extendAdds hnot hadds
  · exact h.extendAdds

/-- A son of the size of its front, not compressed. -/
def squareArgs (n : ℤ) : Args where
  nrows := n
  ncols := n
  nelim := 0
  nfront := n
  cb_compressed := 0
  IW := fun i => i + 1

theorem valid_squareArgs {n : ℤ} (hpos : 1 ≤ n) (hlt : n < 2 ^ 31) : Valid (squareArgs n) where
  nelim := rfl
  nfront_pos := hpos
  nfront_lt := hlt
  nrows_nonneg := le_trans Int.one_nonneg hpos
  nrows_le := le_refl n
  ncols_lt := hlt
  IW_pos := fun i hi _ => show 1 ≤ i + 1 by omega
  IW_le := fun i _ hilt => show i + 1 ≤ n from hilt
  IW_mono := fun i j _ hij _ => show i + 1 < j + 1 by omega

theorem extendAdd_squareArgs : ExtendAdds ℤ (squareArgs 2) :=
  (extendAdd_iff ℤ (valid_squareArgs (by decide) (by decide))).mpr (.inr (by decide))

/-- The square of 46342 is above `2 ^ 31`. -/
theorem not_extendAdd :
    Valid (squareArgs 46342) ∧ ¬ ExtendAdds ℤ (squareArgs 46342) := by
  have hvalid : Valid (squareArgs 46342) := valid_squareArgs (by decide) (by decide)
  have hnot : ¬ Fits (squareArgs 46342) := by
    show ¬ ((46342 : ℤ) = 0 ∨ (46342 - 1) * 46342 + 46342 ≤ 2 ^ 31)
    decide
  exact ⟨hvalid, hvalid.not_extendAdds hnot⟩

end Xkblas.Blas.Niv12
