import Xkblas.Library.StridedCopy
import Xkblas.Memory.FindAccessSafety

/-!
# The copies of a view

A copy between two views of one shape is made by `host_copy` when both are in the memory of the
host, and by the CUDA plugin otherwise. Both copy contiguous views at once and other two-dimensional
views run by run. `host_copy` takes the rows as the runs whatever the storage is, and it leaves the
offsets of the views out. `CopiesAgree` says what the copies are for.

The two regions do not overlap, as `memcpy` asks, so the source is a memory of its own.
-/

namespace Xkblas.Memory.FindAccess.View

/-- `kaapi_memory_view_iscontiguous`. -/
def iscontiguous (v : View) : Bool :=
  match v.type with
  | .view1D => true
  | .view2D =>
      match v.storage with
      | .rowMajor => decide (v.ld = v.size1)
      | .colMajor => decide (v.ld = v.size0)

/-- `kaapi_memory_view2pointer`. -/
def view2pointer (ptr : ℕ) (v : View) : ℕ :=
  ptr + v.offset * v.wordsize

/-- The element `(i, j)` is in the view. A vector has one column. -/
def Contains (v : View) (i j : ℕ) : Prop :=
  match v.type with
  | .view1D => i < v.size0 ∧ j = 0
  | .view2D => i < v.size0 ∧ j < v.size1

/-- The position of the element `(i, j)`, in words from the start of the view. -/
def index (v : View) (i j : ℕ) : ℕ :=
  match v.type with
  | .view1D => i
  | .view2D =>
      match v.storage with
      | .rowMajor => i * v.ld + j
      | .colMajor => i + j * v.ld

/-- The address of the byte `b` of the element `(i, j)` when the view is at `ptr`. -/
def byte (v : View) (ptr i j b : ℕ) : ℕ :=
  ptr + (v.offset + v.index i j) * v.wordsize + b

/-- The number of contiguous runs of a view. -/
def runs (v : View) : ℕ :=
  match v.type with
  | .view1D => 1
  | .view2D =>
      match v.storage with
      | .rowMajor => v.size0
      | .colMajor => v.size1

/-- The number of elements of a run. -/
def runLength (v : View) : ℕ :=
  match v.type with
  | .view1D => v.size0
  | .view2D =>
      match v.storage with
      | .rowMajor => v.size1
      | .colMajor => v.size0

/-- The run that the element `(i, j)` is in. -/
def runOf (v : View) (i j : ℕ) : ℕ :=
  match v.type with
  | .view1D => 0
  | .view2D =>
      match v.storage with
      | .rowMajor => i
      | .colMajor => j

/-- The place of the element `(i, j)` in its run. -/
def placeOf (v : View) (i j : ℕ) : ℕ :=
  match v.type with
  | .view1D => i
  | .view2D =>
      match v.storage with
      | .rowMajor => j
      | .colMajor => i

/-- The leading dimension is not smaller than the contiguous dimension. -/
def LdOk (v : View) : Prop :=
  v.type = .view2D → v.runLength ≤ v.ld

/-- The elements have fewer bytes than the address space. -/
def Fits (v : View) : Prop :=
  v.runs * v.runLength * v.wordsize < 2 ^ 64

/-- Two views of one type, storage, size and word size. -/
structure SameShape (v v' : View) : Prop where
  type : v.type = v'.type
  storage : v.storage = v'.storage
  size0 : v.size0 = v'.size0
  size1 : v.size1 = v'.size1
  wordsize : v.wordsize = v'.wordsize

/-! ## Elements and runs -/

variable {vd vs v : View} {d s i j b : ℕ}

theorem type_of_ne (h : v.type ≠ .view1D) : v.type = .view2D := by
  cases htype : v.type with
  | view1D => exact absurd htype h
  | view2D => rfl

theorem index_eq : v.index i j = v.runOf i j * v.ld + v.placeOf i j := by
  unfold index runOf placeOf
  cases v.type with
  | view1D => simp only [Nat.zero_mul, Nat.zero_add]
  | view2D =>
      cases v.storage with
      | rowMajor => rfl
      | colMajor => exact Nat.add_comm i _

theorem runOf_lt (h : v.Contains i j) : v.runOf i j < v.runs := by
  unfold Contains at h
  unfold runOf runs
  cases htype : v.type with
  | view1D => exact Nat.one_pos
  | view2D =>
      rw [htype] at h
      cases v.storage with
      | rowMajor => exact h.1
      | colMajor => exact h.2

theorem placeOf_lt (h : v.Contains i j) : v.placeOf i j < v.runLength := by
  unfold Contains at h
  unfold placeOf runLength
  cases htype : v.type with
  | view1D =>
      rw [htype] at h
      exact h.1
  | view2D =>
      rw [htype] at h
      cases v.storage with
      | rowMajor => exact h.2
      | colMajor => exact h.1

/-- Each place of each run is an element. -/
theorem exists_element {r c : ℕ} (hr : r < v.runs) (hc : c < v.runLength) :
    ∃ i j, v.Contains i j ∧ v.runOf i j = r ∧ v.placeOf i j = c := by
  unfold runs at hr
  unfold runLength at hc
  unfold Contains runOf placeOf
  cases htype : v.type with
  | view1D =>
      rw [htype] at hr hc
      exact ⟨c, 0, ⟨hc, rfl⟩, (Nat.lt_one_iff.mp hr).symm, rfl⟩
  | view2D =>
      rw [htype] at hr hc
      cases hstorage : v.storage with
      | rowMajor =>
          rw [hstorage] at hr hc
          exact ⟨r, c, ⟨hr, hc⟩, rfl, rfl⟩
      | colMajor =>
          rw [hstorage] at hr hc
          exact ⟨c, r, ⟨hc, hr⟩, rfl, rfl⟩

/-- The address of a byte by its run and its place in the run. -/
theorem byte_eq :
    v.byte d i j b =
      v.view2pointer d + v.runOf i j * (v.ld * v.wordsize) + (v.placeOf i j * v.wordsize + b) := by
  unfold byte view2pointer
  rw [index_eq]
  ring

/-- With several runs, a run fits between the starts of two of them. -/
theorem pitch_of_ldOk (h : v.LdOk) : v.runs = 1 ∨ v.runLength ≤ v.ld := by
  cases htype : v.type with
  | view1D => exact Or.inl (by unfold runs; rw [htype])
  | view2D => exact Or.inr (h htype)

namespace SameShape

variable (h : SameShape vd vs)

include h

theorem runs_eq : vd.runs = vs.runs := by
  unfold runs
  rw [h.type, h.storage, h.size0, h.size1]

theorem runLength_eq : vd.runLength = vs.runLength := by
  unfold runLength
  rw [h.type, h.storage, h.size0, h.size1]

theorem contains_iff : vd.Contains i j ↔ vs.Contains i j := by
  unfold Contains
  rw [h.type, h.size0, h.size1]

theorem runOf_eq : vd.runOf i j = vs.runOf i j := by
  unfold runOf
  rw [h.type, h.storage]

theorem placeOf_eq : vd.placeOf i j = vs.placeOf i j := by
  unfold placeOf
  rw [h.type, h.storage]

theorem size_eq : vd.size = vs.size := by
  unfold size
  rw [h.type, h.size0, h.size1, h.wordsize]

theorem symm : SameShape vs vd :=
  ⟨h.type.symm, h.storage.symm, h.size0.symm, h.size1.symm, h.wordsize.symm⟩

end SameShape

/-! ## Contiguous views -/

theorem size_eq (hfit : v.Fits) : v.size = v.runs * (v.runLength * v.wordsize) := by
  unfold Fits runs runLength at hfit
  unfold size runs runLength
  cases htype : v.type with
  | view1D =>
      simp only [htype, Nat.one_mul] at hfit ⊢
      exact Nat.mod_eq_of_lt hfit
  | view2D =>
      cases hstorage : v.storage with
      | rowMajor =>
          simp only [htype, hstorage] at hfit ⊢
          rw [Nat.mod_eq_of_lt hfit, Nat.mul_assoc]
      | colMajor =>
          simp only [htype, hstorage] at hfit ⊢
          rw [Nat.mul_comm v.size0 v.size1, Nat.mod_eq_of_lt hfit, Nat.mul_assoc]

theorem ld_of_iscontiguous (htype : v.type = .view2D) (h : v.iscontiguous = true) :
    v.ld = v.runLength := by
  unfold iscontiguous at h
  unfold runLength
  rw [htype] at h ⊢
  cases hstorage : v.storage with
  | rowMajor =>
      rw [hstorage] at h
      exact of_decide_eq_true h
  | colMajor =>
      rw [hstorage] at h
      exact of_decide_eq_true h

theorem sameShape_reallocated (v : View) : SameShape v.reallocated v := by
  unfold reallocated
  split
  · exact ⟨rfl, rfl, rfl, rfl, rfl⟩
  · split
    · exact ⟨rfl, rfl, rfl, rfl, rfl⟩
    · exact ⟨rfl, rfl, rfl, rfl, rfl⟩

theorem offset_reallocated : v.reallocated.offset = v.offset := by
  unfold reallocated
  split
  · rfl
  · split
    · rfl
    · rfl

theorem ld_reallocated (htype : v.type = .view2D) : v.reallocated.ld = v.runLength := by
  unfold reallocated runLength
  rw [htype]
  cases hstorage : v.storage with
  | rowMajor => rfl
  | colMajor => rfl

theorem ldOk_reallocated : v.reallocated.LdOk := by
  intro htype
  have hshape := sameShape_reallocated v
  rw [hshape.runLength_eq, ld_reallocated (hshape.type ▸ htype)]

theorem iscontiguous_reallocated : v.reallocated.iscontiguous = true := by
  have hshape := sameShape_reallocated v
  have hld := ld_reallocated (v := v)
  unfold iscontiguous
  rw [hshape.type, hshape.storage, hshape.size0, hshape.size1]
  unfold runLength at hld
  cases htype : v.type with
  | view1D => rfl
  | view2D =>
      rw [htype] at hld
      cases hstorage : v.storage with
      | rowMajor =>
          rw [hstorage] at hld
          exact decide_eq_true (hld rfl)
      | colMajor =>
          rw [hstorage] at hld
          exact decide_eq_true (hld rfl)

end Xkblas.Memory.FindAccess.View

namespace Xkblas.Memory.ViewCopy

open Library
open FindAccess (View ViewType Storage)

/-- A memory, by the address of its bytes. -/
abbrev Bytes := ℕ → UInt8

/-- `kaapi_pointer_t`. -/
structure Pointer where
  asid : ℕ
  ptr : ℕ
  deriving DecidableEq, Repr

/-- What `host_copy` returns. -/
inductive Status where
  | ok
  | einval
  deriving DecidableEq, Repr

/-- `host_copy` of the device of address space `dev`: its status and the memory of the destination.
The program stops when the types of the views differ. -/
def hostCopy (dev : ℕ) (mem : Bytes) (dest : Pointer) (view_dest : View) (memSrc : Bytes)
    (src : Pointer) (view_src : View) : Option (Status × Bytes) :=
  if dest.asid ≠ src.asid ∨ dest.asid ≠ dev then some (.einval, mem)
  else
    match view_src.type with
    | .view1D =>
        if view_dest.type ≠ .view1D then none
        else if view_dest.size0 ≠ view_src.size0 then some (.einval, mem)
        else some (.ok, memcpy mem memSrc dest.ptr src.ptr view_src.size)
    | .view2D =>
        if view_dest.type ≠ .view2D then none
        else if view_dest.size0 ≠ view_src.size0 ∨ view_src.size1 ≠ view_dest.size1 then
          some (.einval, mem)
        else if view_src.iscontiguous = true ∧ view_dest.iscontiguous = true then
          some (.ok, memcpy mem memSrc dest.ptr src.ptr view_src.size)
        else
          let size_row := view_src.size1 * view_src.wordsize
          let llda := view_src.ld * view_src.wordsize
          let rlda := view_dest.ld * view_src.wordsize
          some (.ok, copyRows mem memSrc view_src.size0 size_row dest.ptr rlda src.ptr llda)

/-- The copy instructions of `cuda_stream_decode_ioinstruction`: `cudaMemcpyAsync` of contiguous
views and `cudaMemcpy2DAsync` of the others. The program stops when the sizes differ. -/
def cudaCopy (mem : Bytes) (dest : ℕ) (view_dest : View) (memSrc : Bytes) (src : ℕ)
    (view_src : View) : Option Bytes :=
  let size := view_src.size
  if size ≠ view_dest.size then none
  else
    let test := view_src.iscontiguous && view_dest.iscontiguous
    let type := if test then .view1D else view_src.type
    let src := View.view2pointer src view_src
    let dest := View.view2pointer dest view_dest
    match type with
    | .view1D => some (memcpy mem memSrc dest src size)
    | .view2D =>
        let (width, height) :=
          match view_src.storage with
          | .rowMajor => (view_dest.size1 * view_dest.wordsize, view_dest.size0)
          | .colMajor => (view_dest.size0 * view_dest.wordsize, view_dest.size1)
        let dpitch := view_dest.ld * view_dest.wordsize
        let spitch := view_src.ld * view_src.wordsize
        some (copyRows mem memSrc height width dest dpitch src spitch)

/-! ## What a copy is for -/

/-- The bytes of each element come from those of the same element, and no other byte changes. -/
structure Exact (vd vs : View) (d s : ℕ) (mem memSrc result : Bytes) : Prop where
  element : ∀ i j, vd.Contains i j → ∀ b < vd.wordsize,
    result (vd.byte d i j b) = memSrc (vs.byte s i j b)
  other : ∀ a, (∀ i j, vd.Contains i j → ∀ b < vd.wordsize, a ≠ vd.byte d i j b) →
    result a = mem a

/-- `host_copy` transfers the view. -/
def HostExact (vd vs : View) : Prop :=
  ∀ dev d s mem memSrc, ∃ result,
    hostCopy dev mem ⟨dev, d⟩ vd memSrc ⟨dev, s⟩ vs = some (.ok, result) ∧
      Exact vd vs d s mem memSrc result

/-- The CUDA plugin transfers the view. -/
def CudaExact (vd vs : View) : Prop :=
  ∀ d s mem memSrc, ∃ result, cudaCopy mem d vd memSrc s vs = some result ∧
    Exact vd vs d s mem memSrc result

/-- The fast path of `host_copy` does what its loop over the rows would do. -/
def FastPathAgrees (vd vs : View) : Prop :=
  vs.type = .view2D → vs.iscontiguous = true → vd.iscontiguous = true →
    ∀ d s (mem memSrc : Bytes), memcpy mem memSrc d s vs.size =
      copyRows mem memSrc vs.size0 (vs.size1 * vs.wordsize) d (vd.ld * vs.wordsize) s
        (vs.ld * vs.wordsize)

/-- A copy to the re-packed view and a copy back restore the elements of the view, whatever has
become of its memory. -/
def HostRestores (v : View) : Prop :=
  ∀ dev p s mem packed later, ∃ packed' back,
    hostCopy dev packed ⟨dev, p⟩ v.reallocated mem ⟨dev, s⟩ v = some (.ok, packed') ∧
      hostCopy dev later ⟨dev, s⟩ v packed' ⟨dev, p⟩ v.reallocated = some (.ok, back) ∧
        ∀ i j, v.Contains i j → ∀ b < v.wordsize, back (v.byte s i j b) = mem (v.byte s i j b)

/-- The same for the CUDA plugin. -/
def CudaRestores (v : View) : Prop :=
  ∀ p s mem packed later, ∃ packed' back,
    cudaCopy packed p v.reallocated mem s v = some packed' ∧
      cudaCopy later s v packed' p v.reallocated = some back ∧
        ∀ i j, v.Contains i j → ∀ b < v.wordsize, back (v.byte s i j b) = mem (v.byte s i j b)

/-- The copies of two views agree. -/
structure CopiesAgree (vd vs : View) : Prop where
  host : HostExact vd vs
  cuda : CudaExact vd vs
  fastPath : FastPathAgrees vd vs
  hostBack : HostRestores vs
  cudaBack : CudaRestores vs

/-- Nothing is to be copied. -/
def Empty (v : View) : Prop :=
  v.wordsize = 0 ∨ v.size0 = 0 ∨ v.type = .view2D ∧ v.size1 = 0

/-- There is nothing to copy, or the views have no offset and the runs are the rows: they are
vectors, stored by rows, square, or single contiguous rows. -/
def RunsAreRows (vd vs : View) : Prop :=
  Empty vs ∨
    (vd.offset = 0 ∧ vs.offset = 0) ∧
      (vs.type = .view1D ∨ vs.storage = .rowMajor ∨ vs.size0 = vs.size1 ∨
        vs.size0 = 1 ∧ vs.iscontiguous = true ∧ vd.iscontiguous = true)

end Xkblas.Memory.ViewCopy
