import Xkblas.Library.DisjointWrites
import Xkblas.Library.MachineInt
import Mathlib.Algebra.Group.Defs
import Mathlib.Algebra.Order.Ring.Nat

/-!
# The extend-add kernel

`cuda_zniv12` adds the lower triangle of a son to the matrix `A` of the front. The index `IW[i]`
is the row and the column of `A` that the row and the column `i` of the son go to, counted from one.

A thread block has 512 threads. It works on 512 columns of one row of `A`: it loads them in
shared memory, adds to them the elements of the son that go there, and stores them back. The host
computes for each block of columns the first and the last index that falls into it.

The arithmetic is that of the types of the source. The threads of a block run one after another
between two barriers, in any order.
-/

namespace Xkblas.Blas.Niv12

open Library

/-- The arguments of `cuda_zniv12` that are not matrices. -/
structure Args where
  nrows : ℤ
  ncols : ℤ
  nelim : ℤ
  nfront : ℤ
  cb_compressed : ℤ
  IW : ℤ → ℤ

/-- `B.x`, the number of threads of a block. -/
def blockDim : ℕ := 512

/-- `G.x`. -/
def Args.gridX (a : Args) : ℕ :=
  uint32 (uint32 a.nfront + blockDim - 1) / blockDim

/-- `G.y`. -/
def Args.gridY (a : Args) : ℕ :=
  uint32 (uint32 a.nrows + 1 - 1)

/-- `(IW[i]-1)/B.x`. -/
def Args.column (a : Args) (i : ℤ) : ℕ :=
  uint32 (a.IW i - 1) / blockDim

/-- The arrays `starts` and `stops`. -/
structure Ranges where
  starts : ℕ → ℤ
  stops : ℕ → ℤ

/-- One iteration of the loop over the indices. -/
def Args.visit (a : Args) (ranges : Ranges) (i : ℕ) : Ranges :=
  let x := a.column i
  { starts :=
      if ranges.starts x = -1 then Function.update ranges.starts x i else ranges.starts
    stops := Function.update ranges.stops x i }

/-- The two loops that fill the arrays. -/
def Args.ranges (a : Args) : Ranges :=
  (List.range a.nrows.toNat).foldl a.visit { starts := fun _ => -1, stops := fun _ => -1 }

/-! ## The kernel -/

/-- A thread block: `blockIdx.x` and `blockIdx.y`. -/
structure Block where
  x : ℕ
  y : ℕ
  deriving DecidableEq

/-- `x`, the column of the thread. -/
def Block.column (block : Block) (thread : ℕ) : ℕ :=
  uint32 (blockDim * block.x + thread)

/-- `ay`, the row of `A`. -/
def Args.row (a : Args) (block : Block) : ℕ :=
  uint64 (a.IW block.y - 1)

/-- `x < nfront`. -/
def Args.inFront (a : Args) (block : Block) (thread : ℕ) : Prop :=
  block.column thread < uint64 a.nfront

instance (a : Args) (block : Block) : DecidablePred (a.inFront block) :=
  fun _ => inferInstanceAs (Decidable (_ < _))

/-- `x + ay * nfront`. -/
def Args.position (a : Args) (block : Block) (thread : ℕ) : ℕ :=
  uint64 (block.column thread + a.row block * uint64 a.nfront)

/-- `j`, the column of the son. -/
def Ranges.j (ranges : Ranges) (block : Block) (thread : ℕ) : ℤ :=
  int32 (uint32 (ranges.starts block.x) + thread)

/-- The two conditions of a thread that adds an element. -/
def Ranges.adds (ranges : Ranges) (block : Block) (thread : ℕ) : Prop :=
  thread < uint32 (int32 (ranges.stops block.x - ranges.starts block.x + 1)) ∧
    uint64 (ranges.j block thread) ≤ block.y

instance (ranges : Ranges) (block : Block) : DecidablePred (ranges.adds block) :=
  fun _ => inferInstanceAs (Decidable (_ ∧ _))

/-- `apos`. -/
def Args.apos (a : Args) (block : Block) (j : ℤ) : ℤ :=
  int32 (uint32 (a.IW j - 1) - blockDim * block.x)

/-- `id_son`, a variable of type `int`. -/
def Args.idSon (a : Args) (y : ℕ) (j : ℤ) : ℤ :=
  if a.cb_compressed ≠ 0 then
    int32 (uint64 ((uint64 (y * (y + 1)) / 2 : ℕ) + uint64 j))
  else int32 (uint64 (uint64 (y * uint64 a.ncols) + uint64 j))

/-- The orders in which the threads of a block run before, between and after the barriers, and
the contents of the shared memory when the block starts. -/
structure BlockRun (α : Type*) where
  load : List ℕ
  process : List ℕ
  store : List ℕ
  SA : ℤ → α

variable {α : Type*} [Add α]

/-- `kernel_zniv12_c` for one thread block. -/
def kernelZniv12C (a : Args) (A_SON : ℤ → α) (ranges : Ranges) (run : Block → BlockRun α)
    (A : ℕ → α) (block : Block) : ℕ → α :=
  if ranges.starts block.x = -1 then A
  else
    let loaded := (run block).load.foldl
      (scatter (a.inFront block) (fun thread => (thread : ℤ))
        fun thread _ => A (a.position block thread))
      (run block).SA
    let processed := (run block).process.foldl
      (scatter (ranges.adds block) (fun thread => a.apos block (ranges.j block thread))
        fun thread v => v + A_SON (a.idSon block.y (ranges.j block thread)))
      loaded
    (run block).store.foldl
      (scatter (a.inFront block) (a.position block) fun thread _ => processed thread) A

/-- The thread blocks of the grid. -/
def Args.grid (a : Args) : List Block :=
  (List.range a.gridY).flatMap fun y => (List.range a.gridX).map fun x => ⟨x, y⟩

/-- An execution of the kernel: the order of the blocks, and the runs of the blocks. -/
structure Schedule (α : Type*) where
  blocks : List Block
  run : Block → BlockRun α

/-- Every block of the grid runs once, and every thread of a block once between two barriers. -/
structure Schedule.Complete (a : Args) (schedule : Schedule α) : Prop where
  blocks : schedule.blocks.Perm a.grid
  load : ∀ block, (schedule.run block).load.Perm (List.range blockDim)
  process : ∀ block, (schedule.run block).process.Perm (List.range blockDim)
  store : ∀ block, (schedule.run block).store.Perm (List.range blockDim)

/-- `cuda_zniv12`: the matrix `A` after the kernel. It exits if `nelim` is not zero. -/
def cudaZniv12 (a : Args) (A_SON : ℤ → α) (schedule : Schedule α) (A : ℕ → α) : Option (ℕ → α) :=
  if a.nelim ≠ 0 then none
  else some (schedule.blocks.foldl (kernelZniv12C a A_SON a.ranges schedule.run) A)

end Xkblas.Blas.Niv12
