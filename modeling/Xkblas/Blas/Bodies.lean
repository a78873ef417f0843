import Xkblas.Blas.CopyScale
import Xkblas.Blas.Descriptors

/-!
# The two bodies of a task

A task has a body for the CPU, which calls a kernel of the BLAS library with the characters of
Fortran, and a body for the GPU, which calls a kernel of cuBLAS with its enumerations. `TaskArg` has
the arguments of each kind of task that has both. `bodies_agree_iff` says for which tasks that a
driver inserts the two bodies do the same and submit no task.

A kernel of a library is given by the task whose body calls it, which has its operands, the elements
that it stores and their values. The library is the reference one, so that a kernel gets the
arguments from a character or from an enumeration.
-/

namespace Xkblas.Blas

open Library

/-! ## The arguments of the libraries -/

/-- `cblas2blas_op`. -/
def cblas2blasOp : Trans → Char
  | .noTrans => 'N'
  | .trans => 'T'
  | .conjTrans => 'C'

/-- `cblas2blas_side`. -/
def cblas2blasSide : Side → Char
  | .left => 'L'
  | .right => 'R'

/-- `cblas2blas_diag`. -/
def cblas2blasDiag : Diag → Char
  | .nonUnit => 'N'
  | .unit => 'U'

/-- `cblas2blas_fill`. -/
def cblas2blasFill : Uplo → Char
  | .lower => 'L'
  | .upper => 'U'

/-- `cublasOperation_t`. -/
inductive CublasOperation where
  | opN
  | opT
  | opC

/-- `cublasSideMode_t`. -/
inductive CublasSideMode where
  | left
  | right

/-- `cublasFillMode_t`. -/
inductive CublasFillMode where
  | lower
  | upper

/-- `cublasDiagType_t`. -/
inductive CublasDiagType where
  | nonUnit
  | unit

/-- `cblas2cublas_op`. -/
def cblas2cublasOp : Trans → CublasOperation
  | .noTrans => .opN
  | .trans => .opT
  | .conjTrans => .opC

/-- `cblas2cublas_side`. -/
def cblas2cublasSide : Side → CublasSideMode
  | .left => .left
  | .right => .right

/-- `cblas2cublas_uplo`. -/
def cblas2cublasUplo : Uplo → CublasFillMode
  | .upper => .upper
  | .lower => .lower

/-- `cblas2cublas_diag`. -/
def cblas2cublasDiag : Diag → CublasDiagType
  | .nonUnit => .nonUnit
  | .unit => .unit

/-- How a kernel of the BLAS library reads a character. -/
def blasOp : Char → Option Trans
  | 'N' => some .noTrans
  | 'T' => some .trans
  | 'C' => some .conjTrans
  | _ => none

def blasSide : Char → Option Side
  | 'L' => some .left
  | 'R' => some .right
  | _ => none

def blasDiag : Char → Option Diag
  | 'N' => some .nonUnit
  | 'U' => some .unit
  | _ => none

def blasFill : Char → Option Uplo
  | 'L' => some .lower
  | 'U' => some .upper
  | _ => none

/-- How a kernel of cuBLAS reads an enumeration. -/
def CublasOperation.op : CublasOperation → Trans
  | .opN => .noTrans
  | .opT => .trans
  | .opC => .conjTrans

def CublasSideMode.side : CublasSideMode → Side
  | .left => .left
  | .right => .right

def CublasFillMode.uplo : CublasFillMode → Uplo
  | .lower => .lower
  | .upper => .upper

def CublasDiagType.diag : CublasDiagType → Diag
  | .nonUnit => .nonUnit
  | .unit => .unit

@[simp] theorem blasOp_cblas (t : Trans) : blasOp (cblas2blasOp t) = some t := by
  cases t <;> rfl

@[simp] theorem blasSide_cblas (s : Side) : blasSide (cblas2blasSide s) = some s := by
  cases s <;> rfl

@[simp] theorem blasDiag_cblas (x : Diag) : blasDiag (cblas2blasDiag x) = some x := by
  cases x <;> rfl

@[simp] theorem blasFill_cblas (u : Uplo) : blasFill (cblas2blasFill u) = some u := by
  cases u <;> rfl

@[simp] theorem op_cblas2cublas (t : Trans) : (cblas2cublasOp t).op = t := by
  cases t <;> rfl

@[simp] theorem side_cblas2cublas (s : Side) : (cblas2cublasSide s).side = s := by
  cases s <;> rfl

@[simp] theorem uplo_cblas2cublas (u : Uplo) : (cblas2cublasUplo u).uplo = u := by
  cases u <;> rfl

@[simp] theorem diag_cblas2cublas (x : Diag) : (cblas2cublasDiag x).diag = x := by
  cases x <;> rfl

/-! ## Bodies -/

/-- The arguments of a task. The leading dimensions are with the tiles. -/
inductive TaskArg (R : Type) where
  | zgemm (transA transB : Trans) (m n k : ℕ) (alpha : R) (A B : Tile) (beta : R) (C : Tile)
  | zgemmt (uplo : Uplo) (transA transB : Trans) (n k : ℕ) (alpha : R) (A B : Tile) (beta : R)
      (C : Tile)
  | zsymm (side : Side) (uplo : Uplo) (m n : ℕ) (alpha : R) (A B : Tile) (beta : R) (C : Tile)
  | zhemm (side : Side) (uplo : Uplo) (m n : ℕ) (alpha : R) (A B : Tile) (beta : R) (C : Tile)
  | zsyrk (uplo : Uplo) (transA : Trans) (n k : ℕ) (alpha : R) (A : Tile) (beta : R) (C : Tile)
  | zherk (uplo : Uplo) (transA : Trans) (n k : ℕ) (alpha : R) (A : Tile) (beta : R) (C : Tile)
  | zsyr2k (uplo : Uplo) (transA : Trans) (n k : ℕ) (alpha : R) (A B : Tile) (beta : R) (C : Tile)
  | zher2k (uplo : Uplo) (transA : Trans) (n k : ℕ) (alpha : R) (A B : Tile) (beta : R) (C : Tile)
  | ztrmm (side : Side) (uplo : Uplo) (transA : Trans) (diag : Diag) (m n : ℕ) (alpha : R)
      (A B : Tile)
  | ztrsm (side : Side) (uplo : Uplo) (transA : Trans) (diag : Diag) (m n : ℕ) (alpha : R)
      (A B : Tile)
  | zswap (M Ni Nj i j : ℕ) (issame : Bool) (A B : Tile)
  | zcopyscale (m n : ℕ) (should_copy : Bool) (D L U : Tile)

/-- What a body does: the tasks that it submits, and the matrices that it leaves unless its
behaviour is undefined. -/
structure Body (R : Type) where
  submits : List (Task R)
  result : State R → Option (State R)

section Bodies

variable {R : Type}

/-- A body that calls a kernel. One that rejects its arguments changes nothing. -/
def Body.kernel (d : Operand → Descr) (kernel : Option (Task R)) : Body R where
  submits := []
  result := fun s => some (kernel.elim s (Task.exec d s))

/-- The kernel `zswap`: the exchange of two vectors of `n` consecutive elements. -/
def swapVectors (n : ℕ) (X : Operand) (x : ℕ) (Y : Operand) (y : ℕ) (s : State R) : State R :=
  fun Z i =>
    if Z = X ∧ x ≤ i ∧ i < x + n then s Y (y + (i - x))
    else if Z = Y ∧ y ≤ i ∧ i < y + n then s X (x + (i - y))
    else s Z i

/-- The address of the column `j` of a tile. -/
def Tile.column (d : Operand → Descr) (t : Tile) (j : ℕ) : ℕ :=
  (d t.mat).addr t.m t.n + j * t.ld.toNat

/-- `xkblas_zswap_native`, which exchanges the column `i` of `A` and the column `j` of `B`. -/
def zswapNative (d : Operand → Descr) (M i j : ℕ) (A B : Tile) : Body R where
  submits := []
  result := fun s => some (swapVectors M A.mat (A.column d i) B.mat (B.column d j) s)

variable [Field R] [StarRing R] [DecidableEq R]

/-- The body for the CPU. `mkl` is `KAAPI_BLAS_USE_MKL`; without it `xkblas_zgemmt_native` calls
`zgemm`. `NB` is the tile size of the calls that a body makes. -/
def TaskArg.cpuBody (mkl : Bool) (NB : ℕ) (d : Operand → Descr) : TaskArg R → Body R
  | .zgemm transA transB m n k alpha A B beta C =>
      .kernel d do
        let transA ← blasOp (cblas2blasOp transA)
        let transB ← blasOp (cblas2blasOp transB)
        return insertTaskZgemm transA transB m n k alpha A B beta C
  | .zgemmt uplo transA transB n k alpha A B beta C =>
      .kernel d do
        let uplo ← blasFill (cblas2blasFill uplo)
        let transA ← blasOp (cblas2blasOp transA)
        let transB ← blasOp (cblas2blasOp transB)
        if mkl then
          return { insertTaskZgemmt uplo transA transB n k alpha A B beta C with
            writes := uplo.stores }
        else
          return insertTaskZgemm transA transB n n k alpha A B beta C
  | .zsymm side uplo m n alpha A B beta C =>
      .kernel d do
        let side ← blasSide (cblas2blasSide side)
        let uplo ← blasFill (cblas2blasFill uplo)
        return insertTaskZsymm side uplo m n alpha A B beta C
  | .zhemm side uplo m n alpha A B beta C =>
      .kernel d do
        let side ← blasSide (cblas2blasSide side)
        let uplo ← blasFill (cblas2blasFill uplo)
        return insertTaskZhemm side uplo m n alpha A B beta C
  | .zsyrk uplo transA n k alpha A beta C =>
      .kernel d do
        let uplo ← blasFill (cblas2blasFill uplo)
        let transA ← blasOp (cblas2blasOp transA)
        return insertTaskZsyrk uplo transA n k alpha A beta C
  | .zherk uplo transA n k alpha A beta C =>
      .kernel d do
        let uplo ← blasFill (cblas2blasFill uplo)
        let transA ← blasOp (cblas2blasOp transA)
        return insertTaskZherk uplo transA n k alpha A beta C
  | .zsyr2k uplo transA n k alpha A B beta C =>
      .kernel d do
        let uplo ← blasFill (cblas2blasFill uplo)
        let transA ← blasOp (cblas2blasOp transA)
        return insertTaskZsyr2k uplo transA n k alpha A B beta C
  | .zher2k uplo transA n k alpha A B beta C =>
      .kernel d do
        let uplo ← blasFill (cblas2blasFill uplo)
        let transA ← blasOp (cblas2blasOp transA)
        return insertTaskZher2k uplo transA n k alpha A B beta C
  | .ztrmm side uplo transA diag m n alpha A B =>
      .kernel d do
        let side ← blasSide (cblas2blasSide side)
        let uplo ← blasFill (cblas2blasFill uplo)
        let transA ← blasOp (cblas2blasOp transA)
        let diag ← blasDiag (cblas2blasDiag diag)
        return insertTaskZtrmm side uplo transA diag m n alpha A B
  | .ztrsm side uplo transA diag m n alpha A B =>
      -- the call of `xkblas_ztrsm_async`, with the tiles as its matrices
      { submits :=
          match ztrsmAsync NB side uplo transA diag m n alpha A.ld B.ld with
          | .ok tasks => tasks
          | .error _ => []
        result := some }
  | .zswap M _ _ i j _ A B => zswapNative d M j i A B
  | .zcopyscale m n should_copy D L U =>
      { submits := []
        result := fun s =>
          (zcopyscaleNative m n should_copy).map fun tasks => CopyScale.run d ⟨D, L, U⟩ tasks s }

/-- The body for the GPU. -/
def TaskArg.gpuBody (d : Operand → Descr) : TaskArg R → Body R
  | .zgemm transA transB m n k alpha A B beta C =>
      .kernel d (insertTaskZgemm (cblas2cublasOp transA).op (cblas2cublasOp transB).op m n k alpha
        A B beta C)
  | .zgemmt _ transA transB n k alpha A B beta C =>
      .kernel d (insertTaskZgemm (cblas2cublasOp transA).op (cblas2cublasOp transB).op n n k alpha
        A B beta C)
  | .zsymm side uplo m n alpha A B beta C =>
      .kernel d (insertTaskZsymm (cblas2cublasSide side).side (cblas2cublasUplo uplo).uplo m n alpha
        A B beta C)
  | .zhemm side uplo m n alpha A B beta C =>
      .kernel d (insertTaskZhemm (cblas2cublasSide side).side (cblas2cublasUplo uplo).uplo m n alpha
        A B beta C)
  | .zsyrk uplo transA n k alpha A beta C =>
      .kernel d (insertTaskZsyrk (cblas2cublasUplo uplo).uplo (cblas2cublasOp transA).op n k alpha
        A beta C)
  | .zherk uplo transA n k alpha A beta C =>
      .kernel d (insertTaskZherk (cblas2cublasUplo uplo).uplo (cblas2cublasOp transA).op n k alpha
        A beta C)
  | .zsyr2k uplo transA n k alpha A B beta C =>
      .kernel d (insertTaskZsyr2k (cblas2cublasUplo uplo).uplo (cblas2cublasOp transA).op n k alpha
        A B beta C)
  | .zher2k uplo transA n k alpha A B beta C =>
      .kernel d (insertTaskZher2k (cblas2cublasUplo uplo).uplo (cblas2cublasOp transA).op n k alpha
        A B beta C)
  | .ztrmm side uplo transA diag m n alpha A B =>
      .kernel d (insertTaskZtrmm (cblas2cublasSide side).side (cblas2cublasUplo uplo).uplo
        (cblas2cublasOp transA).op (cblas2cublasDiag diag).diag m n alpha A B)
  | .ztrsm side uplo transA diag m n alpha A B =>
      .kernel d (insertTaskZtrsm (cblas2cublasSide side).side (cblas2cublasUplo uplo).uplo
        (cblas2cublasOp transA).op (cblas2cublasDiag diag).diag m n alpha A B)
  | .zswap M _ _ i j issame A B =>
      if issame then
        { submits := []
          result := fun s =>
            some (swapVectors M A.mat (A.column d i) A.mat (A.column d j) s) }
      else
        { submits := []
          result := fun s =>
            some (swapVectors M A.mat (A.column d i) B.mat (B.column d j) s) }
  | .zcopyscale m n should_copy D L U =>
      { submits := []
        result := fun s => some (CopyScale.run d ⟨D, L, U⟩ (cudaZcopyscale m n should_copy) s) }

/-- Neither body submits a task, and both leave the same matrices, for every content. -/
structure TaskArg.BodiesAgree (mkl : Bool) (NB : ℕ) (d : Operand → Descr) (a : TaskArg R) : Prop
    where
  cpu : (a.cpuBody mkl NB d).submits = []
  gpu : (a.gpuBody d).submits = []
  result : ∀ s, ∃ s', (a.cpuBody mkl NB d).result s = some s' ∧ (a.gpuBody d).result s = some s'

end Bodies

/-! ## The tasks that the drivers insert -/

section Insertion

variable {R : Type} [Field R] [StarRing R] [DecidableEq R]

/-- The tasks of the loop of `xkblas_zswap_async`. -/
def zswapArgs (d : Operand → Descr) (M N i j : ℕ) (LDC : ℤ) : List (TaskArg R) :=
  let ib := i / (d .C).nb
  let jb := j / (d .C).nb
  let tempi := tempSize (d .C).nt N (d .C).nb ib
  let tempj := tempSize (d .C).nt N (d .C).nb jb
  forLoop 0 (d .C).mt fun m =>
    let tempmm := tempSize (d .C).mt M (d .C).mb m
    [.zswap tempmm tempi tempj (i % (d .C).nb) (j % (d .C).nb) true ⟨.C, m, ib, LDC⟩
      ⟨.C, m, jb, LDC⟩]

/-- The tasks of the loops of `xkblas_zcopyscale_async`. -/
def zcopyscaleArgs (d : Operand → Descr) (should_copy : Bool) (M N ldd ldl ldu : ℕ) :
    List (TaskArg R) :=
  forLoop 0 (d .B).nt fun blockIdx_m =>
    let m := min (sizeSub M (blockIdx_m * (d .B).nb)) (d .B).nb
    forLoop 0 (d .B).mt fun blockIdx_n =>
      let n := min (sizeSub N (blockIdx_n * (d .B).mb)) (d .B).mb
      [.zcopyscale m n should_copy ⟨.A, blockIdx_n, blockIdx_n, ldd⟩
        ⟨.B, blockIdx_n, blockIdx_m, ldl⟩ ⟨.C, blockIdx_m, blockIdx_n, ldu⟩]

/-- The driver of a kind inserts a task with these arguments in a call with admissible leading
dimensions, for some tile size. Of the kinds whose kernels are called in the same way nothing is
asked. -/
def TaskArg.Inserted (d : Operand → Descr) : TaskArg R → Prop
  | .zgemmt uplo transA transB n k alpha A B beta C =>
      ∃ NB N K LDA LDB LDC alpha₀ beta₀, 1 ≤ NB ∧ AdmissibleLd LDA (transA.size N K).1 ∧
        AdmissibleLd LDB (transB.size K N).1 ∧ AdmissibleLd LDC N ∧
        d = zgemmtDescr NB transA transB N K LDA LDB LDC ∧
        insertTaskZgemmt uplo transA transB n k alpha A B beta C ∈
          zgemmtTasks d (some uplo) transA transB N K alpha₀ LDA LDB beta₀ LDC
  | .ztrsm side uplo transA diag m n alpha A B =>
      ∃ NB N NRHS LDA LDB alpha₀, 1 ≤ NB ∧ AdmissibleLd LDA (side.order N NRHS) ∧
        AdmissibleLd LDB N ∧ d = panelDescr NB side N NRHS LDA LDB ∧
        insertTaskZtrsm side uplo transA diag m n alpha A B ∈
          ztrsmTasks d side uplo transA diag alpha₀ LDA LDB
  | .zswap M Ni Nj i j issame A B =>
      ∃ NB M₀ N₀ i₀ j₀ LDC, 1 ≤ NB ∧ AdmissibleLd LDC M₀ ∧ d = zswapDescr NB M₀ N₀ LDC ∧
        (.zswap M Ni Nj i j issame A B : TaskArg R) ∈ zswapArgs d M₀ N₀ i₀ j₀ LDC
  | .zcopyscale m n should_copy D L U =>
      ∃ m_block n_block M N ldd ldl ldu, (1 ≤ m_block ∧ m_block < 2 ^ 31) ∧ 1 ≤ n_block ∧
        zcopyscaleRuns M N ldd ldl ldu = .ok true ∧
        d = zcopyscaleDescr m_block n_block M N ldd ldl ldu ∧
        (.zcopyscale m n should_copy D L U : TaskArg R) ∈
          zcopyscaleArgs d should_copy M N ldd ldl ldu
  | _ => True

/-- When the two bodies agree. A body of `ztrsm` for the CPU always submits tasks. -/
def TaskArg.Condition (mkl : Bool) : TaskArg R → Prop
  | .zgemmt _ _ _ n _ alpha _ _ beta _ => mkl = false ∨ n = 1 ∨ alpha = 0 ∧ beta = 1
  | .ztrsm .. => False
  | .zswap _ _ _ _ _ _ A B => A.n = B.n
  | .zcopyscale m .. => NativeExact m
  | _ => True

end Insertion

/-! ## The kernels that store a part of their result -/

section Writes

variable {R : Type} {d : Operand → Descr}

/-- A kernel that stores only the elements of `p` does what the one that stores all does, when the
values of the other elements are those that the matrix has. -/
theorem exec_writes_iff (hd : ∀ X, (d X).Valid) {t : Task R} (ht : t.Stores d)
    (hall : ∀ i j, t.writes i j = true) (p : ℕ → ℕ → Bool) :
    (∀ s, { t with writes := p }.exec d s = t.exec d s) ↔
      ∀ s : State R, ∀ i < t.out.rows, ∀ j < t.out.cols, p i j = false →
        t.value (s.block d) i j = s.block d t.out.toTile i j := by
  have hp : Task.Stores d { t with writes := p } := ⟨ht.accepted, ht.out⟩
  have hv := hd t.out.mat
  have hrow : t.out.m < numTiles (d t.out.mat).M (d t.out.mat).mb := hv.mt_eq ▸ ht.out.row_lt
  have hcol : t.out.n < numTiles (d t.out.mat).N (d t.out.mat).nb := hv.nt_eq ▸ ht.out.col_lt
  constructor
  · intro h s i hi j hj hpij
    rw [ht.out.rows_eq] at hi
    rw [ht.out.cols_eq] at hj
    -- the element of the matrix is in the tile
    obtain ⟨hI, hIm⟩ := (mem_tile hv.mb_pos hrow).mp
      ⟨Nat.le_add_right _ _, Nat.add_lt_add_left hi _⟩
    obtain ⟨hJ, hJn⟩ := (mem_tile hv.nb_pos hcol).mp
      ⟨Nat.le_add_right _ _, Nat.add_lt_add_left hj _⟩
    have hlt := hI.trans_le hv.rows_le
    have hget := congrArg (fun s' : State R => s'.get d t.out.mat
      (t.out.m * (d t.out.mat).mb + i) (t.out.n * (d t.out.mat).nb + j)) (h s)
    rw [exec_get hd hp rfl hlt, exec_get hd ht rfl hlt] at hget
    rw [if_neg, if_pos ⟨⟨⟨hI, hIm⟩, hJ, hJn⟩, hall _ _⟩, Nat.add_sub_cancel_left,
      Nat.add_sub_cancel_left] at hget
    · rw [block_apply ht.out.ld_eq]
      exact hget.symm
    · intro hcovers
      have hcovers := hcovers.2
      simp only [Nat.add_sub_cancel_left, hpij, Bool.false_eq_true] at hcovers
  · intro h s
    refine State.ext_get hd fun X I hI J => ?_
    by_cases hX : t.out.mat = X
    · subst hX
      rw [exec_get hd hp rfl hI, exec_get hd ht rfl hI]
      by_cases hin : (I < (d t.out.mat).M ∧ I / (d t.out.mat).mb = t.out.m) ∧
          J < (d t.out.mat).N ∧ J / (d t.out.mat).nb = t.out.n
      · obtain ⟨hlo, hhi⟩ := (mem_tile hv.mb_pos hrow).mpr hin.1
        obtain ⟨hlo', hhi'⟩ := (mem_tile hv.nb_pos hcol).mpr hin.2
        rw [if_pos (show t.Covers d I J from ⟨hin, hall _ _⟩)]
        by_cases hpij : p (I - t.out.m * (d t.out.mat).mb) (J - t.out.n * (d t.out.mat).nb) = true
        · rw [if_pos (show Task.Covers d { t with writes := p } I J from ⟨hin, hpij⟩)]
        · rw [if_neg (show ¬ Task.Covers d { t with writes := p } I J from fun h => hpij h.2)]
          have hvalue := h s (I - t.out.m * (d t.out.mat).mb) (by rw [ht.out.rows_eq]; omega)
            (J - t.out.n * (d t.out.mat).nb) (by rw [ht.out.cols_eq]; omega)
            (Bool.eq_false_iff.mpr hpij)
          rw [hvalue, block_apply ht.out.ld_eq, Nat.add_sub_cancel' hlo, Nat.add_sub_cancel' hlo']
      · rw [if_neg (show ¬ t.Covers d I J from fun h => hin h.1),
          if_neg (show ¬ Task.Covers d { t with writes := p } I J from fun h => hin h.1)]
    · show State.get _ d X I J = State.get _ d X I J
      unfold State.get
      rw [exec_of_ne hX, exec_of_ne (t := { t with writes := p }) hX]

end Writes

/-! ## The kinds whose bodies may differ -/

section Gemmt

variable {R : Type} [Field R] [StarRing R] [DecidableEq R] {d : Operand → Descr} {mkl : Bool}
  {NB₀ : ℕ}

/-- Two bodies that call kernels agree when the kernels do the same. -/
theorem bodiesAgree_kernel {a : TaskArg R} {t t' : Task R}
    (hcpu : a.cpuBody mkl NB₀ d = .kernel d (some t)) (hgpu : a.gpuBody d = .kernel d (some t')) :
    a.BodiesAgree mkl NB₀ d ↔ ∀ s, t.exec d s = t'.exec d s := by
  constructor
  · intro h s
    obtain ⟨s', hs, hs'⟩ := h.result s
    rw [hcpu] at hs
    rw [hgpu] at hs'
    exact (Option.some.inj hs).trans (Option.some.inj hs').symm
  · intro h
    refine ⟨by rw [hcpu]; rfl, by rw [hgpu]; rfl, fun s => ⟨t'.exec d s, ?_, by rw [hgpu]; rfl⟩⟩
    rw [hcpu]
    exact congrArg some (h s)

/-- A task of `zgemmt` is on the tiles of an iteration. -/
theorem zgemmt_inserted {uplo : Uplo} {transA transB : Trans} {n k : ℕ} {alpha beta : R}
    {A B C : Tile} (h : (TaskArg.zgemmt uplo transA transB n k alpha A B beta C).Inserted d) :
    ∃ NB N K LDA LDB LDC m n' k', GemmtTiled d transA transB NB N K LDA LDB LDC ∧
      m < numTiles N NB ∧ n' < numTiles N NB ∧ k' < numTiles K NB ∧
      (insertTaskZgemm transA transB n n k alpha A B beta C : Task R) =
        gemmTask transA transB NB N N K alpha .A LDA .B LDB beta .C LDC m n' k' := by
  obtain ⟨NB, N, K, LDA, LDB, LDC, alpha₀, beta₀, hNB, hA, hB, hC, rfl, hmem⟩ := h
  have herase := List.mem_map_of_mem (f := Task.erase) hmem
  rw [zgemmtTasks_eq hNB] at herase
  obtain ⟨t, ht, hterase⟩ := List.mem_map.mp herase
  obtain ⟨m, ⟨_, hm⟩, ht⟩ := mem_forLoop.mp ht
  obtain ⟨n', hn', ht⟩ := mem_forLoop.mp ht
  obtain ⟨k', ⟨_, hk'⟩, ht⟩ := mem_forLoop.mp ht
  have hn' : n' < numTiles N NB := by
    have hmax := hn'.2
    split at hmax <;> omega
  rw [List.mem_singleton.mp ht] at hterase
  have hinputs := congrArg Task.inputs hterase
  have hout := congrArg Task.out hterase
  simp only [Task.erase, insertTaskZgemm, insertTaskZgemmt, List.cons.injEq, Param.mk.injEq,
    and_true, true_and] at hinputs hout
  obtain ⟨⟨rfl, hrows, hcols⟩, rfl, _⟩ := hinputs
  obtain ⟨rfl, _, hn, hnn⟩ := hout
  have hk : tileSize K NB k' = k := by
    cases transA with
    | noTrans => exact hcols
    | trans => exact hrows
    | conjTrans => exact hrows
  refine ⟨NB, N, K, LDA, LDB, LDC, m, n', k', zgemmtDescr_tiled hNB hA hB hC, hm, hn', hk', ?_⟩
  unfold gemmTask
  rw [hn, hnn, hk]

/-- With MKL the CPU body of `zgemmt` stores a triangle, and the GPU body stores the tile. -/
theorem zgemmt_bodies_iff {uplo : Uplo} {transA transB : Trans} {n k : ℕ} {alpha beta : R}
    {A B C : Tile}
    (h : (TaskArg.zgemmt uplo transA transB n k alpha A B beta C).Inserted d) :
    (TaskArg.zgemmt uplo transA transB n k alpha A B beta C).BodiesAgree true NB₀ d ↔
      n = 1 ∨ alpha = 0 ∧ beta = 1 := by
  obtain ⟨NB, N, K, LDA, LDB, LDC, m, n', k', htiled, hm, hn', hk', htask⟩ := zgemmt_inserted h
  have hNB : 0 < NB := htiled.C.mb_eq ▸ htiled.C.mb_pos
  have hcpu : (TaskArg.zgemmt uplo transA transB n k alpha A B beta C).cpuBody true NB₀ d =
      .kernel d (some { insertTaskZgemm transA transB n n k alpha A B beta C with
        inserted := [.r, .r, .rw], writes := uplo.stores }) := by
    simp only [TaskArg.cpuBody, blasOp_cblas, blasFill_cblas]
    rfl
  have hgpu : (TaskArg.zgemmt uplo transA transB n k alpha A B beta C).gpuBody d =
      .kernel d (some (insertTaskZgemm transA transB n n k alpha A B beta C)) := by
    simp only [TaskArg.gpuBody, op_cblas2cublas]
  have hinputs := congrArg Task.inputs htask
  have hout := congrArg Task.out htask
  simp only [insertTaskZgemm, List.cons.injEq, Param.mk.injEq, and_true, true_and] at hinputs hout
  obtain ⟨⟨hA, hrows, hcols⟩, hB, _⟩ := hinputs
  obtain ⟨hC, hn, _⟩ := hout
  have hk : k = tileSize K NB k' := by
    cases transA with
    | noTrans => exact hcols
    | trans => exact hrows
    | conjTrans => exact hrows
  have hnpos : 0 < n := hn ▸ tileSize_pos hNB hm
  have hkpos : 0 < k := hk ▸ tileSize_pos hNB hk'
  have hstores : (insertTaskZgemm transA transB n n k alpha A B beta C : Task R).Stores d :=
    htask ▸ (gemmTask_fitsTile htiled.valid htiled.A htiled.B htiled.C hm hn' hk').stores
  rw [bodiesAgree_kernel hcpu hgpu]
  refine Iff.trans (exec_writes_iff htiled.valid hstores (fun _ _ => rfl) uplo.stores) ?_
  show (∀ s : State R, ∀ i < n, ∀ j < n, uplo.stores i j = false →
    gemm transA transB k alpha (s.block d A) (s.block d B) beta (s.block d C) i j =
      s.block d C i j) ↔ _
  constructor
  · intro h
    by_cases hone : n = 1
    · exact .inl hone
    · -- an element of the other triangle
      obtain ⟨i, j, hi, hj, hij⟩ : ∃ i j, i < n ∧ j < n ∧ uplo.stores i j = false := by
        cases uplo with
        | upper => exact ⟨1, 0, by omega, hnpos, rfl⟩
        | lower => exact ⟨0, 1, hnpos, by omega, rfl⟩
      have hkeeps : ∀ s : State R,
          alpha * ∑ l ∈ Finset.range k, transA.op (s.get d .A) (m * NB + i) (k' * NB + l) *
            transB.op (s.get d .B) (k' * NB + l) (n' * NB + j) +
              beta * s.get d .C (m * NB + i) (n' * NB + j) =
            s.get d .C (m * NB + i) (n' * NB + j) := by
        intro s
        have hs := h s i hi j hj hij
        unfold gemm at hs
        rw [hA, hB, hC, htiled.C.block_apply] at hs
        simp only [htiled.A.op_block, htiled.B.op_block] at hs
        exact hs
      exact .inr (eq_zero_and_eq_one htiled.A.ld_pos htiled.B.ld_pos hkpos (k' * NB) hkeeps)
  · intro h s i hi j hj hij
    rcases h with rfl | ⟨rfl, rfl⟩
    · -- a tile of order one is on the diagonal
      obtain rfl : i = 0 := by omega
      obtain rfl : j = 0 := by omega
      cases uplo <;> cases hij
    · simp [gemm]

end Gemmt

section Swap

variable {R : Type} {d : Operand → Descr}

/-- The exchange of two vectors that are equal or disjoint. -/
theorem swapVectors_comm {n x y : ℕ} {X : Operand} (h : x = y ∨ x + n ≤ y ∨ y + n ≤ x)
    (s : State R) : swapVectors n X x X y s = swapVectors n X y X x s := by
  rcases h with rfl | h
  · rfl
  · funext Z i
    unfold swapVectors
    by_cases hx : Z = X ∧ x ≤ i ∧ i < x + n
    · have hy : ¬ (Z = X ∧ y ≤ i ∧ i < y + n) := by omega
      rw [if_pos hx, if_neg hy, if_pos hx]
    · rw [if_neg hx]
      by_cases hy : Z = X ∧ y ≤ i ∧ i < y + n
      · rw [if_pos hy, if_pos hy]
      · rw [if_neg hy, if_neg hy, if_neg hx]

/-- Two columns of a tile row, as vectors of rows that the leading dimension admits. -/
theorem columns_disjoint {ld r n c c' : ℕ} (hn : r + n ≤ ld) (hc : c ≠ c') :
    r + c * ld + n ≤ r + c' * ld ∨ r + c' * ld + n ≤ r + c * ld := by
  rcases Nat.lt_or_gt_of_ne hc with h | h
  · have hmul := Nat.mul_le_mul_right ld (Nat.succ_le_of_lt h)
    rw [Nat.succ_mul] at hmul
    omega
  · have hmul := Nat.mul_le_mul_right ld (Nat.succ_le_of_lt h)
    rw [Nat.succ_mul] at hmul
    omega

variable [Field R] [StarRing R] [DecidableEq R] {mkl : Bool} {NB₀ : ℕ}

/-- The arguments of a task of `zswap`: two tiles of one row, and columns in them. -/
theorem zswap_inserted {M Ni Nj i j : ℕ} {issame : Bool} {A B : Tile}
    (h : (TaskArg.zswap M Ni Nj i j issame A B : TaskArg R).Inserted d) :
    issame = true ∧ ∃ NB m ib jb, (i < NB ∧ j < NB) ∧ 1 ≤ M ∧ m * NB + M ≤ (d .C).ld ∧
      (∀ c, A.column d c = m * NB + (ib * NB + c) * (d .C).ld) ∧
      (∀ c, B.column d c = m * NB + (jb * NB + c) * (d .C).ld) ∧
      A.mat = .C ∧ B.mat = .C ∧ A.n = ib ∧ B.n = jb := by
  obtain ⟨NB, M₀, N₀, i₀, j₀, LDC, hNB, hLDC, rfl, hmem⟩ := h
  obtain ⟨m, ⟨_, hm⟩, hmem⟩ := mem_forLoop.mp hmem
  have hC : (zswapDescr NB M₀ N₀ LDC .C).Tiled NB M₀ N₀ LDC := hLDC.tiled hNB
  have hm : m < numTiles M₀ NB := hm
  obtain ⟨rfl, rfl, rfl, rfl, rfl, rfl, rfl, rfl⟩ := TaskArg.zswap.inj (List.mem_singleton.mp hmem)
  have hld : LDC.toNat = (zswapDescr NB M₀ N₀ LDC .C).ld := by
    have := hC.ld_eq
    omega
  have hsize : tempSize (zswapDescr NB M₀ N₀ LDC .C).mt M₀ (zswapDescr NB M₀ N₀ LDC .C).mb m =
      tileSize M₀ NB m := tempSize_eq hNB hm
  have hcolumn : ∀ b c, Tile.column (zswapDescr NB M₀ N₀ LDC) ⟨.C, m, b, LDC⟩ c =
      m * NB + (b * NB + c) * (zswapDescr NB M₀ N₀ LDC .C).ld := by
    intro b c
    show m * NB + b * NB * (zswapDescr NB M₀ N₀ LDC .C).ld + c * LDC.toNat = _
    rw [hld, Nat.add_mul, Nat.add_assoc]
  refine ⟨rfl, NB, m, _, _, ⟨Nat.mod_lt _ hNB, Nat.mod_lt _ hNB⟩, ?_, ?_, hcolumn _, hcolumn _, rfl,
    rfl, rfl, rfl⟩
  · rw [hsize]
    exact tileSize_pos hNB hm
  · rw [hsize]
    have hrows : M₀ ≤ (zswapDescr NB M₀ N₀ LDC .C).ld := hC.rows_le
    exact (tile_le hNB hm).trans hrows

/-- The bodies of `zswap` agree when the two columns are in one tile. The CPU body exchanges the
column `j` of the first tile and the column `i` of the second one, and the GPU body two columns of
the first one. -/
theorem zswap_bodies_iff {M Ni Nj i j : ℕ} {issame : Bool} {A B : Tile}
    (h : (TaskArg.zswap M Ni Nj i j issame A B : TaskArg R).Inserted d) :
    (TaskArg.zswap M Ni Nj i j issame A B : TaskArg R).BodiesAgree mkl NB₀ d ↔ A.n = B.n := by
  obtain ⟨rfl, NB, m, ib, jb, ⟨hi, hj⟩, hM, hrows, hA, hB, hAC, hBC, rfl, rfl⟩ := zswap_inserted h
  have hresult : (TaskArg.zswap M Ni Nj i j true A B : TaskArg R).BodiesAgree mkl NB₀ d ↔
      ∀ s : State R, swapVectors M .C (A.column d j) .C (B.column d i) s =
        swapVectors M .C (A.column d i) .C (A.column d j) s := by
    constructor
    · intro h s
      obtain ⟨s', hs, hs'⟩ := h.result s
      have hs : some (swapVectors M A.mat (A.column d j) B.mat (B.column d i) s) = some s' := hs
      have hs' : some (swapVectors M A.mat (A.column d i) A.mat (A.column d j) s) = some s' := hs'
      rw [hAC, hBC] at hs
      rw [hAC] at hs'
      exact (Option.some.inj hs).trans (Option.some.inj hs').symm
    · intro h
      refine ⟨rfl, rfl, fun s => ⟨_, ?_, rfl⟩⟩
      show some (swapVectors M A.mat (A.column d j) B.mat (B.column d i) s) =
        some (swapVectors M A.mat (A.column d i) A.mat (A.column d j) s)
      rw [hAC, hBC, h s]
  rw [hresult]
  constructor
  · intro h
    by_contra hne
    -- the first element of the column of the second tile
    have hcolumn : ∀ c < NB, B.n * NB + i ≠ A.n * NB + c := by
      intro c hc heq
      have hdiv := congrArg (· / NB) heq
      simp only [Nat.add_comm (_ * NB), Nat.add_mul_div_right _ _ (show 0 < NB by omega),
        Nat.div_eq_of_lt hi, Nat.div_eq_of_lt hc, Nat.zero_add] at hdiv
      exact hne hdiv.symm
    have hout : ∀ c < NB, ¬ (A.column d c ≤ B.column d i ∧ B.column d i < A.column d c + M) := by
      intro c hc
      rw [hA, hB]
      have := columns_disjoint hrows (hcolumn c hc)
      omega
    have hvalue := congrFun (congrFun (h fun _ a => if a = B.column d i then 1 else 0) .C)
      (B.column d i)
    unfold swapVectors at hvalue
    rw [if_neg fun h => hout j hj h.2, if_pos ⟨rfl, le_rfl, by omega⟩,
      if_neg fun h => hout i hi h.2, if_neg fun h => hout j hj h.2, Nat.sub_self, Nat.add_zero] at hvalue
    have hne : A.column d j ≠ B.column d i := fun heq => hout j hj ⟨heq.le, by omega⟩
    have hzero : (if A.column d j = B.column d i then (1 : R) else 0) =
        if B.column d i = B.column d i then 1 else 0 := hvalue
    rw [if_neg hne, if_pos rfl] at hzero
    exact zero_ne_one hzero
  · intro heq s
    have hBA : B.column d i = A.column d i := by rw [hA, hB, heq]
    rw [hBA]
    refine swapVectors_comm ?_ s
    rw [hA, hA]
    by_cases hij : i = j
    · exact .inl (by rw [hij])
    · exact .inr (columns_disjoint hrows (by omega))

end Swap

section Solve

variable {R : Type} [Field R] [StarRing R] [DecidableEq R] {d : Operand → Descr} {mkl : Bool}
  {NB₀ : ℕ}

/-- A call of `xkblas_ztrsm_async` on tiles inserts tasks. -/
theorem ztrsmTasks_ne_nil {side : Side} {uplo : Uplo} {transA : Trans} {diag : Diag} {alpha : R}
    {LDA LDB : ℤ} (hmt : 0 < (d .B).mt) (hnt : 0 < (d .B).nt) :
    ztrsmTasks d side uplo transA diag alpha LDA LDB ≠ [] := by
  intro hnil
  have hnone : ∀ t ∈ ztrsmTasks d side uplo transA diag alpha LDA LDB, False := by
    rw [hnil]
    exact fun _ ht => List.not_mem_nil ht
  cases side <;> cases uplo <;> cases transA
  all_goals
    simp only [ztrsmTasks, ztrsmTasksWith, reduceCtorEq, if_true, if_false, forall_mem_forLoop,
      List.forall_mem_append, List.forall_mem_singleton] at hnone
    first
      | exact (hnone 0 le_rfl hmt).1 0 le_rfl hnt
      | exact (hnone 0 le_rfl hnt).1 0 le_rfl hmt
      | exact (hnone 0 le_rfl hnt 0 le_rfl hmt).1

/-- The CPU body of `ztrsm` submits tasks. -/
theorem not_ztrsm_bodies {side : Side} {uplo : Uplo} {transA : Trans} {diag : Diag} {m n : ℕ}
    {alpha : R} {A B : Tile} (hNB₀ : 1 ≤ NB₀)
    (h : (TaskArg.ztrsm side uplo transA diag m n alpha A B).Inserted d) :
    ¬ (TaskArg.ztrsm side uplo transA diag m n alpha A B).BodiesAgree mkl NB₀ d := by
  obtain ⟨NB, N, NRHS, LDA, LDB, alpha₀, hNB, hA, hB, rfl, hmem⟩ := h
  intro hagree
  rw [ztrsmTasks_eq hNB] at hmem
  have htiled := panelDescr_tiled hNB hA hB
  obtain ⟨⟨p, q, hfits⟩, _⟩ := mem_trsmLoops htiled hmem
  have hfitsA := hfits.fits _ List.mem_cons_self
  have hfitsB := hfits.fits _ (Task.out_mem _)
  have hldA := hfits.stores.accepted _ List.mem_cons_self
  have hldB := hfits.stores.accepted _ (Task.out_mem _)
  have hvalid := htiled.valid B.mat
  have hm : 1 ≤ m := by
    rw [show m = _ from hfitsB.rows_eq]
    exact tileSize_pos hvalid.mb_pos (hvalid.mt_eq ▸ hfitsB.row_lt)
  have hn : 1 ≤ n := by
    rw [show n = _ from hfitsB.cols_eq]
    exact tileSize_pos hvalid.nb_pos (hvalid.nt_eq ▸ hfitsB.col_lt)
  have hint : ∀ X, ((panelDescr NB side N NRHS LDA LDB X).ld : ℤ) < 2 ^ 31 := by
    intro X
    cases X with
    | A => exact htiled.A.ld_eq ▸ hA.int
    | B => exact htiled.B.ld_eq ▸ hB.int
    | C =>
        show ((1 : ℕ) : ℤ) < 2 ^ 31
        omega
  -- so that the call on the tiles passes its checks
  have hcheckA : AdmissibleLd A.ld (side.order m n) := ⟨hldA, hfitsA.ld_eq ▸ hint A.mat⟩
  have hcheckB : AdmissibleLd B.ld m := ⟨hldB, hfitsB.ld_eq ▸ hint B.mat⟩
  have hcpu := hagree.cpu
  have hok : ztrsmAsync NB₀ side uplo transA diag m n alpha A.ld B.ld = .ok _ :=
    panelChecks_ok hm hn hcheckA hcheckB _
  simp only [TaskArg.cpuBody, hok] at hcpu
  refine ztrsmTasks_ne_nil ?_ ?_ hcpu
  · exact numTiles_pos hNB₀ hm
  · exact numTiles_pos hNB₀ hn

/-- The arguments of a task of `zcopyscale`. -/
theorem zcopyscale_inserted {m n : ℕ} {should_copy : Bool} {D L U : Tile}
    (h : (TaskArg.zcopyscale m n should_copy D L U : TaskArg R).Inserted d) :
    CopyScale.Legal ⟨D, L, U⟩ n ∧ 1 ≤ n ∧ m < 2 ^ 31 ∧ m ≤ U.ld.toNat := by
  obtain ⟨m_block, n_block, M, N, ldd, ldl, ldu, ⟨hmb, hint⟩, hnb, hruns, rfl, hmem⟩ := h
  obtain ⟨p, ⟨_, hp⟩, hmem⟩ := mem_forLoop.mp hmem
  obtain ⟨q, ⟨_, hq⟩, hmem⟩ := mem_forLoop.mp hmem
  have hp : p * m_block < M := (lt_numTiles hmb).mp hp
  have hq : q * n_block < N := (lt_numTiles hnb).mp hq
  obtain ⟨rfl, rfl, _, rfl, rfl, rfl⟩ := TaskArg.zcopyscale.inj (List.mem_singleton.mp hmem)
  have hnb' : (zcopyscaleDescr m_block n_block M N ldd ldl ldu .B).nb = m_block := rfl
  have hmb' : (zcopyscaleDescr m_block n_block M N ldd ldl ldu .B).mb = n_block := rfl
  simp only [hnb', hmb', sizeSub, if_pos hp.le, if_pos hq.le]
  simp only [zcopyscaleRuns] at hruns
  split_ifs at hruns with hldd hldl hldu
  refine ⟨⟨Operand.noConfusion, Operand.noConfusion, Operand.noConfusion, ?_⟩, ?_, ?_, ?_⟩
  · show _ ≤ (ldl : ℤ).toNat
    omega
  · omega
  · omega
  · show _ ≤ (ldu : ℤ).toNat
    omega

theorem zcopyscale_bodies_iff [CharZero R] {m n : ℕ} {should_copy : Bool} {D L U : Tile}
    (h : (TaskArg.zcopyscale m n should_copy D L U : TaskArg R).Inserted d) :
    (TaskArg.zcopyscale m n should_copy D L U : TaskArg R).BodiesAgree mkl NB₀ d ↔
      NativeExact m := by
  obtain ⟨hlegal, hn, hm, hldu⟩ := zcopyscale_inserted h
  rw [← copyScale_bodies_agree_iff (R := R) (d := d) hlegal hn hm hldu]
  constructor
  · intro hagree
    have hresult : ∀ s : State R, ∃ s', ((zcopyscaleNative m n should_copy).map fun tasks =>
        CopyScale.run d ⟨D, L, U⟩ tasks s) = some s' ∧
        some (CopyScale.run d ⟨D, L, U⟩ (cudaZcopyscale m n should_copy) s) = some s' :=
      hagree.result
    obtain ⟨_, hdefined, _⟩ := hresult fun _ _ => 0
    obtain ⟨tasks, htasks, _⟩ := Option.map_eq_some_iff.mp hdefined
    refine ⟨tasks, htasks, fun s => ?_⟩
    obtain ⟨s', hs, hs'⟩ := hresult s
    rw [htasks] at hs
    exact (Option.some.inj hs).trans (Option.some.inj hs').symm
  · intro hagree
    obtain ⟨tasks, htasks, hrun⟩ := hagree
    refine ⟨rfl, rfl, fun s => ⟨_, ?_, rfl⟩⟩
    show ((zcopyscaleNative m n should_copy).map fun tasks =>
      CopyScale.run d ⟨D, L, U⟩ tasks s) = some _
    rw [htasks]
    exact congrArg some (hrun s)

/-! ## All kinds -/

/-- The bodies of a task that a driver inserts agree, for every kind, exactly under the condition of
the kind. -/
theorem bodies_agree_iff [CharZero R] (hNB₀ : 1 ≤ NB₀) (a : TaskArg R) (h : a.Inserted d) :
    a.BodiesAgree mkl NB₀ d ↔ a.Condition mkl := by
  -- a kind whose bodies call the same kernel
  have hkernel : ∀ t : Task R, a.cpuBody mkl NB₀ d = .kernel d (some t) →
      a.gpuBody d = .kernel d (some t) → a.Condition mkl → (a.BodiesAgree mkl NB₀ d ↔
        a.Condition mkl) := by
    intro t hcpu hgpu hcond
    exact iff_of_true ((bodiesAgree_kernel hcpu hgpu).mpr fun _ => rfl) hcond
  cases a with
  | zgemm =>
      apply hkernel
      · simp only [TaskArg.cpuBody, blasOp_cblas]
        rfl
      · simp only [TaskArg.gpuBody, op_cblas2cublas]
      · trivial
  | zsymm =>
      apply hkernel
      · simp only [TaskArg.cpuBody, blasSide_cblas, blasFill_cblas]
        rfl
      · simp only [TaskArg.gpuBody, side_cblas2cublas, uplo_cblas2cublas]
      · trivial
  | zhemm =>
      apply hkernel
      · simp only [TaskArg.cpuBody, blasSide_cblas, blasFill_cblas]
        rfl
      · simp only [TaskArg.gpuBody, side_cblas2cublas, uplo_cblas2cublas]
      · trivial
  | zsyrk =>
      apply hkernel
      · simp only [TaskArg.cpuBody, blasOp_cblas, blasFill_cblas]
        rfl
      · simp only [TaskArg.gpuBody, op_cblas2cublas, uplo_cblas2cublas]
      · trivial
  | zherk =>
      apply hkernel
      · simp only [TaskArg.cpuBody, blasOp_cblas, blasFill_cblas]
        rfl
      · simp only [TaskArg.gpuBody, op_cblas2cublas, uplo_cblas2cublas]
      · trivial
  | zsyr2k =>
      apply hkernel
      · simp only [TaskArg.cpuBody, blasOp_cblas, blasFill_cblas]
        rfl
      · simp only [TaskArg.gpuBody, op_cblas2cublas, uplo_cblas2cublas]
      · trivial
  | zher2k =>
      apply hkernel
      · simp only [TaskArg.cpuBody, blasOp_cblas, blasFill_cblas]
        rfl
      · simp only [TaskArg.gpuBody, op_cblas2cublas, uplo_cblas2cublas]
      · trivial
  | ztrmm =>
      apply hkernel
      · simp only [TaskArg.cpuBody, blasOp_cblas, blasFill_cblas, blasSide_cblas, blasDiag_cblas]
        rfl
      · simp only [TaskArg.gpuBody, op_cblas2cublas, uplo_cblas2cublas, side_cblas2cublas,
          diag_cblas2cublas]
      · trivial
  | zgemmt =>
      cases mkl with
      | false =>
          apply hkernel
          · simp only [TaskArg.cpuBody, blasOp_cblas, blasFill_cblas]
            rfl
          · simp only [TaskArg.gpuBody, op_cblas2cublas]
          · exact .inl rfl
      | true =>
          refine (zgemmt_bodies_iff h).trans ⟨.inr, fun hcond => ?_⟩
          exact hcond.resolve_left Bool.noConfusion
  | ztrsm => exact iff_of_false (not_ztrsm_bodies hNB₀ h) id
  | zswap => exact zswap_bodies_iff h
  | zcopyscale => exact zcopyscale_bodies_iff h

/-- The columns of the exchange are in one tile. -/
theorem bodies_agree_swap :
    (TaskArg.zswap 1 2 2 0 1 true ⟨.C, 0, 0, 1⟩ ⟨.C, 0, 0, 1⟩ : TaskArg ℚ).Inserted
        (zswapDescr 2 1 2 1) ∧
      (TaskArg.zswap 1 2 2 0 1 true ⟨.C, 0, 0, 1⟩ ⟨.C, 0, 0, 1⟩ : TaskArg ℚ).BodiesAgree true 1
        (zswapDescr 2 1 2 1) := by
  have hins : (TaskArg.zswap 1 2 2 0 1 true ⟨.C, 0, 0, 1⟩ ⟨.C, 0, 0, 1⟩ : TaskArg ℚ).Inserted
      (zswapDescr 2 1 2 1) := by
    refine ⟨2, 1, 2, 0, 1, 1, by decide, ⟨by decide, by decide⟩, rfl, ?_⟩
    exact List.mem_singleton.mpr rfl
  exact ⟨hins, (bodies_agree_iff (le_refl 1) _ hins).mpr rfl⟩

/-- The exchange of the columns of two tiles of order one: the body for the CPU exchanges them, and
the body for the GPU exchanges the first one with itself. -/
theorem zswap_bodies_disagree :
    (TaskArg.zswap 1 1 1 0 0 true ⟨.C, 0, 0, 1⟩ ⟨.C, 0, 1, 1⟩ : TaskArg ℚ).Inserted
        (zswapDescr 1 1 2 1) ∧
      ¬ (TaskArg.zswap 1 1 1 0 0 true ⟨.C, 0, 0, 1⟩ ⟨.C, 0, 1, 1⟩ : TaskArg ℚ).BodiesAgree false 1
        (zswapDescr 1 1 2 1) := by
  have hins : (TaskArg.zswap 1 1 1 0 0 true ⟨.C, 0, 0, 1⟩ ⟨.C, 0, 1, 1⟩ : TaskArg ℚ).Inserted
      (zswapDescr 1 1 2 1) := by
    refine ⟨1, 1, 2, 0, 1, 1, le_rfl, ⟨by decide, by decide⟩, rfl, ?_⟩
    exact List.mem_singleton.mpr rfl
  exact ⟨hins, fun h => absurd ((zswap_bodies_iff hins).mp h) (by decide)⟩

end Solve

end Xkblas.Blas
