import Xkblas.Blas.Kernel
import Xkblas.Library.ColumnMajor
import Xkblas.Library.LoopFold
import Xkblas.Library.TileRange

/-!
# Descriptors and tile tasks

A matrix of the application is described by an `xkblas_matrix_descr_t`, whose handles point to the
tiles of the matrix. A routine of the BLAS layer inserts tasks that name their tiles by a
descriptor and two indices. `Task.exec` runs the body of a task on the arrays of the operands,
and `run` the tasks in the order of their insertion. The operands are distinct matrices.

The leading dimension of a call is an `int`. The descriptor keeps it as a `size_t`; on its way to
a kernel it goes from `int` to `size_t` and back to `int`, so there it stays the integer of the
call. A kernel rejects a leading dimension that is smaller than the number of rows of its block,
and then changes nothing.
-/

namespace Xkblas.Blas

open Library

/-- The operands of a routine. -/
inductive Operand where
  | A
  | B
  | C
  deriving DecidableEq, Repr

/-! ## Descriptors -/

/-- The conversion of an `int` to `size_t`. -/
def toSize (x : ℤ) : ℕ :=
  (x % 2 ^ 64).toNat

/-- `LDA < kaapi_max(1, Am)`, where `kaapi_max` has `size_t` arguments. -/
def illegalLd (LD : ℤ) (rows : ℕ) : Prop :=
  toSize LD < max 1 rows

instance (LD : ℤ) (rows : ℕ) : Decidable (illegalLd LD rows) :=
  inferInstanceAs (Decidable (_ < _))

/-- The fields of `xkblas_matrix_descr_t` that the routines read. -/
structure Descr where
  M : ℕ
  N : ℕ
  ld : ℕ
  mb : ℕ
  nb : ℕ
  mt : ℕ
  nt : ℕ
  deriving DecidableEq, Repr

/-- `xkblas_init_matrix_handle`. -/
def initMatrixHandle (M N LD MB NB : ℕ) : Descr where
  M := M
  N := N
  ld := LD
  mb := MB
  nb := NB
  mt := numTiles M MB
  nt := numTiles N NB

/-- The element offset of the tile `(m, n)`, the macro `ADDR_`. -/
def Descr.addr (d : Descr) (m n : ℕ) : ℕ :=
  m * d.mb + n * d.nb * d.ld

/-- The difference of two `size_t`. -/
def sizeSub (a b : ℕ) : ℕ :=
  if b ≤ a then a - b else a + 2 ^ 64 - b

/-- The size of a tile as the loops compute it, `m == mt-1 ? M-m*mb : mb`. -/
def tempSize (mt M mb m : ℕ) : ℕ :=
  if m = mt - 1 then sizeSub M (m * mb) else mb

/-! ## Tasks -/

/-- A tile with the leading dimension of its matrix, as `A(m, k), ldam` in a call of
`INSERT_TASK`. -/
structure Tile where
  mat : Operand
  m : ℕ
  n : ℕ
  ld : ℤ
  deriving DecidableEq, Repr

/-- `kaapi_access_mode_t` of a parameter. -/
inductive Mode where
  | r
  | w
  | rw
  deriving DecidableEq, Repr

/-- A parameter of a task, from `ADDR_PARAM`, `MODE_PARAM` and `VIEW_PARAM`. -/
structure Param extends Tile where
  mode : Mode
  rows : ℕ
  cols : ℕ
  deriving DecidableEq, Repr

/-- A task: what it reads, the parameter it writes, the modes that its insertion gives to
`kaapi_update_dependencies` for all of them, the entries of the parameter that its body stores, and
their values as a function of the blocks. -/
structure Task (R : Type*) where
  inputs : List Param
  out : Param
  inserted : List Mode
  writes : ℕ → ℕ → Bool
  value : (Tile → Block R) → Block R

/-- All the parameters of a task. -/
def Task.params {R : Type*} (t : Task R) : List Param :=
  t.inputs ++ [t.out]

/-- A task without the modes of its insertion. -/
def Task.erase {R : Type*} (t : Task R) : Task R :=
  { t with inserted := [] }

/-- `ROWDIM` of a task with a transposed operand. -/
def Trans.rowDim (transA : Trans) (m n : ℕ) : ℕ :=
  if transA = .noTrans then m else n

/-- `COLDIM`. -/
def Trans.colDim (transA : Trans) (m n : ℕ) : ℕ :=
  if transA = .noTrans then n else m

/-- `ROWDIM` of a task with a square operand on one side. -/
def Side.rowDim (side : Side) (m n : ℕ) : ℕ :=
  if side = .left then m else n

/-- `beta == 0.0 ? KAAPI_ACCESS_MODE_W : KAAPI_ACCESS_MODE_RW`. -/
def betaMode {R : Type*} [Zero R] [DecidableEq R] (beta : R) : Mode :=
  if beta = 0 then .w else .rw

section Insert

variable {R : Type*} [CommRing R] [StarRing R] [DecidableEq R]

def insertTaskZgemm (transA transB : Trans) (m n k : ℕ) (alpha : R) (A B : Tile) (beta : R)
    (C : Tile) : Task R where
  inputs :=
    [{ A with mode := .r, rows := transA.rowDim m k, cols := transA.colDim m k },
      { B with mode := .r, rows := transB.rowDim k n, cols := transB.colDim k n }]
  out := { C with mode := betaMode beta, rows := m, cols := n }
  inserted := [.r, .r, betaMode beta]
  writes := fun _ _ => true
  value := fun block => gemm transA transB k alpha (block A) (block B) beta (block C)

/-- The body is a full gemm, on the GPU and on the CPU without MKL. -/
def insertTaskZgemmt (_uplo : Uplo) (transA transB : Trans) (n k : ℕ) (alpha : R) (A B : Tile)
    (beta : R) (C : Tile) : Task R where
  inputs :=
    [{ A with mode := .r, rows := transA.rowDim n k, cols := transA.colDim n k },
      { B with mode := .r, rows := transB.rowDim k n, cols := transB.colDim k n }]
  out := { C with mode := betaMode beta, rows := n, cols := n }
  inserted := [.r, .r, .rw]
  writes := fun _ _ => true
  value := fun block => gemm transA transB k alpha (block A) (block B) beta (block C)

def insertTaskZsymm (side : Side) (uplo : Uplo) (m n : ℕ) (alpha : R) (A B : Tile) (beta : R)
    (C : Tile) : Task R where
  inputs :=
    [{ A with mode := .r, rows := side.rowDim m n, cols := side.rowDim m n },
      { B with mode := .r, rows := m, cols := n }]
  out := { C with mode := betaMode beta, rows := m, cols := n }
  inserted := [.r, .r, .rw]
  writes := fun _ _ => true
  value := fun block => symm side uplo m n alpha (block A) (block B) beta (block C)

def insertTaskZhemm (side : Side) (uplo : Uplo) (m n : ℕ) (alpha : R) (A B : Tile) (beta : R)
    (C : Tile) : Task R where
  inputs :=
    [{ A with mode := .r, rows := side.rowDim m n, cols := side.rowDim m n },
      { B with mode := .r, rows := m, cols := n }]
  out := { C with mode := betaMode beta, rows := m, cols := n }
  inserted := [.r, .r, .rw]
  writes := fun _ _ => true
  value := fun block => hemm side uplo m n alpha (block A) (block B) beta (block C)

def insertTaskZsyrk (uplo : Uplo) (transA : Trans) (n k : ℕ) (alpha : R) (A : Tile) (beta : R)
    (C : Tile) : Task R where
  inputs := [{ A with mode := .r, rows := transA.rowDim n k, cols := transA.colDim n k }]
  out := { C with mode := betaMode beta, rows := n, cols := n }
  inserted := [.r, betaMode beta]
  writes := uplo.stores
  value := fun block => syrk transA k alpha (block A) beta (block C)

def insertTaskZherk (uplo : Uplo) (transA : Trans) (n k : ℕ) (alpha : R) (A : Tile) (beta : R)
    (C : Tile) : Task R where
  inputs := [{ A with mode := .r, rows := transA.rowDim n k, cols := transA.colDim n k }]
  out := { C with mode := .rw, rows := n, cols := n }
  inserted := [.r, .rw]
  writes := uplo.stores
  value := fun block => herk transA k alpha (block A) beta (block C)

def insertTaskZsyr2k (uplo : Uplo) (transA : Trans) (n k : ℕ) (alpha : R) (A B : Tile) (beta : R)
    (C : Tile) : Task R where
  inputs :=
    [{ A with mode := .r, rows := transA.rowDim n k, cols := transA.colDim n k },
      { B with mode := .r, rows := transA.rowDim n k, cols := transA.colDim n k }]
  out := { C with mode := betaMode beta, rows := n, cols := n }
  inserted := [.r, .r, betaMode beta]
  writes := uplo.stores
  value := fun block => syr2k transA k alpha (block A) (block B) beta (block C)

def insertTaskZher2k (uplo : Uplo) (transA : Trans) (n k : ℕ) (alpha : R) (A B : Tile) (beta : R)
    (C : Tile) : Task R where
  inputs :=
    [{ A with mode := .r, rows := transA.rowDim n k, cols := transA.colDim n k },
      { B with mode := .r, rows := transA.rowDim n k, cols := transA.colDim n k }]
  out := { C with mode := .rw, rows := n, cols := n }
  inserted := [.r, .rw, .rw]
  writes := uplo.stores
  value := fun block => her2k transA k alpha (block A) (block B) beta (block C)

def insertTaskZtrmm (side : Side) (uplo : Uplo) (transA : Trans) (diag : Diag) (m n : ℕ)
    (alpha : R) (A B : Tile) : Task R where
  inputs := [{ A with mode := .r, rows := side.rowDim m n, cols := side.rowDim m n }]
  out := { B with mode := .rw, rows := m, cols := n }
  inserted := [.r, .rw]
  writes := fun _ _ => true
  value := fun block => trmm side uplo transA diag m n alpha (block A) (block B)

end Insert

/-- `insert_task_ztrsm`, with the quotients of the kernel by zero. -/
def insertTaskZtrsmWith {R : Type*} [Field R] [StarRing R] [DecidableEq R] (divZero : R → R)
    (side : Side) (uplo : Uplo) (transA : Trans) (diag : Diag) (m n : ℕ) (alpha : R) (A B : Tile) :
    Task R where
  inputs := [{ A with mode := .r, rows := side.rowDim m n, cols := side.rowDim m n }]
  out := { B with mode := .rw, rows := m, cols := n }
  inserted := [.r, .rw]
  writes := fun _ _ => true
  value := fun block => trsm divZero side uplo transA diag m n alpha (block A) (block B)

/-- A quotient by zero is zero here, as in a field. -/
def insertTaskZtrsm {R : Type*} [Field R] [StarRing R] [DecidableEq R] (side : Side) (uplo : Uplo)
    (transA : Trans) (diag : Diag) (m n : ℕ) (alpha : R) (A B : Tile) : Task R :=
  insertTaskZtrsmWith (fun _ => 0) side uplo transA diag m n alpha A B

/-! ## Execution -/

/-- The arrays of the operands. -/
abbrev State (R : Type*) := Operand → ℕ → R

variable {R : Type*}

/-- The block that a tile points to. -/
def State.block (s : State R) (d : Operand → Descr) (t : Tile) : Block R :=
  entry (s t.mat) ((d t.mat).addr t.m t.n) t.ld.toNat

/-- The kernel accepts the leading dimension of a parameter. -/
def Param.LdOk (p : Param) : Prop :=
  max 1 (p.rows : ℤ) ≤ p.ld

instance (p : Param) : Decidable p.LdOk :=
  inferInstanceAs (Decidable (_ ≤ _))

/-- The body of a task. -/
def Task.exec (d : Operand → Descr) (s : State R) (t : Task R) : State R :=
  if ∀ p ∈ t.params, p.LdOk then
    Function.update s t.out.mat
      (store (s t.out.mat) ((d t.out.mat).addr t.out.m t.out.n) t.out.ld.toNat t.out.rows
        t.out.cols t.writes (t.value (s.block d)))
  else s

/-- The execution of tasks in the order of their insertion. -/
def run (d : Operand → Descr) (tasks : List (Task R)) (s : State R) : State R :=
  tasks.foldl (Task.exec d) s

end Xkblas.Blas
