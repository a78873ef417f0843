import Mathlib.Algebra.BigOperators.Intervals
import Mathlib.Algebra.Field.Basic
import Mathlib.Algebra.Star.Basic
import Mathlib.Algebra.Star.BigOperators

/-!
# The reference kernels

What a kernel of the reference BLAS computes on its blocks, entry by entry. A block is the
function of its entries. The bodies of the tasks call these kernels, from cuBLAS or from the BLAS
library that is loaded.
-/

namespace Xkblas.Blas

open Finset

/-- `CBLAS_SIDE`. -/
inductive Side where
  | left
  | right
  deriving DecidableEq, Repr

/-- `CBLAS_UPLO`. -/
inductive Uplo where
  | upper
  | lower
  deriving DecidableEq, Repr

/-- `CBLAS_TRANSPOSE`. -/
inductive Trans where
  | noTrans
  | trans
  | conjTrans
  deriving DecidableEq, Repr

/-- `CBLAS_DIAG`. -/
inductive Diag where
  | nonUnit
  | unit
  deriving DecidableEq, Repr

/-- The entries of a block. -/
abbrev Block (R : Type*) := ℕ → ℕ → R

variable {R : Type*}

/-- The matrix `op(A)`. -/
def Trans.op [Star R] : Trans → Block R → Block R
  | .noTrans, a => a
  | .trans, a => fun i j => a j i
  | .conjTrans, a => fun i j => star (a j i)

/-- The entry `(i, j)` is in the triangle `uplo`, diagonal included. -/
def Uplo.stores : Uplo → ℕ → ℕ → Bool
  | .upper, i, j => decide (i ≤ j)
  | .lower, i, j => decide (j ≤ i)

/-- The symmetric matrix whose triangle `uplo` is stored in `a`. -/
def symmetric (uplo : Uplo) (a : Block R) : Block R := fun i j =>
  if uplo.stores i j then a i j else a j i

/-- The Hermitian matrix whose triangle `uplo` is stored in `a`. Its diagonal is that of `a`, which
the kernels take as real. -/
def hermitian [Star R] (uplo : Uplo) (a : Block R) : Block R := fun i j =>
  if uplo.stores i j then a i j else star (a j i)

/-- The triangular matrix that `uplo` and `diag` select from `a`. -/
def triangular [Zero R] [One R] (uplo : Uplo) (diag : Diag) (a : Block R) : Block R := fun i j =>
  if i = j then (if diag = .unit then 1 else a i i)
  else if uplo.stores i j then a i j else 0

section Ring

variable [CommRing R] [StarRing R]

/-- `alpha * op(A) * op(B) + beta * C`. -/
def gemm (transA transB : Trans) (k : ℕ) (alpha : R) (a b : Block R) (beta : R) (c : Block R) :
    Block R := fun i j =>
  alpha * ∑ l ∈ range k, transA.op a i l * transB.op b l j + beta * c i j

/-- The product of `B` with the full matrix `a` on one side, `alpha * A * B + beta * C` or
`alpha * B * A + beta * C`. -/
def sideMul (side : Side) (m n : ℕ) (alpha : R) (a b : Block R) (beta : R) (c : Block R) :
    Block R := fun i j =>
  match side with
  | .left => alpha * ∑ l ∈ range m, a i l * b l j + beta * c i j
  | .right => alpha * ∑ l ∈ range n, b i l * a l j + beta * c i j

def symm (side : Side) (uplo : Uplo) (m n : ℕ) (alpha : R) (a b : Block R) (beta : R)
    (c : Block R) : Block R :=
  sideMul side m n alpha (symmetric uplo a) b beta c

def hemm (side : Side) (uplo : Uplo) (m n : ℕ) (alpha : R) (a b : Block R) (beta : R)
    (c : Block R) : Block R :=
  sideMul side m n alpha (hermitian uplo a) b beta c

/-- `alpha * op(A) * op(A)^T + beta * C`; the kernel writes the triangle `uplo`. -/
def syrk (transA : Trans) (k : ℕ) (alpha : R) (a : Block R) (beta : R) (c : Block R) :
    Block R := fun i j =>
  alpha * ∑ l ∈ range k, transA.op a i l * transA.op a j l + beta * c i j

/-- `alpha * op(A) * op(A)^H + beta * C`; the kernel writes the triangle `uplo`. The diagonal of
`C` is used as it is stored, which the kernel takes as real. -/
def herk (transA : Trans) (k : ℕ) (alpha : R) (a : Block R) (beta : R) (c : Block R) :
    Block R := fun i j =>
  alpha * ∑ l ∈ range k, transA.op a i l * star (transA.op a j l) + beta * c i j

/-- `alpha * op(A) * op(B)^T + alpha * op(B) * op(A)^T + beta * C`. -/
def syr2k (transA : Trans) (k : ℕ) (alpha : R) (a b : Block R) (beta : R) (c : Block R) :
    Block R := fun i j =>
  alpha * ∑ l ∈ range k, transA.op a i l * transA.op b j l +
    alpha * ∑ l ∈ range k, transA.op b i l * transA.op a j l + beta * c i j

/-- `alpha * op(A) * op(B)^H + conj(alpha) * op(B) * op(A)^H + beta * C`, with the diagonal of `C`
as it is stored. -/
def her2k (transA : Trans) (k : ℕ) (alpha : R) (a b : Block R) (beta : R) (c : Block R) :
    Block R := fun i j =>
  alpha * ∑ l ∈ range k, transA.op a i l * star (transA.op b j l) +
    star alpha * ∑ l ∈ range k, transA.op b i l * star (transA.op a j l) + beta * c i j

/-- `alpha * op(A) * B` or `alpha * B * op(A)` for a triangular `A`. -/
def trmm (side : Side) (uplo : Uplo) (transA : Trans) (diag : Diag) (m n : ℕ) (alpha : R)
    (a b : Block R) : Block R := fun i j =>
  match side with
  | .left => alpha * ∑ l ∈ range m, transA.op (triangular uplo diag a) i l * b l j
  | .right => alpha * ∑ l ∈ range n, b i l * transA.op (triangular uplo diag a) l j

end Ring

section Field

variable [Field R] [StarRing R] [DecidableEq R]

/-- The quotient of the kernels. That by zero is a parameter. -/
def quotient (divZero : R → R) (x y : R) : R :=
  if y = 0 then divZero x else x / y

/-- The first `n` unknowns of the lower triangular system `T * x = b`, by substitution. -/
def forward (divZero : R → R) (T : Block R) (b : ℕ → R) : ℕ → ℕ → R
  | 0 => fun _ => 0
  | n + 1 =>
      let x := forward divZero T b n
      Function.update x n (quotient divZero (b n - ∑ l ∈ range n, T n l * x l) (T n n))

/-- The solution of the triangular system `T * x = b` of order `n`. An upper triangular one is
solved from its last unknown. -/
def solve (divZero : R → R) (lower : Bool) (n : ℕ) (T : Block R) (b : ℕ → R) : ℕ → R :=
  if lower then forward divZero T b n
  else fun i =>
    forward divZero (fun i l => T (n - 1 - i) (n - 1 - l)) (fun i => b (n - 1 - i)) n (n - 1 - i)

/-- Whether `op(A)` is lower triangular. -/
def lowerOp (uplo : Uplo) (transA : Trans) : Bool :=
  decide (uplo = .lower ↔ transA = .noTrans)

/-- The `X` with `op(A) * X = alpha * B` or `X * op(A) = alpha * B` for a triangular `A`. The kernel
does not read `A` and `B` when `alpha` is zero. -/
def trsm (divZero : R → R) (side : Side) (uplo : Uplo) (transA : Trans) (diag : Diag) (m n : ℕ)
    (alpha : R) (a b : Block R) : Block R := fun i j =>
  let T := transA.op (triangular uplo diag a)
  if alpha = 0 then 0
  else
    match side with
    | .left => solve divZero (lowerOp uplo transA) m T (fun i => alpha * b i j) i
    | .right =>
        solve divZero (!lowerOp uplo transA) n (fun j l => T l j) (fun j => alpha * b i j) j

end Field

end Xkblas.Blas
