import Xkblas.Blas.Triangle

/-!
# The tiled rank updates

`xkblas_zsyrk_async`, `xkblas_zherk_async`, `xkblas_zsyr2k_async` and `xkblas_zher2k_async`. After
the tile `(n, n)` their loops visit the tiles below it, to its right or above it (`Visit`). The
products are those of `op(A)` with its transpose or its conjugate, which a gemm task on the other
tiles takes from the mirrored tile.

In one branch of `xkblas_zher2k_async` a tile of `B` is passed with the leading dimension of `A`.
-/

namespace Xkblas.Blas

open Library Finset

section Drivers

variable {R : Type*} [CommRing R] [StarRing R] [DecidableEq R]

/-- The loops of `xkblas_zsyrk_async` and `xkblas_zherk_async`, which differ in the task on the
diagonal and in the operation on the second factor. -/
def rankKTasks (insertTask : Uplo → Trans → ℕ → ℕ → R → Tile → R → Tile → Task R) (transT : Trans)
    (d : Operand → Descr) (uplo : Uplo) (transA : Trans) (alpha : R) (LDA : ℤ) (beta : R)
    (LDC : ℤ) : List (Task R) :=
  forLoop 0 (d .C).nt fun n =>
    let tempnn := tempSize (d .C).nt (d .C).N (d .C).nb n
    if transA = .noTrans then
      (forLoop 0 (d .A).nt fun k =>
        let tempkn := tempSize (d .A).nt (d .A).N (d .A).nb k
        let zbeta := if k = 0 then beta else 1
        [insertTask uplo transA tempnn tempkn alpha ⟨.A, n, k, LDA⟩ zbeta ⟨.C, n, n, LDC⟩]) ++
      if uplo = .lower then
        forLoop (n + 1) (d .C).mt fun m =>
          let tempmm := tempSize (d .C).mt (d .C).M (d .C).mb m
          forLoop 0 (d .A).nt fun k =>
            let tempkn := tempSize (d .A).nt (d .A).N (d .A).nb k
            let zbeta := if k = 0 then beta else 1
            [insertTaskZgemm transA transT tempmm tempnn tempkn alpha ⟨.A, m, k, LDA⟩
              ⟨.A, n, k, LDA⟩ zbeta ⟨.C, m, n, LDC⟩]
      else
        forLoop (n + 1) (d .C).mt fun m =>
          let tempmm := tempSize (d .C).mt (d .C).M (d .C).mb m
          forLoop 0 (d .A).nt fun k =>
            let tempkn := tempSize (d .A).nt (d .A).N (d .A).nb k
            let zbeta := if k = 0 then beta else 1
            [insertTaskZgemm transA transT tempnn tempmm tempkn alpha ⟨.A, n, k, LDA⟩
              ⟨.A, m, k, LDA⟩ zbeta ⟨.C, n, m, LDC⟩]
    else
      (forLoop 0 (d .A).mt fun k =>
        let tempkm := tempSize (d .A).mt (d .A).M (d .A).mb k
        let zbeta := if k = 0 then beta else 1
        [insertTask uplo transA tempnn tempkm alpha ⟨.A, k, n, LDA⟩ zbeta ⟨.C, n, n, LDC⟩]) ++
      if uplo = .lower then
        forLoop (n + 1) (d .C).mt fun m =>
          let tempmm := tempSize (d .C).mt (d .C).M (d .C).mb m
          forLoop 0 (d .A).mt fun k =>
            let tempkm := tempSize (d .A).mt (d .A).M (d .A).mb k
            let zbeta := if k = 0 then beta else 1
            [insertTaskZgemm transA .noTrans tempmm tempnn tempkm alpha ⟨.A, k, m, LDA⟩
              ⟨.A, k, n, LDA⟩ zbeta ⟨.C, m, n, LDC⟩]
      else
        forLoop (n + 1) (d .C).mt fun m =>
          let tempmm := tempSize (d .C).mt (d .C).M (d .C).mb m
          forLoop 0 (d .A).mt fun k =>
            let tempkm := tempSize (d .A).mt (d .A).M (d .A).mb k
            let zbeta := if k = 0 then beta else 1
            [insertTaskZgemm transA .noTrans tempnn tempmm tempkm alpha ⟨.A, k, n, LDA⟩
              ⟨.A, k, m, LDA⟩ zbeta ⟨.C, n, m, LDC⟩]

/-- The loops of `xkblas_zsyrk_async`. -/
def zsyrkTasks (d : Operand → Descr) (uplo : Uplo) (transA : Trans) (alpha : R) (LDA : ℤ)
    (beta : R) (LDC : ℤ) : List (Task R) :=
  rankKTasks insertTaskZsyrk .trans d uplo transA alpha LDA beta LDC

/-- The loops of `xkblas_zherk_async`. -/
def zherkTasks (d : Operand → Descr) (uplo : Uplo) (transA : Trans) (alpha : R) (LDA : ℤ)
    (beta : R) (LDC : ℤ) : List (Task R) :=
  rankKTasks insertTaskZherk .conjTrans d uplo transA alpha LDA beta LDC

/-- The loops of `xkblas_zsyr2k_async`. -/
def zsyr2kTasks (d : Operand → Descr) (uplo : Uplo) (transA : Trans) (alpha : R) (LDA LDB : ℤ)
    (beta : R) (LDC : ℤ) : List (Task R) :=
  forLoop 0 (d .C).nt fun n =>
    let tempnn := tempSize (d .C).nt (d .C).N (d .C).nb n
    let mmin := if uplo = .lower then n + 1 else 0
    let mmax := if uplo = .lower then (d .C).mt else n
    if transA = .noTrans then
      (forLoop 0 (d .A).nt fun k =>
        let tempkn := tempSize (d .A).nt (d .A).N (d .A).nb k
        let zbeta := if k = 0 then beta else 1
        [insertTaskZsyr2k uplo transA tempnn tempkn alpha ⟨.A, n, k, LDA⟩ ⟨.B, n, k, LDB⟩ zbeta
          ⟨.C, n, n, LDC⟩]) ++
      forLoop mmin mmax fun m =>
        let tempmm := tempSize (d .C).mt (d .C).M (d .C).mb m
        forLoop 0 (d .A).nt fun k =>
          let tempkn := tempSize (d .A).nt (d .A).N (d .A).nb k
          let zbeta := if k = 0 then beta else 1
          [insertTaskZgemm .noTrans .trans tempmm tempnn tempkn alpha ⟨.A, m, k, LDA⟩
              ⟨.B, n, k, LDB⟩ zbeta ⟨.C, m, n, LDC⟩,
            insertTaskZgemm .noTrans .trans tempmm tempnn tempkn alpha ⟨.B, m, k, LDB⟩
              ⟨.A, n, k, LDA⟩ 1 ⟨.C, m, n, LDC⟩]
    else
      (forLoop 0 (d .A).mt fun k =>
        let tempkm := tempSize (d .A).mt (d .A).M (d .A).mb k
        let zbeta := if k = 0 then beta else 1
        [insertTaskZsyr2k uplo transA tempnn tempkm alpha ⟨.A, k, n, LDA⟩ ⟨.B, k, n, LDB⟩ zbeta
          ⟨.C, n, n, LDC⟩]) ++
      forLoop mmin mmax fun m =>
        let tempmm := tempSize (d .C).mt (d .C).M (d .C).mb m
        forLoop 0 (d .A).mt fun k =>
          let tempkm := tempSize (d .A).mt (d .A).M (d .A).mb k
          let zbeta := if k = 0 then beta else 1
          [insertTaskZgemm .trans .noTrans tempmm tempnn tempkm alpha ⟨.A, k, m, LDA⟩
              ⟨.B, k, n, LDB⟩ zbeta ⟨.C, m, n, LDC⟩,
            insertTaskZgemm .trans .noTrans tempmm tempnn tempkm alpha ⟨.B, k, m, LDB⟩
              ⟨.A, k, n, LDA⟩ 1 ⟨.C, m, n, LDC⟩]

/-- The loops of `xkblas_zher2k_async`. -/
def zher2kTasks (d : Operand → Descr) (uplo : Uplo) (transA : Trans) (alpha : R) (LDA LDB : ℤ)
    (beta : R) (LDC : ℤ) : List (Task R) :=
  forLoop 0 (d .C).nt fun n =>
    let tempnn := tempSize (d .C).nt (d .C).N (d .C).nb n
    if transA = .noTrans then
      (forLoop 0 (d .A).nt fun k =>
        let tempkn := tempSize (d .A).nt (d .A).N (d .A).nb k
        let dbeta := if k = 0 then beta else 1
        [insertTaskZher2k uplo transA tempnn tempkn alpha ⟨.A, n, k, LDA⟩ ⟨.B, n, k, LDB⟩ dbeta
          ⟨.C, n, n, LDC⟩]) ++
      if uplo = .lower then
        forLoop (n + 1) (d .C).mt fun m =>
          let tempmm := tempSize (d .C).mt (d .C).M (d .C).mb m
          forLoop 0 (d .A).nt fun k =>
            let tempkn := tempSize (d .A).nt (d .A).N (d .A).nb k
            let zbeta := if k = 0 then beta else 1
            [insertTaskZgemm transA .conjTrans tempmm tempnn tempkn alpha ⟨.A, m, k, LDA⟩
                ⟨.B, n, k, LDB⟩ zbeta ⟨.C, m, n, LDC⟩,
              insertTaskZgemm transA .conjTrans tempmm tempnn tempkn (star alpha) ⟨.B, m, k, LDB⟩
                ⟨.A, n, k, LDA⟩ 1 ⟨.C, m, n, LDC⟩]
      else
        forLoop (n + 1) (d .C).mt fun m =>
          let tempmm := tempSize (d .C).mt (d .C).M (d .C).mb m
          forLoop 0 (d .A).nt fun k =>
            let tempkn := tempSize (d .A).nt (d .A).N (d .A).nb k
            let zbeta := if k = 0 then beta else 1
            -- the leading dimension of the second `B(n, k)` is `ldan`
            [insertTaskZgemm transA .conjTrans tempnn tempmm tempkn alpha ⟨.A, n, k, LDA⟩
                ⟨.B, m, k, LDB⟩ zbeta ⟨.C, n, m, LDC⟩,
              insertTaskZgemm transA .conjTrans tempnn tempmm tempkn (star alpha) ⟨.B, n, k, LDA⟩
                ⟨.A, m, k, LDA⟩ 1 ⟨.C, n, m, LDC⟩]
    else
      (forLoop 0 (d .A).mt fun k =>
        let tempkm := tempSize (d .A).mt (d .A).M (d .A).mb k
        let dbeta := if k = 0 then beta else 1
        [insertTaskZher2k uplo transA tempnn tempkm alpha ⟨.A, k, n, LDA⟩ ⟨.B, k, n, LDB⟩ dbeta
          ⟨.C, n, n, LDC⟩]) ++
      if uplo = .lower then
        forLoop (n + 1) (d .C).mt fun m =>
          let tempmm := tempSize (d .C).mt (d .C).M (d .C).mb m
          forLoop 0 (d .A).mt fun k =>
            let tempkm := tempSize (d .A).mt (d .A).M (d .A).mb k
            let zbeta := if k = 0 then beta else 1
            [insertTaskZgemm transA .noTrans tempmm tempnn tempkm alpha ⟨.A, k, m, LDA⟩
                ⟨.B, k, n, LDB⟩ zbeta ⟨.C, m, n, LDC⟩,
              insertTaskZgemm transA .noTrans tempmm tempnn tempkm (star alpha) ⟨.B, k, m, LDB⟩
                ⟨.A, k, n, LDA⟩ 1 ⟨.C, m, n, LDC⟩]
      else
        forLoop (n + 1) (d .C).mt fun m =>
          let tempmm := tempSize (d .C).mt (d .C).M (d .C).mb m
          forLoop 0 (d .A).mt fun k =>
            let tempkm := tempSize (d .A).mt (d .A).M (d .A).mb k
            let zbeta := if k = 0 then beta else 1
            [insertTaskZgemm transA .noTrans tempnn tempmm tempkm alpha ⟨.A, k, n, LDA⟩
                ⟨.B, k, m, LDB⟩ zbeta ⟨.C, n, m, LDC⟩,
              insertTaskZgemm transA .noTrans tempnn tempmm tempkm (star alpha) ⟨.B, k, n, LDB⟩
                ⟨.A, k, m, LDA⟩ 1 ⟨.C, n, m, LDC⟩]

/-- The descriptors of a call of a rank `k` update that initialises them. It has no `B`. -/
def rankKDescr (NB : ℕ) (transA : Trans) (N K : ℕ) (LDA LDC : ℤ) : Operand → Descr
  | .A => initMatrixHandle (transA.size N K).1 (transA.size N K).2 (toSize LDA) NB NB
  | .B => initMatrixHandle 0 0 1 NB NB
  | .C => initMatrixHandle N N (toSize LDC) NB NB

/-- The descriptors of a call of a rank `2k` update that initialises them. -/
def rank2KDescr (NB : ℕ) (transA : Trans) (N K : ℕ) (LDA LDB LDC : ℤ) : Operand → Descr
  | .A => initMatrixHandle (transA.size N K).1 (transA.size N K).2 (toSize LDA) NB NB
  | .B => initMatrixHandle (transA.size N K).1 (transA.size N K).2 (toSize LDB) NB NB
  | .C => initMatrixHandle N N (toSize LDC) NB NB

/-- The checks of the arguments and the quick return of a rank `k` update. -/
def rankKChecks (transT transA : Trans) (N K : ℤ) (alpha : R) (LDA : ℤ) (beta : R) (LDC : ℤ)
    (tasks : List (Task R)) : Except ℤ (List (Task R)) :=
  let Am := (transA.size N.toNat K.toNat).1
  if transA ≠ .noTrans ∧ transA ≠ transT then .error (-2)
  else if N < 0 then .error (-3)
  else if K < 0 then .error (-4)
  else if illegalLd LDA Am then .error (-7)
  else if illegalLd LDC N.toNat then .error (-10)
  else if N = 0 ∨ ((alpha = 0 ∨ K = 0) ∧ beta = 1) then .ok []
  else .ok tasks

/-- The checks of the arguments and the quick return of a rank `2k` update. -/
def rank2KChecks (transT transA : Trans) (N K : ℤ) (alpha : R) (LDA LDB : ℤ) (beta : R) (LDC : ℤ)
    (tasks : List (Task R)) : Except ℤ (List (Task R)) :=
  let Am := (transA.size N.toNat K.toNat).1
  if transA ≠ .noTrans ∧ transA ≠ transT then .error (-2)
  else if N < 0 then .error (-3)
  else if K < 0 then .error (-4)
  else if illegalLd LDA Am then .error (-7)
  else if illegalLd LDB Am then .error (-9)
  else if illegalLd LDC N.toNat then .error (-12)
  else if N = 0 ∨ ((alpha = 0 ∨ K = 0) ∧ beta = 1) then .ok []
  else .ok tasks

/-- `xkblas_zsyrk_async`: the tasks that it inserts, or the error code that it returns. -/
def zsyrkAsync (NB : ℕ) (uplo : Uplo) (transA : Trans) (N K : ℤ) (alpha : R) (LDA : ℤ) (beta : R)
    (LDC : ℤ) : Except ℤ (List (Task R)) :=
  rankKChecks .trans transA N K alpha LDA beta LDC
    (zsyrkTasks (rankKDescr NB transA N.toNat K.toNat LDA LDC) uplo transA alpha LDA beta LDC)

/-- `xkblas_zherk_async`. -/
def zherkAsync (NB : ℕ) (uplo : Uplo) (transA : Trans) (N K : ℤ) (alpha : R) (LDA : ℤ) (beta : R)
    (LDC : ℤ) : Except ℤ (List (Task R)) :=
  rankKChecks .conjTrans transA N K alpha LDA beta LDC
    (zherkTasks (rankKDescr NB transA N.toNat K.toNat LDA LDC) uplo transA alpha LDA beta LDC)

/-- `xkblas_zsyr2k_async`. -/
def zsyr2kAsync (NB : ℕ) (uplo : Uplo) (transA : Trans) (N K : ℤ) (alpha : R) (LDA LDB : ℤ)
    (beta : R) (LDC : ℤ) : Except ℤ (List (Task R)) :=
  rank2KChecks .trans transA N K alpha LDA LDB beta LDC
    (zsyr2kTasks (rank2KDescr NB transA N.toNat K.toNat LDA LDB LDC) uplo transA alpha LDA LDB beta
      LDC)

/-- `xkblas_zher2k_async`. -/
def zher2kAsync (NB : ℕ) (uplo : Uplo) (transA : Trans) (N K : ℤ) (alpha : R) (LDA LDB : ℤ)
    (beta : R) (LDC : ℤ) : Except ℤ (List (Task R)) :=
  rank2KChecks .conjTrans transA N K alpha LDA LDB beta LDC
    (zher2kTasks (rank2KDescr NB transA N.toNat K.toNat LDA LDB LDC) uplo transA alpha LDA LDB beta
      LDC)

end Drivers

/-! ## The common form -/

section Form

variable {R : Type*} [CommRing R] [StarRing R]

/-- The conjugation of the second factor, if the operation `transT` conjugates. -/
def Trans.conj (transT : Trans) (x : R) : R :=
  if transT = .conjTrans then star x else x

/-- The operation on the mirrored tile. -/
def Trans.mate (transT transA : Trans) : Trans :=
  if transA = .noTrans then transT else .noTrans

/-- The mirrored tile is the transpose, or the conjugate, of `op(A)`. -/
theorem mate_op {transT transA : Trans} (htrans : transT ≠ .noTrans)
    (hA : transA = .noTrans ∨ transA = transT) (a : Block R) (l j : ℕ) :
    (transT.mate transA).op a l j = transT.conj (transA.op a j l) := by
  rcases hA with rfl | rfl
  · cases transT with
    | noTrans => exact absurd rfl htrans
    | trans => rfl
    | conjTrans => rfl
  · cases transA with
    | noTrans => exact absurd rfl htrans
    | trans => rfl
    | conjTrans => exact (star_star (a l j)).symm

/-- The kernels of the rank `k` updates. -/
def rankK (transT transA : Trans) (k : ℕ) (alpha : R) (a : Block R) (beta : R) (c : Block R) :
    Block R := fun i j =>
  alpha * ∑ l ∈ range k, transA.op a i l * transT.conj (transA.op a j l) + beta * c i j

/-- The kernels of the rank `2k` updates. -/
def rank2K (transT transA : Trans) (k : ℕ) (alpha : R) (a b : Block R) (beta : R) (c : Block R) :
    Block R := fun i j =>
  alpha * ∑ l ∈ range k, transA.op a i l * transT.conj (transA.op b j l) +
    transT.conj alpha * ∑ l ∈ range k, transA.op b i l * transT.conj (transA.op a j l) +
    beta * c i j

theorem Trans.mate_size (transT transA : Trans) (htrans : transT ≠ .noTrans) (N K : ℕ) :
    (transT.mate transA).size K N = transA.size N K := by
  cases transT <;> cases transA <;> first | rfl | exact absurd rfl htrans

end Form

section Tasks

variable {R : Type*} [CommRing R] [StarRing R] [DecidableEq R] {d : Operand → Descr}
  {s₀ : State R} {mode : R → Mode} {transT transA : Trans} {uplo : Uplo} {NB N K m n k i j : ℕ}
  {alpha beta : R} {LDA LDB LDB' LDC : ℤ}

/-- The task on the diagonal of a rank `k` update. -/
def insertTaskRankK (mode : R → Mode) (transT : Trans) (uplo : Uplo) (transA : Trans) (n k : ℕ)
    (alpha : R) (A : Tile) (beta : R) (C : Tile) : Task R where
  inputs := [{ A with mode := .r, rows := transA.rowDim n k, cols := transA.colDim n k }]
  out := { C with mode := mode beta, rows := n, cols := n }
  inserted := [.r, mode beta]
  writes := uplo.stores
  value := fun block => rankK transT transA k alpha (block A) beta (block C)

/-- The task on the diagonal of a rank `2k` update. -/
def insertTaskRank2K (mode : R → Mode) (transT : Trans) (uplo : Uplo) (transA : Trans) (n k : ℕ)
    (alpha : R) (A B : Tile) (beta : R) (C : Tile) : Task R where
  inputs :=
    [{ A with mode := .r, rows := transA.rowDim n k, cols := transA.colDim n k },
      { B with mode := .r, rows := transA.rowDim n k, cols := transA.colDim n k }]
  out := { C with mode := mode beta, rows := n, cols := n }
  inserted := [.r, if transT = .conjTrans then .rw else .r, mode beta]
  writes := uplo.stores
  value := fun block => rank2K transT transA k alpha (block A) (block B) beta (block C)

/-- The tasks of a rank `k` update on the tile `(m, n)` of `C`. -/
def rankKBody (mode : R → Mode) (transT : Trans) (uplo : Uplo) (transA : Trans) (NB N K : ℕ)
    (alpha : R) (LDA : ℤ) (beta : R) (LDC : ℤ) (m n : ℕ) : List (Task R) :=
  forLoop 0 (numTiles K NB) fun k =>
    let zbeta := if k = 0 then beta else 1
    if m = n then
      [insertTaskRankK mode transT uplo transA (tileSize N NB n) (tileSize K NB k) alpha
        (transA.tile .A n k LDA) zbeta ⟨.C, n, n, LDC⟩]
    else
      [gemmTask transA (transT.mate transA) NB N N K alpha .A LDA .A LDA zbeta .C LDC m n k]

/-- The loops of a rank `k` update. -/
theorem rankKTasks_eq (hNB : 0 < NB) (htrans : transT ≠ .noTrans) :
    rankKTasks (insertTaskRankK mode transT) transT (rankKDescr NB transA N K LDA LDC) uplo transA
        alpha LDA beta LDC =
      triangleLoops uplo.belowOrRight (numTiles N NB)
        (rankKBody mode transT uplo transA NB N K alpha LDA beta LDC) := by
  refine forLoop_congr fun n _ (hn : n < numTiles N NB) => ?_
  cases transA <;> cases uplo
  all_goals
    refine congrArg₂ (· ++ ·) (forLoop_congr fun k _ (hk : k < numTiles K NB) => ?_)
      (forLoop_congr fun m hm (hmt : m < numTiles N NB) =>
        forLoop_congr fun k _ (hk : k < numTiles K NB) => ?_)
    · simp [rankKDescr, initMatrixHandle, Trans.size, Trans.tile, tempSize_eq hNB hn,
        tempSize_eq hNB hk]
    · have hlt : n < m := hm
      simp [rankKDescr, initMatrixHandle, Trans.size, Trans.tile, Trans.mate, Uplo.belowOrRight,
        Visit.tile, tempSize_eq hNB hn, tempSize_eq hNB hmt, tempSize_eq hNB hk, gemmTask,
        hlt.ne, hlt.ne', htrans]

/-- The loops of `xkblas_zsyrk_async`. -/
theorem zsyrkTasks_eq (hNB : 0 < NB) :
    zsyrkTasks (rankKDescr NB transA N K LDA LDC) uplo transA alpha LDA beta LDC =
      triangleLoops uplo.belowOrRight (numTiles N NB)
        (rankKBody betaMode .trans uplo transA NB N K alpha LDA beta LDC) := by
  have hinsert : (insertTaskZsyrk : Uplo → Trans → ℕ → ℕ → R → Tile → R → Tile → Task R) =
      insertTaskRankK betaMode .trans := rfl
  unfold zsyrkTasks
  rw [hinsert, rankKTasks_eq hNB (by decide)]

/-- The loops of `xkblas_zherk_async`. -/
theorem zherkTasks_eq (hNB : 0 < NB) :
    zherkTasks (rankKDescr NB transA N K LDA LDC) uplo transA alpha LDA beta LDC =
      triangleLoops uplo.belowOrRight (numTiles N NB)
        (rankKBody (fun _ => .rw) .conjTrans uplo transA NB N K alpha LDA beta LDC) := by
  have hinsert : (insertTaskZherk : Uplo → Trans → ℕ → ℕ → R → Tile → R → Tile → Task R) =
      insertTaskRankK (fun _ => .rw) .conjTrans := rfl
  unfold zherkTasks
  rw [hinsert, rankKTasks_eq hNB (by decide)]

/-- The tasks of a rank `2k` update on the tile `(m, n)` of `C`. Outside of the diagonal the second
task takes the tile of `B` with the leading dimension `LDB'`. -/
def rank2KBody (mode : R → Mode) (transT : Trans) (uplo : Uplo) (transA : Trans) (NB N K : ℕ)
    (alpha : R) (LDA LDB LDB' : ℤ) (beta : R) (LDC : ℤ) (m n : ℕ) : List (Task R) :=
  forLoop 0 (numTiles K NB) fun k =>
    let zbeta := if k = 0 then beta else 1
    if m = n then
      [insertTaskRank2K mode transT uplo transA (tileSize N NB n) (tileSize K NB k) alpha
        (transA.tile .A n k LDA) (transA.tile .B n k LDB) zbeta ⟨.C, n, n, LDC⟩]
    else
      [gemmTask transA (transT.mate transA) NB N N K alpha .A LDA .B LDB zbeta .C LDC m n k,
        gemmTask transA (transT.mate transA) NB N N K (transT.conj alpha) .B LDB' .A LDA 1 .C LDC
          m n k]

/-- The loops of `xkblas_zsyr2k_async`. -/
theorem zsyr2kTasks_eq (hNB : 0 < NB) (hA : transA = .noTrans ∨ transA = .trans) :
    zsyr2kTasks (rank2KDescr NB transA N K LDA LDB LDC) uplo transA alpha LDA LDB beta LDC =
      triangleLoops uplo.belowOrAbove (numTiles N NB)
        (rank2KBody betaMode .trans uplo transA NB N K alpha LDA LDB LDB beta LDC) := by
  refine forLoop_congr fun n _ (hn : n < numTiles N NB) => ?_
  rcases hA with rfl | rfl <;> cases uplo
  all_goals
    refine congrArg₂ (· ++ ·) (forLoop_congr fun k _ (hk : k < numTiles K NB) => ?_)
      (forLoop_congr fun m hm hmt => forLoop_congr fun k _ (hk : k < numTiles K NB) => ?_)
    · simp [rank2KDescr, initMatrixHandle, Trans.size, Trans.tile, tempSize_eq hNB hn,
        tempSize_eq hNB hk]
      rfl
    · have hmt : m < numTiles N NB ∧ m ≠ n := by
        simp [rank2KDescr, initMatrixHandle] at hm hmt
        omega
      simp [rank2KDescr, initMatrixHandle, Trans.size, Trans.tile, Trans.mate, Uplo.belowOrAbove,
        Visit.tile, tempSize_eq hNB hn, tempSize_eq hNB hmt.1, tempSize_eq hNB hk, gemmTask, hmt.2,
        Trans.conj]

/-- The leading dimension that `xkblas_zher2k_async` passes with the tile of `B` in the second
task. -/
def zher2kLd (uplo : Uplo) (transA : Trans) (LDA LDB : ℤ) : ℤ :=
  if uplo = .upper ∧ transA = .noTrans then LDA else LDB

/-- The loops of `xkblas_zher2k_async`. -/
theorem zher2kTasks_eq (hNB : 0 < NB) :
    zher2kTasks (rank2KDescr NB transA N K LDA LDB LDC) uplo transA alpha LDA LDB beta LDC =
      triangleLoops uplo.belowOrRight (numTiles N NB)
        (rank2KBody (fun _ => .rw) .conjTrans uplo transA NB N K alpha LDA LDB
          (zher2kLd uplo transA LDA LDB) beta LDC) := by
  refine forLoop_congr fun n _ (hn : n < numTiles N NB) => ?_
  cases transA <;> cases uplo
  all_goals
    refine congrArg₂ (· ++ ·) (forLoop_congr fun k _ (hk : k < numTiles K NB) => ?_)
      (forLoop_congr fun m hm (hmt : m < numTiles N NB) =>
        forLoop_congr fun k _ (hk : k < numTiles K NB) => ?_)
    · simp [rank2KDescr, initMatrixHandle, Trans.size, Trans.tile, tempSize_eq hNB hn,
        tempSize_eq hNB hk]
      rfl
    · have hlt : n < m := hm
      simp [rank2KDescr, initMatrixHandle, Trans.size, Trans.tile, Trans.mate, Uplo.belowOrRight,
        Visit.tile, tempSize_eq hNB hn, tempSize_eq hNB hmt, tempSize_eq hNB hk, gemmTask, hlt.ne,
        hlt.ne', Trans.conj, zher2kLd]

omit [CommRing R] [StarRing R] [DecidableEq R] in
theorem Descr.TiledOp.mate {X : Operand} (h : (d X).TiledOp transA NB N K LDA)
    (htrans : transT ≠ .noTrans) : (d X).TiledOp (transT.mate transA) NB K N LDA := by
  rwa [Descr.TiledOp, Trans.mate_size _ _ htrans]

omit [DecidableEq R] in
/-- The task on the tile `(n, n)` of a rank `k` update names tiles. -/
theorem rankKDiagonal_fitsTile (hd : ∀ X, (d X).Valid) (hA : (d .A).TiledOp transA NB N K LDA)
    (hC : (d .C).Tiled NB N N LDC) (hn : n < numTiles N NB) (hk : k < numTiles K NB) :
    (insertTaskRankK mode transT uplo transA (tileSize N NB n) (tileSize K NB k) alpha
      (transA.tile .A n k LDA) beta ⟨.C, n, n, LDC⟩).FitsTile d .C n n := by
  refine Task.Fits.fitsTile ?_ hd rfl rfl rfl
  intro p hp
  simp only [Task.params, insertTaskRankK, List.cons_append, List.nil_append, List.mem_cons,
    List.not_mem_nil, or_false] at hp
  rcases hp with rfl | rfl
  · exact hA.fits hn hk .r
  · exact hC.fits hn hn _

/-- The tasks of a rank `k` update name tiles. -/
theorem rankKBody_fitsTile (hd : ∀ X, (d X).Valid) (hA : (d .A).TiledOp transA NB N K LDA)
    (hC : (d .C).Tiled NB N N LDC) (htrans : transT ≠ .noTrans) (hm : m < numTiles N NB)
    (hn : n < numTiles N NB) {t : Task R}
    (ht : t ∈ rankKBody mode transT uplo transA NB N K alpha LDA beta LDC m n) :
    t.FitsTile d .C m n := by
  obtain ⟨k, ⟨_, hk⟩, ht⟩ := mem_forLoop.mp ht
  by_cases hmn : m = n
  · subst hmn
    simp only [if_true, List.mem_singleton] at ht
    subst ht
    exact rankKDiagonal_fitsTile hd hA hC hm hk
  · simp only [if_neg hmn, List.mem_singleton] at ht
    subst ht
    exact gemmTask_fitsTile hd hA (hA.mate htrans) hC hm hn hk

/-- One iteration of a rank `k` update. -/
theorem acts_rankKStep (hd : ∀ X, (d X).Valid) (hA : (d .A).TiledOp transA NB N K LDA)
    (hC : (d .C).Tiled NB N N LDC) (htrans : transT ≠ .noTrans)
    (hadm : transA = .noTrans ∨ transA = transT) (hk : k < numTiles K NB) (hi : i < N) (hj : j < N)
    (htile : uplo.stores (i / NB) (j / NB) = true) :
    ActsOn d s₀ .C i j
      (if i / NB = j / NB then
        [insertTaskRankK mode transT uplo transA (tileSize N NB (j / NB)) (tileSize K NB k) alpha
          (transA.tile .A (j / NB) k LDA) beta ⟨.C, j / NB, j / NB, LDC⟩]
      else
        [gemmTask transA (transT.mate transA) NB N N K alpha .A LDA .A LDA beta .C LDC (i / NB)
          (j / NB) k]) fun x =>
        if uplo.stores i j = true then
          alpha * ∑ l ∈ range (tileSize K NB k), transA.op (s₀.get d .A) i (k * NB + l) *
            transT.conj (transA.op (s₀.get d .A) j (k * NB + l)) + beta * x
        else x := by
  have hNB : 0 < NB := hC.mb_eq ▸ hC.mb_pos
  split
  next heq =>
    have hi' : j / NB * NB + (i - i / NB * NB) = i := by rw [← heq, tile_add_sub]
    refine acts_diagonalTask hd hC ?_ hi hj heq rfl fun s hs => ?_
    · rw [heq]
      exact (rankKDiagonal_fitsTile hd hA hC (div_lt_numTiles hNB hj) hk).toOnTile
    · show rankK transT transA _ alpha _ beta _ _ _ = _
      unfold rankK
      simp only [hC.block_apply, Descr.Tiled.op_block hA, hi', tile_add_sub,
        hs.get_funext (show Operand.A ≠ .C by decide)]
  next hne =>
    have hstores : uplo.stores i j = true := by
      rw [uplo.stores_of_tile_ne rfl rfl hne]
      exact htile
    refine (acts_gemmTask hd hA (hA.mate htrans) hC (by decide) (by decide) hi hj hk).congr
      fun x => ?_
    simp only [if_pos hstores, mate_op htrans hadm]

/-- A rank `k` update of the elements of the triangle. -/
theorem acts_rankKBody (hd : ∀ X, (d X).Valid) (hA : (d .A).TiledOp transA NB N K LDA)
    (hC : (d .C).Tiled NB N N LDC) (htrans : transT ≠ .noTrans)
    (hadm : transA = .noTrans ∨ transA = transT) (hK : 1 ≤ K) (hi : i < N) (hj : j < N)
    (htile : uplo.stores (i / NB) (j / NB) = true) :
    ActsOn d s₀ .C i j
      (rankKBody mode transT uplo transA NB N K alpha LDA beta LDC (i / NB) (j / NB)) fun x =>
        if uplo.stores i j = true then
          alpha * ∑ l ∈ range K, transA.op (s₀.get d .A) i l *
            transT.conj (transA.op (s₀.get d .A) j l) + beta * x
        else x := by
  have hNB : 0 < NB := hC.mb_eq ▸ hC.mb_pos
  refine (Acts.forLoop_accumulate_if (numTiles_pos hNB hK) fun k hk =>
    acts_rankKStep hd hA hC htrans hadm hk hi hj htile).congr fun x => ?_
  rw [sum_mul_tiles hNB alpha fun l => transA.op (s₀.get d .A) i l *
    transT.conj (transA.op (s₀.get d .A) j l)]

/-- The kernel accepts a tile with the leading dimension of another matrix of the same size. -/
theorem ldOk_tile (transX : Trans) (X : Operand) {M : ℕ} {ldx : ℤ} (hNB : 0 < NB)
    (hm : m < numTiles M NB) (hk : k < numTiles K NB)
    (hld : max 1 ((transX.size M K).1 : ℤ) ≤ ldx) :
    Param.LdOk ⟨transX.tile X m k ldx, .r, transX.rowDim (tileSize M NB m) (tileSize K NB k),
      transX.colDim (tileSize M NB m) (tileSize K NB k)⟩ := by
  have hrow := tile_le hNB hm
  have hcol := tile_le hNB hk
  unfold Param.LdOk
  cases transX <;> simp [Trans.size, Trans.rowDim, Trans.tile] at hld ⊢ <;> omega

/-- The factor of the second product of a rank `2k` update: outside of the diagonal it is taken
from `B` with the leading dimension `LDB'`. -/
def rank2KFactor (d : Operand → Descr) (s : State R) (transA : Trans) (NB : ℕ) (LDB' : ℤ)
    (i j k l : ℕ) : R :=
  if i / NB = j / NB then transA.op (s.get d .B) i (k * NB + l)
  else transA.op (s.block d (transA.tile .B (i / NB) k LDB')) (i - i / NB * NB) l

omit [DecidableEq R] in
/-- The task on the tile `(n, n)` of a rank `2k` update names tiles. -/
theorem rank2KDiagonal_fitsTile (hd : ∀ X, (d X).Valid) (hA : (d .A).TiledOp transA NB N K LDA)
    (hB : (d .B).TiledOp transA NB N K LDB) (hC : (d .C).Tiled NB N N LDC)
    (hn : n < numTiles N NB) (hk : k < numTiles K NB) :
    (insertTaskRank2K mode transT uplo transA (tileSize N NB n) (tileSize K NB k) alpha
      (transA.tile .A n k LDA) (transA.tile .B n k LDB) beta ⟨.C, n, n, LDC⟩).FitsTile d .C n
      n := by
  refine Task.Fits.fitsTile ?_ hd rfl rfl rfl
  intro p hp
  simp only [Task.params, insertTaskRank2K, List.cons_append, List.nil_append, List.mem_cons,
    List.not_mem_nil, or_false] at hp
  rcases hp with rfl | rfl | rfl
  · exact hA.fits hn hk .r
  · exact hB.fits hn hk .r
  · exact hC.fits hn hn _

/-- The tasks of a rank `2k` update write their tile of `C`. -/
theorem rank2KBody_onTile (hd : ∀ X, (d X).Valid) (hA : (d .A).TiledOp transA NB N K LDA)
    (hB : (d .B).TiledOp transA NB N K LDB) (hC : (d .C).Tiled NB N N LDC)
    (hLDB' : max 1 ((transA.size N K).1 : ℤ) ≤ LDB') (htrans : transT ≠ .noTrans)
    (hm : m < numTiles N NB) (hn : n < numTiles N NB) {t : Task R}
    (ht : t ∈ rank2KBody mode transT uplo transA NB N K alpha LDA LDB LDB' beta LDC m n) :
    t.OnTile d .C m n := by
  have hNB : 0 < NB := hC.mb_eq ▸ hC.mb_pos
  obtain ⟨k, ⟨_, hk⟩, ht⟩ := mem_forLoop.mp ht
  by_cases hmn : m = n
  · subst hmn
    simp only [if_true, List.mem_singleton] at ht
    subst ht
    exact (rank2KDiagonal_fitsTile hd hA hB hC hm hk).toOnTile
  · simp only [if_neg hmn, List.mem_cons, List.not_mem_nil, or_false] at ht
    rcases ht with rfl | rfl
    · exact (gemmTask_fitsTile hd hA (hB.mate htrans) hC hm hn hk).toOnTile
    · exact gemmTask_onTile hd (ldOk_tile transA .B hNB hm hk hLDB') (hA.mate htrans) hC hm hn hk

/-- One iteration of a rank `2k` update. -/
theorem acts_rank2KStep (hd : ∀ X, (d X).Valid) (hA : (d .A).TiledOp transA NB N K LDA)
    (hB : (d .B).TiledOp transA NB N K LDB) (hC : (d .C).Tiled NB N N LDC)
    (hLDB' : max 1 ((transA.size N K).1 : ℤ) ≤ LDB') (htrans : transT ≠ .noTrans)
    (hadm : transA = .noTrans ∨ transA = transT) (hk : k < numTiles K NB) (hi : i < N) (hj : j < N)
    (htile : uplo.stores (i / NB) (j / NB) = true) :
    ActsOn d s₀ .C i j
      (if i / NB = j / NB then
        [insertTaskRank2K mode transT uplo transA (tileSize N NB (j / NB)) (tileSize K NB k) alpha
          (transA.tile .A (j / NB) k LDA) (transA.tile .B (j / NB) k LDB) beta
          ⟨.C, j / NB, j / NB, LDC⟩]
      else
        [gemmTask transA (transT.mate transA) NB N N K alpha .A LDA .B LDB beta .C LDC (i / NB)
            (j / NB) k,
          gemmTask transA (transT.mate transA) NB N N K (transT.conj alpha) .B LDB' .A LDA 1 .C LDC
            (i / NB) (j / NB) k]) fun x =>
        if uplo.stores i j = true then
          alpha * ∑ l ∈ range (tileSize K NB k), transA.op (s₀.get d .A) i (k * NB + l) *
              transT.conj (transA.op (s₀.get d .B) j (k * NB + l)) +
            transT.conj alpha * ∑ l ∈ range (tileSize K NB k),
              rank2KFactor d s₀ transA NB LDB' i j k l *
                transT.conj (transA.op (s₀.get d .A) j (k * NB + l)) +
            beta * x
        else x := by
  have hNB : 0 < NB := hC.mb_eq ▸ hC.mb_pos
  unfold rank2KFactor
  split
  next heq =>
    have hi' : j / NB * NB + (i - i / NB * NB) = i := by rw [← heq, tile_add_sub]
    refine acts_diagonalTask hd hC ?_ hi hj heq rfl fun s hs => ?_
    · rw [heq]
      exact (rank2KDiagonal_fitsTile hd hA hB hC (div_lt_numTiles hNB hj) hk).toOnTile
    · show rank2K transT transA _ alpha _ _ beta _ _ _ = _
      unfold rank2K
      simp only [hC.block_apply, Descr.Tiled.op_block hA, Descr.Tiled.op_block hB, hi',
        tile_add_sub, hs.get_funext (show Operand.A ≠ .C by decide),
        hs.get_funext (show Operand.B ≠ .C by decide)]
  next hne =>
    have hstores : uplo.stores i j = true := by
      rw [uplo.stores_of_tile_ne rfl rfl hne]
      exact htile
    have hldB := ldOk_tile transA .B hNB (div_lt_numTiles hNB hi) hk hLDB'
    refine ((acts_gemmTask hd hA (hB.mate htrans) hC (by decide) (by decide) hi hj hk).cons
      (acts_gemmTask_strided hd hldB (hA.mate htrans) hC (by decide) (by decide) hi hj hk)).congr
      fun x => ?_
    simp only [if_pos hstores, mate_op htrans hadm]
    ring

/-- The second product of a rank `2k` update, as its tasks compute it. -/
def rank2KSecond (d : Operand → Descr) (s : State R) (transT transA : Trans) (NB K : ℕ)
    (LDB' : ℤ) (i j : ℕ) : R :=
  ∑ k ∈ range (numTiles K NB), ∑ l ∈ range (tileSize K NB k),
    rank2KFactor d s transA NB LDB' i j k l * transT.conj (transA.op (s.get d .A) j (k * NB + l))

/-- `C` after the loops of a rank `2k` update. -/
theorem run_rank2KLoops (hd : ∀ X, (d X).Valid) (hA : (d .A).TiledOp transA NB N K LDA)
    (hB : (d .B).TiledOp transA NB N K LDB) (hC : (d .C).Tiled NB N N LDC)
    (hLDB' : max 1 ((transA.size N K).1 : ℤ) ≤ LDB') (htrans : transT ≠ .noTrans)
    (hadm : transA = .noTrans ∨ transA = transT) (hK : 1 ≤ K) {v : Visit} (hv : v.uplo = uplo)
    (s : State R) :
    run d (triangleLoops v (numTiles N NB)
        (rank2KBody mode transT uplo transA NB N K alpha LDA LDB LDB' beta LDC)) s =
      Function.update s .C (store (s .C) 0 (d .C).ld N N uplo.stores fun i j =>
        alpha * ∑ l ∈ range K, transA.op (s.get d .A) i l *
            transT.conj (transA.op (s.get d .B) j l) +
          transT.conj alpha * rank2KSecond d s transT transA NB K LDB' i j +
          beta * s.get d .C i j) := by
  have hNB : 0 < NB := hC.mb_eq ▸ hC.mb_pos
  subst hv
  refine run_triangleLoops hd hC
    (fun m hm n hn _ t ht => rank2KBody_onTile hd hA hB hC hLDB' htrans hm hn ht)
    fun i hi j hj htile => ⟨_, Acts.congr (Acts.forLoop_accumulate_if (numTiles_pos hNB hK)
      fun k hk => acts_rank2KStep hd hA hB hC hLDB' htrans hadm hk hi hj htile) fun x => rfl, ?_⟩
  unfold rank2KSecond
  rw [sum_add_distrib, sum_mul_tiles hNB alpha fun l => transA.op (s.get d .A) i l *
    transT.conj (transA.op (s.get d .B) j l), ← mul_sum]

/-- `C` after the loops of a rank `k` update. -/
theorem run_rankKLoops (hd : ∀ X, (d X).Valid) (hA : (d .A).TiledOp transA NB N K LDA)
    (hC : (d .C).Tiled NB N N LDC) (htrans : transT ≠ .noTrans)
    (hadm : transA = .noTrans ∨ transA = transT) (hK : 1 ≤ K) {v : Visit} (hv : v.uplo = uplo)
    (s : State R) :
    run d (triangleLoops v (numTiles N NB)
        (rankKBody mode transT uplo transA NB N K alpha LDA beta LDC)) s =
      Function.update s .C (store (s .C) 0 (d .C).ld N N uplo.stores
        (rankK transT transA K alpha (s.get d .A) beta (s.get d .C))) := by
  subst hv
  exact run_triangleLoops hd hC
    (fun m hm n hn _ t ht => (rankKBody_fitsTile hd hA hC htrans hm hn ht).toOnTile)
    fun i hi j hj htile => ⟨_, acts_rankKBody hd hA hC htrans hadm hK hi hj htile, rfl⟩

omit [DecidableEq R] in
/-- When the second product is right: `B` has the leading dimension of `A`, there is one tile, or
the tiles have one column. -/
theorem rank2KSecond_eq (hB : (d .B).TiledOp transA NB N K LDB) (hi : i < N) (hj : j < N)
    (h : LDB' = LDB ∨ N ≤ NB ∨ (transA = .noTrans ∧ (NB = 1 ∨ K = 1))) (s : State R) :
    rank2KSecond d s transT transA NB K LDB' i j =
      ∑ l ∈ range K, transA.op (s.get d .B) i l * transT.conj (transA.op (s.get d .A) j l) := by
  have hNB : 0 < NB := hB.mb_eq ▸ hB.mb_pos
  rw [← sum_tiles hNB fun l => transA.op (s.get d .B) i l *
    transT.conj (transA.op (s.get d .A) j l)]
  refine sum_congr rfl fun k hk => sum_congr rfl fun l hl => congrArg (· * _) ?_
  unfold rank2KFactor
  split
  next => rfl
  next hne =>
    rcases h with rfl | hN | ⟨rfl, hcol⟩
    · rw [Descr.Tiled.op_block hB, tile_add_sub]
    · rw [Nat.div_eq_of_lt (hi.trans_le hN), Nat.div_eq_of_lt (hj.trans_le hN)] at hne
      exact absurd rfl hne
    · -- the first column of a tile does not depend on the leading dimension
      have hl0 : l = 0 := by
        have hle := tileSize_le hNB (mem_range.mp hk)
        have hend := tile_le hNB (mem_range.mp hk)
        have := mem_range.mp hl
        rcases hcol with rfl | rfl
        · omega
        · omega
      subst hl0
      have hblock := hB.block_apply (s := s) (i / NB) k (i - i / NB * NB) 0
      rw [tile_add_sub] at hblock
      rw [show Trans.noTrans.op (s.get d .B) i (k * NB + 0) = _ from hblock.symm]
      show entry _ _ _ _ 0 = entry _ _ _ _ 0
      unfold entry
      rw [Nat.zero_mul, Nat.zero_mul]
      rfl

omit [DecidableEq R] in
/-- Matrices for which the second product is wrong: its only factor that is not zero is in the
second column, and is read from another element of `B`. -/
theorem exists_rank2KSecond_ne (hA : (d .A).Tiled NB N K LDA) (hB : (d .B).Tiled NB N K LDB)
    (hld : LDA ≠ LDB) (hNB : 1 < NB) (hK : 1 < K) :
    ∃ s : State R, rank2KSecond d s .conjTrans .noTrans NB K LDA 0 NB = 1 ∧
      ∑ l ∈ range K, s.get d .B 0 l * star (s.get d .A NB l) = 0 := by
  have hpos := hA.ld_pos
  obtain ⟨s, hs⟩ : ∃ s : State R, s = fun X a =>
      match X with
      | .A => if a = NB + (d .A).ld then 1 else 0
      | .B => if a = (d .A).ld then 1 else 0
      | .C => 0 := ⟨_, rfl⟩
  have hgetA : ∀ l, s.get d .A NB l = if l = 1 then 1 else 0 := by
    intro l
    rw [hs]
    show (if 0 + NB + l * (d .A).ld = NB + (d .A).ld then (1 : R) else 0) = _
    refine if_congr ?_ rfl rfl
    rw [Nat.zero_add, Nat.add_left_cancel_iff, Nat.mul_eq_right hpos.ne']
  refine ⟨s, ?_, ?_⟩
  · have hzero : 0 < numTiles K NB := numTiles_pos (by omega) (by omega)
    have hone : 1 < tileSize K NB 0 := by
      unfold tileSize
      split <;> omega
    have hfactor : ∀ k l, (k = 0 → l ≠ 1) →
        rank2KFactor d s .noTrans NB LDA 0 NB k l *
          Trans.conj .conjTrans (Trans.op .noTrans (s.get d .A) NB (k * NB + l)) = 0 := by
      intro k l hkl
      have hne : k * NB + l ≠ 1 := by
        intro h
        rcases Nat.eq_zero_or_pos k with rfl | hk
        · exact hkl rfl (by omega)
        · have := Nat.le_mul_of_pos_left NB hk
          omega
      show _ * star (s.get d .A NB (k * NB + l)) = 0
      rw [hgetA, if_neg hne, star_zero, mul_zero]
    unfold rank2KSecond
    rw [sum_eq_single_of_mem 0 (mem_range.mpr hzero) fun k _ hk =>
        sum_eq_zero fun l _ => hfactor k l fun h => absurd h hk,
      sum_eq_single_of_mem 1 (mem_range.mpr hone) fun l _ hl => hfactor 0 l fun _ => hl]
    have hdiv : ¬ 0 / NB = NB / NB := by
      rw [Nat.zero_div, Nat.div_self (by omega)]
      decide
    have hread : rank2KFactor d s .noTrans NB LDA 0 NB 0 1 = 1 := by
      unfold rank2KFactor
      rw [if_neg hdiv, hs]
      show (if 0 / NB * (d .B).mb + 0 * (d .B).nb * (d .B).ld + (0 - 0 / NB * NB) + 1 * LDA.toNat =
        (d .A).ld then (1 : R) else 0) = 1
      rw [if_pos]
      rw [hA.ld_eq, Int.toNat_natCast, Nat.zero_div]
      omega
    show _ * star (s.get d .A NB (0 * NB + 1)) = 1
    rw [hread, hgetA, Nat.zero_mul, if_pos rfl, star_one, mul_one]
  · refine sum_eq_zero fun l _ => ?_
    rw [hgetA]
    split
    next hl =>
      have hgetB : s.get d .B 0 l = 0 := by
        rw [hs]
        show (if 0 + 0 + l * (d .B).ld = (d .A).ld then (1 : R) else 0) = 0
        rw [if_neg]
        intro h
        rw [hl] at h
        exact hld (by rw [hA.ld_eq, hB.ld_eq]; omega)
      rw [hgetB, zero_mul]
    next => rw [star_zero, mul_zero]

end Tasks

/-! ## The four routines -/

/-- The rank updates. -/
inductive RankUpdate where
  | zsyrk
  | zherk
  | zsyr2k
  | zher2k
  deriving DecidableEq, Repr

namespace RankUpdate

/-- The transposition that the routine admits beside `noTrans`. -/
def transT : RankUpdate → Trans
  | .zsyrk => .trans
  | .zherk => .conjTrans
  | .zsyr2k => .trans
  | .zher2k => .conjTrans

/-- The descriptors of a call that initialises them. -/
def descr (r : RankUpdate) (NB : ℕ) (transA : Trans) (N K : ℕ) (LDA LDB LDC : ℤ) :
    Operand → Descr :=
  match r with
  | .zsyrk => rankKDescr NB transA N K LDA LDC
  | .zherk => rankKDescr NB transA N K LDA LDC
  | .zsyr2k => rank2KDescr NB transA N K LDA LDB LDC
  | .zher2k => rank2KDescr NB transA N K LDA LDB LDC

section

variable {R : Type*} [CommRing R] [StarRing R]

/-- The call of the routine. The rank `k` updates have no `B`. -/
def async [DecidableEq R] (r : RankUpdate) (NB : ℕ) (uplo : Uplo) (transA : Trans) (N K : ℤ)
    (alpha : R) (LDA LDB : ℤ) (beta : R) (LDC : ℤ) : Except ℤ (List (Task R)) :=
  match r with
  | .zsyrk => zsyrkAsync NB uplo transA N K alpha LDA beta LDC
  | .zherk => zherkAsync NB uplo transA N K alpha LDA beta LDC
  | .zsyr2k => zsyr2kAsync NB uplo transA N K alpha LDA LDB beta LDC
  | .zher2k => zher2kAsync NB uplo transA N K alpha LDA LDB beta LDC

/-- The reference result. -/
def reference (r : RankUpdate) (transA : Trans) (k : ℕ) (alpha : R) (a b : Block R) (beta : R)
    (c : Block R) : Block R :=
  match r with
  | .zsyrk => syrk transA k alpha a beta c
  | .zherk => herk transA k alpha a beta c
  | .zsyr2k => syr2k transA k alpha a b beta c
  | .zher2k => her2k transA k alpha a b beta c

variable [DecidableEq R]

/-- What a call of a rank update promises: no task writes a tile of the other triangle, and the
elements of the triangle `uplo` are those of the reference. -/
def Correct (r : RankUpdate) (NB : ℕ) (uplo : Uplo) (transA : Trans) (N K : ℕ) (alpha : R)
    (LDA LDB : ℤ) (beta : R) (LDC : ℤ) : Prop :=
  let d := r.descr NB transA N K LDA LDB LDC
  ∃ tasks, r.async NB uplo transA N K alpha LDA LDB beta LDC = .ok tasks ∧
    (∀ t ∈ tasks, t.out.mat = .C ∧ uplo.stores t.out.m t.out.n = true) ∧
    ∀ s, run d tasks s = Function.update s .C (store (s .C) 0 (d .C).ld N N uplo.stores
      (r.reference transA K alpha (s.get d .A) (s.get d .B) beta (s.get d .C)))

variable {r : RankUpdate} {NB N K : ℕ} {uplo : Uplo} {transA : Trans} {alpha beta : R}
  {LDA LDB LDC : ℤ}

/-- The descriptors are those of tiled matrices. -/
theorem descr_tiled (hNB : 1 ≤ NB) (hA : AdmissibleLd LDA (transA.size N K).1)
    (hB : AdmissibleLd LDB (transA.size N K).1) (hC : AdmissibleLd LDC N) :
    let d := r.descr NB transA N K LDA LDB LDC
    (∀ X, (d X).Valid) ∧ (d .A).TiledOp transA NB N K LDA ∧ (d .C).Tiled NB N N LDC := by
  have hA' := hA.tiled (N := (transA.size N K).2) hNB
  have hB' := hB.tiled (N := (transA.size N K).2) hNB
  have hC' := hC.tiled (N := N) hNB
  have hdummy : (initMatrixHandle 0 0 1 NB NB).Valid := valid_initMatrixHandle hNB hNB le_rfl
  cases r
  case zsyrk =>
    refine ⟨fun X => ?_, hA', hC'⟩
    cases X <;> [exact hA'.toValid; exact hdummy; exact hC'.toValid]
  case zherk =>
    refine ⟨fun X => ?_, hA', hC'⟩
    cases X <;> [exact hA'.toValid; exact hdummy; exact hC'.toValid]
  case zsyr2k =>
    refine ⟨fun X => ?_, hA', hC'⟩
    cases X <;> [exact hA'.toValid; exact hB'.toValid; exact hC'.toValid]
  case zher2k =>
    refine ⟨fun X => ?_, hA', hC'⟩
    cases X <;> [exact hA'.toValid; exact hB'.toValid; exact hC'.toValid]

omit [DecidableEq R] in
/-- The reference leaves `C` as it is in a quick return. -/
theorem reference_zero_one (a b c : Block R) (i j : ℕ) :
    r.reference transA K 0 a b 1 c i j = c i j := by
  cases r <;> simp [reference, syrk, herk, syr2k, her2k]

omit [StarRing R] in
theorem rankKChecks_ok {transT : Trans} (hadm : transA = .noTrans ∨ transA = transT) (hN : 1 ≤ N)
    (hK : 1 ≤ K) (hA : AdmissibleLd LDA (transA.size N K).1) (hC : AdmissibleLd LDC N)
    (tasks : List (Task R)) :
    rankKChecks transT transA N K alpha LDA beta LDC tasks =
      .ok (if alpha = 0 ∧ beta = 1 then [] else tasks) := by
  unfold rankKChecks
  simp only [Int.toNat_natCast]
  rw [if_neg fun h => hadm.elim h.1 h.2, if_neg (by omega), if_neg (by omega),
    if_neg hA.not_illegalLd, if_neg hC.not_illegalLd]
  by_cases hquick : alpha = 0 ∧ beta = 1
  · rw [if_pos (.inr ⟨.inl hquick.1, hquick.2⟩), if_pos hquick]
  · rw [if_neg, if_neg hquick]
    rintro (h | ⟨h | h, hbeta⟩)
    · omega
    · exact hquick ⟨h, hbeta⟩
    · omega

omit [StarRing R] in
theorem rank2KChecks_ok {transT : Trans} (hadm : transA = .noTrans ∨ transA = transT) (hN : 1 ≤ N)
    (hK : 1 ≤ K) (hA : AdmissibleLd LDA (transA.size N K).1)
    (hB : AdmissibleLd LDB (transA.size N K).1) (hC : AdmissibleLd LDC N)
    (tasks : List (Task R)) :
    rank2KChecks transT transA N K alpha LDA LDB beta LDC tasks =
      .ok (if alpha = 0 ∧ beta = 1 then [] else tasks) := by
  unfold rank2KChecks
  simp only [Int.toNat_natCast]
  rw [if_neg fun h => hadm.elim h.1 h.2, if_neg (by omega), if_neg (by omega),
    if_neg hA.not_illegalLd, if_neg hB.not_illegalLd, if_neg hC.not_illegalLd]
  by_cases hquick : alpha = 0 ∧ beta = 1
  · rw [if_pos (.inr ⟨.inl hquick.1, hquick.2⟩), if_pos hquick]
  · rw [if_neg, if_neg hquick]
    rintro (h | ⟨h | h, hbeta⟩)
    · omega
    · exact hquick ⟨h, hbeta⟩
    · omega

/-- The tasks of the loops of a routine, in the common form. -/
def loops (r : RankUpdate) (NB : ℕ) (uplo : Uplo) (transA : Trans) (N K : ℕ) (alpha : R)
    (LDA LDB : ℤ) (beta : R) (LDC : ℤ) : List (Task R) :=
  match r with
  | .zsyrk =>
      triangleLoops uplo.belowOrRight (numTiles N NB)
        (rankKBody betaMode .trans uplo transA NB N K alpha LDA beta LDC)
  | .zherk =>
      triangleLoops uplo.belowOrRight (numTiles N NB)
        (rankKBody (fun _ => .rw) .conjTrans uplo transA NB N K alpha LDA beta LDC)
  | .zsyr2k =>
      triangleLoops uplo.belowOrAbove (numTiles N NB)
        (rank2KBody betaMode .trans uplo transA NB N K alpha LDA LDB LDB beta LDC)
  | .zher2k =>
      triangleLoops uplo.belowOrRight (numTiles N NB)
        (rank2KBody (fun _ => .rw) .conjTrans uplo transA NB N K alpha LDA LDB
          (zher2kLd uplo transA LDA LDB) beta LDC)

/-- The call passes the checks of the arguments. -/
theorem async_ok (hadm : transA = .noTrans ∨ transA = r.transT) (hN : 1 ≤ N) (hK : 1 ≤ K)
    (hNB : 1 ≤ NB) (hA : AdmissibleLd LDA (transA.size N K).1)
    (hB : AdmissibleLd LDB (transA.size N K).1) (hC : AdmissibleLd LDC N) :
    r.async NB uplo transA N K alpha LDA LDB beta LDC =
      .ok (if alpha = 0 ∧ beta = 1 then []
        else r.loops NB uplo transA N K alpha LDA LDB beta LDC) := by
  cases r
  case zsyrk =>
    replace hadm : transA = .noTrans ∨ transA = .trans := hadm
    show zsyrkAsync NB uplo transA N K alpha LDA beta LDC = _
    unfold zsyrkAsync
    rw [rankKChecks_ok hadm hN hK hA hC, Int.toNat_natCast, Int.toNat_natCast, zsyrkTasks_eq hNB]
    rfl
  case zherk =>
    replace hadm : transA = .noTrans ∨ transA = .conjTrans := hadm
    show zherkAsync NB uplo transA N K alpha LDA beta LDC = _
    unfold zherkAsync
    rw [rankKChecks_ok hadm hN hK hA hC, Int.toNat_natCast, Int.toNat_natCast, zherkTasks_eq hNB]
    rfl
  case zsyr2k =>
    replace hadm : transA = .noTrans ∨ transA = .trans := hadm
    show zsyr2kAsync NB uplo transA N K alpha LDA LDB beta LDC = _
    unfold zsyr2kAsync
    rw [rank2KChecks_ok hadm hN hK hA hB hC, Int.toNat_natCast, Int.toNat_natCast,
      zsyr2kTasks_eq hNB hadm]
    rfl
  case zher2k =>
    replace hadm : transA = .noTrans ∨ transA = .conjTrans := hadm
    show zher2kAsync NB uplo transA N K alpha LDA LDB beta LDC = _
    unfold zher2kAsync
    rw [rank2KChecks_ok hadm hN hK hA hB hC, Int.toNat_natCast, Int.toNat_natCast,
      zher2kTasks_eq hNB]
    rfl

/-- The result of the tasks: the reference, but for the second product of `zher2k`. -/
def result (r : RankUpdate) (d : Operand → Descr) (s : State R) (uplo : Uplo) (transA : Trans)
    (NB K : ℕ) (alpha : R) (LDA LDB : ℤ) (beta : R) : Block R :=
  match r with
  | .zher2k => fun i j =>
      alpha * ∑ l ∈ range K, transA.op (s.get d .A) i l * star (transA.op (s.get d .B) j l) +
        star alpha * rank2KSecond d s .conjTrans transA NB K (zher2kLd uplo transA LDA LDB) i j +
        beta * s.get d .C i j
  | r => r.reference transA K alpha (s.get d .A) (s.get d .B) beta (s.get d .C)

omit [DecidableEq R] in
/-- Both leading dimensions of `zher2k` are accepted with a tile of `B`. -/
theorem le_zher2kLd (hA : AdmissibleLd LDA (transA.size N K).1)
    (hB : AdmissibleLd LDB (transA.size N K).1) :
    max 1 ((transA.size N K).1 : ℤ) ≤ zher2kLd uplo transA LDA LDB := by
  unfold zher2kLd
  split
  · exact hA.le
  · exact hB.le

/-- Every task of the loops writes a tile of the triangle. -/
theorem loops_onTile (hadm : transA = .noTrans ∨ transA = r.transT) (hNB : 1 ≤ NB)
    (hA : AdmissibleLd LDA (transA.size N K).1) (hB : AdmissibleLd LDB (transA.size N K).1)
    (hC : AdmissibleLd LDC N) {t : Task R}
    (ht : t ∈ r.loops NB uplo transA N K alpha LDA LDB beta LDC) :
    ∃ m n, uplo.stores m n = true ∧ t.OnTile (r.descr NB transA N K LDA LDB LDC) .C m n := by
  obtain ⟨hd, hA', hC'⟩ := descr_tiled (r := r) hNB hA hB hC
  have hB' := hB.tiled (N := (transA.size N K).2) hNB
  cases r
  case zsyrk =>
    obtain ⟨m, n, ⟨hm, hn, hstores⟩, ht⟩ := mem_triangleLoops ht
    exact ⟨m, n, by simpa using hstores,
      (rankKBody_fitsTile hd hA' hC' (by decide) hm hn ht).toOnTile⟩
  case zherk =>
    obtain ⟨m, n, ⟨hm, hn, hstores⟩, ht⟩ := mem_triangleLoops ht
    exact ⟨m, n, by simpa using hstores,
      (rankKBody_fitsTile hd hA' hC' (by decide) hm hn ht).toOnTile⟩
  case zsyr2k =>
    obtain ⟨m, n, ⟨hm, hn, hstores⟩, ht⟩ := mem_triangleLoops ht
    exact ⟨m, n, by simpa using hstores,
      rank2KBody_onTile hd hA' hB' hC' hB.le (by decide) hm hn ht⟩
  case zher2k =>
    obtain ⟨m, n, ⟨hm, hn, hstores⟩, ht⟩ := mem_triangleLoops ht
    exact ⟨m, n, by simpa using hstores,
      rank2KBody_onTile hd hA' hB' hC' (le_zher2kLd hA hB) (by decide) hm hn ht⟩

/-- `C` after the loops of a routine. -/
theorem run_loops (hadm : transA = .noTrans ∨ transA = r.transT) (hK : 1 ≤ K) (hNB : 1 ≤ NB)
    (hA : AdmissibleLd LDA (transA.size N K).1) (hB : AdmissibleLd LDB (transA.size N K).1)
    (hC : AdmissibleLd LDC N) (s : State R) :
    let d := r.descr NB transA N K LDA LDB LDC
    run d (r.loops NB uplo transA N K alpha LDA LDB beta LDC) s =
      Function.update s .C (store (s .C) 0 (d .C).ld N N uplo.stores
        (r.result d s uplo transA NB K alpha LDA LDB beta)) := by
  obtain ⟨hd, hA', hC'⟩ := descr_tiled (r := r) hNB hA hB hC
  have hB' := hB.tiled (N := (transA.size N K).2) hNB
  cases r
  case zsyrk =>
    exact run_rankKLoops hd hA' hC' (by decide) hadm hK uplo.belowOrRight_uplo s
  case zherk =>
    exact run_rankKLoops hd hA' hC' (by decide) hadm hK uplo.belowOrRight_uplo s
  case zsyr2k =>
    refine (run_rank2KLoops hd hA' hB' hC' hB.le (by decide) hadm hK uplo.belowOrAbove_uplo
      s).trans ?_
    congr 1
    refine store_congr _ _ _ _ fun i hi j hj => ?_
    rw [rank2KSecond_eq hB' hi hj (.inl rfl)]
    rfl
  case zher2k =>
    exact run_rank2KLoops hd hA' hB' hC' (le_zher2kLd hA hB) (by decide) hadm hK
      uplo.belowOrRight_uplo s

/-- The calls in which a task takes a tile of `B` with a leading dimension that is not its own, and
the product depends on it. -/
def Mixes (r : RankUpdate) (NB : ℕ) (uplo : Uplo) (transA : Trans) (N K : ℕ) (alpha : R)
    (LDA LDB : ℤ) : Prop :=
  r = .zher2k ∧ uplo = .upper ∧ transA = .noTrans ∧ LDA ≠ LDB ∧ NB < N ∧ 1 < NB ∧ 1 < K ∧ alpha ≠ 0

omit [DecidableEq R] in
/-- Outside of these calls the result is the reference. -/
theorem result_eq_reference (hB : r = .zher2k →
      (r.descr NB transA N K LDA LDB LDC .B).TiledOp transA NB N K LDB)
    (hmixes : ¬ r.Mixes NB uplo transA N K alpha LDA LDB) (hNB : 1 ≤ NB) (hK : 1 ≤ K) {i j : ℕ}
    (hi : i < N) (hj : j < N) (s : State R) :
    let d := r.descr NB transA N K LDA LDB LDC
    r.result d s uplo transA NB K alpha LDA LDB beta i j =
      r.reference transA K alpha (s.get d .A) (s.get d .B) beta (s.get d .C) i j := by
  cases r
  case zher2k =>
    by_cases hzero : alpha = 0
    · simp [result, reference, her2k, hzero]
    · have hld : zher2kLd uplo transA LDA LDB = LDB ∨ N ≤ NB ∨
          (transA = .noTrans ∧ (NB = 1 ∨ K = 1)) := by
        unfold zher2kLd
        split
        next hcase =>
          by_contra hne
          refine hmixes ⟨rfl, hcase.1, hcase.2, ?_, ?_, ?_, ?_, hzero⟩
          · exact fun h => hne (.inl h)
          · exact Nat.lt_of_not_le fun h => hne (.inr (.inl h))
          · exact Nat.lt_of_le_of_ne hNB fun h => hne (.inr (.inr ⟨hcase.2, .inl h.symm⟩))
          · exact Nat.lt_of_le_of_ne hK fun h => hne (.inr (.inr ⟨hcase.2, .inr h.symm⟩))
        next => exact .inl rfl
      show _ + _ * rank2KSecond _ s .conjTrans transA NB K _ i j + _ = _
      rw [rank2KSecond_eq (hB rfl) hi hj hld]
      rfl
  all_goals rfl

end

end RankUpdate

section Claim

open RankUpdate

variable {R : Type*} [CommRing R] [StarRing R] [DecidableEq R] {r : RankUpdate} {NB N K : ℕ}
  {uplo : Uplo} {transA : Trans} {alpha beta : R} {LDA LDB LDC : ℤ}

/-- A rank update is the reference on the triangle `uplo`, and writes no tile of the other one, but
for the calls of `xkblas_zher2k_async` that mix the leading dimensions of `A` and `B`. -/
theorem rankUpdate_correct_iff (hadm : transA = .noTrans ∨ transA = r.transT) (hN : 1 ≤ N)
    (hK : 1 ≤ K) (hNB : 1 ≤ NB) (hA : AdmissibleLd LDA (transA.size N K).1)
    (hB : AdmissibleLd LDB (transA.size N K).1) (hC : AdmissibleLd LDC N) :
    r.Correct NB uplo transA N K alpha LDA LDB beta LDC ↔
      ¬ r.Mixes NB uplo transA N K alpha LDA LDB := by
  obtain ⟨hd, hA', hC'⟩ := descr_tiled (r := r) hNB hA hB hC
  have hB' : r = .zher2k → (r.descr NB transA N K LDA LDB LDC .B).TiledOp transA NB N K LDB := by
    rintro rfl
    exact hB.tiled hNB
  have hok : r.async NB uplo transA N K alpha LDA LDB beta LDC = _ :=
    async_ok hadm hN hK hNB hA hB hC
  by_cases hquick : alpha = 0 ∧ beta = 1
  · refine iff_of_true ⟨[], hok.trans (by rw [if_pos hquick]), by simp, fun s => ?_⟩
      fun h => h.2.2.2.2.2.2.2 hquick.1
    refine run_eq_of_acts hd hC' (by simp) fun i _ j _ => ⟨id, .nil, ?_⟩
    rw [hquick.1, hquick.2, reference_zero_one]
    exact (ite_self _).symm
  · rw [if_neg hquick] at hok
    have hrun : ∀ s : State R, run _ (r.loops NB uplo transA N K alpha LDA LDB beta LDC) s = _ :=
      run_loops hadm hK hNB hA hB hC
    constructor
    · rintro ⟨tasks, htasks, _, hcorrect⟩ ⟨rfl, rfl, rfl, hld, hN', hNB', hK', halpha⟩
      obtain rfl : _ = tasks := Except.ok.inj (hok.symm.trans htasks)
      obtain ⟨d, hdescr⟩ : ∃ d, d = zher2k.descr NB .noTrans N K LDA LDB LDC := ⟨_, rfl⟩
      rw [← hdescr] at hA' hC'
      obtain ⟨s, hone, hzero⟩ : ∃ s : State R,
          rank2KSecond d s .conjTrans .noTrans NB K LDA 0 NB = 1 ∧
            ∑ l ∈ range K, s.get d .B 0 l * star (s.get d .A NB l) = 0 :=
        exists_rank2KSecond_ne hA' (hdescr ▸ hB' rfl) hld hNB' hK'
      -- compare the element `(0, NB)` of the reference and of the result
      have hstores : Uplo.upper.stores 0 NB = true := decide_eq_true (Nat.zero_le NB)
      have hread : ∀ f : ℕ → ℕ → R, State.get (Function.update s .C
          (store (s .C) 0 (d .C).ld N N Uplo.upper.stores f)) d .C 0 NB = f 0 NB := by
        intro f
        rw [get_update_store hC'.toValid hC'.M_eq.symm (by omega) hN', if_pos hstores]
      have hboth := (hcorrect s).symm.trans (hrun s)
      rw [← hdescr] at hboth
      have helement := (hread _).symm.trans
        ((congrArg (fun s' => State.get s' d .C 0 NB) hboth).trans (hread _))
      have hsecond : star alpha * ∑ l ∈ range K, s.get d .B 0 l * star (s.get d .A NB l) =
          star alpha * rank2KSecond d s .conjTrans .noTrans NB K LDA 0 NB :=
        add_left_cancel (add_right_cancel helement)
      rw [hone, hzero, mul_zero, mul_one] at hsecond
      exact halpha (star_eq_zero.mp hsecond.symm)
    · intro hmixes
      refine ⟨_, hok, fun t ht => ?_, fun s => ?_⟩
      · obtain ⟨m, n, hstores, ht⟩ := loops_onTile hadm hNB hA hB hC ht
        exact ⟨ht.mat, by rw [ht.row, ht.col]; exact hstores⟩
      · rw [hrun s]
        congr 1
        exact store_congr _ _ _ _ fun i hi j hj =>
          result_eq_reference hB' hmixes hNB hK hi hj s

/-- The lower triangle of `zher2k`, in tiles of order two. -/
theorem rankUpdate_correct_orderThree :
    ¬ RankUpdate.Mixes .zher2k 2 .lower .noTrans 3 2 (1 : ℤ) 3 4 ∧
      RankUpdate.Correct .zher2k 2 .lower .noTrans 3 2 (1 : ℤ) 3 4 1 3 :=
  have hmixes : ¬ RankUpdate.Mixes .zher2k 2 .lower .noTrans 3 2 (1 : ℤ) 3 4 :=
    fun h => absurd h.2.1 (by decide)
  ⟨hmixes, (rankUpdate_correct_iff (.inl rfl) (by decide) (by decide) (by decide)
    ⟨by decide, by decide⟩ ⟨by decide, by decide⟩ ⟨by decide, by decide⟩).mpr hmixes⟩

/-- The upper triangle: the task on the tile `(0, 1)` reads `B` with the leading dimension of
`A`. -/
theorem zher2k_upper_mixes_ld :
    ¬ RankUpdate.Correct .zher2k 2 .upper .noTrans 3 2 (1 : ℤ) 3 4 0 3 := by
  intro h
  obtain ⟨tasks, htasks, _, hrun⟩ := h
  obtain rfl : _ = tasks := Except.ok.inj htasks
  have hC := congrFun (congrFun (hrun fun X a => if X = .C then 0 else a) .C) 6
  revert hC
  decide

end Claim

end Xkblas.Blas
