import Xkblas.Blas.Triangle

/-!
# The tiled products with a symmetric or a Hermitian matrix

`xkblas_zsymm_async` and `xkblas_zhemm_async`. A block of `A` outside of the triangle that is
stored is taken from the mirrored block, transposed or conjugated. Both routines are instances of
one product, with a mirrored matrix (`mirror`); they differ in the order of their loops.
-/

namespace Xkblas.Blas

open Library Finset

section Drivers

variable {R : Type*} [CommRing R] [StarRing R] [DecidableEq R]

/-- The loops of `xkblas_zsymm_async`. -/
def zsymmTasks (d : Operand → Descr) (side : Side) (uplo : Uplo) (alpha : R) (LDA LDB : ℤ)
    (beta : R) (LDC : ℤ) : List (Task R) :=
  if side = .left then
    forLoop 0 (d .C).mt fun k =>
      let tempkm := tempSize (d .C).mt (d .C).M (d .C).mb k
      let zbeta := if k = 0 then beta else 1
      forLoop 0 (d .C).nt fun n =>
        let tempnn := tempSize (d .C).nt (d .C).N (d .C).nb n
        forLoop 0 (d .C).mt fun m =>
          let tempmm := tempSize (d .C).mt (d .C).M (d .C).mb m
          if uplo = .lower then
            if k < m then
              [insertTaskZgemm .noTrans .noTrans tempmm tempnn tempkm alpha ⟨.A, m, k, LDA⟩
                ⟨.B, k, n, LDB⟩ zbeta ⟨.C, m, n, LDC⟩]
            else if k = m then
              [insertTaskZsymm side uplo tempmm tempnn alpha ⟨.A, k, k, LDA⟩ ⟨.B, k, n, LDB⟩ zbeta
                ⟨.C, m, n, LDC⟩]
            else
              [insertTaskZgemm .trans .noTrans tempmm tempnn tempkm alpha ⟨.A, k, m, LDA⟩
                ⟨.B, k, n, LDB⟩ zbeta ⟨.C, m, n, LDC⟩]
          else
            if k < m then
              [insertTaskZgemm .trans .noTrans tempmm tempnn tempkm alpha ⟨.A, k, m, LDA⟩
                ⟨.B, k, n, LDB⟩ zbeta ⟨.C, m, n, LDC⟩]
            else if k = m then
              [insertTaskZsymm side uplo tempmm tempnn alpha ⟨.A, k, k, LDA⟩ ⟨.B, k, n, LDB⟩ zbeta
                ⟨.C, m, n, LDC⟩]
            else
              [insertTaskZgemm .noTrans .noTrans tempmm tempnn tempkm alpha ⟨.A, m, k, LDA⟩
                ⟨.B, k, n, LDB⟩ zbeta ⟨.C, m, n, LDC⟩]
  else
    forLoop 0 (d .C).nt fun k =>
      let tempkn := tempSize (d .C).nt (d .C).N (d .C).nb k
      let zbeta := if k = 0 then beta else 1
      forLoop 0 (d .C).mt fun m =>
        let tempmm := tempSize (d .C).mt (d .C).M (d .C).mb m
        forLoop 0 (d .C).nt fun n =>
          let tempnn := tempSize (d .C).nt (d .C).N (d .C).nb n
          if uplo = .lower then
            if k < n then
              [insertTaskZgemm .noTrans .trans tempmm tempnn tempkn alpha ⟨.B, m, k, LDB⟩
                ⟨.A, n, k, LDA⟩ zbeta ⟨.C, m, n, LDC⟩]
            else if k = n then
              [insertTaskZsymm .right uplo tempmm tempnn alpha ⟨.A, k, k, LDA⟩ ⟨.B, m, k, LDB⟩
                zbeta ⟨.C, m, n, LDC⟩]
            else
              [insertTaskZgemm .noTrans .noTrans tempmm tempnn tempkn alpha ⟨.B, m, k, LDB⟩
                ⟨.A, k, n, LDA⟩ zbeta ⟨.C, m, n, LDC⟩]
          else
            if k < n then
              [insertTaskZgemm .noTrans .noTrans tempmm tempnn tempkn alpha ⟨.B, m, k, LDB⟩
                ⟨.A, k, n, LDA⟩ zbeta ⟨.C, m, n, LDC⟩]
            else if k = n then
              [insertTaskZsymm .right uplo tempmm tempnn alpha ⟨.A, k, k, LDA⟩ ⟨.B, m, k, LDB⟩
                zbeta ⟨.C, m, n, LDC⟩]
            else
              [insertTaskZgemm .noTrans .trans tempmm tempnn tempkn alpha ⟨.B, m, k, LDB⟩
                ⟨.A, n, k, LDA⟩ zbeta ⟨.C, m, n, LDC⟩]

/-- The loops of `xkblas_zhemm_async`. -/
def zhemmTasks (d : Operand → Descr) (side : Side) (uplo : Uplo) (alpha : R) (LDA LDB : ℤ)
    (beta : R) (LDC : ℤ) : List (Task R) :=
  forLoop 0 (d .C).mt fun m =>
    let tempmm := tempSize (d .C).mt (d .C).M (d .C).mb m
    forLoop 0 (d .C).nt fun n =>
      let tempnn := tempSize (d .C).nt (d .C).N (d .C).nb n
      if side = .left then
        if uplo = .lower then
          forLoop 0 (d .C).mt fun k =>
            let tempkm := tempSize (d .C).mt (d .C).M (d .C).mb k
            let zbeta := if k = 0 then beta else 1
            if k < m then
              [insertTaskZgemm .noTrans .noTrans tempmm tempnn tempkm alpha ⟨.A, m, k, LDA⟩
                ⟨.B, k, n, LDB⟩ zbeta ⟨.C, m, n, LDC⟩]
            else if k = m then
              [insertTaskZhemm side uplo tempmm tempnn alpha ⟨.A, k, k, LDA⟩ ⟨.B, k, n, LDB⟩ zbeta
                ⟨.C, m, n, LDC⟩]
            else
              [insertTaskZgemm .conjTrans .noTrans tempmm tempnn tempkm alpha ⟨.A, k, m, LDA⟩
                ⟨.B, k, n, LDB⟩ zbeta ⟨.C, m, n, LDC⟩]
        else
          forLoop 0 (d .C).mt fun k =>
            let tempkm := tempSize (d .C).mt (d .C).M (d .C).mb k
            let zbeta := if k = 0 then beta else 1
            if k < m then
              [insertTaskZgemm .conjTrans .noTrans tempmm tempnn tempkm alpha ⟨.A, k, m, LDA⟩
                ⟨.B, k, n, LDB⟩ zbeta ⟨.C, m, n, LDC⟩]
            else if k = m then
              [insertTaskZhemm side uplo tempmm tempnn alpha ⟨.A, k, k, LDA⟩ ⟨.B, k, n, LDB⟩ zbeta
                ⟨.C, m, n, LDC⟩]
            else
              [insertTaskZgemm .noTrans .noTrans tempmm tempnn tempkm alpha ⟨.A, m, k, LDA⟩
                ⟨.B, k, n, LDB⟩ zbeta ⟨.C, m, n, LDC⟩]
      else
        if uplo = .lower then
          forLoop 0 (d .C).nt fun k =>
            let tempkn := tempSize (d .C).nt (d .C).N (d .C).nb k
            let zbeta := if k = 0 then beta else 1
            if k < n then
              [insertTaskZgemm .noTrans .conjTrans tempmm tempnn tempkn alpha ⟨.B, m, k, LDB⟩
                ⟨.A, n, k, LDA⟩ zbeta ⟨.C, m, n, LDC⟩]
            else if k = n then
              [insertTaskZhemm side uplo tempmm tempnn alpha ⟨.A, k, k, LDA⟩ ⟨.B, m, k, LDB⟩ zbeta
                ⟨.C, m, n, LDC⟩]
            else
              [insertTaskZgemm .noTrans .noTrans tempmm tempnn tempkn alpha ⟨.B, m, k, LDB⟩
                ⟨.A, k, n, LDA⟩ zbeta ⟨.C, m, n, LDC⟩]
        else
          forLoop 0 (d .C).nt fun k =>
            let tempkn := tempSize (d .C).nt (d .C).N (d .C).nb k
            let zbeta := if k = 0 then beta else 1
            if k < n then
              [insertTaskZgemm .noTrans .noTrans tempmm tempnn tempkn alpha ⟨.B, m, k, LDB⟩
                ⟨.A, k, n, LDA⟩ zbeta ⟨.C, m, n, LDC⟩]
            else if k = n then
              [insertTaskZhemm side uplo tempmm tempnn alpha ⟨.A, k, k, LDA⟩ ⟨.B, m, k, LDB⟩ zbeta
                ⟨.C, m, n, LDC⟩]
            else
              [insertTaskZgemm .noTrans .conjTrans tempmm tempnn tempkn alpha ⟨.B, m, k, LDB⟩
                ⟨.A, n, k, LDA⟩ zbeta ⟨.C, m, n, LDC⟩]

section Tasks

variable {d : Operand → Descr} {side : Side} {uplo : Uplo} {alpha beta : R} {LDA LDB LDC : ℤ}
  {P : Task R → Prop}
  (hgemm : ∀ transA transB m n k p q r s i j zbeta,
    P (insertTaskZgemm transA transB m n k alpha ⟨.A, p, q, LDA⟩ ⟨.B, r, s, LDB⟩ zbeta
      ⟨.C, i, j, LDC⟩) ∧
    P (insertTaskZgemm transA transB m n k alpha ⟨.B, r, s, LDB⟩ ⟨.A, p, q, LDA⟩ zbeta
      ⟨.C, i, j, LDC⟩))

include hgemm

/-- The tasks of the loops: products of a tile of `A` and a tile of `B`, in one order or the other,
and those of the tiles on the diagonal of `A`. -/
theorem forall_mem_zsymmTasks
    (hdiag : ∀ m n k r s i j zbeta,
      P (insertTaskZsymm side uplo m n alpha ⟨.A, k, k, LDA⟩ ⟨.B, r, s, LDB⟩ zbeta ⟨.C, i, j, LDC⟩)) :
    ∀ t ∈ zsymmTasks d side uplo alpha LDA LDB beta LDC, P t := by
  cases side <;> cases uplo
  all_goals
    simp only [zsymmTasks, reduceCtorEq, if_true, if_false, forall_mem_forLoop]
    intro k _ _ n _ _ m _ _ t ht
    generalize (if k = 0 then beta else 1) = zbeta at ht
    split_ifs at ht
    all_goals rw [List.mem_singleton.mp ht]
    all_goals first
      | exact hdiag ..
      | exact (hgemm ..).1
      | exact (hgemm ..).2

theorem forall_mem_zhemmTasks
    (hdiag : ∀ m n k r s i j zbeta,
      P (insertTaskZhemm side uplo m n alpha ⟨.A, k, k, LDA⟩ ⟨.B, r, s, LDB⟩ zbeta ⟨.C, i, j, LDC⟩)) :
    ∀ t ∈ zhemmTasks d side uplo alpha LDA LDB beta LDC, P t := by
  cases side <;> cases uplo
  all_goals
    simp only [zhemmTasks, reduceCtorEq, if_true, if_false, forall_mem_forLoop]
    intro m _ _ n _ _ k _ _ t ht
    generalize (if k = 0 then beta else 1) = zbeta at ht
    split_ifs at ht
    all_goals rw [List.mem_singleton.mp ht]
    all_goals first
      | exact hdiag ..
      | exact (hgemm ..).1
      | exact (hgemm ..).2

end Tasks

/-- The descriptors of a call that initialises them. -/
def zsymmDescr (NB : ℕ) (side : Side) (M N : ℕ) (LDA LDB LDC : ℤ) : Operand → Descr
  | .A => initMatrixHandle (side.rowDim M N) (side.rowDim M N) (toSize LDA) NB NB
  | .B => initMatrixHandle M N (toSize LDB) NB NB
  | .C => initMatrixHandle M N (toSize LDC) NB NB

/-- The checks of the arguments and the quick return, the same in both routines. -/
def zsymmChecks (side : Side) (M N : ℤ) (alpha : R) (LDA LDB : ℤ) (beta : R) (LDC : ℤ)
    (tasks : List (Task R)) : Except ℤ (List (Task R)) :=
  let Am := side.rowDim M.toNat N.toNat
  if M < 0 then .error (-3)
  else if N < 0 then .error (-4)
  else if illegalLd LDA Am then .error (-7)
  else if illegalLd LDB M.toNat then .error (-9)
  else if illegalLd LDC M.toNat then .error (-12)
  else if M = 0 ∨ N = 0 ∨ (alpha = 0 ∧ beta = 1) then .ok []
  else .ok tasks

/-- `xkblas_zsymm_async`: the tasks that it inserts, or the error code that it returns. -/
def zsymmAsync (NB : ℕ) (side : Side) (uplo : Uplo) (M N : ℤ) (alpha : R) (LDA LDB : ℤ) (beta : R)
    (LDC : ℤ) : Except ℤ (List (Task R)) :=
  zsymmChecks side M N alpha LDA LDB beta LDC
    (zsymmTasks (zsymmDescr NB side M.toNat N.toNat LDA LDB LDC) side uplo alpha LDA LDB beta LDC)

/-- `xkblas_zhemm_async`. -/
def zhemmAsync (NB : ℕ) (side : Side) (uplo : Uplo) (M N : ℤ) (alpha : R) (LDA LDB : ℤ) (beta : R)
    (LDC : ℤ) : Except ℤ (List (Task R)) :=
  zsymmChecks side M N alpha LDA LDB beta LDC
    (zhemmTasks (zsymmDescr NB side M.toNat N.toNat LDA LDB LDC) side uplo alpha LDA LDB beta LDC)

end Drivers

/-! ## A mirrored matrix -/

section Mirror

variable {R : Type*}

/-- The matrix whose triangle `uplo` is stored in `a`, the other triangle being that of
`op(a)`. -/
def mirror [Star R] (transT : Trans) (uplo : Uplo) (a : Block R) : Block R := fun i j =>
  if uplo.stores i j then a i j else transT.op a i j

/-- The operation that takes the block `(m, k)` of the mirrored matrix from the triangle that is
stored. -/
def Uplo.tileTrans (uplo : Uplo) (transT : Trans) (m k : ℕ) : Trans :=
  if uplo.stores m k then .noTrans else transT

theorem mirror_of_tile_ne [Star R] (transT : Trans) (uplo : Uplo) (a : Block R) {NB i j m k : ℕ}
    (hi : i / NB = m) (hj : j / NB = k) (hne : m ≠ k) :
    (uplo.tileTrans transT m k).op a i j = mirror transT uplo a i j := by
  unfold Uplo.tileTrans mirror
  rw [uplo.stores_of_tile_ne hi hj hne]
  split <;> rfl

/-- The mirrored matrix depends on the triangle that is stored. -/
theorem mirror_congr [Star R] {transT : Trans} (htrans : transT ≠ .noTrans) {uplo : Uplo}
    {a a' : Block R} {n : ℕ}
    (h : ∀ i < n, ∀ j < n, uplo.stores i j = true → a i j = a' i j) {i j : ℕ} (hi : i < n)
    (hj : j < n) : mirror transT uplo a i j = mirror transT uplo a' i j := by
  unfold mirror
  split
  next hstores => exact h i hi j hj hstores
  next hstores =>
    have hmirror : uplo.stores j i = true := by
      cases uplo with
      | upper =>
          simp only [Uplo.stores, decide_eq_true_eq] at hstores ⊢
          omega
      | lower =>
          simp only [Uplo.stores, decide_eq_true_eq] at hstores ⊢
          omega
    cases transT with
    | noTrans => exact absurd rfl htrans
    | trans => exact h j hj i hi hmirror
    | conjTrans => exact congrArg star (h j hj i hi hmirror)

/-- The products that make the entry `(i, j)` of `A * B` or of `B * A`. -/
def Side.product [Mul R] (side : Side) (a b : Block R) (i j l : ℕ) : R :=
  match side with
  | .left => a i l * b l j
  | .right => b i l * a l j

theorem sideMul_eq [CommRing R] (side : Side) (m n : ℕ) (alpha : R) (a b : Block R) (beta : R)
    (c : Block R) (i j : ℕ) :
    sideMul side m n alpha a b beta c i j =
      alpha * ∑ l ∈ range (side.rowDim m n), side.product a b i j l + beta * c i j := by
  cases side <;> rfl

end Mirror

section Tasks

variable {R : Type*} [CommRing R] [StarRing R] [DecidableEq R] {d : Operand → Descr}
  {s₀ : State R} {transT : Trans} {side : Side} {uplo : Uplo} {NB M N m n k i j : ℕ}
  {alpha beta : R} {LDA LDB LDC : ℤ}

/-- The task on a block of the diagonal of the mirrored matrix. -/
def insertTaskMirror (transT : Trans) (side : Side) (uplo : Uplo) (m n : ℕ) (alpha : R)
    (A B : Tile) (beta : R) (C : Tile) : Task R where
  inputs :=
    [{ A with mode := .r, rows := side.rowDim m n, cols := side.rowDim m n },
      { B with mode := .r, rows := m, cols := n }]
  out := { C with mode := betaMode beta, rows := m, cols := n }
  inserted := [.r, .r, .rw]
  writes := fun _ _ => true
  value := fun block =>
    sideMul side m n alpha (mirror transT uplo (block A)) (block B) beta (block C)

/-- The task of the iteration `k` on the tile `(m, n)` of `C`. -/
def sideTask (transT : Trans) (side : Side) (uplo : Uplo) (NB M N : ℕ) (alpha : R) (LDA LDB : ℤ)
    (beta : R) (LDC : ℤ) (m n k : ℕ) : Task R :=
  if k = side.rowDim m n then
    insertTaskMirror transT side uplo (tileSize M NB m) (tileSize N NB n) alpha ⟨.A, k, k, LDA⟩
      ⟨.B, m, n, LDB⟩ beta ⟨.C, m, n, LDC⟩
  else
    match side with
    | .left =>
        gemmTask (uplo.tileTrans transT m k) .noTrans NB M N M alpha .A LDA .B LDB beta .C LDC m n k
    | .right =>
        gemmTask .noTrans (uplo.tileTrans transT k n) NB M N N alpha .B LDB .A LDA beta .C LDC m n k

/-- The cases of the loops for a block on the left. -/
theorem sideTask_left (m n k : ℕ) :
    [sideTask transT .left uplo NB M N alpha LDA LDB beta LDC m n k] =
      if k < m then
        [gemmTask (if uplo = .lower then .noTrans else transT) .noTrans NB M N M alpha .A LDA .B LDB
          beta .C LDC m n k]
      else if k = m then
        [insertTaskMirror transT .left uplo (tileSize M NB m) (tileSize N NB n) alpha
          ⟨.A, k, k, LDA⟩ ⟨.B, k, n, LDB⟩ beta ⟨.C, m, n, LDC⟩]
      else
        [gemmTask (if uplo = .lower then transT else .noTrans) .noTrans NB M N M alpha .A LDA .B LDB
          beta .C LDC m n k] := by
  rcases lt_trichotomy k m with hlt | rfl | hlt
  · cases uplo <;> simp [sideTask, Side.rowDim, Uplo.tileTrans, Uplo.stores, hlt, hlt.ne, hlt.le, hlt.not_ge]
  · simp [sideTask, Side.rowDim]
  · cases uplo <;>
      simp [sideTask, Side.rowDim, Uplo.tileTrans, Uplo.stores, hlt.ne', hlt.le, hlt.not_gt, hlt.not_ge]

/-- The cases of the loops for a block on the right. -/
theorem sideTask_right (m n k : ℕ) :
    [sideTask transT .right uplo NB M N alpha LDA LDB beta LDC m n k] =
      if k < n then
        [gemmTask .noTrans (if uplo = .lower then transT else .noTrans) NB M N N alpha .B LDB .A LDA
          beta .C LDC m n k]
      else if k = n then
        [insertTaskMirror transT .right uplo (tileSize M NB m) (tileSize N NB n) alpha
          ⟨.A, k, k, LDA⟩ ⟨.B, m, k, LDB⟩ beta ⟨.C, m, n, LDC⟩]
      else
        [gemmTask .noTrans (if uplo = .lower then .noTrans else transT) NB M N N alpha .B LDB .A LDA
          beta .C LDC m n k] := by
  rcases lt_trichotomy k n with hlt | rfl | hlt
  · cases uplo <;> simp [sideTask, Side.rowDim, Uplo.tileTrans, Uplo.stores, hlt, hlt.ne, hlt.le, hlt.not_ge]
  · simp [sideTask, Side.rowDim]
  · cases uplo <;>
      simp [sideTask, Side.rowDim, Uplo.tileTrans, Uplo.stores, hlt.ne', hlt.le, hlt.not_gt, hlt.not_ge]

/-- The loops of `xkblas_zsymm_async`, in one form for the two triangles. -/
theorem zsymmTasks_eq (hNB : 0 < NB) :
    zsymmTasks (zsymmDescr NB side M N LDA LDB LDC) side uplo alpha LDA LDB beta LDC =
      match side with
      | .left =>
          forLoop 0 (numTiles M NB) fun k => forLoop 0 (numTiles N NB) fun n =>
            forLoop 0 (numTiles M NB) fun m =>
              [sideTask .trans .left uplo NB M N alpha LDA LDB (if k = 0 then beta else 1) LDC
                m n k]
      | .right =>
          forLoop 0 (numTiles N NB) fun k => forLoop 0 (numTiles M NB) fun m =>
            forLoop 0 (numTiles N NB) fun n =>
              [sideTask .trans .right uplo NB M N alpha LDA LDB (if k = 0 then beta else 1) LDC
                m n k] := by
  cases side with
  | left =>
      refine forLoop_congr fun k _ (hk : k < numTiles M NB) =>
        forLoop_congr fun n _ (hn : n < numTiles N NB) =>
        forLoop_congr fun m _ (hm : m < numTiles M NB) => ?_
      simp only [zsymmDescr, initMatrixHandle, tempSize_eq hNB hm, tempSize_eq hNB hn,
        tempSize_eq hNB hk, sideTask_left]
      cases uplo <;> rfl
  | right =>
      refine forLoop_congr fun k _ (hk : k < numTiles N NB) =>
        forLoop_congr fun m _ (hm : m < numTiles M NB) =>
        forLoop_congr fun n _ (hn : n < numTiles N NB) => ?_
      simp only [zsymmDescr, initMatrixHandle, tempSize_eq hNB hm, tempSize_eq hNB hn,
        tempSize_eq hNB hk, sideTask_right]
      cases uplo <;> rfl

/-- The loops of `xkblas_zhemm_async`, in one form for the two triangles and the two sides. -/
theorem zhemmTasks_eq (hNB : 0 < NB) :
    zhemmTasks (zsymmDescr NB side M N LDA LDB LDC) side uplo alpha LDA LDB beta LDC =
      forLoop 0 (numTiles M NB) fun m => forLoop 0 (numTiles N NB) fun n =>
        forLoop 0 (numTiles (side.rowDim M N) NB) fun k =>
          [sideTask .conjTrans side uplo NB M N alpha LDA LDB (if k = 0 then beta else 1) LDC
            m n k] := by
  refine forLoop_congr fun m _ (hm : m < numTiles M NB) =>
    forLoop_congr fun n _ (hn : n < numTiles N NB) => ?_
  cases side with
  | left =>
      cases uplo
      all_goals
        refine forLoop_congr fun k _ (hk : k < numTiles M NB) => ?_
        simp only [zsymmDescr, initMatrixHandle, tempSize_eq hNB hm, tempSize_eq hNB hn,
          tempSize_eq hNB hk, sideTask_left]
        rfl
  | right =>
      cases uplo
      all_goals
        refine forLoop_congr fun k _ (hk : k < numTiles N NB) => ?_
        simp only [zsymmDescr, initMatrixHandle, tempSize_eq hNB hm, tempSize_eq hNB hn,
          tempSize_eq hNB hk, sideTask_right]
        rfl

/-- The descriptors of the operands. -/
structure SideTiled (d : Operand → Descr) (side : Side) (NB M N : ℕ) (LDA LDB LDC : ℤ) : Prop where
  A : (d .A).Tiled NB (side.rowDim M N) (side.rowDim M N) LDA
  B : (d .B).Tiled NB M N LDB
  C : (d .C).Tiled NB M N LDC

theorem SideTiled.valid (h : SideTiled d side NB M N LDA LDB LDC) (X : Operand) : (d X).Valid := by
  cases X with
  | A => exact h.A.toValid
  | B => exact h.B.toValid
  | C => exact h.C.toValid

theorem sideTask_fitsTile (h : SideTiled d side NB M N LDA LDB LDC) (hm : m < numTiles M NB)
    (hn : n < numTiles N NB) (hk : k < numTiles (side.rowDim M N) NB) :
    (sideTask transT side uplo NB M N alpha LDA LDB beta LDC m n k).FitsTile d .C m n := by
  unfold sideTask
  split
  next hdiag =>
    have hsize : side.rowDim (tileSize M NB m) (tileSize N NB n) =
        tileSize (side.rowDim M N) NB k := by
      rw [hdiag]
      cases side <;> rfl
    refine Task.Fits.fitsTile ?_ h.valid rfl rfl rfl
    intro p hp
    simp only [Task.params, insertTaskMirror, List.cons_append, List.nil_append, List.mem_cons,
      List.not_mem_nil, or_false, hsize] at hp
    rcases hp with rfl | rfl | rfl
    · exact h.A.fits hk hk .r
    · exact h.B.fits hm hn .r
    · exact h.C.fits hm hn _
  next =>
    cases side with
    | left => exact gemmTask_fitsTile h.valid (h.A.op_square _) h.B h.C hm hn hk
    | right => exact gemmTask_fitsTile h.valid h.B (h.A.op_square _) h.C hm hn hk

omit [DecidableEq R] in
/-- A block of the diagonal of the mirrored matrix. -/
theorem mirror_block {s : State R} (hA : (d .A).Tiled NB M M LDA) (k i l : ℕ) :
    mirror transT uplo (s.block d ⟨.A, k, k, LDA⟩) i l =
      mirror transT uplo (s.get d .A) (k * NB + i) (k * NB + l) := by
  have hop : transT.op (s.block d ⟨.A, k, k, LDA⟩) i l =
      transT.op (s.get d .A) (k * NB + i) (k * NB + l) := by
    rw [← hA.op_block]
    cases transT <;> rfl
  unfold mirror
  rw [uplo.stores_add, hA.block_apply, hop]

/-- A task on the tile of an element adds the products with its block of the mirrored matrix. -/
theorem acts_sideTask (h : SideTiled d side NB M N LDA LDB LDC) (hi : i < M) (hj : j < N)
    (hk : k < numTiles (side.rowDim M N) NB) :
    ActsOn d s₀ .C i j
      [sideTask transT side uplo NB M N alpha LDA LDB beta LDC (i / NB) (j / NB) k] fun x =>
        alpha * ∑ l ∈ range (tileSize (side.rowDim M N) NB k),
          side.product (mirror transT uplo (s₀.get d .A)) (s₀.get d .B) i j (k * NB + l) +
        beta * x := by
  have hNB : 0 < NB := h.C.mb_eq ▸ h.C.mb_pos
  have hrow := div_lt_numTiles hNB hi
  have hcol := div_lt_numTiles hNB hj
  have ht : (sideTask transT side uplo NB M N alpha LDA LDB beta LDC (i / NB) (j / NB) k).FitsTile
      d .C (i / NB) (j / NB) := sideTask_fitsTile h hrow hcol hk
  unfold sideTask at ht ⊢
  split at ht
  next hdiag =>
    rw [if_pos hdiag]
    refine acts_onTile h.valid h.C ht.toOnTile hi hj rfl fun s hs => ?_
    show sideMul side _ _ alpha _ _ beta _ _ _ = _
    rw [sideMul_eq, h.C.block_apply, tile_add_sub, tile_add_sub]
    subst hdiag
    cases side with
    | left =>
        simp only [Side.product, Side.rowDim, if_true, mirror_block h.A, h.B.block_apply,
          tile_add_sub, hs.get_funext (show Operand.A ≠ .C by decide),
          hs.get_funext (show Operand.B ≠ .C by decide)]
    | right =>
        simp only [Side.product, Side.rowDim, reduceCtorEq, if_false, mirror_block h.A,
          h.B.block_apply, tile_add_sub, hs.get_funext (show Operand.A ≠ .C by decide),
          hs.get_funext (show Operand.B ≠ .C by decide)]
  next hdiag =>
    rw [if_neg hdiag]
    have hdiv : ∀ l ∈ range (tileSize (side.rowDim M N) NB k), (k * NB + l) / NB = k := by
      intro l hl
      exact ((mem_tile hNB hk).mp ⟨Nat.le_add_right _ _, by have := mem_range.mp hl; omega⟩).2
    cases side with
    | left =>
        refine (acts_gemmTask h.valid (h.A.op_square _) h.B h.C (by decide) (by decide) hi hj
          hk).congr fun x => ?_
        congr 2
        refine sum_congr rfl fun l hl => ?_
        rw [mirror_of_tile_ne transT uplo _ rfl (hdiv l hl) (Ne.symm hdiag)]
        rfl
    | right =>
        refine (acts_gemmTask h.valid h.B (h.A.op_square _) h.C (by decide) (by decide) hi hj
          hk).congr fun x => ?_
        congr 2
        refine sum_congr rfl fun l hl => ?_
        rw [mirror_of_tile_ne transT uplo _ (hdiv l hl) rfl hdiag]
        rfl

omit [StarRing R] [DecidableEq R] in
/-- An element of the product from the products with the blocks of the mirrored matrix. -/
theorem sum_sideTask (hNB : 0 < NB) (a b c : Block R) :
    ∑ k ∈ range (numTiles (side.rowDim M N) NB),
        alpha * ∑ l ∈ range (tileSize (side.rowDim M N) NB k), side.product a b i j (k * NB + l) +
      beta * c i j = sideMul side M N alpha a b beta c i j := by
  rw [sum_mul_tiles hNB alpha (side.product a b i j), sideMul_eq]

/-- The tasks replace `C` by the values of `result`, and take `A` from its triangle `uplo`. -/
structure ComputesSide (d : Operand → Descr) (side : Side) (uplo : Uplo) (M N : ℕ)
    (tasks : List (Task R)) (result : State R → Block R) : Prop where
  fits : ∀ t ∈ tasks, t.Fits d
  run_eq : ∀ s, run d tasks s = Function.update s .C
    (store (s .C) 0 (d .C).ld M N (fun _ _ => true) (result s))
  triangle : ∀ s s', s .B = s' .B → s .C = s' .C →
    (∀ i < side.rowDim M N, ∀ j < side.rowDim M N, uplo.stores i j = true →
      s.get d .A i j = s'.get d .A i j) → run d tasks s .C = run d tasks s' .C

omit [DecidableEq R] in
/-- The tasks of one of the orders of the loops. -/
theorem sideLoops_computes (h : SideTiled d side NB M N LDA LDB LDC)
    (htrans : transT ≠ .noTrans) {tasks : List (Task R)}
    (htasks : ∀ t ∈ tasks, ∃ m n, t.FitsTile d .C m n)
    (hacts : ∀ s, ∀ i < M, ∀ j < N, ActsOn d s .C i j tasks fun x =>
      ∑ k ∈ range (numTiles (side.rowDim M N) NB),
        alpha * ∑ l ∈ range (tileSize (side.rowDim M N) NB k),
          side.product (mirror transT uplo (s.get d .A)) (s.get d .B) i j (k * NB + l) +
      beta * x) :
    ComputesSide d side uplo M N tasks fun s =>
      sideMul side M N alpha (mirror transT uplo (s.get d .A)) (s.get d .B) beta (s.get d .C) := by
  have hNB : 0 < NB := h.C.mb_eq ▸ h.C.mb_pos
  have hrun : ∀ s, run d tasks s = Function.update s .C
      (store (s .C) 0 (d .C).ld M N (fun _ _ => true)
        (sideMul side M N alpha (mirror transT uplo (s.get d .A)) (s.get d .B) beta
          (s.get d .C))) := by
    intro s
    refine run_eq_of_acts h.valid h.C (fun t ht => ?_) fun i hi j hj =>
      ⟨_, hacts s i hi j hj, ?_⟩
    · obtain ⟨m, n, hfits⟩ := htasks t ht
      exact ⟨hfits.stores, hfits.mat⟩
    rw [if_pos rfl]
    exact sum_sideTask hNB _ _ (s.get d .C)
  refine ⟨fun t ht => ?_, hrun, fun s s' hB hC hA => ?_⟩
  · obtain ⟨m, n, hfits⟩ := htasks t ht
    exact hfits.fits
  have hgetB : s.get d .B = s'.get d .B := by
    unfold State.get
    rw [hB]
  have hgetC : s.get d .C = s'.get d .C := by
    unfold State.get
    rw [hC]
  rw [hrun s, hrun s', Function.update_self, Function.update_self, hC]
  refine store_congr _ _ _ _ fun i hi j hj => ?_
  rw [sideMul_eq, sideMul_eq, hgetB, hgetC]
  congr 2
  refine sum_congr rfl fun l hl => ?_
  -- the entry of the mirrored matrix is in the triangle of the two arrays
  cases side with
  | left => exact congrArg (· * _) (mirror_congr htrans hA hi (mem_range.mp hl))
  | right => exact congrArg (_ * ·) (mirror_congr htrans hA (mem_range.mp hl) hj)

/-- The tasks of `xkblas_zsymm_async` compute the product with the symmetric matrix. -/
theorem zsymmTasks_computes (h : SideTiled (zsymmDescr NB side M N LDA LDB LDC) side NB M N LDA LDB
      LDC) (hM : 1 ≤ M) (hN : 1 ≤ N) :
    let d := zsymmDescr NB side M N LDA LDB LDC
    ComputesSide d side uplo M N (zsymmTasks d side uplo alpha LDA LDB beta LDC) fun s =>
      symm side uplo M N alpha (s.get d .A) (s.get d .B) beta (s.get d .C) := by
  intro d
  have hNB : 0 < NB := h.C.mb_eq ▸ h.C.mb_pos
  rw [zsymmTasks_eq hNB]
  have hbody : ∀ k < numTiles (side.rowDim M N) NB, ∀ m < numTiles M NB, ∀ n < numTiles N NB,
      ∀ t ∈ [sideTask .trans side uplo NB M N alpha LDA LDB (if k = 0 then beta else 1) LDC m n k],
        t.FitsTile d .C m n := by
    intro k hk m hm n hn t ht
    rw [List.mem_singleton.mp ht]
    exact sideTask_fitsTile h hm hn hk
  cases side with
  | left =>
      refine sideLoops_computes h (by decide) ?_ fun s i hi j hj =>
        .forLoop_accumulate (numTiles_pos hNB hM) fun k hk =>
          acts_tiles_columns h.valid h.C hi hj
            (fun m hm n hn t ht => (hbody k hk m hm n hn t ht).toOnTile) (acts_sideTask h hi hj hk)
      intro t ht
      obtain ⟨k, ⟨_, hk⟩, ht⟩ := mem_forLoop.mp ht
      obtain ⟨n, ⟨_, hn⟩, ht⟩ := mem_forLoop.mp ht
      obtain ⟨m, ⟨_, hm⟩, ht⟩ := mem_forLoop.mp ht
      exact ⟨m, n, hbody k hk m hm n hn t ht⟩
  | right =>
      refine sideLoops_computes h (by decide) ?_ fun s i hi j hj =>
        .forLoop_accumulate (numTiles_pos hNB hN) fun k hk =>
          acts_tiles h.valid h.C hi hj (fun m hm n hn t ht => (hbody k hk m hm n hn t ht).toOnTile)
            (acts_sideTask h hi hj hk)
      intro t ht
      obtain ⟨k, ⟨_, hk⟩, ht⟩ := mem_forLoop.mp ht
      obtain ⟨m, ⟨_, hm⟩, ht⟩ := mem_forLoop.mp ht
      obtain ⟨n, ⟨_, hn⟩, ht⟩ := mem_forLoop.mp ht
      exact ⟨m, n, hbody k hk m hm n hn t ht⟩

/-- The tasks of `xkblas_zhemm_async` compute the product with the Hermitian matrix. -/
theorem zhemmTasks_computes (h : SideTiled (zsymmDescr NB side M N LDA LDB LDC) side NB M N LDA LDB
      LDC) (hM : 1 ≤ M) (hN : 1 ≤ N) :
    let d := zsymmDescr NB side M N LDA LDB LDC
    ComputesSide d side uplo M N (zhemmTasks d side uplo alpha LDA LDB beta LDC) fun s =>
      hemm side uplo M N alpha (s.get d .A) (s.get d .B) beta (s.get d .C) := by
  intro d
  have hNB : 0 < NB := h.C.mb_eq ▸ h.C.mb_pos
  rw [zhemmTasks_eq hNB]
  have hD : 0 < side.rowDim M N := by cases side <;> assumption
  have hbody : ∀ m < numTiles M NB, ∀ n < numTiles N NB,
      ∀ t ∈ (forLoop 0 (numTiles (side.rowDim M N) NB) fun k =>
        [sideTask .conjTrans side uplo NB M N alpha LDA LDB (if k = 0 then beta else 1) LDC m n k]),
        t.FitsTile d .C m n := by
    intro m hm n hn t ht
    obtain ⟨k, ⟨_, hk⟩, ht⟩ := mem_forLoop.mp ht
    rw [List.mem_singleton.mp ht]
    exact sideTask_fitsTile h hm hn hk
  refine sideLoops_computes h (by decide) ?_ fun s i hi j hj =>
    acts_tiles h.valid h.C hi hj (fun m hm n hn t ht => (hbody m hm n hn t ht).toOnTile)
      (.forLoop_accumulate (numTiles_pos hNB hD) fun k hk => acts_sideTask h hi hj hk)
  intro t ht
  obtain ⟨m, ⟨_, hm⟩, ht⟩ := mem_forLoop.mp ht
  obtain ⟨n, ⟨_, hn⟩, ht⟩ := mem_forLoop.mp ht
  exact ⟨m, n, hbody m hm n hn t ht⟩

theorem zsymmDescr_tiled (hNB : 1 ≤ NB) (hA : AdmissibleLd LDA (side.rowDim M N))
    (hB : AdmissibleLd LDB M) (hC : AdmissibleLd LDC M) :
    SideTiled (zsymmDescr NB side M N LDA LDB LDC) side NB M N LDA LDB LDC :=
  ⟨hA.tiled hNB, hB.tiled hNB, hC.tiled hNB⟩

omit [StarRing R] in
/-- The call passes the checks of the arguments. -/
theorem zsymmChecks_ok (hM : 1 ≤ M) (hN : 1 ≤ N) (hA : AdmissibleLd LDA (side.rowDim M N))
    (hB : AdmissibleLd LDB M) (hC : AdmissibleLd LDC M) (tasks : List (Task R)) :
    zsymmChecks side M N alpha LDA LDB beta LDC tasks =
      .ok (if alpha = 0 ∧ beta = 1 then [] else tasks) := by
  unfold zsymmChecks
  simp only [Int.toNat_natCast]
  rw [if_neg (by omega), if_neg (by omega), if_neg hA.not_illegalLd, if_neg hB.not_illegalLd,
    if_neg hC.not_illegalLd]
  by_cases hquick : alpha = 0 ∧ beta = 1
  · rw [if_pos (.inr (.inr hquick)), if_pos hquick]
  · rw [if_neg, if_neg hquick]
    rintro (h | h | h)
    · omega
    · omega
    · exact hquick h

/-- The quick return is right, since the product leaves `C` as it is. -/
theorem ComputesSide.quickReturn (h : SideTiled d side NB M N LDA LDB LDC)
    (htrans : transT ≠ .noTrans) {tasks : List (Task R)}
    (htasks : ComputesSide d side uplo M N tasks fun s =>
      sideMul side M N alpha (mirror transT uplo (s.get d .A)) (s.get d .B) beta (s.get d .C)) :
    ComputesSide d side uplo M N (if alpha = 0 ∧ beta = 1 then [] else tasks) fun s =>
      sideMul side M N alpha (mirror transT uplo (s.get d .A)) (s.get d .B) beta
        (s.get d .C) := by
  split
  next hquick =>
    obtain ⟨rfl, rfl⟩ := hquick
    refine sideLoops_computes h htrans (fun t ht => absurd ht List.not_mem_nil) ?_
    exact fun s i _ j _ => Acts.nil.congr fun x => by simp
  next => exact htasks

/-- `xkblas_zsymm_async` and `xkblas_zhemm_async` compute `alpha * A * B + beta * C`, or
`alpha * B * A + beta * C`, for the symmetric or Hermitian `A` of the triangle `uplo`. -/
theorem zsymm_zhemm_correct (hM : 1 ≤ M) (hN : 1 ≤ N) (hNB : 1 ≤ NB)
    (hA : AdmissibleLd LDA (side.rowDim M N)) (hB : AdmissibleLd LDB M)
    (hC : AdmissibleLd LDC M) :
    let d := zsymmDescr NB side M N LDA LDB LDC
    (∃ tasks, zsymmAsync NB side uplo M N alpha LDA LDB beta LDC = .ok tasks ∧
      ComputesSide d side uplo M N tasks fun s =>
        symm side uplo M N alpha (s.get d .A) (s.get d .B) beta (s.get d .C)) ∧
    ∃ tasks, zhemmAsync NB side uplo M N alpha LDA LDB beta LDC = .ok tasks ∧
      ComputesSide d side uplo M N tasks fun s =>
        hemm side uplo M N alpha (s.get d .A) (s.get d .B) beta (s.get d .C) := by
  intro d
  have h : SideTiled d side NB M N LDA LDB LDC := zsymmDescr_tiled hNB hA hB hC
  constructor
  · refine ⟨_, ?_, ComputesSide.quickReturn h (show Trans.trans ≠ .noTrans by decide)
      (zsymmTasks_computes h hM hN)⟩
    unfold zsymmAsync
    rw [zsymmChecks_ok hM hN hA hB hC]
    rfl
  · refine ⟨_, ?_, ComputesSide.quickReturn h (show Trans.conjTrans ≠ .noTrans by decide)
      (zhemmTasks_computes h hM hN)⟩
    unfold zhemmAsync
    rw [zsymmChecks_ok hM hN hA hB hC]
    rfl

/-- Two products of order three with tiles of size two. -/
theorem zsymm_zhemm_correct_orderThree :
    let d := zsymmDescr 2 .right 1 3 3 1 2
    (∃ tasks, zsymmAsync 2 .right .upper 1 3 (2 : ℤ) 3 1 5 2 = .ok tasks ∧
      ComputesSide d .right .upper 1 3 tasks fun s =>
        symm .right .upper 1 3 2 (s.get d .A) (s.get d .B) 5 (s.get d .C)) ∧
    ∃ tasks, zhemmAsync 2 .right .upper 1 3 (2 : ℤ) 3 1 5 2 = .ok tasks ∧
      ComputesSide d .right .upper 1 3 tasks fun s =>
        hemm .right .upper 1 3 2 (s.get d .A) (s.get d .B) 5 (s.get d .C) :=
  zsymm_zhemm_correct (by decide) (by decide) (by decide) ⟨by decide, by decide⟩
    ⟨by decide, by decide⟩ ⟨by decide, by decide⟩

end Tasks

end Xkblas.Blas
