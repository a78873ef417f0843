import Xkblas.Blas.Panel

/-!
# The tiled triangular solve

`xkblas_ztrsm_async` overwrites `B` by the solution of `op(A) * X = alpha * B` or
`X * op(A) = alpha * B`. A stage solves the tiles of one block of the lines and updates the blocks
after it. Six of the loops apply `alpha` in the first stage only; the loops for a transposed matrix
on the right apply it in every stage, and update with `-1 / alpha`.
-/

namespace Xkblas.Blas

open Library Finset

/-! ## The kernel -/

section Kernel

variable {R : Type*} [Field R] [DecidableEq R] {T T' : Block R} {b b' : ℕ → R} {n i : ℕ}
  {divZero : R → R}

theorem quotient_of_ne {x y : R} (hy : y ≠ 0) : quotient divZero x y = x / y :=
  if_neg hy

/-- The unknowns that are solved stay as they are. -/
theorem forward_succ_of_lt (T : Block R) (b : ℕ → R) (hi : i < n) :
    forward divZero T b (n + 1) i = forward divZero T b n i :=
  Function.update_of_ne hi.ne _ _

/-- Forward substitution only reads the right-hand side of the rows of the system. -/
theorem forward_congr (h : ∀ i < n, b i = b' i) :
    forward divZero T b n = forward divZero T b' n := by
  induction n with
  | zero => rfl
  | succ n ih =>
      have hn := ih fun i hi => h i (hi.trans (Nat.lt_succ_self n))
      show Function.update (forward divZero T b n) n _ =
        Function.update (forward divZero T b' n) n _
      rw [hn, h n (Nat.lt_succ_self n)]

variable (b divZero) in
/-- Forward substitution solves the lower triangle of the system. -/
theorem forward_spec (hdiag : ∀ i < n, T i i ≠ 0) :
    ∀ i < n, ∑ l ∈ range (i + 1), T i l * forward divZero T b n l = b i := by
  induction n with
  | zero => exact fun i hi => absurd hi (Nat.not_lt_zero i)
  | succ n ih =>
      intro i hi
      have hbefore : ∀ k ≤ n, ∑ l ∈ range k, T i l * forward divZero T b (n + 1) l =
          ∑ l ∈ range k, T i l * forward divZero T b n l := by
        intro k hk
        refine sum_congr rfl fun l hl => ?_
        rw [forward_succ_of_lt T b ((mem_range.mp hl).trans_le hk)]
      rcases Nat.lt_succ_iff_lt_or_eq.mp hi with hin | rfl
      · rw [hbefore (i + 1) hin]
        exact ih (fun i hi => hdiag i (hi.trans (Nat.lt_succ_self n))) i hin
      · have hlast : forward divZero T b (i + 1) i =
            quotient divZero (b i - ∑ l ∈ range i, T i l * forward divZero T b i l) (T i i) :=
          Function.update_self _ _ _
        rw [sum_range_succ, hbefore i le_rfl, hlast, quotient_of_ne (hdiag i hi),
          mul_div_cancel₀ _ (hdiag i hi)]
        exact add_sub_cancel _ _

theorem solve_congr (lower : Bool) (h : ∀ i < n, b i = b' i) :
    solve divZero lower n T b = solve divZero lower n T b' := by
  cases lower with
  | true => exact forward_congr h
  | false =>
      funext i
      show forward _ _ (fun i => b (n - 1 - i)) n _ = forward _ _ (fun i => b' (n - 1 - i)) n _
      rw [forward_congr fun i hi => h (n - 1 - i) (by omega)]

variable (b divZero) in
/-- The kernel solves a triangular system with an invertible diagonal. -/
theorem solve_spec (uplo : Uplo) (hT : ∀ i l, uplo.stores i l = false → T i l = 0)
    (hdiag : ∀ i < n, T i i ≠ 0) (hi : i < n) :
    ∑ l ∈ range n, T i l * solve divZero (uplo = .lower) n T b l = b i := by
  cases uplo with
  | lower =>
      have hrow := forward_spec b divZero hdiag i hi
      have hafter : ∑ l ∈ Ico (i + 1) n, T i l * forward divZero T b n l = 0 := by
        refine sum_eq_zero fun l hl => ?_
        have hil := (mem_Ico.mp hl).1
        rw [hT i l (decide_eq_false (by omega)), zero_mul]
      show ∑ l ∈ range n, T i l * forward divZero T b n l = b i
      rw [← sum_range_add_sum_Ico _ (Nat.succ_le_of_lt hi), hafter, add_zero, hrow]
  | upper =>
      -- the system in the reverse order of its unknowns is lower triangular
      obtain ⟨x, hx⟩ : ∃ x, x = forward divZero (fun i l => T (n - 1 - i) (n - 1 - l))
        (fun i => b (n - 1 - i)) n := ⟨_, rfl⟩
      have hrow := forward_spec (T := fun i l => T (n - 1 - i) (n - 1 - l)) (n := n)
        (fun i => b (n - 1 - i)) divZero (fun i hi => hdiag _ (by omega)) (n - 1 - i) (by omega)
      rw [show n - 1 - (n - 1 - i) = i by omega, ← hx] at hrow
      have hafter : ∑ l ∈ Ico (n - 1 - i + 1) n, T i (n - 1 - l) * x l = 0 := by
        refine sum_eq_zero fun l hl => ?_
        obtain ⟨hil, hln⟩ := mem_Ico.mp hl
        rw [hT i (n - 1 - l) (decide_eq_false (by omega)), zero_mul]
      have hreverse : ∑ l ∈ range n, T i (n - 1 - l) * x l = b i := by
        rw [← sum_range_add_sum_Ico _ (show n - 1 - i + 1 ≤ n by omega), hafter, add_zero, hrow]
      rw [← sum_range_reflect]
      refine (sum_congr rfl fun l hl => ?_).trans hreverse
      have hln := mem_range.mp hl
      rw [hx]
      show _ * forward _ _ _ n (n - 1 - (n - 1 - l)) = _
      rw [show n - 1 - (n - 1 - l) = l by omega]

end Kernel

section Driver

variable {R : Type*} [Field R] [StarRing R] [DecidableEq R]

/-- The loops of `xkblas_ztrsm_async`, with the quotients of the kernels by zero and the value of
the quotient `-1.0 / *alpha`. -/
def ztrsmTasksWith (divZero : R → R) (d : Operand → Descr) (side : Side) (uplo : Uplo)
    (transA : Trans) (diag : Diag) (alpha minvalpha : R) (LDA LDB : ℤ) : List (Task R) :=
  let Bmt := (d .B).mt
  let Bnt := (d .B).nt
  let Bmb := (d .B).mb
  let Bnb := (d .B).nb
  if side = .left then
    if uplo = .upper then
      if transA = .noTrans then
        forLoop 0 Bmt fun k =>
          let tempkm := if k = 0 then sizeSub (d .B).M ((Bmt - 1) * Bmb) else Bmb
          let lalpha := if k = 0 then alpha else 1
          (forLoop 0 Bnt fun n =>
            let tempnn := tempSize Bnt (d .B).N Bnb n
            [insertTaskZtrsmWith divZero side uplo transA diag tempkm tempnn lalpha
              ⟨.A, Bmt - 1 - k, Bmt - 1 - k, LDA⟩ ⟨.B, Bmt - 1 - k, n, LDB⟩]) ++
          forLoop (k + 1) Bmt fun m =>
            forLoop 0 Bnt fun n =>
              let tempnn := tempSize Bnt (d .B).N Bnb n
              [insertTaskZgemm .noTrans .noTrans Bmb tempnn tempkm (-1)
                ⟨.A, Bmt - 1 - m, Bmt - 1 - k, LDA⟩ ⟨.B, Bmt - 1 - k, n, LDB⟩ lalpha
                ⟨.B, Bmt - 1 - m, n, LDB⟩]
      else
        forLoop 0 Bmt fun k =>
          let tempkm := tempSize Bmt (d .B).M Bmb k
          let lalpha := if k = 0 then alpha else 1
          (forLoop 0 Bnt fun n =>
            let tempnn := tempSize Bnt (d .B).N Bnb n
            [insertTaskZtrsmWith divZero side uplo transA diag tempkm tempnn lalpha
              ⟨.A, k, k, LDA⟩ ⟨.B, k, n, LDB⟩]) ++
          forLoop (k + 1) Bmt fun m =>
            let tempmm := tempSize Bmt (d .B).M Bmb m
            forLoop 0 Bnt fun n =>
              let tempnn := tempSize Bnt (d .B).N Bnb n
              [insertTaskZgemm transA .noTrans tempmm tempnn Bmb (-1) ⟨.A, k, m, LDA⟩
                ⟨.B, k, n, LDB⟩ lalpha ⟨.B, m, n, LDB⟩]
    else
      if transA = .noTrans then
        forLoop 0 Bmt fun k =>
          let tempkm := tempSize Bmt (d .B).M Bmb k
          let lalpha := if k = 0 then alpha else 1
          (forLoop 0 Bnt fun n =>
            let tempnn := tempSize Bnt (d .B).N Bnb n
            [insertTaskZtrsmWith divZero side uplo transA diag tempkm tempnn lalpha
              ⟨.A, k, k, LDA⟩ ⟨.B, k, n, LDB⟩]) ++
          forLoop (k + 1) Bmt fun m =>
            let tempmm := tempSize Bmt (d .B).M Bmb m
            forLoop 0 Bnt fun n =>
              let tempnn := tempSize Bnt (d .B).N Bnb n
              [insertTaskZgemm .noTrans .noTrans tempmm tempnn Bmb (-1) ⟨.A, m, k, LDA⟩
                ⟨.B, k, n, LDB⟩ lalpha ⟨.B, m, n, LDB⟩]
      else
        forLoop 0 Bmt fun k =>
          let tempkm := if k = 0 then sizeSub (d .B).M ((Bmt - 1) * Bmb) else Bmb
          let lalpha := if k = 0 then alpha else 1
          (forLoop 0 Bnt fun n =>
            let tempnn := tempSize Bnt (d .B).N Bnb n
            [insertTaskZtrsmWith divZero side uplo transA diag tempkm tempnn lalpha
              ⟨.A, Bmt - 1 - k, Bmt - 1 - k, LDA⟩ ⟨.B, Bmt - 1 - k, n, LDB⟩]) ++
          forLoop (k + 1) Bmt fun m =>
            forLoop 0 Bnt fun n =>
              let tempnn := tempSize Bnt (d .B).N Bnb n
              [insertTaskZgemm transA .noTrans Bmb tempnn tempkm (-1)
                ⟨.A, Bmt - 1 - k, Bmt - 1 - m, LDA⟩ ⟨.B, Bmt - 1 - k, n, LDB⟩ lalpha
                ⟨.B, Bmt - 1 - m, n, LDB⟩]
  else
    if uplo = .upper then
      if transA = .noTrans then
        forLoop 0 Bnt fun k =>
          let tempkn := tempSize Bnt (d .B).N Bnb k
          let lalpha := if k = 0 then alpha else 1
          (forLoop 0 Bmt fun m =>
            let tempmm := tempSize Bmt (d .B).M Bmb m
            [insertTaskZtrsmWith divZero side uplo transA diag tempmm tempkn lalpha
              ⟨.A, k, k, LDA⟩ ⟨.B, m, k, LDB⟩]) ++
          forLoop 0 Bmt fun m =>
            let tempmm := tempSize Bmt (d .B).M Bmb m
            forLoop (k + 1) Bnt fun n =>
              let tempnn := tempSize Bnt (d .B).N Bnb n
              [insertTaskZgemm .noTrans .noTrans tempmm tempnn Bmb (-1) ⟨.B, m, k, LDB⟩
                ⟨.A, k, n, LDA⟩ lalpha ⟨.B, m, n, LDB⟩]
      else
        forLoop 0 Bnt fun k =>
          let tempkn := if k = 0 then sizeSub (d .B).N ((Bnt - 1) * Bnb) else Bnb
          forLoop 0 Bmt fun m =>
            let tempmm := tempSize Bmt (d .B).M Bmb m
            [insertTaskZtrsmWith divZero side uplo transA diag tempmm tempkn alpha
              ⟨.A, Bnt - 1 - k, Bnt - 1 - k, LDA⟩ ⟨.B, m, Bnt - 1 - k, LDB⟩] ++
            forLoop (k + 1) Bnt fun n =>
              [insertTaskZgemm .noTrans transA tempmm Bnb tempkn minvalpha
                ⟨.B, m, Bnt - 1 - k, LDB⟩ ⟨.A, Bnt - 1 - n, Bnt - 1 - k, LDA⟩ 1
                ⟨.B, m, Bnt - 1 - n, LDB⟩]
    else
      if transA = .noTrans then
        forLoop 0 Bnt fun k =>
          let tempkn := if k = 0 then sizeSub (d .B).N ((Bnt - 1) * Bnb) else Bnb
          let lalpha := if k = 0 then alpha else 1
          forLoop 0 Bmt fun m =>
            let tempmm := tempSize Bmt (d .B).M Bmb m
            [insertTaskZtrsmWith divZero side uplo transA diag tempmm tempkn lalpha
              ⟨.A, Bnt - 1 - k, Bnt - 1 - k, LDA⟩ ⟨.B, m, Bnt - 1 - k, LDB⟩] ++
            forLoop (k + 1) Bnt fun n =>
              [insertTaskZgemm .noTrans .noTrans tempmm Bnb tempkn (-1)
                ⟨.B, m, Bnt - 1 - k, LDB⟩ ⟨.A, Bnt - 1 - k, Bnt - 1 - n, LDA⟩ lalpha
                ⟨.B, m, Bnt - 1 - n, LDB⟩]
      else
        forLoop 0 Bnt fun k =>
          let tempkn := tempSize Bnt (d .B).N Bnb k
          forLoop 0 Bmt fun m =>
            let tempmm := tempSize Bmt (d .B).M Bmb m
            [insertTaskZtrsmWith divZero side uplo transA diag tempmm tempkn alpha
              ⟨.A, k, k, LDA⟩ ⟨.B, m, k, LDB⟩] ++
            forLoop (k + 1) Bnt fun n =>
              let tempnn := tempSize Bnt (d .B).N Bnb n
              [insertTaskZgemm .noTrans transA tempmm tempnn Bmb minvalpha ⟨.B, m, k, LDB⟩
                ⟨.A, n, k, LDA⟩ 1 ⟨.B, m, n, LDB⟩]

/-- The loops of `xkblas_ztrsm_async`, where a quotient by zero is zero. -/
def ztrsmTasks (d : Operand → Descr) (side : Side) (uplo : Uplo) (transA : Trans) (diag : Diag)
    (alpha : R) (LDA LDB : ℤ) : List (Task R) :=
  ztrsmTasksWith (fun _ => 0) d side uplo transA diag alpha (-1 / alpha) LDA LDB

/-- `xkblas_ztrsm_async`: the tasks that it inserts, or the error code that it returns. -/
def ztrsmAsync (NB : ℕ) (side : Side) (uplo : Uplo) (transA : Trans) (diag : Diag) (N NRHS : ℤ)
    (alpha : R) (LDA LDB : ℤ) : Except ℤ (List (Task R)) :=
  panelChecks side N NRHS LDA LDB
    (ztrsmTasks (panelDescr NB side N.toNat NRHS.toNat LDA LDB) side uplo transA diag alpha LDA LDB)

end Driver

/-! ## The common form -/

section Tasks

variable {R : Type*} [Field R] [StarRing R] [DecidableEq R] {d : Operand → Descr}
  {s s₀ : State R} {side : Side} {uplo : Uplo} {transA : Trans} {diag : Diag}
  {NB N NRHS L Q c p q : ℕ} {alpha mu ck : R} {LDA LDB : ℤ} {divZero : R → R}

/-- The loops that apply `alpha` in every stage. -/
def everyStage (side : Side) (transA : Trans) : Prop :=
  side = .right ∧ transA ≠ .noTrans

instance : Decidable (everyStage side transA) :=
  inferInstanceAs (Decidable (_ ∧ _))

/-- The factor of the right-hand side in the stage `k`. -/
def solveScale (side : Side) (transA : Trans) (alpha : R) (k : ℕ) : R :=
  if everyStage side transA then alpha else if k = 0 then alpha else 1

/-- The factor of the products of the updates. -/
def updateAlpha (side : Side) (transA : Trans) (minvalpha : R) : R :=
  if everyStage side transA then minvalpha else -1

/-- The factor of the blocks that are updated. -/
def updateBeta (side : Side) (transA : Trans) (alpha : R) (k : ℕ) : R :=
  if everyStage side transA then 1 else if k = 0 then alpha else 1

/-- The order of the loops over the tiles of a stage. -/
def trsmOrder (side : Side) (uplo : Uplo) (transA : Trans) : StageOrder :=
  match side, uplo, transA with
  | .left, _, _ => .tiles
  | .right, .upper, .noTrans => .firstThenLines
  | .right, _, _ => .lines

/-- The sweep goes down in an upper triangle, and up in a lower one. -/
def trsmDown (side : Side) (uplo : Uplo) (transA : Trans) : Bool :=
  decide (side.triangle uplo transA = .upper)

/-- The task on the diagonal, in the coordinates of the lines. -/
def lineTrsm (divZero : R → R) (side : Side) (uplo : Uplo) (transA : Trans) (diag : Diag)
    (NB L Q : ℕ) (alpha : R) (LDA LDB : ℤ) (p q : ℕ) : Task R :=
  let size := side.lines.size (tileSize L NB p) (tileSize Q NB q)
  insertTaskZtrsmWith divZero side uplo transA diag size.1 size.2 alpha ⟨.A, p, p, LDA⟩
    (side.tile p q LDB)

/-- The loops in the order of the stages. -/
def trsmLoopsWith (divZero : R → R) (side : Side) (uplo : Uplo) (transA : Trans) (diag : Diag)
    (NB L Q : ℕ) (alpha minvalpha : R) (LDA LDB : ℤ) : List (Task R) :=
  let down := trsmDown side uplo transA
  let K := numTiles L NB
  sweepLoops (trsmOrder side uplo transA) K (numTiles Q NB) (fun k => List.Ico (k + 1) K)
    (fun k q => [lineTrsm divZero side uplo transA diag NB L Q (solveScale side transA alpha k) LDA
      LDB (sweep down K k) q])
    fun k m q => [lineGemm side transA NB L Q (updateAlpha side transA minvalpha) LDA LDB
      (updateBeta side transA alpha k) (sweep down K m) q (sweep down K k)]

/-- The loops with the quotient of a factor that is not zero. -/
abbrev trsmLoops (side : Side) (uplo : Uplo) (transA : Trans) (diag : Diag) (NB L Q : ℕ) (alpha : R)
    (LDA LDB : ℤ) : List (Task R) :=
  trsmLoopsWith (fun _ => 0) side uplo transA diag NB L Q alpha (-1 / alpha) LDA LDB

omit [DecidableEq R] [Field R] [StarRing R] in
/-- The sizes of a sweep that starts with the last tile. -/
theorem tempSize_down {M k : ℕ} (hNB : 0 < NB) (hk : k < numTiles M NB) :
    (if k = 0 then sizeSub M ((numTiles M NB - 1) * NB) else NB) =
      tileSize M NB (numTiles M NB - 1 - k) := by
  rcases Nat.eq_zero_or_pos k with rfl | hpos
  · have hlast := tempSize_eq hNB (show numTiles M NB - 1 < numTiles M NB by omega)
    rw [if_pos rfl, Nat.sub_zero, ← hlast]
    exact (if_pos rfl).symm
  · rw [if_neg hpos.ne', tileSize_of_lt (by omega)]

/-- The loops of `xkblas_ztrsm_async`. -/
theorem ztrsmTasksWith_eq (hNB : 0 < NB) :
    ztrsmTasksWith divZero (panelDescr NB side N NRHS LDA LDB) side uplo transA diag alpha mu LDA
        LDB =
      trsmLoopsWith divZero side uplo transA diag NB (side.order N NRHS) (side.count N NRHS) alpha
        mu LDA LDB := by
  cases side <;> cases uplo <;> cases transA
  case left.upper.noTrans | left.lower.trans | left.lower.conjTrans =>
    refine forLoop_congr fun k _ (hk : k < numTiles N NB) => ?_
    refine congrArg₂ (· ++ ·) (forLoop_congr fun n _ (hn : n < numTiles NRHS NB) => ?_)
      (forLoop_congr fun m hm (hmt : m < numTiles N NB) =>
        forLoop_congr fun n _ (hn : n < numTiles NRHS NB) => ?_)
    · simp [panelDescr, initMatrixHandle, Side.order, Side.count, lineTrsm, Side.tile, Side.lines,
        Trans.tile, Trans.size, tempSize_down hNB hk, tempSize_eq hNB hn, sweep, trsmDown,
        Side.triangle, Uplo.flip, solveScale, everyStage]
    · have hfull : tileSize N NB (numTiles N NB - 1 - m) = NB := tileSize_of_lt (by omega)
      simp [panelDescr, initMatrixHandle, Side.order, Side.count, Trans.tile, lineGemm, gemmTask,
        tempSize_down hNB hk, tempSize_eq hNB hn, sweep, trsmDown, Side.triangle, Uplo.flip, hfull,
        updateAlpha, updateBeta, everyStage]
  case left.upper.trans | left.upper.conjTrans | left.lower.noTrans =>
    refine forLoop_congr fun k _ (hk : k < numTiles N NB) => ?_
    refine congrArg₂ (· ++ ·) (forLoop_congr fun n _ (hn : n < numTiles NRHS NB) => ?_)
      (forLoop_congr fun m hm (hmt : m < numTiles N NB) =>
        forLoop_congr fun n _ (hn : n < numTiles NRHS NB) => ?_)
    · simp [panelDescr, initMatrixHandle, Side.order, Side.count, lineTrsm, Side.tile, Side.lines,
        Trans.tile, Trans.size, tempSize_eq hNB hk, tempSize_eq hNB hn, sweep, trsmDown,
        Side.triangle, Uplo.flip, solveScale, everyStage]
    · have hfull : tileSize N NB k = NB := tileSize_of_lt (by omega)
      simp [panelDescr, initMatrixHandle, Side.order, Side.count, Trans.tile, lineGemm, gemmTask,
        tempSize_eq hNB hmt, tempSize_eq hNB hn, sweep, trsmDown, Side.triangle, Uplo.flip, hfull,
        updateAlpha, updateBeta, everyStage]
  case right.upper.noTrans =>
    refine forLoop_congr fun k _ (hk : k < numTiles NRHS NB) => ?_
    refine congrArg₂ (· ++ ·) (forLoop_congr fun m _ (hm : m < numTiles N NB) => ?_)
      (forLoop_congr fun m _ (hm : m < numTiles N NB) =>
        forLoop_congr fun n hn (hnt : n < numTiles NRHS NB) => ?_)
    · simp [panelDescr, initMatrixHandle, Side.order, Side.count, lineTrsm, Side.tile, Side.lines,
        Trans.tile, Trans.size, tempSize_eq hNB hk, tempSize_eq hNB hm, sweep, trsmDown,
        Side.triangle, Uplo.flip, solveScale, everyStage]
    · have hfull : tileSize NRHS NB k = NB := tileSize_of_lt (by omega)
      simp [panelDescr, initMatrixHandle, Side.order, Side.count, Trans.tile, lineGemm, gemmTask,
        tempSize_eq hNB hm, tempSize_eq hNB hnt, sweep, trsmDown, Side.triangle, Uplo.flip, hfull,
        updateAlpha, updateBeta, everyStage]
  case right.upper.trans | right.upper.conjTrans | right.lower.noTrans =>
    refine forLoop_congr fun k _ (hk : k < numTiles NRHS NB) => ?_
    refine forLoop_congr fun m _ (hm : m < numTiles N NB) => ?_
    refine congrArg₂ (· ++ ·) ?_ (forLoop_congr fun n hn (hnt : n < numTiles NRHS NB) => ?_)
    · simp [panelDescr, initMatrixHandle, Side.order, Side.count, lineTrsm, Side.tile, Side.lines,
        Trans.tile, Trans.size, tempSize_down hNB hk, tempSize_eq hNB hm, sweep, trsmDown,
        Side.triangle, Uplo.flip, solveScale, everyStage]
    · have hfull : tileSize NRHS NB (numTiles NRHS NB - 1 - n) = NB := tileSize_of_lt (by omega)
      simp [panelDescr, initMatrixHandle, Side.order, Side.count, Trans.tile, lineGemm, gemmTask,
        tempSize_down hNB hk, tempSize_eq hNB hm, sweep, trsmDown, Side.triangle, Uplo.flip, hfull,
        updateAlpha, updateBeta, everyStage]
  case right.lower.trans | right.lower.conjTrans =>
    refine forLoop_congr fun k _ (hk : k < numTiles NRHS NB) => ?_
    refine forLoop_congr fun m _ (hm : m < numTiles N NB) => ?_
    refine congrArg₂ (· ++ ·) ?_ (forLoop_congr fun n hn (hnt : n < numTiles NRHS NB) => ?_)
    · simp [panelDescr, initMatrixHandle, Side.order, Side.count, lineTrsm, Side.tile, Side.lines,
        Trans.tile, Trans.size, tempSize_eq hNB hk, tempSize_eq hNB hm, sweep, trsmDown,
        Side.triangle, solveScale, everyStage]
    · have hfull : tileSize NRHS NB k = NB := tileSize_of_lt (by omega)
      simp [panelDescr, initMatrixHandle, Side.order, Side.count, Trans.tile, lineGemm, gemmTask,
        tempSize_eq hNB hm, tempSize_eq hNB hnt, sweep, trsmDown, Side.triangle, hfull,
        updateAlpha, updateBeta, everyStage]

theorem ztrsmTasks_eq (hNB : 0 < NB) :
    ztrsmTasks (panelDescr NB side N NRHS LDA LDB) side uplo transA diag alpha LDA LDB =
      trsmLoops side uplo transA diag NB (side.order N NRHS) (side.count N NRHS) alpha LDA LDB :=
  ztrsmTasksWith_eq hNB

/-! ## Lines -/

theorem lineTrsm_fitsTile (h : PanelTiled d side NB L Q LDA LDB) (hp : p < numTiles L NB)
    (hq : q < numTiles Q NB) :
    (lineTrsm divZero side uplo transA diag NB L Q ck LDA LDB p q).FitsTile d .B
      (side.tile p q LDB).m (side.tile p q LDB).n := by
  have hA := h.A.fits hp hp .r
  have hB := h.B.fits hp hq .rw
  cases side with
  | left | right =>
      refine Task.Fits.fitsTile ?_ h.valid rfl rfl rfl
      exact List.forall_mem_cons.mpr ⟨hA, List.forall_mem_singleton.mpr hB⟩

/-- The kernel in the coordinates of the lines. -/
theorem op_trsm (m n : ℕ) (a b : Block R) (x y : ℕ) :
    side.lines.op (trsm divZero side uplo transA diag m n alpha a b) x y =
      if alpha = 0 then 0
      else
        solve divZero (side.triangle uplo transA = .lower) (side.order m n)
          (side.matrix uplo transA diag a) (fun x => alpha * side.lines.op b x y) x := by
  cases side <;> cases uplo <;> cases transA <;> rfl

/-- The line whose block `p` is replaced by the solution of the system of the tile `p`. -/
def tileSolve (divZero : R → R) (lower : Bool) (T : Block R) (L NB p : ℕ) (ck : R) (v : ℕ → R) :
    ℕ → R := fun i =>
  if i ∈ Library.tile L NB p then
    if ck = 0 then 0
    else
      solve divZero lower (tileSize L NB p) (fun x y => T (p * NB + x) (p * NB + y))
        (fun x => ck * v (p * NB + x)) (i - p * NB)
  else v i

omit [StarRing R] in
/-- It solves the block of a triangular matrix with an invertible diagonal. -/
theorem solved_tileSolve (uplo : Uplo) {T : Block R} (hNB : 0 < NB) (hp : p < numTiles L NB)
    (hT : ∀ i l, uplo.stores i l = false → T i l = 0) (hdiag : ∀ i < L, T i i ≠ 0) (ck : R)
    (v : ℕ → R) :
    Solved T (Library.tile L NB p) ck v (tileSolve divZero (uplo = .lower) T L NB p ck v) where
  frame := fun i hi => if_neg hi
  block := by
    intro i hi
    unfold blockRow
    by_cases hck : ck = 0
    · rw [hck, zero_mul]
      refine sum_eq_zero fun l hl => ?_
      have hzero : tileSolve divZero (uplo = .lower) T L NB p 0 v l = 0 :=
        (if_pos hl).trans (if_pos rfl)
      rw [hzero, mul_zero]
    · obtain ⟨hiL, rfl⟩ := mem_tile_iff.mp hi
      have hend := tile_le hNB hp
      obtain ⟨_, hx⟩ := (mem_tile hNB hp).mpr ⟨hiL, rfl⟩
      have hsolve := solve_spec (T := fun x y => T (i / NB * NB + x) (i / NB * NB + y))
        (fun x => ck * v (i / NB * NB + x)) divZero uplo
        (fun x y hxy => hT _ _ ((uplo.stores_add _ x y).trans hxy))
        (fun x hx => hdiag _ (by omega)) (show i - i / NB * NB < tileSize L NB (i / NB) by omega)
      simp only [tile_add_sub] at hsolve
      rw [sum_tile hNB hp, ← hsolve]
      refine sum_congr rfl fun l hl => congrArg (T i _ * ·) ?_
      have hl' := mem_range.mp hl
      have hmem : i / NB * NB + l ∈ Library.tile L NB (i / NB) :=
        mem_tile_iff.mpr ((mem_tile hNB hp).mp ⟨by omega, by omega⟩)
      unfold tileSolve
      rw [if_pos hmem, if_neg hck, Nat.add_sub_cancel_left]

/-- The block `p` of a line is solved. -/
theorem acts_lineTrsm (h : PanelTiled d side NB L Q LDA LDB) (hp : p < numTiles L NB)
    (hc : c < Q) :
    ActsOnLine d s₀ side L c
      [lineTrsm divZero side uplo transA diag NB L Q ck LDA LDB p (c / NB)]
      (tileSolve divZero (side.triangle uplo transA = .lower)
        (side.matrix uplo transA diag (s₀.get d .A)) L NB p ck) := by
  have hNB := h.pos
  refine acts_line h.valid h.B (lineTrsm_fitsTile h hp (div_lt_numTiles hNB hc)).toOnTile
    (fun x y => rfl) hc fun s hs i hi => ?_
  have hblock : side.matrix uplo transA diag (s.block d ⟨.A, p, p, LDA⟩) =
      fun x y => side.matrix uplo transA diag (s₀.get d .A) (p * NB + x) (p * NB + y) := by
    have hA : s.block d ⟨.A, p, p, LDA⟩ =
        fun x y => s₀.get d .A (p * NB + x) (p * NB + y) := by
      funext x y
      rw [h.A.block_apply, hs.get_eq (by decide)]
    funext x y
    rw [hA, matrix_shift]
  show side.lines.op (trsm divZero side uplo transA diag _ _ ck _ _) _ _ = _
  rw [op_trsm, side.order_size, hblock]
  refine ite_congr rfl (fun _ => rfl) fun _ => congrFun (solve_congr _ fun x hx => ?_) _
  have hend := tile_le hNB hp
  show ck * side.lines.op (s.block d (side.tile p (c / NB) LDB)) x _ = _
  rw [line_block h.B (by omega), tile_add_sub]

/-- The stages of the substitution of a line. -/
theorem acts_trsmLoops (h : PanelTiled d side NB L Q LDA LDB) (hc : c < Q) :
    let K := numTiles L NB
    let sigma := sweep (trsmDown side uplo transA) K
    let T := side.matrix uplo transA diag (s₀.get d .A)
    ActsOnLine d s₀ side L c
        (trsmLoopsWith divZero side uplo transA diag NB L Q alpha mu LDA LDB) fun v =>
      (List.range K).foldl (fun v k => (List.Ico (k + 1) K).foldl
        (fun v m => blockUpdate T (Library.tile L NB (sigma k)) (Library.tile L NB (sigma m))
          (updateAlpha side transA mu) (updateBeta side transA alpha k) v)
        (tileSolve divZero (side.triangle uplo transA = .lower) T L NB (sigma k)
          (solveScale side transA alpha k) v)) v := by
  intro K sigma T
  have hwrites : ∀ mu lam p q k x y,
      (lineGemm side transA NB L Q (mu : R) LDA LDB lam p q k).writes x y = true := by
    intro mu lam p q k x y
    cases side <;> rfl
  refine acts_sweepLoops (div_lt_numTiles h.pos hc) ?_ ?_ ?_ ?_
  · intro k hk
    exact acts_lineTrsm h (sweep_lt hk) hc
  · intro k hk m hm
    obtain ⟨hkm, hmK⟩ := List.Ico.mem.mp hm
    exact acts_lineGemm h diag (sweep_lt hmK) (sweep_lt hk) hc
      (fun heq => (Nat.lt_of_succ_le hkm).ne (sweep_inj hk hmK heq.symm))
      (sweep_stores _ hkm hmK).1
  · intro k hk q hq hne
    exact acts_other_line h.valid h.B (lineTrsm_fitsTile h (sweep_lt hk) hq).toOnTile
      (fun _ _ => rfl) hc hne.symm
  · intro k hk m hm q hq hne
    exact acts_other_line h.valid h.B
      (lineGemm_fitsTile h (sweep_lt (List.Ico.mem.mp hm).2) hq (sweep_lt hk)).toOnTile
      (hwrites _ _ _ _ _) hc hne.symm

omit [StarRing R] [DecidableEq R] in
/-- The scales of the stages: what an update multiplies is at the scale of its stage, and is then
at the scale of the next one. -/
theorem scales (halpha : alpha ≠ 0) (k : ℕ) :
    solveScale side transA alpha (k + 1) * updateAlpha side transA (-1 / alpha) = -1 ∧
      solveScale side transA alpha (k + 1) * updateBeta side transA alpha k =
        solveScale side transA alpha k := by
  unfold solveScale updateAlpha updateBeta
  by_cases hevery : everyStage side transA
  · simp only [if_pos hevery, mul_one, and_true]
    exact mul_div_cancel₀ _ halpha
  · simp [if_neg hevery]

/-- Every entry of a line after the sweep satisfies its equation. -/
theorem solve_line (h : PanelTiled d side NB L Q LDA LDB) (halpha : alpha ≠ 0)
    (hdiag : ∀ i < L, triangular uplo diag (s₀.get d .A) i i ≠ 0) (hc : c < Q) :
    ∃ g, ActsOnLine d s₀ side L c (trsmLoops side uplo transA diag NB L Q alpha LDA LDB) g ∧
      ∀ w, ∀ i < L, ∑ l ∈ range L, side.matrix uplo transA diag (s₀.get d .A) i l * g w l =
        alpha * w i := by
  refine ⟨_, acts_trsmLoops h hc, fun w i hi => ?_⟩
  obtain ⟨T, hT⟩ : ∃ T, T = side.matrix uplo transA diag (s₀.get d .A) := ⟨_, rfl⟩
  obtain ⟨down, hdown⟩ : ∃ down, down = trsmDown side uplo transA := ⟨_, rfl⟩
  have hzero : ∀ i l, (side.triangle uplo transA).stores i l = false → T i l = 0 := by
    intro i l hil
    rw [hT]
    exact matrix_eq_zero _ hil
  have hTdiag : ∀ i < L, T i i ≠ 0 := by
    intro i hi
    rw [hT]
    exact matrix_diag_ne_zero (hdiag i hi)
  have hsolve : ∀ k < numTiles L NB, ∀ v,
      Solved T (sweepTile down L NB k) (solveScale side transA alpha k) v
        (tileSolve (fun _ => 0) (side.triangle uplo transA = .lower) T L NB
          (sweep down (numTiles L NB) k) (solveScale side transA alpha k) v) :=
    fun k hk v => solved_tileSolve _ h.pos (sweep_lt hk) hzero hTdiag _ v
  have hstart : solveScale side transA alpha 0 = alpha := by
    unfold solveScale
    rw [if_pos rfl, ite_self]
  have hinv := block_substitution disjoint_sweepTile (fun k _ => List.Ico.nodup (k + 1) _)
    (fun k _ m => List.Ico.mem) hsolve
    (fun k _ m _ v => updated_blockUpdate T (sweepTile down L NB k) (sweepTile down L NB m)
      (updateAlpha side transA (-1 / alpha)) (updateBeta side transA alpha k) v)
    hstart (fun k => (scales halpha k).1) (fun k => (scales halpha k).2) w
  obtain ⟨a, ha, hia⟩ := exists_mem_sweepTile down h.pos hi
  rw [← hT, ← hdown, ← hinv.solved a ha i hia]
  -- the tiles of the stages after are not in the triangle
  unfold partialRow
  rw [← sum_sweepTile h.pos, ← sum_range_add_sum_Ico _ (Nat.succ_le_of_lt ha)]
  refine (congrArg (_ + ·) (sum_eq_zero fun b hb => ?_)).trans (add_zero _)
  obtain ⟨hab, hb⟩ := mem_Ico.mp hb
  refine blockRow_eq_zero (fun l hl => ?_) _
  rw [hdown] at hia hl
  rw [hT]
  exact matrix_stage_eq_zero _ ha hb (Nat.lt_of_succ_le hab).ne hia hl (sweep_stores _ hab hb).2

/-- The tasks name tiles, and of `A` those of the triangle. -/
theorem mem_trsmLoops (h : PanelTiled d side NB L Q LDA LDB) {t : Task R}
    (ht : t ∈ trsmLoopsWith divZero side uplo transA diag NB L Q alpha mu LDA LDB) :
    (∃ m n, t.FitsTile d .B m n) ∧
      ∀ p ∈ t.inputs, p.mat = .A → uplo.stores p.m p.n = true := by
  obtain ⟨k, ⟨_, hk⟩, ht⟩ := mem_forLoop.mp ht
  obtain ⟨q, hq, ht⟩ := mem_stageLoops.mp ht
  rcases ht with ht | ⟨m, hm, ht⟩
  · obtain rfl := List.mem_singleton.mp ht
    refine ⟨⟨_, _, lineTrsm_fitsTile h (sweep_lt hk) hq⟩, fun p hp _ => ?_⟩
    obtain rfl := List.mem_singleton.mp hp
    exact uplo.stores_self _
  · obtain rfl := List.mem_singleton.mp ht
    obtain ⟨hkm, hmK⟩ := List.Ico.mem.mp hm
    refine ⟨⟨_, _, lineGemm_fitsTile h (sweep_lt hmK) hq (sweep_lt hk)⟩, fun p hp hpA => ?_⟩
    have hstores := (sweep_stores (side.triangle uplo transA) hkm hmK).1
    cases side with
    | left =>
        rcases List.mem_cons.mp hp with rfl | hp
        · exact tileA_stored hstores
        · obtain rfl := List.mem_singleton.mp hp
          exact absurd (show Operand.B = .A from hpA) (by decide)
    | right =>
        rcases List.mem_cons.mp hp with rfl | hp
        · exact absurd (show Operand.B = .A from hpA) (by decide)
        · obtain rfl := List.mem_singleton.mp hp
          exact tileA_stored hstores

/-! ## Correctness -/

/-- `B` after the loops solves the system. -/
theorem run_trsmLoops (transA : Trans) (h : PanelTiled d side NB L Q LDA LDB) (halpha : alpha ≠ 0)
    (hdiag : ∀ i < L, triangular uplo diag (s.get d .A) i i ≠ 0) :
    ∃ X, run d (trsmLoops side uplo transA diag NB L Q alpha LDA LDB) s = Function.update s .B
        (store (s .B) 0 (d .B).ld (d .B).M (d .B).N (fun _ _ => true) X) ∧
      ∀ i < L, ∀ c < Q, ∑ l ∈ range L, side.matrix uplo transA diag (s.get d .A) i l *
        side.lines.op X l c = alpha * side.lines.op (s.get d .B) i c := by
  obtain ⟨s', hs'⟩ : ∃ s', s' = run d (trsmLoops side uplo transA diag NB L Q alpha LDA LDB) s :=
    ⟨_, rfl⟩
  refine ⟨s'.get d .B, run_eq_of_lines h.valid h.B (fun t ht => ?_) fun c hc => ?_, ?_⟩
  · obtain ⟨⟨_, _, ht⟩, _⟩ := mem_trsmLoops h ht
    exact ⟨ht.stores, ht.mat⟩
  · refine ⟨_, acts_trsmLoops h hc, fun i hi => ?_⟩
    rw [← (acts_trsmLoops h hc).run_line, ← hs']
    exact State.line_of_lt hi
  · intro i hi c hc
    obtain ⟨g, hg, hsolve⟩ : ∃ g, ActsOnLine d s side L c
      (trsmLoops side uplo transA diag NB L Q alpha LDA LDB) g ∧ _ := solve_line h halpha hdiag hc
    have hrow := hsolve (s.line d side L c) i hi
    rw [State.line_of_lt hi] at hrow
    rw [← hrow]
    refine sum_congr rfl fun l hl => congrArg (_ * ·) ?_
    rw [← hg.run_line, ← hs', State.line_of_lt (mem_range.mp hl)]

omit [StarRing R] [DecidableEq R] in
/-- The solution is determined by the triangle and the right-hand side. -/
theorem solution_unique {T : Block R} {X X' : Block R} (tri : Uplo)
    (hT : ∀ i l, tri.stores i l = false → T i l = 0) (hdiag : ∀ i < L, T i i ≠ 0)
    (h : ∀ i < L, ∀ c < Q, ∑ l ∈ range L, T i l * X l c = ∑ l ∈ range L, T i l * X' l c) :
    ∀ i < L, ∀ c < Q, X i c = X' i c := by
  intro i hi c hc
  cases tri with
  | lower =>
      refine triangular_unique (fun i _ l _ hne (hle : i ≤ l) => hT i l ?_) hdiag
        (fun i hi => h i hi c hc) i hi
      exact decide_eq_false (by omega)
  | upper =>
      refine triangular_unique (fun i _ l _ hne (hle : L - i ≤ L - l) => hT i l ?_) hdiag
        (fun i hi => h i hi c hc) i hi
      exact decide_eq_false (by omega)

/-- What a call of `xkblas_ztrsm_async` promises: the tasks name tiles, and of `A` tiles of the
triangle `uplo`; if the diagonal is invertible, `B` is overwritten by a solution, and depends on
the triangle of `A` only. -/
def ZtrsmCorrect (NB : ℕ) (side : Side) (uplo : Uplo) (transA : Trans) (diag : Diag) (N NRHS : ℕ)
    (alpha : R) (LDA LDB : ℤ) : Prop :=
  let d := panelDescr NB side N NRHS LDA LDB
  ∃ tasks, ztrsmAsync NB side uplo transA diag N NRHS alpha LDA LDB = .ok tasks ∧
    (∀ t ∈ tasks, t.Fits d ∧ ∀ p ∈ t.inputs, p.mat = .A → uplo.stores p.m p.n = true) ∧
    ∀ s, (∀ i < side.order N NRHS, triangular uplo diag (s.get d .A) i i ≠ 0) →
      (∃ X, run d tasks s = Function.update s .B
          (store (s .B) 0 (d .B).ld N NRHS (fun _ _ => true) X) ∧
        ∀ i < N, ∀ j < NRHS, trmm side uplo transA diag N NRHS 1 (s.get d .A) X i j =
          alpha * s.get d .B i j) ∧
      ∀ s', s' .B = s .B →
        (∀ i < side.order N NRHS, ∀ j < side.order N NRHS, uplo.stores i j = true →
          s'.get d .A i j = s.get d .A i j) →
        run d tasks s' .B = run d tasks s .B

/-- `xkblas_ztrsm_async` solves the triangular system. -/
theorem ztrsm_correct (hN : 1 ≤ N) (hNRHS : 1 ≤ NRHS) (hNB : 1 ≤ NB)
    (hA : AdmissibleLd LDA (side.order N NRHS)) (hB : AdmissibleLd LDB N) (halpha : alpha ≠ 0) :
    ZtrsmCorrect NB side uplo transA diag N NRHS alpha LDA LDB := by
  have h := panelDescr_tiled hNB hA hB
  have hok : ztrsmAsync NB side uplo transA diag N NRHS alpha LDA LDB = _ :=
    panelChecks_ok hN hNRHS hA hB _
  simp only [Int.toNat_natCast] at hok
  rw [ztrsmTasks_eq hNB] at hok
  obtain ⟨d, hd⟩ : ∃ d, d = panelDescr NB side N NRHS LDA LDB := ⟨_, rfl⟩
  have hsize : (d .B).M = N ∧ (d .B).N = NRHS := by
    rw [hd]
    exact ⟨rfl, rfl⟩
  unfold ZtrsmCorrect
  rw [← hd] at h ⊢
  refine ⟨_, hok, fun t ht => ?_, fun s hdiag => ⟨?_, fun s' hB' hA' => ?_⟩⟩
  · obtain ⟨⟨_, _, hfits⟩, hstores⟩ := mem_trsmLoops h ht
    exact ⟨hfits.fits, hstores⟩
  · obtain ⟨X, hrun, hsolve⟩ := run_trsmLoops transA h halpha hdiag
    have hline : ∀ i < side.order N NRHS, ∀ c < side.count N NRHS,
        side.lines.op (trmm side uplo transA diag N NRHS 1 (s.get d .A) X) i c =
          alpha * side.lines.op (s.get d .B) i c := by
      intro i hi c hc
      rw [op_trmm, one_mul]
      exact hsolve i hi c hc
    rw [hsize.1, hsize.2] at hrun
    refine ⟨X, hrun, fun i hi j hj => ?_⟩
    cases side with
    | left => exact hline i hi j hj
    | right => exact hline j hj i hi
  · have hdiag' : ∀ i < side.order N NRHS, triangular uplo diag (s'.get d .A) i i ≠ 0 := by
      intro i hi
      rw [triangular_congr (hA' i hi i hi)]
      exact hdiag i hi
    obtain ⟨X, hrun, hsolve⟩ := run_trsmLoops transA h halpha hdiag
    obtain ⟨X', hrun', hsolve'⟩ := run_trsmLoops transA h halpha hdiag'
    have hgetB : s'.get d .B = s.get d .B := by
      unfold State.get
      rw [hB']
    -- both solve the system of `s`
    have hunique : ∀ i < side.order N NRHS, ∀ c < side.count N NRHS,
        side.lines.op X' i c = side.lines.op X i c := by
      refine solution_unique (side.triangle uplo transA) (fun i l hil => matrix_eq_zero _ hil)
        (fun i hi => matrix_diag_ne_zero (hdiag i hi)) fun i hi c hc => ?_
      rw [hsolve i hi c hc, ← hgetB, ← hsolve' i hi c hc]
      refine sum_congr rfl fun l hl => congrArg (· * _) ?_
      exact (matrix_congr hA' hi (mem_range.mp hl)).symm
    rw [hrun, hrun', Function.update_self, Function.update_self, hB']
    refine store_congr _ _ _ _ fun i hi j hj => ?_
    rw [h.B.M_eq] at hi
    rw [h.B.N_eq] at hj
    cases side with
    | left => exact hunique i hi j hj
    | right => exact hunique j hj i hi

/-- The solve on the right of a transposed upper triangular system of order three, with tiles of
order two: the sweep goes down, and `alpha` is applied in every stage. -/
theorem ztrsm_correct_orderThree :
    ZtrsmCorrect 2 .right .upper .conjTrans .nonUnit 1 3 (5 : ℚ) 3 2 :=
  ztrsm_correct (by decide) (by decide) (by decide) ⟨by decide, by decide⟩ ⟨by decide, by decide⟩
    (by norm_num)

end Tasks

end Xkblas.Blas
