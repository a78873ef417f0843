import Xkblas.Blas.Accumulate

/-!
# The tiled product of matrices

`xkblas_zgemm_async` and the tasks that it inserts. With descriptors that the call initialises,
the four loop nests are one loop over the tiles of `op(A)` and `op(B)` (`zgemmTasks_eq`), and the
tasks compute `alpha * op(A) * op(B) + beta * C`.
-/

namespace Xkblas.Blas

open Library Finset

section

variable {R : Type*} [CommRing R] [StarRing R] [DecidableEq R]

/-- The loops of `xkblas_zgemm_async`. -/
def zgemmTasks (d : Operand → Descr) (transA transB : Trans) (M N K : ℕ) (alpha : R) (LDA LDB : ℤ)
    (beta : R) (LDC : ℤ) : List (Task R) :=
  let Am := (transA.size M K).1
  let An := (transA.size M K).2
  forLoop 0 (d .C).mt fun m =>
    let tempmm := tempSize (d .C).mt M (d .C).mb m
    forLoop 0 (d .C).nt fun n =>
      let tempnn := tempSize (d .C).nt N (d .C).nb n
      if transA = .noTrans then
        if transB = .noTrans then
          forLoop 0 (d .A).nt fun k =>
            let tempkn := tempSize (d .A).nt An (d .A).nb k
            let zbeta := if k = 0 then beta else 1
            [insertTaskZgemm transA transB tempmm tempnn tempkn alpha ⟨.A, m, k, LDA⟩
              ⟨.B, k, n, LDB⟩ zbeta ⟨.C, m, n, LDC⟩]
        else
          forLoop 0 (d .A).nt fun k =>
            let tempkn := tempSize (d .A).nt An (d .A).nb k
            let zbeta := if k = 0 then beta else 1
            [insertTaskZgemm transA transB tempmm tempnn tempkn alpha ⟨.A, m, k, LDA⟩
              ⟨.B, n, k, LDB⟩ zbeta ⟨.C, m, n, LDC⟩]
      else
        if transB = .noTrans then
          forLoop 0 (d .A).mt fun k =>
            let tempkm := tempSize (d .A).mt Am (d .A).mb k
            let zbeta := if k = 0 then beta else 1
            [insertTaskZgemm transA transB tempmm tempnn tempkm alpha ⟨.A, k, m, LDA⟩
              ⟨.B, k, n, LDB⟩ zbeta ⟨.C, m, n, LDC⟩]
        else
          forLoop 0 (d .A).mt fun k =>
            let tempkm := tempSize (d .A).mt Am (d .A).mb k
            let zbeta := if k = 0 then beta else 1
            [insertTaskZgemm transA transB tempmm tempnn tempkm alpha ⟨.A, k, m, LDA⟩
              ⟨.B, n, k, LDB⟩ zbeta ⟨.C, m, n, LDC⟩]

/-- The descriptors of a call that initialises them. -/
def zgemmDescr (NB : ℕ) (transA transB : Trans) (M N K : ℕ) (LDA LDB LDC : ℤ) : Operand → Descr
  | .A => initMatrixHandle (transA.size M K).1 (transA.size M K).2 (toSize LDA) NB NB
  | .B => initMatrixHandle (transB.size K N).1 (transB.size K N).2 (toSize LDB) NB NB
  | .C => initMatrixHandle M N (toSize LDC) NB NB

/-- `xkblas_zgemm_async`: the tasks that it inserts, or the error code that it returns. -/
def zgemmAsync (NB : ℕ) (transA transB : Trans) (M N K : ℤ) (alpha : R) (LDA LDB : ℤ) (beta : R)
    (LDC : ℤ) : Except ℤ (List (Task R)) :=
  let Am := (transA.size M.toNat K.toNat).1
  let Bm := (transB.size K.toNat N.toNat).1
  if M < 0 then .error (-3)
  else if N < 0 then .error (-4)
  else if K < 0 then .error (-5)
  else if illegalLd LDA Am then .error (-8)
  else if illegalLd LDB Bm then .error (-10)
  else if illegalLd LDC M.toNat then .error (-13)
  else if M = 0 ∨ N = 0 ∨ ((alpha = 0 ∨ K = 0) ∧ beta = 1) then .ok []
  else
    .ok (zgemmTasks (zgemmDescr NB transA transB M.toNat N.toNat K.toNat LDA LDB LDC) transA transB
      M.toNat N.toNat K.toNat alpha LDA LDB beta LDC)

end

section Fresh

variable {R : Type*} [CommRing R] [StarRing R] [DecidableEq R] {NB M N K : ℕ}
  {transA transB : Trans} {alpha beta : R} {LDA LDB LDC : ℤ}

/-- The four loop nests are one. -/
theorem zgemmTasks_eq (hNB : 0 < NB) :
    zgemmTasks (zgemmDescr NB transA transB M N K LDA LDB LDC) transA transB M N K alpha LDA LDB
        beta LDC =
      forLoop 0 (numTiles M NB) fun m => forLoop 0 (numTiles N NB) fun n =>
        forLoop 0 (numTiles K NB) fun k =>
          [insertTaskZgemm transA transB (tileSize M NB m) (tileSize N NB n) (tileSize K NB k) alpha
            (transA.tile .A m k LDA) (transB.tile .B k n LDB) (if k = 0 then beta else 1)
            ⟨.C, m, n, LDC⟩] := by
  refine forLoop_congr fun m _ (hm : m < numTiles M NB) =>
    forLoop_congr fun n _ (hn : n < numTiles N NB) => ?_
  cases transA <;> cases transB
  all_goals
    refine forLoop_congr fun k _ (hk : k < numTiles K NB) => ?_
    simp [zgemmDescr, initMatrixHandle, Trans.size, Trans.tile, tempSize_eq hNB hm,
      tempSize_eq hNB hn, tempSize_eq hNB hk]

/-- What a call of `xkblas_zgemm_async` promises: its tasks name tiles of the three matrices, and
their execution replaces `C` by `alpha * op(A) * op(B) + beta * C`. -/
def ZgemmCorrect (NB : ℕ) (transA transB : Trans) (M N K : ℕ) (alpha : R) (LDA LDB : ℤ) (beta : R)
    (LDC : ℤ) : Prop :=
  let d := zgemmDescr NB transA transB M N K LDA LDB LDC
  ∃ tasks, zgemmAsync NB transA transB M N K alpha LDA LDB beta LDC = .ok tasks ∧
    (∀ t ∈ tasks, t.Fits d) ∧
    ∀ s, run d tasks s = Function.update s .C
      (store (s .C) 0 (d .C).ld M N (fun _ _ => true)
        (gemm transA transB K alpha (s.get d .A) (s.get d .B) beta (s.get d .C)))

/-- The call passes the checks of the arguments. -/
theorem zgemmAsync_ok (hM : 1 ≤ M) (hN : 1 ≤ N) (hK : 1 ≤ K)
    (hLDA : ¬ illegalLd LDA (transA.size M K).1) (hLDB : ¬ illegalLd LDB (transB.size K N).1)
    (hLDC : ¬ illegalLd LDC M) :
    zgemmAsync NB transA transB M N K alpha LDA LDB beta LDC =
      .ok (if alpha = 0 ∧ beta = 1 then []
        else zgemmTasks (zgemmDescr NB transA transB M N K LDA LDB LDC) transA transB M N K alpha
          LDA LDB beta LDC) := by
  unfold zgemmAsync
  simp only [Int.toNat_natCast]
  rw [if_neg (by omega), if_neg (by omega), if_neg (by omega), if_neg hLDA, if_neg hLDB,
    if_neg hLDC]
  by_cases hquick : alpha = 0 ∧ beta = 1
  · rw [if_pos (.inr (.inr ⟨.inl hquick.1, hquick.2⟩)), if_pos hquick]
  · rw [if_neg, if_neg hquick]
    rintro (h | h | ⟨h | h, hbeta⟩)
    · omega
    · omega
    · exact hquick ⟨h, hbeta⟩
    · omega

theorem zgemmDescr_valid (hNB : 0 < NB) (hLDA : ¬ illegalLd LDA (transA.size M K).1)
    (hLDB : ¬ illegalLd LDB (transB.size K N).1) (hLDC : ¬ illegalLd LDC M) (X : Operand) :
    (zgemmDescr NB transA transB M N K LDA LDB LDC X).Valid := by
  cases X with
  | A => exact valid_initMatrixHandle hNB hNB (not_lt.mp hLDA)
  | B => exact valid_initMatrixHandle hNB hNB (not_lt.mp hLDB)
  | C => exact valid_initMatrixHandle hNB hNB (not_lt.mp hLDC)

/-- The tile loops compute the product. -/
theorem run_zgemmLoops (hK : 1 ≤ K) {d : Operand → Descr}
    (hA : (d .A).TiledOp transA NB M K LDA) (hB : (d .B).TiledOp transB NB K N LDB)
    (hC : (d .C).Tiled NB M N LDC) :
    let tasks := forLoop 0 (numTiles M NB) fun m => forLoop 0 (numTiles N NB) fun n =>
      forLoop 0 (numTiles K NB) fun k =>
        [gemmTask transA transB NB M N K alpha .A LDA .B LDB (if k = 0 then beta else 1) .C LDC
          m n k]
    (∀ t ∈ tasks, t.Fits d) ∧
    ∀ s, run d tasks s = Function.update s .C
      (store (s .C) 0 (d .C).ld M N (fun _ _ => true)
        (gemm transA transB K alpha (s.get d .A) (s.get d .B) beta (s.get d .C))) := by
  intro tasks
  have hd : ∀ X, (d X).Valid := by
    intro X
    cases X with
    | A => exact hA.toValid
    | B => exact hB.toValid
    | C => exact hC.toValid
  have hbody : ∀ m < numTiles M NB, ∀ n < numTiles N NB, ∀ t ∈ (forLoop 0 (numTiles K NB) fun k =>
      [gemmTask transA transB NB M N K alpha .A LDA .B LDB (if k = 0 then beta else 1) .C LDC
        m n k]), t.FitsTile d .C m n := by
    intro m hm n hn t ht
    obtain ⟨k, ⟨_, hk⟩, ht⟩ := mem_forLoop.mp ht
    rw [List.mem_singleton.mp ht]
    exact gemmTask_fitsTile hd hA hB hC hm hn hk
  have htasks : ∀ t ∈ tasks, t.Fits d ∧ t.Stores d ∧ t.out.mat = .C := by
    intro t ht
    obtain ⟨m, ⟨_, hm⟩, ht⟩ := mem_forLoop.mp ht
    obtain ⟨n, ⟨_, hn⟩, ht⟩ := mem_forLoop.mp ht
    have hfits := hbody m hm n hn t ht
    exact ⟨hfits.fits, hfits.stores, hfits.mat⟩
  refine ⟨fun t ht => (htasks t ht).1,
    fun s => run_eq_of_acts hd hC (fun t ht => (htasks t ht).2) ?_⟩
  intro i hi j hj
  exact ⟨_, acts_tiles hd hC hi hj (fun m hm n hn t ht => (hbody m hm n hn t ht).toOnTile)
    (acts_gemmLoop hd hA hB hC (by decide) (by decide) hi hj hK), rfl⟩

/-- The tasks of a call are right exactly when it inserts none, or when no leading dimension is
negative. -/
theorem zgemm_correct_iff (hM : 1 ≤ M) (hN : 1 ≤ N) (hK : 1 ≤ K) (hNB : 1 ≤ NB)
    (hLDA : ¬ illegalLd LDA (transA.size M K).1) (hLDB : ¬ illegalLd LDB (transB.size K N).1)
    (hLDC : ¬ illegalLd LDC M) (hintA : LDA < 2 ^ 31) (hintB : LDB < 2 ^ 31)
    (hintC : LDC < 2 ^ 31) :
    ZgemmCorrect NB transA transB M N K alpha LDA LDB beta LDC ↔
      (alpha = 0 ∧ beta = 1) ∨ (0 ≤ LDA ∧ 0 ≤ LDB ∧ 0 ≤ LDC) := by
  have hok : zgemmAsync NB transA transB M N K alpha LDA LDB beta LDC = _ :=
    zgemmAsync_ok hM hN hK hLDA hLDB hLDC
  by_cases hquick : alpha = 0 ∧ beta = 1
  · refine iff_of_true ⟨[], hok.trans (by rw [if_pos hquick]), by simp, fun s => ?_⟩ (.inl hquick)
    -- the product leaves `C` as it is
    refine run_eq_store (zgemmDescr_valid hNB hLDA hLDB hLDC) (by simp) (by simp) ?_
    intro i _ j _
    simp [run, gemm, hquick.1, hquick.2]
  · rw [if_neg hquick, zgemmTasks_eq hNB] at hok
    constructor
    · rintro ⟨tasks, htasks, hfits, _⟩
      obtain rfl : _ = tasks := Except.ok.inj (hok.symm.trans htasks)
      -- the leading dimensions of the first task are those of the descriptors
      have hfirst := hfits
        (gemmTask transA transB NB M N K alpha .A LDA .B LDB beta .C LDC 0 0 0) <| by
          refine mem_forLoop.mpr ⟨0, ⟨le_rfl, numTiles_pos hNB hM⟩, ?_⟩
          refine mem_forLoop.mpr ⟨0, ⟨le_rfl, numTiles_pos hNB hN⟩, ?_⟩
          exact mem_forLoop.mpr ⟨0, ⟨le_rfl, numTiles_pos hNB hK⟩, List.mem_singleton_self _⟩
      have hldA := (hfirst _ List.mem_cons_self).ld_eq
      have hldB := (hfirst _ (List.mem_cons_of_mem _ List.mem_cons_self)).ld_eq
      have hldC := (hfirst _ (Task.out_mem _)).ld_eq
      simp only [insertTaskZgemm, Trans.tile_ld] at hldA hldB hldC
      exact .inr ⟨hldA ▸ Int.natCast_nonneg _, hldB ▸ Int.natCast_nonneg _,
        hldC ▸ Int.natCast_nonneg _⟩
    · rintro (h | ⟨hA, hB, hC⟩)
      · exact absurd h hquick
      · exact ⟨_, hok, run_zgemmLoops hK
          (tiled_initMatrixHandle hNB (not_lt.mp hLDA) hA hintA)
          (tiled_initMatrixHandle hNB (not_lt.mp hLDB) hB hintB)
          (tiled_initMatrixHandle hNB (not_lt.mp hLDC) hC hintC)⟩

/-- The call of the product of two matrices of order one. -/
theorem zgemm_correct_orderOne : ZgemmCorrect 1 .noTrans .noTrans 1 1 1 (1 : ℤ) 1 1 0 1 :=
  (zgemm_correct_iff le_rfl le_rfl le_rfl le_rfl (by decide) (by decide) (by decide) (by decide)
    (by decide) (by decide)).mpr (.inr (by decide))

/-- A leading dimension that is negative passes the check, is rejected by the kernel, and leaves
`C` as it was. -/
theorem zgemm_negative_ld :
    ¬ illegalLd (-1) 1 ∧ ¬ ZgemmCorrect 1 .noTrans .noTrans 1 1 1 (1 : ℤ) (-1) 1 0 1 := by
  refine ⟨by decide, ?_⟩
  rintro ⟨tasks, htasks, _, hrun⟩
  obtain rfl : _ = tasks := Except.ok.inj htasks
  have hC := congrFun (congrFun (hrun fun X _ => if X = .C then 5 else 1) .C) 0
  revert hC
  decide

end Fresh

end Xkblas.Blas
