import Xkblas.Blas.Accumulate

/-!
# The tiled product restricted to a triangle

`xkblas_zgemmt_async` updates the tiles of one triangle of `C`. On a tile of the diagonal it
inserts a gemmt task, whose body is a full gemm: the elements of the other triangle in the tiles
of the diagonal are overwritten. `run_zgemmtLoops` gives the elements of `C` after the call, and
`zgemmt_correct_iff` the calls that leave the other triangle alone.
-/

namespace Xkblas.Blas

open Library Finset

section Drivers

variable {R : Type*} [CommRing R] [StarRing R] [DecidableEq R]

/-- The task of an iteration, with `(m == n) && (uplo !=0)`. -/
def gemmtInsert (uplo : Option Uplo) (transA transB : Trans) (m n tempmm tempnn tempk : ℕ)
    (alpha : R) (A B : Tile) (zbeta : R) (C : Tile) : List (Task R) :=
  match uplo with
  | some uplo =>
      if m = n then [insertTaskZgemmt uplo transA transB tempnn tempk alpha A B zbeta C]
      else [insertTaskZgemm transA transB tempmm tempnn tempk alpha A B zbeta C]
  | none => [insertTaskZgemm transA transB tempmm tempnn tempk alpha A B zbeta C]

/-- The loops of `xkblas_zgemmt_async`. An `uplo` that is `0` asks for the full product. -/
def zgemmtTasks (d : Operand → Descr) (uplo : Option Uplo) (transA transB : Trans) (N K : ℕ)
    (alpha : R) (LDA LDB : ℤ) (beta : R) (LDC : ℤ) : List (Task R) :=
  let Am := (transA.size N K).1
  let An := (transA.size N K).2
  forLoop 0 (d .C).mt fun m =>
    let tempmm := tempSize (d .C).mt N (d .C).mb m
    let min_n := if uplo = some .upper then m else 0
    let max_n := if uplo = some .lower then m + 1 else (d .C).nt
    forLoop min_n max_n fun n =>
      let tempnn := tempSize (d .C).nt N (d .C).nb n
      if transA = .noTrans then
        if transB = .noTrans then
          forLoop 0 (d .A).nt fun k =>
            let tempkn := tempSize (d .A).nt An (d .A).nb k
            let zbeta := if k = 0 then beta else 1
            gemmtInsert uplo transA transB m n tempmm tempnn tempkn alpha ⟨.A, m, k, LDA⟩
              ⟨.B, k, n, LDB⟩ zbeta ⟨.C, m, n, LDC⟩
        else
          forLoop 0 (d .A).nt fun k =>
            let tempkn := tempSize (d .A).nt An (d .A).nb k
            let zbeta := if k = 0 then beta else 1
            gemmtInsert uplo transA transB m n tempmm tempnn tempkn alpha ⟨.A, m, k, LDA⟩
              ⟨.B, n, k, LDB⟩ zbeta ⟨.C, m, n, LDC⟩
      else
        if transB = .noTrans then
          forLoop 0 (d .A).mt fun k =>
            let tempkm := tempSize (d .A).mt Am (d .A).mb k
            let zbeta := if k = 0 then beta else 1
            gemmtInsert uplo transA transB m n tempmm tempnn tempkm alpha ⟨.A, k, m, LDA⟩
              ⟨.B, k, n, LDB⟩ zbeta ⟨.C, m, n, LDC⟩
        else
          forLoop 0 (d .A).mt fun k =>
            let tempkm := tempSize (d .A).mt Am (d .A).mb k
            let zbeta := if k = 0 then beta else 1
            gemmtInsert uplo transA transB m n tempmm tempnn tempkm alpha ⟨.A, k, m, LDA⟩
              ⟨.B, n, k, LDB⟩ zbeta ⟨.C, m, n, LDC⟩

/-- The descriptors of a call that initialises them. -/
def zgemmtDescr (NB : ℕ) (transA transB : Trans) (N K : ℕ) (LDA LDB LDC : ℤ) : Operand → Descr
  | .A => initMatrixHandle (transA.size N K).1 (transA.size N K).2 (toSize LDA) NB NB
  | .B => initMatrixHandle (transB.size K N).1 (transB.size K N).2 (toSize LDB) NB NB
  | .C => initMatrixHandle N N (toSize LDC) NB NB

/-- `xkblas_zgemmt_async`: the tasks that it inserts, or the error code that it returns. -/
def zgemmtAsync (NB : ℕ) (uplo : Option Uplo) (transA transB : Trans) (N K : ℤ) (alpha : R)
    (LDA LDB : ℤ) (beta : R) (LDC : ℤ) : Except ℤ (List (Task R)) :=
  let Am := (transA.size N.toNat K.toNat).1
  let Bm := (transB.size K.toNat N.toNat).1
  if N < 0 then .error (-4)
  else if K < 0 then .error (-5)
  else if illegalLd LDA Am then .error (-8)
  else if illegalLd LDB Bm then .error (-10)
  else if illegalLd LDC N.toNat then .error (-13)
  else if N = 0 ∨ ((alpha = 0 ∨ K = 0) ∧ beta = 1) then .ok []
  else
    .ok (zgemmtTasks (zgemmtDescr NB transA transB N.toNat K.toNat LDA LDB LDC) uplo transA transB
      N.toNat K.toNat alpha LDA LDB beta LDC)

end Drivers

section Tasks

variable {R : Type*} [CommRing R] [StarRing R] [DecidableEq R] {d : Operand → Descr}
  {uplo : Uplo} {transA transB : Trans} {NB N K : ℕ} {alpha beta : R} {LDA LDB LDC : ℤ}

/-- The tasks of the loop over the inner dimension: on the diagonal and outside of it they are the
same. -/
def gemmtLoop (transA transB : Trans) (NB N K : ℕ) (alpha : R) (LDA LDB : ℤ) (beta : R) (LDC : ℤ)
    (m n : ℕ) : List (Task R) :=
  forLoop 0 (numTiles K NB) fun k =>
    [gemmTask transA transB NB N N K alpha .A LDA .B LDB (if k = 0 then beta else 1) .C LDC m n k]

/-- The loops for one of the two triangles. -/
def gemmtLoops (uplo : Uplo) (transA transB : Trans) (NB N K : ℕ) (alpha : R) (LDA LDB : ℤ)
    (beta : R) (LDC : ℤ) : List (Task R) :=
  forLoop 0 (numTiles N NB) fun m =>
    forLoop (if uplo = .upper then m else 0) (if uplo = .lower then m + 1 else numTiles N NB)
      (gemmtLoop transA transB NB N K alpha LDA LDB beta LDC m)

/-- The tasks of the loops are those of the products, up to the modes of their insertion. -/
theorem zgemmtTasks_eq (hNB : 0 < NB) :
    (zgemmtTasks (zgemmtDescr NB transA transB N K LDA LDB LDC) (some uplo) transA transB N K alpha
        LDA LDB beta LDC).map Task.erase =
      (gemmtLoops uplo transA transB NB N K alpha LDA LDB beta LDC).map Task.erase := by
  unfold zgemmtTasks gemmtLoops
  simp only [map_forLoop]
  refine forLoop_congr fun m _ (hm : m < numTiles N NB) => ?_
  simp only [Option.some.injEq]
  refine forLoop_congr fun n _ hn => ?_
  have hn : n < numTiles N NB := by
    have hmax : (zgemmtDescr NB transA transB N K LDA LDB LDC .C).nt = numTiles N NB := rfl
    rw [hmax] at hn
    split at hn <;> omega
  have hinsert : ∀ k < numTiles K NB, ∀ A B C : Tile, ∀ zbeta : R,
      (gemmtInsert (some uplo) transA transB m n (tempSize (numTiles N NB) N NB m)
          (tempSize (numTiles N NB) N NB n) (tempSize (numTiles K NB) K NB k) alpha A B zbeta
          C).map Task.erase =
        [insertTaskZgemm transA transB (tileSize N NB m) (tileSize N NB n) (tileSize K NB k) alpha
          A B zbeta C].map Task.erase := by
    intro k hk A B C zbeta
    rw [tempSize_eq hNB hm, tempSize_eq hNB hn, tempSize_eq hNB hk]
    show (if m = n then _ else _ : List (Task R)).map Task.erase = _
    split
    next h =>
      subst h
      rfl
    next => rfl
  unfold gemmtLoop
  cases transA <;> cases transB
  all_goals
    simp only [reduceCtorEq, if_true, if_false, map_forLoop]
    exact forLoop_congr fun k _ hk => hinsert k hk _ _ _ _

theorem run_zgemmtTasks (hNB : 0 < NB) (s : State R) :
    run d (zgemmtTasks (zgemmtDescr NB transA transB N K LDA LDB LDC) (some uplo) transA transB N K
        alpha LDA LDB beta LDC) s =
      run d (gemmtLoops uplo transA transB NB N K alpha LDA LDB beta LDC) s := by
  rw [← run_erase, zgemmtTasks_eq hNB, run_erase]

theorem zgemmtTasks_params (hNB : 0 < NB) :
    (zgemmtTasks (zgemmtDescr NB transA transB N K LDA LDB LDC) (some uplo) transA transB N K alpha
        LDA LDB beta LDC).flatMap Task.params =
      (gemmtLoops uplo transA transB NB N K alpha LDA LDB beta LDC).flatMap Task.params := by
  have herase : ∀ tasks : List (Task R),
      tasks.flatMap Task.params = (tasks.map Task.erase).flatMap Task.params := by
    intro tasks
    rw [List.flatMap_map]
    rfl
  rw [herase, zgemmtTasks_eq hNB, ← herase]

/-- The descriptors of the operands. -/
structure GemmtTiled (d : Operand → Descr) (transA transB : Trans) (NB N K : ℕ)
    (LDA LDB LDC : ℤ) : Prop where
  A : (d .A).TiledOp transA NB N K LDA
  B : (d .B).TiledOp transB NB K N LDB
  C : (d .C).Tiled NB N N LDC

theorem GemmtTiled.valid (h : GemmtTiled d transA transB NB N K LDA LDB LDC) (X : Operand) :
    (d X).Valid := by
  cases X with
  | A => exact h.A.toValid
  | B => exact h.B.toValid
  | C => exact h.C.toValid

theorem gemmtLoop_fitsTile (h : GemmtTiled d transA transB NB N K LDA LDB LDC) {m n : ℕ}
    (hm : m < numTiles N NB) (hn : n < numTiles N NB) {t : Task R}
    (ht : t ∈ gemmtLoop transA transB NB N K alpha LDA LDB beta LDC m n) : t.FitsTile d .C m n := by
  obtain ⟨k, ⟨_, hk⟩, ht⟩ := mem_forLoop.mp ht
  rw [List.mem_singleton.mp ht]
  exact gemmTask_fitsTile h.valid h.A h.B h.C hm hn hk

/-- The tiles of a row that the loops visit are those of the triangle. -/
theorem mem_row_iff {m n : ℕ} (hn : n < numTiles N NB) :
    ((if uplo = .upper then m else 0) ≤ n ∧
      n < if uplo = .lower then m + 1 else numTiles N NB) ↔ uplo.stores m n = true := by
  cases uplo with
  | upper => simp [Uplo.stores, hn]
  | lower => simp [Uplo.stores]

/-- The tasks of a row of tiles. -/
theorem gemmtRow_fitsTile (h : GemmtTiled d transA transB NB N K LDA LDB LDC) {m : ℕ}
    (hm : m < numTiles N NB) {t : Task R}
    (ht : t ∈ forLoop (if uplo = .upper then m else 0)
      (if uplo = .lower then m + 1 else numTiles N NB)
      (gemmtLoop transA transB NB N K alpha LDA LDB beta LDC m)) :
    ∃ n, uplo.stores m n = true ∧ t.FitsTile d .C m n := by
  obtain ⟨n, hn, ht⟩ := mem_forLoop.mp ht
  have hnt : n < numTiles N NB := by
    have := hn.2
    split at this <;> omega
  exact ⟨n, (mem_row_iff hnt).mp hn, gemmtLoop_fitsTile h hm hnt ht⟩

theorem gemmtLoops_fitsTile (h : GemmtTiled d transA transB NB N K LDA LDB LDC) {t : Task R}
    (ht : t ∈ gemmtLoops uplo transA transB NB N K alpha LDA LDB beta LDC) :
    ∃ m n, uplo.stores m n = true ∧ t.FitsTile d .C m n := by
  obtain ⟨m, ⟨_, hm⟩, ht⟩ := mem_forLoop.mp ht
  exact ⟨m, gemmtRow_fitsTile h hm ht⟩

/-- An element of `C` is overwritten when its tile is in the triangle. -/
theorem acts_gemmtLoops (h : GemmtTiled d transA transB NB N K LDA LDB LDC) (hK : 1 ≤ K)
    {s₀ : State R} {i j : ℕ} (hi : i < N) (hj : j < N) :
    ActsOn d s₀ .C i j (gemmtLoops uplo transA transB NB N K alpha LDA LDB beta LDC) fun x =>
      if uplo.stores (i / NB) (j / NB) = true then
        alpha * ∑ l ∈ range K, transA.op (s₀.get d .A) i l * transB.op (s₀.get d .B) l j + beta * x
      else x := by
  have hNB : 0 < NB := h.C.mb_eq ▸ h.C.mb_pos
  have hrow := div_lt_numTiles hNB hi
  have hcol := div_lt_numTiles hNB hj
  refine .forLoop_unique (Nat.zero_le _) hrow ?_ fun m _ hm hne => ?_
  · by_cases hstores : uplo.stores (i / NB) (j / NB) = true
    · obtain ⟨hlo, hhi⟩ := (mem_row_iff hcol).mpr hstores
      refine Acts.congr (.forLoop_unique hlo hhi
        (acts_gemmLoop h.valid h.A h.B h.C (by decide) (by decide) hi hj hK) fun n hn₁ hn₂ hne => ?_)
        fun x => (if_pos hstores).symm
      refine acts_other_tiles h.valid h.C hi hj fun t ht =>
        ⟨i / NB, n, ?_, fun h => hne h.2.symm⟩
      exact (gemmtLoop_fitsTile h hrow (by split at hn₂ <;> omega) ht).toOnTile
    · refine Acts.congr (acts_other_tiles h.valid h.C hi hj fun t ht => ?_)
        fun x => (if_neg hstores).symm
      obtain ⟨n, hn, ht⟩ := gemmtRow_fitsTile h hrow ht
      exact ⟨_, n, ht.toOnTile, fun h => hstores (h.2 ▸ hn)⟩
  · refine acts_other_tiles h.valid h.C hi hj fun t ht => ?_
    obtain ⟨n, _, ht⟩ := gemmtRow_fitsTile h hm ht
    exact ⟨m, n, ht.toOnTile, fun h => hne h.1.symm⟩

/-- What a call of `xkblas_zgemmt_async` promises: the elements of the triangle `uplo` are those
of the product, the others are those of the start. -/
def ZgemmtCorrect (NB : ℕ) (uplo : Uplo) (transA transB : Trans) (N K : ℕ) (alpha : R)
    (LDA LDB : ℤ) (beta : R) (LDC : ℤ) : Prop :=
  let d := zgemmtDescr NB transA transB N K LDA LDB LDC
  ∃ tasks, zgemmtAsync NB (some uplo) transA transB N K alpha LDA LDB beta LDC = .ok tasks ∧
    ∀ s, run d tasks s = Function.update s .C
      (store (s .C) 0 (d .C).ld N N uplo.stores
        (gemm transA transB K alpha (s.get d .A) (s.get d .B) beta (s.get d .C)))

/-- The call passes the checks of the arguments. -/
theorem zgemmtAsync_ok (hN : 1 ≤ N) (hK : 1 ≤ K) (hA : AdmissibleLd LDA (transA.size N K).1)
    (hB : AdmissibleLd LDB (transB.size K N).1) (hC : AdmissibleLd LDC N) :
    zgemmtAsync NB (some uplo) transA transB N K alpha LDA LDB beta LDC =
      .ok (if alpha = 0 ∧ beta = 1 then []
        else zgemmtTasks (zgemmtDescr NB transA transB N K LDA LDB LDC) (some uplo) transA transB
          N K alpha LDA LDB beta LDC) := by
  unfold zgemmtAsync
  simp only [Int.toNat_natCast]
  rw [if_neg (by omega), if_neg (by omega), if_neg hA.not_illegalLd, if_neg hB.not_illegalLd,
    if_neg hC.not_illegalLd]
  by_cases hquick : alpha = 0 ∧ beta = 1
  · rw [if_pos (.inr ⟨.inl hquick.1, hquick.2⟩), if_pos hquick]
  · rw [if_neg, if_neg hquick]
    rintro (h | ⟨h | h, hbeta⟩)
    · omega
    · exact hquick ⟨h, hbeta⟩
    · omega

omit [DecidableEq R] in
/-- A matrix whose row `i` of `op(X)` is the unit vector `o`. -/
theorem exists_op_row (transX : Trans) {ld : ℕ} (hld : 0 < ld) (i o : ℕ) :
    ∃ mem : ℕ → R, ∀ l, transX.op (entry mem 0 ld) i l = if l = o then 1 else 0 := by
  cases transX with
  | noTrans =>
      refine ⟨fun a => if a = i + o * ld then 1 else 0, fun l => ?_⟩
      show (if 0 + i + l * ld = i + o * ld then (1 : R) else 0) = _
      refine if_congr ?_ rfl rfl
      rw [Nat.zero_add, Nat.add_left_cancel_iff]
      exact ⟨Nat.eq_of_mul_eq_mul_right hld, congrArg (· * ld)⟩
  | trans =>
      refine ⟨fun a => if a = o + i * ld then 1 else 0, fun l => ?_⟩
      show (if 0 + l + i * ld = o + i * ld then (1 : R) else 0) = _
      exact if_congr (by omega) rfl rfl
  | conjTrans =>
      refine ⟨fun a => if a = o + i * ld then 1 else 0, fun l => ?_⟩
      show star (if 0 + l + i * ld = o + i * ld then (1 : R) else 0) = _
      rw [apply_ite star, star_one, star_zero]
      exact if_congr (by omega) rfl rfl

omit [DecidableEq R] in
/-- A matrix whose column `j` of `op(X)` is the unit vector `o`. -/
theorem exists_op_column (transX : Trans) {ld : ℕ} (hld : 0 < ld) (j o : ℕ) :
    ∃ mem : ℕ → R, ∀ l, transX.op (entry mem 0 ld) l j = if l = o then 1 else 0 := by
  cases transX with
  | noTrans => exact exists_op_row .trans hld j o
  | trans => exact exists_op_row .noTrans hld j o
  | conjTrans =>
      obtain ⟨mem, hmem⟩ := exists_op_row (R := R) .noTrans hld j o
      refine ⟨mem, fun l => ?_⟩
      show star (entry mem 0 ld j l) = _
      rw [show entry mem 0 ld j l = _ from hmem l, apply_ite star, star_one, star_zero]

omit [DecidableEq R] in
/-- A product, over `K` indices from `o` on, that leaves an element of `C` as it is for every
content does nothing. -/
theorem eq_zero_and_eq_one (hA : 0 < (d .A).ld) (hB : 0 < (d .B).ld) (hK : 1 ≤ K) (o : ℕ)
    {i j : ℕ}
    (h : ∀ s : State R, alpha * ∑ l ∈ range K, transA.op (s.get d .A) i (o + l) *
      transB.op (s.get d .B) (o + l) j + beta * s.get d .C i j = s.get d .C i j) :
    alpha = 0 ∧ beta = 1 := by
  constructor
  · obtain ⟨memA, hmemA⟩ := exists_op_row (R := R) transA hA i o
    obtain ⟨memB, hmemB⟩ := exists_op_column (R := R) transB hB j o
    have hs := h fun
      | .A => memA
      | .B => memB
      | .C => fun _ => 0
    have hsum : ∑ l ∈ range K, transA.op (entry memA 0 (d .A).ld) i (o + l) *
        transB.op (entry memB 0 (d .B).ld) (o + l) j = 1 := by
      simp only [hmemA, hmemB, Nat.add_eq_left, mul_ite, mul_one, mul_zero]
      rw [sum_ite_eq_of_mem' _ _ _ (mem_range.mpr hK)]
      simp
    have hproduct : alpha * (∑ l ∈ range K, transA.op (entry memA 0 (d .A).ld) i (o + l) *
        transB.op (entry memB 0 (d .B).ld) (o + l) j) + beta * 0 = 0 := hs
    rwa [hsum, mul_one, mul_zero, add_zero] at hproduct
  · have hs := h fun
      | .C => fun _ => 1
      | _ => fun _ => 0
    have hzero : ∀ l, transA.op (fun _ _ => (0 : R)) i l = 0 := by
      intro l
      cases transA <;> simp [Trans.op]
    have hproduct : alpha * (∑ l ∈ range K, transA.op (fun _ _ => (0 : R)) i (o + l) *
        transB.op (fun _ _ => (0 : R)) (o + l) j) + beta * 1 = 1 := hs
    simpa [hzero] using hproduct

/-- An element of the other triangle whose tile is in the triangle. -/
theorem exists_overwritten (uplo : Uplo) (hNB : 1 < NB) (hN : 1 < N) :
    ∃ i j, i < N ∧ j < N ∧ uplo.stores (i / NB) (j / NB) = true ∧ uplo.stores i j = false := by
  have hdiv : 1 / NB = 0 := Nat.div_eq_of_lt hNB
  cases uplo with
  | upper => exact ⟨1, 0, hN, by omega, by simp [Uplo.stores, hdiv], by simp [Uplo.stores]⟩
  | lower => exact ⟨0, 1, by omega, hN, by simp [Uplo.stores, hdiv], by simp [Uplo.stores]⟩

theorem zgemmtDescr_tiled (hNB : 1 ≤ NB) (hA : AdmissibleLd LDA (transA.size N K).1)
    (hB : AdmissibleLd LDB (transB.size K N).1) (hC : AdmissibleLd LDC N) :
    GemmtTiled (zgemmtDescr NB transA transB N K LDA LDB LDC) transA transB NB N K LDA LDB LDC :=
  ⟨hA.tiled hNB, hB.tiled hNB, hC.tiled hNB⟩

/-- The other triangle stays as it is exactly when the tiles or the matrix have order one, or the
call inserts no task. -/
theorem zgemmt_correct_iff (hN : 1 ≤ N) (hK : 1 ≤ K) (hNB : 1 ≤ NB)
    (hA : AdmissibleLd LDA (transA.size N K).1) (hB : AdmissibleLd LDB (transB.size K N).1)
    (hC : AdmissibleLd LDC N) :
    ZgemmtCorrect NB uplo transA transB N K alpha LDA LDB beta LDC ↔
      NB = 1 ∨ N = 1 ∨ (alpha = 0 ∧ beta = 1) := by
  have h := zgemmtDescr_tiled hNB hA hB hC
  have hok : zgemmtAsync NB (some uplo) transA transB N K alpha LDA LDB beta LDC = _ :=
    zgemmtAsync_ok hN hK hA hB hC
  by_cases hquick : alpha = 0 ∧ beta = 1
  · refine iff_of_true ⟨[], hok.trans (by rw [if_pos hquick]), fun s => ?_⟩ (.inr (.inr hquick))
    -- the product leaves `C` as it is
    refine run_eq_of_acts h.valid h.C (by simp) fun i _ j _ => ⟨id, .nil, ?_⟩
    simp [gemm, hquick.1, hquick.2]
  · rw [if_neg hquick] at hok
    constructor
    · rintro ⟨tasks, htasks, hrun⟩
      obtain rfl : _ = tasks := Except.ok.inj (hok.symm.trans htasks)
      by_contra hcond
      obtain ⟨i, j, hi, hj, htile, hother⟩ : ∃ i j, i < N ∧ j < N ∧
          uplo.stores (i / NB) (j / NB) = true ∧ uplo.stores i j = false :=
        exists_overwritten uplo (by omega) (by omega)
      -- the element is overwritten, so every product must leave it as it is
      refine hquick (eq_zero_and_eq_one h.A.ld_pos h.B.ld_pos hK 0 (fun s => ?_ : ∀ s : State R,
        alpha * ∑ l ∈ range K, transA.op (s.get _ .A) i (0 + l) *
          transB.op (s.get _ .B) (0 + l) j + beta * s.get _ .C i j = s.get _ .C i j))
      simp only [Nat.zero_add]
      have hcode := (acts_gemmtLoops h hK hi hj : ActsOn _ s .C i j
        (gemmtLoops uplo transA transB NB N K alpha LDA LDB beta LDC) _).run_get
      rw [if_pos htile, ← run_zgemmtTasks hNB, hrun s, get_update_store h.C.toValid h.C.M_eq.symm hi hj,
        if_neg (by rw [hother]; exact Bool.false_ne_true)] at hcode
      exact hcode.symm
    · intro hcond
      have hstores : ∀ i < N, ∀ j < N, uplo.stores (i / NB) (j / NB) = uplo.stores i j := by
        intro i hi j hj
        rcases hcond with rfl | rfl | hquick'
        · rw [Nat.div_one, Nat.div_one]
        · obtain rfl : i = 0 := by omega
          obtain rfl : j = 0 := by omega
          rw [Nat.zero_div]
        · exact absurd hquick' hquick
      refine ⟨_, hok, fun s => (run_zgemmtTasks hNB s).trans <|
        run_eq_of_acts h.valid h.C (fun t ht => ?_) fun i hi j hj =>
          ⟨_, acts_gemmtLoops h hK hi hj, by rw [hstores i hi j hj]; rfl⟩⟩
      obtain ⟨m, n, _, ht⟩ := gemmtLoops_fitsTile h ht
      exact ⟨ht.stores, ht.mat⟩

/-- A product of order two in tiles of order one. -/
theorem zgemmt_correct_orderTwo :
    ZgemmtCorrect 1 .lower .noTrans .trans 2 1 (3 : ℤ) 2 2 4 2 :=
  (zgemmt_correct_iff (by decide) (by decide) (by decide) ⟨by decide, by decide⟩
    ⟨by decide, by decide⟩ ⟨by decide, by decide⟩).mpr (.inl rfl)

/-- In one tile of order two the element `(0, 1)` of the upper triangle is overwritten by a call
for the lower one. -/
theorem zgemmt_overwrites_upper :
    ¬ ZgemmtCorrect 2 .lower .noTrans .noTrans 2 1 (1 : ℤ) 2 1 0 2 := by
  intro h
  obtain ⟨tasks, htasks, hrun⟩ := h
  obtain rfl : _ = tasks := Except.ok.inj htasks
  have hC := congrFun (congrFun (hrun fun X _ => if X = .C then 5 else 1) .C) 2
  revert hC
  decide

end Tasks

end Xkblas.Blas
