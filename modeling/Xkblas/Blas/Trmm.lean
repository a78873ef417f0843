import Xkblas.Blas.Panel

/-!
# The tiled product with a triangular matrix

`xkblas_ztrmm_async` overwrites `B` by `alpha * op(A) * B` or `alpha * B * op(A)`. Its loops visit
the tiles so that a task reads the tiles of `B` that it needs before they are overwritten.
-/

namespace Xkblas.Blas

open Library Finset

section Driver

variable {R : Type*} [CommRing R] [StarRing R] [DecidableEq R]

/-- The loops of `xkblas_ztrmm_async`. -/
def ztrmmTasks (d : Operand → Descr) (side : Side) (uplo : Uplo) (transA : Trans) (diag : Diag)
    (alpha : R) (LDA LDB : ℤ) : List (Task R) :=
  if side = .left then
    if uplo = .upper then
      if transA = .noTrans then
        forLoop 0 (d .B).mt fun m =>
          let tempmm := tempSize (d .B).mt (d .B).M (d .B).mb m
          forLoop 0 (d .B).nt fun n =>
            let tempnn := tempSize (d .B).nt (d .B).N (d .B).nb n
            [insertTaskZtrmm side uplo transA diag tempmm tempnn alpha ⟨.A, m, m, LDA⟩
              ⟨.B, m, n, LDB⟩] ++
            forLoop (m + 1) (d .A).mt fun k =>
              let tempkn := tempSize (d .A).nt (d .A).N (d .A).nb k
              [insertTaskZgemm transA .noTrans tempmm tempnn tempkn alpha ⟨.A, m, k, LDA⟩
                ⟨.B, k, n, LDB⟩ 1 ⟨.B, m, n, LDB⟩]
      else
        forLoopDown (d .B).mt fun m =>
          let tempmm := tempSize (d .B).mt (d .B).M (d .B).mb m
          forLoop 0 (d .B).nt fun n =>
            let tempnn := tempSize (d .B).nt (d .B).N (d .B).nb n
            [insertTaskZtrmm side uplo transA diag tempmm tempnn alpha ⟨.A, m, m, LDA⟩
              ⟨.B, m, n, LDB⟩] ++
            forLoop 0 m fun k =>
              [insertTaskZgemm transA .noTrans tempmm tempnn (d .B).mb alpha ⟨.A, k, m, LDA⟩
                ⟨.B, k, n, LDB⟩ 1 ⟨.B, m, n, LDB⟩]
    else
      if transA = .noTrans then
        forLoopDown (d .B).mt fun m =>
          let tempmm := tempSize (d .B).mt (d .B).M (d .B).mb m
          forLoop 0 (d .B).nt fun n =>
            let tempnn := tempSize (d .B).nt (d .B).N (d .B).nb n
            [insertTaskZtrmm side uplo transA diag tempmm tempnn alpha ⟨.A, m, m, LDA⟩
              ⟨.B, m, n, LDB⟩] ++
            forLoop 0 m fun k =>
              [insertTaskZgemm transA .noTrans tempmm tempnn (d .B).mb alpha ⟨.A, m, k, LDA⟩
                ⟨.B, k, n, LDB⟩ 1 ⟨.B, m, n, LDB⟩]
      else
        forLoop 0 (d .B).mt fun m =>
          let tempmm := tempSize (d .B).mt (d .B).M (d .B).mb m
          forLoop 0 (d .B).nt fun n =>
            let tempnn := tempSize (d .B).nt (d .B).N (d .B).nb n
            [insertTaskZtrmm side uplo transA diag tempmm tempnn alpha ⟨.A, m, m, LDA⟩
              ⟨.B, m, n, LDB⟩] ++
            forLoop (m + 1) (d .A).mt fun k =>
              let tempkm := tempSize (d .A).mt (d .A).M (d .A).mb k
              [insertTaskZgemm transA .noTrans tempmm tempnn tempkm alpha ⟨.A, k, m, LDA⟩
                ⟨.B, k, n, LDB⟩ 1 ⟨.B, m, n, LDB⟩]
  else
    if uplo = .upper then
      if transA = .noTrans then
        forLoopDown (d .B).nt fun n =>
          let tempnn := tempSize (d .B).nt (d .B).N (d .B).nb n
          forLoop 0 (d .B).mt fun m =>
            let tempmm := tempSize (d .B).mt (d .B).M (d .B).mb m
            [insertTaskZtrmm side uplo transA diag tempmm tempnn alpha ⟨.A, n, n, LDA⟩
              ⟨.B, m, n, LDB⟩] ++
            forLoop 0 n fun k =>
              [insertTaskZgemm .noTrans transA tempmm tempnn (d .B).mb alpha ⟨.B, m, k, LDB⟩
                ⟨.A, k, n, LDA⟩ 1 ⟨.B, m, n, LDB⟩]
      else
        forLoop 0 (d .B).nt fun n =>
          let tempnn := tempSize (d .B).nt (d .B).N (d .B).nb n
          forLoop 0 (d .B).mt fun m =>
            let tempmm := tempSize (d .B).mt (d .B).M (d .B).mb m
            [insertTaskZtrmm side uplo transA diag tempmm tempnn alpha ⟨.A, n, n, LDA⟩
              ⟨.B, m, n, LDB⟩] ++
            forLoop (n + 1) (d .A).mt fun k =>
              let tempkn := tempSize (d .A).nt (d .A).N (d .A).nb k
              [insertTaskZgemm .noTrans transA tempmm tempnn tempkn alpha ⟨.B, m, k, LDB⟩
                ⟨.A, n, k, LDA⟩ 1 ⟨.B, m, n, LDB⟩]
    else
      if transA = .noTrans then
        forLoop 0 (d .B).nt fun n =>
          let tempnn := tempSize (d .B).nt (d .B).N (d .B).nb n
          forLoop 0 (d .B).mt fun m =>
            let tempmm := tempSize (d .B).mt (d .B).M (d .B).mb m
            [insertTaskZtrmm side uplo transA diag tempmm tempnn alpha ⟨.A, n, n, LDA⟩
              ⟨.B, m, n, LDB⟩] ++
            forLoop (n + 1) (d .A).mt fun k =>
              let tempkn := tempSize (d .A).nt (d .A).N (d .A).nb k
              [insertTaskZgemm .noTrans transA tempmm tempnn tempkn alpha ⟨.B, m, k, LDB⟩
                ⟨.A, k, n, LDA⟩ 1 ⟨.B, m, n, LDB⟩]
      else
        forLoopDown (d .B).nt fun n =>
          let tempnn := tempSize (d .B).nt (d .B).N (d .B).nb n
          forLoop 0 (d .B).mt fun m =>
            let tempmm := tempSize (d .B).mt (d .B).M (d .B).mb m
            [insertTaskZtrmm side uplo transA diag tempmm tempnn alpha ⟨.A, n, n, LDA⟩
              ⟨.B, m, n, LDB⟩] ++
            forLoop 0 n fun k =>
              [insertTaskZgemm .noTrans transA tempmm tempnn (d .B).mb alpha ⟨.B, m, k, LDB⟩
                ⟨.A, n, k, LDA⟩ 1 ⟨.B, m, n, LDB⟩]

end Driver

/-- `xkblas_ztrmm_async`: the tasks that it inserts, or the error code that it returns. -/
def ztrmmAsync {R : Type*} [CommRing R] [StarRing R] [DecidableEq R] (NB : ℕ) (side : Side)
    (uplo : Uplo) (transA : Trans) (diag : Diag) (N NRHS : ℤ) (alpha : R) (LDA LDB : ℤ) :
    Except ℤ (List (Task R)) :=
  panelChecks side N NRHS LDA LDB
    (ztrmmTasks (panelDescr NB side N.toNat NRHS.toNat LDA LDB) side uplo transA diag alpha LDA LDB)

/-! ## The common form -/

/-- The stages after `k`, in the order of their tiles. -/
def stageRest (down : Bool) (K k : ℕ) : List ℕ :=
  if down = true then (List.range (K - 1 - k)).map (K - 1 - ·) else List.Ico (k + 1) K

theorem mem_stageRest {down : Bool} {K k m : ℕ} (hk : k < K) :
    m ∈ stageRest down K k ↔ k < m ∧ m < K := by
  cases down with
  | false => exact List.Ico.mem
  | true =>
      simp only [stageRest, if_true, List.mem_map, List.mem_range]
      constructor
      · rintro ⟨b, hb, rfl⟩
        omega
      · intro hm
        exact ⟨K - 1 - m, by omega, by omega⟩

theorem nodup_stageRest (down : Bool) (K k : ℕ) : (stageRest down K k).Nodup := by
  cases down with
  | false => exact List.Ico.nodup _ _
  | true =>
      refine List.Nodup.map_on ?_ List.nodup_range
      intro a ha b hb hab
      rw [List.mem_range] at ha hb
      omega

section Tasks

variable {R : Type*} [CommRing R] [StarRing R] [DecidableEq R] {d : Operand → Descr}
  {s s₀ : State R} {side : Side} {uplo : Uplo} {transA : Trans} {diag : Diag}
  {NB N NRHS L Q c p q : ℕ} {alpha : R} {LDA LDB : ℤ}

/-- The task on the diagonal, in the coordinates of the lines. -/
def lineTrmm (side : Side) (uplo : Uplo) (transA : Trans) (diag : Diag) (NB L Q : ℕ) (alpha : R)
    (LDA LDB : ℤ) (p q : ℕ) : Task R :=
  let size := side.lines.size (tileSize L NB p) (tileSize Q NB q)
  insertTaskZtrmm side uplo transA diag size.1 size.2 alpha ⟨.A, p, p, LDA⟩ (side.tile p q LDB)

/-- The sweep goes down in a lower triangle, and up in an upper one. -/
def trmmDown (side : Side) (uplo : Uplo) (transA : Trans) : Bool :=
  decide ((side.triangle uplo transA).flip = .upper)

/-- The loops in the order of the stages. -/
def trmmLoops (side : Side) (uplo : Uplo) (transA : Trans) (diag : Diag) (NB L Q : ℕ) (alpha : R)
    (LDA LDB : ℤ) : List (Task R) :=
  let down := trmmDown side uplo transA
  let K := numTiles L NB
  sweepLoops .lines K (numTiles Q NB) (stageRest down K)
    (fun k q => [lineTrmm side uplo transA diag NB L Q alpha LDA LDB (sweep down K k) q])
    fun k m q =>
      [lineGemm side transA NB L Q alpha LDA LDB 1 (sweep down K k) q (sweep down K m)]

/-- A sweep that goes up, as loops over the tiles. -/
theorem trmmLoops_up (h : trmmDown side uplo transA = false) :
    trmmLoops side uplo transA diag NB L Q alpha LDA LDB =
      forLoop 0 (numTiles L NB) fun p => forLoop 0 (numTiles Q NB) fun q =>
        [lineTrmm side uplo transA diag NB L Q alpha LDA LDB p q] ++
        forLoop (p + 1) (numTiles L NB) fun k =>
          [lineGemm side transA NB L Q alpha LDA LDB 1 p q k] := by
  unfold trmmLoops
  rw [h]
  rfl

/-- A sweep that goes down. -/
theorem trmmLoops_down (h : trmmDown side uplo transA = true) :
    trmmLoops side uplo transA diag NB L Q alpha LDA LDB =
      forLoopDown (numTiles L NB) fun p => forLoop 0 (numTiles Q NB) fun q =>
        [lineTrmm side uplo transA diag NB L Q alpha LDA LDB p q] ++
        forLoop 0 p fun k => [lineGemm side transA NB L Q alpha LDA LDB 1 p q k] := by
  unfold trmmLoops
  rw [h, forLoopDown_eq]
  refine forLoop_congr fun k _ hk => forLoop_congr fun q _ _ => congrArg (_ :: ·) ?_
  unfold stageRest forLoop
  rw [if_pos rfl, List.flatMap_map, List.Ico.zero_bot]
  refine List.flatMap_congr fun b hb => ?_
  rw [List.mem_range] at hb
  have hb' : sweep true (numTiles L NB) (numTiles L NB - 1 - b) = b := by
    show _ - 1 - (_ - 1 - b) = b
    omega
  show [lineGemm side transA NB L Q alpha LDA LDB 1 _ q (sweep true _ _)] = _
  rw [hb']
  rfl

/-- The loops of `xkblas_ztrmm_async`. -/
theorem ztrmmTasks_eq (hNB : 0 < NB) :
    ztrmmTasks (panelDescr NB side N NRHS LDA LDB) side uplo transA diag alpha LDA LDB =
      trmmLoops side uplo transA diag NB (side.order N NRHS) (side.count N NRHS) alpha LDA
        LDB := by
  cases side <;> cases uplo <;> cases transA
  case left.upper.noTrans | left.lower.trans | left.lower.conjTrans =>
    rw [trmmLoops_up rfl]
    refine forLoop_congr fun m _ (hm : m < numTiles N NB) => ?_
    refine forLoop_congr fun n _ (hn : n < numTiles NRHS NB) => ?_
    refine congrArg₂ (· ++ ·) ?_ (forLoop_congr fun k hk (hkt : k < numTiles N NB) => ?_)
    · simp [panelDescr, initMatrixHandle, Side.order, Side.count, lineTrmm, Side.tile, Side.lines,
        Trans.tile, Trans.size, tempSize_eq hNB hm, tempSize_eq hNB hn]
    · simp [panelDescr, initMatrixHandle, Side.order, Side.count, Trans.tile, lineGemm, gemmTask,
        tempSize_eq hNB hm, tempSize_eq hNB hn, tempSize_eq hNB hkt]
  case left.upper.trans | left.upper.conjTrans | left.lower.noTrans =>
    rw [trmmLoops_down rfl]
    refine forLoopDown_congr fun m (hm : m < numTiles N NB) => ?_
    refine forLoop_congr fun n _ (hn : n < numTiles NRHS NB) => ?_
    refine congrArg₂ (· ++ ·) ?_ (forLoop_congr fun k _ (hk : k < m) => ?_)
    · simp [panelDescr, initMatrixHandle, Side.order, Side.count, lineTrmm, Side.tile, Side.lines,
        Trans.tile, Trans.size, tempSize_eq hNB hm, tempSize_eq hNB hn]
    · -- a tile that is followed by another one is full
      have hfull : tileSize N NB k = NB := tileSize_of_lt (by omega)
      simp [panelDescr, initMatrixHandle, Side.order, Side.count, Trans.tile, lineGemm, gemmTask,
        tempSize_eq hNB hm, tempSize_eq hNB hn, hfull]
  case right.upper.noTrans | right.lower.trans | right.lower.conjTrans =>
    rw [trmmLoops_down rfl]
    refine forLoopDown_congr fun n (hn : n < numTiles NRHS NB) => ?_
    refine forLoop_congr fun m _ (hm : m < numTiles N NB) => ?_
    refine congrArg₂ (· ++ ·) ?_ (forLoop_congr fun k _ (hk : k < n) => ?_)
    · simp [panelDescr, initMatrixHandle, Side.order, Side.count, lineTrmm, Side.tile, Side.lines,
        Trans.tile, Trans.size, tempSize_eq hNB hm, tempSize_eq hNB hn]
    · have hfull : tileSize NRHS NB k = NB := tileSize_of_lt (by omega)
      simp [panelDescr, initMatrixHandle, Side.order, Side.count, Trans.tile, lineGemm, gemmTask,
        tempSize_eq hNB hm, tempSize_eq hNB hn, hfull]
  case right.upper.trans | right.upper.conjTrans | right.lower.noTrans =>
    rw [trmmLoops_up rfl]
    refine forLoop_congr fun n _ (hn : n < numTiles NRHS NB) => ?_
    refine forLoop_congr fun m _ (hm : m < numTiles N NB) => ?_
    refine congrArg₂ (· ++ ·) ?_ (forLoop_congr fun k hk (hkt : k < numTiles NRHS NB) => ?_)
    · simp [panelDescr, initMatrixHandle, Side.order, Side.count, lineTrmm, Side.tile, Side.lines,
        Trans.tile, Trans.size, tempSize_eq hNB hm, tempSize_eq hNB hn]
    · simp [panelDescr, initMatrixHandle, Side.order, Side.count, Trans.tile, lineGemm, gemmTask,
        tempSize_eq hNB hm, tempSize_eq hNB hn, tempSize_eq hNB hkt]

omit [DecidableEq R] in
theorem lineTrmm_fitsTile (h : PanelTiled d side NB L Q LDA LDB) (hp : p < numTiles L NB)
    (hq : q < numTiles Q NB) :
    (lineTrmm side uplo transA diag NB L Q alpha LDA LDB p q).FitsTile d .B (side.tile p q LDB).m
      (side.tile p q LDB).n := by
  have hA := h.A.fits hp hp .r
  have hB := h.B.fits hp hq .rw
  cases side with
  | left | right =>
      refine Task.Fits.fitsTile ?_ h.valid rfl rfl rfl
      exact List.forall_mem_cons.mpr ⟨hA, List.forall_mem_singleton.mpr hB⟩

omit [DecidableEq R] in
/-- The block `p` of a line is multiplied by the block of the diagonal. -/
theorem acts_lineTrmm (h : PanelTiled d side NB L Q LDA LDB) (hp : p < numTiles L NB)
    (hc : c < Q) :
    ActsOnLine d s₀ side L c [lineTrmm side uplo transA diag NB L Q alpha LDA LDB p (c / NB)]
      (blockUpdate (side.matrix uplo transA diag (s₀.get d .A)) (Library.tile L NB p)
        (Library.tile L NB p) alpha 0) := by
  have hNB := h.pos
  refine acts_line h.valid h.B (lineTrmm_fitsTile h hp (div_lt_numTiles hNB hc)).toOnTile
    (fun x y => rfl) hc fun s hs i hi => ?_
  obtain ⟨hiL, rfl⟩ := mem_tile_iff.mp hi
  have hblock : s.block d ⟨.A, i / NB, i / NB, LDA⟩ =
      fun x y => s.get d .A (i / NB * NB + x) (i / NB * NB + y) := by
    funext x y
    exact h.A.block_apply _ _ x y
  show side.lines.op (trmm side uplo transA diag _ _ alpha _ _) _ _ = _
  rw [op_trmm, side.order_size, hblock, zero_mul, add_zero]
  unfold blockRow
  rw [sum_tile hNB hp]
  refine congrArg (alpha * ·) (sum_congr rfl fun l hl => ?_)
  have hlL : i / NB * NB + l < L := by
    have := tile_le hNB hp
    have := mem_range.mp hl
    omega
  rw [matrix_shift, tile_add_sub, line_block h.B hlL, tile_add_sub,
    hs.get_funext (show Operand.A ≠ .B by decide)]

omit [CommRing R] [StarRing R] [DecidableEq R] in
/-- A later stage is in the triangle. -/
theorem trmm_stores {k m : ℕ} {K : ℕ} (hkm : k < m) (hm : m < K) :
    (side.triangle uplo transA).stores (sweep (trmmDown side uplo transA) K k)
        (sweep (trmmDown side uplo transA) K m) = true ∧
      (side.triangle uplo transA).stores (sweep (trmmDown side uplo transA) K m)
        (sweep (trmmDown side uplo transA) K k) = false := by
  have h := sweep_stores (side.triangle uplo transA).flip hkm hm
  rwa [Uplo.stores_flip, Uplo.stores_flip] at h

/-- The stages of the product of a line. -/
theorem acts_trmmLoops (h : PanelTiled d side NB L Q LDA LDB) (hc : c < Q) :
    let K := numTiles L NB
    let S := sweepTile (trmmDown side uplo transA) L NB
    let T := side.matrix uplo transA diag (s₀.get d .A)
    ActsOnLine d s₀ side L c (trmmLoops side uplo transA diag NB L Q alpha LDA LDB) fun v =>
      (List.range K).foldl (fun v k => (stageRest (trmmDown side uplo transA) K k).foldl
        (fun v m => blockUpdate T (S m) (S k) alpha 1 v) (blockUpdate T (S k) (S k) alpha 0 v))
        v := by
  intro K S T
  have hwrites : ∀ p q k x y,
      (lineGemm side transA NB L Q alpha LDA LDB 1 p q k).writes x y = true := by
    intro p q k x y
    cases side <;> rfl
  refine acts_sweepLoops (div_lt_numTiles h.pos hc) ?_ ?_ ?_ ?_
  · intro k hk
    exact acts_lineTrmm h (sweep_lt hk) hc
  · intro k hk m hm
    obtain ⟨hkm, hmK⟩ := (mem_stageRest hk).mp hm
    exact acts_lineGemm h diag (sweep_lt hk) (sweep_lt hmK) hc
      (fun heq => hkm.ne (sweep_inj hk hmK heq)) (trmm_stores hkm hmK).1
  · intro k hk q hq hne
    exact acts_other_line h.valid h.B (lineTrmm_fitsTile h (sweep_lt hk) hq).toOnTile
      (fun _ _ => rfl) hc hne.symm
  · intro k hk m hm q hq hne
    have hmK := ((mem_stageRest hk).mp hm).2
    exact acts_other_line h.valid h.B
      (lineGemm_fitsTile h (sweep_lt hk) hq (sweep_lt hmK)).toOnTile (hwrites _ _ _) hc hne.symm

/-- Every entry of a line after the sweep. -/
theorem product_line (h : PanelTiled d side NB L Q LDA LDB) (hc : c < Q) :
    ∃ g, ActsOnLine d s₀ side L c (trmmLoops side uplo transA diag NB L Q alpha LDA LDB) g ∧
      ∀ w, ∀ i < L, g w i =
        alpha * ∑ l ∈ range L, side.matrix uplo transA diag (s₀.get d .A) i l * w l := by
  refine ⟨_, acts_trmmLoops h hc, fun w i hi => ?_⟩
  obtain ⟨T, hT⟩ : ∃ T, T = side.matrix uplo transA diag (s₀.get d .A) := ⟨_, rfl⟩
  obtain ⟨S, hS⟩ : ∃ S, S = sweepTile (trmmDown side uplo transA) L NB := ⟨_, rfl⟩
  obtain ⟨a, ha, hia⟩ := exists_mem_sweepTile (trmmDown side uplo transA) h.pos hi
  have hinv := block_product (hS ▸ disjoint_sweepTile)
    (fun k _ => nodup_stageRest (trmmDown side uplo transA) _ k) (fun k hk m => mem_stageRest hk)
    (fun k _ v => updated_blockUpdate T (S k) (S k) alpha 0 v)
    (fun k _ m _ v => updated_blockUpdate T (S m) (S k) alpha 1 v) w
  -- the tiles of the stages before are not in the triangle
  have hbefore : ∑ b ∈ range a, blockRow T (S b) w i = 0 := by
    refine sum_eq_zero fun b hb => blockRow_eq_zero (fun l hl => ?_) w
    have hba := mem_range.mp hb
    rw [hS] at hl
    rw [hT]
    exact matrix_stage_eq_zero _ ha (hba.trans ha) hba.ne' hia hl (trmm_stores hba ha).2
  rw [← hT, ← hS, hinv.done a ha i (hS ▸ hia), ← zero_add (∑ b ∈ Ico a _, _), ← hbefore,
    sum_range_add_sum_Ico _ ha.le, hS]
  exact congrArg (alpha * ·) (sum_sweepTile h.pos fun l => T i l * w l)

/-- The tasks of the stage `k` write its tiles, and read tiles of `B` of later stages. -/
theorem mem_trmmStage (h : PanelTiled d side NB L Q LDA LDB) {down : Bool} {k : ℕ}
    (hk : k < numTiles L NB) {t : Task R}
    (ht : t ∈ stageLoops .lines (numTiles Q NB) (stageRest down (numTiles L NB) k)
      (fun q => [lineTrmm side uplo transA diag NB L Q alpha LDA LDB
        (sweep down (numTiles L NB) k) q])
      fun m q => [lineGemm side transA NB L Q alpha LDA LDB 1 (sweep down (numTiles L NB) k) q
        (sweep down (numTiles L NB) m)]) :
    ∃ q, t.FitsTile d .B (side.tile (sweep down (numTiles L NB) k) q LDB).m
        (side.tile (sweep down (numTiles L NB) k) q LDB).n ∧
      ∀ p ∈ t.inputs, p.mat = .B → ∃ m, k < m ∧ m < numTiles L NB ∧
        p.m = (side.tile (sweep down (numTiles L NB) m) q LDB).m ∧
        p.n = (side.tile (sweep down (numTiles L NB) m) q LDB).n := by
  obtain ⟨q, hq, ht⟩ := mem_stageLoops.mp ht
  refine ⟨q, ?_⟩
  rcases ht with ht | ⟨m, hm, ht⟩
  · obtain rfl := List.mem_singleton.mp ht
    refine ⟨lineTrmm_fitsTile h (sweep_lt hk) hq, fun p hp hpB => ?_⟩
    obtain rfl := List.mem_singleton.mp hp
    exact absurd (show Operand.A = .B from hpB) (by decide)
  · obtain rfl := List.mem_singleton.mp ht
    obtain ⟨hkm, hmK⟩ := (mem_stageRest hk).mp hm
    refine ⟨lineGemm_fitsTile h (sweep_lt hk) hq (sweep_lt hmK), fun p hp hpB => ?_⟩
    refine ⟨m, hkm, hmK, ?_⟩
    cases side with
    | left =>
        rcases List.mem_cons.mp hp with rfl | hp
        · exact absurd ((transA.tile_mat _ _ _).symm.trans hpB) (by decide)
        · obtain rfl := List.mem_singleton.mp hp
          exact ⟨rfl, rfl⟩
    | right =>
        rcases List.mem_cons.mp hp with rfl | hp
        · exact ⟨rfl, rfl⟩
        · obtain rfl := List.mem_singleton.mp hp
          exact absurd ((transA.tile_mat _ _ _).symm.trans hpB) (by decide)

/-- The tasks are tiles of `B`. -/
theorem mem_trmmLoops (h : PanelTiled d side NB L Q LDA LDB) {t : Task R}
    (ht : t ∈ trmmLoops side uplo transA diag NB L Q alpha LDA LDB) :
    ∃ m n, t.FitsTile d .B m n := by
  obtain ⟨k, ⟨_, hk⟩, ht⟩ := mem_forLoop.mp ht
  obtain ⟨q, ht, _⟩ := mem_trmmStage h hk ht
  exact ⟨_, _, ht⟩

/-- No task writes a tile of `B` that a later task reads. -/
theorem pairwise_trmmLoops (h : PanelTiled d side NB L Q LDA LDB) :
    (trmmLoops side uplo transA diag NB L Q alpha LDA LDB).Pairwise fun t u =>
      ∀ p ∈ u.inputs, p.mat = .B → ¬ t.Overwrites p := by
  refine pairwise_forLoop fun a b _ hab hb t ht u hu p hp hpB => ?_
  rintro ⟨_, hm, hn⟩
  obtain ⟨q, ht, _⟩ := mem_trmmStage h (lt_of_le_of_lt hab hb) ht
  obtain ⟨q', _, hreads⟩ := mem_trmmStage h hb hu
  obtain ⟨m, hbm, hmK, hpm, hpn⟩ := hreads p hp hpB
  rw [ht.row, hpm] at hm
  rw [ht.col, hpn] at hn
  have hstage : sweep (trmmDown side uplo transA) (numTiles L NB) a =
      sweep (trmmDown side uplo transA) (numTiles L NB) m := by
    cases side with
    | left => exact hm
    | right => exact hn
  have ham := sweep_inj (lt_of_le_of_lt hab hb) hmK hstage
  omega

/-! ## Correctness -/

/-- What a call of `xkblas_ztrmm_async` promises: the tasks name tiles, a tile of `B` that a task
reads still has its original content, and `B` is overwritten by the product. -/
def ZtrmmCorrect (NB : ℕ) (side : Side) (uplo : Uplo) (transA : Trans) (diag : Diag) (N NRHS : ℕ)
    (alpha : R) (LDA LDB : ℤ) : Prop :=
  let d := panelDescr NB side N NRHS LDA LDB
  ∃ tasks, ztrmmAsync NB side uplo transA diag N NRHS alpha LDA LDB = .ok tasks ∧
    (∀ t ∈ tasks, t.Fits d) ∧
    (∀ before t after, tasks = before ++ t :: after → ∀ p ∈ t.inputs, p.mat = .B →
      ∀ s, ∀ x < p.rows, ∀ y < p.cols,
        (run d before s).block d p.toTile x y = s.block d p.toTile x y) ∧
    ∀ s, run d tasks s = Function.update s .B (store (s .B) 0 (d .B).ld N NRHS (fun _ _ => true)
      (trmm side uplo transA diag N NRHS alpha (s.get d .A) (s.get d .B)))

/-- `xkblas_ztrmm_async` overwrites `B` by the product with the triangular matrix. -/
theorem ztrmm_correct (hN : 1 ≤ N) (hNRHS : 1 ≤ NRHS) (hNB : 1 ≤ NB)
    (hA : AdmissibleLd LDA (side.order N NRHS)) (hB : AdmissibleLd LDB N) :
    ZtrmmCorrect NB side uplo transA diag N NRHS alpha LDA LDB := by
  have h := panelDescr_tiled hNB hA hB
  have hok : ztrmmAsync NB side uplo transA diag N NRHS alpha LDA LDB = _ :=
    panelChecks_ok hN hNRHS hA hB _
  simp only [Int.toNat_natCast] at hok
  rw [ztrmmTasks_eq hNB] at hok
  refine ⟨_, hok, fun t ht => ?_, fun before t after heq p hp hpB s => ?_, fun s => ?_⟩
  · obtain ⟨_, _, ht⟩ := mem_trmmLoops h ht
    exact ht.fits
  · have hmem : ∀ u ∈ before ++ t :: after, ∃ m n,
        u.FitsTile (panelDescr NB side N NRHS LDA LDB) .B m n :=
      fun u hu => mem_trmmLoops h (heq ▸ hu)
    have hpair : (trmmLoops side uplo transA diag NB _ _ alpha LDA LDB).Pairwise _ :=
      pairwise_trmmLoops h
    rw [heq] at hpair
    obtain ⟨_, _, ht⟩ := hmem t (List.mem_append_right _ List.mem_cons_self)
    refine run_block_eq h.valid (fun u hu => ?_) (ht.fits p (List.mem_append_left _ hp))
      (fun u hu => ?_) s
    · obtain ⟨_, _, hu⟩ := hmem u (List.mem_append_left _ hu)
      exact hu.stores
    · exact (List.pairwise_append.mp hpair).2.2 u hu t List.mem_cons_self p hp hpB
  · refine run_eq_of_lines h.valid h.B (fun t ht => ?_) fun c hc => ?_
    · obtain ⟨_, _, ht⟩ := mem_trmmLoops h ht
      exact ⟨ht.stores, ht.mat⟩
    · obtain ⟨g, hg, hline⟩ : ∃ g, ActsOnLine _ s side _ c
          (trmmLoops side uplo transA diag NB _ _ alpha LDA LDB) g ∧ _ := product_line h hc
      refine ⟨g, hg, fun i hi => ?_⟩
      rw [hline _ i hi, op_trmm]
      refine congrArg (alpha * ·) (sum_congr rfl fun l hl => ?_)
      rw [State.line_of_lt (mem_range.mp hl)]

/-- The product on the right with a transposed triangular matrix of order three, with tiles of
order two: the sweep goes up. -/
theorem ztrmm_correct_orderThree :
    ZtrmmCorrect 2 .right .upper .trans .unit 1 3 (5 : ℤ) 3 2 :=
  ztrmm_correct (by decide) (by decide) (by decide) ⟨by decide, by decide⟩ ⟨by decide, by decide⟩

end Tasks

end Xkblas.Blas
