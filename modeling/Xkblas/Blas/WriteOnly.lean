import Xkblas.Blas.Replica

/-!
# Write-only accesses

The tasks of the routines take a tile of `C` as W when the factor on it is zero, and `zcopyscale`
takes the tile of `U` so. `write_only_iff` says for which calls the bodies overwrite all of these
tiles, so that whatever the replicas contain the tasks do what they do on the memory of the host.
-/

namespace Xkblas.Blas

open Library

/-! ## The tasks of a call -/

section Calls

variable {R : Type} [Field R] [StarRing R] [DecidableEq R]

/-- The tasks of a routine that write one operand. -/
def Call.tasks (d : Operand → Descr) : Call R → List (Task R)
  | .zgemm transA transB M N K alpha LDA LDB beta LDC =>
      zgemmTasks d transA transB M.toNat N.toNat K.toNat alpha LDA LDB beta LDC
  | .zgemmt uplo transA transB N K alpha LDA LDB beta LDC =>
      zgemmtTasks d uplo transA transB N.toNat K.toNat alpha LDA LDB beta LDC
  | .zsymm side uplo _ _ alpha LDA LDB beta LDC => zsymmTasks d side uplo alpha LDA LDB beta LDC
  | .zhemm side uplo _ _ alpha LDA LDB beta LDC => zhemmTasks d side uplo alpha LDA LDB beta LDC
  | .zsyrk uplo transA _ _ alpha LDA beta LDC => zsyrkTasks d uplo transA alpha LDA beta LDC
  | .zherk uplo transA _ _ alpha LDA beta LDC => zherkTasks d uplo transA alpha LDA beta LDC
  | .zsyr2k uplo transA _ _ alpha LDA LDB beta LDC =>
      zsyr2kTasks d uplo transA alpha LDA LDB beta LDC
  | .zher2k uplo transA _ _ alpha LDA LDB beta LDC =>
      zher2kTasks d uplo transA alpha LDA LDB beta LDC
  | .ztrmm side uplo transA diag _ _ alpha LDA LDB =>
      ztrmmTasks d side uplo transA diag alpha LDA LDB
  | .ztrsm side uplo transA diag _ _ alpha LDA LDB =>
      ztrsmTasks d side uplo transA diag alpha LDA LDB
  | _ => []

/-- The body for the CPU of a task of a call. With MKL that of a gemmt task, which the call inserts
on the diagonal, stores the triangle. That of a trsm task, which is the one with a single input,
only inserts tasks. -/
def Call.cpuBody (mkl : Bool) (d : Operand → Descr) (c : Call R) (t : Task R) (s : State R) :
    Option (State R) :=
  match c with
  | .zgemmt (some uplo) .. =>
      if mkl = true ∧ t.out.m = t.out.n then some ({ t with writes := uplo.stores }.exec d s)
      else some (t.exec d s)
  | .ztrsm .. => if t.inputs.length = 1 then some s else some (t.exec d s)
  | _ => some (t.exec d s)

/-- The tasks of a call in the order of their insertion. -/
def Call.launches (mkl should_copy : Bool) (NB : ℕ) (d : Operand → Descr) (c : Call R) :
    List (Launch R) :=
  match c with
  | .zswap M N i j LDC =>
      (zswapArgs d M.toNat N.toNat i.toNat j.toNat LDC).map (TaskArg.launch mkl NB d)
  | .zcopyscale M N ldd ldl ldu =>
      (zcopyscaleArgs d should_copy M N ldd ldl ldu).map (TaskArg.launch mkl NB d)
  | c => (c.tasks d).map fun t => t.launch d (c.cpuBody mkl d t)

/-- The write-only accesses of a call are sound: each body overwrites all of its view, and whatever
the replicas contain the tasks leave the matrices that they leave on the memory of the host. -/
structure Call.WriteOnlySound (mkl should_copy : Bool) (MB NB : ℕ) (c : Call R) : Prop where
  overwrites : ∀ l ∈ c.launches mkl should_copy NB (c.descr MB NB), l.Overwrites (c.descr MB NB)
  run : ∀ choice s, ∃ s',
    runAcquired (c.descr MB NB) (c.launches mkl should_copy NB (c.descr MB NB)) choice s =
      some s' ∧
    runDirect (c.launches mkl should_copy NB (c.descr MB NB)) choice s = some s'

/-- The result of a product with the factor zero on `C` is not restricted to the triangle of a tile
of the diagonal, or there is none of order two. -/
def WholeDiagonal (N K : ℤ) (beta : R) (NB : ℕ) : Prop :=
  beta ≠ 0 ∨ K.toNat = 0 ∨ N.toNat = 1 ∨ NB = 1

/-- When the write-only accesses of a call are sound. -/
def Call.OverwritesAll (mkl should_copy : Bool) (MB NB : ℕ) : Call R → Prop
  | .zsyrk _ _ N K _ _ beta _ | .zsyr2k _ _ N K _ _ _ beta _ => WholeDiagonal N K beta NB
  | .zgemmt (some _) _ _ N K _ _ _ beta _ => mkl = false ∨ WholeDiagonal N K beta NB
  | .zcopyscale M N _ _ _ =>
      M = 0 ∨ N = 0 ∨
        should_copy = true ∧ ∀ b < numTiles M MB, NativeCovers (tileSize M MB b)
  | _ => True

end Calls

/-! ## The drivers -/

section Drivers

variable {R : Type} [Field R] [StarRing R] [DecidableEq R] {d : Operand → Descr}
  {tasks : List (Task R)} {transA transB transT : Trans} {side : Side} {uplo : Uplo} {diag : Diag}
  {M N K L Q NB : ℕ} {alpha beta : R} {LDA LDB LDB' LDC : ℤ} {mode : R → Mode}

/-- What holds of a task that takes its access as W and then stores all of its tile. -/
def Task.Discards (d : Operand → Descr) (t : Task R) : Prop :=
  t.out.mode = .w → t.Acquirable d ∧ t.Full

omit [Field R] [StarRing R] [DecidableEq R] in
/-- The tasks of a call whose bodies are the same kernels. -/
theorem overwrites_tasks_iff [Nontrivial R] (hd : ∀ X, (d X).Valid)
    (h : ∀ t ∈ tasks, t.out.mode = .w → t.Acquirable d) :
    (∀ l ∈ tasks.map fun t => t.launch d fun s => some (t.exec d s), l.Overwrites d) ↔
      ∀ t ∈ tasks, t.out.mode = .w → t.Full := by
  rw [List.forall_mem_map]
  refine forall₂_congr fun t ht => ?_
  exact overwrites_iff hd (h t ht)

omit [Field R] [StarRing R] [DecidableEq R] in
/-- They overwrite what they acquire when each task does. -/
theorem overwrites_of_discards [Nontrivial R] (hd : ∀ X, (d X).Valid)
    (h : ∀ t ∈ tasks, t.Discards d) :
    ∀ l ∈ tasks.map fun t => t.launch d fun s => some (t.exec d s), l.Overwrites d := by
  rw [overwrites_tasks_iff hd fun t ht hmode => (h t ht hmode).1]
  exact fun t ht hmode => (h t ht hmode).2

omit [StarRing R] in
/-- A factor that a task of an iteration takes, and that makes its access W. -/
theorem factor_eq_zero {k : ℕ} (h : betaMode (if k = 0 then beta else 1) = .w) :
    k = 0 ∧ beta = 0 := by
  have hzero := eq_zero_of_betaMode h
  split at hzero
  next hk => exact ⟨hk, hzero⟩
  next => exact absurd hzero one_ne_zero

omit [Field R] [StarRing R] [DecidableEq R] in
/-- The tasks on the diagonal are the ones that store a triangle. -/
theorem full_iff_wholeDiagonal [Field R] {N K : ℤ} (uplo : Uplo) (hNB : 0 < NB) (hN : 1 ≤ N.toNat)
    (hmem : ∀ t ∈ tasks, t.out.mode = .w → (∀ i j, t.writes i j = true) ∨
      (beta = 0 ∧ 1 ≤ K.toNat) ∧ ∃ n < numTiles N.toNat NB,
        t.out.rows = tileSize N.toNat NB n ∧ t.out.cols = tileSize N.toNat NB n ∧
          t.writes = uplo.stores)
    (hfirst : beta = 0 → 1 ≤ K.toNat → ∃ t ∈ tasks, t.out.mode = .w ∧
      t.out.rows = tileSize N.toNat NB 0 ∧ t.out.cols = tileSize N.toNat NB 0 ∧
        t.writes = uplo.stores) :
    (∀ t ∈ tasks, t.out.mode = .w → t.Full) ↔ WholeDiagonal N K beta NB := by
  constructor
  · intro hfull
    by_contra hnot
    unfold WholeDiagonal at hnot
    simp only [not_or, ne_eq, not_not] at hnot
    obtain ⟨hbeta, hK, hN₁, hNB₁⟩ := hnot
    obtain ⟨t, ht, hmode, hrows, hcols, hwrites⟩ := hfirst hbeta (by omega)
    -- the first tile has an order of two at least
    have hsize : 2 ≤ tileSize N.toNat NB 0 := by
      have hend := le_numTiles_mul (n := N.toNat) hNB
      unfold tileSize
      split
      next hlast =>
        have hone : numTiles N.toNat NB ≤ 1 := by omega
        omega
      next => omega
    have hfull := hfull t ht hmode
    unfold Task.Full at hfull
    rw [hrows, hcols, hwrites] at hfull
    cases uplo with
    | upper => exact absurd (hfull 1 (by omega) 0 (by omega)) (by decide)
    | lower => exact absurd (hfull 0 (by omega) 1 (by omega)) (by decide)
  · intro hwhole t ht hmode i hi j hj
    rcases hmem t ht hmode with hwrites | ⟨⟨hbeta, hK⟩, n, hn, hrows, hcols, hwrites⟩
    · exact hwrites i j
    · have hsize : tileSize N.toNat NB n ≤ 1 := by
        rcases hwhole with hne | hK₀ | hN₁ | hNB₁
        · exact absurd hbeta hne
        · omega
        · have hend := tile_le hNB hn
          omega
        · exact hNB₁ ▸ tileSize_le hNB hn
      rw [hrows] at hi
      rw [hcols] at hj
      obtain rfl : i = 0 := by omega
      obtain rfl : j = 0 := by omega
      rw [hwrites]
      exact uplo.stores_self 0

/-- The tasks of a product. -/
theorem discards_zgemm (hd : ∀ X, (d X).Valid) (hA : (d .A).TiledOp transA NB M K LDA)
    (hB : (d .B).TiledOp transB NB K N LDB) (hC : (d .C).Tiled NB M N LDC) {m n k : ℕ}
    (hm : m < numTiles M NB) (hn : n < numTiles N NB) (hk : k < numTiles K NB) :
    (gemmTask transA transB NB M N K alpha .A LDA .B LDB beta .C LDC m n k).Discards d := by
  intro hmode
  have hstores : (gemmTask transA transB NB M N K alpha .A LDA .B LDB beta .C LDC m n k).Stores d :=
    (gemmTask_fitsTile hd hA hB hC hm hn hk).stores
  exact ⟨acquirable_gemmTask hstores Operand.noConfusion Operand.noConfusion hmode,
    fun _ _ _ _ => rfl⟩

/-- The tasks of a rank `k` update. -/
theorem acquirable_rankK (hd : ∀ X, (d X).Valid) (hA : (d .A).TiledOp transA NB N K LDA)
    (hC : (d .C).Tiled NB N N LDC) (htrans : transT ≠ .noTrans)
    (hmode : ∀ b, mode b = .w → b = 0) {v : Visit} {t : Task R}
    (ht : t ∈ triangleLoops v (numTiles N NB)
      (rankKBody mode transT uplo transA NB N K alpha LDA beta LDC)) (hw : t.out.mode = .w) :
    t.Acquirable d := by
  obtain ⟨m, n, ⟨hm, hn, _⟩, ht⟩ := mem_triangleLoops ht
  have hstores := (rankKBody_fitsTile hd hA hC htrans hm hn ht).stores
  obtain ⟨k, ⟨_, hk⟩, ht⟩ := mem_forLoop.mp ht
  by_cases hmn : m = n
  · subst hmn
    simp only [if_true, List.mem_singleton] at ht
    subst ht
    have hzero : (if k = 0 then beta else 1) = 0 := hmode _ hw
    rw [hzero] at hstores ⊢
    refine ⟨hstores, fun p hp => .inl ?_, reads_rankK⟩
    rw [List.mem_singleton.mp hp]
    exact (transA.tile_mat _ _ _).trans_ne Operand.noConfusion
  · simp only [if_neg hmn, List.mem_singleton] at ht
    subst ht
    exact acquirable_gemmTask hstores Operand.noConfusion Operand.noConfusion hw

/-- The tasks of a rank `2k` update. -/
theorem acquirable_rank2K (hd : ∀ X, (d X).Valid) (hA : (d .A).TiledOp transA NB N K LDA)
    (hB : (d .B).TiledOp transA NB N K LDB) (hC : (d .C).Tiled NB N N LDC)
    (hLDB' : max 1 ((transA.size N K).1 : ℤ) ≤ LDB') (htrans : transT ≠ .noTrans)
    (hmode : ∀ b, mode b = .w → b = 0) {v : Visit} {t : Task R}
    (ht : t ∈ triangleLoops v (numTiles N NB)
      (rank2KBody mode transT uplo transA NB N K alpha LDA LDB LDB' beta LDC))
    (hw : t.out.mode = .w) : t.Acquirable d := by
  obtain ⟨m, n, ⟨hm, hn, _⟩, ht⟩ := mem_triangleLoops ht
  have hstores := (rank2KBody_onTile hd hA hB hC hLDB' htrans hm hn ht).stores
  obtain ⟨k, ⟨_, hk⟩, ht⟩ := mem_forLoop.mp ht
  by_cases hmn : m = n
  · subst hmn
    simp only [if_true, List.mem_singleton] at ht
    subst ht
    have hzero : (if k = 0 then beta else 1) = 0 := hmode _ hw
    rw [hzero] at hstores ⊢
    refine ⟨hstores, fun p hp => .inl ?_, reads_rank2K⟩
    simp only [insertTaskRank2K, List.mem_cons, List.not_mem_nil, or_false] at hp
    rcases hp with rfl | rfl
    · exact (transA.tile_mat _ _ _).trans_ne Operand.noConfusion
    · exact (transA.tile_mat _ _ _).trans_ne Operand.noConfusion
  · simp only [if_neg hmn, List.mem_cons, List.not_mem_nil, or_false] at ht
    rcases ht with rfl | rfl
    · exact acquirable_gemmTask hstores Operand.noConfusion Operand.noConfusion hw
    · exact acquirable_gemmTask hstores Operand.noConfusion Operand.noConfusion hw

/-- The tasks of a product with a triangular matrix update their tiles. -/
theorem discards_trmmLoops {t : Task R}
    (ht : t ∈ trmmLoops side uplo transA diag NB L Q alpha LDA LDB) : t.Discards d := by
  intro hmode
  obtain ⟨k, _, ht⟩ := mem_forLoop.mp ht
  obtain ⟨q, _, ht⟩ := mem_stageLoops.mp ht
  rcases ht with ht | ⟨m, _, ht⟩
  · rw [List.mem_singleton.mp ht] at hmode
    cases hmode
  · rw [List.mem_singleton.mp ht] at hmode
    have hbeta : betaMode (1 : R) = .w := by
      cases side with
      | left => exact hmode
      | right => exact hmode
    exact absurd (eq_zero_of_betaMode hbeta) one_ne_zero

/-- A task of a solve with an access declared as W is an update with the factor zero. -/
theorem discards_trsmLoops (h : PanelTiled d side NB L Q LDA LDB) {mu : R} {divZero : R → R}
    {t : Task R} (ht : t ∈ trsmLoopsWith divZero side uplo transA diag NB L Q alpha mu LDA LDB)
    (hmode : t.out.mode = .w) : (t.Acquirable d ∧ t.Full) ∧ t.inputs.length = 2 := by
  obtain ⟨k, ⟨_, hk⟩, ht⟩ := mem_forLoop.mp ht
  obtain ⟨q, hq, ht⟩ := mem_stageLoops.mp ht
  rcases ht with ht | ⟨m, hm, ht⟩
  · rw [List.mem_singleton.mp ht] at hmode
    cases hmode
  · obtain rfl := List.mem_singleton.mp ht
    obtain ⟨hkm, hmK⟩ := List.Ico.mem.mp hm
    have hfits : (lineGemm side transA NB L Q (updateAlpha side transA mu) LDA LDB
        (updateBeta side transA alpha k) (sweep (trsmDown side uplo transA) (numTiles L NB) m) q
        (sweep (trsmDown side uplo transA) (numTiles L NB) k)).FitsTile d .B _ _ :=
      lineGemm_fitsTile h (sweep_lt hmK) hq (sweep_lt hk)
    -- the two tiles of `B` are those of two stages
    have hne : sweep (trsmDown side uplo transA) (numTiles L NB) k ≠
        sweep (trsmDown side uplo transA) (numTiles L NB) m :=
      fun heq => absurd (sweep_inj hk hmK heq) (by omega)
    generalize sweep (trsmDown side uplo transA) (numTiles L NB) k = k' at *
    generalize sweep (trsmDown side uplo transA) (numTiles L NB) m = m' at *
    cases side with
    | left =>
        have hbeta : updateBeta .left transA alpha k = 0 := eq_zero_of_betaMode hmode
        refine ⟨⟨⟨hfits.stores, fun p hp => ?_, ?_⟩, fun _ _ _ _ => rfl⟩, rfl⟩
        · have hpfits := hfits.fits p (List.mem_append_left _ hp)
          simp only [lineGemm, insertTaskZgemm, List.mem_cons, List.not_mem_nil, or_false] at hp
          rcases hp with rfl | rfl
          · exact .inl ((transA.tile_mat _ _ _).trans_ne Operand.noConfusion)
          · exact .inr ⟨hpfits, .inl hne⟩
        · rw [hbeta]
          exact reads_zgemm
    | right =>
        have hbeta : updateBeta .right transA alpha k = 0 := eq_zero_of_betaMode hmode
        refine ⟨⟨⟨hfits.stores, fun p hp => ?_, ?_⟩, fun _ _ _ _ => rfl⟩, rfl⟩
        · have hpfits := hfits.fits p (List.mem_append_left _ hp)
          simp only [lineGemm, insertTaskZgemm, List.mem_cons, List.not_mem_nil, or_false] at hp
          rcases hp with rfl | rfl
          · exact .inr ⟨hpfits, .inr hne⟩
          · exact .inl ((transA.tile_mat _ _ _).trans_ne Operand.noConfusion)
        · rw [hbeta]
          exact reads_zgemm

end Drivers

/-! ## The calls -/

section Theorem

variable {R : Type} [Field R] [StarRing R] [DecidableEq R] {mkl should_copy : Bool} {NB MB : ℕ}
  {transA transB transT : Trans} {uplo : Uplo} {alpha beta : R} {LDA LDB LDC : ℤ}

/-- The tasks of `zswap` have no access declared as W, and their bodies are defined. -/
theorem overwrites_zswap {d : Operand → Descr} {M Ni Nj i j : ℕ} {issame : Bool} {A B : Tile} :
    (TaskArg.launch mkl NB d (.zswap M Ni Nj i j issame A B : TaskArg R)).Overwrites d := by
  intro onGpu garbage s
  show ∃ s', (TaskArg.launch mkl NB d (.zswap M Ni Nj i j issame A B : TaskArg R)).body onGpu s =
    some s' ∧ _
  cases onGpu with
  | true =>
      cases issame with
      | true => exact ⟨_, rfl, rfl⟩
      | false => exact ⟨_, rfl, rfl⟩
  | false => exact ⟨_, rfl, rfl⟩

omit [Field R] [StarRing R] [DecidableEq R] in
/-- The tasks of a rank update that takes `C` as RW on the diagonal store all of the tiles that they
take as W. -/
theorem full_of_mode {tasks : ℕ → ℕ → List (Task R)} {v : Visit} {nt : ℕ}
    (h : ∀ m n, ∀ t ∈ tasks m n, t.out.mode = .w → t.Full) :
    ∀ t ∈ triangleLoops v nt tasks, t.out.mode = .w → t.Full := by
  intro t ht hmode
  obtain ⟨m, n, _, ht⟩ := mem_triangleLoops ht
  exact h m n t ht hmode

/-- The diagonal of the tasks of a symmetric rank `k` update. -/
theorem rankK_full_iff {N K : ℤ} (hNB : 0 < NB) (hN : 1 ≤ N.toNat) {v : Visit} :
    (∀ t ∈ triangleLoops v (numTiles N.toNat NB)
      (rankKBody betaMode transT uplo transA NB N.toNat K.toNat alpha LDA beta LDC),
        t.out.mode = .w → t.Full) ↔ WholeDiagonal N K beta NB := by
  refine full_iff_wholeDiagonal uplo hNB hN (fun t ht hmode => ?_) fun hbeta hK => ?_
  · obtain ⟨m, n, ⟨_, hn, _⟩, ht⟩ := mem_triangleLoops ht
    obtain ⟨k, ⟨_, hk⟩, ht⟩ := mem_forLoop.mp ht
    by_cases hmn : m = n
    · simp only [if_pos hmn, List.mem_singleton] at ht
      subst ht
      obtain ⟨rfl, hbeta⟩ := factor_eq_zero hmode
      have hstart := (lt_numTiles hNB).mp hk
      exact .inr ⟨⟨hbeta, by omega⟩, n, hn, rfl, rfl, rfl⟩
    · simp only [if_neg hmn, List.mem_singleton] at ht
      subst ht
      exact .inl fun _ _ => rfl
  · have hzero : betaMode (if 0 = 0 then beta else 1 : R) = .w := by
      rw [if_pos rfl, hbeta]
      exact if_pos rfl
    refine ⟨insertTaskRankK betaMode transT uplo transA (tileSize N.toNat NB 0)
      (tileSize K.toNat NB 0) alpha (transA.tile .A 0 0 LDA) (if 0 = 0 then beta else 1)
      ⟨.C, 0, 0, LDC⟩, mem_triangleLoops_of_stores (numTiles_pos hNB hN) (numTiles_pos hNB hN)
      (v.uplo.stores_self 0) (mem_forLoop.mpr ⟨0, ⟨le_rfl, numTiles_pos hNB hK⟩, ?_⟩), hzero, rfl,
      rfl, rfl⟩
    exact List.mem_singleton_self _

/-- The diagonal of the tasks of a symmetric rank `2k` update. -/
theorem rank2K_full_iff {N K LDB' : ℤ} (hNB : 0 < NB) (hN : 1 ≤ N.toNat)
    {v : Visit} :
    (∀ t ∈ triangleLoops v (numTiles N.toNat NB)
      (rank2KBody betaMode transT uplo transA NB N.toNat K.toNat alpha LDA LDB LDB' beta LDC),
        t.out.mode = .w → t.Full) ↔ WholeDiagonal N K beta NB := by
  refine full_iff_wholeDiagonal uplo hNB hN (fun t ht hmode => ?_) fun hbeta hK => ?_
  · obtain ⟨m, n, ⟨_, hn, _⟩, ht⟩ := mem_triangleLoops ht
    obtain ⟨k, ⟨_, hk⟩, ht⟩ := mem_forLoop.mp ht
    by_cases hmn : m = n
    · simp only [if_pos hmn, List.mem_singleton] at ht
      subst ht
      obtain ⟨rfl, hbeta⟩ := factor_eq_zero hmode
      have hstart := (lt_numTiles hNB).mp hk
      exact .inr ⟨⟨hbeta, by omega⟩, n, hn, rfl, rfl, rfl⟩
    · simp only [if_neg hmn, List.mem_cons, List.not_mem_nil, or_false] at ht
      rcases ht with rfl | rfl
      · exact .inl fun _ _ => rfl
      · exact .inl fun _ _ => rfl
  · have hzero : betaMode (if 0 = 0 then beta else 1 : R) = .w := by
      rw [if_pos rfl, hbeta]
      exact if_pos rfl
    refine ⟨insertTaskRank2K betaMode transT uplo transA (tileSize N.toNat NB 0)
      (tileSize K.toNat NB 0) alpha (transA.tile .A 0 0 LDA) (transA.tile .B 0 0 LDB)
      (if 0 = 0 then beta else 1) ⟨.C, 0, 0, LDC⟩,
      mem_triangleLoops_of_stores (numTiles_pos hNB hN) (numTiles_pos hNB hN)
      (v.uplo.stores_self 0) (mem_forLoop.mpr ⟨0, ⟨le_rfl, numTiles_pos hNB hK⟩, ?_⟩), hzero, rfl,
      rfl, rfl⟩
    exact List.mem_singleton_self _

/-- The kernel of the body for the CPU of a task of `zgemmt`, with MKL. -/
def Task.gemmt (uplo : Uplo) (t : Task R) : Task R :=
  if t.out.m = t.out.n then { t with writes := uplo.stores } else t

omit [Field R] [StarRing R] [DecidableEq R] in
theorem Task.gemmt_out (t : Task R) : (t.gemmt uplo).out = t.out := by
  unfold Task.gemmt
  split <;> rfl

omit [Field R] [StarRing R] [DecidableEq R] in
theorem Task.Acquirable.gemmt {d : Operand → Descr} {t : Task R} (h : t.Acquirable d) :
    (t.gemmt uplo).Acquirable d := by
  unfold Task.gemmt
  split
  · exact ⟨⟨h.stores.accepted, h.stores.out⟩, h.separate, h.reads⟩
  · exact h

/-- The tasks of `zgemmt` are those of the products. -/
theorem mem_zgemmtTasks {N K : ℕ} (hNB : 0 < NB) {t : Task R}
    (ht : t ∈ zgemmtTasks (zgemmtDescr NB transA transB N K LDA LDB LDC) (some uplo) transA transB N
      K alpha LDA LDB beta LDC) :
    ∃ m < numTiles N NB, ∃ n < numTiles N NB, ∃ k < numTiles K NB, t.erase =
      (gemmTask transA transB NB N N K alpha .A LDA .B LDB (if k = 0 then beta else 1) .C LDC m n
        k).erase := by
  have hmem := List.mem_map_of_mem (f := Task.erase) ht
  rw [zgemmtTasks_eq hNB] at hmem
  obtain ⟨t', ht', herase⟩ := List.mem_map.mp hmem
  obtain ⟨m, ⟨_, hm⟩, ht'⟩ := mem_forLoop.mp ht'
  obtain ⟨n, hn, ht'⟩ := mem_forLoop.mp ht'
  obtain ⟨k, ⟨_, hk⟩, ht'⟩ := mem_forLoop.mp ht'
  have hn : n < numTiles N NB := by
    have hmax := hn.2
    split at hmax <;> omega
  rw [List.mem_singleton.mp ht'] at herase
  exact ⟨m, hm, n, hn, k, hk, herase.symm⟩

omit [Field R] [StarRing R] [DecidableEq R] in
/-- The modes of the insertion do not matter. -/
theorem Task.Discards.of_erase {d : Operand → Descr} {t t' : Task R} (h : t.erase = t'.erase)
    (ht' : t'.Discards d) : t.Discards d := by
  cases t with
  | mk inputs out inserted writes value =>
      cases t' with
      | mk inputs' out' inserted' writes' value' =>
          obtain ⟨rfl, rfl, _, rfl, rfl⟩ := Task.mk.inj h
          intro hmode
          obtain ⟨hacquirable, hfull⟩ := ht' hmode
          exact ⟨⟨⟨hacquirable.stores.accepted, hacquirable.stores.out⟩, hacquirable.separate,
            hacquirable.reads⟩, hfull⟩

/-- The tasks of `zgemmt`. With MKL the body for the CPU stores a triangle on the diagonal. -/
theorem overwrites_zgemmt_iff {N K : ℤ} (hNB : 0 < NB) (hN : 1 ≤ N.toNat)
    (h : GemmtTiled (zgemmtDescr NB transA transB N.toNat K.toNat LDA LDB LDC) transA transB NB
      N.toNat K.toNat LDA LDB LDC) :
    let c : Call R := .zgemmt (some uplo) transA transB N K alpha LDA LDB beta LDC
    (∀ l ∈ c.launches mkl should_copy NB (c.descr MB NB), l.Overwrites (c.descr MB NB)) ↔
      mkl = false ∨ WholeDiagonal N K beta NB := by
  intro c
  obtain ⟨d, hd⟩ : ∃ d, d = zgemmtDescr NB transA transB N.toNat K.toNat LDA LDB LDC := ⟨_, rfl⟩
  obtain ⟨tasks, htasks⟩ : ∃ tasks : List (Task R), tasks =
    zgemmtTasks d (some uplo) transA transB N.toNat K.toNat alpha LDA LDB beta LDC := ⟨_, rfl⟩
  have hmem : ∀ t ∈ tasks, ∃ m < numTiles N.toNat NB, ∃ n < numTiles N.toNat NB,
      ∃ k < numTiles K.toNat NB, t.erase =
        (gemmTask transA transB NB N.toNat N.toNat K.toNat alpha .A LDA .B LDB
          (if k = 0 then beta else 1) .C LDC m n k).erase := by
    intro t ht
    rw [htasks, hd] at ht
    exact mem_zgemmtTasks hNB ht
  have hdiscards : ∀ t ∈ tasks, t.Discards d := by
    intro t ht
    obtain ⟨m, hm, n, hn, k, hk, herase⟩ := hmem t ht
    rw [hd]
    exact (discards_zgemm h.valid h.A h.B h.C hm hn hk).of_erase herase
  have hlaunches : c.launches mkl should_copy NB (c.descr MB NB) =
      tasks.map fun t => t.launch d (c.cpuBody mkl d t) := by
    rw [htasks, hd]
    rfl
  have hdescr : c.descr MB NB = d := hd.symm
  rw [hlaunches, hdescr]
  cases mkl with
  | false =>
      refine iff_of_true ?_ (.inl rfl)
      have hcpu : (fun t : Task R => t.launch d (c.cpuBody false d t)) =
          fun t => t.launch d fun s => some (t.exec d s) := by
        funext t
        refine congrArg (fun cpu => t.launch d cpu) (funext fun s => ?_)
        show (if false = true ∧ t.out.m = t.out.n then
          some ({ t with writes := uplo.stores }.exec d s) else some (t.exec d s)) = _
        rw [if_neg fun hcond => Bool.noConfusion hcond.1]
      rw [hcpu]
      exact overwrites_of_discards (hd ▸ h.valid) hdiscards
  | true =>
      have hcpu : ∀ t s, c.cpuBody true d t s = some ((t.gemmt uplo).exec d s) := by
        intro t s
        show (if true = true ∧ t.out.m = t.out.n then _ else _) = _
        unfold Task.gemmt
        split
        next hcond => rw [if_pos hcond.2]
        next hcond => rw [if_neg fun heq => hcond ⟨rfl, heq⟩]
      have hover : ∀ t ∈ tasks, (t.launch d (c.cpuBody true d t)).Overwrites d ↔
          ((t.gemmt uplo).out.mode = .w → (t.gemmt uplo).Full) := by
        intro t ht
        rw [t.gemmt_out]
        by_cases hmode : t.out.mode = .w
        · obtain ⟨hacquirable, hfull⟩ := hdiscards t ht hmode
          rw [overwrites_launch_iff (hd ▸ h.valid) hmode hacquirable hacquirable.gemmt t.gemmt_out
            (hcpu t)]
          exact ⟨fun hboth _ => hboth.2, fun hgemmt => ⟨hfull, hgemmt hmode⟩⟩
        · exact iff_of_true (overwrites_of_mode hmode fun s => ⟨_, hcpu t s⟩)
            fun hw => absurd hw hmode
      have hforall : (∀ l ∈ tasks.map fun t => t.launch d (c.cpuBody true d t), l.Overwrites d) ↔
          ∀ t ∈ tasks.map (Task.gemmt uplo), t.out.mode = .w → t.Full := by
        rw [List.forall_mem_map, List.forall_mem_map]
        exact forall₂_congr hover
      rw [hforall, full_iff_wholeDiagonal (K := K) uplo hNB hN]
      · exact ⟨.inr, fun hor => hor.resolve_left Bool.noConfusion⟩
      · intro t ht hmode
        obtain ⟨t₀, ht₀, rfl⟩ := List.mem_map.mp ht
        rw [t₀.gemmt_out] at hmode ⊢
        obtain ⟨m, hm, n, hn, k, hk, herase⟩ := hmem t₀ ht₀
        have hout : t₀.erase.out = _ := congrArg Task.out herase
        have hwrites : t₀.erase.writes = _ := congrArg Task.writes herase
        replace hout : t₀.out = _ := hout
        replace hwrites : t₀.writes = fun _ _ => true := hwrites
        rw [hout] at hmode
        obtain ⟨rfl, hbeta⟩ := factor_eq_zero hmode
        have hstart := (lt_numTiles hNB).mp hk
        unfold Task.gemmt
        by_cases hdiag : t₀.out.m = t₀.out.n
        · rw [if_pos hdiag, hout]
          rw [hout] at hdiag
          obtain rfl : m = n := hdiag
          exact .inr ⟨⟨hbeta, by omega⟩, m, hm, rfl, rfl, rfl⟩
        · rw [if_neg hdiag, hwrites]
          exact .inl fun _ _ => rfl
      · intro hbeta hK
        obtain ⟨t₀, ht₀, herase⟩ : ∃ t ∈ tasks, t.erase =
            (gemmTask transA transB NB N.toNat N.toNat K.toNat alpha .A LDA .B LDB
              (if 0 = 0 then beta else 1) .C LDC 0 0 0).erase := by
          rw [htasks, hd]
          refine List.mem_map.mp ?_
          rw [zgemmtTasks_eq hNB]
          refine List.mem_map_of_mem (mem_forLoop.mpr ⟨0, ⟨le_rfl, numTiles_pos hNB hN⟩, ?_⟩)
          refine mem_forLoop.mpr
            ⟨0, (mem_row_iff (numTiles_pos hNB hN)).mpr (uplo.stores_self 0), ?_⟩
          exact mem_forLoop.mpr ⟨0, ⟨le_rfl, numTiles_pos hNB hK⟩, List.mem_singleton_self _⟩
        have hout : t₀.erase.out = _ := congrArg Task.out herase
        replace hout : t₀.out = _ := hout
        refine ⟨t₀.gemmt uplo, List.mem_map_of_mem ht₀, ?_⟩
        unfold Task.gemmt
        have hmode : betaMode (if 0 = 0 then beta else 1 : R) = .w := by
          rw [if_pos rfl, hbeta]
          exact if_pos rfl
        rw [if_pos (by rw [hout]; rfl), hout]
        exact ⟨hmode, rfl, rfl, rfl⟩

/-- The tasks of `xkblas_zgemm_async`. -/
theorem overwrites_zgemm {M N K : ℕ} (hNB : 0 < NB) (hA : AdmissibleLd LDA (transA.size M K).1)
    (hB : AdmissibleLd LDB (transB.size K N).1) (hC : AdmissibleLd LDC M) :
    ∀ l ∈ (zgemmTasks (zgemmDescr NB transA transB M N K LDA LDB LDC) transA transB M N K alpha LDA
        LDB beta LDC).map fun t => t.launch (zgemmDescr NB transA transB M N K LDA LDB LDC) fun s =>
          some (t.exec (zgemmDescr NB transA transB M N K LDA LDB LDC) s),
      l.Overwrites (zgemmDescr NB transA transB M N K LDA LDB LDC) := by
  have hvalid : ∀ X, (zgemmDescr NB transA transB M N K LDA LDB LDC X).Valid :=
    zgemmDescr_valid hNB hA.not_illegalLd hB.not_illegalLd hC.not_illegalLd
  refine overwrites_of_discards hvalid fun t ht => ?_
  rw [zgemmTasks_eq hNB] at ht
  obtain ⟨m, ⟨_, hm⟩, ht⟩ := mem_forLoop.mp ht
  obtain ⟨n, ⟨_, hn⟩, ht⟩ := mem_forLoop.mp ht
  obtain ⟨k, ⟨_, hk⟩, ht⟩ := mem_forLoop.mp ht
  rw [List.mem_singleton.mp ht]
  exact discards_zgemm hvalid (hA.tiled hNB) (hB.tiled hNB) (hC.tiled hNB) hm hn hk

/-- The tasks of a product with a mirrored matrix. -/
theorem overwrites_side {d : Operand → Descr} {side : Side} {M N : ℕ} {tasks : List (Task R)}
    (h : SideTiled d side NB M N LDA LDB LDC) (htrans : transT ≠ .noTrans)
    (htasks : ∀ t ∈ tasks, ∃ m < numTiles M NB, ∃ n < numTiles N NB,
      ∃ k < numTiles (side.rowDim M N) NB,
        t = sideTask transT side uplo NB M N alpha LDA LDB (if k = 0 then beta else 1) LDC m n k) :
    ∀ l ∈ tasks.map fun t => t.launch d fun s => some (t.exec d s), l.Overwrites d := by
  refine overwrites_of_discards h.valid fun t ht hmode => ?_
  obtain ⟨m, hm, n, hn, k, hk, rfl⟩ := htasks t ht
  exact acquirable_sideTask h htrans hm hn hk hmode

/-- The tasks of `zcopyscale`. -/
theorem overwrites_zcopyscaleArgs_iff {M N ldd ldl ldu : ℕ} (hMB : 0 < MB) (hNB : 0 < NB)
    (hruns : zcopyscaleRuns M N ldd ldl ldu = .ok true) :
    let d := zcopyscaleDescr MB NB M N ldd ldl ldu
    (∀ l ∈ (zcopyscaleArgs d should_copy M N ldd ldl ldu : List (TaskArg R)).map
        (TaskArg.launch mkl NB d), l.Overwrites d) ↔
      M = 0 ∨ N = 0 ∨
        should_copy = true ∧ ∀ b < numTiles M MB, NativeCovers (tileSize M MB b) := by
  intro d
  simp only [zcopyscaleRuns] at hruns
  split_ifs at hruns with hldd hldl hldu
  -- the task of the block row `p` and the block column `q`
  have htask : ∀ p < numTiles M MB, ∀ q < numTiles N NB,
      (TaskArg.launch mkl NB d (.zcopyscale (tileSize M MB p) (tileSize N NB q) should_copy
        ⟨.A, q, q, ldd⟩ ⟨.B, q, p, ldl⟩ ⟨.C, p, q, ldu⟩ : TaskArg R)).Overwrites d ↔
        should_copy = true ∧ NativeCovers (tileSize M MB p) := by
    intro p hp q hq
    have hrow := tile_le hMB hp
    have hcol := tile_le hNB hq
    refine overwrites_zcopyscale_iff ⟨Operand.noConfusion, Operand.noConfusion,
      Operand.noConfusion, ?_⟩ (tileSize_pos hMB hp) (tileSize_pos hNB hq) ?_
    · show _ ≤ (ldl : ℤ).toNat
      omega
    · show _ ≤ (ldu : ℤ).toNat
      omega
  have hargs : (zcopyscaleArgs d should_copy M N ldd ldl ldu : List (TaskArg R)) =
      forLoop 0 (numTiles M MB) fun p => forLoop 0 (numTiles N NB) fun q =>
        [.zcopyscale (tileSize M MB p) (tileSize N NB q) should_copy ⟨.A, q, q, ldd⟩
          ⟨.B, q, p, ldl⟩ ⟨.C, p, q, ldu⟩] := by
    refine forLoop_congr fun p _ (hp : p < numTiles M MB) => forLoop_congr fun q _
      (hq : q < numTiles N NB) => ?_
    rw [← min_sizeSub hMB hp, ← min_sizeSub hNB hq]
    rfl
  rw [hargs, List.forall_mem_map]
  simp only [forall_mem_forLoop, List.forall_mem_singleton]
  constructor
  · intro hover
    by_cases hM : M = 0
    · exact .inl hM
    · by_cases hN : N = 0
      · exact .inr (.inl hN)
      · have hM := numTiles_pos hMB (Nat.pos_of_ne_zero hM)
        have hN := numTiles_pos hNB (Nat.pos_of_ne_zero hN)
        have hall : ∀ p < numTiles M MB, should_copy = true ∧ NativeCovers (tileSize M MB p) :=
          fun p hp => (htask p hp 0 hN).mp (hover p (Nat.zero_le p) hp 0 le_rfl hN)
        exact .inr (.inr ⟨(hall 0 hM).1, fun p hp => (hall p hp).2⟩)
  · intro hcond p _ hp q _ hq
    have hM := (lt_numTiles hMB).mp hp
    have hN := (lt_numTiles hNB).mp hq
    rcases hcond with hM₀ | hN₀ | ⟨hcopy, hcovers⟩
    · omega
    · omega
    · exact (htask p hp q hq).mpr ⟨hcopy, hcovers p hp⟩

omit [Field R] [StarRing R] [DecidableEq R] in
theorem rankKDescr_valid {N K : ℕ} (hNB : 0 < NB) (hA : AdmissibleLd LDA (transA.size N K).1)
    (hC : AdmissibleLd LDC N) (X : Operand) : (rankKDescr NB transA N K LDA LDC X).Valid := by
  cases X with
  | A => exact (hA.tiled hNB).toValid
  | B => exact valid_initMatrixHandle hNB hNB le_rfl
  | C => exact (hC.tiled hNB).toValid

omit [Field R] [StarRing R] [DecidableEq R] in
theorem rank2KDescr_valid {N K : ℕ} (hNB : 0 < NB) (hA : AdmissibleLd LDA (transA.size N K).1)
    (hB : AdmissibleLd LDB (transA.size N K).1) (hC : AdmissibleLd LDC N) (X : Operand) :
    (rank2KDescr NB transA N K LDA LDB LDC X).Valid := by
  cases X with
  | A => exact (hA.tiled hNB).toValid
  | B => exact (hB.tiled hNB).toValid
  | C => exact (hC.tiled hNB).toValid

omit [StarRing R] in
theorem rankKRuns_ok {N K : ℤ} (h : rankKRuns transT transA N K alpha LDA beta LDC = .ok true) :
    1 ≤ N.toNat := by
  simp only [rankKRuns] at h
  split_ifs at h
  simp only [Except.ok.injEq, decide_eq_true_eq] at h
  omega

omit [StarRing R] in
theorem rank2KRuns_pos {N K : ℤ}
    (h : rank2KRuns transT transA N K alpha LDA LDB beta LDC = .ok true) : 1 ≤ N.toNat := by
  simp only [rank2KRuns] at h
  split_ifs at h
  simp only [Except.ok.injEq, decide_eq_true_eq] at h
  omega

/-- The bodies of a call overwrite the views that they take as W. -/
theorem overwrites_call_iff (c : Call R) (hruns : c.runs = .ok true) (hld : c.AdmissibleLds)
    (hMB : 0 < MB) (hNB : 0 < NB) :
    (∀ l ∈ c.launches mkl should_copy NB (c.descr MB NB), l.Overwrites (c.descr MB NB)) ↔
      c.OverwritesAll mkl should_copy MB NB := by
  -- the two ways in which a factor gives the mode of `C`
  have hbeta : ∀ b : R, betaMode b = .w → b = 0 := fun _ => eq_zero_of_betaMode
  have hrw : ∀ b : R, Mode.rw = .w → b = 0 := fun _ h => Mode.noConfusion h
  cases c with
  | zgemm transA transB M N K alpha LDA LDB beta LDC =>
      refine iff_of_true (overwrites_zgemm hNB ?_ ?_ ?_) trivial
      · exact hld .A (by simp [Call.operands])
      · exact hld .B (by simp [Call.operands])
      · exact hld .C (by simp [Call.operands])
  | zgemmt uplo transA transB N K alpha LDA LDB beta LDC =>
      have hA : AdmissibleLd LDA (transA.size N.toNat K.toNat).1 := hld .A (by simp [Call.operands])
      have hB : AdmissibleLd LDB (transB.size K.toNat N.toNat).1 := hld .B (by simp [Call.operands])
      have hC : AdmissibleLd LDC N.toNat := hld .C (by simp [Call.operands])
      cases uplo with
      | some uplo =>
          exact overwrites_zgemmt_iff hNB (zgemmtRuns_ok hruns)
            ⟨hA.tiled hNB, hB.tiled hNB, hC.tiled hNB⟩
      | none =>
          refine iff_of_true ?_ trivial
          show ∀ l ∈ (zgemmtTasks (zgemmtDescr NB transA transB N.toNat K.toNat LDA LDB LDC) none
            transA transB N.toNat K.toNat alpha LDA LDB beta LDC).map _, _
          rw [zgemmtTasks_none]
          exact overwrites_zgemm hNB hA hB hC
  | zsymm side uplo M N alpha LDA LDB beta LDC =>
      have htiled := zsymmDescr_tiled (N := N.toNat) hNB (hld .A (by simp [Call.operands]))
        (hld .B (by simp [Call.operands])) (hld .C (by simp [Call.operands]))
      exact iff_of_true (overwrites_side htiled (by decide) fun t ht =>
        (mem_zsymmTasks hNB t).mp ht) trivial
  | zhemm side uplo M N alpha LDA LDB beta LDC =>
      have htiled := zsymmDescr_tiled (N := N.toNat) hNB (hld .A (by simp [Call.operands]))
        (hld .B (by simp [Call.operands])) (hld .C (by simp [Call.operands]))
      exact iff_of_true (overwrites_side htiled (by decide) fun t ht =>
        (mem_zhemmTasks hNB t).mp ht) trivial
  | zsyrk uplo transA N K alpha LDA beta LDC =>
      have hA : AdmissibleLd LDA (transA.size N.toNat K.toNat).1 := hld .A (by simp [Call.operands])
      have hC : AdmissibleLd LDC N.toNat := hld .C (by simp [Call.operands])
      have hvalid := rankKDescr_valid (K := K.toNat) hNB hA hC
      simp only [Call.launches, Call.tasks, Call.descr]
      rw [zsyrkTasks_eq hNB]
      exact (overwrites_tasks_iff hvalid fun t ht => acquirable_rankK hvalid (hA.tiled hNB)
        (hC.tiled hNB) (by decide) hbeta ht).trans (rankK_full_iff hNB (rankKRuns_ok hruns))
  | zherk uplo transA N K alpha LDA beta LDC =>
      have hA : AdmissibleLd LDA (transA.size N.toNat K.toNat).1 := hld .A (by simp [Call.operands])
      have hC : AdmissibleLd LDC N.toNat := hld .C (by simp [Call.operands])
      have hvalid := rankKDescr_valid (K := K.toNat) hNB hA hC
      simp only [Call.launches, Call.tasks, Call.descr]
      rw [zherkTasks_eq hNB]
      refine iff_of_true ((overwrites_tasks_iff hvalid fun t ht => acquirable_rankK hvalid
        (hA.tiled hNB) (hC.tiled hNB) (by decide) hrw ht).mpr (full_of_mode ?_)) trivial
      intro m n t ht hmode
      obtain ⟨k, _, ht⟩ := mem_forLoop.mp ht
      by_cases hmn : m = n
      · simp only [if_pos hmn, List.mem_singleton] at ht
        rw [ht] at hmode
        exact Mode.noConfusion hmode
      · simp only [if_neg hmn, List.mem_singleton] at ht
        rw [ht]
        exact fun _ _ _ _ => rfl
  | zsyr2k uplo transA N K alpha LDA LDB beta LDC =>
      have hA : AdmissibleLd LDA (transA.size N.toNat K.toNat).1 := hld .A (by simp [Call.operands])
      have hB : AdmissibleLd LDB (transA.size N.toNat K.toNat).1 := hld .B (by simp [Call.operands])
      have hC : AdmissibleLd LDC N.toNat := hld .C (by simp [Call.operands])
      have hvalid := rank2KDescr_valid hNB hA hB hC
      simp only [Call.launches, Call.tasks, Call.descr]
      rw [zsyr2kTasks_eq hNB (rank2KRuns_ok hruns)]
      exact (overwrites_tasks_iff hvalid fun t ht => acquirable_rank2K hvalid (hA.tiled hNB)
        (hB.tiled hNB) (hC.tiled hNB) hB.le (by decide) hbeta ht).trans
        (rank2K_full_iff hNB (rank2KRuns_pos hruns))
  | zher2k uplo transA N K alpha LDA LDB beta LDC =>
      have hA : AdmissibleLd LDA (transA.size N.toNat K.toNat).1 := hld .A (by simp [Call.operands])
      have hB : AdmissibleLd LDB (transA.size N.toNat K.toNat).1 := hld .B (by simp [Call.operands])
      have hC : AdmissibleLd LDC N.toNat := hld .C (by simp [Call.operands])
      have hvalid := rank2KDescr_valid hNB hA hB hC
      simp only [Call.launches, Call.tasks, Call.descr]
      rw [zher2kTasks_eq hNB]
      have hLDB' : max 1 ((transA.size N.toNat K.toNat).1 : ℤ) ≤ zher2kLd uplo transA LDA LDB := by
        unfold zher2kLd
        split
        · exact hA.le
        · exact hB.le
      refine iff_of_true ((overwrites_tasks_iff hvalid fun t ht => acquirable_rank2K hvalid
        (hA.tiled hNB) (hB.tiled hNB) (hC.tiled hNB) hLDB' (by decide) hrw ht).mpr
        (full_of_mode ?_)) trivial
      intro m n t ht hmode
      obtain ⟨k, _, ht⟩ := mem_forLoop.mp ht
      by_cases hmn : m = n
      · simp only [if_pos hmn, List.mem_singleton] at ht
        rw [ht] at hmode
        exact Mode.noConfusion hmode
      · simp only [if_neg hmn, List.mem_cons, List.not_mem_nil, or_false] at ht
        rcases ht with rfl | rfl
        · exact fun _ _ _ _ => rfl
        · exact fun _ _ _ _ => rfl
  | ztrmm side uplo transA diag N NRHS alpha LDA LDB =>
      have htiled := panelDescr_tiled hNB (hld .A (by simp [Call.operands]))
        (hld .B (by simp [Call.operands]))
      simp only [Call.launches, Call.tasks, Call.descr]
      rw [ztrmmTasks_eq hNB]
      exact iff_of_true (overwrites_of_discards htiled.valid fun t ht => discards_trmmLoops ht)
        trivial
  | ztrsm side uplo transA diag N NRHS alpha LDA LDB =>
      have htiled := panelDescr_tiled hNB (hld .A (by simp [Call.operands]))
        (hld .B (by simp [Call.operands]))
      simp only [Call.launches, Call.tasks, Call.descr]
      rw [ztrsmTasks_eq hNB]
      refine iff_of_true ?_ trivial
      rw [List.forall_mem_map]
      intro t ht
      by_cases hmode : t.out.mode = .w
      · obtain ⟨⟨hacquirable, hfull⟩, hlength⟩ := discards_trsmLoops htiled ht hmode
        refine (overwrites_launch_iff htiled.valid hmode hacquirable hacquirable rfl
          fun s => ?_).mpr ⟨hfull, hfull⟩
        exact if_neg (by omega)
      · refine overwrites_of_mode hmode fun s => ?_
        show ∃ s', (if t.inputs.length = 1 then some s else some (t.exec _ s)) = some s'
        split
        · exact ⟨_, rfl⟩
        · exact ⟨_, rfl⟩
  | zswap M N i j LDC =>
      refine iff_of_true ?_ trivial
      show ∀ l ∈ (zswapArgs _ M.toNat N.toNat i.toNat j.toNat LDC).map _, _
      rw [List.forall_mem_map]
      intro a ha
      obtain ⟨m, _, ha⟩ := mem_forLoop.mp ha
      rw [List.mem_singleton.mp ha]
      exact overwrites_zswap
  | zcopyscale M N ldd ldl ldu => exact overwrites_zcopyscaleArgs_iff hMB hNB hruns

/-- The write-only accesses of a call are sound exactly when its bodies overwrite all of the views.
A symmetric rank update with `beta = 0` stores a triangle of a tile that it takes as W, and
`zcopyscale` takes `U` as W also when it does not copy. -/
theorem write_only_iff (c : Call R) (hruns : c.runs = .ok true) (hld : c.AdmissibleLds)
    (hMB : 0 < MB) (hNB : 0 < NB) :
    c.WriteOnlySound mkl should_copy MB NB ↔ c.OverwritesAll mkl should_copy MB NB := by
  have hover : _ ↔ c.OverwritesAll mkl should_copy MB NB := overwrites_call_iff c hruns hld hMB hNB
  exact ⟨fun h => hover.mp h.overwrites, fun h => ⟨hover.mpr h, runAcquired_eq (hover.mpr h)⟩⟩

end Theorem

/-- An update of a matrix of order two. -/
def zsyrkOrderTwo : Call ℚ :=
  .zsyrk .lower .noTrans 2 1 1 2 0 2

theorem zsyrkOrderTwo_runs : zsyrkOrderTwo.runs = .ok true := by
  decide

theorem zsyrkOrderTwo_admissible : zsyrkOrderTwo.AdmissibleLds := by
  intro X hX
  simp only [zsyrkOrderTwo, Call.operands, List.mem_cons, List.not_mem_nil, or_false] at hX
  rcases hX with rfl | rfl
  · exact ⟨by decide, by decide⟩
  · exact ⟨by decide, by decide⟩

/-- With tiles of order one each task stores all of its tile. -/
theorem write_only_orderOne : zsyrkOrderTwo.WriteOnlySound true false 1 1 :=
  (write_only_iff zsyrkOrderTwo zsyrkOrderTwo_runs zsyrkOrderTwo_admissible Nat.one_pos
    Nat.one_pos).mpr (.inr (.inr (.inr rfl)))

/-- With a tile of order two the element above the diagonal is what the replica had. -/
theorem zsyrk_leaves_garbage : ¬ zsyrkOrderTwo.WriteOnlySound true false 2 2 := by
  intro h
  have hwhole := (overwrites_call_iff zsyrkOrderTwo zsyrkOrderTwo_runs
    zsyrkOrderTwo_admissible (by decide) (by decide)).mp h.overwrites
  rcases hwhole with hbeta | hK | hN | hNB
  · exact hbeta rfl
  · exact absurd hK (by decide)
  · exact absurd hN (by decide)
  · exact absurd hNB (by decide)

end Xkblas.Blas
