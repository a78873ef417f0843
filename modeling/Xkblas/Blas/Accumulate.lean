import Xkblas.Blas.Execution

/-!
# Loops over the tiles of a matrix

The routines write one matrix, from the others. `ActsOn` says what a list of tasks does to one
element of it: only the tasks on the tile of the element act (`acts_of_other_tile`), and the
iterations of the innermost loop add their products to it. `sum_op_tiles` puts the products over
the tiles of `op(A)` and `op(B)` together.
-/

namespace Xkblas.Blas

open Library Finset

variable {R : Type*} {d : Operand → Descr} {s s₀ : State R} {t : Task R} {tasks : List (Task R)}
  {X : Operand} {i j m n : ℕ} {g : R → R}

/-! ## Tiled matrices -/

/-- The descriptor of an `M` by `N` matrix with `NB` by `NB` tiles and the leading dimension `ld`
of the call. -/
structure Descr.Tiled (d : Descr) (NB M N : ℕ) (ld : ℤ) : Prop extends d.Valid where
  mb_eq : d.mb = NB
  nb_eq : d.nb = NB
  M_eq : d.M = M
  N_eq : d.N = N
  ld_eq : ld = d.ld

/-- An `int` that is not negative keeps its value. -/
theorem toSize_of_nonneg {x : ℤ} (h : 0 ≤ x) (hx : x < 2 ^ 31) : (toSize x : ℤ) = x := by
  unfold toSize
  omega

/-- What a call that initialises the descriptor of a matrix establishes. -/
theorem tiled_initMatrixHandle {NB M N : ℕ} {LD : ℤ} (hNB : 0 < NB) (hLD : max 1 M ≤ toSize LD)
    (hpos : 0 ≤ LD) (hint : LD < 2 ^ 31) :
    (initMatrixHandle M N (toSize LD) NB NB).Tiled NB M N LD where
  toValid := valid_initMatrixHandle hNB hNB hLD
  mb_eq := rfl
  nb_eq := rfl
  M_eq := rfl
  N_eq := rfl
  ld_eq := (toSize_of_nonneg hpos hint).symm

/-- A leading dimension that the documentation admits: an `int` that is not smaller than the
number of rows. -/
structure AdmissibleLd (LD : ℤ) (rows : ℕ) : Prop where
  le : max 1 (rows : ℤ) ≤ LD
  int : LD < 2 ^ 31

theorem AdmissibleLd.not_illegalLd {LD : ℤ} {rows : ℕ} (h : AdmissibleLd LD rows) :
    ¬ illegalLd LD rows := by
  obtain ⟨hle, hint⟩ := h
  have hsize := toSize_of_nonneg (by omega) hint
  unfold illegalLd
  omega

theorem AdmissibleLd.tiled {NB M N : ℕ} {LD : ℤ} (h : AdmissibleLd LD M) (hNB : 0 < NB) :
    (initMatrixHandle M N (toSize LD) NB NB).Tiled NB M N LD :=
  tiled_initMatrixHandle hNB (not_lt.mp h.not_illegalLd) (by have := h.le; omega) h.int

theorem Descr.Tiled.fits {ld : ℤ} {NB M N : ℕ} (h : (d X).Tiled NB M N ld)
    (hm : m < numTiles M NB) (hn : n < numTiles N NB) (mode : Mode) :
    Param.Fits d ⟨⟨X, m, n, ld⟩, mode, tileSize M NB m, tileSize N NB n⟩ where
  row_lt := by rw [h.mt_eq, h.M_eq, h.mb_eq]; exact hm
  col_lt := by rw [h.nt_eq, h.N_eq, h.nb_eq]; exact hn
  rows_eq := by rw [h.M_eq, h.mb_eq]
  cols_eq := by rw [h.N_eq, h.nb_eq]
  ld_eq := h.ld_eq

/-- The dimensions of the matrix `X` where `op(X)` is `m` by `k`. -/
def Trans.size (transX : Trans) (m k : ℕ) : ℕ × ℕ :=
  if transX = .noTrans then (m, k) else (k, m)

/-- The tile `(m, k)` of `op(X)`. -/
def Trans.tile (transX : Trans) (X : Operand) (m k : ℕ) (ld : ℤ) : Tile :=
  if transX = .noTrans then ⟨X, m, k, ld⟩ else ⟨X, k, m, ld⟩

@[simp] theorem Trans.tile_mat (transX : Trans) (m k : ℕ) (ld : ℤ) :
    (transX.tile X m k ld).mat = X := by
  cases transX <;> rfl

@[simp] theorem Trans.tile_ld (transX : Trans) (m k : ℕ) (ld : ℤ) :
    (transX.tile X m k ld).ld = ld := by
  cases transX <;> rfl

/-- The descriptor of `X` where `op(X)` is `M` by `K`. -/
abbrev Descr.TiledOp (d : Descr) (transX : Trans) (NB M K : ℕ) (ld : ℤ) : Prop :=
  d.Tiled NB (transX.size M K).1 (transX.size M K).2 ld

theorem Descr.TiledOp.fits {ld : ℤ} {NB M K k : ℕ} {transX : Trans}
    (h : (d X).TiledOp transX NB M K ld) (hm : m < numTiles M NB) (hk : k < numTiles K NB)
    (mode : Mode) :
    Param.Fits d ⟨transX.tile X m k ld, mode, transX.rowDim (tileSize M NB m) (tileSize K NB k),
      transX.colDim (tileSize M NB m) (tileSize K NB k)⟩ := by
  cases transX with
  | noTrans => exact Descr.Tiled.fits h hm hk mode
  | trans => exact Descr.Tiled.fits h hk hm mode
  | conjTrans => exact Descr.Tiled.fits h hk hm mode

/-- Both a square matrix and its transpose are tiled. -/
theorem Descr.Tiled.op_square {d : Descr} {ld : ℤ} {NB M : ℕ} (h : d.Tiled NB M M ld)
    (transX : Trans) : d.TiledOp transX NB M M ld := by
  cases transX <;> exact h

theorem Descr.Tiled.block_apply {ld : ℤ} {NB M N : ℕ} (h : (d X).Tiled NB M N ld) (m n i j : ℕ) :
    s.block d ⟨X, m, n, ld⟩ i j = s.get d X (m * NB + i) (n * NB + j) := by
  rw [Blas.block_apply h.ld_eq, h.mb_eq, h.nb_eq]

/-- The entries of a block of `op(X)` are those of `op(X)`. -/
theorem Descr.Tiled.op_block [Star R] {ld : ℤ} {NB M N : ℕ} (h : (d X).Tiled NB M N ld)
    (transX : Trans) (m k i l : ℕ) :
    transX.op (s.block d (transX.tile X m k ld)) i l =
      transX.op (s.get d X) (m * NB + i) (k * NB + l) := by
  cases transX with
  | noTrans => exact h.block_apply m k i l
  | trans => exact h.block_apply k m l i
  | conjTrans => exact congrArg star (h.block_apply k m l i)

/-! ## One element of a matrix -/

/-- The matrices other than `X` are those of `s₀`. -/
def OnlyChanges (X : Operand) (s₀ s : State R) : Prop :=
  ∀ Y, Y ≠ X → s Y = s₀ Y

theorem OnlyChanges.refl (X : Operand) (s : State R) : OnlyChanges X s s :=
  fun _ _ => rfl

theorem OnlyChanges.get_eq {Y : Operand} (h : OnlyChanges X s₀ s) (hY : Y ≠ X) (i j : ℕ) :
    s.get d Y i j = s₀.get d Y i j := by
  unfold State.get
  rw [h Y hY]

/-- The tasks change the element `(i, j)` of `X` by `g`, and no other matrix. -/
abbrev ActsOn (d : Operand → Descr) (s₀ : State R) (X : Operand) (i j : ℕ) (tasks : List (Task R))
    (g : R → R) : Prop :=
  Acts (Task.exec d) (OnlyChanges X s₀) (fun s => s.get d X i j) tasks g

/-- The value of an element after the tasks of a routine. -/
theorem ActsOn.run_get (h : ActsOn d s₀ X i j tasks g) :
    (run d tasks s₀).get d X i j = g (s₀.get d X i j) :=
  (h s₀ (.refl X s₀)).2

/-- The task writes the tile `(m, n)` of `X`. -/
structure Task.OnTile (d : Operand → Descr) (X : Operand) (m n : ℕ) (t : Task R) : Prop where
  stores : t.Stores d
  mat : t.out.mat = X
  row : t.out.m = m
  col : t.out.n = n

/-- The same for a task all the parameters of which are tiles. -/
structure Task.FitsTile (d : Operand → Descr) (X : Operand) (m n : ℕ) (t : Task R) : Prop extends
    t.OnTile d X m n where
  fits : t.Fits d

theorem Task.Fits.fitsTile (h : t.Fits d) (hd : ∀ X, (d X).Valid) (hX : t.out.mat = X)
    (hm : t.out.m = m) (hn : t.out.n = n) : t.FitsTile d X m n :=
  ⟨⟨h.stores hd, hX, hm, hn⟩, h⟩

/-- A task that stores the element. -/
theorem acts_of_covers (hd : ∀ X, (d X).Valid) (ht : t.OnTile d X m n) (hi : i < (d X).ld)
    (hcovers : t.Covers d i j)
    (hg : ∀ s, OnlyChanges X s₀ s →
      t.value (s.block d) (i - m * (d X).mb) (j - n * (d X).nb) = g (s.get d X i j)) :
    ActsOn d s₀ X i j [t] g := by
  intro s hs
  rw [List.foldl_cons, List.foldl_nil]
  constructor
  · intro Y hY
    rw [exec_of_ne (ht.mat.trans_ne hY.symm)]
    exact hs Y hY
  · show (t.exec d s).get d X i j = g (s.get d X i j)
    rw [exec_get hd ht.stores ht.mat hi, if_pos hcovers, ht.row, ht.col]
    exact hg s hs

/-- A task that does not store the element. -/
theorem acts_of_not_covers (hd : ∀ X, (d X).Valid) (ht : t.OnTile d X m n) (hi : i < (d X).ld)
    (hcovers : ¬ t.Covers d i j) : ActsOn d s₀ X i j [t] id := by
  intro s hs
  rw [List.foldl_cons, List.foldl_nil]
  constructor
  · intro Y hY
    rw [exec_of_ne (ht.mat.trans_ne hY.symm)]
    exact hs Y hY
  · exact (exec_get hd ht.stores ht.mat hi).trans (if_neg hcovers)

/-- A task stores the elements of its tile that its body stores. -/
theorem Task.OnTile.covers_iff (ht : t.OnTile d X m n) (hi : i < (d X).M) (hj : j < (d X).N) :
    t.Covers d i j ↔ (i / (d X).mb = m ∧ j / (d X).nb = n) ∧
      t.writes (i - m * (d X).mb) (j - n * (d X).nb) = true := by
  obtain ⟨_, rfl, rfl, rfl⟩ := ht
  unfold Task.Covers
  refine and_congr_left' ?_
  constructor
  · rintro ⟨⟨_, hrow⟩, _, hcol⟩
    exact ⟨hrow, hcol⟩
  · rintro ⟨hrow, hcol⟩
    exact ⟨⟨hi, hrow⟩, hj, hcol⟩

/-- A task on another tile. -/
theorem acts_of_other_tile (hd : ∀ X, (d X).Valid) {NB M N : ℕ} {ld : ℤ}
    (hX : (d X).Tiled NB M N ld) (ht : t.OnTile d X m n) (hi : i < M) (hj : j < N)
    (hne : ¬ (i / NB = m ∧ j / NB = n)) : ActsOn d s₀ X i j [t] id := by
  have hiM : i < (d X).M := hX.M_eq.symm ▸ hi
  refine acts_of_not_covers hd ht (hiM.trans_le hX.rows_le) ?_
  rw [ht.covers_iff hiM (hX.N_eq.symm ▸ hj), hX.mb_eq, hX.nb_eq]
  exact fun h => hne h.1

/-- Tasks on other tiles. -/
theorem acts_other_tiles (hd : ∀ X, (d X).Valid) {NB M N : ℕ} {ld : ℤ}
    (hX : (d X).Tiled NB M N ld) (hi : i < M) (hj : j < N)
    (h : ∀ t ∈ tasks, ∃ m n, t.OnTile d X m n ∧ ¬ (i / NB = m ∧ j / NB = n)) :
    ActsOn d s₀ X i j tasks id := by
  refine .of_forall_id fun t ht => ?_
  obtain ⟨m, n, ht, hne⟩ := h t ht
  exact acts_of_other_tile hd hX ht hi hj hne

/-- A task on the tile of the element. -/
theorem acts_onTile (hd : ∀ X, (d X).Valid) {NB M N : ℕ} {ld : ℤ} (hX : (d X).Tiled NB M N ld)
    (ht : t.OnTile d X (i / NB) (j / NB)) (hi : i < M) (hj : j < N)
    (hwrites : t.writes (i - i / NB * NB) (j - j / NB * NB) = true)
    (hg : ∀ s, OnlyChanges X s₀ s →
      t.value (s.block d) (i - i / NB * NB) (j - j / NB * NB) = g (s.get d X i j)) :
    ActsOn d s₀ X i j [t] g := by
  have hiM : i < (d X).M := hX.M_eq.symm ▸ hi
  refine acts_of_covers hd ht (hiM.trans_le hX.rows_le) ?_ ?_
  · rw [ht.covers_iff hiM (hX.N_eq.symm ▸ hj), hX.mb_eq, hX.nb_eq]
    exact ⟨⟨rfl, rfl⟩, hwrites⟩
  · rw [hX.mb_eq, hX.nb_eq]
    exact hg

/-- Loops over the tiles of `X`: only the tasks on the tile of the element act. -/
theorem acts_tiles (hd : ∀ X, (d X).Valid) {NB M N : ℕ} {ld : ℤ} (hX : (d X).Tiled NB M N ld)
    (hi : i < M) (hj : j < N) {body : ℕ → ℕ → List (Task R)}
    (hbody : ∀ m < numTiles M NB, ∀ n < numTiles N NB, ∀ t ∈ body m n, t.OnTile d X m n)
    (h : ActsOn d s₀ X i j (body (i / NB) (j / NB)) g) :
    ActsOn d s₀ X i j
      (forLoop 0 (numTiles M NB) fun m => forLoop 0 (numTiles N NB) fun n => body m n) g := by
  have hNB : 0 < NB := hX.mb_eq ▸ hX.mb_pos
  have hrow := div_lt_numTiles hNB hi
  have hcol := div_lt_numTiles hNB hj
  refine .forLoop_unique (Nat.zero_le _) hrow (.forLoop_unique (Nat.zero_le _) hcol h ?_) ?_
  · intro n _ hn hne
    refine acts_other_tiles hd hX hi hj fun t ht => ?_
    exact ⟨_, n, hbody _ hrow n hn t ht, fun h => hne h.2.symm⟩
  · intro m _ hm hne
    refine acts_other_tiles hd hX hi hj fun t ht => ?_
    obtain ⟨n, ⟨_, hn⟩, ht⟩ := mem_forLoop.mp ht
    exact ⟨m, n, hbody m hm n hn t ht, fun h => hne h.1.symm⟩

/-- The same with the loop over the columns outside. -/
theorem acts_tiles_columns (hd : ∀ X, (d X).Valid) {NB M N : ℕ} {ld : ℤ}
    (hX : (d X).Tiled NB M N ld) (hi : i < M) (hj : j < N) {body : ℕ → ℕ → List (Task R)}
    (hbody : ∀ m < numTiles M NB, ∀ n < numTiles N NB, ∀ t ∈ body m n, t.OnTile d X m n)
    (h : ActsOn d s₀ X i j (body (i / NB) (j / NB)) g) :
    ActsOn d s₀ X i j
      (forLoop 0 (numTiles N NB) fun n => forLoop 0 (numTiles M NB) fun m => body m n) g := by
  have hNB : 0 < NB := hX.mb_eq ▸ hX.mb_pos
  have hrow := div_lt_numTiles hNB hi
  have hcol := div_lt_numTiles hNB hj
  refine .forLoop_unique (Nat.zero_le _) hcol (.forLoop_unique (Nat.zero_le _) hrow h ?_) ?_
  · intro m _ hm hne
    refine acts_other_tiles hd hX hi hj fun t ht => ?_
    exact ⟨m, _, hbody m hm _ hcol t ht, fun h => hne h.1.symm⟩
  · intro n _ hn hne
    refine acts_other_tiles hd hX hi hj fun t ht => ?_
    obtain ⟨m, ⟨_, hm⟩, ht⟩ := mem_forLoop.mp ht
    exact ⟨m, n, hbody m hm n hn t ht, fun h => hne h.2.symm⟩

/-- The matrix `X` after tasks that change its elements where `p` holds to those of `f`. -/
theorem run_eq_of_acts (hd : ∀ X, (d X).Valid) {NB M N : ℕ} {ld : ℤ}
    (hX : (d X).Tiled NB M N ld) (htasks : ∀ t ∈ tasks, t.Stores d ∧ t.out.mat = X)
    {p : ℕ → ℕ → Bool} {f : ℕ → ℕ → R}
    (hacts : ∀ i < M, ∀ j < N, ∃ g, ActsOn d s X i j tasks g ∧
      g (s.get d X i j) = if p i j = true then f i j else s.get d X i j) :
    run d tasks s = Function.update s X (store (s X) 0 (d X).ld M N p f) := by
  have hrun : run d tasks s = Function.update s X
      (store (s X) 0 (d X).ld (d X).M (d X).N p f) := by
    refine run_eq_store hd (fun t ht => (htasks t ht).1) (fun t ht => (htasks t ht).2) ?_
    intro i hi j hj
    obtain ⟨g, hg, hf⟩ := hacts i (hX.M_eq ▸ hi) j (hX.N_eq ▸ hj)
    rw [hg.run_get, hf]
  rwa [hX.M_eq, hX.N_eq] at hrun

/-! ## Products of tiles -/

theorem OnlyChanges.get_funext {Y : Operand} (h : OnlyChanges X s₀ s) (hY : Y ≠ X) :
    s.get d Y = s₀.get d Y := by
  funext i j
  exact h.get_eq hY i j

theorem OnlyChanges.block_eq {p : Tile} (h : OnlyChanges X s₀ s) (hp : p.mat ≠ X) :
    s.block d p = s₀.block d p := by
  unfold State.block
  rw [h p.mat hp]

/-- An index from its tile. -/
theorem tile_add_sub (i b : ℕ) : i / b * b + (i - i / b * b) = i :=
  Nat.add_sub_cancel' (Nat.div_mul_le_self i b)

/-- The products over the tiles of the inner dimension. -/
theorem sum_mul_tiles [CommRing R] {NB K : ℕ} (hNB : 0 < NB) (alpha : R) (f : ℕ → R) :
    ∑ k ∈ range (numTiles K NB), alpha * ∑ l ∈ range (tileSize K NB k), f (k * NB + l) =
      alpha * ∑ l ∈ range K, f l := by
  rw [← mul_sum, sum_tiles hNB f]

section Ring

variable [CommRing R] [StarRing R] [DecidableEq R] {Y Z : Operand} {NB M N K k : ℕ}
  {ldx ldy ldz : ℤ} {transX transY : Trans} {alpha beta : R}

/-- The task on the tile `(m, n)` of `Z` that adds the product of the tile `(m, k)` of `op(X)`
and the tile `(k, n)` of `op(Y)`. -/
abbrev gemmTask (transX transY : Trans) (NB M N K : ℕ) (alpha : R) (X : Operand) (ldx : ℤ)
    (Y : Operand) (ldy : ℤ) (beta : R) (Z : Operand) (ldz : ℤ) (m n k : ℕ) : Task R :=
  insertTaskZgemm transX transY (tileSize M NB m) (tileSize N NB n) (tileSize K NB k) alpha
    (transX.tile X m k ldx) (transY.tile Y k n ldy) beta ⟨Z, m, n, ldz⟩

theorem gemmTask_fitsTile (hd : ∀ X, (d X).Valid) (hX : (d X).TiledOp transX NB M K ldx)
    (hY : (d Y).TiledOp transY NB K N ldy) (hZ : (d Z).Tiled NB M N ldz) (hm : m < numTiles M NB)
    (hn : n < numTiles N NB) (hk : k < numTiles K NB) :
    (gemmTask transX transY NB M N K alpha X ldx Y ldy beta Z ldz m n k).FitsTile d Z m n := by
  refine Task.Fits.fitsTile ?_ hd rfl rfl rfl
  intro p hp
  simp only [Task.params, insertTaskZgemm, List.cons_append, List.nil_append, List.mem_cons,
    List.not_mem_nil, or_false] at hp
  rcases hp with rfl | rfl | rfl
  · exact hX.fits hm hk .r
  · exact hY.fits hk hn .r
  · exact hZ.fits hm hn _

/-- The task when the tile of `op(X)` is taken with any leading dimension that the kernel
accepts. -/
theorem gemmTask_onTile (hd : ∀ X, (d X).Valid)
    (hX : Param.LdOk ⟨transX.tile X m k ldx, .r, transX.rowDim (tileSize M NB m) (tileSize K NB k),
      transX.colDim (tileSize M NB m) (tileSize K NB k)⟩)
    (hY : (d Y).TiledOp transY NB K N ldy) (hZ : (d Z).Tiled NB M N ldz) (hm : m < numTiles M NB)
    (hn : n < numTiles N NB) (hk : k < numTiles K NB) :
    (gemmTask transX transY NB M N K alpha X ldx Y ldy beta Z ldz m n k).OnTile d Z m n := by
  refine ⟨⟨?_, hZ.fits hm hn _⟩, rfl, rfl, rfl⟩
  intro p hp
  simp only [Task.params, insertTaskZgemm, List.cons_append, List.nil_append, List.mem_cons,
    List.not_mem_nil, or_false] at hp
  rcases hp with rfl | rfl | rfl
  · exact hX
  · exact (hY.fits hk hn .r).ldOk (hd _)
  · exact (hZ.fits hm hn _).ldOk (hd _)

/-- The task on the tile of the element adds the products of its tiles. -/
theorem acts_gemmTask_strided (hd : ∀ X, (d X).Valid)
    (hX : Param.LdOk ⟨transX.tile X (i / NB) k ldx, .r,
      transX.rowDim (tileSize M NB (i / NB)) (tileSize K NB k),
      transX.colDim (tileSize M NB (i / NB)) (tileSize K NB k)⟩)
    (hY : (d Y).TiledOp transY NB K N ldy) (hZ : (d Z).Tiled NB M N ldz) (hXZ : X ≠ Z)
    (hYZ : Y ≠ Z) (hi : i < M) (hj : j < N) (hk : k < numTiles K NB) :
    ActsOn d s₀ Z i j
      [gemmTask transX transY NB M N K alpha X ldx Y ldy beta Z ldz (i / NB) (j / NB) k] fun x =>
        alpha * ∑ l ∈ range (tileSize K NB k),
          transX.op (s₀.block d (transX.tile X (i / NB) k ldx)) (i - i / NB * NB) l *
            transY.op (s₀.get d Y) (k * NB + l) j + beta * x := by
  have hNB : 0 < NB := hZ.mb_eq ▸ hZ.mb_pos
  refine acts_onTile hd hZ (gemmTask_onTile hd hX hY hZ (div_lt_numTiles hNB hi)
    (div_lt_numTiles hNB hj) hk) hi hj rfl fun s hs => ?_
  show gemm transX transY _ alpha _ _ beta _ _ _ = _
  unfold gemm
  rw [hZ.block_apply, tile_add_sub, tile_add_sub,
    hs.block_eq (show (transX.tile X (i / NB) k ldx).mat ≠ Z by rwa [Trans.tile_mat])]
  simp only [Descr.Tiled.op_block hY, tile_add_sub, hs.get_funext hYZ]

theorem acts_gemmTask (hd : ∀ X, (d X).Valid) (hX : (d X).TiledOp transX NB M K ldx)
    (hY : (d Y).TiledOp transY NB K N ldy) (hZ : (d Z).Tiled NB M N ldz) (hXZ : X ≠ Z)
    (hYZ : Y ≠ Z) (hi : i < M) (hj : j < N) (hk : k < numTiles K NB) :
    ActsOn d s₀ Z i j
      [gemmTask transX transY NB M N K alpha X ldx Y ldy beta Z ldz (i / NB) (j / NB) k] fun x =>
        alpha * ∑ l ∈ range (tileSize K NB k), transX.op (s₀.get d X) i (k * NB + l) *
          transY.op (s₀.get d Y) (k * NB + l) j + beta * x := by
  have hNB : 0 < NB := hZ.mb_eq ▸ hZ.mb_pos
  have hldX := (hX.fits (div_lt_numTiles hNB hi) hk .r).ldOk (hd _)
  refine (acts_gemmTask_strided hd hldX hY hZ hXZ hYZ hi hj hk).congr fun x => ?_
  simp only [Descr.Tiled.op_block hX, tile_add_sub]

/-- The loop over the inner dimension computes an element of the product. -/
theorem acts_gemmLoop (hd : ∀ X, (d X).Valid) (hX : (d X).TiledOp transX NB M K ldx)
    (hY : (d Y).TiledOp transY NB K N ldy) (hZ : (d Z).Tiled NB M N ldz) (hXZ : X ≠ Z)
    (hYZ : Y ≠ Z) (hi : i < M) (hj : j < N) (hK : 0 < K) :
    ActsOn d s₀ Z i j
      (forLoop 0 (numTiles K NB) fun k =>
        [gemmTask transX transY NB M N K alpha X ldx Y ldy (if k = 0 then beta else 1) Z ldz (i / NB)
          (j / NB) k])
      fun x => alpha * ∑ l ∈ range K, transX.op (s₀.get d X) i l * transY.op (s₀.get d Y) l j +
        beta * x := by
  have hNB : 0 < NB := hZ.mb_eq ▸ hZ.mb_pos
  refine (Acts.forLoop_accumulate (numTiles_pos hNB hK) fun k hk =>
    acts_gemmTask hd hX hY hZ hXZ hYZ hi hj hk).congr fun x => ?_
  rw [sum_mul_tiles hNB alpha fun l =>
    transX.op (s₀.get d X) i l * transY.op (s₀.get d Y) l j]

end Ring

end Xkblas.Blas
