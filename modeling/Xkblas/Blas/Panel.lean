import Xkblas.Blas.Triangle
import Xkblas.Library.BlockTriangular

/-!
# A triangular matrix on one side of another

`xkblas_ztrmm_async` and `xkblas_ztrsm_async` overwrite `B`, on the left or on the right of which
there is a triangular matrix. The lines of `B` (its columns if the matrix is on the left, its rows
if it is on the right) are changed independently of each other: `ActsOnLine` says what a list of
tasks does to one of them. The tasks on the tiles of a line are steps of a substitution or of a
product by blocks.
-/

namespace Xkblas.Blas

open Library Finset

/-! ## Lines -/

/-- The operation that makes the lines of `B` columns. -/
def Side.lines : Side → Trans
  | .left => .noTrans
  | .right => .trans

/-- `NA`, the order of the triangular matrix. -/
def Side.order (side : Side) (N NRHS : ℕ) : ℕ :=
  if side = .left then N else NRHS

variable {R : Type*} [CommRing R] [StarRing R] {d : Operand → Descr} {s s₀ : State R} {t : Task R}
  {tasks : List (Task R)} {side : Side} {uplo : Uplo} {transA : Trans} {diag : Diag}
  {NB L Q i c p q : ℕ} {LDA LDB : ℤ} {f : (ℕ → R) → ℕ → R} {g : (ℕ → R) → ℕ → R}

/-- The line `c` of `B`, of length `L`. -/
def State.line (s : State R) (d : Operand → Descr) (side : Side) (L c : ℕ) : ℕ → R := fun i =>
  if i < L then side.lines.op (s.get d .B) i c else 0

theorem State.line_of_lt (hi : i < L) :
    s.line d side L c i = side.lines.op (s.get d .B) i c :=
  if_pos hi

theorem State.line_of_not_lt (hi : ¬ i < L) : s.line d side L c i = 0 :=
  if_neg hi

/-- The tile `p` of the line, in the tile `q` of lines. -/
def Side.tile (side : Side) (p q : ℕ) (LDB : ℤ) : Tile :=
  side.lines.tile .B p q LDB

/-- The tasks change the line `c` of `B` by `g`, and no other matrix. -/
abbrev ActsOnLine (d : Operand → Descr) (s₀ : State R) (side : Side) (L c : ℕ)
    (tasks : List (Task R)) (g : (ℕ → R) → ℕ → R) : Prop :=
  Acts (Task.exec d) (OnlyChanges .B s₀) (fun s => s.line d side L c) tasks g

/-- The entries of a tile of `B` are those of a line. -/
theorem line_block (hB : (d .B).TiledOp side.lines NB L Q LDB) {x y : ℕ} (hx : p * NB + x < L) :
    side.lines.op (s.block d (side.tile p q LDB)) x y =
      s.line d side L (q * NB + y) (p * NB + x) := by
  rw [State.line_of_lt hx]
  exact Descr.Tiled.op_block hB side.lines p q x y

/-- What a task on a tile of `B` does to an entry of a line. -/
theorem exec_line (hd : ∀ X, (d X).Valid) (hB : (d .B).TiledOp side.lines NB L Q LDB)
    (ht : t.OnTile d .B (side.tile p q LDB).m (side.tile p q LDB).n)
    (hwrites : ∀ x y, t.writes x y = true) (hi : i < L) (hc : c < Q) :
    (t.exec d s).line d side L c i =
      if i / NB = p ∧ c / NB = q then
        side.lines.op (t.value (s.block d)) (i - p * NB) (c - q * NB)
      else s.line d side L c i := by
  rw [State.line_of_lt hi, State.line_of_lt hi]
  cases side with
  | left =>
      have hM : i < (d .B).M := hB.M_eq.symm ▸ hi
      have hN : c < (d .B).N := hB.N_eq.symm ▸ hc
      show (t.exec d s).get d .B i c = _
      rw [exec_get hd ht.stores ht.mat (hM.trans_le hB.rows_le)]
      simp only [ht.covers_iff hM hN, ht.row, ht.col, hB.mb_eq, hB.nb_eq, hwrites, and_true]
      rfl
  | right =>
      have hM : c < (d .B).M := hB.M_eq.symm ▸ hc
      have hN : i < (d .B).N := hB.N_eq.symm ▸ hi
      show (t.exec d s).get d .B c i = _
      rw [exec_get hd ht.stores ht.mat (hM.trans_le hB.rows_le)]
      simp only [ht.covers_iff hM hN, ht.row, ht.col, hB.mb_eq, hB.nb_eq, hwrites, and_true]
      exact if_congr and_comm rfl rfl

/-- A task on a tile of the line. -/
theorem acts_line (hd : ∀ X, (d X).Valid) (hB : (d .B).TiledOp side.lines NB L Q LDB)
    (ht : t.OnTile d .B (side.tile p (c / NB) LDB).m (side.tile p (c / NB) LDB).n)
    (hwrites : ∀ x y, t.writes x y = true) (hc : c < Q)
    (hvalue : ∀ s, OnlyChanges .B s₀ s → ∀ i ∈ Library.tile L NB p,
      side.lines.op (t.value (s.block d)) (i - p * NB) (c - c / NB * NB) =
        f (s.line d side L c) i) :
    ActsOnLine d s₀ side L c [t] fun v i => if i ∈ Library.tile L NB p then f v i else v i := by
  intro s hs
  rw [List.foldl_cons, List.foldl_nil]
  constructor
  · intro Y hY
    rw [exec_of_ne (ht.mat.trans_ne hY.symm)]
    exact hs Y hY
  · funext i
    show (t.exec d s).line d side L c i =
      if i ∈ Library.tile L NB p then f (s.line d side L c) i else s.line d side L c i
    by_cases hi : i < L
    · rw [exec_line hd hB ht hwrites hi hc]
      simp only [and_true, mem_tile_iff, hi, true_and]
      split
      next hp => exact hvalue s hs i (mem_tile_iff.mpr ⟨hi, hp⟩)
      next => rfl
    · rw [if_neg fun h => hi (mem_tile_iff.mp h).1, State.line_of_not_lt hi,
        State.line_of_not_lt hi]

/-- A task on another line. -/
theorem acts_other_line (hd : ∀ X, (d X).Valid) (hB : (d .B).TiledOp side.lines NB L Q LDB)
    (ht : t.OnTile d .B (side.tile p q LDB).m (side.tile p q LDB).n)
    (hwrites : ∀ x y, t.writes x y = true) (hc : c < Q) (hq : c / NB ≠ q) :
    ActsOnLine d s₀ side L c [t] id := by
  intro s hs
  rw [List.foldl_cons, List.foldl_nil]
  constructor
  · intro Y hY
    rw [exec_of_ne (ht.mat.trans_ne hY.symm)]
    exact hs Y hY
  · funext i
    show (t.exec d s).line d side L c i = s.line d side L c i
    by_cases hi : i < L
    · rw [exec_line hd hB ht hwrites hi hc, if_neg fun h => hq h.2]
    · rw [State.line_of_not_lt hi, State.line_of_not_lt hi]

/-- The value of a line after the tasks of a routine. -/
theorem ActsOnLine.run_line (h : ActsOnLine d s side L c tasks g) :
    (run d tasks s).line d side L c = g (s.line d side L c) :=
  (h s (.refl .B s)).2

/-- The matrix `B` after tasks that give its lines. -/
theorem run_eq_of_lines (hd : ∀ X, (d X).Valid) (hB : (d .B).TiledOp side.lines NB L Q LDB)
    (htasks : ∀ t ∈ tasks, t.Stores d ∧ t.out.mat = .B) {b : Block R}
    (hlines : ∀ c < Q, ∃ g, ActsOnLine d s side L c tasks g ∧
      ∀ i < L, g (s.line d side L c) i = side.lines.op b i c) :
    run d tasks s = Function.update s .B
      (store (s .B) 0 (d .B).ld (d .B).M (d .B).N (fun _ _ => true) b) := by
  have hline : ∀ i < L, ∀ c < Q, side.lines.op ((run d tasks s).get d .B) i c =
      side.lines.op b i c := by
    intro i hi c hc
    obtain ⟨g, hg, hb⟩ := hlines c hc
    rw [← State.line_of_lt hi, hg.run_line, hb i hi]
  refine run_eq_store hd (fun t ht => (htasks t ht).1) (fun t ht => (htasks t ht).2) ?_
  intro i hi j hj
  rw [hB.M_eq] at hi
  rw [hB.N_eq] at hj
  cases side with
  | left => exact hline i hi j hj
  | right => exact hline j hj i hi

/-! ## The triangular matrix -/

/-- The triangle of the transpose. -/
def Uplo.flip : Uplo → Uplo
  | .upper => .lower
  | .lower => .upper

@[simp] theorem Uplo.stores_flip (uplo : Uplo) (i j : ℕ) :
    uplo.flip.stores i j = uplo.stores j i := by
  cases uplo <;> rfl

/-- The triangular matrix as it is applied to a line. -/
def Side.matrix (side : Side) (uplo : Uplo) (transA : Trans) (diag : Diag) (a : Block R) :
    Block R :=
  side.lines.op (transA.op (triangular uplo diag a))

/-- The triangle in which this matrix lies. -/
def Side.triangle (side : Side) (uplo : Uplo) (transA : Trans) : Uplo :=
  if side = .left ↔ transA = .noTrans then uplo else uplo.flip

/-- The tile `(p, k)` of this matrix. -/
def Side.tileA (side : Side) (transA : Trans) (p k : ℕ) (LDA : ℤ) : Tile :=
  match side with
  | .left => transA.tile .A p k LDA
  | .right => transA.tile .A k p LDA

/-- The kernel of `trmm` in the coordinates of the lines. -/
theorem op_trmm (m n : ℕ) (alpha : R) (a b : Block R) (x y : ℕ) :
    side.lines.op (trmm side uplo transA diag m n alpha a b) x y =
      alpha * ∑ l ∈ range (side.order m n),
        side.matrix uplo transA diag a x l * side.lines.op b l y := by
  cases side with
  | left => rfl
  | right => exact congrArg (alpha * ·) (sum_congr rfl fun l _ => mul_comm _ _)

omit [StarRing R] in
theorem triangular_congr {a a' : Block R} {i j : ℕ}
    (h : uplo.stores i j = true → a i j = a' i j) :
    triangular uplo diag a i j = triangular uplo diag a' i j := by
  unfold triangular
  refine ite_congr rfl (fun hij => ?_) fun _ => ite_congr rfl h fun _ => rfl
  subst hij
  rw [h (uplo.stores_self i)]

/-- The matrix is read from the triangle `uplo`. -/
theorem matrix_congr {a a' : Block R} {L : ℕ}
    (h : ∀ i < L, ∀ j < L, uplo.stores i j = true → a i j = a' i j) {i l : ℕ} (hi : i < L)
    (hl : l < L) : side.matrix uplo transA diag a i l = side.matrix uplo transA diag a' i l := by
  have hil : triangular uplo diag a i l = triangular uplo diag a' i l :=
    triangular_congr (h i hi l hl)
  have hli : triangular uplo diag a l i = triangular uplo diag a' l i :=
    triangular_congr (h l hl i hi)
  cases side <;> cases transA <;> simp [Side.matrix, Side.lines, Trans.op, hil, hli]

/-- The diagonal of the matrix is invertible when that of the triangle is. -/
theorem matrix_diag_ne_zero {a : Block R} {i : ℕ} (h : triangular uplo diag a i i ≠ 0) :
    side.matrix uplo transA diag a i i ≠ 0 := by
  cases side <;> cases transA <;> simpa [Side.matrix, Side.lines, Trans.op] using h

omit [StarRing R] in
/-- The triangular matrix of a block of the diagonal. -/
theorem triangular_shift (uplo : Uplo) (diag : Diag) (a : Block R) (o i j : ℕ) :
    triangular uplo diag (fun x y => a (o + x) (o + y)) i j =
      triangular uplo diag a (o + i) (o + j) := by
  unfold triangular
  simp only [Uplo.stores_add, Nat.add_left_cancel_iff]

theorem matrix_shift (a : Block R) (o i j : ℕ) :
    side.matrix uplo transA diag (fun x y => a (o + x) (o + y)) i j =
      side.matrix uplo transA diag a (o + i) (o + j) := by
  cases side with
  | left => cases transA <;> simp [Side.matrix, Side.lines, Trans.op, triangular_shift]
  | right => cases transA <;> simp [Side.matrix, Side.lines, Trans.op, triangular_shift]

/-- The matrix vanishes outside of its triangle. -/
theorem matrix_eq_zero (a : Block R) {i l : ℕ}
    (h : (side.triangle uplo transA).stores i l = false) :
    side.matrix uplo transA diag a i l = 0 := by
  cases side <;> cases transA <;> cases uplo
  all_goals
    simp [Side.triangle, Uplo.flip, Uplo.stores] at h
    simp [Side.matrix, Side.lines, Trans.op, triangular, Uplo.stores, h.ne, h.ne', h]

/-- Beside the diagonal the triangle of the matrix is that of `op(A)`. -/
theorem matrix_of_ne (a : Block R) {i l : ℕ} (hne : i ≠ l)
    (h : (side.triangle uplo transA).stores i l = true) :
    side.matrix uplo transA diag a i l = side.lines.op (transA.op a) i l := by
  cases side <;> cases transA <;> cases uplo
  all_goals
    simp [Side.triangle, Uplo.flip, Uplo.stores] at h
    simp [Side.matrix, Side.lines, Trans.op, triangular, Uplo.stores, hne, hne.symm, h]

/-- Its tiles are tiles of the triangle `uplo` of `A`. -/
theorem tileA_stored {p k : ℕ} (h : (side.triangle uplo transA).stores p k = true) :
    uplo.stores (side.tileA transA p k LDA).m (side.tileA transA p k LDA).n = true := by
  cases side <;> cases transA <;> cases uplo
  all_goals
    simpa [Side.triangle, Uplo.flip, Uplo.stores, Side.tileA, Trans.tile] using h

/-! ## The tasks -/

/-- The operands of a routine with a triangular matrix on one side. -/
structure PanelTiled (d : Operand → Descr) (side : Side) (NB L Q : ℕ) (LDA LDB : ℤ) : Prop where
  valid : ∀ X, (d X).Valid
  A : (d .A).Tiled NB L L LDA
  B : (d .B).TiledOp side.lines NB L Q LDB

theorem PanelTiled.pos (h : PanelTiled d side NB L Q LDA LDB) : 0 < NB :=
  h.A.mb_eq ▸ h.A.mb_pos

section Gemm

variable [DecidableEq R] {mu lam : R} {k : ℕ}

/-- The gemm task on the tile `p` of the lines, with the tile `k` of the lines. -/
def lineGemm (side : Side) (transA : Trans) (NB L Q : ℕ) (mu : R) (LDA LDB : ℤ) (lam : R)
    (p q k : ℕ) : Task R :=
  match side with
  | .left => gemmTask transA .noTrans NB L Q L mu .A LDA .B LDB lam .B LDB p q k
  | .right => gemmTask .noTrans transA NB Q L L mu .B LDB .A LDA lam .B LDB q p k

theorem lineGemm_fitsTile (h : PanelTiled d side NB L Q LDA LDB) (hp : p < numTiles L NB)
    (hq : q < numTiles Q NB) (hk : k < numTiles L NB) :
    (lineGemm side transA NB L Q mu LDA LDB lam p q k).FitsTile d .B (side.tile p q LDB).m
      (side.tile p q LDB).n := by
  cases side with
  | left => exact gemmTask_fitsTile h.valid (h.A.op_square transA) h.B h.B hp hq hk
  | right => exact gemmTask_fitsTile h.valid h.B (h.A.op_square transA) h.B hq hp hk

theorem lineGemm_value (block : Tile → Block R) (x y : ℕ) :
    side.lines.op ((lineGemm side transA NB L Q mu LDA LDB lam p q k).value block) x y =
      mu * ∑ l ∈ range (tileSize L NB k),
        side.lines.op (transA.op (block (side.tileA transA p k LDA))) x l *
          side.lines.op (block (side.tile k q LDB)) l y +
        lam * side.lines.op (block (side.tile p q LDB)) x y := by
  cases side with
  | left => rfl
  | right =>
      refine congrArg (mu * · + _) (sum_congr rfl fun l _ => ?_)
      exact mul_comm _ _

omit [DecidableEq R] in
/-- The entries of a tile of the matrix. -/
theorem block_tileA (h : PanelTiled d side NB L Q LDA LDB) (x l : ℕ) :
    side.lines.op (transA.op (s.block d (side.tileA transA p k LDA))) x l =
      side.lines.op (transA.op (s.get d .A)) (p * NB + x) (k * NB + l) := by
  cases side with
  | left => exact Descr.Tiled.op_block h.A transA p k x l
  | right => exact Descr.Tiled.op_block h.A transA k p l x

/-- An update of the block `p` of a line. -/
theorem acts_lineGemm (h : PanelTiled d side NB L Q LDA LDB) (diag : Diag) (hp : p < numTiles L NB)
    (hk : k < numTiles L NB) (hc : c < Q) (hne : p ≠ k)
    (hstores : (side.triangle uplo transA).stores p k = true) :
    ActsOnLine d s₀ side L c [lineGemm side transA NB L Q mu LDA LDB lam p (c / NB) k]
      (blockUpdate (side.matrix uplo transA diag (s₀.get d .A)) (Library.tile L NB k)
        (Library.tile L NB p) mu lam) := by
  have hNB := h.pos
  refine acts_line h.valid h.B (lineGemm_fitsTile h hp (div_lt_numTiles hNB hc) hk).toOnTile
    (fun x y => by cases side <;> rfl) hc fun s hs i hi => ?_
  obtain ⟨hiL, rfl⟩ := mem_tile_iff.mp hi
  have hi' : i / NB * NB + (i - i / NB * NB) = i := tile_add_sub i NB
  rw [lineGemm_value, line_block h.B (by omega), hi', tile_add_sub]
  congr 2
  unfold blockRow
  rw [sum_tile hNB hk]
  refine sum_congr rfl fun l hl => ?_
  have hlL : k * NB + l < L := by
    have := tile_le hNB hk
    have := mem_range.mp hl
    omega
  have hkl : k * NB + l ∈ Library.tile L NB k :=
    mem_tile_iff.mpr ((mem_tile hNB hk).mp ⟨by omega, by have := mem_range.mp hl; omega⟩)
  have hstores' : (side.triangle uplo transA).stores i (k * NB + l) = true := by
    rwa [Uplo.stores_of_tile_ne _ rfl (mem_tile_iff.mp hkl).2 hne]
  have hne' : i ≠ k * NB + l := by
    intro heq
    rw [← heq] at hkl
    exact hne (mem_tile_iff.mp hkl).2
  rw [block_tileA h, hi', line_block h.B hlL, tile_add_sub, matrix_of_ne _ hne' hstores',
    hs.get_funext (show Operand.A ≠ .B by decide)]

end Gemm

/-! ## Sweeps -/

/-- The tile of the stage `k` of a sweep over `K` tiles. -/
def sweep (down : Bool) (K k : ℕ) : ℕ :=
  if down = true then K - 1 - k else k

variable {down : Bool} {K : ℕ}

theorem sweep_lt {k : ℕ} (hk : k < K) : sweep down K k < K := by
  unfold sweep
  split <;> omega

theorem sweep_sweep {k : ℕ} (hk : k < K) : sweep down K (sweep down K k) = k := by
  cases down with
  | false => rfl
  | true =>
      show K - 1 - (K - 1 - k) = k
      omega

theorem sweep_inj {a b : ℕ} (ha : a < K) (hb : b < K) (h : sweep down K a = sweep down K b) :
    a = b := by
  rw [← sweep_sweep ha, h, sweep_sweep hb]

/-- A sweep that goes down in an upper triangle and up in a lower one: the tiles of a later and of
an earlier stage are in the triangle in this order only. -/
theorem sweep_stores (tri : Uplo) {a b : ℕ} (hab : a < b) (hb : b < K) :
    tri.stores (sweep (tri = .upper) K b) (sweep (tri = .upper) K a) = true ∧
      tri.stores (sweep (tri = .upper) K a) (sweep (tri = .upper) K b) = false := by
  cases tri with
  | upper =>
      simp [sweep, Uplo.stores]
      omega
  | lower =>
      simp [sweep, Uplo.stores]
      omega

/-- The blocks of a line, in the order of the sweep. -/
def sweepTile (down : Bool) (L NB k : ℕ) : Finset ℕ :=
  Library.tile L NB (sweep down (numTiles L NB) k)

theorem disjoint_sweepTile : DisjointBlocks (sweepTile down L NB) (numTiles L NB) := by
  intro a ha b hb i hia hib
  exact sweep_inj ha hb ((mem_tile_iff.mp hia).2.symm.trans (mem_tile_iff.mp hib).2)

/-- The stage of an entry. -/
theorem exists_mem_sweepTile (down : Bool) (hNB : 0 < NB) (hi : i < L) :
    ∃ a < numTiles L NB, i ∈ sweepTile down L NB a := by
  have hlt := div_lt_numTiles hNB hi
  exact ⟨sweep down _ (i / NB), sweep_lt hlt, mem_tile_iff.mpr ⟨hi, (sweep_sweep hlt).symm⟩⟩

omit [StarRing R] in
/-- The sum over the blocks is the sum over the line. -/
theorem sum_sweepTile (hNB : 0 < NB) (f : ℕ → R) :
    ∑ k ∈ range (numTiles L NB), ∑ l ∈ sweepTile down L NB k, f l = ∑ l ∈ range L, f l := by
  have hup : ∑ k ∈ range (numTiles L NB), ∑ l ∈ Library.tile L NB k, f l = ∑ l ∈ range L, f l := by
    rw [← sum_tiles hNB f]
    exact sum_congr rfl fun k hk => sum_tile hNB (mem_range.mp hk) f
  cases down with
  | false => exact hup
  | true =>
      rw [← hup]
      exact sum_range_reflect (fun k => ∑ l ∈ Library.tile L NB k, f l) _

/-- The matrix vanishes on the tiles of two stages that are not in its triangle. -/
theorem matrix_stage_eq_zero (a : Block R) {b m l : ℕ} (hb : b < numTiles L NB)
    (hm : m < numTiles L NB) (hbm : b ≠ m) (hi : i ∈ sweepTile down L NB b)
    (hl : l ∈ sweepTile down L NB m)
    (h : (side.triangle uplo transA).stores (sweep down (numTiles L NB) b)
      (sweep down (numTiles L NB) m) = false) :
    side.matrix uplo transA diag a i l = 0 := by
  refine matrix_eq_zero a ?_
  rw [Uplo.stores_of_tile_ne _ (mem_tile_iff.mp hi).2 (mem_tile_iff.mp hl).2
    fun heq => hbm (sweep_inj hb hm heq)]
  exact h

/-! ## Loops -/

/-- The order of the loops over the tiles of a stage: by tiles of a line, by lines after the first
task of all the lines, or by lines. -/
inductive StageOrder where
  | tiles
  | firstThenLines
  | lines
  deriving DecidableEq, Repr

section Loops

variable {τ : Type*} {order : StageOrder} {Qt : ℕ} {rest : ℕ → List ℕ} {first : ℕ → ℕ → List τ}
  {next : ℕ → ℕ → ℕ → List τ}

/-- A stage: the first tasks of the lines, and for each line the tasks `rest`. -/
def stageLoops (order : StageOrder) (Qt : ℕ) (rest : List ℕ) (first : ℕ → List τ)
    (next : ℕ → ℕ → List τ) : List τ :=
  match order with
  | .tiles =>
      (forLoop 0 Qt fun q => first q) ++ rest.flatMap fun m => forLoop 0 Qt fun q => next m q
  | .firstThenLines =>
      (forLoop 0 Qt fun q => first q) ++ forLoop 0 Qt fun q => rest.flatMap fun m => next m q
  | .lines => forLoop 0 Qt fun q => first q ++ rest.flatMap fun m => next m q

/-- The stages of a sweep. -/
def sweepLoops (order : StageOrder) (K Qt : ℕ) (rest : ℕ → List ℕ) (first : ℕ → ℕ → List τ)
    (next : ℕ → ℕ → ℕ → List τ) : List τ :=
  forLoop 0 K fun k => stageLoops order Qt (rest k) (first k) (next k)

/-- The tasks of a stage. -/
theorem mem_stageLoops {rest : List ℕ} {first : ℕ → List τ} {next : ℕ → ℕ → List τ} {t : τ} :
    t ∈ stageLoops order Qt rest first next ↔
      ∃ q < Qt, t ∈ first q ∨ ∃ m ∈ rest, t ∈ next m q := by
  cases order with
  | tiles =>
      simp only [stageLoops, List.mem_append, mem_forLoop, List.mem_flatMap]
      constructor
      · rintro (⟨q, ⟨_, hq⟩, ht⟩ | ⟨m, hm, q, ⟨_, hq⟩, ht⟩)
        · exact ⟨q, hq, .inl ht⟩
        · exact ⟨q, hq, .inr ⟨m, hm, ht⟩⟩
      · rintro ⟨q, hq, ht | ⟨m, hm, ht⟩⟩
        · exact .inl ⟨q, ⟨Nat.zero_le q, hq⟩, ht⟩
        · exact .inr ⟨m, hm, q, ⟨Nat.zero_le q, hq⟩, ht⟩
  | firstThenLines =>
      simp only [stageLoops, List.mem_append, mem_forLoop, List.mem_flatMap]
      constructor
      · rintro (⟨q, ⟨_, hq⟩, ht⟩ | ⟨q, ⟨_, hq⟩, m, hm, ht⟩)
        · exact ⟨q, hq, .inl ht⟩
        · exact ⟨q, hq, .inr ⟨m, hm, ht⟩⟩
      · rintro ⟨q, hq, ht | ⟨m, hm, ht⟩⟩
        · exact .inl ⟨q, ⟨Nat.zero_le q, hq⟩, ht⟩
        · exact .inr ⟨q, ⟨Nat.zero_le q, hq⟩, m, hm, ht⟩
  | lines =>
      simp only [stageLoops, List.mem_append, mem_forLoop, List.mem_flatMap]
      constructor
      · rintro ⟨q, ⟨_, hq⟩, ht⟩
        exact ⟨q, hq, ht⟩
      · rintro ⟨q, hq, ht⟩
        exact ⟨q, ⟨Nat.zero_le q, hq⟩, ht⟩

variable {σ ω : Type*} {exec : σ → τ → σ} {inv : σ → Prop} {obs : σ → ω} {q₀ : ℕ}

/-- What a stage does to a line of the tile `q₀` of lines. -/
theorem acts_stageLoops {rest : List ℕ} {first : ℕ → List τ} {next : ℕ → ℕ → List τ} {g : ω → ω}
    {h : ω → ℕ → ω} (hq : q₀ < Qt) (hfirst : Acts exec inv obs (first q₀) g)
    (hnext : ∀ m ∈ rest, Acts exec inv obs (next m q₀) fun v => h v m)
    (hfirst_other : ∀ q < Qt, q ≠ q₀ → Acts exec inv obs (first q) id)
    (hnext_other : ∀ m ∈ rest, ∀ q < Qt, q ≠ q₀ → Acts exec inv obs (next m q) id) :
    Acts exec inv obs (stageLoops order Qt rest first next) fun v => rest.foldl h (g v) := by
  have hrest : Acts exec inv obs (rest.flatMap fun m => next m q₀) fun v => rest.foldl h v :=
    .flatMap hnext
  have hrest_other : ∀ q < Qt, q ≠ q₀ → Acts exec inv obs (rest.flatMap fun m => next m q) id :=
    fun q hq' hne => (Acts.flatMap fun m hm => hnext_other m hm q hq' hne).congr
      (foldl_eq_self fun _ _ _ => rfl)
  have hfirsts : Acts exec inv obs (forLoop 0 Qt fun q => first q) g :=
    .forLoop_unique (Nat.zero_le _) hq hfirst fun q _ hq' hne => hfirst_other q hq' hne
  cases order with
  | tiles =>
      refine hfirsts.append (.flatMap fun m hm => ?_)
      exact .forLoop_unique (Nat.zero_le _) hq (hnext m hm)
        fun q _ hq' hne => hnext_other m hm q hq' hne
  | firstThenLines =>
      exact hfirsts.append (.forLoop_unique (Nat.zero_le _) hq hrest
        fun q _ hq' hne => hrest_other q hq' hne)
  | lines =>
      refine .forLoop_unique (Nat.zero_le _) hq (hfirst.append hrest) fun q _ hq' hne => ?_
      exact (hfirst_other q hq' hne).append (hrest_other q hq' hne)

/-- What the stages of a sweep do to a line. -/
theorem acts_sweepLoops {g : ℕ → ω → ω} {h : ℕ → ω → ℕ → ω} (hq : q₀ < Qt)
    (hfirst : ∀ k < K, Acts exec inv obs (first k q₀) (g k))
    (hnext : ∀ k < K, ∀ m ∈ rest k, Acts exec inv obs (next k m q₀) fun v => h k v m)
    (hfirst_other : ∀ k < K, ∀ q < Qt, q ≠ q₀ → Acts exec inv obs (first k q) id)
    (hnext_other : ∀ k < K, ∀ m ∈ rest k, ∀ q < Qt, q ≠ q₀ →
      Acts exec inv obs (next k m q) id) :
    Acts exec inv obs (sweepLoops order K Qt rest first next) fun v =>
      (List.range K).foldl (fun v k => (rest k).foldl (h k) (g k v)) v := by
  refine (Acts.forLoop fun k _ hk => acts_stageLoops hq (hfirst k hk) (hnext k hk)
    (hfirst_other k hk) (hnext_other k hk)).congr fun v => ?_
  rw [List.Ico.zero_bot]

end Loops

/-! ## The calls -/

/-- The descriptors of a call of `xkblas_ztrmm_async` or `xkblas_ztrsm_async` that initialises
them. There is no `C`. -/
def panelDescr (NB : ℕ) (side : Side) (N NRHS : ℕ) (LDA LDB : ℤ) : Operand → Descr
  | .A => initMatrixHandle (side.order N NRHS) (side.order N NRHS) (toSize LDA) NB NB
  | .B => initMatrixHandle N NRHS (toSize LDB) NB NB
  | .C => initMatrixHandle 0 0 1 NB NB

/-- The checks of the arguments and the quick return of `xkblas_ztrmm_async` and
`xkblas_ztrsm_async`. `NA` is an `int` that the checks before it show not to be negative. -/
def panelChecks {τ : Type*} (side : Side) (N NRHS LDA LDB : ℤ) (tasks : List τ) :
    Except ℤ (List τ) :=
  let NA := if side = .left then N else NRHS
  if N < 0 then .error (-5)
  else if NRHS < 0 then .error (-6)
  else if illegalLd LDA NA.toNat then .error (-8)
  else if illegalLd LDB N.toNat then .error (-10)
  else if min N NRHS = 0 then .ok []
  else .ok tasks

/-- The number of lines of `B`. -/
def Side.count (side : Side) (N NRHS : ℕ) : ℕ :=
  if side = .left then NRHS else N

/-- The order of the matrix from the length and the number of the lines. -/
theorem Side.order_size (side : Side) (L Q : ℕ) :
    side.order (side.lines.size L Q).1 (side.lines.size L Q).2 = L := by
  cases side <;> rfl

section Call

variable {τ : Type*} {N NRHS : ℕ}

/-- The call passes the checks of the arguments. -/
theorem panelChecks_ok (hN : 1 ≤ N) (hNRHS : 1 ≤ NRHS)
    (hA : AdmissibleLd LDA (side.order N NRHS)) (hB : AdmissibleLd LDB N) (tasks : List τ) :
    panelChecks side N NRHS LDA LDB tasks = .ok tasks := by
  have hNA : (if side = .left then (N : ℤ) else NRHS).toNat = side.order N NRHS := by
    cases side <;> rfl
  unfold panelChecks
  dsimp only
  rw [hNA, Int.toNat_natCast, if_neg (by omega), if_neg (by omega), if_neg hA.not_illegalLd,
    if_neg hB.not_illegalLd, if_neg (by omega)]

/-- The descriptors are those of tiled matrices. -/
theorem panelDescr_tiled (hNB : 1 ≤ NB) (hA : AdmissibleLd LDA (side.order N NRHS))
    (hB : AdmissibleLd LDB N) :
    PanelTiled (panelDescr NB side N NRHS LDA LDB) side NB (side.order N NRHS)
      (side.count N NRHS) LDA LDB := by
  have hA' := hA.tiled (N := side.order N NRHS) hNB
  have hB' := hB.tiled (N := NRHS) hNB
  refine ⟨fun X => ?_, hA', ?_⟩
  · cases X with
    | A => exact hA'.toValid
    | B => exact hB'.toValid
    | C => exact valid_initMatrixHandle hNB hNB le_rfl
  · cases side <;> exact hB'

end Call

end Xkblas.Blas
