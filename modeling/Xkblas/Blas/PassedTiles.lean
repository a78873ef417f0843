import Xkblas.Blas.Gemm
import Xkblas.Blas.Gemmt
import Xkblas.Blas.RankUpdate
import Xkblas.Blas.Symm
import Xkblas.Blas.Trmm
import Xkblas.Blas.Trsm

/-!
# The tiles that a routine passes to its tasks

A call describes a part of a matrix by its own sizes and leading dimension (`SubMatrix`), and passes
tiles of a descriptor. `Describes` says that the tiles exist, have sizes of tiles and cover this
part. It follows when the tiles have the sizes of the descriptor (`Param.Names`) and are the ones
that the routine visits (`describes_of_passes`). The tiles that a list of tasks passes are found
task by task (`Task.tiles`).
-/

namespace Xkblas.Blas

open Library

/-! ## Covered elements -/

/-- A part of a matrix as a call describes it: the elements of an `M` by `N` matrix with the leading
dimension `LD` whose tile the routine visits. -/
structure SubMatrix where
  M : ℕ
  N : ℕ
  LD : ℤ
  visits : ℕ → ℕ → Bool

/-- The elements of the tile that a parameter covers: from the address of the tile, with the leading
dimension of the view. -/
def Param.covers (d : Descr) (p : Param) (x : ℤ) : Prop :=
  ∃ r < p.rows, ∃ c < p.cols, x = d.addr p.m p.n + r + c * p.ld

/-- The tiles exist in the descriptor, have at least one row and one column and no more than a tile
has, and cover the part of the matrix. -/
structure Describes (d : Descr) (a : SubMatrix) (tiles : List Param) : Prop where
  index : ∀ p ∈ tiles, p.m < d.mt ∧ p.n < d.nt
  size : ∀ p ∈ tiles, (1 ≤ p.rows ∧ p.rows ≤ d.mb) ∧ 1 ≤ p.cols ∧ p.cols ≤ d.nb
  cover : ∀ x : ℤ, (∃ p ∈ tiles, p.covers d x) ↔
    ∃ i < a.M, ∃ j < a.N, a.visits (i / d.mb) (j / d.nb) = true ∧ x = i + j * a.LD

/-- The numbers of tiles are those of the sizes. -/
structure Descr.Counts (d : Descr) : Prop where
  mb_pos : 0 < d.mb
  nb_pos : 0 < d.nb
  mt_eq : d.mt = numTiles d.M d.mb
  nt_eq : d.nt = numTiles d.N d.nb

theorem Descr.Valid.counts {d : Descr} (h : d.Valid) : d.Counts :=
  ⟨h.mb_pos, h.nb_pos, h.mt_eq, h.nt_eq⟩

/-- The parameter has the indices and the sizes of a tile. The leading dimension matters when the
tile has several columns. -/
structure Param.Names (d : Descr) (p : Param) : Prop where
  row_lt : p.m < d.mt
  col_lt : p.n < d.nt
  rows_eq : p.rows = tileSize d.M d.mb p.m
  cols_eq : p.cols = tileSize d.N d.nb p.n
  ld_eq : p.ld = d.ld ∨ p.cols = 1

theorem Param.Fits.names {d : Operand → Descr} {p : Param} (h : p.Fits d) : p.Names (d p.mat) :=
  ⟨h.row_lt, h.col_lt, h.rows_eq, h.cols_eq, .inl h.ld_eq⟩

/-- The offset of an element of a tile. -/
theorem Param.Names.address {d : Descr} {p : Param} (h : p.Names d) {c : ℕ} (hc : c < p.cols)
    (r : ℕ) : (d.addr p.m p.n : ℤ) + r + c * p.ld =
      ((p.m * d.mb + r : ℕ) : ℤ) + ((p.n * d.nb + c : ℕ) : ℤ) * d.ld := by
  have hld : (c : ℤ) * p.ld = c * d.ld := by
    rcases h.ld_eq with hld | hcols
    · rw [hld]
    · have hzero : c = 0 := by omega
      simp [hzero]
  rw [hld]
  unfold Descr.addr
  push_cast
  ring

/-- Tiles that have the sizes of the descriptor, and are the visited ones, cover the part of the
matrix. -/
theorem describes_of_passes {d : Descr} {a : SubMatrix} {tiles : List Param} (hd : d.Counts)
    (hM : d.M = a.M) (hN : d.N = a.N) (hLD : a.LD = d.ld)
    (hnames : ∀ p ∈ tiles, p.Names d ∧ a.visits p.m p.n = true)
    (hall : ∀ m < d.mt, ∀ n < d.nt, a.visits m n = true → ∃ p ∈ tiles, p.m = m ∧ p.n = n) :
    Describes d a tiles where
  index := fun p hp => ⟨(hnames p hp).1.row_lt, (hnames p hp).1.col_lt⟩
  size := by
    intro p hp
    obtain ⟨h, _⟩ := hnames p hp
    have hm : p.m < numTiles d.M d.mb := hd.mt_eq ▸ h.row_lt
    have hn : p.n < numTiles d.N d.nb := hd.nt_eq ▸ h.col_lt
    rw [h.rows_eq, h.cols_eq]
    exact ⟨⟨tileSize_pos hd.mb_pos hm, tileSize_le hd.mb_pos hm⟩, tileSize_pos hd.nb_pos hn,
      tileSize_le hd.nb_pos hn⟩
  cover := by
    intro x
    rw [hLD, ← hM, ← hN]
    constructor
    · rintro ⟨p, hp, r, hr, c, hc, rfl⟩
      obtain ⟨h, hvisits⟩ := hnames p hp
      have hm : p.m < numTiles d.M d.mb := hd.mt_eq ▸ h.row_lt
      have hn : p.n < numTiles d.N d.nb := hd.nt_eq ▸ h.col_lt
      -- the coordinates of the element in the matrix
      obtain ⟨hi, hrow⟩ := (mem_tile hd.mb_pos hm).mp
        ⟨Nat.le_add_right _ _, Nat.add_lt_add_left (h.rows_eq ▸ hr) _⟩
      obtain ⟨hj, hcol⟩ := (mem_tile hd.nb_pos hn).mp
        ⟨Nat.le_add_right _ _, Nat.add_lt_add_left (h.cols_eq ▸ hc) _⟩
      refine ⟨_, hi, _, hj, ?_, h.address hc r⟩
      rwa [hrow, hcol]
    · rintro ⟨i, hi, j, hj, hvisits, rfl⟩
      have hm := div_lt_numTiles hd.mb_pos hi
      have hn := div_lt_numTiles hd.nb_pos hj
      obtain ⟨p, hp, hpm, hpn⟩ := hall _ (hd.mt_eq ▸ hm) _ (hd.nt_eq ▸ hn) hvisits
      obtain ⟨h, _⟩ := hnames p hp
      obtain ⟨hlo, hhi⟩ := (mem_tile hd.mb_pos hm).mpr ⟨hi, rfl⟩
      obtain ⟨hlo', hhi'⟩ := (mem_tile hd.nb_pos hn).mpr ⟨hj, rfl⟩
      have hrows := h.rows_eq
      have hcols := h.cols_eq
      rw [hpm] at hrows
      rw [hpn] at hcols
      have hc : j - j / d.nb * d.nb < p.cols := by omega
      refine ⟨p, hp, i - i / d.mb * d.mb, by omega, _, hc, ?_⟩
      rw [h.address hc, hpm, hpn, Nat.add_sub_cancel' hlo, Nat.add_sub_cancel' hlo']

/-! ## The tiles of tasks -/

section Tiles

variable {R : Type*}

/-- The operands and the indices of the tiles that a task names. -/
def Task.tiles (t : Task R) : List (Operand × ℕ × ℕ) :=
  t.params.map fun p => (p.mat, p.m, p.n)

/-- The parameters have the indices and the sizes of tiles of their descriptors, and the tiles that
they name are those for which `visits` holds. -/
structure Passes (d : Operand → Descr) (visits : Operand → ℕ → ℕ → Bool) (params : List Param) :
    Prop where
  names : ∀ p ∈ params, p.Names (d p.mat)
  visited : ∀ p ∈ params, visits p.mat p.m p.n = true
  all : ∀ X, ∀ m < (d X).mt, ∀ n < (d X).nt, visits X m n = true →
    ∃ p ∈ params, p.mat = X ∧ p.m = m ∧ p.n = n

/-- The parameters of a list of tasks. -/
theorem passes_of_tasks {d : Operand → Descr} {visits : Operand → ℕ → ℕ → Bool}
    {tasks : List (Task R)} (hnames : ∀ t ∈ tasks, ∀ p ∈ t.params, p.Names (d p.mat))
    (hvisited : ∀ t ∈ tasks, ∀ x ∈ t.tiles, visits x.1 x.2.1 x.2.2 = true)
    (hall : ∀ X, ∀ m < (d X).mt, ∀ n < (d X).nt, visits X m n = true →
      ∃ t ∈ tasks, (X, m, n) ∈ t.tiles) :
    Passes d visits (tasks.flatMap Task.params) where
  names := by
    intro p hp
    obtain ⟨t, ht, hp⟩ := List.mem_flatMap.mp hp
    exact hnames t ht p hp
  visited := by
    intro p hp
    obtain ⟨t, ht, hp⟩ := List.mem_flatMap.mp hp
    exact hvisited t ht _ (List.mem_map_of_mem hp)
  all := by
    intro X m hm n hn hvisits
    obtain ⟨t, ht, hx⟩ := hall X m hm n hn hvisits
    obtain ⟨p, hp, heq⟩ := List.mem_map.mp hx
    obtain ⟨hX, hm, hn⟩ : p.mat = X ∧ p.m = m ∧ p.n = n := by simpa using heq
    exact ⟨p, List.mem_flatMap.mpr ⟨t, ht, hp⟩, hX, hm, hn⟩

/-- The tiles of the triangle `uplo` of the operand `X`, and all the tiles of the others. -/
def visitsTriangle (X : Operand) (uplo : Uplo) (Y : Operand) (m n : ℕ) : Bool :=
  decide (Y ≠ X) || uplo.stores m n

variable {d : Operand → Descr} {X : Operand} {transX : Trans} {NB M N K m n k : ℕ} {ld : ℤ}

/-- The tile `(m, n)` of `X` as a tile of `op(X)`. -/
theorem Descr.TiledOp.exists_size (h : (d X).TiledOp transX NB M K ld) (hm : m < (d X).mt)
    (hn : n < (d X).nt) : ∃ a < numTiles M NB, ∃ b < numTiles K NB, transX.size a b = (m, n) := by
  rw [h.mt_eq, h.M_eq, h.mb_eq] at hm
  rw [h.nt_eq, h.N_eq, h.nb_eq] at hn
  cases transX with
  | noTrans => exact ⟨m, hm, n, hn, rfl⟩
  | trans => exact ⟨n, hn, m, hm, rfl⟩
  | conjTrans => exact ⟨n, hn, m, hm, rfl⟩

theorem Descr.Tiled.row_lt (h : (d X).Tiled NB M N ld) (hm : m < (d X).mt) :
    m < numTiles M NB := by
  rwa [h.mt_eq, h.M_eq, h.mb_eq] at hm

theorem Descr.Tiled.col_lt (h : (d X).Tiled NB M N ld) (hn : n < (d X).nt) :
    n < numTiles N NB := by
  rwa [h.nt_eq, h.N_eq, h.nb_eq] at hn

@[simp] theorem Trans.tile_m (transX : Trans) (X : Operand) (m k : ℕ) (ld : ℤ) :
    (transX.tile X m k ld).m = (transX.size m k).1 := by
  cases transX <;> rfl

@[simp] theorem Trans.tile_n (transX : Trans) (X : Operand) (m k : ℕ) (ld : ℤ) :
    (transX.tile X m k ld).n = (transX.size m k).2 := by
  cases transX <;> rfl

end Tiles

/-! ## Products -/

section Gemm

variable {R : Type*} [CommRing R] [StarRing R] [DecidableEq R] {d : Operand → Descr}
  {transA transB transT : Trans} {side : Side} {uplo : Uplo} {NB M N K m n k : ℕ} {alpha beta : R}
  {X Y Z : Operand} {LDA LDB LDC : ℤ}

theorem gemmTask_tiles :
    (gemmTask transA transB NB M N K alpha X LDA Y LDB beta Z LDC m n k).tiles =
      [(X, transA.size m k), (Y, transB.size k n), (Z, m, n)] := by
  simp [Task.tiles, Task.params, insertTaskZgemm]

/-- The loops of a product pass all the tiles. -/
theorem gemmLoops_passes (hM : 1 ≤ M) (hN : 1 ≤ N) (hK : 1 ≤ K)
    (hA : (d .A).TiledOp transA NB M K LDA) (hB : (d .B).TiledOp transB NB K N LDB)
    (hC : (d .C).Tiled NB M N LDC) :
    Passes d (fun _ _ _ => true) (List.flatMap Task.params
      (forLoop 0 (numTiles M NB) fun m => forLoop 0 (numTiles N NB) fun n =>
        forLoop 0 (numTiles K NB) fun k =>
          [gemmTask transA transB NB M N K alpha .A LDA .B LDB (if k = 0 then beta else 1) .C LDC
            m n k])) := by
  have hNB : 0 < NB := hC.mb_eq ▸ hC.mb_pos
  have hmem : ∀ m < numTiles M NB, ∀ n < numTiles N NB, ∀ k < numTiles K NB, ∀ x ∈
      [(Operand.A, transA.size m k), (.B, transB.size k n), (.C, m, n)], ∃ t ∈
        (forLoop 0 (numTiles M NB) fun m => forLoop 0 (numTiles N NB) fun n =>
          forLoop 0 (numTiles K NB) fun k =>
            [gemmTask transA transB NB M N K alpha .A LDA .B LDB (if k = 0 then beta else 1) .C LDC
              m n k]), x ∈ t.tiles := by
    intro m hm n hn k hk x hx
    refine ⟨_, mem_forLoop.mpr ⟨m, ⟨Nat.zero_le m, hm⟩, mem_forLoop.mpr ⟨n, ⟨Nat.zero_le n, hn⟩,
      mem_forLoop.mpr ⟨k, ⟨Nat.zero_le k, hk⟩, List.mem_singleton_self _⟩⟩⟩, ?_⟩
    rwa [gemmTask_tiles]
  have hmt := numTiles_pos hNB hM
  have hnt := numTiles_pos hNB hN
  have hkt := numTiles_pos hNB hK
  refine passes_of_tasks (fun t ht p hp => ((run_zgemmLoops hK hA hB hC).1 t ht p hp).names)
    (fun _ _ _ _ => rfl) fun X m hm n hn _ => ?_
  cases X with
  | A =>
      obtain ⟨a, ha, b, hb, hab⟩ := hA.exists_size hm hn
      exact hmem a ha 0 hnt b hb _ (by simp [hab])
  | B =>
      obtain ⟨a, ha, b, hb, hab⟩ := hB.exists_size hm hn
      exact hmem 0 hmt b hb a ha _ (by simp [hab])
  | C => exact hmem m (hC.row_lt hm) n (hC.col_lt hn) 0 hkt _ (by simp)

/-- The loops of a product restricted to a triangle pass the tiles of the triangle of `C`. -/
theorem gemmtLoops_passes (h : GemmtTiled d transA transB NB N K LDA LDB LDC) (hK : 1 ≤ K) :
    Passes d (visitsTriangle .C uplo) (List.flatMap Task.params
      (gemmtLoops uplo transA transB NB N K alpha LDA LDB beta LDC)) := by
  have hNB : 0 < NB := h.C.mb_eq ▸ h.C.mb_pos
  have hmem : ∀ m < numTiles N NB, ∀ n < numTiles N NB, uplo.stores m n = true →
      ∀ k < numTiles K NB, ∀ x ∈ [(Operand.A, transA.size m k), (.B, transB.size k n), (.C, m, n)],
        ∃ t ∈ gemmtLoops uplo transA transB NB N K alpha LDA LDB beta LDC, x ∈ t.tiles := by
    intro m hm n hn hstores k hk x hx
    refine ⟨_, mem_forLoop.mpr ⟨m, ⟨Nat.zero_le m, hm⟩, mem_forLoop.mpr ⟨n,
      (mem_row_iff hn).mpr hstores,
      mem_forLoop.mpr ⟨k, ⟨Nat.zero_le k, hk⟩, List.mem_singleton_self _⟩⟩⟩, ?_⟩
    rwa [gemmTask_tiles]
  refine passes_of_tasks ?_ ?_ fun X m hm n hn hvisits => ?_
  · intro t ht p hp
    obtain ⟨m, n, _, hfits⟩ := gemmtLoops_fitsTile h ht
    exact (hfits.fits p hp).names
  · intro t ht x hx
    obtain ⟨m, ⟨_, hm⟩, ht⟩ := mem_forLoop.mp ht
    obtain ⟨n, hn, ht⟩ := mem_forLoop.mp ht
    obtain ⟨k, _, ht⟩ := mem_forLoop.mp ht
    have hnt : n < numTiles N NB := by
      have := hn.2
      split at this <;> omega
    rw [List.mem_singleton.mp ht, gemmTask_tiles] at hx
    simp only [List.mem_cons, List.not_mem_nil, or_false] at hx
    rcases hx with rfl | rfl | rfl
    · rfl
    · rfl
    · exact (mem_row_iff hnt).mp hn
  · cases X with
    | A =>
        obtain ⟨a, ha, b, hb, hab⟩ := h.A.exists_size hm hn
        exact hmem a ha a ha (uplo.stores_self a) b hb _ (by simp [hab])
    | B =>
        obtain ⟨a, ha, b, hb, hab⟩ := h.B.exists_size hm hn
        exact hmem b hb b hb (uplo.stores_self b) a ha _ (by simp [hab])
    | C =>
        exact hmem m (h.C.row_lt hm) n (h.C.col_lt hn) hvisits 0 (numTiles_pos hNB hK) _ (by simp)

/-- The tile of the triangle that holds the block `(m, k)` of a mirrored matrix. -/
def Uplo.mirrored (uplo : Uplo) (m k : ℕ) : ℕ × ℕ :=
  if uplo.stores m k then (m, k) else (k, m)

omit [CommRing R] [StarRing R] [DecidableEq R] in
theorem Uplo.stores_mirrored (uplo : Uplo) (m k : ℕ) :
    uplo.stores (uplo.mirrored m k).1 (uplo.mirrored m k).2 = true := by
  unfold Uplo.mirrored
  split
  next h => exact h
  next h =>
    cases uplo with
    | upper =>
        simp only [Uplo.stores, decide_eq_true_eq] at h ⊢
        omega
    | lower =>
        simp only [Uplo.stores, decide_eq_true_eq] at h ⊢
        omega

/-- The tiles of a product with a mirrored matrix on one side. -/
theorem mem_sideTask_tiles (htrans : transT ≠ .noTrans) {x : Operand × ℕ × ℕ} :
    x ∈ (sideTask transT side uplo NB M N alpha LDA LDB beta LDC m n k).tiles ↔
      match side with
      | .left => x = (.A, uplo.mirrored m k) ∨ x = (.B, k, n) ∨ x = (.C, m, n)
      | .right => x = (.A, uplo.mirrored k n) ∨ x = (.B, m, k) ∨ x = (.C, m, n) := by
  have hsize : ∀ a b, (uplo.tileTrans transT a b).size a b = uplo.mirrored a b := by
    intro a b
    unfold Uplo.tileTrans Uplo.mirrored
    split
    next => rfl
    next => exact if_neg htrans
  unfold sideTask
  split
  next hdiag =>
    have hmirror : uplo.mirrored k k = (k, k) := by
      simp [Uplo.mirrored, uplo.stores_self]
    cases side with
    | left =>
        obtain rfl : k = m := hdiag
        simp [Task.tiles, Task.params, insertTaskMirror, hmirror]
    | right =>
        obtain rfl : k = n := hdiag
        simp [Task.tiles, Task.params, insertTaskMirror, hmirror]
  next =>
    cases side with
    | left =>
        simp only [gemmTask_tiles, hsize, List.mem_cons, List.not_mem_nil, or_false]
        exact Iff.rfl
    | right =>
        simp only [gemmTask_tiles, hsize, List.mem_cons, List.not_mem_nil, or_false]
        exact or_left_comm

/-- The loops of a product with a mirrored matrix, in any order, pass the tiles of the triangle of
`A`. -/
theorem sideLoops_passes (h : SideTiled d side NB M N LDA LDB LDC) (htrans : transT ≠ .noTrans)
    (hM : 1 ≤ M) (hN : 1 ≤ N) {tasks : List (Task R)}
    (htasks : ∀ t, t ∈ tasks ↔ ∃ m < numTiles M NB, ∃ n < numTiles N NB,
      ∃ k < numTiles (side.rowDim M N) NB,
        t = sideTask transT side uplo NB M N alpha LDA LDB (if k = 0 then beta else 1) LDC m n k) :
    Passes d (visitsTriangle .A uplo) (tasks.flatMap Task.params) := by
  have hNB : 0 < NB := h.C.mb_eq ▸ h.C.mb_pos
  have hmem : ∀ m < numTiles M NB, ∀ n < numTiles N NB, ∀ k < numTiles (side.rowDim M N) NB, ∀ x,
      (match side with
        | .left => x = (.A, uplo.mirrored m k) ∨ x = (.B, k, n) ∨ x = (.C, m, n)
        | .right => x = (.A, uplo.mirrored k n) ∨ x = (.B, m, k) ∨ x = (.C, m, n)) →
      ∃ t ∈ tasks, x ∈ t.tiles := fun m hm n hn k hk x hx =>
    ⟨_, (htasks _).mpr ⟨m, hm, n, hn, k, hk, rfl⟩, (mem_sideTask_tiles htrans).mpr hx⟩
  have hmt := numTiles_pos hNB hM
  have hnt := numTiles_pos hNB hN
  refine passes_of_tasks ?_ ?_ fun X a ha b hb hvisits => ?_
  · intro t ht p hp
    obtain ⟨m, hm, n, hn, k, hk, rfl⟩ := (htasks t).mp ht
    exact ((sideTask_fitsTile h hm hn hk).fits p hp).names
  · intro t ht x hx
    obtain ⟨m, hm, n, hn, k, hk, rfl⟩ := (htasks t).mp ht
    rw [mem_sideTask_tiles htrans] at hx
    cases side with
    | left =>
        rcases hx with rfl | rfl | rfl
        · exact uplo.stores_mirrored m k
        · rfl
        · rfl
    | right =>
        rcases hx with rfl | rfl | rfl
        · exact uplo.stores_mirrored k n
        · rfl
        · rfl
  · cases X with
    | A =>
        have hmirror : uplo.mirrored a b = (a, b) := if_pos hvisits
        cases side with
        | left =>
            exact hmem a (h.A.row_lt ha) 0 hnt b (h.A.col_lt hb) _ (.inl (by rw [hmirror]))
        | right =>
            exact hmem 0 hmt b (h.A.col_lt hb) a (h.A.row_lt ha) _ (.inl (by rw [hmirror]))
    | B =>
        cases side with
        | left =>
            exact hmem 0 hmt b (h.B.col_lt hb) a (h.B.row_lt ha) _ (.inr (.inl rfl))
        | right =>
            exact hmem a (h.B.row_lt ha) 0 hnt b (h.B.col_lt hb) _ (.inr (.inl rfl))
    | C =>
        cases side with
        | left =>
            exact hmem a (h.C.row_lt ha) b (h.C.col_lt hb) 0 hmt _ (.inr (.inr rfl))
        | right =>
            exact hmem a (h.C.row_lt ha) b (h.C.col_lt hb) 0 hnt _ (.inr (.inr rfl))

end Gemm

/-! ## Rank updates -/

section RankUpdates

variable {R : Type*} [CommRing R] [StarRing R] [DecidableEq R] {d : Operand → Descr}
  {mode : R → Mode} {transT transA : Trans} {uplo : Uplo} {NB N K : ℕ} {alpha beta : R}
  {LDA LDB LDB' LDC : ℤ} {v : Visit}

omit [DecidableEq R] in
theorem insertTaskRankK_tiles {n k sn sk : ℕ} :
    (insertTaskRankK mode transT uplo transA sn sk alpha (transA.tile .A n k LDA) beta
      ⟨.C, n, n, LDC⟩).tiles = [(.A, transA.size n k), (.C, n, n)] := by
  simp [Task.tiles, Task.params, insertTaskRankK]

omit [DecidableEq R] in
theorem insertTaskRank2K_tiles {n k sn sk : ℕ} :
    (insertTaskRank2K mode transT uplo transA sn sk alpha (transA.tile .A n k LDA)
      (transA.tile .B n k LDB) beta ⟨.C, n, n, LDC⟩).tiles =
        [(.A, transA.size n k), (.B, transA.size n k), (.C, n, n)] := by
  simp [Task.tiles, Task.params, insertTaskRank2K]

/-- A rank `k` update passes the tiles of the triangle of `C`. -/
theorem rankKLoops_passes (hd : ∀ X, (d X).Valid) (hA : (d .A).TiledOp transA NB N K LDA)
    (hB : (d .B).mt = 0) (hC : (d .C).Tiled NB N N LDC) (htrans : transT ≠ .noTrans) (hK : 1 ≤ K)
    (hv : v.uplo = uplo) :
    Passes d (visitsTriangle .C uplo) (List.flatMap Task.params
      (triangleLoops v (numTiles N NB)
        (rankKBody mode transT uplo transA NB N K alpha LDA beta LDC))) := by
  have hNB : 0 < NB := hC.mb_eq ▸ hC.mb_pos
  have hmem : ∀ m < numTiles N NB, ∀ n < numTiles N NB, uplo.stores m n = true →
      ∀ k < numTiles K NB, ∀ x ∈ [(Operand.A, transA.size m k), (.C, m, n)],
        ∃ t ∈ triangleLoops v (numTiles N NB)
          (rankKBody mode transT uplo transA NB N K alpha LDA beta LDC), x ∈ t.tiles := by
    intro m hm n hn hstores k hk x hx
    subst hv
    by_cases hmn : m = n
    · subst hmn
      refine ⟨_, mem_triangleLoops_of_stores hm hn hstores (mem_forLoop.mpr
        ⟨k, ⟨Nat.zero_le k, hk⟩, by rw [if_pos rfl]; exact List.mem_singleton_self _⟩), ?_⟩
      rwa [insertTaskRankK_tiles]
    · refine ⟨_, mem_triangleLoops_of_stores hm hn hstores (mem_forLoop.mpr
        ⟨k, ⟨Nat.zero_le k, hk⟩, by rw [if_neg hmn]; exact List.mem_singleton_self _⟩), ?_⟩
      rw [gemmTask_tiles]
      simp only [List.mem_cons, List.not_mem_nil, or_false] at hx ⊢
      rcases hx with rfl | rfl
      · exact .inl rfl
      · exact .inr (.inr rfl)
  refine passes_of_tasks ?_ ?_ fun X a ha b hb hvisits => ?_
  · intro t ht p hp
    obtain ⟨m, n, ⟨hm, hn, _⟩, ht⟩ := mem_triangleLoops ht
    exact ((rankKBody_fitsTile hd hA hC htrans hm hn ht).fits p hp).names
  · intro t ht x hx
    obtain ⟨m, n, ⟨_, _, hstores⟩, ht⟩ := mem_triangleLoops ht
    obtain ⟨k, _, ht⟩ := mem_forLoop.mp ht
    rw [hv] at hstores
    by_cases hmn : m = n
    · subst hmn
      rw [if_pos rfl] at ht
      rw [List.mem_singleton.mp ht, insertTaskRankK_tiles] at hx
      simp only [List.mem_cons, List.not_mem_nil, or_false] at hx
      rcases hx with rfl | rfl
      · rfl
      · exact hstores
    · rw [if_neg hmn] at ht
      rw [List.mem_singleton.mp ht, gemmTask_tiles] at hx
      simp only [List.mem_cons, List.not_mem_nil, or_false] at hx
      rcases hx with rfl | rfl | rfl
      · rfl
      · rfl
      · exact hstores
  · cases X with
    | A =>
        obtain ⟨m, hm, k, hk, hab⟩ := hA.exists_size ha hb
        exact hmem m hm m hm (uplo.stores_self m) k hk _ (by simp [hab])
    | B => exact absurd ha (by omega)
    | C =>
        exact hmem a (hC.row_lt ha) b (hC.col_lt hb) hvisits 0 (numTiles_pos hNB hK) _ (by simp)

omit [CommRing R] [StarRing R] [DecidableEq R] in
/-- A tile of one column. -/
theorem tileSize_eq_one {k : ℕ} (hNB : 0 < NB) (hk : k < numTiles K NB) (h : NB = 1 ∨ K = 1) :
    tileSize K NB k = 1 := by
  have hpos := tileSize_pos hNB hk
  have hle := tileSize_le hNB hk
  have hend := tile_le hNB hk
  omega

/-- A rank `2k` update passes the tiles of the triangle of `C`. The leading dimension of the second
`B` must be that of `B` when it is read. -/
theorem rank2KLoops_passes (hd : ∀ X, (d X).Valid) (hA : (d .A).TiledOp transA NB N K LDA)
    (hB : (d .B).TiledOp transA NB N K LDB) (hC : (d .C).Tiled NB N N LDC)
    (htrans : transT ≠ .noTrans) (hK : 1 ≤ K)
    (hld : LDB' = LDB ∨ N ≤ NB ∨ (transA = .noTrans ∧ (NB = 1 ∨ K = 1))) (hv : v.uplo = uplo) :
    Passes d (visitsTriangle .C uplo) (List.flatMap Task.params
      (triangleLoops v (numTiles N NB)
        (rank2KBody mode transT uplo transA NB N K alpha LDA LDB LDB' beta LDC))) := by
  have hNB : 0 < NB := hC.mb_eq ▸ hC.mb_pos
  have hdiag : ∀ m < numTiles N NB, ∀ k < numTiles K NB, ∀ x ∈
      [(Operand.A, transA.size m k), (.B, transA.size m k), (.C, m, m)],
        ∃ t ∈ triangleLoops v (numTiles N NB)
          (rank2KBody mode transT uplo transA NB N K alpha LDA LDB LDB' beta LDC),
            x ∈ t.tiles := by
    intro m hm k hk x hx
    refine ⟨_, mem_triangleLoops_of_stores hm hm (v.uplo.stores_self m) (mem_forLoop.mpr
      ⟨k, ⟨Nat.zero_le k, hk⟩, by rw [if_pos rfl]; exact List.mem_singleton_self _⟩), ?_⟩
    rwa [insertTaskRank2K_tiles]
  have hside : ∀ m < numTiles N NB, ∀ n < numTiles N NB, uplo.stores m n = true → m ≠ n →
      ∃ t ∈ triangleLoops v (numTiles N NB)
        (rank2KBody mode transT uplo transA NB N K alpha LDA LDB LDB' beta LDC),
          (Operand.C, m, n) ∈ t.tiles := by
    intro m hm n hn hstores hmn
    subst hv
    refine ⟨_, mem_triangleLoops_of_stores hm hn hstores (mem_forLoop.mpr
      ⟨0, ⟨le_rfl, numTiles_pos hNB hK⟩, by rw [if_neg hmn]; exact List.mem_cons_self⟩), ?_⟩
    rw [gemmTask_tiles]
    simp
  refine passes_of_tasks ?_ ?_ fun X a ha b hb hvisits => ?_
  · intro t ht p hp
    obtain ⟨m, n, ⟨hm, hn, _⟩, ht⟩ := mem_triangleLoops ht
    obtain ⟨k, ⟨_, hk⟩, ht⟩ := mem_forLoop.mp ht
    by_cases hmn : m = n
    · subst hmn
      rw [if_pos rfl] at ht
      rw [List.mem_singleton.mp ht] at hp
      exact ((rank2KDiagonal_fitsTile hd hA hB hC hm hk).fits p hp).names
    · rw [if_neg hmn] at ht
      rcases List.mem_cons.mp ht with rfl | ht
      · exact ((gemmTask_fitsTile hd hA (hB.mate htrans) hC hm hn hk).fits p hp).names
      · rw [List.mem_singleton.mp ht] at hp
        simp only [Task.params, insertTaskZgemm, List.cons_append, List.nil_append, List.mem_cons,
          List.not_mem_nil, or_false] at hp
        rcases hp with rfl | rfl | rfl
        · -- the tile of `B` with the leading dimension `LDB'`
          have hfits := hB.fits (X := .B) hm hk .r
          rw [Trans.tile_mat]
          have hmat := hfits.names
          rw [Trans.tile_mat] at hmat
          rcases hld with rfl | hle | ⟨rfl, hone⟩
          · exact hmat
          · have hone : numTiles N NB ≤ 1 := by
              by_contra hlt
              have := (lt_numTiles hNB).mp (Nat.lt_of_not_le hlt)
              omega
            omega
          · exact ⟨hmat.row_lt, hmat.col_lt, hmat.rows_eq, hmat.cols_eq,
              .inr (tileSize_eq_one hNB hk hone)⟩
        · exact ((hA.mate htrans).fits hk hn .r).names
        · exact (hC.fits hm hn _).names
  · intro t ht x hx
    obtain ⟨m, n, ⟨_, _, hstores⟩, ht⟩ := mem_triangleLoops ht
    obtain ⟨k, _, ht⟩ := mem_forLoop.mp ht
    rw [hv] at hstores
    by_cases hmn : m = n
    · subst hmn
      rw [if_pos rfl] at ht
      rw [List.mem_singleton.mp ht, insertTaskRank2K_tiles] at hx
      simp only [List.mem_cons, List.not_mem_nil, or_false] at hx
      rcases hx with rfl | rfl | rfl
      · rfl
      · rfl
      · exact hstores
    · rw [if_neg hmn] at ht
      rcases List.mem_cons.mp ht with rfl | ht
      · rw [gemmTask_tiles] at hx
        simp only [List.mem_cons, List.not_mem_nil, or_false] at hx
        rcases hx with rfl | rfl | rfl
        · rfl
        · rfl
        · exact hstores
      · rw [List.mem_singleton.mp ht, gemmTask_tiles] at hx
        simp only [List.mem_cons, List.not_mem_nil, or_false] at hx
        rcases hx with rfl | rfl | rfl
        · rfl
        · rfl
        · exact hstores
  · cases X with
    | A =>
        obtain ⟨m, hm, k, hk, hab⟩ := hA.exists_size ha hb
        exact hdiag m hm k hk _ (by simp [hab])
    | B =>
        obtain ⟨m, hm, k, hk, hab⟩ := hB.exists_size ha hb
        exact hdiag m hm k hk _ (by simp [hab])
    | C =>
        have hm := hC.row_lt ha
        have hn := hC.col_lt hb
        by_cases hab : a = b
        · subst hab
          exact hdiag a hm 0 (numTiles_pos hNB hK) _ (by simp)
        · exact hside a hm b hn hvisits hab

end RankUpdates

/-! ## A triangular matrix on one side -/

section Panel

variable {R : Type*} {d : Operand → Descr} {side : Side} {uplo : Uplo} {transA : Trans}
  {diag : Diag} {NB L Q p q k : ℕ} {LDA LDB : ℤ}

/-- The tile of the triangular matrix that a block of the lines is multiplied with. -/
def Side.indexA (side : Side) (transA : Trans) (p k : ℕ) : ℕ × ℕ :=
  match side with
  | .left => transA.size p k
  | .right => transA.size k p

theorem Side.exists_indexA (side : Side) (transA : Trans) {a b : ℕ}
    (hab : uplo.stores a b = true) (hne : a ≠ b) :
    ∃ p k, side.indexA transA p k = (a, b) ∧ p ≠ k ∧ (p = a ∧ k = b ∨ p = b ∧ k = a) ∧
      (side.triangle uplo transA).stores p k = true := by
  cases side with
  | left =>
      cases transA with
      | noTrans => exact ⟨a, b, rfl, hne, .inl ⟨rfl, rfl⟩, hab⟩
      | trans => exact ⟨b, a, rfl, hne.symm, .inr ⟨rfl, rfl⟩, (uplo.stores_flip b a).trans hab⟩
      | conjTrans =>
          exact ⟨b, a, rfl, hne.symm, .inr ⟨rfl, rfl⟩, (uplo.stores_flip b a).trans hab⟩
  | right =>
      cases transA with
      | noTrans => exact ⟨b, a, rfl, hne.symm, .inr ⟨rfl, rfl⟩, (uplo.stores_flip b a).trans hab⟩
      | trans => exact ⟨a, b, rfl, hne, .inl ⟨rfl, rfl⟩, hab⟩
      | conjTrans => exact ⟨a, b, rfl, hne, .inl ⟨rfl, rfl⟩, hab⟩

theorem Side.stores_indexA (h : (side.triangle uplo transA).stores p k = true) :
    uplo.stores (side.indexA transA p k).1 (side.indexA transA p k).2 = true := by
  have hstores : uplo.stores (side.tileA transA p k 0).m (side.tileA transA p k 0).n = true :=
    tileA_stored h
  cases side <;> cases transA <;> exact hstores

/-- The loops of a sweep pass the tiles of the triangle of `A`: its tasks are those of the diagonal
and updates of a block of the lines with a tile of the triangle. -/
theorem panelLoops_passes (transA : Trans) (h : PanelTiled d side NB L Q LDA LDB) (hQ : 1 ≤ Q)
    {tasks : List (Task R)} (hfits : ∀ t ∈ tasks, t.Fits d)
    (htasks : ∀ t ∈ tasks,
      (∃ p q, ∀ x ∈ t.tiles, x = (.A, p, p) ∨ x = (.B, side.lines.size p q)) ∨
      ∃ p q k, (side.triangle uplo transA).stores p k = true ∧ ∀ x ∈ t.tiles,
        x = (.A, side.indexA transA p k) ∨ x = (.B, side.lines.size k q) ∨
          x = (.B, side.lines.size p q))
    (hdiag : ∀ p < numTiles L NB, ∀ q < numTiles Q NB, ∃ t ∈ tasks,
      (Operand.A, p, p) ∈ t.tiles ∧ (.B, side.lines.size p q) ∈ t.tiles)
    (hside : ∀ p < numTiles L NB, ∀ k < numTiles L NB, p ≠ k →
      (side.triangle uplo transA).stores p k = true →
      ∃ t ∈ tasks, (.A, side.indexA transA p k) ∈ t.tiles) (hC : (d .C).mt = 0) :
    Passes d (visitsTriangle .A uplo) (tasks.flatMap Task.params) := by
  refine passes_of_tasks (fun t ht p hp => (hfits t ht p hp).names) ?_ fun X a ha b hb hvisits => ?_
  · intro t ht x hx
    rcases htasks t ht with ⟨p, q, hdiag⟩ | ⟨p, q, k, hstores, hupdate⟩
    · rcases hdiag x hx with rfl | rfl
      · exact uplo.stores_self p
      · rfl
    · rcases hupdate x hx with rfl | rfl | rfl
      · exact Side.stores_indexA hstores
      · rfl
      · rfl
  · cases X with
    | A =>
        have ha := h.A.row_lt ha
        have hb := h.A.col_lt hb
        by_cases hab : a = b
        · subst hab
          obtain ⟨t, ht, hx, _⟩ := hdiag a ha 0 (numTiles_pos h.pos hQ)
          exact ⟨t, ht, hx⟩
        · obtain ⟨p, k, hindex, hpk, hmem, hstores⟩ := side.exists_indexA transA hvisits hab
          obtain ⟨t, ht, hx⟩ := hside p (by omega) k (by omega) hpk hstores
          exact ⟨t, ht, hindex ▸ hx⟩
    | B =>
        obtain ⟨p, hp, q, hq, hpq⟩ := h.B.exists_size ha hb
        obtain ⟨t, ht, _, hx⟩ := hdiag p hp q hq
        exact ⟨t, ht, hpq ▸ hx⟩
    | C => exact absurd ha (by omega)

theorem lineGemm_tiles [CommRing R] [StarRing R] [DecidableEq R] {mu lam : R}
    {x : Operand × ℕ × ℕ} :
    x ∈ (lineGemm side transA NB L Q mu LDA LDB lam p q k).tiles ↔
      x = (.A, side.indexA transA p k) ∨ x = (.B, side.lines.size k q) ∨
        x = (.B, side.lines.size p q) := by
  cases side with
  | left =>
      simp only [lineGemm, gemmTask_tiles, List.mem_cons, List.not_mem_nil, or_false]
      exact Iff.rfl
  | right =>
      simp only [lineGemm, gemmTask_tiles, List.mem_cons, List.not_mem_nil, or_false]
      exact or_left_comm

theorem lineTrmm_tiles [CommRing R] [StarRing R] {alpha : R} :
    (lineTrmm side uplo transA diag NB L Q alpha LDA LDB p q).tiles =
      [(.A, p, p), (.B, side.lines.size p q)] := by
  cases side <;> rfl

theorem lineTrsm_tiles [Field R] [StarRing R] [DecidableEq R] {alpha : R} {divZero : R → R} :
    (lineTrsm divZero side uplo transA diag NB L Q alpha LDA LDB p q).tiles =
      [(.A, p, p), (.B, side.lines.size p q)] := by
  cases side <;> rfl

theorem trmmLoops_passes [CommRing R] [StarRing R] [DecidableEq R] {alpha : R}
    (h : PanelTiled d side NB L Q LDA LDB) (hQ : 1 ≤ Q) (hC : (d .C).mt = 0) :
    Passes d (visitsTriangle .A uplo) (List.flatMap Task.params
      (trmmLoops side uplo transA diag NB L Q alpha LDA LDB)) := by
  refine panelLoops_passes transA h hQ ?_ ?_ ?_ ?_ hC
  · intro t ht
    obtain ⟨m, n, hfits⟩ := mem_trmmLoops h ht
    exact hfits.fits
  · intro t ht
    obtain ⟨k, ⟨_, hk⟩, ht⟩ := mem_forLoop.mp ht
    obtain ⟨q, _, ht | ⟨m, hm, ht⟩⟩ := mem_stageLoops.mp ht
    · refine .inl ⟨sweep (trmmDown side uplo transA) (numTiles L NB) k, q, fun x hx => ?_⟩
      rw [List.mem_singleton.mp ht, lineTrmm_tiles] at hx
      simpa using hx
    · obtain ⟨hkm, hmK⟩ := (mem_stageRest hk).mp hm
      refine .inr ⟨_, q, _, (trmm_stores hkm hmK).1, fun x hx => ?_⟩
      rw [List.mem_singleton.mp ht] at hx
      exact lineGemm_tiles.mp hx
  · intro p hp q hq
    refine ⟨_, mem_forLoop.mpr ⟨sweep (trmmDown side uplo transA) _ p, ⟨Nat.zero_le _, sweep_lt hp⟩,
      mem_stageLoops.mpr ⟨q, hq, .inl (List.mem_singleton_self _)⟩⟩, ?_⟩
    rw [lineTrmm_tiles, sweep_sweep hp]
    simp
  · intro p hp k hk hpk hstores
    -- the stage of the block is before that of the tile it is multiplied with
    obtain ⟨a, ha, rfl⟩ : ∃ a < numTiles L NB, sweep (trmmDown side uplo transA) _ a = p :=
      ⟨_, sweep_lt hp, sweep_sweep hp⟩
    obtain ⟨b, hb, rfl⟩ : ∃ b < numTiles L NB, sweep (trmmDown side uplo transA) _ b = k :=
      ⟨_, sweep_lt hk, sweep_sweep hk⟩
    have hab : a < b := by
      rcases lt_trichotomy a b with hlt | rfl | hgt
      · exact hlt
      · exact absurd rfl hpk
      · exact absurd hstores (by rw [(trmm_stores hgt ha).2]; decide)
    refine ⟨_, mem_forLoop.mpr ⟨a, ⟨Nat.zero_le a, ha⟩, mem_stageLoops.mpr ⟨0,
      numTiles_pos h.pos hQ, .inr ⟨b, (mem_stageRest ha).mpr ⟨hab, hb⟩,
        List.mem_singleton_self _⟩⟩⟩, ?_⟩
    exact lineGemm_tiles.mpr (.inl rfl)

theorem trsmLoops_passes [Field R] [StarRing R] [DecidableEq R] {alpha : R}
    (h : PanelTiled d side NB L Q LDA LDB) (hQ : 1 ≤ Q) (hC : (d .C).mt = 0) :
    Passes d (visitsTriangle .A uplo) (List.flatMap Task.params
      (trsmLoops side uplo transA diag NB L Q alpha LDA LDB)) := by
  refine panelLoops_passes transA h hQ ?_ ?_ ?_ ?_ hC
  · intro t ht
    obtain ⟨⟨m, n, hfits⟩, _⟩ := mem_trsmLoops h ht
    exact hfits.fits
  · intro t ht
    obtain ⟨k, ⟨_, hk⟩, ht⟩ := mem_forLoop.mp ht
    obtain ⟨q, _, ht | ⟨m, hm, ht⟩⟩ := mem_stageLoops.mp ht
    · refine .inl ⟨sweep (trsmDown side uplo transA) (numTiles L NB) k, q, fun x hx => ?_⟩
      rw [List.mem_singleton.mp ht, lineTrsm_tiles] at hx
      simpa using hx
    · obtain ⟨hkm, hmK⟩ := List.Ico.mem.mp hm
      refine .inr ⟨_, q, _, (sweep_stores _ hkm hmK).1, fun x hx => ?_⟩
      rw [List.mem_singleton.mp ht] at hx
      exact lineGemm_tiles.mp hx
  · intro p hp q hq
    refine ⟨_, mem_forLoop.mpr ⟨sweep (trsmDown side uplo transA) _ p, ⟨Nat.zero_le _, sweep_lt hp⟩,
      mem_stageLoops.mpr ⟨q, hq, .inl (List.mem_singleton_self _)⟩⟩, ?_⟩
    rw [lineTrsm_tiles, sweep_sweep hp]
    simp
  · intro p hp k hk hpk hstores
    obtain ⟨a, ha, rfl⟩ : ∃ a < numTiles L NB, sweep (trsmDown side uplo transA) _ a = p :=
      ⟨_, sweep_lt hp, sweep_sweep hp⟩
    obtain ⟨b, hb, rfl⟩ : ∃ b < numTiles L NB, sweep (trsmDown side uplo transA) _ b = k :=
      ⟨_, sweep_lt hk, sweep_sweep hk⟩
    have hba : b < a := by
      rcases lt_trichotomy a b with hlt | rfl | hgt
      · exact absurd hstores (by rw [trsmDown, (sweep_stores _ hlt hb).2]; decide)
      · exact absurd rfl hpk
      · exact hgt
    refine ⟨_, mem_forLoop.mpr ⟨b, ⟨Nat.zero_le b, hb⟩, mem_stageLoops.mpr ⟨0,
      numTiles_pos h.pos hQ, .inr ⟨a, List.Ico.mem.mpr ⟨hba, ha⟩,
        List.mem_singleton_self _⟩⟩⟩, ?_⟩
    exact lineGemm_tiles.mpr (.inl rfl)

end Panel

end Xkblas.Blas
