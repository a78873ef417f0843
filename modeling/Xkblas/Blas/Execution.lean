import Xkblas.Blas.Task

/-!
# The execution of tile tasks

The lemmas that the correctness of the routines is built from: what a task that its kernel accepts
does to one element of a matrix (`exec_get`), and what no list of such tasks does (`run_frame`). An element is named by its row and column in the whole matrix.
-/

namespace Xkblas.Blas

open Library

variable {R : Type*} {d : Operand → Descr} {s : State R} {t : Task R} {tasks : List (Task R)}
  {X : Operand} {i j : ℕ}

/-! ## Descriptors -/

/-- What `xkblas_init_matrix_handle` establishes for a matrix with an admissible leading
dimension. -/
structure Descr.Valid (d : Descr) : Prop where
  mb_pos : 0 < d.mb
  nb_pos : 0 < d.nb
  mt_eq : d.mt = numTiles d.M d.mb
  nt_eq : d.nt = numTiles d.N d.nb
  ld_pos : 0 < d.ld
  rows_le : d.M ≤ d.ld

theorem valid_initMatrixHandle {M N LD MB NB : ℕ} (hMB : 0 < MB) (hNB : 0 < NB)
    (hLD : max 1 M ≤ LD) : (initMatrixHandle M N LD MB NB).Valid where
  mb_pos := hMB
  nb_pos := hNB
  mt_eq := rfl
  nt_eq := rfl
  ld_pos := by
    show 0 < LD
    omega
  rows_le := by
    show M ≤ LD
    omega

/-- In a descriptor the sizes of the loops are those of the tiles. -/
theorem tempSize_eq {M mb m : ℕ} (hmb : 0 < mb) (hm : m < numTiles M mb) :
    tempSize (numTiles M mb) M mb m = tileSize M mb m := by
  have hstart : m * mb ≤ M := ((lt_numTiles hmb).mp hm).le
  unfold tempSize tileSize sizeSub
  rw [if_pos hstart]

/-- A parameter is a tile of its matrix: the indices exist, and its size and its leading dimension
are those of the tile. -/
structure Param.Fits (d : Operand → Descr) (p : Param) : Prop where
  row_lt : p.m < (d p.mat).mt
  col_lt : p.n < (d p.mat).nt
  rows_eq : p.rows = tileSize (d p.mat).M (d p.mat).mb p.m
  cols_eq : p.cols = tileSize (d p.mat).N (d p.mat).nb p.n
  ld_eq : p.ld = (d p.mat).ld

/-- The parameters of a task are tiles. -/
def Task.Fits (d : Operand → Descr) (t : Task R) : Prop :=
  ∀ p ∈ t.params, p.Fits d

theorem Param.Fits.ldOk {p : Param} (h : p.Fits d) (hd : (d p.mat).Valid) : p.LdOk := by
  have hrow := h.row_lt
  rw [hd.mt_eq] at hrow
  have hle := tile_le hd.mb_pos hrow
  have hrows := hd.rows_le
  have hpos := hd.ld_pos
  unfold Param.LdOk
  rw [h.rows_eq, h.ld_eq]
  omega

/-- The kernel of a task accepts its parameters, and its result is a tile. -/
structure Task.Stores (d : Operand → Descr) (t : Task R) : Prop where
  accepted : ∀ p ∈ t.params, p.LdOk
  out : t.out.Fits d

theorem Task.out_mem (t : Task R) : t.out ∈ t.params :=
  List.mem_append_right _ (List.mem_singleton_self _)

theorem Task.Fits.stores (h : t.Fits d) (hd : ∀ X, (d X).Valid) : t.Stores d where
  accepted := fun p hp => (h p hp).ldOk (hd p.mat)
  out := h t.out t.out_mem

/-! ## Elements -/

/-- The element `(i, j)` of a matrix. -/
def State.get (s : State R) (d : Operand → Descr) (X : Operand) (i j : ℕ) : R :=
  entry (s X) 0 (d X).ld i j

/-- The elements determine the matrices. -/
theorem State.ext_get (hd : ∀ X, (d X).Valid) {s s' : State R}
    (h : ∀ X, ∀ i < (d X).ld, ∀ j, s.get d X i j = s'.get d X i j) : s = s' := by
  funext X
  exact ext_entries (hd X).ld_pos (h X)

/-- The entries of a block are elements of its matrix. -/
theorem block_apply {p : Tile} (hld : p.ld = (d p.mat).ld) (i j : ℕ) :
    s.block d p i j = s.get d p.mat (p.m * (d p.mat).mb + i) (p.n * (d p.mat).nb + j) := by
  unfold State.block State.get Descr.addr
  rw [hld, Int.toNat_natCast, entry_block]

/-- The element is stored by the body of the task. -/
def Task.Covers (d : Operand → Descr) (t : Task R) (i j : ℕ) : Prop :=
  ((i < (d t.out.mat).M ∧ i / (d t.out.mat).mb = t.out.m) ∧
    j < (d t.out.mat).N ∧ j / (d t.out.mat).nb = t.out.n) ∧
  t.writes (i - t.out.m * (d t.out.mat).mb) (j - t.out.n * (d t.out.mat).nb) = true

instance (t : Task R) : Decidable (t.Covers d i j) :=
  inferInstanceAs (Decidable (((_ ∧ _) ∧ _ ∧ _) ∧ _))

/-- What a task does to an element of the matrix it writes. -/
theorem exec_get (hd : ∀ X, (d X).Valid) (ht : t.Stores d) (hX : t.out.mat = X)
    (hi : i < (d X).ld) :
    (t.exec d s).get d X i j =
      if t.Covers d i j then
        t.value (s.block d) (i - t.out.m * (d X).mb) (j - t.out.n * (d X).nb)
      else s.get d X i j := by
  subst hX
  have hout := ht.out
  have hv := hd t.out.mat
  have hrow : t.out.m < numTiles (d t.out.mat).M (d t.out.mat).mb := hv.mt_eq ▸ hout.row_lt
  have hcol : t.out.n < numTiles (d t.out.mat).N (d t.out.mat).nb := hv.nt_eq ▸ hout.col_lt
  have hrows : t.out.m * (d t.out.mat).mb + t.out.rows ≤ (d t.out.mat).ld := by
    rw [hout.rows_eq]
    exact (tile_le hv.mb_pos hrow).trans hv.rows_le
  have hexec : t.exec d s = _ := if_pos ht.accepted
  rw [hexec]
  unfold State.get Descr.addr Task.Covers
  rw [Function.update_self, hout.ld_eq, Int.toNat_natCast, store_entry _ _ _ hrows hi]
  refine if_congr (and_congr_left' ?_) rfl rfl
  unfold InBlock
  rw [hout.rows_eq, hout.cols_eq]
  exact and_congr (mem_tile hv.mb_pos hrow) (mem_tile hv.nb_pos hcol)

/-- The modes of the insertion do not change what tasks do. -/
theorem run_erase (tasks : List (Task R)) (s : State R) :
    run d (tasks.map Task.erase) s = run d tasks s := by
  unfold run
  rw [List.foldl_map]
  rfl

/-- A task leaves the other matrices as they are. -/
theorem exec_of_ne (hX : t.out.mat ≠ X) : t.exec d s X = s X := by
  unfold Task.exec
  split
  · exact Function.update_of_ne (Ne.symm hX) _ _
  · rfl

/-- Tasks that write the matrix `X` leave the others, and what is outside of `X`, as they are. -/
theorem run_frame (hd : ∀ X, (d X).Valid) (hstores : ∀ t ∈ tasks, t.Stores d)
    (hX : ∀ t ∈ tasks, t.out.mat = X) (s : State R) :
    (∀ Y, Y ≠ X → run d tasks s Y = s Y) ∧
      ∀ i j, i < (d X).ld → ¬ (i < (d X).M ∧ j < (d X).N) →
        (run d tasks s).get d X i j = s.get d X i j := by
  induction tasks generalizing s with
  | nil => exact ⟨fun _ _ => rfl, fun _ _ _ _ => rfl⟩
  | cons t tasks ih =>
      obtain ⟨hother, hout⟩ := ih (fun u hu => hstores u (List.mem_cons_of_mem t hu))
        (fun u hu => hX u (List.mem_cons_of_mem t hu)) (t.exec d s)
      have htX := hX t List.mem_cons_self
      constructor
      · intro Y hY
        rw [run, List.foldl_cons]
        exact (hother Y hY).trans (exec_of_ne (htX.trans_ne hY.symm))
      · intro i j hi hij
        rw [run, List.foldl_cons]
        refine (hout i j hi hij).trans ?_
        rw [exec_get hd (hstores t List.mem_cons_self) htX hi, if_neg]
        rintro ⟨⟨⟨hM, _⟩, hN, _⟩, _⟩
        rw [htX] at hM hN
        exact hij ⟨hM, hN⟩

/-- The task writes the tile of the parameter. -/
def Task.Overwrites (t : Task R) (p : Param) : Prop :=
  t.out.mat = p.mat ∧ t.out.m = p.m ∧ t.out.n = p.n

/-- A tile that no task writes keeps its content. -/
theorem run_block_eq (hd : ∀ X, (d X).Valid) (hstores : ∀ t ∈ tasks, t.Stores d) {p : Param}
    (hp : p.Fits d) (hnot : ∀ t ∈ tasks, ¬ t.Overwrites p) (s : State R) :
    ∀ x < p.rows, ∀ y < p.cols,
      (run d tasks s).block d p.toTile x y = s.block d p.toTile x y := by
  intro x hx y hy
  have hv := hd p.mat
  rw [hp.rows_eq] at hx
  rw [hp.cols_eq] at hy
  -- the element of the matrix is in the tile of the parameter
  obtain ⟨hi, hrow⟩ := (mem_tile hv.mb_pos (hv.mt_eq ▸ hp.row_lt)).mp
    ⟨Nat.le_add_right _ _, Nat.add_lt_add_left hx _⟩
  obtain ⟨_, hcol⟩ := (mem_tile hv.nb_pos (hv.nt_eq ▸ hp.col_lt)).mp
    ⟨Nat.le_add_right _ _, Nat.add_lt_add_left hy _⟩
  rw [block_apply hp.ld_eq, block_apply hp.ld_eq]
  induction tasks generalizing s with
  | nil => rfl
  | cons t tasks ih =>
      have ht := hnot t List.mem_cons_self
      rw [run, List.foldl_cons]
      refine (ih (fun u hu => hstores u (List.mem_cons_of_mem t hu))
        (fun u hu => hnot u (List.mem_cons_of_mem t hu)) (t.exec d s)).trans ?_
      by_cases hX : t.out.mat = p.mat
      · rw [exec_get hd (hstores t List.mem_cons_self) hX (hi.trans_le hv.rows_le), if_neg]
        rintro ⟨⟨⟨_, hm⟩, _, hn⟩, _⟩
        rw [hX] at hm hn
        exact ht ⟨hX, hm.symm.trans hrow, hn.symm.trans hcol⟩
      · unfold State.get
        rw [exec_of_ne hX]

/-- The matrix `X` after tasks that give its elements where `p` holds the values of `f`. -/
theorem run_eq_store (hd : ∀ X, (d X).Valid) (hstores : ∀ t ∈ tasks, t.Stores d)
    (hX : ∀ t ∈ tasks, t.out.mat = X) {p : ℕ → ℕ → Bool} {f : ℕ → ℕ → R}
    (hf : ∀ i < (d X).M, ∀ j < (d X).N,
      (run d tasks s).get d X i j = if p i j = true then f i j else s.get d X i j) :
    run d tasks s = Function.update s X
      (store (s X) 0 (d X).ld (d X).M (d X).N p f) := by
  obtain ⟨hother, hout⟩ := run_frame hd hstores hX s
  funext Y
  by_cases hY : Y = X
  · subst hY
    rw [Function.update_self]
    refine ext_entries (hd Y).ld_pos fun i hi j => ?_
    have hrows : 0 + (d Y).M ≤ (d Y).ld := by
      rw [Nat.zero_add]
      exact (hd Y).rows_le
    have hstore : entry (store (s Y) (0 + 0 * (d Y).ld) (d Y).ld (d Y).M (d Y).N p f) 0 (d Y).ld
        i j = _ := store_entry _ _ _ hrows hi
    rw [Nat.zero_mul, Nat.add_zero] at hstore
    rw [hstore, Nat.sub_zero, Nat.sub_zero]
    by_cases hij : i < (d Y).M ∧ j < (d Y).N
    · have hin : InBlock 0 0 (d Y).M (d Y).N i j :=
        ⟨⟨Nat.zero_le i, by omega⟩, Nat.zero_le j, by omega⟩
      exact (hf i hij.1 j hij.2).trans (if_congr (and_iff_right hin).symm rfl rfl)
    · rw [if_neg]
      · exact hout i j hi hij
      · rintro ⟨⟨⟨_, hM⟩, _, hN⟩, _⟩
        exact hij ⟨by omega, by omega⟩
  · rw [Function.update_of_ne hY]
    exact hother Y hY

/-- The elements of a matrix after such tasks. -/
theorem get_update_store (hd : (d X).Valid) {p : ℕ → ℕ → Bool} {f : ℕ → ℕ → R} {M N : ℕ}
    (hM : M = (d X).M) (hi : i < M) (hj : j < N) :
    State.get (Function.update s X (store (s X) 0 (d X).ld M N p f)) d X i j =
      if p i j = true then f i j else s.get d X i j := by
  have hrows : 0 + M ≤ (d X).ld := by
    rw [Nat.zero_add, hM]
    exact hd.rows_le
  have hstore : entry (store (s X) (0 + 0 * (d X).ld) (d X).ld M N p f) 0 (d X).ld i j = _ :=
    store_entry _ _ _ hrows (hi.trans_le (by omega))
  have hin : InBlock 0 0 M N i j := ⟨⟨Nat.zero_le i, by omega⟩, Nat.zero_le j, by omega⟩
  unfold State.get
  rw [Nat.zero_mul, Nat.add_zero] at hstore
  rw [Function.update_self, hstore]
  exact if_congr (and_iff_right hin) rfl rfl

end Xkblas.Blas
