import Mathlib.Algebra.CharZero.Defs
import Xkblas.Blas.Execution

/-!
# The bodies of copyscale

A task of `zcopyscale` copies a tile of `L` to the transposed tile of `U`, if it should, and divides
the columns of the tile of `L` by the diagonal of `D`. Both bodies are lists of assignments
(`Assign`) to elements. The CPU body takes the rows by blocks of 250 and computes the size of a
block from the start of the block times 250; the CUDA kernel has a thread for each element. `Visits`
says which elements a body processes, each of them once, and `nativeRow_iff_lt` when those of the
CPU body are the elements of the tile.
-/

namespace Xkblas.Blas

open Library

/-! ## Assignments -/

/-- An assignment to an element, by its row and its column in `U`. -/
inductive Assign where
  | copy (row col : ℕ)
  | scale (row col : ℕ)
  deriving DecidableEq

def Assign.row : Assign → ℕ
  | .copy row _ | .scale row _ => row

def Assign.col : Assign → ℕ
  | .copy _ col | .scale _ col => col

/-- The pointers and the leading dimensions of a task. -/
structure CopyScale where
  D : Tile
  L : Tile
  U : Tile

namespace CopyScale

variable {R : Type*} (d : Operand → Descr) (a : CopyScale)

/-- The address of `D[i_col + i_col * ldd]`. -/
def addrD (col : ℕ) : ℕ :=
  (d a.D.mat).addr a.D.m a.D.n + col + col * a.D.ld.toNat

/-- The address of `L[row * ldl + col]`. -/
def addrL (row col : ℕ) : ℕ :=
  (d a.L.mat).addr a.L.m a.L.n + row * a.L.ld.toNat + col

/-- The address of `U[row + col * ldu]`. -/
def addrU (row col : ℕ) : ℕ :=
  (d a.U.mat).addr a.U.m a.U.n + row + col * a.U.ld.toNat

/-- An assignment: `U[row + col * ldu] = L[row * ldl + col]`, or
`L[row * ldl + col] *= 1.0/D[col + col * ldd]`. -/
def assign [Field R] (s : State R) : Assign → State R
  | .copy row col =>
      Function.update s a.U.mat
        (Function.update (s a.U.mat) (a.addrU d row col) (s a.L.mat (a.addrL d row col)))
  | .scale row col =>
      Function.update s a.L.mat
        (Function.update (s a.L.mat) (a.addrL d row col)
          (s a.L.mat (a.addrL d row col) * (1 / s a.D.mat (a.addrD d col))))

end CopyScale

/-- The size of the block of rows that starts at `i_row_start`, the `int` that is
`MIN(bsizecopy, m - i_row_start * bsizecopy)` in `size_t`. -/
def copyBlock (m i_row_start : ℕ) : ℕ :=
  min 250 (sizeSub m (i_row_start * 250))

/-- `xkblas_zcopyscale_native`. The product `i_row_start * bsizecopy` is an `int`, and its overflow
is undefined. -/
def zcopyscaleNative (m n : ℕ) (should_copy : Bool) : Option (List Assign) :=
  if ∀ block < numTiles m 250, block * 250 * 250 < 2 ^ 31 then
    some <| forLoop 0 (numTiles m 250) fun block =>
      let i_row_start := block * 250
      let blocksize := copyBlock m i_row_start
      forLoop 0 n fun i_col =>
        (if should_copy then
          forLoop 0 blocksize fun i_row => [.copy (i_row_start + i_row) i_col]
        else []) ++
        forLoop 0 blocksize fun i_row => [.scale (i_row_start + i_row) i_col]
  else none

/-- `kernel_zcopyscale_1x1` on the grid of `cuda_zcopyscale`. A block of threads holds its part of
`L` in shared memory, so that the copies have the old elements. A launch takes at most 65535 blocks
in `y`, so 2097120 rows; the whole grid is taken here for every `m`. -/
def cudaZcopyscale (m n : ℕ) (should_copy : Bool) : List Assign :=
  forLoop 0 (numTiles m 32) fun blockIdx_y =>
    forLoop 0 (numTiles n 32) fun blockIdx_x =>
      let col_count := min (32 * (blockIdx_x + 1)) n - 32 * blockIdx_x
      let row_count := min (32 * (blockIdx_y + 1)) m - 32 * blockIdx_y
      (if should_copy then
        forLoop 0 row_count fun threadIdx_x =>
          forLoop 0 col_count fun threadIdx_y =>
            [.copy (32 * blockIdx_y + threadIdx_x) (32 * blockIdx_x + threadIdx_y)]
      else []) ++
      forLoop 0 row_count fun threadIdx_y =>
        forLoop 0 col_count fun threadIdx_x =>
          [.scale (32 * blockIdx_y + threadIdx_y) (32 * blockIdx_x + threadIdx_x)]

/-! ## The elements that a body processes -/

/-- What a body does to the element `(row, col)`. -/
def onElement (should_copy : Bool) (row col : ℕ) : List Assign :=
  (if should_copy then [.copy row col] else []) ++ [.scale row col]

/-- The assignment is one to the element `(row, col)`. -/
def Assign.at (row col : ℕ) (t : Assign) : Bool :=
  decide (t.row = row ∧ t.col = col)

/-- The assignments process the elements of the rows `rows` and of the first `n` columns, each of
them once. -/
def Visits (should_copy : Bool) (rows : ℕ → Prop) [DecidablePred rows] (n : ℕ)
    (tasks : List Assign) : Prop :=
  ∀ row col, tasks.filter (Assign.at row col) =
    if rows row ∧ col < n then onElement should_copy row col else []

section Visits

variable {should_copy : Bool} {m n row col : ℕ}

/-- The row is in the block that its number divided by 250 gives. -/
def nativeRow (m row : ℕ) : Prop :=
  row / 250 < numTiles m 250 ∧ row % 250 < copyBlock m (row / 250 * 250)

instance (m : ℕ) : DecidablePred (nativeRow m) :=
  fun _ => inferInstanceAs (Decidable (_ ∧ _))

/-- A loop over the rows of a column. -/
theorem filter_rows {f : ℕ → ℕ → Assign} (hf : ∀ r c, (f r c).row = r ∧ (f r c).col = c)
    (start size c : ℕ) :
    (forLoop 0 size fun i => [f (start + i) c]).filter (Assign.at row col) =
      if (start ≤ row ∧ row < start + size) ∧ c = col then [f row col] else [] := by
  have hat : ∀ i, [f (start + i) c].filter (Assign.at row col) =
      if start + i = row ∧ c = col then [f (start + i) c] else [] := by
    intro i
    simp only [List.filter_cons, List.filter_nil, Assign.at, hf, decide_eq_true_eq]
  rw [filter_forLoop]
  simp only [hat]
  split
  next h =>
    rw [forLoop_single (Nat.zero_le (row - start)) (by omega) fun i _ _ hi => if_neg (by omega)]
    rw [if_pos (by omega), h.2, show start + (row - start) = row by omega]
  next h => exact forLoop_nil fun i _ hi => if_neg (by omega)

theorem visits_native {tasks : List Assign} (h : zcopyscaleNative m n should_copy = some tasks) :
    Visits should_copy (nativeRow m) n tasks := by
  unfold zcopyscaleNative at h
  split at h
  next =>
    obtain rfl := Option.some.inj h
    intro row col
    -- the assignments of a block and a column
    have hblock : ∀ block c : ℕ,
        ((if should_copy then
            forLoop 0 (copyBlock m (block * 250)) fun i_row => [Assign.copy (block * 250 + i_row) c]
          else []) ++
          forLoop 0 (copyBlock m (block * 250)) fun i_row =>
            [Assign.scale (block * 250 + i_row) c]).filter (Assign.at row col) =
        if (block * 250 ≤ row ∧ row < block * 250 + copyBlock m (block * 250)) ∧ c = col then
          onElement should_copy row col else [] := by
      intro block c
      rw [List.filter_append, filter_rows (f := Assign.scale) fun _ _ => ⟨rfl, rfl⟩]
      unfold onElement
      cases should_copy with
      | false => simp
      | true =>
          simp only [if_true]
          rw [filter_rows (f := Assign.copy) fun _ _ => ⟨rfl, rfl⟩]
          split <;> rfl
    have hsize : ∀ block, copyBlock m (block * 250) ≤ 250 := fun block => min_le_left _ _
    simp only [filter_forLoop, hblock]
    split
    next hin =>
      obtain ⟨⟨hrow, hin⟩, hcol⟩ := hin
      rw [forLoop_single (Nat.zero_le (row / 250)) hrow, forLoop_single (Nat.zero_le col) hcol,
        if_pos]
      · omega
      · exact fun c _ _ hc => if_neg (by omega)
      · intro block _ _ hne
        have := hsize block
        exact forLoop_nil fun c _ _ => if_neg (by omega)
    next hout =>
      refine forLoop_nil fun block _ hblock => forLoop_nil fun c _ hc => if_neg ?_
      rintro ⟨⟨hlo, hhi⟩, rfl⟩
      have := hsize block
      obtain rfl : block = row / 250 := by omega
      exact hout ⟨⟨hblock, by omega⟩, hc⟩
  next => cases h

/-- The loops over the threads of a block. -/
theorem filter_threads {f : ℕ → ℕ → Assign} (hf : ∀ r c, (f r c).row = r ∧ (f r c).col = c)
    (r₀ c₀ rows cols : ℕ) :
    (forLoop 0 rows fun i => forLoop 0 cols fun j => [f (r₀ + i) (c₀ + j)]).filter
        (Assign.at row col) =
      if (r₀ ≤ row ∧ row < r₀ + rows) ∧ c₀ ≤ col ∧ col < c₀ + cols then [f row col] else [] := by
  have hat : ∀ i j, [f (r₀ + i) (c₀ + j)].filter (Assign.at row col) =
      if r₀ + i = row ∧ c₀ + j = col then [f (r₀ + i) (c₀ + j)] else [] := by
    intro i j
    simp only [List.filter_cons, List.filter_nil, Assign.at, hf, decide_eq_true_eq]
  simp only [filter_forLoop, hat]
  split
  next h =>
    rw [forLoop_single (Nat.zero_le (row - r₀)) (by omega),
      forLoop_single (Nat.zero_le (col - c₀)) (by omega), if_pos (by omega),
      show r₀ + (row - r₀) = row by omega, show c₀ + (col - c₀) = col by omega]
    · exact fun j _ _ hj => if_neg (by omega)
    · exact fun i _ _ hi => forLoop_nil fun j _ _ => if_neg (by omega)
  next h => exact forLoop_nil fun i _ hi => forLoop_nil fun j _ hj => if_neg (by omega)

theorem visits_cuda : Visits should_copy (· < m) n (cudaZcopyscale m n should_copy) := by
  intro row col
  -- the assignments of a block of threads
  have hblock : ∀ y x row_count col_count : ℕ,
      ((if should_copy then
          forLoop 0 row_count fun i => forLoop 0 col_count fun j =>
            [Assign.copy (32 * y + i) (32 * x + j)]
        else []) ++
        forLoop 0 row_count fun i => forLoop 0 col_count fun j =>
          [Assign.scale (32 * y + i) (32 * x + j)]).filter (Assign.at row col) =
      if (32 * y ≤ row ∧ row < 32 * y + row_count) ∧
          32 * x ≤ col ∧ col < 32 * x + col_count then
        onElement should_copy row col else [] := by
    intro y x row_count col_count
    rw [List.filter_append, filter_threads (f := Assign.scale) fun _ _ => ⟨rfl, rfl⟩]
    unfold onElement
    cases should_copy with
    | false => simp
    | true =>
        simp only [if_true]
        rw [filter_threads (f := Assign.copy) fun _ _ => ⟨rfl, rfl⟩]
        split <;> rfl
  unfold cudaZcopyscale
  simp only [filter_forLoop, hblock]
  split
  next hin =>
    obtain ⟨hrow, hcol⟩ := hin
    rw [forLoop_single (Nat.zero_le (row / 32)) (div_lt_numTiles (by decide) hrow),
      forLoop_single (Nat.zero_le (col / 32)) (div_lt_numTiles (by decide) hcol), if_pos (by omega)]
    · exact fun x _ _ hx => if_neg (by omega)
    · exact fun y _ _ hy => forLoop_nil fun x _ _ => if_neg (by omega)
  next hout => exact forLoop_nil fun y _ _ => forLoop_nil fun x _ _ => if_neg (by omega)

end Visits

/-! ## What the assignments do -/

section Run

variable {R : Type*} [Field R] {d : Operand → Descr} {a : CopyScale} {should_copy : Bool}
  {rows : ℕ → Prop} [DecidablePred rows] {n row col : ℕ} {tasks tasks' : List Assign}

/-- The assignments in their order. -/
def CopyScale.run (d : Operand → Descr) (a : CopyScale) (tasks : List Assign) (s : State R) :
    State R :=
  tasks.foldl (a.assign d) s

/-- The pointers of a task are to three matrices, and the leading dimension of `L` is that of at
least `n` columns. -/
structure CopyScale.Legal (a : CopyScale) (n : ℕ) : Prop where
  D_ne_L : a.D.mat ≠ a.L.mat
  D_ne_U : a.D.mat ≠ a.U.mat
  L_ne_U : a.L.mat ≠ a.U.mat
  le_ldl : n ≤ a.L.ld.toNat

theorem CopyScale.addrL_inj {r c : ℕ} (hc : c < a.L.ld.toNat) (hcol : col < a.L.ld.toNat)
    (h : a.addrL d r c = a.addrL d row col) : r = row ∧ c = col := by
  unfold CopyScale.addrL at h
  exact mul_add_inj hc hcol (by omega)

theorem CopyScale.addrU_inj {r c : ℕ} (hr : r < a.U.ld.toNat) (hrow : row < a.U.ld.toNat)
    (h : a.addrU d r c = a.addrU d row col) : r = row ∧ c = col := by
  unfold CopyScale.addrU at h
  exact (mul_add_inj hr hrow (by omega)).symm

theorem Visits.mem (h : Visits should_copy rows n tasks) {t : Assign} (ht : t ∈ tasks) :
    (rows t.row ∧ t.col < n) ∧
      (t = .copy t.row t.col ∧ should_copy = true ∨ t = .scale t.row t.col) := by
  have hmem : t ∈ tasks.filter (Assign.at t.row t.col) :=
    List.mem_filter.mpr ⟨ht, by simp [Assign.at]⟩
  rw [h t.row t.col] at hmem
  split at hmem
  next hin =>
    refine ⟨hin, ?_⟩
    unfold onElement at hmem
    cases should_copy with
    | false => exact .inr (by simpa using hmem)
    | true =>
        rcases List.mem_cons.mp hmem with hmem | hmem
        · exact .inl ⟨hmem, rfl⟩
        · exact .inr (by simpa using hmem)
  next => cases hmem

/-- An element of `L` and its divisor. -/
def CopyScale.elementL (d : Operand → Descr) (a : CopyScale) (row col : ℕ) (s : State R) : R × R :=
  (s a.L.mat (a.addrL d row col), s a.D.mat (a.addrD d col))

/-- The element of `U` to which it is copied, with them. -/
def CopyScale.element (d : Operand → Descr) (a : CopyScale) (row col : ℕ) (s : State R) :
    R × R × R :=
  (s a.U.mat (a.addrU d row col), a.elementL d row col s)

/-- What an assignment to the element does to the element of `L`. -/
def Assign.actL (x : R × R) : Assign → R × R
  | .copy _ _ => x
  | .scale _ _ => (x.1 * (1 / x.2), x.2)

/-- What it does to both elements. -/
def Assign.act (x : R × R × R) (t : Assign) : R × R × R :=
  (match t with
    | .copy _ _ => x.2.1
    | .scale _ _ => x.1, Assign.actL x.2 t)

/-- The value that the assignments give to an element of `L`. -/
theorem Visits.get_L (h : Visits should_copy rows n tasks) (hmat : a.Legal n) (hcol : col < n)
    (s : State R) :
    a.run d tasks s a.L.mat (a.addrL d row col) =
      if rows row then
        s a.L.mat (a.addrL d row col) * (1 / s a.D.mat (a.addrD d col))
      else s a.L.mat (a.addrL d row col) := by
  have hlt := hmat.le_ldl
  have hobs : a.elementL d row col (a.run d tasks s) =
      (tasks.filter (Assign.at row col)).foldl Assign.actL (a.elementL d row col s) := by
    refine foldl_observe _ _ _ ?_ ?_ s
    · intro t ht hat s
      simp only [Assign.at, decide_eq_true_eq] at hat
      cases t with
      | copy r c =>
          simp only [CopyScale.elementL, Assign.actL, CopyScale.assign,
            Function.update_of_ne hmat.L_ne_U, Function.update_of_ne hmat.D_ne_U]
      | scale r c =>
          obtain ⟨rfl, rfl⟩ : r = row ∧ c = col := hat
          simp only [CopyScale.elementL, Assign.actL, CopyScale.assign, Function.update_self,
            Function.update_of_ne hmat.D_ne_L]
    · intro t ht hat s
      simp only [Assign.at, decide_eq_false_iff_not] at hat
      cases t with
      | copy r c =>
          simp only [CopyScale.elementL, CopyScale.assign, Function.update_of_ne hmat.L_ne_U,
            Function.update_of_ne hmat.D_ne_U]
      | scale r c =>
          have hc : c < n := (h.mem ht).1.2
          have hne : a.addrL d row col ≠ a.addrL d r c := by
            intro heq
            obtain ⟨hr, hc⟩ := CopyScale.addrL_inj (by omega) (by omega) heq
            exact hat ⟨hr.symm, hc.symm⟩
          simp only [CopyScale.elementL, CopyScale.assign, Function.update_self,
            Function.update_of_ne hmat.D_ne_L, Function.update_of_ne hne]
  have hfst := congrArg Prod.fst hobs
  rw [h row col] at hfst
  refine hfst.trans ?_
  simp only [hcol, and_true]
  split
  · unfold onElement
    cases should_copy <;> rfl
  · rfl

/-- The value that they give to an element of `U`. -/
theorem Visits.get_U (h : Visits should_copy rows n tasks) (hmat : a.Legal n)
    (hrows : ∀ r, rows r → r < a.U.ld.toNat) (hrow : rows row) (hcol : col < n) (s : State R) :
    a.run d tasks s a.U.mat (a.addrU d row col) =
      if should_copy then s a.L.mat (a.addrL d row col) else s a.U.mat (a.addrU d row col) := by
  have hlt := hmat.le_ldl
  have hobs : a.element d row col (a.run d tasks s) =
      (tasks.filter (Assign.at row col)).foldl Assign.act (a.element d row col s) := by
    refine foldl_observe _ _ _ ?_ ?_ s
    · intro t ht hat s
      simp only [Assign.at, decide_eq_true_eq] at hat
      cases t with
      | copy r c =>
          obtain ⟨rfl, rfl⟩ : r = row ∧ c = col := hat
          simp only [CopyScale.element, CopyScale.elementL, Assign.act, Assign.actL,
            CopyScale.assign, Function.update_self, Function.update_of_ne hmat.L_ne_U,
            Function.update_of_ne hmat.D_ne_U]
      | scale r c =>
          obtain ⟨rfl, rfl⟩ : r = row ∧ c = col := hat
          simp only [CopyScale.element, CopyScale.elementL, Assign.act, Assign.actL,
            CopyScale.assign, Function.update_self, Function.update_of_ne hmat.D_ne_L,
            Function.update_of_ne hmat.L_ne_U.symm]
    · intro t ht hat s
      simp only [Assign.at, decide_eq_false_iff_not] at hat
      obtain ⟨⟨hr, hc⟩, _⟩ := h.mem ht
      cases t with
      | copy r c =>
          have hne : a.addrU d row col ≠ a.addrU d r c := by
            intro heq
            obtain ⟨hr, hc⟩ := CopyScale.addrU_inj (hrows row hrow) (hrows r hr) heq
            exact hat ⟨hr.symm, hc.symm⟩
          simp only [CopyScale.element, CopyScale.elementL, CopyScale.assign,
            Function.update_self, Function.update_of_ne hmat.L_ne_U,
            Function.update_of_ne hmat.D_ne_U, Function.update_of_ne hne]
      | scale r c =>
          have hc : c < n := hc
          have hne : a.addrL d row col ≠ a.addrL d r c := by
            intro heq
            obtain ⟨hr, hc⟩ := CopyScale.addrL_inj (by omega) (by omega) heq
            exact hat ⟨hr.symm, hc.symm⟩
          simp only [CopyScale.element, CopyScale.elementL, CopyScale.assign,
            Function.update_self, Function.update_of_ne hmat.D_ne_L,
            Function.update_of_ne hmat.L_ne_U.symm, Function.update_of_ne hne]
  have hfst := congrArg Prod.fst hobs
  rw [h row col, if_pos ⟨hrow, hcol⟩] at hfst
  refine hfst.trans ?_
  unfold onElement
  cases should_copy <;> rfl

/-- An element that no assignment names keeps its value. -/
theorem CopyScale.run_frame {X : Operand} {i : ℕ}
    (hL : X = a.L.mat → ∀ t ∈ tasks, i ≠ a.addrL d t.row t.col)
    (hU : X = a.U.mat → ∀ t ∈ tasks, t = .copy t.row t.col → i ≠ a.addrU d t.row t.col)
    (s : State R) : a.run d tasks s X i = s X i := by
  induction tasks generalizing s with
  | nil => rfl
  | cons t tasks ih =>
      refine (ih (fun h u hu => hL h u (List.mem_cons_of_mem t hu))
        (fun h u hu => hU h u (List.mem_cons_of_mem t hu)) (a.assign d s t)).trans ?_
      cases t with
      | copy r c =>
          by_cases hX : X = a.U.mat
          · have hne : i ≠ a.addrU d r c := hU hX _ List.mem_cons_self rfl
            subst hX
            simp only [CopyScale.assign, Function.update_self, Function.update_of_ne hne]
          · simp only [CopyScale.assign, Function.update_of_ne hX]
      | scale r c =>
          by_cases hX : X = a.L.mat
          · have hne : i ≠ a.addrL d r c := hL hX _ List.mem_cons_self
            subst hX
            simp only [CopyScale.assign, Function.update_self, Function.update_of_ne hne]
          · simp only [CopyScale.assign, Function.update_of_ne hX]

/-- Two lists of assignments that process the same elements do the same. -/
theorem run_eq_of_visits (h : Visits should_copy rows n tasks)
    (h' : Visits should_copy rows n tasks') (hmat : a.Legal n)
    (hrows : ∀ r, rows r → r < a.U.ld.toNat) (s : State R) :
    a.run d tasks s = a.run d tasks' s := by
  funext X i
  by_cases hL : X = a.L.mat ∧ ∃ row, rows row ∧ ∃ col < n, i = a.addrL d row col
  · obtain ⟨rfl, row, _, col, hcol, rfl⟩ := hL
    rw [h.get_L hmat hcol, h'.get_L hmat hcol]
  · by_cases hU : X = a.U.mat ∧ ∃ row, rows row ∧ ∃ col < n, i = a.addrU d row col
    · obtain ⟨rfl, row, hrow, col, hcol, rfl⟩ := hU
      rw [h.get_U hmat hrows hrow hcol, h'.get_U hmat hrows hrow hcol]
    · have hframe : ∀ {tasks}, Visits should_copy rows n tasks → a.run d tasks s X i = s X i := by
        intro tasks h
        refine CopyScale.run_frame (fun hX t ht hi => ?_) (fun hX t ht _ hi => ?_) s
        · exact hL ⟨hX, _, (h.mem ht).1.1, _, (h.mem ht).1.2, hi⟩
        · exact hU ⟨hX, _, (h.mem ht).1.1, _, (h.mem ht).1.2, hi⟩
      rw [hframe h, hframe h']

end Run

/-! ## The comparison of the bodies -/

/-- The blocks of the CPU body are the rows of the tile, and the products that give their sizes do
not overflow. -/
def NativeExact (m : ℕ) : Prop :=
  m ≤ 250 ∨ 250 ∣ m ∧ ¬ 62500 ∣ m ∧ (m - 250) * 250 < 2 ^ 31

theorem nativeRow_iff_lt {m row : ℕ} (hm : m < 2 ^ 31) (h : NativeExact m) :
    nativeRow m row ↔ row < m := by
  unfold nativeRow copyBlock sizeSub
  rw [lt_numTiles (by decide)]
  rcases h with h | ⟨h250, h62500, _⟩
  · split
    · omega
    · omega
  · obtain ⟨q, rfl⟩ := h250
    split
    · -- a full block, since the rest of the size is a multiple of 250 other than zero
      have hne : 250 * q ≠ row / 250 * 250 * 250 := fun heq => h62500 ⟨row / 250, by omega⟩
      omega
    · omega

/-- The rows of the first block. -/
theorem nativeRow_of_lt {m row : ℕ} (hrow : row < m) (hblock : row < 250) : nativeRow m row := by
  unfold nativeRow copyBlock sizeSub
  rw [lt_numTiles (by decide), Nat.div_eq_of_lt hblock, if_pos (by omega)]
  omega

/-- The last block starts in the tile. -/
theorem nativeRow.lt_add {m row : ℕ} (h : nativeRow m row) : row < m + 250 := by
  have hblock := (lt_numTiles (by decide)).mp h.1
  omega

theorem NativeExact.no_overflow {m : ℕ} (h : NativeExact m) :
    ∀ block < numTiles m 250, block * 250 * 250 < 2 ^ 31 := by
  intro block hblock
  have hlt := (lt_numTiles (by decide)).mp hblock
  rcases h with h | ⟨h250, _, h⟩
  · obtain rfl : block = 0 := by omega
    decide
  · refine lt_of_le_of_lt ?_ h
    omega

/-- The products of a body that is defined do not overflow. -/
theorem no_overflow_of_native {m n : ℕ} {should_copy : Bool} {tasks : List Assign}
    (h : zcopyscaleNative m n should_copy = some tasks) :
    ∀ block < numTiles m 250, block * 250 * 250 < 2 ^ 31 := by
  unfold zcopyscaleNative at h
  split at h
  case isTrue hdef => exact hdef
  case isFalse => cases h

theorem nativeExact_of_rows {m : ℕ} (hm : m < 2 ^ 31)
    (hdef : ∀ block < numTiles m 250, block * 250 * 250 < 2 ^ 31)
    (h : ∀ row, nativeRow m row ↔ row < m) : NativeExact m := by
  by_contra hnot
  unfold NativeExact at hnot
  have hlarge : 250 < m := by
    by_contra hle
    exact hnot (.inl (by omega))
  by_cases h250 : 250 ∣ m
  · by_cases h62500 : 62500 ∣ m
    · -- the block at `m / 250` is empty
      obtain ⟨q, rfl⟩ := h62500
      have hrow := (h (250 * q)).mpr (by omega)
      unfold nativeRow copyBlock sizeSub at hrow
      rw [if_pos (by omega)] at hrow
      omega
    · refine hnot (.inr ⟨h250, h62500, ?_⟩)
      obtain ⟨q, rfl⟩ := h250
      have hlast := hdef (q - 1) ((lt_numTiles (by decide)).mpr (by omega))
      rwa [show (250 * q - 250) * 250 = (q - 1) * 250 * 250 by omega]
  · -- the last block has rows after the tile
    refine lt_irrefl m ((h m).mp ⟨(lt_numTiles (by decide)).mpr (by omega), ?_⟩)
    unfold copyBlock sizeSub
    rw [if_neg (by omega)]
    omega

section Compare

variable {R : Type*} [Field R] [CharZero R] {d : Operand → Descr} {a : CopyScale}
  {should_copy : Bool} {m n : ℕ}

/-- The CPU body is defined and does what the kernel does, for every content of the matrices. -/
def CopyScale.BodiesAgree (R : Type*) [Field R] (d : Operand → Descr) (a : CopyScale) (m n : ℕ)
    (should_copy : Bool) : Prop :=
  ∃ tasks, zcopyscaleNative m n should_copy = some tasks ∧
    ∀ s : State R, a.run d tasks s = a.run d (cudaZcopyscale m n should_copy) s

theorem copyScale_bodies_agree_iff (hmat : a.Legal n) (hn : 1 ≤ n) (hm : m < 2 ^ 31)
    (hldu : m ≤ a.U.ld.toNat) :
    a.BodiesAgree R d m n should_copy ↔ NativeExact m := by
  constructor
  · intro h
    obtain ⟨tasks, htasks, hrun⟩ := h
    have hvisits := visits_native htasks
    refine nativeExact_of_rows hm (no_overflow_of_native htasks) fun row => ?_
    · -- `L` is one and `D` is two
      have hrun := congrFun (congrFun (hrun fun X _ => if X = a.D.mat then 2 else 1) a.L.mat)
        (a.addrL d row 0)
      rw [hvisits.get_L hmat hn, visits_cuda.get_L hmat hn] at hrun
      simp only [if_neg hmat.D_ne_L.symm, if_true] at hrun
      have hhalf : (1 : R) * (1 / 2) ≠ 1 := by
        have htwo : (2 : R) ≠ 0 := by exact_mod_cast (by decide : (2 : ℕ) ≠ 0)
        rw [one_mul, ne_eq, div_eq_one_iff_eq htwo]
        exact_mod_cast (by decide : (1 : ℕ) ≠ 2)
      constructor
      · intro hnative
        by_contra hlt
        rw [if_pos hnative, if_neg hlt] at hrun
        exact hhalf hrun
      · intro hlt
        by_contra hnative
        rw [if_neg hnative, if_pos hlt] at hrun
        exact hhalf hrun.symm
  · intro hexact
    have htasks : zcopyscaleNative m n should_copy = some _ := if_pos hexact.no_overflow
    refine ⟨_, htasks, fun s => run_eq_of_visits ?_ visits_cuda hmat (fun r hr => by omega) s⟩
    have hvisits := visits_native htasks
    intro row col
    rw [hvisits row col]
    simp only [nativeRow_iff_lt hm hexact]

end Compare

end Xkblas.Blas
