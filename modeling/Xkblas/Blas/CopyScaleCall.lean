import Xkblas.Blas.Bodies
import Xkblas.Blas.CopyScaleKernel
import Xkblas.Library.ListUpdate
import Mathlib.Algebra.Order.Field.Rat
import Mathlib.Algebra.Order.GroupWithZero.Basic
import Mathlib.Data.List.ProdSigma

/-!
# A call of copyscale

The tasks of `xkblas_zcopyscale_async` divide the columns of `L` by the diagonal of `D`, and copy
the old `L` to the transposed `U` if they should. Each task runs its body for the CPU or for the
GPU. `copyScale_correct_iff` says for which sizes and which choice of the bodies the call does
this for all matrices over all fields, and touches nothing else: the tiles whose tasks run on the
CPU have to meet `NativeExact`.

In the coordinates of the whole matrices the body of a task is a list of assignments. A row that the
body for the CPU adds to its tile is a row of the next tile, which is then scaled twice, or one
after the matrix; a row that it leaves out is in no other tile.
-/

namespace Xkblas.Blas

open Library

/-! ## The tasks -/

/-- A call of `xkblas_zcopyscale_async`, with the sizes of the tiles. -/
structure CopyCall where
  m_block : ℕ
  n_block : ℕ
  M : ℕ
  N : ℕ
  should_copy : Bool
  ldd : ℕ
  ldl : ℕ
  ldu : ℕ

/-- The arguments of a task. -/
structure CopyTask where
  m : ℕ
  n : ℕ
  tiles : CopyScale

namespace CopyCall

variable (c : CopyCall)

/-- The descriptors of `D`, `L` and `U`. -/
def descr : Operand → Descr :=
  zcopyscaleDescr c.m_block c.n_block c.M c.N c.ldd c.ldl c.ldu

/-- The task of an iteration of the loops, by `blockIdx_m` and `blockIdx_n`. -/
def task (k : ℕ × ℕ) : CopyTask where
  m := min (sizeSub c.M (k.1 * (c.descr .B).nb)) (c.descr .B).nb
  n := min (sizeSub c.N (k.2 * (c.descr .B).mb)) (c.descr .B).mb
  tiles := ⟨⟨.A, k.2, k.2, c.ldd⟩, ⟨.B, k.2, k.1, c.ldl⟩, ⟨.C, k.1, k.2, c.ldu⟩⟩

/-- The iterations of the loops. -/
def indices : List (ℕ × ℕ) :=
  (List.range (c.descr .B).nt).product (List.range (c.descr .B).mt)

/-- The checks of the call accept the leading dimensions, and the sizes of the tiles are values of
type `int`. -/
structure Accepted : Prop where
  m_block : 1 ≤ c.m_block ∧ c.m_block < 2 ^ 31
  n_block : 1 ≤ c.n_block ∧ c.n_block < 2 ^ 31
  M : 1 ≤ c.M
  N : 1 ≤ c.N
  runs : zcopyscaleRuns c.M c.N c.ldd c.ldl c.ldu = .ok true

end CopyCall

/-- The body of a task. -/
def CopyTask.exec {R : Type} [Field R] (d : Operand → Descr) (should_copy onGpu : Bool)
    (schedule : CopySchedule R) (t : CopyTask) (s : State R) : Option (State R) :=
  if onGpu = true then some (launchZcopyscale d t.tiles t.m t.n should_copy schedule s)
  else (zcopyscaleNative t.m t.n should_copy).map fun tasks => t.tiles.run d tasks s

/-- An execution of the tasks: their order, and the schedules of those that run on the GPU. -/
structure CopyExecution (R : Type) where
  order : List (ℕ × ℕ)
  schedule : ℕ × ℕ → CopySchedule R

/-- Every task runs once. No two of them depend on each other. -/
structure CopyExecution.Complete {R : Type} (c : CopyCall) (execution : CopyExecution R) :
    Prop where
  order : execution.order.Perm c.indices
  schedule : ∀ k, (execution.schedule k).Complete (c.task k).m (c.task k).n

/-- The execution of the tasks. -/
def CopyCall.exec {R : Type} [Field R] (c : CopyCall) (onGpu : ℕ × ℕ → Bool)
    (execution : CopyExecution R) (s : State R) : Option (State R) :=
  execution.order.foldlM
    (fun s k => (c.task k).exec c.descr c.should_copy (onGpu k) (execution.schedule k) s) s

/-- The matrices after the call: `s` holds `D`, `L` and `U` before it. -/
structure CopyCall.Scaled {R : Type} [Field R] (c : CopyCall) (s s' : State R) : Prop where
  lower : ∀ i < c.N, ∀ j < c.M, s' .B (i + j * c.ldl) = s .B (i + j * c.ldl) / s .A (i + i * c.ldd)
  upper : c.should_copy = true → ∀ i < c.N, ∀ j < c.M,
    s' .C (j + i * c.ldu) = s .B (i + j * c.ldl)
  frame : ∀ X x, (X = .B → ∀ i < c.N, ∀ j < c.M, x ≠ i + j * c.ldl) →
    (X = .C → c.should_copy = true → ∀ i < c.N, ∀ j < c.M, x ≠ j + i * c.ldu) → s' X x = s X x

/-- The body of a task reads or writes the element of its tile of `L`, or its image in `U`. -/
def CopyTask.Touches (should_copy onGpu : Bool) (t : CopyTask) (row col : ℕ) : Prop :=
  if onGpu = true then
    ∃ block thread : Dim,
      InTile t.m t.n block thread ∧ row = 32 * block.y + thread.y ∧
          col = 32 * block.x + thread.x ∨
        Copies should_copy t.m t.n block thread ∧ row = 32 * block.y + thread.x ∧
          col = 32 * block.x + thread.y
  else
    ∃ tasks, zcopyscaleNative t.m t.n should_copy = some tasks ∧
      ∃ x ∈ tasks, row = x.row ∧ col = x.col

/-- No task reads or writes elements outside of the matrices. -/
def CopyCall.Inside (c : CopyCall) (onGpu : ℕ × ℕ → Bool) : Prop :=
  ∀ k ∈ c.indices, ∀ row col, (c.task k).Touches c.should_copy (onGpu k) row col →
    k.1 * c.m_block + row < c.M ∧ k.2 * c.n_block + col < c.N

/-- Over every field, for all matrices with a diagonal `D` without zeros and in every order of the
tasks, of the blocks and of the threads, the call scales `L` and copies it. -/
structure CopyCall.Correct (c : CopyCall) (onGpu : ℕ × ℕ → Bool) : Prop where
  inside : c.Inside onGpu
  scaled : ∀ (R : Type) [Field R] (execution : CopyExecution R) (s : State R),
    execution.Complete c → (∀ i < c.N, s .A (i + i * c.ldd) ≠ 0) →
      ∃ s', c.exec onGpu execution s = some s' ∧ c.Scaled s s'

/-! ## The assignments of a task -/

/-- The assignment in the coordinates of the whole matrices. -/
def Assign.shift (row col : ℕ) : Assign → Assign
  | .copy r c => .copy (row + r) (col + c)
  | .scale r c => .scale (row + r) (col + c)

/-- The rows of its tile that a body processes. -/
def bodyRow (onGpu : Bool) (m row : ℕ) : Prop :=
  if onGpu = true then row < m else nativeRow m row

instance (onGpu : Bool) (m : ℕ) : DecidablePred (bodyRow onGpu m) :=
  fun _ => inferInstanceAs (Decidable (if onGpu = true then _ else _))

namespace CopyCall

variable {c : CopyCall} {onGpu : ℕ × ℕ → Bool} {k : ℕ × ℕ}

/-- The whole matrices. -/
def whole (c : CopyCall) : CopyScale :=
  ⟨⟨.A, 0, 0, c.ldd⟩, ⟨.B, 0, 0, c.ldl⟩, ⟨.C, 0, 0, c.ldu⟩⟩

/-- The assignments of the body of a task, unless its behaviour is undefined. -/
def assigns (c : CopyCall) (onGpu : ℕ × ℕ → Bool) (k : ℕ × ℕ) : Option (List Assign) :=
  if onGpu k = true then some (cudaZcopyscale (c.task k).m (c.task k).n c.should_copy)
  else zcopyscaleNative (c.task k).m (c.task k).n c.should_copy

/-- The assignments of a task in the coordinates of the whole matrices. -/
def shifted (c : CopyCall) (onGpu : ℕ × ℕ → Bool) (k : ℕ × ℕ) : List Assign :=
  ((c.assigns onGpu k).getD []).map (Assign.shift (k.1 * c.m_block) (k.2 * c.n_block))

/-- An iteration of the loops. -/
structure Valid (c : CopyCall) (k : ℕ × ℕ) : Prop where
  row : k.1 < numTiles c.M c.m_block
  col : k.2 < numTiles c.N c.n_block

theorem mem_indices : k ∈ c.indices ↔ c.Valid k := by
  obtain ⟨p, q⟩ := k
  unfold indices
  rw [List.pair_mem_product, List.mem_range, List.mem_range]
  exact ⟨fun h => ⟨h.1, h.2⟩, fun h => ⟨h.row, h.col⟩⟩

theorem nodup_indices : c.indices.Nodup :=
  List.nodup_range.product List.nodup_range

theorem Accepted.le_ld (h : c.Accepted) : c.N ≤ c.ldd ∧ c.N ≤ c.ldl ∧ c.M ≤ c.ldu := by
  have hruns := h.runs
  simp only [zcopyscaleRuns] at hruns
  split_ifs at hruns
  omega

/-- The sizes of a task are those of its tile. -/
theorem Accepted.task_size (h : c.Accepted) (hk : c.Valid k) :
    (c.task k).m = tileSize c.M c.m_block k.1 ∧ (c.task k).n = tileSize c.N c.n_block k.2 := by
  have hsize : ∀ {L b i : ℕ}, 0 < b → i < numTiles L b →
      min (sizeSub L (i * b)) b = tileSize L b i := by
    intro L b i hb hi
    have hstart := (lt_numTiles hb).mp hi
    have hle := tileSize_le hb hi
    have htile := tile_le hb hi
    unfold sizeSub
    rw [if_pos hstart.le]
    unfold tileSize at hle htile ⊢
    split
    case isTrue hlast =>
      rw [if_pos hlast] at hle
      omega
    case isFalse hlast =>
      rw [if_neg hlast] at htile
      omega
  exact ⟨hsize h.m_block.1 hk.row, hsize h.n_block.1 hk.col⟩

theorem Accepted.legal (h : c.Accepted) (hk : c.Valid k) :
    (c.task k).tiles.Legal (c.task k).n ∧ (c.task k).m ≤ (c.task k).tiles.U.ld.toNat := by
  obtain ⟨hm, hn⟩ := h.task_size hk
  obtain ⟨-, hldl, hldu⟩ := h.le_ld
  have hrow := tile_le h.m_block.1 hk.row
  have hcol := tile_le h.n_block.1 hk.col
  refine ⟨⟨Operand.noConfusion, Operand.noConfusion, Operand.noConfusion, ?_⟩, ?_⟩
  · show (c.task k).n ≤ ((c.ldl : ℕ) : ℤ).toNat
    omega
  · show (c.task k).m ≤ ((c.ldu : ℕ) : ℤ).toNat
    omega

theorem Accepted.whole_legal (h : c.Accepted) : c.whole.Legal c.N where
  D_ne_L := Operand.noConfusion
  D_ne_U := Operand.noConfusion
  L_ne_U := Operand.noConfusion
  le_ldl := h.le_ld.2.1

theorem whole_addrL (row col : ℕ) : c.whole.addrL c.descr row col = col + row * c.ldl := by
  show 0 * c.n_block + 0 * c.m_block * c.ldl + row * ((c.ldl : ℕ) : ℤ).toNat + col = _
  rw [Int.toNat_natCast]
  omega

theorem whole_addrU (row col : ℕ) : c.whole.addrU c.descr row col = row + col * c.ldu := by
  show 0 * c.m_block + 0 * c.n_block * c.ldu + row + col * ((c.ldu : ℕ) : ℤ).toNat = _
  rw [Int.toNat_natCast]
  omega

theorem whole_addrD (col : ℕ) : c.whole.addrD c.descr col = col + col * c.ldd := by
  show 0 * c.n_block + 0 * c.n_block * c.ldd + col + col * ((c.ldd : ℕ) : ℤ).toNat = _
  rw [Int.toNat_natCast]
  omega

section Shift

variable (c k)

theorem task_addrL (row col : ℕ) : (c.task k).tiles.addrL c.descr row col =
    c.whole.addrL c.descr (k.1 * c.m_block + row) (k.2 * c.n_block + col) := by
  rw [whole_addrL]
  show k.2 * c.n_block + k.1 * c.m_block * c.ldl + row * ((c.ldl : ℕ) : ℤ).toNat + col = _
  rw [Int.toNat_natCast, Nat.add_mul]
  omega

theorem task_addrU (row col : ℕ) : (c.task k).tiles.addrU c.descr row col =
    c.whole.addrU c.descr (k.1 * c.m_block + row) (k.2 * c.n_block + col) := by
  rw [whole_addrU]
  show k.1 * c.m_block + k.2 * c.n_block * c.ldu + row + col * ((c.ldu : ℕ) : ℤ).toNat = _
  rw [Int.toNat_natCast, Nat.add_mul]
  omega

theorem task_addrD (col : ℕ) : (c.task k).tiles.addrD c.descr col =
    c.whole.addrD c.descr (k.2 * c.n_block + col) := by
  rw [whole_addrD]
  show k.2 * c.n_block + k.2 * c.n_block * c.ldd + col + col * ((c.ldd : ℕ) : ℤ).toNat = _
  rw [Int.toNat_natCast, Nat.add_mul]
  omega

variable {R : Type} [Field R]

theorem assign_shift (s : State R) (t : Assign) :
    (c.task k).tiles.assign c.descr s t =
      c.whole.assign c.descr s (t.shift (k.1 * c.m_block) (k.2 * c.n_block)) := by
  cases t with
  | copy row col =>
      simp only [CopyScale.assign, Assign.shift, ← task_addrU, ← task_addrL]
      rfl
  | scale row col =>
      simp only [CopyScale.assign, Assign.shift, ← task_addrL, ← task_addrD]
      rfl

/-- A list of assignments to tiles, as one to the whole matrices. -/
theorem run_shift (tasks : List Assign) (s : State R) :
    (c.task k).tiles.run c.descr tasks s =
      c.whole.run c.descr (tasks.map (Assign.shift (k.1 * c.m_block) (k.2 * c.n_block))) s := by
  unfold CopyScale.run
  rw [List.foldl_map]
  congr 1
  funext s t
  exact assign_shift c k s t

end Shift

/-! ## The elements that a task processes -/

/-- The task processes the element. -/
def Processes (c : CopyCall) (onGpu : ℕ × ℕ → Bool) (k : ℕ × ℕ) (row col : ℕ) : Prop :=
  (k.1 * c.m_block ≤ row ∧ bodyRow (onGpu k) (c.task k).m (row - k.1 * c.m_block)) ∧
    k.2 * c.n_block ≤ col ∧ col - k.2 * c.n_block < (c.task k).n

instance (c : CopyCall) (onGpu : ℕ × ℕ → Bool) (k : ℕ × ℕ) (row col : ℕ) :
    Decidable (c.Processes onGpu k row col) :=
  inferInstanceAs (Decidable ((_ ∧ _) ∧ _ ∧ _))

theorem visits_assigns {l : List Assign} (h : c.assigns onGpu k = some l) :
    Visits c.should_copy (bodyRow (onGpu k) (c.task k).m) (c.task k).n l := by
  intro row col
  unfold assigns at h
  split at h
  case isTrue hgpu =>
    cases h
    simp only [bodyRow, hgpu, if_true]
    exact visits_cuda row col
  case isFalse hcpu =>
    simp only [bodyRow, if_neg hcpu]
    exact visits_native h row col

theorem filter_shift (r₀ c₀ row col : ℕ) (l : List Assign) :
    (l.map (Assign.shift r₀ c₀)).filter (Assign.at row col) =
      if r₀ ≤ row ∧ c₀ ≤ col then
        (l.filter (Assign.at (row - r₀) (col - c₀))).map (Assign.shift r₀ c₀)
      else [] := by
  rw [List.filter_map]
  have hat : ∀ (r c : ℕ) (t : Assign), Assign.at r c t = true ↔ t.row = r ∧ t.col = c :=
    fun r c t => decide_eq_true_iff
  split
  case isTrue hle =>
    congr 1
    refine List.filter_congr fun t _ => Bool.eq_iff_iff.mpr ?_
    rw [Function.comp, hat, hat]
    cases t <;> simp only [Assign.shift, Assign.row, Assign.col] <;> omega
  case isFalse hlt =>
    refine List.map_eq_nil_iff.mpr (List.filter_eq_nil_iff.mpr fun t _ => ?_)
    rw [Function.comp, hat]
    cases t <;> simp only [Assign.shift, Assign.row, Assign.col] <;> omega

theorem filter_shifted (h : (c.assigns onGpu k).isSome = true) (row col : ℕ) :
    (c.shifted onGpu k).filter (Assign.at row col) =
      if c.Processes onGpu k row col then onElement c.should_copy row col else [] := by
  obtain ⟨l, hl⟩ := Option.isSome_iff_exists.mp h
  unfold shifted
  rw [hl, Option.getD_some, filter_shift, visits_assigns hl]
  by_cases hin : c.Processes onGpu k row col
  · rw [if_pos hin]
    obtain ⟨⟨hrow, hbody⟩, hcol, hlt⟩ := hin
    have hr : k.1 * c.m_block + (row - k.1 * c.m_block) = row := by omega
    have hc : k.2 * c.n_block + (col - k.2 * c.n_block) = col := by omega
    rw [if_pos ⟨hrow, hcol⟩, if_pos ⟨hbody, hlt⟩]
    unfold onElement
    cases c.should_copy <;> simp [Assign.shift, hr, hc]
  · rw [if_neg hin]
    split
    case isTrue hstart =>
      rw [if_neg fun hbody => hin ⟨⟨hstart.1, hbody.1⟩, hstart.2, hbody.2⟩, List.map_nil]
    case isFalse => rfl

/-- An element is scaled once by a task that processes it. -/
theorem count_shifted (h : (c.assigns onGpu k).isSome = true) (row col : ℕ) :
    (c.shifted onGpu k).count (.scale row col) =
      if c.Processes onGpu k row col then 1 else 0 := by
  have hat : Assign.at row col (.scale row col) = true := decide_eq_true ⟨rfl, rfl⟩
  rw [← List.count_filter hat, filter_shifted h]
  split
  · unfold onElement
    cases c.should_copy <;> simp
  · rfl

/-- The columns of a task are columns of the matrices. -/
theorem Accepted.col_lt (h : c.Accepted) (hk : c.Valid k) {row col : ℕ}
    (hin : c.Processes onGpu k row col) : col < c.N ∧ col / c.n_block = k.2 := by
  obtain ⟨-, hcol, hlt⟩ := hin
  rw [(h.task_size hk).2] at hlt
  exact (mem_tile h.n_block.1 hk.col).mp ⟨hcol, by omega⟩

theorem mem_shifted (h : (c.assigns onGpu k).isSome = true) {t : Assign}
    (ht : t ∈ c.shifted onGpu k) : c.Processes onGpu k t.row t.col := by
  have hmem : t ∈ (c.shifted onGpu k).filter (Assign.at t.row t.col) :=
    List.mem_filter.mpr ⟨ht, decide_eq_true ⟨rfl, rfl⟩⟩
  rw [filter_shifted h] at hmem
  by_contra hnot
  rw [if_neg hnot] at hmem
  cases hmem

/-! ## The execution as a list of assignments -/

section Execution

variable {R : Type} [Field R] {execution : CopyExecution R}

/-- A body does its assignments. -/
theorem task_exec (h : c.Accepted) (hcomplete : execution.Complete c) (hk : c.Valid k)
    (s : State R) :
    (c.task k).exec c.descr c.should_copy (onGpu k) (execution.schedule k) s =
      (c.assigns onGpu k).map fun _ => c.whole.run c.descr (c.shifted onGpu k) s := by
  obtain ⟨hlegal, hldu⟩ := h.legal hk
  unfold CopyTask.exec shifted assigns
  split
  case isTrue =>
    rw [kernel_eq_run hlegal hldu (hcomplete.schedule k), run_shift]
    rfl
  case isFalse =>
    cases hl : zcopyscaleNative (c.task k).m (c.task k).n c.should_copy with
    | none => rfl
    | some l =>
        rw [Option.map_some, Option.map_some, Option.getD_some, run_shift]

theorem exec_order (h : c.Accepted) (hcomplete : execution.Complete c) {order : List (ℕ × ℕ)}
    (horder : ∀ k ∈ order, c.Valid k) (s : State R) :
    (order.foldlM (fun s k => (c.task k).exec c.descr c.should_copy (onGpu k)
        (execution.schedule k) s) s) =
      if ∀ k ∈ order, (c.assigns onGpu k).isSome = true then
        some (c.whole.run c.descr (order.flatMap (c.shifted onGpu)) s)
      else none := by
  induction order generalizing s with
  | nil =>
      rw [if_pos fun k hk => absurd hk List.not_mem_nil]
      rfl
  | cons k order ih =>
      have hrest : ∀ k ∈ order, c.Valid k := fun k' hk' => horder k' (List.mem_cons_of_mem k hk')
      rw [List.foldlM_cons, task_exec h hcomplete (horder k List.mem_cons_self)]
      cases hl : c.assigns onGpu k with
      | none =>
          rw [if_neg]
          · rfl
          · intro hall
            have hsome := hall k List.mem_cons_self
            rw [hl] at hsome
            cases hsome
      | some l =>
          rw [Option.map_some]
          refine (ih hrest _).trans (if_congr ?_ ?_ rfl)
          · rw [List.forall_mem_cons, hl]
            exact (and_iff_right rfl).symm
          · rw [List.flatMap_cons, CopyScale.run, CopyScale.run, CopyScale.run, List.foldl_append]

/-- The assignments of the call. -/
def assignsOf (c : CopyCall) (onGpu : ℕ × ℕ → Bool) (execution : CopyExecution R) :
    List Assign :=
  execution.order.flatMap (c.shifted onGpu)

/-- The call is defined when every body is, and does the assignments of the bodies. -/
theorem exec_eq (h : c.Accepted) (hcomplete : execution.Complete c) (s : State R) :
    c.exec onGpu execution s =
      if ∀ k ∈ c.indices, (c.assigns onGpu k).isSome = true then
        some (c.whole.run c.descr (c.assignsOf onGpu execution) s)
      else none := by
  have horder : ∀ k ∈ execution.order, c.Valid k := fun k hk =>
    mem_indices.mp (hcomplete.order.mem_iff.mp hk)
  refine (exec_order h hcomplete horder s).trans (if_congr ?_ rfl rfl)
  exact forall_congr' fun k => imp_congr hcomplete.order.mem_iff Iff.rfl

end Execution

/-! ## Exact tiles -/

/-- The tiles whose tasks run on the CPU have sizes for which the blocks of the body are the rows of
the tile. -/
def TilesExact (c : CopyCall) (onGpu : ℕ × ℕ → Bool) : Prop :=
  ∀ p < numTiles c.M c.m_block, ∀ q < numTiles c.N c.n_block, onGpu (p, q) = false →
    NativeExact (tileSize c.M c.m_block p)

section Exact

variable (h : c.Accepted) (hexact : c.TilesExact onGpu)

include h

/-- The number of rows of a tile is a value of type `int`. -/
theorem Accepted.tileSize_lt (hk : c.Valid k) : (c.task k).m < 2 ^ 31 := by
  rw [(h.task_size hk).1]
  exact lt_of_le_of_lt (tileSize_le h.m_block.1 hk.row) h.m_block.2

include hexact

theorem assigns_isSome (hk : c.Valid k) : (c.assigns onGpu k).isSome = true := by
  unfold assigns
  split
  case isTrue => rfl
  case isFalse hcpu =>
    have hrows := hexact k.1 hk.row k.2 hk.col (Bool.eq_false_iff.mpr hcpu)
    rw [← (h.task_size hk).1] at hrows
    have hdef : zcopyscaleNative (c.task k).m (c.task k).n c.should_copy = some _ :=
      if_pos hrows.no_overflow
    rw [hdef]
    rfl

theorem bodyRow_iff_lt (hk : c.Valid k) (row : ℕ) :
    bodyRow (onGpu k) (c.task k).m row ↔ row < (c.task k).m := by
  unfold bodyRow
  split
  case isTrue => exact Iff.rfl
  case isFalse hcpu =>
    have hrows := hexact k.1 hk.row k.2 hk.col (Bool.eq_false_iff.mpr hcpu)
    rw [← (h.task_size hk).1] at hrows
    exact nativeRow_iff_lt (h.tileSize_lt hk) hrows

/-- The elements of a task are those of its tile. -/
theorem processes_iff (hk : c.Valid k) {row col : ℕ} : c.Processes onGpu k row col ↔
    (row < c.M ∧ row / c.m_block = k.1) ∧ col < c.N ∧ col / c.n_block = k.2 := by
  obtain ⟨hm, hn⟩ := h.task_size hk
  unfold Processes
  rw [bodyRow_iff_lt h hexact hk, hm, hn, ← mem_tile h.m_block.1 hk.row,
    ← mem_tile h.n_block.1 hk.col]
  omega

theorem inside_of_exact : c.Inside onGpu := by
  intro k hmem row col htouch
  have hk := mem_indices.mp hmem
  obtain ⟨hm, hn⟩ := h.task_size hk
  have hrow := tile_le h.m_block.1 hk.row
  have hcol := tile_le h.n_block.1 hk.col
  have hin : row < (c.task k).m ∧ col < (c.task k).n := by
    unfold CopyTask.Touches at htouch
    split at htouch
    case isTrue =>
      obtain ⟨block, thread, ⟨htile, rfl, rfl⟩ | ⟨hcopies, rfl, rfl⟩⟩ := htouch
      · have hpart := inPart_of_inTile htile
        exact ⟨hpart.1.1, hpart.2.1⟩
      · have hpart := inPart_of_copies hcopies
        exact ⟨hpart.1.1, hpart.2.1⟩
    case isFalse hcpu =>
      obtain ⟨tasks, htasks, x, hx, rfl, rfl⟩ := htouch
      obtain ⟨⟨hx, hcol⟩, -⟩ := (visits_native htasks).mem hx
      have hbody := bodyRow_iff_lt h hexact hk x.row
      unfold bodyRow at hbody
      rw [if_neg hcpu] at hbody
      exact ⟨hbody.mp hx, hcol⟩
  omega

variable {R : Type} [Field R] {execution : CopyExecution R}

omit [Field R] in
/-- The tasks process every element of the matrices once. -/
theorem visits_assignsOf (hcomplete : execution.Complete c) :
    Visits c.should_copy (· < c.M) c.N (c.assignsOf onGpu execution) := by
  intro row col
  have hvalid : ∀ k ∈ execution.order, c.Valid k := fun k hk =>
    mem_indices.mp (hcomplete.order.mem_iff.mp hk)
  have hfilter : ∀ k ∈ execution.order, (c.shifted onGpu k).filter (Assign.at row col) =
      if (row < c.M ∧ row / c.m_block = k.1) ∧ col < c.N ∧ col / c.n_block = k.2 then
        onElement c.should_copy row col else [] := by
    intro k hk
    rw [filter_shifted (assigns_isSome h hexact (hvalid k hk))]
    exact if_congr (processes_iff h hexact (hvalid k hk)) rfl rfl
  unfold assignsOf
  rw [List.filter_flatMap, List.flatMap_congr hfilter]
  split
  case isTrue hin =>
    obtain ⟨hrow, hcol⟩ := hin
    have hmem : (row / c.m_block, col / c.n_block) ∈ execution.order :=
      hcomplete.order.mem_iff.mpr (mem_indices.mpr
        ⟨div_lt_numTiles h.m_block.1 hrow, div_lt_numTiles h.n_block.1 hcol⟩)
    rw [flatMap_unique (hcomplete.order.nodup_iff.mpr nodup_indices) hmem]
    · exact if_pos ⟨⟨hrow, rfl⟩, hcol, rfl⟩
    · exact fun k _ hne => if_neg fun hall => hne (Prod.ext hall.1.2.symm hall.2.2.symm)
  case isFalse hout =>
    exact List.flatMap_eq_nil_iff.mpr fun k _ => if_neg fun hall => hout ⟨hall.1.1, hall.2.1⟩

/-- Exact tiles give the result. -/
theorem scaled_of_exact (hcomplete : execution.Complete c) (s : State R) :
    ∃ s', c.exec onGpu execution s = some s' ∧ c.Scaled s s' := by
  have hvisits := visits_assignsOf h hexact hcomplete
  have hlegal := h.whole_legal
  refine ⟨c.whole.run c.descr (c.assignsOf onGpu execution) s, ?_, ?_, ?_, ?_⟩
  · rw [exec_eq h hcomplete, if_pos]
    exact fun k hk => assigns_isSome h hexact (mem_indices.mp hk)
  · intro i hi j hj
    have hget : c.whole.run c.descr (c.assignsOf onGpu execution) s .B
        (c.whole.addrL c.descr j i) = _ := hvisits.get_L hlegal hi s
    rw [if_pos hj, whole_addrL, whole_addrD, mul_one_div] at hget
    exact hget
  · intro hcopy i hi j hj
    have hldu : ∀ r, r < c.M → r < c.whole.U.ld.toNat := by
      intro r hr
      have hle := h.le_ld.2.2
      show r < ((c.ldu : ℕ) : ℤ).toNat
      omega
    have hget : c.whole.run c.descr (c.assignsOf onGpu execution) s .C
        (c.whole.addrU c.descr j i) = _ := hvisits.get_U hlegal hldu hj hi s
    rw [if_pos hcopy, whole_addrL, whole_addrU] at hget
    exact hget
  · intro X x hL hU
    refine CopyScale.run_frame (fun hX t ht => ?_) (fun hX t ht hcopy => ?_) s
    · obtain ⟨⟨hrow, hcol⟩, -⟩ := hvisits.mem ht
      rw [whole_addrL]
      exact hL hX t.col hcol t.row hrow
    · obtain ⟨⟨hrow, hcol⟩, hkind⟩ := hvisits.mem ht
      rw [whole_addrU]
      refine hU hX ?_ t.col hcol t.row hrow
      rcases hkind with hkind | hkind
      · exact hkind.2
      · rw [hcopy] at hkind
        cases hkind

end Exact

/-! ## Tiles that are not exact -/

section Inexact

variable {R : Type} [Field R]

/-- The assignments to the elements of `L` are divisions. -/
theorem run_count (h : c.Accepted) {tasks : List Assign} (hcols : ∀ t ∈ tasks, t.col < c.N)
    (row : ℕ) {col : ℕ} (hcol : col < c.N) (s : State R) :
    c.whole.run c.descr tasks s .B (c.whole.addrL c.descr row col) =
      s .B (c.whole.addrL c.descr row col) *
        (1 / s .A (c.whole.addrD c.descr col)) ^ tasks.count (.scale row col) := by
  have hldl := h.whole_legal.le_ldl
  induction tasks generalizing s with
  | nil =>
      rw [List.count_nil, pow_zero, mul_one]
      rfl
  | cons t tasks ih =>
      have hstep : c.whole.run c.descr (t :: tasks) s =
          c.whole.run c.descr tasks (c.whole.assign c.descr s t) := rfl
      have ht : t.col < c.N := hcols t List.mem_cons_self
      rw [hstep, ih fun u hu => hcols u (List.mem_cons_of_mem t hu)]
      cases t with
      | copy r l =>
          rw [List.count_cons_of_ne (by simp)]
          rfl
      | scale r l =>
          have hAB : Operand.A ≠ .B := Operand.noConfusion
          have hD : c.whole.assign c.descr s (.scale r l) .A = s .A :=
            Function.update_of_ne hAB _ _
          rw [hD]
          by_cases heq : r = row ∧ l = col
          · obtain ⟨rfl, rfl⟩ := heq
            have hB : c.whole.assign c.descr s (.scale r l) .B (c.whole.addrL c.descr r l) =
                s .B (c.whole.addrL c.descr r l) * (1 / s .A (c.whole.addrD c.descr l)) := by
              show Function.update s Operand.B _ .B _ = _
              rw [Function.update_self]
              exact Function.update_self _ _ _
            rw [hB, List.count_cons_self, pow_succ, mul_assoc, mul_comm (1 / _)]
          · have hne : c.whole.addrL c.descr row col ≠ c.whole.addrL c.descr r l := by
              intro haddr
              obtain ⟨hr, hl⟩ := CopyScale.addrL_inj (hcol.trans_le hldl) (ht.trans_le hldl) haddr
              exact heq ⟨hr.symm, hl.symm⟩
            have hB : c.whole.assign c.descr s (.scale r l) .B (c.whole.addrL c.descr row col) =
                s .B (c.whole.addrL c.descr row col) := by
              show Function.update s Operand.B _ .B _ = _
              rw [Function.update_self]
              exact Function.update_of_ne hne _ _
            rw [hB, List.count_cons_of_ne]
            intro hscale
            cases hscale
            exact heq ⟨rfl, rfl⟩

theorem count_flatMap_shifted {order : List (ℕ × ℕ)}
    (hdef : ∀ k ∈ order, (c.assigns onGpu k).isSome = true) (row col : ℕ) :
    (order.flatMap (c.shifted onGpu)).count (.scale row col) =
      order.countP fun k => c.Processes onGpu k row col := by
  induction order with
  | nil => rfl
  | cons k order ih =>
      rw [List.flatMap_cons, List.count_append, List.countP_cons,
        count_shifted (hdef k List.mem_cons_self),
        ih fun k' hk' => hdef k' (List.mem_cons_of_mem k hk'), Nat.add_comm]
      simp only [decide_eq_true_eq]

/-- The tasks in the order of the loops, with the blocks and the threads in theirs. -/
def inOrder (R : Type) [Zero R] (c : CopyCall) : CopyExecution R where
  order := c.indices
  schedule k :=
    { blocks := cudaGrid (c.task k).m (c.task k).n
      run := fun _ =>
        { load := allDims 32 32
          copy := allDims 32 32
          update := allDims 32 32
          shm_L := 0
          shm_X := 0 } }

theorem complete_inOrder : (c.inOrder R).Complete c := by
  refine ⟨?_, fun k => ⟨?_, fun block => ?_, fun block => ?_, fun block => ?_⟩⟩ <;>
    dsimp only [inOrder] <;> exact .refl _

/-- In a call that is correct every body is defined, and a row is processed once if it is a row of
the matrix, and not at all otherwise. -/
theorem Correct.processed (hcorrect : c.Correct onGpu) (h : c.Accepted) (row : ℕ) {col : ℕ}
    (hcol : col < c.N) :
    (∀ k ∈ c.indices, (c.assigns onGpu k).isSome = true) ∧
      (c.indices.countP fun k => c.Processes onGpu k row col) = if row < c.M then 1 else 0 := by
  -- `L` is one and `D` is two
  let s : State ℚ := fun X _ => if X = .A then 2 else 1
  obtain ⟨s', hexec, hscaled⟩ := hcorrect.scaled ℚ (c.inOrder ℚ) s complete_inOrder
    fun i _ => two_ne_zero
  rw [exec_eq h complete_inOrder] at hexec
  split at hexec
  case isFalse => cases hexec
  case isTrue hdef =>
    obtain rfl := Option.some.inj hexec
    refine ⟨hdef, ?_⟩
    have hcols : ∀ t ∈ c.assignsOf onGpu (c.inOrder ℚ), t.col < c.N := by
      intro t ht
      obtain ⟨k, hk, ht⟩ := List.mem_flatMap.mp ht
      exact (h.col_lt (mem_indices.mp hk) (mem_shifted (hdef k hk) ht)).1
    have hrun := run_count h hcols row hcol s
    have hcount : (c.assignsOf onGpu (c.inOrder ℚ)).count (.scale row col) =
        c.indices.countP fun k => c.Processes onGpu k row col :=
      count_flatMap_shifted hdef row col
    have hone : ∀ x, s .B x = 1 := fun _ => rfl
    have htwo : ∀ x, s .A x = 2 := fun _ => rfl
    rw [hcount, whole_addrL, whole_addrD, hone (col + row * c.ldl), htwo (col + col * c.ldd),
      one_mul] at hrun
    have hinj : Function.Injective fun e : ℕ => ((1 : ℚ) / 2) ^ e :=
      pow_right_injective₀ (by norm_num) (by norm_num)
    split
    case isTrue hrow =>
      have hlower := hscaled.lower col hcol row hrow
      rw [hrun, hone (col + row * c.ldl), htwo (col + col * c.ldd)] at hlower
      exact hinj (hlower.trans (pow_one _).symm)
    case isFalse hrow =>
      have hframe := hscaled.frame .B (col + row * c.ldl) ?_ (fun hX => nomatch hX)
      · rw [hrun, hone (col + row * c.ldl)] at hframe
        exact hinj (hframe.trans (pow_zero _).symm)
      · intro _ i hi j hj heq
        have hldl := h.le_ld.2.1
        have haddr : row * c.ldl + col = j * c.ldl + i := by omega
        have hsame := (mul_add_inj (hcol.trans_le hldl) (hi.trans_le hldl) haddr).1
        exact hrow (hsame.symm ▸ hj)

/-- Only one task of a call that is correct processes an element, and none one after the matrix. -/
theorem Correct.unique (hcorrect : c.Correct onGpu) (h : c.Accepted) {k' : ℕ × ℕ} {row col : ℕ}
    (hk : c.Valid k) (hk' : c.Valid k') (hin : c.Processes onGpu k row col)
    (hin' : c.Processes onGpu k' row col) : row < c.M ∧ k = k' := by
  obtain ⟨-, hcount⟩ := hcorrect.processed h row (h.col_lt hk hin).1
  rw [List.countP_eq_length_filter] at hcount
  have hmem : ∀ {k}, c.Valid k → c.Processes onGpu k row col →
      k ∈ c.indices.filter fun k => c.Processes onGpu k row col := fun hk hin =>
    List.mem_filter.mpr ⟨mem_indices.mpr hk, decide_eq_true hin⟩
  split at hcount
  case isTrue hrow =>
    exact ⟨hrow, eq_of_mem_of_length_le_one hcount.le (hmem hk hin) (hmem hk' hin')⟩
  case isFalse =>
    have hnil := hmem hk hin
    rw [List.length_eq_zero_iff.mp hcount] at hnil
    cases hnil

/-- A task processes an element of the matrix. -/
theorem Correct.exists_processes (hcorrect : c.Correct onGpu) (h : c.Accepted) {row col : ℕ}
    (hrow : row < c.M) (hcol : col < c.N) : ∃ k, c.Valid k ∧ c.Processes onGpu k row col := by
  obtain ⟨-, hcount⟩ := hcorrect.processed h row hcol
  rw [if_pos hrow] at hcount
  obtain ⟨k, hk, hin⟩ := List.countP_pos_iff.mp (lt_of_lt_of_eq one_pos hcount.symm)
  exact ⟨k, mem_indices.mp hk, of_decide_eq_true hin⟩

/-- A row of a tile, on the CPU. -/
theorem processes_native (h : c.Accepted) (hk : c.Valid k) (hcpu : onGpu k = false) {row : ℕ}
    (hnative : nativeRow (c.task k).m row) :
    c.Processes onGpu k (k.1 * c.m_block + row) (k.2 * c.n_block) := by
  refine ⟨⟨Nat.le_add_right _ _, ?_⟩, le_rfl, ?_⟩
  · unfold bodyRow
    rw [hcpu, if_neg Bool.false_ne_true, Nat.add_sub_cancel_left]
    exact hnative
  · rw [(h.task_size hk).2, Nat.sub_self]
    exact tileSize_pos h.n_block.1 hk.col

/-- The body for the CPU of a call that is correct adds no row to its tile: it would be one of the
first rows of the next tile, whose task processes it too. -/
theorem Correct.lt_of_nativeRow (hcorrect : c.Correct onGpu) (h : c.Accepted) (hk : c.Valid k)
    (hcpu : onGpu k = false) {row : ℕ} (hnative : nativeRow (c.task k).m row) :
    row < (c.task k).m := by
  by_contra hge
  have hm := (h.task_size hk).1
  have hpos := h.m_block.1
  have hin := processes_native h hk hcpu hnative
  have hrow := (hcorrect.unique h hk hk hin hin).1
  have hlarge : 250 < (c.task k).m := by
    by_contra hle
    exact hge ((nativeRow_iff_lt (h.tileSize_lt hk) (.inl (by omega))).mp hnative)
  have hlt := hnative.lt_add
  have hnext : k.1 + 1 < numTiles c.M c.m_block := by
    by_contra hlast
    have hvalid := hk.row
    have hsize : tileSize c.M c.m_block k.1 = c.M - k.1 * c.m_block := if_pos (by omega)
    omega
  have hfull := tileSize_of_lt hnext
  have hk' : c.Valid (k.1 + 1, k.2) := ⟨hnext, hk.col⟩
  have hstart : (k.1 + 1) * c.m_block = k.1 * c.m_block + c.m_block := Nat.succ_mul _ _
  have htile : (k.1 + 1) * c.m_block ≤ k.1 * c.m_block + row ∧ k.1 * c.m_block + row <
      (k.1 + 1) * c.m_block + tileSize c.M c.m_block (k.1 + 1) := by
    refine (mem_tile hpos hnext).mpr ⟨hrow, (Nat.div_eq_iff hpos).mpr ⟨by omega, ?_⟩⟩
    omega
  have hin' : c.Processes onGpu (k.1 + 1, k.2) (k.1 * c.m_block + row) (k.2 * c.n_block) := by
    refine ⟨⟨htile.1, ?_⟩, le_rfl, ?_⟩
    · have hoffset : k.1 * c.m_block + row - (k.1 + 1) * c.m_block <
          (c.task (k.1 + 1, k.2)).m := by
        rw [(h.task_size hk').1]
        show _ < tileSize c.M c.m_block (k.1 + 1)
        omega
      have hfirst : k.1 * c.m_block + row - (k.1 + 1) * c.m_block < 250 := by omega
      unfold bodyRow
      split
      case isTrue => exact hoffset
      case isFalse => exact Blas.nativeRow_of_lt hoffset hfirst
    · rw [(h.task_size hk').2, Nat.sub_self]
      exact tileSize_pos h.n_block.1 hk.col
  have hsame := congrArg Prod.fst (hcorrect.unique h hk hk' hin hin').2
  exact absurd hsame (Nat.lt_succ_self _).ne

/-- It leaves out no row: the task of a tile before would process it, and then it would be one of
the first rows of the tile. -/
theorem Correct.nativeRow_of_lt (hcorrect : c.Correct onGpu) (h : c.Accepted) (hk : c.Valid k)
    (hcpu : onGpu k = false) {row : ℕ} (hrow : row < (c.task k).m) :
    nativeRow (c.task k).m row := by
  have hm := (h.task_size hk).1
  have hpos := h.m_block.1
  have hend := tile_le hpos hk.row
  have hle := tileSize_le hpos hk.row
  have hcol : k.2 * c.n_block < c.N := (lt_numTiles h.n_block.1).mp hk.col
  have hin_matrix : k.1 * c.m_block + row < c.M := by omega
  obtain ⟨k', hk', hin⟩ := hcorrect.exists_processes h hin_matrix hcol
  have hsame : k.2 = k'.2 := by
    rw [← (h.col_lt hk' hin).2, Nat.mul_div_cancel _ h.n_block.1]
  obtain ⟨⟨hstart, hbody⟩, -⟩ := hin
  have hm' := (h.task_size hk').1
  unfold bodyRow at hbody
  split at hbody
  case isTrue hgpu =>
    -- the row is in the tile of one task only
    have htile : k.1 = k'.1 := by
      rw [← ((mem_tile hpos hk'.row).mp ⟨hstart, by omega⟩).2]
      exact ((mem_tile hpos hk.row).mp ⟨Nat.le_add_right _ _, by omega⟩).2.symm
    rw [← Prod.ext htile hsame, hcpu] at hgpu
    cases hgpu
  case isFalse =>
    rcases Nat.lt_trichotomy k'.1 k.1 with hlt | heq | hgt
    · -- the rows that the other task adds to its tile
      have hstep : (k'.1 + 1) * c.m_block ≤ k.1 * c.m_block := Nat.mul_le_mul_right _ hlt
      rw [Nat.succ_mul] at hstep
      have hadd := hbody.lt_add
      have hle' := tileSize_le hpos hk'.row
      exact Blas.nativeRow_of_lt hrow (by omega)
    · rw [← Prod.ext heq.symm hsame, Nat.add_sub_cancel_left] at hbody
      exact hbody
    · have hstep : (k.1 + 1) * c.m_block ≤ k'.1 * c.m_block := Nat.mul_le_mul_right _ hgt
      rw [Nat.succ_mul] at hstep
      omega

theorem exact_of_correct (h : c.Accepted) (hcorrect : c.Correct onGpu) : c.TilesExact onGpu := by
  intro p hp q hq hcpu
  have hk : c.Valid (p, q) := ⟨hp, hq⟩
  obtain ⟨hdef, -⟩ := hcorrect.processed h 0 h.N
  have hsome := hdef (p, q) (mem_indices.mpr hk)
  unfold assigns at hsome
  rw [hcpu, if_neg Bool.false_ne_true] at hsome
  obtain ⟨tasks, htasks⟩ := Option.isSome_iff_exists.mp hsome
  have hrows : NativeExact (c.task (p, q)).m :=
    nativeExact_of_rows (h.tileSize_lt hk) (no_overflow_of_native htasks) fun row =>
      ⟨hcorrect.lt_of_nativeRow h hk hcpu, hcorrect.nativeRow_of_lt h hk hcpu⟩
  rwa [(h.task_size hk).1] at hrows

end Inexact

theorem correct_of_exact (h : c.Accepted) (hexact : c.TilesExact onGpu) : c.Correct onGpu where
  inside := inside_of_exact h hexact
  scaled _ _ _ s hcomplete _ := scaled_of_exact h hexact hcomplete s

end CopyCall

/-- A call of `xkblas_zcopyscale_async` copies and scales, and touches nothing else, exactly if the
tiles whose tasks run on the CPU have sizes for which the blocks of the body are the rows of the
tile. -/
theorem copyScale_correct_iff {c : CopyCall} (onGpu : ℕ × ℕ → Bool) (h : c.Accepted) :
    c.Correct onGpu ↔ c.TilesExact onGpu :=
  ⟨CopyCall.exact_of_correct h, CopyCall.correct_of_exact h⟩

/-- Matrices of three rows and three columns, in tiles of size two. -/
def squareCall : CopyCall where
  m_block := 2
  n_block := 2
  M := 3
  N := 3
  should_copy := true
  ldd := 3
  ldl := 3
  ldu := 3

theorem copyScale_correct_squareCall : squareCall.Correct fun k => decide (k = (1, 0)) := by
  have haccepted : squareCall.Accepted := ⟨by decide, by decide, by decide, by decide, rfl⟩
  refine (copyScale_correct_iff _ haccepted).mpr fun p hp q _ _ => ?_
  have hsize : tileSize 3 2 p ≤ 2 := tileSize_le Nat.two_pos hp
  exact .inl (hsize.trans (by decide))

/-- One column of 251 rows in one tile. -/
def overrunCall : CopyCall where
  m_block := 251
  n_block := 1
  M := 251
  N := 1
  should_copy := true
  ldd := 1
  ldl := 1
  ldu := 251

/-- On the CPU the second block of rows has 250 rows, of which one is in the tile. -/
theorem not_copyScale_correct : overrunCall.Accepted ∧ ¬ overrunCall.Correct fun _ => false := by
  have haccepted : overrunCall.Accepted := ⟨by decide, by decide, by decide, by decide, rfl⟩
  refine ⟨haccepted, fun hcorrect => ?_⟩
  have hexact : NativeExact 251 :=
    CopyCall.exact_of_correct haccepted hcorrect 0 (by decide) 0 (by decide) rfl
  rcases hexact with hle | ⟨hdvd, -⟩
  · exact absurd hle (by decide)
  · exact absurd hdvd (by decide)

end Xkblas.Blas
