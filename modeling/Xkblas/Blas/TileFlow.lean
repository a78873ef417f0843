import Xkblas.Blas.KernelReads
import Xkblas.Sched.DataFlowSerial

/-!
# The tile tasks in the data flow

As a task of the data flow, a tile task does to the tiles what `Task.exec` does to the matrices,
whatever the replica of a tile that it takes as W contains, when it stores all of this tile. The
tasks of a call are legal and local, so a call leaves the matrices that its loops compute, whatever
the order in which the threads execute its tasks.
-/

namespace Xkblas.Blas

open Library Sched

variable {R : Type} {d d' : Operand → Descr} {t : Task R} {s garbage : State R}
  {ld : Operand → ℤ}

/-! ## Tiles and tasks -/

/-- The handle of a tile. The operands are distinct matrices. -/
def Tile.handle (p : Tile) : Operand × ℕ × ℕ :=
  (p.mat, p.m, p.n)

/-- The bits of a mode. -/
def Mode.bits : Mode → DataFlow.Mode
  | .r => DataFlow.modeR
  | .w => DataFlow.modeW
  | .rw => DataFlow.modeRW

/-- The parameter of `kaapi_update_dependencies` for an access. -/
def Access.param (a : Access) : DataFlow.Param (Operand × ℕ × ℕ) :=
  match a.inserted with
  | some mode => .access mode.bits a.tile.handle
  | none => .value

/-- The tiles of the matrices. -/
def State.tiles [Zero R] (s : State R) (d : Operand → Descr) (h : Operand × ℕ × ℕ) : Block R :=
  fun i j =>
    if (i < (d h.1).mb ∧ h.2.1 * (d h.1).mb + i < (d h.1).M) ∧
        j < (d h.1).nb ∧ h.2.2 * (d h.1).nb + j < (d h.1).N then
      s.get d h.1 (h.2.1 * (d h.1).mb + i) (h.2.2 * (d h.1).nb + j)
    else 0

/-- What the body of a tile task does to the tiles. -/
def Task.storeTiles (t : Task R) (mem : Operand × ℕ × ℕ → Block R) : Operand × ℕ × ℕ → Block R :=
  if ∀ p ∈ t.params, p.LdOk then
    Function.update mem t.out.toTile.handle fun i j =>
      if (i < t.out.rows ∧ j < t.out.cols) ∧ t.writes i j = true then
        t.value (fun q => mem q.handle) i j
      else mem t.out.toTile.handle i j
  else mem

/-- The tiles that `kaapi_dsm_acquire_data` brings for a task. One that it takes as W has what its
replica contains. -/
def Task.acquired [Zero R] (d : Operand → Descr) (garbage : State R) (t : Task R)
    (mem : Operand × ℕ × ℕ → Block R) : Operand × ℕ × ℕ → Block R :=
  if t.out.mode = .w then
    Function.update mem t.out.toTile.handle (garbage.tiles d t.out.toTile.handle)
  else mem

/-- A tile task as a task of the data flow, when the replica of the tile that it writes contains
`garbage`. -/
def Task.flow [Zero R] (d : Operand → Descr) (garbage : State R) (t : Task R) :
    DataFlow.Task (Operand × ℕ × ℕ) (Block R) where
  params := t.accesses.map Access.param
  body mem := t.storeTiles (t.acquired d garbage mem)

/-! ## The handles of a task -/

section Flow

variable [Zero R]

omit [Zero R] in
/-- An element of a tile is one of the matrix. -/
theorem holds_iff (hd : ∀ X, (d X).Valid) {p : Param} {m n i j : ℕ}
    (hi : i < (d p.mat).mb) (hj : j < (d p.mat).nb) (hM : m * (d p.mat).mb + i < (d p.mat).M)
    (hN : n * (d p.mat).nb + j < (d p.mat).N) :
    p.Holds d (m * (d p.mat).mb + i) (n * (d p.mat).nb + j) ↔ m = p.m ∧ n = p.n := by
  have hdivm : (m * (d p.mat).mb + i) / (d p.mat).mb = m := by
    rw [Nat.mul_comm, Nat.mul_add_div (hd _).mb_pos, Nat.div_eq_of_lt hi, Nat.add_zero]
  have hdivn : (n * (d p.mat).nb + j) / (d p.mat).nb = n := by
    rw [Nat.mul_comm, Nat.mul_add_div (hd _).nb_pos, Nat.div_eq_of_lt hj, Nat.add_zero]
  unfold Param.Holds
  rw [hdivm, hdivn]
  exact ⟨fun h => ⟨h.1.2, h.2.2⟩, fun h => ⟨⟨hM, h.1⟩, hN, h.2⟩⟩

omit [Zero R] in
/-- The task stores the elements of its tile that it writes. -/
theorem covers_iff (hd : ∀ X, (d X).Valid) {m n i j : ℕ}
    (hi : i < (d t.out.mat).mb) (hj : j < (d t.out.mat).nb)
    (hM : m * (d t.out.mat).mb + i < (d t.out.mat).M)
    (hN : n * (d t.out.mat).nb + j < (d t.out.mat).N) :
    t.Covers d (m * (d t.out.mat).mb + i) (n * (d t.out.mat).nb + j) ↔
      (m = t.out.m ∧ n = t.out.n) ∧ t.writes i j = true := by
  refine (and_congr_left' (holds_iff hd hi hj hM hN)).trans (and_congr_right ?_)
  rintro ⟨rfl, rfl⟩
  rw [Nat.add_sub_cancel_left, Nat.add_sub_cancel_left]

/-- What a tile that a task takes as W contains does not matter. -/
def Task.Whole (d : Operand → Descr) (t : Task R) : Prop :=
  t.out.mode = .w → ∀ garbage s, t.exec d (t.out.fill d garbage s) = t.exec d s

/-- The tasks of the data flow are the tile tasks, whatever the replicas contain. -/
def Flows (d : Operand → Descr) (tasks : List (Task R))
    (flows : List (DataFlow.Task (Operand × ℕ × ℕ) (Block R))) : Prop :=
  List.Forall₂ (fun t flow => ∃ garbage, flow = t.flow d garbage) tasks flows

omit [Zero R] in
/-- The body of a task depends on the descriptors of its parameters. -/
theorem exec_congr (hwithin : t.Within) (h : ∀ p ∈ t.params, d p.mat = d' p.mat) :
    t.exec d s = t.exec d' s := by
  have hblock : ∀ p ∈ t.params, s.block d p.toTile = s.block d' p.toTile := by
    intro p hp
    unfold State.block
    rw [h p hp]
  have hvalue := hwithin (s.block d) (s.block d') fun p hp i _ j _ => by rw [hblock p hp]
  unfold Task.exec
  rw [h t.out t.out_mem, store_congr _ _ _ _ hvalue]

omit [Zero R] in
theorem Task.Whole.congr (hw : t.Whole d') (hwithin : t.Within)
    (h : ∀ p ∈ t.params, d p.mat = d' p.mat) : t.Whole d := by
  intro hmode garbage s
  have hfill : t.out.fill d garbage s = t.out.fill d' garbage s := by
    unfold Param.fill State.block
    rw [h t.out t.out_mem]
  rw [exec_congr hwithin h, exec_congr hwithin h, hfill]
  exact hw hmode garbage s

end Flow

/-! ## The tasks of a call -/

section Calls

variable [Field R] [StarRing R] [DecidableEq R] {ptr : Operand → ℕ} {c : Call R}

omit [DecidableEq R] in
/-- The second operand is inserted with the mode RW, which is no conflict when it is another matrix
than the first one. -/
theorem conflictFree_zher2k {uplo : Uplo} {transA : Trans} {n k : ℕ} {alpha beta : R}
    {A B C : Tile} (hAB : handle d ptr A ≠ handle d ptr B) (hA : handle d ptr A ≠ handle d ptr C)
    (hB : handle d ptr B ≠ handle d ptr C) :
    ConflictFree d ptr (insertTaskZher2k uplo transA n k alpha A B beta C).accesses := by
  simp [ConflictFree, Task.accesses, insertTaskZher2k, hAB, hA, hB]

theorem conflictFree_zher2kTasks {uplo : Uplo} {transA : Trans} {alpha beta : R}
    {LDA LDB LDC : ℤ} (hAB : ptr .A ≠ ptr .B) (hA : ptr .A ≠ ptr .C) (hB : ptr .B ≠ ptr .C) :
    ∀ t ∈ zher2kTasks d uplo transA alpha LDA LDB beta LDC, ConflictFree d ptr t.accesses := by
  cases transA <;> cases uplo
  all_goals
    simp only [zher2kTasks, reduceCtorEq, if_true, if_false, forall_mem_forLoop,
      List.forall_mem_append, List.forall_mem_cons, List.not_mem_nil, IsEmpty.forall_iff,
      implies_true, and_true]
    intro n _ _
    refine ⟨fun k _ _ => ?_, fun m _ _ k _ _ => ⟨?_, ?_⟩⟩
    · exact conflictFree_zher2k (handle_ne hAB) (handle_ne hA) (handle_ne hB)
    · exact (agree_zgemm (handle_ne hA) (handle_ne hB)).conflict_free
    · exact (agree_zgemm (handle_ne hB) (handle_ne hA)).conflict_free

/-- The accesses of the tasks of a call to distinct matrices are not in conflict. -/
theorem Call.conflictFree_tasks (c : Call R) (hptr : Function.Injective ptr) :
    ∀ t ∈ c.tasks d, ConflictFree d ptr t.accesses := by
  have hAB : ptr .A ≠ ptr .B := hptr.ne (by decide)
  have hA : ptr .A ≠ ptr .C := hptr.ne (by decide)
  have hB : ptr .B ≠ ptr .C := hptr.ne (by decide)
  intro t ht
  cases c with
  | zgemm => exact (agree_zgemmTasks hA hB t ht).conflict_free
  | zgemmt => exact (agree_zgemmtTasks hA hB t ht).conflict_free
  | zsymm => exact (agree_zsymmTasks hA hB t ht).conflict_free
  | zhemm => exact (agree_zhemmTasks hA hB t ht).conflict_free
  | zsyrk =>
      exact (agree_rankKTasks hA (fun _ _ _ _ _ _ _ _ _ => agree_zsyrk (handle_ne hA)) t
        ht).conflict_free
  | zherk =>
      exact (agree_rankKTasks hA (fun _ _ _ _ _ _ _ _ _ => agree_zherk (handle_ne hA)) t
        ht).conflict_free
  | zsyr2k => exact (agree_zsyr2kTasks hA hB t ht).conflict_free
  | zher2k => exact conflictFree_zher2kTasks hAB hA hB t ht
  | ztrmm => exact (agree_ztrmmTasks hAB t ht).conflict_free
  | ztrsm => exact (agree_ztrsmTasks hAB t ht).conflict_free
  | zswap => cases ht
  | zcopyscale => cases ht

/-- The factors of the tasks are quotients by a number other than zero. -/
def Call.Divides : Call R → Prop
  | .ztrsm _ _ _ _ _ _ alpha _ _ => alpha ≠ 0
  | _ => True

/-- The loops of the call run, on descriptors of its own matrices. The descriptors are tiled for
the sizes of the call, and its tasks store all of the tiles that they take as W. -/
structure Call.Suited (d : Operand → Descr) (c : Call R) : Prop where
  runs : c.runs = .ok true
  lds : c.AdmissibleLds
  own : c.OwnLds
  divides : c.Divides
  descr : ∃ MB NB, 0 < MB ∧ 0 < NB ∧ c.Regular NB ∧ c.OverwritesAll false false MB NB ∧
    ∀ X ∈ c.operands, d X = c.descr MB NB X

/-- The parameters of the tasks are those that the call passes. -/
theorem Call.mem_params {p : Param} (ht : t ∈ c.tasks d) (hp : p ∈ t.params) :
    p ∈ c.params d := by
  cases c with
  | zswap => cases ht
  | zcopyscale => cases ht
  | _ => exact List.mem_flatMap.mpr ⟨t, ht, hp⟩

omit [Field R] [StarRing R] [DecidableEq R] in
/-- What is not an operand of a call has no tile. -/
theorem Call.descr_mt_eq_zero {X : Operand} {MB NB : ℕ} (hNB : 0 < NB) (hX : X ∉ c.operands) :
    (c.descr MB NB X).mt = 0 := by
  have hempty : (initMatrixHandle 0 0 1 NB NB).mt = 0 := numTiles_zero hNB
  cases c with
  | zsyrk | zherk | ztrmm | ztrsm | zswap =>
      cases X <;> first | exact hempty | exact absurd hX (by simp [Call.operands])
  | _ => cases X <;> exact absurd hX (by simp [Call.operands])

/-- The tasks of a call depend on the descriptors of its operands. -/
theorem Call.tasks_congr (c : Call R) {d d' : Operand → Descr} (h : ∀ X ∈ c.operands, d X = d' X) :
    c.tasks d = c.tasks d' := by
  cases c with
  | zsyrk | zherk =>
      have hA := h .A (by simp [operands])
      have hC := h .C (by simp [operands])
      simp only [tasks, zsyrkTasks, zherkTasks, rankKTasks, hA, hC]
  | ztrmm | ztrsm =>
      have hA := h .A (by simp [operands])
      have hB := h .B (by simp [operands])
      simp only [tasks, ztrmmTasks, ztrsmTasks, ztrsmTasksWith, hA, hB]
  | zswap => rfl
  | zcopyscale => rfl
  | _ =>
      have hd : d = d' := funext fun X => h X (by cases X <;> simp [operands])
      rw [hd]

/-- The matrices of the tasks are operands of the call. -/
theorem Call.Suited.mem_operands (hc : c.Suited d) (ht : t ∈ c.tasks d) {p : Param}
    (hp : p ∈ t.params) : p.mat ∈ c.operands := by
  obtain ⟨MB, NB, hMB, hNB, hreg, -, hdescr⟩ := hc.descr
  rw [c.tasks_congr hdescr] at ht
  have hnames := (c.passes hc.runs hc.lds hreg hMB hNB).names p (mem_params ht hp)
  by_contra hX
  have hrow := hnames.row_lt
  rw [descr_mt_eq_zero hNB hX] at hrow
  exact Nat.not_lt_zero _ hrow

theorem Call.Suited.fits (hc : c.Suited d) : ∀ t ∈ c.tasks d, t.Fits d := by
  obtain ⟨MB, NB, hMB, hNB, hreg, -, hdescr⟩ := hc.descr
  intro t ht p hp
  have hlds := (c.proper_tasks d hc.own t ht).lds p hp
  have hX := hc.mem_operands ht hp
  rw [c.tasks_congr hdescr] at ht
  have hnames := (c.passes hc.runs hc.lds hreg hMB hNB).names p (mem_params ht hp)
  rw [← hdescr _ hX] at hnames
  refine ⟨hnames.row_lt, hnames.col_lt, hnames.rows_eq, hnames.cols_eq, ?_⟩
  rw [hlds, descr_ld c MB NB hX hc.lds, hdescr _ hX]

/-- A call that overwrites its views launches the tasks of its loops. -/
theorem Call.launch_mem {MB NB : ℕ} (ht : t ∈ c.tasks (c.descr MB NB)) :
    t.launch (c.descr MB NB) (c.cpuBody false (c.descr MB NB) t) ∈
      c.launches false false NB (c.descr MB NB) := by
  cases c with
  | zswap => cases ht
  | zcopyscale => cases ht
  | _ => exact List.mem_map_of_mem ht

theorem Call.Suited.whole (hc : c.Suited d) : ∀ t ∈ c.tasks d, t.Whole d := by
  obtain ⟨MB, NB, hMB, hNB, hreg, hover, hdescr⟩ := hc.descr
  intro t ht
  have hwithin := (c.proper_tasks d hc.own t ht).within
  refine Task.Whole.congr ?_ hwithin fun p hp => hdescr _ (hc.mem_operands ht hp)
  rw [c.tasks_congr hdescr] at ht
  intro hmode garbage s
  have hlaunch := (overwrites_call_iff c hc.runs hc.lds hMB hNB).mpr hover _ (launch_mem ht)
  obtain ⟨s', hfill, hexec⟩ := hlaunch true garbage s
  have hacquire : (t.launch (c.descr MB NB) (c.cpuBody false (c.descr MB NB) t)).acquire
      (c.descr MB NB) garbage s = t.out.fill (c.descr MB NB) garbage s := by
    show (if t.out.mode = .w then some t.out else none).elim s _ = _
    rw [if_pos hmode]
    rfl
  rw [hacquire] at hfill
  exact (Option.some.inj hfill).trans (Option.some.inj hexec).symm

end Calls

/-! ## The calls and `xkblas_sync` -/

/-- The tiles of a task are those of its descriptors, its kernel reads nothing else, its accesses
are not in conflict, and what a tile contains that it takes as W does not matter. -/
structure Task.Flows (d : Operand → Descr) (t : Task R) : Prop where
  fits : t.Fits d
  proper : ∃ ld, t.Proper ld
  free : ∃ ptr, ConflictFree d ptr t.accesses
  whole : t.Whole d

section Submission

variable [Zero R]

variable {tasks : List (Task R)} {m : State R}
  {s₀ u : DataFlow.State (Operand × ℕ × ℕ) (Block R)}

end Submission

section Sync

variable [Field R] [StarRing R] [DecidableEq R] {calls : List (Call R)} {tasks : List (Task R)}
  {m : State R} {s₀ u : DataFlow.State (Operand × ℕ × ℕ) (Block R)}

theorem Call.Suited.flows {c : Call R} (hc : c.Suited d) : ∀ t ∈ c.tasks d, t.Flows d := by
  intro t ht
  have hbase : Function.Injective (fun X : Operand => X.ctorIdx) := by
    intro X Y h
    cases X <;> cases Y <;> first | rfl | cases h
  exact ⟨hc.fits t ht, ⟨c.ld, c.proper_tasks d hc.own t ht⟩,
    ⟨_, c.conflictFree_tasks hbase t ht⟩, hc.whole t ht⟩

end Sync

end Xkblas.Blas
