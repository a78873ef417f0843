import Xkblas.Blas.CopyScale
import Xkblas.Library.DisjointWrites

/-!
# The thread blocks of copyscale

A thread block of `kernel_zcopyscale_1x1` has 32 by 32 threads and works on 32 rows and 32 columns
of its tile. It loads its part of `L` in shared memory. After a barrier it writes the transposed
part to `U`, with the two coordinates of a thread exchanged, and its first row of threads stores the
inverses of the diagonal of `D`. After a second barrier it updates `L`.

Between two barriers the threads run one after another, in any order, and so do the blocks. The
kernel does what the list of assignments `cudaZcopyscale` does (`kernel_eq_run`). The sizes of a
tile are of type `int`, so that no index wraps.
-/

namespace Xkblas.Blas

open Library

variable {R : Type*} {d : Operand → Descr} {a : CopyScale} {m n : ℕ} {should_copy : Bool}

/-! ## The kernel -/

/-- The coordinates of `threadIdx` and of `blockIdx`. -/
structure Dim where
  x : ℕ
  y : ℕ
  deriving DecidableEq

/-- All coordinates below `w` and `h`. -/
def allDims (w h : ℕ) : List Dim :=
  (List.range h).flatMap fun y => (List.range w).map fun x => ⟨x, y⟩

/-- `col_count`. -/
def colCount (n : ℕ) (block : Dim) : ℕ :=
  min (32 * (block.x + 1)) n - 32 * block.x

/-- `row_count`. -/
def rowCount (m : ℕ) (block : Dim) : ℕ :=
  min (32 * (block.y + 1)) m - 32 * block.y

/-- `threadIdx.x < col_count && threadIdx.y < row_count`. -/
def InTile (m n : ℕ) (block thread : Dim) : Prop :=
  thread.x < colCount n block ∧ thread.y < rowCount m block

instance (m n : ℕ) (block : Dim) : DecidablePred (InTile m n block) :=
  fun _ => inferInstanceAs (Decidable (_ ∧ _))

/-- `should_copy && threadIdx.x < row_count && threadIdx.y < col_count`. -/
def Copies (should_copy : Bool) (m n : ℕ) (block thread : Dim) : Prop :=
  should_copy = true ∧ thread.x < rowCount m block ∧ thread.y < colCount n block

instance (should_copy : Bool) (m n : ℕ) (block : Dim) :
    DecidablePred (Copies should_copy m n block) :=
  fun _ => inferInstanceAs (Decidable (_ ∧ _ ∧ _))

/-- `threadIdx.y == 0 && idx_x < n`. -/
def Inverts (n : ℕ) (block thread : Dim) : Prop :=
  thread.y = 0 ∧ 32 * block.x + thread.x < n

instance (n : ℕ) (block : Dim) : DecidablePred (Inverts n block) :=
  fun _ => inferInstanceAs (Decidable (_ ∧ _))

/-- `L[ idx_x + idx_y * ldl ]`. -/
def CopyScale.posL (d : Operand → Descr) (a : CopyScale) (block thread : Dim) : ℕ :=
  a.addrL d (32 * block.y + thread.y) (32 * block.x + thread.x)

/-- `U[ pos_block_u + threadIdx.x + threadIdx.y * ldu ]`. -/
def CopyScale.posU (d : Operand → Descr) (a : CopyScale) (block thread : Dim) : ℕ :=
  a.addrU d (32 * block.y + thread.x) (32 * block.x + thread.y)

/-- The orders of the threads in the three parts of the kernel, and the contents of the shared
memory when the block starts. -/
structure CopyRun (R : Type*) where
  load : List Dim
  copy : List Dim
  update : List Dim
  shm_L : ℕ → R
  shm_X : ℕ → R

section Kernel

variable [Field R]

/-- A thread between the barriers. It changes `U` and `shm_X`. -/
def copyThread (d : Operand → Descr) (a : CopyScale) (m n : ℕ) (should_copy : Bool) (block : Dim)
    (shm_L : ℕ → R) (mem : State R × (ℕ → R)) (thread : Dim) : State R × (ℕ → R) :=
  let s := Function.update mem.1 a.U.mat
    (scatter (Copies should_copy m n block) (a.posU d block)
      (fun thread _ => shm_L (thread.x * 32 + thread.y)) (mem.1 a.U.mat) thread)
  (s, scatter (Inverts n block) Dim.x
    (fun thread _ => 1 / s a.D.mat (a.addrD d (32 * block.x + thread.x))) mem.2 thread)

/-- `kernel_zcopyscale_1x1` for one thread block. -/
def kernelZcopyscale1x1 (d : Operand → Descr) (a : CopyScale) (m n : ℕ) (should_copy : Bool)
    (run : Dim → CopyRun R) (s : State R) (block : Dim) : State R :=
  let shm_L := (run block).load.foldl
    (scatter (InTile m n block) (fun thread => thread.x + thread.y * 32)
      fun thread _ => s a.L.mat (a.posL d block thread)) (run block).shm_L
  let copied := (run block).copy.foldl (copyThread d a m n should_copy block shm_L)
    (s, (run block).shm_X)
  Function.update copied.1 a.L.mat ((run block).update.foldl
    (scatter (InTile m n block) (a.posL d block)
      fun thread _ => shm_L (thread.x + thread.y * 32) * copied.2 thread.x) (copied.1 a.L.mat))

end Kernel

/-- The grid of `cuda_zcopyscale`. -/
def cudaGrid (m n : ℕ) : List Dim :=
  allDims (numTiles n 32) (numTiles m 32)

/-- An execution of the kernel. -/
structure CopySchedule (R : Type*) where
  blocks : List Dim
  run : Dim → CopyRun R

/-- Every block of the grid runs once, and every thread of a block once between two barriers. -/
structure CopySchedule.Complete (m n : ℕ) (schedule : CopySchedule R) : Prop where
  blocks : schedule.blocks.Perm (cudaGrid m n)
  load : ∀ block, (schedule.run block).load.Perm (allDims 32 32)
  copy : ∀ block, (schedule.run block).copy.Perm (allDims 32 32)
  update : ∀ block, (schedule.run block).update.Perm (allDims 32 32)

/-- `cuda_zcopyscale`. -/
def launchZcopyscale [Field R] (d : Operand → Descr) (a : CopyScale) (m n : ℕ) (should_copy : Bool)
    (schedule : CopySchedule R) (s : State R) : State R :=
  schedule.blocks.foldl (kernelZcopyscale1x1 d a m n should_copy schedule.run) s

/-! ## The threads -/

theorem mem_allDims {w h : ℕ} {t : Dim} : t ∈ allDims w h ↔ t.x < w ∧ t.y < h := by
  simp only [allDims, List.mem_flatMap, List.mem_map, List.mem_range]
  constructor
  · intro hmem
    obtain ⟨y, hy, x, hx, rfl⟩ := hmem
    exact ⟨hx, hy⟩
  · intro hlt
    exact ⟨t.y, hlt.2, t.x, hlt.1, rfl⟩

theorem nodup_allDims (w h : ℕ) : (allDims w h).Nodup := by
  refine List.nodup_flatMap.mpr ⟨fun y _ => ?_, ?_⟩
  · exact List.nodup_range.map fun x x' heq => congrArg Dim.x heq
  · refine List.nodup_range.imp fun {y y'} hne => List.disjoint_left.mpr ?_
    intro t hmem hmem'
    obtain ⟨x, -, rfl⟩ := List.mem_map.mp hmem
    obtain ⟨x', -, heq⟩ := List.mem_map.mp hmem'
    exact hne (congrArg Dim.y heq).symm

/-- The element is in the part of the tile that the block works on. -/
def InPart (m n : ℕ) (block : Dim) (row col : ℕ) : Prop :=
  (row < m ∧ row / 32 = block.y) ∧ col < n ∧ col / 32 = block.x

/-- The thread of an element. -/
theorem InPart.inTile {block : Dim} {row col : ℕ} (h : InPart m n block row col) :
    InTile m n block ⟨col % 32, row % 32⟩ ∧ 32 * block.y + row % 32 = row ∧
      32 * block.x + col % 32 = col := by
  obtain ⟨⟨hrow, hy⟩, hcol, hx⟩ := h
  unfold InTile colCount rowCount
  dsimp only
  omega

/-- The thread that copies an element. -/
theorem InPart.copies {block : Dim} {row col : ℕ} (h : InPart m n block row col) :
    Copies true m n block ⟨row % 32, col % 32⟩ := by
  obtain ⟨⟨hrow, hy⟩, hcol, hx⟩ := h
  unfold Copies colCount rowCount
  refine ⟨rfl, ?_⟩
  dsimp only
  omega

theorem inPart_of_inTile {block thread : Dim} (h : InTile m n block thread) :
    InPart m n block (32 * block.y + thread.y) (32 * block.x + thread.x) := by
  unfold InTile colCount rowCount at h
  unfold InPart
  omega

theorem inPart_of_copies {block thread : Dim} (h : Copies should_copy m n block thread) :
    InPart m n block (32 * block.y + thread.x) (32 * block.x + thread.y) := by
  obtain ⟨-, h⟩ := h
  unfold colCount rowCount at h
  unfold InPart
  omega

/-! ## One block -/

section OneBlock

variable [Field R] {block : Dim} {row col : ℕ} {schedule : CopySchedule R}

/-- The threads between the barriers change `U` and `shm_X` as if each did one of the two. -/
theorem foldl_copyThread (hDU : a.D.mat ≠ a.U.mat) (shm_L : ℕ → R) (threads : List Dim)
    (s : State R) (shm_X : ℕ → R) :
    threads.foldl (copyThread d a m n should_copy block shm_L) (s, shm_X) =
      (Function.update s a.U.mat (threads.foldl
        (scatter (Copies should_copy m n block) (a.posU d block)
          fun thread _ => shm_L (thread.x * 32 + thread.y)) (s a.U.mat)),
        threads.foldl (scatter (Inverts n block) Dim.x
          fun thread _ => 1 / s a.D.mat (a.addrD d (32 * block.x + thread.x))) shm_X) := by
  induction threads generalizing s shm_X with
  | nil => simp only [List.foldl_nil, Function.update_eq_self]
  | cons t threads ih =>
      rw [List.foldl_cons, copyThread, ih]
      simp only [Function.update_self, Function.update_of_ne hDU, Function.update_idem,
        List.foldl_cons]

omit [Field R] in
/-- The part of `L` that the block loads. -/
theorem loaded_L (hcomplete : schedule.Complete m n) (h : InPart m n block row col) (s : State R) :
    (schedule.run block).load.foldl
      (scatter (InTile m n block) (fun thread => thread.x + thread.y * 32)
        fun thread _ => s a.L.mat (a.posL d block thread)) (schedule.run block).shm_L
      (col % 32 + row % 32 * 32) = s a.L.mat (a.addrL d row col) := by
  have hload := hcomplete.load block
  obtain ⟨htile, hrow, hcol⟩ := h.inTile
  have hinj : ∀ t ∈ (schedule.run block).load, ∀ u ∈ (schedule.run block).load,
      InTile m n block t → InTile m n block u →
      t.x + t.y * 32 = u.x + u.y * 32 → t = u := by
    intro t ht u hu _ _ heq
    have htlt := mem_allDims.mp (hload.mem_iff.mp ht)
    have hult := mem_allDims.mp (hload.mem_iff.mp hu)
    cases t
    cases u
    exact congrArg₂ Dim.mk (by dsimp only at *; omega) (by dsimp only at *; omega)
  have hmem : (⟨col % 32, row % 32⟩ : Dim) ∈ (schedule.run block).load :=
    hload.mem_iff.mpr (mem_allDims.mpr ⟨Nat.mod_lt _ (by decide), Nat.mod_lt _ (by decide)⟩)
  have hpos : a.posL d block ⟨col % 32, row % 32⟩ = a.addrL d row col := by
    unfold CopyScale.posL
    rw [hrow, hcol]
  rw [← hpos]
  exact foldl_scatter (InTile m n block) (fun thread => thread.x + thread.y * 32)
    (fun thread _ => s a.L.mat (a.posL d block thread))
    (hload.nodup_iff.mpr (nodup_allDims 32 32)) hinj hmem htile _

/-- The inverse of an element of the diagonal, in the shared memory after the second barrier. -/
theorem inverted_D (hcomplete : schedule.Complete m n) (hcol : col < n) (hx : col / 32 = block.x)
    (s : State R) (shm_X : ℕ → R) :
    (schedule.run block).copy.foldl (scatter (Inverts n block) Dim.x
      fun thread _ => 1 / s a.D.mat (a.addrD d (32 * block.x + thread.x))) shm_X (col % 32) =
      1 / s a.D.mat (a.addrD d col) := by
  have hcopy := hcomplete.copy block
  have hcoleq : 32 * block.x + col % 32 = col := by omega
  have hinj : ∀ t ∈ (schedule.run block).copy, ∀ u ∈ (schedule.run block).copy,
      Inverts n block t → Inverts n block u → t.x = u.x → t = u := by
    intro t _ u _ ht hu heq
    cases t
    cases u
    exact congrArg₂ Dim.mk heq (ht.1.trans hu.1.symm)
  have hmem : (⟨col % 32, 0⟩ : Dim) ∈ (schedule.run block).copy :=
    hcopy.mem_iff.mpr (mem_allDims.mpr ⟨Nat.mod_lt _ (by decide), Nat.zero_lt_succ 31⟩)
  have hinverts : Inverts n block ⟨col % 32, 0⟩ := ⟨rfl, lt_of_eq_of_lt hcoleq hcol⟩
  have hstore := foldl_scatter (Inverts n block) Dim.x
    (fun thread _ => 1 / s a.D.mat (a.addrD d (32 * block.x + thread.x)))
    (hcopy.nodup_iff.mpr (nodup_allDims 32 32)) hinj hmem hinverts shm_X
  dsimp only at hstore
  rw [hcoleq] at hstore
  exact hstore

/-- What a block does to an element of `L`. -/
theorem block_L (hlegal : a.Legal n) (hcomplete : schedule.Complete m n)
    (h : InPart m n block row col) (s : State R) :
    kernelZcopyscale1x1 d a m n should_copy schedule.run s block a.L.mat (a.addrL d row col) =
      s a.L.mat (a.addrL d row col) * (1 / s a.D.mat (a.addrD d col)) := by
  have hupdate := hcomplete.update block
  have hle := hlegal.le_ldl
  obtain ⟨htile, hrow, hcol⟩ := h.inTile
  have hinj : ∀ t ∈ (schedule.run block).update, ∀ u ∈ (schedule.run block).update,
      InTile m n block t → InTile m n block u → a.posL d block t = a.posL d block u → t = u := by
    intro t _ u _ ht hu heq
    have htpart := inPart_of_inTile ht
    have hupart := inPart_of_inTile hu
    obtain ⟨hy, hx⟩ := CopyScale.addrL_inj (lt_of_lt_of_le htpart.2.1 hle)
      (lt_of_lt_of_le hupart.2.1 hle) heq
    cases t
    cases u
    exact congrArg₂ Dim.mk (by dsimp only at hx; omega) (by dsimp only at hy; omega)
  have hmem : (⟨col % 32, row % 32⟩ : Dim) ∈ (schedule.run block).update :=
    hupdate.mem_iff.mpr (mem_allDims.mpr ⟨Nat.mod_lt _ (by decide), Nat.mod_lt _ (by decide)⟩)
  have hpos : a.posL d block ⟨col % 32, row % 32⟩ = a.addrL d row col := by
    unfold CopyScale.posL
    rw [hrow, hcol]
  unfold kernelZcopyscale1x1
  rw [foldl_copyThread hlegal.D_ne_U]
  dsimp only
  rw [Function.update_self]
  conv_lhs => rw [← hpos]
  rw [foldl_scatter (InTile m n block) (a.posL d block) _
    (hupdate.nodup_iff.mpr (nodup_allDims 32 32)) hinj hmem htile]
  dsimp only
  rw [loaded_L hcomplete h, inverted_D hcomplete h.2.1 h.2.2]

/-- What it does to an element of `U`. -/
theorem block_U (hlegal : a.Legal n) (hldu : m ≤ a.U.ld.toNat) (hcomplete : schedule.Complete m n)
    (h : InPart m n block row col) (s : State R) :
    kernelZcopyscale1x1 d a m n true schedule.run s block a.U.mat (a.addrU d row col) =
      s a.L.mat (a.addrL d row col) := by
  have hcopy := hcomplete.copy block
  obtain ⟨-, hrow, hcol⟩ := h.inTile
  have hinj : ∀ t ∈ (schedule.run block).copy, ∀ u ∈ (schedule.run block).copy,
      Copies true m n block t → Copies true m n block u →
      a.posU d block t = a.posU d block u → t = u := by
    intro t _ u _ ht hu heq
    have htpart := inPart_of_copies ht
    have hupart := inPart_of_copies hu
    obtain ⟨hx, hy⟩ := CopyScale.addrU_inj (lt_of_lt_of_le htpart.1.1 hldu)
      (lt_of_lt_of_le hupart.1.1 hldu) heq
    cases t
    cases u
    exact congrArg₂ Dim.mk (by dsimp only at hx; omega) (by dsimp only at hy; omega)
  have hmem : (⟨row % 32, col % 32⟩ : Dim) ∈ (schedule.run block).copy :=
    hcopy.mem_iff.mpr (mem_allDims.mpr ⟨Nat.mod_lt _ (by decide), Nat.mod_lt _ (by decide)⟩)
  have hpos : a.posU d block ⟨row % 32, col % 32⟩ = a.addrU d row col := by
    unfold CopyScale.posU
    rw [hrow, hcol]
  unfold kernelZcopyscale1x1
  rw [foldl_copyThread hlegal.D_ne_U]
  dsimp only
  rw [Function.update_of_ne hlegal.L_ne_U.symm, Function.update_self, ← hpos,
    foldl_scatter (Copies true m n block) (a.posU d block) _
      (hcopy.nodup_iff.mpr (nodup_allDims 32 32)) hinj hmem h.copies]
  dsimp only
  rw [Nat.add_comm]
  exact loaded_L hcomplete h s

/-- The elements that a block changes. -/
def CopyScale.changed (d : Operand → Descr) (a : CopyScale) (m n : ℕ) (should_copy : Bool)
    (block : Dim) : Set (Operand × ℕ) :=
  {p | ∃ row col, InPart m n block row col ∧
    (p = (a.L.mat, a.addrL d row col) ∨
      should_copy = true ∧ p = (a.U.mat, a.addrU d row col))}

/-- The elements that a block reads. -/
def CopyScale.used (d : Operand → Descr) (a : CopyScale) (m n : ℕ) (block : Dim) :
    Set (Operand × ℕ) :=
  {p | ∃ row col, InPart m n block row col ∧
    (p = (a.L.mat, a.addrL d row col) ∨ p = (a.D.mat, a.addrD d col))}

/-- The other elements keep their value. -/
theorem block_frame (hlegal : a.Legal n) (s : State R) {X : Operand} {i : ℕ}
    (hp : (X, i) ∉ a.changed d m n should_copy block) (run : Dim → CopyRun R) :
    kernelZcopyscale1x1 d a m n should_copy run s block X i = s X i := by
  unfold kernelZcopyscale1x1
  rw [foldl_copyThread hlegal.D_ne_U]
  dsimp only
  by_cases hL : X = a.L.mat
  · subst hL
    rw [Function.update_self, Function.update_of_ne hlegal.L_ne_U]
    refine foldl_scatter_of_ne (fun t _ ht heq => hp ?_) _
    exact ⟨_, _, inPart_of_inTile ht, .inl (Prod.ext rfl heq)⟩
  · rw [Function.update_of_ne hL]
    by_cases hU : X = a.U.mat
    · subst hU
      rw [Function.update_self]
      refine foldl_scatter_of_ne (fun t _ ht heq => hp ?_) _
      exact ⟨_, _, inPart_of_copies ht, .inr ⟨ht.1, Prod.ext rfl heq⟩⟩
    · rw [Function.update_of_ne hU]

theorem block_worksIn (hlegal : a.Legal n) (hldu : m ≤ a.U.ld.toNat)
    (hcomplete : schedule.Complete m n) :
    WorksIn (fun (s : State R) (p : Operand × ℕ) => s p.1 p.2)
      (kernelZcopyscale1x1 d a m n should_copy schedule.run) (a.changed d m n should_copy)
      (a.used d m n) block := by
  constructor
  case frame => exact fun s p hp => block_frame hlegal s hp schedule.run
  case congr =>
    intro s s' heq p hp
    obtain ⟨row, col, hpart, hp⟩ := hp
    have hL : s a.L.mat (a.addrL d row col) = s' a.L.mat (a.addrL d row col) :=
      heq (a.L.mat, a.addrL d row col) ⟨row, col, hpart, .inl rfl⟩
    have hD : s a.D.mat (a.addrD d col) = s' a.D.mat (a.addrD d col) :=
      heq (a.D.mat, a.addrD d col) ⟨row, col, hpart, .inr rfl⟩
    rcases hp with rfl | ⟨rfl, rfl⟩
    · show kernelZcopyscale1x1 d a m n should_copy schedule.run s block a.L.mat _ =
        kernelZcopyscale1x1 d a m n should_copy schedule.run s' block a.L.mat _
      rw [block_L hlegal hcomplete hpart, block_L hlegal hcomplete hpart, hL, hD]
    · show kernelZcopyscale1x1 d a m n true schedule.run s block a.U.mat _ =
        kernelZcopyscale1x1 d a m n true schedule.run s' block a.U.mat _
      rw [block_U hlegal hldu hcomplete hpart, block_U hlegal hldu hcomplete hpart, hL]

/-- The elements of a block are those of no other block. -/
theorem InPart.unique {block' : Dim} (h : InPart m n block row col)
    (h' : InPart m n block' row col) : block = block' := by
  cases block
  cases block'
  exact congrArg₂ Dim.mk (h.2.2.symm.trans h'.2.2) (h.1.2.symm.trans h'.1.2)

theorem blocks_apart (hlegal : a.Legal n) (hldu : m ≤ a.U.ld.toNat) {block' : Dim}
    (hne : block ≠ block') :
    Apart (a.changed d m n should_copy) (a.used d m n) block block' := by
  have hle := hlegal.le_ldl
  have hsameL : ∀ {b b' : Dim} {row col row' col' : ℕ}, InPart m n b row col →
      InPart m n b' row' col' → a.addrL d row col = a.addrL d row' col' → b = b' := by
    intro b b' row col row' col' hpart hpart' heq
    obtain ⟨rfl, rfl⟩ := CopyScale.addrL_inj (lt_of_lt_of_le hpart.2.1 hle)
      (lt_of_lt_of_le hpart'.2.1 hle) heq
    exact hpart.unique hpart'
  have hsameU : ∀ {b b' : Dim} {row col row' col' : ℕ}, InPart m n b row col →
      InPart m n b' row' col' → a.addrU d row col = a.addrU d row' col' → b = b' := by
    intro b b' row col row' col' hpart hpart' heq
    obtain ⟨rfl, rfl⟩ := CopyScale.addrU_inj (lt_of_lt_of_le hpart.1.1 hldu)
      (lt_of_lt_of_le hpart'.1.1 hldu) heq
    exact hpart.unique hpart'
  have hused : ∀ {b b' : Dim}, b ≠ b' →
      Disjoint (a.changed d m n should_copy b) (a.used d m n b') := by
    intro b b' hne
    refine Set.disjoint_left.mpr fun p hp hp' => ?_
    obtain ⟨row, col, hpart, hp⟩ := hp
    obtain ⟨row', col', hpart', hp'⟩ := hp'
    rcases hp with rfl | ⟨-, rfl⟩
    · rcases hp' with heq | heq
      · exact hne (hsameL hpart hpart' (congrArg Prod.snd heq))
      · exact hlegal.D_ne_L (congrArg Prod.fst heq).symm
    · rcases hp' with heq | heq
      · exact hlegal.L_ne_U (congrArg Prod.fst heq).symm
      · exact hlegal.D_ne_U (congrArg Prod.fst heq).symm
  refine ⟨Set.disjoint_left.mpr fun p hp hp' => ?_, hused hne, hused hne.symm⟩
  obtain ⟨row, col, hpart, hp⟩ := hp
  obtain ⟨row', col', hpart', hp'⟩ := hp'
  rcases hp with rfl | ⟨-, rfl⟩
  · rcases hp' with heq | ⟨-, heq⟩
    · exact hne (hsameL hpart hpart' (congrArg Prod.snd heq))
    · exact hlegal.L_ne_U (congrArg Prod.fst heq)
  · rcases hp' with heq | ⟨-, heq⟩
    · exact hlegal.L_ne_U (congrArg Prod.fst heq).symm
    · exact hne (hsameU hpart hpart' (congrArg Prod.snd heq))

/-! ## The grid -/

omit [Field R] in
/-- The block of an element of the tile is in the grid. -/
theorem mem_blocks (hcomplete : schedule.Complete m n) (hrow : row < m) (hcol : col < n) :
    (⟨col / 32, row / 32⟩ : Dim) ∈ schedule.blocks := by
  rw [hcomplete.blocks.mem_iff, cudaGrid, mem_allDims]
  exact ⟨div_lt_numTiles (by decide) hcol, div_lt_numTiles (by decide) hrow⟩

theorem launch_of_mem (hlegal : a.Legal n) (hldu : m ≤ a.U.ld.toNat)
    (hcomplete : schedule.Complete m n) (hrow : row < m) (hcol : col < n) {p : Operand × ℕ}
    (hp : p ∈ a.changed d m n should_copy ⟨col / 32, row / 32⟩) (s : State R) :
    launchZcopyscale d a m n should_copy schedule s p.1 p.2 =
      kernelZcopyscale1x1 d a m n should_copy schedule.run s ⟨col / 32, row / 32⟩ p.1 p.2 := by
  have hapart : schedule.blocks.Pairwise (Apart (a.changed d m n should_copy) (a.used d m n)) :=
    (hcomplete.blocks.nodup_iff.mpr (nodup_allDims _ _)).imp fun hne =>
      blocks_apart hlegal hldu hne
  exact foldl_of_mem (fun (s : State R) (p : Operand × ℕ) => s p.1 p.2)
    (fun block _ => block_worksIn hlegal hldu hcomplete) hapart
    (mem_blocks hcomplete hrow hcol) hp s

/-- The kernel does what the list of its assignments does, in every order of the blocks and of the
threads between two barriers. -/
theorem kernel_eq_run (hlegal : a.Legal n) (hldu : m ≤ a.U.ld.toNat)
    (hcomplete : schedule.Complete m n) (s : State R) :
    launchZcopyscale d a m n should_copy schedule s =
      a.run d (cudaZcopyscale m n should_copy) s := by
  have hvisits : Visits should_copy (· < m) n (cudaZcopyscale m n should_copy) := visits_cuda
  funext X i
  by_cases hL : X = a.L.mat ∧ ∃ row < m, ∃ col < n, i = a.addrL d row col
  · obtain ⟨rfl, row, hrow, col, hcol, rfl⟩ := hL
    have hpart : InPart m n ⟨col / 32, row / 32⟩ row col := ⟨⟨hrow, rfl⟩, hcol, rfl⟩
    have hmem : (a.L.mat, a.addrL d row col) ∈
        a.changed d m n should_copy ⟨col / 32, row / 32⟩ := ⟨row, col, hpart, .inl rfl⟩
    have hlaunch := launch_of_mem hlegal hldu hcomplete hrow hcol hmem s
    dsimp only at hlaunch
    rw [hlaunch, block_L hlegal hcomplete hpart, hvisits.get_L hlegal hcol, if_pos hrow]
  · by_cases hU : X = a.U.mat ∧ should_copy = true ∧ ∃ row < m, ∃ col < n, i = a.addrU d row col
    · obtain ⟨rfl, rfl, row, hrow, col, hcol, rfl⟩ := hU
      have hpart : InPart m n ⟨col / 32, row / 32⟩ row col := ⟨⟨hrow, rfl⟩, hcol, rfl⟩
      have hmem : (a.U.mat, a.addrU d row col) ∈
          a.changed d m n true ⟨col / 32, row / 32⟩ := ⟨row, col, hpart, .inr ⟨rfl, rfl⟩⟩
      have hlaunch := launch_of_mem hlegal hldu hcomplete hrow hcol hmem s
      dsimp only at hlaunch
      rw [hlaunch, block_U hlegal hldu hcomplete hpart,
        hvisits.get_U hlegal (fun r hr => lt_of_lt_of_le hr hldu) hrow hcol, if_pos rfl]
    · have hrun : a.run d (cudaZcopyscale m n should_copy) s X i = s X i := by
        refine CopyScale.run_frame (fun hX t ht hi => ?_) (fun hX t ht hcopy hi => ?_) s
        · exact hL ⟨hX, _, (hvisits.mem ht).1.1, _, (hvisits.mem ht).1.2, hi⟩
        · refine hU ⟨hX, ?_, _, (hvisits.mem ht).1.1, _, (hvisits.mem ht).1.2, hi⟩
          rcases (hvisits.mem ht).2 with hmem | hmem
          · exact hmem.2
          · rw [hcopy] at hmem
            cases hmem
      rw [hrun]
      refine foldl_of_notMem (fun (s : State R) (p : Operand × ℕ) => s p.1 p.2) (p := (X, i))
        (fun block _ => block_worksIn hlegal hldu hcomplete) ?_ s
      intro block _ hmem
      obtain ⟨row, col, hpart, hmem⟩ := hmem
      rcases hmem with hmem | ⟨hcopy, hmem⟩
      · exact hL ⟨congrArg Prod.fst hmem, row, hpart.1.1, col, hpart.2.1, congrArg Prod.snd hmem⟩
      · exact hU ⟨congrArg Prod.fst hmem, hcopy, row, hpart.1.1, col, hpart.2.1,
          congrArg Prod.snd hmem⟩

end OneBlock

end Xkblas.Blas
