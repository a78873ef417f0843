import Xkblas.Blas.Accesses
import Xkblas.Blas.Bodies

/-!
# Replicas that are not transferred

For an access that the format of a task declares as W, `kaapi_dsm_acquire_data` makes the replica of
the resource the only valid one and does not transfer the old content to it. The body then finds
there what the memory had before. A `Launch` has what the runtime needs of a task; it overwrites the
view when what its bodies leave does not depend on that content. `runAcquired_eq` is for the runs of
such tasks, and `exec_fill_iff` for one of them.
-/

namespace Xkblas.Blas

open Library

/-! ## Launches -/

section Launch

variable {R : Type}

/-- The matrices when the view of an access has the content of `garbage`. -/
def Param.fill (d : Operand → Descr) (p : Param) (garbage s : State R) : State R :=
  Function.update s p.mat
    (store (s p.mat) ((d p.mat).addr p.m p.n) p.ld.toNat p.rows p.cols (fun _ _ => true)
      (garbage.block d p.toTile))

/-- A task as the runtime launches it: the access that is declared as W, if there is one, and the
bodies. The behaviour of a body may be undefined. -/
structure Launch (R : Type) where
  writeOnly : Option Param
  cpu : State R → Option (State R)
  gpu : State R → Option (State R)

/-- `kaapi_dsm_acquire_data` for the access declared as W, when the replica contains `garbage`. -/
def Launch.acquire (d : Operand → Descr) (l : Launch R) (garbage s : State R) : State R :=
  l.writeOnly.elim s fun p => p.fill d garbage s

/-- The body that the chosen resource runs. -/
def Launch.body (l : Launch R) (onGpu : Bool) : State R → Option (State R) :=
  if onGpu then l.gpu else l.cpu

/-- Both bodies overwrite the view of the access declared as W: what they leave does not depend on
what was there. -/
def Launch.Overwrites (d : Operand → Descr) (l : Launch R) : Prop :=
  ∀ onGpu garbage s, ∃ s', l.body onGpu (l.acquire d garbage s) = some s' ∧
    l.body onGpu s = some s'

/-- The execution of tasks on the replicas of their resources. For each task the resource is given,
and what its replica contains. -/
def runAcquired (d : Operand → Descr) :
    List (Launch R) → (ℕ → Bool × State R) → State R → Option (State R)
  | [], _, s => some s
  | l :: ls, choice, s =>
      (l.body (choice 0).1 (l.acquire d (choice 0).2 s)).bind
        (runAcquired d ls fun n => choice (n + 1))

/-- The execution of the same bodies on the memory of the host. -/
def runDirect : List (Launch R) → (ℕ → Bool × State R) → State R → Option (State R)
  | [], _, s => some s
  | l :: ls, choice, s =>
      (l.body (choice 0).1 s).bind (runDirect ls fun n => choice (n + 1))

/-- When every task overwrites its view, the replicas leave what the direct execution does. -/
theorem runAcquired_eq {d : Operand → Descr} {launches : List (Launch R)}
    (h : ∀ l ∈ launches, l.Overwrites d) (choice : ℕ → Bool × State R) (s : State R) :
    ∃ s', runAcquired d launches choice s = some s' ∧ runDirect launches choice s = some s' := by
  induction launches generalizing choice s with
  | nil => exact ⟨s, rfl, rfl⟩
  | cons l ls ih =>
      obtain ⟨s₁, hacquired, hdirect⟩ := h l List.mem_cons_self (choice 0).1 (choice 0).2 s
      obtain ⟨s', hs, hs'⟩ := ih (fun k hk => h k (List.mem_cons_of_mem l hk))
        (fun n => choice (n + 1)) s₁
      refine ⟨s', ?_, ?_⟩
      · rw [runAcquired, hacquired]
        exact hs
      · rw [runDirect, hdirect]
        exact hs'

/-- The launch of a task that writes one operand. -/
def Task.launch (d : Operand → Descr) (cpu : State R → Option (State R)) (t : Task R) :
    Launch R where
  writeOnly := if t.out.mode = .w then some t.out else none
  cpu := cpu
  gpu := fun s => some (t.exec d s)

end Launch

section Arguments

variable {R : Type} [Field R] [StarRing R] [DecidableEq R]

/-- The access declared as W of a task with several written operands. -/
def TaskArg.writeOnly : TaskArg R → Option Param
  | .zcopyscale m n _ _ _ U => some { U with mode := .w, rows := m, cols := n }
  | _ => none

/-- The launch of a task with several written operands. -/
def TaskArg.launch (mkl : Bool) (NB : ℕ) (d : Operand → Descr) (a : TaskArg R) : Launch R where
  writeOnly := a.writeOnly
  cpu := (a.cpuBody mkl NB d).result
  gpu := (a.gpuBody d).result

end Arguments

/-! ## The content of a view -/

section Fill

variable {R : Type} {d : Operand → Descr} {p q : Param} {X : Operand} {i j : ℕ}
  {garbage s : State R}

/-- The task that stores the content of `garbage`. -/
def fillTask (d : Operand → Descr) (p : Param) (garbage : State R) : Task R where
  inputs := []
  out := p
  inserted := []
  writes := fun _ _ => true
  value := fun _ => garbage.block d p.toTile

theorem exec_fillTask (hd : ∀ X, (d X).Valid) (hp : p.Fits d) :
    (fillTask d p garbage).exec d s = p.fill d garbage s := by
  refine if_pos fun q hq => ?_
  obtain rfl := List.mem_singleton.mp hq
  exact hp.ldOk (hd _)

theorem stores_fillTask (hd : ∀ X, (d X).Valid) (hp : p.Fits d) :
    (fillTask d p garbage).Stores d := by
  refine ⟨fun q hq => ?_, hp⟩
  obtain rfl := List.mem_singleton.mp hq
  exact hp.ldOk (hd _)

/-- The element is in the tile. -/
def Param.Holds (d : Operand → Descr) (p : Param) (i j : ℕ) : Prop :=
  (i < (d p.mat).M ∧ i / (d p.mat).mb = p.m) ∧ j < (d p.mat).N ∧ j / (d p.mat).nb = p.n

instance (p : Param) : Decidable (p.Holds d i j) :=
  inferInstanceAs (Decidable ((_ ∧ _) ∧ _ ∧ _))

theorem fill_of_ne (hX : p.mat ≠ X) : p.fill d garbage s X = s X :=
  Function.update_of_ne hX.symm _ _

theorem fill_get (hd : ∀ X, (d X).Valid) (hp : p.Fits d) (hX : p.mat = X) (hi : i < (d X).ld) :
    (p.fill d garbage s).get d X i j =
      if p.Holds d i j then garbage.get d X i j else s.get d X i j := by
  subst hX
  have hv := hd p.mat
  have hrow : p.m < numTiles (d p.mat).M (d p.mat).mb := hv.mt_eq ▸ hp.row_lt
  have hcol : p.n < numTiles (d p.mat).N (d p.mat).nb := hv.nt_eq ▸ hp.col_lt
  rw [← exec_fillTask hd hp, exec_get (X := p.mat) hd (stores_fillTask hd hp) rfl hi]
  by_cases hin : p.Holds d i j
  · obtain ⟨hlo, _⟩ := (mem_tile hv.mb_pos hrow).mpr hin.1
    obtain ⟨hlo', _⟩ := (mem_tile hv.nb_pos hcol).mpr hin.2
    rw [if_pos ⟨hin, rfl⟩, if_pos hin]
    show garbage.block d p.toTile (i - p.m * _) (j - p.n * _) = _
    rw [block_apply hp.ld_eq, Nat.add_sub_cancel' hlo, Nat.add_sub_cancel' hlo']
  · rw [if_neg fun h => hin h.1, if_neg hin]

/-- Another tile keeps its content. -/
theorem fill_block (hd : ∀ X, (d X).Valid) (hp : p.Fits d)
    (hq : q.mat ≠ p.mat ∨ q.Fits d ∧ (q.m ≠ p.m ∨ q.n ≠ p.n)) :
    ∀ i < q.rows, ∀ j < q.cols,
      (p.fill d garbage s).block d q.toTile i j = s.block d q.toTile i j := by
  intro i hi j hj
  by_cases hmat : q.mat = p.mat
  · obtain ⟨hfits, hne⟩ := hq.resolve_left (not_not_intro hmat)
    rw [← exec_fillTask hd hp]
    show (run d [fillTask d p garbage] s).block d q.toTile i j = _
    refine run_block_eq hd (fun t ht => ?_) hfits (fun t ht hover => ?_) s i hi j hj
    · rw [List.mem_singleton.mp ht]
      exact stores_fillTask hd hp
    · obtain rfl := List.mem_singleton.mp ht
      obtain ⟨_, hm, hn⟩ := hover
      exact hne.elim (fun h => h hm.symm) fun h => h hn.symm
  · unfold State.block
    rw [fill_of_ne (Ne.symm hmat)]

end Fill

/-! ## Tasks with a write-only access -/

section Acquire

variable {R : Type} {d : Operand → Descr} {t t' : Task R} {cpu : State R → Option (State R)}

/-- The values that the kernel stores depend on the tiles that it reads. -/
def Task.Reads (t : Task R) : Prop :=
  ∀ block block' : Tile → Block R,
    (∀ p ∈ t.inputs, ∀ i < p.rows, ∀ j < p.cols, block p.toTile i j = block' p.toTile i j) →
      ∀ i < t.out.rows, ∀ j < t.out.cols, t.value block i j = t.value block' i j

/-- A task whose result does not depend on the tile that it writes. -/
structure Task.Acquirable (d : Operand → Descr) (t : Task R) : Prop where
  stores : t.Stores d
  separate : ∀ p ∈ t.inputs,
    p.mat ≠ t.out.mat ∨ p.Fits d ∧ (p.m ≠ t.out.m ∨ p.n ≠ t.out.n)
  reads : t.Reads

/-- The task stores all of its tile. -/
def Task.Full (t : Task R) : Prop :=
  ∀ i < t.out.rows, ∀ j < t.out.cols, t.writes i j = true

/-- What such a task leaves does not depend on its tile exactly when it stores all of it. -/
theorem exec_fill_iff [Nontrivial R] (hd : ∀ X, (d X).Valid) (h : t.Acquirable d) :
    (∀ garbage s, t.exec d (t.out.fill d garbage s) = t.exec d s) ↔ t.Full := by
  have hv := hd t.out.mat
  have hout := h.stores.out
  have hrow : t.out.m < numTiles (d t.out.mat).M (d t.out.mat).mb := hv.mt_eq ▸ hout.row_lt
  have hcol : t.out.n < numTiles (d t.out.mat).N (d t.out.mat).nb := hv.nt_eq ▸ hout.col_lt
  constructor
  · intro heq i hi j hj
    by_contra hnot
    rw [hout.rows_eq] at hi
    rw [hout.cols_eq] at hj
    -- the element of the matrix is in the tile, and the task leaves it
    have hin := (mem_tile hv.mb_pos hrow).mp ⟨Nat.le_add_right _ i, Nat.add_lt_add_left hi _⟩
    have hin' := (mem_tile hv.nb_pos hcol).mp ⟨Nat.le_add_right _ j, Nat.add_lt_add_left hj _⟩
    have hlt := hin.1.trans_le hv.rows_le
    obtain ⟨x, y, hxy⟩ := exists_pair_ne R
    have hget := congrArg (fun s' : State R => s'.get d t.out.mat
      (t.out.m * (d t.out.mat).mb + i) (t.out.n * (d t.out.mat).nb + j))
      (heq (fun _ _ => x) fun _ _ => y)
    have hcovers : ¬ t.Covers d (t.out.m * (d t.out.mat).mb + i)
        (t.out.n * (d t.out.mat).nb + j) := by
      intro hcovers
      have hstore := hcovers.2
      rw [Nat.add_sub_cancel_left, Nat.add_sub_cancel_left] at hstore
      exact hnot hstore
    rw [exec_get hd h.stores rfl hlt, exec_get hd h.stores rfl hlt, if_neg hcovers, if_neg hcovers,
      fill_get hd hout rfl hlt, if_pos (show t.out.Holds d _ _ from ⟨hin, hin'⟩)] at hget
    exact hxy hget
  · intro hfull garbage s
    refine State.ext_get hd fun X I hI J => ?_
    by_cases hX : t.out.mat = X
    · subst hX
      rw [exec_get hd h.stores rfl hI, exec_get hd h.stores rfl hI]
      by_cases hin : t.out.Holds d I J
      · obtain ⟨hlo, hhi⟩ := (mem_tile hv.mb_pos hrow).mpr hin.1
        obtain ⟨hlo', hhi'⟩ := (mem_tile hv.nb_pos hcol).mpr hin.2
        have hi : I - t.out.m * (d t.out.mat).mb < t.out.rows := by
          rw [hout.rows_eq]
          omega
        have hj : J - t.out.n * (d t.out.mat).nb < t.out.cols := by
          rw [hout.cols_eq]
          omega
        rw [if_pos (show t.Covers d I J from ⟨hin, hfull _ hi _ hj⟩), if_pos ⟨hin, hfull _ hi _ hj⟩]
        exact h.reads _ _ (fun p hp => fill_block hd hout (h.separate p hp)) _ hi _ hj
      · rw [if_neg fun hcovers : t.Covers d I J => hin hcovers.1,
          if_neg fun hcovers => hin hcovers.1, fill_get hd hout rfl hI, if_neg hin]
    · show State.get _ d X I J = State.get _ d X I J
      unfold State.get
      rw [exec_of_ne hX, exec_of_ne hX, fill_of_ne hX]

/-- A task without an access declared as W. -/
theorem overwrites_of_mode (hmode : t.out.mode ≠ .w) (hcpu : ∀ s, ∃ s', cpu s = some s') :
    (t.launch d cpu).Overwrites d := by
  intro onGpu garbage s
  have hacquire : (t.launch d cpu).acquire d garbage s = s := by
    show (if t.out.mode = .w then some t.out else none).elim s _ = s
    rw [if_neg hmode]
    rfl
  rw [hacquire]
  cases onGpu with
  | true => exact ⟨_, rfl, rfl⟩
  | false =>
      obtain ⟨s', hs'⟩ := hcpu s
      exact ⟨s', hs', hs'⟩

/-- A task with an access declared as W, whose body for the CPU is the kernel of `t'`. -/
theorem overwrites_launch_iff [Nontrivial R] (hd : ∀ X, (d X).Valid) (hmode : t.out.mode = .w)
    (h : t.Acquirable d) (h' : t'.Acquirable d) (hout : t'.out = t.out)
    (hcpu : ∀ s, cpu s = some (t'.exec d s)) :
    (t.launch d cpu).Overwrites d ↔ t.Full ∧ t'.Full := by
  have hacquire : ∀ garbage s, (t.launch d cpu).acquire d garbage s = t.out.fill d garbage s := by
    intro garbage s
    show (if t.out.mode = .w then some t.out else none).elim s _ = _
    rw [if_pos hmode]
    rfl
  rw [← exec_fill_iff hd h, ← exec_fill_iff hd h', hout]
  constructor
  · intro hover
    refine ⟨fun garbage s => ?_, fun garbage s => ?_⟩
    · obtain ⟨s', hs, hs'⟩ := hover true garbage s
      rw [hacquire] at hs
      exact (Option.some.inj hs).trans (Option.some.inj hs').symm
    · obtain ⟨s', hs, hs'⟩ := hover false garbage s
      rw [hacquire] at hs
      exact Option.some.inj ((hcpu _).symm.trans (hs.trans (hs'.symm.trans (hcpu _))))
  · intro heq onGpu garbage s
    rw [hacquire]
    cases onGpu with
    | true => exact ⟨_, congrArg some (heq.1 garbage s), rfl⟩
    | false => exact ⟨_, (hcpu _).trans (congrArg some (heq.2 garbage s)), hcpu s⟩

/-- A task whose bodies are the same kernel. -/
theorem overwrites_iff [Nontrivial R] (hd : ∀ X, (d X).Valid)
    (h : t.out.mode = .w → t.Acquirable d) :
    (t.launch d fun s => some (t.exec d s)).Overwrites d ↔ (t.out.mode = .w → t.Full) := by
  by_cases hmode : t.out.mode = .w
  · rw [overwrites_launch_iff hd hmode (h hmode) (h hmode) rfl fun _ => rfl]
    exact ⟨fun hfull _ => hfull.1, fun hfull => ⟨hfull hmode, hfull hmode⟩⟩
  · exact iff_of_true (overwrites_of_mode hmode fun _ => ⟨_, rfl⟩) fun hw => absurd hw hmode

end Acquire

/-! ## The kernels with the factor zero -/

section Kernels

variable {R : Type} [CommRing R] [StarRing R] [DecidableEq R] {transA transB transT : Trans}
  {side : Side} {uplo : Uplo} {m n k : ℕ} {alpha : R} {A B C : Tile}

omit [CommRing R] [StarRing R] [DecidableEq R] in
/-- The entries of `op(A)` are those of the block. -/
theorem op_congr [Star R] {a a' : Block R} {i l : ℕ}
    (h : ∀ x < transA.rowDim m k, ∀ y < transA.colDim m k, a x y = a' x y) (hi : i < m)
    (hl : l < k) : transA.op a i l = transA.op a' i l := by
  cases transA with
  | noTrans => exact h i hi l hl
  | trans => exact h l hl i hi
  | conjTrans => exact congrArg star (h l hl i hi)

theorem reads_zgemm : (insertTaskZgemm transA transB m n k alpha A B 0 C).Reads := by
  intro block block' h i hi j hj
  simp only [insertTaskZgemm, List.forall_mem_cons] at h hi hj ⊢
  obtain ⟨hA, hB, _⟩ := h
  unfold gemm
  rw [zero_mul, zero_mul]
  refine congrArg (alpha * · + 0) (Finset.sum_congr rfl fun l hl => ?_)
  have hl := Finset.mem_range.mp hl
  rw [op_congr hA hi hl, op_congr hB hl hj]

theorem reads_mirror (htrans : transT ≠ .noTrans) :
    (insertTaskMirror transT side uplo m n alpha A B 0 C).Reads := by
  intro block block' h i hi j hj
  simp only [insertTaskMirror, List.forall_mem_cons] at h hi hj ⊢
  obtain ⟨hA, hB, _⟩ := h
  rw [sideMul_eq, sideMul_eq, zero_mul, zero_mul]
  refine congrArg (alpha * · + 0) (Finset.sum_congr rfl fun l hl => ?_)
  have hl := Finset.mem_range.mp hl
  have hmirror : ∀ x < side.rowDim m n, ∀ y < side.rowDim m n,
      mirror transT uplo (block A) x y = mirror transT uplo (block' A) x y := by
    intro x hx y hy
    exact mirror_congr htrans (fun x hx y hy _ => hA x hx y hy) hx hy
  cases side with
  | left => exact congrArg₂ (· * ·) (hmirror i hi l hl) (hB l hl j hj)
  | right => exact congrArg₂ (· * ·) (hB i hi l hl) (hmirror l hl j hj)

omit [DecidableEq R] in
theorem reads_rankK {mode : R → Mode} :
    (insertTaskRankK mode transT uplo transA n k alpha A 0 C).Reads := by
  intro block block' h i hi j hj
  simp only [insertTaskRankK, List.forall_mem_cons] at h hi hj ⊢
  obtain ⟨hA, _⟩ := h
  unfold rankK
  rw [zero_mul, zero_mul]
  refine congrArg (alpha * · + 0) (Finset.sum_congr rfl fun l hl => ?_)
  have hl := Finset.mem_range.mp hl
  rw [op_congr hA hi hl, op_congr hA hj hl]

omit [DecidableEq R] in
theorem reads_rank2K {mode : R → Mode} :
    (insertTaskRank2K mode transT uplo transA n k alpha A B 0 C).Reads := by
  intro block block' h i hi j hj
  simp only [insertTaskRank2K, List.forall_mem_cons] at h hi hj ⊢
  obtain ⟨hA, hB, _⟩ := h
  unfold rank2K
  rw [zero_mul, zero_mul]
  have hfirst : ∀ l ∈ Finset.range k,
      transA.op (block A) i l * transT.conj (transA.op (block B) j l) =
        transA.op (block' A) i l * transT.conj (transA.op (block' B) j l) := by
    intro l hl
    have hl := Finset.mem_range.mp hl
    rw [op_congr hA hi hl, op_congr hB hj hl]
  have hsecond : ∀ l ∈ Finset.range k,
      transA.op (block B) i l * transT.conj (transA.op (block A) j l) =
        transA.op (block' B) i l * transT.conj (transA.op (block' A) j l) := by
    intro l hl
    have hl := Finset.mem_range.mp hl
    rw [op_congr hB hi hl, op_congr hA hj hl]
  rw [Finset.sum_congr rfl hfirst, Finset.sum_congr rfl hsecond]

variable {d : Operand → Descr} {X Y Z : Operand} {NB M N K : ℕ} {ldx ldy ldz LDA LDB LDC : ℤ}
  {transX transY : Trans} {beta : R}

/-- A gemm task with operands of other matrices. -/
theorem acquirable_gemmTask {m n k : ℕ}
    (h : (gemmTask transX transY NB M N K alpha X ldx Y ldy beta Z ldz m n k).Stores d)
    (hX : X ≠ Z) (hY : Y ≠ Z)
    (hmode : (gemmTask transX transY NB M N K alpha X ldx Y ldy beta Z ldz m n k).out.mode = .w) :
    (gemmTask transX transY NB M N K alpha X ldx Y ldy beta Z ldz m n k).Acquirable d := by
  obtain rfl : beta = 0 := eq_zero_of_betaMode hmode
  refine ⟨h, fun p hp => .inl ?_, reads_zgemm⟩
  simp only [insertTaskZgemm, List.mem_cons, List.not_mem_nil, or_false] at hp
  rcases hp with rfl | rfl
  · exact (transX.tile_mat _ _ _).trans_ne hX
  · exact (transY.tile_mat _ _ _).trans_ne hY

theorem acquirable_sideTask (h : SideTiled d side NB M N LDA LDB LDC) (htrans : transT ≠ .noTrans)
    {m n k : ℕ} (hm : m < numTiles M NB) (hn : n < numTiles N NB)
    (hk : k < numTiles (side.rowDim M N) NB)
    (hmode : (sideTask transT side uplo NB M N alpha LDA LDB beta LDC m n k).out.mode = .w) :
    (sideTask transT side uplo NB M N alpha LDA LDB beta LDC m n k).Acquirable d ∧
      (sideTask transT side uplo NB M N alpha LDA LDB beta LDC m n k).Full := by
  have hstores : (sideTask transT side uplo NB M N alpha LDA LDB beta LDC m n k).Stores d :=
    (sideTask_fitsTile h hm hn hk).stores
  unfold sideTask at hmode hstores ⊢
  split at hmode
  next hdiag =>
    simp only [if_pos hdiag] at hstores ⊢
    obtain rfl : beta = 0 := eq_zero_of_betaMode hmode
    refine ⟨⟨hstores, fun p hp => .inl ?_, reads_mirror htrans⟩, fun _ _ _ _ => rfl⟩
    simp only [insertTaskMirror, List.mem_cons, List.not_mem_nil, or_false] at hp
    rcases hp with rfl | rfl
    · exact Operand.noConfusion
    · exact Operand.noConfusion
  next hdiag =>
    simp only [if_neg hdiag] at hstores ⊢
    cases side with
    | left =>
        exact ⟨acquirable_gemmTask hstores Operand.noConfusion Operand.noConfusion hmode,
          fun _ _ _ _ => rfl⟩
    | right =>
        exact ⟨acquirable_gemmTask hstores Operand.noConfusion Operand.noConfusion hmode,
          fun _ _ _ _ => rfl⟩

end Kernels

/-! ## Copyscale -/

section CopyScale

variable {R : Type} {d : Operand → Descr} {a : CopyScale} {tasks : List Assign} {m n : ℕ}
  {should_copy : Bool}

/-- The body for the CPU of `zcopyscale` is defined on `m` rows and copies all of them. -/
def NativeCovers (m : ℕ) : Prop :=
  m ≤ 8590000 ∧ (m < 62500 ∨ 250 ≤ m % 62500)

/-- The blocks of the CPU body are defined and have all of the rows. -/
theorem nativeCovers_iff :
    NativeCovers m ↔ (∀ block < numTiles m 250, block * 250 * 250 < 2 ^ 31) ∧
      ∀ row < m, nativeRow m row := by
  constructor
  · rintro ⟨hle, hrest⟩
    have hdef : ∀ block < numTiles m 250, block * 250 * 250 < 2 ^ 31 := by
      intro block hblock
      have hlt := (lt_numTiles (by decide)).mp hblock
      have hlast : block * 250 * 250 ≤ 34359 * 62500 := by omega
      exact hlast.trans_lt (by decide)
    refine ⟨hdef, fun row hrow => ?_⟩
    have htile : row / 250 < numTiles m 250 := div_lt_numTiles (by decide) hrow
    have hsmall := hdef _ htile
    refine ⟨htile, ?_⟩
    unfold copyBlock sizeSub
    split
    · omega
    · omega
  · rintro ⟨hdef, hrows⟩
    have hle : m ≤ 8590000 := by
      by_contra hgt
      have hlast := hdef 34360 ((lt_numTiles (by decide)).mpr (by omega))
      omega
    refine ⟨hle, ?_⟩
    by_contra hnot
    rw [not_or, not_lt, not_le] at hnot
    -- the first row after the block that starts at `m / 62500 * 250`
    obtain ⟨_, hrow⟩ := hrows (m / 62500 * 250 + m % 62500) (by omega)
    unfold copyBlock sizeSub at hrow
    rw [if_pos (by omega)] at hrow
    omega

/-- Matrices that differ in elements of `U` to which the assignments copy. -/
theorem CopyScale.run_congr [Field R] (hD : a.D.mat ≠ a.U.mat) (hL : a.L.mat ≠ a.U.mat)
    {s s' : State R} (hother : ∀ X, X ≠ a.U.mat → s X = s' X)
    (hU : ∀ i, s a.U.mat i = s' a.U.mat i ∨
      ∃ row col, .copy row col ∈ tasks ∧ i = a.addrU d row col) :
    a.run d tasks s = a.run d tasks s' := by
  induction tasks generalizing s s' with
  | nil =>
      funext X
      by_cases hX : X = a.U.mat
      · subst hX
        funext i
        refine (hU i).resolve_right ?_
        rintro ⟨_, _, hmem, _⟩
        exact List.not_mem_nil hmem
      · exact hother X hX
  | cons t tasks ih =>
      show a.run d tasks (a.assign d s t) = a.run d tasks (a.assign d s' t)
      refine ih (fun X hX => ?_) fun i => ?_
      · cases t with
        | copy row col =>
            simp only [CopyScale.assign, Function.update_of_ne hX]
            exact hother X hX
        | scale row col =>
            simp only [CopyScale.assign, hother _ hL, hother _ hD]
            by_cases hXL : X = a.L.mat
            · rw [hXL, Function.update_self, Function.update_self]
            · rw [Function.update_of_ne hXL, Function.update_of_ne hXL]
              exact hother X hX
      · cases t with
        | copy row col =>
            simp only [CopyScale.assign, Function.update_self, hother _ hL]
            by_cases hi : i = a.addrU d row col
            · subst hi
              exact .inl (by rw [Function.update_self, Function.update_self])
            · rw [Function.update_of_ne hi, Function.update_of_ne hi]
              refine (hU i).imp_right ?_
              rintro ⟨r, c, hmem, heq⟩
              refine ⟨r, c, ?_, heq⟩
              rcases List.mem_cons.mp hmem with hhead | hmem
              · obtain ⟨rfl, rfl⟩ := Assign.copy.inj hhead
                exact absurd heq hi
              · exact hmem
        | scale row col =>
            simp only [CopyScale.assign, Function.update_of_ne hL.symm]
            refine (hU i).imp_right ?_
            rintro ⟨r, c, hmem, heq⟩
            refine ⟨r, c, ?_, heq⟩
            exact (List.mem_cons.mp hmem).resolve_left Assign.noConfusion

/-- A view that is filled, by the addresses of its elements. -/
theorem fill_apply (p : Param) (garbage s : State R) (i : ℕ) :
    p.fill d garbage s p.mat i = s p.mat i ∨
      ∃ row < p.rows, ∃ col < p.cols, i = (d p.mat).addr p.m p.n + row + col * p.ld.toNat := by
  unfold Param.fill store
  rw [Function.update_self]
  by_cases hin : (d p.mat).addr p.m p.n ≤ i ∧ (i - (d p.mat).addr p.m p.n) % p.ld.toNat < p.rows ∧
      (i - (d p.mat).addr p.m p.n) / p.ld.toNat < p.cols ∧ true = true
  · refine .inr ⟨_, hin.2.1, _, hin.2.2.1, ?_⟩
    have hsplit := Nat.mod_add_div' (i - (d p.mat).addr p.m p.n) p.ld.toNat
    omega
  · exact .inl (if_neg hin)

theorem fill_first_column (p : Param) (garbage s : State R) {row : ℕ} (hrow : row < p.rows)
    (hcols : 0 < p.cols) (hld : p.rows ≤ p.ld.toNat) :
    p.fill d garbage s p.mat ((d p.mat).addr p.m p.n + row + 0 * p.ld.toNat) =
      garbage p.mat ((d p.mat).addr p.m p.n + row + 0 * p.ld.toNat) := by
  have hlt : row < p.ld.toNat := by omega
  unfold Param.fill store
  rw [Function.update_self, Nat.zero_mul, Nat.add_zero, Nat.add_sub_cancel_left,
    Nat.mod_eq_of_lt hlt, Nat.div_eq_of_lt hlt, if_pos ⟨Nat.le_add_right _ _, hrow, hcols, rfl⟩]
  unfold State.block entry
  rw [Nat.zero_mul, Nat.add_zero]

/-- Assignments that copy all of the tile overwrite it. -/
theorem run_fill_of_visits [Field R] {rows : ℕ → Prop} [DecidablePred rows] (p : Param)
    (hp : a.U = p.toTile) (hcols : p.cols = n) (hlegal : a.Legal n) (h : Visits true rows n tasks)
    (hrows : ∀ row < p.rows, rows row) (garbage s : State R) :
    a.run d tasks (p.fill d garbage s) = a.run d tasks s := by
  refine CopyScale.run_congr hlegal.D_ne_U hlegal.L_ne_U (fun X hX => ?_) fun i => ?_
  · rw [hp] at hX
    exact fill_of_ne (Ne.symm hX)
  · rw [hp]
    refine (fill_apply p garbage s i).imp_right fun ⟨row, hrow, col, hcol, heq⟩ =>
      ⟨row, col, ?_, ?_⟩
    · have hvisit := h row col
      rw [if_pos ⟨hrows row hrow, hcols ▸ hcol⟩] at hvisit
      have hmem : Assign.copy row col ∈ onElement true row col := List.mem_cons_self
      rw [← hvisit] at hmem
      exact (List.mem_filter.mp hmem).1
    · unfold CopyScale.addrU
      rw [hp]
      exact heq

/-- A row that the assignments do not copy keeps its content. -/
theorem exists_run_fill_ne [Field R] {rows : ℕ → Prop} [DecidablePred rows] (p : Param)
    (hp : a.U = p.toTile) (hcols : 0 < p.cols) (hld : p.rows ≤ p.ld.toNat) (hlegal : a.Legal n)
    (h : Visits should_copy rows n tasks) {row : ℕ} (hrow : row < p.rows)
    (hnot : should_copy = false ∨ ¬ rows row) :
    ∃ garbage s : State R, a.run d tasks (p.fill d garbage s) ≠ a.run d tasks s := by
  refine ⟨fun _ _ => 1, fun _ _ => 0, fun heq => ?_⟩
  have hframe : ∀ s : State R,
      a.run d tasks s p.mat ((d p.mat).addr p.m p.n + row + 0 * p.ld.toNat) =
        s p.mat ((d p.mat).addr p.m p.n + row + 0 * p.ld.toNat) := by
    intro s
    refine CopyScale.run_frame (fun hX => ?_) (fun _ t ht hcopy hi => ?_) s
    · rw [← congrArg Tile.mat hp] at hX
      exact absurd hX.symm hlegal.L_ne_U
    · obtain ⟨⟨htrow, _⟩, hkind⟩ := h.mem ht
      unfold CopyScale.addrU at hi
      rw [hp] at hi
      have hlt : row < p.ld.toNat := by omega
      have hzero : t.col = 0 := by
        by_contra hpos
        have hmul := Nat.le_mul_of_pos_left p.ld.toNat (Nat.pos_of_ne_zero hpos)
        omega
      rw [hzero] at hi
      obtain rfl : t.row = row := by omega
      rcases hnot with hfalse | hnot
      · rcases hkind with ⟨_, htrue⟩ | hscale
        · exact Bool.noConfusion (hfalse.symm.trans htrue)
        · exact Assign.noConfusion (hcopy.symm.trans hscale)
      · exact hnot htrow
  have hvalue := congrFun (congrFun heq p.mat) ((d p.mat).addr p.m p.n + row + 0 * p.ld.toNat)
  rw [hframe, hframe, fill_first_column p _ _ hrow hcols hld] at hvalue
  exact one_ne_zero hvalue

/-- A task of `zcopyscale` overwrites its tile of `U` when it copies, and the CPU body when its
blocks have all of the rows. -/
theorem overwrites_zcopyscale_iff [Field R] [StarRing R] [DecidableEq R] {mkl : Bool} {NB : ℕ}
    {D L U : Tile} (hlegal : CopyScale.Legal ⟨D, L, U⟩ n) (hm : 1 ≤ m) (hn : 1 ≤ n)
    (hldu : m ≤ U.ld.toNat) :
    (TaskArg.launch mkl NB d (.zcopyscale m n should_copy D L U : TaskArg R)).Overwrites d ↔
      should_copy = true ∧ NativeCovers m := by
  obtain ⟨p, hp⟩ : ∃ p : Param, p = { U with mode := .w, rows := m, cols := n } := ⟨_, rfl⟩
  have hU : U = p.toTile := by rw [hp]
  have hprows : p.rows = m := by rw [hp]
  have hpcols : p.cols = n := by rw [hp]
  have hpld : p.rows ≤ p.ld.toNat := by
    rw [hp]
    exact hldu
  have hacquire : ∀ garbage s,
      (TaskArg.launch mkl NB d (.zcopyscale m n should_copy D L U : TaskArg R)).acquire d garbage
        s = p.fill d garbage s := by
    intro garbage s
    rw [hp]
    rfl
  constructor
  · intro hover
    have hcopy : should_copy = true := by
      by_contra hfalse
      obtain ⟨garbage, s, hne⟩ := exists_run_fill_ne (R := R) (d := d) (a := ⟨D, L, U⟩) p hU
        (by omega) hpld hlegal (visits_cuda (m := m)) (hprows ▸ hm)
        (.inl (Bool.eq_false_iff.mpr hfalse))
      obtain ⟨s', hs, hs'⟩ := hover true garbage s
      rw [hacquire] at hs
      exact hne ((Option.some.inj hs).trans (Option.some.inj hs').symm)
    refine ⟨hcopy, ?_⟩
    -- what the CPU body does on any matrices shows that it is defined
    obtain ⟨_, _, hdefined⟩ := hover false (fun _ _ => 0) fun _ _ => 0
    obtain ⟨tasks, htasks, _⟩ := Option.map_eq_some_iff.mp hdefined
    rw [nativeCovers_iff]
    refine ⟨?_, fun row hrow => ?_⟩
    · unfold zcopyscaleNative at htasks
      split at htasks
      next hdef => exact hdef
      next => cases htasks
    · by_contra hnot
      obtain ⟨garbage, s, hne⟩ := exists_run_fill_ne (R := R) (d := d) (a := ⟨D, L, U⟩) p hU
        (by omega) hpld hlegal (visits_native htasks) (hprows ▸ hrow) (.inr hnot)
      obtain ⟨s', hs, hs'⟩ := hover false garbage s
      rw [hacquire] at hs
      have hrun : ∀ s : State R,
          (TaskArg.launch mkl NB d (.zcopyscale m n should_copy D L U : TaskArg R)).body false s =
            some (CopyScale.run d ⟨D, L, U⟩ tasks s) := by
        intro s
        exact congrArg (Option.map _) htasks
      rw [hrun] at hs hs'
      exact hne ((Option.some.inj hs).trans (Option.some.inj hs').symm)
  · rintro ⟨rfl, hcovers⟩
    obtain ⟨hdef, hrows⟩ := nativeCovers_iff.mp hcovers
    obtain ⟨tasks, htasks⟩ : ∃ tasks, zcopyscaleNative m n true = some tasks := ⟨_, if_pos hdef⟩
    intro onGpu garbage s
    rw [hacquire]
    cases onGpu with
    | true =>
        refine ⟨_, ?_, rfl⟩
        exact congrArg some (run_fill_of_visits p hU hpcols hlegal (visits_cuda (m := m))
          (fun row hrow => hprows ▸ hrow) garbage s)
    | false =>
        have hrun : ∀ s : State R,
            (TaskArg.launch mkl NB d (.zcopyscale m n true D L U : TaskArg R)).body false s =
              some (CopyScale.run d ⟨D, L, U⟩ tasks s) := by
          intro s
          exact congrArg (Option.map _) htasks
        rw [hrun, hrun]
        refine ⟨_, ?_, rfl⟩
        exact congrArg some (run_fill_of_visits p hU hpcols hlegal (visits_native htasks)
          (fun row hrow => hrows row (hprows ▸ hrow)) garbage s)

end CopyScale

end Xkblas.Blas
