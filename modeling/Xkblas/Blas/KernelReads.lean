import Xkblas.Blas.WriteOnly

/-!
# What the kernels read

A kernel reads its parameters inside of their sizes only, so what a tile task stores depends on the
tiles that it names. This holds for every task that a call inserts.
-/

namespace Xkblas.Blas

open Library

/-! ## Blocks -/

section Kernels

variable {R : Type*}

/-- Two blocks have the same entries in the first rows and columns. -/
def Block.Agree (rows cols : ℕ) (a a' : Block R) : Prop :=
  ∀ i < rows, ∀ j < cols, a i j = a' i j

/-- What the task stores depends on the entries of its parameters. -/
def Task.Within (t : Task R) : Prop :=
  ∀ block block' : Tile → Block R,
    (∀ p ∈ t.params, Block.Agree p.rows p.cols (block p.toTile) (block' p.toTile)) →
    Block.Agree t.out.rows t.out.cols (t.value block) (t.value block')

variable {a a' b b' c c' : Block R} {m n k : ℕ}

theorem Trans.op_agree [Star R] (transA : Trans)
    (h : Block.Agree (transA.rowDim m n) (transA.colDim m n) a a') :
    Block.Agree m n (transA.op a) (transA.op a') := by
  intro i hi j hj
  cases transA with
  | noTrans => exact h i hi j hj
  | trans => exact h j hj i hi
  | conjTrans => exact congrArg star (h j hj i hi)

theorem symmetric_agree (uplo : Uplo) (h : Block.Agree m m a a') :
    Block.Agree m m (symmetric uplo a) (symmetric uplo a') := by
  intro i hi j hj
  unfold symmetric
  rw [h i hi j hj, h j hj i hi]

theorem hermitian_agree [Star R] (uplo : Uplo) (h : Block.Agree m m a a') :
    Block.Agree m m (hermitian uplo a) (hermitian uplo a') := by
  intro i hi j hj
  unfold hermitian
  rw [h i hi j hj, h j hj i hi]

theorem triangular_agree [Zero R] [One R] (uplo : Uplo) (diag : Diag) (h : Block.Agree m m a a') :
    Block.Agree m m (triangular uplo diag a) (triangular uplo diag a') := by
  intro i hi j hj
  unfold triangular
  rw [h i hi i hi, h i hi j hj]

section Ring

variable [CommRing R] [StarRing R]

theorem gemm_agree (transA transB : Trans) (alpha beta : R)
    (hA : Block.Agree (transA.rowDim m k) (transA.colDim m k) a a')
    (hB : Block.Agree (transB.rowDim k n) (transB.colDim k n) b b') (hC : Block.Agree m n c c') :
    Block.Agree m n (gemm transA transB k alpha a b beta c)
      (gemm transA transB k alpha a' b' beta c') := by
  intro i hi j hj
  unfold gemm
  rw [hC i hi j hj]
  congr 2
  refine Finset.sum_congr rfl fun l hl => ?_
  have hl := Finset.mem_range.mp hl
  rw [transA.op_agree hA i hi l hl, transB.op_agree hB l hl j hj]

omit [StarRing R] in
theorem sideMul_agree (side : Side) (alpha beta : R)
    (hA : Block.Agree (side.rowDim m n) (side.rowDim m n) a a') (hB : Block.Agree m n b b')
    (hC : Block.Agree m n c c') :
    Block.Agree m n (sideMul side m n alpha a b beta c) (sideMul side m n alpha a' b' beta c') := by
  intro i hi j hj
  unfold sideMul
  cases side with
  | left =>
      dsimp only
      rw [hC i hi j hj]
      congr 2
      refine Finset.sum_congr rfl fun l hl => ?_
      have hl := Finset.mem_range.mp hl
      rw [hA i hi l hl, hB l hl j hj]
  | right =>
      dsimp only
      rw [hC i hi j hj]
      congr 2
      refine Finset.sum_congr rfl fun l hl => ?_
      have hl := Finset.mem_range.mp hl
      rw [hB i hi l hl, hA l hl j hj]

theorem syrk_agree (transA : Trans) (alpha beta : R)
    (hA : Block.Agree (transA.rowDim n k) (transA.colDim n k) a a') (hC : Block.Agree n n c c') :
    Block.Agree n n (syrk transA k alpha a beta c) (syrk transA k alpha a' beta c') := by
  intro i hi j hj
  unfold syrk
  rw [hC i hi j hj]
  congr 2
  refine Finset.sum_congr rfl fun l hl => ?_
  have hl := Finset.mem_range.mp hl
  rw [transA.op_agree hA i hi l hl, transA.op_agree hA j hj l hl]

theorem herk_agree (transA : Trans) (alpha beta : R)
    (hA : Block.Agree (transA.rowDim n k) (transA.colDim n k) a a') (hC : Block.Agree n n c c') :
    Block.Agree n n (herk transA k alpha a beta c) (herk transA k alpha a' beta c') := by
  intro i hi j hj
  unfold herk
  rw [hC i hi j hj]
  congr 2
  refine Finset.sum_congr rfl fun l hl => ?_
  have hl := Finset.mem_range.mp hl
  rw [transA.op_agree hA i hi l hl, transA.op_agree hA j hj l hl]

theorem syr2k_agree (transA : Trans) (alpha beta : R)
    (hA : Block.Agree (transA.rowDim n k) (transA.colDim n k) a a')
    (hB : Block.Agree (transA.rowDim n k) (transA.colDim n k) b b') (hC : Block.Agree n n c c') :
    Block.Agree n n (syr2k transA k alpha a b beta c) (syr2k transA k alpha a' b' beta c') := by
  intro i hi j hj
  unfold syr2k
  rw [hC i hi j hj]
  congr 3
  all_goals
    refine Finset.sum_congr rfl fun l hl => ?_
    have hl := Finset.mem_range.mp hl
    rw [transA.op_agree hA _ ‹_› l hl, transA.op_agree hB _ ‹_› l hl]

theorem her2k_agree (transA : Trans) (alpha beta : R)
    (hA : Block.Agree (transA.rowDim n k) (transA.colDim n k) a a')
    (hB : Block.Agree (transA.rowDim n k) (transA.colDim n k) b b') (hC : Block.Agree n n c c') :
    Block.Agree n n (her2k transA k alpha a b beta c) (her2k transA k alpha a' b' beta c') := by
  intro i hi j hj
  unfold her2k
  rw [hC i hi j hj]
  congr 3
  all_goals
    refine Finset.sum_congr rfl fun l hl => ?_
    have hl := Finset.mem_range.mp hl
    rw [transA.op_agree hA _ ‹_› l hl, transA.op_agree hB _ ‹_› l hl]

theorem trmm_agree (side : Side) (uplo : Uplo) (transA : Trans) (diag : Diag) (alpha : R)
    (hA : Block.Agree (side.rowDim m n) (side.rowDim m n) a a') (hB : Block.Agree m n b b') :
    Block.Agree m n (trmm side uplo transA diag m n alpha a b)
      (trmm side uplo transA diag m n alpha a' b') := by
  have hT : Block.Agree (side.rowDim m n) (side.rowDim m n) (transA.op (triangular uplo diag a))
      (transA.op (triangular uplo diag a')) := by
    refine transA.op_agree ?_
    unfold Trans.rowDim Trans.colDim
    rw [ite_self]
    exact triangular_agree uplo diag hA
  intro i hi j hj
  unfold trmm
  cases side with
  | left =>
      dsimp only
      congr 1
      refine Finset.sum_congr rfl fun l hl => ?_
      have hl := Finset.mem_range.mp hl
      rw [hT i hi l hl, hB l hl j hj]
  | right =>
      dsimp only
      congr 1
      refine Finset.sum_congr rfl fun l hl => ?_
      have hl := Finset.mem_range.mp hl
      rw [hB i hi l hl, hT l hl j hj]

end Ring

section Field

variable [Field R] [StarRing R] [DecidableEq R] {T T' : Block R} {x : ℕ → R} {divZero : R → R}

omit [StarRing R] in
/-- Forward substitution only reads the matrix of the system. -/
theorem forward_agree (h : Block.Agree n n T T') :
    forward divZero T x n = forward divZero T' x n := by
  induction n with
  | zero => rfl
  | succ n ih =>
      have hn := ih fun i hi j hj => h i (Nat.lt_succ_of_lt hi) j (Nat.lt_succ_of_lt hj)
      have hlast := Nat.lt_succ_self n
      show Function.update (forward divZero T x n) n _ =
        Function.update (forward divZero T' x n) n _
      rw [hn, h n hlast n hlast]
      congr 3
      refine Finset.sum_congr rfl fun l hl => ?_
      rw [h n hlast l (Nat.lt_succ_of_lt (Finset.mem_range.mp hl))]

omit [StarRing R] in
theorem solve_agree (lower : Bool) (h : Block.Agree n n T T') :
    solve divZero lower n T x = solve divZero lower n T' x := by
  cases lower with
  | true => exact forward_agree h
  | false =>
      funext i
      show forward _ _ _ n _ = forward _ _ _ n _
      rw [forward_agree fun i hi j hj => h (n - 1 - i) (by omega) (n - 1 - j) (by omega)]

theorem trsm_agree (side : Side) (uplo : Uplo) (transA : Trans) (diag : Diag) (alpha : R)
    (hA : Block.Agree (side.rowDim m n) (side.rowDim m n) a a') (hB : Block.Agree m n b b') :
    Block.Agree m n (trsm divZero side uplo transA diag m n alpha a b)
      (trsm divZero side uplo transA diag m n alpha a' b') := by
  have hT : Block.Agree (side.rowDim m n) (side.rowDim m n) (transA.op (triangular uplo diag a))
      (transA.op (triangular uplo diag a')) := by
    refine transA.op_agree ?_
    unfold Trans.rowDim Trans.colDim
    rw [ite_self]
    exact triangular_agree uplo diag hA
  intro i hi j hj
  refine ite_congr rfl (fun _ => rfl) fun _ => ?_
  cases side with
  | left =>
      have hT : Block.Agree m m (transA.op (triangular uplo diag a))
        (transA.op (triangular uplo diag a')) := hT
      dsimp only
      rw [solve_agree _ hT, solve_congr _ fun l hl => by rw [hB l hl j hj]]
  | right =>
      have hT : Block.Agree n n (fun j l => transA.op (triangular uplo diag a) l j)
          fun j l => transA.op (triangular uplo diag a') l j :=
        fun l hl q hq => hT q hq l hl
      dsimp only
      rw [solve_agree _ hT, solve_congr _ fun l hl => by rw [hB i hi l hl]]

end Field

end Kernels

/-! ## The insertions -/

section Insertions

variable {R : Type*}

/-- The insertion gives a mode for every parameter, one with R for those that are read, and RW for
the one that is written unless its mode is W; the leading dimensions are those of the operands; and
the task reads its parameters inside of their sizes only. -/
structure Task.Proper (ld : Operand → ℤ) (t : Task R) : Prop where
  lds : ∀ p ∈ t.params, p.ld = ld p.mat
  modes : ∃ modes mode, t.inserted = modes ++ [mode] ∧ modes.length = t.inputs.length ∧
    Mode.w ∉ modes ∧ (mode = .rw ∨ mode = .w ∧ t.out.mode = .w)
  within : t.Within

variable [CommRing R] [StarRing R] [DecidableEq R] {transA transB : Trans} {uplo : Uplo}
  {side : Side} {diag : Diag} {m n k : ℕ} {alpha beta : R} {A B C : Tile} {ld : Operand → ℤ}

omit [StarRing R] in
theorem betaMode_cases (beta : R) : betaMode beta = .rw ∨ betaMode beta = .w := by
  unfold betaMode
  split
  · exact .inr rfl
  · exact .inl rfl

theorem proper_zgemm (hA : A.ld = ld A.mat) (hB : B.ld = ld B.mat) (hC : C.ld = ld C.mat) :
    (insertTaskZgemm transA transB m n k alpha A B beta C).Proper ld := by
  refine ⟨?_, ⟨[.r, .r], _, rfl, rfl, by decide, (betaMode_cases beta).imp_right fun h => ⟨h, h⟩⟩,
    fun block block' h => ?_⟩
  · simp [Task.params, insertTaskZgemm, hA, hB, hC]
  · simp only [Task.params, insertTaskZgemm, List.cons_append, List.nil_append,
      List.forall_mem_cons] at h
    exact gemm_agree transA transB alpha beta h.1 h.2.1 h.2.2.1

theorem proper_zgemmt (hA : A.ld = ld A.mat) (hB : B.ld = ld B.mat) (hC : C.ld = ld C.mat) :
    (insertTaskZgemmt uplo transA transB n k alpha A B beta C).Proper ld := by
  refine ⟨?_, ⟨[.r, .r], _, rfl, rfl, by decide, .inl rfl⟩, fun block block' h => ?_⟩
  · simp [Task.params, insertTaskZgemmt, hA, hB, hC]
  · simp only [Task.params, insertTaskZgemmt, List.cons_append, List.nil_append,
      List.forall_mem_cons] at h
    exact gemm_agree transA transB alpha beta h.1 h.2.1 h.2.2.1

omit [StarRing R] in
theorem proper_zsymm (hA : A.ld = ld A.mat) (hB : B.ld = ld B.mat) (hC : C.ld = ld C.mat) :
    (insertTaskZsymm side uplo m n alpha A B beta C).Proper ld := by
  refine ⟨?_, ⟨[.r, .r], _, rfl, rfl, by decide, .inl rfl⟩, fun block block' h => ?_⟩
  · simp [Task.params, insertTaskZsymm, hA, hB, hC]
  · simp only [Task.params, insertTaskZsymm, List.cons_append, List.nil_append,
      List.forall_mem_cons] at h
    exact sideMul_agree side alpha beta (symmetric_agree uplo h.1) h.2.1 h.2.2.1

theorem proper_zhemm (hA : A.ld = ld A.mat) (hB : B.ld = ld B.mat) (hC : C.ld = ld C.mat) :
    (insertTaskZhemm side uplo m n alpha A B beta C).Proper ld := by
  refine ⟨?_, ⟨[.r, .r], _, rfl, rfl, by decide, .inl rfl⟩, fun block block' h => ?_⟩
  · simp [Task.params, insertTaskZhemm, hA, hB, hC]
  · simp only [Task.params, insertTaskZhemm, List.cons_append, List.nil_append,
      List.forall_mem_cons] at h
    exact sideMul_agree side alpha beta (hermitian_agree uplo h.1) h.2.1 h.2.2.1

theorem proper_zsyrk (hA : A.ld = ld A.mat) (hC : C.ld = ld C.mat) :
    (insertTaskZsyrk uplo transA n k alpha A beta C).Proper ld := by
  refine ⟨?_, ⟨[.r], _, rfl, rfl, by decide, (betaMode_cases beta).imp_right fun h => ⟨h, h⟩⟩,
    fun block block' h => ?_⟩
  · simp [Task.params, insertTaskZsyrk, hA, hC]
  · simp only [Task.params, insertTaskZsyrk, List.cons_append, List.nil_append,
      List.forall_mem_cons] at h
    exact syrk_agree transA alpha beta h.1 h.2.1

omit [DecidableEq R] in
theorem proper_zherk (hA : A.ld = ld A.mat) (hC : C.ld = ld C.mat) :
    (insertTaskZherk uplo transA n k alpha A beta C).Proper ld := by
  refine ⟨?_, ⟨[.r], _, rfl, rfl, by decide, .inl rfl⟩, fun block block' h => ?_⟩
  · simp [Task.params, insertTaskZherk, hA, hC]
  · simp only [Task.params, insertTaskZherk, List.cons_append, List.nil_append,
      List.forall_mem_cons] at h
    exact herk_agree transA alpha beta h.1 h.2.1

theorem proper_zsyr2k (hA : A.ld = ld A.mat) (hB : B.ld = ld B.mat) (hC : C.ld = ld C.mat) :
    (insertTaskZsyr2k uplo transA n k alpha A B beta C).Proper ld := by
  refine ⟨?_, ⟨[.r, .r], _, rfl, rfl, by decide, (betaMode_cases beta).imp_right fun h => ⟨h, h⟩⟩,
    fun block block' h => ?_⟩
  · simp [Task.params, insertTaskZsyr2k, hA, hB, hC]
  · simp only [Task.params, insertTaskZsyr2k, List.cons_append, List.nil_append,
      List.forall_mem_cons] at h
    exact syr2k_agree transA alpha beta h.1 h.2.1 h.2.2.1

omit [DecidableEq R] in
theorem proper_zher2k (hA : A.ld = ld A.mat) (hB : B.ld = ld B.mat) (hC : C.ld = ld C.mat) :
    (insertTaskZher2k uplo transA n k alpha A B beta C).Proper ld := by
  refine ⟨?_, ⟨[.r, .rw], _, rfl, rfl, by decide, .inl rfl⟩, fun block block' h => ?_⟩
  · simp [Task.params, insertTaskZher2k, hA, hB, hC]
  · simp only [Task.params, insertTaskZher2k, List.cons_append, List.nil_append,
      List.forall_mem_cons] at h
    exact her2k_agree transA alpha beta h.1 h.2.1 h.2.2.1

omit [DecidableEq R] in
theorem proper_ztrmm (hA : A.ld = ld A.mat) (hB : B.ld = ld B.mat) :
    (insertTaskZtrmm side uplo transA diag m n alpha A B).Proper ld := by
  refine ⟨?_, ⟨[.r], _, rfl, rfl, by decide, .inl rfl⟩, fun block block' h => ?_⟩
  · simp [Task.params, insertTaskZtrmm, hA, hB]
  · simp only [Task.params, insertTaskZtrmm, List.cons_append, List.nil_append,
      List.forall_mem_cons] at h
    exact trmm_agree side uplo transA diag alpha h.1 h.2.1

end Insertions

theorem proper_ztrsm {R : Type*} [Field R] [StarRing R] [DecidableEq R] {divZero : R → R}
    {side : Side} {uplo : Uplo} {transA : Trans} {diag : Diag} {m n : ℕ} {alpha : R} {A B : Tile}
    {ld : Operand → ℤ} (hA : A.ld = ld A.mat) (hB : B.ld = ld B.mat) :
    (insertTaskZtrsmWith divZero side uplo transA diag m n alpha A B).Proper ld := by
  refine ⟨?_, ⟨[.r], _, rfl, rfl, by decide, .inl rfl⟩, fun block block' h => ?_⟩
  · simp [Task.params, insertTaskZtrsmWith, hA, hB]
  · simp only [Task.params, insertTaskZtrsmWith, List.cons_append, List.nil_append,
      List.forall_mem_cons] at h
    exact trsm_agree side uplo transA diag alpha h.1 h.2.1

/-! ## The drivers -/

section Drivers

variable {R : Type*} [CommRing R] [StarRing R] [DecidableEq R] {d : Operand → Descr}
  {transA transB : Trans} {uplo : Uplo} {side : Side} {diag : Diag} {M N K : ℕ} {alpha beta : R}
  {LDA LDB LDC : ℤ} {ld : Operand → ℤ}

theorem proper_zgemmTasks (hA : LDA = ld .A) (hB : LDB = ld .B) (hC : LDC = ld .C) :
    ∀ t ∈ zgemmTasks d transA transB M N K alpha LDA LDB beta LDC, t.Proper ld := by
  cases transA <;> cases transB
  all_goals
    simp only [zgemmTasks, reduceCtorEq, if_true, if_false, forall_mem_forLoop,
      List.forall_mem_singleton]
    intros
    exact proper_zgemm hA hB hC

theorem proper_gemmtInsert {uplo : Option Uplo} {m n tempmm tempnn tempk : ℕ} {A B C : Tile}
    (hA : A.ld = ld A.mat) (hB : B.ld = ld B.mat) (hC : C.ld = ld C.mat) :
    ∀ t ∈ gemmtInsert uplo transA transB m n tempmm tempnn tempk alpha A B beta C, t.Proper ld := by
  intro t ht
  unfold gemmtInsert at ht
  split at ht
  · split at ht
    · rw [List.mem_singleton.mp ht]
      exact proper_zgemmt hA hB hC
    · rw [List.mem_singleton.mp ht]
      exact proper_zgemm hA hB hC
  · rw [List.mem_singleton.mp ht]
    exact proper_zgemm hA hB hC

theorem proper_zgemmtTasks {uplo : Option Uplo} (hA : LDA = ld .A) (hB : LDB = ld .B)
    (hC : LDC = ld .C) :
    ∀ t ∈ zgemmtTasks d uplo transA transB N K alpha LDA LDB beta LDC, t.Proper ld := by
  cases transA <;> cases transB
  all_goals
    simp only [zgemmtTasks, reduceCtorEq, if_true, if_false, forall_mem_forLoop]
    intros
    exact proper_gemmtInsert hA hB hC _ (by assumption)

theorem proper_zsymmTasks (hA : LDA = ld .A) (hB : LDB = ld .B) (hC : LDC = ld .C) :
    ∀ t ∈ zsymmTasks d side uplo alpha LDA LDB beta LDC, t.Proper ld := by
  refine forall_mem_zsymmTasks ?_ ?_
  · intros
    exact ⟨proper_zgemm hA hB hC, proper_zgemm hB hA hC⟩
  · intros
    exact proper_zsymm hA hB hC

theorem proper_zhemmTasks (hA : LDA = ld .A) (hB : LDB = ld .B) (hC : LDC = ld .C) :
    ∀ t ∈ zhemmTasks d side uplo alpha LDA LDB beta LDC, t.Proper ld := by
  refine forall_mem_zhemmTasks ?_ ?_
  · intros
    exact ⟨proper_zgemm hA hB hC, proper_zgemm hB hA hC⟩
  · intros
    exact proper_zhemm hA hB hC

theorem proper_rankKTasks {insertTask : Uplo → Trans → ℕ → ℕ → R → Tile → R → Tile → Task R}
    {transT : Trans} (hA : LDA = ld .A) (hC : LDC = ld .C)
    (hinsert : ∀ n k alpha (A : Tile) zbeta (C : Tile), A.ld = ld A.mat → C.ld = ld C.mat →
      (insertTask uplo transA n k alpha A zbeta C).Proper ld) :
    ∀ t ∈ rankKTasks insertTask transT d uplo transA alpha LDA beta LDC, t.Proper ld := by
  cases transA <;> cases uplo
  all_goals
    simp only [rankKTasks, reduceCtorEq, if_true, if_false, forall_mem_forLoop,
      List.forall_mem_append, List.forall_mem_singleton]
    intro n _ _
    exact ⟨fun k _ _ => hinsert _ _ _ _ _ _ hA hC, fun m _ _ k _ _ => proper_zgemm hA hA hC⟩

theorem proper_zsyr2kTasks (hA : LDA = ld .A) (hB : LDB = ld .B) (hC : LDC = ld .C) :
    ∀ t ∈ zsyr2kTasks d uplo transA alpha LDA LDB beta LDC, t.Proper ld := by
  cases transA
  all_goals
    simp only [zsyr2kTasks, reduceCtorEq, if_true, if_false, forall_mem_forLoop,
      List.forall_mem_append, List.forall_mem_cons, List.not_mem_nil, IsEmpty.forall_iff,
      implies_true, and_true]
    intro n _ _
    exact ⟨fun k _ _ => proper_zsyr2k hA hB hC,
      fun m _ _ k _ _ => ⟨proper_zgemm hA hB hC, proper_zgemm hB hA hC⟩⟩

theorem proper_zher2kTasks (hA : LDA = ld .A) (hB : LDB = ld .B) (hC : LDC = ld .C)
    (hld : zher2kLd uplo transA LDA LDB = LDB) :
    ∀ t ∈ zher2kTasks d uplo transA alpha LDA LDB beta LDC, t.Proper ld := by
  have hlast := hld.trans hB
  revert hlast
  cases transA <;> cases uplo
  all_goals
    intro hlast
    simp only [zher2kTasks, reduceCtorEq, if_true, if_false, forall_mem_forLoop,
      List.forall_mem_append, List.forall_mem_cons, List.not_mem_nil, IsEmpty.forall_iff,
      implies_true, and_true]
    intro n _ _
    exact ⟨fun k _ _ => proper_zher2k hA hB hC,
      fun m _ _ k _ _ => ⟨proper_zgemm hA hB hC, proper_zgemm hlast hA hC⟩⟩

theorem proper_ztrmmTasks (hA : LDA = ld .A) (hB : LDB = ld .B) :
    ∀ t ∈ ztrmmTasks d side uplo transA diag alpha LDA LDB, t.Proper ld := by
  cases side <;> cases uplo <;> cases transA
  all_goals
    simp only [ztrmmTasks, reduceCtorEq, if_true, if_false, forall_mem_forLoop,
      forall_mem_forLoopDown, List.forall_mem_append, List.forall_mem_singleton]
    intros
    refine ⟨proper_ztrmm hA hB, ?_⟩
    intros
    first
      | exact proper_zgemm hA hB hB
      | exact proper_zgemm hB hA hB

end Drivers

theorem proper_ztrsmTasks {R : Type*} [Field R] [StarRing R] [DecidableEq R]
    {d : Operand → Descr} {side : Side} {uplo : Uplo} {transA : Trans} {diag : Diag} {alpha : R}
    {LDA LDB : ℤ} {ld : Operand → ℤ} (hA : LDA = ld .A) (hB : LDB = ld .B) :
    ∀ t ∈ ztrsmTasks d side uplo transA diag alpha LDA LDB, t.Proper ld := by
  cases side <;> cases uplo <;> cases transA
  all_goals
    simp only [ztrsmTasks, ztrsmTasksWith, reduceCtorEq, if_true, if_false, forall_mem_forLoop,
      List.forall_mem_append, List.forall_mem_singleton]
    intros
    refine ⟨?_, ?_⟩
    · intros
      exact proper_ztrsm hA hB
    · intros
      first
        | exact proper_zgemm hA hB hB
        | exact proper_zgemm hB hA hB

/-- The call does not give a task a tile of `B` with the leading dimension of `A`. -/
def Call.OwnLds {R : Type} : Call R → Prop
  | .zher2k uplo transA _ _ _ LDA LDB _ _ => zher2kLd uplo transA LDA LDB = LDB
  | _ => True

theorem Call.proper_tasks {R : Type} [Field R] [StarRing R] [DecidableEq R] (d : Operand → Descr)
    (c : Call R) (hld : c.OwnLds) : ∀ t ∈ c.tasks d, t.Proper c.ld := by
  cases c with
  | zgemm => exact proper_zgemmTasks rfl rfl rfl
  | zgemmt => exact proper_zgemmtTasks rfl rfl rfl
  | zsymm => exact proper_zsymmTasks rfl rfl rfl
  | zhemm => exact proper_zhemmTasks rfl rfl rfl
  | zsyrk => exact proper_rankKTasks rfl rfl fun _ _ _ _ _ _ => proper_zsyrk
  | zherk => exact proper_rankKTasks rfl rfl fun _ _ _ _ _ _ => proper_zherk
  | zsyr2k => exact proper_zsyr2kTasks rfl rfl rfl
  | zher2k => exact proper_zher2kTasks rfl rfl rfl hld
  | ztrmm => exact proper_ztrmmTasks rfl rfl
  | ztrsm => exact proper_ztrsmTasks rfl rfl
  | zswap => exact fun t ht => absurd ht List.not_mem_nil
  | zcopyscale => exact fun t ht => absurd ht List.not_mem_nil

end Xkblas.Blas
