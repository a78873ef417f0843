import Xkblas.Blas.Descriptors

/-!
# The accesses that a task declares

A task states the modes of its operands three times: its insertion gives them to
`kaapi_update_dependencies`, its format gives `MODE_PARAM` for the first `NPARAM` operands, and its
body reads and writes. `Agree` compares the three for one task and says that no operand waits for
another one of the same task. `accesses_agree_iff` finds the calls all of whose tasks agree, which
are also those that insert no task.
-/

namespace Xkblas.Blas

open Library

/-! ## Accesses -/

/-- The order of the modes: every access that `mode` allows is one that `mode'` allows. -/
instance : LE Mode :=
  ⟨fun mode mode' => mode = mode' ∨ mode' = .rw⟩

instance (mode mode' : Mode) : Decidable (mode ≤ mode') :=
  inferInstanceAs (Decidable (_ ∨ _))

/-- An operand of a task: its tile, the mode of `kaapi_update_dependencies`, the mode of the format,
and what the body does with it. -/
structure Access where
  tile : Tile
  inserted : Option Mode
  format : Option Mode
  reads : Prop
  writes : Prop

/-- The insertion or the format declares the mode. -/
def Access.Declares (a : Access) (mode : Mode) : Prop :=
  a.inserted = some mode ∨ a.format = some mode

/-- The three statements about an operand agree: the insertion is at least as strong as the format
and as the body, and an operand that is only read is declared so. -/
structure Access.Agrees (a : Access) : Prop where
  format_le : ∀ mode, a.format = some mode → ∃ mode', a.inserted = some mode' ∧ mode ≤ mode'
  inserted : a.reads ∨ a.writes → a.inserted ≠ none
  reads : a.reads → ∀ mode, a.Declares mode → .r ≤ mode
  writes : a.writes → ∀ mode, a.Declares mode → .w ≤ mode
  only_reads : a.reads → ¬ a.writes → ∀ mode, a.Declares mode → mode = .r

/-- The handle of a tile, `&Ah->handle[m*Ah->nt+n]`. The descriptor is that of the base address. -/
def handle (d : Operand → Descr) (ptr : Operand → ℕ) (t : Tile) : ℕ × ℕ :=
  (ptr t.mat, t.m * (d t.mat).nt + t.n)

/-- Of two accesses of a task on the same handle none writes, so that the task does not wait for
itself. -/
def ConflictFree (d : Operand → Descr) (ptr : Operand → ℕ) (task : List Access) : Prop :=
  task.Pairwise fun a b =>
    handle d ptr a.tile = handle d ptr b.tile → ∀ mode ∈ a.inserted, ∀ mode' ∈ b.inserted,
      mode = .r ∧ mode' = .r

/-- The accesses of a task are conflict free and agree. -/
structure Agree (d : Operand → Descr) (ptr : Operand → ℕ) (task : List Access) : Prop where
  conflict_free : ConflictFree d ptr task
  agrees : ∀ a ∈ task, a.Agrees

/-! ## The accesses of the tasks -/

section Task

variable {R : Type*}

/-- The result of the body depends on what the parameter that it writes held before. -/
def Task.ReadsOut (t : Task R) : Prop :=
  ∃ block block', (∀ q, q ≠ t.out.toTile → block q = block' q) ∧ t.value block ≠ t.value block'

/-- The accesses of a task that writes one operand. -/
def Task.accesses (t : Task R) : List Access :=
  List.zipWith (fun access mode => access (some mode))
    (t.inputs.map (fun p mode => ⟨p.toTile, mode, some p.mode, True, False⟩) ++
      [fun mode => ⟨t.out.toTile, mode, some t.out.mode, t.ReadsOut, True⟩])
    t.inserted

end Task

/-- The accesses of a task of `INSERT_TASK_zswap`. When both tiles have the same descriptor the
second one is inserted, and is not in the format, where `NPARAM` is `arg->issame ? 1: 2`. -/
def zswapAccesses (issame : Bool) (A B : Tile) : List Access :=
  [⟨A, some .rw, some .rw, True, True⟩,
    ⟨B, if issame then some .rw else none, if issame then none else some .rw, True, True⟩]

/-- The accesses of a task of `INSERT_TASK_zcopyscale`. -/
def zcopyscaleAccesses (should_copy : Bool) (D L U : Tile) : List Access :=
  [⟨D, some .r, some .r, True, False⟩, ⟨L, some .rw, some .rw, True, True⟩,
    ⟨U, some .w, some .w, False, should_copy = true⟩]

/-- The access of a task of `INSERT_TASK_zpotrf`. -/
def zpotrfAccesses (A : Tile) : List Access :=
  [⟨A, some .r, some .rw, True, True⟩]

/-! ## The tasks of a call -/

section Calls

variable {R : Type*} [Field R] [StarRing R] [DecidableEq R]

/-- The accesses of the tasks of the loops of a call. The flag is that of `zcopyscale`. -/
def Call.loopAccesses (d : Operand → Descr) (should_copy : Bool) : Call R → List (List Access)
  | .zgemm transA transB M N K alpha LDA LDB beta LDC =>
      (zgemmTasks d transA transB M.toNat N.toNat K.toNat alpha LDA LDB beta LDC).map Task.accesses
  | .zgemmt uplo transA transB N K alpha LDA LDB beta LDC =>
      (zgemmtTasks d uplo transA transB N.toNat K.toNat alpha LDA LDB beta LDC).map Task.accesses
  | .zsymm side uplo _ _ alpha LDA LDB beta LDC =>
      (zsymmTasks d side uplo alpha LDA LDB beta LDC).map Task.accesses
  | .zhemm side uplo _ _ alpha LDA LDB beta LDC =>
      (zhemmTasks d side uplo alpha LDA LDB beta LDC).map Task.accesses
  | .zsyrk uplo transA _ _ alpha LDA beta LDC =>
      (zsyrkTasks d uplo transA alpha LDA beta LDC).map Task.accesses
  | .zherk uplo transA _ _ alpha LDA beta LDC =>
      (zherkTasks d uplo transA alpha LDA beta LDC).map Task.accesses
  | .zsyr2k uplo transA _ _ alpha LDA LDB beta LDC =>
      (zsyr2kTasks d uplo transA alpha LDA LDB beta LDC).map Task.accesses
  | .zher2k uplo transA _ _ alpha LDA LDB beta LDC =>
      (zher2kTasks d uplo transA alpha LDA LDB beta LDC).map Task.accesses
  | .ztrmm side uplo transA diag _ _ alpha LDA LDB =>
      (ztrmmTasks d side uplo transA diag alpha LDA LDB).map Task.accesses
  | .ztrsm side uplo transA diag _ _ alpha LDA LDB =>
      (ztrsmTasks d side uplo transA diag alpha LDA LDB).map Task.accesses
  | .zswap _ _ i j LDC =>
      let ib := i.toNat / (d .C).nb
      let jb := j.toNat / (d .C).nb
      forLoop 0 (d .C).mt fun m => [zswapAccesses true ⟨.C, m, ib, LDC⟩ ⟨.C, m, jb, LDC⟩]
  | .zcopyscale _ _ ldd ldl ldu =>
      forLoop 0 (d .B).nt fun blockIdx_m =>
        forLoop 0 (d .B).mt fun blockIdx_n =>
          [zcopyscaleAccesses should_copy ⟨.A, blockIdx_n, blockIdx_n, ldd⟩
            ⟨.B, blockIdx_n, blockIdx_m, ldl⟩ ⟨.C, blockIdx_m, blockIdx_n, ldu⟩]

/-- The accesses of the tasks of `xkblas_zpotrf_async`. -/
def zpotrfTaskAccesses (R : Type*) [Field R] [StarRing R] [DecidableEq R] (d : Operand → Descr)
    (uplo : Uplo) (N : ℕ) (LDA : ℤ) : List (List Access) :=
  let mb := (d .A).mb
  let nb := (d .A).nb
  let mt := (d .A).mt
  let nt := (d .A).nt
  if uplo = .lower then
    forLoop 0 mt fun k =>
      [zpotrfAccesses ⟨.A, k, k, LDA⟩] ++
      (forLoop (k + 1) mt fun m =>
        let tempmm := tempSize mt N mb m
        [(insertTaskZtrsm .right .lower .conjTrans .nonUnit tempmm mb (1 : R) ⟨.A, k, k, LDA⟩
          ⟨.A, m, k, LDA⟩).accesses]) ++
      forLoop (k + 1) nt fun n =>
        let tempnn := tempSize nt N nb n
        [(insertTaskZherk .lower .noTrans tempnn nb (-1 : R) ⟨.A, n, k, LDA⟩ 1
          ⟨.A, n, n, LDA⟩).accesses] ++
        forLoop (n + 1) mt fun m =>
          let tempmm := tempSize mt N mb m
          [(insertTaskZgemm .noTrans .conjTrans tempmm tempnn mb (-1 : R) ⟨.A, m, k, LDA⟩
            ⟨.A, n, k, LDA⟩ 1 ⟨.A, m, n, LDA⟩).accesses]
  else
    forLoop 0 nt fun k =>
      [zpotrfAccesses ⟨.A, k, k, LDA⟩] ++
      (forLoop (k + 1) nt fun n =>
        let tempnn := tempSize nt N nb n
        [(insertTaskZtrsm .left .upper .conjTrans .nonUnit mb tempnn (1 : R) ⟨.A, k, k, LDA⟩
          ⟨.A, k, n, LDA⟩).accesses]) ++
      forLoop (k + 1) mt fun m =>
        let tempmm := tempSize mt N mb m
        [(insertTaskZherk .upper .conjTrans tempmm mb (-1 : R) ⟨.A, k, m, LDA⟩ 1
          ⟨.A, m, m, LDA⟩).accesses] ++
        forLoop (m + 1) nt fun n =>
          let tempnn := tempSize nt N nb n
          [(insertTaskZgemm .conjTrans .noTrans tempmm tempnn mb (-1 : R) ⟨.A, k, m, LDA⟩
            ⟨.A, k, n, LDA⟩ 1 ⟨.A, m, n, LDA⟩).accesses]

/-- A routine of the BLAS layer that inserts tile tasks. -/
inductive Routine (R : Type*) where
  | call (c : Call R) (should_copy : Bool)
  | zpotrf (uplo : Uplo) (N LDA : ℤ)

/-- The checks of the arguments of `xkblas_zpotrf_async`, which has no quick return. -/
def zpotrfRuns (N LDA : ℤ) : Except ℤ Bool :=
  if N < 0 then .error (-5)
  else if illegalLd LDA N.toNat then .error (-8)
  else .ok true

/-- Whether the loops of a routine run, or its error code. -/
def Routine.runs : Routine R → Except ℤ Bool
  | .call c _ => c.runs
  | .zpotrf _ N LDA => zpotrfRuns N LDA

/-- The accesses of the tasks of the loops of a routine. -/
def Routine.loopAccesses (d : Operand → Descr) : Routine R → List (List Access)
  | .call c should_copy => c.loopAccesses d should_copy
  | .zpotrf uplo N LDA => zpotrfTaskAccesses R d uplo N.toNat LDA

/-- The accesses of the tasks that a routine inserts. There are none when the checks reject its
arguments and when it returns before its loops. -/
def Routine.accesses (d : Operand → Descr) (r : Routine R) : List (List Access) :=
  if r.runs = .ok true then r.loopAccesses d else []

end Calls

/-! ## The tasks that agree -/

section Agree

variable {R : Type*} {d : Operand → Descr} {ptr : Operand → ℕ}

theorem handle_ne {s t : Tile} (h : ptr s.mat ≠ ptr t.mat) : handle d ptr s ≠ handle d ptr t := by
  intro heq
  exact h (Prod.mk.inj heq).1

theorem handle_ne_row {X : Operand} {m m' n : ℕ} {ld ld' : ℤ} (hm : m ≠ m') (hn : n < (d X).nt) :
    handle d ptr ⟨X, m, n, ld⟩ ≠ handle d ptr ⟨X, m', n, ld'⟩ := by
  intro heq
  have hrow : m * (d X).nt + n = m' * (d X).nt + n := (Prod.mk.inj heq).2
  exact hm (Nat.eq_of_mul_eq_mul_right (by omega) (Nat.add_right_cancel hrow))

theorem handle_ne_col {X : Operand} {m n n' : ℕ} {ld ld' : ℤ} (hn : n ≠ n') :
    handle d ptr ⟨X, m, n, ld⟩ ≠ handle d ptr ⟨X, m, n', ld'⟩ := by
  intro heq
  have hrow : m * (d X).nt + n = m * (d X).nt + n' := (Prod.mk.inj heq).2
  exact hn (Nat.add_left_cancel hrow)

/-- The accesses of a task whose inputs are inserted with the mode R. -/
theorem accesses_eq {t : Task R} {mode : Mode}
    (h : t.inserted = t.inputs.map (fun _ => .r) ++ [mode]) :
    t.accesses =
      t.inputs.map (fun p => ⟨p.toTile, some .r, some p.mode, True, False⟩) ++
        [⟨t.out.toTile, some mode, some t.out.mode, t.ReadsOut, True⟩] := by
  unfold Task.accesses
  rw [h, List.zipWith_append (by simp), List.zipWith_map, List.zipWith_self]
  rfl

/-- An operand that is only read, and is declared so. -/
theorem agrees_input (A : Tile) : Access.Agrees ⟨A, some .r, some .r, True, False⟩ := by
  have hr : ∀ mode, Access.Declares ⟨A, some .r, some .r, True, False⟩ mode → mode = .r := by
    intro mode h
    rcases h with h | h
    · exact (Option.some.inj h).symm
    · exact (Option.some.inj h).symm
  constructor
  · exact fun mode h => ⟨.r, rfl, .inl (Option.some.inj h).symm⟩
  · exact fun _ => Option.some_ne_none _
  · exact fun _ mode h => .inl (hr mode h).symm
  · exact False.elim
  · exact fun _ _ => hr

/-- An operand that is written. It is read only if its modes are RW. -/
theorem agrees_output (A : Tile) {inserted format : Mode} {reads : Prop} (hle : format ≤ inserted)
    (hw : .w ≤ format) (hreads : format = .w → ¬ reads) :
    Access.Agrees ⟨A, some inserted, some format, reads, True⟩ := by
  have hinserted : .w ≤ inserted := by
    rcases hle with hle | hle
    · rwa [← hle]
    · exact .inr hle
  have hrw : reads → format = .rw ∧ inserted = .rw := by
    intro h
    have hformat : format = .rw := by
      rcases hw with hw | hw
      · exact absurd h (hreads hw.symm)
      · exact hw
    rcases hle with hle | hle
    · exact ⟨hformat, hle.symm.trans hformat⟩
    · exact ⟨hformat, hle⟩
  constructor
  · exact fun mode h => ⟨inserted, rfl, Option.some.inj h ▸ hle⟩
  · exact fun _ => Option.some_ne_none _
  · intro h mode hmode
    obtain ⟨hf, hi⟩ := hrw h
    rcases hmode with h' | h'
    · exact .inr ((Option.some.inj h').symm.trans hi)
    · exact .inr ((Option.some.inj h').symm.trans hf)
  · intro _ mode hmode
    rcases hmode with h' | h'
    · exact Option.some.inj h' ▸ hinserted
    · exact Option.some.inj h' ▸ hw
  · exact fun _ h => absurd trivial h

/-- A task agrees when its inputs are inserted with the mode R, are other tiles than the one it
writes, and determine the result where the format says W. -/
theorem agree_task {t : Task R} (mode : Mode)
    (hinserted : t.inserted = t.inputs.map (fun _ => .r) ++ [mode])
    (hinputs : ∀ p ∈ t.inputs, p.mode = .r ∧ handle d ptr p.toTile ≠ handle d ptr t.out.toTile)
    (hle : t.out.mode ≤ mode) (hw : .w ≤ t.out.mode)
    (hvalue : t.out.mode = .w → ∀ block block' : Tile → Block R,
      (∀ p ∈ t.inputs, block p.toTile = block' p.toTile) → t.value block = t.value block') :
    Agree d ptr t.accesses := by
  rw [accesses_eq hinserted]
  refine ⟨?_, fun a ha => ?_⟩
  · refine List.pairwise_append.mpr ⟨?_, List.pairwise_singleton _ _, ?_⟩
    · refine List.pairwise_map.mpr (List.pairwise_of_forall fun p q _ => ?_)
      simp
    · intro a ha b hb heq
      obtain ⟨p, hp, rfl⟩ := List.mem_map.mp ha
      rw [List.mem_singleton.mp hb] at heq
      exact absurd heq (hinputs p hp).2
  · rcases List.mem_append.mp ha with ha | ha
    · obtain ⟨p, hp, rfl⟩ := List.mem_map.mp ha
      rw [(hinputs p hp).1]
      exact agrees_input p.toTile
    · rw [List.mem_singleton.mp ha]
      refine agrees_output t.out.toTile hle hw fun hmode hreads => ?_
      obtain ⟨block, block', hblock, hne⟩ := hreads
      refine hne (hvalue hmode block block' fun p hp => hblock _ fun heq => ?_)
      exact (hinputs p hp).2 (by rw [heq])

end Agree

/-! ## The insertions -/

section Insertions

variable {R : Type*} [CommRing R] [StarRing R] [DecidableEq R] {d : Operand → Descr}
  {ptr : Operand → ℕ} {transA transB : Trans} {uplo : Uplo} {side : Side} {diag : Diag}
  {m n k : ℕ} {alpha beta : R} {A B C : Tile}

omit [StarRing R] in
theorem w_le_betaMode (beta : R) : .w ≤ betaMode beta := by
  unfold betaMode
  split
  · exact .inl rfl
  · exact .inr rfl

omit [StarRing R] in
theorem eq_zero_of_betaMode (h : betaMode beta = .w) : beta = 0 := by
  by_contra hbeta
  rw [betaMode, if_neg hbeta] at h
  cases h

theorem agree_zgemm (hA : handle d ptr A ≠ handle d ptr C) (hB : handle d ptr B ≠ handle d ptr C) :
    Agree d ptr (insertTaskZgemm transA transB m n k alpha A B beta C).accesses := by
  refine agree_task (betaMode beta) rfl ?_ (.inl rfl) (w_le_betaMode beta) fun h => ?_
  · simp [insertTaskZgemm, hA, hB]
  · rw [eq_zero_of_betaMode h]
    intro block block' hblock
    simp only [insertTaskZgemm, List.forall_mem_cons] at hblock ⊢
    funext i j
    simp [gemm, hblock.1, hblock.2.1]

theorem agree_zgemmt (hA : handle d ptr A ≠ handle d ptr C) (hB : handle d ptr B ≠ handle d ptr C) :
    Agree d ptr (insertTaskZgemmt uplo transA transB n k alpha A B beta C).accesses := by
  refine agree_task .rw rfl ?_ (.inr rfl) (w_le_betaMode beta) fun h => ?_
  · simp [insertTaskZgemmt, hA, hB]
  · rw [eq_zero_of_betaMode h]
    intro block block' hblock
    simp only [insertTaskZgemmt, List.forall_mem_cons] at hblock ⊢
    funext i j
    simp [gemm, hblock.1, hblock.2.1]

omit [StarRing R] in
theorem agree_zsymm (hA : handle d ptr A ≠ handle d ptr C) (hB : handle d ptr B ≠ handle d ptr C) :
    Agree d ptr (insertTaskZsymm side uplo m n alpha A B beta C).accesses := by
  refine agree_task .rw rfl ?_ (.inr rfl) (w_le_betaMode beta) fun h => ?_
  · simp [insertTaskZsymm, hA, hB]
  · rw [eq_zero_of_betaMode h]
    intro block block' hblock
    simp only [insertTaskZsymm, List.forall_mem_cons] at hblock ⊢
    funext i j
    simp [symm, sideMul, hblock.1, hblock.2.1]

theorem agree_zhemm (hA : handle d ptr A ≠ handle d ptr C) (hB : handle d ptr B ≠ handle d ptr C) :
    Agree d ptr (insertTaskZhemm side uplo m n alpha A B beta C).accesses := by
  refine agree_task .rw rfl ?_ (.inr rfl) (w_le_betaMode beta) fun h => ?_
  · simp [insertTaskZhemm, hA, hB]
  · rw [eq_zero_of_betaMode h]
    intro block block' hblock
    simp only [insertTaskZhemm, List.forall_mem_cons] at hblock ⊢
    funext i j
    simp [hemm, sideMul, hblock.1, hblock.2.1]

theorem agree_zsyrk (hA : handle d ptr A ≠ handle d ptr C) :
    Agree d ptr (insertTaskZsyrk uplo transA n k alpha A beta C).accesses := by
  refine agree_task (betaMode beta) rfl ?_ (.inl rfl) (w_le_betaMode beta) fun h => ?_
  · simp [insertTaskZsyrk, hA]
  · rw [eq_zero_of_betaMode h]
    intro block block' hblock
    simp only [insertTaskZsyrk, List.forall_mem_cons] at hblock ⊢
    funext i j
    simp [syrk, hblock.1]

omit [DecidableEq R] in
theorem agree_zherk (hA : handle d ptr A ≠ handle d ptr C) :
    Agree d ptr (insertTaskZherk uplo transA n k alpha A beta C).accesses := by
  refine agree_task .rw rfl ?_ (.inl rfl) (.inr rfl) fun h => by cases h
  simp [insertTaskZherk, hA]

theorem agree_zsyr2k (hA : handle d ptr A ≠ handle d ptr C) (hB : handle d ptr B ≠ handle d ptr C) :
    Agree d ptr (insertTaskZsyr2k uplo transA n k alpha A B beta C).accesses := by
  refine agree_task (betaMode beta) rfl ?_ (.inl rfl) (w_le_betaMode beta) fun h => ?_
  · simp [insertTaskZsyr2k, hA, hB]
  · rw [eq_zero_of_betaMode h]
    intro block block' hblock
    simp only [insertTaskZsyr2k, List.forall_mem_cons] at hblock ⊢
    funext i j
    simp [syr2k, hblock.1, hblock.2.1]

omit [DecidableEq R] in
/-- The second operand is inserted with the mode RW, and is only read. -/
theorem not_agree_zher2k :
    ¬ Agree d ptr (insertTaskZher2k uplo transA n k alpha A B beta C).accesses := by
  intro h
  have hB := h.agrees ⟨B, some .rw, some .r, True, False⟩ (by simp [Task.accesses, insertTaskZher2k])
  exact absurd (hB.only_reads trivial id .rw (.inl rfl)) (by decide)

omit [DecidableEq R] in
theorem agree_ztrmm (hA : handle d ptr A ≠ handle d ptr B) :
    Agree d ptr (insertTaskZtrmm side uplo transA diag m n alpha A B).accesses := by
  refine agree_task .rw rfl ?_ (.inl rfl) (.inr rfl) fun h => by cases h
  simp [insertTaskZtrmm, hA]

end Insertions

theorem agree_ztrsm {R : Type*} [Field R] [StarRing R] [DecidableEq R] {d : Operand → Descr}
    {ptr : Operand → ℕ} {divZero : R → R} {side : Side} {uplo : Uplo} {transA : Trans} {diag : Diag}
    {m n : ℕ} {alpha : R} {A B : Tile} (hA : handle d ptr A ≠ handle d ptr B) :
    Agree d ptr (insertTaskZtrsmWith divZero side uplo transA diag m n alpha A B).accesses := by
  refine agree_task .rw rfl ?_ (.inl rfl) (.inr rfl) fun h => by cases h
  simp [insertTaskZtrsmWith, hA]

/-! ## The drivers -/

section Drivers

variable {R : Type*} [CommRing R] [StarRing R] [DecidableEq R] {d : Operand → Descr}
  {ptr : Operand → ℕ} {transA transB : Trans} {uplo : Uplo} {side : Side} {diag : Diag}
  {M N K : ℕ} {alpha beta : R} {LDA LDB LDC : ℤ}

theorem agree_zgemmTasks (hA : ptr .A ≠ ptr .C) (hB : ptr .B ≠ ptr .C) :
    ∀ t ∈ zgemmTasks d transA transB M N K alpha LDA LDB beta LDC, Agree d ptr t.accesses := by
  cases transA <;> cases transB
  all_goals
    simp only [zgemmTasks, reduceCtorEq, if_true, if_false, forall_mem_forLoop, List.forall_mem_singleton]
    intros
    exact agree_zgemm (handle_ne hA) (handle_ne hB)

theorem agree_zgemmtTasks {uplo : Option Uplo} (hA : ptr .A ≠ ptr .C) (hB : ptr .B ≠ ptr .C) :
    ∀ t ∈ zgemmtTasks d uplo transA transB N K alpha LDA LDB beta LDC, Agree d ptr t.accesses := by
  have hinsert : ∀ m n tempmm tempnn tempk (A B : Tile) zbeta (C : Tile),
      ptr A.mat ≠ ptr C.mat → ptr B.mat ≠ ptr C.mat →
      ∀ t ∈ gemmtInsert uplo transA transB m n tempmm tempnn tempk alpha A B zbeta C,
        Agree d ptr t.accesses := by
    intro m n tempmm tempnn tempk A B zbeta C hA hB t ht
    unfold gemmtInsert at ht
    split at ht
    · split at ht
      · rw [List.mem_singleton.mp ht]
        exact agree_zgemmt (handle_ne hA) (handle_ne hB)
      · rw [List.mem_singleton.mp ht]
        exact agree_zgemm (handle_ne hA) (handle_ne hB)
    · rw [List.mem_singleton.mp ht]
      exact agree_zgemm (handle_ne hA) (handle_ne hB)
  revert hinsert
  cases transA <;> cases transB
  all_goals
    intro hinsert
    simp only [zgemmtTasks, reduceCtorEq, if_true, if_false, forall_mem_forLoop]
    intros
    exact hinsert _ _ _ _ _ _ _ _ _ hA hB _ (by assumption)

theorem agree_zsymmTasks (hA : ptr .A ≠ ptr .C) (hB : ptr .B ≠ ptr .C) :
    ∀ t ∈ zsymmTasks d side uplo alpha LDA LDB beta LDC, Agree d ptr t.accesses := by
  refine forall_mem_zsymmTasks ?_ ?_
  · intros
    exact ⟨agree_zgemm (handle_ne hA) (handle_ne hB), agree_zgemm (handle_ne hB) (handle_ne hA)⟩
  · intros
    exact agree_zsymm (handle_ne hA) (handle_ne hB)

theorem agree_zhemmTasks (hA : ptr .A ≠ ptr .C) (hB : ptr .B ≠ ptr .C) :
    ∀ t ∈ zhemmTasks d side uplo alpha LDA LDB beta LDC, Agree d ptr t.accesses := by
  refine forall_mem_zhemmTasks ?_ ?_
  · intros
    exact ⟨agree_zgemm (handle_ne hA) (handle_ne hB), agree_zgemm (handle_ne hB) (handle_ne hA)⟩
  · intros
    exact agree_zhemm (handle_ne hA) (handle_ne hB)

theorem agree_rankKTasks {insertTask : Uplo → Trans → ℕ → ℕ → R → Tile → R → Tile → Task R}
    {transT : Trans} (hA : ptr .A ≠ ptr .C)
    (hinsert : ∀ n k m l LDA LDC tempnn tempk zbeta, Agree d ptr
      (insertTask uplo transA tempnn tempk alpha ⟨.A, n, k, LDA⟩ zbeta ⟨.C, m, l, LDC⟩).accesses) :
    ∀ t ∈ rankKTasks insertTask transT d uplo transA alpha LDA beta LDC,
      Agree d ptr t.accesses := by
  cases transA <;> cases uplo
  all_goals
    simp only [rankKTasks, reduceCtorEq, if_true, if_false, forall_mem_forLoop,
      List.forall_mem_append, List.forall_mem_singleton]
    intro n _ _
    refine ⟨fun k _ _ => hinsert _ _ _ _ _ _ _ _ _, fun m _ _ k _ _ => ?_⟩
    exact agree_zgemm (handle_ne hA) (handle_ne hA)

theorem agree_zsyr2kTasks (hA : ptr .A ≠ ptr .C) (hB : ptr .B ≠ ptr .C) :
    ∀ t ∈ zsyr2kTasks d uplo transA alpha LDA LDB beta LDC, Agree d ptr t.accesses := by
  cases transA
  all_goals
    simp only [zsyr2kTasks, reduceCtorEq, if_true, if_false, forall_mem_forLoop,
      List.forall_mem_append, List.forall_mem_cons, List.not_mem_nil, IsEmpty.forall_iff,
      implies_true, and_true]
    intro n _ _
    refine ⟨fun k _ _ => agree_zsyr2k (handle_ne hA) (handle_ne hB), fun m _ _ k _ _ => ⟨?_, ?_⟩⟩
    · exact agree_zgemm (handle_ne hA) (handle_ne hB)
    · exact agree_zgemm (handle_ne hB) (handle_ne hA)

/-- The update of a tile of `B` reads another tile of its column, or of its row. -/
theorem agree_ztrmmTasks (h : ptr .A ≠ ptr .B) :
    ∀ t ∈ ztrmmTasks d side uplo transA diag alpha LDA LDB, Agree d ptr t.accesses := by
  cases side
  · -- the updates of a tile read the tiles of other rows
    have hupdate : ∀ {transA transB m n k p q tempmm tempnn tempk}, k ≠ m → n < (d .B).nt →
        Agree d ptr (insertTaskZgemm transA transB tempmm tempnn tempk alpha ⟨.A, p, q, LDA⟩
          ⟨.B, k, n, LDB⟩ 1 ⟨.B, m, n, LDB⟩).accesses :=
      fun hk hn => agree_zgemm (handle_ne h) (handle_ne_row hk hn)
    cases uplo <;> cases transA
    all_goals
      simp only [ztrmmTasks, reduceCtorEq, if_true, if_false, forall_mem_forLoop,
        forall_mem_forLoopDown, List.forall_mem_append, List.forall_mem_singleton]
      intros
      refine ⟨agree_ztrmm (handle_ne h), ?_⟩
      intros
      exact hupdate (by omega) (by assumption)
  · have hupdate : ∀ {transA transB m n k p q tempmm tempnn tempk}, k ≠ n →
        Agree d ptr (insertTaskZgemm transA transB tempmm tempnn tempk alpha ⟨.B, m, k, LDB⟩
          ⟨.A, p, q, LDA⟩ 1 ⟨.B, m, n, LDB⟩).accesses :=
      fun hk => agree_zgemm (handle_ne_col hk) (handle_ne h)
    cases uplo <;> cases transA
    all_goals
      simp only [ztrmmTasks, reduceCtorEq, if_true, if_false, forall_mem_forLoop,
        forall_mem_forLoopDown, List.forall_mem_append, List.forall_mem_singleton]
      intros
      refine ⟨agree_ztrmm (handle_ne h), ?_⟩
      intros
      exact hupdate (by omega)

end Drivers

section Solve

variable {R : Type*} [Field R] [StarRing R] [DecidableEq R] {d : Operand → Descr}
  {ptr : Operand → ℕ}

theorem agree_ztrsmTasks {side : Side} {uplo : Uplo} {transA : Trans} {diag : Diag} {alpha : R}
    {LDA LDB : ℤ} (h : ptr .A ≠ ptr .B) :
    ∀ t ∈ ztrsmTasks d side uplo transA diag alpha LDA LDB, Agree d ptr t.accesses := by
  cases side
  · have hupdate : ∀ {transA transB m n k p q tempmm tempnn tempk} {alpha beta : R}, k ≠ m →
        n < (d .B).nt →
        Agree d ptr (insertTaskZgemm transA transB tempmm tempnn tempk alpha ⟨.A, p, q, LDA⟩
          ⟨.B, k, n, LDB⟩ beta ⟨.B, m, n, LDB⟩).accesses :=
      fun hk hn => agree_zgemm (handle_ne h) (handle_ne_row hk hn)
    cases uplo <;> cases transA
    all_goals
      simp only [ztrsmTasks, ztrsmTasksWith, reduceCtorEq, if_true, if_false, forall_mem_forLoop,
        List.forall_mem_append, List.forall_mem_singleton]
      intros
      refine ⟨?_, ?_⟩
      · intros
        exact agree_ztrsm (handle_ne h)
      · intros
        exact hupdate (by omega) (by assumption)
  · have hupdate : ∀ {transA transB m n k p q tempmm tempnn tempk} {alpha beta : R}, k ≠ n →
        Agree d ptr (insertTaskZgemm transA transB tempmm tempnn tempk alpha ⟨.B, m, k, LDB⟩
          ⟨.A, p, q, LDA⟩ beta ⟨.B, m, n, LDB⟩).accesses :=
      fun hk => agree_zgemm (handle_ne_col hk) (handle_ne h)
    cases uplo <;> cases transA
    all_goals
      simp only [ztrsmTasks, ztrsmTasksWith, reduceCtorEq, if_true, if_false, forall_mem_forLoop,
        List.forall_mem_append, List.forall_mem_singleton]
      intros
      refine ⟨?_, ?_⟩
      · intros
        exact agree_ztrsm (handle_ne h)
      · intros
        exact hupdate (by omega)

/-! ## The routines that agree -/

/-- The operands that a call writes. -/
def Call.written : Call R → List Operand
  | .ztrmm .. | .ztrsm .. => [.B]
  | .zcopyscale .. => [.B, .C]
  | _ => [.C]

/-- An operand that a call writes is not another one of its matrices. Two that it reads may be the
same. -/
def Call.Separate (c : Call R) (ptr : Operand → ℕ) : Prop :=
  ∀ X ∈ c.operands, ∀ Y ∈ c.written, X ≠ Y → ptr X ≠ ptr Y

/-- The loops of the routine insert no task whose accesses conflict or disagree: it is not a rank
`2k` update of a Hermitian matrix or a factorisation whose loops insert a task, and does not swap
two columns of one block column. -/
def Routine.LoopsAgree (d : Operand → Descr) : Routine R → Prop
  | .call (.zher2k _ transA ..) _ =>
      (d .C).nt = 0 ∨ (if transA = .noTrans then (d .A).nt else (d .A).mt) = 0
  | .call (.zswap _ _ i j _) _ =>
      (d .C).mt = 0 ∨ i.toNat / (d .C).nb ≠ j.toNat / (d .C).nb
  | .zpotrf uplo .. => (if uplo = .lower then (d .A).mt else (d .A).nt) = 0
  | _ => True

/-- The routine inserts no such task. -/
def Routine.Agrees (d : Operand → Descr) (r : Routine R) : Prop :=
  r.runs = .ok true → r.LoopsAgree d

theorem agree_zher2kTasks_iff {uplo : Uplo} {transA : Trans} {alpha beta : R} {LDA LDB LDC : ℤ} :
    (∀ t ∈ zher2kTasks d uplo transA alpha LDA LDB beta LDC, Agree d ptr t.accesses) ↔
      (d .C).nt = 0 ∨ (if transA = .noTrans then (d .A).nt else (d .A).mt) = 0 := by
  cases transA <;> cases uplo
  all_goals
    simp only [zher2kTasks, reduceCtorEq, if_true, if_false, forall_mem_forLoop,
      List.forall_mem_append, List.forall_mem_singleton]
    constructor
    · intro h
      by_contra hloops
      -- the task on the first tile of the diagonal
      exact not_agree_zher2k ((h 0 le_rfl (by omega)).1 0 le_rfl (by omega))
    · intro hloops n _ hn
      refine ⟨fun k _ hk => ?_, fun m _ _ k _ hk => ?_⟩
      · omega
      · omega

theorem agree_zswap_iff {m ib jb : ℕ} {LDC : ℤ} :
    Agree d ptr (zswapAccesses true ⟨.C, m, ib, LDC⟩ ⟨.C, m, jb, LDC⟩) ↔ ib ≠ jb := by
  constructor
  · intro h heq
    have hconflict := List.rel_of_pairwise_cons h.conflict_free List.mem_cons_self
      (by rw [heq]) .rw rfl .rw rfl
    cases hconflict.1
  · intro hne
    refine ⟨List.pairwise_pair.mpr fun heq => absurd heq (handle_ne_col hne), fun a ha => ?_⟩
    rcases List.mem_pair.mp ha with rfl | rfl
    · exact agrees_output _ (.inl rfl) (.inr rfl) fun h => by cases h
    · have hrw : ∀ mode, Access.Declares ⟨⟨.C, m, jb, LDC⟩, some .rw, none, True, True⟩ mode →
          mode = .rw := by
        intro mode h
        rcases h with h | h
        · exact (Option.some.inj h).symm
        · cases h
      constructor
      · exact fun mode h => by cases h
      · exact fun _ => Option.some_ne_none _
      · exact fun _ mode h => .inr (hrw mode h)
      · exact fun _ mode h => .inr (hrw mode h)
      · exact fun _ h => absurd trivial h

theorem agree_zcopyscale {should_copy : Bool} {D L U : Tile}
    (hDL : handle d ptr D ≠ handle d ptr L) (hDU : handle d ptr D ≠ handle d ptr U)
    (hLU : handle d ptr L ≠ handle d ptr U) :
    Agree d ptr (zcopyscaleAccesses should_copy D L U) := by
  refine ⟨?_, fun a ha => ?_⟩
  · simp [ConflictFree, zcopyscaleAccesses, hDL, hDU, hLU]
  · simp only [zcopyscaleAccesses, List.mem_cons, List.not_mem_nil, or_false] at ha
    rcases ha with rfl | rfl | rfl
    · exact agrees_input D
    · exact agrees_output L (.inl rfl) (.inr rfl) fun h => by cases h
    · have hw : ∀ mode, Access.Declares ⟨U, some .w, some .w, False, should_copy = true⟩ mode →
          mode = .w := by
        intro mode h
        rcases h with h | h
        · exact (Option.some.inj h).symm
        · exact (Option.some.inj h).symm
      constructor
      · exact fun mode h => ⟨.w, rfl, .inl (Option.some.inj h).symm⟩
      · exact fun _ => Option.some_ne_none _
      · exact False.elim
      · exact fun _ mode h => .inl (hw mode h).symm
      · exact False.elim

theorem not_agree_zpotrf {A : Tile} : ¬ Agree d ptr (zpotrfAccesses A) := by
  intro h
  have hA := h.agrees _ List.mem_cons_self
  exact absurd (hA.writes trivial .r (.inl rfl)) (by decide)

theorem agree_zpotrf_iff {uplo : Uplo} {N : ℕ} {LDA : ℤ} :
    (∀ task ∈ zpotrfTaskAccesses R d uplo N LDA, Agree d ptr task) ↔
      (if uplo = .lower then (d .A).mt else (d .A).nt) = 0 := by
  cases uplo
  all_goals
    simp only [zpotrfTaskAccesses, reduceCtorEq, if_true, if_false, forall_mem_forLoop,
      List.forall_mem_append, List.forall_mem_singleton]
    constructor
    · intro h
      by_contra hloops
      exact not_agree_zpotrf (h 0 le_rfl (by omega)).1.1
    · intro hloops k _ hk
      omega

/-- An operand that a routine writes is not another one of its matrices. -/
def Routine.Separate (ptr : Operand → ℕ) : Routine R → Prop
  | .call c _ => c.Separate ptr
  | .zpotrf .. => True

/-- The tasks of the loops of a routine agree exactly when these insert none of the three kinds that
do not. -/
theorem loopAccesses_agree_iff (r : Routine R) (hptr : r.Separate ptr) :
    (∀ task ∈ r.loopAccesses d, Agree d ptr task) ↔ r.LoopsAgree d := by
  cases r with
  | zpotrf uplo N LDA => exact agree_zpotrf_iff
  | call c should_copy =>
      have hne : ∀ X Y, X ∈ c.operands → Y ∈ c.written → X ≠ Y → ptr X ≠ ptr Y :=
        fun X Y hX hY => hptr X hX Y hY
      show (∀ task ∈ c.loopAccesses d should_copy, Agree d ptr task) ↔ _
      cases c
      case zgemm | zgemmt | zsymm | zhemm | zsyr2k =>
        have hA : ptr .A ≠ ptr .C := hne _ _ (by simp [Call.operands]) (by simp [Call.written])
          (by decide)
        have hB : ptr .B ≠ ptr .C := hne _ _ (by simp [Call.operands]) (by simp [Call.written])
          (by decide)
        refine iff_of_true (List.forall_mem_map.mpr ?_) trivial
        first
          | exact agree_zgemmTasks hA hB
          | exact agree_zgemmtTasks hA hB
          | exact agree_zsymmTasks hA hB
          | exact agree_zhemmTasks hA hB
          | exact agree_zsyr2kTasks hA hB
      case zsyrk | zherk =>
        have hA : ptr .A ≠ ptr .C := hne _ _ (by simp [Call.operands]) (by simp [Call.written])
          (by decide)
        refine iff_of_true (List.forall_mem_map.mpr (agree_rankKTasks hA fun _ _ _ _ _ _ _ _ _ => ?_))
          trivial
        first
          | exact agree_zsyrk (handle_ne hA)
          | exact agree_zherk (handle_ne hA)
      case zher2k => exact List.forall_mem_map.trans agree_zher2kTasks_iff
      case ztrmm | ztrsm =>
        have hA : ptr .A ≠ ptr .B := hne _ _ (by simp [Call.operands]) (by simp [Call.written])
          (by decide)
        refine iff_of_true (List.forall_mem_map.mpr ?_) trivial
        first
          | exact agree_ztrmmTasks hA
          | exact agree_ztrsmTasks hA
      case zswap M N i j LDC =>
        simp only [Call.loopAccesses, forall_mem_forLoop, List.forall_mem_singleton, agree_zswap_iff]
        show _ ↔ (d .C).mt = 0 ∨ _
        constructor
        · intro h
          by_cases hmt : (d .C).mt = 0
          · exact .inl hmt
          · exact .inr (h 0 le_rfl (by omega))
        · intro h m _ hm
          rcases h with h | h
          · omega
          · exact h
      case zcopyscale =>
        refine iff_of_true ?_ trivial
        simp only [Call.loopAccesses, forall_mem_forLoop, List.forall_mem_singleton]
        intros
        refine agree_zcopyscale (handle_ne (hne _ _ ?_ ?_ ?_)) (handle_ne (hne _ _ ?_ ?_ ?_))
          (handle_ne (hne _ _ ?_ ?_ ?_))
        all_goals simp [Call.operands, Call.written]

/-- The tasks of a routine agree, for every content of the table of descriptors, exactly when it
inserts none of the three kinds that do not. -/
theorem accesses_agree_iff (r : Routine R) (hptr : r.Separate ptr) :
    (∀ task ∈ r.accesses d, Agree d ptr task) ↔ r.Agrees d := by
  unfold Routine.accesses Routine.Agrees
  by_cases hruns : r.runs = .ok true
  · rw [if_pos hruns, loopAccesses_agree_iff r hptr]
    exact ⟨fun h _ => h, fun h => h hruns⟩
  · rw [if_neg hruns]
    exact iff_of_true (fun _ h => absurd h List.not_mem_nil) fun h => absurd h hruns

end Solve

/-- A product of a matrix of order two with itself. -/
theorem accesses_agree_square :
    let c : Call ℚ := .zgemm .noTrans .trans 2 2 2 1 2 2 0 2
    let ptr : Operand → ℕ := fun X => if X = .C then 128 else 64
    (Routine.call c false).Separate ptr ∧
      ∀ task ∈ (Routine.call c false).accesses (c.descr 1 1), Agree (c.descr 1 1) ptr task := by
  intro c ptr
  have hptr : (Routine.call c false).Separate ptr := by
    show ∀ X ∈ [Operand.A, .B, .C], ∀ Y ∈ [Operand.C], X ≠ Y → ptr X ≠ ptr Y
    decide
  exact ⟨hptr, (accesses_agree_iff (.call c false) hptr).mpr fun _ => trivial⟩

/-- A rank `2k` update of a Hermitian matrix of order one by the same matrix twice. The task reads
and writes one handle, so that it waits for itself. -/
theorem zher2k_waits_for_itself :
    let c : Call ℚ := .zher2k .lower .noTrans 1 1 1 1 1 0 1
    let ptr : Operand → ℕ := fun X => if X = .C then 128 else 64
    c.runs = .ok true ∧ (Routine.call c false).Separate ptr ∧
      ∃ task ∈ (Routine.call c false).accesses (c.descr 1 1),
        ¬ ConflictFree (c.descr 1 1) ptr task := by
  intro c ptr
  refine ⟨by decide, ?_, _, List.mem_cons_self, fun h => ?_⟩
  · show ∀ X ∈ [Operand.A, .B, .C], ∀ Y ∈ [Operand.C], X ≠ Y → ptr X ≠ ptr Y
    decide
  · have hconflict := List.rel_of_pairwise_cons h List.mem_cons_self rfl .r rfl .rw rfl
    cases hconflict.2

end Xkblas.Blas
