import Xkblas.Blas.Gemm
import Xkblas.Blas.Gemmt
import Xkblas.Blas.RankUpdate
import Xkblas.Blas.Trsm

/-!
# Calls with an empty product or a factor zero

The factor `beta` is applied by the first task of a loop over the tiles of the dimension `K`. When
that dimension is empty no task applies it. In `xkblas_ztrsm_async` some of the loops divide by
`alpha`, and the quotient reaches the tasks that update other tiles. The other loops give the factor
to the tasks of the first stage only: a later stage solves for a block of zeros with the factor one,
and divides by the elements of its diagonal.
-/

namespace Xkblas.Blas

open Library Finset

/-! ## The empty product -/

/-- The calls that add a product over the dimension `K` to `beta * C`. -/
inductive ProductCall where
  | zgemm (transA transB : Trans) (M N : ℕ)
  | zgemmt (uplo : Uplo) (transA transB : Trans) (N : ℕ)
  | rankUpdate (r : RankUpdate) (uplo : Uplo) (transA : Trans) (N : ℕ)
  deriving DecidableEq, Repr

namespace ProductCall

/-- The number of rows of `C`. -/
def rows : ProductCall → ℕ
  | .zgemm _ _ M _ => M
  | .zgemmt _ _ _ N | .rankUpdate _ _ _ N => N

/-- The number of columns of `C`. -/
def cols : ProductCall → ℕ
  | .zgemm _ _ _ N | .zgemmt _ _ _ N | .rankUpdate _ _ _ N => N

/-- The part of `C` that is updated. -/
def updated : ProductCall → ℕ → ℕ → Bool
  | .zgemm _ _ _ _ => fun _ _ => true
  | .zgemmt uplo _ _ _ | .rankUpdate _ uplo _ _ => uplo.stores

/-- The descriptors of a call that initialises them. -/
def descr (c : ProductCall) (NB K : ℕ) (LDA LDB LDC : ℤ) : Operand → Descr :=
  match c with
  | .zgemm transA transB M N => zgemmDescr NB transA transB M N K LDA LDB LDC
  | .zgemmt _ transA transB N => zgemmtDescr NB transA transB N K LDA LDB LDC
  | .rankUpdate r _ transA N => r.descr NB transA N K LDA LDB LDC

/-- The arguments pass the checks of the routine. -/
def Legal (c : ProductCall) (K : ℕ) (LDA LDB LDC : ℤ) : Prop :=
  match c with
  | .zgemm transA transB M N =>
      1 ≤ M ∧ 1 ≤ N ∧ ¬ illegalLd LDA (transA.size M K).1 ∧
        ¬ illegalLd LDB (transB.size K N).1 ∧ ¬ illegalLd LDC M
  | .zgemmt _ transA transB N =>
      1 ≤ N ∧ ¬ illegalLd LDA (transA.size N K).1 ∧ ¬ illegalLd LDB (transB.size K N).1 ∧
        ¬ illegalLd LDC N
  | .rankUpdate r _ transA N =>
      (transA = .noTrans ∨ transA = r.transT) ∧ 1 ≤ N ∧ ¬ illegalLd LDA (transA.size N K).1 ∧
        ¬ illegalLd LDB (transA.size N K).1 ∧ ¬ illegalLd LDC N

instance (c : ProductCall) (K : ℕ) (LDA LDB LDC : ℤ) : Decidable (c.Legal K LDA LDB LDC) := by
  cases c <;> exact inferInstanceAs (Decidable (_ ∧ _))

section Ring

variable {R : Type*} [CommRing R] [StarRing R] [DecidableEq R]

/-- The call of the routine. -/
def async (c : ProductCall) (NB K : ℕ) (alpha : R) (LDA LDB : ℤ) (beta : R) (LDC : ℤ) :
    Except ℤ (List (Task R)) :=
  match c with
  | .zgemm transA transB M N => zgemmAsync NB transA transB M N K alpha LDA LDB beta LDC
  | .zgemmt uplo transA transB N =>
      zgemmtAsync NB (some uplo) transA transB N K alpha LDA LDB beta LDC
  | .rankUpdate r uplo transA N => r.async NB uplo transA N K alpha LDA LDB beta LDC

/-- What a call with an empty product promises: the updated part of `C` becomes `beta * C`. -/
def Scales (c : ProductCall) (NB : ℕ) (alpha : R) (LDA LDB : ℤ) (beta : R) (LDC : ℤ) : Prop :=
  let d := c.descr NB 0 LDA LDB LDC
  ∃ tasks, c.async NB 0 alpha LDA LDB beta LDC = .ok tasks ∧
    ∀ s, run d tasks s = Function.update s .C
      (store (s .C) 0 (d .C).ld c.rows c.cols c.updated fun i j => beta * s.get d .C i j)

variable {c : ProductCall} {NB N : ℕ} {transA transT : Trans} {alpha beta : R}
  {LDA LDB LDC : ℤ}

omit [CommRing R] [StarRing R] [DecidableEq R] in
/-- A triangle of tiles without tasks. -/
theorem triangleLoops_empty {v : Visit} {nt : ℕ} {body : ℕ → ℕ → List (Task R)}
    (h : ∀ m n, body m n = []) : triangleLoops v nt body = [] := by
  refine List.eq_nil_iff_forall_not_mem.mpr fun t ht => ?_
  obtain ⟨m, n, _, hmem⟩ := mem_triangleLoops ht
  rw [h m n] at hmem
  exact List.not_mem_nil hmem

omit [StarRing R] in
/-- An empty product passes the checks of a rank update. -/
theorem rankKChecks_empty (hadm : transA = .noTrans ∨ transA = transT) (hN : 1 ≤ N)
    (hA : ¬ illegalLd LDA (transA.size N 0).1) (hC : ¬ illegalLd LDC N) {tasks : List (Task R)}
    (htasks : tasks = []) :
    rankKChecks transT transA N (0 : ℕ) alpha LDA beta LDC tasks = .ok [] := by
  unfold rankKChecks
  simp only [Int.toNat_natCast]
  rw [if_neg fun h => hadm.elim h.1 h.2, if_neg (by omega), if_neg (by omega), if_neg hA,
    if_neg hC, htasks, ite_self]

omit [StarRing R] in
theorem rank2KChecks_empty (hadm : transA = .noTrans ∨ transA = transT) (hN : 1 ≤ N)
    (hA : ¬ illegalLd LDA (transA.size N 0).1) (hB : ¬ illegalLd LDB (transA.size N 0).1)
    (hC : ¬ illegalLd LDC N) {tasks : List (Task R)} (htasks : tasks = []) :
    rank2KChecks transT transA N (0 : ℕ) alpha LDA LDB beta LDC tasks = .ok [] := by
  unfold rank2KChecks
  simp only [Int.toNat_natCast]
  rw [if_neg fun h => hadm.elim h.1 h.2, if_neg (by omega), if_neg (by omega), if_neg hA,
    if_neg hB, if_neg hC, htasks, ite_self]

/-- A loop over the tiles of an empty dimension. -/
theorem forLoop_numTiles_zero {τ : Type*} (hNB : 0 < NB) (body : ℕ → List τ) :
    forLoop 0 (numTiles 0 NB) body = [] := by
  rw [numTiles_zero hNB]
  rfl

/-- The rank updates insert no task. -/
theorem rankUpdate_empty {r : RankUpdate} {uplo : Uplo} (hNB : 1 ≤ NB)
    (h : (ProductCall.rankUpdate r uplo transA N).Legal 0 LDA LDB LDC) :
    r.async NB uplo transA N (0 : ℕ) alpha LDA LDB beta LDC = .ok [] := by
  obtain ⟨hadm, hN, hA, hB, hC⟩ := h
  cases r
  case zsyrk =>
    replace hadm : transA = .noTrans ∨ transA = .trans := hadm
    show zsyrkAsync NB uplo transA N (0 : ℕ) alpha LDA beta LDC = _
    refine rankKChecks_empty hadm hN hA hC ?_
    simp only [Int.toNat_natCast]
    rw [zsyrkTasks_eq hNB]
    exact triangleLoops_empty fun m n => forLoop_numTiles_zero hNB _
  case zherk =>
    replace hadm : transA = .noTrans ∨ transA = .conjTrans := hadm
    show zherkAsync NB uplo transA N (0 : ℕ) alpha LDA beta LDC = _
    refine rankKChecks_empty hadm hN hA hC ?_
    simp only [Int.toNat_natCast]
    rw [zherkTasks_eq hNB]
    exact triangleLoops_empty fun m n => forLoop_numTiles_zero hNB _
  case zsyr2k =>
    replace hadm : transA = .noTrans ∨ transA = .trans := hadm
    show zsyr2kAsync NB uplo transA N (0 : ℕ) alpha LDA LDB beta LDC = _
    refine rank2KChecks_empty hadm hN hA hB hC ?_
    simp only [Int.toNat_natCast]
    rw [zsyr2kTasks_eq hNB hadm]
    exact triangleLoops_empty fun m n => forLoop_numTiles_zero hNB _
  case zher2k =>
    replace hadm : transA = .noTrans ∨ transA = .conjTrans := hadm
    show zher2kAsync NB uplo transA N (0 : ℕ) alpha LDA LDB beta LDC = _
    refine rank2KChecks_empty hadm hN hA hB hC ?_
    simp only [Int.toNat_natCast]
    rw [zher2kTasks_eq hNB]
    exact triangleLoops_empty fun m n => forLoop_numTiles_zero hNB _

/-- No call inserts a task for an empty product. -/
theorem async_empty (hNB : 1 ≤ NB) (h : c.Legal 0 LDA LDB LDC) :
    c.async NB 0 alpha LDA LDB beta LDC = .ok [] := by
  cases c with
  | zgemm transA transB M N =>
      obtain ⟨hM, hN, hA, hB, hC⟩ := h
      show zgemmAsync NB transA transB M N (0 : ℕ) alpha LDA LDB beta LDC = _
      unfold zgemmAsync
      simp only [Int.toNat_natCast]
      rw [if_neg (by omega), if_neg (by omega), if_neg (by omega), if_neg hA, if_neg hB,
        if_neg hC, zgemmTasks_eq hNB]
      simp only [forLoop_numTiles_zero hNB]
      simp [forLoop]
  | zgemmt uplo transA transB N =>
      obtain ⟨hN, hA, hB, hC⟩ := h
      show zgemmtAsync NB (some uplo) transA transB N (0 : ℕ) alpha LDA LDB beta LDC = _
      unfold zgemmtAsync
      simp only [Int.toNat_natCast]
      have hempty : (gemmtLoops uplo transA transB NB N 0 alpha LDA LDB beta LDC).map Task.erase =
          [] := by
        unfold gemmtLoops gemmtLoop
        simp only [forLoop_numTiles_zero hNB]
        simp [forLoop]
      rw [← zgemmtTasks_eq hNB, List.map_eq_nil_iff] at hempty
      rw [if_neg (by omega), if_neg (by omega), if_neg hA, if_neg hB, if_neg hC, hempty, ite_self]
  | rankUpdate r uplo transA N => exact rankUpdate_empty hNB h

/-- The descriptor of `C` in a legal call. -/
theorem descr_C (hNB : 1 ≤ NB) (h : c.Legal 0 LDA LDB LDC) :
    let d := c.descr NB 0 LDA LDB LDC
    (d .C).Valid ∧ (d .C).M = c.rows ∧ (d .C).N = c.cols ∧ 1 ≤ c.rows ∧ 1 ≤ c.cols := by
  cases c with
  | zgemm transA transB M N =>
      obtain ⟨hM, hN, _, _, hC⟩ := h
      exact ⟨valid_initMatrixHandle hNB hNB (not_lt.mp hC), rfl, rfl, hM, hN⟩
  | zgemmt uplo transA transB N =>
      obtain ⟨hN, _, _, hC⟩ := h
      exact ⟨valid_initMatrixHandle hNB hNB (not_lt.mp hC), rfl, rfl, hN, hN⟩
  | rankUpdate r uplo transA N =>
      obtain ⟨_, hN, _, _, hC⟩ := h
      cases r <;> exact ⟨valid_initMatrixHandle hNB hNB (not_lt.mp hC), rfl, rfl, hN, hN⟩

omit [CommRing R] [StarRing R] [DecidableEq R] in
/-- An array whose entries are stored with their own values. -/
theorem store_self {d : Descr} (hd : d.Valid) (mem : ℕ → R) (p : ℕ → ℕ → Bool) :
    store mem 0 d.ld d.M d.N p (entry mem 0 d.ld) = mem := by
  refine ext_entries hd.ld_pos fun i hi j => ?_
  have hrows : 0 + d.M ≤ d.ld := by
    rw [Nat.zero_add]
    exact hd.rows_le
  have hstore : entry (store mem (0 + 0 * d.ld) d.ld d.M d.N p (entry mem 0 d.ld)) 0 d.ld i j = _ :=
    store_entry _ _ _ hrows hi
  rw [Nat.zero_mul, Nat.add_zero] at hstore
  rw [hstore, Nat.sub_zero, Nat.sub_zero, ite_self]

/-- `C` becomes `beta * C` exactly when it may stay as it is. -/
theorem scales_iff (hNB : 1 ≤ NB) (h : c.Legal 0 LDA LDB LDC) :
    c.Scales NB alpha LDA LDB beta LDC ↔ beta = 1 := by
  obtain ⟨hC, hM, hN, hrows, hcols⟩ := descr_C hNB h
  have hok : c.async NB 0 alpha LDA LDB beta LDC = _ := async_empty hNB h
  constructor
  · rintro ⟨tasks, htasks, hrun⟩
    obtain rfl : _ = tasks := Except.ok.inj (hok.symm.trans htasks)
    -- the element `(0, 0)` of a matrix of ones
    have hone := congrArg (fun s => State.get s (c.descr NB 0 LDA LDB LDC) .C 0 0)
      (hrun fun _ _ => 1)
    have hupdated : c.updated 0 0 = true := by
      cases c with
      | zgemm transA transB M N => rfl
      | zgemmt uplo transA transB N | rankUpdate r uplo transA N => exact uplo.stores_self 0
    rw [get_update_store hC hM.symm hrows hcols, if_pos hupdated] at hone
    exact (mul_one beta).symm.trans hone.symm
  · rintro rfl
    refine ⟨[], hok, fun s => ?_⟩
    have hself := store_self hC (s .C) c.updated
    rw [hM, hN] at hself
    simp only [one_mul]
    show s = Function.update s .C (store (s .C) 0 _ c.rows c.cols c.updated (entry (s .C) 0 _))
    rw [hself, Function.update_eq_self]

end Ring

end ProductCall

/-! ## The factor zero of a triangular solve -/

section Solve

variable {R : Type*} [Field R] [DecidableEq R] {T : Block R} {divZero : R → R}

/-- Substitution of zeros into a system with an invertible diagonal. -/
theorem forward_zero {n : ℕ} (hdiag : ∀ i < n, T i i ≠ 0) :
    forward divZero T (fun _ => 0) n = fun _ => 0 := by
  induction n with
  | zero => rfl
  | succ n ih =>
      funext i
      show Function.update (forward divZero T (fun _ => 0) n) n
        (quotient divZero (0 - ∑ l ∈ range n, T n l * forward divZero T (fun _ => 0) n l) (T n n))
        i = 0
      rw [ih fun i hi => hdiag i (hi.trans (Nat.lt_succ_self n)),
        quotient_of_ne (hdiag n (Nat.lt_succ_self n))]
      by_cases hi : i = n
      · subst hi
        simp
      · rw [Function.update_of_ne hi]

theorem solve_zero (lower : Bool) {n : ℕ} {b : ℕ → R} (hdiag : ∀ i < n, T i i ≠ 0)
    (hb : ∀ i < n, b i = 0) (i : ℕ) : solve divZero lower n T b i = 0 := by
  have hcongr : solve divZero lower n T b = solve divZero lower n T fun _ => 0 :=
    solve_congr lower hb
  rw [hcongr]
  rcases Nat.eq_zero_or_pos n with rfl | hn
  · cases lower <;> rfl
  · cases lower with
    | true => exact congrFun (forward_zero hdiag) i
    | false =>
        exact congrFun (forward_zero fun i _ => hdiag (n - 1 - i) (by omega)) (n - 1 - i)

variable (T divZero) in
/-- An unknown is a quotient by its element of the diagonal. -/
theorem exists_forward_eq (b : ℕ → R) {n i : ℕ} (hi : i < n) :
    ∃ x, forward divZero T b n i = quotient divZero x (T i i) := by
  induction n with
  | zero => exact absurd hi (Nat.not_lt_zero i)
  | succ n ih =>
      rcases Nat.lt_succ_iff_lt_or_eq.mp hi with hin | rfl
      · rw [forward_succ_of_lt T b hin]
        exact ih hin
      · exact ⟨_, Function.update_self _ _ _⟩

/-- An unknown of a singular system is what the quotients by zero are. -/
theorem solve_singular (lower : Bool) {n i : ℕ} (b : ℕ → R) (c : R) (hi : i < n)
    (hzero : T i i = 0) : solve (fun _ => c) lower n T b i = c := by
  cases lower with
  | true =>
      obtain ⟨x, hx⟩ := exists_forward_eq T (fun _ => c) b hi
      exact hx.trans (if_pos hzero)
  | false =>
      obtain ⟨x, hx⟩ := exists_forward_eq (fun i l => T (n - 1 - i) (n - 1 - l)) (fun _ => c)
        (fun i => b (n - 1 - i)) (show n - 1 - i < n by omega)
      refine hx.trans (if_pos ?_)
      rw [show n - 1 - (n - 1 - i) = i by omega]
      exact hzero

variable {L NB p : ℕ} {ck : R} {v : ℕ → R}

/-- The block is solved for zeros when the factor is zero, or the block is and its system has an
invertible diagonal. -/
theorem tileSolve_eq_zero (lower : Bool) (hNB : 0 < NB) (hp : p < numTiles L NB)
    (h : ck = 0 ∨ (∀ i ∈ Library.tile L NB p, T i i ≠ 0) ∧ ∀ i < L, v i = 0) {i : ℕ}
    (hi : i ∈ Library.tile L NB p) : tileSolve divZero lower T L NB p ck v i = 0 := by
  have hend := tile_le hNB hp
  unfold tileSolve
  rw [if_pos hi]
  rcases h with rfl | ⟨hdiag, hv⟩
  · exact if_pos rfl
  · have hblock : ∀ x < tileSize L NB p, p * NB + x ∈ Library.tile L NB p := fun x hx =>
      mem_tile_iff.mpr ((mem_tile hNB hp).mp ⟨by omega, by omega⟩)
    have hzero : ∀ x < tileSize L NB p, ck * v (p * NB + x) = 0 := fun x hx => by
      rw [hv _ (by omega), mul_zero]
    exact ite_eq_left_iff.mpr fun _ =>
      solve_zero (T := fun x y => T (p * NB + x) (p * NB + y)) lower
        (fun x hx => hdiag _ (hblock x hx)) hzero _

/-- The block of a singular system. -/
theorem tileSolve_singular (lower : Bool) (hNB : 0 < NB) (hp : p < numTiles L NB) (hck : ck ≠ 0)
    (c : R) {i : ℕ} (hi : i ∈ Library.tile L NB p) (hzero : T i i = 0) :
    tileSolve (fun _ => c) lower T L NB p ck v i = c := by
  obtain ⟨hiL, hip⟩ := mem_tile_iff.mp hi
  obtain ⟨hle, hlt⟩ := (mem_tile hNB hp).mpr ⟨hiL, hip⟩
  unfold tileSolve
  rw [if_pos hi, if_neg hck]
  refine solve_singular lower _ c (by omega) ?_
  rw [Nat.add_sub_cancel' hle]
  exact hzero

variable {s s' : Finset ℕ} {mu lam : R}

omit [DecidableEq R] in
/-- Updates with a block of zeros keep zeros, and erase the blocks when the factor is zero. -/
theorem foldl_blockUpdate_zero {ms : List ℕ} {S : ℕ → Finset ℕ} (hdisj : ∀ m ∈ ms, ∀ i ∈ s, i ∉ S m)
    (hv : ∀ i ∈ s, v i = 0) (i : ℕ) :
    (v i = 0 → ms.foldl (fun v m => blockUpdate T s (S m) mu lam v) v i = 0) ∧
      (lam = 0 → (∃ m ∈ ms, i ∈ S m) →
        ms.foldl (fun v m => blockUpdate T s (S m) mu lam v) v i = 0) := by
  induction ms generalizing v with
  | nil => exact ⟨id, fun _ ⟨_, hm, _⟩ => absurd hm List.not_mem_nil⟩
  | cons m ms ih =>
      have hrow : ∀ l, blockRow T s v l = 0 := fun l =>
        sum_eq_zero fun l' hl' => by rw [hv l' hl', mul_zero]
      have hnext : ∀ l ∈ s, blockUpdate T s (S m) mu lam v l = 0 := by
        intro l hl
        unfold blockUpdate
        rw [if_neg (hdisj m List.mem_cons_self l hl)]
        exact hv l hl
      have hrest := ih (fun m hm => hdisj m (List.mem_cons_of_mem _ hm)) hnext
      rw [List.foldl_cons]
      constructor
      · intro hzero
        refine hrest.1 ?_
        unfold blockUpdate
        rw [hrow, hzero, mul_zero, mul_zero, add_zero, ite_self]
      · rintro rfl ⟨m', hm', hi⟩
        rcases List.mem_cons.mp hm' with rfl | hm'
        · refine hrest.1 ?_
          unfold blockUpdate
          rw [if_pos hi, hrow, mul_zero, zero_mul, add_zero]
        · exact hrest.2 rfl ⟨m', hm', hi⟩

omit [DecidableEq R] in
/-- The updates of other blocks. -/
theorem foldl_blockUpdate_of_notMem {ms : List ℕ} {S : ℕ → Finset ℕ} {i : ℕ}
    (h : ∀ m ∈ ms, i ∉ S m) (v : ℕ → R) :
    ms.foldl (fun v m => blockUpdate T s (S m) mu lam v) v i = v i := by
  induction ms generalizing v with
  | nil => rfl
  | cons m ms ih =>
      rw [List.foldl_cons, ih fun m hm => h m (List.mem_cons_of_mem _ hm)]
      exact if_neg (h m List.mem_cons_self)

/-! ## A line -/

variable {side : Side} {transA : Trans} {down lower : Bool} {n : ℕ}

/-- A line after the first `n` stages of a solve with the factor zero. -/
def zeroSweep (divZero : R → R) (lower : Bool) (side : Side) (transA : Trans) (mu : R) (T : Block R)
    (down : Bool) (L NB n : ℕ) (v : ℕ → R) : ℕ → R :=
  (List.range n).foldl (fun v k => (List.Ico (k + 1) (numTiles L NB)).foldl
    (fun v m => blockUpdate T (sweepTile down L NB k) (sweepTile down L NB m)
      (updateAlpha side transA mu) (updateBeta side transA 0 k) v)
    (tileSolve divZero lower T L NB (sweep down (numTiles L NB) k) (solveScale side transA 0 k) v)) v

theorem zeroSweep_succ (v : ℕ → R) :
    zeroSweep divZero lower side transA mu T down L NB (n + 1) v =
      (List.Ico (n + 1) (numTiles L NB)).foldl
        (fun v m => blockUpdate T (sweepTile down L NB n) (sweepTile down L NB m)
          (updateAlpha side transA mu) (updateBeta side transA 0 n) v)
        (tileSolve divZero lower T L NB (sweep down (numTiles L NB) n) (solveScale side transA 0 n)
          (zeroSweep divZero lower side transA mu T down L NB n v)) := by
  unfold zeroSweep
  rw [List.range_succ, List.foldl_append, List.foldl_cons, List.foldl_nil]

omit [Field R] [DecidableEq R] in
/-- The updates of a stage leave its block as it is. -/
theorem notMem_later_sweepTile (hn : n < numTiles L NB) {i : ℕ} (hi : i ∈ sweepTile down L NB n) :
    ∀ m ∈ List.Ico (n + 1) (numTiles L NB), i ∉ sweepTile down L NB m := by
  intro m hm him
  obtain ⟨hnm, hmK⟩ := List.Ico.mem.mp hm
  exact (Nat.lt_of_succ_le hnm).ne (disjoint_sweepTile n hn m hmK i hi him)

variable (divZero mu lower) in
/-- The line is zero from the first stage on, unless a later stage solves a singular system. -/
theorem zeroSweep_eq_zero (hNB : 0 < NB) (honce : everyStage side transA → numTiles L NB = 1)
    (hdiag : ∀ i < L, i ∉ sweepTile down L NB 0 → T i i ≠ 0) (v : ℕ → R) (hn : n ≤ numTiles L NB)
    (hpos : 1 ≤ n) :
    ∀ i < L, zeroSweep divZero lower side transA mu T down L NB n v i = 0 := by
  induction n with
  | zero => exact absurd hpos (by omega)
  | succ n ih =>
      intro i hi
      obtain ⟨w, hw⟩ : ∃ w, w = zeroSweep divZero lower side transA mu T down L NB n v := ⟨_, rfl⟩
      rw [zeroSweep_succ, ← hw]
      rw [← hw] at ih
      have hsolved : ∀ i ∈ sweepTile down L NB n, tileSolve divZero lower T L NB
          (sweep down (numTiles L NB) n) (solveScale side transA 0 n) w i = 0 := by
        intro i hi
        refine tileSolve_eq_zero lower hNB (sweep_lt hn) ?_ hi
        rcases Nat.eq_zero_or_pos n with rfl | hpos
        · exact .inl (by simp [solveScale])
        · refine .inr ⟨fun j hj => hdiag j (mem_tile_iff.mp hj).1 fun hj0 => ?_,
            ih (Nat.le_of_succ_le hn) hpos⟩
          exact hpos.ne (disjoint_sweepTile 0 (hpos.trans hn) n hn j hj0 hj)
      have hdisj : ∀ m ∈ List.Ico (n + 1) (numTiles L NB), ∀ i ∈ sweepTile down L NB n,
          i ∉ sweepTile down L NB m :=
        fun m hm i hi => notMem_later_sweepTile hn hi m hm
      by_cases htile : i ∈ sweepTile down L NB n
      · exact (foldl_blockUpdate_zero hdisj hsolved i).1 (hsolved i htile)
      · have hframe : tileSolve divZero lower T L NB (sweep down (numTiles L NB) n)
            (solveScale side transA 0 n) w i = w i := if_neg htile
        rcases Nat.eq_zero_or_pos n with rfl | hpos
        · -- the first stage erases the other tiles
          obtain ⟨a, ha, hia⟩ := exists_mem_sweepTile down hNB hi
          have hane : a ≠ 0 := by
            rintro rfl
            exact htile hia
          have hevery : ¬ everyStage side transA := fun h => by
            have := honce h
            omega
          refine (foldl_blockUpdate_zero hdisj hsolved i).2 ?_
            ⟨a, List.Ico.mem.mpr ⟨Nat.one_le_iff_ne_zero.mpr hane, ha⟩, hia⟩
          unfold updateBeta
          rw [if_neg hevery, if_pos rfl]
        · refine (foldl_blockUpdate_zero hdisj hsolved i).1 ?_
          exact hframe.trans (ih (Nat.le_of_succ_le hn) hpos i hi)

/-- An unknown whose element of the diagonal is zero is what the quotients by zero are, from its
stage on. -/
theorem zeroSweep_singular (hNB : 0 < NB) (hevery : ¬ everyStage side transA) (c : R) {i k : ℕ}
    (hi : i ∈ sweepTile down L NB k) (hk : k ≠ 0) (hzero : T i i = 0) (v : ℕ → R)
    (hkn : k < n) (hn : n ≤ numTiles L NB) :
    zeroSweep (fun _ => c) lower side transA mu T down L NB n v i = c := by
  induction n with
  | zero => exact absurd hkn (Nat.not_lt_zero k)
  | succ n ih =>
      rw [zeroSweep_succ]
      rcases Nat.lt_succ_iff_lt_or_eq.mp hkn with hlt | rfl
      · have hother : i ∉ sweepTile down L NB n := fun hin =>
          hlt.ne (disjoint_sweepTile k (hlt.trans hn) n hn i hi hin)
        rw [foldl_blockUpdate_of_notMem fun m hm him => ?_]
        · exact (if_neg hother).trans (ih hlt (Nat.le_of_succ_le hn))
        · obtain ⟨hnm, hmK⟩ := List.Ico.mem.mp hm
          exact (hlt.trans hnm).ne (disjoint_sweepTile k (hlt.trans hn) m hmK i hi him)
      · rw [foldl_blockUpdate_of_notMem (notMem_later_sweepTile hn hi)]
        have hscale : solveScale side transA (0 : R) k = 1 := by
          unfold solveScale
          rw [if_neg hevery, if_neg hk]
        rw [hscale]
        exact tileSolve_singular lower hNB (sweep_lt hn) one_ne_zero c hi hzero

end Solve

section Trsm

variable {R : Type*} [Field R] [StarRing R] [DecidableEq R] {side : Side} {uplo : Uplo}
  {transA : Trans} {diag : Diag} {NB N NRHS L Q c : ℕ} {mu : R} {LDA LDB : ℤ}
  {d : Operand → Descr} {s s₀ : State R} {divZero : R → R}

/-- `xkblas_ztrsm_async` with the quotients of the kernels by zero and the value of the quotient
`-1.0 / *alpha`. -/
def ztrsmAsyncWith (divZero : R → R) (NB : ℕ) (side : Side) (uplo : Uplo) (transA : Trans)
    (diag : Diag) (N NRHS : ℤ) (alpha minvalpha : R) (LDA LDB : ℤ) : Except ℤ (List (Task R)) :=
  panelChecks side N NRHS LDA LDB
    (ztrsmTasksWith divZero (panelDescr NB side N.toNat NRHS.toNat LDA LDB) side uplo transA diag
      alpha minvalpha LDA LDB)

/-- What a call with the factor zero promises, whatever a quotient by zero is: its tasks do not
depend on the quotient `-1.0 / 0`, and they leave `B = 0`. -/
def ZtrsmZeroes (NB : ℕ) (side : Side) (uplo : Uplo) (transA : Trans) (diag : Diag) (N NRHS : ℕ)
    (LDA LDB : ℤ) (s : State R) : Prop :=
  let d := panelDescr NB side N NRHS LDA LDB
  ∀ divZero : R → R, ∃ tasks,
    (∀ minvalpha, ztrsmAsyncWith divZero NB side uplo transA diag N NRHS 0 minvalpha LDA LDB =
      .ok tasks) ∧
    run d tasks s = Function.update s .B
      (store (s .B) 0 (d .B).ld N NRHS (fun _ _ => true) fun _ _ => 0)

/-- The stages after the first one solve no singular system: outside the tile of the first stage no
element of the diagonal is zero. -/
def LaterInvertible (NB : ℕ) (side : Side) (uplo : Uplo) (transA : Trans) (diag : Diag)
    (N NRHS : ℕ) (LDA LDB : ℤ) (s : State R) : Prop :=
  let d := panelDescr NB side N NRHS LDA LDB
  let L := side.order N NRHS
  diag = .unit ∨
    ∀ i < L, i / NB ≠ sweep (trsmDown side uplo transA) (numTiles L NB) 0 → s.get d .A i i ≠ 0

/-- A stage without updates does not depend on the factor of the updates, nor does a sweep that
does not divide. -/
theorem trsmLoopsWith_congr (honce : everyStage side transA → numTiles L NB = 1)
    (alpha mu mu' : R) :
    trsmLoopsWith divZero side uplo transA diag NB L Q alpha mu LDA LDB =
      trsmLoopsWith divZero side uplo transA diag NB L Q alpha mu' LDA LDB := by
  by_cases hevery : everyStage side transA
  · unfold trsmLoopsWith sweepLoops
    refine forLoop_congr fun k _ hk => ?_
    rw [honce hevery] at hk ⊢
    obtain rfl : k = 0 := by omega
    have hempty : List.Ico (0 + 1) 1 = [] := List.Ico.self_empty
    simp only [hempty]
    cases trsmOrder side uplo transA <;> rfl
  · have hupdate : ∀ mu : R, updateAlpha side transA mu = -1 := fun mu => if_neg hevery
    unfold trsmLoopsWith
    simp only [hupdate]

/-- Blocks whose products are one. -/
def unitColumn (R : Type*) [Zero R] [One R] : Block R := fun _ l => if l = 0 then 1 else 0

/-- An update with this factor, of such blocks. -/
theorem lineGemm_unitColumn (htrans : transA ≠ .noTrans) {p q k : ℕ} (hk : 1 ≤ tileSize L NB k) :
    (lineGemm .right transA NB L Q mu LDA LDB 1 p q k).value (fun _ => unitColumn R) 0 0 =
      mu + 1 := by
  have hop : ∀ l, transA.op (unitColumn R) l 0 = if l = 0 then 1 else 0 := by
    intro l
    cases transA with
    | noTrans => exact absurd rfl htrans
    | trans => rfl
    | conjTrans =>
        show star (if l = 0 then (1 : R) else 0) = _
        rw [apply_ite star, star_one, star_zero]
  have hsum : ∑ l ∈ range (tileSize L NB k), unitColumn R 0 l * transA.op (unitColumn R) l 0 = 1 := by
    rw [sum_eq_single 0]
    · rw [hop 0]
      exact mul_one 1
    · intro l _ hl
      rw [hop l, if_neg hl, mul_zero]
    · exact fun h => absurd (mem_range.mpr hk) h
  show mu * ∑ l ∈ range (tileSize L NB k), unitColumn R 0 l * transA.op (unitColumn R) l 0 +
    1 * unitColumn R 0 0 = mu + 1
  rw [hsum, mul_one, one_mul]
  rfl

/-- With several tiles the quotient reaches a task. -/
theorem trsmLoopsWith_ne (h : PanelTiled d .right NB L Q LDA LDB) (htrans : transA ≠ .noTrans)
    (hQ : 1 ≤ Q) (htwo : 1 < numTiles L NB) :
    trsmLoopsWith divZero .right uplo transA diag NB L Q (0 : R) 0 LDA LDB ≠
      trsmLoopsWith divZero .right uplo transA diag NB L Q 0 1 LDA LDB := by
  intro heq
  have hevery : everyStage .right transA := ⟨rfl, htrans⟩
  obtain ⟨down, hdown⟩ : ∃ down, down = trsmDown .right uplo transA := ⟨_, rfl⟩
  have hsize : ∀ k < numTiles L NB, 1 ≤ tileSize L NB (sweep down (numTiles L NB) k) :=
    fun k hk => tileSize_pos h.pos (sweep_lt hk)
  -- the first update, which is a task of both lists
  obtain ⟨t, ht⟩ : ∃ t : Task R, t = lineGemm .right transA NB L Q 0 LDA LDB 1
    (sweep down (numTiles L NB) 1) 0 (sweep down (numTiles L NB) 0) := ⟨_, rfl⟩
  have hmem : t ∈ trsmLoopsWith divZero .right uplo transA diag NB L Q (0 : R) 0 LDA LDB := by
    refine mem_forLoop.mpr ⟨0, ⟨le_rfl, by omega⟩, mem_stageLoops.mpr ⟨0,
      numTiles_pos h.pos hQ, .inr ⟨1, List.Ico.mem.mpr ⟨le_rfl, htwo⟩, ?_⟩⟩⟩
    have hbeta : updateBeta .right transA (0 : R) 0 = 1 := if_pos hevery
    have halpha : updateAlpha .right transA (0 : R) = 0 := if_pos hevery
    refine List.mem_singleton.mpr ?_
    rw [ht, hdown, hbeta, halpha]
  have hvalue : t.value (fun _ => unitColumn R) 0 0 = 1 := by
    rw [ht, lineGemm_unitColumn htrans (hsize 0 (by omega)), zero_add]
  rw [heq] at hmem
  obtain ⟨k, ⟨_, hk⟩, hmem⟩ := mem_forLoop.mp hmem
  obtain ⟨q, _, hmem | ⟨m, _, hmem⟩⟩ := mem_stageLoops.mp hmem
  · -- a task on the diagonal reads one tile
    have hinputs := congrArg (fun t : Task R => t.inputs.length) (ht.symm.trans
      (List.mem_singleton.mp hmem))
    exact absurd hinputs (by simp [lineGemm, gemmTask, insertTaskZgemm, lineTrsm, insertTaskZtrsmWith])
  · have hbeta : updateBeta .right transA (0 : R) k = 1 := if_pos hevery
    have halpha : updateAlpha .right transA (1 : R) = 1 := if_pos hevery
    have htask := List.mem_singleton.mp hmem
    rw [hbeta, halpha, ← hdown] at htask
    rw [htask, lineGemm_unitColumn htrans (hsize k hk)] at hvalue
    exact one_ne_zero (add_eq_left.mp hvalue)

omit [DecidableEq R] in
/-- The diagonal of the matrix of the system. -/
theorem matrix_diag_eq_zero (a : Block R) (i : ℕ) :
    side.matrix uplo transA diag a i i = 0 ↔ diag ≠ .unit ∧ a i i = 0 := by
  have htri : triangular uplo diag a i i = 0 ↔ diag ≠ .unit ∧ a i i = 0 := by
    unfold triangular
    rw [if_pos rfl]
    cases diag <;> simp
  rw [← htri]
  cases side <;> cases transA <;> simp [Side.matrix, Side.lines, Trans.op]

/-- `B` after the loops with the factor zero. -/
theorem run_trsmLoops_zero (h : PanelTiled d side NB L Q LDA LDB)
    (honce : everyStage side transA → numTiles L NB = 1)
    (hdiag : ∀ i < L, i ∉ sweepTile (trsmDown side uplo transA) L NB 0 →
      side.matrix uplo transA diag (s.get d .A) i i ≠ 0) :
    run d (trsmLoopsWith divZero side uplo transA diag NB L Q 0 mu LDA LDB) s =
      Function.update s .B
        (store (s .B) 0 (d .B).ld (d .B).M (d .B).N (fun _ _ => true) fun _ _ => 0) := by
  refine run_eq_of_lines h.valid h.B (fun t ht => ?_) fun c hc =>
    ⟨_, acts_trsmLoops h hc, fun i hi => ?_⟩
  · obtain ⟨⟨_, _, ht⟩, _⟩ := mem_trsmLoops h ht
    exact ⟨ht.stores, ht.mat⟩
  · have hzero := zeroSweep_eq_zero divZero mu (side.triangle uplo transA = .lower) h.pos honce hdiag
      (s.line d side L c) le_rfl
      (numTiles_pos h.pos (Nat.lt_of_le_of_lt (Nat.zero_le i) hi)) i hi
    refine hzero.trans ?_
    cases side <;> rfl

variable (mu) in
/-- An element of `B` after the loops, in the row or column of a zero of the diagonal. -/
theorem get_run_trsmLoops_singular (h : PanelTiled d side NB L Q LDA LDB)
    (hevery : ¬ everyStage side transA) (x : R) {i : ℕ} (hi : i < L) (hc : c < Q)
    (hfirst : i ∉ sweepTile (trsmDown side uplo transA) L NB 0)
    (hzero : side.matrix uplo transA diag (s.get d .A) i i = 0) :
    side.lines.op ((run d (trsmLoopsWith (fun _ => x) side uplo transA diag NB L Q 0 mu LDA LDB)
      s).get d .B) i c = x := by
  obtain ⟨k, hk, hik⟩ := exists_mem_sweepTile (trsmDown side uplo transA) h.pos hi
  have hk0 : k ≠ 0 := by
    rintro rfl
    exact hfirst hik
  rw [← State.line_of_lt hi, (acts_trsmLoops h hc).run_line]
  exact zeroSweep_singular h.pos hevery x hik hk0 hzero _ hk le_rfl

/-- `xkblas_ztrsm_async` with the factor zero leaves `B = 0` and keeps the quotient out of its
tasks, but for the solves on the right with a transposed matrix of several tiles, and but for
singular systems after the first stage. -/
theorem ztrsm_zeroes_iff (hN : 1 ≤ N) (hNRHS : 1 ≤ NRHS) (hNB : 1 ≤ NB)
    (hA : AdmissibleLd LDA (side.order N NRHS)) (hB : AdmissibleLd LDB N) (s : State R) :
    ZtrsmZeroes NB side uplo transA diag N NRHS LDA LDB s ↔
      (side = .left ∨ transA = .noTrans ∨ NRHS ≤ NB) ∧
        LaterInvertible NB side uplo transA diag N NRHS LDA LDB s := by
  have h := panelDescr_tiled hNB hA hB
  have hok : ∀ (divZero : R → R) (mu : R),
      ztrsmAsyncWith divZero NB side uplo transA diag N NRHS 0 mu LDA LDB =
        .ok (trsmLoopsWith divZero side uplo transA diag NB (side.order N NRHS)
          (side.count N NRHS) 0 mu LDA LDB) := by
    intro divZero mu
    refine (panelChecks_ok hN hNRHS hA hB _).trans ?_
    simp only [Int.toNat_natCast]
    rw [ztrsmTasksWith_eq hNB]
  have honce : (side = .left ∨ transA = .noTrans ∨ NRHS ≤ NB) → everyStage side transA →
      numTiles (side.order N NRHS) NB = 1 := by
    rintro hcond ⟨rfl, htrans⟩
    have hle : NRHS ≤ NB := (hcond.resolve_left (by decide)).resolve_left htrans
    refine Nat.le_antisymm (Nat.le_of_not_lt fun hlt => ?_) (numTiles_pos hNB hNRHS)
    have hwide : 1 * NB < NRHS := (lt_numTiles hNB).mp hlt
    omega
  constructor
  · intro hzeroes
    have hfirst : side = .left ∨ transA = .noTrans ∨ NRHS ≤ NB := by
      by_contra hcond
      push Not at hcond
      obtain ⟨hside, htrans, hlt⟩ := hcond
      obtain rfl : side = .right := by
        cases side with
        | left => exact absurd rfl hside
        | right => rfl
      have htwo : 1 < numTiles NRHS NB := (lt_numTiles hNB).mpr (by omega)
      obtain ⟨tasks, htasks, _⟩ := hzeroes fun _ => 0
      have heq := Except.ok.inj
        (((hok _ 0).symm.trans (htasks 0)).trans ((htasks 1).symm.trans (hok _ 1)))
      exact trsmLoopsWith_ne h htrans hN htwo heq
    refine ⟨hfirst, ?_⟩
    rw [LaterInvertible, or_iff_not_imp_left]
    intro hdiag i hi hstage hzero
    have hevery : ¬ everyStage side transA := by
      intro hevery
      -- the only tile is that of the first stage
      have hlt := div_lt_numTiles hNB hi
      rw [honce hfirst hevery] at hlt hstage
      have hstage₀ : sweep (trsmDown side uplo transA) 1 0 = 0 := Nat.lt_one_iff.mp (sweep_lt one_pos)
      exact hstage ((Nat.lt_one_iff.mp hlt).trans hstage₀.symm)
    obtain ⟨tasks, htasks, hrun⟩ := hzeroes fun _ => 1
    obtain rfl := Except.ok.inj ((htasks 0).symm.trans (hok _ 0))
    have hcount : 0 < side.count N NRHS := by
      cases side
      · exact hNRHS
      · exact hN
    -- the quotient by zero is an element of `B`
    have hone := get_run_trsmLoops_singular 0 h hevery 1 hi hcount
      (fun hmem => hstage (mem_tile_iff.mp hmem).2)
      ((matrix_diag_eq_zero _ i).mpr ⟨hdiag, hzero⟩)
    rw [hrun] at hone
    have hget : ∀ i < N, ∀ j < NRHS, State.get (Function.update s .B (store (s .B) 0 _ N NRHS
        (fun _ _ => true) fun _ _ => 0)) (panelDescr NB side N NRHS LDA LDB) .B i j = 0 :=
      fun i hi j hj => (get_update_store (h.valid .B) rfl hi hj).trans (if_pos rfl)
    cases side with
    | left => exact zero_ne_one ((hget i hi 0 hNRHS).symm.trans hone)
    | right => exact zero_ne_one ((hget 0 hN i hi).symm.trans hone)
  · intro ⟨hcond, hlater⟩ divZero
    refine ⟨_, fun mu => (hok divZero mu).trans
      (congrArg _ (trsmLoopsWith_congr (honce hcond) 0 mu 0)), ?_⟩
    refine run_trsmLoops_zero h (honce hcond) fun i hi hfirst => ?_
    rw [Ne, matrix_diag_eq_zero]
    rintro ⟨hdiag, hzero⟩
    exact hlater.resolve_left hdiag i hi (fun hstage => hfirst (mem_tile_iff.mpr ⟨hi, hstage⟩))
      hzero

/-! ## Both -/

variable {alpha beta : R} {LDA' LDB' LDC' : ℤ} {c : ProductCall}

/-- An empty product scales `C` exactly when there is nothing to scale, and a solve with the factor
zero leaves `B = 0` and keeps divisions by zero out of its tasks exactly when its loops do not use
the quotient and its later stages solve no singular system. -/
theorem degenerate_calls_iff (hNB : 1 ≤ NB) (hc : c.Legal 0 LDA' LDB' LDC') (hN : 1 ≤ N)
    (hNRHS : 1 ≤ NRHS) (hA : AdmissibleLd LDA (side.order N NRHS)) (hB : AdmissibleLd LDB N) :
    (c.Scales NB alpha LDA' LDB' beta LDC' ↔ beta = 1) ∧
      ∀ s : State R, ZtrsmZeroes NB side uplo transA diag N NRHS LDA LDB s ↔
        (side = .left ∨ transA = .noTrans ∨ NRHS ≤ NB) ∧
          LaterInvertible NB side uplo transA diag N NRHS LDA LDB s :=
  ⟨ProductCall.scales_iff hNB hc, ztrsm_zeroes_iff hN hNRHS hNB hA hB⟩

/-- The elements of a matrix of order two with the diagonal `(1, 0)`, and of a column. -/
def singularState (R : Type*) [Zero R] [One R] : State R := fun _ i => if i = 0 then 1 else 0

/-- An empty product with the factor one, and a solve on the left whose second tile is singular and
is the one of the first stage. -/
theorem degenerate_calls_orderTwo :
    (ProductCall.zgemm .noTrans .trans 2 2).Scales 1 (3 : ℚ) 2 2 1 2 ∧
      ZtrsmZeroes 1 .left .upper .noTrans .nonUnit 2 1 2 2 (singularState ℚ) := by
  have h : ((ProductCall.zgemm .noTrans .trans 2 2).Scales 1 (3 : ℚ) 2 2 1 2 ↔ (1 : ℚ) = 1) ∧
      ∀ s : State ℚ, ZtrsmZeroes 1 .left .upper .noTrans .nonUnit 2 1 2 2 s ↔
        (Side.left = .left ∨ Trans.noTrans = .noTrans ∨ 1 ≤ 1) ∧
          LaterInvertible 1 .left .upper .noTrans .nonUnit 2 1 2 2 s :=
    degenerate_calls_iff le_rfl (by decide) (by decide) (by decide) ⟨by decide, by decide⟩
      ⟨by decide, by decide⟩
  refine ⟨h.1.mpr rfl, (h.2 _).mpr ⟨.inl rfl, .inr ?_⟩⟩
  decide

/-- An empty product with the factor zero leaves a matrix of order one as it is, a solve on the
right with a transposed matrix of two tiles divides by zero, and so does a solve on the left whose
second stage is singular. -/
theorem degenerate_calls_wrong :
    ¬ (ProductCall.zgemm .noTrans .noTrans 1 1).Scales 1 (1 : ℚ) 1 1 0 1 ∧
      ¬ ZtrsmZeroes 1 .right .upper .trans .nonUnit 1 2 2 1 (fun _ _ => (1 : ℚ)) ∧
        ¬ ZtrsmZeroes 1 .left .upper .trans .nonUnit 2 1 2 2 (singularState ℚ) := by
  refine ⟨fun h => ?_, fun h => ?_, fun h => ?_⟩
  · exact zero_ne_one ((ProductCall.scales_iff le_rfl (by decide)).mp h)
  · exact absurd ((ztrsm_zeroes_iff (by decide) (by decide) le_rfl ⟨by decide, by decide⟩
      ⟨by decide, by decide⟩ _).mp h).1 (by decide)
  · have hlater := ((ztrsm_zeroes_iff (by decide) (by decide) le_rfl ⟨by decide, by decide⟩
      ⟨by decide, by decide⟩ _).mp h).2
    exact hlater.resolve_left (by decide) 1 (by decide) (by decide) rfl

end Trsm

end Xkblas.Blas
