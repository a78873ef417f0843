import Xkblas.Blas.PassedTiles
import Xkblas.Library.TileTriangle

/-!
# The tasks of a coherence request

`xkblas_memory_coherent_async` creates a task that writes a tile back to the host for every tile
of a part of the matrix and, on request, a task that invalidates the replicas of a tile for every
other one. The part is the whole matrix or one of its triangles, and its four loop nests go over
the grid of tiles of the descriptor.

The placement of the tasks is left out, and so is what they do (`Xkblas.Memory.Replica`
and `Xkblas.Memory.Invalidate` have the data they move).
-/

namespace Xkblas.Blas

open Library

/-- The two kinds of tasks. -/
inductive CoherenceKind where
  | writeback
  | invalidate
  deriving DecidableEq, Repr

/-- A task: its kind, its tile with the sizes of its view, the handle that it accesses and the
mode of the access. -/
structure CoherenceTask where
  kind : CoherenceKind
  m : ℕ
  n : ℕ
  rows : ℕ
  cols : ℕ
  ld : ℕ
  eltsize : ℕ
  handle : ℕ
  mode : Mode
  deriving DecidableEq, Repr

/-- The task that both functions create, with `xkblas_get_handle`. -/
def createTask (kind : CoherenceKind) (mode : Mode) (Ah : Descr) (m n ld eltsize : ℕ) :
    CoherenceTask where
  kind := kind
  m := m
  n := n
  rows := tempSize Ah.mt Ah.M Ah.mb m
  cols := tempSize Ah.nt Ah.N Ah.nb n
  ld := ld
  eltsize := eltsize
  handle := m * Ah.nt + n
  mode := mode

section

variable (kind : CoherenceKind) (mode : Mode) (Ah : Descr) (m n ld eltsize : ℕ)

@[simp] theorem createTask_kind : (createTask kind mode Ah m n ld eltsize).kind = kind :=
  rfl

@[simp] theorem createTask_m : (createTask kind mode Ah m n ld eltsize).m = m :=
  rfl

@[simp] theorem createTask_n : (createTask kind mode Ah m n ld eltsize).n = n :=
  rfl

end

/-- `xkblas_create_taskwriteback`. -/
def createTaskWriteback (Ah : Descr) (m n ld eltsize : ℕ) : CoherenceTask :=
  createTask .writeback .r Ah m n ld eltsize

/-- `xkblas_create_taskinvalidate`. -/
def createTaskInvalidate (Ah : Descr) (m n ld eltsize : ℕ) : CoherenceTask :=
  createTask .invalidate .rw Ah m n ld eltsize

/-- `CblasUpper`. -/
def cblasUpper : ℤ := 121

/-- `CblasLower`. -/
def cblasLower : ℤ := 122

/-- `xkblas_memory_coherent_async`: the tasks that it creates, unless it aborts. A matrix that is
not known has no descriptor. -/
def memoryCoherentAsync (useUnified : Bool) (uplo memflag : ℤ) (Ah : Option Descr)
    (LD eltsize : ℕ) : Option (List CoherenceTask) :=
  if useUnified then some []
  else
    match Ah with
    | none => some []
    | some Ah =>
        if uplo = 0 then
          some <| forLoop 0 Ah.mt fun m => forLoop 0 Ah.nt fun n =>
            [createTaskWriteback Ah m n LD eltsize]
        else if uplo = cblasUpper then
          some <|
            (forLoop 0 Ah.mt fun m => forLoop m Ah.nt fun n =>
              [createTaskWriteback Ah m n LD eltsize]) ++
            if memflag = 1 then
              forLoop 0 Ah.mt fun m => forLoop 0 m fun n =>
                [createTaskInvalidate Ah m n LD eltsize]
            else []
        else if uplo = cblasLower then
          some <|
            (forLoop 0 Ah.mt fun m =>
              let min := if m + 1 < Ah.nt then m + 1 else Ah.nt
              forLoop 0 min fun n => [createTaskWriteback Ah m n LD eltsize]) ++
            if memflag = 1 then
              forLoop 0 Ah.mt fun m => forLoop (m + 1) Ah.nt fun n =>
                [createTaskInvalidate Ah m n LD eltsize]
            else []
        else none

/-! ## What the request asks for -/

/-- The tile holds an element of the part of the matrix that `uplo` selects. -/
def Selected (Ah : Descr) (uplo : ℤ) (m n : ℕ) : Prop :=
  (uplo = cblasUpper → ∃ i ∈ tile Ah.M Ah.mb m, ∃ j ∈ tile Ah.N Ah.nb n, i ≤ j) ∧
    (uplo = cblasLower → ∃ j ∈ tile Ah.N Ah.nb n, ∃ i ∈ tile Ah.M Ah.mb m, j ≤ i)

instance (Ah : Descr) (uplo : ℤ) (m n : ℕ) : Decidable (Selected Ah uplo m n) :=
  inferInstanceAs (Decidable ((_ → _) ∧ (_ → _)))

/-- The number of tasks of a kind on a tile. -/
def tasksOn (kind : CoherenceKind) (m n : ℕ) (tasks : List CoherenceTask) : ℕ :=
  (tasks.filter fun t => decide (t.kind = kind ∧ t.m = m ∧ t.n = n)).length

/-- The tasks write back the selected part and, when `memflag` is 1, invalidate the rest. -/
structure CoversPart (Ah : Descr) (uplo memflag : ℤ) (tasks : List CoherenceTask) : Prop where
  exists_tile : ∀ t ∈ tasks, t.m < Ah.mt ∧ t.n < Ah.nt
  size : ∀ t ∈ tasks, t.rows = tileSize Ah.M Ah.mb t.m ∧ t.cols = tileSize Ah.N Ah.nb t.n
  writeback : ∀ m < Ah.mt, ∀ n < Ah.nt,
    tasksOn .writeback m n tasks = if Selected Ah uplo m n then 1 else 0
  invalidate : ∀ m < Ah.mt, ∀ n < Ah.nt,
    tasksOn .invalidate m n tasks = if memflag = 1 ∧ ¬ Selected Ah uplo m n then 1 else 0

/-- The request does what it is for. With unified memory there is nothing to do. -/
def MemoryCoherent (useUnified : Bool) (uplo memflag : ℤ) (Ah : Descr) (LD eltsize : ℕ) : Prop :=
  uplo = 0 ∨ uplo = cblasUpper ∨ uplo = cblasLower →
    ∃ tasks, memoryCoherentAsync useUnified uplo memflag (some Ah) LD eltsize = some tasks ∧
      if useUnified then tasks = [] else CoversPart Ah uplo memflag tasks

/-- The tiles of the triangle are those above or below the diagonal of the grid, and the grid has
no row whose tiles below the diagonal go beyond the last column. -/
structure FitsGrid (Ah : Descr) (uplo memflag : ℤ) : Prop where
  upper : uplo = cblasUpper → Staircase Ah.mb Ah.mt Ah.N Ah.nb Ah.nt
  lower : uplo = cblasLower → Staircase Ah.nb Ah.nt Ah.M Ah.mb Ah.mt
  wide : uplo = cblasUpper → memflag = 1 → Ah.mt ≤ Ah.nt + 1

/-- Square tiles always give the triangle of the grid. -/
theorem fitsGrid_of_square {Ah : Descr} (h : Ah.Counts) (hsquare : Ah.mb = Ah.nb)
    {uplo memflag : ℤ} (hwide : uplo = cblasUpper → memflag = 1 → Ah.mt ≤ Ah.nt + 1) :
    FitsGrid Ah uplo memflag where
  upper := fun _ => by
    rw [h.nt_eq, hsquare]
    exact staircase_of_square h.nb_pos
  lower := fun _ => by
    rw [h.mt_eq, hsquare]
    exact staircase_of_square h.nb_pos
  wide := hwide

/-! ## The loop nests -/

section LoopNest

variable {Ah : Descr} {kind kind' : CoherenceKind} {mode : Mode} {m n hi LD eltsize : ℕ}
  {lo' hi' : ℕ → ℕ} {uplo memflag : ℤ} {tasks tasks' : List CoherenceTask}

theorem tasksOn_append :
    tasksOn kind m n (tasks ++ tasks') = tasksOn kind m n tasks + tasksOn kind m n tasks' := by
  unfold tasksOn
  rw [List.filter_append, List.length_append]

theorem tasksOn_nil : tasksOn kind m n [] = 0 :=
  rfl

/-- The tiles of a loop nest. -/
theorem mem_nest {t : CoherenceTask} :
    (t ∈ forLoop 0 hi fun m => forLoop (lo' m) (hi' m) fun n =>
        [createTask kind mode Ah m n LD eltsize]) ↔
      ∃ m < hi, ∃ n, (lo' m ≤ n ∧ n < hi' m) ∧ t = createTask kind mode Ah m n LD eltsize := by
  simp only [mem_forLoop, List.mem_singleton, Nat.zero_le, true_and]

/-- A loop nest makes one task of its kind on each tile that it visits. -/
theorem tasksOn_nest :
    tasksOn kind' m n (forLoop 0 hi fun m => forLoop (lo' m) (hi' m) fun n =>
        [createTask kind mode Ah m n LD eltsize]) =
      if kind = kind' ∧ m < hi ∧ lo' m ≤ n ∧ n < hi' m then 1 else 0 := by
  have hone : ∀ m' n', ([createTask kind mode Ah m' n' LD eltsize].filter fun t =>
      decide (t.kind = kind' ∧ t.m = m ∧ t.n = n)) =
        if kind = kind' ∧ m' = m ∧ n' = n then [createTask kind mode Ah m' n' LD eltsize]
        else [] := by
    intro m' n'
    simp only [List.filter_singleton, createTask_kind, createTask_m, createTask_n,
      Bool.cond_eq_ite]
    exact if_congr decide_eq_true_iff rfl rfl
  unfold tasksOn
  simp only [filter_forLoop, hone]
  split
  next hvisit =>
    obtain ⟨hkind, hm, hlo, hhi⟩ := hvisit
    rw [forLoop_single (Nat.zero_le m) hm fun m' _ _ hne =>
        forLoop_nil fun n' _ _ => if_neg fun htask => hne htask.2.1,
      forLoop_single hlo hhi fun n' _ _ hne => if_neg fun htask => hne htask.2.2,
      if_pos ⟨hkind, rfl, rfl⟩]
    rfl
  next hvisit =>
    rw [forLoop_nil fun m' _ hm' => forLoop_nil fun n' hlo hhi => if_neg ?_]
    · rfl
    · rintro ⟨hkind, rfl, rfl⟩
      exact hvisit ⟨hkind, hm', hlo, hhi⟩

/-- The tasks of a loop nest are on tiles of the grid when its bounds are in the grid. -/
theorem tile_of_nest (h : Ah.Counts)
    (hbounds : ∀ m < Ah.mt, ∀ n, lo' m ≤ n → n < hi' m → n < Ah.nt)
    {t : CoherenceTask} (ht : t ∈ forLoop 0 Ah.mt fun m => forLoop (lo' m) (hi' m) fun n =>
      [createTask kind mode Ah m n LD eltsize]) :
    (t.m < Ah.mt ∧ t.n < Ah.nt) ∧
      t.rows = tileSize Ah.M Ah.mb t.m ∧ t.cols = tileSize Ah.N Ah.nb t.n := by
  obtain ⟨m, hm, n, ⟨hlo, hhi⟩, rfl⟩ := mem_nest.mp ht
  have hn : n < Ah.nt := hbounds m hm n hlo hhi
  refine ⟨⟨hm, hn⟩, ?_, ?_⟩
  · show tempSize Ah.mt Ah.M Ah.mb m = _
    rw [h.mt_eq] at hm ⊢
    exact tempSize_eq h.mb_pos hm
  · show tempSize Ah.nt Ah.N Ah.nb n = _
    rw [h.nt_eq] at hn ⊢
    exact tempSize_eq h.nb_pos hn

/-- Two counts of at most one task. -/
theorem ite_one_eq_iff {p q : Prop} [Decidable p] [Decidable q] :
    (if p then 1 else 0) = (if q then 1 else 0) ↔ (p ↔ q) := by
  by_cases hp : p <;> by_cases hq : q <;> simp [hp, hq]

/-- The two loop nests of a triangle: the tiles that are written back, and on request the others,
which are invalidated. -/
def coherenceNests (Ah : Descr) (memflag : ℤ) (LD eltsize : ℕ) (lo' hi' lo hi : ℕ → ℕ) :
    List CoherenceTask :=
  (forLoop 0 Ah.mt fun m => forLoop (lo' m) (hi' m) fun n =>
      [createTaskWriteback Ah m n LD eltsize]) ++
    if memflag = 1 then
      forLoop 0 Ah.mt fun m => forLoop (lo m) (hi m) fun n =>
        [createTaskInvalidate Ah m n LD eltsize]
    else []

variable {lo hi : ℕ → ℕ}

theorem tasksOn_writeback (hm : m < Ah.mt) :
    tasksOn .writeback m n (coherenceNests Ah memflag LD eltsize lo' hi' lo hi) =
      if lo' m ≤ n ∧ n < hi' m then 1 else 0 := by
  unfold coherenceNests createTaskWriteback createTaskInvalidate
  rw [tasksOn_append, tasksOn_nest]
  simp only [hm, true_and]
  split_ifs <;> simp [tasksOn_nest, tasksOn_nil]

theorem tasksOn_invalidate (hm : m < Ah.mt) :
    tasksOn .invalidate m n (coherenceNests Ah memflag LD eltsize lo' hi' lo hi) =
      if memflag = 1 ∧ lo m ≤ n ∧ n < hi m then 1 else 0 := by
  unfold coherenceNests createTaskWriteback createTaskInvalidate
  rw [tasksOn_append, tasksOn_nest]
  by_cases hflag : memflag = 1
  · simp [hflag, hm, tasksOn_nest]
  · simp [hflag, tasksOn_nil]

/-- The nests cover a part when the tiles of the first one are those of the part and those of the
second one, which complete them, do not go beyond the last column. -/
theorem coversPart_iff (h : Ah.Counts) (hin : ∀ m < Ah.mt, hi' m ≤ Ah.nt)
    (hrest : ∀ m < Ah.mt, ∀ n < Ah.nt, (lo m ≤ n ∧ n < hi m ↔ ¬ (lo' m ≤ n ∧ n < hi' m))) :
    CoversPart Ah uplo memflag (coherenceNests Ah memflag LD eltsize lo' hi' lo hi) ↔
      (∀ m < Ah.mt, ∀ n < Ah.nt, (lo' m ≤ n ∧ n < hi' m ↔ Selected Ah uplo m n)) ∧
        (memflag = 1 → ∀ m < Ah.mt, ∀ n, lo m ≤ n → n < hi m → n < Ah.nt) := by
  constructor
  · intro hc
    constructor
    · intro m hm n hn
      have hcount := hc.writeback m hm n hn
      rwa [tasksOn_writeback hm, ite_one_eq_iff] at hcount
    · intro hflag m hm n hlo hhi
      have htask : createTaskInvalidate Ah m n LD eltsize ∈
          coherenceNests Ah memflag LD eltsize lo' hi' lo hi := by
        unfold coherenceNests
        rw [if_pos hflag]
        exact List.mem_append_right _ (mem_nest.mpr ⟨m, hm, n, ⟨hlo, hhi⟩, rfl⟩)
      exact (hc.exists_tile _ htask).2
  · rintro ⟨hpart, hbounds⟩
    have htiles : ∀ t ∈ coherenceNests Ah memflag LD eltsize lo' hi' lo hi,
        (t.m < Ah.mt ∧ t.n < Ah.nt) ∧
          t.rows = tileSize Ah.M Ah.mb t.m ∧ t.cols = tileSize Ah.N Ah.nb t.n := by
      intro t ht
      rcases List.mem_append.mp ht with ht | ht
      · exact tile_of_nest h (fun m hm n _ hn => hn.trans_le (hin m hm)) ht
      · by_cases hflag : memflag = 1
        · rw [if_pos hflag] at ht
          exact tile_of_nest h (hbounds hflag) ht
        · rw [if_neg hflag] at ht
          exact absurd ht List.not_mem_nil
    refine ⟨fun t ht => (htiles t ht).1, fun t ht => (htiles t ht).2, ?_, ?_⟩
    · intro m hm n hn
      rw [tasksOn_writeback hm, ite_one_eq_iff]
      exact hpart m hm n hn
    · intro m hm n hn
      rw [tasksOn_invalidate hm, ite_one_eq_iff, ← hpart m hm n hn, hrest m hm n hn]

/-! ## The request -/

theorem cblasUpper_ne_cblasLower : cblasUpper ≠ cblasLower := by
  decide

/-- The selected tiles of the upper triangle. -/
theorem selected_upper (h : Ah.Counts) (hm : m < Ah.mt) (hn : n < Ah.nt) :
    Selected Ah cblasUpper m n ↔ m * Ah.mb < min Ah.N ((n + 1) * Ah.nb) := by
  rw [h.mt_eq] at hm
  rw [h.nt_eq] at hn
  rw [← exists_le_iff h.mb_pos h.nb_pos hm hn]
  constructor
  · exact fun hselected => hselected.1 rfl
  · exact fun hmeets => ⟨fun _ => hmeets, fun heq => absurd heq cblasUpper_ne_cblasLower⟩

/-- Those of the lower triangle, where the columns take the place of the rows. -/
theorem selected_lower (h : Ah.Counts) (hm : m < Ah.mt) (hn : n < Ah.nt) :
    Selected Ah cblasLower m n ↔ n * Ah.nb < min Ah.M ((m + 1) * Ah.mb) := by
  rw [h.mt_eq] at hm
  rw [h.nt_eq] at hn
  rw [← exists_le_iff h.nb_pos h.mb_pos hn hm]
  constructor
  · exact fun hselected => hselected.2 rfl
  · exact fun hmeets => ⟨fun heq => absurd heq.symm cblasUpper_ne_cblasLower, fun _ => hmeets⟩

theorem selected_all (Ah : Descr) (m n : ℕ) : Selected Ah 0 m n :=
  ⟨fun heq => absurd heq (by decide), fun heq => absurd heq (by decide)⟩

/-- The whole matrix is written back, and no tile is left to invalidate. -/
theorem coversPart_all (h : Ah.Counts) :
    CoversPart Ah 0 memflag (forLoop 0 Ah.mt fun m => forLoop 0 Ah.nt fun n =>
      [createTaskWriteback Ah m n LD eltsize]) := by
  have hnests : CoversPart Ah 0 memflag (coherenceNests Ah memflag LD eltsize (fun _ => 0)
      (fun _ => Ah.nt) (fun _ => 0) fun _ => 0) := by
    refine (coversPart_iff h (fun _ _ => le_rfl) fun m _ n hn => by simp [hn]).mpr ⟨?_, ?_⟩
    · exact fun m _ n hn => by simp [hn, selected_all]
    · exact fun _ m _ n _ hn => absurd hn (Nat.not_lt_zero n)
  have hempty : (forLoop 0 Ah.mt fun m => forLoop 0 0 fun n =>
      [createTaskInvalidate Ah m n LD eltsize]) = [] :=
    forLoop_nil fun _ _ _ => forLoop_nil fun n _ hn => absurd hn (Nat.not_lt_zero n)
  unfold coherenceNests at hnests
  rwa [hempty, ite_self, List.append_nil] at hnests

/-- The upper triangle, where the loop over the other tiles is not cut at the last column. -/
theorem coversPart_upper (h : Ah.Counts) :
    CoversPart Ah cblasUpper memflag
        (coherenceNests Ah memflag LD eltsize (fun m => m) (fun _ => Ah.nt) (fun _ => 0)
          fun m => m) ↔
      Staircase Ah.mb Ah.mt Ah.N Ah.nb Ah.nt ∧ (memflag = 1 → Ah.mt ≤ Ah.nt + 1) := by
  rw [coversPart_iff h (fun _ _ => le_rfl) fun m _ n hn => by omega, staircase_iff]
  refine and_congr ?_ (imp_congr_right fun _ => ?_)
  · refine forall₂_congr fun m hm => forall₂_congr fun n hn => ?_
    rw [selected_upper h hm hn, and_iff_left hn]
  · constructor
    · intro hbounds
      by_contra hlt
      -- the last tile below the diagonal in the last row
      have hlast := hbounds (Ah.mt - 1) (by omega) (Ah.mt - 2) (Nat.zero_le _) (by omega)
      omega
    · intro hwide m hm n _ hn
      omega

/-- The lower triangle, whose loop is cut at the last column. -/
theorem coversPart_lower (h : Ah.Counts) :
    CoversPart Ah cblasLower memflag
        (coherenceNests Ah memflag LD eltsize (fun _ => 0)
          (fun m => if m + 1 < Ah.nt then m + 1 else Ah.nt) (fun m => m + 1) fun _ => Ah.nt) ↔
      Staircase Ah.nb Ah.nt Ah.M Ah.mb Ah.mt := by
  have hcut : ∀ m n, n < Ah.nt → (n < (if m + 1 < Ah.nt then m + 1 else Ah.nt) ↔ n ≤ m) := by
    intro m n hn
    split <;> omega
  rw [coversPart_iff h (fun m _ => by split <;> omega)
      fun m _ n hn => by rw [hcut m n hn]; omega,
    and_iff_left fun _ _ _ _ _ hn => hn, staircase_iff]
  constructor
  · intro hpart n hn m hm
    have hselected := hpart m hm n hn
    rwa [hcut m n hn, selected_lower h hm hn, and_iff_right (Nat.zero_le n)] at hselected
  · intro hstairs m hm n hn
    rw [hcut m n hn, selected_lower h hm hn, and_iff_right (Nat.zero_le n)]
    exact hstairs n hn m hm

/-- A request that creates these tasks. -/
theorem memoryCoherent_of_eq
    (hrun : memoryCoherentAsync false uplo memflag (some Ah) LD eltsize = some tasks)
    (hlegal : uplo = 0 ∨ uplo = cblasUpper ∨ uplo = cblasLower) :
    MemoryCoherent false uplo memflag Ah LD eltsize ↔ CoversPart Ah uplo memflag tasks := by
  unfold MemoryCoherent
  rw [hrun]
  constructor
  · intro h
    obtain ⟨_, heq, hcovers⟩ := h hlegal
    rw [Option.some.inj heq]
    exact hcovers
  · exact fun hcovers _ => ⟨tasks, rfl, hcovers⟩

/-- The request covers the part exactly when the tiles of the triangle are those of the grid of
tiles and, to invalidate the tiles below the diagonal, the grid has at most one row more than
columns. -/
theorem memoryCoherent_iff (useUnified : Bool) (uplo memflag : ℤ) {Ah : Descr} (LD eltsize : ℕ)
    (h : Ah.Counts) :
    MemoryCoherent useUnified uplo memflag Ah LD eltsize ↔
      useUnified = true ∨ FitsGrid Ah uplo memflag := by
  cases useUnified with
  | true => exact ⟨fun _ => .inl rfl, fun _ _ => ⟨[], rfl, rfl⟩⟩
  | false =>
      rw [or_iff_right Bool.false_ne_true]
      by_cases hall : uplo = 0
      · subst hall
        rw [memoryCoherent_of_eq rfl (.inl rfl)]
        exact iff_of_true (coversPart_all h)
          ⟨fun heq => absurd heq (by decide), fun heq => absurd heq (by decide),
            fun heq => absurd heq (by decide)⟩
      by_cases hupper : uplo = cblasUpper
      · subst hupper
        rw [memoryCoherent_of_eq rfl (.inr (.inl rfl))]
        refine coversPart_upper h |>.trans ⟨fun hfits => ?_, fun hfits => ?_⟩
        · exact ⟨fun _ => hfits.1, fun heq => absurd heq cblasUpper_ne_cblasLower,
            fun _ => hfits.2⟩
        · exact ⟨hfits.upper rfl, hfits.wide rfl⟩
      by_cases hlower : uplo = cblasLower
      · subst hlower
        rw [memoryCoherent_of_eq rfl (.inr (.inr rfl))]
        refine coversPart_lower h |>.trans ⟨fun hfits => ?_, fun hfits => hfits.lower rfl⟩
        exact ⟨fun heq => absurd heq.symm cblasUpper_ne_cblasLower, fun _ => hfits,
          fun heq => absurd heq.symm cblasUpper_ne_cblasLower⟩
      · -- the call aborts
        refine iff_of_true (fun hlegal => absurd hlegal (by tauto)) ?_
        exact ⟨fun heq => absurd heq hupper, fun heq => absurd heq hlower,
          fun heq => absurd heq hupper⟩

end LoopNest

/-- A descriptor of `mt` by `nt` tiles with 4 rows and columns. -/
def gridOf (mt nt : ℕ) : Descr :=
  initMatrixHandle (4 * mt) (4 * nt) (4 * mt) 4 4

theorem gridOf_counts (mt nt : ℕ) : (gridOf mt nt).Counts :=
  ⟨Nat.zero_lt_succ 3, Nat.zero_lt_succ 3, rfl, rfl⟩

/-- Three by two tiles. -/
theorem memoryCoherent_threeByTwo : MemoryCoherent false cblasUpper 1 (gridOf 3 2) 12 8 :=
  (memoryCoherent_iff false cblasUpper 1 12 8 (gridOf_counts 3 2)).mpr
    (.inr (fitsGrid_of_square (gridOf_counts 3 2) rfl fun _ _ => by decide))

/-- Three by one tiles: the last row invalidates a tile that does not exist. -/
theorem not_memoryCoherent : ¬ MemoryCoherent false cblasUpper 1 (gridOf 3 1) 12 8 := by
  intro h
  obtain ⟨tasks, hrun, hcovers⟩ := h (.inr (.inl rfl))
  have htask : createTaskInvalidate (gridOf 3 1) 2 1 12 8 ∈ tasks := by
    rw [← Option.some.inj hrun]
    decide
  exact absurd (hcovers.exists_tile _ htask).2 (by decide)

end Xkblas.Blas
