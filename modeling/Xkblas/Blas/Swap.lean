import Xkblas.Blas.Replica
import Mathlib.Logic.Equiv.Basic

/-!
# The exchange of two columns

`xkblas_zswap_async` inserts a task for each tile row. A column of the matrix is given to the task
by the tile that holds it and by its index in this tile. `zswap_correct_iff` says for which columns
and which choice of the bodies the tasks exchange the two columns, and nothing else.

The insertion compares the descriptors of the two tiles, which are that of `C`, and so takes the
tiles for one (`issame`). The body for the GPU then looks for both columns in the first tile, and
the body for the CPU gets the two indices in the other order.
-/

namespace Xkblas.Blas

open Library

section Definitions

variable {R : Type}

/-- The descriptor of a matrix in tiles of `mb` rows and `nb` columns. -/
def swapDescr (mb nb M N : ℕ) (LDC : ℤ) : Operand → Descr
  | .C => initMatrixHandle M N (toSize LDC) mb nb
  | _ => initMatrixHandle 0 0 1 mb nb

/-- The offsets `*i * *LDA` and `*j * *LDB` of `xkblas_zswap_native_` are values of `KBLAS_INT`,
whose values are below `kblasInt`. -/
def TaskArg.OffsetsFit (kblasInt : ℕ) : TaskArg R → Prop
  | .zswap _ _ _ i j _ A B => j * A.ld.toNat < kblasInt ∧ i * B.ld.toNat < kblasInt
  | _ => True

instance (kblasInt : ℕ) (a : TaskArg R) : Decidable (a.OffsetsFit kblasInt) :=
  match a with
  | .zswap .. => inferInstanceAs (Decidable (_ ∧ _))
  | .zgemm .. | .zgemmt .. | .zsymm .. | .zhemm .. | .zsyrk .. | .zherk .. | .zsyr2k .. | .zher2k ..
  | .ztrmm .. | .ztrsm .. | .zcopyscale .. => inferInstanceAs (Decidable True)

/-- The matrix after the exchange of the columns `i` and `j` of the first `M` rows. -/
structure Exchanges (d : Operand → Descr) (M i j : ℕ) (s s' : State R) : Prop where
  column : ∀ r < (d .C).ld, ∀ c,
    s'.get d .C r c = s.get d .C r (if r < M then Equiv.swap i j c else c)
  other : ∀ X, X ≠ .C → s' X = s X

/-- The columns that a body exchanges in its tile row. -/
def exchangedColumns (nb i j : ℕ) (onGpu : Bool) : ℕ × ℕ :=
  if onGpu = true then (i / nb * nb + i % nb, i / nb * nb + j % nb)
  else (i / nb * nb + j % nb, j / nb * nb + i % nb)

/-- The body that runs has a defined behaviour. -/
def BodyDefined (kblasInt nb i j LDC : ℕ) (onGpu : Bool) : Prop :=
  onGpu = true ∨ j % nb * LDC < kblasInt ∧ i % nb * LDC < kblasInt

instance (kblasInt nb i j LDC : ℕ) (onGpu : Bool) :
    Decidable (BodyDefined kblasInt nb i j LDC onGpu) :=
  inferInstanceAs (Decidable (_ ∨ _))

/-- When a task exchanges the two columns in its tile row. -/
def SwapsTile (kblasInt nb i j LDC : ℕ) (onGpu : Bool) : Prop :=
  if onGpu = true then i / nb = j / nb
  else (i / nb = j / nb ∨ i % nb = j % nb) ∧ j % nb * LDC < kblasInt ∧ i % nb * LDC < kblasInt

instance (kblasInt nb i j LDC : ℕ) (onGpu : Bool) :
    Decidable (SwapsTile kblasInt nb i j LDC onGpu) :=
  inferInstanceAs (Decidable (if onGpu = true then _ else _))

variable [Field R] [StarRing R] [DecidableEq R]

/-- The tasks of a call as the runtime launches them. The behaviour of the body for the CPU is
undefined when an offset overflows. -/
def swapLaunches (kblasInt : ℕ) (mkl : Bool) (NB : ℕ) (d : Operand → Descr) (M N i j : ℕ)
    (LDC : ℤ) : List (Launch R) :=
  (zswapArgs d M N i j LDC).map fun a : TaskArg R =>
    { a.launch mkl NB d with
      cpu := fun s => if a.OffsetsFit kblasInt then (a.cpuBody mkl NB d).result s else none }

/-- The columns exist, and for every content of the matrix the tasks exchange them. -/
structure SwapCorrect (kblasInt : ℕ) (mkl : Bool) (NB mb nb M N i j : ℕ) (LDC : ℤ)
    (choice : ℕ → Bool × State R) : Prop where
  left : i < N
  right : j < N
  run : ∀ s, ∃ s',
    runAcquired (swapDescr mb nb M N LDC)
      (swapLaunches kblasInt mkl NB (swapDescr mb nb M N LDC) M N i j LDC) choice s = some s' ∧
    Exchanges (swapDescr mb nb M N LDC) M i j s s'

end Definitions

/-! ## One task -/

section Vectors

variable {R : Type} {d : Operand → Descr} {r₀ n ld r c p q : ℕ}

/-- The elements of a column between two rows are consecutive. -/
theorem mem_column (hn : r₀ + n ≤ ld) (hr : r < ld) :
    r₀ + p * ld ≤ r + c * ld ∧ r + c * ld < r₀ + p * ld + n ↔ c = p ∧ r₀ ≤ r ∧ r < r₀ + n := by
  rcases Nat.lt_trichotomy c p with h | rfl | h
  · have hmul := Nat.mul_le_mul_right ld (Nat.succ_le_of_lt h)
    rw [Nat.succ_mul] at hmul
    omega
  · omega
  · have hmul := Nat.mul_le_mul_right ld (Nat.succ_le_of_lt h)
    rw [Nat.succ_mul] at hmul
    omega

/-- What the kernel does to an element, when it gets two columns between the same rows. -/
theorem swapVectors_get (hn : r₀ + n ≤ (d .C).ld) (hr : r < (d .C).ld) (s : State R) :
    (swapVectors n .C (r₀ + p * (d .C).ld) .C (r₀ + q * (d .C).ld) s).get d .C r c =
      s.get d .C r (if r₀ ≤ r ∧ r < r₀ + n then Equiv.swap p q c else c) := by
  unfold State.get entry swapVectors
  simp only [Nat.zero_add, true_and, mem_column hn hr]
  by_cases hin : r₀ ≤ r ∧ r < r₀ + n
  · rw [if_pos hin]
    by_cases hp : c = p
    · subst hp
      rw [if_pos ⟨rfl, hin⟩, Equiv.swap_apply_left]
      congr 1
      omega
    · rw [if_neg fun h => hp h.1]
      by_cases hq : c = q
      · subst hq
        rw [if_pos ⟨rfl, hin⟩, Equiv.swap_apply_right]
        congr 1
        omega
      · rw [if_neg fun h => hq h.1, Equiv.swap_apply_of_ne_of_ne hp hq]
  · rw [if_neg fun h => hin h.2, if_neg fun h => hin h.2, if_neg hin]

theorem swapVectors_of_ne {X : Operand} (hX : X ≠ .C) (x y : ℕ) (s : State R) :
    swapVectors n .C x .C y s X = s X := by
  funext a
  unfold swapVectors
  rw [if_neg fun h => hX h.1, if_neg fun h => hX h.1]

end Vectors

/-! ## The tasks of a call -/

section Tasks

variable {R : Type} [Field R] [StarRing R] [DecidableEq R] {kblasInt NB mb nb M N i j m : ℕ}
  {mkl : Bool} {LDC : ℤ} {onGpu : Bool}

/-- The launch of the task of a tile row. -/
def rowLaunch (kblasInt : ℕ) (mkl : Bool) (NB mb nb M N i j : ℕ) (LDC : ℤ) (m : ℕ) : Launch R :=
  let d := swapDescr mb nb M N LDC
  let a : TaskArg R := .zswap (tempSize (numTiles M mb) M mb m)
    (tempSize (numTiles N nb) N nb (i / nb)) (tempSize (numTiles N nb) N nb (j / nb)) (i % nb)
    (j % nb) true ⟨.C, m, i / nb, LDC⟩ ⟨.C, m, j / nb, LDC⟩
  { a.launch mkl NB d with
    cpu := fun s => if a.OffsetsFit kblasInt then (a.cpuBody mkl NB d).result s else none }

theorem swapLaunches_eq :
    (swapLaunches kblasInt mkl NB (swapDescr mb nb M N LDC) M N i j LDC : List (Launch R)) =
      (List.Ico 0 (numTiles M mb)).map (rowLaunch kblasInt mkl NB mb nb M N i j LDC) := by
  unfold swapLaunches zswapArgs
  rw [map_forLoop]
  exact List.map_eq_flatMap.symm

/-- A body exchanges two columns of its tile row. -/
theorem rowLaunch_body (hLDC : AdmissibleLd LDC M) (hmb : 0 < mb) (hm : m < numTiles M mb)
    (s : State R) :
    (rowLaunch kblasInt mkl NB mb nb M N i j LDC m).body onGpu s =
      if BodyDefined kblasInt nb i j LDC.toNat onGpu then
        some (swapVectors (tileSize M mb m)
          .C (m * mb + (exchangedColumns nb i j onGpu).1 * (swapDescr mb nb M N LDC .C).ld)
          .C (m * mb + (exchangedColumns nb i j onGpu).2 * (swapDescr mb nb M N LDC .C).ld) s)
      else none := by
  have hld : (swapDescr mb nb M N LDC .C).ld = LDC.toNat := by
    have hle := hLDC.le
    show toSize LDC = _
    have := toSize_of_nonneg (by omega) hLDC.int
    omega
  have hcolumn : ∀ b c, Tile.column (swapDescr mb nb M N LDC) ⟨.C, m, b, LDC⟩ c =
      m * mb + (b * nb + c) * (swapDescr mb nb M N LDC .C).ld := by
    intro b c
    show m * mb + b * nb * (swapDescr mb nb M N LDC .C).ld + c * LDC.toNat = _
    rw [hld, Nat.add_mul, Nat.add_assoc]
  have hsize : tempSize (numTiles M mb) M mb m = tileSize M mb m := tempSize_eq hmb hm
  cases onGpu with
  | true =>
      rw [if_pos (.inl rfl), exchangedColumns, if_pos rfl, ← hcolumn, ← hcolumn, ← hsize]
      rfl
  | false =>
      have hoffsets : BodyDefined kblasInt nb i j LDC.toNat false ↔
          j % nb * LDC.toNat < kblasInt ∧ i % nb * LDC.toNat < kblasInt :=
        or_iff_right Bool.false_ne_true
      rw [if_congr hoffsets rfl rfl, exchangedColumns, if_neg Bool.false_ne_true, ← hcolumn,
        ← hcolumn, ← hsize]
      rfl

/-- The columns that the tile row of `r` exchanges. -/
def rowSwap (mb nb i j : ℕ) (choice : ℕ → Bool × State R) (r : ℕ) : Equiv.Perm ℕ :=
  Equiv.swap (exchangedColumns nb i j (choice (r / mb)).1).1
    (exchangedColumns nb i j (choice (r / mb)).1).2

/-- The tasks from the tile row `a` on exchange the columns of their rows. The induction is on
their number. -/
theorem run_rows (hLDC : AdmissibleLd LDC M) (hmb : 0 < mb) {choice : ℕ → Bool × State R}
    (hok : ∀ m < numTiles M mb, BodyDefined kblasInt nb i j LDC.toNat (choice m).1) {a : ℕ}
    (s : State R) :
    ∃ s', runAcquired (swapDescr mb nb M N LDC)
        ((List.Ico a (numTiles M mb)).map (rowLaunch kblasInt mkl NB mb nb M N i j LDC))
        (fun n => choice (a + n)) s = some s' ∧
      (∀ r < (swapDescr mb nb M N LDC .C).ld, ∀ c, s'.get (swapDescr mb nb M N LDC) .C r c =
        s.get (swapDescr mb nb M N LDC) .C r
          (if a ≤ r / mb ∧ r < M then rowSwap mb nb i j choice r c else c)) ∧
      ∀ X, X ≠ .C → s' X = s X := by
  induction hk : numTiles M mb - a generalizing a s with
  | zero =>
      have hle : numTiles M mb ≤ a := Nat.le_of_sub_eq_zero hk
      refine ⟨s, ?_, fun r _ c => ?_, fun X _ => rfl⟩
      · rw [List.Ico.eq_nil_of_le hle]
        rfl
      · rw [if_neg]
        rintro ⟨ha, hr⟩
        have hlt := div_lt_numTiles hmb hr
        omega
  | succ k ih =>
      have ha : a < numTiles M mb := by omega
      have hrows : a * mb + tileSize M mb a ≤ (swapDescr mb nb M N LDC .C).ld := by
        have hle := hLDC.le
        have hld : (toSize LDC : ℤ) = LDC := toSize_of_nonneg (by omega) hLDC.int
        have htile := tile_le hmb ha
        show a * mb + tileSize M mb a ≤ toSize LDC
        omega
      have hbody : (rowLaunch kblasInt mkl NB mb nb M N i j LDC a).body (choice a).1 s = _ :=
        (rowLaunch_body hLDC hmb ha s).trans (if_pos (hok a ha))
      obtain ⟨s', hrun, hget, hother⟩ := ih (a := a + 1) _ (by omega)
      refine ⟨s', ?_, fun r hr c => ?_, fun X hX => ?_⟩
      · rw [List.Ico.eq_cons ha, List.map_cons, runAcquired]
        show ((rowLaunch _ _ _ _ _ _ _ _ _ _ a).body (choice (a + 0)).1 s).bind _ = _
        rw [Nat.add_zero, hbody, Option.bind_some]
        simp only [Nat.add_assoc, Nat.add_comm 1] at hrun
        exact hrun
      · rw [hget r hr c, swapVectors_get hrows hr]
        congr 1
        simp only [mem_tile hmb ha]
        -- the row is in the tile row `a`, in a later one, or in none of them
        by_cases hrow : r < M ∧ r / mb = a
        · rw [if_pos hrow, if_neg (by omega), if_pos ⟨hrow.2.ge, hrow.1⟩, rowSwap, hrow.2]
        · rw [if_neg hrow]
          refine if_congr ?_ rfl rfl
          omega
      · rw [hother X hX, swapVectors_of_ne hX]

/-- In a run that is defined, every body is. -/
theorem bodyDefined_of_run (hLDC : AdmissibleLd LDC M) (hmb : 0 < mb)
    {choice : ℕ → Bool × State R} {a m : ℕ} {s s' : State R}
    (hrun : runAcquired (swapDescr mb nb M N LDC)
      ((List.Ico a (numTiles M mb)).map (rowLaunch kblasInt mkl NB mb nb M N i j LDC))
      (fun n => choice (a + n)) s = some s')
    (ham : a ≤ m) (hm : m < numTiles M mb) :
    BodyDefined kblasInt nb i j LDC.toNat (choice m).1 := by
  induction hk : m - a generalizing a s with
  | zero =>
      obtain rfl : a = m := by omega
      rw [List.Ico.eq_cons hm, List.map_cons, runAcquired] at hrun
      obtain ⟨s₁, hbody, _⟩ := Option.bind_eq_some_iff.mp hrun
      have hbody : (rowLaunch kblasInt mkl NB mb nb M N i j LDC a).body (choice a).1 s = some s₁ :=
        hbody
      rw [rowLaunch_body hLDC hmb hm] at hbody
      by_contra hundef
      rw [if_neg hundef] at hbody
      cases hbody
  | succ k ih =>
      rw [List.Ico.eq_cons (by omega), List.map_cons, runAcquired] at hrun
      obtain ⟨s₁, _, hrun⟩ := Option.bind_eq_some_iff.mp hrun
      simp only [Nat.add_comm _ 1, ← Nat.add_assoc] at hrun
      exact ih hrun (by omega) (by omega)

end Tasks

/-! ## The columns -/

section Columns

variable {kblasInt nb i j p q LDC : ℕ} {onGpu : Bool}

/-- Two exchanges of columns are the same. -/
theorem swap_eq_swap_iff (hij : i ≠ j) :
    Equiv.swap p q = Equiv.swap i j ↔ p = i ∧ q = j ∨ p = j ∧ q = i := by
  constructor
  · intro h
    have hi := congrArg (fun σ : Equiv.Perm ℕ => σ i) h
    simp only [Equiv.swap_apply_left, Equiv.swap_apply_def] at hi
    split_ifs at hi <;> omega
  · rintro (⟨rfl, rfl⟩ | ⟨rfl, rfl⟩)
    · rfl
    · exact Equiv.swap_comm _ _

/-- A column is given by its tile and by its index in the tile. -/
theorem column_eq_iff (hnb : 0 < nb) {b c : ℕ} (hc : c < nb) :
    b * nb + c = i ↔ b = i / nb ∧ c = i % nb := by
  have hi := Nat.div_add_mod' i nb
  constructor
  · rintro rfl
    rw [Nat.add_comm, Nat.add_mul_div_right _ _ hnb, Nat.add_mul_mod_self_right,
      Nat.div_eq_of_lt hc, Nat.mod_eq_of_lt hc, Nat.zero_add]
    exact ⟨rfl, rfl⟩
  · rintro ⟨rfl, rfl⟩
    exact hi

/-- A body exchanges the two columns of the call. -/
theorem swapsTile_iff (hnb : 0 < nb) (hij : i ≠ j) :
    SwapsTile kblasInt nb i j LDC onGpu ↔
      BodyDefined kblasInt nb i j LDC onGpu ∧
        Equiv.swap (exchangedColumns nb i j onGpu).1 (exchangedColumns nb i j onGpu).2 =
          Equiv.swap i j := by
  have hi := Nat.mod_lt i hnb
  have hj := Nat.mod_lt j hnb
  have hne : ¬ (i / nb = j / nb ∧ i % nb = j % nb) := by
    intro h
    refine hij ?_
    rw [← Nat.div_add_mod' i nb, h.1, h.2, Nat.div_add_mod']
  rw [swap_eq_swap_iff hij]
  cases onGpu with
  | true =>
      simp only [SwapsTile, BodyDefined, exchangedColumns, if_true, true_or, true_and,
        column_eq_iff hnb hi, column_eq_iff hnb hj]
      tauto
  | false =>
      simp only [SwapsTile, BodyDefined, exchangedColumns, Bool.false_eq_true, if_false, false_or,
        column_eq_iff hnb hi, column_eq_iff hnb hj]
      tauto

variable {R : Type} [Zero R] [One R] [NeZero (1 : R)] {d : Operand → Descr}

/-- The content of the matrix tells two elements of a row apart. -/
theorem column_eq_of_get (hld : 0 < (d .C).ld) {r c c' : ℕ}
    (h : ∀ s : State R, s.get d .C r c = s.get d .C r c') : c = c' := by
  have hs := h fun _ a => if a = 0 + r + c * (d .C).ld then 1 else 0
  by_contra hne
  have haddr : 0 + r + c' * (d .C).ld ≠ 0 + r + c * (d .C).ld := by
    intro heq
    exact hne (Nat.eq_of_mul_eq_mul_right hld (Nat.add_left_cancel heq)).symm
  have hzero : (if 0 + r + c * (d .C).ld = 0 + r + c * (d .C).ld then (1 : R) else 0) =
      if 0 + r + c' * (d .C).ld = 0 + r + c * (d .C).ld then 1 else 0 := hs
  rw [if_pos rfl, if_neg haddr] at hzero
  exact one_ne_zero hzero

end Columns

/-! ## The call -/

section Call

variable {R : Type} [Field R] [StarRing R] [DecidableEq R] {kblasInt NB mb nb M N i j : ℕ}
  {mkl : Bool} {LDC : ℤ}

/-- The tasks exchange the two columns when each of them does in its tile row. -/
theorem run_exchanges_iff (hLDC : AdmissibleLd LDC M) (hmb : 0 < mb) (hnb : 0 < nb) (hij : i ≠ j)
    (choice : ℕ → Bool × State R) :
    (∀ s, ∃ s',
      runAcquired (swapDescr mb nb M N LDC)
        (swapLaunches kblasInt mkl NB (swapDescr mb nb M N LDC) M N i j LDC) choice s = some s' ∧
      Exchanges (swapDescr mb nb M N LDC) M i j s s') ↔
      ∀ m < numTiles M mb, SwapsTile kblasInt nb i j LDC.toNat (choice m).1 := by
  have hle := hLDC.le
  have hld : (toSize LDC : ℤ) = LDC := toSize_of_nonneg (by omega) hLDC.int
  have hldM : M ≤ (swapDescr mb nb M N LDC .C).ld := by
    show M ≤ toSize LDC
    omega
  have hpos : 0 < (swapDescr mb nb M N LDC .C).ld := by
    show 0 < toSize LDC
    omega
  have hchoice : (fun n => choice (0 + n)) = choice := by
    funext n
    rw [Nat.zero_add]
  rw [swapLaunches_eq]
  constructor
  · intro h m hm
    have hok : ∀ m < numTiles M mb, BodyDefined kblasInt nb i j LDC.toNat (choice m).1 := by
      intro m hm
      obtain ⟨s', hrun, _⟩ := h fun _ _ => 0
      rw [← hchoice] at hrun
      exact bodyDefined_of_run hLDC hmb hrun (Nat.zero_le m) hm
    -- the first row of the tile row
    have hrow : m * mb < M := (lt_numTiles hmb).mp hm
    have hdiv : m * mb / mb = m := Nat.mul_div_cancel m hmb
    refine (swapsTile_iff hnb hij).mpr ⟨hok m hm, Equiv.ext fun c => ?_⟩
    refine column_eq_of_get (R := R) (d := swapDescr mb nb M N LDC) (r := m * mb) hpos fun s => ?_
    obtain ⟨s', hrun, hexch⟩ := h s
    obtain ⟨s₁, hrun₁, hget, _⟩ := run_rows hLDC hmb hok s
    rw [hchoice, hrun] at hrun₁
    obtain rfl := Option.some.inj hrun₁
    have hleft := hget (m * mb) (hrow.trans_le hldM) c
    have hright := hexch.column (m * mb) (hrow.trans_le hldM) c
    rw [if_pos ⟨Nat.zero_le _, hrow⟩, rowSwap, hdiv] at hleft
    rw [if_pos hrow] at hright
    exact hleft.symm.trans hright
  · intro h s
    have hok : ∀ m < numTiles M mb, BodyDefined kblasInt nb i j LDC.toNat (choice m).1 :=
      fun m hm => ((swapsTile_iff hnb hij).mp (h m hm)).1
    obtain ⟨s', hrun, hget, hother⟩ := run_rows hLDC hmb hok s
    rw [hchoice] at hrun
    refine ⟨s', hrun, fun r hr c => ?_, hother⟩
    rw [hget r hr c]
    by_cases hrow : r < M
    · have hswap := ((swapsTile_iff hnb hij).mp (h _ (div_lt_numTiles hmb hrow))).2
      rw [if_pos ⟨Nat.zero_le _, hrow⟩, if_pos hrow, rowSwap, hswap]
    · rw [if_neg fun h => hrow h.2, if_neg hrow]

/-- What the checks of a call that inserts tasks have tested. -/
theorem zswapRuns_true {M N i j LDC : ℤ} (h : zswapRuns M N i j LDC = .ok true) :
    (0 ≤ i ∧ 0 ≤ j) ∧ i ≠ j := by
  simp only [zswapRuns] at h
  split_ifs at h
  simp only [Except.ok.injEq, decide_eq_true_eq] at h
  omega

/-- For a call with an admissible leading dimension that its checks accept, the two columns exist and the tasks exchange them, whatever
the matrix contains, if and only if both indices are below `N` and every task runs a body that gets
the two columns: that of a GPU when they are in one tile, that of a CPU when they are in one tile or
have one index in their tiles, and the offsets in the tiles do not overflow. -/
theorem zswap_correct_iff {M N i j LDC : ℤ} (hruns : zswapRuns M N i j LDC = .ok true)
    (hLDC : AdmissibleLd LDC M.toNat) (hmb : 0 < mb) (hnb : 0 < nb)
    (choice : ℕ → Bool × State R) :
    SwapCorrect kblasInt mkl NB mb nb M.toNat N.toNat i.toNat j.toNat LDC choice ↔
      (i < N ∧ j < N) ∧
        ∀ m < numTiles M.toNat mb,
          SwapsTile kblasInt nb i.toNat j.toNat LDC.toNat (choice m).1 := by
  obtain ⟨⟨hi, hj⟩, hij⟩ := zswapRuns_true hruns
  have hij : i.toNat ≠ j.toNat := by omega
  constructor
  · rintro ⟨hleft, hright, hrun⟩
    exact ⟨⟨by omega, by omega⟩, (run_exchanges_iff hLDC hmb hnb hij choice).mp hrun⟩
  · rintro ⟨⟨hleft, hright⟩, hrows⟩
    exact ⟨by omega, by omega, (run_exchanges_iff hLDC hmb hnb hij choice).mpr hrows⟩

/-- Two columns of one tile, with a body for the GPU and one for the CPU. -/
theorem zswap_correct_twoBodies :
    SwapCorrect (R := ℚ) (2 ^ 31) false 2 2 2 3 3 0 1 3 fun m => (m == 0, fun _ _ => 0) :=
  (zswap_correct_iff (M := 3) (N := 3) (i := 0) (j := 1) (by decide) ⟨by decide, by decide⟩
    (by decide) (by decide) _).mpr (by decide)

/-- The check accepts the columns 0 and 3 of a row of four elements, in tiles of two columns. The
body for the GPU exchanges the columns 0 and 1 instead, and that for the CPU the columns 1 and 2.
It also accepts the column 4, which does not exist. -/
theorem zswap_two_tiles :
    (zswapRuns 1 4 0 3 1 = .ok true ∧ ∀ onGpu,
      ¬ SwapCorrect (R := ℚ) (2 ^ 31) false 2 2 2 1 4 0 3 1 fun _ => (onGpu, fun _ _ => 0)) ∧
    (runAcquired (swapDescr 2 2 1 4 1)
      (swapLaunches (2 ^ 31) false 2 (swapDescr 2 2 1 4 1) 1 4 0 3 1)
      (fun _ => (true, fun _ _ => 0))
      fun _ a => (a : ℚ)).map (fun s => [0, 1, 2, 3].map (s .C)) = some [1, 0, 2, 3] ∧
    (runAcquired (swapDescr 2 2 1 4 1)
      (swapLaunches (2 ^ 31) false 2 (swapDescr 2 2 1 4 1) 1 4 0 3 1)
      (fun _ => (false, fun _ _ => 0))
      fun _ a => (a : ℚ)).map (fun s => [0, 1, 2, 3].map (s .C)) = some [0, 2, 1, 3] ∧
    zswapRuns 1 4 0 4 1 = .ok true := by
  refine ⟨⟨by decide, fun onGpu h => ?_⟩, by decide, by decide, by decide⟩
  have hrows := (run_exchanges_iff (M := 1) (N := 4) (i := 0) (j := 3) ⟨by decide, by decide⟩
    (by decide) (by decide) (by decide) _).mp h.run 0 (by decide)
  cases onGpu <;> revert hrows <;> decide

end Call

end Xkblas.Blas
