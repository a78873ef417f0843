import Xkblas.Memory.ViewCopy

/-!
# For which views the copies are right

A copy of the runs of a view transfers its elements: the runs of a view with several ones do not
overlap. The CUDA plugin copies the runs, for contiguous views all at once. `host_copy` copies the
rows, which are the runs of a view that is stored by rows or square; the rows of any other view miss
an element. `copiesAgree_iff` puts both together.
-/

namespace Xkblas.Memory.ViewCopy

open Library
open FindAccess (View ViewType Storage)

/-! ## The copies as copies of runs -/

variable {vd vs v : View} {dev d s : ℕ} {mem memSrc result : Bytes}

/-- The runs, one after the other. -/
def copyRuns (mem : Bytes) (d : ℕ) (vd : View) (memSrc : Bytes) (s : ℕ) (vs : View) : Bytes :=
  copyRows mem memSrc vs.runs (vs.runLength * vs.wordsize) d (vd.ld * vs.wordsize) s
    (vs.ld * vs.wordsize)

/-- The loop of `host_copy` over the rows. -/
def copyHostRows (mem : Bytes) (d : ℕ) (vd : View) (memSrc : Bytes) (s : ℕ) (vs : View) : Bytes :=
  copyRows mem memSrc vs.size0 (vs.size1 * vs.wordsize) d (vd.ld * vs.wordsize) s
    (vs.ld * vs.wordsize)

/-- A contiguous copy is a copy of the runs. -/
theorem memcpy_eq_copyRuns (hshape : vd.SameShape vs) (hfit : vs.Fits)
    (hpacked : vs.type = .view1D ∨ vs.iscontiguous = true ∧ vd.iscontiguous = true) :
    memcpy mem memSrc d s vs.size = copyRuns mem d vd memSrc s vs := by
  rw [View.size_eq hfit]
  unfold copyRuns
  cases htype : vs.type with
  | view1D =>
      have hruns : vs.runs = 1 := by unfold View.runs; rw [htype]
      rw [hruns, Nat.one_mul, copyRows_one]
  | view2D =>
      have hpacked : vs.iscontiguous = true ∧ vd.iscontiguous = true :=
        hpacked.resolve_left (by rw [htype]; nofun)
      rw [View.ld_of_iscontiguous htype hpacked.1,
        View.ld_of_iscontiguous (hshape.type.trans htype) hpacked.2, hshape.runLength_eq,
        copyRows_packed]

/-- The contiguous path of `host_copy`. -/
theorem hostCopy_packed (hshape : vd.SameShape vs) (hfit : vs.Fits)
    (hpacked : vs.type = .view1D ∨ vs.iscontiguous = true ∧ vd.iscontiguous = true) :
    hostCopy dev mem ⟨dev, d⟩ vd memSrc ⟨dev, s⟩ vs =
      some (.ok, copyRuns mem d vd memSrc s vs) := by
  rw [← memcpy_eq_copyRuns hshape hfit hpacked]
  unfold hostCopy
  rw [if_neg (by simp), hshape.type, hshape.size0, hshape.size1]
  cases htype : vs.type with
  | view1D => simp
  | view2D =>
      have hpacked : vs.iscontiguous = true ∧ vd.iscontiguous = true :=
        hpacked.resolve_left (by rw [htype]; nofun)
      simp [hpacked]

/-- The strided path of `host_copy`. -/
theorem hostCopy_strided (hshape : vd.SameShape vs) (htype : vs.type = .view2D)
    (hpacked : ¬ (vs.iscontiguous = true ∧ vd.iscontiguous = true)) :
    hostCopy dev mem ⟨dev, d⟩ vd memSrc ⟨dev, s⟩ vs =
      some (.ok, copyHostRows mem d vd memSrc s vs) := by
  unfold hostCopy copyHostRows
  rw [if_neg (by simp), hshape.type, hshape.size0, hshape.size1, htype]
  simp only [ne_eq, not_true_eq_false, or_self, if_false, if_neg hpacked]

/-- The CUDA plugin copies the runs. -/
theorem cudaCopy_eq (hshape : vd.SameShape vs) (hfit : vs.Fits) :
    cudaCopy mem d vd memSrc s vs =
      some (copyRuns mem (vd.view2pointer d) vd memSrc (vs.view2pointer s) vs) := by
  unfold cudaCopy
  rw [if_neg (by rw [hshape.size_eq]; simp)]
  by_cases hpacked : vs.type = .view1D ∨ vs.iscontiguous = true ∧ vd.iscontiguous = true
  · rw [← memcpy_eq_copyRuns hshape hfit hpacked]
    rcases hpacked with htype | hpacked
    · simp [htype]
    · simp [hpacked]
  · obtain ⟨htype, hpacked⟩ := not_or.mp hpacked
    have htype := View.type_of_ne htype
    have htest : (vs.iscontiguous && vd.iscontiguous) = false :=
      Bool.eq_false_iff.mpr fun h => hpacked (Bool.and_eq_true_iff.mp h)
    unfold copyRuns View.runs View.runLength
    rw [hshape.size0, hshape.size1, hshape.wordsize]
    simp only [htest, htype, Bool.false_eq_true, if_false]
    cases vs.storage with
    | rowMajor => rfl
    | colMajor => rfl

/-- A copy of the runs transfers the elements. -/
theorem exact_copyRuns (hshape : vd.SameShape vs) (hld : vd.LdOk) :
    Exact vd vs d s mem memSrc
      (copyRuns mem (vd.view2pointer d) vd memSrc (vs.view2pointer s) vs) where
  element i j hin b hb := by
    rw [View.byte_eq, View.byte_eq, ← hshape.runOf_eq, ← hshape.placeOf_eq, hshape.wordsize]
    rw [hshape.wordsize] at hb
    unfold copyRuns
    have hrun := View.runOf_lt hin
    have hplace := View.placeOf_lt hin
    rw [hshape.runs_eq] at hrun
    rw [hshape.runLength_eq] at hplace
    -- the byte is in its run
    have hword : vd.placeOf i j * vs.wordsize + b < vs.runLength * vs.wordsize := by
      have hnext := Nat.mul_le_mul_right vs.wordsize hplace
      rw [Nat.succ_mul] at hnext
      omega
    refine copyRows_last hrun hword fun r' hr' hlt hin' => ?_
    -- and in no later one
    have hpitch : vs.runLength * vs.wordsize ≤ vd.ld * vs.wordsize := by
      rcases View.pitch_of_ldOk hld with hone | hle
      · rw [hshape.runs_eq] at hone
        omega
      · rw [hshape.runLength_eq] at hle
        exact Nat.mul_le_mul_right vs.wordsize hle
    have hstart := Nat.mul_le_mul_right (vd.ld * vs.wordsize) hr'
    rw [Nat.succ_mul] at hstart
    have hfirst := hin'.1
    omega
  other a ha := by
    unfold copyRuns
    refine copyRows_outside fun r hr hin => ?_
    rw [← hshape.runs_eq] at hr
    rw [← hshape.runLength_eq, ← hshape.wordsize] at hin
    obtain ⟨q, rfl⟩ := Nat.exists_eq_add_of_le hin.1
    have hq : q < vd.runLength * vd.wordsize := by
      have hlast := hin.2
      omega
    have hword : 0 < vd.wordsize := Nat.pos_of_ne_zero fun hzero => by
      rw [hzero, Nat.mul_zero] at hq
      exact absurd hq (Nat.not_lt_zero q)
    obtain ⟨i, j, hin, hrun, hplace⟩ :=
      View.exists_element hr ((Nat.div_lt_iff_lt_mul hword).mpr hq)
    refine ha i j hin (q % vd.wordsize) (Nat.mod_lt q hword) ?_
    rw [View.byte_eq, hrun, hplace, Nat.div_add_mod' q vd.wordsize]

theorem copyRows_empty {height width dpitch spitch : ℕ} (h : height = 0 ∨ width = 0) :
    copyRows mem memSrc height width d dpitch s spitch = mem := by
  funext a
  refine copyRows_outside fun r hr hin => ?_
  have hfirst := hin.1
  have hlast := hin.2
  omega

/-- Views with nothing to copy have no byte. -/
theorem Empty.exact (h : Empty vd) : Exact vd vs d s mem memSrc mem where
  element i j hin b hb := by
    unfold View.Contains at hin
    rcases h with hzero | hzero | ⟨htype, hzero⟩
    · omega
    · split at hin
      · omega
      · omega
    · rw [htype] at hin
      have hin : i < vd.size0 ∧ j < vd.size1 := hin
      omega
  other _ _ := rfl

theorem Empty.congr (hshape : vd.SameShape vs) (h : Empty vs) : Empty vd := by
  unfold Empty
  rw [hshape.wordsize, hshape.size0, hshape.size1, hshape.type]
  exact h

theorem Empty.copyRuns (h : Empty vs) : copyRuns mem d vd memSrc s vs = mem := by
  refine copyRows_empty ?_
  unfold View.runs View.runLength
  rcases h with hzero | hzero | ⟨htype, hzero⟩
  · exact Or.inr (by rw [hzero, Nat.mul_zero])
  · cases vs.type with
    | view1D => exact Or.inr (by rw [hzero, Nat.zero_mul])
    | view2D =>
        cases vs.storage with
        | rowMajor => exact Or.inl hzero
        | colMajor => exact Or.inr (by rw [hzero, Nat.zero_mul])
  · rw [htype]
    cases vs.storage with
    | rowMajor => exact Or.inr (by rw [hzero, Nat.zero_mul])
    | colMajor => exact Or.inl hzero

theorem Empty.copyHostRows (h : Empty vs) : copyHostRows mem d vd memSrc s vs = mem := by
  refine copyRows_empty ?_
  rcases h with hzero | hzero | ⟨_, hzero⟩
  · exact Or.inr (by rw [hzero, Nat.mul_zero])
  · exact Or.inl hzero
  · exact Or.inr (by rw [hzero, Nat.zero_mul])

/-! ## The copies of the CUDA plugin -/

theorem cudaExact (hshape : vd.SameShape vs) (hld : vd.LdOk) (hfit : vs.Fits) :
    CudaExact vd vs :=
  fun _ _ _ _ => ⟨_, cudaCopy_eq hshape hfit, exact_copyRuns hshape hld⟩

/-! ## The copies of the host -/

/-- The rows are the runs. -/
theorem copyHostRows_eq
    (h : vs.storage = .rowMajor ∨ vs.size0 = vs.size1) (htype : vs.type = .view2D) :
    copyHostRows mem d vd memSrc s vs = copyRuns mem d vd memSrc s vs := by
  unfold copyHostRows copyRuns View.runs View.runLength
  rw [htype]
  rcases h with hrow | hsquare
  · rw [hrow]
  · rw [hsquare]
    cases vs.storage with
    | rowMajor => rfl
    | colMajor => rfl

theorem hostExact_of_runsAreRows (hshape : vd.SameShape vs) (hld : vd.LdOk) (hfit : vs.Fits)
    (h : RunsAreRows vd vs) : HostExact vd vs := by
  intro dev d s mem memSrc
  rcases h with hempty | ⟨⟨hvd, hvs⟩, hrows⟩
  · -- either path leaves the memory as it is
    refine ⟨mem, ?_, (hempty.congr hshape).exact⟩
    by_cases hpacked : vs.type = .view1D ∨ vs.iscontiguous = true ∧ vd.iscontiguous = true
    · rw [hostCopy_packed hshape hfit hpacked, hempty.copyRuns]
    · obtain ⟨htype, hpacked⟩ := not_or.mp hpacked
      have htype := View.type_of_ne htype
      rw [hostCopy_strided hshape htype hpacked, hempty.copyHostRows]
  · have hexact : Exact vd vs d s mem memSrc
        (copyRuns mem (vd.view2pointer d) vd memSrc (vs.view2pointer s) vs) :=
      exact_copyRuns hshape hld
    unfold View.view2pointer at hexact
    rw [hvd, hvs, Nat.zero_mul, Nat.zero_mul, Nat.add_zero, Nat.add_zero] at hexact
    refine ⟨_, ?_, hexact⟩
    by_cases hpacked : vs.type = .view1D ∨ vs.iscontiguous = true ∧ vd.iscontiguous = true
    · exact hostCopy_packed hshape hfit hpacked
    · obtain ⟨hvector, hpacked⟩ := not_or.mp hpacked
      have htype := View.type_of_ne hvector
      rw [hostCopy_strided hshape htype hpacked, copyHostRows_eq _ htype]
      rcases hrows with hvector' | hrow | hsquare | ⟨_, hboth⟩
      · exact absurd hvector' hvector
      · exact Or.inl hrow
      · exact Or.inr hsquare
      · exact absurd hboth hpacked

theorem fastPathAgrees_of_runsAreRows (hshape : vd.SameShape vs) (hfit : vs.Fits)
    (h : RunsAreRows vd vs) : FastPathAgrees vd vs := by
  intro htype hcs hcd d s mem memSrc
  show memcpy mem memSrc d s vs.size = copyHostRows mem d vd memSrc s vs
  have hpacked : memcpy mem memSrc d s vs.size = copyRuns mem d vd memSrc s vs :=
    memcpy_eq_copyRuns hshape hfit (Or.inr ⟨hcs, hcd⟩)
  have hsquare : vs.storage = .rowMajor ∨ vs.size0 = vs.size1 →
      memcpy mem memSrc d s vs.size = copyHostRows mem d vd memSrc s vs :=
    fun hrows => hpacked.trans (copyHostRows_eq hrows htype).symm
  rcases h with hempty | ⟨_, hvector | hrow | hsq | ⟨hone, _⟩⟩
  · rw [hpacked, hempty.copyRuns, hempty.copyHostRows]
  · exact absurd hvector (by rw [htype]; nofun)
  · exact hsquare (Or.inl hrow)
  · exact hsquare (Or.inr hsq)
  · cases hstorage : vs.storage with
    | rowMajor => exact hsquare (Or.inl hstorage)
    | colMajor =>
        -- one row and all columns of one element
        rw [View.size_eq hfit]
        unfold copyHostRows View.runs View.runLength
        rw [htype, hstorage, hone, Nat.one_mul, copyRows_one]

/-! ## There and back -/

/-- Two exact copies restore the elements. -/
theorem Exact.back {p i j b : ℕ} {packed packed' later back : Bytes} (hshape : vd.SameShape vs)
    (hthere : Exact vd vs p s packed mem packed') (hback : Exact vs vd s p later packed' back)
    (hin : vs.Contains i j) (hb : b < vs.wordsize) :
    back (vs.byte s i j b) = mem (vs.byte s i j b) := by
  rw [hback.element i j hin b hb]
  exact hthere.element i j (hshape.contains_iff.mpr hin) b (hshape.wordsize ▸ hb)

theorem fits_reallocated (hfit : v.Fits) : v.reallocated.Fits := by
  have hshape := View.sameShape_reallocated v
  unfold View.Fits
  rw [hshape.runs_eq, hshape.runLength_eq, hshape.wordsize]
  exact hfit

/-- If the rows of two views are their runs, then so are those of a view and its re-packed view,
in both directions. -/
theorem RunsAreRows.reallocated (h : RunsAreRows vd v) :
    RunsAreRows v.reallocated v ∧ RunsAreRows v v.reallocated := by
  have hshape := View.sameShape_reallocated v
  have hoffset := View.offset_reallocated (v := v)
  rcases h with hempty | ⟨⟨_, hzero⟩, hrows⟩
  · exact ⟨Or.inl hempty, Or.inl (hempty.congr hshape)⟩
  · refine ⟨Or.inr ⟨⟨hoffset.trans hzero, hzero⟩, ?_⟩, Or.inr ⟨⟨hzero, hoffset.trans hzero⟩, ?_⟩⟩
    · rcases hrows with hvector | hrow | hsquare | ⟨hone, hcontiguous, _⟩
      · exact Or.inl hvector
      · exact Or.inr (Or.inl hrow)
      · exact Or.inr (Or.inr (Or.inl hsquare))
      · exact Or.inr (Or.inr (Or.inr ⟨hone, hcontiguous, View.iscontiguous_reallocated⟩))
    · rw [hshape.type, hshape.storage, hshape.size0, hshape.size1]
      rcases hrows with hvector | hrow | hsquare | ⟨hone, hcontiguous, _⟩
      · exact Or.inl hvector
      · exact Or.inr (Or.inl hrow)
      · exact Or.inr (Or.inr (Or.inl hsquare))
      · exact Or.inr (Or.inr (Or.inr ⟨hone, View.iscontiguous_reallocated, hcontiguous⟩))

theorem hostRestores_of_runsAreRows (hld : v.LdOk) (hfit : v.Fits) (h : RunsAreRows vd v) :
    HostRestores v := by
  intro dev p s mem packed later
  have hshape := View.sameShape_reallocated v
  obtain ⟨packed', hthere, hthereExact⟩ :=
    hostExact_of_runsAreRows hshape View.ldOk_reallocated hfit h.reallocated.1 dev p s packed mem
  obtain ⟨back, hback, hbackExact⟩ :=
    hostExact_of_runsAreRows hshape.symm hld (fits_reallocated hfit) h.reallocated.2 dev s p later
      packed'
  exact ⟨packed', back, hthere, hback, fun i j hin b hb =>
    hthereExact.back hshape hbackExact hin hb⟩

theorem cudaRestores (hld : v.LdOk) (hfit : v.Fits) : CudaRestores v := by
  intro p s mem packed later
  have hshape := View.sameShape_reallocated v
  obtain ⟨packed', hthere, hthereExact⟩ :=
    cudaExact hshape View.ldOk_reallocated hfit p s packed mem
  obtain ⟨back, hback, hbackExact⟩ :=
    cudaExact hshape.symm hld (fits_reallocated hfit) s p later packed'
  exact ⟨packed', back, hthere, hback, fun i j hin b hb =>
    hthereExact.back hshape hbackExact hin hb⟩

/-! ## Copies that are not right -/

/-- A memory with one marked byte. -/
def mark (a : ℕ) : Bytes :=
  fun a' => if a' = a then 1 else 0

theorem eq_of_mark_eq_one {a a' : ℕ} (h : mark a a' = 1) : a' = a := by
  unfold mark at h
  by_contra hne
  rw [if_neg hne] at h
  exact absurd h (by decide)

theorem mark_self (a : ℕ) : mark a a = 1 :=
  if_pos rfl

section

variable (hshape : vd.SameShape vs) (hld : vd.LdOk) (hfit : vs.Fits) (hsome : ¬ Empty vs)

include hsome

theorem wordsize_pos : 0 < vs.wordsize :=
  Nat.pos_of_ne_zero fun hzero => hsome (Or.inl hzero)

theorem size0_pos : 0 < vs.size0 :=
  Nat.pos_of_ne_zero fun hzero => hsome (Or.inr (Or.inl hzero))

theorem size1_pos (htype : vs.type = .view2D) : 0 < vs.size1 :=
  Nat.pos_of_ne_zero fun hzero => hsome (Or.inr (Or.inr ⟨htype, hzero⟩))

theorem contains_zero : vs.Contains 0 0 := by
  unfold View.Contains
  cases htype : vs.type with
  | view1D => exact ⟨size0_pos hsome, rfl⟩
  | view2D => exact ⟨size0_pos hsome, size1_pos hsome htype⟩

theorem runs_pos : 0 < vs.runs := by
  have hsize0 := size0_pos hsome
  have hsize1 := size1_pos hsome
  unfold View.runs
  split
  · exact Nat.one_pos
  · rename_i htype
    split
    · exact hsize0
    · exact hsize1 htype

theorem runLength_pos : 0 < vs.runLength := by
  have hsize0 := size0_pos hsome
  have hsize1 := size1_pos hsome
  unfold View.runLength
  split
  · exact hsize0
  · rename_i htype
    split
    · exact hsize1 htype
    · exact hsize0

include hshape hld

theorem ld_pos (htype : vs.type = .view2D) : 0 < vd.ld := by
  have hlength := runLength_pos hsome
  rw [← hshape.runLength_eq] at hlength
  exact Nat.lt_of_lt_of_le hlength (hld (hshape.type.trans htype))

include hfit

/-- `host_copy` copies the first byte of the source to the first one of the destination. -/
theorem hostCopy_first :
    ∃ result, hostCopy dev mem ⟨dev, d⟩ vd memSrc ⟨dev, s⟩ vs = some (.ok, result) ∧
      result d = memSrc s := by
  have hword := wordsize_pos hsome
  by_cases hpacked : vs.type = .view1D ∨ vs.iscontiguous = true ∧ vd.iscontiguous = true
  · refine ⟨_, hostCopy_packed hshape hfit hpacked, ?_⟩
    refine copyRows_start (runs_pos hsome) (Nat.mul_pos (runLength_pos hsome) hword) ?_
    cases htype : vs.type with
    | view1D => exact Or.inl (by unfold View.runs; rw [htype])
    | view2D => exact Or.inr (Nat.mul_pos (ld_pos hshape hld hsome htype) hword)
  · obtain ⟨hvector, hpacked⟩ := not_or.mp hpacked
    have htype := View.type_of_ne hvector
    refine ⟨_, hostCopy_strided hshape htype hpacked, ?_⟩
    exact copyRows_start (size0_pos hsome) (Nat.mul_pos (size1_pos hsome htype) hword)
      (Or.inr (Nat.mul_pos (ld_pos hshape hld hsome htype) hword))

theorem HostExact.first (h : HostExact vd vs) :
    ∃ result, Exact vd vs d s mem memSrc result ∧ result d = memSrc s := by
  obtain ⟨result, hcopy, hexact⟩ := h 0 d s mem memSrc
  obtain ⟨result', hcopy', hfirst⟩ :
      ∃ result, hostCopy 0 mem ⟨0, d⟩ vd memSrc ⟨0, s⟩ vs = some (.ok, result) ∧
        result d = memSrc s := hostCopy_first hshape hld hfit hsome
  have hsame : result = result' := by
    rw [hcopy] at hcopy'
    injection hcopy' with h
    exact congrArg Prod.snd h
  exact ⟨result, hexact, hsame ▸ hfirst⟩

/-- A right copy of the host has no offset at the destination, where the first byte would keep its
value, -/
theorem offset_dest (h : HostExact vd vs) : vd.offset = 0 := by
  by_contra hoffset
  obtain ⟨result, hexact, hfirst⟩ :
      ∃ result, Exact vd vs 0 0 (mark 1) (mark 0) result ∧ result 0 = mark 0 0 :=
    h.first hshape hld hfit hsome
  have hkept : result 0 = mark 1 0 := by
    refine hexact.other 0 fun i j _ b _ hzero => hoffset ?_
    unfold View.byte at hzero
    have hword := wordsize_pos hsome
    rw [← hshape.wordsize] at hword
    have hprod : (vd.offset + vd.index i j) * vd.wordsize = 0 := by omega
    rcases Nat.mul_eq_zero.mp hprod with hsum | hw
    · omega
    · omega
  rw [hfirst, mark_self] at hkept
  exact absurd (eq_of_mark_eq_one hkept.symm) (by decide)

/-- and none at the source, where the first element would be read in another place. -/
theorem offset_src (h : HostExact vd vs) : vs.offset = 0 := by
  have hoffset := offset_dest hshape hld hfit hsome h
  obtain ⟨result, hexact, hfirst⟩ :
      ∃ result, Exact vd vs 0 0 (mark 1) (mark 0) result ∧ result 0 = mark 0 0 :=
    h.first hshape hld hfit hsome
  have hword := wordsize_pos hsome
  have hindex : ∀ v : View, v.index 0 0 = 0 := by
    intro v
    unfold View.index
    split
    · rfl
    · split
      · rw [Nat.zero_mul]
      · rw [Nat.zero_mul]
  have helement := hexact.element 0 0 (hshape.contains_iff.mpr (contains_zero hsome)) 0
    (hshape.wordsize ▸ hword)
  unfold View.byte at helement
  rw [hindex, hindex, hoffset, Nat.add_zero, Nat.zero_mul, Nat.add_zero, Nat.add_zero, Nat.zero_add,
    hfirst, mark_self] at helement
  have hzero := eq_of_mark_eq_one helement.symm
  rcases Nat.mul_eq_zero.mp hzero with hoffset | hw
  · exact hoffset
  · omega

end

/-- When the copies and the fast path are right, then so are the rows. -/
theorem exact_copyHostRows (hshape : vd.SameShape vs) (htype : vs.type = .view2D)
    (h : HostExact vd vs) (hfast : FastPathAgrees vd vs) (hfit : vs.Fits) :
    Exact vd vs d s mem memSrc (copyHostRows mem d vd memSrc s vs) := by
  obtain ⟨result, hcopy, hexact⟩ := h 0 d s mem memSrc
  have hsame : result = copyHostRows mem d vd memSrc s vs := by
    by_cases hpacked : vs.iscontiguous = true ∧ vd.iscontiguous = true
    · rw [hostCopy_packed hshape hfit (Or.inr hpacked),
        ← memcpy_eq_copyRuns hshape hfit (Or.inr hpacked), hfast htype hpacked.1 hpacked.2] at hcopy
      injection hcopy with h
      exact (congrArg Prod.snd h).symm
    · rw [hostCopy_strided hshape htype hpacked] at hcopy
      injection hcopy with h
      exact (congrArg Prod.snd h).symm
  exact hsame ▸ hexact

/-- The rows of columns are right for contiguous single rows only. -/
theorem single_of_exact (hshape : vd.SameShape vs) (hld : vd.LdOk) (hsome : ¬ Empty vs)
    (htype : vs.type = .view2D) (hstorage : vs.storage = .colMajor) (hne : vs.size0 ≠ vs.size1)
    (hvd : vd.offset = 0) (hvs : vs.offset = 0)
    (hexact : ∀ mem memSrc, Exact vd vs 0 0 mem memSrc (copyHostRows mem 0 vd memSrc 0 vs)) :
    vs.size0 = 1 ∧ vs.iscontiguous = true ∧ vd.iscontiguous = true := by
  have hword := wordsize_pos hsome
  have h0 := size0_pos hsome
  have h1 := size1_pos hsome htype
  have htype' := hshape.type.trans htype
  have hstorage' := hshape.storage.trans hstorage
  have hlength : vs.size0 ≤ vd.ld := by
    have hle := hld htype'
    rw [hshape.runLength_eq] at hle
    unfold View.runLength at hle
    rw [htype, hstorage] at hle
    exact hle
  have hcontains : ∀ {i j}, i < vs.size0 → j < vs.size1 → vd.Contains i j := by
    intro i j hi hj
    rw [hshape.contains_iff]
    unfold View.Contains
    rw [htype]
    exact ⟨hi, hj⟩
  have hdest : ∀ i j, vd.byte 0 i j 0 = (i + j * vd.ld) * vs.wordsize := by
    intro i j
    unfold View.byte View.index
    rw [htype', hstorage', hvd, hshape.wordsize, Nat.zero_add, Nat.zero_add, Nat.add_zero]
  have hsrc : ∀ i j, vs.byte 0 i j 0 = (i + j * vs.ld) * vs.wordsize := by
    intro i j
    unfold View.byte View.index
    rw [htype, hstorage, hvs, Nat.zero_add, Nat.zero_add, Nat.add_zero]
  -- the columns of the destination are single elements, since the rows miss nothing
  have hone : vd.ld ≤ 1 := by
    by_contra hlong
    obtain ⟨i, hi, j, hj, hmiss⟩ := exists_missed h0 h1 hne hlength (Nat.lt_of_not_le hlong)
    have helement := (hexact (fun _ => 0) (fun _ => 1)).element i j (hcontains hi hj) 0
      (hshape.wordsize ▸ hword)
    rw [hdest] at helement
    unfold copyHostRows at helement
    rw [copyRows_outside fun r hr hin => hmiss r hr hin.words] at helement
    exact absurd helement (by decide)
  have hsize0 : vs.size0 = 1 := by omega
  have hldd : vd.ld = vs.size0 := by omega
  -- and so are those of the source, since the second element comes from the second one
  have hlds : vs.ld = 1 := by
    have helement := (hexact (fun _ => 0) (mark vs.wordsize)).element 0 1
      (hcontains h0 (by omega)) 0 (hshape.wordsize ▸ hword)
    have hstart : (0 + 1 * vd.ld) * vs.wordsize = 0 + vs.wordsize := by rw [hldd, hsize0]; ring
    have hwidth : vs.wordsize < vs.size1 * vs.wordsize := by
      have hle : 2 * vs.wordsize ≤ vs.size1 * vs.wordsize :=
        Nat.mul_le_mul_right vs.wordsize (by omega)
      omega
    rw [hdest, hsrc, hstart] at helement
    unfold copyHostRows at helement
    rw [hsize0, copyRows_one, memcpy_inside hwidth, Nat.zero_add, mark_self] at helement
    have hmarked := eq_of_mark_eq_one helement.symm
    rw [Nat.zero_add, Nat.one_mul] at hmarked
    exact Nat.eq_of_mul_eq_mul_right hword (hmarked.trans (Nat.one_mul _).symm)
  refine ⟨hsize0, ?_, ?_⟩
  · unfold View.iscontiguous
    rw [htype, hstorage]
    exact decide_eq_true (hlds.trans hsize0.symm)
  · unfold View.iscontiguous
    rw [htype', hstorage', hshape.size0]
    exact decide_eq_true hldd

/-! ## Main results -/

/-- The copies of two views agree exactly when the runs of `host_copy` are the rows. -/
theorem copiesAgree_iff (hshape : vd.SameShape vs) (hvd : vd.LdOk) (hvs : vs.LdOk)
    (hfit : vs.Fits) : CopiesAgree vd vs ↔ RunsAreRows vd vs := by
  constructor
  · intro h
    refine or_iff_not_imp_left.mpr fun hsome => ⟨⟨?_, ?_⟩, ?_⟩
    · exact offset_dest hshape hvd hfit hsome h.host
    · exact offset_src hshape hvd hfit hsome h.host
    · cases htype : vs.type with
      | view1D => exact Or.inl rfl
      | view2D =>
          cases hstorage : vs.storage with
          | rowMajor => exact Or.inr (Or.inl rfl)
          | colMajor =>
              refine Or.inr (Or.inr (or_iff_not_imp_left.mpr fun hne => ?_))
              exact single_of_exact hshape hvd hsome htype hstorage hne
                (offset_dest hshape hvd hfit hsome h.host)
                (offset_src hshape hvd hfit hsome h.host)
                fun _ _ => exact_copyHostRows hshape htype h.host h.fastPath hfit
  · intro h
    exact {
      host := hostExact_of_runsAreRows hshape hvd hfit h
      cuda := cudaExact hshape hvd hfit
      fastPath := fastPathAgrees_of_runsAreRows hshape hfit h
      hostBack := hostRestores_of_runsAreRows hvs hfit h
      cudaBack := cudaRestores hvs hfit }

/-- A padded block of two rows of three words. -/
def paddedRows (ld : ℕ) : View :=
  ⟨0, 2, 3, ld, 8, .view2D, .rowMajor⟩

/-- The copies between two padded blocks of rows are right. -/
theorem copiesAgree_paddedRows : CopiesAgree (paddedRows 3) (paddedRows 5) := by
  have hshape : (paddedRows 3).SameShape (paddedRows 5) := ⟨rfl, rfl, rfl, rfl, rfl⟩
  have hdest : (paddedRows 3).LdOk := fun _ => by decide
  have hsrc : (paddedRows 5).LdOk := fun _ => by decide
  have hfit : (paddedRows 5).Fits := by unfold View.Fits; decide
  exact (copiesAgree_iff hshape hdest hsrc hfit).mpr (Or.inr ⟨⟨rfl, rfl⟩, Or.inr (Or.inl rfl)⟩)

/-- A padded block of two rows of three words that is stored by columns. -/
def paddedColumns (ld : ℕ) : View :=
  ⟨0, 2, 3, ld, 8, .view2D, .colMajor⟩

/-- The copies between two padded blocks of columns are not. -/
theorem not_copiesAgree :
    (paddedColumns 2).SameShape (paddedColumns 3) ∧ (paddedColumns 2).LdOk ∧
      (paddedColumns 3).LdOk ∧ (paddedColumns 3).Fits ∧
        ¬ CopiesAgree (paddedColumns 2) (paddedColumns 3) := by
  have hshape : (paddedColumns 2).SameShape (paddedColumns 3) := ⟨rfl, rfl, rfl, rfl, rfl⟩
  have hdest : (paddedColumns 2).LdOk := fun _ => by decide
  have hfit : (paddedColumns 3).Fits := by unfold View.Fits; decide
  refine ⟨hshape, hdest, fun _ => by decide, hfit, fun h => ?_⟩
  have hsome : ¬ Empty (paddedColumns 3) := by
    rintro (hzero | hzero | ⟨_, hzero⟩)
    · exact absurd hzero (by decide)
    · exact absurd hzero (by decide)
    · exact absurd hzero (by decide)
  have hsingle := single_of_exact hshape hdest hsome rfl rfl (by decide) rfl rfl fun _ _ =>
    exact_copyHostRows hshape rfl h.host h.fastPath hfit
  exact absurd hsingle.1 (by decide)

end Xkblas.Memory.ViewCopy
