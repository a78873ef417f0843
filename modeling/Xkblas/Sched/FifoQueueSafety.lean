import Xkblas.Sched.FifoQueue

/-!
# No task of a queue is lost

The invariant of the queue (`Bounded`) keeps the counters in the range of a nonnegative `int32_t`
and the window between them not longer than the array. Under it a critical section accounts for
its task (`Pushes`, `Takes`). It is kept by every step but for four kinds of critical sections,
which `ok` excludes.
-/

namespace Xkblas.Sched

open Library

variable {τ : Type*} [DecidableEq τ] {rd rd' : FifoQueue τ} {unstealable : τ → Bool}
  {score : Score τ} {task x : τ} {i j : ℤ} {n : ℕ}

/-! ## The invariant of the queue -/

/-- The counters of a queue. -/
structure Bounded (rd : FifoQueue τ) : Prop where
  size_eq : rd.size = if rd.allocated = true then queueDefaultSize else 0
  nonneg : 0 ≤ rd.H
  le : rd.H ≤ rd.T
  fits : rd.T - rd.H ≤ rd.size
  int : rd.T < 2 ^ 31

/-- How often a task is in the queue. -/
def FifoQueue.count (rd : FifoQueue τ) (x : τ) : ℕ :=
  occurrences rd.idx rd.data rd.H rd.T x

omit [DecidableEq τ] in
/-- A queue that is not empty has an array. -/
theorem Bounded.size_of_lt (h : Bounded rd) (hlt : rd.H < rd.T) : rd.size = queueDefaultSize := by
  have hsize := h.size_eq
  have hfits := h.fits
  split at hsize
  · exact hsize
  · omega

omit [DecidableEq τ] in
/-- The indices of the array. -/
theorem idx_mem (hsize : rd.size = queueDefaultSize) (hi : 0 ≤ i) :
    0 ≤ rd.idx i ∧ rd.idx i < queueDefaultSize := by
  unfold FifoQueue.idx
  rw [hsize]
  exact ⟨Int.tmod_nonneg _ hi, Int.tmod_lt_of_pos _ (by decide)⟩

omit [DecidableEq τ] in
/-- Entries that are not further apart than the size of the array have different indices. -/
theorem idx_inj (hsize : rd.size = queueDefaultSize) (hi : 0 ≤ i) (hj : 0 ≤ j)
    (hij : i < j + queueDefaultSize) (hji : j < i + queueDefaultSize) (h : rd.idx i = rd.idx j) :
    i = j := by
  unfold FifoQueue.idx at h
  rw [hsize, Int.tmod_eq_emod_of_nonneg hi, Int.tmod_eq_emod_of_nonneg hj] at h
  unfold queueDefaultSize at h hij hji
  omega

omit [DecidableEq τ] in
theorem Bounded.slotsDiffer (h : Bounded rd) : SlotsDiffer rd.idx rd.H rd.T := by
  intro i j hilo hihi hjlo hjhi heq
  have hsize := h.size_of_lt (hilo.trans_lt hihi)
  have hfits := h.fits
  have hnonneg := h.nonneg
  exact idx_inj hsize (by omega) (by omega) (by omega) (by omega) heq

omit [DecidableEq τ] in
/-- The lazy allocation. -/
theorem bounded_alloc (h : Bounded rd) :
    Bounded (fifoQueueAlloc rd) ∧ (fifoQueueAlloc rd).size = queueDefaultSize := by
  have hsize := h.size_eq
  unfold fifoQueueAlloc
  split
  next halloc =>
    rw [if_pos halloc] at hsize
    exact ⟨h, hsize⟩
  next =>
    have hhalf : (0 : ℤ) ≤ queueDefaultSize.tdiv 2 ∧ queueDefaultSize.tdiv 2 < 2 ^ 31 := by decide
    refine ⟨⟨rfl, hhalf.1, le_rfl, ?_, hhalf.2⟩, rfl⟩
    show queueDefaultSize.tdiv 2 - queueDefaultSize.tdiv 2 ≤ queueDefaultSize
    decide

theorem count_alloc (h : Bounded rd) (x : τ) : (fifoQueueAlloc rd).count x = rd.count x := by
  have hsize := h.size_eq
  unfold fifoQueueAlloc
  split
  next => rfl
  next halloc =>
    rw [if_neg halloc] at hsize
    have hfits := h.fits
    unfold FifoQueue.count
    rw [occurrences_empty le_rfl, occurrences_empty (by omega)]

/-! ## The critical sections -/

/-- The indices of array accesses are in the array. -/
def InBounds (accessed : List ℤ) : Prop :=
  ∀ a ∈ accessed, 0 ≤ a ∧ a < queueDefaultSize

/-- The critical section adds the task to the queue. -/
structure Pushes (rd : FifoQueue τ) (task : τ) (outcome : Outcome τ) : Prop where
  bounded : Bounded outcome.rd
  inBounds : InBounds outcome.accessed
  count : ∀ x, outcome.rd.count x = rd.count x + if x = task then 1 else 0

/-- The critical section takes the task that it returns from the queue. -/
structure Takes (rd : FifoQueue τ) (outcome : Outcome τ) : Prop where
  bounded : Bounded outcome.rd
  inBounds : InBounds outcome.accessed
  count : ∀ x, rd.count x = outcome.rd.count x + outcome.task.toList.count x

/-- A push at the tail. -/
theorem push_pushes (h : Bounded rd) (hsize : rd.size = queueDefaultSize)
    (hspace : rd.full = false) (hT : rd.T < 2 ^ 31 - 1) : Pushes rd task (fifoQueuePush rd task) := by
  have hle := h.le
  have hnonneg := h.nonneg
  have hspace' : rd.T - rd.H < queueDefaultSize := by
    have hfull := of_decide_eq_false hspace
    rw [int32_of_lt (by omega) (by omega)] at hfull
    omega
  have hT' : int32 (rd.T + 1) = rd.T + 1 := int32_of_lt (by omega) (by omega)
  refine ⟨⟨?_, hnonneg, ?_, ?_, ?_⟩, ?_, fun x => ?_⟩
  · exact h.size_eq
  · show rd.H ≤ int32 (rd.T + 1)
    omega
  · show int32 (rd.T + 1) - rd.H ≤ rd.size
    omega
  · show int32 (rd.T + 1) < 2 ^ 31
    omega
  · intro a ha
    obtain rfl := List.mem_singleton.mp ha
    exact idx_mem hsize (by omega)
  · show occurrences rd.idx (Function.update rd.data (rd.idx rd.T) (some task)) rd.H
      (int32 (rd.T + 1)) x = _
    have hother : ∀ j, rd.H ≤ j → j < rd.T → rd.idx j ≠ rd.idx rd.T := by
      intro j hlo hhi heq
      have := idx_inj hsize (by omega) (by omega) (by omega) (by omega) heq
      omega
    rw [hT', occurrences_succ hle, occurrences_write hother, Function.update_self]
    simp only [Option.some.injEq, eq_comm]
    rfl

/-- A push at the head. -/
theorem ownerPush_pushes (h : Bounded rd) (hsize : rd.size = queueDefaultSize)
    (hspace : rd.full = false) (hH : 0 < rd.H) :
    Pushes rd task (fifoQueueOwnerPush rd task) := by
  have hle := h.le
  have hint := h.int
  have hspace' : rd.T - rd.H < queueDefaultSize := by
    have hfull := of_decide_eq_false hspace
    rw [int32_of_lt (by omega) (by omega)] at hfull
    omega
  have hH' : int32 (rd.H - 1) = rd.H - 1 := int32_of_lt (by omega) (by omega)
  refine ⟨⟨?_, ?_, ?_, ?_, hint⟩, ?_, fun x => ?_⟩
  · exact h.size_eq
  · show 0 ≤ int32 (rd.H - 1)
    omega
  · show int32 (rd.H - 1) ≤ rd.T
    omega
  · show rd.T - int32 (rd.H - 1) ≤ rd.size
    omega
  · intro a ha
    obtain rfl := List.mem_singleton.mp ha
    rw [hH']
    exact idx_mem hsize (by omega)
  · show occurrences rd.idx (Function.update rd.data (rd.idx (int32 (rd.H - 1))) (some task))
      (int32 (rd.H - 1)) rd.T x = _
    have hother : ∀ j, rd.H ≤ j → j < rd.T → rd.idx j ≠ rd.idx (rd.H - 1) := by
      intro j hlo hhi heq
      have := idx_inj hsize (by omega) (by omega) (by omega) (by omega) heq
      omega
    rw [hH', occurrences_pred hle, occurrences_write hother, Function.update_self]
    simp only [Option.some.injEq, eq_comm]
    rfl

theorem count_toList (o : Option τ) (x : τ) :
    o.toList.count x = if o = some x then 1 else 0 := by
  cases o with
  | none => rfl
  | some y =>
      rw [Option.toList_some, List.count_singleton]
      simp only [beq_iff_eq, Option.some.injEq]

/-- A task that is taken from an entry of the queue. -/
theorem count_assign (h : Bounded rd) (hlo : rd.H ≤ i) (hhi : i < rd.T) (x : τ) :
    rd.count x = (rd.assign i none).count x + (rd.entry i).toList.count x := by
  rw [count_toList]
  exact occurrences_remove h.slotsDiffer hlo hhi x

omit [DecidableEq τ] in
theorem entry_assign (i : ℤ) (o : Option τ) : (rd.assign i o).entry i = o :=
  Function.update_self _ _ _

/-- An empty entry at the head. -/
theorem count_dropHead (hlt : rd.H < rd.T) (hempty : rd.entry rd.H = none) (x : τ) :
    ({ rd with H := rd.H + 1 } : FifoQueue τ).count x = rd.count x := by
  have hpred : occurrences rd.idx rd.data (rd.H + 1 - 1) rd.T x = _ := occurrences_pred hlt x
  rw [Int.add_sub_cancel, if_neg (by rw [show rd.data (rd.idx rd.H) = none from hempty]; simp),
    Nat.add_zero] at hpred
  exact hpred.symm

/-- An empty entry at the tail. -/
theorem count_dropTail (hlt : rd.H < rd.T) (hempty : rd.entry (rd.T - 1) = none) (x : τ) :
    ({ rd with T := rd.T - 1 } : FifoQueue τ).count x = rd.count x := by
  have hsucc : occurrences rd.idx rd.data rd.H (rd.T - 1 + 1) x = _ :=
    occurrences_succ (by omega) x
  rw [Int.sub_add_cancel,
    if_neg (by rw [show rd.data (rd.idx (rd.T - 1)) = none from hempty]; simp),
    Nat.add_zero] at hsucc
  exact hsucc.symm

omit [DecidableEq τ] in
theorem inBounds_idx (h : Bounded rd) (hlo : rd.H ≤ i) (hhi : i < rd.T) :
    0 ≤ rd.idx i ∧ rd.idx i < queueDefaultSize :=
  idx_mem (h.size_of_lt (hlo.trans_lt hhi)) (h.nonneg.trans hlo)

omit [DecidableEq τ] in
/-- The loops read entries of the queue. -/
theorem inBounds_scanned (h : Bounded rd) : InBounds (rd.scanned (rd.T - rd.H).toNat) := by
  intro a ha
  obtain ⟨k, hk, rfl⟩ := List.mem_map.mp ha
  rw [List.mem_range] at hk
  exact inBounds_idx h (by omega) (by omega)

/-- A task is taken from an entry, and the head moves if it was there. -/
theorem takeHead_takes (h : Bounded rd) (hlo : rd.H ≤ i) (hhi : i < rd.T) (popCount : ℕ)
    {accessed : List ℤ} (haccessed : InBounds accessed) :
    Takes rd
      { rd := { rd.assign i none with
          popCount := popCount
          H := if i = rd.H then int32 (rd.H + 1) else rd.H }
        task := rd.entry i
        accessed := accessed } := by
  have hint := h.int
  have hnonneg := h.nonneg
  have hfits := h.fits
  have hH : int32 (rd.H + 1) = rd.H + 1 := int32_of_lt (by omega) (by omega)
  rw [hH]
  refine ⟨⟨h.size_eq, ?_, ?_, ?_, hint⟩, haccessed, fun x => ?_⟩
  · show 0 ≤ if i = rd.H then rd.H + 1 else rd.H
    split <;> omega
  · show (if i = rd.H then rd.H + 1 else rd.H) ≤ rd.T
    split <;> omega
  · show rd.T - (if i = rd.H then rd.H + 1 else rd.H) ≤ rd.size
    split <;> omega
  · rw [count_assign h hlo hhi x]
    refine congrArg (· + _) ?_
    split
    next hhead =>
      subst hhead
      obtain ⟨rd', hrd'⟩ : ∃ rd', rd' = rd.assign rd.H none := ⟨_, rfl⟩
      have hempty : rd'.entry rd'.H = none := by
        rw [hrd']
        exact entry_assign _ _
      have hdrop := count_dropHead (show rd'.H < rd'.T by rw [hrd']; exact hhi) hempty x
      rw [hrd'] at hdrop
      exact hdrop.symm
    next => rfl

/-- A task is taken from an entry, and the tail moves if it was there. -/
theorem takeTail_takes (h : Bounded rd) (hlo : rd.H ≤ i) (hhi : i < rd.T) {accessed : List ℤ}
    (haccessed : InBounds accessed) :
    Takes rd { rd := takeTail rd i, task := rd.entry i, accessed := accessed } := by
  have hint := h.int
  have hnonneg := h.nonneg
  have hfits := h.fits
  have hT : int32 (rd.T - 1) = rd.T - 1 := int32_of_lt (by omega) (by omega)
  unfold takeTail
  rw [hT]
  refine ⟨⟨h.size_eq, hnonneg, ?_, ?_, ?_⟩, haccessed, fun x => ?_⟩
  · show rd.H ≤ if 1 + i = rd.T then rd.T - 1 else rd.T
    split <;> omega
  · show (if 1 + i = rd.T then rd.T - 1 else rd.T) - rd.H ≤ rd.size
    split <;> omega
  · show (if 1 + i = rd.T then rd.T - 1 else rd.T) < 2 ^ 31
    split <;> omega
  · rw [count_assign h hlo hhi x]
    refine congrArg (· + _) ?_
    split
    next htail =>
      obtain rfl : i = rd.T - 1 := by omega
      obtain ⟨rd', hrd'⟩ : ∃ rd', rd' = rd.assign (rd.T - 1) none := ⟨_, rfl⟩
      have hempty : rd'.entry (rd'.T - 1) = none := by
        rw [hrd']
        exact entry_assign _ _
      have hdrop := count_dropTail
        (show rd'.H < rd'.T by rw [hrd']; exact hlo.trans_lt hhi) hempty x
      rw [hrd'] at hdrop
      exact hdrop.symm
    next => rfl

/-- Nothing is taken. -/
theorem keep_takes (h : Bounded rd) {accessed : List ℤ} (haccessed : InBounds accessed) :
    Takes rd { rd := rd, task := none, accessed := accessed } :=
  ⟨h, haccessed, fun _ => rfl⟩

/-! ## The loops -/

omit [DecidableEq τ] in
/-- Where the loop of a steal breaks there is a task that may be stolen. -/
theorem stealLoop_some {task : Option τ} {result : Option τ}
    (h : stealLoop rd unstealable n task = (some i, result)) :
    (rd.H ≤ i ∧ i < rd.H + n) ∧ rd.entry i = result ∧ ∀ t, result = some t → unstealable t = false := by
  induction n generalizing task with
  | zero => cases h
  | succ n ih =>
      unfold stealLoop at h
      simp only at h
      split at h
      next =>
        obtain ⟨hi, hrest⟩ := ih h
        exact ⟨by omega, hrest⟩
      next t ht =>
        split at h
        next =>
          obtain ⟨hi, hrest⟩ := ih h
          exact ⟨by omega, hrest⟩
        next hsteal =>
          cases h
          refine ⟨by omega, ht, fun u hu => ?_⟩
          cases hu
          exact Bool.eq_false_of_not_eq_true hsteal

omit [DecidableEq τ] in
/-- Where it does not break no task may be stolen, and it returns the entry that it read last. -/
theorem stealLoop_none {task : Option τ} {result : Option τ}
    (h : stealLoop rd unstealable n task = (none, result)) :
    (∀ k < n, ∀ t, rd.entry (rd.H + (k : ℤ)) = some t → unstealable t = true) ∧
      result = if n = 0 then task else rd.entry rd.H := by
  induction n generalizing task with
  | zero =>
      cases h
      exact ⟨fun k hk => absurd hk (Nat.not_lt_zero k), rfl⟩
  | succ n ih =>
      -- the entry `H + n` is read first
      have hfirst : ∃ read, rd.entry (rd.H + n) = read ∧
          (∀ t, read = some t → unstealable t = true) ∧
          stealLoop rd unstealable n read = (none, result) := by
        unfold stealLoop at h
        simp only at h
        split at h
        next hnone => exact ⟨none, hnone, (fun t ht => nomatch ht), h⟩
        next t ht =>
          split at h
          next hun =>
            refine ⟨some t, ht, fun u hu => ?_, h⟩
            cases hu
            exact hun
          next => cases h
      obtain ⟨read, hread, hun, hloop⟩ := hfirst
      obtain ⟨hbefore, hresult⟩ := ih hloop
      constructor
      · intro k hk t ht
        rcases Nat.lt_succ_iff_lt_or_eq.mp hk with hk | rfl
        · exact hbefore k hk t ht
        · exact hun t (hread.symm.trans ht)
      · rw [hresult, if_neg (Nat.succ_ne_zero n)]
        split
        next hn =>
          subst hn
          rw [← hread, Nat.cast_zero, Int.add_zero]
        next => rfl

omit [DecidableEq τ] in
theorem popAffinityLoop_some {first : ℤ} (h : popAffinityLoop rd score n first = some i) :
    first ≤ i ∧ i < first + n := by
  induction n generalizing first with
  | zero => cases h
  | succ n ih =>
      unfold popAffinityLoop at h
      split at h
      next =>
        have hi := ih h
        omega
      next =>
        split at h
        next =>
          cases h
          omega
        next =>
          have hi := ih h
          omega

omit [DecidableEq τ] in
/-- The best entry of a steal with affinity holds a task that may be stolen. -/
theorem stealAffinityLoop_some (good : ℤ → Prop) {ibest : Option ℤ} {nscore : ℕ}
    {scoreMax : ℕ × ℕ × ℕ × ℕ} (hbest : ∀ i, ibest = some i → good i)
    (hgood : ∀ k < n, ∀ t, rd.entry (rd.H + (k : ℤ)) = some t → unstealable t = false →
      good (rd.H + (k : ℤ)))
    (h : stealAffinityLoop rd unstealable score n ibest nscore scoreMax = some i) : good i := by
  induction n generalizing ibest nscore scoreMax with
  | zero => exact hbest i h
  | succ n ih =>
      have hgood' := fun k (hk : k < n) => hgood k (hk.trans (Nat.lt_succ_self n))
      unfold stealAffinityLoop at h
      simp only at h
      split at h
      next => exact ih hbest hgood' h
      next t ht =>
        split at h
        next => exact ih hbest hgood' h
        next hsteal =>
          have hhere : good (rd.H + (n : ℤ)) :=
            hgood n (Nat.lt_succ_self n) t ht (Bool.eq_false_of_not_eq_true hsteal)
          split at h
          next => exact ih hbest hgood' h
          next =>
            split at h
            next =>
              cases h
              exact hhere
            next =>
              refine ih (fun i hi => ?_) hgood' h
              cases hi
              exact hhere

/-! ## Pops and steals -/

theorem pop_takes (h : Bounded rd) : Takes rd (fifoQueuePop rd) := by
  unfold fifoQueuePop
  split
  next hlt =>
    have hidx := inBounds_idx h le_rfl hlt
    have haccessed : InBounds [rd.idx rd.H] := by
      intro a ha
      obtain rfl := List.mem_singleton.mp ha
      exact hidx
    have htake := takeHead_takes h le_rfl hlt
      (if (rd.entry rd.H).isSome then rd.popCount + 1 else rd.popCount) haccessed
    rwa [if_pos rfl] at htake
  next => exact keep_takes h fun a ha => absurd ha List.not_mem_nil

/-- A pop with affinity that finds the queue not empty. -/
theorem popWithAffinity_takes (h : Bounded rd) (hlt : rd.H < rd.T) :
    Takes rd (fifoQueuePopWithAffinity rd score) := by
  have hsize : rd.size ≠ 0 := by
    rw [h.size_of_lt hlt]
    decide
  unfold fifoQueuePopWithAffinity
  rw [if_neg hsize]
  have hbest : rd.H ≤ (popAffinityLoop rd score (rd.T - rd.H).toNat rd.H).getD rd.H ∧
      (popAffinityLoop rd score (rd.T - rd.H).toNat rd.H).getD rd.H < rd.T := by
    cases hloop : popAffinityLoop rd score (rd.T - rd.H).toNat rd.H with
    | none => exact ⟨le_rfl, hlt⟩
    | some i =>
        have hi := popAffinityLoop_some hloop
        show rd.H ≤ i ∧ i < rd.T
        omega
  refine takeHead_takes h hbest.1 hbest.2 _ fun a ha => ?_
  rcases List.mem_append.mp ha with ha | ha
  · exact inBounds_scanned h a ha
  · obtain rfl := List.mem_singleton.mp ha
    exact inBounds_idx h hbest.1 hbest.2

/-- A steal whose loop does not end at a task that may not be stolen. -/
theorem steal_takes (h : Bounded rd)
    (hends : rd.H < rd.T → rd.entry rd.H = none ∨
      ∃ i, (rd.H ≤ i ∧ i < rd.T) ∧ ∃ t, rd.entry i = some t ∧ unstealable t = false) :
    Takes rd (fifoQueueSteal rd unstealable) ∧
      ∀ t, (fifoQueueSteal rd unstealable).task = some t → unstealable t = false := by
  unfold fifoQueueSteal
  split
  next => exact ⟨keep_takes h fun a ha => absurd ha List.not_mem_nil, fun t ht => nomatch ht⟩
  next =>
    obtain ⟨⟨found, result⟩, hloop⟩ : ∃ r,
        stealLoop rd unstealable (rd.T - rd.H).toNat none = r := ⟨_, rfl⟩
    simp only [hloop]
    cases found with
    | none =>
        obtain ⟨hall, hresult⟩ := stealLoop_none hloop
        have hnone : result = none := by
          rw [hresult]
          split
          next => rfl
          next hn =>
            rcases hends (by omega) with hempty | ⟨i, hi, t, ht, hsteal⟩
            · exact hempty
            · have hun := hall (i - rd.H).toNat (by omega) t
                (by rw [show rd.H + ((i - rd.H).toNat : ℤ) = i by omega]; exact ht)
              rw [hsteal] at hun
              cases hun
        rw [hnone]
        exact ⟨keep_takes h (inBounds_scanned h), fun t ht => nomatch ht⟩
    | some i =>
        obtain ⟨hi, hentry, hsteal⟩ := stealLoop_some hloop
        rw [← hentry]
        exact ⟨takeTail_takes h hi.1 (by omega) (inBounds_scanned h),
          fun t ht => hsteal t (hentry ▸ ht)⟩

theorem stealWithAffinity_takes (h : Bounded rd) :
    Takes rd (fifoQueueStealWithAffinity rd unstealable score) ∧
      ∀ t, (fifoQueueStealWithAffinity rd unstealable score).task = some t →
        unstealable t = false := by
  unfold fifoQueueStealWithAffinity
  split
  next => exact ⟨keep_takes h fun a ha => absurd ha List.not_mem_nil, fun t ht => nomatch ht⟩
  next =>
    cases hloop : stealAffinityLoop rd unstealable score (rd.T - rd.H).toNat none 0
      (0, 0, 0, 0) with
    | none =>
        simp only [hloop]
        refine ⟨keep_takes h (inBounds_scanned h), fun t ht => ?_⟩
        cases ht
    | some i =>
        simp only [hloop]
        obtain ⟨⟨hlo, hhi⟩, t, ht, hsteal⟩ : (rd.H ≤ i ∧ i < rd.T) ∧
            ∃ t, rd.entry i = some t ∧ unstealable t = false :=
          stealAffinityLoop_some (fun i => (rd.H ≤ i ∧ i < rd.T) ∧
              ∃ t, rd.entry i = some t ∧ unstealable t = false) (fun i hi => by cases hi)
            (fun k hk t ht hun => ⟨by omega, t, ht, hun⟩) hloop
        refine ⟨takeTail_takes h hlo hhi fun a ha => ?_, fun u hu => ?_⟩
        · rcases List.mem_append.mp ha with ha | ha
          · exact inBounds_scanned h a ha
          · obtain rfl := List.mem_singleton.mp ha
            exact inBounds_idx h hlo hhi
        · cases ht.symm.trans hu
          exact hsteal

/-! ## Runs -/

/-- What holds of a queue with its threads: array accesses are in the array, the counters are
ordered, the tasks that were pushed are those in the queue and those that were returned, and only
tasks that may be stolen are stolen. -/
structure Safe (unstealable : τ → Bool) (s : System τ) : Prop where
  inBounds : InBounds s.accessed
  ordered : s.rd.H ≤ s.rd.T
  accounted : ∀ x, s.pushed.count x = s.rd.count x + (s.popped.count x + s.stolen.count x)
  stealable : ∀ x ∈ s.stolen, unstealable x = false

/-- The critical sections that go right: a push at the tail that does not reach the end of the
`int32_t`, one at the head that does not reach negative entries, a pop with affinity that finds the
queue not empty, and a steal that does not end at a task that may not be stolen. -/
def ok (unstealable : τ → Bool) (s : System τ) : Action τ → Prop
  | .locked thread _ =>
      match s.threads thread with
      | some (.push _) => (fifoQueueAlloc s.rd).T < 2 ^ 31 - 1
      | some (.ownerPush _) => 0 < (fifoQueueAlloc s.rd).H
      | some .popWithAffinity => s.rd.H < s.rd.T
      | some .steal => s.rd.H < s.rd.T → s.rd.entry s.rd.H = none ∨
          ∃ i, (s.rd.H ≤ i ∧ i < s.rd.T) ∧ ∃ t, s.rd.entry i = some t ∧ unstealable t = false
      | _ => True
  | _ => True

/-- The invariant of the runs. -/
structure Inv (unstealable : τ → Bool) (s : System τ) : Prop extends Safe unstealable s where
  bounded : Bounded s.rd

theorem inv_init : Inv unstealable (init : System τ) where
  inBounds := fun a ha => absurd ha List.not_mem_nil
  ordered := le_rfl
  accounted := fun x => (occurrences_empty le_rfl x).symm
  stealable := fun x hx => absurd hx List.not_mem_nil
  bounded := ⟨rfl, le_rfl, le_rfl, le_rfl, show (0 : ℤ) < 2 ^ 31 by decide⟩

omit [DecidableEq τ] in
theorem inBounds_append {accessed accessed' : List ℤ} (h : InBounds accessed)
    (h' : InBounds accessed') : InBounds (accessed ++ accessed') :=
  fun a ha => (List.mem_append.mp ha).elim (h a) (h' a)

section Step

variable {s s' : System τ} {thread : ℕ} {outcome : Outcome τ}

theorem inv_push (h : Inv unstealable s) (hpush : Pushes s.rd task outcome) :
    Inv unstealable ((Op.push task).record s outcome thread) where
  inBounds := inBounds_append h.inBounds hpush.inBounds
  ordered := hpush.bounded.le
  accounted := by
    intro x
    have haccounted := h.accounted x
    have hone : [task].count x = if x = task then 1 else 0 := by
      by_cases hx : x = task
      · simp [hx]
      · simp [hx, Ne.symm hx]
    show (s.pushed ++ [task]).count x =
      outcome.rd.count x + (s.popped.count x + s.stolen.count x)
    rw [List.count_append, hpush.count x, haccounted, hone]
    omega
  stealable := h.stealable
  bounded := hpush.bounded

theorem inv_pop (h : Inv unstealable s) (htake : Takes s.rd outcome) :
    Inv unstealable (Op.pop.record s outcome thread) where
  inBounds := inBounds_append h.inBounds htake.inBounds
  ordered := htake.bounded.le
  accounted := by
    intro x
    have haccounted := h.accounted x
    have hcount := htake.count x
    show s.pushed.count x = outcome.rd.count x + ((s.popped ++ _).count x + s.stolen.count x)
    rw [List.count_append]
    omega
  stealable := h.stealable
  bounded := htake.bounded

theorem inv_steal (h : Inv unstealable s) (htake : Takes s.rd outcome)
    (hsteal : ∀ t, outcome.task = some t → unstealable t = false) :
    Inv unstealable (Op.steal.record s outcome thread) where
  inBounds := inBounds_append h.inBounds htake.inBounds
  ordered := htake.bounded.le
  accounted := by
    intro x
    have haccounted := h.accounted x
    have hcount := htake.count x
    show s.pushed.count x = outcome.rd.count x + (s.popped.count x + (s.stolen ++ _).count x)
    rw [List.count_append]
    omega
  stealable := by
    intro x hx
    rcases List.mem_append.mp hx with hx | hx
    · exact h.stealable x hx
    · exact hsteal x (Option.mem_toList.mp hx)
  bounded := htake.bounded

/-- A critical section that goes right keeps the invariant. -/
theorem inv_locked (h : Inv unstealable s) {op : Op τ} (hop : s.threads thread = some op)
    (hok : ok unstealable s (.locked thread score))
    (hspace : op.pushes = true → (fifoQueueAlloc s.rd).full = false) :
    Inv unstealable (op.record s (op.outcome unstealable score s.rd) thread) := by
  have hbounded := h.bounded
  obtain ⟨halloc, hsize⟩ := bounded_alloc hbounded
  unfold ok at hok
  simp only [hop] at hok
  cases op with
  | push task =>
      have hpush : Pushes _ task _ := push_pushes halloc hsize (hspace rfl) hok
      refine inv_push h ⟨hpush.bounded, hpush.inBounds, fun x => ?_⟩
      rw [← count_alloc hbounded x]
      exact hpush.count x
  | ownerPush task =>
      have hpush : Pushes _ task _ := ownerPush_pushes halloc hsize (hspace rfl) hok
      refine inv_push h ⟨hpush.bounded, hpush.inBounds, fun x => ?_⟩
      rw [← count_alloc hbounded x]
      exact hpush.count x
  | pop => exact inv_pop h (pop_takes hbounded)
  | popWithAffinity => exact inv_pop h (popWithAffinity_takes hbounded hok)
  | steal =>
      obtain ⟨htake, hsteal⟩ := steal_takes hbounded hok
      exact inv_steal h htake hsteal
  | stealWithAffinity =>
      obtain ⟨htake, hsteal⟩ := stealWithAffinity_takes hbounded
      exact inv_steal h htake hsteal

/-- A push that waits has allocated the queue. -/
theorem inv_wait (h : Inv unstealable s) :
    Inv unstealable { s with rd := { fifoQueueAlloc s.rd with waiterPush := true } } := by
  obtain ⟨halloc, _⟩ := bounded_alloc h.bounded
  refine ⟨⟨h.inBounds, halloc.le, fun x => ?_, h.stealable⟩, ?_⟩
  · show s.pushed.count x = (fifoQueueAlloc s.rd).count x + _
    rw [count_alloc h.bounded]
    exact h.accounted x
  · exact ⟨halloc.size_eq, halloc.nonneg, halloc.le, halloc.fits, halloc.int⟩

theorem inv_step {a : Action τ} (h : Inv unstealable s) (hok : ok unstealable s a)
    (hstep : step unstealable s a = some s') : Inv unstealable s' := by
  cases a with
  | call thread op =>
      simp only [step] at hstep
      split at hstep
      next => cases hstep
      next =>
        split at hstep
        next =>
          cases hstep
          exact ⟨⟨h.inBounds, h.ordered, h.accounted, h.stealable⟩, h.bounded⟩
        next =>
          cases hstep
          exact h
  | wait thread =>
      simp only [step] at hstep
      split at hstep
      next => cases hstep
      next =>
        split at hstep
        next =>
          cases hstep
          exact inv_wait h
        next => cases hstep
  | locked thread score =>
      simp only [step] at hstep
      split at hstep
      next => cases hstep
      next op hop =>
        split at hstep
        next => cases hstep
        next hnot =>
          cases hstep
          refine inv_locked h hop hok fun hpushes => ?_
          exact Bool.eq_false_of_not_eq_true fun hfull => hnot ⟨hpushes, hfull⟩

/-- In every run all of whose critical sections go right the queue is safe. -/
theorem queue_safe (h : (system unstealable).ReachableWhen (ok unstealable) s) :
    Safe unstealable s := by
  have hinv : Inv unstealable s := by
    refine TransitionSystem.ReachableWhen.invariant (fun s hs => ?_) (fun s a t => ?_) h
    · obtain rfl : s = init := hs
      exact inv_init
    · exact inv_step
  exact hinv.toSafe

end Step

/-- Tasks are pushed at both ends, the last one is unstealable, and two threads take the others:
one from inside of the queue. -/
def bothEndsRun : List (Action ℕ) :=
  [.call 0 (.push 1), .locked 0 fun _ => none,
   .call 0 (.ownerPush 2), .locked 0 fun _ => none,
   .call 0 (.push 9), .locked 0 fun _ => none,
   .call 1 .steal, .locked 1 fun _ => none,
   .call 2 .pop, .locked 2 fun _ => none]

theorem queue_safe_bothEndsRun :
    ∃ s, (system fun x => x == 9).run init bothEndsRun = some s ∧
      s.stolen = [1] ∧ s.popped = [2] ∧ s.rd.count 9 = 1 ∧ Safe (fun x => x == 9) s := by
  refine ⟨((system fun x => x == 9).run init bothEndsRun).get (by decide), by simp, by decide,
    by decide, by decide, queue_safe ?_⟩
  refine .next (a := .locked 2 fun _ => none) (.next (a := .call 2 .pop)
    (.next (a := .locked 1 fun _ => none) (.next (a := .call 1 .steal)
    (.next (a := .locked 0 fun _ => none) (.next (a := .call 0 (.push 9))
    (.next (a := .locked 0 fun _ => none) (.next (a := .call 0 (.ownerPush 2))
    (.next (a := .locked 0 fun _ => none) (.next (a := .call 0 (.push 1))
    (.start rfl) trivial rfl) ?_ rfl) trivial rfl) ?_ rfl) trivial rfl) ?_ rfl) trivial rfl)
    ?_ rfl) trivial rfl) trivial rfl
  · show (_ : ℤ) < _
    decide
  · show (_ : ℤ) < _
    decide
  · show (_ : ℤ) < _
    decide
  · exact fun _ => .inr ⟨8192, by decide, 1, rfl, rfl⟩

/-- The only task of the queue is unstealable. -/
def unstealableRun : List (Action ℕ) :=
  [.call 0 (.push 7), .locked 0 fun _ => none, .call 1 .steal, .locked 1 fun _ => none]

/-- A steal returns the unstealable task that it read last. -/
theorem steal_returns_unstealable :
    ¬ ∀ s, (system fun _ : ℕ => true).Reachable s → Safe (fun _ => true) s := by
  intro hall
  have hsafe := hall (((system fun _ => true).run init unstealableRun).get (by decide))
    (.replay (.start rfl) (Option.some_get _).symm)
  exact absurd (hsafe.stealable 7 (List.mem_singleton_self 7)) (by decide)

end Xkblas.Sched
