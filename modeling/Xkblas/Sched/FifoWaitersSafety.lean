import Xkblas.Sched.FifoWaiters

/-!
# No producer is left behind

While each producer that gets through leaves another one that has been woken, or none that is
blocked, a blocked producer can expect the flag or a woken one (`Monitor.Inv`), so space never stays
unused. `producers_awake` adds that the first push that breaks this loses a producer: no signal is
to come for it, and an operation that gives space does not wake it.
-/

namespace Xkblas.Sched

open Library

variable {τ : Type*}

/-! ## The critical sections -/

variable {unstealable : τ → Bool} {score : Score τ} {rd : FifoQueue τ} {op : Op τ} {i : ℤ}

/-- An entry that is taken from the tail backwards gives space only at the tail. -/
theorem full_takeTail (h : 1 + i ≠ rd.T) : (takeTail rd i).full = rd.full := by
  unfold FifoQueue.full takeTail
  rw [if_neg h]
  rfl

/-- Only a push resets the flag. -/
theorem waiterPush_outcome (hop : op.pushes = false) :
    (op.outcome unstealable score rd).rd.waiterPush = rd.waiterPush := by
  cases op with
  | push task => cases hop
  | ownerPush task => cases hop
  | pop =>
      unfold Op.outcome fifoQueuePop
      dsimp only
      split
      · rfl
      · rfl
  | popWithAffinity =>
      unfold Op.outcome fifoQueuePopWithAffinity
      dsimp only
      split
      · rfl
      · rfl
  | steal =>
      unfold Op.outcome fifoQueueSteal
      dsimp only
      split
      · rfl
      · dsimp only
        split
        · rfl
        · rfl
  | stealWithAffinity =>
      unfold Op.outcome fifoQueueStealWithAffinity
      dsimp only
      split
      · rfl
      · split
        · rfl
        · rfl

/-- Without giving space, a critical section that is not a push leaves the queue as full as it
was. -/
theorem full_outcome (hop : op.pushes = false) (h : op.givesSpace unstealable score rd = false) :
    (op.outcome unstealable score rd).rd.full = rd.full := by
  cases op with
  | push task => cases hop
  | ownerPush task => cases hop
  | pop =>
      have hempty : ¬ rd.H < rd.T := of_decide_eq_false h
      unfold Op.outcome fifoQueuePop
      dsimp only
      rw [if_neg hempty]
  | popWithAffinity =>
      unfold Op.outcome fifoQueuePopWithAffinity
      dsimp only
      split
      · rfl
      next hsize =>
        have hbest := Bool.and_eq_false_imp.mp h (decide_eq_true hsize)
        unfold FifoQueue.full
        dsimp only
        rw [if_neg (of_decide_eq_false hbest)]
        rfl
  | steal =>
      unfold Op.outcome fifoQueueSteal
      dsimp only
      split
      · rfl
      next hsize =>
        have htail := Bool.and_eq_false_imp.mp h (decide_eq_true hsize)
        dsimp only
        split
        · rfl
        next i hi =>
          rw [hi] at htail
          exact full_takeTail (of_decide_eq_false htail)
  | stealWithAffinity =>
      unfold Op.outcome fifoQueueStealWithAffinity
      dsimp only
      split
      · rfl
      next hsize =>
        have htail := Bool.and_eq_false_imp.mp h (decide_eq_true hsize)
        split
        · rfl
        next i hi =>
          rw [hi] at htail
          exact full_takeTail (of_decide_eq_false htail)

/-- A push that gets through resets the flag. -/
theorem waiterPush_push (hop : op.pushes = true) :
    (op.outcome unstealable score rd).rd.waiterPush = false := by
  cases op with
  | push task => rfl
  | ownerPush task => rfl
  | pop => cases hop
  | popWithAffinity => cases hop
  | steal => cases hop
  | stealWithAffinity => cases hop

/-- The queue and the threads after a critical section. -/
theorem record_rd (s : System τ) (outcome : Outcome τ) (thread : ℕ) :
    (op.record s outcome thread).rd = outcome.rd ∧
      (op.record s outcome thread).threads = Function.update s.threads thread none := by
  cases op with
  | push task => exact ⟨rfl, rfl⟩
  | ownerPush task => exact ⟨rfl, rfl⟩
  | pop => exact ⟨rfl, rfl⟩
  | popWithAffinity => exact ⟨rfl, rfl⟩
  | steal => exact ⟨rfl, rfl⟩
  | stealWithAffinity => exact ⟨rfl, rfl⟩

namespace Monitor

/-! ## Steps -/

variable {s s' : Monitor τ} {a : Action τ} {thread : ℕ} {woken : Option ℕ}

/-- What a step does to the queue and to the condition. -/
inductive Stepped (unstealable : τ → Bool) (s : Monitor τ) : Action τ → Monitor τ → Prop where
  | called {thread : ℕ} {op : Op τ} {s' : Monitor τ} (hidle : s.queue.threads thread = none)
      (hrd : s'.queue.rd = s.queue.rd) (hcond : s'.condPush = s.condPush)
      (hthreads : ∀ t ≠ thread, s'.queue.threads t = s.queue.threads t) :
      Stepped unstealable s (.call thread op) s'
  | waits {thread : ℕ} {score : Score τ} {woken : Option ℕ} {op : Op τ} {s' : Monitor τ}
      (hop : s.queue.threads thread = some op) (hpush : op.pushes = true)
      (hfull : (fifoQueueAlloc s.queue.rd).full = true)
      (hrd : s'.queue.rd = { fifoQueueAlloc s.queue.rd with waiterPush := true })
      (hcond : s'.condPush = s.condPush.wait thread)
      (hthreads : s'.queue.threads = s.queue.threads) :
      Stepped unstealable s (.locked thread score woken) s'
  | finishes {thread : ℕ} {score : Score τ} {woken : Option ℕ} {op : Op τ} {s' : Monitor τ}
      (hop : s.queue.threads thread = some op) (hfree : thread ∉ s.condPush.waiting)
      (hspace : op.pushes = true → (fifoQueueAlloc s.queue.rd).full = false)
      (hrd : s'.queue.rd = (op.outcome unstealable score s.queue.rd).rd)
      (hcond : if op.givesSpace unstealable score s.queue.rd = true ∧ s.queue.rd.waiterPush = true
        then (s.condPush.leave thread).signal woken = some s'.condPush
        else s'.condPush = s.condPush.leave thread)
      (hthreads : s'.queue.threads = Function.update s.queue.threads thread none) :
      Stepped unstealable s (.locked thread score woken) s'

theorem stepped_of_step (h : step unstealable s a = some s') : Stepped unstealable s a s' := by
  cases a with
  | call thread op =>
      simp only [step] at h
      obtain ⟨queue, hqueue, rfl⟩ := Option.map_eq_some_iff.mp h
      simp only [Sched.step] at hqueue
      split at hqueue
      next => cases hqueue
      next hidle =>
        split at hqueue
        next =>
          cases hqueue
          exact .called hidle rfl rfl fun t ht => Function.update_of_ne ht _ _
        next =>
          cases hqueue
          exact .called hidle rfl rfl fun t _ => rfl
  | locked thread score woken =>
      simp only [step] at h
      split at h
      next => cases h
      next hfree =>
        split at h
        next => cases h
        next op hop =>
          split at h
          next hfull =>
            cases h
            exact .waits hop hfull.1 hfull.2 rfl rfl rfl
          next hfull =>
            have hspace : op.pushes = true → (fifoQueueAlloc s.queue.rd).full = false :=
              fun hpush => Bool.eq_false_iff.mpr fun hf => hfull ⟨hpush, hf⟩
            obtain ⟨hrd, hthreads⟩ : (op.record s.queue (op.outcome unstealable score s.queue.rd)
                thread).rd = _ ∧ _ := record_rd s.queue _ thread
            split at h
            next hsignal =>
              obtain ⟨condPush, hcond, rfl⟩ := Option.map_eq_some_iff.mp h
              exact .finishes hop hfree hspace hrd (by rw [if_pos hsignal]; exact hcond) hthreads
            next hsignal =>
              cases h
              exact .finishes hop hfree hspace hrd (by rw [if_neg hsignal]) hthreads

/-- The queue goes on as without the condition. -/
theorem step_queue (h : step unstealable s a = some s') :
    ∃ b, Sched.step unstealable s.queue b = some s'.queue := by
  cases a with
  | call thread op =>
      simp only [step] at h
      obtain ⟨queue, hqueue, rfl⟩ := Option.map_eq_some_iff.mp h
      exact ⟨.call thread op, hqueue⟩
  | locked thread score woken =>
      simp only [step] at h
      split at h
      next => cases h
      next =>
        split at h
        next => cases h
        next op hop =>
          split at h
          next hfull =>
            cases h
            refine ⟨.wait thread, ?_⟩
            simp only [Sched.step, hop, if_pos hfull]
          next hfull =>
            refine ⟨.locked thread score, ?_⟩
            simp only [Sched.step, hop, if_neg hfull]
            split at h
            · obtain ⟨condPush, -, rfl⟩ := Option.map_eq_some_iff.mp h
              rfl
            · cases h
              rfl

/-- The runs with the condition are runs of the queue. -/
theorem reachable_queue (h : (system unstealable).Reachable s) :
    (Sched.system unstealable).Reachable s.queue := by
  induction h with
  | start hinit => exact .start (congrArg queue hinit)
  | next _ _ hstep ih =>
      obtain ⟨b, hb⟩ := step_queue hstep
      exact .next ih trivial hb

/-! ## Runs -/

/-- The invariant: only producers wait, and a blocked one can expect a signal or another one that
has been woken. -/
structure Inv (s : Monitor τ) : Prop where
  producers : ∀ t, s.condPush.Has t → ∃ op, s.queue.threads t = some op ∧ op.pushes = true
  expects : s.condPush.waiting.Nonempty →
    s.queue.rd.waiterPush = true ∨ s.condPush.signalled.Nonempty
  awake : Awake s

theorem inv_init : Inv (init : Monitor τ) where
  producers := fun t h => h.elim (fun h => absurd h (Finset.notMem_empty t))
    (fun h => absurd h (Finset.notMem_empty t))
  expects := fun h => absurd h Finset.not_nonempty_empty
  awake := fun h => absurd h Finset.not_nonempty_empty

/-- The producers stay those that wait. -/
theorem Inv.producers_step (h : Inv s) (hstep : Stepped unstealable s a s') :
    ∀ t, s'.condPush.Has t → ∃ op, s'.queue.threads t = some op ∧ op.pushes = true := by
  intro t ht
  cases hstep with
  | called hidle hrd hcond hthreads =>
      rw [hcond] at ht
      obtain ⟨op, hop, hpush⟩ := h.producers t ht
      refine ⟨op, ?_, hpush⟩
      rw [hthreads t fun heq => by rw [heq, hidle] at hop; cases hop]
      exact hop
  | @waits thread _ _ op _ hop hpush hfull hrd hcond hthreads =>
      rw [hcond, CondVar.has_wait] at ht
      rw [hthreads]
      rcases ht with rfl | ht
      · exact ⟨op, hop, hpush⟩
      · exact h.producers t ht
  | @finishes thread _ woken op _ hop hfree hspace hrd hcond hthreads =>
      have hleft : (s.condPush.leave thread).Has t := by
        split at hcond
        · exact (CondVar.has_signal hcond).mp ht
        · rw [hcond] at ht
          exact ht
      have hne : t ≠ thread := fun heq => CondVar.not_has_leave hfree (heq ▸ hleft)
      rw [hthreads, Function.update_of_ne hne]
      exact h.producers t (CondVar.has_of_leave hleft)

/-- A thread that is no producer leaves the condition as it is. -/
theorem Inv.leave_eq (h : Inv s) {op : Op τ} (hop : s.queue.threads thread = some op)
    (hpush : op.pushes = false) : s.condPush.leave thread = s.condPush := by
  have hout : thread ∉ s.condPush.signalled := by
    intro hin
    obtain ⟨op', hop', hpush'⟩ := h.producers thread (Or.inr hin)
    rw [hop] at hop'
    cases hop'
    rw [hpush] at hpush'
    cases hpush'
  unfold CondVar.leave
  rw [Finset.erase_eq_of_notMem hout]

/-- A push that gets through leaves the flag reset and the other producers as they are. -/
theorem finish_push {op : Op τ} {cond : CondVar ℕ} (hpush : op.pushes = true)
    (hcond : if op.givesSpace unstealable score rd = true ∧ rd.waiterPush = true
      then (s.condPush.leave thread).signal woken = some cond
      else cond = s.condPush.leave thread) : cond = s.condPush.leave thread := by
  have hspace : op.givesSpace unstealable score rd = false := by
    cases op with
    | push task => rfl
    | ownerPush task => rfl
    | pop => cases hpush
    | popWithAffinity => cases hpush
    | steal => cases hpush
    | stealWithAffinity => cases hpush
  rw [if_neg fun hsignal => Bool.eq_false_iff.mp hspace hsignal.1] at hcond
  exact hcond

/-- An operation that takes a task signals when it gives space to a blocked producer that has set
the flag; without the flag another producer has been woken. -/
theorem Inv.finish_take (h : Inv s) {op : Op τ} (hop : s.queue.threads thread = some op)
    (hpush : op.pushes = false) (hrd : s'.queue.rd = (op.outcome unstealable score s.queue.rd).rd)
    (hcond : if op.givesSpace unstealable score s.queue.rd = true ∧ s.queue.rd.waiterPush = true
      then (s.condPush.leave thread).signal woken = some s'.condPush
      else s'.condPush = s.condPush.leave thread) :
    (s'.condPush.waiting.Nonempty →
      s'.queue.rd.waiterPush = true ∨ s'.condPush.signalled.Nonempty) ∧ Awake s' := by
  rw [h.leave_eq hop hpush] at hcond
  unfold Awake
  split at hcond
  next hsignal =>
    exact ⟨fun hwaiting => Or.inr (CondVar.signalled_of_signal hcond hwaiting),
      fun hwaiting _ => CondVar.signalled_of_signal hcond hwaiting⟩
  next hsignal =>
    rw [hcond, hrd, waiterPush_outcome hpush]
    refine ⟨h.expects, fun hwaiting hspace => ?_⟩
    by_cases hgives : op.givesSpace unstealable score s.queue.rd = true
    · exact (h.expects hwaiting).resolve_left fun hflag => hsignal ⟨hgives, hflag⟩
    · rw [full_outcome hpush (Bool.eq_false_iff.mpr hgives)] at hspace
      exact h.awake hwaiting hspace

theorem leavesWoken_locked {op : Op τ} (hop : s.queue.threads thread = some op) :
    LeavesWoken s (.locked thread score woken) ↔
      (op.pushes = true → (fifoQueueAlloc s.queue.rd).full = false →
        s.condPush.waiting = ∅ ∨ (s.condPush.signalled.erase thread).Nonempty) := by
  simp only [LeavesWoken, hop]

/-- A step that leaves a woken producer keeps the invariant. -/
theorem Inv.step (h : Inv s) (hok : LeavesWoken s a) (hstep : Stepped unstealable s a s') :
    Inv s' := by
  have hrest : (s'.condPush.waiting.Nonempty →
      s'.queue.rd.waiterPush = true ∨ s'.condPush.signalled.Nonempty) ∧ Awake s' := by
    unfold Awake
    cases hstep with
    | called hidle hrd hcond hthreads =>
        rw [hcond, hrd]
        exact ⟨h.expects, h.awake⟩
    | waits hop hpush hfull hrd hcond hthreads =>
        rw [hrd]
        refine ⟨fun _ => Or.inl rfl, fun _ hspace => ?_⟩
        have hspace : (fifoQueueAlloc s.queue.rd).full = false := hspace
        rw [hfull] at hspace
        cases hspace
    | @finishes thread _ woken op _ hop hfree hspace hrd hcond hthreads =>
        cases hpush : op.pushes with
        | true =>
            rw [finish_push hpush hcond]
            rcases (leavesWoken_locked hop).mp hok hpush (hspace hpush) with hnone | hwoken
            · have hempty : ¬ (s.condPush.leave thread).waiting.Nonempty :=
                Finset.not_nonempty_iff_eq_empty.mpr hnone
              exact ⟨fun hwaiting => absurd hwaiting hempty,
                fun hwaiting => absurd hwaiting hempty⟩
            · exact ⟨fun _ => Or.inr hwoken, fun _ _ => hwoken⟩
        | false => exact h.finish_take hop hpush hrd hcond
  exact ⟨h.producers_step hstep, hrest.1, hrest.2⟩

theorem inv_of_reachable (h : (system unstealable).ReachableWhen LeavesWoken s) : Inv s := by
  refine h.invariant ?_ fun s a s' hinv hok hstep => hinv.step hok (stepped_of_step hstep)
  intro s hs
  subst hs
  exact inv_init

/-- A step that leaves no woken producer loses one. -/
theorem lost_of_step (hstep : Stepped unstealable s a s') (hok : ¬ LeavesWoken s a) : Lost s' := by
  cases hstep with
  | called hidle hrd hcond hthreads => exact absurd trivial hok
  | waits hop hpush hfull hrd hcond hthreads =>
      refine absurd ((leavesWoken_locked hop).mpr fun _ hspace => ?_) hok
      rw [hfull] at hspace
      cases hspace
  | @finishes thread _ woken op _ hop hfree hspace hrd hcond hthreads =>
      rw [leavesWoken_locked hop] at hok
      simp only [Classical.not_imp, not_or, Finset.not_nonempty_iff_eq_empty] at hok
      obtain ⟨hpush, -, hwaiting, hsignalled⟩ := hok
      have hleave := finish_push hpush hcond
      refine ⟨?_, ?_, ?_⟩
      · rw [hleave]
        exact Finset.nonempty_iff_ne_empty.mpr hwaiting
      · rw [hleave]
        exact hsignalled
      · rw [hrd]
        exact waiterPush_push hpush

/-- An operation that takes a task does not wake a lost producer, -/
theorem Lost.take (h : Lost s) {score : Score τ} (hstep : Stepped unstealable s a s')
    (ha : a = .locked thread score woken) {op : Op τ} (hop : s.queue.threads thread = some op)
    (hpush : op.pushes = false) : Lost s' := by
  subst ha
  cases hstep with
  | waits hop' hpush' hfull hrd hcond hthreads =>
      rw [hop] at hop'
      cases hop'
      rw [hpush] at hpush'
      cases hpush'
  | finishes hop' hfree hspace hrd hcond hthreads =>
      rw [hop] at hop'
      cases hop'
      have hflag := h.waiterPush
      rw [if_neg fun hsignal => by rw [hflag] at hsignal; cases hsignal.2] at hcond
      refine ⟨?_, ?_, ?_⟩
      · rw [hcond]
        exact h.waiting
      · rw [hcond]
        show s.condPush.signalled.erase thread = ∅
        rw [h.signalled, Finset.erase_empty]
      · rw [hrd, waiterPush_outcome hpush]
        exact hflag

/-- and with space it sleeps on. -/
theorem Lost.not_awake (h : Lost s) (hspace : s.queue.rd.full = false) : ¬ Awake s := by
  intro hawake
  have hwoken := hawake h.waiting hspace
  rw [h.signalled] at hwoken
  exact Finset.not_nonempty_empty hwoken

/-- A blocked producer never misses space in the runs in which each producer that gets through
leaves a woken one, and a step loses a producer exactly when it does not. -/
theorem producers_awake (unstealable : τ → Bool)
    (h : (system unstealable).ReachableWhen LeavesWoken s) :
    Awake s ∧ ∀ a s', (system unstealable).step s a = some s' →
      (LeavesWoken s a ↔ ¬ Lost s') := by
  have hinv := inv_of_reachable h
  refine ⟨hinv.awake, fun a s' hstep => ⟨fun hok hlost => ?_, fun hlost => ?_⟩⟩
  · rcases (hinv.step hok (stepped_of_step hstep)).expects hlost.waiting with hflag | hwoken
    · rw [hlost.waiterPush] at hflag
      cases hflag
    · rw [hlost.signalled] at hwoken
      exact Finset.not_nonempty_empty hwoken
  · by_contra hok
    exact hlost (lost_of_step (stepped_of_step hstep) hok)

/-! ## A run with two blocked producers -/

/-- The counters, the flag, the condition and the threads of a state with an array. -/
structure At (s : Monitor τ) (T H : ℤ) (waiterPush : Bool) (condPush : CondVar ℕ)
    (threads : ℕ → Option (Op τ)) : Prop where
  allocated : s.queue.rd.allocated = true
  size : s.queue.rd.size = queueDefaultSize
  T : s.queue.rd.T = T
  H : s.queue.rd.H = H
  waiterPush : s.queue.rd.waiterPush = waiterPush
  condPush : s.condPush = condPush
  threads : s.queue.threads = threads

section

variable {T H : ℤ} {flag : Bool} {cond cond' : CondVar ℕ} {threads : ℕ → Option (Op τ)}
  (h : At s T H flag cond threads)

include h

theorem At.alloc_eq : fifoQueueAlloc s.queue.rd = s.queue.rd :=
  if_pos h.allocated

theorem At.full_eq : s.queue.rd.full = decide (queueDefaultSize ≤ int32 (T - H)) := by
  unfold FifoQueue.full
  rw [h.size, h.T, h.H]

theorem At.call {op : Op τ} (hidle : threads thread = none)
    (hpasses : op.passes s.queue.rd = true) :
    ∃ s', step unstealable s (.call thread op) = some s' ∧
      At s' T H flag cond (Function.update threads thread (some op)) := by
  refine ⟨⟨{ s.queue with threads := Function.update s.queue.threads thread (some op) },
    s.condPush⟩, ?_, h.allocated, h.size, h.T, h.H, h.waiterPush, h.condPush, ?_⟩
  · simp only [step, Sched.step, h.threads, hidle, hpasses, if_true, Option.map_some]
  · show Function.update s.queue.threads thread (some op) = _
    rw [h.threads]

theorem At.wait {op : Op τ} (hfree : thread ∉ cond.waiting) (hop : threads thread = some op)
    (hpush : op.pushes = true) (hfull : queueDefaultSize ≤ int32 (T - H)) :
    ∃ s', step unstealable s (.locked thread score woken) = some s' ∧
      At s' T H true (cond.wait thread) threads := by
  have hrd : s.queue.rd.full = true := h.full_eq.trans (decide_eq_true hfull)
  refine ⟨⟨{ s.queue with rd := { s.queue.rd with waiterPush := true } },
    s.condPush.wait thread⟩, ?_, h.allocated, h.size, h.T, h.H, rfl, ?_, h.threads⟩
  · rw [← h.condPush] at hfree
    rw [← h.threads] at hop
    simp only [step, if_neg hfree, hop, h.alloc_eq, hpush, hrd, and_self, if_true]
  · show s.condPush.wait thread = _
    rw [h.condPush]

theorem At.push {task : τ} (hfree : thread ∉ cond.waiting)
    (hop : threads thread = some (.push task)) (hspace : int32 (T - H) < queueDefaultSize) :
    ∃ s', step unstealable s (.locked thread score woken) = some s' ∧
      At s' (int32 (T + 1)) H false (cond.leave thread) (Function.update threads thread none) := by
  have hrd : s.queue.rd.full = false := h.full_eq.trans (decide_eq_false (not_le.mpr hspace))
  refine ⟨⟨Op.record s.queue (fifoQueuePush (fifoQueueAlloc s.queue.rd) task) thread (.push task),
    s.condPush.leave thread⟩, ?_, ?_⟩
  · rw [← h.condPush] at hfree
    rw [← h.threads] at hop
    have houtcome : Op.outcome unstealable score s.queue.rd (.push task) =
        fifoQueuePush (fifoQueueAlloc s.queue.rd) task := rfl
    simp only [step, if_neg hfree, hop, houtcome, h.alloc_eq, hrd, Bool.false_eq_true, and_false,
      if_false, Op.givesSpace, false_and]
  · rw [h.alloc_eq]
    refine ⟨h.allocated, h.size, ?_, h.H, rfl, ?_, ?_⟩
    · show int32 (s.queue.rd.T + 1) = _
      rw [h.T]
    · show s.condPush.leave thread = _
      rw [h.condPush]
    · show Function.update s.queue.threads thread none = _
      rw [h.threads]

/-- A pop that signals when the flag is set. -/
theorem At.pop (hfree : thread ∉ cond.waiting) (hop : threads thread = some .pop) (hlt : H < T)
    (hcond : if flag = true then (cond.leave thread).signal woken = some cond'
      else cond' = cond.leave thread) :
    ∃ s', step unstealable s (.locked thread score woken) = some s' ∧
      At s' T (int32 (H + 1)) flag cond' (Function.update threads thread none) := by
  have hrd : s.queue.rd.H < s.queue.rd.T := by
    rw [h.H, h.T]
    exact hlt
  refine ⟨⟨Op.record s.queue (fifoQueuePop s.queue.rd) thread .pop, cond'⟩, ?_, ?_⟩
  · rw [← h.condPush] at hfree hcond
    rw [← h.threads] at hop
    rw [← h.waiterPush] at hcond
    have hgives : Op.givesSpace unstealable score s.queue.rd .pop = true := decide_eq_true hrd
    have hpushes : (Op.pop : Op τ).pushes = false := rfl
    simp only [step, if_neg hfree, hop, hpushes, Bool.false_eq_true, false_and, if_false, hgives,
      true_and]
    split at hcond
    next hflag =>
      rw [if_pos hflag, hcond]
      rfl
    next hflag =>
      rw [if_neg hflag, hcond]
      rfl
  · unfold fifoQueuePop
    rw [if_pos hrd]
    refine ⟨h.allocated, h.size, h.T, ?_, h.waiterPush, rfl, ?_⟩
    · show int32 (s.queue.rd.H + 1) = _
      rw [h.H]
    · show Function.update s.queue.threads thread none = _
      rw [h.threads]

end

/-- No task is to stay where it is pushed. -/
def stealable : ℕ → Bool := fun _ => false

theorem leave_empty (thread : ℕ) : (CondVar.empty : CondVar ℕ).leave thread = CondVar.empty := by
  unfold CondVar.leave CondVar.empty
  dsimp only
  rw [Finset.erase_empty]

theorem idle_again (op : Op ℕ) :
    Function.update (Function.update (fun _ : ℕ => none) 0 (some op)) 0 none = fun _ => none := by
  rw [Function.update_idem]
  exact Function.update_eq_self 0 _

/-- A queue that one thread has pushed `n + 1` tasks on. -/
theorem exists_pushed (n : ℕ) (hn : n < 16384) :
    ∃ s : Monitor ℕ, (system stealable).ReachableWhen LeavesWoken s ∧
      At s (8193 + n) 8192 false CondVar.empty fun _ => none := by
  induction n with
  | zero =>
      let s₁ : Monitor ℕ :=
        { queue :=
            { (Sched.init : System ℕ) with
              threads := Function.update (fun _ => none) 0 (some (.push 0)) }
          condPush := CondVar.empty }
      let s₂ : Monitor ℕ :=
        { queue := Op.record s₁.queue (fifoQueuePush (fifoQueueAlloc fifoQueueInit) 0) 0 (.push 0)
          condPush := s₁.condPush.leave 0 }
      have hs₁ : (system stealable).ReachableWhen LeavesWoken s₁ :=
        .next (.start rfl) (show LeavesWoken init (.call 0 (.push 0)) from trivial) rfl
      have hok : LeavesWoken s₁ (.locked 0 (fun _ => none) none) :=
        (leavesWoken_locked rfl).mpr fun _ _ => Or.inl rfl
      have hs₂ : (system stealable).ReachableWhen LeavesWoken s₂ := .next hs₁ hok rfl
      exact ⟨s₂, hs₂, rfl, rfl, rfl, rfl, rfl, leave_empty 0, idle_again (.push 0)⟩
  | succ n ih =>
      obtain ⟨s, hs, hat⟩ := ih (by omega)
      obtain ⟨s₁, hcall, hat₁⟩ : ∃ s', step stealable s (.call 0 (.push 0)) = some s' ∧
          At s' (8193 + n) 8192 false CondVar.empty (Function.update (fun _ => none) 0
            (some (.push 0))) := hat.call rfl rfl
      have hspace : int32 (8193 + n - 8192) < queueDefaultSize := by
        unfold int32 queueDefaultSize
        omega
      obtain ⟨s₂, hpush, hat₂⟩ :
          ∃ s', step stealable s₁ (.locked 0 (fun _ => none) none) = some s' ∧
            At s' (int32 (8193 + n + 1)) 8192 false (CondVar.empty.leave 0)
              (Function.update (Function.update (fun _ => none) 0 (some (.push 0))) 0 none) :=
        hat₁.push (Finset.notMem_empty 0) (Function.update_self 0 _ _) hspace
      have hs₁ : (system stealable).ReachableWhen LeavesWoken s₁ :=
        .next hs (show LeavesWoken s (.call 0 (.push 0)) from trivial) hcall
      have hok : LeavesWoken s₁ (.locked 0 (fun _ => none) none) := by
        rw [leavesWoken_locked (by rw [hat₁.threads, Function.update_self])]
        intro _ _
        rw [hat₁.condPush]
        exact Or.inl rfl
      have hT : int32 (8193 + n + 1) = 8193 + (n + 1 : ℕ) := by
        unfold int32
        omega
      rw [hT, leave_empty, idle_again] at hat₂
      exact ⟨s₂, .next hs₁ hok hpush, hat₂⟩

/-- The threads 1 and 2 push. -/
def twoPushes : ℕ → Option (Op ℕ) :=
  Function.update (Function.update (fun _ => none) 1 (some (.push 1))) 2 (some (.push 2))

/-- On a full queue two producers are blocked, and a pop wakes the first one. -/
theorem exists_blocked :
    ∃ s : Monitor ℕ, (system stealable).ReachableWhen LeavesWoken s ∧
      At s 24576 8193 true ⟨{2}, {1}⟩ (Function.update (Function.update twoPushes 0 (some .pop)) 0
        none) := by
  obtain ⟨s, hs, hat⟩ := exists_pushed 16383 (by decide)
  have hcounter : (8193 + (16383 : ℕ) : ℤ) = 24576 := by decide
  rw [hcounter] at hat
  have hfull : queueDefaultSize ≤ int32 (24576 - 8192) := by decide
  have hwaits : ∀ {s : Monitor ℕ} {cond threads flag thread op woken},
      At s 24576 8192 flag cond threads → threads thread = some op →
        LeavesWoken s (.locked thread (fun _ => none) woken) := by
    intro s cond threads flag thread op woken hat hop
    rw [← hat.threads] at hop
    rw [leavesWoken_locked hop, hat.alloc_eq, hat.full_eq, decide_eq_true hfull]
    exact fun _ hspace => nomatch hspace
  obtain ⟨s₁, hstep₁, hat₁⟩ : ∃ s', step stealable s (.call 1 (.push 1)) = some s' ∧
      At s' 24576 8192 false CondVar.empty (Function.update (fun _ => none) 1 (some (.push 1))) :=
    hat.call rfl rfl
  obtain ⟨s₂, hstep₂, hat₂⟩ : ∃ s', step stealable s₁ (.locked 1 (fun _ => none) none) = some s' ∧
      At s' 24576 8192 true (CondVar.empty.wait 1)
        (Function.update (fun _ => none) 1 (some (.push 1))) :=
    hat₁.wait (Finset.notMem_empty 1) rfl rfl hfull
  obtain ⟨s₃, hstep₃, hat₃⟩ : ∃ s', step stealable s₂ (.call 2 (.push 2)) = some s' ∧
      At s' 24576 8192 true (CondVar.empty.wait 1) twoPushes := hat₂.call rfl rfl
  obtain ⟨s₄, hstep₄, hat₄⟩ : ∃ s', step stealable s₃ (.locked 2 (fun _ => none) none) = some s' ∧
      At s' 24576 8192 true ((CondVar.empty.wait 1).wait 2) twoPushes :=
    hat₃.wait (by decide) rfl rfl hfull
  have hpasses : Op.pop.passes s₄.queue.rd = true := by
    refine decide_eq_true ?_
    rw [hat₄.H, hat₄.T]
    decide
  obtain ⟨s₅, hstep₅, hat₅⟩ : ∃ s', step stealable s₄ (.call 0 .pop) = some s' ∧
      At s' 24576 8192 true ((CondVar.empty.wait 1).wait 2)
        (Function.update twoPushes 0 (some .pop)) := hat₄.call rfl hpasses
  obtain ⟨s₆, hstep₆, hat₆⟩ :
      ∃ s', step stealable s₅ (.locked 0 (fun _ => none) (some 1)) = some s' ∧
        At s' 24576 (int32 (8192 + 1)) true ⟨{2}, {1}⟩
          (Function.update (Function.update twoPushes 0 (some .pop)) 0 none) :=
    hat₅.pop (by decide) rfl (by decide) (by decide)
  have hint : int32 (8192 + 1) = 8193 := by decide
  rw [hint] at hat₆
  have hs₁ : (system stealable).ReachableWhen LeavesWoken s₁ :=
    .next hs (show LeavesWoken s (.call 1 (.push 1)) from trivial) hstep₁
  have hs₂ : (system stealable).ReachableWhen LeavesWoken s₂ := .next hs₁ (hwaits hat₁ rfl) hstep₂
  have hs₃ : (system stealable).ReachableWhen LeavesWoken s₃ :=
    .next hs₂ (show LeavesWoken s₂ (.call 2 (.push 2)) from trivial) hstep₃
  have hs₄ : (system stealable).ReachableWhen LeavesWoken s₄ := .next hs₃ (hwaits hat₃ rfl) hstep₄
  have hs₅ : (system stealable).ReachableWhen LeavesWoken s₅ :=
    .next hs₄ (show LeavesWoken s₄ (.call 0 .pop) from trivial) hstep₅
  exact ⟨s₆, .next hs₅ (hwaits hat₅ rfl) hstep₆, hat₆⟩

/-- There the second producer is not missed. -/
theorem producers_awake_blocked :
    ∃ s : Monitor ℕ, s.condPush = ⟨{2}, {1}⟩ ∧ s.queue.rd.full = false ∧ Awake s := by
  obtain ⟨s, hs, hat⟩ := exists_blocked
  have hspace : s.queue.rd.full = false := hat.full_eq.trans (by decide)
  exact ⟨s, hat.condPush, hspace, (producers_awake stealable hs).1⟩

/-- When the first producer gets through, the next pop does not wake the second one. -/
theorem not_producers_awake :
    ∃ s : Monitor ℕ, (system stealable).Reachable s ∧ ¬ Awake s := by
  obtain ⟨s, hs, hat⟩ := exists_blocked
  let threads : ℕ → Option (Op ℕ) :=
    Function.update (Function.update (Function.update twoPushes 0 (some .pop)) 0 none) 1 none
  obtain ⟨s₁, hstep₁, hat₁⟩ : ∃ s', step stealable s (.locked 1 (fun _ => none) none) = some s' ∧
      At s' (int32 (24576 + 1)) 8193 false (CondVar.leave ⟨{2}, {1}⟩ 1) threads :=
    hat.push (by decide) rfl (by decide)
  have hint : int32 (24576 + 1) = 24577 := by decide
  rw [hint] at hat₁
  have hpasses : Op.pop.passes s₁.queue.rd = true := by
    refine decide_eq_true ?_
    rw [hat₁.H, hat₁.T]
    decide
  obtain ⟨s₂, hstep₂, hat₂⟩ : ∃ s', step stealable s₁ (.call 0 .pop) = some s' ∧
      At s' 24577 8193 false (CondVar.leave ⟨{2}, {1}⟩ 1)
        (Function.update threads 0 (some .pop)) := hat₁.call rfl hpasses
  obtain ⟨s₃, hstep₃, hat₃⟩ : ∃ s', step stealable s₂ (.locked 0 (fun _ => none) none) = some s' ∧
      At s' 24577 (int32 (8193 + 1)) false (CondVar.leave (CondVar.leave ⟨{2}, {1}⟩ 1) 0)
        (Function.update (Function.update threads 0 (some .pop)) 0 none) :=
    hat₂.pop (by decide) rfl (by decide) rfl
  have hs : (system stealable).Reachable s := hs.mono fun _ _ _ => trivial
  have hlost : Lost s₃ := by
    refine ⟨?_, ?_, hat₃.waiterPush⟩
    · rw [hat₃.condPush]
      decide
    · rw [hat₃.condPush]
      decide
  have hspace : s₃.queue.rd.full = false := hat₃.full_eq.trans (by decide)
  have hs₁ : (system stealable).Reachable s₁ :=
    .next (a := .locked 1 (fun _ => none) none) hs trivial hstep₁
  have hs₂ : (system stealable).Reachable s₂ := .next (a := .call 0 .pop) hs₁ trivial hstep₂
  have hs₃ : (system stealable).Reachable s₃ :=
    .next (a := .locked 0 (fun _ => none) none) hs₂ trivial hstep₃
  exact ⟨s₃, hs₃, hlost.not_awake hspace⟩

end Monitor

end Xkblas.Sched
