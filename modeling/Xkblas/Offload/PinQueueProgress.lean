import Mathlib.Algebra.Order.BigOperators.Group.Finset
import Xkblas.Library.FiniteSum
import Xkblas.Offload.PinQueueSafety

/-!
# Progress of the queue of the pin and unpin requests

While there is a request, the daemon goes on with it, or the thread that has the lock it needs goes
on. A thread that has the lock of a request has only its own sleep before it. When there is no
request left, the daemon sleeps and each thread ends its call. The steps that are left are counted
by one measure.
-/

namespace Xkblas.Offload.PinQueue

open Library

variable {κ ρ : Type} [Fintype κ] [DecidableEq κ] {s t : State κ ρ} {c c' : κ} {index : ℕ}

/-! ## The measure -/

/-- A bound on the steps that a thread has left, with those of the daemon for its request. -/
def Pc.left : Pc ρ → ℕ
  | .post _ => 10
  | .postSleep _ => 11
  | .test _ => 2
  | .testRead _ => 1
  | .wait _ => 6
  | .waitLock _ => 5
  | .waitReq _ => 4
  | .waitState _ => 3
  | .waitSleep _ => 2
  | .waitWake _ => 1
  | .waitall _ => 3
  | .waitallSleep _ _ => 2
  | .waitallWake _ _ => 1
  | .out | .posted _ | .tested _ _ _ | .waited _ _ | .waitedAll _ => 0

/-- A bound on the steps that the daemon has left before it looks at the next request. -/
def Daemon.left : Daemon ρ → ℕ
  | .lock => 5
  | .check => 4
  | .execute _ => 3
  | .relock => 2
  | .finish => 1
  | .asleep => 0

/-- A bound on the steps that are left. -/
def State.left (s : State κ ρ) : ℕ :=
  4 * (s.posw - s.posr) + s.daemon.left + ∑ c, (s.pc c).left

omit [Fintype κ] [DecidableEq κ] in
/-- A thread that is woken by a broadcast has fewer steps left. -/
theorem Pc.left_broadcast_le (p : Pc ρ) : p.broadcast.left ≤ p.left := by
  cases p with
  | postSleep req => exact Nat.le_succ 10
  | waitallSleep pos earlier => exact Nat.le_succ 1
  | _ => exact le_rfl

theorem sum_left_setPc (s : State κ ρ) (c : κ) (pc : Pc ρ) :
    ∑ c', ((s.setPc c pc).pc c').left + (s.pc c).left = ∑ c', (s.pc c').left + pc.left := by
  have hsum := sum_add_of_eq_off (u := fun c' => ((s.setPc c pc).pc c').left)
    (v := fun c' => (s.pc c').left) (Finset.mem_univ c) fun c' _ hc' => by
      rw [setPc_pc_of_ne s pc hc']
  rwa [setPc_pc_self] at hsum

/-- The state has a step of a thread or of the daemon that meets the condition and leaves fewer
steps. -/
def Progress (s : State κ ρ) : Prop :=
  ∃ a t, a.isStep = true ∧ Ok s a ∧ step s a = some t ∧ t.left < s.left

/-- A step that only moves a thread. -/
theorem Progress.move (pc : Pc ρ) (hok : s.PointOk (s.pc c)) (hstep : s.client c = some t)
    (hpc : t.pc = (s.setPc c pc).pc) (hposw : t.posw = s.posw) (hposr : t.posr = s.posr)
    (hdaemon : t.daemon = s.daemon) (hlt : pc.left < (s.pc c).left) : Progress s := by
  refine ⟨.client c, t, rfl, hok, hstep, ?_⟩
  have hsum := sum_left_setPc s c pc
  unfold State.left
  rw [hpc, hposw, hposr, hdaemon]
  omega

/-- A step that only moves the daemon. -/
theorem Progress.daemon {w : Option κ} (hstep : s.daemonStep w = some t) (hpc : t.pc = s.pc)
    (hposw : t.posw = s.posw) (hposr : t.posr = s.posr) (hlt : t.daemon.left < s.daemon.left) :
    Progress s := by
  refine ⟨.daemon w, t, rfl, trivial, hstep, ?_⟩
  unfold State.left
  rw [hpc, hposw, hposr]
  omega

/-! ## The holders of the locks -/

/-- The holder of the lock of a request goes on. -/
theorem Inv.progress_of_reqLock {j : ℕ} (h : Inv s) (hlock : s.reqLock j = some c) :
    Progress s := by
  obtain ⟨index, hpc, _⟩ := (h.reqLock j c).mp hlock
  have hknows := h.knows c
  rw [hpc] at hknows
  obtain ⟨_, _, hpost⟩ := hknows
  have hstep : s.client c = some { s.setPc c (.waitSleep index) with
      state := Function.update s.state (slot index) .wait
      reqLock := Function.update s.reqLock (slot index) none } := by
    unfold State.client
    rw [hpc]
    exact congrArg some (if_pos hpost)
  refine Progress.move (.waitSleep index) (by rw [hpc]; trivial) hstep rfl rfl rfl rfl ?_
  rw [hpc]
  exact Nat.lt_succ_self 2

/-- The thread that has the lock of the queue, or the holder of the lock that it waits for, goes
on. -/
theorem Inv.progress_of_lock (h : Inv s) (hlock : s.lock = some (.client c)) : Progress s := by
  obtain ⟨index, hpc⟩ := (h.lockClient c).mp hlock
  cases hreq : s.reqLock (slot index) with
  | some c' => exact h.progress_of_reqLock hreq
  | none =>
      have hstep : s.client c = some { s.setPc c (.waitState index) with
          reqLock := Function.update s.reqLock (slot index) (some c)
          lock := none } := by
        unfold State.client
        rw [hpc]
        exact if_pos hreq
      refine Progress.move (.waitState index) (by rw [hpc]; trivial) hstep rfl rfl rfl rfl ?_
      rw [hpc]
      exact Nat.lt_succ_self 3

/-! ## The daemon -/

omit [DecidableEq κ] [Fintype κ] in
/-- The lock of the queue is free, or a thread has it. -/
theorem Inv.lock_free_or (h : Inv s) (hlocks : s.daemon.locks = false) :
    s.lock = none ∨ ∃ c, s.lock = some (.client c) := by
  match hlock : s.lock with
  | none => exact .inl rfl
  | some (.client c) => exact .inr ⟨c, rfl⟩
  | some .daemon =>
      rw [h.lockDaemon.mp hlock] at hlocks
      cases hlocks

/-- There is a thread that the signal for the request at `posr` can wake, or none is needed. -/
theorem Inv.exists_signal (h : Inv s) (hlt : s.posr < s.posw) :
    ∃ w pcs, (if s.state (slot s.posr) = .wait then s.signalReq (slot s.posr) w
      else some s.pc) = some pcs := by
  rcases h.states s.posr le_rfl hlt with hpost | ⟨hwait, c, hc⟩
  · exact ⟨none, s.pc, if_neg (by rw [hpost]; nofun)⟩
  · refine ⟨some c, Function.update s.pc c (.waitWake s.posr), (if_pos hwait).trans ?_⟩
    simp only [State.signalReq, hc, if_true]

/-- The daemon marks the request. -/
theorem Inv.progress_finish (h : Inv s) (hd : s.daemon = .finish)
    (hfree : s.reqLock (slot s.posr) = none) : Progress s := by
  have hlt : s.posr < s.posw := h.busy (by rw [hd]; rfl)
  obtain ⟨w, pcs, hsignal⟩ := h.exists_signal hlt
  obtain ⟨hpcs, _⟩ := h.signalReq hlt hsignal
  have hstep : s.daemonStep w = some { s with
      state := Function.update s.state (slot s.posr) .done
      posr := s.posr + 1
      pc := fun c => (pcs c).broadcast
      daemon := .check } := by
    unfold State.daemonStep
    rw [hd]
    exact (if_pos hfree).trans (congrArg _ hsignal)
  refine ⟨.daemon w, _, rfl, trivial, hstep, ?_⟩
  have hsum : ∑ c, ((pcs c).broadcast).left ≤ ∑ c, (s.pc c).left := by
    refine Finset.sum_le_sum fun c _ => (Pc.left_broadcast_le _).trans ?_
    rcases hpcs c with hsame | ⟨hsleep, hwake⟩
    · rw [hsame]
    · rw [hsleep, hwake]
      exact Nat.le_succ 1
  show 4 * (s.posw - (s.posr + 1)) + 4 + ∑ c, ((pcs c).broadcast).left <
    4 * (s.posw - s.posr) + s.daemon.left + ∑ c, (s.pc c).left
  rw [hd]
  show _ < 4 * (s.posw - s.posr) + 1 + _
  omega

/-- The daemon takes the lock of the queue, or the holder goes on. -/
theorem Inv.progress_daemonLock {d : Daemon ρ} (h : Inv s) (hlocks : s.daemon.locks = false)
    (hstep : s.lock = none →
      s.daemonStep none = some { s with lock := some .daemon, daemon := d })
    (hlt : d.left < s.daemon.left) : Progress s := by
  rcases h.lock_free_or hlocks with hfree | ⟨c, hlock⟩
  · exact .daemon (hstep hfree) rfl rfl rfl hlt
  · exact h.progress_of_lock hlock

/-- The daemon goes on while it is not asleep. -/
theorem Inv.progress_awake (h : Inv s) (hawake : s.daemon ≠ .asleep) : Progress s := by
  cases hd : s.daemon with
  | lock =>
      refine h.progress_daemonLock (d := .check) (by rw [hd]; rfl) (fun hfree => ?_) ?_
      · unfold State.daemonStep
        rw [hd]
        exact if_pos hfree
      · rw [hd]
        exact Nat.lt_succ_self 4
  | check =>
      have hstep : s.daemonStep none =
          if s.posw = s.posr then some { s with lock := none, daemon := .asleep }
          else if s.posr < s.posw then
            some { s with lock := none, daemon := .execute (s.req (slot s.posr)) }
          else some s := by
        unfold State.daemonStep
        rw [hd]
      by_cases hempty : s.posw = s.posr
      · refine .daemon (hstep.trans (if_pos hempty)) rfl rfl rfl ?_
        rw [hd]
        exact Nat.succ_pos 3
      · have hlt : s.posr < s.posw := lt_of_le_of_ne h.le (Ne.symm hempty)
        refine .daemon (hstep.trans ((if_neg hempty).trans (if_pos hlt))) rfl rfl rfl ?_
        rw [hd]
        exact Nat.lt_succ_self 3
  | asleep => exact absurd hd hawake
  | execute req =>
      have hstep : s.daemonStep none =
          some { s with executed := s.executed ++ [req], daemon := .relock } := by
        unfold State.daemonStep
        rw [hd]
      refine .daemon hstep rfl rfl rfl ?_
      rw [hd]
      exact Nat.lt_succ_self 2
  | relock =>
      refine h.progress_daemonLock (d := .finish) (by rw [hd]; rfl) (fun hfree => ?_) ?_
      · unfold State.daemonStep
        rw [hd]
        exact if_pos hfree
      · rw [hd]
        exact Nat.lt_succ_self 1
  | finish =>
      cases hreq : s.reqLock (slot s.posr) with
      | some c => exact h.progress_of_reqLock hreq
      | none => exact h.progress_finish hd hreq

/-! ## The threads -/

omit [DecidableEq κ] [Fintype κ] in
/-- The locks are free while the daemon sleeps. -/
theorem Inv.locks_free (h : Inv s) (hd : s.daemon = .asleep) :
    s.lock = none ∧ ∀ j, s.reqLock j = none := by
  have hempty := h.asleep hd
  constructor
  · rcases h.lock_free_or (by rw [hd]; rfl) with hfree | ⟨c, hlock⟩
    · exact hfree
    · obtain ⟨index, hpc⟩ := (h.lockClient c).mp hlock
      have hknows := h.knows c
      rw [hpc] at hknows
      obtain ⟨hle, hlt⟩ := hknows
      omega
  · intro j
    match hlock : s.reqLock j with
    | none => rfl
    | some c =>
        obtain ⟨index, hpc, _⟩ := (h.reqLock j c).mp hlock
        have hknows := h.knows c
        rw [hpc] at hknows
        obtain ⟨hle, hlt, _⟩ := hknows
        omega

/-- A thread posts its request while the daemon sleeps. -/
theorem Inv.progress_post {req : ρ} (h : Inv s) (hd : s.daemon = .asleep)
    (hpc : s.pc c = .post req) : Progress s := by
  have hempty := h.asleep hd
  have hroom : ¬ maxReglist ≤ s.posw - s.posr := by
    rw [hempty, Nat.sub_self]
    decide
  have hstep : s.client c = some { s.setPc c (.posted s.posw) with
      posw := s.posw + 1
      req := Function.update s.req (slot s.posw) req
      state := Function.update s.state (slot s.posw) .post
      daemon := s.daemon.signal
      posted := s.posted ++ [req] } := by
    unfold State.client
    rw [hpc]
    exact (if_pos (h.locks_free hd).1).trans (congrArg some (if_neg hroom))
  refine ⟨.client c, _, rfl, ?_, hstep, ?_⟩
  · show s.PointOk (s.pc c)
    rw [hpc]
    trivial
  · have hsum := sum_left_setPc s c (.posted s.posw)
    rw [hpc] at hsum
    show 4 * (s.posw + 1 - s.posr) + s.daemon.signal.left +
      ∑ c', ((s.setPc c (.posted s.posw)).pc c').left < _
    unfold State.left
    rw [hd, hempty] at *
    simp only [Pc.left, Daemon.left, Daemon.signal] at *
    omega

/-- A thread that waits for all requests ends its wait while the daemon sleeps. -/
theorem Inv.progress_waitall {pos earlier : ℕ} (h : Inv s) (hd : s.daemon = .asleep)
    (hok : s.PointOk (s.pc c)) (hpos : pos ≤ s.posw) (hleft : 0 < (s.pc c).left)
    (hstep : s.client c = if s.lock = none then some (s.waitallLoop c pos earlier) else none) :
    Progress s := by
  have hdone : ¬ s.posr < pos := by
    have hempty := h.asleep hd
    omega
  have hends : s.client c = some (s.setPc c (.waitedAll earlier)) :=
    hstep.trans ((if_pos (h.locks_free hd).1).trans (congrArg some (if_neg hdone)))
  exact .move _ hok hends rfl rfl rfl rfl hleft

/-- A thread in a call goes on while the daemon sleeps. -/
theorem Inv.progress_asleep (h : Inv s) (hd : s.daemon = .asleep) (hin : (s.pc c).isOut = false) :
    Progress s := by
  have hempty := h.asleep hd
  obtain ⟨hfree, hfreeReq⟩ := h.locks_free hd
  have hknows := h.knows c
  have hclient : s.client c = s.client c := rfl
  conv at hclient => rhs; unfold State.client
  cases hpc : s.pc c with
  | post req => exact h.progress_post hd hpc
  | postSleep req =>
      rw [hpc] at hknows
      have hfull : s.posr + maxReglist ≤ s.posw := hknows
      have hpos : 0 < maxReglist := by decide
      omega
  | test index =>
      rw [hpc] at hclient
      by_cases hle : s.posw ≤ index
      · refine .move _ (by rw [hpc]; trivial) (hclient.trans (if_pos hle)) rfl rfl rfl rfl ?_
        rw [hpc]
        exact Nat.succ_pos 1
      · refine .move _ (by rw [hpc]; trivial) (hclient.trans (if_neg hle)) rfl rfl rfl rfl ?_
        rw [hpc]
        exact Nat.lt_succ_self 1
  | testRead index =>
      rw [hpc] at hclient hknows
      have hlt : index < s.posw := hknows
      refine .move _ ?_ hclient rfl rfl rfl rfl ?_
      · rw [hpc]
        show index = s.posr → index < s.executed.length
        omega
      · rw [hpc]
        exact Nat.succ_pos 0
  | wait index =>
      rw [hpc] at hclient
      by_cases hle : s.posw ≤ index
      · refine .move _ (by rw [hpc]; trivial) (hclient.trans (if_pos hle)) rfl rfl rfl rfl ?_
        rw [hpc]
        exact Nat.succ_pos 5
      · refine .move _ (by rw [hpc]; trivial) (hclient.trans (if_neg hle)) rfl rfl rfl rfl ?_
        rw [hpc]
        exact Nat.lt_succ_self 5
  | waitLock index =>
      rw [hpc] at hclient hknows
      have hlt : index < s.posw := hknows
      have hdone : ¬ s.posr ≤ index := by omega
      have hends : s.client c = some (s.setPc c (.waited index .ok)) :=
        hclient.trans ((if_pos hfree).trans (congrArg some (if_neg hdone)))
      refine .move _ ?_ hends rfl rfl rfl rfl ?_
      · rw [hpc]
        exact fun hle => absurd hle hdone
      · rw [hpc]
        exact Nat.succ_pos 4
  | waitReq index =>
      rw [hpc] at hknows
      obtain ⟨hle, hlt⟩ := hknows
      omega
  | waitState index =>
      rw [hpc] at hknows
      obtain ⟨hle, hlt, _⟩ := hknows
      omega
  | waitSleep index =>
      rw [hpc] at hknows
      obtain ⟨hle, hlt, _⟩ := hknows
      omega
  | waitWake index =>
      rw [hpc] at hclient
      refine .move _ (by rw [hpc]; trivial) (hclient.trans (if_pos (hfreeReq _))) rfl rfl rfl rfl ?_
      rw [hpc]
      exact Nat.succ_pos 0
  | waitall earlier =>
      rw [hpc] at hclient
      refine h.progress_waitall hd (by rw [hpc]; trivial) le_rfl ?_ hclient
      rw [hpc]
      exact Nat.succ_pos 2
  | waitallSleep pos earlier =>
      rw [hpc] at hknows
      obtain ⟨hlt, hle, _⟩ := hknows
      omega
  | waitallWake pos earlier =>
      rw [hpc] at hclient hknows
      refine h.progress_waitall hd (by rw [hpc]; trivial) hknows.1 ?_ hclient
      rw [hpc]
      exact Nat.succ_pos 0
  | _ =>
      rw [hpc] at hin
      cases hin

/-! ## The end of the calls -/

/-- The daemon sleeps, and no thread is in a call. -/
def Idle (s : State κ ρ) : Prop :=
  s.daemon = .asleep ∧ ∀ c, (s.pc c).isOut = true

/-- While the daemon is awake or a thread is in a call, one of them goes on. -/
theorem Inv.progress (h : Inv s) (hgoal : ¬ Idle s) : Progress s := by
  by_cases hd : s.daemon = .asleep
  · obtain ⟨c, hc⟩ := not_forall.mp fun hout => hgoal ⟨hd, hout⟩
    exact h.progress_asleep hd (Bool.eq_false_iff.mpr hc)
  · exact h.progress_awake hd

/-- The threads end their calls and the daemon the requests, without further calls. -/
theorem Inv.leadsTo_idle (h : Inv s) :
    ∃ t, (system κ ρ).LeadsTo (fun s a => Ok s a ∧ a.isStep = true) s t ∧ Inv t ∧ Idle t := by
  refine TransitionSystem.exists_leadsTo_of_measure State.left ?_ h
  intro s h hgoal
  obtain ⟨a, t, hcall, hok, hstep, hlt⟩ := h.progress hgoal
  exact ⟨t, .single ⟨hok, hcall⟩ hstep, h.step hok hstep, hlt⟩

omit [DecidableEq κ] [Fintype κ] in
/-- All requests are executed when the daemon sleeps. -/
theorem Inv.executed_of_asleep (h : Inv s) (hd : s.daemon = .asleep) : s.executed = s.posted := by
  refine h.inOrder.eq_of_length ?_
  have hcount := h.count
  rw [hd] at hcount
  rw [h.length, h.asleep hd]
  exact hcount

/-! ## The requests -/

/-- The requests are executed once, in the order in which they were posted, and keep their slots
until then. A test tells whether its request has been executed. A wait ends after its request, a
wait for all requests after those that were posted before it, and no call ends with a lock. The
threads and the daemon can always come to the end of the calls and of the requests. -/
structure Sound (s : State κ ρ) : Prop where
  inOrder : s.executed <+: s.posted
  slots : ∀ i, s.posr ≤ i → i < s.posw → s.posted[i]? = some (s.req (slot i))
  marked : s.posr ≤ s.executed.length
  test : ∀ c index err executed, s.pc c = .tested index err executed →
    (err = .ok ↔ executed = true)
  wait : ∀ c index, s.pc c = .waited index .ok → index < s.executed.length
  waitall : ∀ c earlier, s.pc c = .waitedAll earlier → earlier ≤ s.executed.length
  lock : ∀ c, (s.pc c).isOut = true → s.lock ≠ some (.client c)
  reqLock : ∀ c j, (s.pc c).isOut = true → s.reqLock j ≠ some c
  ends : ∃ t, (system κ ρ).LeadsTo (fun s a => Ok s a ∧ a.isStep = true) s t ∧
    t.executed = t.posted ∧ ∀ c, (t.pc c).isOut = true

/-- In every run that meets the condition, the queue is sound. -/
theorem pinQueue_sound (hs : (system κ ρ).ReachableWhen Ok s) : Sound s := by
  have h := inv_of_reachable hs
  have hmarked : s.posr ≤ s.executed.length := by
    rw [h.count]
    exact Nat.le_add_right _ _
  refine ⟨h.inOrder, h.slots, hmarked, fun c index err executed hpc => ?_, fun c index hpc => ?_,
    fun c earlier hpc => ?_, fun c hout hlock => ?_, fun c j hout hlock => ?_, ?_⟩
  · have hknows := h.knows c
    rw [hpc] at hknows
    exact hknows.1
  · have hknows := h.knows c
    rw [hpc] at hknows
    exact (hknows rfl).trans_le hmarked
  · have hknows := h.knows c
    rw [hpc] at hknows
    exact le_trans hknows hmarked
  · obtain ⟨index, hpc⟩ := (h.lockClient c).mp hlock
    rw [hpc] at hout
    cases hout
  · obtain ⟨index, hpc, _⟩ := (h.reqLock j c).mp hlock
    rw [hpc] at hout
    cases hout
  · obtain ⟨t, hleads, ht, hidle⟩ := h.leadsTo_idle
    exact ⟨t, hleads, ht.executed_of_asleep hidle.1, hidle.2⟩

/-- After the initialization. -/
def start (κ : Type) : State κ ℕ where
  posw := 0
  posr := 0
  lock := none
  req := fun _ => 0
  state := fun _ => .init
  reqLock := fun _ => none
  daemon := .lock
  pc := fun _ => .out
  posted := []
  executed := []

theorem initial_start (κ : Type) : Initial (start κ) :=
  ⟨rfl, rfl, rfl, fun _ => rfl, rfl, fun _ => rfl, rfl, rfl⟩

/-- A thread posts a request and waits for it, and another one waits for all requests. -/
theorem pinQueue_sound_twoThreads :
    Sound (((system (Fin 2) ℕ).replay Ok (start (Fin 2))
      [.call 0 (.post 7), .client 0, .call 0 (.wait 0), .client 0, .client 0, .client 0, .client 0,
        .call 1 .waitall, .client 1, .daemon none, .daemon none, .daemon none, .daemon none,
        .daemon (some 0), .client 0, .daemon none, .client 1]).get (by decide)) :=
  pinQueue_sound ((TransitionSystem.ReachableWhen.start (initial_start (Fin 2))).replay
    (Option.some_get _).symm)

/-- A thread posts a request, and a test tells that it is completed before the daemon has looked at
the queue. -/
theorem not_pinQueue_sound :
    ¬ ∀ s, (system (Fin 1) ℕ).Reachable s → Sound s := by
  let s := ((system (Fin 1) ℕ).run (start (Fin 1))
    [.call 0 (.post 7), .client 0, .call 0 (.test 0), .client 0, .client 0]).get (by decide)
  have hrun : (system (Fin 1) ℕ).run (start (Fin 1))
      [.call 0 (.post 7), .client 0, .call 0 (.test 0), .client 0, .client 0] = some s :=
    (Option.some_get _).symm
  intro hall
  have hsound := hall s (.replay (.start (initial_start (Fin 1))) hrun)
  have hpc : s.pc 0 = .tested 0 .ok false := rfl
  exact nomatch (hsound.test 0 0 .ok false hpc).mp rfl

end Xkblas.Offload.PinQueue
