import Xkblas.Sched.DataFlowPoints

/-!
# The counters of the tasks

The counter of a task counts its accesses that are not ready. A task is pushed once, when the
counter reaches 0, and every thread takes a task that was pushed. The steps of the threads keep
these facts.
-/

namespace Xkblas.Sched.DataFlow

open Library

variable {η V : Type}

variable {s s' : State η V} {k t i : ℕ} {a : Ref η}

/-- The accesses that the thread of a task still has to signal. -/
def Pc.rest : Pc η → Option (List (Ref η))
  | .signal rest | .notify _ rest => some rest
  | _ => none

section Tasks

variable [DecidableEq η]

/-- What the counters of the tasks say: a task is pushed once, when all its accesses are ready. -/
structure Tasks (s : State η V) : Prop where
  wc : ∀ t task, s.tasks[t]? = some task →
    s.taskWc t = ((accesses t 0 task.params).countP (fun a => s.ready a = false) : ℤ)
  pushed : ∀ t, t ∈ s.pushed ↔ t < s.tasks.length ∧ s.taskWc t = 0
  pushed_nodup : s.pushed.Nodup
  queue : ∀ t, t ∈ s.queue ↔ t ∈ s.pushed ∧ s.pc t = .idle
  queue_nodup : s.queue.Nodup
  idle : ∀ t, t ∉ s.pushed → s.pc t = .idle
  rest : ∀ t task, s.tasks[t]? = some task → ∀ rest, (s.pc t).rest = some rest →
    rest <:+ accesses t 0 task.params
  spawn : s.spawn = s.tasks.length
  exec : s.exec = (List.range s.tasks.length).countP (fun t => s.pc t = .finished)
  legal : ∀ task ∈ s.tasks, Legal task

/-- A step that changes nothing of the tasks. -/
theorem Tasks.congr (ht : Tasks s) (htasks : s'.tasks = s.tasks) (hwc : s'.taskWc = s.taskWc)
    (hready : ∀ t i, s'.ready (.access t i) = s.ready (.access t i)) (hqueue : s'.queue = s.queue)
    (hpushed : s'.pushed = s.pushed) (hpc : s'.pc = s.pc) (hspawn : s'.spawn = s.spawn)
    (hexec : s'.exec = s.exec) : Tasks s' := by
  obtain ⟨wc, pushed, pushed_nodup, queue, queue_nodup, idle, rest, spawn, exec, legal⟩ := ht
  rw [← htasks] at wc pushed rest spawn exec legal
  rw [← hwc] at wc pushed
  rw [← hpushed] at pushed pushed_nodup queue idle
  rw [← hqueue] at queue queue_nodup
  rw [← hpc] at queue idle rest exec
  rw [← hspawn] at spawn
  rw [← hexec] at exec
  refine ⟨fun t task htask => ?_, pushed, pushed_nodup, queue, queue_nodup, idle, rest, spawn, exec,
    legal⟩
  rw [wc t task htask]
  congr 1
  refine List.countP_congr fun a ha => ?_
  obtain ⟨j, _, _, rfl, _⟩ := mem_accesses.mp ha
  rw [hready]

theorem Tasks.lt_of_pushed (ht : Tasks s) (hp : t ∈ s.pushed) : t < s.tasks.length :=
  ((ht.pushed t).mp hp).1

/-- All accesses of a task that was pushed are ready. -/
theorem Tasks.ready_of_pushed (ht : Tasks s) {task : Task η V} (htask : s.tasks[t]? = some task)
    (hp : t ∈ s.pushed) (ha : a ∈ accesses t 0 task.params) : s.ready a = true := by
  have hzero := ((ht.pushed t).mp hp).2
  rw [ht.wc t task htask] at hzero
  have hnone := List.countP_eq_zero.mp (Int.ofNat_eq_zero.mp hzero) a ha
  simpa using hnone

/-- A task that has been started was pushed. -/
theorem Tasks.pushed_of_pc (ht : Tasks s) (hpc : s.pc t ≠ .idle) : t ∈ s.pushed := by
  by_contra hnot
  exact hpc (ht.idle t hnot)

/-- The last access of a task that becomes ready. -/
theorem notify_of_zero (howner : s.task a = some t) (hzero : s.taskWc t - 1 = 0) :
    s.notify a = State.push { s with
      ready := Function.update s.ready a true
      taskWc := Function.update s.taskWc t (s.taskWc t - 1) } t := by
  unfold State.notify
  simp only [howner]
  exact if_pos ((Function.update_self t _ s.taskWc).trans hzero)

theorem notify_of_ne (howner : s.task a = some t) (hne : s.taskWc t - 1 ≠ 0) :
    s.notify a = { s with
      ready := Function.update s.ready a true
      taskWc := Function.update s.taskWc t (s.taskWc t - 1) } := by
  unfold State.notify
  simp only [howner]
  exact if_neg fun hzero => hne ((Function.update_self t _ s.taskWc).symm.trans hzero)

/-- The counter of a task is decremented for an access that becomes ready. -/
theorem Tasks.notify (ht : Tasks s) {task : Task η V} (htask : s.tasks[t]? = some task)
    (ha : a ∈ accesses t 0 task.params) (howner : s.task a = some t) (hready : s.ready a = false) :
    Tasks (s.notify a) := by
  have hlt : t < s.tasks.length := (List.getElem?_eq_some_iff.mp htask).1
  -- the counter counts the access
  have hone : ∀ b ∈ accesses t 0 task.params, b ≠ a →
      decide (s.ready b = false) = decide (Function.update s.ready a true b = false) := by
    intro b _ hb
    rw [Function.update_of_ne hb]
  have hcount := countP_eq_add_one nodup_accesses ha (decide_eq_true hready) (by simp) hone
  have hwct := ht.wc t task htask
  have hnot : t ∉ s.pushed := fun hp => by
    rw [ht.ready_of_pushed htask hp ha] at hready
    cases hready
  have hidle : s.pc t = .idle := ht.idle t hnot
  have hwc : ∀ t' task', s.tasks[t']? = some task' →
      Function.update s.taskWc t (s.taskWc t - 1) t' = ((accesses t' 0 task'.params).countP
        (fun b => Function.update s.ready a true b = false) : ℤ) := by
    intro t' task' htask'
    by_cases heq : t' = t
    · subst heq
      obtain rfl := Option.some.inj (htask.symm.trans htask')
      rw [Function.update_self, hwct, hcount]
      push_cast
      omega
    · rw [Function.update_of_ne heq, ht.wc t' task' htask']
      congr 1
      refine List.countP_congr fun b hb => ?_
      have hba : b ≠ a := by
        rintro rfl
        obtain ⟨_, _, _, hti, _⟩ := mem_accesses.mp ha
        obtain ⟨_, _, _, hti', _⟩ := mem_accesses.mp hb
        rw [hti'] at hti
        injection hti with htt
        exact heq htt
      rw [Function.update_of_ne hba]
  by_cases hzero : s.taskWc t - 1 = 0
  case pos =>
    rw [notify_of_zero howner hzero]
    constructor
    case wc => exact hwc
    case pushed =>
      intro t'
      show t' ∈ s.pushed ++ [t] ↔ t' < s.tasks.length ∧
        Function.update s.taskWc t (s.taskWc t - 1) t' = 0
      rw [List.mem_append, List.mem_singleton]
      by_cases heq : t' = t
      · subst heq
        rw [Function.update_self]
        exact iff_of_true (.inr rfl) ⟨hlt, hzero⟩
      · rw [Function.update_of_ne heq, or_iff_left heq]
        exact ht.pushed t'
    case pushed_nodup =>
      exact List.nodup_append'.mpr ⟨ht.pushed_nodup, List.nodup_singleton t, by simpa using hnot⟩
    case queue =>
      intro t'
      show t' ∈ s.queue ++ [t] ↔ t' ∈ s.pushed ++ [t] ∧ s.pc t' = .idle
      rw [List.mem_append, List.mem_append, List.mem_singleton, ht.queue t']
      by_cases heq : t' = t
      · subst heq
        exact iff_of_true (.inr rfl) ⟨.inr rfl, hidle⟩
      · rw [or_iff_left heq, or_iff_left heq]
    case queue_nodup =>
      have hnotq : t ∉ s.queue := fun hq => hnot ((ht.queue t).mp hq).1
      exact List.nodup_append'.mpr ⟨ht.queue_nodup, List.nodup_singleton t, by simpa using hnotq⟩
    case idle => exact fun t' hn => ht.idle t' fun hp => hn (List.mem_append_left _ hp)
    case rest => exact ht.rest
    case spawn => exact ht.spawn
    case exec => exact ht.exec
    case legal => exact ht.legal
  case neg =>
    rw [notify_of_ne howner hzero]
    refine ⟨hwc, fun t' => ?_, ht.pushed_nodup, ht.queue, ht.queue_nodup, ht.idle, ht.rest,
      ht.spawn, ht.exec, ht.legal⟩
    show t' ∈ s.pushed ↔ t' < s.tasks.length ∧
      Function.update s.taskWc t (s.taskWc t - 1) t' = 0
    by_cases heq : t' = t
    · subst heq
      rw [Function.update_self]
      exact iff_of_false hnot fun hz => hzero hz.2
    · rw [Function.update_of_ne heq]
      exact ht.pushed t'

/-- The thread of a task that has been started goes on, and does not end the task. -/
theorem Tasks.setPc (ht : Tasks s) {pc : Pc η} (hidle : s.pc t ≠ .idle)
    (hfinished : s.pc t ≠ .finished) (hidle' : pc ≠ .idle) (hfinished' : pc ≠ .finished)
    (hrest : ∀ task, s.tasks[t]? = some task → ∀ rest, pc.rest = some rest →
      rest <:+ accesses t 0 task.params) : Tasks (s.setPc t pc) := by
  have hp := ht.pushed_of_pc hidle
  refine ⟨ht.wc, ht.pushed, ht.pushed_nodup, fun t' => ?_, ht.queue_nodup, fun t' hn => ?_,
    fun t' task htask rest hr => ?_, ht.spawn, ?_, ht.legal⟩
  · show t' ∈ s.queue ↔ t' ∈ s.pushed ∧ Function.update s.pc t pc t' = .idle
    rw [ht.queue t']
    by_cases heq : t' = t
    · subst heq
      rw [Function.update_self]
      exact iff_of_false (fun hq => hidle hq.2) fun hq => hidle' hq.2
    · rw [Function.update_of_ne heq]
  · show Function.update s.pc t pc t' = .idle
    rw [Function.update_of_ne]
    · exact ht.idle t' hn
    · rintro rfl
      exact hn hp
  · by_cases heq : t' = t
    · subst heq
      have hself : (s.setPc t' pc).pc t' = pc := Function.update_self _ _ _
      rw [hself] at hr
      exact hrest task htask rest hr
    · have hother : (s.setPc t pc).pc t' = s.pc t' := Function.update_of_ne heq _ _
      rw [hother] at hr
      exact ht.rest t' task htask rest hr
  · show s.exec = _
    rw [ht.exec]
    refine List.countP_congr fun t' _ => ?_
    by_cases heq : t' = t
    · subst heq
      have hself : (s.setPc t' pc).pc t' = pc := Function.update_self _ _ _
      simp [hself, hfinished, hfinished']
    · have hother : (s.setPc t pc).pc t' = s.pc t' := Function.update_of_ne heq _ _
      rw [hother]

/-- The task ends. -/
theorem Tasks.finish (ht : Tasks s) (hpc : s.pc t = .signal []) :
    Tasks { s.setPc t .finished with exec := s.exec + 1 } := by
  have hp := ht.pushed_of_pc (t := t) (by simp [hpc])
  have hself : (s.setPc t .finished).pc t = .finished := Function.update_self _ _ _
  have hother : ∀ t', t' ≠ t → (s.setPc t .finished).pc t' = s.pc t' := fun t' heq =>
    Function.update_of_ne heq _ _
  refine ⟨ht.wc, ht.pushed, ht.pushed_nodup, fun t' => ?_, ht.queue_nodup, fun t' hn => ?_,
    fun t' task htask rest hr => ?_, ht.spawn, ?_, ht.legal⟩
  · show t' ∈ s.queue ↔ t' ∈ s.pushed ∧ (s.setPc t .finished).pc t' = .idle
    rw [ht.queue t']
    by_cases heq : t' = t
    · rw [heq, hself, hpc]
      simp
    · rw [hother t' heq]
  · show (s.setPc t .finished).pc t' = .idle
    rw [hother t' (by rintro rfl; exact hn hp)]
    exact ht.idle t' hn
  · have hr' : ((s.setPc t .finished).pc t').rest = some rest := hr
    by_cases heq : t' = t
    · rw [heq, hself] at hr'
      cases hr'
    · rw [hother t' heq] at hr'
      exact ht.rest t' task htask rest hr'
  · show s.exec + 1 = (List.range s.tasks.length).countP
      (fun t' => (s.setPc t .finished).pc t' = .finished)
    have hone := countP_eq_add_one (p := fun t' => decide ((s.setPc t .finished).pc t' = .finished))
      (q := fun t' => decide (s.pc t' = .finished)) List.nodup_range
      (List.mem_range.mpr (ht.lt_of_pushed hp)) (by simp [hself]) (by simp [hpc])
      fun t' _ heq => by rw [hother t' heq]
    rw [ht.exec, hone]

/-- A thread takes a task of the queue. -/
theorem Tasks.start (ht : Tasks s) (hq : t ∈ s.queue) : Tasks (s.start t) := by
  obtain ⟨hp, hidle⟩ := (ht.queue t).mp hq
  have hself : (s.start t).pc t = .running := Function.update_self _ _ _
  have hother : ∀ t', t' ≠ t → (s.start t).pc t' = s.pc t' := fun t' heq =>
    Function.update_of_ne heq _ _
  refine ⟨ht.wc, ht.pushed, ht.pushed_nodup, fun t' => ?_, ht.queue_nodup.erase t, fun t' hn => ?_,
    fun t' task htask rest hr => ?_, ht.spawn, ?_, ht.legal⟩
  · show t' ∈ s.queue.erase t ↔ t' ∈ s.pushed ∧ (s.start t).pc t' = .idle
    rw [ht.queue_nodup.mem_erase_iff, ht.queue t']
    by_cases heq : t' = t
    · rw [heq, hself]
      simp
    · rw [hother t' heq]
      exact and_iff_right heq
  · rw [hother t' (by rintro rfl; exact hn hp)]
    exact ht.idle t' hn
  · by_cases heq : t' = t
    · rw [heq, hself] at hr
      cases hr
    · rw [hother t' heq] at hr
      exact ht.rest t' task htask rest hr
  · show s.exec = (List.range s.tasks.length).countP (fun t' => (s.start t).pc t' = .finished)
    rw [ht.exec]
    refine List.countP_congr fun t' _ => ?_
    by_cases heq : t' = t
    · rw [heq, hself, hidle]
      simp
    · rw [hother t' heq]

end Tasks

end Xkblas.Sched.DataFlow
