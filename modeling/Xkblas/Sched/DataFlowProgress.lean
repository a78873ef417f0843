import Mathlib.Algebra.Order.BigOperators.Group.Finset
import Xkblas.Library.Inevitable
import Xkblas.Sched.DataFlowSafety

/-!
# The end of `xkblas_sync`

A step of `xkblas_sync` or of a thread leaves less to do, and while tasks are left one of them is
enabled: of the tasks that are not executed, the first one has all its accesses open, since the
tasks before it have signalled.
-/

namespace Xkblas.Sched.DataFlow

open Library

variable {η V : Type} [DecidableEq η]

variable {g : Graph η} {s s' : State η V} {h : η} {k t t' i i' base : ℕ} {a : Ref η} {m m' : Mode}

/-! ## What is left to do -/

/-- The steps of `xkblas_sync` and of the threads that execute tasks. -/
def Runs : Action η V → Prop
  | .main | .start _ | .task _ => True
  | _ => False

/-- A handle without accesses, as after `kaapi_handle_init`. -/
structure Initialised (s : State η V) (h : η) : Prop where
  next : s.next (.sync0 h) = none
  wc : s.wc (.sync0 h) = 1
  last : s.last h = some (.sync0 h)
  hsync : s.hsync h = none

/-- `xkblas_sync` has returned: all tasks are executed, and the handles are initialised again. -/
structure Returned (s : State η V) : Prop where
  main : s.main = .build
  finished : ∀ t < s.tasks.length, s.pc t = .finished
  fresh : ∀ h, s.live h = true → Initialised s h

/-- The steps that a thread still takes for a task with `n` accesses, without those in which it
passes an access of a group. -/
def Pc.rank (n : ℕ) : Pc η → ℕ
  | .idle => 2 * n + 3
  | .running => 2 * n + 2
  | .signal rest => 2 * rest.length + 1
  | .notify _ rest => 2 * rest.length + 2
  | .finished => 0

/-- The number of accesses of a task. -/
def State.arity (s : State η V) (t : ℕ) : ℕ :=
  match s.tasks[t]? with
  | some task => (accesses t 0 task.params).length
  | none => 0

/-- The steps that are left for the tasks: those of their threads, and one for each access that is
not ready. -/
def State.work (s : State η V) : ℕ :=
  ∑ t ∈ Finset.range s.tasks.length, ((s.pc t).rank (s.arity t) + (s.taskWc t).toNat)

/-- The steps that are left for `xkblas_sync`, without those in which it passes an access. -/
def MainRank (s : State η V) (r : ℕ) : Prop :=
  match s.main with
  | .build => False
  | .activate curr => ∃ done rest, Listed s (done ++ rest) ∧ IsPath s.nextSync0 curr rest none ∧
      r = 2 * rest.length + (done ++ rest).length + 3
  | .notify _ curr => ∃ done rest, Listed s (done ++ rest) ∧ IsPath s.nextSync0 curr rest none ∧
      r = 2 * rest.length + (done ++ rest).length + 4
  | .wait => ∃ hs, Listed s hs ∧ r = hs.length + 2
  | .reset curr => ∃ rest, IsPath s.nextSync0 curr rest none ∧ r = rest.length + 1

omit [DecidableEq η] in
theorem MainRank.congr {r : ℕ} (hr : MainRank s r) (hs : Static s s') (hmain : s'.main = s.main) :
    MainRank s' r := by
  unfold MainRank at hr ⊢
  rw [hmain]
  cases hpc : s.main with
  | build =>
      rw [hpc] at hr
      exact hr
  | activate curr | notify _ curr =>
      rw [hpc] at hr
      obtain ⟨done, rest, hlisted, hpath, heq⟩ := hr
      exact ⟨done, rest, hlisted.congr hs, hs.nextSync0 ▸ hpath, heq⟩
  | wait =>
      rw [hpc] at hr
      obtain ⟨hs', hlisted, heq⟩ := hr
      exact ⟨hs', hlisted.congr hs, heq⟩
  | reset curr =>
      rw [hpc] at hr
      obtain ⟨rest, hpath, heq⟩ := hr
      exact ⟨rest, hs.nextSync0 ▸ hpath, heq⟩

omit [DecidableEq η] in
theorem MainInv.exists_rank (hm : MainInv g base s) (hmain : s.main ≠ .build) :
    ∃ r, MainRank s r := by
  unfold MainInv at hm
  unfold MainRank
  cases hpc : s.main with
  | build => exact absurd hpc hmain
  | activate curr | notify _ curr =>
      rw [hpc] at hm
      obtain ⟨done, rest, hlisted, hpath, _⟩ := hm
      exact ⟨_, done, rest, hlisted, hpath, rfl⟩
  | wait =>
      rw [hpc] at hm
      obtain ⟨hs, hlisted, _⟩ := hm
      exact ⟨_, hs, hlisted, rfl⟩
  | reset curr =>
      rw [hpc] at hm
      obtain ⟨_, done, rest, _, hpath, _⟩ := hm
      exact ⟨_, rest, hpath, rfl⟩

omit [DecidableEq η] in
/-- The work of one task decreases, that of the others does not grow. -/
theorem work_lt (htasks : s'.tasks = s.tasks) {t : ℕ} (ht : t < s.tasks.length)
    (hle : ∀ e, (s'.pc e).rank (s.arity e) + (s'.taskWc e).toNat ≤
      (s.pc e).rank (s.arity e) + (s.taskWc e).toNat)
    (hlt : (s'.pc t).rank (s.arity t) + (s'.taskWc t).toNat <
      (s.pc t).rank (s.arity t) + (s.taskWc t).toNat) : s'.work < s.work := by
  unfold State.work
  have harity : ∀ e, s'.arity e = s.arity e := fun e => by
    unfold State.arity
    rw [htasks]
  simp only [htasks, harity]
  exact Finset.sum_lt_sum (fun e _ => hle e) ⟨t, Finset.mem_range.mpr ht, hlt⟩

omit [DecidableEq η] in
/-- A thread goes on. -/
theorem work_setPc_lt {u : State η V} {pc : Pc η} (hu : Static s u) (hpc : u.pc = s.pc)
    (hwc : u.taskWc = s.taskWc) (ht : t < s.tasks.length)
    (hlt : pc.rank (s.arity t) < (s.pc t).rank (s.arity t)) : (u.setPc t pc).work < s.work := by
  have hwc' : (u.setPc t pc).taskWc = s.taskWc := hwc
  refine work_lt hu.tasks ht (fun e => ?_) ?_
  · rw [hwc']
    by_cases he : e = t
    · rw [he, setPc_self]
      exact Nat.add_le_add_right (Nat.le_of_lt hlt) _
    · rw [setPc_of_ne he, hpc]
  · rw [hwc', setPc_self]
    exact Nat.add_lt_add_right hlt _

/-- An access becomes ready. -/
theorem Inv.taskWc_notify (hi : Inv g base s) {w : Worker} (hw : s.pointer w = some a) :
    ∃ t < s.tasks.length, 0 < s.taskWc t ∧ (s.notify a).taskWc t = s.taskWc t - 1 ∧
      ∀ e, e ≠ t → (s.notify a).taskWc e = s.taskWc e := by
  obtain ⟨t, task, howner, htask, hmem, hready⟩ := hi.of_pointer hw
  refine ⟨t, (List.getElem?_eq_some_iff.mp htask).1, ?_, ?_⟩
  · rw [hi.tasks.wc t task htask]
    exact_mod_cast List.countP_pos_iff.mpr ⟨a, hmem, decide_eq_true hready⟩
  · have hwc : (s.notify a).taskWc = Function.update s.taskWc t (s.taskWc t - 1) := by
      by_cases hzero : s.taskWc t - 1 = 0
      · rw [notify_of_zero howner hzero]
        rfl
      · rw [notify_of_ne howner hzero]
    rw [hwc]
    exact ⟨Function.update_self _ _ _, fun e he => Function.update_of_ne he _ _⟩

/-- A thread that passes an access leaves less work. -/
theorem Inv.work_notify_lt (hi : Inv g base s) {w : Worker} (hw : s.pointer w = some a)
    (htasks : s'.tasks = s.tasks) (hwc : s'.taskWc = (s.notify a).taskWc)
    (hrank : ∀ e n, (s'.pc e).rank n = (s.pc e).rank n) : s'.work < s.work := by
  obtain ⟨t, ht, hpos, hself, hother⟩ := hi.taskWc_notify hw
  refine work_lt htasks ht (fun e => ?_) ?_
  · rw [hrank, hwc]
    by_cases he : e = t
    · rw [he, hself]
      omega
    · rw [hother e he]
  · rw [hrank, hwc, hself]
    omega

/-- When `xkblas_sync` waits, the queue is empty and no thread executes a task, all tasks are
executed. The tasks are finished in the order of their submission. -/
theorem Inv.finished_of_still (hi : Inv g base s) (hmain : s.main = .wait) (hqueue : s.queue = [])
    (hstill : ∀ t, s.pc t = .idle ∨ s.pc t = .finished) (t : ℕ) (ht : t < s.tasks.length) :
    s.pc t = .finished := by
  have hpointer : ∀ e, (s.pc e).pointer = none := by
    intro e
    rcases hstill e with he | he
    · rw [he]
      rfl
    · rw [he]
      rfl
  induction t using Nat.strongRecOn with
  | ind t ih =>
      by_contra hne
      have hidle := (hstill t).resolve_right hne
      have hnot : t ∉ s.pushed := fun hp => by
        have hq := (hi.tasks.queue t).mpr ⟨hp, hidle⟩
        rw [hqueue] at hq
        cases hq
      obtain ⟨t', hlt, i, m, _, _, h, ⟨task, htask, _⟩, _, _, hpend⟩ :=
        hi.exists_conflict hmain hpointer ht hnot
      have hpend' : (s.pc t').Pending (.access t' i) := hpend
      rw [ih t' hlt (List.getElem?_eq_some_iff.mp htask).1] at hpend'
      exact hpend'

/-- A thread that executes a task can always go on. -/
theorem Inv.task_enabled (hi : Inv g base s) (hidle : s.pc t ≠ .idle)
    (hfinished : s.pc t ≠ .finished) : ∃ u, DataFlow.step s (.task t) = some u := by
  show ∃ u, s.stepTask t = some u
  unfold State.stepTask
  have hlt := hi.tasks.lt_of_pushed (hi.tasks.pushed_of_pc hidle)
  cases hpc : s.pc t with
  | idle => exact absurd hpc hidle
  | finished => exact absurd hpc hfinished
  | running =>
      rw [List.getElem?_eq_getElem hlt]
      exact ⟨_, rfl⟩
  | signal rest =>
      cases rest with
      | nil => exact ⟨_, rfl⟩
      | cons a rest =>
          obtain ⟨_, _, _, _, _, _, _, _, _, hsync, _⟩ := hi.of_signal hpc
          dsimp only
          rw [hsync]
          exact ⟨_, rfl⟩
  | notify a rest =>
      cases a with
      | none => exact ⟨_, rfl⟩
      | some a => exact ⟨_, rfl⟩

/-- `xkblas_sync` or a thread can always go on. -/
theorem Inv.enabled (hi : Inv g base s) (hmain : s.main ≠ .build) :
    ∃ a u, Runs a ∧ DataFlow.step s a = some u := by
  have hstep : (∃ u, s.stepMain = some u) → ∃ a u, Runs a ∧ DataFlow.step s a = some u := by
    rintro ⟨u, hu⟩
    exact ⟨.main, u, trivial, hu⟩
  cases hpc : s.main with
  | build => exact absurd hpc hmain
  | activate curr =>
      cases curr with
      | none => exact hstep ⟨_, by unfold State.stepMain; rw [hpc]⟩
      | some h =>
          refine hstep ?_
          unfold State.stepMain
          rw [hpc]
          dsimp only
          split
          · exact ⟨_, rfl⟩
          · exact ⟨_, rfl⟩
  | notify a next =>
      cases a with
      | none => exact hstep ⟨_, by unfold State.stepMain; rw [hpc]⟩
      | some a => exact hstep ⟨_, by unfold State.stepMain; rw [hpc]⟩
  | reset curr =>
      cases curr with
      | none => exact hstep ⟨_, by unfold State.stepMain; rw [hpc]⟩
      | some h => exact hstep ⟨_, by unfold State.stepMain; rw [hpc]⟩
  | wait =>
      by_cases hdone : s.spawn = s.exec
      · refine hstep ?_
        unfold State.stepMain
        rw [hpc]
        exact ⟨_, if_pos hdone⟩
      · by_contra hstuck
        have hqueue : s.queue = [] := by
          refine List.eq_nil_iff_forall_not_mem.mpr fun t hq => hstuck ?_
          exact ⟨.start t, s.start t, trivial, if_pos hq⟩
        have hstill : ∀ t, s.pc t = .idle ∨ s.pc t = .finished := by
          intro t
          by_contra hgo
          obtain ⟨hidle, hfinished⟩ := not_or.mp hgo
          obtain ⟨u, hu⟩ := hi.task_enabled hidle hfinished
          exact hstuck ⟨.task t, u, trivial, hu⟩
        refine hdone ?_
        rw [hi.tasks.spawn, hi.tasks.exec]
        refine (Eq.trans (List.countP_eq_length.mpr fun t ht => decide_eq_true ?_)
          List.length_range).symm
        exact hi.finished_of_still hpc hqueue hstill t (List.mem_range.mp ht)

/-- The states from which `xkblas_sync` goes on, with the steps that are left. -/
def Left (n : ℕ) (s : State η V) : Prop :=
  ∃ g base r, Inv g base s ∧ MainRank s r ∧ n = r + s.work

/-- A step of a thread leaves less to do. -/
theorem Inv.stepTask_lt (hi : Inv g base s) (hstep : s.stepTask t = some s') :
    Static s s' ∧ s'.main = s.main ∧ s'.work < s.work := by
  unfold State.stepTask at hstep
  cases hpc : s.pc t with
  | idle | finished =>
      rw [hpc] at hstep
      cases hstep
  | running =>
      rw [hpc] at hstep
      obtain ⟨task, htask, rfl⟩ := Option.map_eq_some_iff.mp hstep
      refine ⟨⟨rfl, rfl, rfl, rfl, rfl, rfl, rfl, rfl, rfl, rfl, rfl⟩, rfl, ?_⟩
      have harity : s.arity t = (accesses t 0 task.params).length := by
        unfold State.arity
        rw [htask]
      refine work_setPc_lt ⟨rfl, rfl, rfl, rfl, rfl, rfl, rfl, rfl, rfl, rfl, rfl⟩ rfl rfl
        (List.getElem?_eq_some_iff.mp htask).1 ?_
      rw [hpc, harity]
      exact Nat.lt_succ_self _
  | signal rest =>
      have hlt := hi.tasks.lt_of_pushed (hi.tasks.pushed_of_pc (t := t) (by rw [hpc]; simp))
      rw [hpc] at hstep
      cases rest with
      | nil =>
          cases hstep
          refine ⟨⟨rfl, rfl, rfl, rfl, rfl, rfl, rfl, rfl, rfl, rfl, rfl⟩, rfl, ?_⟩
          refine work_setPc_lt (u := { s with exec := s.exec + 1 })
            ⟨rfl, rfl, rfl, rfl, rfl, rfl, rfl, rfl, rfl, rfl, rfl⟩ rfl rfl hlt ?_
          rw [hpc]
          exact Nat.zero_lt_one
      | cons a rest =>
          obtain ⟨p, _, rfl⟩ := Option.map_eq_some_iff.mp hstep
          refine ⟨⟨rfl, rfl, rfl, rfl, rfl, rfl, rfl, rfl, rfl, rfl, rfl⟩, rfl, ?_⟩
          refine work_setPc_lt ⟨rfl, rfl, rfl, rfl, rfl, rfl, rfl, rfl, rfl, rfl, rfl⟩ rfl rfl
            hlt ?_
          rw [hpc]
          show Pc.rank _ _ < 2 * (rest.length + 1) + 1
          split
          · show 2 * rest.length + 2 < _
            omega
          · show 2 * rest.length + 1 < _
            omega
  | notify a rest =>
      have hlt := hi.tasks.lt_of_pushed (hi.tasks.pushed_of_pc (t := t) (by rw [hpc]; simp))
      rw [hpc] at hstep
      cases a with
      | none =>
          cases hstep
          refine ⟨⟨rfl, rfl, rfl, rfl, rfl, rfl, rfl, rfl, rfl, rfl, rfl⟩, rfl, ?_⟩
          refine work_setPc_lt ⟨rfl, rfl, rfl, rfl, rfl, rfl, rfl, rfl, rfl, rfl, rfl⟩ rfl rfl
            hlt ?_
          rw [hpc]
          exact Nat.lt_succ_self _
      | some a =>
          cases hstep
          obtain ⟨hs, _, hpcs, hmain, _⟩ := notify_fields s a
          refine ⟨⟨hs.mode, hs.next, hs.sync, hs.task, hs.last, hs.hsync, hs.listSync0,
            hs.nextSync0, hs.live, hs.brk, hs.tasks⟩, hmain, ?_⟩
          refine hi.work_notify_lt (w := .task t) (congrArg Pc.pointer hpc) hs.tasks rfl
            fun e n => ?_
          by_cases he : e = t
          · rw [he, setPc_self, hpc]
            rfl
          · rw [setPc_of_ne he, hpcs]

/-- A step of `xkblas_sync` leaves less to do, or is its last one. -/
theorem Inv.stepMain_lt (hi : Inv g base s) {r : ℕ} (hr : MainRank s r)
    (hstep : s.stepMain = some s') :
    Returned s' ∨ ∃ r', MainRank s' r' ∧ r' + s'.work < r + s.work := by
  unfold State.stepMain at hstep
  unfold MainRank at hr
  cases hmain : s.main with
  | build =>
      rw [hmain] at hstep
      cases hstep
  | activate curr =>
      rw [hmain] at hr
      obtain ⟨done, rest, hlisted, hpath, rfl⟩ := hr
      rw [hmain] at hstep
      cases curr with
      | none =>
          cases hstep
          refine .inr ⟨_, ⟨done ++ rest, hlisted, rfl⟩, ?_⟩
          show _ + s.work < _
          omega
      | some h =>
          cases rest with
          | nil => cases hpath
          | cons h' rest =>
          obtain ⟨heq, hpath'⟩ := hpath
          cases heq
          have hlisted' : Listed s ((done ++ [h]) ++ rest) := by
            rw [List.append_assoc]
            exact hlisted
          have hlen : ((done ++ [h]) ++ rest).length = (done ++ h :: rest).length := by
            rw [List.append_assoc]
            rfl
          have hcons : (h :: rest).length = rest.length + 1 := rfl
          dsimp only at hstep
          split at hstep
          · cases hstep
            refine .inr ⟨_, ⟨done ++ [h], rest, hlisted', hpath', rfl⟩, ?_⟩
            show _ + s.work < _
            omega
          · cases hstep
            by_cases hzero : s.wc (.sync0 h) - 1 = 0
            · rw [if_pos hzero]
              refine .inr ⟨_, ⟨done ++ [h], rest, hlisted', hpath', rfl⟩, ?_⟩
              show _ + s.work < _
              omega
            · rw [if_neg hzero]
              refine .inr ⟨_, ⟨done ++ [h], rest, hlisted', hpath', rfl⟩, ?_⟩
              show _ + s.work < _
              omega
  | notify a next =>
      have hr' : MainRank s r := by
        unfold MainRank
        exact hr
      rw [hmain] at hr
      obtain ⟨done, rest, hlisted, hpath, rfl⟩ := hr
      rw [hmain] at hstep
      cases a with
      | none =>
          cases hstep
          refine .inr ⟨_, ⟨done, rest, hlisted, hpath, rfl⟩, ?_⟩
          show _ + s.work < _
          omega
      | some a =>
          cases hstep
          obtain ⟨hs, _, hpcs, _⟩ := notify_fields s a
          have hstatic : Static s { s.notify a with main := .notify (s.next a) next } :=
            ⟨hs.mode, hs.next, hs.sync, hs.task, hs.last, hs.hsync, hs.listSync0, hs.nextSync0,
              hs.live, hs.brk, hs.tasks⟩
          refine .inr ⟨_, ⟨done, rest, hlisted.congr hstatic, hs.nextSync0 ▸ hpath, rfl⟩, ?_⟩
          refine Nat.add_lt_add_left ?_ _
          refine hi.work_notify_lt (w := .main) (congrArg MainPc.pointer hmain) hs.tasks rfl
            fun e n => ?_
          show ((s.notify a).pc e).rank n = _
          rw [hpcs]
  | wait =>
      rw [hmain] at hr
      obtain ⟨hs, hlisted, rfl⟩ := hr
      rw [hmain] at hstep
      dsimp only at hstep
      split at hstep
      case isTrue hdone =>
        cases hstep
        refine .inr ⟨_, ⟨hs, hlisted.1, rfl⟩, ?_⟩
        show _ + s.work < _
        omega
      case isFalse => cases hstep
  | reset curr =>
      rw [hmain] at hr
      obtain ⟨rest, hpath, rfl⟩ := hr
      rw [hmain] at hstep
      have hm := hi.main
      unfold MainInv at hm
      rw [hmain] at hm
      obtain ⟨hbase, done, rest', _, hpath', hnodup, hlive, hdone⟩ := hm
      obtain rfl := hpath.unique hpath'
      cases curr with
      | none =>
          cases hstep
          refine .inl ⟨rfl, hbase ▸ hi.round.done, fun h hh => ?_⟩
          cases rest with
          | cons h' rest => cases hpath.1
          | nil =>
              rw [List.append_nil] at hlive
              obtain ⟨htop, hone⟩ := hdone h ((hlive h).mp hh)
              have hc := hi.linked.chain h hh
              have hnext := hc.last_next
              have hlast := hc.last
              have hsync := hc.hsync
              rw [htop, hc.zero] at hnext
              rw [htop, if_pos rfl] at hlast hsync
              exact ⟨hnext, hone, hlast, hsync⟩
      | some h =>
          cases rest with
          | nil => cases hpath
          | cons h' rest =>
          obtain ⟨heq, hpath'⟩ := hpath
          cases heq
          cases hstep
          have hnot : h ∉ rest := (List.nodup_cons.mp (List.nodup_append.mp hnodup).2.1).1
          refine .inr ⟨_, ⟨rest, ?_, rfl⟩, ?_⟩
          · show IsPath ((s.handleInit h).linkSync0 h).nextSync0 _ _ _
            refine hpath'.congr fun x hx => ?_
            show Function.update (Function.update s.nextSync0 h none) h s.listSync0 x = _
            rw [Function.update_idem]
            exact Function.update_of_ne (ne_of_mem_of_not_mem hx hnot) _ _
          · show rest.length + 1 + s.work < rest.length + 1 + 1 + s.work
            omega

/-- A call of `xkblas_sync` has finitely many steps left. -/
theorem exists_left (hs : (system η V).ReachableWhen Respects s) (hmain : s.main ≠ .build) :
    ∃ n, Left n s := by
  obtain ⟨g, base, hi⟩ := reachable_inv hs
  obtain ⟨r, hr⟩ := hi.main.exists_rank hmain
  exact ⟨_, g, base, r, hi, hr, rfl⟩

/-- While steps are left, the end of `xkblas_sync` is inevitable. -/
theorem Left.returns {n : ℕ} (hleft : Left n s) :
    (system η V).Inevitable Runs Returned s := by
  refine TransitionSystem.Inevitable.of_rank ?_ ?_ hleft
  · rintro n u ⟨g, base, r, hi, hr, _⟩
    refine hi.enabled fun hbuild => ?_
    unfold MainRank at hr
    rw [hbuild] at hr
    exact hr
  · rintro n u action u' ⟨g, base, r, hi, hr, rfl⟩ hown hstep
    -- a step that leaves `xkblas_sync` where it is
    have hthread : Respects u action → Static u u' → u'.main = u.main → u'.work < u.work →
        ∃ m < r + u.work, Left m u' := by
      intro hok hstatic hmain hwork
      obtain ⟨g', base', hi'⟩ := hi.step hok hstep
      exact ⟨r + u'.work, Nat.add_lt_add_left hwork r, g', base', r, hi', hr.congr hstatic hmain,
        rfl⟩
    cases action with
    | init | insert | sync | invalidate => exact absurd hown id
    | main =>
        rcases hi.stepMain_lt hr hstep with hgoal | ⟨r', hr', hlt⟩
        · exact .inl hgoal
        · have hmain : Respects u (.main : Action η V) := trivial
          obtain ⟨g', base', hi'⟩ := hi.step hmain hstep
          exact .inr ⟨_, hlt, g', base', r', hi', hr', rfl⟩
    | start t =>
        obtain ⟨hq, hs'⟩ := Option.ite_none_right_eq_some.mp hstep
        cases hs'
        have hidle := (hi.tasks.queue t).mp hq
        refine .inr (hthread trivial ⟨rfl, rfl, rfl, rfl, rfl, rfl, rfl, rfl, rfl, rfl, rfl⟩ rfl ?_)
        refine work_setPc_lt (u := { u with
            queue := u.queue.erase t, held := Function.update u.held t u.mem })
          ⟨rfl, rfl, rfl, rfl, rfl, rfl, rfl, rfl, rfl, rfl, rfl⟩ rfl rfl
          (hi.tasks.lt_of_pushed hidle.1) ?_
        rw [hidle.2]
        exact Nat.lt_succ_self _
    | task t =>
        obtain ⟨hstatic, hmain, hwork⟩ := hi.stepTask_lt hstep
        exact .inr (hthread trivial hstatic hmain hwork)

/-- `xkblas_sync` returns, whatever the order of its steps and of those of the threads, and then all
tasks are executed and all handles are initialised again. -/
theorem sync_returns (hs : (system η V).ReachableWhen Respects s) (hmain : s.main ≠ .build) :
    (system η V).Inevitable Runs Returned s := by
  obtain ⟨n, hleft⟩ := exists_left hs hmain
  exact hleft.returns

theorem sync_returns_writerReader :
    let s := ((system Bool ℕ).replay Respects (emptyFlow fun _ => 5) writerReaderCalls).get
      (by decide)
    (system Bool ℕ).Inevitable Runs Returned s := by
  intro s
  have hs : (system Bool ℕ).ReachableWhen Respects s :=
    (TransitionSystem.ReachableWhen.start (initial_emptyFlow _)).replay (Option.some_get _).symm
  exact sync_returns hs (by decide)

end Xkblas.Sched.DataFlow
