import Xkblas.Sched.DataFlowProgress

/-!
# The results of the tasks

The tiles after `xkblas_sync` are those of the tasks executed one after the other in the order of
their submission, whatever the order in which the threads have executed them.
-/

namespace Xkblas.Sched.DataFlow

open Library

variable {η V : Type} [DecidableEq η]

variable {g : Graph η} {s s' : State η V} {h : η} {k t t' i i' base : ℕ} {a : Ref η} {m m' : Mode}

/-! ## The results -/

/-- The tiles after a task that is executed alone. -/
def Task.apply (task : Task η V) (mem : η → V) : η → V :=
  fun x => if task.Writes x then task.body mem x else mem x

/-- The tiles after the tasks are executed one after the other. -/
def seqRun (tasks : List (Task η V)) (mem : η → V) : η → V :=
  tasks.foldl (fun mem task => task.apply mem) mem

/-- A task without cumulative writes, whose results only depend on the tiles that it has a read
access to. An access with W alone does not bring the content of the tile. -/
structure Local (task : Task η V) : Prop where
  modes : ∀ m h, .access m h ∈ task.params → m = modeR ∨ m = modeW ∨ m = modeRW
  uses : ∀ mem mem' : η → V, (∀ x, task.Reads x → mem x = mem' x) →
    ∀ x, task.Writes x → task.body mem x = task.body mem' x

/-- The runs whose tasks are legal and local. -/
def RespectsLocal (s : State η V) : Action η V → Prop
  | .insert task => Legal task ∧ Local task
  | action => Respects s action

omit [DecidableEq η] in
theorem RespectsLocal.respects {action : Action η V} (hok : RespectsLocal s action) :
    Respects s action := by
  cases action with
  | insert task => exact hok.1
  | init | sync | invalidate | main | start | task => exact hok

variable {x : η} {task task' : Task η V} {m₀ : η → V}

theorem seqRun_take_succ {tasks : List (Task η V)} (htask : tasks[t]? = some task) :
    seqRun (tasks.take (t + 1)) m₀ = task.apply (seqRun (tasks.take t) m₀) := by
  unfold seqRun
  rw [List.take_add_one, htask, Option.toList_some, List.foldl_append]
  rfl

/-- Tasks that do not write a tile leave it as it is. -/
theorem seqRun_take_of_not_writes {tasks : List (Task η V)} {j : ℕ} (hj : j ≤ k)
    (hnot : ∀ t, j ≤ t → t < k → ∀ task, tasks[t]? = some task → ¬ task.Writes x) :
    seqRun (tasks.take k) m₀ x = seqRun (tasks.take j) m₀ x := by
  induction k with
  | zero => rw [Nat.le_zero.mp hj]
  | succ k ih =>
      rcases Nat.lt_or_ge k j with hkj | hjk
      · rw [Nat.le_antisymm hj hkj]
      · have hrest := ih hjk fun t hle hlt => hnot t hle (Nat.lt_succ_of_lt hlt)
        cases htask : tasks[k]? with
        | none =>
            rw [List.take_add_one, htask, Option.toList_none, List.append_nil]
            exact hrest
        | some task =>
            rw [seqRun_take_succ htask]
            have happly : task.apply (seqRun (tasks.take k) m₀) x = seqRun (tasks.take k) m₀ x :=
              if_neg (hnot k hjk (Nat.lt_succ_self k) task htask)
            exact happly.trans hrest

omit [DecidableEq η] in
/-- A tile that the task writes. -/
theorem exists_write (htask : s.tasks[t]? = some task) (hx : task.Writes x) :
    ∃ i m, IsParam s t i m x ∧ IsWrite m := by
  obtain ⟨p, hp, hhas⟩ := hx
  obtain ⟨i, hi⟩ := List.getElem?_of_mem hp
  cases p with
  | value => exact absurd hhas id
  | access m y =>
      obtain ⟨rfl, hwrite⟩ := hhas
      exact ⟨i, m, ⟨task, htask, hi⟩, hwrite⟩

omit [DecidableEq η] in
/-- A tile that the task accesses. -/
theorem exists_param (htask : s.tasks[t]? = some task) (hx : x ∈ task.handles) :
    ∃ i m, IsParam s t i m x := by
  obtain ⟨p, hp, hhandle⟩ := List.mem_filterMap.mp hx
  obtain ⟨i, hi⟩ := List.getElem?_of_mem hp
  cases p with
  | value => cases hhandle
  | access m y =>
      cases hhandle
      exact ⟨i, m, task, htask, hi⟩

omit [DecidableEq η] in
theorem mem_handles_of_has {test : Mode → Prop} {p : Param η} (hp : p ∈ task.params)
    (hhas : p.Has test x) : x ∈ task.handles := by
  cases p with
  | value => exact absurd hhas id
  | access m y =>
      obtain ⟨rfl, _⟩ := hhas
      exact List.mem_filterMap.mpr ⟨_, hp, rfl⟩

omit [DecidableEq η] in
theorem Task.Writes.mem_handles (hx : task.Writes x) : x ∈ task.handles := by
  obtain ⟨p, hp, hhas⟩ := hx
  exact mem_handles_of_has hp hhas

omit [DecidableEq η] in
theorem Task.Reads.mem_handles (hx : task.Reads x) : x ∈ task.handles := by
  obtain ⟨p, hp, hhas⟩ := hx
  exact mem_handles_of_has hp hhas

/-- A write access is in conflict with all others. -/
theorem IsWrite.conflict (hw : IsWrite m) (m' : Mode) : Conflict m m' := by
  have hr : ¬ IsWrite modeR := by decide
  have hcw : ¬ IsWrite modeCW := by decide
  exact ⟨fun h => hr (h.1 ▸ hw), fun h => hcw (h.1 ▸ hw)⟩

/-- A task that accesses a tile waits for the earlier tasks that write it. -/
theorem Inv.executed_of_writes (hi : Inv g base s) (hlt : t < t') (htask : s.tasks[t]? = some task)
    (htask' : s.tasks[t']? = some task') (hx : task.Writes x) (hx' : x ∈ task'.handles)
    (hpushed : t' ∈ s.pushed) : (s.pc t).Executed := by
  obtain ⟨i, m, hparam, hm⟩ := exists_write htask hx
  obtain ⟨i', m', hparam'⟩ := exists_param htask' hx'
  exact hi.executed_of_conflict hlt hparam hparam' (hm.conflict m') hpushed

/-- A task that writes a tile waits for the earlier tasks that access it. -/
theorem Inv.executed_of_uses (hi : Inv g base s) (hlt : t < t') (htask : s.tasks[t]? = some task)
    (htask' : s.tasks[t']? = some task') (hx : x ∈ task.handles) (hx' : task'.Writes x)
    (hpushed : t' ∈ s.pushed) : (s.pc t).Executed := by
  obtain ⟨i, m, hparam⟩ := exists_param htask hx
  obtain ⟨i', m', hparam', hm'⟩ := exists_write htask' hx'
  exact hi.executed_of_conflict hlt hparam hparam' (hm'.conflict m).symm hpushed

/-- A tile that the first tasks have written, and no later one, is as after the first tasks one
after the other; and the task that is running has read such tiles. -/
structure Serial (m₀ : η → V) (s : State η V) : Prop where
  mem : ∀ x k, (∀ t < k, ∀ task, s.tasks[t]? = some task → task.Writes x → (s.pc t).Executed) →
    (∀ t, k ≤ t → ∀ task, s.tasks[t]? = some task → task.Writes x → ¬ (s.pc t).Executed) →
    s.mem x = seqRun (s.tasks.take k) m₀ x
  held : ∀ t task, s.tasks[t]? = some task → s.pc t = .running → ∀ x ∈ task.handles,
    s.held t x = seqRun (s.tasks.take t) m₀ x
  uses : ∀ task ∈ s.tasks, Local task

/-- A step that executes no body and starts no task. -/
theorem Serial.congr (hser : Serial m₀ s) (htasks : s'.tasks = s.tasks) (hmem : s'.mem = s.mem)
    (hheld : s'.held = s.held) (hpc : ∀ t, (s'.pc t).Executed ↔ (s.pc t).Executed)
    (hrunning : ∀ t, s'.pc t = .running → s.pc t = .running) : Serial m₀ s' := by
  constructor
  case mem =>
    intro x k hbefore hafter
    rw [htasks] at hbefore hafter
    rw [hmem, htasks]
    exact hser.mem x k (fun t ht task htask hw => (hpc t).mp (hbefore t ht task htask hw))
      fun t ht task htask hw hex => hafter t ht task htask hw ((hpc t).mpr hex)
  case held =>
    intro t task htask hrun
    rw [htasks] at htask
    rw [hheld, htasks]
    exact hser.held t task htask (hrunning t hrun)
  case uses => rw [htasks]; exact hser.uses

omit [DecidableEq η] in
theorem Executed.not_idle (hex : (s.pc t).Executed) : s.pc t ≠ .idle := by
  intro hidle
  rw [hidle] at hex
  exact hex

/-- A thread takes a task, and its body reads the tiles. -/
theorem Serial.start (hser : Serial m₀ s) (hi : Inv g base s) (hq : t ∈ s.queue) :
    Serial m₀ (s.start t) := by
  obtain ⟨hpushed, hidle⟩ := (hi.tasks.queue t).mp hq
  have hpc : ∀ e, ((s.start t).pc e).Executed ↔ (s.pc e).Executed := by
    intro e
    by_cases he : e = t
    · subst he
      have hself : (s.start e).pc e = .running := Function.update_self _ _ _
      rw [hself, hidle]
      exact Iff.rfl
    · have hother : (s.start t).pc e = s.pc e := Function.update_of_ne he _ _
      rw [hother]
  have hnot : ¬ (s.pc t).Executed := fun hex => Executed.not_idle hex hidle
  constructor
  case mem =>
    intro x k hbefore hafter
    exact hser.mem x k (fun e he task htask hw => (hpc e).mp (hbefore e he task htask hw))
      fun e he task htask hw hex => hafter e he task htask hw ((hpc e).mpr hex)
  case held =>
    intro e task htask hrun x hx
    by_cases he : e = t
    · subst he
      have hheld : (s.start e).held e = s.mem := Function.update_self _ _ _
      rw [hheld]
      refine hser.mem x e (fun e' he' task' htask' hw => ?_) fun e' he' task' htask' hw hex => ?_
      · exact hi.executed_of_writes he' htask' htask hw hx hpushed
      · rcases Nat.eq_or_lt_of_le he' with rfl | hlt
        · exact hnot hex
        · exact hnot (hi.executed_of_uses hlt htask htask' hx hw
            (hi.tasks.pushed_of_pc (Executed.not_idle hex)))
    · have hheld : (s.start t).held e = s.held e := Function.update_of_ne he _ _
      have hother : (s.start t).pc e = s.pc e := Function.update_of_ne he _ _
      rw [hheld]
      exact hser.held e task htask (hother ▸ hrun) x hx
  case uses => exact hser.uses

/-- The body of a task ends: the tiles that it has written are as after the tasks before it and
itself. -/
theorem Serial.endBody (hser : Serial m₀ s) (hi : Inv g base s) (hpc : s.pc t = .running)
    (htask : s.tasks[t]? = some task) : Serial m₀ (s.endBody t task) := by
  have hself : (s.endBody t task).pc t = .signal (accesses t 0 task.params) :=
    Function.update_self _ _ _
  have hother : ∀ e, e ≠ t → (s.endBody t task).pc e = s.pc e := fun e he =>
    Function.update_of_ne he _ _
  have hnot : ¬ (s.pc t).Executed := fun hex => by
    rw [hpc] at hex
    exact hex
  constructor
  case mem =>
    intro x k hbefore hafter
    by_cases hx : task.Writes x
    · have htk : t < k := by
        by_contra hle
        refine hafter t (Nat.le_of_not_lt hle) task htask hx ?_
        rw [hself]
        trivial
      have hlast : seqRun (s.tasks.take k) m₀ x = seqRun (s.tasks.take (t + 1)) m₀ x := by
        refine seqRun_take_of_not_writes htk fun e hle hlt task' htask' hw => ?_
        have hex := hbefore e hlt task' htask' hw
        rw [hother e (Nat.ne_of_gt hle)] at hex
        exact hnot (hi.executed_of_writes hle htask htask' hx hw.mem_handles
          (hi.tasks.pushed_of_pc (Executed.not_idle hex)))
      have hbody : task.body (s.held t) x = task.body (seqRun (s.tasks.take t) m₀) x :=
        (hser.uses task (List.mem_of_getElem? htask)).uses _ _
          (fun y hy => hser.held t task htask hpc y hy.mem_handles) x hx
      have hmem : (s.endBody t task).mem x = task.body (s.held t) x := if_pos hx
      have happly : task.apply (seqRun (s.tasks.take t) m₀) x =
          task.body (seqRun (s.tasks.take t) m₀) x := if_pos hx
      show _ = seqRun (s.tasks.take k) m₀ x
      rw [hmem, hbody, hlast, seqRun_take_succ htask, happly]
    · have hmem : (s.endBody t task).mem x = s.mem x := if_neg hx
      have hne : ∀ e task', s.tasks[e]? = some task' → task'.Writes x → e ≠ t := by
        rintro e task' htask' hw rfl
        obtain rfl := Option.some.inj (htask.symm.trans htask')
        exact hx hw
      rw [hmem]
      refine hser.mem x k (fun e he task' htask' hw => ?_) fun e he task' htask' hw => ?_
      · rw [← hother e (hne e task' htask' hw)]
        exact hbefore e he task' htask' hw
      · rw [← hother e (hne e task' htask' hw)]
        exact hafter e he task' htask' hw
  case held =>
    intro e task' htask' hrun
    have he : e ≠ t := by
      rintro rfl
      rw [hself] at hrun
      cases hrun
    rw [hother e he] at hrun
    exact hser.held e task' htask' hrun
  case uses => exact hser.uses

/-- A task is inserted. -/
theorem Serial.insert {g' : Graph η} (hser : Serial m₀ s) (hins : Inserted g g' s s' task)
    (hlocal : Local task) : Serial m₀ s' := by
  have hget : ∀ (e : ℕ) task', s'.tasks[e]? = some task' →
      s.tasks[e]? = some task' ∨ e = s.tasks.length ∧ task' = task := by
    intro e task' htask
    rw [hins.tasks] at htask
    exact getElem?_alloc htask
  have hold : ∀ (e : ℕ) task', s.tasks[e]? = some task' → s'.tasks[e]? = some task' := by
    intro e task' htask
    rw [hins.tasks]
    exact extends_alloc e task' htask
  have hpc : ∀ (e : ℕ) task', s.tasks[e]? = some task' → s'.pc e = s.pc e := by
    intro e task' htask
    rw [hins.pc, Function.update_of_ne (Nat.ne_of_lt (List.getElem?_eq_some_iff.mp htask).1)]
  have hself : s'.pc s.tasks.length = .idle := by rw [hins.pc, Function.update_self]
  have htake : ∀ k ≤ s.tasks.length, s'.tasks.take k = s.tasks.take k := by
    intro k hk
    rw [hins.tasks, List.take_append_of_le_length hk]
  constructor
  case mem =>
    intro x k hbefore hafter
    rw [hins.mem]
    have hmem : s.mem x = seqRun (s.tasks.take k) m₀ x := by
      refine hser.mem x k (fun e he task' htask' hw => ?_) fun e he task' htask' hw => ?_
      · rw [← hpc e task' htask']
        exact hbefore e he task' (hold e task' htask') hw
      · rw [← hpc e task' htask']
        exact hafter e he task' (hold e task' htask') hw
    rw [hmem]
    by_cases hk : k ≤ s.tasks.length
    · rw [htake k hk]
    · have hlt : s.tasks.length < k := Nat.lt_of_not_le hk
      have hnew : s'.tasks[s.tasks.length]? = some task := by
        rw [hins.tasks]
        exact alloc_getElem?
      -- the new task is not executed, so it does not write the tile
      have hnot : ¬ task.Writes x := fun hw => by
        have hex := hbefore _ hlt task hnew hw
        rw [hself] at hex
        exact hex
      have hlast : seqRun (s'.tasks.take k) m₀ x = seqRun (s'.tasks.take s.tasks.length) m₀ x := by
        refine seqRun_take_of_not_writes (Nat.le_of_lt hlt) fun e hle _ task' htask' hw => ?_
        rcases hget e task' htask' with hmem | ⟨_, rfl⟩
        · exact absurd (List.getElem?_eq_some_iff.mp hmem).1 (Nat.not_lt_of_le hle)
        · exact hnot hw
      rw [hlast, htake _ le_rfl, List.take_of_length_le (Nat.le_of_lt hlt), List.take_length]
  case held =>
    intro e task' htask' hrun
    rcases hget e task' htask' with hmem | ⟨rfl, _⟩
    · rw [hpc e task' hmem] at hrun
      rw [hins.held, htake e (Nat.le_of_lt (List.getElem?_eq_some_iff.mp hmem).1)]
      exact hser.held e task' hmem hrun
    · rw [hself] at hrun
      cases hrun
  case uses =>
    intro task' hmem
    rw [hins.tasks] at hmem
    rcases List.mem_append.mp hmem with hmem | hlast
    · exact hser.uses task' hmem
    · rw [List.mem_singleton.mp hlast]
      exact hlocal

/-- The steps of `xkblas_sync` touch neither the tasks nor the tiles. -/
theorem stepMain_fields (hstep : s.stepMain = some s') : s'.tasks = s.tasks ∧ s'.mem = s.mem ∧
    s'.held = s.held ∧ s'.pc = s.pc := by
  unfold State.stepMain at hstep
  cases hmain : s.main with
  | build =>
      rw [hmain] at hstep
      cases hstep
  | activate curr =>
      rw [hmain] at hstep
      cases curr with
      | none =>
          cases hstep
          exact ⟨rfl, rfl, rfl, rfl⟩
      | some h =>
          dsimp only at hstep
          split at hstep
          · cases hstep
            exact ⟨rfl, rfl, rfl, rfl⟩
          · cases hstep
            exact ⟨rfl, rfl, rfl, rfl⟩
  | notify a next =>
      rw [hmain] at hstep
      cases a with
      | none =>
          cases hstep
          exact ⟨rfl, rfl, rfl, rfl⟩
      | some a =>
          cases hstep
          obtain ⟨hs, _, hpc, _, _, hmem, hheld⟩ := notify_fields s a
          exact ⟨hs.tasks, hmem, hheld, hpc⟩
  | wait =>
      rw [hmain] at hstep
      dsimp only at hstep
      split at hstep
      · cases hstep
        exact ⟨rfl, rfl, rfl, rfl⟩
      · cases hstep
  | reset curr =>
      rw [hmain] at hstep
      cases curr with
      | none =>
          cases hstep
          exact ⟨rfl, rfl, rfl, rfl⟩
      | some h =>
          cases hstep
          exact ⟨rfl, rfl, rfl, rfl⟩

/-- The steps of a thread other than the end of a body. -/
theorem stepTask_fields (hpc : s.pc t ≠ .running) (hstep : s.stepTask t = some s') :
    s'.tasks = s.tasks ∧ s'.mem = s.mem ∧ s'.held = s.held ∧ (s.pc t).Executed ∧
      (s'.pc t).Executed ∧ ∀ e, e ≠ t → s'.pc e = s.pc e := by
  unfold State.stepTask at hstep
  cases hpc' : s.pc t with
  | idle | finished =>
      rw [hpc'] at hstep
      cases hstep
  | running => exact absurd hpc' hpc
  | signal rest =>
      rw [hpc'] at hstep
      cases rest with
      | nil =>
          cases hstep
          refine ⟨rfl, rfl, rfl, trivial, ?_, fun e he => setPc_of_ne he _⟩
          show ((s.setPc t .finished).pc t).Executed
          rw [setPc_self]
          trivial
      | cons a rest =>
          obtain ⟨p, _, rfl⟩ := Option.map_eq_some_iff.mp hstep
          refine ⟨rfl, rfl, rfl, trivial, ?_, fun e he => setPc_of_ne he _⟩
          rw [setPc_self]
          split <;> trivial
  | notify a rest =>
      rw [hpc'] at hstep
      cases a with
      | none =>
          cases hstep
          refine ⟨rfl, rfl, rfl, trivial, ?_, fun e he => setPc_of_ne he _⟩
          rw [setPc_self]
          trivial
      | some a =>
          cases hstep
          obtain ⟨hs, _, hpcs, _, _, hmem, hheld⟩ := notify_fields s a
          refine ⟨hs.tasks, hmem, hheld, trivial, ?_, fun e he => ?_⟩
          · rw [setPc_self]
            trivial
          · rw [setPc_of_ne he, hpcs]

omit [DecidableEq η] in
/-- A call of `xkblas_init_matrix_handle` touches neither the tasks nor the tiles. -/
theorem init_fields [DecidableEq η] (hs : List η) :
    (hs.foldl State.newHandle s).tasks = s.tasks ∧ (hs.foldl State.newHandle s).mem = s.mem ∧
    (hs.foldl State.newHandle s).held = s.held ∧ (hs.foldl State.newHandle s).pc = s.pc := by
  induction hs generalizing s with
  | nil => exact ⟨rfl, rfl, rfl, rfl⟩
  | cons h hs ih =>
      obtain ⟨htasks, hmem, hheld, hpc⟩ := ih (s := s.newHandle h)
      exact ⟨htasks, hmem, hheld, hpc⟩

theorem Serial.step {action : Action η V} (hser : Serial m₀ s) (hi : Inv g base s)
    (hok : RespectsLocal s action) (hstep : DataFlow.step s action = some s') : Serial m₀ s' := by
  cases action with
  | init hs =>
      obtain ⟨_, hs'⟩ := Option.ite_none_right_eq_some.mp hstep
      cases hs'
      obtain ⟨htasks, hmem, hheld, hpc⟩ := init_fields (s := s) hs
      exact hser.congr htasks hmem hheld (fun t => by rw [hpc]) fun t hrun => by rw [← hpc, hrun]
  | insert task =>
      obtain ⟨⟨hmain, hlive⟩, hs'⟩ := Option.ite_none_right_eq_some.mp hstep
      cases hs'
      obtain ⟨hs, _, hone⟩ := hi.main.zero hmain
      obtain ⟨g', hins⟩ := inserted hi.linked (hi.quiet hone) hi.tasks.legal hok.1 hlive
      exact hser.insert hins hok.2
  | sync | invalidate =>
      obtain ⟨_, hs'⟩ := Option.ite_none_right_eq_some.mp hstep
      cases hs'
      exact hser.congr rfl rfl rfl (fun _ => Iff.rfl) fun _ hrun => hrun
  | main =>
      obtain ⟨htasks, hmem, hheld, hpc⟩ := stepMain_fields hstep
      exact hser.congr htasks hmem hheld (fun t => by rw [hpc]) fun t hrun => by rw [← hpc, hrun]
  | start t =>
      obtain ⟨hq, hs'⟩ := Option.ite_none_right_eq_some.mp hstep
      cases hs'
      exact hser.start hi hq
  | task t =>
      by_cases hrun : s.pc t = .running
      · have hstep' : s.stepTask t = some s' := hstep
        unfold State.stepTask at hstep'
        rw [hrun] at hstep'
        obtain ⟨task, htask, rfl⟩ := Option.map_eq_some_iff.mp hstep'
        exact hser.endBody hi hrun htask
      · obtain ⟨htasks, hmem, hheld, hex, hex', hother⟩ := stepTask_fields hrun hstep
        refine hser.congr htasks hmem hheld (fun e => ?_) fun e hrun' => ?_
        · by_cases he : e = t
          · rw [he]
            exact iff_of_true hex' hex
          · rw [hother e he]
        · by_cases he : e = t
          · rw [he] at hrun'
            rw [hrun'] at hex'
            exact absurd hex' id
          · rw [← hother e he]
            exact hrun'

theorem reachable_of_leadsTo {s₀ : State η V} (hinit : Initial s₀)
    (hrun : (system η V).LeadsTo RespectsLocal s₀ s) : (system η V).ReachableWhen Respects s :=
  (TransitionSystem.ReachableWhen.start hinit).leadsTo (hrun.mono fun _ _ hok => hok.respects)

theorem serial_of_leadsTo {s₀ : State η V} (hinit : Initial s₀)
    (hrun : (system η V).LeadsTo RespectsLocal s₀ s) : Serial s₀.mem s := by
  induction hrun with
  | refl =>
      refine ⟨fun x k _ _ => ?_, fun t task htask => ?_, fun task hmem => ?_⟩
      · rw [hinit.tasks, List.take_nil]
        rfl
      · rw [hinit.tasks] at htask
        cases htask
      · rw [hinit.tasks] at hmem
        cases hmem
  | next ht hok hstep ih =>
      obtain ⟨g, base, hi⟩ := reachable_inv (reachable_of_leadsTo hinit ht)
      exact ih.step hi hok hstep

/-- When all tasks are executed, the tiles are those of the tasks executed one after the other in
the order of their submission. -/
theorem Serial.mem_eq (hser : Serial m₀ s) (hdone : ∀ t < s.tasks.length, s.pc t = .finished) :
    s.mem = seqRun s.tasks m₀ := by
  funext x
  have hmem := hser.mem x s.tasks.length (fun t ht task _ _ => ?_) fun t ht task htask _ => ?_
  · rw [hmem, List.take_length]
  · rw [hdone t ht]
    trivial
  · exact absurd (List.getElem?_eq_some_iff.mp htask).1 (Nat.not_lt_of_le ht)

omit [DecidableEq η] in
theorem runs_respects {action : Action η V} (hown : Runs action) : RespectsLocal s action := by
  cases action with
  | init | insert | sync | invalidate => exact absurd hown id
  | main | start | task => trivial

/-- The task that an action inserts. -/
def Action.inserted : Action η V → List (Task η V)
  | .insert task => [task]
  | _ => []

theorem insertParams_tasks {ps : List (Param η)} :
    (s.insertParams t i ps).tasks = s.tasks := by
  induction ps generalizing s i with
  | nil => rfl
  | cons p ps ih =>
      cases p with
      | value => exact ih
      | access m h =>
          refine ih.trans ?_
          unfold State.updateDependencies
          dsimp only
          split_ifs <;> rfl

theorem insert_tasks : (s.insert task).tasks = s.tasks ++ [task] := by
  have hdecrement : ∀ (u : State η V) (t : ℕ), (u.decrement t).tasks = u.tasks := by
    intro u t
    unfold State.decrement
    dsimp only
    split <;> rfl
  show (State.decrement _ _).tasks = _
  rw [hdecrement]
  exact insertParams_tasks

/-- The tasks are those that the actions insert. -/
theorem step_tasks {action : Action η V} (hstep : DataFlow.step s action = some s') :
    s'.tasks = s.tasks ++ action.inserted := by
  cases action with
  | init hs =>
      obtain ⟨_, hs'⟩ := Option.ite_none_right_eq_some.mp hstep
      cases hs'
      rw [(init_fields hs).1]
      exact (List.append_nil _).symm
  | insert task =>
      obtain ⟨_, hs'⟩ := Option.ite_none_right_eq_some.mp hstep
      cases hs'
      exact insert_tasks
  | sync | invalidate | start =>
      obtain ⟨_, hs'⟩ := Option.ite_none_right_eq_some.mp hstep
      cases hs'
      exact (List.append_nil _).symm
  | main =>
      rw [(stepMain_fields hstep).1]
      exact (List.append_nil _).symm
  | task t =>
      by_cases hrun : s.pc t = .running
      · have hstep' : s.stepTask t = some s' := hstep
        unfold State.stepTask at hstep'
        rw [hrun] at hstep'
        obtain ⟨task, _, rfl⟩ := Option.map_eq_some_iff.mp hstep'
        exact (List.append_nil _).symm
      · rw [(stepTask_fields hrun hstep).1]
        exact (List.append_nil _).symm

/-- The steps of `xkblas_sync` and of the threads insert no task. -/
theorem runs_tasks {action : Action η V} (hown : Runs action)
    (hstep : DataFlow.step s action = some s') : s'.tasks = s.tasks := by
  have hnone : action.inserted = [] := by
    cases action with
    | init | insert | sync | invalidate => exact absurd hown id
    | main | start | task => rfl
  rw [step_tasks hstep, hnone, List.append_nil]

/-- While steps of `xkblas_sync` are left and the tiles are those of the executed tasks, its end is
inevitable, with the tiles of all tasks executed one after the other. -/
theorem Serial.returns {n : ℕ} (hser : Serial m₀ s) (hleft : Left n s) :
    (system η V).Inevitable Runs
      (fun u => Returned u ∧ u.tasks = s.tasks ∧ u.mem = seqRun s.tasks m₀) s := by
  have hkept : ∀ u (action : Action η V) u',
      (Serial m₀ u ∧ ∃ g base, Inv g base u) ∧ u.tasks = s.tasks → Runs action →
        DataFlow.step u action = some u' →
          (Serial m₀ u' ∧ ∃ g base, Inv g base u') ∧ u'.tasks = s.tasks := by
    rintro u action u' ⟨⟨hu, g, base, hi⟩, htasks⟩ hown hstep
    have hok : RespectsLocal u action := runs_respects hown
    exact ⟨⟨hu.step hi hok hstep, hi.step hok.respects hstep⟩,
      (runs_tasks hown hstep).trans htasks⟩
  have hinv : ∃ g base, Inv g base s := by
    obtain ⟨g, base, _, hi, _⟩ := hleft
    exact ⟨g, base, hi⟩
  refine (hleft.returns.and_invariant hkept ⟨⟨hser, hinv⟩, rfl⟩).mono ?_
  rintro u ⟨hreturned, ⟨hu, _⟩, htasks⟩
  refine ⟨hreturned, htasks, ?_⟩
  rw [hu.mem_eq hreturned.finished, htasks]

/-- `xkblas_sync` returns, and the tiles are then those of all tasks executed one after the other in
the order of their submission. -/
theorem sync_serializable {s₀ : State η V} (hinit : Initial s₀)
    (hrun : (system η V).LeadsTo RespectsLocal s₀ s) (hmain : s.main ≠ .build) :
    (system η V).Inevitable Runs
      (fun u => Returned u ∧ u.tasks = s.tasks ∧ u.mem = seqRun s.tasks s₀.mem) s := by
  obtain ⟨n, hleft⟩ := exists_left (reachable_of_leadsTo hinit hrun) hmain
  exact (serial_of_leadsTo hinit hrun).returns hleft

theorem local_writer : Local writer := by
  constructor
  case modes =>
    intro m h hmem
    have hmode : (Param.access m h) ∈ [Param.value, .access modeW false] := hmem
    simp only [List.mem_cons, List.not_mem_nil, or_false, reduceCtorEq, false_or] at hmode
    injection hmode with hm
    exact .inr (.inl hm)
  case uses => exact fun _ _ _ _ _ => rfl

theorem local_reader : Local reader := by
  constructor
  case modes =>
    intro m h hmem
    have hmode : (Param.access m h) ∈ [Param.access modeR false, .access modeRW true] := hmem
    simp only [List.mem_cons, List.not_mem_nil, or_false] at hmode
    rcases hmode with heq | heq
    · injection heq with hm
      exact .inl hm
    · injection heq with hm
      exact .inr (.inr hm)
  case uses =>
    intro mem mem' heq x _
    show mem false + mem true = mem' false + mem' true
    rw [heq false (by decide), heq true (by decide)]

theorem sync_serializable_writerReader :
    let s := ((system Bool ℕ).replay Respects (emptyFlow fun _ => 5) writerReaderCalls).get
      (by decide)
    (system Bool ℕ).Inevitable Runs
      (fun u => Returned u ∧ u.tasks = [writer, reader] ∧
        u.mem = seqRun [writer, reader] fun _ => 5) s := by
  intro s
  have hrun : (system Bool ℕ).LeadsTo RespectsLocal (emptyFlow fun _ => 5) s := by
    refine .next (.next (.next (.next .refl (a := .init [false, true]) trivial rfl)
      (a := .insert writer) ⟨by decide, local_writer⟩ rfl)
      (a := .insert reader) ⟨by decide, local_reader⟩ rfl) (a := .sync) trivial rfl
  exact sync_serializable (initial_emptyFlow _) hrun (by decide)

example : (seqRun [writer, reader] fun _ => 5) true = 6 := by decide

end Xkblas.Sched.DataFlow
