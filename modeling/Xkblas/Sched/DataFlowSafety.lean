import Xkblas.Sched.DataFlowRun

/-!
# The order of the tasks

Two tasks with accesses in conflict are executed in the order of their submission, and a task is
pushed once, when its accesses are ready. Between two calls of `xkblas_sync` its list links every
live handle once.
-/

namespace Xkblas.Sched.DataFlow

open Library

variable {η V : Type}

variable {g : Graph η} {s s' : State η V} {h : η} {k t t' i i' base : ℕ} {a : Ref η} {m m' : Mode}

/-! ## Order -/

/-- The body of the task has been executed. -/
def Pc.Executed : Pc η → Prop
  | .idle | .running => False
  | .signal _ | .notify _ _ | .finished => True

instance : DecidablePred (Pc.Executed : Pc η → Prop)
  | .idle | .running => instDecidableFalse
  | .signal _ | .notify _ _ | .finished => instDecidableTrue

theorem executed_of_not_pending (hp : ¬ Pending s (.access t i)) : (s.pc t).Executed := by
  have hp' : ¬ (s.pc t).Pending (.access t i) := hp
  cases hpc : s.pc t with
  | idle | running =>
      rw [hpc] at hp'
      exact absurd trivial hp'
  | signal rest => trivial
  | notify a rest => trivial
  | finished => trivial

/-- Two accesses in conflict to the same handle: the group of the earlier one is before that of the
later one. -/
theorem Chain.lt_of_conflict (hc : Chain g s h) {j : ℕ} (hj : j < g.top h) (hk : k < g.top h)
    (ha : .access t i ∈ g.group h j) (ha' : .access t' i' ∈ g.group h k) (hlt : t < t')
    (hp : IsParam s t i m h) (hp' : IsParam s t' i' m' h) (hconflict : Conflict m m') : j < k := by
  rcases Nat.lt_trichotomy j k with hjk | rfl | hkj
  · exact hjk
  · exfalso
    obtain ⟨m₀, hm₀, hall⟩ := hc.alike j hj
    obtain ⟨⟨t₁, i₁, heq, hparam, _⟩, _, _⟩ := hall _ ha
    obtain ⟨⟨t₂, i₂, heq', hparam', _⟩, _, _⟩ := hall _ ha'
    cases heq
    cases heq'
    obtain ⟨rfl, _⟩ := hparam.unique hp
    obtain ⟨rfl, _⟩ := hparam'.unique hp'
    rcases hm₀ with hr | hcw | hone
    · exact hconflict.1 ⟨hr, hr⟩
    · exact hconflict.2 ⟨hcw, hcw⟩
    · have hsame := eq_of_mem_of_length_le_one (Nat.le_of_eq hone) ha ha'
      cases hsame
      exact Nat.lt_irrefl _ hlt
  · exact absurd (hc.ordered k j hkj hj t' i' t i ha' ha) (Nat.not_lt_of_lt hlt)

variable [DecidableEq η]

/-- The groups before one that is open have signalled. -/
theorem Inv.settled (hi : Inv g base s) (hlive : s.live h = true) (hk : k < g.top h)
    (hopen : s.wc (g.point h k) = 0) : ∀ j < k, ∀ b ∈ g.group h j, ¬ Pending s b := by
  induction k with
  | zero => exact fun j hj => absurd hj (Nat.not_lt_zero j)
  | succ k ih =>
      have hk' : k < g.top h := Nat.lt_of_succ_lt hk
      have hcount := hi.points.count h hlive k hk'
      rw [hopen] at hcount
      have hnone : ∀ b ∈ g.group h k, ¬ Pending s b := by
        intro b hb hpend
        have hzero := List.countP_eq_zero.mp (Int.ofNat_eq_zero.mp hcount.symm) b hb
        exact hzero (decide_eq_true hpend)
      -- an access of the group `k` has signalled, so it was ready, and the group was open
      obtain ⟨b, hb⟩ := List.exists_mem_of_ne_nil _ ((hi.linked.chain h hlive).nonempty k hk')
      have hready : s.ready b = true := by
        by_contra hnot
        exact hnone b hb (hi.tasks.pending_of_not_ready hi.linked hlive ⟨k, hk', hb⟩
          (Bool.eq_false_of_not_eq_true hnot))
      have hopen' : s.wc (g.point h k) = 0 := by
        by_contra hne
        rw [hi.points.closed h hlive k hk' hne b hb] at hready
        cases hready
      intro j hj
      rcases Nat.lt_succ_iff_lt_or_eq.mp hj with hlt | rfl
      · exact ih hk' hopen' j hlt
      · exact hnone

/-- An access of a later group that is ready: the earlier groups have signalled. -/
theorem Inv.settled_of_ready (hi : Inv g base s) (hlive : s.live h = true) (hk : k < g.top h)
    (ha : a ∈ g.group h k) (hready : s.ready a = true) :
    ∀ j < k, ∀ b ∈ g.group h j, ¬ Pending s b := by
  refine hi.settled hlive hk ?_
  by_contra hne
  rw [hi.points.closed h hlive k hk hne a ha] at hready
  cases hready

/-- When a task is pushed, the earlier accesses in conflict have signalled. -/
theorem Inv.not_pending_of_conflict (hi : Inv g base s) (hlt : t < t') (hp : IsParam s t i m h)
    (hp' : IsParam s t' i' m' h) (hconflict : Conflict m m') (hpushed : t' ∈ s.pushed) :
    ¬ Pending s (.access t i) := by
  by_cases hbase : t < base
  · show ¬ (s.pc t).Pending _
    rw [hi.round.done t hbase]
    exact id
  · obtain ⟨hlive, j, hj, ha⟩ := hi.round.covered t i m h (Nat.le_of_not_lt hbase) hp
    obtain ⟨_, k, hk, ha'⟩ := hi.round.covered t' i' m' h (by omega) hp'
    have hjk := (hi.linked.chain h hlive).lt_of_conflict hj hk ha ha' hlt hp hp' hconflict
    obtain ⟨task, htask, hparam⟩ := hp'
    have hready : s.ready (.access t' i') = true :=
      hi.tasks.ready_of_pushed htask hpushed
        (mem_accesses.mpr ⟨i', m', h, by rw [Nat.zero_add], hparam⟩)
    exact hi.settled_of_ready hlive hk ha' hready j hjk _ ha

theorem Inv.executed_of_conflict (hi : Inv g base s) (hlt : t < t') (hp : IsParam s t i m h)
    (hp' : IsParam s t' i' m' h) (hconflict : Conflict m m') (hpushed : t' ∈ s.pushed) :
    (s.pc t).Executed :=
  executed_of_not_pending (hi.not_pending_of_conflict hlt hp hp' hconflict hpushed)

/-! ## What a task waits for -/

/-- While `xkblas_sync` waits, the first points of the handles that have accesses are open. -/
theorem Inv.open_of_wait (hi : Inv g base s) (hmain : s.main = .wait) (hlive : s.live h = true)
    (htop : 0 < g.top h) : s.wc (.sync0 h) = 0 := by
  have hm := hi.main
  unfold MainInv at hm
  rw [hmain] at hm
  obtain ⟨hs, hlisted, hzero⟩ := hm
  exact hzero h ((hlisted.2 h).mp hlive) htop

/-- A task that is not pushed has an access that is not ready, in a group of this round. -/
theorem Inv.exists_not_ready (hi : Inv g base s) (ht : t < s.tasks.length)
    (hnot : t ∉ s.pushed) : ∃ i m h k, IsParam s t i m h ∧ s.live h = true ∧ k < g.top h ∧
      .access t i ∈ g.group h k ∧ s.ready (.access t i) = false := by
  have hbase : base ≤ t := by
    by_contra hlt
    have hfin := hi.round.done t (Nat.lt_of_not_le hlt)
    rw [hi.tasks.idle t hnot] at hfin
    cases hfin
  have htask : s.tasks[t]? = some s.tasks[t] := List.getElem?_eq_getElem ht
  have hwc : s.taskWc t ≠ 0 := fun hz => hnot ((hi.tasks.pushed t).mpr ⟨ht, hz⟩)
  rw [hi.tasks.wc t _ htask] at hwc
  obtain ⟨a, ha, hready⟩ := List.countP_pos_iff.mp
    (Nat.pos_of_ne_zero fun hz => hwc (Int.ofNat_eq_zero.mpr hz))
  obtain ⟨i, m, h, rfl, hparam⟩ := mem_accesses.mp ha
  rw [Nat.zero_add] at hready
  obtain ⟨hlive, k, hk, hmem⟩ := hi.round.covered t i m h hbase ⟨_, htask, hparam⟩
  exact ⟨i, m, h, k, ⟨_, htask, hparam⟩, hlive, hk, hmem, of_decide_eq_true hready⟩

/-- While `xkblas_sync` waits and no thread is in `kaapi_sched_activate_syncpoint`, a task that is
not pushed waits for an earlier access in conflict. -/
theorem Inv.exists_conflict (hi : Inv g base s) (hmain : s.main = .wait)
    (hstill : ∀ e, (s.pc e).pointer = none) (ht : t < s.tasks.length) (hnot : t ∉ s.pushed) :
    ∃ t' < t, ∃ i m i' m' h, IsParam s t' i m h ∧ IsParam s t i' m' h ∧ Conflict m m' ∧
      Pending s (.access t' i) := by
  obtain ⟨i, m, h, k, hparam, hlive, hk, hmem, hready⟩ := hi.exists_not_ready ht hnot
  have hc := hi.linked.chain h hlive
  -- its group is not open: no thread walks along it
  have hclosed : s.wc (g.point h k) ≠ 0 := by
    intro hopen
    obtain ⟨w, a, _, hw⟩ := hi.points.opened h hlive k hk hopen _ hmem hready
    cases w with
    | main =>
        have hw' : s.main.pointer = some a := hw
        rw [hmain] at hw'
        cases hw'
    | task e =>
        have hw' : (s.pc e).pointer = some a := hw
        rw [hstill e] at hw'
        cases hw'
  cases k with
  | zero =>
      rw [hc.zero] at hclosed
      exact absurd (hi.open_of_wait hmain hlive hk) hclosed
  | succ k =>
      have hk' := Nat.lt_of_succ_lt hk
      rw [hi.points.count h hlive k hk'] at hclosed
      obtain ⟨b, hb, hpend⟩ := List.countP_pos_iff.mp
        (Nat.pos_of_ne_zero fun hz => hclosed (Int.ofNat_eq_zero.mpr hz))
      obtain ⟨mb, heb⟩ := hc.entry hk' hb
      obtain ⟨m', he⟩ := hc.entry hk hmem
      obtain ⟨t', i', rfl, hparam', _⟩ := heb.param
      obtain ⟨t₀, i₀, heq, hparam₀, _⟩ := he.param
      cases heq
      have hconflict := hc.adjacent k hk _ hb _ hmem
      rw [heb.mode, he.mode] at hconflict
      exact ⟨t', hc.ordered k (k + 1) (Nat.lt_succ_self k) hk t' i' t i hb hmem, i', mb, i, m', h,
        hparam', hparam₀, hconflict, of_decide_eq_true hpend⟩

/-! ## A run -/

/-- No task has been submitted. -/
def emptyFlow {η V : Type} (mem : η → V) : State η V where
  mode _ := modeVoid
  next _ := none
  sync _ := none
  task _ := none
  ready _ := false
  wc _ := 0
  last _ := none
  hsync _ := none
  listSync0 := none
  nextSync0 _ := none
  live _ := false
  brk := 0
  tasks := []
  taskWc _ := 0
  queue := []
  pushed := []
  pc _ := .idle
  main := .build
  spawn := 0
  exec := 0
  mem := mem
  held _ := mem

theorem initial_emptyFlow {η V : Type} (mem : η → V) : Initial (emptyFlow mem) :=
  ⟨fun _ => rfl, rfl, rfl, rfl, rfl, fun _ => rfl, rfl, rfl, rfl⟩

/-- A task that writes the first tile. -/
def writer : Task Bool ℕ where
  params := [.value, .access modeW false]
  body _ _ := 1

/-- A task that reads it, and adds it to the second one. -/
def reader : Task Bool ℕ where
  params := [.access modeR false, .access modeRW true]
  body mem _ := mem false + mem true

/-- The two tasks are inserted, and `xkblas_sync` is called. -/
def writerReaderCalls : List (Action Bool ℕ) :=
  [.init [false, true], .insert writer, .insert reader, .sync]

/-- `xkblas_sync` activates the handles, and a thread executes the first task. -/
def writerReaderRun : List (Action Bool ℕ) :=
  writerReaderCalls ++ .replicate 7 .main ++ [.start 0] ++ .replicate 3 (.task 0)

/-! ## Order and readiness of the tasks -/

/-- Of two tasks with accesses in conflict to the same handle, the later one is only pushed when the
body of the earlier one has been executed. -/
theorem executed_before_pushed (hs : (system η V).ReachableWhen Respects s) (hlt : t < t')
    (hp : IsParam s t i m h) (hp' : IsParam s t' i' m' h) (hconflict : Conflict m m')
    (hpushed : t' ∈ s.pushed) : (s.pc t).Executed := by
  obtain ⟨g, base, hi⟩ := reachable_inv hs
  exact hi.executed_of_conflict hlt hp hp' hconflict hpushed

theorem executed_before_pushed_writerReader :
    let s := ((system Bool ℕ).replay Respects (emptyFlow fun _ => 5) writerReaderRun).get
      (by decide)
    (s.pc 0).Executed := by
  intro s
  have hs : (system Bool ℕ).ReachableWhen Respects s :=
    (TransitionSystem.ReachableWhen.start (initial_emptyFlow _)).replay (Option.some_get _).symm
  have hwriter : IsParam s 0 1 modeW false := ⟨writer, rfl, rfl⟩
  have hreader : IsParam s 1 0 modeR false := ⟨reader, rfl, rfl⟩
  exact executed_before_pushed hs Nat.zero_lt_one hwriter hreader (by decide) (by decide)

/-- A task is pushed once, when its last access becomes ready, and the tasks of the queue are those
that were pushed and that no thread has taken. -/
theorem pushed_once (hs : (system η V).ReachableWhen Respects s) :
    s.pushed.Nodup ∧ s.queue.Nodup ∧
    (∀ t, t ∈ s.queue ↔ t ∈ s.pushed ∧ s.pc t = .idle) ∧
    ∀ t task, s.tasks[t]? = some task →
      (t ∈ s.pushed ↔ ∀ a ∈ accesses t 0 task.params, s.ready a = true) := by
  obtain ⟨g, base, hi⟩ := reachable_inv hs
  refine ⟨hi.tasks.pushed_nodup, hi.tasks.queue_nodup, hi.tasks.queue, fun t task htask => ?_⟩
  constructor
  · exact fun hp a ha => hi.tasks.ready_of_pushed htask hp ha
  · intro hall
    refine (hi.tasks.pushed t).mpr ⟨(List.getElem?_eq_some_iff.mp htask).1, ?_⟩
    rw [hi.tasks.wc t task htask]
    refine Int.ofNat_eq_zero.mpr (List.countP_eq_zero.mpr fun a ha => ?_)
    rw [hall a ha]
    simp

theorem pushed_once_writerReader :
    let s := ((system Bool ℕ).replay Respects (emptyFlow fun _ => 5) writerReaderRun).get
      (by decide)
    s.queue.Nodup ∧ (1 ∈ s.pushed ↔ ∀ a ∈ accesses 1 0 reader.params, s.ready a = true) := by
  intro s
  have hs : (system Bool ℕ).ReachableWhen Respects s :=
    (TransitionSystem.ReachableWhen.start (initial_emptyFlow _)).replay (Option.some_get _).symm
  obtain ⟨_, hqueue, _, hready⟩ := pushed_once hs
  exact ⟨hqueue, hready 1 reader rfl⟩

/-- The dependencies are exact: while `xkblas_sync` waits and no thread is in
`kaapi_sched_activate_syncpoint`, the tasks that are pushed are those for which all earlier accesses
in conflict have signalled. -/
theorem pushed_iff_signalled (hs : (system η V).ReachableWhen Respects s) (hmain : s.main = .wait)
    (hstill : ∀ e, (s.pc e).pointer = none) (ht : t < s.tasks.length) :
    t ∈ s.pushed ↔ ∀ t' < t, ∀ i m i' m' h, IsParam s t' i m h → IsParam s t i' m' h →
      Conflict m m' → ¬ Pending s (.access t' i) := by
  obtain ⟨g, base, hi⟩ := reachable_inv hs
  constructor
  · intro hpushed t' hlt i m i' m' h hp hp' hconflict
    exact hi.not_pending_of_conflict hlt hp hp' hconflict hpushed
  · intro hall
    by_contra hnot
    obtain ⟨t', hlt, i, m, i', m', h, hp, hp', hconflict, hpend⟩ :=
      hi.exists_conflict hmain hstill ht hnot
    exact hall t' hlt i m i' m' h hp hp' hconflict hpend

theorem pushed_iff_signalled_writerReader :
    let s := ((system Bool ℕ).replay Respects (emptyFlow fun _ => 5)
      (writerReaderCalls ++ .replicate 7 .main)).get (by decide)
    1 ∈ s.pushed ↔ ∀ t' < 1, ∀ i m i' m' h, IsParam s t' i m h → IsParam s 1 i' m' h →
      Conflict m m' → ¬ Pending s (.access t' i) := by
  intro s
  have hs : (system Bool ℕ).ReachableWhen Respects s :=
    (TransitionSystem.ReachableWhen.start (initial_emptyFlow _)).replay (Option.some_get _).symm
  refine pushed_iff_signalled hs (by decide) (fun e => ?_) (by decide)
  rcases e with _ | _ | e <;> rfl

/-- Between two calls of `xkblas_sync`, its list is acyclic and links every live handle once; their
first points wait for one signal, and the accesses of the tasks that are not executed are to live
handles. -/
theorem handles_listed (hs : (system η V).ReachableWhen Respects s) (hmain : s.main = .build) :
    ∃ hs, IsPath s.nextSync0 s.listSync0 hs none ∧ hs.Nodup ∧ (∀ h, s.live h = true ↔ h ∈ hs) ∧
      (∀ h ∈ hs, s.wc (.sync0 h) = 1) ∧
      ∀ t i m h, IsParam s t i m h → s.pc t ≠ .finished → h ∈ hs := by
  obtain ⟨g, base, hi⟩ := reachable_inv hs
  obtain ⟨hs, hlisted, hone⟩ := hi.main.zero hmain
  refine ⟨hs, hlisted.1, hlisted.1.nodup, hlisted.2, fun h hh => hone h ((hlisted.2 h).mpr hh), ?_⟩
  intro t i m h hp hne
  have hbase : base ≤ t := by
    by_contra hlt
    exact hne (hi.round.done t (Nat.lt_of_not_le hlt))
  exact (hlisted.2 h).mp (hi.round.covered t i m h hbase hp).1

theorem handles_listed_writerReader :
    let s := ((system Bool ℕ).replay Respects (emptyFlow fun _ => 5)
      [.init [false, true], .insert writer, .insert reader]).get (by decide)
    ∃ hs, IsPath s.nextSync0 s.listSync0 hs none ∧ hs.Nodup ∧ true ∈ hs := by
  intro s
  have hs : (system Bool ℕ).ReachableWhen Respects s :=
    (TransitionSystem.ReachableWhen.start (initial_emptyFlow _)).replay (Option.some_get _).symm
  obtain ⟨hs, hpath, hnodup, hlive, _⟩ := handles_listed hs rfl
  exact ⟨hs, hpath, hnodup, (hlive true).mp rfl⟩

end Xkblas.Sched.DataFlow
