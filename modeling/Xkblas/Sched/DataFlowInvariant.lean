import Xkblas.Sched.DataFlowTasks

/-!
# The invariant of the data flow

The chains, the counters and the place of `xkblas_sync` together. Between two calls of `xkblas_sync`
no handle has been activated, which is why the accesses of a task can be linked without a lock: a
new handle and a new task keep the invariant.
-/

namespace Xkblas.Sched.DataFlow

open Library

variable {η V : Type}

variable {g g' : Graph η} {s s' : State η V} {h : η} {k t i : ℕ} {a p : Ref η} {w : Worker}

/-! ## The invariant -/

/-- The pointers of the handles and the tasks are as before. -/
structure Static (s s' : State η V) : Prop where
  mode : s'.mode = s.mode
  next : s'.next = s.next
  sync : s'.sync = s.sync
  task : s'.task = s.task
  last : s'.last = s.last
  hsync : s'.hsync = s.hsync
  listSync0 : s'.listSync0 = s.listSync0
  nextSync0 : s'.nextSync0 = s.nextSync0
  live : s'.live = s.live
  brk : s'.brk = s.brk
  tasks : s'.tasks = s.tasks

theorem Linked.congr (hl : Linked g s) (hs : Static s s') : Linked g s' := by
  constructor
  case chain =>
    intro h hh
    rw [hs.live] at hh
    refine (hl.chain h hh).frame rfl rfl rfl (fun t task htask => by rw [hs.tasks]; exact htask)
      (Nat.le_of_eq hs.brk.symm) (fun k _ => ?_) (fun k _ a _ => ?_) (by rw [hs.hsync])
      (by rw [hs.last])
    · rw [hs.next, hs.mode]
      exact ⟨rfl, rfl⟩
    · rw [hs.next, hs.mode, hs.sync, hs.task]
      exact ⟨rfl, rfl, rfl, rfl⟩
  case apart =>
    rw [hs.live]
    exact hl.apart

/-- The handles that `xkblas_list_sync0` links are the live ones. -/
def Listed (s : State η V) (hs : List η) : Prop :=
  IsPath s.nextSync0 s.listSync0 hs none ∧ ∀ h, s.live h = true ↔ h ∈ hs

theorem Listed.congr {hs : List η} (hl : Listed s hs) (hstatic : Static s s') : Listed s' hs := by
  unfold Listed
  rw [hstatic.nextSync0, hstatic.listSync0, hstatic.live]
  exact hl

/-- The tasks from `base` on were submitted since the last call of `xkblas_sync`. -/
structure Round (g : Graph η) (base : ℕ) (s : State η V) : Prop where
  le : base ≤ s.tasks.length
  done : ∀ t < base, s.pc t = .finished
  covered : ∀ t i m h, base ≤ t → IsParam s t i m h →
    s.live h = true ∧ InGroup g h (.access t i)

/-- Where `xkblas_sync` is in `xkblas_list_sync0`, and which handles it has activated. -/
def MainInv (g : Graph η) (base : ℕ) (s : State η V) : Prop :=
  match s.main with
  | .build => ∃ hs, Listed s hs ∧ ∀ h ∈ hs, s.wc (.sync0 h) = 1
  | .activate curr | .notify _ curr => ∃ done rest, Listed s (done ++ rest) ∧
      IsPath s.nextSync0 curr rest none ∧ (∀ h ∈ rest, s.wc (.sync0 h) = 1) ∧
      ∀ h ∈ done, 0 < g.top h → s.wc (.sync0 h) = 0
  | .wait => ∃ hs, Listed s hs ∧ ∀ h ∈ hs, 0 < g.top h → s.wc (.sync0 h) = 0
  | .reset curr => base = s.tasks.length ∧ ∃ done rest, IsPath s.nextSync0 s.listSync0 done none ∧
      IsPath s.nextSync0 curr rest none ∧ (done ++ rest).Nodup ∧
      (∀ h, s.live h = true ↔ h ∈ done ++ rest) ∧
      ∀ h ∈ done, g.top h = 0 ∧ s.wc (.sync0 h) = 1

/-- A step of a thread that executes a task. -/
theorem MainInv.congr {base : ℕ} (hm : MainInv g base s) (hs : Static s s')
    (hmain : s'.main = s.main)
    (hwc : ∀ h, s.live h = true → s'.wc (.sync0 h) = s.wc (.sync0 h)) : MainInv g base s' := by
  unfold MainInv at hm ⊢
  rw [hmain]
  cases hpc : s.main with
  | build =>
      rw [hpc] at hm
      obtain ⟨hlist, hlisted, hone⟩ := hm
      exact ⟨hlist, hlisted.congr hs, fun h hh => (hwc h ((hlisted.2 h).mpr hh)).trans (hone h hh)⟩
  | activate curr | notify _ curr =>
      rw [hpc] at hm
      obtain ⟨done, rest, hlisted, hpath, hrest, hdone⟩ := hm
      refine ⟨done, rest, hlisted.congr hs, hs.nextSync0 ▸ hpath, fun h hh => ?_,
        fun h hh htop => ?_⟩
      · rw [hwc h ((hlisted.2 h).mpr (List.mem_append_right _ hh))]
        exact hrest h hh
      · rw [hwc h ((hlisted.2 h).mpr (List.mem_append_left _ hh))]
        exact hdone h hh htop
  | wait =>
      rw [hpc] at hm
      obtain ⟨hlist, hlisted, hzero⟩ := hm
      exact ⟨hlist, hlisted.congr hs, fun h hh htop =>
        (hwc h ((hlisted.2 h).mpr hh)).trans (hzero h hh htop)⟩
  | reset curr =>
      rw [hpc] at hm
      obtain ⟨hbase, done, rest, hpath, hpath', hnodup, hlive, hdone⟩ := hm
      refine ⟨hs.tasks ▸ hbase, done, rest, ?_, hs.nextSync0 ▸ hpath', hnodup, hs.live ▸ hlive,
        fun h hh => ⟨(hdone h hh).1, ?_⟩⟩
      · rw [hs.nextSync0, hs.listSync0]
        exact hpath
      · rw [hwc h ((hlive h).mpr (List.mem_append_left _ hh))]
        exact (hdone h hh).2

theorem Round.congr {base : ℕ} (hr : Round g base s) (htasks : s'.tasks = s.tasks)
    (hlive : s'.live = s.live) (hdone : ∀ t < base, s.pc t = .finished → s'.pc t = .finished) :
    Round g base s' := by
  refine ⟨htasks ▸ hr.le, fun t ht => hdone t ht (hr.done t ht), fun t i m h ht hp => ?_⟩
  rw [hlive]
  refine hr.covered t i m h ht ?_
  obtain ⟨task, htask, hparam⟩ := hp
  exact ⟨task, htasks ▸ htask, hparam⟩

section Inv

variable [DecidableEq η]

/-- The invariant of the runs, with the graph of the handles and the first task of the round. -/
structure Inv (g : Graph η) (base : ℕ) (s : State η V) : Prop where
  linked : Linked g s
  points : Points g s
  tasks : Tasks s
  round : Round g base s
  main : MainInv g base s

variable {base : ℕ}

/-- The access at the pointer of a walk belongs to a task, and is not ready. -/
theorem Inv.of_pointer (hi : Inv g base s) (hw : s.pointer w = some a) :
    ∃ t task, s.task a = some t ∧ s.tasks[t]? = some task ∧ a ∈ accesses t 0 task.params ∧
      s.ready a = false := by
  obtain ⟨h, k, hwalk⟩ := hi.points.walk w a hw
  obtain ⟨m, ⟨t, i, rfl, ⟨task, htask, hparam⟩, howner⟩, _, _⟩ :=
    (hi.linked.chain h hwalk.1).entry hwalk.2.1 hwalk.mem
  refine ⟨t, task, howner, htask, mem_accesses.mpr ⟨i, m, h, by rw [Nat.zero_add], hparam⟩, ?_⟩
  exact hwalk.not_ready

/-- The fields that one round of the loop of `kaapi_sched_activate_syncpoint` leaves alone. -/
theorem notify_fields (s : State η V) (a : Ref η) : Static s (s.notify a) ∧
    (s.notify a).wc = s.wc ∧ (s.notify a).pc = s.pc ∧ (s.notify a).main = s.main ∧
    (s.notify a).ready = Function.update s.ready a true ∧ (s.notify a).mem = s.mem ∧
    (s.notify a).held = s.held := by
  cases howner : s.task a with
  | none =>
      have hnotify : s.notify a = { s with ready := Function.update s.ready a true } := by
        unfold State.notify
        simp only [howner]
      rw [hnotify]
      exact ⟨⟨rfl, rfl, rfl, rfl, rfl, rfl, rfl, rfl, rfl, rfl, rfl⟩, rfl, rfl, rfl, rfl, rfl, rfl⟩
  | some t =>
      by_cases hzero : s.taskWc t - 1 = 0
      · rw [notify_of_zero howner hzero]
        exact ⟨⟨rfl, rfl, rfl, rfl, rfl, rfl, rfl, rfl, rfl, rfl, rfl⟩, rfl, rfl, rfl, rfl, rfl,
          rfl⟩
      · rw [notify_of_ne howner hzero]
        exact ⟨⟨rfl, rfl, rfl, rfl, rfl, rfl, rfl, rfl, rfl, rfl, rfl⟩, rfl, rfl, rfl, rfl, rfl,
          rfl⟩

end Inv

/-! ## Between the calls of `xkblas_sync` -/

/-- The first points of the handles count one signal, that of `xkblas_sync`. -/
theorem MainInv.zero {base : ℕ} (hm : MainInv g base s) (hmain : s.main = .build) :
    ∃ hs, Listed s hs ∧ ∀ h, s.live h = true → s.wc (.sync0 h) = 1 := by
  unfold MainInv at hm
  rw [hmain] at hm
  obtain ⟨hs, hlisted, hone⟩ := hm
  exact ⟨hs, hlisted, fun h hh => hone h ((hlisted.2 h).mp hh)⟩

section Build

variable [DecidableEq η] {base : ℕ}

theorem Tasks.not_pushed (ht : Tasks s) {task : Task η V} (htask : s.tasks[t]? = some task)
    (ha : a ∈ accesses t 0 task.params) (hready : s.ready a = false) : t ∉ s.pushed := fun hp => by
  rw [ht.ready_of_pushed htask hp ha] at hready
  cases hready

/-- An access that is not ready has not signalled either. -/
theorem Tasks.pending_of_not_ready (ht : Tasks s) (hl : Linked g s) (hlive : s.live h = true)
    (ha : InGroup g h a) (hready : s.ready a = false) : Pending s a := by
  obtain ⟨t, i, m, rfl, ⟨task, htask, hparam⟩, _⟩ := hl.access_of_inGroup hlive ha
  have hmem : Ref.access t i ∈ accesses t 0 task.params :=
    mem_accesses.mpr ⟨i, m, h, by rw [Nat.zero_add], hparam⟩
  show (s.pc t).Pending _
  rw [ht.idle t (ht.not_pushed htask hmem hready)]
  trivial

/-- Before the activation of the handles, no group is open. -/
theorem Inv.closed_of_zero (hi : Inv g base s) (hlive : s.live h = true)
    (hone : s.wc (.sync0 h) = 1) : ∀ k < g.top h,
    s.wc (g.point h k) ≠ 0 ∧ (∀ a ∈ g.group h k, s.ready a = false) ∧
      s.wc (g.point h (k + 1)) = ((g.group h k).length : ℤ) := by
  have hc := hi.linked.chain h hlive
  -- the groups close one another, from the first point on
  have hgroup : ∀ k < g.top h, s.wc (g.point h k) ≠ 0 →
      (∀ a ∈ g.group h k, s.ready a = false) ∧
        s.wc (g.point h (k + 1)) = ((g.group h k).length : ℤ) := by
    intro k hk hne
    have hready := hi.points.closed h hlive k hk hne
    refine ⟨hready, ?_⟩
    rw [hi.points.count h hlive k hk]
    congr 1
    refine List.countP_eq_length.mpr fun a ha => decide_eq_true ?_
    exact hi.tasks.pending_of_not_ready hi.linked hlive ⟨k, hk, ha⟩ (hready a ha)
  intro k
  induction k with
  | zero =>
      intro hk
      have hne : s.wc (g.point h 0) ≠ 0 := by
        rw [hc.zero, hone]
        exact one_ne_zero
      exact ⟨hne, hgroup 0 hk hne⟩
  | succ k ih =>
      intro hk
      have hne : s.wc (g.point h (k + 1)) ≠ 0 := by
        rw [(ih (Nat.lt_of_succ_lt hk)).2.2]
        exact_mod_cast fun hzero => hc.nonempty k (Nat.lt_of_succ_lt hk)
          (List.length_eq_zero_iff.mp hzero)
      exact ⟨hne, hgroup (k + 1) hk hne⟩

/-- All handles wait for `xkblas_sync`. -/
theorem Inv.quiet (hi : Inv g base s) (hone : ∀ h, s.live h = true → s.wc (.sync0 h) = 1) :
    Quiet g s := by
  refine ⟨hone, fun h hh k hk => ?_, fun h hh a ha => ?_⟩
  · exact (hi.closed_of_zero hh (hone h hh) k hk).2.2
  · obtain ⟨k, hk, hmem⟩ := ha
    exact (hi.closed_of_zero hh (hone h hh) k hk).2.1 a hmem

/-- Then no thread walks along a group. -/
theorem Inv.pointer_eq_none (hi : Inv g base s)
    (hone : ∀ h, s.live h = true → s.wc (.sync0 h) = 1) (w : Worker) : s.pointer w = none := by
  cases hw : s.pointer w with
  | none => rfl
  | some a =>
      obtain ⟨h, k, hh, hk, hzero, _⟩ := hi.points.walk w a hw
      exact absurd hzero (hi.closed_of_zero hh (hone h hh) k hk).1

/-- The counters of quiet handles. -/
theorem Points.of_quiet (hl : Linked g s) (hq : Quiet g s) (ht : Tasks s)
    (hpointer : ∀ w, s.pointer w = none) : Points g s := by
  have hnone : ∀ w a, s.pointer w ≠ some a := fun w a hw => by
    rw [hpointer w] at hw
    cases hw
  constructor
  case count =>
    intro h hh k hk
    rw [hq.succ h hh k hk]
    congr 1
    refine (List.countP_eq_length.mpr fun a ha => decide_eq_true ?_).symm
    exact ht.pending_of_not_ready hl hh ⟨k, hk, ha⟩ (hq.ready h hh a ⟨k, hk, ha⟩)
  case closed => exact fun h hh k hk _ a ha => hq.ready h hh a ⟨k, hk, ha⟩
  case walk => exact fun w a hw => absurd hw (hnone w a)
  case alone => exact fun w w' a hw _ => absurd hw (hnone w a)
  case opened =>
    intro h hh k hk hzero
    exfalso
    cases k with
    | zero =>
        rw [(hl.chain h hh).zero, hq.zero h hh] at hzero
        exact one_ne_zero hzero
    | succ k =>
        rw [hq.succ h hh k (Nat.lt_of_succ_lt hk)] at hzero
        refine (hl.chain h hh).nonempty k (Nat.lt_of_succ_lt hk) (List.length_eq_zero_iff.mp ?_)
        exact_mod_cast hzero

end Build

/-! ## Submission -/

section Submit

variable [DecidableEq η] {base : ℕ}

/-- The handle has no access. -/
def Graph.clear (g : Graph η) (h : η) : Graph η :=
  { g with
    point := Function.update g.point h fun _ => .sync0 h
    top := Function.update g.top h 0 }

theorem clear_of_ne {x : η} (hne : x ≠ h) : (g.clear h).point x = g.point x ∧
    (g.clear h).group x = g.group x ∧ (g.clear h).top x = g.top x :=
  ⟨Function.update_of_ne hne _ _, rfl, Function.update_of_ne hne _ _⟩

/-- A handle that is initialised gets an empty chain. -/
theorem Linked.newHandle (hl : Linked g s) : Linked (g.clear h) (s.newHandle h) := by
  have htop : (g.clear h).top h = 0 := Function.update_self _ _ _
  have hpoint : (g.clear h).point h 0 = .sync0 h := by
    unfold Graph.clear
    dsimp only
    rw [Function.update_self]
  have hlive : ∀ x, x ≠ h → (s.newHandle h).live x = true → s.live x = true := by
    intro x hne hx
    have heq : (s.newHandle h).live x = s.live x := Function.update_of_ne hne _ _
    rw [← heq]
    exact hx
  -- the points of another handle
  have hother : ∀ x, x ≠ h → s.live x = true → ∀ k ≤ g.top x, g.point x k ≠ .sync0 h := by
    intro x hne hx k hk heq
    rcases (hl.chain x hx).point_cases hk with hz | ⟨n, _, hn⟩
    · rw [hz] at heq
      cases heq
      exact hne rfl
    · rw [hn] at heq
      cases heq
  constructor
  case chain =>
    intro x hx
    by_cases hxh : x = h
    · subst hxh
      constructor
      case zero => exact hpoint
      case succ =>
        intro k hk
        rw [htop] at hk
        exact absurd hk (Nat.not_lt_zero k)
      case inj =>
        intro j hj k hk _
        rw [htop] at hj hk
        exact (Nat.le_zero.mp hj).trans (Nat.le_zero.mp hk).symm
      case mode =>
        intro k hk
        rw [htop] at hk
        rw [Nat.le_zero.mp hk, hpoint]
        exact Function.update_self _ _ _
      case nonempty | path | alike =>
        intro k hk
        rw [htop] at hk
        exact absurd hk (Nat.not_lt_zero k)
      case last_next =>
        rw [htop, hpoint]
        exact Function.update_self _ _ _
      case ordered =>
        intro j k _ hk
        rw [htop] at hk
        exact absurd hk (Nat.not_lt_zero k)
      case adjacent =>
        intro k hk
        rw [htop] at hk
        exact absurd hk (Nat.not_lt_zero _)
      case hsync =>
        rw [htop, if_pos rfl]
        exact Function.update_self _ _ _
      case last =>
        rw [htop, if_pos rfl]
        exact Function.update_self _ _ _
    · obtain ⟨hp, hg, ht⟩ := clear_of_ne (g := g) hxh
      have hx' := hlive x hxh hx
      refine (hl.chain x hx').frame hp hg ht (fun _ _ htask => htask) le_rfl (fun k hk => ?_)
        (fun k hk a ha => ?_) ?_ ?_
      · have hne := hother x hxh hx' k hk
        exact ⟨Function.update_of_ne hne _ _, Function.update_of_ne hne _ _⟩
      · obtain ⟨m, he⟩ := (hl.chain x hx').entry hk ha
        have hne := he.not_sync0 h
        exact ⟨Function.update_of_ne hne _ _, Function.update_of_ne hne _ _, rfl,
          Function.update_of_ne hne _ _⟩
      · exact Function.update_of_ne hxh _ _
      · exact Function.update_of_ne hxh _ _
  case apart =>
    have hfirst : ∀ x, x ≠ h → (s.newHandle h).live x = true → ∀ k ≤ (g.clear h).top x,
        ∀ j ≤ (g.clear h).top h, (g.clear h).point x k ≠ (g.clear h).point h j := by
      intro x hne hx k hk j hj
      obtain ⟨hp, _, ht⟩ := clear_of_ne (g := g) hne
      rw [htop] at hj
      rw [Nat.le_zero.mp hj, hpoint, hp]
      exact hother x hne (hlive x hne hx) k (ht ▸ hk)
    intro x x' hx hx' hne k hk k' hk'
    by_cases hxh : x = h
    · subst hxh
      exact (hfirst x' (Ne.symm hne) hx' k' hk' k hk).symm
    · by_cases hxh' : x' = h
      · subst hxh'
        exact hfirst x hxh hx k hk k' hk'
      · obtain ⟨hp, _, ht⟩ := clear_of_ne (g := g) hxh
        obtain ⟨hp', _, ht'⟩ := clear_of_ne (g := g) hxh'
        rw [hp, hp']
        exact hl.apart x x' (hlive x hxh hx) (hlive x' hxh' hx') hne k (ht ▸ hk) k' (ht' ▸ hk')

/-- No thread is at the first point of a handle that is initialised. -/
theorem Points.newHandle (hp : Points g s) (hl : Linked g s) (hnone : ∀ w, s.pointer w = none) :
    Points (g.clear h) (s.newHandle h) := by
  have htop : (g.clear h).top h = 0 := Function.update_self _ _ _
  have hpointer : ∀ w, (s.newHandle h).pointer w = none := by
    intro w
    cases w with
    | main => exact hnone .main
    | task t => exact hnone (.task t)
  -- the other handles are as before
  have hback : ∀ x k, (s.newHandle h).live x = true → k < (g.clear h).top x →
      x ≠ h ∧ s.live x = true ∧ k < g.top x ∧ (g.clear h).point x = g.point x := by
    intro x k hx hk
    have hne : x ≠ h := by
      rintro rfl
      rw [htop] at hk
      exact Nat.not_lt_zero k hk
    obtain ⟨hpt, _, ht⟩ := clear_of_ne (g := g) hne
    have heq : (s.newHandle h).live x = s.live x := Function.update_of_ne hne _ _
    exact ⟨hne, heq ▸ hx, ht ▸ hk, hpt⟩
  have hwc : ∀ x k, x ≠ h → s.live x = true → k ≤ g.top x →
      (s.newHandle h).wc (g.point x k) = s.wc (g.point x k) := by
    intro x k hne hx hk
    refine Function.update_of_ne ?_ _ _
    rcases (hl.chain x hx).point_cases hk with hz | ⟨n, _, hn⟩
    · rw [hz]
      rintro ⟨⟩
      exact hne rfl
    · rw [hn]
      simp
  have hready : ∀ x k, s.live x = true → k < g.top x → ∀ a ∈ g.group x k,
      (s.newHandle h).ready a = s.ready a := by
    intro x k hx hk a ha
    obtain ⟨m, he⟩ := (hl.chain x hx).entry hk ha
    exact Function.update_of_ne (he.not_sync0 h) _ _
  constructor
  case count =>
    intro x hx k hk
    obtain ⟨hne, hx', hk', hpt⟩ := hback x k hx hk
    rw [hpt, hwc x (k + 1) hne hx' hk', hp.count x hx' k hk']
    rfl
  case closed =>
    intro x hx k hk hzero a ha
    obtain ⟨hne, hx', hk', hpt⟩ := hback x k hx hk
    rw [hpt, hwc x k hne hx' (Nat.le_of_lt hk')] at hzero
    rw [hready x k hx' hk' a ha]
    exact hp.closed x hx' k hk' hzero a ha
  case walk =>
    intro w a hw
    rw [hpointer w] at hw
    cases hw
  case alone =>
    intro w w' a hw
    rw [hpointer w] at hw
    cases hw
  case opened =>
    intro x hx k hk hzero b hb hb'
    obtain ⟨hne, hx', hk', hpt⟩ := hback x k hx hk
    rw [hpt, hwc x k hne hx' (Nat.le_of_lt hk')] at hzero
    rw [hready x k hx' hk' b hb] at hb'
    obtain ⟨w, a, _, hw⟩ := hp.opened x hx' k hk' hzero b hb hb'
    rw [hnone w] at hw
    cases hw

/-- The tasks do not depend on the handles. -/
theorem Tasks.newHandle (ht : Tasks s) : Tasks (s.newHandle h) := by
  refine ht.congr rfl rfl (fun t i => ?_) rfl rfl rfl rfl rfl
  show Function.update s.ready (.sync0 h) false (.access t i) = s.ready (.access t i)
  rw [Function.update_of_ne (by simp)]

/-- `xkblas_init_matrix_handle` initialises a new handle. -/
theorem Inv.newHandle (hi : Inv g base s) (hmain : s.main = .build) (hlive : s.live h = false) :
    Inv (g.clear h) base (s.newHandle h) := by
  obtain ⟨hs, hlisted, hone⟩ := hi.main.zero hmain
  have hnot : h ∉ hs := fun hmem => by
    rw [(hlisted.2 h).mpr hmem] at hlive
    cases hlive
  have hne : ∀ x ∈ hs, x ≠ h := fun x hx => ne_of_mem_of_not_mem hx hnot
  refine ⟨hi.linked.newHandle, hi.points.newHandle hi.linked (hi.pointer_eq_none hone),
    hi.tasks.newHandle, ⟨hi.round.le, hi.round.done, fun t i m x ht hp => ?_⟩, ?_⟩
  · obtain ⟨hx, k, hk, hmem⟩ := hi.round.covered t i m x ht hp
    have hxh : x ≠ h := by
      rintro rfl
      rw [hlive] at hx
      cases hx
    obtain ⟨_, _, htop⟩ := clear_of_ne (g := g) hxh
    have heq : (s.newHandle h).live x = s.live x := Function.update_of_ne hxh _ _
    exact ⟨heq.trans hx, k, htop ▸ hk, hmem⟩
  · unfold MainInv
    have hmain' : (s.newHandle h).main = .build := hmain
    rw [hmain']
    refine ⟨h :: hs, ⟨⟨rfl, ?_⟩, fun x => ?_⟩, fun x hx => ?_⟩
    · show IsPath (Function.update (Function.update s.nextSync0 h none) h s.listSync0)
        (Function.update (Function.update s.nextSync0 h none) h s.listSync0 h) hs none
      rw [Function.update_self, Function.update_idem]
      exact hlisted.1.congr fun x hx => Function.update_of_ne (hne x hx) _ _
    · show Function.update s.live h true x = true ↔ x ∈ h :: hs
      rw [List.mem_cons]
      by_cases hxh : x = h
      · rw [hxh, Function.update_self]
        exact iff_of_true rfl (.inl rfl)
      · rw [Function.update_of_ne hxh, hlisted.2 x, or_iff_right hxh]
    · show Function.update s.wc (.sync0 h) 1 (.sync0 x) = 1
      rcases List.mem_cons.mp hx with rfl | hmem
      · exact Function.update_self _ _ _
      · rw [Function.update_of_ne (by simpa using hne x hmem)]
        exact hone x ((hlisted.2 x).mpr hmem)

/-- A call of `xkblas_init_matrix_handle`. -/
theorem Inv.init {hs : List η} (hi : Inv g base s) (hmain : s.main = .build) (hnodup : hs.Nodup)
    (hfresh : ∀ h ∈ hs, s.live h = false) : ∃ g', Inv g' base (hs.foldl State.newHandle s) := by
  induction hs generalizing g s with
  | nil => exact ⟨g, hi⟩
  | cons h hs ih =>
      obtain ⟨hnot, hnodup'⟩ := List.nodup_cons.mp hnodup
      refine ih (hi.newHandle hmain (hfresh h List.mem_cons_self)) hmain hnodup' fun x hx => ?_
      show Function.update s.live h true x = false
      rw [Function.update_of_ne (ne_of_mem_of_not_mem hx hnot)]
      exact hfresh x (List.mem_cons_of_mem h hx)

end Submit

/-! ## The insertion of a task -/

section InsertTask

variable {base : ℕ} {task : Task η V}

/-- `kaapi_task_alloc`: the task is the last one, and its counter holds back the commit. -/
def State.alloc (s : State η V) (task : Task η V) : State η V :=
  { s with
    tasks := s.tasks ++ [task]
    taskWc := Function.update s.taskWc s.tasks.length 1
    pc := Function.update s.pc s.tasks.length .idle }

theorem extends_alloc : Extends s (s.alloc task) := by
  intro t task' htask
  show (s.tasks ++ [task])[t]? = some task'
  rw [List.getElem?_append_left (List.getElem?_eq_some_iff.mp htask).1]
  exact htask

theorem alloc_getElem? : (s.alloc task).tasks[s.tasks.length]? = some task := by
  show (s.tasks ++ [task])[s.tasks.length]? = some task
  rw [List.getElem?_append_right le_rfl, Nat.sub_self]
  rfl

/-- A task of the new list is an old one, or the one that is inserted. -/
theorem getElem?_alloc {task' : Task η V} (htask : (s.alloc task).tasks[t]? = some task') :
    s.tasks[t]? = some task' ∨ t = s.tasks.length ∧ task' = task := by
  have hget : (s.tasks ++ [task])[t]? = some task' := htask
  rcases Nat.lt_trichotomy t s.tasks.length with hlt | rfl | hgt
  · rw [List.getElem?_append_left hlt] at hget
    exact .inl hget
  · exact .inr ⟨rfl, (Option.some.inj (alloc_getElem?.symm.trans htask)).symm⟩
  · rw [List.getElem?_eq_none (by rw [List.length_append, List.length_singleton]; omega)] at hget
    cases hget

/-- The commit of a task whose counter counts its `n` accesses and the commit. -/
theorem commit_fields {n : ℕ} (hwc : s.taskWc t = 1 + (n : ℤ)) :
    Static s (s.commit t) ∧ (s.commit t).wc = s.wc ∧ (s.commit t).ready = s.ready ∧
      (s.commit t).pc = s.pc ∧ (s.commit t).main = s.main ∧ (s.commit t).exec = s.exec ∧
      (s.commit t).spawn = s.spawn + 1 ∧ (s.commit t).mem = s.mem ∧
      (s.commit t).held = s.held ∧
      (s.commit t).taskWc = Function.update s.taskWc t (n : ℤ) ∧
      (s.commit t).pushed = (if n = 0 then s.pushed ++ [t] else s.pushed) ∧
      (s.commit t).queue = if n = 0 then s.queue ++ [t] else s.queue := by
  have hself : Function.update s.taskWc t (s.taskWc t - 1) t = (n : ℤ) := by
    rw [Function.update_self, hwc]
    omega
  have hwc' : Function.update s.taskWc t (n : ℤ) = Function.update s.taskWc t (s.taskWc t - 1) := by
    rw [hwc, Int.add_comm, Int.add_sub_cancel]
  rw [hwc']
  by_cases hn : n = 0
  · have hcommit : s.commit t = State.push { s with
        spawn := s.spawn + 1
        taskWc := Function.update s.taskWc t (s.taskWc t - 1) } t :=
      if_pos (hself.trans (by rw [hn]; rfl))
    rw [hcommit, if_pos hn, if_pos hn]
    exact ⟨⟨rfl, rfl, rfl, rfl, rfl, rfl, rfl, rfl, rfl, rfl, rfl⟩, rfl, rfl, rfl, rfl, rfl, rfl,
      rfl, rfl, rfl, rfl, rfl⟩
  · have hcommit : s.commit t = { s with
        spawn := s.spawn + 1
        taskWc := Function.update s.taskWc t (s.taskWc t - 1) } :=
      if_neg fun hzero => hn (by exact_mod_cast hself.symm.trans hzero)
    rw [hcommit, if_neg hn, if_neg hn]
    exact ⟨⟨rfl, rfl, rfl, rfl, rfl, rfl, rfl, rfl, rfl, rfl, rfl⟩, rfl, rfl, rfl, rfl, rfl, rfl,
      rfl, rfl, rfl, rfl, rfl⟩

theorem Linked.alloc (hl : Linked g s) : Linked g (s.alloc task) :=
  ⟨fun h hh => (hl.chain h hh).frame rfl rfl rfl extends_alloc le_rfl (fun _ _ => ⟨rfl, rfl⟩)
    (fun _ _ _ _ => ⟨rfl, rfl, rfl, rfl⟩) rfl rfl, hl.apart⟩

theorem Quiet.congr (hq : Quiet g s) (hlive : s'.live = s.live) (hwc : s'.wc = s.wc)
    (hready : s'.ready = s.ready) : Quiet g s' := by
  constructor
  case zero => rw [hlive, hwc]; exact hq.zero
  case succ => rw [hlive, hwc]; exact hq.succ
  case ready => rw [hlive, hready]; exact hq.ready

variable [DecidableEq η]

theorem insert_eq : s.insert task =
    ((s.alloc task).insertParams s.tasks.length 0 task.params).commit s.tasks.length :=
  rfl

/-- What the insertion of a task does: its accesses are in the groups, and nothing else of the run
has changed. -/
structure Inserted (g g' : Graph η) (s s' : State η V) (task : Task η V) : Prop where
  linked : Linked g' s'
  quiet : Quiet g' s'
  tasks : s'.tasks = s.tasks ++ [task]
  live : s'.live = s.live
  listSync0 : s'.listSync0 = s.listSync0
  nextSync0 : s'.nextSync0 = s.nextSync0
  main : s'.main = s.main
  spawn : s'.spawn = s.spawn + 1
  exec : s'.exec = s.exec
  mem : s'.mem = s.mem
  held : s'.held = s.held
  pc : s'.pc = Function.update s.pc s.tasks.length .idle
  ready : ∀ t i, t ≠ s.tasks.length → s'.ready (.access t i) = s.ready (.access t i)
  taskWc : ∀ t, t ≠ s.tasks.length → s'.taskWc t = s.taskWc t
  wc : s'.taskWc s.tasks.length = ((accesses s.tasks.length 0 task.params).length : ℤ)
  pushed : s'.pushed = if (accesses s.tasks.length 0 task.params).length = 0 then
    s.pushed ++ [s.tasks.length] else s.pushed
  queue : s'.queue = if (accesses s.tasks.length 0 task.params).length = 0 then
    s.queue ++ [s.tasks.length] else s.queue
  inGroup : ∀ h a, InGroup g' h a ↔ InGroup g h a ∨
    ∃ i m, a = .access s.tasks.length i ∧ task.params[i]? = some (.access m h)

theorem inserted (hl : Linked g s) (hq : Quiet g s) (hlegal : ∀ task ∈ s.tasks, Legal task)
    (hnew : Legal task) (hlive : ∀ h ∈ task.handles, s.live h = true) :
    ∃ g', Inserted g g' s (s.insert task) task := by
  -- no access of the new task is linked
  have hold : ∀ h, s.live h = true → ∀ t i, InGroup g h (.access t i) → t < s.tasks.length := by
    intro h hh t i hmem
    obtain ⟨t', i', m, heq, ⟨task', htask, _⟩, _⟩ := hl.access_of_inGroup hh hmem
    cases heq
    exact (List.getElem?_eq_some_iff.mp htask).1
  have hlinked : Linked g (s.alloc task) := hl.alloc
  obtain ⟨g', hl', hq', hsame, hwc, hin⟩ := insertParams_spec hlinked
    (hq.congr rfl rfl rfl : Quiet g (s.alloc task)) alloc_getElem?
    (fun task' hmem => (List.mem_append.mp hmem).elim (hlegal task') fun h => by
      rw [List.mem_singleton.mp h]
      exact hnew)
    List.drop_zero hlive (fun h hh t i hmem => Nat.le_of_lt (hold h hh t i hmem))
    fun h hh j _ hmem => Nat.lt_irrefl _ (hold h hh _ j hmem)
  have hwc' : ((s.alloc task).insertParams s.tasks.length 0 task.params).taskWc s.tasks.length =
      1 + ((accesses s.tasks.length 0 task.params).length : ℤ) := by
    rw [hwc]
    congr 1
    exact Function.update_self _ _ _
  obtain ⟨hstatic, hwcs, hready, hpc, hmain, hexec, hspawn, hmem, hheld, htaskWc, hpushed,
    hqueue⟩ := commit_fields hwc'
  rw [← insert_eq] at hstatic hwcs hready hpc hmain hexec hspawn hmem hheld htaskWc hpushed hqueue
  refine ⟨g', ?_⟩
  constructor
  case linked => exact hl'.congr hstatic
  case quiet => exact hq'.congr hstatic.live hwcs hready
  case tasks => exact hstatic.tasks.trans hsame.tasks
  case live => exact hstatic.live.trans hsame.live
  case listSync0 => exact hstatic.listSync0.trans hsame.listSync0
  case nextSync0 => exact hstatic.nextSync0.trans hsame.nextSync0
  case main => exact hmain.trans hsame.main
  case spawn => exact hspawn.trans (congrArg (· + 1) hsame.spawn)
  case exec => exact hexec.trans hsame.exec
  case mem => exact hmem.trans hsame.mem
  case held => exact hheld.trans hsame.held
  case pc => exact hpc.trans hsame.pc
  case ready =>
    intro t i hne
    rw [hready]
    exact hsame.ready t i hne
  case taskWc =>
    intro t hne
    rw [htaskWc, Function.update_of_ne hne, hsame.taskWc t hne]
    exact Function.update_of_ne hne _ _
  case wc => rw [htaskWc, Function.update_self]
  case pushed => rw [hpushed, hsame.pushed]; rfl
  case queue => rw [hqueue, hsame.queue]; rfl
  case inGroup =>
    intro h a
    rw [hin]
    refine or_congr_right ⟨?_, ?_⟩
    · rintro ⟨i, m, _, heq, hparam⟩
      exact ⟨i, m, heq, hparam⟩
    · rintro ⟨i, m, heq, hparam⟩
      exact ⟨i, m, Nat.zero_le i, heq, hparam⟩

/-- The counters of the tasks after an insertion. -/
theorem Tasks.insert (ht : Tasks s) (hins : Inserted g g' s s' task) (hnew : Legal task)
    (hlive : ∀ h ∈ task.handles, s.live h = true) : Tasks s' := by
  have hlen : s'.tasks.length = s.tasks.length + 1 := by
    rw [hins.tasks, List.length_append, List.length_singleton]
  have hget : ∀ t task', s'.tasks[t]? = some task' →
      s.tasks[t]? = some task' ∨ t = s.tasks.length ∧ task' = task := by
    intro t task' htask
    rw [hins.tasks] at htask
    exact getElem?_alloc htask
  have hself : s'.pc s.tasks.length = .idle := by rw [hins.pc, Function.update_self]
  have hother : ∀ t, t ≠ s.tasks.length → s'.pc t = s.pc t := fun t hne => by
    rw [hins.pc, Function.update_of_ne hne]
  have hnot : s.tasks.length ∉ s.pushed := fun hp => Nat.lt_irrefl _ (ht.lt_of_pushed hp)
  have hnotq : s.tasks.length ∉ s.queue := fun hq => hnot ((ht.queue _).mp hq).1
  have hpushed : ∀ t, t ∈ s'.pushed ↔ t ∈ s.pushed ∨
      t = s.tasks.length ∧ (accesses s.tasks.length 0 task.params).length = 0 := by
    intro t
    rw [hins.pushed]
    split
    case isTrue hz => rw [List.mem_append, List.mem_singleton, and_iff_left hz]
    case isFalse hz => exact (or_iff_left fun h => hz h.2).symm
  have hqueue : ∀ t, t ∈ s'.queue ↔ t ∈ s.queue ∨
      t = s.tasks.length ∧ (accesses s.tasks.length 0 task.params).length = 0 := by
    intro t
    rw [hins.queue]
    split
    case isTrue hz => rw [List.mem_append, List.mem_singleton, and_iff_left hz]
    case isFalse hz => exact (or_iff_left fun h => hz h.2).symm
  constructor
  case wc =>
    intro t task' htask
    rcases hget t task' htask with hold | ⟨rfl, rfl⟩
    · have hne : t ≠ s.tasks.length := Nat.ne_of_lt (List.getElem?_eq_some_iff.mp hold).1
      rw [hins.taskWc t hne, ht.wc t task' hold]
      congr 1
      refine List.countP_congr fun a ha => ?_
      obtain ⟨j, _, _, rfl, _⟩ := mem_accesses.mp ha
      rw [hins.ready t _ hne]
    · rw [hins.wc]
      congr 1
      refine (List.countP_eq_length.mpr fun a ha => decide_eq_true ?_).symm
      obtain ⟨j, m, h, rfl, hparam⟩ := mem_accesses.mp ha
      rw [Nat.zero_add]
      have hh : s.live h = true :=
        hlive h (List.mem_filterMap.mpr ⟨_, List.mem_of_getElem? hparam, rfl⟩)
      exact hins.quiet.ready h (hins.live ▸ hh) _ ((hins.inGroup h _).mpr
        (.inr ⟨j, m, rfl, hparam⟩))
  case pushed =>
    intro t
    rw [hpushed, hlen]
    by_cases heq : t = s.tasks.length
    · subst heq
      rw [hins.wc, or_iff_right hnot]
      constructor
      · rintro ⟨_, hz⟩
        exact ⟨Nat.lt_succ_self _, by rw [hz]; rfl⟩
      · rintro ⟨_, hz⟩
        exact ⟨rfl, by exact_mod_cast hz⟩
    · rw [or_iff_left fun h => heq h.1, hins.taskWc t heq, ht.pushed t]
      exact and_congr_left fun _ => ⟨Nat.lt_succ_of_lt, fun hlt => by omega⟩
  case pushed_nodup =>
    rw [hins.pushed]
    split
    case isTrue hz =>
      exact List.nodup_append'.mpr ⟨ht.pushed_nodup, List.nodup_singleton _, by simpa using hnot⟩
    case isFalse hz => exact ht.pushed_nodup
  case queue =>
    intro t
    rw [hqueue, hpushed]
    by_cases heq : t = s.tasks.length
    · subst heq
      rw [or_iff_right hnotq, or_iff_right hnot, and_iff_left hself]
    · rw [or_iff_left fun h => heq h.1, or_iff_left fun h => heq h.1, hother t heq, ht.queue t]
  case queue_nodup =>
    rw [hins.queue]
    split
    case isTrue hz =>
      exact List.nodup_append'.mpr ⟨ht.queue_nodup, List.nodup_singleton _, by simpa using hnotq⟩
    case isFalse hz => exact ht.queue_nodup
  case idle =>
    intro t hn
    by_cases heq : t = s.tasks.length
    · rw [heq, hself]
    · rw [hother t heq]
      exact ht.idle t fun hp => hn ((hpushed t).mpr (.inl hp))
  case rest =>
    intro t task' htask rest hr
    rcases hget t task' htask with hold | ⟨rfl, rfl⟩
    · rw [hother t (Nat.ne_of_lt (List.getElem?_eq_some_iff.mp hold).1)] at hr
      exact ht.rest t task' hold rest hr
    · rw [hself] at hr
      cases hr
  case spawn => rw [hins.spawn, ht.spawn, hlen]
  case exec =>
    rw [hins.exec, ht.exec, hlen, List.range_succ, List.countP_append]
    have hlast : [s.tasks.length].countP (fun t => s'.pc t = .finished) = 0 := by
      rw [List.countP_singleton, hself]
      rfl
    rw [hlast, Nat.add_zero]
    refine List.countP_congr fun t hmem => ?_
    rw [hother t (Nat.ne_of_lt (List.mem_range.mp hmem))]
  case legal =>
    intro task' hmem
    rw [hins.tasks] at hmem
    rcases List.mem_append.mp hmem with hold | hlast
    · exact ht.legal task' hold
    · rw [List.mem_singleton.mp hlast]
      exact hnew

/-- A function that inserts a task keeps the invariant. -/
theorem Inv.insert (hi : Inv g base s) (hmain : s.main = .build) (hnew : Legal task)
    (hlive : ∀ h ∈ task.handles, s.live h = true) : ∃ g', Inv g' base (s.insert task) := by
  obtain ⟨hs, hlisted, hone⟩ := hi.main.zero hmain
  have hquiet := hi.quiet hone
  obtain ⟨g', hins⟩ := inserted hi.linked hquiet hi.tasks.legal hnew hlive
  have htasks := hi.tasks.insert hins hnew hlive
  have hpointer : ∀ w, (s.insert task).pointer w = none := by
    intro w
    cases w with
    | main =>
        show (s.insert task).main.pointer = none
        rw [hins.main]
        exact hi.pointer_eq_none hone .main
    | task t =>
        show ((s.insert task).pc t).pointer = none
        rw [hins.pc]
        by_cases heq : t = s.tasks.length
        · rw [heq, Function.update_self]
          rfl
        · rw [Function.update_of_ne heq]
          exact hi.pointer_eq_none hone (.task t)
  refine ⟨g', hins.linked, .of_quiet hins.linked hins.quiet htasks hpointer, htasks, ?_, ?_⟩
  · refine ⟨?_, fun t ht => ?_, fun t i m h ht hp => ?_⟩
    · rw [hins.tasks, List.length_append]
      exact hi.round.le.trans (Nat.le_add_right _ _)
    · rw [hins.pc, Function.update_of_ne (Nat.ne_of_lt (ht.trans_le hi.round.le))]
      exact hi.round.done t ht
    · obtain ⟨task', htask, hparam⟩ := hp
      rw [hins.tasks] at htask
      rw [hins.live, hins.inGroup]
      rcases getElem?_alloc htask with hold | ⟨rfl, rfl⟩
      · obtain ⟨hh, hg⟩ := hi.round.covered t i m h ht ⟨task', hold, hparam⟩
        exact ⟨hh, .inl hg⟩
      · exact ⟨hlive h (List.mem_filterMap.mpr ⟨_, List.mem_of_getElem? hparam, rfl⟩),
          .inr ⟨i, m, rfl, hparam⟩⟩
  · unfold MainInv
    rw [hins.main, hmain]
    refine ⟨hs, ⟨?_, ?_⟩, fun h hh => ?_⟩
    · rw [hins.nextSync0, hins.listSync0]
      exact hlisted.1
    · rw [hins.live]
      exact hlisted.2
    · exact hins.quiet.zero h (hins.live ▸ (hlisted.2 h).mpr hh)

end InsertTask

end Xkblas.Sched.DataFlow
