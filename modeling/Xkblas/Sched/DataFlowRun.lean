import Xkblas.Sched.DataFlowInvariant

/-!
# The runs of the data flow

The steps of `xkblas_sync` and of the threads that execute the tasks keep the invariant, and with
them every run in which the tasks are legal and the caches are invalidated only when all tasks are
executed.
-/

namespace Xkblas.Sched.DataFlow

open Library

variable {η V : Type}

variable {g : Graph η} {s s' : State η V} {h : η} {k t i base : ℕ} {a p : Ref η} {w : Worker}
  {task : Task η V}

/-! ## A thread that executes a task -/

theorem setPc_self (s : State η V) (t : ℕ) (pc : Pc η) : (s.setPc t pc).pc t = pc :=
  Function.update_self _ _ _

theorem setPc_of_ne {t' : ℕ} (hne : t' ≠ t) (pc : Pc η) : (s.setPc t pc).pc t' = s.pc t' :=
  Function.update_of_ne hne _ _

theorem pointer_setPc_self (s : State η V) (t : ℕ) (pc : Pc η) :
    (s.setPc t pc).pointer (.task t) = pc.pointer :=
  congrArg Pc.pointer (setPc_self s t pc)

theorem pointer_setPc_of_ne (hne : w ≠ .task t) (pc : Pc η) :
    (s.setPc t pc).pointer w = s.pointer w := by
  cases w with
  | main => rfl
  | task t' =>
      have hne' : t' ≠ t := fun heq => hne (congrArg Worker.task heq)
      exact congrArg Pc.pointer (setPc_of_ne hne' pc)

/-- The accesses of the other tasks. -/
theorem pending_setPc_of_ne {t' : ℕ} (hne : t' ≠ t) (pc : Pc η) :
    Pending (s.setPc t pc) (.access t' i) ↔ Pending s (.access t' i) := by
  show ((s.setPc t pc).pc t').Pending _ ↔ (s.pc t').Pending _
  rw [setPc_of_ne hne]

theorem pending_setPc_self (pc : Pc η) :
    Pending (s.setPc t pc) (.access t i) ↔ pc.Pending (.access t i) := by
  show ((s.setPc t pc).pc t).Pending _ ↔ _
  rw [setPc_self]

variable [DecidableEq η]

/-- A thread that goes on without touching a counter or a pointer of the graph. -/
theorem Inv.setPc (hi : Inv g base s) {u : State η V} {pc : Pc η} (hu : Static s u)
    (hwc : u.wc = s.wc) (hready : u.ready = s.ready) (hpc : u.pc = s.pc) (hmain : u.main = s.main)
    (htasks : Tasks (u.setPc t pc)) (hpointer : pc.pointer = (s.pc t).pointer)
    (hpending : ∀ i m h, IsParam s t i m h →
      (pc.Pending (.access t i) ↔ (s.pc t).Pending (.access t i)))
    (hdone : s.pc t ≠ .finished) : Inv g base (u.setPc t pc) := by
  have hstatic : Static s (u.setPc t pc) :=
    ⟨hu.mode, hu.next, hu.sync, hu.task, hu.last, hu.hsync, hu.listSync0, hu.nextSync0, hu.live,
      hu.brk, hu.tasks⟩
  refine ⟨hi.linked.congr hstatic, ?_, htasks, ?_, ?_⟩
  · refine hi.points.congr hwc hready hu.live (fun w => ?_) fun h hh a ha => ?_
    · by_cases heq : w = .task t
      · rw [heq, pointer_setPc_self, hpointer]
        rfl
      · rw [pointer_setPc_of_ne heq]
        cases w with
        | main =>
            show u.main.pointer = s.main.pointer
            rw [hmain]
        | task t' =>
            show (u.pc t').pointer = (s.pc t').pointer
            rw [hpc]
    · obtain ⟨t', i, m, rfl, hparam, _⟩ := hi.linked.access_of_inGroup hh ha
      by_cases heq : t' = t
      · subst heq
        rw [pending_setPc_self]
        exact hpending i m h hparam
      · rw [pending_setPc_of_ne heq]
        show (u.pc t').Pending _ ↔ (s.pc t').Pending _
        rw [hpc]
  · refine hi.round.congr hu.tasks hu.live fun t' ht' hfin => ?_
    have hne : t' ≠ t := fun heq => hdone (heq ▸ hfin)
    rw [setPc_of_ne hne, hpc]
    exact hfin
  · exact hi.main.congr hstatic hmain fun h _ => congrFun hwc _

/-- A thread takes a task. -/
theorem Inv.start (hi : Inv g base s) (hq : t ∈ s.queue) : Inv g base (s.start t) := by
  have hidle := ((hi.tasks.queue t).mp hq).2
  refine hi.setPc (u := { s with queue := s.queue.erase t, held := Function.update s.held t s.mem })
    ⟨rfl, rfl, rfl, rfl, rfl, rfl, rfl, rfl, rfl, rfl, rfl⟩ rfl rfl rfl rfl (hi.tasks.start hq) ?_
    ?_ ?_
  · rw [hidle]
    rfl
  · intro i m h _
    rw [hidle]
    exact Iff.rfl
  · rw [hidle]
    simp

/-- The body of a task ends. -/
theorem Inv.endBody (hi : Inv g base s) (hpc : s.pc t = .running)
    (htask : s.tasks[t]? = some task) : Inv g base (s.endBody t task) := by
  have htasks : Tasks { s with
      mem := fun x => if task.Writes x then task.body (s.held t) x else s.mem x } :=
    hi.tasks.congr rfl rfl (fun _ _ => rfl) rfl rfl rfl rfl rfl
  refine hi.setPc (u := { s with
      mem := fun x => if task.Writes x then task.body (s.held t) x else s.mem x })
    ⟨rfl, rfl, rfl, rfl, rfl, rfl, rfl, rfl, rfl, rfl, rfl⟩ rfl rfl rfl rfl ?_ ?_ ?_ ?_
  · refine htasks.setPc (by rw [hpc]; simp) (by rw [hpc]; simp) (by simp) (by simp) ?_
    intro task' htask' rest hrest
    cases hrest
    obtain rfl := Option.some.inj (htask.symm.trans htask')
    exact List.suffix_refl _
  · rw [hpc]
    rfl
  · rintro i m h ⟨task', htask', hparam⟩
    obtain rfl := Option.some.inj (htask.symm.trans htask')
    rw [hpc]
    refine iff_of_true ?_ trivial
    exact mem_accesses.mpr ⟨i, m, h, by rw [Nat.zero_add], hparam⟩
  · rw [hpc]
    simp

/-- The task ends. -/
theorem Inv.finish (hi : Inv g base s) (hpc : s.pc t = .signal []) :
    Inv g base { s.setPc t .finished with exec := s.exec + 1 } := by
  refine hi.setPc (u := { s with exec := s.exec + 1 })
    ⟨rfl, rfl, rfl, rfl, rfl, rfl, rfl, rfl, rfl, rfl, rfl⟩ rfl rfl rfl rfl (hi.tasks.finish hpc)
    ?_ ?_ ?_
  · rw [hpc]
    rfl
  · intro i m h _
    rw [hpc]
    exact iff_of_false (fun hf => hf) (List.not_mem_nil)
  · rw [hpc]
    simp

/-- The thread has passed all accesses of the group. -/
theorem Inv.passed {rest : List (Ref η)} (hi : Inv g base s) (hpc : s.pc t = .notify none rest) :
    Inv g base (s.setPc t (.signal rest)) := by
  refine hi.setPc (u := s) ⟨rfl, rfl, rfl, rfl, rfl, rfl, rfl, rfl, rfl, rfl, rfl⟩ rfl rfl rfl rfl
    ?_ ?_ ?_ ?_
  · refine hi.tasks.setPc (by rw [hpc]; simp) (by rw [hpc]; simp) (by simp) (by simp) ?_
    intro task htask rest' hrest
    cases hrest
    exact hi.tasks.rest t task htask rest (by rw [hpc]; rfl)
  · rw [hpc]
    rfl
  · intro i m h _
    rw [hpc]
    exact Iff.rfl
  · rw [hpc]
    simp

/-- The access that the thread of a task signals next: its group, and the point behind it. -/
theorem Inv.of_signal {rest : List (Ref η)} (hi : Inv g base s)
    (hpc : s.pc t = .signal (a :: rest)) :
    ∃ i task h k, a = .access t i ∧ s.tasks[t]? = some task ∧ s.live h = true ∧ k < g.top h ∧
      a ∈ g.group h k ∧ s.sync a = some (g.point h (k + 1)) ∧
      a :: rest <:+ accesses t 0 task.params := by
  have hp : t ∈ s.pushed := hi.tasks.pushed_of_pc (by rw [hpc]; simp)
  have hlt := hi.tasks.lt_of_pushed hp
  have htask : s.tasks[t]? = some s.tasks[t] := List.getElem?_eq_getElem hlt
  have hsuffix := hi.tasks.rest t _ htask (a :: rest) (by rw [hpc]; rfl)
  obtain ⟨i, m, h, hai, hparam⟩ := mem_accesses.mp (hsuffix.subset List.mem_cons_self)
  rw [Nat.zero_add] at hai
  have hbase : base ≤ t := by
    by_contra hlt'
    have hfin := hi.round.done t (Nat.lt_of_not_le hlt')
    rw [hpc] at hfin
    cases hfin
  obtain ⟨hh, k, hk, hmem⟩ := hi.round.covered t i m h hbase ⟨_, htask, hparam⟩
  rw [← hai] at hmem
  obtain ⟨m', he⟩ := (hi.linked.chain h hh).entry hk hmem
  exact ⟨i, _, h, k, hai, htask, hh, hk, hmem, he.sync, hsuffix⟩

/-- The thread of a task signals the point behind an access. -/
theorem Inv.signal {rest : List (Ref η)} (hi : Inv g base s) (hpc : s.pc t = .signal (a :: rest))
    (hp : s.sync a = some p) : Inv g base ((s.signal p).setPc t
      (if s.wc p - 1 = 0 then .notify (s.next p) rest else .signal rest)) := by
  obtain ⟨i, task, h, k, rfl, htask, hh, hk, hmem, hsync, hsuffix⟩ := hi.of_signal hpc
  obtain rfl := Option.some.inj (hp.symm.trans hsync)
  -- the two ways to go on
  have hcases : ∀ P : Pc η → Prop, P (.notify (s.next (g.point h (k + 1))) rest) →
      P (.signal rest) → P (if s.wc (g.point h (k + 1)) - 1 = 0 then
        .notify (s.next (g.point h (k + 1))) rest else .signal rest) := by
    intro P h₁ h₂
    split
    · exact h₁
    · exact h₂
  generalize hnew : (if s.wc (g.point h (k + 1)) - 1 = 0 then
    Pc.notify (s.next (g.point h (k + 1))) rest else .signal rest) = pc at hcases
  have hpend : ∀ b, pc.Pending b ↔ b ∈ rest := fun b =>
    hcases (fun pc => pc.Pending b ↔ b ∈ rest) Iff.rfl Iff.rfl
  have hnodup : (.access t i :: rest).Nodup := nodup_accesses.sublist hsuffix.sublist
  have hnot : Ref.access t i ∉ rest := (List.nodup_cons.mp hnodup).1
  have hself : Pending s (.access t i) := by
    show (s.pc t).Pending _
    rw [hpc]
    exact List.mem_cons_self
  have hself' : ¬ Pending ((s.signal (g.point h (k + 1))).setPc t pc) (.access t i) := by
    rw [pending_setPc_self, hpend]
    exact hnot
  have hpending : ∀ b, b ≠ .access t i →
      (Pending ((s.signal (g.point h (k + 1))).setPc t pc) b ↔ Pending s b) := by
    intro b hb
    cases b with
    | sync0 x => exact Iff.rfl
    | sync n => exact Iff.rfl
    | access t' i' =>
        by_cases heq : t' = t
        · subst heq
          rw [pending_setPc_self, hpend]
          show _ ↔ (s.pc t').Pending _
          rw [hpc]
          exact (List.mem_cons.trans (or_iff_right hb)).symm
        · exact pending_setPc_of_ne heq pc
  have hpointer : (s.pc t).pointer = none := by rw [hpc]; rfl
  have hcount := hi.points.count h hh k hk
  have hpos : 0 < s.wc (g.point h (k + 1)) := by
    rw [hcount]
    exact_mod_cast List.countP_pos_iff.mpr ⟨_, hmem, decide_eq_true hself⟩
  have hstatic : Static s ((s.signal (g.point h (k + 1))).setPc t pc) :=
    ⟨rfl, rfl, rfl, rfl, rfl, rfl, rfl, rfl, rfl, rfl, rfl⟩
  have hgroup : (g.group h k).Nodup := ((hi.linked.chain h hh).path k hk).nodup
  refine ⟨hi.linked.congr hstatic, ?_, ?_, ?_, ?_⟩
  · refine hi.points.signal hi.linked hh hk hpos (w := .task t) hpointer rfl rfl rfl ?_ ?_ ?_
    · intro h' hh' k' hk'
      show Function.update s.wc _ _ (g.point h' (k' + 1)) = _
      by_cases hsame : g.point h' (k' + 1) = g.point h (k + 1)
      · obtain ⟨rfl, hkk⟩ := hi.linked.point_inj hh' hh hk' hk hsame
        obtain rfl := Nat.succ.inj hkk
        have hone := countP_eq_add_one hgroup hmem (decide_eq_true hself)
          (decide_eq_false hself') fun b _ hb => decide_eq_decide.mpr (hpending b hb).symm
        rw [Function.update_self, hcount, hone]
        push_cast
        omega
      · rw [Function.update_of_ne hsame, hi.points.count h' hh' k' hk']
        congr 1
        refine List.countP_congr fun b hb => ?_
        have hne : b ≠ .access t i := by
          rintro rfl
          obtain ⟨rfl, rfl⟩ := hi.linked.group_inj hh' hh hk' hk hb hmem
          exact hsame rfl
        simp [hpending b hne]
    · exact fun w' hne => pointer_setPc_of_ne hne pc
    · rw [pointer_setPc_self, ← hnew]
      split <;> rfl
  · refine (hi.tasks.congr rfl rfl (fun _ _ => rfl) rfl rfl rfl rfl rfl :
      Tasks (s.signal (g.point h (k + 1)))).setPc (by show s.pc t ≠ _; rw [hpc]; simp)
      (by show s.pc t ≠ _; rw [hpc]; simp) (hcases (· ≠ .idle) (by simp) (by simp))
      (hcases (· ≠ .finished) (by simp) (by simp)) ?_
    intro task' htask' rest' hrest
    obtain rfl := Option.some.inj (htask.symm.trans htask')
    have heq : pc.rest = some rest := hcases (fun pc => pc.rest = some rest) rfl rfl
    obtain rfl := Option.some.inj (heq.symm.trans hrest)
    exact (List.suffix_cons _ _).trans hsuffix
  · refine hi.round.congr rfl rfl fun t' _ hfin => ?_
    have hne : t' ≠ t := by
      rintro rfl
      rw [hpc] at hfin
      cases hfin
    rw [setPc_of_ne hne]
    exact hfin
  · refine hi.main.congr hstatic rfl fun x _ => Function.update_of_ne ?_ _ _
    exact hi.linked.sync0_ne_point hh hk

/-- The thread of a task passes an access of the group. -/
theorem Inv.notify {rest : List (Ref η)} (hi : Inv g base s)
    (hpc : s.pc t = .notify (some a) rest) :
    Inv g base ((s.notify a).setPc t (.notify (s.next a) rest)) := by
  have hw : s.pointer (.task t) = some a := congrArg Pc.pointer hpc
  obtain ⟨t', task, howner, htask, hmem, hready⟩ := hi.of_pointer hw
  obtain ⟨hs, hwc, hpcs, hmain, hready', _, _⟩ := notify_fields s a
  have hstatic : Static s ((s.notify a).setPc t (.notify (s.next a) rest)) :=
    ⟨hs.mode, hs.next, hs.sync, hs.task, hs.last, hs.hsync, hs.listSync0, hs.nextSync0, hs.live,
      hs.brk, hs.tasks⟩
  have hkept : ∀ t', t' ≠ t → ((s.notify a).setPc t (.notify (s.next a) rest)).pc t' = s.pc t' :=
    fun t' hne => by rw [setPc_of_ne hne, hpcs]
  refine ⟨hi.linked.congr hstatic, ?_, ?_, ?_, ?_⟩
  · refine hi.points.notify hi.linked hw hwc hs.live hready' (fun b => ?_) (fun w' hne => ?_) ?_
    · cases b with
      | sync0 x => exact Iff.rfl
      | sync n => exact Iff.rfl
      | access t₁ i =>
          by_cases heq : t₁ = t
          · subst heq
            rw [pending_setPc_self]
            show _ ↔ (s.pc t₁).Pending _
            rw [hpc]
            exact Iff.rfl
          · rw [pending_setPc_of_ne heq]
            show ((s.notify a).pc t₁).Pending _ ↔ _
            rw [hpcs]
            exact Iff.rfl
    · rw [pointer_setPc_of_ne hne]
      cases w' with
      | main => exact congrArg MainPc.pointer hmain
      | task t' => exact congrArg Pc.pointer (congrFun hpcs t')
    · exact pointer_setPc_self _ _ _
  · refine (hi.tasks.notify htask hmem howner hready).setPc (by rw [hpcs, hpc]; simp)
      (by rw [hpcs, hpc]; simp) (by simp) (by simp) ?_
    intro task' htask' rest' hrest
    cases hrest
    rw [hs.tasks] at htask'
    exact hi.tasks.rest t task' htask' rest (by rw [hpc]; rfl)
  · refine hi.round.congr hs.tasks hs.live fun t' _ hfin => ?_
    have hne : t' ≠ t := by
      rintro rfl
      rw [hpc] at hfin
      cases hfin
    rw [hkept t' hne]
    exact hfin
  · exact hi.main.congr hstatic hmain fun x _ => congrFun hwc _

/-- A step of a thread that executes a task. -/
theorem Inv.stepTask (hi : Inv g base s) (hstep : s.stepTask t = some s') : Inv g base s' := by
  unfold State.stepTask at hstep
  cases hpc : s.pc t with
  | idle | finished =>
      rw [hpc] at hstep
      cases hstep
  | running =>
      rw [hpc] at hstep
      obtain ⟨task, htask, rfl⟩ := Option.map_eq_some_iff.mp hstep
      exact hi.endBody hpc htask
  | signal rest =>
      rw [hpc] at hstep
      cases rest with
      | nil =>
          cases hstep
          exact hi.finish hpc
      | cons a rest =>
          obtain ⟨p, hp, rfl⟩ := Option.map_eq_some_iff.mp hstep
          exact hi.signal hpc hp
  | notify a rest =>
      rw [hpc] at hstep
      cases a with
      | none =>
          cases hstep
          exact hi.passed hpc
      | some a =>
          cases hstep
          exact hi.notify hpc

/-! ## `xkblas_sync` -/

/-- The program point of `xkblas_sync` changes, and no pointer of a walk. -/
theorem Inv.setMain (hi : Inv g base s) {main : MainPc η}
    (hpointer : main.pointer = s.main.pointer) (hmain : MainInv g base { s with main := main }) :
    Inv g base { s with main := main } := by
  have hstatic : Static s { s with main := main } :=
    ⟨rfl, rfl, rfl, rfl, rfl, rfl, rfl, rfl, rfl, rfl, rfl⟩
  refine ⟨hi.linked.congr hstatic, ?_, ?_, ?_, hmain⟩
  · refine hi.points.congr rfl rfl rfl (fun w => ?_) fun h _ a _ => ?_
    · cases w with
      | main => exact hpointer
      | task t => rfl
    · cases a <;> exact Iff.rfl
  · exact hi.tasks.congr rfl rfl (fun _ _ => rfl) rfl rfl rfl rfl rfl
  · exact hi.round.congr rfl rfl fun _ _ hfin => hfin

/-- `xkblas_sync` starts with the first handle of its list. -/
theorem Inv.sync (hi : Inv g base s) (hmain : s.main = .build) :
    Inv g base { s with main := .activate s.listSync0 } := by
  refine hi.setMain (by rw [hmain]; rfl) ?_
  obtain ⟨hs, hlisted, hone⟩ := hi.main.zero hmain
  exact ⟨[], hs, hlisted, hlisted.1, fun h hh => hone h ((hlisted.2 h).mpr hh),
    fun h hh => absurd hh List.not_mem_nil⟩

/-- A handle without tasks is not activated. -/
theorem Inv.skip (hi : Inv g base s) (hmain : s.main = .activate (some h))
    (hsync : s.hsync h = none) : Inv g base { s with main := .activate (s.nextSync0 h) } := by
  refine hi.setMain (by rw [hmain]; rfl) ?_
  have hm := hi.main
  unfold MainInv at hm
  rw [hmain] at hm
  obtain ⟨done, rest, hlisted, hpath, hrest, hdone⟩ := hm
  cases rest with
  | nil => cases hpath
  | cons h' rest =>
      obtain ⟨heq, hpath'⟩ := hpath
      cases heq
      have hh : s.live h = true :=
        (hlisted.2 h).mpr (List.mem_append_right _ List.mem_cons_self)
      have htop : g.top h = 0 := by
        by_contra hne
        have hlink := (hi.linked.chain h hh).hsync
        rw [if_neg hne, hsync] at hlink
        cases hlink
      refine ⟨done ++ [h], rest, ?_, hpath', fun x hx => hrest x (List.mem_cons_of_mem h hx), ?_⟩
      · rw [List.append_assoc]
        exact hlisted
      · intro x hx hpos
        rcases List.mem_append.mp hx with hmem | hmem
        · exact hdone x hmem hpos
        · rw [List.mem_singleton.mp hmem, htop] at hpos
          exact absurd hpos (Nat.lt_irrefl 0)

/-- The first point of a handle is signalled. -/
theorem Inv.activate (hi : Inv g base s) (hmain : s.main = .activate (some h)) :
    Inv g base { s.signal (.sync0 h) with
      main := if s.wc (.sync0 h) - 1 = 0 then .notify (s.next (.sync0 h)) (s.nextSync0 h)
        else .activate (s.nextSync0 h) } := by
  have hm := hi.main
  unfold MainInv at hm
  rw [hmain] at hm
  obtain ⟨done, rest, hlisted, hpath, hrest, hdone⟩ := hm
  cases rest with
  | nil => cases hpath
  | cons h' rest =>
  obtain ⟨heq, hpath'⟩ := hpath
  cases heq
  have hnodup : (done ++ h :: rest).Nodup := hlisted.1.nodup
  have hnot : h ∉ rest := (List.nodup_cons.mp (List.nodup_append.mp hnodup).2.1).1
  have hnot' : h ∉ done := fun hmem =>
    List.disjoint_of_nodup_append hnodup hmem List.mem_cons_self
  have hh : s.live h = true := (hlisted.2 h).mpr (List.mem_append_right _ List.mem_cons_self)
  have hone : s.wc (.sync0 h) = 1 := hrest h List.mem_cons_self
  have hc := hi.linked.chain h hh
  have hzero : g.point h 0 = .sync0 h := hc.zero
  have hkept : ∀ x, x ≠ h → (s.signal (.sync0 h)).wc (.sync0 x) = s.wc (.sync0 x) := fun x hne =>
    Function.update_of_ne (by simpa using hne) _ _
  have hstatic : ∀ main, Static s { s.signal (.sync0 h) with main := main } := fun main =>
    ⟨rfl, rfl, rfl, rfl, rfl, rfl, rfl, rfl, rfl, rfl, rfl⟩
  refine ⟨hi.linked.congr (hstatic _), ?_, ?_, ?_, ?_⟩
  · refine hi.points.signal hi.linked hh (Nat.zero_le (g.top h)) (w := .main) ?_
      (congrArg MainPc.pointer hmain) ?_ rfl rfl ?_ ?_ ?_
    · rw [hzero, hone]
      exact one_pos
    · rw [hzero]
      rfl
    · intro h' hh' k' hk'
      show Function.update s.wc _ _ (g.point h' (k' + 1)) = _
      rw [Function.update_of_ne (hi.linked.sync0_ne_point hh' hk').symm,
        hi.points.count h' hh' k' hk']
      rfl
    · intro w' hne
      cases w' with
      | main => exact absurd rfl hne
      | task t => rfl
    · rw [hzero]
      show MainPc.pointer _ = _
      split <;> rfl
  · exact hi.tasks.congr rfl rfl (fun _ _ => rfl) rfl rfl rfl rfl rfl
  · exact hi.round.congr rfl rfl fun _ _ hfin => hfin
  · rw [if_pos (by rw [hone]; rfl)]
    refine ⟨done ++ [h], rest, ?_, hpath', fun x hx => ?_, fun x hx hpos => ?_⟩
    · rw [List.append_assoc]
      exact hlisted
    · have hne : x ≠ h := ne_of_mem_of_not_mem hx hnot
      exact (hkept x hne).trans (hrest x (List.mem_cons_of_mem h hx))
    · rcases List.mem_append.mp hx with hmem | hmem
      · exact (hkept x (ne_of_mem_of_not_mem hmem hnot')).trans (hdone x hmem hpos)
      · rw [List.mem_singleton.mp hmem]
        show Function.update s.wc _ _ (.sync0 h) = 0
        rw [Function.update_self, hone]
        rfl

/-- `xkblas_sync` passes an access of the first group of a handle. -/
theorem Inv.notifyMain {next : Option η} (hi : Inv g base s)
    (hmain : s.main = .notify (some a) next) :
    Inv g base { s.notify a with main := .notify (s.next a) next } := by
  have hw : s.pointer .main = some a := congrArg MainPc.pointer hmain
  obtain ⟨t', task, howner, htask, hmem, hready⟩ := hi.of_pointer hw
  obtain ⟨hs, hwc, hpcs, _, hready', _, _⟩ := notify_fields s a
  have hstatic : Static s { s.notify a with main := .notify (s.next a) next } :=
    ⟨hs.mode, hs.next, hs.sync, hs.task, hs.last, hs.hsync, hs.listSync0, hs.nextSync0, hs.live,
      hs.brk, hs.tasks⟩
  refine ⟨hi.linked.congr hstatic, ?_, ?_, ?_, ?_⟩
  · refine hi.points.notify hi.linked hw hwc hs.live hready' (fun b => ?_) (fun w' hne => ?_) rfl
    · cases b with
      | sync0 x => exact Iff.rfl
      | sync n => exact Iff.rfl
      | access t i =>
          show ((s.notify a).pc t).Pending _ ↔ (s.pc t).Pending _
          rw [hpcs]
    · cases w' with
      | main => exact absurd rfl hne
      | task t => exact congrArg Pc.pointer (congrFun hpcs t)
  · exact (hi.tasks.notify htask hmem howner hready).congr rfl rfl (fun _ _ => rfl) rfl rfl rfl rfl
      rfl
  · refine hi.round.congr hs.tasks hs.live fun t' _ hfin => ?_
    show (s.notify a).pc t' = _
    rw [hpcs]
    exact hfin
  · have hm := hi.main
    unfold MainInv at hm
    rw [hmain] at hm
    obtain ⟨done, rest, hlisted, hpath, hrest, hdone⟩ := hm
    refine ⟨done, rest, hlisted.congr hstatic, hs.nextSync0 ▸ hpath, fun x hx => ?_,
      fun x hx hpos => ?_⟩
    · exact (congrFun hwc _).trans (hrest x hx)
    · exact (congrFun hwc _).trans (hdone x hx hpos)

/-- All tasks are executed: `kaapi_end_dfg` returns. -/
theorem Tasks.all_finished (ht : Tasks s) (hdone : s.spawn = s.exec) :
    ∀ t < s.tasks.length, s.pc t = .finished := by
  intro t hlt
  have hall : (List.range s.tasks.length).countP (fun t => s.pc t = .finished) =
      (List.range s.tasks.length).length := by
    rw [← ht.exec, ← hdone, ht.spawn, List.length_range]
  exact of_decide_eq_true (List.countP_eq_length.mp hall t (List.mem_range.mpr hlt))

/-- No thread walks along a group when all tasks are executed. -/
theorem Tasks.pointer_eq_none (ht : Tasks s) (hdone : ∀ t < s.tasks.length, s.pc t = .finished)
    (t : ℕ) : s.pointer (.task t) = none := by
  show (s.pc t).pointer = none
  by_cases hlt : t < s.tasks.length
  · rw [hdone t hlt]
    rfl
  · rw [ht.idle t fun hp => hlt (ht.lt_of_pushed hp)]
    rfl

/-- A new round starts when all tasks are executed. -/
theorem Tasks.round (ht : Tasks s) (hdone : s.spawn = s.exec) : Round g s.tasks.length s := by
  refine ⟨le_rfl, ht.all_finished hdone, fun t i m h hle hp => ?_⟩
  obtain ⟨task, htask, _⟩ := hp
  exact absurd (List.getElem?_eq_some_iff.mp htask).1 (Nat.not_lt_of_le hle)

/-- The handles are detached from the list. -/
theorem Inv.detach (hi : Inv g base s) (hmain : s.main = .wait) (hdone : s.spawn = s.exec) :
    Inv g s.tasks.length { s with main := .reset s.listSync0, listSync0 := none } := by
  have hm := hi.main
  unfold MainInv at hm
  rw [hmain] at hm
  obtain ⟨hs, hlisted, _⟩ := hm
  have hround : Round g s.tasks.length s := hi.tasks.round hdone
  refine ⟨?_, ?_, ?_, hround.congr rfl rfl fun _ _ hfin => hfin, ?_⟩
  · exact ⟨fun h hh => (hi.linked.chain h hh).frame rfl rfl rfl (fun _ _ htask => htask) le_rfl
      (fun _ _ => ⟨rfl, rfl⟩) (fun _ _ _ _ => ⟨rfl, rfl, rfl, rfl⟩) rfl rfl, hi.linked.apart⟩
  · refine hi.points.congr rfl rfl rfl (fun w => ?_) fun h _ a _ => ?_
    · cases w with
      | main => exact (congrArg MainPc.pointer hmain).symm
      | task t => rfl
    · cases a <;> exact Iff.rfl
  · exact hi.tasks.congr rfl rfl (fun _ _ => rfl) rfl rfl rfl rfl rfl
  · exact ⟨rfl, [], hs, rfl, hlisted.1, hlisted.1.nodup, hlisted.2,
      fun h hh => absurd hh List.not_mem_nil⟩

/-- A handle is initialised again. -/
theorem Inv.reinit (hi : Inv g base s) (hmain : s.main = .reset (some h)) :
    Inv (g.clear h) base { (s.handleInit h).linkSync0 h with main := .reset (s.nextSync0 h) } := by
  have hm := hi.main
  unfold MainInv at hm
  rw [hmain] at hm
  obtain ⟨hbase, done, rest, hpath, hpath', hnodup, hlive, hdone⟩ := hm
  cases rest with
  | nil => cases hpath'
  | cons h' rest =>
  obtain ⟨heq, hpath'⟩ := hpath'
  cases heq
  have hh : s.live h = true := (hlive h).mpr (List.mem_append_right _ List.mem_cons_self)
  have hnot : h ∉ rest := (List.nodup_cons.mp (List.nodup_append.mp hnodup).2.1).1
  have hnot' : h ∉ done := fun hmem =>
    List.disjoint_of_nodup_append hnodup hmem List.mem_cons_self
  have hpointer : ∀ w, s.pointer w = none := by
    intro w
    cases w with
    | main => exact congrArg MainPc.pointer hmain
    | task t => exact hi.tasks.pointer_eq_none (hbase ▸ hi.round.done) t
  -- the handle is live already
  have hsame : s.newHandle h = (s.handleInit h).linkSync0 h := by
    have hupdate : Function.update s.live h true = s.live := by
      rw [← hh]
      exact Function.update_eq_self h s.live
    unfold State.newHandle
    rw [hupdate]
    rfl
  have hstatic : Static (s.newHandle h)
      { (s.handleInit h).linkSync0 h with main := .reset (s.nextSync0 h) } := by
    rw [hsame]
    exact ⟨rfl, rfl, rfl, rfl, rfl, rfl, rfl, rfl, rfl, rfl, rfl⟩
  refine ⟨(hi.linked.newHandle (h := h)).congr hstatic, ?_, ?_, ?_, ?_⟩
  · refine (hi.points.newHandle (h := h) hi.linked hpointer).congr (by rw [hsame])
      (by rw [hsame]) hstatic.live (fun w => ?_) fun x _ a _ => ?_
    · cases w with
      | main => exact (congrArg MainPc.pointer hmain).symm
      | task t => rfl
    · cases a <;> exact Iff.rfl
  · exact (hi.tasks.newHandle (h := h)).congr rfl rfl (by rw [hsame]; exact fun _ _ => rfl) rfl rfl
      rfl rfl rfl
  · refine ⟨hi.round.le, hi.round.done, fun t i m x hle hp => ?_⟩
    obtain ⟨task, htask, _⟩ := hp
    exact absurd (List.getElem?_eq_some_iff.mp htask).1 (Nat.not_lt_of_le (hbase ▸ hle))
  · have hnext : ((s.handleInit h).linkSync0 h).nextSync0 =
        Function.update s.nextSync0 h s.listSync0 := Function.update_idem _ _ _
    refine ⟨hbase, h :: done, rest, ⟨rfl, ?_⟩, ?_, ?_, fun x => ?_, fun x hx => ?_⟩
    · show IsPath ((s.handleInit h).linkSync0 h).nextSync0
        (((s.handleInit h).linkSync0 h).nextSync0 h) done none
      rw [hnext, Function.update_self]
      exact hpath.congr fun x hx => Function.update_of_ne (ne_of_mem_of_not_mem hx hnot') _ _
    · show IsPath ((s.handleInit h).linkSync0 h).nextSync0 _ _ _
      rw [hnext]
      exact hpath'.congr fun x hx => Function.update_of_ne (ne_of_mem_of_not_mem hx hnot) _ _
    · exact (List.perm_middle.nodup_iff).mp hnodup
    · exact (hlive x).trans List.perm_middle.mem_iff
    · show Function.update g.top h 0 x = 0 ∧ Function.update s.wc (.sync0 h) 1 (.sync0 x) = 1
      by_cases hxh : x = h
      · subst hxh
        exact ⟨Function.update_self _ _ _, Function.update_self _ _ _⟩
      · have hx' := (List.mem_cons.mp hx).resolve_left hxh
        rw [Function.update_of_ne hxh, Function.update_of_ne (by simpa using hxh)]
        exact hdone x hx'

/-- A step of `xkblas_sync`. -/
theorem Inv.stepMain (hi : Inv g base s) (hstep : s.stepMain = some s') :
    ∃ g' base', Inv g' base' s' := by
  unfold State.stepMain at hstep
  cases hmain : s.main with
  | build =>
      rw [hmain] at hstep
      cases hstep
  | activate curr =>
      rw [hmain] at hstep
      cases curr with
      | none =>
          cases hstep
          refine ⟨g, base, hi.setMain (by rw [hmain]; rfl) ?_⟩
          have hm := hi.main
          unfold MainInv at hm
          rw [hmain] at hm
          obtain ⟨done, rest, hlisted, hpath, _, hdone⟩ := hm
          cases rest with
          | nil => exact ⟨done, by rw [List.append_nil] at hlisted; exact hlisted, hdone⟩
          | cons h rest => cases hpath.1
      | some h =>
          by_cases hsync : s.hsync h = none
          · dsimp only at hstep
            rw [if_pos hsync] at hstep
            cases hstep
            exact ⟨g, base, hi.skip hmain hsync⟩
          · dsimp only at hstep
            rw [if_neg hsync] at hstep
            cases hstep
            exact ⟨g, base, hi.activate hmain⟩
  | notify a next =>
      rw [hmain] at hstep
      cases a with
      | none =>
          cases hstep
          refine ⟨g, base, hi.setMain (by rw [hmain]; rfl) ?_⟩
          have hm := hi.main
          unfold MainInv at hm
          rw [hmain] at hm
          exact hm
      | some a =>
          cases hstep
          exact ⟨g, base, hi.notifyMain hmain⟩
  | wait =>
      rw [hmain] at hstep
      dsimp only at hstep
      split at hstep
      case isTrue hdone =>
        cases hstep
        exact ⟨g, _, hi.detach hmain hdone⟩
      case isFalse => cases hstep
  | reset curr =>
      rw [hmain] at hstep
      cases curr with
      | none =>
          cases hstep
          refine ⟨g, base, hi.setMain (by rw [hmain]; rfl) ?_⟩
          have hm := hi.main
          unfold MainInv at hm
          rw [hmain] at hm
          obtain ⟨_, done, rest, hpath, hpath', _, hlive, hdone⟩ := hm
          cases rest with
          | nil =>
              rw [List.append_nil] at hlive
              exact ⟨done, ⟨hpath, hlive⟩, fun x hx => (hdone x hx).2⟩
          | cons h rest => cases hpath'.1
      | some h =>
          cases hstep
          exact ⟨g.clear h, base, hi.reinit hmain⟩

/-! ## Runs -/

/-- `xkblas_memory_invalidate_caches` drops the handles when all tasks are executed. -/
theorem Inv.invalidate (hi : Inv g base s) (hmain : s.main = .build) (hdone : s.spawn = s.exec) :
    Inv g s.tasks.length { s with live := fun _ => false, listSync0 := none } := by
  have hround : Round g s.tasks.length s := hi.tasks.round hdone
  have hnone : ∀ w, s.pointer w = none := by
    intro w
    cases w with
    | main => exact congrArg MainPc.pointer hmain
    | task t => exact hi.tasks.pointer_eq_none (hi.tasks.all_finished hdone) t
  have hdead : ∀ h : η, ¬ (false = true) := fun _ => Bool.false_ne_true
  refine ⟨⟨fun h hh => absurd hh (hdead h), fun h _ hh => absurd hh (hdead h)⟩, ?_, ?_, ?_, ?_⟩
  · refine ⟨fun h hh => absurd hh (hdead h), fun h hh => absurd hh (hdead h), fun w a hw => ?_,
      fun w w' a hw => ?_, fun h hh => absurd hh (hdead h)⟩
    all_goals
      have heq : s.pointer w = some a := by
        cases w <;> exact hw
      rw [hnone w] at heq
      cases heq
  · exact hi.tasks.congr rfl rfl (fun _ _ => rfl) rfl rfl rfl rfl rfl
  · refine ⟨hround.le, hround.done, fun t i m h hle hp => ?_⟩
    obtain ⟨task, htask, _⟩ := hp
    exact absurd (List.getElem?_eq_some_iff.mp htask).1 (Nat.not_lt_of_le hle)
  · unfold MainInv
    rw [show ({ s with live := fun _ => false, listSync0 := none } : State η V).main = .build from
      hmain]
    exact ⟨[], ⟨rfl, fun h => iff_of_false (hdead h) List.not_mem_nil⟩,
      fun h hh => absurd hh List.not_mem_nil⟩

/-- The calls for which the chains are right: the tasks are legal, and the caches are invalidated
when all tasks are executed. `INSERT_TASK_zher2k` with two equal inputs and `INSERT_TASK_zswap`
within a column of tiles insert tasks that are not legal. -/
def Respects (s : State η V) : Action η V → Prop
  | .insert task => Legal task
  | .invalidate => s.spawn = s.exec
  | _ => True

instance (s : State η V) : (action : Action η V) → Decidable (Respects s action)
  | .insert task => inferInstanceAs (Decidable (Legal task))
  | .invalidate => inferInstanceAs (Decidable (s.spawn = s.exec))
  | .init _ | .sync | .main | .start _ | .task _ => instDecidableTrue

/-- Every step keeps the invariant. -/
theorem Inv.step {action : Action η V} (hi : Inv g base s) (hok : Respects s action)
    (hstep : DataFlow.step s action = some s') : ∃ g' base', Inv g' base' s' := by
  cases action with
  | init hs =>
      obtain ⟨⟨hmain, hnodup, hfresh⟩, hs'⟩ := Option.ite_none_right_eq_some.mp hstep
      cases hs'
      obtain ⟨g', hi'⟩ := hi.init hmain hnodup hfresh
      exact ⟨g', base, hi'⟩
  | insert task =>
      obtain ⟨⟨hmain, hlive⟩, hs'⟩ := Option.ite_none_right_eq_some.mp hstep
      cases hs'
      obtain ⟨g', hi'⟩ := hi.insert hmain hok hlive
      exact ⟨g', base, hi'⟩
  | sync =>
      obtain ⟨hmain, hs'⟩ := Option.ite_none_right_eq_some.mp hstep
      cases hs'
      exact ⟨g, base, hi.sync hmain⟩
  | invalidate =>
      obtain ⟨hmain, hs'⟩ := Option.ite_none_right_eq_some.mp hstep
      cases hs'
      exact ⟨g, _, hi.invalidate hmain hok⟩
  | main => exact hi.stepMain hstep
  | start t =>
      obtain ⟨hq, hs'⟩ := Option.ite_none_right_eq_some.mp hstep
      cases hs'
      exact ⟨g, base, hi.start hq⟩
  | task t => exact ⟨g, base, hi.stepTask hstep⟩

/-- Nothing has been submitted: the invariant holds. -/
theorem Inv.initial (hinit : Initial s) :
    Inv ⟨fun h _ => .sync0 h, fun _ _ => [], fun _ => 0⟩ 0 s := by
  have hdead : ∀ h, ¬ (s.live h = true) := fun h hh => by
    rw [hinit.live] at hh
    cases hh
  have hnone : ∀ w a, s.pointer w ≠ some a := by
    intro w a hw
    cases w with
    | main =>
        have hw' : s.main.pointer = some a := hw
        rw [hinit.main] at hw'
        cases hw'
    | task t =>
        have hw' : (s.pc t).pointer = some a := hw
        rw [hinit.pc] at hw'
        cases hw'
  refine ⟨⟨fun h hh => absurd hh (hdead h), fun h _ hh => absurd hh (hdead h)⟩,
    ⟨fun h hh => absurd hh (hdead h), fun h hh => absurd hh (hdead h),
      fun w a hw => absurd hw (hnone w a), fun w _ a hw => absurd hw (hnone w a),
      fun h hh => absurd hh (hdead h)⟩, ?_, ?_, ?_⟩
  · constructor
    case wc =>
      intro t task htask
      rw [hinit.tasks] at htask
      cases htask
    case pushed =>
      intro t
      rw [hinit.pushed, hinit.tasks]
      exact iff_of_false List.not_mem_nil fun h => Nat.not_lt_zero t h.1
    case pushed_nodup => rw [hinit.pushed]; exact List.nodup_nil
    case queue =>
      intro t
      rw [hinit.queue, hinit.pushed]
      exact iff_of_false List.not_mem_nil fun h => List.not_mem_nil h.1
    case queue_nodup => rw [hinit.queue]; exact List.nodup_nil
    case idle => exact fun t _ => hinit.pc t
    case rest =>
      intro t task htask
      rw [hinit.tasks] at htask
      cases htask
    case spawn => rw [hinit.spawn, hinit.tasks]; rfl
    case exec => rw [hinit.exec, hinit.tasks]; rfl
    case legal =>
      intro task hmem
      rw [hinit.tasks] at hmem
      cases hmem
  · refine ⟨Nat.zero_le _, fun t ht => absurd ht (Nat.not_lt_zero t), fun t i m h _ hp => ?_⟩
    obtain ⟨task, htask, _⟩ := hp
    rw [hinit.tasks] at htask
    cases htask
  · unfold MainInv
    rw [hinit.main]
    exact ⟨[], ⟨hinit.listSync0, fun h => iff_of_false (hdead h) List.not_mem_nil⟩,
      fun h hh => absurd hh List.not_mem_nil⟩

/-- The invariant of all runs. -/
theorem reachable_inv (hs : (system η V).ReachableWhen Respects s) : ∃ g base, Inv g base s := by
  induction hs with
  | start hinit => exact ⟨_, _, Inv.initial hinit⟩
  | next _ hok hstep ih =>
      obtain ⟨g, base, hi⟩ := ih
      exact hi.step hok hstep

end Xkblas.Sched.DataFlow
