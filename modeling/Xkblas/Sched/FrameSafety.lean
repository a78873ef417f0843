import Mathlib.Algebra.Order.BigOperators.Group.List
import Mathlib.Algebra.Order.Group.Nat
import Xkblas.Library.ListUpdate
import Xkblas.Sched.Frame

/-!
# When the counters of a frame agree

Between two calls of `kaapi_sched_sync` the counters differ by what the tasks of the frame stand
for and have not counted, which is less than `2 ^ 32`. So a call that finds them equal finds every
task executed and every transfer complete. An epilogue still writes the flags of its task after
it has counted: only when the last increment is not one by an epilogue, and no epilogue is
between the two, does no device thread use the tasks any more.
-/

namespace Xkblas.Sched.Frame

open Library

-- the equations that the proofs below rewrite with are made once
section
attribute [local simp] step
end

namespace Task

/-- The increments that the task has made. -/
def counted (t : Task) : Nat :=
  (if t.phase = .counted ∨ t.phase = .finished then 1 else 0) +
    if t.transfer = .received then 1 else 0

/-- What the transfer of a task can be at each point of its execution. -/
def WellFormed (t : Task) : Prop :=
  match t.kind, t.phase with
  | .compute, .body => False
  | .compute, _ => t.transfer = .none
  | .writeback, .committed => t.transfer = .none
  | .writeback, .body => t.transfer = .valid
  | .writeback, _ => t.transfer = .pending ∨ t.transfer = .received

theorem counted_le {t : Task} (h : t.WellFormed) : t.counted ≤ t.kind.units := by
  obtain ⟨kind, frame, phase, transfer, recycled⟩ := t
  cases kind <;> cases phase <;> cases transfer <;>
    simp_all [WellFormed, counted, Kind.units]

/-- A task that has counted all its increments is complete. -/
theorem complete_of_counted {t : Task} (h : t.WellFormed) (hcounted : t.kind.units ≤ t.counted) :
    t.Complete := by
  obtain ⟨kind, frame, phase, transfer, recycled⟩ := t
  cases kind <;> cases phase <;> cases transfer <;>
    simp_all [WellFormed, counted, Kind.units, Complete]

theorem counted_of_complete {t : Task} (h : t.Complete) : t.kind.units ≤ t.counted := by
  obtain ⟨kind, frame, phase, transfer, recycled⟩ := t
  obtain ⟨hphase, htransfer⟩ := h
  cases kind with
  | compute => simp_all [counted, Kind.units]
  | writeback => simp_all [counted, Kind.units]

/-! What the steps of a device thread do to a task. -/

section Steps

variable {t : Task}

theorem wellFormed_start (h : t.WellFormed) (hphase : t.phase = .committed) (valid : Bool) :
    (t.start valid).WellFormed ∧ (t.start valid).counted = t.counted ∧
      (t.start valid).kind = t.kind ∧ (t.start valid).recycled = t.recycled := by
  obtain ⟨kind, frame, phase, transfer, recycled⟩ := t
  cases kind <;> cases valid <;> simp_all [WellFormed, counted, start]

theorem wellFormed_unroll (h : t.WellFormed) (hphase : t.phase = .body) :
    { t with phase := .launched, transfer := .received }.WellFormed ∧
      { t with phase := .launched, transfer := .received }.counted = t.counted + 1 := by
  obtain ⟨kind, frame, phase, transfer, recycled⟩ := t
  cases kind <;> simp_all [WellFormed, counted]

theorem wellFormed_receive (h : t.WellFormed) (htransfer : t.transfer = .pending) :
    { t with transfer := .received }.WellFormed ∧
      { t with transfer := .received }.counted = t.counted + 1 := by
  obtain ⟨kind, frame, phase, transfer, recycled⟩ := t
  cases kind <;> cases phase <;> simp_all [WellFormed, counted]

theorem wellFormed_activate (h : t.WellFormed) (hphase : t.phase = .launched) :
    { t with phase := .activated }.WellFormed ∧
      { t with phase := .activated }.counted = t.counted := by
  obtain ⟨kind, frame, phase, transfer, recycled⟩ := t
  cases kind <;> simp_all [WellFormed, counted]

theorem wellFormed_count (h : t.WellFormed) (hphase : t.phase = .activated) :
    { t with phase := .counted }.WellFormed ∧
      { t with phase := .counted }.counted = t.counted + 1 := by
  obtain ⟨kind, frame, phase, transfer, recycled⟩ := t
  cases kind <;> simp_all [WellFormed, counted, Nat.add_comm]

theorem wellFormed_flag (h : t.WellFormed) (hphase : t.phase = .counted) :
    { t with phase := .finished }.WellFormed ∧
      { t with phase := .finished }.counted = t.counted := by
  obtain ⟨kind, frame, phase, transfer, recycled⟩ := t
  cases kind <;> simp_all [WellFormed, counted]

/-- A task that the submitting thread executes. -/
theorem wellFormed_pop (h : t.WellFormed) (hphase : t.phase = .committed)
    (hkind : t.kind = .compute) :
    { t with phase := .finished }.WellFormed ∧
      { t with phase := .finished }.counted = t.counted + 1 := by
  obtain ⟨kind, frame, phase, transfer, recycled⟩ := t
  simp_all [WellFormed, counted]

end Steps

end Task

/-- The increments made by the tasks since the last return of `kaapi_sched_sync`. -/
def State.counted (s : State) : Nat :=
  (s.tasks.map fun t => if t.recycled then 0 else t.counted).sum

/-- The tasks that have not been given back. -/
def State.live (s : State) : Nat :=
  (s.tasks.map fun t => if t.recycled then 0 else 1).sum

/-- The invariant of the counters. They start from a common value. -/
structure Inv (s : State) : Prop where
  tasks : ∀ t ∈ s.tasks, t.WellFormed
  recycled : ∀ t ∈ s.tasks, t.recycled = true → t.Complete
  bound : s.units < 2 ^ 32
  counts : ∃ base : BitVec 32,
    s.spawn_count + s.cnt.setWidth 32 = base + BitVec.ofNat 32 s.units ∧
      s.exec_count + s.pc.exec_cnt = base + BitVec.ofNat 32 s.counted
  exec_cnt : s.pc.exec_cnt.toNat ≤ s.counted
  cnt : s.cnt = if s.pc.Synchronising then 0 else BitVec.ofNat 64 s.live

/-! ## The increments of the tasks of the frame -/

section Sums

variable {s : State}

/-- A sum over the tasks that have not been given back, term by term. -/
theorem sum_live_le {f g : Task → Nat} (tasks : List Task) (h : ∀ t ∈ tasks, f t ≤ g t) :
    (tasks.map fun t => if t.recycled then 0 else f t).sum ≤
      (tasks.map fun t => if t.recycled then 0 else g t).sum := by
  refine List.sum_le_sum fun t ht => ?_
  by_cases hr : t.recycled = true
  · simp [hr]
  · simpa [hr] using h t ht

theorem Inv.counted_le (h : Inv s) : s.counted ≤ s.units :=
  sum_live_le s.tasks fun t ht => Task.counted_le (h.tasks t ht)

theorem live_le_units : s.live ≤ s.units := by
  refine sum_live_le s.tasks fun t _ => ?_
  cases t.kind <;> decide

/-- When all increments have been made, each task has made its own. -/
theorem Inv.complete_of_counted (h : Inv s) (heq : s.counted = s.units) :
    ∀ t ∈ s.tasks, t.Complete := by
  intro t ht
  by_cases hr : t.recycled = true
  · exact h.recycled t ht hr
  · refine Task.complete_of_counted (h.tasks t ht) ?_
    by_contra hlt
    have hsum : s.counted < s.units := by
      refine List.sum_lt_sum _ _ (fun t' ht' => ?_) ⟨t, ht, ?_⟩
      · by_cases hr' : t'.recycled = true
        · simp [hr']
        · simpa [hr'] using Task.counted_le (h.tasks t' ht')
      · simpa [hr] using hlt
    exact hsum.ne heq

/-- A call of `kaapi_sched_sync` that finds the counters equal finds every task complete. -/
theorem Inv.complete (h : Inv s) (hs : s.Completed) : ∀ t ∈ s.tasks, t.Complete := by
  obtain ⟨base, hspawn, hexec⟩ := h.counts
  have hcnt : s.cnt = 0 := by
    rw [h.cnt, if_pos hs.1]
  have hle := h.counted_le
  have hbound := h.bound
  have hk := h.exec_cnt
  rw [hcnt, hs.2] at hspawn
  -- the difference is a multiple of `2 ^ 32` and smaller than it
  have hsum : BitVec.ofNat 32 s.units + s.pc.exec_cnt = BitVec.ofNat 32 s.counted := by
    have hspawn : s.exec_count = base + BitVec.ofNat 32 s.units := by simpa using hspawn
    rw [hspawn, BitVec.add_assoc] at hexec
    exact (BitVec.add_right_inj base).mp hexec
  refine h.complete_of_counted ?_
  have hnat := congrArg BitVec.toNat hsum
  rw [BitVec.toNat_add, BitVec.toNat_ofNat, BitVec.toNat_ofNat] at hnat
  omega

end Sums

/-! ## The steps -/

section Steps

variable {s s' : State} {i : Nat} {a b : Task}

/-- A task makes `made` increments, which go to the counter or to the local count of the
submitting thread. -/
theorem Inv.setTask (h : Inv s) (hi : s.tasks[i]? = some a) (hb : b.WellFormed)
    (hkind : b.kind = a.kind) (hrecycled : b.recycled = a.recycled)
    (hcomplete : a.recycled = true → b.Complete) {exec : BitVec 32} {pc : Pc}
    (hsync : pc.Synchronising ↔ s.pc.Synchronising) {made : Nat}
    (hmade : b.counted = a.counted + made)
    (hexec : exec + pc.exec_cnt = s.exec_count + s.pc.exec_cnt + BitVec.ofNat 32 made)
    (hlocal : pc.exec_cnt.toNat ≤ s.pc.exec_cnt.toNat + made) :
    Inv { s with tasks := s.tasks.set i b, exec_count := exec, pc := pc } := by
  let s' : State := { s with tasks := s.tasks.set i b, exec_count := exec, pc := pc }
  have hunits : s'.units = s.units := by
    have hsum := sum_map_set (b := b)
      (f := fun t : Task => if t.recycled then 0 else t.kind.units) hi
    rw [hkind, hrecycled] at hsum
    exact Nat.add_right_cancel hsum
  have hlive : s'.live = s.live := by
    have hsum := sum_map_set (b := b) (f := fun t : Task => if t.recycled then 0 else 1) hi
    rw [hrecycled] at hsum
    exact Nat.add_right_cancel hsum
  have hcounted : s'.counted = s.counted + made := by
    have hsum : s'.counted + (if a.recycled then 0 else a.counted) =
        s.counted + if b.recycled then 0 else b.counted :=
      sum_map_set (f := fun t : Task => if t.recycled then 0 else t.counted) hi
    rw [hrecycled, hmade] at hsum
    by_cases hr : a.recycled = true
    · -- a task that has been given back makes no increment
      have ha := Task.counted_of_complete (h.recycled a (List.mem_of_getElem? hi) hr)
      have hle := Task.counted_le hb
      rw [hkind, hmade] at hle
      rw [if_pos hr, if_pos hr] at hsum
      omega
    · rw [if_neg hr, if_neg hr] at hsum
      omega
  constructor
  case tasks => exact forall_mem_set h.tasks hb
  case recycled =>
    refine forall_mem_set h.recycled fun hr => hcomplete ?_
    rw [← hrecycled]
    exact hr
  case bound =>
    rw [hunits]
    exact h.bound
  case counts =>
    obtain ⟨base, hspawn, hcount⟩ := h.counts
    refine ⟨base, ?_, ?_⟩
    · rw [hunits]
      exact hspawn
    · rw [hcounted, BitVec.ofNat_add, ← BitVec.add_assoc, ← hcount]
      exact hexec
  case exec_cnt =>
    rw [hcounted]
    exact hlocal.trans (Nat.add_le_add_right h.exec_cnt made)
  case cnt =>
    rw [hlive]
    refine h.cnt.trans ?_
    by_cases hs : s.pc.Synchronising
    · rw [if_pos hs, if_pos (hsync.mpr hs)]
    · rw [if_neg hs, if_neg (hsync.not.mpr hs)]

/-- A step of a task that makes no increment. -/
theorem Inv.setTask_same (h : Inv s) (hi : s.tasks[i]? = some a) (hb : b.WellFormed)
    (hkind : b.kind = a.kind) (hrecycled : b.recycled = a.recycled)
    (hcomplete : a.recycled = true → b.Complete) (hmade : b.counted = a.counted) :
    Inv (s.setTask i b) :=
  h.setTask hi hb hkind hrecycled hcomplete Iff.rfl (hmade.trans (Nat.add_zero _).symm)
    (BitVec.add_zero _).symm (Nat.le_refl _)

/-- A step of a task that makes one. -/
theorem Inv.countTask (h : Inv s) (hi : s.tasks[i]? = some a) (hb : b.WellFormed)
    (hkind : b.kind = a.kind) (hrecycled : b.recycled = a.recycled)
    (hcomplete : a.recycled = true → b.Complete) (hmade : b.counted = a.counted + 1) :
    Inv (s.countTask i b) := by
  refine h.setTask hi hb hkind hrecycled hcomplete Iff.rfl hmade ?_ (Nat.le_add_right _ _)
  show s.exec_count + 1 + s.pc.exec_cnt = s.exec_count + s.pc.exec_cnt + 1
  rw [BitVec.add_assoc, BitVec.add_comm 1, ← BitVec.add_assoc]

/-- A task that has been given back is at the end of its epilogue. -/
theorem Inv.not_recycled (h : Inv s) (hi : s.tasks[i]? = some a)
    (hphase : a.phase ≠ .counted ∧ a.phase ≠ .finished) (hr : a.recycled = true) : b.Complete := by
  rcases (h.recycled a (List.mem_of_getElem? hi) hr).1 with heq | heq
  · exact absurd heq hphase.1
  · exact absurd heq hphase.2

/-- A step of a task finds the task, at the point where it makes the step. -/
theorem exists_task {p : Task → Prop} [DecidablePred p] {f : Task → Option State}
    (hstep : (match s.tasks[i]? with
      | some t => if p t then f t else none
      | none => none) = some s') : ∃ t, s.tasks[i]? = some t ∧ p t ∧ f t = some s' := by
  split at hstep
  case h_2 => cases hstep
  case h_1 t hi =>
    split at hstep
    case isFalse => cases hstep
    case isTrue hp => exact ⟨t, hi, hp, hstep⟩

theorem inv_start (h : Inv s) {valid : Bool} (hstep : step s (.start i valid) = some s') :
    Inv s' := by
  obtain ⟨t, hi, hphase, hstep⟩ := exists_task hstep
  cases hstep
  obtain ⟨hwf, hmade, hkind, hr⟩ :=
    Task.wellFormed_start (h.tasks t (List.mem_of_getElem? hi)) hphase valid
  exact h.setTask_same hi hwf hkind hr (h.not_recycled hi (by simp [hphase])) hmade

theorem inv_unroll (h : Inv s) (hstep : step s (.unroll i) = some s') : Inv s' := by
  obtain ⟨t, hi, hphase, hstep⟩ := exists_task hstep
  cases hstep
  obtain ⟨hwf, hmade⟩ := Task.wellFormed_unroll (h.tasks t (List.mem_of_getElem? hi)) hphase
  exact h.countTask hi hwf rfl rfl (h.not_recycled hi (by simp [hphase])) hmade

theorem inv_receive (h : Inv s) (hstep : step s (.receive i) = some s') : Inv s' := by
  obtain ⟨t, hi, htransfer, hstep⟩ := exists_task hstep
  cases hstep
  have ht := h.tasks t (List.mem_of_getElem? hi)
  obtain ⟨hwf, hmade⟩ := Task.wellFormed_receive ht htransfer
  refine h.countTask hi hwf rfl rfl (fun hr => ?_) hmade
  exact ⟨(h.recycled t (List.mem_of_getElem? hi) hr).1, fun _ => rfl⟩

theorem inv_activate (h : Inv s) (hstep : step s (.activate i) = some s') : Inv s' := by
  obtain ⟨t, hi, hphase, hstep⟩ := exists_task hstep
  cases hstep
  obtain ⟨hwf, hmade⟩ := Task.wellFormed_activate (h.tasks t (List.mem_of_getElem? hi)) hphase
  exact h.setTask_same hi hwf rfl rfl (h.not_recycled hi (by simp [hphase])) hmade

theorem inv_count (h : Inv s) (hok : Accounted s (.count i))
    (hstep : step s (.count i) = some s') : Inv s' := by
  obtain ⟨t, hi, hphase, hstep⟩ := exists_task hstep
  have hframe : t.frame = true := hok t hi
  rw [if_pos hframe] at hstep
  cases hstep
  obtain ⟨hwf, hmade⟩ := Task.wellFormed_count (h.tasks t (List.mem_of_getElem? hi)) hphase
  exact h.countTask hi hwf rfl rfl (h.not_recycled hi (by simp [hphase])) hmade

theorem inv_flag (h : Inv s) (hstep : step s (.flag i) = some s') : Inv s' := by
  obtain ⟨t, hi, hphase, hstep⟩ := exists_task hstep
  cases hstep
  obtain ⟨hwf, hmade⟩ := Task.wellFormed_flag (h.tasks t (List.mem_of_getElem? hi)) hphase
  refine h.setTask_same hi hwf rfl rfl (fun hr => ?_) hmade
  exact ⟨.inr rfl, (h.recycled t (List.mem_of_getElem? hi) hr).2⟩

theorem inv_commit (h : Inv s) {kind : Kind} {stale : Bool}
    (hok : Accounted s (.commit kind stale)) (hstep : step s (.commit kind stale) = some s') :
    Inv s' := by
  simp only [step] at hstep
  split at hstep
  case isFalse => cases hstep
  case isTrue hpc =>
    cases hstep
    let t : Task := ⟨kind, stale, .committed, .none, false⟩
    have hsum : ∀ f : Task → Nat, ((s.tasks ++ [t]).map f).sum = (s.tasks.map f).sum + f t := by
      intro f
      rw [List.map_append, List.sum_append, List.map_singleton, List.sum_singleton]
    let s' : State := { s with
      tasks := s.tasks ++ [t]
      spawn_count := if kind = .writeback then s.spawn_count + 1 else s.spawn_count
      cnt := s.cnt + 1
      pc := .storing s.tasks.length }
    have hunits : s'.units = s.units + kind.units := hsum _
    have hcounted : s'.counted = s.counted := hsum _
    have hlive : s'.live = s.live + 1 := hsum _
    have hmem : ∀ {x}, x ∈ s'.tasks → x ∈ s.tasks ∨ x = t := by
      intro x hx
      exact (List.mem_append.mp hx).imp_right List.mem_singleton.mp
    constructor
    case tasks =>
      intro x hx
      rcases hmem hx with hx | rfl
      · exact h.tasks x hx
      · cases kind <;> rfl
    case recycled =>
      intro x hx hr
      rcases hmem hx with hx | rfl
      · exact h.recycled x hx hr
      · cases hr
    case bound =>
      show s'.units < 2 ^ 32
      rw [hunits]
      exact hok
    case counts =>
      obtain ⟨base, hspawn, hexec⟩ := h.counts
      rw [hpc] at hexec
      refine ⟨base, ?_, ?_⟩
      · show (if kind = .writeback then s.spawn_count + 1 else s.spawn_count) +
          (s.cnt + 1).setWidth 32 = base + BitVec.ofNat 32 s'.units
        rw [hunits, BitVec.ofNat_add, ← BitVec.add_assoc, ← hspawn,
          BitVec.setWidth_add _ _ (by decide)]
        cases kind with
        | compute => exact (BitVec.add_assoc _ _ _).symm
        | writeback =>
            show s.spawn_count + 1 + (s.cnt.setWidth 32 + 1) =
              s.spawn_count + s.cnt.setWidth 32 + 2
            bv_omega
      · show s.exec_count + 0 = base + BitVec.ofNat 32 s'.counted
        rw [hcounted]
        exact hexec
    case exec_cnt => exact Nat.zero_le _
    case cnt =>
      show s.cnt + 1 = BitVec.ofNat 64 s'.live
      rw [hlive, BitVec.ofNat_add, h.cnt, hpc]
      rfl

theorem inv_store (h : Inv s) (hstep : step s .store = some s') : Inv s' := by
  simp only [step] at hstep
  split at hstep
  case h_2 => cases hstep
  case h_1 i hpc =>
    split at hstep
    case h_2 => cases hstep
    case h_1 t hi =>
      cases hstep
      refine h.setTask (b := { t with frame := true }) hi (h.tasks t (List.mem_of_getElem? hi))
        rfl rfl (h.recycled t (List.mem_of_getElem? hi)) ?_ (Nat.add_zero _).symm ?_ ?_
      · rw [hpc]
        rfl
      · rw [hpc]
        exact (BitVec.add_zero _).symm
      · exact Nat.zero_le _

theorem inv_sync (h : Inv s) (hstep : step s .sync = some s') : Inv s' := by
  simp only [step] at hstep
  split at hstep
  case isFalse => cases hstep
  case isTrue hpc =>
    split at hstep
    case isTrue =>
      cases hstep
      exact h
    case isFalse =>
      cases hstep
      obtain ⟨base, hspawn, hexec⟩ := h.counts
      constructor
      case tasks => exact h.tasks
      case recycled => exact h.recycled
      case bound => exact h.bound
      case counts =>
        refine ⟨base, ?_, ?_⟩
        · show s.spawn_count + s.cnt.setWidth 32 + (0 : BitVec 64).setWidth 32 = _
          rw [hspawn]
          exact BitVec.add_zero _
        · rw [hpc] at hexec
          exact hexec
      case exec_cnt => exact Nat.zero_le _
      case cnt => rfl

theorem inv_pop (h : Inv s) (hstep : step s (.pop i) = some s') : Inv s' := by
  simp only [step] at hstep
  split at hstep
  case h_2 => cases hstep
  case h_1 exec_cnt t hpc hi =>
    split at hstep
    case isFalse => cases hstep
    case isTrue ht =>
      cases hstep
      obtain ⟨hwf, hmade⟩ :=
        Task.wellFormed_pop (h.tasks t (List.mem_of_getElem? hi)) ht.1 ht.2
      refine h.setTask hi hwf rfl rfl (h.not_recycled hi (by simp [ht.1])) ?_ hmade ?_ ?_
      · rw [hpc]
        rfl
      · rw [hpc]
        show s.exec_count + (exec_cnt + 1) = s.exec_count + exec_cnt + 1
        rw [BitVec.add_assoc]
      · rw [hpc]
        show (exec_cnt + 1).toNat ≤ exec_cnt.toNat + 1
        rw [BitVec.toNat_add]
        exact Nat.mod_le _ _

theorem inv_report (h : Inv s) (hstep : step s .report = some s') : Inv s' := by
  simp only [step] at hstep
  split at hstep
  case h_2 => cases hstep
  case h_1 exec_cnt hpc =>
    cases hstep
    obtain ⟨base, hspawn, hexec⟩ := h.counts
    rw [hpc] at hexec
    constructor
    case tasks => exact h.tasks
    case recycled => exact h.recycled
    case bound => exact h.bound
    case counts =>
      refine ⟨base, hspawn, ?_⟩
      exact (BitVec.add_zero _).trans hexec
    case exec_cnt => exact Nat.zero_le _
    case cnt =>
      have hcnt := h.cnt
      rw [hpc] at hcnt
      exact hcnt

theorem inv_return (h : Inv s) (hstep : step s .return_ = some s') : Inv s' := by
  simp only [step] at hstep
  split at hstep
  case isFalse => cases hstep
  case isTrue hequal =>
    cases hstep
    have hcompleted : s.Completed := ⟨by rw [hequal.1]; trivial, hequal.2⟩
    have hcnt : s.cnt = 0 := by
      rw [h.cnt, if_pos hcompleted.1]
    have hsum : ∀ f : Task → Nat, ((s.tasks.map fun t => { t with recycled := true }).map
        fun t : Task => if t.recycled then 0 else f t).sum = 0 := by
      intro f
      rw [List.map_map]
      exact List.sum_eq_zero fun x hx => by
        obtain ⟨t, _, rfl⟩ := List.mem_map.mp hx
        rfl
    constructor
    case tasks =>
      intro t ht
      obtain ⟨t₀, ht₀, rfl⟩ := List.mem_map.mp ht
      exact h.tasks t₀ ht₀
    case recycled =>
      intro t ht _
      obtain ⟨t₀, ht₀, rfl⟩ := List.mem_map.mp ht
      exact h.complete hcompleted t₀ ht₀
    case bound =>
      show (List.map _ _).sum < 2 ^ 32
      rw [hsum]
      exact Nat.two_pow_pos 32
    case counts =>
      refine ⟨s.exec_count, ?_, ?_⟩
      · show s.spawn_count + s.cnt.setWidth 32 = s.exec_count + BitVec.ofNat 32 (List.map _ _).sum
        rw [hsum, hequal.2, hcnt]
        rfl
      · show s.exec_count + 0 = s.exec_count + BitVec.ofNat 32 (List.map _ _).sum
        rw [hsum]
        rfl
    case exec_cnt => exact Nat.zero_le _
    case cnt =>
      show s.cnt = BitVec.ofNat 64 (List.map _ _).sum
      rw [hsum fun _ => 1, hcnt]
      rfl

theorem inv_step (h : Inv s) {a : Action} (hok : Accounted s a) (hstep : step s a = some s') :
    Inv s' := by
  cases a with
  | commit kind stale => exact inv_commit h hok hstep
  | store => exact inv_store h hstep
  | sync => exact inv_sync h hstep
  | pop i => exact inv_pop h hstep
  | report => exact inv_report h hstep
  | return_ => exact inv_return h hstep
  | start i valid => exact inv_start h hstep
  | unroll i => exact inv_unroll h hstep
  | receive i => exact inv_receive h hstep
  | activate i => exact inv_activate h hstep
  | count i => exact inv_count h hok hstep
  | flag i => exact inv_flag h hstep

theorem inv_initial (h : Initial s) : Inv s := by
  constructor
  case tasks =>
    intro t ht
    rw [h.tasks] at ht
    cases ht
  case recycled =>
    intro t ht
    rw [h.tasks] at ht
    cases ht
  case bound =>
    unfold State.units
    rw [h.tasks]
    exact Nat.two_pow_pos 32
  case counts =>
    refine ⟨s.exec_count, ?_, ?_⟩
    · unfold State.units
      rw [h.counts, h.cnt, h.tasks]
      rfl
    · unfold State.counted
      rw [h.pc, h.tasks]
      rfl
  case exec_cnt =>
    rw [h.pc]
    exact Nat.zero_le _
  case cnt =>
    unfold State.live
    rw [h.cnt, h.pc, h.tasks]
    rfl

/-- The runs whose steps are accounted for. -/
theorem Inv.of_reachable {ok : State → Action → Prop} (hok : ∀ s a, ok s a → Accounted s a)
    (hs : system.ReachableWhen ok s) : Inv s := by
  induction hs with
  | start hinit => exact inv_initial hinit
  | next _ hstepOk hstep ih => exact inv_step ih (hok _ _ hstepOk) hstep

/-- `kaapi_sched_sync` returns when every task of the frame has been executed and every transfer
is complete, and also when it returns at once. -/
theorem Inv.complete_of_return (h : Inv s) (hpc : s.pc = .running) (hcnt : s.cnt = 0) :
    ∀ t ∈ s.tasks, t.Complete := by
  have hlive : s.live = 0 := by
    have hbound := live_le_units.trans_lt h.bound
    have hzero := h.cnt
    rw [hcnt, hpc] at hzero
    have hnat : (0 : BitVec 64).toNat = (BitVec.ofNat 64 s.live).toNat := congrArg _ hzero
    rw [BitVec.toNat_ofNat] at hnat
    have hzero' : (0 : BitVec 64).toNat = 0 := rfl
    omega
  intro t ht
  refine h.recycled t ht ?_
  by_contra hr
  have hterm : (if t.recycled then 0 else 1) ≤ s.live :=
    List.single_le_sum (fun _ _ => Nat.zero_le _) _ (List.mem_map.mpr ⟨t, ht, rfl⟩)
  rw [if_neg hr, hlive] at hterm
  exact absurd hterm (by decide)

end Steps

/-! ## What device threads still use -/

section Settled

variable {s s' : State} {i : Nat} {a b : Task}

/-- The epilogues of the tasks that have been given back, and of all tasks when the counters are
equal, are over. -/
structure Quiet (s : State) : Prop where
  recycled : ∀ t ∈ s.tasks, t.recycled = true → t.phase = .finished
  completed : s.Completed → ∀ t ∈ s.tasks, t.phase = .finished

/-- Equal counters leave to an epilogue the write of the flag alone. -/
theorem Inv.finished (h : Inv s) (hs : s.Completed) (hflagged : s.Flagged) :
    ∀ t ∈ s.tasks, t.phase = .finished := by
  intro t ht
  rcases (h.complete hs t ht).1 with hphase | hphase
  · exact absurd hphase (hflagged t ht)
  · exact hphase

/-- A step of a task that is not finished: it has not been given back. -/
theorem Quiet.setTask (q : Quiet s) (hi : s.tasks[i]? = some a) (ha : a.phase ≠ .finished)
    (htasks : s'.tasks = s.tasks.set i b) (hr : b.recycled = a.recycled)
    (hcompleted : s'.Completed → s.Completed) : Quiet s' := by
  have hmem := List.mem_of_getElem? hi
  constructor
  case recycled =>
    rw [htasks]
    refine forall_mem_set q.recycled fun hb => ?_
    exact absurd (q.recycled a hmem (hr ▸ hb)) ha
  case completed => exact fun hs => absurd (q.completed (hcompleted hs) a hmem) ha

theorem quiet_commit (q : Quiet s) {kind : Kind} {stale : Bool}
    (hstep : step s (.commit kind stale) = some s') : Quiet s' := by
  simp only [step] at hstep
  split at hstep
  case isFalse => cases hstep
  case isTrue =>
    cases hstep
    constructor
    case recycled =>
      intro t ht hr
      rcases List.mem_append.mp ht with ht | ht
      · exact q.recycled t ht hr
      · obtain rfl := List.mem_singleton.mp ht
        cases hr
    case completed => exact fun hs => hs.1.elim

theorem quiet_store (q : Quiet s) (hstep : step s .store = some s') : Quiet s' := by
  simp only [step] at hstep
  split at hstep
  case h_2 => cases hstep
  case h_1 i hpc =>
    split at hstep
    case h_2 => cases hstep
    case h_1 t hi =>
      cases hstep
      exact ⟨forall_mem_set q.recycled (q.recycled t (List.mem_of_getElem? hi)),
        fun hs => hs.1.elim⟩

theorem quiet_sync (h' : Inv s') (q : Quiet s) (hok : Settled s .sync)
    (hstep : step s .sync = some s') : Quiet s' := by
  simp only [step] at hstep
  split at hstep
  case isFalse => cases hstep
  case isTrue =>
    split at hstep
    case isTrue =>
      cases hstep
      exact q
    case isFalse =>
      cases hstep
      exact ⟨q.recycled, fun hs => h'.finished hs (hok hs.2)⟩

theorem quiet_pop (q : Quiet s) (hstep : step s (.pop i) = some s') : Quiet s' := by
  simp only [step] at hstep
  split at hstep
  case h_2 => cases hstep
  case h_1 exec_cnt t hpc hi =>
    split at hstep
    case isFalse => cases hstep
    case isTrue ht =>
      cases hstep
      refine q.setTask hi (by simp [ht.1]) rfl rfl fun hs => ⟨?_, hs.2⟩
      rw [hpc]
      trivial

theorem quiet_report (h' : Inv s') (q : Quiet s) (hok : Settled s .report)
    (hstep : step s .report = some s') : Quiet s' := by
  simp only [step] at hstep
  split at hstep
  case h_2 => cases hstep
  case h_1 exec_cnt hpc =>
    cases hstep
    refine ⟨q.recycled, fun hs => h'.finished hs (hok ?_)⟩
    rw [hpc]
    exact hs.2

theorem quiet_return (q : Quiet s) (hstep : step s .return_ = some s') : Quiet s' := by
  simp only [step] at hstep
  split at hstep
  case isFalse => cases hstep
  case isTrue hequal =>
    cases hstep
    have hcompleted : s.Completed := ⟨by rw [hequal.1]; trivial, hequal.2⟩
    refine ⟨fun t ht _ => ?_, fun hs => hs.1.elim⟩
    obtain ⟨t₀, ht₀, rfl⟩ := List.mem_map.mp ht
    exact q.completed hcompleted t₀ ht₀

theorem quiet_start (q : Quiet s) {valid : Bool} (hstep : step s (.start i valid) = some s') :
    Quiet s' := by
  obtain ⟨t, hi, hphase, hstep⟩ := exists_task hstep
  cases hstep
  refine q.setTask hi (by simp [hphase]) rfl ?_ id
  obtain ⟨kind, frame, phase, transfer, recycled⟩ := t
  cases kind <;> cases valid <;> rfl

/-- The body of a write-back task counts before its epilogue, so not as the last one. -/
theorem quiet_unroll (h' : Inv s') (q : Quiet s) (hstep : step s (.unroll i) = some s') :
    Quiet s' := by
  obtain ⟨t, hi, hphase, hstep⟩ := exists_task hstep
  cases hstep
  refine q.setTask hi (by simp [hphase]) rfl rfl fun hs => ?_
  obtain ⟨hlt, -⟩ := List.getElem?_eq_some_iff.mp hi
  rcases (h'.complete hs _ (List.mem_set hlt _)).1 with hphase | hphase
  · cases hphase
  · cases hphase

theorem quiet_receive (h' : Inv s') (q : Quiet s) (hok : Settled s (.receive i))
    (hstep : step s (.receive i) = some s') : Quiet s' := by
  obtain ⟨t, hi, htransfer, hstep⟩ := exists_task hstep
  cases hstep
  have hmem := List.mem_of_getElem? hi
  constructor
  case recycled => exact forall_mem_set q.recycled (q.recycled t hmem)
  case completed =>
    intro hs
    have hflagged := hok hs
    exact h'.finished hs (forall_mem_set hflagged (hflagged t hmem))

theorem quiet_activate (q : Quiet s) (hstep : step s (.activate i) = some s') : Quiet s' := by
  obtain ⟨t, hi, hphase, hstep⟩ := exists_task hstep
  cases hstep
  exact q.setTask hi (by simp [hphase]) rfl rfl id

/-- The increment of an epilogue is not the last one. -/
theorem quiet_count (q : Quiet s) (hok : Settled s (.count i))
    (hstep : step s (.count i) = some s') : Quiet s' := by
  obtain ⟨t, hi, hphase, hstep⟩ := exists_task hstep
  split at hstep
  case isTrue =>
    cases hstep
    exact q.setTask hi (by simp [hphase]) rfl rfl fun hs => absurd hs hok
  case isFalse =>
    cases hstep
    exact q.setTask hi (by simp [hphase]) rfl rfl id

theorem quiet_flag (q : Quiet s) (hstep : step s (.flag i) = some s') : Quiet s' := by
  obtain ⟨t, hi, hphase, hstep⟩ := exists_task hstep
  cases hstep
  exact q.setTask hi (by simp [hphase]) rfl rfl id

theorem quiet_step (h' : Inv s') (q : Quiet s) {act : Action} (hok : Settled s act)
    (hstep : step s act = some s') : Quiet s' := by
  cases act with
  | commit kind stale => exact quiet_commit q hstep
  | store => exact quiet_store q hstep
  | sync => exact quiet_sync h' q hok hstep
  | pop i => exact quiet_pop q hstep
  | report => exact quiet_report h' q hok hstep
  | return_ => exact quiet_return q hstep
  | start i valid => exact quiet_start q hstep
  | unroll i => exact quiet_unroll h' q hstep
  | receive i => exact quiet_receive h' q hok hstep
  | activate i => exact quiet_activate q hstep
  | count i => exact quiet_count q hok hstep
  | flag i => exact quiet_flag q hstep

theorem Quiet.of_reachable
    (hs : system.ReachableWhen (fun s a => Accounted s a ∧ Settled s a) s) : Quiet s := by
  have hinv : ∀ {s}, system.ReachableWhen (fun s a => Accounted s a ∧ Settled s a) s → Inv s :=
    Inv.of_reachable fun _ _ hok => hok.1
  induction hs with
  | @start s₀ hinit =>
      have hnot : ∀ t ∈ s₀.tasks, t.phase = .finished := by
        intro t ht
        rw [hinit.tasks] at ht
        cases ht
      exact ⟨fun t ht _ => hnot t ht, fun _ => hnot⟩
  | next hs hok hstep ih => exact quiet_step (hinv (.next hs hok hstep)) ih hok.2 hstep

/-- A device thread has no step left in a task whose epilogue is over. -/
theorem Inv.step_eq_none (h : Inv s) {act : Action} (hact : act.device? = some i)
    (ha : s.tasks[i]? = some a) (hcomplete : a.Complete) (hfinished : a.phase = .finished) :
    step s act = none := by
  have hwf := h.tasks a (List.mem_of_getElem? ha)
  have htransfer : a.transfer ≠ .pending := by
    obtain ⟨kind, frame, phase, transfer, recycled⟩ := a
    cases kind <;> simp_all [Task.WellFormed, Task.Complete]
  cases act <;> simp_all [step, Action.device?]

/-- In every run in which the last increment is not one by an epilogue, a call of
`kaapi_sched_sync` finds the counters equal, and returns, only when every task of the frame has
been executed and every transfer is complete, and no device thread uses the tasks, the accesses or
the frame from then on. -/
theorem frame_completed
    (hs : system.ReachableWhen (fun s a => Accounted s a ∧ Settled s a) s) :
    (s.Completed → ∀ t ∈ s.tasks, t.Complete) ∧
      (s.pc = .running → s.cnt = 0 → ∀ t ∈ s.tasks, t.Complete) ∧
      (∀ t ∈ s.tasks, t.recycled = true → t.Complete) ∧
      ∀ act i, act.device? = some i → s.Completed ∨ (∃ t ∈ s.tasks[i]?, t.recycled = true) →
        step s act = none := by
  have h : Inv s := Inv.of_reachable (fun _ _ hok => hok.1) hs
  have q := Quiet.of_reachable hs
  refine ⟨h.complete, h.complete_of_return, h.recycled, fun act i hact hend => ?_⟩
  cases hi : s.tasks[i]? with
  | none => cases act <;> simp_all [step, Action.device?]
  | some t =>
      have ht := List.mem_of_getElem? hi
      rcases hend with hcompleted | ⟨t', ht', hr⟩
      · exact h.step_eq_none hact hi (h.complete hcompleted t ht) (q.completed hcompleted t ht)
      · rw [hi] at ht'
        obtain rfl := Option.some.inj ht'
        exact h.step_eq_none hact hi (h.recycled t ht hr) (q.recycled t ht hr)

/-- When an epilogue makes the last increment, its thread still writes the flags of the task, to
a stack that `kaapi_sched_sync` may give back at once. -/
theorem flag_of_lastIncrement (hi : s.tasks[i]? = some a) (ha : a.phase = .activated)
    (hframe : a.frame = true) (hlast : s.LastIncrement) :
    ∃ s', step s (.count i) = some s' ∧ s'.Completed ∧ step s' (.flag i) ≠ none := by
  refine ⟨s.countTask i { a with phase := .counted }, ?_, hlast, ?_⟩
  · simp only [step, hi, ha, hframe, if_true]
  · obtain ⟨hlt, -⟩ := List.getElem?_eq_some_iff.mp hi
    have hget : (s.countTask i { a with phase := .counted }).tasks[i]? =
        some { a with phase := .counted } := List.getElem?_set_self hlt
    simp only [step, hget, if_true]
    exact Option.some_ne_none _

/-- A frame of a thread that has committed no task. -/
def emptyFrame : State :=
  ⟨[], 0, 0, 0, .running⟩

theorem initial_emptyFrame : Initial emptyFrame :=
  ⟨rfl, rfl, rfl, rfl⟩

/-- A task and a write-back task, whose data arrives after the epilogues. -/
def writebackRun : List Action :=
  [.commit .compute false, .store, .commit .writeback false, .store, .sync, .report,
    .start 0 false, .activate 0, .count 0, .flag 0, .start 1 false, .activate 1, .count 1, .flag 1,
    .receive 1, .return_]

theorem frame_completed_writebackRun :
    ∃ s, system.replay (fun s a => Accounted s a ∧ Settled s a) emptyFrame writebackRun = some s ∧
      (∃ t ∈ s.tasks[1]?, t.kind = .writeback ∧ t.recycled = true) ∧
      (∀ t ∈ s.tasks, t.recycled = true → t.Complete) ∧ step s (.flag 1) = none := by
  let s := (system.replay (fun s a => Accounted s a ∧ Settled s a) emptyFrame writebackRun).get
    (by decide)
  have hrun : system.replay (fun s a => Accounted s a ∧ Settled s a) emptyFrame writebackRun =
      some s := (Option.some_get _).symm
  have hcompleted := frame_completed ((TransitionSystem.ReachableWhen.start
    initial_emptyFrame).replay hrun)
  exact ⟨s, hrun, by decide, hcompleted.2.2.1,
    hcompleted.2.2.2 (.flag 1) 1 rfl (.inr (by decide))⟩

/-- A task runs on a device, and its epilogue makes the last increment. -/
def computeRun : List Action :=
  [.commit .compute false, .store, .sync, .report, .start 0 false, .activate 0, .count 0, .return_]

/-- `kaapi_sched_sync` has returned and has given the stack back, and the device thread writes the
flags of the task. -/
theorem flag_after_return :
    ∃ s, system.Reachable s ∧ (∃ t ∈ s.tasks[0]?, t.recycled = true) ∧
      step s (.flag 0) ≠ none := by
  let s := (system.run emptyFrame computeRun).get (by decide)
  have hrun : system.run emptyFrame computeRun = some s := (Option.some_get _).symm
  have hs : system.Reachable s :=
    (TransitionSystem.ReachableWhen.start initial_emptyFrame).replay hrun
  exact ⟨s, hs, by decide, by decide⟩

end Settled

end Xkblas.Sched.Frame
