import Mathlib.Data.List.Range
import Xkblas.Library.RingBuffer
import Xkblas.Offload.Pipeline

/-!
# The pipeline is sound

The main theorem, `sound`, says that every state of every run of the pipeline is `Sound`. The
invariant `Inv` follows the index up to which kernels are launched, which is `p_ready` or the
index reached by the callback in the lock, and keeps the wait counter of every task equal to
the number of its transfers, plus the pseudo lock of the task that is being prepared.
-/

namespace Xkblas.Offload.Pipeline

open Library

-- the equations that the proofs below rewrite with are made once
section
attribute [local simp] step prepareExecuteTask callbackSetValid
end

/-! ## The invariant -/

namespace DevicePc

/-- The end of the part of the buffer that is written. -/
def written (pWrite : Nat) : DevicePc → Nat
  | .arm _ | .visit _ | .fetch _ => pWrite + 1
  | .idle | .disarm | .drain => pWrite

/-- What the device thread has added to the counter of task `i` on its own account. -/
def ownCount (pWrite i : Nat) : DevicePc → Int
  | .visit _ => if i = pWrite then 1 else 0
  | .fetch _ => if i = pWrite then 2 else 0
  | .disarm => if i + 1 = pWrite then 1 else 0
  | .idle | .arm _ | .drain => 0

/-- The accesses of the task under preparation that may still request a transfer. -/
def remaining : DevicePc → Nat
  | .arm left | .visit left => left
  | .fetch left => left + 1
  | .idle | .disarm | .drain => 0

end DevicePc

namespace State

/-- Kernels are launched up to this index. -/
def frontier (s : State) : Nat :=
  s.lock.getD s.pReady

/-- The content of the slot of task `i`. -/
def content (s : State) (i : Nat) : Option Nat :=
  if s.finished i then none else some i

/-- The slots hold the tasks that are not finished, and there is room for one more unless the
device thread has just inserted one. -/
structure Stored (s : State) (size : Nat) : Prop where
  fits : s.pc.written s.pWrite ≤ s.pFinish + size
  room : s.pc = .idle → s.pWrite < s.pFinish + size
  inserted : s.pc = .disarm → 0 < s.pWrite
  slots : Window s.pipeline size s.pFinish (s.pc.written s.pWrite) s.content

/-- The wait counter of a task is the number of its transfers, and what the device thread
holds on it. -/
structure Counted (s : State) : Prop where
  count : ∀ i, s.wc i = s.transfers i + s.pc.ownCount s.pWrite i
  fresh : ∀ i, s.pc.written s.pWrite ≤ i → s.transfers i = 0
  bounded : ∀ i, s.transfers i + (if i = s.pWrite then s.pc.remaining else 0) ≤ maxAccesses

end State

/-- The invariant of the runs. -/
structure Inv (size : Nat) (s : State) : Prop where
  finish_le : s.pFinish ≤ s.pReady
  ready_le : s.pReady ≤ s.frontier
  frontier_le : s.frontier ≤ s.pWrite
  stored : s.Stored size
  finished_of_lt : ∀ i < s.pFinish, s.finished i = true
  lt_of_finished : ∀ i, s.finished i = true → i < s.pReady
  launched : s.launched = List.range s.frontier
  counted : s.Counted
  complete : ∀ i < s.frontier, s.transfers i = 0 ∧ ¬ s.preparing i
  waiting : s.lock = none → s.pReady < s.pWrite → s.wc s.pReady = 0 → 0 < s.arrived s.pReady

theorem cudaConcKernel_pos (env : Option Int) : 0 < cudaConcKernel env := by
  cases env with
  | none => simp [cudaConcKernel]
  | some value =>
      simp only [cudaConcKernel]
      split <;> omega

theorem inv_initial {size : Nat} (hsize : 0 < size) : Inv size initial := by
  constructor
  case stored =>
    refine ⟨Nat.zero_le _, fun _ => by simpa [initial] using hsize, by simp [initial], ?_⟩
    intro i hlo hhi
    simp [initial, DevicePc.written] at hhi
  case counted =>
    refine ⟨fun _ => rfl, fun _ _ => rfl, ?_⟩
    intro i
    by_cases hi : i = 0 <;> simp [initial, DevicePc.remaining, hi]
  all_goals simp [initial, State.frontier]

/-- The wait counter stays in the range in which sixteen bits tell zero from the rest. -/
theorem State.Counted.isZero16_iff {s : State} (h : s.Counted) (i : Nat) :
    isZero16 (s.wc i) ↔ s.wc i = 0 := by
  have hcount := h.count i
  have hbounded := h.bounded i
  have hmax : maxAccesses = 21845 := rfl
  have hown : 0 ≤ s.pc.ownCount s.pWrite i ∧ s.pc.ownCount s.pWrite i ≤ 2 := by
    unfold DevicePc.ownCount
    split <;> (try split) <;> omega
  unfold isZero16
  omega

/-- A task of the pipeline whose counter is zero has its data. -/
theorem State.Counted.ready_of_zero {s : State} (h : s.Counted) {i : Nat}
    (hi : i < s.pWrite) (hzero : s.wc i = 0) : s.transfers i = 0 ∧ ¬ s.preparing i := by
  have hcount := h.count i
  rw [hzero] at hcount
  cases hpc : s.pc with
  | idle | drain =>
      simp only [DevicePc.ownCount, State.preparing, DevicePc.preparing, hpc] at hcount ⊢
      exact ⟨by omega, not_false⟩
  | arm left =>
      simp only [DevicePc.ownCount, State.preparing, DevicePc.preparing, hpc] at hcount ⊢
      exact ⟨by omega, by omega⟩
  | visit left | fetch left | disarm =>
      simp only [DevicePc.ownCount, State.preparing, DevicePc.preparing, hpc] at hcount ⊢
      split at hcount <;> exact ⟨by omega, by omega⟩

/-! ## The steps of the device thread -/

/-- A step that launches nothing keeps the invariant if it keeps the
slots, the counters and the transfers of the launched tasks. -/
theorem Inv.frame {size : Nat} {s t : State} (h : Inv size s) (hready : t.pReady = s.pReady)
    (hfinish : t.pFinish = s.pFinish) (hfrontier : t.frontier = s.frontier)
    (hlaunched : t.launched = s.launched) (hfinished : t.finished = s.finished)
    (hwrite : s.pWrite ≤ t.pWrite) (hstored : t.Stored size) (hcounted : t.Counted)
    (hcomplete : ∀ i < s.frontier, t.transfers i = 0 ∧ ¬ t.preparing i)
    (hwaiting : t.lock = none → t.pReady < t.pWrite → t.wc t.pReady = 0 →
      0 < t.arrived t.pReady) : Inv size t := by
  constructor
  case finish_le => rw [hfinish, hready]; exact h.finish_le
  case ready_le => rw [hfrontier, hready]; exact h.ready_le
  case frontier_le => rw [hfrontier]; exact h.frontier_le.trans hwrite
  case stored => exact hstored
  case finished_of_lt => rw [hfinish, hfinished]; exact h.finished_of_lt
  case lt_of_finished => rw [hready, hfinished]; exact h.lt_of_finished
  case launched => rw [hlaunched, hfrontier]; exact h.launched
  case counted => exact hcounted
  case complete => rw [hfrontier]; exact hcomplete
  case waiting => exact hwaiting

/-- The device thread writes the slot of the task it starts to prepare. -/
theorem inv_prepare {size count : Nat} {s t : State} (h : Inv size s)
    (hstep : prepareExecuteTask size s (.prepare count) = some t) : Inv size t := by
  have hfinish := h.finish_le
  have hready := h.ready_le
  have hfrontier := h.frontier_le
  simp only [prepareExecuteTask] at hstep
  split at hstep <;> cases hstep
  rename_i hpc
  obtain ⟨hpc, hmax⟩ := hpc
  have hroom := h.stored.room hpc
  refine h.frame rfl rfl rfl rfl rfl le_rfl ?_ ?_ ?_ h.waiting
  · refine ⟨hroom, by simp, by simp, ?_⟩
    have hslots := h.stored.slots
    simp only [hpc, DevicePc.written] at hslots
    refine (hslots.push (by omega) hroom (some s.pWrite)).congr ?_
    intro i _ _
    by_cases hi : i = s.pWrite
    · have hnot : s.finished i = false := by
        by_contra hfin
        have := h.lt_of_finished i (by simpa using hfin)
        omega
      simp [State.content, hi ▸ hnot, hi]
    · simp [hi, State.content]
  · obtain ⟨hcount, hfresh, hbounded⟩ := h.counted
    simp only [hpc, DevicePc.written, DevicePc.ownCount] at hcount hfresh
    refine ⟨hcount, fun i hi => hfresh i (Nat.le_of_succ_le hi), ?_⟩
    intro i
    have hb := hbounded i
    simp only [DevicePc.remaining]
    split
    · have := hfresh i (by omega)
      omega
    · omega
  · intro i hi
    refine ⟨(h.complete i hi).1, ?_⟩
    simp only [State.preparing, DevicePc.preparing]
    omega

/-- The device thread visits an access: only the counters of the task under preparation
change, and the slots and indices stay as they are. -/
theorem Inv.visit {size : Nat} {s t : State} (h : Inv size s) (hready : t.pReady = s.pReady)
    (hfinish : t.pFinish = s.pFinish) (hlock : t.lock = s.lock)
    (hlaunched : t.launched = s.launched) (hfinished : t.finished = s.finished)
    (hwrite : t.pWrite = s.pWrite) (hpipeline : t.pipeline = s.pipeline)
    (harrived : t.arrived = s.arrived)
    (hpcs : s.pc.written s.pWrite = s.pWrite + 1) (hpct : t.pc.written s.pWrite = s.pWrite + 1)
    (hoff : ∀ i, i ≠ s.pWrite → t.wc i = s.wc i ∧ t.transfers i = s.transfers i)
    (hself : t.wc s.pWrite = t.transfers s.pWrite + t.pc.ownCount s.pWrite s.pWrite)
    (hbounded : t.transfers s.pWrite + t.pc.remaining ≤
      s.transfers s.pWrite + s.pc.remaining) : Inv size t := by
  have howned : ∀ pc : DevicePc, pc.written s.pWrite = s.pWrite + 1 →
      ∀ i, i ≠ s.pWrite → pc.ownCount s.pWrite i = 0 := by
    intro pc hpc i hi
    cases pc <;> simp [DevicePc.written, DevicePc.ownCount, hi] at hpc ⊢
  have hpreparing : ∀ pc : DevicePc, pc.written s.pWrite = s.pWrite + 1 →
      ∀ i, pc.preparing s.pWrite i → i = s.pWrite := by
    intro pc hpc i hi
    cases pc <;> simp [DevicePc.written, DevicePc.preparing] at hpc hi <;> exact hi
  have hfrontier := h.frontier_le
  have hfrontier' : t.frontier = s.frontier := by
    simp only [State.frontier, hlock, hready]
  refine h.frame hready hfinish hfrontier' hlaunched hfinished hwrite.ge ?_ ?_ ?_ ?_
  · refine ⟨?_, ?_, ?_, ?_⟩
    · rw [hfinish, hwrite, hpct, ← hpcs]
      exact h.stored.fits
    · intro hidle
      simp [hidle, DevicePc.written] at hpct
    · intro hdisarm
      simp [hdisarm, DevicePc.written] at hpct
    · have hcontent : t.content = s.content := by
        funext i
        simp only [State.content, hfinished]
      rw [hpipeline, hfinish, hwrite, hpct, ← hpcs, hcontent]
      exact h.stored.slots
  · refine ⟨?_, ?_, ?_⟩
    · intro i
      rw [hwrite]
      by_cases hi : i = s.pWrite
      · rw [hi]
        exact hself
      · have hcount := h.counted.count i
        rw [(hoff i hi).1, (hoff i hi).2, howned _ hpct i hi, hcount, howned _ hpcs i hi]
    · intro i hi
      rw [hwrite, hpct] at hi
      rw [(hoff i (by omega)).2]
      exact h.counted.fresh i (by omega)
    · intro i
      have hb := h.counted.bounded i
      by_cases hi : i = s.pWrite
      · subst hi
        simp only [hwrite, ite_true] at hb ⊢
        omega
      · simp only [hwrite, hi, ite_false] at hb ⊢
        rw [(hoff i hi).2]
        exact hb
  · intro i hi
    have hne : i ≠ s.pWrite := by omega
    refine ⟨by rw [(hoff i hne).2]; exact (h.complete i hi).1, ?_⟩
    intro hp
    exact hne (hpreparing _ hpct i (by simpa only [State.preparing, hwrite] using hp))
  · rw [hlock, hready, hwrite, harrived]
    intro hfree hlt hzero
    have hne : s.pReady ≠ s.pWrite := by omega
    exact h.waiting hfree hlt (by rwa [(hoff _ hne).1] at hzero)

/-- The steps that visit the accesses of the task keep the invariant. -/
theorem inv_visit {size : Nat} {s t : State} {a : Action} (h : Inv size s)
    (ha : a = .arm ∨ a = .skip ∨ a = .incr ∨ a = .fetchPosted ∨ a = .fetchValid)
    (hstep : prepareExecuteTask size s a = some t) : Inv size t := by
  have hcount := h.counted.count s.pWrite
  rcases ha with rfl | rfl | rfl | rfl | rfl
  all_goals
    simp only [prepareExecuteTask] at hstep
    split at hstep <;> cases hstep
    rename_i hpc
    simp only [hpc, DevicePc.ownCount, ite_true] at hcount
    refine h.visit rfl rfl rfl rfl rfl rfl rfl rfl (by simp [hpc, DevicePc.written])
      (by simp [DevicePc.written]) ?_ ?_ ?_
    · intro i hi
      simp [hi]
    · simp [DevicePc.ownCount]
      omega
    · simp [hpc, DevicePc.remaining]
      try omega

/-- The task is inserted: `p_write` passes it. -/
theorem inv_publish {size : Nat} {s t : State} (h : Inv size s)
    (hstep : prepareExecuteTask size s .publish = some t) : Inv size t := by
  simp only [prepareExecuteTask] at hstep
  split at hstep <;> cases hstep
  rename_i hpc
  have hcount := h.counted.count
  have hfresh := h.counted.fresh
  have hbounded := h.counted.bounded
  have hfrontier := h.frontier_le
  simp only [hpc, DevicePc.written, DevicePc.ownCount] at hcount hfresh
  simp only [hpc, DevicePc.remaining] at hbounded
  refine h.frame rfl rfl rfl rfl rfl (Nat.le_succ _) ?_ ?_ ?_ ?_
  · have hfits := h.stored.fits
    have hslots := h.stored.slots
    simp only [hpc, DevicePc.written] at hfits hslots
    exact ⟨hfits, by simp, by simp, hslots⟩
  · refine ⟨?_, hfresh, ?_⟩
    · intro i
      simp only [DevicePc.ownCount, Nat.add_right_cancel_iff]
      exact hcount i
    · intro i
      have hb := hbounded i
      simp only [DevicePc.remaining]
      split <;> (split at hb <;> omega)
  · intro i hi
    refine ⟨(h.complete i hi).1, ?_⟩
    simp only [State.preparing, DevicePc.preparing]
    omega
  · intro hfree hlt hzero
    simp only at hlt hzero ⊢
    rcases Nat.lt_or_ge s.pReady s.pWrite with hold | hnew
    · exact h.waiting hfree hold hzero
    · have hc := hcount s.pReady
      rw [if_pos (by omega), hzero] at hc
      omega

/-- The device thread gives back the pseudo lock, and launches the kernel if it is the next
one and has its data. -/
theorem inv_disarm {size : Nat} {s t : State} (h : Inv size s)
    (hstep : prepareExecuteTask size s .disarm = some t) : Inv size t := by
  simp only [prepareExecuteTask] at hstep
  split at hstep
  case isFalse => cases hstep
  rename_i hpc
  obtain ⟨hpc, hfree⟩ := hpc
  have hpos := h.stored.inserted hpc
  have hfits := h.stored.fits
  have hslots := h.stored.slots
  have hcount := h.counted.count
  have hfresh := h.counted.fresh
  have hbounded := h.counted.bounded
  have hfrontier := h.frontier_le
  have hready := h.ready_le
  have hmax : maxAccesses = 21845 := rfl
  simp only [hpc, DevicePc.written] at hfits hslots hfresh
  simp only [hpc, DevicePc.ownCount] at hcount
  have hcounted : ∀ t : State, t.pc = .drain → t.pWrite = s.pWrite →
      t.wc = Function.update s.wc (s.pWrite - 1) (s.wc (s.pWrite - 1) - 1) →
      t.transfers = s.transfers → t.Counted := by
    intro t ht hwrite hwc htransfers
    refine ⟨?_, ?_, ?_⟩
    · intro i
      have hc := hcount i
      rw [hwc, htransfers, ht]
      simp only [DevicePc.ownCount]
      by_cases hi : i = s.pWrite - 1
      · subst hi
        rw [if_pos (by omega)] at hc
        simp
        omega
      · rw [if_neg (by omega)] at hc
        simp [hi, hc]
    · simpa only [ht, hwrite, htransfers, DevicePc.written] using hfresh
    · intro i
      have hb := hbounded i
      rw [htransfers, hwrite, ht]
      simp only [hpc, DevicePc.remaining] at hb ⊢
      exact hb
  split at hstep
  case isTrue hzero =>
    cases hstep
    obtain ⟨hzero, hnext⟩ := hzero
    have hown := hcount (s.pWrite - 1)
    have hown_bound := hbounded (s.pWrite - 1)
    rw [if_pos (by omega)] at hown
    have htransfers : s.transfers (s.pWrite - 1) = 0 := by
      unfold isZero16 at hzero
      omega
    have hold : s.frontier = s.pReady := by simp [State.frontier, hfree]
    constructor
    case finish_le => exact h.finish_le.trans (Nat.le_succ _)
    case ready_le => simp [State.frontier, hfree]
    case frontier_le =>
      simp only [State.frontier, hfree, Option.getD_none]
      omega
    case stored => exact ⟨hfits, by simp, by simp, hslots⟩
    case finished_of_lt => exact h.finished_of_lt
    case lt_of_finished => exact fun i hi => (h.lt_of_finished i hi).trans (Nat.lt_succ_self _)
    case launched =>
      simp only [State.frontier, hfree, Option.getD_none, List.range_succ]
      rw [h.launched, hold, hnext]
    case counted => exact hcounted _ rfl rfl rfl rfl
    case complete =>
      intro i hi
      simp only [State.frontier, hfree, Option.getD_none] at hi
      refine ⟨?_, by simp [State.preparing, DevicePc.preparing]⟩
      rcases Nat.lt_succ_iff_lt_or_eq.mp hi with hlt | heq
      · exact (h.complete i (by omega)).1
      · rw [heq, hnext]
        exact htransfers
    case waiting =>
      intro _ hlt
      simp only at hlt
      omega
  case isFalse hzero =>
    cases hstep
    refine h.frame rfl rfl rfl rfl rfl le_rfl ⟨hfits, by simp, by simp, hslots⟩
      (hcounted _ rfl rfl rfl rfl) ?_ ?_
    · exact fun i hi => ⟨(h.complete i hi).1, by simp [State.preparing, DevicePc.preparing]⟩
    · intro _ hlt hwc
      simp only at hlt hwc ⊢
      by_cases hi : s.pReady = s.pWrite - 1
      · refine absurd ⟨?_, hi⟩ hzero
        simp only [hi, Function.update_self] at hwc
        simp [isZero16, hwc]
      · rw [Function.update_of_ne hi] at hwc
        exact h.waiting hfree hlt hwc

/-- The loop that waits for room ends. -/
theorem inv_accept {size : Nat} {s t : State} (h : Inv size s)
    (hstep : prepareExecuteTask size s .accept = some t) : Inv size t := by
  simp only [prepareExecuteTask] at hstep
  split at hstep <;> cases hstep
  rename_i hpc
  obtain ⟨hpc, haccept⟩ := hpc
  have hfits := h.stored.fits
  have hslots := h.stored.slots
  obtain ⟨hcount, hfresh, hbounded⟩ := h.counted
  simp only [hpc, DevicePc.written] at hfits hslots hfresh
  simp only [hpc, DevicePc.ownCount] at hcount
  simp only [hpc, DevicePc.remaining] at hbounded
  refine h.frame rfl rfl rfl rfl rfl le_rfl ⟨hfits, fun _ => ?_, by simp, hslots⟩
    ⟨hcount, hfresh, hbounded⟩ ?_ h.waiting
  · have hroom := haccept.1
    show s.pWrite < s.pFinish + size
    omega
  · exact fun i hi => ⟨(h.complete i hi).1, by simp [State.preparing, DevicePc.preparing]⟩

/-! ## The steps of the callbacks -/

/-- A callback decrements the counter of its task and will enter the lock. -/
theorem inv_decr {size i : Nat} {s t : State} (h : Inv size s)
    (hstep : callbackSetValid size s (.decr i) = some t) : Inv size t := by
  simp only [callbackSetValid] at hstep
  split at hstep <;> cases hstep
  rename_i hpos
  have hstored := h.stored
  refine h.frame rfl rfl rfl rfl rfl le_rfl
    ⟨hstored.fits, hstored.room, hstored.inserted, hstored.slots⟩ ⟨?_, ?_, ?_⟩ ?_ ?_
  · intro j
    have hc := h.counted.count j
    by_cases hj : j = i
    · subst hj
      simp only [Function.update_self]
      omega
    · simpa [hj] using hc
  · intro j hj
    have hzero := h.counted.fresh j hj
    have hne : j ≠ i := by
      rintro rfl
      omega
    simpa [hne] using hzero
  · intro j
    have hb := h.counted.bounded j
    by_cases hj : j = i
    · subst hj
      simp only [Function.update_self]
      omega
    · simpa [hj] using hb
  · intro j hj
    obtain ⟨hzero, hprep⟩ := h.complete j hj
    have hne : j ≠ i := by
      rintro rfl
      omega
    exact ⟨by simpa [hne] using hzero, hprep⟩
  · intro hfree hlt hwc
    simp only at hfree hlt hwc ⊢
    by_cases hi : s.pReady = i
    · simp [hi]
    · rw [Function.update_of_ne hi] at hwc ⊢
      exact h.waiting hfree hlt hwc

/-- A callback enters the lock, and stays in it if its task is the next one. -/
theorem inv_enter {size i : Nat} {s t : State} (h : Inv size s)
    (hstep : callbackSetValid size s (.enter i) = some t) : Inv size t := by
  simp only [callbackSetValid] at hstep
  split at hstep <;> cases hstep
  rename_i hfree
  obtain ⟨hfree, harrived⟩ := hfree
  have hstored := h.stored
  have hcounted := h.counted
  refine h.frame rfl rfl ?_ rfl rfl le_rfl
    ⟨hstored.fits, hstored.room, hstored.inserted, hstored.slots⟩
    ⟨hcounted.count, hcounted.fresh, hcounted.bounded⟩ h.complete ?_
  · by_cases hi : i = s.pReady <;> simp [State.frontier, hfree, hi]
  · intro hout hlt hwc
    simp only at hout hlt hwc ⊢
    split at hout
    case isTrue => cases hout
    case isFalse hi =>
      rw [Function.update_of_ne (Ne.symm hi)]
      exact h.waiting hfree hlt hwc

/-- A callback leaves the lock at the first task that is not ready. -/
theorem Inv.leave {size index : Nat} {s : State} (h : Inv size s) (hlock : s.lock = some index)
    (hstop : index < s.pWrite → s.wc index ≠ 0) :
    Inv size { s with lock := none, pReady := index } := by
  have hfrontier : s.frontier = index := by simp [State.frontier, hlock]
  have hready := h.ready_le
  have hstored := h.stored
  have hcounted := h.counted
  have hcomplete := h.complete
  rw [hfrontier] at hcomplete
  constructor
  case finish_le => exact h.finish_le.trans (hfrontier ▸ hready)
  case ready_le => simp [State.frontier]
  case frontier_le => simpa [State.frontier, hlock] using h.frontier_le
  case stored => exact ⟨hstored.fits, hstored.room, hstored.inserted, hstored.slots⟩
  case finished_of_lt => exact h.finished_of_lt
  case lt_of_finished =>
    intro i hi
    have := h.lt_of_finished i hi
    show i < index
    omega
  case launched => simpa [State.frontier, hlock] using h.launched
  case counted => exact ⟨hcounted.count, hcounted.fresh, hcounted.bounded⟩
  case complete => exact hcomplete
  case waiting => exact fun _ hlt hzero => absurd hzero (hstop hlt)

/-- One turn of the loop of a callback. -/
theorem inv_advance {size : Nat} {s t : State} (h : Inv size s)
    (hstep : callbackSetValid size s .advance = some t) : Inv size t := by
  simp only [callbackSetValid] at hstep
  split at hstep
  case h_1 => cases hstep
  case h_2 index hlock =>
    have hfrontier : s.frontier = index := by simp [State.frontier, hlock]
    have hready := h.ready_le
    have hfinish := h.finish_le
    have hstored := h.stored
    have hcounted := h.counted
    split at hstep
    case isFalse hge =>
      cases hstep
      exact h.leave hlock (fun hlt => absurd hlt hge)
    case isTrue hlt =>
      have hnot : s.finished index = false := by
        by_contra hfin
        have := h.lt_of_finished index (by simpa using hfin)
        omega
      have hwritten : index < s.pc.written s.pWrite := by
        cases s.pc <;> simp only [DevicePc.written] <;> omega
      have hslot := h.stored.slots index (by omega) hwritten
      simp only [State.content, hnot, Bool.false_eq_true, if_false] at hslot
      simp only [hslot] at hstep
      split at hstep
      case isFalse hwc =>
        cases hstep
        refine h.leave hlock (fun _ hzero => hwc ?_)
        exact (h.counted.isZero16_iff index).mpr hzero
      case isTrue hwc =>
        cases hstep
        have hzero := (h.counted.isZero16_iff index).mp hwc
        constructor
        case finish_le => exact hfinish
        case ready_le =>
          simp only [State.frontier, Option.getD_some]
          omega
        case frontier_le =>
          simp only [State.frontier, Option.getD_some]
          exact hlt
        case stored => exact ⟨hstored.fits, hstored.room, hstored.inserted, hstored.slots⟩
        case finished_of_lt => exact h.finished_of_lt
        case lt_of_finished => exact h.lt_of_finished
        case launched =>
          simp only [State.frontier, Option.getD_some, List.range_succ]
          rw [h.launched, hfrontier]
        case counted => exact ⟨hcounted.count, hcounted.fresh, hcounted.bounded⟩
        case complete =>
          intro i hi
          simp only [State.frontier, Option.getD_some] at hi
          rcases Nat.lt_succ_iff_lt_or_eq.mp hi with hold | heq
          · exact h.complete i (by omega)
          · rw [heq]
            exact h.counted.ready_of_zero hlt hzero
        case waiting => intro hout; cases hout

/-! ## The epilogue of a kernel -/

/-- The loop of the epilogue stays in its range and passes empty slots only. -/
theorem skipFinished_spec (pipeline : Nat → Option Nat) (size fuel index : Nat) :
    index ≤ skipFinished pipeline size fuel index ∧
      skipFinished pipeline size fuel index ≤ index + fuel ∧
      ∀ j, index ≤ j → j < skipFinished pipeline size fuel index →
        pipeline (j % size) = none := by
  induction fuel generalizing index with
  | zero =>
      simp only [skipFinished]
      exact ⟨le_rfl, le_rfl, fun j hlo hhi => by omega⟩
  | succ fuel ih =>
      simp only [skipFinished]
      split
      case isTrue hempty =>
        obtain ⟨hlo, hhi, hnone⟩ := ih (index + 1)
        refine ⟨by omega, by omega, ?_⟩
        intro j hj hlt
        rcases Nat.eq_or_lt_of_le hj with rfl | hj
        · exact hempty
        · exact hnone j hj hlt
      case isFalse => exact ⟨le_rfl, by omega, fun j hlo hhi => by omega⟩

/-- A kernel ends: its slot is freed, and `p_finish` passes the finished tasks. -/
theorem inv_epilogue {size i : Nat} {s t : State} (h : Inv size s)
    (hstep : callbackEpilogue size s i = some t) : Inv size t := by
  simp only [callbackEpilogue] at hstep
  split at hstep
  case isFalse => cases hstep
  case isTrue hend =>
  obtain ⟨hlaunched, hrunning, hfree⟩ := hend
  have hfrontier : s.frontier = s.pReady := by simp [State.frontier, hfree]
  rw [h.launched, hfrontier, List.mem_range] at hlaunched
  have hstarted : s.pFinish ≤ i := by
    by_contra hlt
    have := h.finished_of_lt i (by omega)
    simp [hrunning] at this
  have hfinish := h.finish_le
  have hready := h.frontier_le
  have hstored := h.stored
  have hcounted := h.counted
  have hwritten : s.pWrite ≤ s.pc.written s.pWrite := by
    cases s.pc <;> simp [DevicePc.written]
  have hslots : Window (Function.update s.pipeline (i % size) none) size s.pFinish
      (s.pc.written s.pWrite) (fun j => if Function.update s.finished i true j then none
        else some j) := by
    refine (hstored.slots.set hstored.fits hstarted (by omega) none).congr ?_
    intro j _ _
    by_cases hj : j = i <;> simp [hj, State.content]
  -- the new finish index passes only tasks whose slots are empty, hence finished
  obtain ⟨pFinish, hpFinish, hlo, hhi, hpassed⟩ : ∃ pFinish,
      t = { s with
        finished := Function.update s.finished i true
        pipeline := Function.update s.pipeline (i % size) none
        pFinish := pFinish } ∧ s.pFinish ≤ pFinish ∧ pFinish ≤ s.pReady ∧
      ∀ j, s.pFinish ≤ j → j < pFinish → Function.update s.finished i true j = true := by
    cases hstep
    refine ⟨_, rfl, ?_⟩
    split
    case isFalse => exact ⟨le_rfl, hfinish, fun j hj hlt => by omega⟩
    case isTrue heq =>
      obtain ⟨hge, hle, hnone⟩ := skipFinished_spec
        (Function.update s.pipeline (i % size) none) size (s.pReady - (s.pFinish + 1))
        (s.pFinish + 1)
      refine ⟨by omega, by omega, ?_⟩
      intro j hj hlt
      rcases Nat.eq_or_lt_of_le hj with rfl | hj
      · simp [heq]
      · have hslot := hslots j (by omega) (by omega)
        rw [hnone j hj hlt] at hslot
        by_contra hrun
        simp [hrun] at hslot
  subst hpFinish
  constructor
  case finish_le => exact hhi
  case ready_le => exact h.ready_le
  case frontier_le => exact h.frontier_le
  case stored =>
    have hfits := hstored.fits
    refine ⟨hfits.trans (by simp only; omega), fun hidle => ?_, hstored.inserted,
      hslots.drop hlo⟩
    have hroom := hstored.room hidle
    simp only
    omega
  case finished_of_lt =>
    intro j hj
    rcases Nat.lt_or_ge j s.pFinish with hold | hnew
    · have hfin := h.finished_of_lt j hold
      have hne : j ≠ i := by omega
      simpa [hne] using hfin
    · exact hpassed j hnew hj
  case lt_of_finished =>
    intro j hj
    by_cases hji : j = i
    · subst hji
      exact hlaunched
    · exact h.lt_of_finished j (by simpa [hji] using hj)
  case launched => exact h.launched
  case counted => exact ⟨hcounted.count, hcounted.fresh, hcounted.bounded⟩
  case complete => exact h.complete
  case waiting => exact h.waiting

theorem inv_step {size : Nat} {s t : State} {a : Action} (h : Inv size s)
    (hstep : step size s a = some t) : Inv size t := by
  cases a with
  | prepare count => exact inv_prepare h hstep
  | arm => exact inv_visit (a := .arm) h (by simp) hstep
  | skip => exact inv_visit (a := .skip) h (by simp) hstep
  | incr => exact inv_visit (a := .incr) h (by simp) hstep
  | fetchPosted => exact inv_visit (a := .fetchPosted) h (by simp) hstep
  | fetchValid => exact inv_visit (a := .fetchValid) h (by simp) hstep
  | publish => exact inv_publish h hstep
  | disarm => exact inv_disarm h hstep
  | accept => exact inv_accept h hstep
  | decr i => exact inv_decr h hstep
  | enter i => exact inv_enter h hstep
  | advance => exact inv_advance h hstep
  | epilogue i => exact inv_epilogue h hstep

/-! ## Main result -/

/-- A state of the invariant is sound. -/
theorem Inv.toSound {size : Nat} {s : State} (h : Inv size s) : Sound size s := by
  have hready := h.ready_le
  have hfrontier := h.frontier_le
  have hfinish := h.finish_le
  have hwritten : s.pWrite ≤ s.pc.written s.pWrite := by
    cases s.pc <;> simp [DevicePc.written]
  constructor
  case inOrder =>
    conv_lhs => rw [h.launched]
    rw [h.launched, List.length_range]
  case dataReady =>
    intro i hi
    rw [h.launched, List.mem_range] at hi
    obtain ⟨hzero, hprep⟩ := h.complete i hi
    exact ⟨by omega, hzero, hprep⟩
  case finish_le_ready => exact hfinish
  case ready_le_write => omega
  case write_le => exact hwritten.trans h.stored.fits
  case slots =>
    intro i hi hrun
    have hlo : s.pFinish ≤ i := by
      by_contra hlt
      have := h.finished_of_lt i (by omega)
      simp [hrun] at this
    have hhi : i < s.pc.written s.pWrite := by
      rcases hi with hi | hi
      · omega
      · unfold State.preparing at hi
        cases hpc : s.pc <;> simp only [hpc, DevicePc.preparing, DevicePc.written] at hi ⊢ <;>
          omega
    simpa [State.content, hrun] using h.stored.slots i hlo hhi
  case launchedAll =>
    rintro ⟨hfree, harrived, _⟩ hzero
    have hall : s.pReady = s.pWrite := by
      by_contra hne
      have hlt : s.pReady < s.pWrite := by omega
      have := h.waiting hfree hlt (hzero _ hlt)
      simp [harrived] at this
    refine ⟨hall, ?_⟩
    rw [h.launched]
    simp [State.frontier, hfree, hall]

/-- Every state of every run of the pipeline is sound: kernels are launched in index order and
once each, with their data; the indices are ordered and the slots of unfinished tasks kept;
and in a quiescent state with all counters zero every kernel is launched. -/
theorem sound {env : Option Int} {s : State} (h : (system env).Reachable s) :
    Sound (cudaConcKernel env) s := by
  have hinv : Inv (cudaConcKernel env) s := by
    refine h.invariant ?_ ?_
    · rintro _ rfl
      exact inv_initial (cudaConcKernel_pos env)
    · intro _ _ _ hs _ hstep
      exact inv_step hs hstep
  exact hinv.toSound

/-- Two tasks in a buffer of one slot: the transfer of the first one completes before its
counter is armed, and the second one waits for its transfer. -/
def twoTasksRun : List Action :=
  [.prepare 1, .arm, .incr, .fetchPosted, .decr 0, .enter 0, .advance, .publish, .disarm,
    .epilogue 0, .accept, .prepare 1, .arm, .incr, .fetchPosted, .publish, .disarm,
    .decr 1, .enter 1, .advance, .advance]

theorem sound_twoTasksRun :
    ∃ s, (system (some 1)).run initial twoTasksRun = some s ∧ s.launched = [0, 1] ∧
      Sound (cudaConcKernel (some 1)) s := by
  refine ⟨((system (some 1)).run initial twoTasksRun).get (by decide), by simp, by decide, ?_⟩
  exact sound (TransitionSystem.ReachableWhen.replay (.start rfl) (Option.some_get _).symm)

end Xkblas.Offload.Pipeline
