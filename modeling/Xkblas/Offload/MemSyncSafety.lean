import Xkblas.Library.FiniteSum
import Xkblas.Offload.MemSync

/-!
# The memory synchronisation completes

The main theorem, `synchronised`, says that in the runs where the client consumes the reply
of a device only when the device is settled, `kaapi_offload_synchronize` returns with every
counted write-back received, the slots stay empty until the next call, and a call can always
be completed. The invariant `Inv` describes each device by the phase of the client and
writes the counter as the sum of the contributions of the devices.
-/

namespace Xkblas.Offload.MemSync

open Library Finset

/-! ## The invariant -/

/-- How far the client has come with a device: before the request or after its reply, after
the increment of the counter, after the pointer is set, or after the post. -/
inductive Phase where
  | out
  | added
  | pointed
  | posted
  deriving DecidableEq, Repr

/-- The phase of device `d`. -/
def ClientPc.phase : ClientPc → Nat → Phase
  | .idle, _ => .out
  | .add i, d => if d < i then .posted else .out
  | .setCounter i, d => if d < i then .posted else if d = i then .added else .out
  | .post i, d => if d < i then .posted else if d = i then .pointed else .out
  | .wait i, d => if d < i then .out else .posted

/-- The index of the client is that of a device, or one past the last. -/
def ClientPc.inRange (n : Nat) : ClientPc → Prop
  | .idle => True
  | .add i | .wait i => i ≤ n
  | .setCounter i | .post i => i < n

namespace Device

/-- No write-back is in flight and no callback is running. -/
@[grind] def silent (dev : Device) : Prop :=
  dev.inFlight = 0 ∧ dev.decrementing = 0 ∧ dev.replying = 0 ∧ dev.sentMsg = 0

/-- The request is posted and the device has not started to serve it. -/
@[grind] def waiting (dev : Device) : Prop :=
  dev.op = .memsync ∧ dev.silent ∧
    (dev.pc = .poll ∨ dev.pc = .waitTest ∨ dev.pc = .waitRead ∨ dev.pc = .startWriteback)

/-- The device sends its write-backs and has not yet withdrawn its contribution. -/
@[grind] def counting (dev : Device) : Prop :=
  dev.op = .writeback ∧ dev.replying = 0 ∧ dev.sentMsg < 2 ^ 32 ∧
    (dev.pc = .testCounter ∧ dev.sentMsg = 0 ∨ dev.pc = .sending ∨ dev.pc = .addSent ∨
      dev.pc = .subPending ∧ dev.sentMsg = 0)

/-- The reply is made, or about to be made. -/
@[grind] def answered (dev : Device) : Prop :=
  dev.op = .reply ∨ 0 < dev.replying ∨ dev.pc = .reply ∨ dev.pc = .replyWait

/-- The device has withdrawn its contribution and waits for its write-backs, which are all
received once it answers. -/
@[grind] def served (dev : Device) : Prop :=
  dev.sentMsg = 0 ∧
    ((dev.pc = .reply ∨ dev.pc = .setWait) ∧
        (dev.op = .writeback ∨ dev.op = .reply) ∨
      (dev.pc = .poll ∨ dev.pc = .waitTest ∨ dev.pc = .waitRead ∨ dev.pc = .replyWait) ∧
        (dev.op = .writebackWait ∨ dev.op = .reply)) ∧
    (dev.answered → dev.outstanding = 0)

/-- What the phase of the client says about a device. -/
@[grind] def consistent (dev : Device) : Phase → Prop
  | .out | .added =>
      dev.op = .nop ∧ dev.counterSet = false ∧ dev.silent ∧
        (dev.pc = .poll ∨ dev.pc = .waitTest)
  | .pointed =>
      dev.op = .nop ∧ dev.counterSet = true ∧ dev.silent ∧
        (dev.pc = .poll ∨ dev.pc = .waitTest ∨ dev.pc = .waitRead)
  | .posted => dev.counterSet = true ∧ (dev.waiting ∨ dev.counting ∨ dev.served)

/-- The contribution `2^32` of the device is in the counter. -/
@[grind] def pending (dev : Device) : Phase → Bool
  | .out => false
  | .added | .pointed => true
  | .posted =>
      dev.op = .memsync ∨ dev.pc = .testCounter ∨ dev.pc = .sending ∨ dev.pc = .addSent ∨
        dev.pc = .subPending

/-- The part of the counter that is due to the device. -/
@[grind] def contribution (dev : Device) (phase : Phase) : Int :=
  (if dev.pending phase then pendingDevice else 0) + dev.outstanding - dev.sentMsg

end Device

/-- The invariant of the timely runs. -/
structure Inv (n : Nat) (s : State) : Prop where
  inRange : s.client.inRange n
  consistent : ∀ d < n, (s.devices d).consistent (s.client.phase d)
  counter : s.counter = ∑ d ∈ range n, (s.devices d).contribution (s.client.phase d)

/-- No device takes more than its contribution out of the counter. -/
theorem contribution_nonneg {dev : Device} {phase : Phase} (h : dev.consistent phase) :
    0 ≤ dev.contribution phase := by
  cases phase <;> grind

/-- The contribution of one device is at most the counter. -/
theorem Inv.contribution_le {n : Nat} {s : State} (h : Inv n s) {d : Nat} (hd : d < n) :
    (s.devices d).contribution (s.client.phase d) ≤ s.counter := by
  rw [h.counter]
  exact single_le_sum
    (f := fun e => (s.devices e).contribution (s.client.phase e))
    (fun e he => contribution_nonneg (h.consistent e (mem_range.mp he))) (mem_range.mpr hd)

/-- The invariant after a step that changes one device and the phase of that device only. -/
theorem Inv.update {n : Nat} {s : State} (h : Inv n s) {client : ClientPc} {counter : Int}
    {d : Nat} {dev : Device} (hd : d < n) (hrange : client.inRange n)
    (hphase : ∀ e < n, e ≠ d → client.phase e = s.client.phase e)
    (hdev : dev.consistent (client.phase d))
    (hcounter : counter = s.counter + dev.contribution (client.phase d) -
      (s.devices d).contribution (s.client.phase d)) :
    Inv n ⟨client, counter, Function.update s.devices d dev⟩ := by
  constructor
  case inRange => exact hrange
  case consistent =>
    intro e he
    by_cases hed : e = d
    · subst hed
      simpa using hdev
    · simpa [hed, hphase e he hed] using h.consistent e he
  case counter =>
    have hsum := sum_range_add_of_eq_off hd
      (u := fun e => (Function.update s.devices d dev e).contribution (client.phase e))
      (v := fun e => (s.devices e).contribution (s.client.phase e))
      (fun e he hed => by rw [Function.update_of_ne hed, hphase e he hed])
    have hold := h.counter
    simp only [Function.update_self] at hsum
    show counter =
      ∑ e ∈ range n, (Function.update s.devices d dev e).contribution (client.phase e)
    omega

/-- The invariant after a step of a device thread or of a callback. -/
theorem Inv.setDevice {n : Nat} {s : State} (h : Inv n s) {counter : Int} {d : Nat}
    {dev : Device} (hd : d < n) (hdev : dev.consistent (s.client.phase d))
    (hcounter : counter = s.counter + dev.contribution (s.client.phase d) -
      (s.devices d).contribution (s.client.phase d)) :
    Inv n ({ s with counter := counter }.setDevice d dev) :=
  h.update hd h.inRange (fun _ _ _ => rfl) hdev hcounter

theorem inv_initial (n : Nat) : Inv n initial := by
  constructor
  case inRange => trivial
  case consistent =>
    intro d _
    simp [initial, ClientPc.phase, Device.consistent, Device.initial, Device.silent]
  case counter =>
    simp [initial, ClientPc.phase, Device.contribution, Device.pending, Device.initial,
      Device.outstanding]

/-! ## The steps keep the invariant -/

/-- Outside a call the counter of the last call is spent. -/
theorem Inv.counter_idle {n : Nat} {s : State} (h : Inv n s) (hidle : s.client = .idle) :
    s.counter = 0 := by
  rw [h.counter]
  refine sum_eq_zero ?_
  intro d hd
  have hdev := h.consistent d (mem_range.mp hd)
  rw [hidle] at hdev ⊢
  obtain ⟨_, _, ⟨hin, hdecr, _, hsent⟩, _⟩ := hdev
  simp [ClientPc.phase, Device.contribution, Device.pending, Device.outstanding, hin, hdecr,
    hsent]

/-- The client moves to a program point with the same phases. -/
theorem Inv.setClient {n : Nat} {s : State} (h : Inv n s) {client : ClientPc}
    (hrange : client.inRange n) (hphase : ∀ d < n, client.phase d = s.client.phase d) :
    Inv n { s with client := client } := by
  constructor
  case inRange => exact hrange
  case consistent =>
    intro d hd
    simpa only [hphase d hd] using h.consistent d hd
  case counter =>
    show s.counter = _
    rw [h.counter]
    refine sum_congr rfl ?_
    intro d hd
    rw [hphase d (mem_range.mp hd)]

theorem inv_client {n : Nat} {s t : State} (h : Inv n s) (hok : Timely n s .client)
    (hstep : clientStep n s = some t) : Inv n t := by
  have hrange := h.inRange
  unfold clientStep at hstep
  split at hstep
  case h_1 => cases hstep
  case h_2 i hi =>
    rw [hi] at hrange
    split at hstep <;> cases hstep
    case isTrue hlt =>
      have hdev := h.consistent i hlt
      rw [← Function.update_eq_self i s.devices]
      refine h.update hlt hlt ?_ ?_ ?_
      · intro e _ he
        simp [hi, ClientPc.phase, he]
      · simpa [hi, ClientPc.phase, Device.consistent] using hdev
      · simp only [hi, ClientPc.phase, Device.contribution, Device.pending]
        simp
        omega
    case isFalse hge =>
      refine h.setClient (Nat.zero_le n) ?_
      intro d hd
      have : d < i := by omega
      simp [hi, ClientPc.phase, this]
  case h_3 i hi =>
    rw [hi] at hrange
    cases hstep
    have hdev := h.consistent i hrange
    simp only [hi, ClientPc.phase, lt_irrefl, ite_false, ite_true] at hdev
    obtain ⟨hop, hset, hsilent, hpc⟩ := hdev
    refine h.update hrange hrange ?_ ?_ ?_
    · intro e _ he
      simp [hi, ClientPc.phase, he]
    · simp only [ClientPc.phase, lt_irrefl, ite_false, ite_true]
      exact ⟨hop, rfl, hsilent, hpc.imp id .inl⟩
    · simp [hi, ClientPc.phase, Device.contribution, Device.pending, Device.outstanding]
  case h_4 i hi =>
    rw [hi] at hrange
    split at hstep <;> cases hstep
    have hdev := h.consistent i hrange
    simp only [hi, ClientPc.phase, lt_irrefl, ite_false, ite_true] at hdev
    obtain ⟨hop, hset, hsilent, hpc⟩ := hdev
    refine h.update hrange hrange ?_ ?_ ?_
    · intro e _ he
      have hle : e < i + 1 ↔ e < i := by omega
      simp [hi, ClientPc.phase, he, hle]
    · simp only [ClientPc.phase, Nat.lt_succ_self, ite_true]
      refine ⟨hset, .inl ⟨rfl, hsilent, ?_⟩⟩
      rcases hpc with hpc | hpc | hpc <;> simp [hpc]
    · simp [hi, ClientPc.phase, Device.contribution, Device.pending, Device.outstanding]
  case h_5 i hi =>
    rw [hi] at hrange
    simp only [Timely, hi] at hok
    split at hstep
    case isTrue hlt =>
      split at hstep <;> cases hstep
      rename_i hreply
      obtain ⟨hpc, hquiet⟩ := hok hlt
      have hdev := h.consistent i hlt
      simp only [hi, ClientPc.phase, lt_irrefl, ite_false] at hdev
      obtain ⟨_, hwait | hcount | hserved⟩ := hdev
      · simp [hwait.1] at hreply
      · simp [hcount.1] at hreply
      · have hout := hserved.2.2 (.inl hreply)
        have hin : (s.devices i).inFlight = 0 ∧ (s.devices i).decrementing = 0 := by
          simpa [Device.outstanding] using hout
        refine h.update hlt hlt ?_ ?_ ?_
        · intro e _ he
          have hle : e < i + 1 ↔ e < i := by omega
          simp [hi, ClientPc.phase, hle]
        · simp only [ClientPc.phase, Nat.lt_succ_self, ite_true]
          exact ⟨rfl, rfl, ⟨hin.1, hin.2, hquiet, hserved.1⟩, hpc⟩
        · rcases hpc with hpc | hpc <;>
            simp [hi, ClientPc.phase, Device.contribution, Device.pending, Device.outstanding,
              hreply, hpc]
    case isFalse hge =>
      cases hstep
      refine h.setClient trivial ?_
      intro d hd
      have : d < i := by omega
      simp [hi, ClientPc.phase, this]

/-- The program point of a device thread determines its stage, and with it the contribution
that the step adds to the counter or takes from it. -/
theorem inv_device {n d : Nat} {s t : State} (h : Inv n s) (hd : d < n)
    (hstep : deviceStep s d = some t) : Inv n t := by
  have hdev := h.consistent d hd
  have hle := h.contribution_le hd
  unfold deviceStep at hstep
  simp only at hstep
  split at hstep
  case h_1 hpc =>
    split at hstep <;> cases hstep
    all_goals
      refine h.setDevice hd ?_ ?_ <;> cases hph : s.client.phase d <;> rw [hph] at hdev
      all_goals grind
  case h_6 hpc =>
    split at hstep
    case' isFalse => split at hstep
    all_goals cases hstep
    all_goals
      refine h.setDevice hd ?_ ?_ <;> cases hph : s.client.phase d <;> rw [hph] at hdev
      all_goals grind
  all_goals
    try split at hstep
    all_goals cases hstep
    all_goals
      refine h.setDevice hd ?_ ?_ <;> cases hph : s.client.phase d <;> rw [hph] at hdev hle
      all_goals grind

theorem inv_send {n d : Nat} {s t : State} (h : Inv n s) (hd : d < n)
    (hok : Timely n s (.send d)) (hstep : send s d = some t) : Inv n t := by
  have hdev := h.consistent d hd
  have hbound : (s.devices d).sentMsg + 1 < 2 ^ 32 := hok
  simp only [send] at hstep
  split at hstep <;> cases hstep
  refine h.setDevice hd ?_ ?_ <;> cases hph : s.client.phase d <;> rw [hph] at hdev
  all_goals grind

theorem inv_callbackTest {n d : Nat} {s t : State} (h : Inv n s) (hd : d < n)
    (hstep : callbackTest s d = some t) : Inv n t := by
  have hdev := h.consistent d hd
  simp only [callbackTest] at hstep
  split at hstep
  case isFalse => cases hstep
  split at hstep <;> cases hstep
  all_goals
    refine h.setDevice hd ?_ ?_ <;> cases hph : s.client.phase d <;> rw [hph] at hdev
    all_goals grind

/-- A callback that brings the counter to zero is the last one of its device. -/
theorem inv_callbackDecr {n d : Nat} {s t : State} (h : Inv n s) (hd : d < n)
    (hstep : callbackDecr s d = some t) : Inv n t := by
  have hdev := h.consistent d hd
  have hle := h.contribution_le hd
  simp only [callbackDecr] at hstep
  split at hstep <;> cases hstep
  refine h.setDevice hd ?_ ?_ <;> cases hph : s.client.phase d <;> rw [hph] at hdev hle
  all_goals grind

theorem inv_callbackReply {n d : Nat} {s t : State} (h : Inv n s) (hd : d < n)
    (hstep : callbackReply s d = some t) : Inv n t := by
  have hdev := h.consistent d hd
  simp only [callbackReply] at hstep
  split at hstep <;> cases hstep
  refine h.setDevice hd ?_ ?_ <;> cases hph : s.client.phase d <;> rw [hph] at hdev
  all_goals grind

theorem inv_step {n : Nat} {s t : State} {a : Action} (h : Inv n s) (hok : Timely n s a)
    (hstep : step n s a = some t) : Inv n t := by
  cases a with
  | call =>
      simp only [step] at hstep
      split at hstep <;> cases hstep
      rename_i hidle
      rw [← h.counter_idle hidle]
      refine h.setClient (Nat.zero_le n) ?_
      intro d _
      simp [hidle, ClientPc.phase]
  | client => exact inv_client h hok hstep
  | device d =>
      simp only [step] at hstep
      split at hstep
      case isTrue hd => exact inv_device h hd hstep
      case isFalse => cases hstep
  | send d =>
      simp only [step] at hstep
      split at hstep
      case isTrue hd => exact inv_send h hd hok hstep
      case isFalse => cases hstep
  | callbackTest d =>
      simp only [step] at hstep
      split at hstep
      case isTrue hd => exact inv_callbackTest h hd hstep
      case isFalse => cases hstep
  | callbackDecr d =>
      simp only [step] at hstep
      split at hstep
      case isTrue hd => exact inv_callbackDecr h hd hstep
      case isFalse => cases hstep
  | callbackReply d =>
      simp only [step] at hstep
      split at hstep
      case isTrue hd => exact inv_callbackReply h hd hstep
      case isFalse => cases hstep

/-! ## A call can always be completed -/

/-- The steps between the poll of an operation and the answer of the slot. -/
def polledRank : DeviceOp → Nat
  | .memsync => 21
  | .writebackWait => 10
  | .reply => 5
  | .nop | .writeback | .invalidateCaches => 0

/-- The steps that the thread of a device has still to make before its slot is answered. A
device that polls its slot is ranked by the operation it finds. -/
def Device.rank (dev : Device) : Nat :=
  match dev.pc with
  | .waitTest => polledRank dev.op + 4
  | .waitRead => polledRank dev.op + 2
  | .poll => polledRank dev.op
  | .startWriteback => 20
  | .testCounter => 19
  | .sending => 18
  | .addSent => 17
  | .subPending => 16
  | .reply => 15
  | .setWait => 14
  | .replyWait | .sendUncounted => 6

/-- The work left for a device and for the callbacks of its write-backs. -/
def Device.work (dev : Device) : Nat :=
  dev.rank + 3 * dev.inFlight + 2 * dev.decrementing + dev.replying

/-- The steps left for the client. -/
def ClientPc.rank (n : Nat) : ClientPc → Nat
  | .idle => 0
  | .add i => 3 * (n - i) + n + 2
  | .setCounter i => 3 * (n - i) + n + 1
  | .post i => 3 * (n - i) + n
  | .wait i => n - i + 1

/-- The work left in a call. Each step of the client is worth more than the work that a post
gives to a device. -/
def workLeft (n : Nat) (s : State) : Nat :=
  30 * s.client.rank n + ∑ d ∈ range n, (s.devices d).work

/-- Replacing one device changes the work left by the difference of its work. -/
theorem workLeft_update {n d : Nat} (s : State) (client : ClientPc) (counter : Int)
    (dev : Device) (hd : d < n) :
    workLeft n ⟨client, counter, Function.update s.devices d dev⟩ + (s.devices d).work +
        30 * s.client.rank n = workLeft n s + dev.work + 30 * client.rank n := by
  have hsum := sum_range_add_of_eq_off hd
    (u := fun e => (Function.update s.devices d dev e).work)
    (v := fun e => (s.devices e).work)
    (fun e _ hed => by rw [Function.update_of_ne hed])
  simp only [Function.update_self] at hsum
  simp only [workLeft]
  omega

/-- A step of a device or of a callback that leaves the device less work. -/
theorem workLeft_setDevice {n d : Nat} {s : State} {counter : Int} {dev : Device} (hd : d < n)
    (hless : dev.work < (s.devices d).work) :
    workLeft n ({ s with counter := counter }.setDevice d dev) < workLeft n s := by
  have hupdate := workLeft_update s s.client counter dev hd
  show workLeft n ⟨s.client, counter, Function.update s.devices d dev⟩ < workLeft n s
  omega

/-- A step of the client is worth more than the work it gives to a device. -/
theorem workLeft_client {n d : Nat} {s : State} {client : ClientPc} {dev : Device} (hd : d < n)
    (hrank : client.rank n < s.client.rank n) (hwork : dev.work ≤ (s.devices d).work + 21) :
    workLeft n ({ s with client := client }.setDevice d dev) < workLeft n s := by
  have hupdate := workLeft_update s client s.counter dev hd
  show workLeft n ⟨client, s.counter, Function.update s.devices d dev⟩ < workLeft n s
  omega

/-- The call comes closer to its end. -/
def Progress (n : Nat) (s : State) : Prop :=
  ∃ t, (system n).LeadsTo (Timely n) s t ∧ Inv n t ∧ workLeft n t < workLeft n s

theorem progress_of_step {n : Nat} {s t : State} {a : Action} (h : Inv n s)
    (hok : Timely n s a) (hstep : step n s a = some t) (hless : workLeft n t < workLeft n s) :
    Progress n s :=
  ⟨t, .single hok hstep, inv_step h hok hstep, hless⟩

/-- The counter pointer is set while callbacks or the thread of the device use it. -/
theorem Inv.counterSet {n d : Nat} {s : State} (h : Inv n s) (hd : d < n)
    (hbusy : 0 < (s.devices d).decrementing ∨ (s.devices d).pc = .addSent ∨
      (s.devices d).pc = .subPending ∨ (s.devices d).pc = .waitRead) :
    (s.devices d).counterSet = true := by
  have hdev := h.consistent d hd
  cases hph : s.client.phase d <;> rw [hph] at hdev <;> grind

/-- A write-back in flight is received. -/
theorem progress_callbackTest {n d : Nat} {s : State} (h : Inv n s) (hd : d < n)
    (hin : 0 < (s.devices d).inFlight) : Progress n s := by
  obtain ⟨t, hstep⟩ : ∃ t, callbackTest s d = some t := by
    simp only [callbackTest, hin, ite_true]
    split <;> exact ⟨_, rfl⟩
  refine progress_of_step (t := t) (a := .callbackTest d) h trivial (by simp [step, hd, hstep]) ?_
  simp only [callbackTest, hin, ite_true] at hstep
  split at hstep <;> cases hstep
  all_goals
    refine workLeft_setDevice hd ?_
    simp only [Device.work, Device.rank]
    omega

/-- A callback between its test and its decrement goes on. -/
theorem progress_callbackDecr {n d : Nat} {s : State} (h : Inv n s) (hd : d < n)
    (hdecr : 0 < (s.devices d).decrementing) : Progress n s := by
  have hset := h.counterSet hd (.inl hdecr)
  obtain ⟨t, hstep⟩ : ∃ t, callbackDecr s d = some t := by
    simp only [callbackDecr, hdecr, hset, and_self, ite_true]
    exact ⟨_, rfl⟩
  refine progress_of_step (t := t) (a := .callbackDecr d) h trivial (by simp [step, hd, hstep]) ?_
  simp only [callbackDecr, hdecr, hset, and_self, ite_true] at hstep
  cases hstep
  refine workLeft_setDevice hd ?_
  have hreplying : (if s.counter - 1 = 0 then (s.devices d).replying + 1
      else (s.devices d).replying) ≤ (s.devices d).replying + 1 := by
    split <;> omega
  simp only [Device.work, Device.rank]
  omega

/-- A callback about to reply goes on. -/
theorem progress_callbackReply {n d : Nat} {s : State} (h : Inv n s) (hd : d < n)
    (hreply : 0 < (s.devices d).replying) : Progress n s := by
  have hdev := h.consistent d hd
  have hserved : (s.devices d).op = .writebackWait ∨ (s.devices d).op = .reply ∨
      (s.devices d).pc = .reply ∨ (s.devices d).pc = .setWait := by
    cases hph : s.client.phase d <;> rw [hph] at hdev <;> grind
  obtain ⟨t, hstep⟩ : ∃ t, callbackReply s d = some t := by
    simp only [callbackReply, hreply, ite_true]
    exact ⟨_, rfl⟩
  refine progress_of_step (t := t) (a := .callbackReply d) h trivial (by simp [step, hd, hstep]) ?_
  simp only [callbackReply, hreply, ite_true] at hstep
  cases hstep
  refine workLeft_setDevice hd ?_
  rcases hserved with hop | hop | hpc | hpc
  · simp only [Device.work, Device.rank, hop, polledRank]
    split <;> omega
  · simp only [Device.work, Device.rank, hop, polledRank]
    split <;> omega
  · simp only [Device.work, Device.rank, hpc]
    omega
  · simp only [Device.work, Device.rank, hpc]
    omega

/-- A device thread inside the handling of its slot goes on. -/
theorem progress_device {n d : Nat} {s : State} (h : Inv n s) (hd : d < n)
    (hpc : (s.devices d).pc ≠ .poll) : Progress n s := by
  have hset := fun hbusy => h.counterSet hd (.inr hbusy)
  obtain ⟨t, hstep⟩ : ∃ t, deviceStep s d = some t := by
    simp only [deviceStep]
    split
    case h_1 hpoll => exact absurd hpoll hpc
    case h_6 hadd =>
      split
      · exact ⟨_, rfl⟩
      · simp only [hset (.inl hadd), ite_true]
        exact ⟨_, rfl⟩
    case h_7 hsub =>
      simp only [hset (.inr (.inl hsub)), ite_true]
      exact ⟨_, rfl⟩
    case h_11 hread =>
      simp only [hset (.inr (.inr hread)), ite_true]
      exact ⟨_, rfl⟩
    all_goals exact ⟨_, rfl⟩
  refine progress_of_step (t := t) (a := .device d) h trivial (by simp [step, hd, hstep]) ?_
  simp only [deviceStep] at hstep
  split at hstep
  case h_1 hpoll => exact absurd hpoll hpc
  case h_6 hadd =>
    split at hstep
    case' isFalse => simp only [hset (.inl hadd), ite_true] at hstep
    all_goals
      cases hstep
      refine workLeft_setDevice hd ?_
      simp only [Device.work, Device.rank, hadd]
      omega
  case h_7 hsub =>
    simp only [hset (.inr (.inl hsub)), ite_true] at hstep
    cases hstep
    refine workLeft_setDevice hd ?_
    by_cases hzero : s.counter - pendingDevice = 0
    · simp only [Device.work, Device.rank, hsub, if_pos hzero]
      omega
    · simp only [Device.work, Device.rank, hsub, if_neg hzero]
      omega
  case h_11 hread =>
    simp only [hset (.inr (.inr hread)), ite_true] at hstep
    cases hstep
    refine workLeft_setDevice hd ?_
    by_cases hzero : s.counter = 0
    · have hserved : 5 ≤ polledRank (s.devices d).op := by
        have hdev := h.consistent d hd
        have hle := h.contribution_le hd
        cases hph : s.client.phase d <;> rw [hph] at hdev hle <;> grind [polledRank]
      simp only [Device.work, Device.rank, hread, if_pos hzero]
      omega
    · simp only [Device.work, Device.rank, hread, if_neg hzero]
      omega
  case h_3 htest =>
    cases hstep
    refine workLeft_setDevice hd ?_
    cases hcounter : (s.devices d).counterSet <;>
      simp only [Device.work, Device.rank, htest, if_pos, Bool.false_eq_true, if_false] <;> omega
  case h_10 htest =>
    cases hstep
    refine workLeft_setDevice hd ?_
    cases hcounter : (s.devices d).counterSet <;>
      simp only [Device.work, Device.rank, htest, if_pos, Bool.false_eq_true, if_false] <;> omega
  all_goals
    rename_i hcase
    cases hstep
    refine workLeft_setDevice hd ?_
    simp only [Device.work, Device.rank, hcase, polledRank]
    omega

/-- The device answers a request whose write-backs are all received. -/
theorem progress_answer {n d : Nat} {s : State} (h : Inv n s) (hd : d < n)
    (hpc : (s.devices d).pc = .poll) (hop : (s.devices d).op = .writebackWait)
    (hset : (s.devices d).counterSet = true) (hzero : s.counter = 0) : Progress n s := by
  have hrun : (system n).LeadsTo (Timely n) s
      (s.setDevice d { s.devices d with op := .reply, pc := .poll }) := by
    have hpoll : (system n).LeadsTo (Timely n) s
        (s.setDevice d { s.devices d with pc := .waitTest }) :=
      .single (a := .device d) trivial (by simp [system, step, hd, deviceStep, hpc, hop])
    have htest : (system n).LeadsTo (Timely n) s
        (s.setDevice d { s.devices d with pc := .waitRead }) :=
      .next (a := .device d) hpoll trivial (by simp [system, step, hd, deviceStep, hset])
    have hread : (system n).LeadsTo (Timely n) s
        (s.setDevice d { s.devices d with pc := .replyWait }) :=
      .next (a := .device d) htest trivial (by simp [system, step, hd, deviceStep, hset, hzero])
    exact .next (a := .device d) hread trivial (by simp [system, step, hd, deviceStep])
  refine ⟨_, hrun, ?_, ?_⟩
  · have hdev := h.consistent d hd
    have hle := h.contribution_le hd
    refine h.setDevice hd ?_ ?_ <;> cases hph : s.client.phase d <;> rw [hph] at hdev hle
    all_goals grind
  · refine workLeft_setDevice hd ?_
    simp [Device.work, Device.rank, hpc, hop, polledRank]

/-- A device that polls a posted request starts to serve it. -/
theorem progress_start {n d : Nat} {s : State} (h : Inv n s) (hd : d < n)
    (hpc : (s.devices d).pc = .poll) (hop : (s.devices d).op = .memsync) : Progress n s := by
  refine progress_of_step (a := .device d) h trivial
    (by simp only [step, hd, ite_true, deviceStep, hpc, hop]; rfl) ?_
  refine workLeft_setDevice hd ?_
  simp only [Device.work, Device.rank, hpc, hop, polledRank]
  omega

/-- When every device polls, none has a request to start and no write-back is left, the
counter is zero. -/
theorem counter_eq_zero {n i : Nat} {s : State} (h : Inv n s)
    (hpoll : ∀ d < n, (s.devices d).pc = .poll)
    (hquiet : ∀ d < n, (s.devices d).outstanding = 0 ∧ (s.devices d).replying = 0)
    (hstarted : ∀ d < n, (s.devices d).op ≠ .memsync) (hc : s.client = .wait i) :
    s.counter = 0 := by
  rw [h.counter]
  refine sum_eq_zero ?_
  intro d hd
  have hd := mem_range.mp hd
  have hdev := h.consistent d hd
  have hpc := hpoll d hd
  have hout := (hquiet d hd).1
  have hop := hstarted d hd
  rw [hc] at hdev ⊢
  simp only [ClientPc.phase] at hdev ⊢
  split at hdev <;> grind

/-- When every device polls its slot and no callback is left, the client goes on, or a device
starts to serve its request, or all write-backs are received and a device answers. -/
theorem progress_client {n : Nat} {s : State} (h : Inv n s) (hcall : s.client ≠ .idle)
    (hpoll : ∀ d < n, (s.devices d).pc = .poll)
    (hquiet : ∀ d < n, (s.devices d).outstanding = 0 ∧ (s.devices d).replying = 0) :
    Progress n s := by
  have hrange := h.inRange
  cases hc : s.client with
  | idle => exact absurd hc hcall
  | add i =>
      rw [hc] at hrange
      have hstep : ∃ t, clientStep n s = some t ∧ t.devices = s.devices ∧
          t.client.rank n < s.client.rank n := by
        simp only [clientStep, hc]
        split
        case isTrue => exact ⟨_, rfl, rfl, by simp only [ClientPc.rank]; omega⟩
        case isFalse hge =>
          refine ⟨_, rfl, rfl, ?_⟩
          simp only [ClientPc.rank]
          omega
      obtain ⟨t, hstep, hdevices, hless⟩ := hstep
      refine progress_of_step (t := t) (a := .client) h ?_ hstep ?_
      · simp [Timely, hc]
      · simp only [workLeft, hdevices]
        omega
  | setCounter i =>
      rw [hc] at hrange
      refine progress_of_step (a := .client) h (by simp [Timely, hc])
        (by simp only [step, clientStep, hc]; rfl) ?_
      refine workLeft_client hrange ?_ (Nat.le_add_right _ _)
      simp only [hc, ClientPc.rank]
      omega
  | post i =>
      rw [hc] at hrange
      have hdev := h.consistent i hrange
      simp only [hc, ClientPc.phase, lt_irrefl, ite_false, ite_true] at hdev
      refine progress_of_step (a := .client) h (by simp [Timely, hc])
        (by simp only [step, clientStep, hc, hdev.1, ite_true]; rfl) ?_
      have hlt : i < n := hrange
      refine workLeft_client hlt ?_ ?_
      · simp only [hc, ClientPc.rank]
        omega
      · simp only [Device.work, Device.rank, hpoll i hlt, polledRank]
        omega
  | wait i =>
      rw [hc] at hrange
      by_cases hlt : i < n
      case neg =>
        refine progress_of_step (a := .client) h (by simp [Timely, hc, hlt])
          (by simp only [step, clientStep, hc, hlt, ite_false]; rfl) ?_
        simp only [workLeft, hc, ClientPc.rank]
        omega
      by_cases hmemsync : ∃ d < n, (s.devices d).op = .memsync
      · obtain ⟨d, hd, hop⟩ := hmemsync
        exact progress_start h hd (hpoll d hd) hop
      · have hdev := h.consistent i hlt
        simp only [hc, ClientPc.phase, lt_irrefl, ite_false] at hdev
        obtain ⟨hset, hstage⟩ := hdev
        have hanswer : (s.devices i).op = .writebackWait ∨ (s.devices i).op = .reply := by
          have hnot : (s.devices i).op ≠ .memsync := fun hop => hmemsync ⟨i, hlt, hop⟩
          have hpc := hpoll i hlt
          grind
        rcases hanswer with hop | hop
        · exact progress_answer h hlt (hpoll i hlt) hop hset (counter_eq_zero h hpoll hquiet
            (fun d hd hop => hmemsync ⟨d, hd, hop⟩) hc)
        · refine progress_of_step (a := .client) h ?_
            (by simp only [step, clientStep, hc, hlt, hop, ite_true]; rfl) ?_
          · simp only [Timely, hc]
            exact fun _ => ⟨.inl (hpoll i hlt), (hquiet i hlt).2⟩
          · refine workLeft_client hlt ?_ ?_
            · simp only [hc, ClientPc.rank]
              omega
            · simp only [Device.work, Device.rank, hpoll i hlt, polledRank]
              omega

/-- From every state of the invariant a call is closer to its end. -/
theorem progress {n : Nat} {s : State} (h : Inv n s) (hcall : s.client ≠ .idle) :
    Progress n s := by
  by_cases hbusy : ∃ d < n, (s.devices d).pc ≠ .poll ∨ 0 < (s.devices d).inFlight ∨
      0 < (s.devices d).decrementing ∨ 0 < (s.devices d).replying
  · obtain ⟨d, hd, hpc | hin | hdecr | hreply⟩ := hbusy
    · exact progress_device h hd hpc
    · exact progress_callbackTest h hd hin
    · exact progress_callbackDecr h hd hdecr
    · exact progress_callbackReply h hd hreply
  · push Not at hbusy
    refine progress_client h hcall (fun d hd => (hbusy d hd).1) ?_
    intro d hd
    obtain ⟨_, hin, hdecr, hreply⟩ := hbusy d hd
    exact ⟨by simp only [Device.outstanding]; omega, by omega⟩

/-! ## Main results -/

/-- In the runs whose steps are timely, `kaapi_offload_synchronize` returns only when every
counted write-back is received, the slots are empty from its return to the next call, and a
call can always be completed, so that no device is stuck in the waiting state. -/
theorem synchronised {n : Nat} {s : State} (h : (system n).ReachableWhen (Timely n) s) :
    Synchronised n (Timely n) s := by
  have hinv : Inv n s := h.invariant (fun s hs => hs ▸ inv_initial n)
    (fun _ _ _ hs hok hstep => inv_step hs hok hstep)
  have hout : s.client = .idle → ∀ d < n, (s.devices d).consistent .out := by
    intro hidle d hd
    simpa only [hidle, ClientPc.phase] using hinv.consistent d hd
  constructor
  case received =>
    intro hidle d hd
    obtain ⟨_, _, ⟨hin, hdecr, _, _⟩, _⟩ := hout hidle d hd
    simp [Device.outstanding, hin, hdecr]
  case empty => exact fun hidle d hd => (hout hidle d hd).1
  case returns =>
    obtain ⟨t, hst, _, ht⟩ := TransitionSystem.exists_leadsTo_of_measure (workLeft n)
      (fun u hu hcall => progress hu hcall) hinv
    exact ⟨t, hst, ht⟩

/-- One device without write-backs replies, the client consumes the reply and returns, and
then the device moves its slot to `KAAPI_DEVICEOP_WRITEBACK_WAIT`. -/
def overwrittenRun : List Action :=
  [.call, .client, .client, .client, .client, .device 0, .device 0, .device 0, .device 0,
    .device 0, .device 0, .device 0, .client, .client, .device 0]

/-- The write of the slot after the reply can outlive the request. -/
theorem slot_overwritten_reachable :
    ¬ ∀ (n : Nat) (s : State), (system n).Reachable s →
      Synchronised n (fun _ _ => True) s := by
  intro hall
  have hsync := hall 1 (((system 1).run initial overwrittenRun).get (by decide))
    (TransitionSystem.ReachableWhen.replay (.start rfl) (Option.some_get _).symm)
  exact absurd (hsync.empty (by decide) 0 (by decide)) (by decide)

/-- One device sends a write-back, whose callback replies once the slot waits. -/
def callbackRun : List Action :=
  [.call, .client, .client, .client, .client, .device 0, .device 0, .device 0, .send 0,
    .device 0, .device 0, .device 0, .device 0, .callbackTest 0, .callbackDecr 0,
    .callbackReply 0, .client, .client]

theorem synchronised_callbackRun :
    ∃ s, (system 1).replay (Timely 1) initial callbackRun = some s ∧ s.client = .idle ∧
      Synchronised 1 (Timely 1) s := by
  refine ⟨((system 1).replay (Timely 1) initial callbackRun).get (by decide), by simp,
    by decide, ?_⟩
  exact synchronised (.replay (.start rfl) (Option.some_get _).symm)

end Xkblas.Offload.MemSync
