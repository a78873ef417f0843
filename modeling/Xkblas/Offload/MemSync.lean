import Mathlib.Algebra.Group.Int.Defs
import Mathlib.Algebra.Group.Nat.Defs
import Mathlib.Logic.Function.Basic
import Xkblas.Library.TransitionSystem
import Xkblas.Offload.Request

/-!
# The memory synchronisation request

`kaapi_offload_synchronize` posts a `KAAPI_DEVICEOP_MEMSYNC` in the request slot of every
device and then waits for the reply of every device. All slots point to one counter of the
client, which holds `2^32` for every device that has still to count its write-backs and one
for every write-back that is not received. A device thread that has counted its transfers
replies if the counter is zero, and then moves its slot to `KAAPI_DEVICEOP_WRITEBACK_WAIT`;
a completion callback, run by any thread, replies if it brings the counter to zero.
-/

namespace Xkblas.Offload.MemSync

open Library

/-- The contribution of a device that has still to count its write-backs. -/
@[grind] def pendingDevice : Int := 2 ^ 32

/-- The program points of a device thread while it serves its slot. `poll` is the switch on
the operation, `sending` the loop of `kaapi_memory_writeback_all`, and `reply` and
`replyWait` are the two calls of `kaapi_offload_requestreply`. -/
inductive DevicePc where
  | poll
  | startWriteback
  | testCounter
  | sendUncounted
  | sending
  | addSent
  | subPending
  | reply
  | setWait
  | waitTest
  | waitRead
  | replyWait
  deriving DecidableEq, Repr

/-- One device: its request slot, its thread, and the callbacks of its write-backs.
`counterSet` tells whether `request.counter` is not null. `inFlight` counts the write-backs
whose callback has not started, `decrementing` the callbacks between the test of the pointer
and the decrement, and `replying` those about to reply. `sentMsg` is the number of messages
sent and not yet added to the counter. -/
structure Device where
  op : DeviceOp
  counterSet : Bool
  pc : DevicePc
  inFlight : Nat
  decrementing : Nat
  replying : Nat
  sentMsg : Nat
  deriving DecidableEq, Repr

/-- The program points of the client: in its first loop it increments the counter for device
`i`, sets the pointer of its slot and posts the request; in its second loop it waits for the
reply of device `i`. -/
inductive ClientPc where
  | idle
  | add (i : Nat)
  | setCounter (i : Nat)
  | post (i : Nat)
  | wait (i : Nat)
  deriving DecidableEq, Repr

/-- The client with its counter, and the devices. -/
structure State where
  client : ClientPc
  counter : Int
  devices : Nat → Device

/-- The steps of the client, of a device thread and of the callbacks of a device. -/
inductive Action where
  | call
  | client
  | device (d : Nat)
  | send (d : Nat)
  | callbackTest (d : Nat)
  | callbackDecr (d : Nat)
  | callbackReply (d : Nat)
  deriving DecidableEq, Repr

/-- Replace one device. -/
def State.setDevice (s : State) (d : Nat) (dev : Device) : State :=
  { s with devices := Function.update s.devices d dev }

@[simp] theorem State.setDevice_devices_self (s : State) (d : Nat) (dev : Device) :
    (s.setDevice d dev).devices d = dev := by
  simp [State.setDevice]

@[simp] theorem State.setDevice_counter (s : State) (d : Nat) (dev : Device) :
    (s.setDevice d dev).counter = s.counter :=
  rfl

@[simp] theorem State.setDevice_setDevice (s : State) (d : Nat) (dev dev' : Device) :
    (s.setDevice d dev).setDevice d dev' = s.setDevice d dev' := by
  simp [State.setDevice]

/-- The next step of `kaapi_offload_synchronize` on a machine with `n` devices. -/
def clientStep (n : Nat) (s : State) : Option State :=
  match s.client with
  | .idle => none
  | .add i =>
      if i < n then
        some { s with client := .setCounter i, counter := s.counter + pendingDevice }
      else some { s with client := .wait 0 }
  | .setCounter i =>
      some ({ s with client := .post i }.setDevice i { s.devices i with counterSet := true })
  | .post i =>
      if (s.devices i).op = .nop then
        some ({ s with client := .add (i + 1) }.setDevice i { s.devices i with op := .memsync })
      else none
  | .wait i =>
      if i < n then
        if (s.devices i).op = .reply then
          some ({ s with client := .wait (i + 1) }.setDevice i
            { s.devices i with op := .nop, counterSet := false })
        else none
      else some { s with client := .idle }

/-- The next step of the thread of device `d` in the cases `MEMSYNC`, `WRITEBACK` and
`WRITEBACK_WAIT` of the idle loop. The streams are drained before `startWriteback`. -/
def deviceStep (s : State) (d : Nat) : Option State :=
  let dev := s.devices d
  match dev.pc with
  | .poll =>
      match dev.op with
      | .memsync => some (s.setDevice d { dev with pc := .startWriteback })
      | .writeback => some (s.setDevice d { dev with pc := .testCounter })
      | .writebackWait => some (s.setDevice d { dev with pc := .waitTest })
      | .nop | .reply | .invalidateCaches => none
  | .startWriteback =>
      some (s.setDevice d { dev with op := .writeback, pc := .testCounter })
  | .testCounter =>
      some (s.setDevice d
        { dev with pc := if dev.counterSet then .sending else .sendUncounted, sentMsg := 0 })
  | .sendUncounted =>
      -- the transfers posted without callback reply at once and are never waited for
      some (s.setDevice d { dev with op := .reply, pc := .poll })
  | .sending => some (s.setDevice d { dev with pc := .addSent })
  | .addSent =>
      if dev.sentMsg = 0 then some (s.setDevice d { dev with pc := .subPending })
      else if dev.counterSet then
        some ({ s with counter := s.counter + dev.sentMsg }.setDevice d
          { dev with pc := .subPending, sentMsg := 0 })
      else none
  | .subPending =>
      if dev.counterSet then
        some ({ s with counter := s.counter - pendingDevice }.setDevice d
          { dev with pc := if s.counter - pendingDevice = 0 then .reply else .setWait })
      else none
  | .reply => some (s.setDevice d { dev with op := .reply, pc := .setWait })
  | .setWait => some (s.setDevice d { dev with op := .writebackWait, pc := .poll })
  | .waitTest =>
      some (s.setDevice d { dev with pc := if dev.counterSet then .waitRead else .poll })
  | .waitRead =>
      if dev.counterSet then
        some (s.setDevice d { dev with pc := if s.counter = 0 then .replyWait else .poll })
      else none
  | .replyWait => some (s.setDevice d { dev with op := .reply, pc := .poll })

/-- `kaapi_memory_writeback_all` sends one more message. -/
def send (s : State) (d : Nat) : Option State :=
  let dev := s.devices d
  if dev.pc = .sending then
    some (s.setDevice d { dev with inFlight := dev.inFlight + 1, sentMsg := dev.sentMsg + 1 })
  else none

/-- `callback_replyrequest_memsync` tests the pointer of the slot. -/
def callbackTest (s : State) (d : Nat) : Option State :=
  let dev := s.devices d
  if 0 < dev.inFlight then
    if dev.counterSet then
      some (s.setDevice d
        { dev with inFlight := dev.inFlight - 1, decrementing := dev.decrementing + 1 })
    else
      some (s.setDevice d { dev with inFlight := dev.inFlight - 1, replying := dev.replying + 1 })
  else none

/-- `callback_replyrequest_memsync` decrements the counter. -/
def callbackDecr (s : State) (d : Nat) : Option State :=
  let dev := s.devices d
  if 0 < dev.decrementing ∧ dev.counterSet then
    some ({ s with counter := s.counter - 1 }.setDevice d
      { dev with
        decrementing := dev.decrementing - 1
        replying := if s.counter - 1 = 0 then dev.replying + 1 else dev.replying })
  else none

/-- `callback_replyrequest_memsync` replies. -/
def callbackReply (s : State) (d : Nat) : Option State :=
  let dev := s.devices d
  if 0 < dev.replying then
    some (s.setDevice d { dev with op := .reply, replying := dev.replying - 1 })
  else none

/-- One step of a machine with `n` devices. -/
def step (n : Nat) (s : State) : Action → Option State
  | .call =>
      if s.client = .idle then some { s with client := .add 0, counter := 0 } else none
  | .client => clientStep n s
  | .device d => if d < n then deviceStep s d else none
  | .send d => if d < n then send s d else none
  | .callbackTest d => if d < n then callbackTest s d else none
  | .callbackDecr d => if d < n then callbackDecr s d else none
  | .callbackReply d => if d < n then callbackReply s d else none

/-- A device after its initialisation. -/
def Device.initial : Device where
  op := .nop
  counterSet := false
  pc := .poll
  inFlight := 0
  decrementing := 0
  replying := 0
  sentMsg := 0

/-- The state before the first request. -/
def initial : State where
  client := .idle
  counter := 0
  devices := fun _ => .initial

/-- The client and `n` devices. -/
def system (n : Nat) : TransitionSystem State Action where
  initial := fun s => s = initial
  step := step n

/-! ## The property -/

/-- The write-backs that are counted for the request and not received. -/
@[grind] def Device.outstanding (dev : Device) : Nat :=
  dev.inFlight + dev.decrementing

/-- The thread of the device is outside the handling of its slot, or about to find it empty,
and no callback is about to reply for it. -/
def Device.settled (dev : Device) : Prop :=
  (dev.pc = .poll ∨ dev.pc = .waitTest) ∧ dev.replying = 0

instance (dev : Device) : Decidable dev.settled :=
  inferInstanceAs (Decidable (_ ∧ _))

/-- The side condition of the runs that synchronise: the client consumes the reply of a
device only when the device is settled, and a device sends less than `2^32` messages for one
request. -/
def Timely (n : Nat) (s : State) : Action → Prop
  | .client =>
      match s.client with
      | .wait i => i < n → (s.devices i).settled
      | .idle | .add _ | .setCounter _ | .post _ => True
  | .send d => (s.devices d).sentMsg + 1 < 2 ^ 32
  | .call | .device _ | .callbackTest _ | .callbackDecr _ | .callbackReply _ => True

instance (n : Nat) (s : State) : (a : Action) → Decidable (Timely n s a)
  | .client =>
      match h : s.client with
      | .wait i =>
          decidable_of_iff (i < n → (s.devices i).settled) (by simp [Timely, h])
      | .idle | .add _ | .setCounter _ | .post _ => isTrue (by simp [Timely, h])
  | .send d => inferInstanceAs (Decidable ((s.devices d).sentMsg + 1 < 2 ^ 32))
  | .call | .device _ | .callbackTest _ | .callbackDecr _ | .callbackReply _ => isTrue trivial

/-- Outside a call, every write-back counted for the requests is received and every slot is
empty; and from every state steps that meet `ok` complete the call, so that no device is
stuck with a request. -/
structure Synchronised (n : Nat) (ok : State → Action → Prop) (s : State) : Prop where
  received : s.client = .idle → ∀ d < n, (s.devices d).outstanding = 0
  empty : s.client = .idle → ∀ d < n, (s.devices d).op = .nop
  returns : ∃ t, (system n).LeadsTo ok s t ∧ t.client = .idle

end Xkblas.Offload.MemSync
