import Mathlib.Logic.Function.Basic
import Xkblas.Library.TransitionSystem
import Xkblas.Offload.Request

/-!
# Sleep and wake-up of a device thread

The idle loop `kaapi_sched_idle_offload` tests one after the other that the device has
nothing to do and then calls `kaapi_offload_device_sleep`; the tests are not covered by
the lock under which `issleeping` is announced. Producers publish work first and test
`issleeping` afterwards. `LostWakeup` is the state that the protocol has to exclude and
`Timely` the condition on the steps under which it does.
-/

namespace Xkblas.Offload.Wakeup

open Library

/-- The kinds of work that keep a device thread awake. -/
inductive Work where
  | task
  | request
  | transfer
  | stop
  deriving DecidableEq, Repr

/-- The callers of `kaapi_offload_device_wakeup_`: a push in the queue of the device, the
commit of an instruction in one of its streams, a stop, the post of a request, a client that
finds the slot occupied, and a client that waits for its reply. -/
inductive Waker where
  | push
  | commit
  | stop
  | post
  | postAgain (op : DeviceOp)
  | awaitReply
  deriving DecidableEq, Repr

/-- The work that the caller has published before it tests `issleeping`. -/
def Waker.work : Waker → Option Work
  | .push => some .task
  | .commit => some .transfer
  | .stop => some .stop
  | .post => some .request
  | .postAgain _ | .awaitReply => none

/-- The program points of the device thread, from the first test of the idle loop to the
return of `pthread_cond_wait`. `working` is the body of the loop and `resetCounts` the
middle of the reset done for `KAAPI_DEVICEOP_INVALIDATE_CACHES`. -/
inductive DevicePc where
  | testRequest
  | testQueue
  | testExecCount
  | testPopCount
  | testStreams
  | testFini
  | sleepLock
  | announce
  | testSleeping
  | blocked
  | woken
  | working
  | resetCounts
  | exited
  deriving DecidableEq, Repr

/-- The program points of a producer. Those from `testSleeping` on, and `postLocked`, hold
the lock of the device. -/
inductive ProducerPc where
  | idle
  | postLocked (op : DeviceOp)
  | postWaiting (op : DeviceOp)
  | replyLocked
  | replyWaiting
  | stopWaiting
  | queueUnlock
  | wakeupLock (w : Waker)
  | testSleeping (w : Waker)
  | signal (w : Waker)
  | wakeupUnlock (w : Waker)
  deriving DecidableEq, Repr

/-- The owner of the lock of the device. -/
inductive Owner (n : Nat) where
  | device
  | producer (p : Fin n)
  deriving DecidableEq, Repr

/-- One device and `n` producers. `localQueue` counts the tasks of the queue of the context,
`queue` those of the queue of the locality domain, and `streams` the instructions that are
not completed. -/
structure State (n : Nat) where
  pc : DevicePc
  op : DeviceOp
  localQueue : Nat
  queue : Nat
  pushCount : Nat
  popCount : Nat
  spawnCount : Nat
  execCount : Nat
  streams : Nat
  stopAsked : Bool
  issleeping : Bool
  lock : Option (Owner n)
  queueLock : Option (Fin n)
  producers : Fin n → ProducerPc

/-- Where a signal of `cond_sleep` goes. The callers of `kaapi_offload_device_stop` wait on
the same condition as the device. -/
inductive Target (n : Nat) where
  | device
  | stopper (q : Fin n)
  | nobody
  deriving DecidableEq, Repr

/-- The steps of the system. -/
inductive Action (n : Nat) where
  | device
  | spuriousWakeup
  | finishLoop
  | localPush
  | localPop
  | ownPush
  | pop
  | complete
  | ownCommit
  | progress
  | serve (op : DeviceOp)
  | requestReply
  | reset
  | push (p : Fin n)
  | commit (p : Fin n)
  | stop (p : Fin n)
  | post (p : Fin n) (op : DeviceOp)
  | awaitReply (p : Fin n)
  | producer (p : Fin n)
  | signal (p : Fin n) (target : Target n)
  deriving DecidableEq, Repr

/-- Where a producer goes once `issleeping` is tested and the lock is released. The two
waiting clients release it inside `pthread_cond_wait`. -/
def Waker.resume : Waker → ProducerPc
  | .push => .queueUnlock
  | .commit | .post => .idle
  | .stop => .stopWaiting
  | .postAgain op => .postWaiting op
  | .awaitReply => .replyWaiting

variable {n : Nat}

/-- Move a producer. -/
def State.setProducer (s : State n) (p : Fin n) (pc : ProducerPc) : State n :=
  { s with producers := Function.update s.producers p pc }

/-- The next step of the device thread in the tests of `kaapi_sched_idle_offload` and in
`kaapi_offload_device_sleep`. -/
def deviceStep (s : State n) : Option (State n) :=
  match s.pc with
  | .testRequest =>
      some { s with pc := if s.op = .nop then .testQueue else .working }
  | .testQueue =>
      some { s with pc := if s.localQueue = 0 then .testExecCount else .working }
  | .testExecCount =>
      some { s with pc :=
        if s.execCount = s.spawnCount + s.pushCount then .testPopCount else .working }
  | .testPopCount =>
      some { s with pc := if s.pushCount = s.popCount then .testStreams else .working }
  | .testStreams =>
      some { s with pc := if s.streams = 0 then .testFini else .working }
  | .testFini =>
      some { s with pc := if s.stopAsked then .exited else .sleepLock }
  | .sleepLock =>
      if s.lock = none then some { s with pc := .announce, lock := some .device } else none
  | .announce =>
      some { s with pc := .testSleeping, issleeping := true }
  | .testSleeping =>
      some { s with pc := if s.issleeping then .blocked else .testRequest, lock := none }
  | .woken =>
      if s.lock = none then some { s with pc := .testSleeping, lock := some .device } else none
  | .resetCounts =>
      some { s with pc := .working, pushCount := 0, spawnCount := 0, execCount := 0 }
  | .blocked | .working | .exited => none

/-- A step of the body of the idle loop, where the device serves its queues, its streams and
its request. -/
def work (s : State n) (capacity : Nat) : Action n → Option (State n)
  | .finishLoop => some { s with pc := if s.stopAsked then .exited else .testRequest }
  | .localPush => some { s with localQueue := s.localQueue + 1 }
  | .localPop =>
      if 0 < s.localQueue then some { s with localQueue := s.localQueue - 1 } else none
  | .ownPush =>
      -- the call of wakeup that follows finds the device awake
      if s.queueLock = none ∧ s.queue < capacity then
        some { s with queue := s.queue + 1, pushCount := s.pushCount + 1 }
      else none
  | .pop =>
      if s.queueLock = none ∧ 0 < s.queue then
        some { s with queue := s.queue - 1, popCount := s.popCount + 1 }
      else none
  | .complete => some { s with execCount := s.execCount + 1 }
  | .ownCommit => some { s with streams := s.streams + 1 }
  | .progress =>
      if 0 < s.streams then some { s with streams := s.streams - 1 } else none
  | .serve op =>
      if s.op.pending ∧ op.pending then some { s with op := op } else none
  | .reset =>
      if s.op = .invalidateCaches then some { s with pc := .resetCounts, popCount := 0 }
      else none
  | _ => none

/-- The next step of a producer inside the function it has called. -/
def producerStep (s : State n) (p : Fin n) : Option (State n) :=
  match s.producers p with
  | .postLocked op =>
      if s.op = .nop then
        some ({ s with op := op }.setProducer p (.testSleeping .post))
      else some (s.setProducer p (.testSleeping (.postAgain op)))
  | .postWaiting op =>
      if s.lock = none then
        some ({ s with lock := some (.producer p) }.setProducer p (.postLocked op))
      else none
  | .replyLocked =>
      if s.op = .reply then
        some ({ s with op := .nop, lock := none }.setProducer p .idle)
      else some (s.setProducer p (.testSleeping .awaitReply))
  | .replyWaiting =>
      if s.lock = none then
        some ({ s with lock := some (.producer p) }.setProducer p .replyLocked)
      else none
  | .stopWaiting => if s.pc = .exited then some (s.setProducer p .idle) else none
  | .queueUnlock => some ({ s with queueLock := none }.setProducer p .idle)
  | .wakeupLock w =>
      if s.lock = none then
        some ({ s with lock := some (.producer p) }.setProducer p (.testSleeping w))
      else none
  | .testSleeping w =>
      some (s.setProducer p (if s.issleeping then .signal w else .wakeupUnlock w))
  | .wakeupUnlock w => some ({ s with lock := none }.setProducer p w.resume)
  | .idle | .signal _ => none

/-- The end of `kaapi_offload_device_wakeup_`: clear `issleeping` and signal `cond_sleep`,
which reaches one of the threads that wait on it. -/
def signalStep (s : State n) (p : Fin n) (target : Target n) : Option (State n) :=
  match s.producers p with
  | .signal w =>
      let cleared := { s with issleeping := false }.setProducer p (.wakeupUnlock w)
      match target with
      | .device => if s.pc = .blocked then some { cleared with pc := .woken } else none
      | .stopper q => if s.producers q = .stopWaiting then some cleared else none
      | .nobody => if s.pc = .blocked then none else some cleared
  | _ => none

/-- A producer that is idle calls `kaapi_fifo_queue_push`, commits an instruction of a stream,
or calls `kaapi_offload_device_stop`, `kaapi_offload_request2device` or
`kaapi_offload_requestwait`. -/
def call (s : State n) (capacity : Nat) : Action n → Option (State n)
  | .push p =>
      if s.producers p = .idle ∧ s.queueLock = none ∧ s.queue < capacity then
        some ({ s with
          queue := s.queue + 1
          pushCount := s.pushCount + 1
          queueLock := some p }.setProducer p (.wakeupLock .push))
      else none
  | .commit p =>
      if s.producers p = .idle then
        some ({ s with streams := s.streams + 1 }.setProducer p (.wakeupLock .commit))
      else none
  | .stop p =>
      if s.producers p = .idle ∧ s.lock = none then
        some ({ s with stopAsked := true }.setProducer p (.wakeupLock .stop))
      else none
  | .post p op =>
      if s.producers p = .idle ∧ s.lock = none ∧ op.pending then
        some ({ s with lock := some (.producer p) }.setProducer p (.postLocked op))
      else none
  | .awaitReply p =>
      if s.producers p = .idle ∧ s.lock = none then
        some ({ s with lock := some (.producer p) }.setProducer p .replyLocked)
      else none
  | _ => none

/-- One step of the device, of a producer, or of a thread that replies to a request. The
signal that `kaapi_offload_requestreply` sends to `cond_sleep` leaves `issleeping` as it is,
so it is a spurious wake-up for the device. -/
def step (capacity : Nat) (s : State n) (a : Action n) : Option (State n) :=
  match a with
  | .device => deviceStep s
  | .spuriousWakeup => if s.pc = .blocked then some { s with pc := .woken } else none
  | .requestReply => if s.lock = none then some { s with op := .reply } else none
  | .producer p => producerStep s p
  | .signal p target => signalStep s p target
  | .push _ | .commit _ | .stop _ | .post _ _ | .awaitReply _ => call s capacity a
  | _ => if s.pc = .working then work s capacity a else none

/-- The state after `kaapi_offload_device_init`, at the entry of the idle loop. -/
def initial : State n where
  pc := .testRequest
  op := .nop
  localQueue := 0
  queue := 0
  pushCount := 0
  popCount := 0
  spawnCount := 0
  execCount := 0
  streams := 0
  stopAsked := false
  issleeping := false
  lock := none
  queueLock := none
  producers := fun _ => .idle

/-- The device with `n` producers and a queue of the given capacity. -/
def system (n capacity : Nat) : TransitionSystem (State n) (Action n) where
  initial := fun s => s = initial
  step := step capacity

/-! ## The property -/

/-- There is work of this kind. -/
def State.present (s : State n) : Work → Prop
  | .task => 0 < s.queue
  | .request => s.op.pending = true
  | .transfer => 0 < s.streams
  | .stop => s.stopAsked = true

instance (s : State n) : (k : Work) → Decidable (s.present k)
  | .task => inferInstanceAs (Decidable (0 < s.queue))
  | .request => inferInstanceAs (Decidable (s.op.pending = true))
  | .transfer => inferInstanceAs (Decidable (0 < s.streams))
  | .stop => inferInstanceAs (Decidable (s.stopAsked = true))

/-- The producer is inside `kaapi_offload_device_wakeup` and has not yet found the device
awake or signalled it. -/
def ProducerPc.aboutToSignal : ProducerPc → Bool
  | .wakeupLock _ | .testSleeping _ | .signal _ => true
  | _ => false

/-- The device is blocked asleep although it has work, and nobody is about to signal it. -/
def LostWakeup (s : State n) : Prop :=
  s.pc = .blocked ∧ (s.present .task ∨ s.present .request ∨ s.present .stop) ∧
    ∀ p, (s.producers p).aboutToSignal = false

instance (s : State n) : Decidable (LostWakeup s) :=
  inferInstanceAs (Decidable (_ ∧ _))

/-- The position of a program point in the sequence from the first test to the
announcement; the points outside the sequence come at its start. -/
def DevicePc.position : DevicePc → Nat
  | .testRequest => 1
  | .testQueue => 2
  | .testExecCount => 3
  | .testPopCount => 4
  | .testStreams => 5
  | .testFini => 6
  | .sleepLock => 7
  | .announce => 8
  | _ => 0

/-- The position of the test that finds this kind of work. -/
def Work.testPosition : Work → Nat
  | .request => 1
  | .task => 4
  | .transfer => 5
  | .stop => 6

/-- The device has tested that there is no work of this kind and has not yet announced that
it sleeps. -/
def DevicePc.unannounced (pc : DevicePc) (k : Work) : Prop :=
  k.testPosition < pc.position

instance (pc : DevicePc) (k : Work) : Decidable (pc.unannounced k) :=
  inferInstanceAs (Decidable (_ < _))

/-- A producer that tests `issleeping` does not do so between the test of the device for the
work that the producer has published and the announcement of the device. -/
def ProducerPc.Timely (d : DevicePc) : ProducerPc → Prop
  | .testSleeping w => ∀ k ∈ w.work, ¬ d.unannounced k
  | _ => True

instance (d : DevicePc) : (pc : ProducerPc) → Decidable (pc.Timely d)
  | .testSleeping w => inferInstanceAs (Decidable (∀ k ∈ w.work, ¬ d.unannounced k))
  | .idle | .postLocked _ | .postWaiting _ | .replyLocked | .replyWaiting | .stopWaiting
  | .queueUnlock | .wakeupLock _ | .signal _ | .wakeupUnlock _ => isTrue trivial

/-- The side condition of the runs without lost wake-up: producers test `issleeping` in time,
and the device resets its counters only when its queue is empty. -/
def Timely (s : State n) : Action n → Prop
  | .producer p => (s.producers p).Timely s.pc
  | .reset => s.queue = 0
  | .device => s.pc = .resetCounts → s.queue = 0
  | _ => True

instance (s : State n) : (a : Action n) → Decidable (Timely s a)
  | .producer p => inferInstanceAs (Decidable ((s.producers p).Timely s.pc))
  | .reset => inferInstanceAs (Decidable (s.queue = 0))
  | .device => inferInstanceAs (Decidable (s.pc = .resetCounts → s.queue = 0))
  | .spuriousWakeup | .finishLoop | .localPush | .localPop | .ownPush | .pop | .complete
  | .ownCommit | .progress | .serve _ | .requestReply | .push _ | .commit _ | .stop _
  | .post _ _ | .awaitReply _ | .signal _ _ => isTrue trivial

end Xkblas.Offload.Wakeup
