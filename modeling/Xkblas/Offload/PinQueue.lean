import Mathlib.Data.Fintype.Basic
import Xkblas.Library.RingBuffer
import Xkblas.Library.TransitionSystem

/-!
# The queue of the pin and unpin requests

The threads that share a queue post requests to register or unregister host memory. They test a
request, wait for it, or wait for all requests of the queue. The daemon thread of the queue executes
the requests in the order of their indices.

A section under the lock of the queue, or under the lock of a request, is one step, unless the
thread blocks in it; a step of a thread is enabled when the lock that it needs is free. A read of
`posw` or `posr` without the lock is a step too. The runtime stays initialized in these runs.
-/

namespace Xkblas.Offload.PinQueue

open Library

/-- `KAAPI_MAX_REGLIST`. -/
def maxReglist : ℕ :=
  256

/-- `request_state_t`. -/
inductive RequestState where
  | init
  | post
  | wait
  | done
  deriving DecidableEq

/-- The results of `host_register_testwait`. -/
inductive Err where
  | ok
  | einval
  | einprogress
  deriving DecidableEq

/-- Where the daemon is: before the lock of the queue, at the test of the loop with the lock, asleep
on `cond`, at the execution of a request, before the lock again, and with it before the lock of the
request. -/
inductive Daemon (ρ : Type) where
  | lock
  | check
  | asleep
  | execute (req : ρ)
  | relock
  | finish

/-- Where a thread is. It is outside of the calls, perhaps with the result of the last one, or in
one of them: at the lock of the queue (`post`, `waitLock`, `waitall`, `waitallWake`), asleep on
`cond_waitall` (`postSleep`, `waitallSleep`), at an access to an index (`test`, `testRead`, `wait`),
at the lock of a request with that of the queue (`waitReq`), at the state of the request with its
lock (`waitState`), asleep on the condition of the request, or woken and at its lock (`waitWake`).

The last field of `tested` is not in the code: whether the request had been executed. The last field
of the points of a wait for all requests is not either: the number of requests at the call. -/
inductive Pc (ρ : Type) where
  | out
  | posted (index : ℕ)
  | tested (index : ℕ) (err : Err) (executed : Bool)
  | waited (index : ℕ) (err : Err)
  | waitedAll (earlier : ℕ)
  | post (req : ρ)
  | postSleep (req : ρ)
  | test (index : ℕ)
  | testRead (index : ℕ)
  | wait (index : ℕ)
  | waitLock (index : ℕ)
  | waitReq (index : ℕ)
  | waitState (index : ℕ)
  | waitSleep (index : ℕ)
  | waitWake (index : ℕ)
  | waitall (earlier : ℕ)
  | waitallSleep (pos earlier : ℕ)
  | waitallWake (pos earlier : ℕ)

/-- The threads that can have the lock of the queue. -/
inductive Party (κ : Type) where
  | daemon
  | client (c : κ)
  deriving DecidableEq

/-- `host_register_queue_t`, the holders of its locks, the daemon and the threads. The requests in
the order in which they were posted and executed are not in the code. -/
structure State (κ ρ : Type) where
  posw : ℕ
  posr : ℕ
  lock : Option (Party κ)
  req : ℕ → ρ
  state : ℕ → RequestState
  reqLock : ℕ → Option κ
  daemon : Daemon ρ
  pc : κ → Pc ρ
  posted : List ρ
  executed : List ρ

/-- The slot of an index. -/
def slot (index : ℕ) : ℕ :=
  index % maxReglist

/-- The calls. A request for a null pointer is not posted. -/
inductive Op (ρ : Type) where
  | post (req : ρ)
  | test (index : ℕ)
  | wait (index : ℕ)
  | waitall

/-- A thread is outside of the calls. -/
def Pc.isOut {ρ : Type} : Pc ρ → Bool
  | .out | .posted _ | .tested _ _ _ | .waited _ _ | .waitedAll _ => true
  | _ => false

/-- `pthread_cond_broadcast( &rrl->cond_waitall )`. -/
def Pc.broadcast {ρ : Type} : Pc ρ → Pc ρ
  | .postSleep req => .post req
  | .waitallSleep pos earlier => .waitallWake pos earlier
  | pc => pc

/-- `pthread_cond_signal( &rrl->cond )`. -/
def Daemon.signal {ρ : Type} : Daemon ρ → Daemon ρ
  | .asleep => .lock
  | d => d

/-- The thread sleeps on the condition of the request in the slot. -/
def Pc.sleepsAt {ρ : Type} (j : ℕ) : Pc ρ → Bool
  | .waitSleep index => slot index = j
  | _ => false

section Step

variable {κ ρ : Type} [DecidableEq κ]

namespace State

def setPc (s : State κ ρ) (c : κ) (pc : Pc ρ) : State κ ρ :=
  { s with pc := Function.update s.pc c pc }

/-- The first accesses of a call. -/
def call (s : State κ ρ) (c : κ) (op : Op ρ) : Option (State κ ρ) :=
  if (s.pc c).isOut then
    some (s.setPc c (match op with
      | .post req => .post req
      | .test index => .test index
      | .wait index => .wait index
      | .waitall => .waitall s.posw))
  else none

/-- `post_request`, with the lock of the queue. -/
def post (s : State κ ρ) (c : κ) (req : ρ) : State κ ρ :=
  if maxReglist ≤ s.posw - s.posr then s.setPc c (.postSleep req)
  else
    { s.setPc c (.posted s.posw) with
      posw := s.posw + 1
      req := Function.update s.req (slot s.posw) req
      state := Function.update s.state (slot s.posw) .post
      daemon := s.daemon.signal
      posted := s.posted ++ [req] }

/-- The second comparison of a test. -/
def testRead (s : State κ ρ) (c : κ) (index : ℕ) : State κ ρ :=
  s.setPc c (.tested index (if index ≤ s.posr then .ok else .einprogress)
    (decide (index < s.executed.length)))

/-- A wait takes the lock of the queue. -/
def waitLock (s : State κ ρ) (c : κ) (index : ℕ) : State κ ρ :=
  if s.posr ≤ index then { s.setPc c (.waitReq index) with lock := some (.client c) }
  else s.setPc c (.waited index .ok)

/-- A wait looks at the state of its request. The lock is released by `pthread_cond_wait` only. -/
def waitState (s : State κ ρ) (c : κ) (index : ℕ) : State κ ρ :=
  if s.state (slot index) = .post then
    { s.setPc c (.waitSleep index) with
      state := Function.update s.state (slot index) .wait
      reqLock := Function.update s.reqLock (slot index) none }
  else s.setPc c (.waited index .ok)

/-- The loop of a wait for all requests up to `pos`. -/
def waitallLoop (s : State κ ρ) (c : κ) (pos earlier : ℕ) : State κ ρ :=
  if s.posr < pos then s.setPc c (.waitallSleep pos earlier) else s.setPc c (.waitedAll earlier)

/-- The next step of a thread in a call. -/
def client (s : State κ ρ) (c : κ) : Option (State κ ρ) :=
  match s.pc c with
  | .post req => if s.lock = none then some (s.post c req) else none
  | .test index =>
      if s.posw ≤ index then
        some (s.setPc c (.tested index .einval (decide (index < s.executed.length))))
      else some (s.setPc c (.testRead index))
  | .testRead index => some (s.testRead c index)
  | .wait index =>
      if s.posw ≤ index then some (s.setPc c (.waited index .einval))
      else some (s.setPc c (.waitLock index))
  | .waitLock index => if s.lock = none then some (s.waitLock c index) else none
  | .waitReq index =>
      if s.reqLock (slot index) = none then
        some { s.setPc c (.waitState index) with
          reqLock := Function.update s.reqLock (slot index) (some c)
          lock := none }
      else none
  | .waitState index => some (s.waitState c index)
  | .waitWake index =>
      if s.reqLock (slot index) = none then some (s.setPc c (.waited index .ok)) else none
  | .waitall earlier => if s.lock = none then some (s.waitallLoop c s.posw earlier) else none
  | .waitallWake pos earlier =>
      if s.lock = none then some (s.waitallLoop c pos earlier) else none
  | .postSleep _ | .waitSleep _ | .waitallSleep _ _ => none
  | .out | .posted _ | .tested _ _ _ | .waited _ _ | .waitedAll _ => none

/-- `pthread_cond_signal( &rrl->req[index].cond )` wakes the thread `w`, if there is one asleep. -/
def signalReq [Fintype κ] (s : State κ ρ) (j : ℕ) (w : Option κ) : Option (κ → Pc ρ) :=
  match w with
  | none => if ∀ c, (s.pc c).sleepsAt j = false then some s.pc else none
  | some c =>
      match s.pc c with
      | .waitSleep index =>
          if slot index = j then some (Function.update s.pc c (.waitWake index)) else none
      | _ => none

/-- The daemon marks its request as done, with both locks. -/
def finish [Fintype κ] (s : State κ ρ) (w : Option κ) : Option (State κ ρ) :=
  let j := slot s.posr
  if s.reqLock j = none then
    (if s.state j = .wait then s.signalReq j w else some s.pc).map fun pc =>
      { s with
        state := Function.update s.state j .done
        posr := s.posr + 1
        pc := fun c => (pc c).broadcast
        daemon := .check }
  else none

/-- The next step of the daemon. -/
def daemonStep [Fintype κ] (s : State κ ρ) (w : Option κ) : Option (State κ ρ) :=
  match s.daemon with
  | .lock =>
      if s.lock = none then some { s with lock := some .daemon, daemon := .check } else none
  | .check =>
      if s.posw = s.posr then some { s with lock := none, daemon := .asleep }
      else if s.posr < s.posw then
        some { s with lock := none, daemon := .execute (s.req (slot s.posr)) }
      else some s
  | .asleep => none
  | .execute req => some { s with executed := s.executed ++ [req], daemon := .relock }
  | .relock =>
      if s.lock = none then some { s with lock := some .daemon, daemon := .finish } else none
  | .finish => s.finish w

/-- A thread wakes up without a signal. -/
def spurious (s : State κ ρ) (c : κ) : Option (State κ ρ) :=
  match s.pc c with
  | .postSleep req => some (s.setPc c (.post req))
  | .waitSleep index => some (s.setPc c (.waitWake index))
  | .waitallSleep pos earlier => some (s.setPc c (.waitallWake pos earlier))
  | _ => none

end State

/-- The calls and the steps of the threads, the steps of the daemon with the thread that a signal
wakes, and wake-ups without a signal. -/
inductive Action (κ ρ : Type) where
  | call (c : κ) (op : Op ρ)
  | client (c : κ)
  | daemon (w : Option κ)
  | spurious (c : κ)
  | spuriousDaemon

def step [Fintype κ] (s : State κ ρ) : Action κ ρ → Option (State κ ρ)
  | .call c op => s.call c op
  | .client c => s.client c
  | .daemon w => s.daemonStep w
  | .spurious c => s.spurious c
  | .spuriousDaemon =>
      match s.daemon with
      | .asleep => some { s with daemon := .lock }
      | _ => none

/-- After `kaapi_cuda_init_reqreg_list`, with the daemon started. -/
structure Initial (s : State κ ρ) : Prop where
  posw : s.posw = 0
  posr : s.posr = 0
  lock : s.lock = none
  reqLock : ∀ j, s.reqLock j = none
  daemon : s.daemon = .lock
  pc : ∀ c, s.pc c = .out
  posted : s.posted = []
  executed : s.executed = []

def system (κ ρ : Type) [Fintype κ] [DecidableEq κ] :
    TransitionSystem (State κ ρ) (Action κ ρ) where
  initial := Initial
  step := step

/-- The thread waits for the request, and has released the lock of the queue. -/
def Pc.waitsFor {ρ : Type} (index : ℕ) : Pc ρ → Bool
  | .waitState i | .waitSleep i => i = index
  | _ => false

/-- The conditions on the next access of a thread: a test does not look at the request that is being
executed, and no other thread waits for the request of a wait. -/
def State.PointOk (s : State κ ρ) : Pc ρ → Prop
  | .testRead index => index = s.posr → index < s.executed.length
  | .waitLock index => s.posr ≤ index → ∀ c, (s.pc c).waitsFor index = false
  | _ => True

/-- A thread that waits for a request does not wake up without the signal. -/
def Pc.Wakes {ρ : Type} : Pc ρ → Bool
  | .waitSleep _ => false
  | _ => true

/-- The action is a step of a thread in a call, or of the daemon. -/
def Action.isStep : Action κ ρ → Bool
  | .client _ | .daemon _ => true
  | _ => false

/-- The condition on a step. -/
def Ok (s : State κ ρ) : Action κ ρ → Prop
  | .client c => s.PointOk (s.pc c)
  | .spurious c => (s.pc c).Wakes = true
  | _ => True

instance [Fintype κ] (s : State κ ρ) (pc : Pc ρ) : Decidable (s.PointOk pc) :=
  match pc with
  | .testRead _ => inferInstanceAs (Decidable (_ → _))
  | .waitLock _ => inferInstanceAs (Decidable (_ → ∀ _, _))
  | .out | .posted _ | .tested _ _ _ | .waited _ _ | .waitedAll _ | .post _ | .postSleep _
  | .test _ | .wait _ | .waitReq _ | .waitState _ | .waitSleep _ | .waitWake _ | .waitall _
  | .waitallSleep _ _ | .waitallWake _ _ => .isTrue trivial

instance [Fintype κ] (s : State κ ρ) (a : Action κ ρ) : Decidable (Ok s a) :=
  match a with
  | .client c => inferInstanceAs (Decidable (s.PointOk (s.pc c)))
  | .spurious c => inferInstanceAs (Decidable ((s.pc c).Wakes = true))
  | .call _ _ | .daemon _ | .spuriousDaemon => .isTrue trivial

end Step

end Xkblas.Offload.PinQueue
