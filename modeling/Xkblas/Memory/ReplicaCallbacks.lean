import Xkblas.Memory.Dsm

/-!
# The callbacks of the replicas of one data

Several threads fetch one data to replicas of their choice. A replica under transfer keeps
callbacks in a slot of its own and in a linked list. A fetch from a source that is itself under
transfer leaves a callback on the source that sends the data on. The steps below are those of
`kaapi_dsm_fetch_on` (the test without lock, the choice of the source, the part under the locks of
the two replicas, the copy that it emits) and of `callback_activate_replica_on_receive_cbk`, which
runs the callbacks of a replica one after the other under its lock.
-/

namespace Xkblas.Memory.ReplicaCallbacks

open Library
open Dsm (Lid host)

/-- A callback of a replica: that of the fetch `fetch`, or `callback_resend_replica_on_callback_cbk`
from `src` to `dest`. -/
inductive Callback (n : Nat) where
  | user (fetch : Nat)
  | resend (src dest : Lid n)
  deriving DecidableEq, Repr

/-- A copy that has been given to a device. -/
structure Copy (n : Nat) where
  src : Lid n
  dest : Lid n
  deriving DecidableEq, Repr

/-- What `kaapi_dsm_fetch_on` returns. -/
inductive Result where
  | ok
  | inProgress
  deriving DecidableEq, Repr

/-- Where a thread stands in `kaapi_dsm_fetch_on`. -/
inductive Pc (n : Nat) where
  | idle
  | choosing (fetch : Nat)
  | selected (fetch : Nat) (src : Lid n)
  | emitting (fetch : Nat) (src : Lid n)
  deriving DecidableEq, Repr

/-- The state of the data. `slot` is the callback in the replica and `rest` the list of the
allocated ones. A replica is `receiving` while a completed copy holds its lock and runs its
callbacks. `dest` and `result` describe the fetches, numbered in the order of their calls, and
`called` logs the callbacks that have been run, each with the validity of its destination then. -/
structure State (τ : Type*) (n : Nat) where
  valid : Finset (Lid n)
  xfer : Finset (Lid n)
  slot : Lid n → Option (Callback n)
  rest : Lid n → List (Callback n)
  receiving : Lid n → Bool
  copies : List (Copy n)
  thread : τ → Pc n
  dest : Nat → Lid n
  result : Nat → Option Result
  nextFetch : Nat
  called : List (Nat × Bool)

/-- A thread `t` calls `kaapi_dsm_fetch_on`, chooses a source, takes the locks, and emits the copy.
The copy `i` is received, and the replica `l` runs its next callback or is unlocked. -/
inductive Action (τ : Type*) (n : Nat) where
  | fetch (t : τ) (dest : Lid n)
  | choose (t : τ) (src : Lid n)
  | lock (t : τ)
  | emit (t : τ)
  | receive (i : Nat)
  | callback (l : Lid n)
  deriving DecidableEq, Repr

variable {τ : Type*} {n : Nat}

namespace State

/-- The callbacks of a replica, in the order in which they run. -/
def callbacks (s : State τ n) (l : Lid n) : List (Callback n) :=
  (s.slot l).toList ++ s.rest l

/-- `_allocate_callback` and the assignment of the callback. An empty slot also cuts the list. -/
def allocateCallback (s : State τ n) (l : Lid n) (c : Callback n) : State τ n :=
  { s with
    slot := if s.slot l = none then Function.update s.slot l (some c) else s.slot
    rest := Function.update s.rest l (if s.slot l = none then [] else c :: s.rest l) }

/-- A completed copy takes the lock of its destination and marks the data received. -/
def markReceived (s : State τ n) (l : Lid n) : State τ n :=
  { s with
    valid := insert l s.valid
    xfer := s.xfer.erase l
    receiving := Function.update s.receiving l true }

@[simp] theorem receiving_markReceived_self {s : State τ n} {l : Lid n} :
    (s.markReceived l).receiving l = true :=
  Function.update_self _ _ _

theorem receiving_markReceived_of_ne {s : State τ n} {l l' : Lid n} (h : l' ≠ l) :
    (s.markReceived l).receiving l' = s.receiving l' :=
  Function.update_of_ne h _ _

/-- A callback runs. The data must not have reached the destination of a callback that sends it
on. -/
def runCallback (s : State τ n) (c : Callback n) : Option (State τ n) :=
  match c with
  | .user fetch =>
      some { s with called := (fetch, decide (s.dest fetch ∈ s.valid)) :: s.called }
  | .resend src dest =>
      if dest ∈ s.valid then none else some { s with copies := ⟨src, dest⟩ :: s.copies }

variable [DecidableEq τ]

/-- The thread goes on. -/
def setThread (s : State τ n) (t : τ) (pc : Pc n) : State τ n :=
  { s with thread := Function.update s.thread t pc }

/-- A fetch returns to its caller. -/
def return_ (s : State τ n) (t : τ) (fetch : Nat) (r : Result) : State τ n :=
  { s.setThread t .idle with result := Function.update s.result fetch (some r) }

/-- The part of `kaapi_dsm_fetch_on` under the locks of the source and of the destination. -/
def fetchLocked (s : State τ n) (t : τ) (fetch : Nat) (src : Lid n) : State τ n :=
  let dest := s.dest fetch
  if dest ∈ s.valid then s.return_ t fetch .ok
  else if src ∈ s.xfer ∧ dest ∉ s.xfer then
    -- `d2d_route`: the callback is left on the destination, and one that sends on on the source
    let s := s.allocateCallback dest (.user fetch)
    let s := { s with xfer := insert dest s.xfer }
    (s.allocateCallback src (.resend src dest)).return_ t fetch .inProgress
  else
    let s := s.allocateCallback dest (.user fetch)
    if dest ∈ s.xfer then s.return_ t fetch .inProgress
    else { s with xfer := insert dest s.xfer }.setThread t (.emitting fetch src)

end State

variable [DecidableEq τ]

/-- The step function. `_kaapi_get_source_lid` returns a valid replica, or one under transfer when
no device is valid; which one is left open. -/
def step (s : State τ n) : Action τ n → Option (State τ n)
  | .fetch t dest =>
      if s.thread t = .idle then
        let fetch := s.nextFetch
        let s := { s with
          nextFetch := fetch + 1
          dest := Function.update s.dest fetch dest }
        if dest ∈ s.valid then some (s.return_ t fetch .ok)
        else some (s.setThread t (.choosing fetch))
      else none
  | .choose t src =>
      match s.thread t with
      | .choosing fetch =>
          if s.receiving host = false ∧ (src ∈ s.valid ∨ src ∈ s.xfer) then
            some (s.setThread t (.selected fetch src))
          else none
      | _ => none
  | .lock t =>
      match s.thread t with
      | .selected fetch src =>
          if s.receiving src = false ∧ s.receiving (s.dest fetch) = false then
            some (s.fetchLocked t fetch src)
          else none
      | _ => none
  | .emit t =>
      match s.thread t with
      | .emitting fetch src =>
          let s := { s with copies := ⟨src, s.dest fetch⟩ :: s.copies }
          some (s.return_ t fetch .inProgress)
      | _ => none
  | .receive i =>
      match s.copies[i]? with
      | none => none
      | some c =>
          if s.receiving c.dest = false then
            some ({ s with copies := s.copies.eraseIdx i }.markReceived c.dest)
          else none
  | .callback l =>
      if s.receiving l then
        match s.slot l with
        | some c => { s with slot := Function.update s.slot l none }.runCallback c
        | none =>
            match s.rest l with
            | c :: rest => { s with rest := Function.update s.rest l rest }.runCallback c
            | [] => some { s with receiving := Function.update s.receiving l false }
      else none

/-- Some replica is valid, and nothing is under transfer. -/
structure Initial (s : State τ n) : Prop where
  valid : s.valid.Nonempty
  xfer : s.xfer = ∅
  slot : ∀ l, s.slot l = none
  rest : ∀ l, s.rest l = []
  receiving : ∀ l, s.receiving l = false
  copies : s.copies = []
  thread : ∀ t, s.thread t = .idle
  result : ∀ k, s.result k = none
  called : s.called = []
  nextFetch : s.nextFetch = 0

/-- The interleavings of the fetches of the threads and of the ends of the copies. -/
def system (τ : Type*) [DecidableEq τ] (n : Nat) : TransitionSystem (State τ n) (Action τ n) where
  initial := Initial
  step := step

end Xkblas.Memory.ReplicaCallbacks
