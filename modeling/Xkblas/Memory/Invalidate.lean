import Xkblas.Memory.EvictSafety
import Xkblas.Memory.Reclaim

/-!
# The invalidation of a data

`kaapi_memory_cache_invalidate_data` clears the replicas of a data whose bit `alloc` is set: the
memory, the bits `alloc` and `valid`, the counter of reservations and the place in the cache. It
does not look at the copies of the data that are in flight. The runs below add these copies to the
operations of the threads of the devices. A copy whose source is itself under transfer waits for
it, and its callback then sends the data on.
-/

namespace Xkblas.Memory.Invalidate

open Library
open LruCache
open Dsm (Lid host CacheList)
open Reclaim (Operation Phase Running fetchMdi)

variable {δ : Type*} {n : Nat}

/-- What a copy waits for: the data on its source, then
`callback_resend_replica_on_callback_cbk`, then its end. -/
inductive Status where
  | waiting
  | resending
  | copying
  deriving DecidableEq, Repr

/-- A copy that has been asked for and has not been received. The copies are numbered in the order
of the requests. -/
structure Flight (δ : Type*) (n : Nat) where
  number : Nat
  data : δ
  dest : Lid n
  src : Lid n
  status : Status
  deriving DecidableEq, Repr

/-- The metadata, the caches and the operations of the devices, with the copies in flight. -/
structure State (δ : Type*) (n : Nat) where
  base : Reclaim.State δ n
  flights : List (Flight δ n)
  next : Nat

/-- `access` is `kaapi_dsm_findaccess_on_node` for the host pointer `ptr` and the start of the
operation. `evict`, `allocate`, `fetch`, `mark` and `touch` are the steps of the operation, and
`fetchHost` is the body of a write-back task. The copy `i` is received, or its callback sends the
data on. -/
inductive Action (δ : Type*) (n : Nat) where
  | access (l : Lid n) (d : δ) (ptr size : Nat) (operation : Operation)
  | evict (l : Lid n) (k : CacheList) (size : Nat)
  | allocate (l : Lid n) (ptr : Nat)
  | fetch (l src : Lid n)
  | mark (l : Lid n)
  | touch (l : Lid n)
  | fetchHost (d : δ) (src : Lid n)
  | receive (i : Nat)
  | forward (i : Nat)
  | release (l : Lid n) (d : δ)
  | invalidateData (d : δ)
  deriving DecidableEq, Repr

/-! ## The invalidation -/

section Invalidation

variable [DecidableEq δ]

/-- A block of a device heap. -/
abbrev Block (n : Nat) :=
  Lid n × Nat

/-- The blocks that the loop body of `kaapi_memory_cache_invalidate_data` frees. The memory of the
host belongs to the application. -/
def freedBlock (s : LruCache.State δ n) (d : δ) (l : Lid n) : List (Block n) :=
  if l = host ∨ (s.rep l d).ptr = 0 then [] else [(l, (s.rep l d).ptr)]

/-- One turn of the loop, with the blocks that have been freed. -/
def invalidateReplica (d : δ) (st : LruCache.State δ n × List (Block n)) (l : Lid n) :
    Option (LruCache.State δ n × List (Block n)) :=
  (st.1.invalidateReplica d l).map fun t => (t, st.2 ++ freedBlock st.1 d l)

/-- `kaapi_memory_cache_invalidate_data`, with the blocks that it frees. -/
def invalidateData (s : LruCache.State δ n) (d : δ) :
    Option (LruCache.State δ n × List (Block n)) :=
  ((List.finRange (n + 1)).filter (· ∈ (s.mdi d).alloc)).foldlM (invalidateReplica d) (s, [])

end Invalidation

/-! ## The copies -/

namespace State

/-- The metadata of a data. -/
def mdi (s : State δ n) (d : δ) : Metadata n :=
  s.base.base.mdi d

/-- A replica can be the source of a copy. -/
def HasSource (s : State δ n) (d : δ) (src : Lid n) : Prop :=
  src ∈ (s.mdi d).valid ∨ src ∈ (s.mdi d).xfer

instance (s : State δ n) (d : δ) (src : Lid n) : Decidable (s.HasSource d src) :=
  inferInstanceAs (Decidable (_ ∨ _))

/-- The copies after `kaapi_dsm_fetch_on`. A replica that is valid or under transfer needs none. -/
def addFlight (s : State δ n) (d : δ) (dest src : Lid n) : State δ n :=
  if dest ∈ (s.mdi d).valid ∨ dest ∈ (s.mdi d).xfer then s
  else
    let status := if src ∈ (s.mdi d).xfer then Status.waiting else Status.copying
    { s with flights := ⟨s.next, d, dest, src, status⟩ :: s.flights, next := s.next + 1 }

end State

/-- The callback of a waiting copy is due when its source receives the data. -/
def Flight.wake [DecidableEq δ] (received f : Flight δ n) : Flight δ n :=
  if f.status = .waiting ∧ f.data = received.data ∧ f.src = received.dest then
    { f with status := .resending }
  else f

/-- An operation fetches its data unless it only writes it. -/
def Operation.isRead : Operation → Bool
  | .acquire mode => mode.isRead
  | .prefetch => true

variable [DecidableEq δ]

namespace State

/-- A step of the machine without copies. -/
def lift (s : State δ n) (a : Reclaim.Action δ n) : Option (State δ n) :=
  (Reclaim.step s.base a).map fun base => { s with base := base }

/-- `callback_activate_replica_on_receive_cbk` for the copy `f`, the one at the index `i`. -/
def receive (s : State δ n) (i : Nat) (f : Flight δ n) : State δ n :=
  let m := s.mdi f.data
  { s with
    base := s.base.setMdi f.data
      { m with valid := insert f.dest m.valid, xfer := m.xfer.erase f.dest }
    flights := (s.flights.eraseIdx i).map f.wake }

end State

/-- The start of an operation. -/
def startAction (l : Lid n) (d : δ) : Operation → Reclaim.Action δ n
  | .acquire mode => .acquire l d mode
  | .prefetch => .prefetch l d

def step (s : State δ n) : Action δ n → Option (State δ n)
  | .access l d ptr size operation =>
      (s.lift (.bind l d ptr size)).bind fun s => s.lift (startAction l d operation)
  | .evict l k size => s.lift (.evict l k size)
  | .allocate l ptr => s.lift (.allocate l ptr)
  | .fetch l src =>
      (s.base.at? l .fetch).bind fun op =>
        let fetched := { s with base := s.base.fetch l op }
        if Operation.isRead op.operation then
          if s.HasSource op.data src then
            let u := s.addFlight op.data l src
            some { u with base := fetched.base }
          else none
        else some fetched
  | .mark l => s.lift (.mark l)
  | .touch l => s.lift (.touch l)
  | .fetchHost d src =>
      if host ∈ (s.mdi d).alloc ∧ s.HasSource d src then
        ((s.addFlight d host src).lift (.fetchHost d))
      else none
  | .receive i =>
      match s.flights[i]? with
      | none => none
      | some f => if f.status = .copying then some (s.receive i f) else none
  | .forward i =>
      match s.flights[i]? with
      | none => none
      | some f =>
          -- the assertion of `callback_resend_replica_on_callback_cbk`
          if f.status = .resending ∧ f.dest ∉ (s.mdi f.data).valid then
            some { s with flights := s.flights.set i { f with status := .copying } }
          else none
  | .release l d => s.lift (.release l d)
  | .invalidateData d =>
      (invalidateData s.base.base d).map fun (base, _) =>
        { s with base := { s.base with base := base } }

/-- No data is known, the caches are empty, and nothing is in flight. -/
structure Initial (s : State δ n) : Prop where
  base : Reclaim.Initial s.base
  unknown : ∀ d, (s.mdi d).alloc = ∅ ∧ (s.mdi d).xfer = ∅
  flights : s.flights = []

/-- The runs of the threads of a machine with `n` devices. -/
def system (δ : Type*) [DecidableEq δ] (n : Nat) : TransitionSystem (State δ n) (Action δ n) where
  initial := Initial
  step := step

end Xkblas.Memory.Invalidate
