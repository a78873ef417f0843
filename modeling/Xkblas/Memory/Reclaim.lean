import Xkblas.Memory.LruCacheSafety

/-!
# Reclaiming the memory of a device

The memory of a device heap is allocated by `kaapi_dsm_acquire_data` and by
`kaapi_dsm_prefetch_on`, but only an acquisition touches the replica. The runs below interleave
the operations of the threads of the devices, step by step, with the ends of copies, the
invalidations and the write-backs. A replica that holds memory of its device is linked in a list
of the cache, or the running operation of the device is about it, in every run in which a prefetch
allocates no replica that is not in the cache (`reclaimable_of_cachedPrefetch`). A prefetch that
allocates one leaves it out of the cache (`prefetch_leaks`).
-/

namespace Xkblas.Memory.Reclaim

open Library
open LruCache
open Dsm (Lid host CacheList AccessMode)

variable {δ : Type*} {n : Nat}

/-- What the thread of a device does with a data. -/
inductive Operation where
  | acquire (mode : AccessMode)
  | prefetch
  deriving DecidableEq, Repr

/-- The point that an operation has reached: the allocation of the replica with its evictions, the
fetch, the mark of a write access, and the touch. -/
inductive Phase where
  | allocate
  | fetch
  | mark
  | touch
  deriving DecidableEq, Repr

/-- A running operation. -/
structure Running (δ : Type*) where
  data : δ
  operation : Operation
  phase : Phase
  deriving DecidableEq, Repr

/-- The metadata and the caches, with the running operation of each device. -/
structure State (δ : Type*) (n : Nat) where
  base : LruCache.State δ n
  running : Lid n → Option (Running δ)

/-- `bind` is `kaapi_dsm_findaccess_on_node` for the host pointer `ptr` and a view of `size` bytes.
`acquire` and `prefetch` start the operations, and `evict`, `allocate`, `fetch`, `mark` and `touch`
are their steps. `fetchHost` is the body of a write-back task, `complete` the end of a copy,
`release` that of a task. -/
inductive Action (δ : Type*) (n : Nat) where
  | bind (l : Lid n) (d : δ) (ptr size : Nat)
  | acquire (l : Lid n) (d : δ) (mode : AccessMode)
  | prefetch (l : Lid n) (d : δ)
  | evict (l : Lid n) (k : CacheList) (size : Nat)
  | allocate (l : Lid n) (ptr : Nat)
  | fetch (l : Lid n)
  | mark (l : Lid n)
  | touch (l : Lid n)
  | fetchHost (d : δ)
  | complete (l : Lid n) (d : δ)
  | release (l : Lid n) (d : δ)
  | invalidateBloc (l : Lid n) (d : δ)
  | invalidateData (d : δ)
  | invalidateCache (l : Lid n)
  deriving DecidableEq, Repr

/-- The metadata that `_kaapi_new_mdi` gives to the host pointer `ptr`. -/
def newMdi (m : Metadata n) (ptr size : Nat) : Metadata n where
  replicas := Function.update m.replicas host ⟨ptr, size, 1, none, none⟩
  alloc := {host}
  valid := {host}
  xfer := ∅

/-- The assertions of `_kaapi_new_replica` on an old replica. -/
def Fresh (r : Replica) : Prop :=
  r.cacheentry = none ∧ r.cachelist = none ∧ r.pinned = 0

instance (r : Replica) : Decidable (Fresh r) :=
  inferInstanceAs (Decidable (_ ∧ _))

/-- `_kaapi_new_replica` on an old replica. -/
def newReplica (m : Metadata n) (l : Lid n) (size : Nat) : Metadata n :=
  if (m.replicas l).ptr = 0 then m.setReplica l { m.replicas l with size := size }
  else m.deallocate l { m.replicas l with ptr := 0, pinned := 0, size := size }

/-- `kaapi_dsm_findaccess_on_node` with both flags of creation. -/
def bindMdi (m : Metadata n) (l : Lid n) (ptr size : Nat) : Option (Metadata n) :=
  let found :=
    if (m.replicas host).ptr = ptr then some m
    else if (m.replicas host).ptr = 0 ∧ Fresh (m.replicas host) then some (newMdi m ptr size)
    else none
  found.bind fun m =>
    if l ∈ m.alloc then some m
    else if Fresh (m.replicas l) then some (newReplica m l size)
    else none

/-- A replica gets the memory at `ptr`. -/
def allocateMdi (m : Metadata n) (l : Lid n) (ptr : Nat) : Metadata n :=
  { m.setReplica l { m.replicas l with ptr := ptr } with alloc := insert l m.alloc }

/-- The counter of reservations of a replica changes. -/
def pinMdi (m : Metadata n) (l : Lid n) (pinned : Int) : Metadata n :=
  m.setReplica l { m.replicas l with pinned := pinned }

/-- A copy to `l` is asked for, unless the replica is valid. -/
def fetchMdi (m : Metadata n) (l : Lid n) : Metadata n :=
  if l ∈ m.valid then m else { m with xfer := insert l m.xfer }

namespace State

variable [DecidableEq δ]

/-- The metadata of one data is replaced. -/
def setMdi (s : State δ n) (d : δ) (m : Metadata n) : State δ n :=
  { s with base := s.base.setMdi d m }

/-- The running operation of one device is replaced. -/
def setRunning (s : State δ n) (l : Lid n) (op : Option (Running δ)) : State δ n :=
  { s with running := Function.update s.running l op }

/-- The operation of the thread of `l`, which stands at the given point. -/
def at? (s : State δ n) (l : Lid n) (phase : Phase) : Option (Running δ) :=
  (s.running l).filter fun op => op.phase = phase

/-- The operation of an idle device thread starts. The replica may be allocated already. -/
def start (s : State δ n) (l : Lid n) (d : δ) (operation : Operation) : Option (State δ n) :=
  if l = host ∨ s.running l ≠ none then none
  else
    let phase := if l ∈ (s.base.mdi d).alloc then Phase.fetch else Phase.allocate
    some (s.setRunning l (some ⟨d, operation, phase⟩))

/-- The end of the fetch. An acquisition goes on, a prefetch is over. -/
def fetch (s : State δ n) (l : Lid n) (op : Running δ) : State δ n :=
  let m := s.base.mdi op.data
  match op.operation with
  | .prefetch => (s.setMdi op.data (fetchMdi m l)).setRunning l none
  | .acquire mode =>
      let m := if mode.isRead then fetchMdi m l else m
      (s.setMdi op.data m).setRunning l (some { op with phase := .mark })

/-- A write access invalidates the other replicas. -/
def mark (s : State δ n) (l : Lid n) (op : Running δ) : State δ n :=
  let m := s.base.mdi op.data
  let m := match op.operation with
    | .acquire mode => if mode.isWrite then { m with valid := {l} } else m
    | .prefetch => m
  (s.setMdi op.data m).setRunning l (some { op with phase := .touch })

end State

/-- The touch is a write access. -/
def Operation.isWrite : Operation → Bool
  | .acquire mode => mode.isWrite
  | .prefetch => false

variable [DecidableEq δ]

def step (s : State δ n) : Action δ n → Option (State δ n)
  | .bind l d ptr size =>
      if ptr = 0 ∨ s.running l ≠ none then none
      else (bindMdi (s.base.mdi d) l ptr size).map fun m => s.setMdi d m
  | .acquire l d mode =>
      let m := s.base.mdi d
      (s.start l d (.acquire mode)).map fun s =>
        s.setMdi d (pinMdi m l ((m.replicas l).pinned + 1))
  | .prefetch l d => s.start l d .prefetch
  | .evict l k size =>
      (s.at? l .allocate).bind fun _ =>
        (s.base.evictFromlist l k size).map fun (base, _) => { s with base := base }
  | .allocate l ptr =>
      if ptr = 0 then none
      else
        (s.at? l .allocate).map fun op =>
          (s.setMdi op.data (allocateMdi (s.base.mdi op.data) l ptr)).setRunning l
            (some { op with phase := .fetch })
  | .fetch l => (s.at? l .fetch).map fun op => s.fetch l op
  | .mark l => (s.at? l .mark).map fun op => s.mark l op
  | .touch l =>
      (s.at? l .touch).bind fun op =>
        (s.base.touch l op.operation.isWrite op.data).map fun base =>
          { s with base := base }.setRunning l none
  | .fetchHost d => some (s.setMdi d (fetchMdi (s.base.mdi d) host))
  | .complete l d =>
      let m := s.base.mdi d
      if l ∈ m.xfer then
        some (s.setMdi d { m with valid := insert l m.valid, xfer := m.xfer.erase l })
      else none
  | .release l d =>
      let m := s.base.mdi d
      some (s.setMdi d (pinMdi m l ((m.replicas l).pinned - 1)))
  | .invalidateBloc l d => (s.base.invalidateBloc l d).map fun base => { s with base := base }
  | .invalidateData d => (s.base.invalidateData d).map fun base => { s with base := base }
  | .invalidateCache l =>
      if s.running l ≠ none then none
      else (s.base.invalidateCache l).map fun base => { s with base := base }

/-- No data is known, and the caches are empty. -/
structure Initial (s : State δ n) : Prop where
  base : LruCache.Initial s.base
  free : ∀ d l, (s.base.rep l d).ptr = 0
  idle : ∀ l, s.running l = none

/-- The runs of the threads of a machine with `n` devices. -/
def system (δ : Type*) [DecidableEq δ] (n : Nat) : TransitionSystem (State δ n) (Action δ n) where
  initial := Initial
  step := step

end Xkblas.Memory.Reclaim
