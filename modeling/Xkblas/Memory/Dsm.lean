import Mathlib.Data.Finset.Insert
import Mathlib.Data.Fintype.Basic
import Mathlib.Data.Fintype.Sets
import Mathlib.Logic.Function.Basic
import Xkblas.Library.TransitionSystem

/-!
# The replicas of one data

The distributed shared memory keeps for each data a `kaapi_metadata_info_t`: the bit sets
`valid`, `alloc` and `xfer` over the locality domains, and one replica for each domain. The
steps below are those of `kaapi_dsm_acquire_data`, `kaapi_dsm_fetch_on`, the completion
callback of a copy with the forwarding callback, `kaapi_dsm_release_data`, the body of a
write-back task, the eviction of a replica and `kaapi_memory_writeback_all`, on one data.
Other data only matter through the evictions that their allocations cause, and an eviction
may start at any time.

A fetch is three steps: the choice of the source, which takes no lock of the two replicas, the
part under their locks, and the submission of the copy, which reads the pointer of the source
after they are unlocked. An eviction is three steps as well: the test of the bits, the second
test under the lock of the replica, and the drop.
-/

namespace Xkblas.Memory.Dsm

open Library

/-- The local identifiers of a machine with `n` devices. -/
abbrev Lid (n : Nat) := Fin (n + 1)

/-- The locality domain of the host, `lid0` in the source. -/
abbrev host {n : Nat} : Lid n := 0

inductive AccessMode where
  | r
  | w
  | rw
  deriving DecidableEq, Repr

/-- `KAAPI_ACCESS_IS_READ`. -/
def AccessMode.isRead : AccessMode → Bool
  | .r | .rw => true
  | .w => false

/-- `KAAPI_ACCESS_IS_WRITE`. -/
def AccessMode.isWrite : AccessMode → Bool
  | .w | .rw => true
  | .r => false

/-- The two lists of the software cache of a device. -/
inductive CacheList where
  | ro
  | rw
  deriving DecidableEq, Repr

/-- Where the thread that serves an access stands. `fetching` is `kaapi_dsm_fetch_on` with the
source chosen and the replicas not locked, `posting` is the same function with the replicas
unlocked and the copy not submitted, and `marking` is `kaapi_dsm_acquire_data` after the fetch.
`prefetching` and `postingHost` are the body of a write-back task in `kaapi_dsm_fetch_on`. -/
inductive AccessPc (n : Nat) where
  | fetching (src : Lid n)
  | posting
  | marking
  | acquired
  | prefetching (src : Lid n)
  | postingHost
  deriving DecidableEq, Repr

/-- An access of a task that runs on the device `lid`, from the start of its acquisition to its
release. It is `waiting` while its `callback_set_valid` is attached to the replica. -/
structure Access (n : Nat) where
  lid : Lid n
  mode : AccessMode
  pc : AccessPc n
  waiting : Bool
  deriving DecidableEq, Repr

/-- The acquisition of the access has not returned. -/
def AccessPc.acquiring {n : Nat} : AccessPc n → Bool
  | .fetching _ | .posting | .marking => true
  | .acquired | .prefetching _ | .postingHost => false

/-- The body of a write-back task fetches the data on the host. -/
def AccessPc.prefetches {n : Nat} : AccessPc n → Bool
  | .prefetching _ | .postingHost => true
  | .fetching _ | .posting | .marking | .acquired => false

/-- The source that the access has chosen and not yet locked. -/
def AccessPc.selected {n : Nat} : AccessPc n → Option (Lid n)
  | .fetching src | .prefetching src => some src
  | .posting | .marking | .acquired | .postingHost => none

/-- The life of a transfer. With `onReceive` it is a
`callback_resend_replica_on_callback_cbk` attached to its source, and with `unposted` a fetch
that has unlocked the replicas and not called `kaapi_memory_copy_async`. Then it is a copy given
to the device, and last a copy that has read its source and whose callback is to run. -/
inductive TransferPc where
  | onReceive
  | unposted
  | submitted
  | received (payload : Option Nat)
  deriving DecidableEq, Repr

/-- A transfer to `dest`. A submitted copy has the pointer `srcPtr` of the source, and
`srcWrites` records how many write accesses had been acquired on the source. -/
structure Transfer (n : Nat) where
  src : Lid n
  dest : Lid n
  pc : TransferPc
  srcPtr : Option Nat
  srcWrites : Nat
  deriving DecidableEq, Repr

/-- The copy has been given to a device. -/
def TransferPc.inFlight : TransferPc → Bool
  | .onReceive | .unposted => false
  | .submitted | .received _ => true

/-- What a device thread does with the data outside of its accesses: it evicts its replica, or
it writes it back for a synchronisation. The fetch of a write-back has its source chosen with
`writingBack`, and the replicas unlocked and the copy not submitted with `posting`. -/
inductive ThreadPc (n : Nat) where
  | idle
  | evictTested
  | evictLocked
  | writingBack (src : Lid n)
  | posting
  deriving DecidableEq, Repr

/-- The thread is in `kaapi_memory_cache_evict_fromlist`, on the entry of the data. -/
def ThreadPc.evicting {n : Nat} : ThreadPc n → Bool
  | .evictTested | .evictLocked => true
  | .idle | .writingBack _ | .posting => false

/-- The thread is in `kaapi_memory_writeback_all`, on the entry of the data. -/
def ThreadPc.writesBack {n : Nat} : ThreadPc n → Bool
  | .writingBack _ | .posting => true
  | .idle | .evictTested | .evictLocked => false

/-- The source that the thread has chosen and not yet locked. -/
def ThreadPc.selected {n : Nat} : ThreadPc n → Option (Lid n)
  | .writingBack src => some src
  | .idle | .evictTested | .evictLocked | .posting => none

/-- The metadata with its replicas, its accesses and its transfers.

`holds` is the version that a replica holds, `version` the one of the last write acquired, and
`writes` counts the write accesses acquired on a replica. `synced` collects the devices whose
`kaapi_memory_writeback_all` has looked at the data since the last access, with its copy to the
host, if it needs one, among the transfers. -/
structure State (n : Nat) where
  valid : Finset (Lid n)
  alloc : Finset (Lid n)
  xfer : Finset (Lid n)
  pinned : Lid n → Nat
  ptr : Lid n → Option Nat
  nextPtr : Nat
  cachelist : Lid n → Option CacheList
  holds : Lid n → Option Nat
  version : Nat
  writes : Lid n → Nat
  accesses : List (Access n)
  transfers : List (Transfer n)
  thread : Lid n → ThreadPc n
  synced : Finset (Lid n)

variable {n : Nat}

/-- A new metadata: the host holds the data, and its replica is pinned. -/
def initial : State n where
  valid := {host}
  alloc := {host}
  xfer := ∅
  pinned := fun l => if l = host then 1 else 0
  ptr := fun l => if l = host then some 0 else none
  nextPtr := 1
  cachelist := fun _ => none
  holds := fun l => if l = host then some 0 else none
  version := 0
  writes := fun _ => 0
  accesses := []
  transfers := []
  thread := fun _ => .idle
  synced := ∅

namespace State

/-! ## The operations on the metadata -/

/-- `_kaapi_get_source_lid`: the host if no device is valid or in transfer, else a valid device
if there is one, else a device in transfer. The driver chooses among them. -/
def IsSource (s : State n) (src : Lid n) : Prop :=
  if s.valid.erase host = ∅ then
    if s.xfer.erase host = ∅ then src = host else src ∈ s.xfer.erase host
  else src ∈ s.valid.erase host

instance (s : State n) (src : Lid n) : Decidable (s.IsSource src) := by
  unfold IsSource
  infer_instance

/-- `kaapi_memory_replica_is_notpinned` and `kaapi_memory_replica_is_valid_excepton`: the test of
the eviction of the replica `l`. -/
def Evictable (s : State n) (l : Lid n) : Prop :=
  s.pinned l = 0 ∧ s.valid.erase l ≠ ∅

instance (s : State n) (l : Lid n) : Decidable (s.Evictable l) :=
  inferInstanceAs (Decidable (_ ∧ _))

/-- The device thread is not in an acquisition, an eviction or a write-back of the data. -/
def ThreadIdle (s : State n) (l : Lid n) : Prop :=
  s.thread l = .idle ∧ ∀ a ∈ s.accesses, a.lid = l → a.pc.acquiring = false

instance (s : State n) (l : Lid n) : Decidable (s.ThreadIdle l) :=
  inferInstanceAs (Decidable (_ ∧ _))

/-- The dependency order of the handle: a write access starts alone, a read access without a
write access. -/
def Ordered (s : State n) (mode : AccessMode) : Prop :=
  if mode.isWrite then s.accesses = [] else ∀ a ∈ s.accesses, a.mode.isWrite = false

instance (s : State n) (mode : AccessMode) : Decidable (s.Ordered mode) := by
  unfold Ordered
  infer_instance

/-- The lock of the replica is not held by an eviction. -/
def Unlocked (s : State n) (l : Lid n) : Prop :=
  s.thread l ≠ .evictLocked

instance (s : State n) (l : Lid n) : Decidable (s.Unlocked l) :=
  inferInstanceAs (Decidable (¬ _))

/-- `_kaapi_dsm_allocate_replica`, unless the replica is allocated. -/
def allocate (s : State n) (l : Lid n) : State n :=
  if l ∈ s.alloc then s
  else
    { s with
      alloc := insert l s.alloc
      ptr := Function.update s.ptr l (some s.nextPtr)
      nextPtr := s.nextPtr + 1
      holds := Function.update s.holds l none }

/-- The copy that `kaapi_memory_copy_async` gets, with the pointer of the source at this time. -/
def copyAsync (s : State n) (src dest : Lid n) : Transfer n :=
  { src, dest, pc := .submitted, srcPtr := s.ptr src, srcWrites := s.writes src }

/-- `kaapi_dsm_fetch_on` under the locks of the two replicas. It returns `EINPROGRESS` unless
`dest` is valid. -/
def fetchOn (s : State n) (dest src : Lid n) : State n :=
  if dest ∈ s.valid then s
  else if dest ∈ s.xfer then s
  else if src ∈ s.xfer then
    -- `d2d_route`: the source is itself waiting for the data and will forward it
    let resend := { src, dest, pc := .onReceive, srcPtr := none, srcWrites := 0 }
    { s with xfer := insert dest s.xfer, transfers := s.transfers ++ [resend] }
  else
    let copy := { src, dest, pc := .unposted, srcPtr := none, srcWrites := 0 }
    { s with xfer := insert dest s.xfer, transfers := s.transfers ++ [copy] }

/-- `kaapi_dsm_fetch_on` does not return under the locks: it has a copy to submit. -/
def Posts (s : State n) (dest src : Lid n) : Prop :=
  dest ∉ s.valid ∧ dest ∉ s.xfer ∧ src ∉ s.xfer

instance (s : State n) (dest src : Lid n) : Decidable (s.Posts dest src) :=
  inferInstanceAs (Decidable (_ ∧ _))

/-- The point of a thread after the part of its fetch under the locks. -/
def afterFetch {α : Type*} (s : State n) (dest src : Lid n) (posting returned : α) : α :=
  if s.Posts dest src then posting else returned

/-- The submission of the copy to `dest`, on one transfer. -/
def posted (s : State n) (dest : Lid n) (t : Transfer n) : Transfer n :=
  if t.dest = dest ∧ t.pc = .unposted then s.copyAsync t.src t.dest else t

/-- The end of `kaapi_dsm_fetch_on`: `kaapi_memory_copy_async` with the pointers of the replicas,
which no lock protects any more. -/
def postCopy (s : State n) (dest : Lid n) : State n :=
  { s with transfers := s.transfers.map (s.posted dest) }

/-- `kaapi_memory_replica_set_all_dirty_except` for a write access, which makes a version. -/
def setAllDirtyExcept (s : State n) (l : Lid n) : State n :=
  { s with
    valid := {l}
    version := s.version + 1
    holds := Function.update s.holds l (some (s.version + 1))
    writes := Function.update s.writes l (s.writes l + 1) }

/-- `kaapi_memory_cache_touch`: a replica of the `rw` list stays there as long as the host is not
valid. -/
def cacheTouch (s : State n) (l : Lid n) (mode : AccessMode) : State n :=
  let list :=
    if s.cachelist l = some .rw ∧ host ∉ s.valid then .rw
    else if mode.isWrite then .rw else .ro
  { s with cachelist := Function.update s.cachelist l (some list) }

/-- A write access has been acquired on `l` and not released. The task will write the replica,
whatever a late copy of its input brings. -/
def HasWriter (s : State n) (l : Lid n) : Prop :=
  ∃ a ∈ s.accesses, a.lid = l ∧ a.mode.isWrite = true ∧ a.pc.acquiring = false

instance (s : State n) (l : Lid n) : Decidable (s.HasWriter l) := by
  unfold HasWriter
  infer_instance

/-- `callback_resend_replica_on_callback_cbk` on the transfers that wait for `l`. -/
def resend (s : State n) (l : Lid n) (t : Transfer n) : Transfer n :=
  if t.src = l ∧ t.pc = .onReceive then s.copyAsync l t.dest else t

/-- `callback_activate_replica_on_receive_cbk` for the replica `l`, on the transfers that remain:
the bits, the `callback_set_valid` of the tasks, and the forwarding of the data. -/
def activateReplica (s : State n) (l : Lid n) (payload : Option Nat)
    (transfers : List (Transfer n)) : State n :=
  { s with
    valid := insert l s.valid
    xfer := s.xfer.erase l
    holds := if s.HasWriter l then s.holds else Function.update s.holds l payload
    accesses := s.accesses.map fun a => if a.lid = l then { a with waiting := false } else a
    transfers := transfers.map (s.resend l) }

/-- What the copy of `t` reads from the address of its source. -/
def readSource (s : State n) (t : Transfer n) : Option Nat :=
  if s.ptr t.src = t.srcPtr then s.holds t.src else none

/-- The replica `l` is dropped from the cache. -/
def dropReplica (s : State n) (l : Lid n) : State n :=
  { s with
    valid := s.valid.erase l
    alloc := s.alloc.erase l
    ptr := Function.update s.ptr l none
    holds := Function.update s.holds l none
    cachelist := Function.update s.cachelist l none
    thread := Function.update s.thread l .idle }

/-- The access starts on the device `l`: its replica is pinned and allocated. -/
def startAccess (s : State n) (l : Lid n) (mode : AccessMode) (pc : AccessPc n) : State n :=
  { s.allocate l with
    pinned := Function.update s.pinned l (s.pinned l + 1)
    accesses := s.accesses ++ [⟨l, mode, pc, false⟩]
    synced := ∅ }

/-- The access `i` on `l` ends: its replica is unpinned. -/
def endAccess (s : State n) (i : Nat) (l : Lid n) : State n :=
  { s with
    pinned := Function.update s.pinned l (s.pinned l - 1)
    accesses := s.accesses.eraseIdx i }

def setThread (s : State n) (l : Lid n) (pc : ThreadPc n) : State n :=
  { s with thread := Function.update s.thread l pc }

def setAccess (s : State n) (i : Nat) (a : Access n) : State n :=
  { s with accesses := s.accesses.set i a }

def setTransfer (s : State n) (k : Nat) (t : Transfer n) : State n :=
  { s with transfers := s.transfers.set k t }

/-- `kaapi_memory_writeback_all` of the device `l` has looked at the data. -/
def addSynced (s : State n) (l : Lid n) : State n :=
  { s with synced := insert l s.synced }

end State

/-! ## The steps -/

/-- The steps of the device threads and of the copies. An access is named by its place in the
list of the accesses, a transfer by its place in the list of the transfers, and `src` is the
source that the driver chooses when one is needed. -/
inductive Action (n : Nat) where
  | acquire (l : Lid n) (mode : AccessMode) (src : Lid n)
  | fetch (i : Nat)
  | post (i : Nat)
  | mark (i : Nat)
  | release (i : Nat)
  | prefetch (i : Nat) (src : Lid n)
  | fetchHost (i : Nat)
  | copy (k : Nat)
  | complete (k : Nat)
  | evictTest (l : Lid n)
  | evictLock (l : Lid n)
  | evictDrop (l : Lid n)
  | writebackAll (l : Lid n) (src : Lid n)
  | writebackFetch (l : Lid n)
  | writebackPost (l : Lid n)
  deriving DecidableEq, Repr

/-- The steps of `kaapi_memory_cache_evict`. -/
def Action.evicts : Action n → Bool
  | .evictTest _ | .evictLock _ | .evictDrop _ => true
  | _ => false

/-- `kaapi_dsm_acquire_data` up to the choice of a source: the replica is pinned and allocated,
and a read access of a replica that is not valid fetches it. -/
def acquire (s : State n) (l : Lid n) (mode : AccessMode) (src : Lid n) : Option (State n) :=
  if l ≠ host ∧ s.ThreadIdle l ∧ s.Ordered mode ∧ ∀ d, (s.thread d).writesBack = false then
    if mode.isRead ∧ l ∉ s.valid then
      if s.IsSource src then some (s.startAccess l mode (.fetching src)) else none
    else some (s.startAccess l mode .marking)
  else none

/-- The fetch of an access, under the locks. The callback of the task is attached to the
replica unless the data is there. -/
def fetch (s : State n) (i : Nat) : Option (State n) :=
  match s.accesses[i]? with
  | some ⟨l, mode, .fetching src, _⟩ =>
      if s.Unlocked l ∧ s.Unlocked src then
        let pc := s.afterFetch l src .posting .marking
        some ((s.fetchOn l src).setAccess i ⟨l, mode, pc, decide (l ∉ s.valid)⟩)
      else none
  | _ => none

/-- The submission of the copy of a fetch, without locks. -/
def post (s : State n) (i : Nat) : Option (State n) :=
  match s.accesses[i]? with
  | some ⟨l, mode, .posting, waiting⟩ =>
      some ((s.postCopy l).setAccess i ⟨l, mode, .marking, waiting⟩)
  | some ⟨l, mode, .postingHost, waiting⟩ =>
      some ((s.postCopy host).setAccess i ⟨l, mode, .acquired, waiting⟩)
  | _ => none

/-- `kaapi_dsm_acquire_data` after the fetch. -/
def mark (s : State n) (i : Nat) : Option (State n) :=
  match s.accesses[i]? with
  | some ⟨l, mode, .marking, waiting⟩ =>
      let dirty := if mode.isWrite then s.setAllDirtyExcept l else s
      some ((dirty.cacheTouch l mode).setAccess i ⟨l, mode, .acquired, waiting⟩)
  | _ => none

/-- `kaapi_dsm_release_data`, by a task that had its data. -/
def release (s : State n) (i : Nat) : Option (State n) :=
  match s.accesses[i]? with
  | some ⟨l, _, .acquired, false⟩ => some (s.endAccess i l)
  | _ => none

/-- The body of a write-back task, which reads the data, up to the choice of a source. -/
def prefetch (s : State n) (i : Nat) (src : Lid n) : Option (State n) :=
  match s.accesses[i]? with
  | some ⟨l, .r, .acquired, false⟩ =>
      if host ∉ s.valid ∧ s.IsSource src then
        some (s.setAccess i ⟨l, .r, .prefetching src, false⟩)
      else none
  | _ => none

/-- The fetch on the host of the body of a write-back task, under the locks. -/
def fetchHost (s : State n) (i : Nat) : Option (State n) :=
  match s.accesses[i]? with
  | some ⟨l, mode, .prefetching src, waiting⟩ =>
      if s.Unlocked src then
        let pc := s.afterFetch host src .postingHost .acquired
        some ((s.fetchOn host src).setAccess i ⟨l, mode, pc, waiting⟩)
      else none
  | _ => none

/-- The device reads the source of a copy. -/
def copy (s : State n) (k : Nat) : Option (State n) :=
  match s.transfers[k]? with
  | some t =>
      if t.pc = .submitted then
        some (s.setTransfer k { t with pc := .received (s.readSource t) })
      else none
  | none => none

/-- The callback of a copy. The assertion of `callback_resend_replica_on_callback_cbk` stops the
program if a replica to forward to is valid. -/
def complete (s : State n) (k : Nat) : Option (State n) :=
  match s.transfers[k]? with
  | some ⟨_, dest, .received payload, _, _⟩ =>
      if s.Unlocked dest ∧
          ∀ t ∈ s.transfers, t.src = dest → t.pc = .onReceive → t.dest ∉ insert dest s.valid then
        some (s.activateReplica dest payload (s.transfers.eraseIdx k))
      else none
  | _ => none

/-- The first test of `kaapi_memory_cache_evict_fromlist`, on a replica of a cache list. -/
def evictTest (s : State n) (l : Lid n) : Option (State n) :=
  if l ≠ host ∧ s.ThreadIdle l ∧ s.cachelist l ≠ none ∧ s.Evictable l then
    some (s.setThread l .evictTested)
  else none

/-- The second test, under the lock of the replica. -/
def evictLock (s : State n) (l : Lid n) : Option (State n) :=
  if s.thread l = .evictTested then
    some (s.setThread l (if s.Evictable l then .evictLocked else .idle))
  else none

/-- The drop of the replica. The program stops if the replica is in transfer. -/
def evictDrop (s : State n) (l : Lid n) : Option (State n) :=
  if s.thread l = .evictLocked ∧ l ∉ s.xfer then some (s.dropReplica l) else none

/-- `kaapi_memory_writeback_all` of a device, on the entry of the data if there is one. It is
called when all tasks are completed. -/
def writebackAll (s : State n) (l src : Lid n) : Option (State n) :=
  if l ≠ host ∧ s.ThreadIdle l ∧ s.accesses = [] then
    if s.cachelist l = some .rw ∧ host ∉ s.valid ∧ l ∈ s.valid then
      if s.IsSource src then some (s.setThread l (.writingBack src)) else none
    else some (s.addSynced l)
  else none

/-- The fetch on the host of the write-back of a device, under the locks. -/
def writebackFetch (s : State n) (l : Lid n) : Option (State n) :=
  match s.thread l with
  | .writingBack src =>
      if s.Unlocked src then
        let pc := s.afterFetch host src .posting .idle
        some (((s.fetchOn host src).setThread l pc).addSynced l)
      else none
  | _ => none

/-- The submission of the copy of a write-back, without locks. -/
def writebackPost (s : State n) (l : Lid n) : Option (State n) :=
  if s.thread l = .posting then some ((s.postCopy host).setThread l .idle) else none

def step (s : State n) : Action n → Option (State n)
  | .acquire l mode src => acquire s l mode src
  | .fetch i => fetch s i
  | .post i => post s i
  | .mark i => mark s i
  | .release i => release s i
  | .prefetch i src => prefetch s i src
  | .fetchHost i => fetchHost s i
  | .copy k => copy s k
  | .complete k => complete s k
  | .evictTest l => evictTest s l
  | .evictLock l => evictLock s l
  | .evictDrop l => evictDrop s l
  | .writebackAll l src => writebackAll s l src
  | .writebackFetch l => writebackFetch s l
  | .writebackPost l => writebackPost s l

/-- What a step can do: the guards that hold before it and the state after it. -/
inductive Effect (s : State n) : Action n → State n → Prop where
  | acquireFetch {l : Lid n} {mode : AccessMode} {src : Lid n} (hlid : l ≠ host)
      (hidle : s.ThreadIdle l) (hordered : s.Ordered mode)
      (hthreads : ∀ d, (s.thread d).writesBack = false) (hvalid : l ∉ s.valid)
      (hsrc : s.IsSource src) :
      Effect s (.acquire l mode src) (s.startAccess l mode (.fetching src))
  | acquireMark {l : Lid n} {mode : AccessMode} {src : Lid n} (hlid : l ≠ host)
      (hidle : s.ThreadIdle l) (hordered : s.Ordered mode)
      (hthreads : ∀ d, (s.thread d).writesBack = false)
      (hvalid : mode.isWrite = true ∨ l ∈ s.valid) :
      Effect s (.acquire l mode src) (s.startAccess l mode .marking)
  | fetch {i : Nat} {l src : Lid n} {mode : AccessMode} {waiting : Bool}
      (hi : s.accesses[i]? = some ⟨l, mode, .fetching src, waiting⟩) (hlock : s.Unlocked l)
      (hlockSrc : s.Unlocked src) :
      Effect s (.fetch i)
        ((s.fetchOn l src).setAccess i
          ⟨l, mode, s.afterFetch l src .posting .marking, decide (l ∉ s.valid)⟩)
  | post {i : Nat} {l : Lid n} {mode : AccessMode} {waiting : Bool}
      (hi : s.accesses[i]? = some ⟨l, mode, .posting, waiting⟩) :
      Effect s (.post i) ((s.postCopy l).setAccess i ⟨l, mode, .marking, waiting⟩)
  | postHost {i : Nat} {l : Lid n} {mode : AccessMode} {waiting : Bool}
      (hi : s.accesses[i]? = some ⟨l, mode, .postingHost, waiting⟩) :
      Effect s (.post i) ((s.postCopy host).setAccess i ⟨l, mode, .acquired, waiting⟩)
  | markWrite {i : Nat} {l : Lid n} {mode : AccessMode} {waiting : Bool}
      (hi : s.accesses[i]? = some ⟨l, mode, .marking, waiting⟩) (hwrite : mode.isWrite = true) :
      Effect s (.mark i)
        (((s.setAllDirtyExcept l).cacheTouch l mode).setAccess i ⟨l, mode, .acquired, waiting⟩)
  | markRead {i : Nat} {l : Lid n} {mode : AccessMode} {waiting : Bool}
      (hi : s.accesses[i]? = some ⟨l, mode, .marking, waiting⟩) (hread : mode.isWrite = false) :
      Effect s (.mark i) ((s.cacheTouch l mode).setAccess i ⟨l, mode, .acquired, waiting⟩)
  | release {i : Nat} {l : Lid n} {mode : AccessMode}
      (hi : s.accesses[i]? = some ⟨l, mode, .acquired, false⟩) :
      Effect s (.release i) (s.endAccess i l)
  | prefetch {i : Nat} {l src : Lid n} (hi : s.accesses[i]? = some ⟨l, .r, .acquired, false⟩)
      (hhost : host ∉ s.valid) (hsrc : s.IsSource src) :
      Effect s (.prefetch i src) (s.setAccess i ⟨l, .r, .prefetching src, false⟩)
  | fetchHost {i : Nat} {l src : Lid n} {mode : AccessMode} {waiting : Bool}
      (hi : s.accesses[i]? = some ⟨l, mode, .prefetching src, waiting⟩)
      (hlock : s.Unlocked src) :
      Effect s (.fetchHost i)
        ((s.fetchOn host src).setAccess i
          ⟨l, mode, s.afterFetch host src .postingHost .acquired, waiting⟩)
  | copy {k : Nat} {t : Transfer n} (hk : s.transfers[k]? = some t) (hpc : t.pc = .submitted) :
      Effect s (.copy k) (s.setTransfer k { t with pc := .received (s.readSource t) })
  | complete {k : Nat} {t : Transfer n} {payload : Option Nat} (hk : s.transfers[k]? = some t)
      (hpc : t.pc = .received payload) (hlock : s.Unlocked t.dest)
      (hresend : ∀ u ∈ s.transfers, u.src = t.dest → u.pc = .onReceive →
        u.dest ∉ insert t.dest s.valid) :
      Effect s (.complete k) (s.activateReplica t.dest payload (s.transfers.eraseIdx k))
  | evictTest {l : Lid n} (hlid : l ≠ host) (hidle : s.ThreadIdle l) (hlist : s.cachelist l ≠ none)
      (hevict : s.Evictable l) : Effect s (.evictTest l) (s.setThread l .evictTested)
  | evictLock {l : Lid n} (hthread : s.thread l = .evictTested) (hevict : s.Evictable l) :
      Effect s (.evictLock l) (s.setThread l .evictLocked)
  | evictSkip {l : Lid n} (hthread : s.thread l = .evictTested) (hevict : ¬ s.Evictable l) :
      Effect s (.evictLock l) (s.setThread l .idle)
  | evictDrop {l : Lid n} (hthread : s.thread l = .evictLocked) (hxfer : l ∉ s.xfer) :
      Effect s (.evictDrop l) (s.dropReplica l)
  | writebackSelect {l src : Lid n} (hlid : l ≠ host) (hidle : s.ThreadIdle l)
      (hdone : s.accesses = []) (hlist : s.cachelist l = some .rw) (hhost : host ∉ s.valid)
      (hvalid : l ∈ s.valid) (hsrc : s.IsSource src) :
      Effect s (.writebackAll l src) (s.setThread l (.writingBack src))
  | writebackSkip {l src : Lid n} (hlid : l ≠ host) (hidle : s.ThreadIdle l)
      (hdone : s.accesses = [])
      (hskip : s.cachelist l = some .rw → l ∈ s.valid → host ∈ s.valid) :
      Effect s (.writebackAll l src) (s.addSynced l)
  | writebackFetch {l src : Lid n} (hthread : s.thread l = .writingBack src)
      (hlock : s.Unlocked src) :
      Effect s (.writebackFetch l)
        (((s.fetchOn host src).setThread l (s.afterFetch host src .posting .idle)).addSynced l)
  | writebackPost {l : Lid n} (hthread : s.thread l = .posting) :
      Effect s (.writebackPost l) ((s.postCopy host).setThread l .idle)

/-- Every step is one of the effects. -/
theorem step_effect {s t : State n} {a : Action n} (h : step s a = some t) : Effect s a t := by
  cases a with
  | acquire l mode src =>
      simp only [step, acquire] at h
      split at h
      case isFalse => cases h
      case isTrue hguard =>
        obtain ⟨hlid, hidle, hordered, hthreads⟩ := hguard
        split at h
        case isTrue hfetch =>
          split at h <;> cases h
          case isTrue hsrc => exact .acquireFetch hlid hidle hordered hthreads hfetch.2 hsrc
        case isFalse hfetch =>
          cases h
          refine .acquireMark hlid hidle hordered hthreads ?_
          cases mode <;> simp_all [AccessMode.isRead, AccessMode.isWrite]
  | fetch i =>
      simp only [step, fetch] at h
      split at h
      case h_1 hi =>
        split at h <;> cases h
        case isTrue hlock => exact .fetch hi hlock.1 hlock.2
      case h_2 => cases h
  | post i =>
      simp only [step, post] at h
      split at h <;> cases h
      case h_1 hi => exact .post hi
      case h_2 hi => exact .postHost hi
  | mark i =>
      simp only [step, mark] at h
      split at h
      case h_1 hi =>
        split at h <;> cases h
        case isTrue hwrite => exact .markWrite hi hwrite
        case isFalse hwrite => exact .markRead hi (by simpa using hwrite)
      case h_2 => cases h
  | release i =>
      simp only [step, release] at h
      split at h <;> cases h
      case h_1 hi => exact .release hi
  | prefetch i src =>
      simp only [step, prefetch] at h
      split at h
      case h_1 hi =>
        split at h <;> cases h
        case isTrue hguard => exact .prefetch hi hguard.1 hguard.2
      case h_2 => cases h
  | fetchHost i =>
      simp only [step, fetchHost] at h
      split at h
      case h_1 hi =>
        split at h <;> cases h
        case isTrue hlock => exact .fetchHost hi hlock
      case h_2 => cases h
  | copy k =>
      simp only [step, copy] at h
      split at h
      case h_1 hk =>
        split at h <;> cases h
        case isTrue hpc => exact .copy hk hpc
      case h_2 => cases h
  | complete k =>
      simp only [step, complete] at h
      split at h
      case h_1 hk =>
        split at h <;> cases h
        case isTrue hguard => exact .complete hk rfl hguard.1 hguard.2
      case h_2 => cases h
  | evictTest l =>
      simp only [step, evictTest] at h
      split at h
      case isFalse => cases h
      case isTrue hguard =>
        cases h
        exact .evictTest hguard.1 hguard.2.1 hguard.2.2.1 hguard.2.2.2
  | evictLock l =>
      simp only [step, evictLock] at h
      split at h
      case isFalse => cases h
      case isTrue hthread =>
        split at h <;> cases h
        case isTrue hevict => exact .evictLock hthread hevict
        case isFalse hevict => exact .evictSkip hthread hevict
  | evictDrop l =>
      simp only [step, evictDrop] at h
      split at h
      case isFalse => cases h
      case isTrue hguard =>
        cases h
        exact .evictDrop hguard.1 hguard.2
  | writebackAll l src =>
      simp only [step, writebackAll] at h
      split at h
      case isFalse => cases h
      case isTrue hguard =>
        obtain ⟨hlid, hidle, hdone⟩ := hguard
        split at h
        case isTrue hentry =>
          split at h <;> cases h
          case isTrue hsrc =>
            exact .writebackSelect hlid hidle hdone hentry.1 hentry.2.1 hentry.2.2 hsrc
        case isFalse hentry =>
          cases h
          refine .writebackSkip hlid hidle hdone fun hlist hvalid => ?_
          by_contra hhost
          exact hentry ⟨hlist, hhost, hvalid⟩
  | writebackFetch l =>
      simp only [step, writebackFetch] at h
      split at h
      case h_1 hthread =>
        split at h <;> cases h
        case isTrue hlock => exact .writebackFetch hthread hlock
      case h_2 => cases h
  | writebackPost l =>
      simp only [step, writebackPost] at h
      split at h
      case isTrue hthread =>
        cases h
        exact .writebackPost hthread
      case isFalse => cases h

/-- The runs of one data on a machine with `n` devices. -/
def system (n : Nat) : TransitionSystem (State n) (Action n) where
  initial := fun s => s = initial
  step := step

end Xkblas.Memory.Dsm
