import Mathlib.Algebra.GroupWithZero.Nat
import Mathlib.Data.List.FinRange
import Xkblas.Library.DoublyLinked
import Xkblas.Memory.Dsm

/-!
# The software caches of the devices

Each device keeps the replicas that it has touched in two lists, `ro` and `rw`, most recent
first. The entries of the lists come from blocks that are never given back: an entry that leaves
a list goes to the free list of the cache. A replica points back to its entry and to the list of
the entry. The operations below are those of `kaapi_memory.c` that move entries: the touch of a
replica, the eviction from a list, and three invalidations, of a data, of one replica and of a
whole cache. A failed assertion or a null pointer leaves no successor.
-/

namespace Xkblas.Memory.LruCache

open Library
open Dsm (Lid host CacheList)

/-- A `kaapi_cache_entry_t`: its block, counted from the oldest of the cache, and its index in
the block. -/
structure EntryId where
  bloc : Nat
  pos : Nat
  deriving DecidableEq, Repr

/-- `KAAPI_CACHEENTRY_BLOCSIZE`. -/
def blocSize : Nat := 1024

/-- The two ends of a `kaapi_cache_list_t`. -/
structure ListEnds where
  beg : Option EntryId
  fin : Option EntryId
  deriving DecidableEq, Repr

/-- A `kaapi_memory_cache_t` with the fields of its entries. `allocatedBloc` has the `pos` of each
block, the newest block first. -/
structure Cache (δ : Type*) where
  list : CacheList → ListEnds
  freelist : Option EntryId
  allocatedBloc : List Nat
  mdi : EntryId → Option δ
  next : EntryId → Option EntryId
  prev : EntryId → Option EntryId

/-- A `kaapi_data_replica_t`. `size` is `kaapi_memory_view_size` of its view, and a null pointer
is 0. -/
structure Replica where
  ptr : Nat
  size : Nat
  pinned : Int
  cachelist : Option CacheList
  cacheentry : Option EntryId
  deriving DecidableEq, Repr

/-- A `kaapi_metadata_info_t`. -/
structure Metadata (n : Nat) where
  replicas : Lid n → Replica
  alloc : Finset (Lid n)
  valid : Finset (Lid n)
  xfer : Finset (Lid n)

/-- The metadata of all data and the caches of all devices. The host has no cache. -/
structure State (δ : Type*) (n : Nat) where
  mdi : δ → Metadata n
  cache : Lid n → Cache δ

variable {δ : Type*} {n : Nat}

/-! ## Entries and lists -/

namespace Cache

/-- The `pos` of the block that gives the next entry, and the blocks under it. -/
def openBloc : List Nat → Nat × List Nat
  | [] => (1, [])
  | pos :: rest => if pos = blocSize then (1, pos :: rest) else (pos, rest)

/-- `kaapi_memory_cache_allocate_entry`. The first entry of a block holds its header. -/
def allocateEntry (c : Cache δ) : Cache δ × EntryId :=
  match c.freelist with
  | some entry => ({ c with freelist := c.next entry }, entry)
  | none =>
      let (pos, rest) := openBloc c.allocatedBloc
      ({ c with allocatedBloc := (pos + 1) :: rest }, ⟨rest.length, pos⟩)

/-- The neighbours of an entry, or the ends of its list, point past it. -/
def unlink (c : Cache δ) (k : CacheList) (entry : EntryId) : Cache δ :=
  let prev := assignAt c.prev (c.next entry) (c.prev entry)
  { c with
    prev := prev
    next := assignAt c.next (prev entry) (c.next entry)
    list := Function.update c.list k
      ⟨if prev entry = none then c.next entry else (c.list k).beg,
        if c.next entry = none then c.prev entry else (c.list k).fin⟩ }

/-- `kaapi_memory_cache_remove_from_list`. -/
def removeFromList (c : Cache δ) (k : CacheList) (entry : EntryId) : Cache δ :=
  let c := c.unlink k entry
  { c with
    prev := Function.update c.prev entry none
    next := Function.update c.next entry none }

/-- `kaapi_memory_cache_push_front`. -/
def pushFront (c : Cache δ) (k : CacheList) (entry : EntryId) : Cache δ :=
  let beg := (c.list k).beg
  { c with
    next := Function.update c.next entry beg
    prev := assignAt (Function.update c.prev entry none) beg (some entry)
    list := Function.update c.list k
      ⟨some entry, if beg = none then some entry else (c.list k).fin⟩ }

/-- An entry goes to the front of the free list. -/
def pushFree (c : Cache δ) (entry : EntryId) : Cache δ :=
  { c with
    next := Function.update c.next entry c.freelist
    freelist := some entry }

/-- The entry of a replica that is touched: a new one, or its old one out of its list. -/
def takeEntry (c : Cache δ) (d : δ) (r : Replica) : Option (Cache δ × EntryId) :=
  match r.cacheentry with
  | none =>
      let (c, entry) := c.allocateEntry
      some ({ c with mdi := Function.update c.mdi entry (some d) }, entry)
  | some entry => r.cachelist.map fun oldlist => (c.removeFromList oldlist entry, entry)

/-- A replica leaves its list, and its entry goes to the free list. -/
def uncache (c : Cache δ) (r : Replica) : Option (Cache δ) :=
  match r.cacheentry with
  | none => some c
  | some entry =>
      r.cachelist.map fun list =>
        let c := c.removeFromList list entry
        { c with mdi := Function.update c.mdi entry none }.pushFree entry

/-- The entries that have been taken from the blocks. -/
def taken : List Nat → List EntryId
  | [] => []
  | pos :: rest => (List.range' 1 (pos - 1)).map (EntryId.mk rest.length) ++ taken rest

/-- A bound on the length of the lists, for the walks over them. -/
def fuel (c : Cache δ) : Nat :=
  c.allocatedBloc.sum + 1

end Cache

namespace Metadata

/-- The replica of one locality domain is replaced. -/
def setReplica (m : Metadata n) (l : Lid n) (r : Replica) : Metadata n :=
  { m with replicas := Function.update m.replicas l r }

/-- `kaapi_memory_replica_is_notpinned` and `kaapi_memory_replica_is_valid_excepton`. -/
def Evictable (m : Metadata n) (l : Lid n) : Prop :=
  (m.replicas l).pinned = 0 ∧ (m.valid.erase l).Nonempty

instance (m : Metadata n) (l : Lid n) : Decidable (m.Evictable l) :=
  inferInstanceAs (Decidable (_ ∧ _))

/-- The list of a replica that is touched. A replica stays in `rw` until the host is valid. -/
def touchList (m : Metadata n) (l : Lid n) (write : Bool) : CacheList :=
  if (m.replicas l).cachelist = some .rw ∧ host ∉ m.valid then .rw
  else if write then .rw else .ro

/-- The bits `alloc` and `valid` of a replica are cleared, and its fields are those of `r`. -/
def deallocate (m : Metadata n) (l : Lid n) (r : Replica) : Metadata n :=
  { m with
    alloc := m.alloc.erase l
    valid := m.valid.erase l
    replicas := Function.update m.replicas l r }

/-- The memory of a replica is freed and the replica leaves its cache. -/
def drop (m : Metadata n) (l : Lid n) : Metadata n :=
  m.deallocate l { m.replicas l with ptr := 0, cachelist := none, cacheentry := none }

end Metadata

variable [DecidableEq δ]

namespace State

/-- The metadata of one data is replaced. -/
def setMdi (s : State δ n) (d : δ) (m : Metadata n) : State δ n :=
  { s with mdi := Function.update s.mdi d m }

/-- The cache of one device is replaced. -/
def setCache (s : State δ n) (l : Lid n) (c : Cache δ) : State δ n :=
  { s with cache := Function.update s.cache l c }

/-! ## Touch -/

/-- `kaapi_memory_cache_touch`. -/
def touch (s : State δ n) (l : Lid n) (write : Bool) (d : δ) : Option (State δ n) :=
  if l = host then some s
  else
    (Cache.takeEntry (s.cache l) d ((s.mdi d).replicas l)).map fun (c, entry) =>
      let list := (s.mdi d).touchList l write
      (s.setCache l (c.pushFront list entry)).setMdi d
        ((s.mdi d).setReplica l
          { (s.mdi d).replicas l with cachelist := some list, cacheentry := some entry })

/-! ## Eviction -/

/-- The replica of an entry is dropped, and the entry goes to the free list. -/
def evictEntry (s : State δ n) (l : Lid n) (k : CacheList) (entry : EntryId) (d : δ) :
    State δ n :=
  let c := (s.cache l).unlink k entry
  let c := { c with prev := Function.update c.prev entry none }
  (s.setMdi d ((s.mdi d).drop l)).setCache l (c.pushFree entry)

/-- The walk of `kaapi_memory_cache_evict_fromlist` from the entry `curr` to the front of the
list, with `size2` bytes still to evict. A replica that is dropped must not be under transfer. -/
def evictLoop (l : Lid n) (k : CacheList) :
    Nat → Option EntryId → Nat → State δ n → Option (State δ n × Nat)
  | 0, _, _, _ => none
  | _ + 1, none, size2, s => some (s, size2)
  | fuel + 1, some curr, size2, s =>
      if size2 = 0 then some (s, size2)
      else
        match (s.cache l).mdi curr with
        | none => none
        | some d =>
            let pcurr := (s.cache l).prev curr
            if (s.mdi d).Evictable l then
              if l ∈ (s.mdi d).xfer then none
              else
                evictLoop l k fuel pcurr (size2 - ((s.mdi d).replicas l).size)
                  (s.evictEntry l k curr d)
            else evictLoop l k fuel pcurr size2 s

/-- `kaapi_memory_cache_evict_fromlist`, with the number of bytes that remain to evict. -/
def evictFromlist (s : State δ n) (l : Lid n) (k : CacheList) (size : Nat) :
    Option (State δ n × Nat) :=
  (evictLoop l k (s.cache l).fuel ((s.cache l).list k).fin (2 * size % 2 ^ 64) s).map
    fun (s, size2) => (s, if size2 ≤ size then 0 else size2 - size)

/-! ## Invalidation -/

/-- The loop body of `kaapi_memory_cache_invalidate_data` for the locality domain `l`. -/
def invalidateReplica (s : State δ n) (d : δ) (l : Lid n) : Option (State δ n) :=
  let m := s.mdi d
  let r := m.replicas l
  if l = host then
    some (s.setMdi d (m.deallocate l { r with ptr := 0, pinned := 0 }))
  else
    ((s.cache l).uncache r).map fun c =>
      (s.setCache l c).setMdi d (m.deallocate l
        { r with ptr := 0, pinned := 0, cachelist := none, cacheentry := none })

/-- `kaapi_memory_cache_invalidate_data`: the loop over the bits of `alloc`. -/
def invalidateData (s : State δ n) (d : δ) : Option (State δ n) :=
  ((List.finRange (n + 1)).filter (· ∈ (s.mdi d).alloc)).foldlM
    (fun s l => s.invalidateReplica d l) s

/-- `kaapi_memory_cache_invalidate_bloc`. Only the host stays valid, and it must be allocated. -/
def invalidateBloc (s : State δ n) (l : Lid n) (d : δ) : Option (State δ n) :=
  if l = host then some s
  else if host ∈ (s.mdi d).alloc then
    let m := { s.mdi d with valid := {host} }
    some (s.setMdi d (m.deallocate l { m.replicas l with ptr := 0, pinned := 0 }))
  else none

/-- The replica of an entry is invalidated. The free list is set to the entry after it. -/
def invalidateEntry (s : State δ n) (l : Lid n) (entry : EntryId) (d : δ) : Option (State δ n) :=
  (s.invalidateBloc l d).map fun s =>
    let c := s.cache l
    (s.setMdi d ((s.mdi d).setReplica l
      { (s.mdi d).replicas l with cacheentry := none, cachelist := none })).setCache l
        { c with
          next := Function.update c.next entry c.freelist
          freelist := c.next entry }

/-- The walk of `kaapi_memory_cache_invalidate_fromlist` from the entry `curr`. -/
def invalidateLoop (l : Lid n) : Nat → Option EntryId → State δ n → Option (State δ n)
  | 0, _, _ => none
  | _ + 1, none, s => some s
  | fuel + 1, some curr, s =>
      match (s.cache l).mdi curr with
      | none => none
      | some d =>
          let ncurr := (s.cache l).next curr
          (s.invalidateEntry l curr d).bind (invalidateLoop l fuel ncurr)

/-- `kaapi_memory_cache_invalidate_fromlist`. -/
def invalidateFromlist (s : State δ n) (l : Lid n) (k : CacheList) : Option (State δ n) :=
  (invalidateLoop l (s.cache l).fuel ((s.cache l).list k).beg s).map fun s =>
    let c := s.cache l
    s.setCache l { c with list := Function.update c.list k ⟨none, none⟩ }

/-- `kaapi_memory_invalidate_cache`. -/
def invalidateCache (s : State δ n) (l : Lid n) : Option (State δ n) :=
  if l = host then some s
  else (s.invalidateFromlist l .ro).bind fun s => s.invalidateFromlist l .rw

end State

end Xkblas.Memory.LruCache
