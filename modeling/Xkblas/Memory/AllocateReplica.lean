import Xkblas.Library.Retry
import Xkblas.Memory.EvictSafety
import Xkblas.Memory.HeapSafety

/-!
# The allocation of a replica

`_kaapi_dsm_allocate_replica` asks the heap of the device for a block. While it gets none, it evicts
replicas from the cache of the device, asks again when enough bytes were evicted, and polls the
device. The eviction itself polls after every walk that leaves bytes to evict. What a poll does is a
parameter that is told the number of the polls before it: the transfers that complete may change all
but the replica that is allocated. A pointer is the number of its chunk plus one, and the null
pointer is 0.
-/

namespace Xkblas.Memory.AllocateReplica

open Library
open LruCache
open Dsm (Lid CacheList)
open Evict (Block Err)
open Heap (Device Config)

variable {δ : Type*} {n : Nat}

/-- The metadata with the caches, and the heap of the device. -/
structure Node (δ : Type*) (n : Nat) where
  dsm : LruCache.State δ n
  heap : Device

/-- `kaapi_memory_alloc`, with the null pointer where it finds no chunk. -/
def memoryAlloc (cfg : Config) (heap : Device) (size : Nat) : Option (Device × Nat) :=
  (heap.alloc cfg size).map fun (heap, chunk) => (heap, chunk.elim 0 (· + 1))

/-- `kaapi_memory_free`. -/
def memoryFree (heap : Device) (ptr : Nat) : Option Device :=
  if ptr = 0 then some heap else heap.free (ptr - 1)

/-- The calls of `kaapi_memory_free` for the blocks of an eviction. -/
def freeBlocks : Device → List Block → Option Device
  | heap, [] => some heap
  | heap, block :: freed => (memoryFree heap block.ptr).bind fun heap => freeBlocks heap freed

variable [DecidableEq δ]

/-- `kaapi_memory_cache_evict_fromlist`, with the number of bytes that remain to evict. -/
def evictFromlist (l : Lid n) (k : CacheList) (v : Node δ n) (size : Nat) :
    Option (Node δ n × Nat) :=
  (Evict.evictFromlist l k v.dsm [] size).bind fun (dsm, freed, size) =>
    (freeBlocks v.heap freed).map fun heap => (⟨dsm, heap⟩, size)

/-- An eviction between two walks: the number of polls so far, the device, and the bytes that remain
to evict. -/
structure Evicting (δ : Type*) (n : Nat) where
  polls : Nat
  node : Node δ n
  size : Nat

/-- The loop over one list, with the number of walks that are left. The device is polled after a
walk that leaves bytes to evict. -/
def evictList (poll : Nat → Node δ n → Node δ n) (l : Lid n) (k : CacheList) :
    Nat → Evicting δ n → Option (Evicting δ n)
  | 0, e => some e
  | cnt + 1, e =>
      if e.size = 0 then some e
      else
        (evictFromlist l k e.node e.size).bind fun (v, size) =>
          if size = 0 then some ⟨e.polls, v, size⟩
          else evictList poll l k cnt ⟨e.polls + 1, poll e.polls v, size⟩

/-- The loop over the lists. -/
def evictLists (poll : Nat → Node δ n → Node δ n) (l : Lid n) :
    List CacheList → Evicting δ n → Option (Evicting δ n)
  | [], e => some e
  | k :: order, e => (evictList poll l k 2 e).bind (evictLists poll l order)

/-- `kaapi_memory_cache_evict` with the flag 0, after `polls` polls. -/
def cacheEvict (poll : Nat → Node δ n → Node δ n) (l : Lid n) (polls : Nat) (v : Node δ n)
    (size : Nat) : Option (Nat × Node δ n × Err) :=
  (evictLists poll l (Evict.listOrder 0) ⟨polls, v, size⟩).map fun e =>
    (e.polls, e.node, if e.size = 0 then .ok else .enomem)

/-- The body of the loop: an eviction, the next try, and the poll of the device if it fails. -/
def round (cfg : Config) (poll : Nat → Node δ n → Node δ n) (l : Lid n) (size : Nat) :
    Nat × Node δ n → Option (Nat × Node δ n ⊕ Node δ n × Nat)
  | (polls, v) =>
      (cacheEvict poll l polls v size).bind fun (polls, v, err) =>
        (if err = .ok then memoryAlloc cfg v.heap size else some (v.heap, 0)).map
          fun (heap, ptr) =>
            let v := { v with heap := heap }
            if ptr = 0 then .inl (polls + 1, poll polls v) else .inr (v, ptr)

/-- The pointer of the replica is set. -/
def Node.setPtr (v : Node δ n) (l : Lid n) (d : δ) (ptr : Nat) : Node δ n :=
  let m := v.dsm.mdi d
  { v with dsm := v.dsm.setMdi d (m.setReplica l { m.replicas l with ptr := ptr }) }

/-- `kaapi_memory_replica_set_allocated`. -/
def Node.setAllocated (v : Node δ n) (l : Lid n) (d : δ) : Node δ n :=
  let m := v.dsm.mdi d
  { v with dsm := v.dsm.setMdi d { m with alloc := insert l m.alloc } }

/-- `kaapi_memory_replica_mark_pinned`. -/
def Node.markPinned (v : Node δ n) (l : Lid n) (d : δ) : Node δ n :=
  let m := v.dsm.mdi d
  let r := m.replicas l
  { v with dsm := v.dsm.setMdi d (m.setReplica l { r with pinned := r.pinned + 1 }) }

/-- `_kaapi_dsm_allocate_replica` with at most `fuel` rounds of its loop. -/
def allocateReplica (cfg : Config) (poll : Nat → Node δ n → Node δ n) (l : Lid n) (d : δ)
    (fuel : Nat) (v : Node δ n) : Option (Node δ n × Err) :=
  let size := ((v.dsm.mdi d).replicas l).size
  if l ∈ (v.dsm.mdi d).alloc then some (v, .ok)
  else
    (memoryAlloc cfg v.heap size).bind fun (heap, ptr) =>
      let v := { v with heap := heap }
      (if ptr = 0 then retry (round cfg poll l size) fuel (0, v) else some (v, ptr)).map
        fun (v, ptr) =>
          let v := v.setPtr l d ptr
          if ptr = 0 then (v, .enomem) else (v.setAllocated l d, .ok)

/-- The results of `kaapi_dsm_acquire_data`. -/
inductive Acquired where
  | ok
  | enomem
  | inProgress
  deriving DecidableEq, Repr

/-- `kaapi_dsm_acquire_data`. What follows the allocation is a parameter: the fetch of a valid copy,
which tells whether it is in progress, the bits of a write and the touch of the cache. -/
def acquireData (cfg : Config) (poll : Nat → Node δ n → Node δ n)
    (rest : Node δ n → Node δ n × Bool) (l : Lid n) (d : δ) (fuel : Nat) (v : Node δ n) :
    Option (Node δ n × Acquired) :=
  let v := v.markPinned l d
  (if l ∈ (v.dsm.mdi d).alloc then some (v, .ok) else allocateReplica cfg poll l d fuel v).map
    fun (v, err) =>
      match err with
      | .enomem => (v, .enomem)
      | .ok =>
          let (v, inProgress) := rest v
          (v, if inProgress then .inProgress else .ok)

/-! ## What an allocation should do -/

/-- The replica is allocated with a block that is at least as large as its view. -/
def Placed (v : Node δ n) (l : Lid n) (d : δ) : Prop :=
  let r := (v.dsm.mdi d).replicas l
  l ∈ (v.dsm.mdi d).alloc ∧ r.ptr ≠ 0 ∧ v.heap.allocated (r.ptr - 1) = true ∧
    v.heap.isFree (r.ptr - 1) = false ∧ r.size ≤ v.heap.size (r.ptr - 1)

/-- The pin count and the bits of the data. -/
def SameBits (v w : Node δ n) (l : Lid n) (d : δ) : Prop :=
  ((w.dsm.mdi d).replicas l).pinned = ((v.dsm.mdi d).replicas l).pinned ∧
    (w.dsm.mdi d).alloc = (v.dsm.mdi d).alloc ∧ (w.dsm.mdi d).valid = (v.dsm.mdi d).valid ∧
      (w.dsm.mdi d).xfer = (v.dsm.mdi d).xfer

/-- The allocation ends, with the replica allocated or with a null pointer, and an acquire that
fails leaves the data as it was. -/
structure AllocateSound (cfg : Config) (poll : Nat → Node δ n → Node δ n)
    (rest : Node δ n → Node δ n × Bool) (l : Lid n) (d : δ) (v : Node δ n) : Prop where
  ends : ∃ fuel w err, allocateReplica cfg poll l d fuel v = some (w, err) ∧
    (err = .ok → Placed w l d) ∧ (err = .enomem → ((w.dsm.mdi d).replicas l).ptr = 0)
  clean : ∀ fuel w, acquireData cfg poll rest l d fuel v = some (w, .enomem) → SameBits v w l d

/-- A free chunk of the heap is large enough. -/
def Fits (cfg : Config) (heap : Device) (size : Nat) : Prop :=
  let heap := heap.reserve cfg
  ∃ chunk < heap.nextRef, heap.allocated chunk = true ∧ heap.isFree chunk = true ∧
    Heap.roundSize size ≤ heap.size chunk

instance (cfg : Config) (heap : Device) (size : Nat) : Decidable (Fits cfg heap size) :=
  inferInstanceAs (Decidable (∃ chunk < (heap.reserve cfg).nextRef, _))

/-- The lists that an eviction walks, each twice. -/
def walks : List CacheList :=
  (Evict.listOrder 0).flatMap (List.replicate 2)

/-- A point of the loop: the walks that are left of its eviction, the number of polls so far, the
device, and the bytes that remain to evict. -/
structure Stage (δ : Type*) (n : Nat) where
  order : List CacheList
  polls : Nat
  node : Node δ n
  rest : Nat

/-- The next walk makes room: its victims are not under transfer and have the bytes that remain, and
a chunk is large enough without their blocks. -/
def Stage.MakesRoom (cfg : Config) (l : Lid n) (size : Nat) : Stage δ n → Prop
  | ⟨[], _, _, _⟩ => False
  | ⟨k :: _, _, v, rest⟩ =>
      let ds := Evict.victims v.dsm l (2 * rest) (Evict.cached v.dsm l k)
      (∀ d ∈ ds, l ∉ (v.dsm.mdi d).xfer) ∧ rest ≤ Evict.bytes v.dsm l ds ∧
        ∃ heap ∈ freeBlocks v.heap (ds.map (Evict.blockOf v.dsm l)), Fits cfg heap size

/-- The point after the next walk and a poll. A new eviction begins after the last walk, and when
enough bytes have been evicted in vain. -/
def Stage.next (poll : Nat → Node δ n → Node δ n) (l : Lid n) (size : Nat) :
    Stage δ n → Option (Stage δ n)
  | ⟨[], polls, v, _⟩ => some ⟨walks, polls + 1, poll polls v, size⟩
  | ⟨k :: order, polls, v, rest⟩ =>
      (evictFromlist l k v rest).map fun (v, rest) =>
        if rest = 0 then ⟨walks, polls + 1, poll polls v, size⟩
        else ⟨order, polls + 1, poll polls v, rest⟩

/-- One of the walks of the loop makes room. -/
inductive Stage.Leads (cfg : Config) (poll : Nat → Node δ n → Node δ n) (l : Lid n) (size : Nat) :
    Stage δ n → Prop
  | makes {p : Stage δ n} (h : p.MakesRoom cfg l size) : Leads cfg poll l size p
  | later {p q : Stage δ n} (hnext : p.next poll l size = some q) (h : Leads cfg poll l size q) :
      Leads cfg poll l size p

/-- The heap has room, or one of the walks makes room. -/
def HasRoom (cfg : Config) (poll : Nat → Node δ n → Node δ n) (l : Lid n) (size : Nat)
    (v : Node δ n) : Prop :=
  Fits cfg v.heap size ∨
    Stage.Leads cfg poll l size ⟨walks, 0, { v with heap := v.heap.reserve cfg }, size⟩

end Xkblas.Memory.AllocateReplica
