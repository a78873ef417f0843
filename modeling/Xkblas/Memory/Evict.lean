import Xkblas.Memory.LruCacheMoves

/-!
# The eviction from a cache

`kaapi_memory_cache_evict` walks the two lists of the cache, each at most four times, until it has
dropped enough replicas. A walk is told the number of bytes that remain, tries to drop twice as
many, and gives back the number that remains after it. The calls of `kaapi_memory_free` are
recorded, and a failed assertion leaves no result. The device is polled between two walks; nothing
completes then in a run without concurrent steps.
-/

namespace Xkblas.Memory.Evict

open Library
open LruCache
open Dsm (Lid host CacheList)

variable {δ : Type*} {n : Nat}

/-- The arguments of a call of `kaapi_memory_free`. -/
structure Block where
  ptr : Nat
  size : Nat
  deriving DecidableEq, Repr

/-- `(size_t)-1`, the size of a view that has not been dropped. -/
def noSize : Nat :=
  2 ^ 64 - 1

/-- The replica of a data. -/
def blockOf (s : State δ n) (l : Lid n) (d : δ) : Block :=
  ⟨((s.mdi d).replicas l).ptr, ((s.mdi d).replicas l).size⟩

variable [DecidableEq δ]

/-- The walk of `kaapi_memory_cache_evict_fromlist` from the entry `curr`, with `size2` bytes still
to evict. A replica whose size is `noSize` is dropped, but its entry stays in the list. -/
def evictLoop (l : Lid n) (k : CacheList) :
    Nat → Option EntryId → Nat → State δ n → List Block → Option (State δ n × List Block × Nat)
  | 0, _, _, _, _ => none
  | _ + 1, none, size2, s, freed => some (s, freed, size2)
  | fuel + 1, some curr, size2, s, freed =>
      if size2 = 0 then some (s, freed, size2)
      else
        match (s.cache l).mdi curr with
        | none => none
        | some d =>
            let m := s.mdi d
            let pcurr := (s.cache l).prev curr
            if m.Evictable l then
              if l ∈ m.alloc ∧ (m.replicas l).cachelist = some k ∧ l ∉ m.xfer then
                let freed := freed ++ [blockOf s l d]
                if (m.replicas l).size = noSize then
                  evictLoop l k fuel pcurr size2 (s.setMdi d (m.drop l)) freed
                else
                  evictLoop l k fuel pcurr (size2 - (m.replicas l).size)
                    (s.evictEntry l k curr d) freed
              else none
            else evictLoop l k fuel pcurr size2 s freed

/-- `kaapi_memory_cache_evict_fromlist`, with the number of bytes that remain to evict. -/
def evictFromlist (l : Lid n) (k : CacheList) (s : State δ n) (freed : List Block) (size : Nat) :
    Option (State δ n × List Block × Nat) :=
  (evictLoop l k (s.cache l).fuel ((s.cache l).list k).fin (2 * size % 2 ^ 64) s freed).map
    fun (s, freed, size2) => (s, freed, if size2 ≤ size then 0 else size2 - size)

/-- The loop over one list, with the number of walks that are left. -/
def evictList (l : Lid n) (k : CacheList) :
    Nat → State δ n → List Block → Nat → Option (State δ n × List Block × Nat)
  | 0, s, freed, size => some (s, freed, size)
  | cnt + 1, s, freed, size =>
      if size = 0 then some (s, freed, size)
      else
        (evictFromlist l k s freed size).bind fun (s, freed, size) =>
          evictList l k cnt s freed size

/-- The loop over the lists. -/
def evictLists (l : Lid n) :
    List CacheList → State δ n → List Block → Nat → Option (State δ n × List Block × Nat)
  | [], s, freed, size => some (s, freed, size)
  | k :: order, s, freed, size =>
      (evictList l k 2 s freed size).bind fun (s, freed, size) => evictLists l order s freed size

/-- `list_order`. -/
def listOrder (flag : Int) : List CacheList :=
  if flag = 1 then [.rw, .ro, .rw, .ro] else [.ro, .rw, .ro, .rw]

/-- The results of `kaapi_memory_cache_evict`. -/
inductive Err where
  | ok
  | enomem
  deriving DecidableEq, Repr

/-- `kaapi_memory_cache_evict`, with the calls of `kaapi_memory_free`. -/
def evict (l : Lid n) (flag : Int) (s : State δ n) (size : Nat) :
    Option (State δ n × List Block × Err) :=
  (evictLists l (listOrder flag) s [] size).map fun (s, freed, size) =>
    (s, freed, if size = 0 then .ok else .enomem)

end Xkblas.Memory.Evict
