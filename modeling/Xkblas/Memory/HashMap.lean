import Mathlib.Data.BitVec
import Mathlib.Logic.Function.Basic
import Xkblas.Library.TransitionSystem

/-!
# The hash map

A `kaapi_hashmap_t` has a table of chains of entries. The entries come from blocks: the current one
gives its entries one after the other, and a full block is replaced by one of the free list or by a
new one, which enters the list of the blocks that are allocated. `kaapi_hashmap_clear` makes this
list the free one.

Beside the map a run has what it stands for (`Live`): the keys that are present with their entries
and values. It is computed from the operations and the entries that they return alone.
-/

namespace Xkblas.Memory.HashMap

open Library

/-- The keys, which are pointers. -/
abbrev Key := BitVec 64

/-- An entry: its block, and its index in `data`. -/
abbrev Entry := ℕ × ℕ

/-- `KAAPI_BLOCENTRIES_SIZE`. -/
def blocEntriesSize : ℕ :=
  2048

/-- `kaapi_hash_ulong`. -/
def hashUlong (v : Key) : BitVec 32 :=
  let v := v ^^^ (v >>> 32)
  let v := v ^^^ (v >>> 17)
  let v := v ^^^ (v >>> 8)
  v.setWidth 32

/-- The fields of `kaapi_hashmap_t`, of its blocks (`next` and `pos`) and of the entries, whose
field `u` has values of the type `V`. `brk` is the next block that `malloc` returns. -/
structure State (V : Type) where
  entries : ℕ → Option Entry
  mask : ℕ
  currentbloc : Option ℕ
  freebloc : Option ℕ
  allallocatedbloc : Option ℕ
  blocNext : ℕ → Option ℕ
  pos : ℕ → ℕ
  key : Entry → Key
  next : Entry → Option Entry
  u : Entry → V
  brk : ℕ

namespace State

variable {V : Type}

/-- `kaapi_hash_ulong(ptr) & khm->mask`. -/
def hkey (s : State V) (ptr : Key) : ℕ :=
  (hashUlong ptr).toNat &&& s.mask

/-- `kaapi_hashmap_init`, with the memory and the first block. -/
def init (s : State V) (powsize : ℕ) (initbloc : Option ℕ) : State V :=
  { s with
    mask := 2 ^ powsize - 1
    currentbloc := initbloc
    freebloc := none
    allallocatedbloc := none
    pos := fun b => if initbloc = some b then 0 else s.pos b
    entries := fun h => if h ≤ 2 ^ powsize - 1 then none else s.entries h }

/-- `kaapi_hashmap_clear`. -/
def clear (s : State V) : State V :=
  { s with
    pos := fun b => if s.currentbloc = some b then 0 else s.pos b
    freebloc := if s.allallocatedbloc = none then s.freebloc else s.allallocatedbloc
    allallocatedbloc := none
    currentbloc := none
    entries := fun h => if h ≤ s.mask then none else s.entries h }

/-- `kaapi_hashmap_allocate_bloc`. -/
def allocateBloc (s : State V) : State V × ℕ :=
  match s.freebloc with
  | none =>
      ({ s with
        currentbloc := some s.brk
        blocNext := Function.update s.blocNext s.brk s.allallocatedbloc
        allallocatedbloc := some s.brk
        pos := Function.update s.pos s.brk 0
        brk := s.brk + 1 }, s.brk)
  | some b =>
      ({ s with
        currentbloc := some b
        freebloc := s.blocNext b
        pos := Function.update s.pos b 0 }, b)

/-- The block of a new entry. -/
def openBloc (s : State V) : State V × ℕ :=
  match s.currentbloc with
  | none => s.allocateBloc
  | some b => (s, b)

/-- The part of `_kaapi_hashmap_insert` that follows the choice of the block. -/
def link [Zero V] (s : State V) (b : ℕ) (ptr : Key) (hkey : ℕ) : State V × Entry :=
  let entry := (b, s.pos b)
  ({ s with
    pos := Function.update s.pos b (s.pos b + 1)
    key := Function.update s.key entry ptr
    u := Function.update s.u entry 0
    currentbloc := if s.pos b + 1 = blocEntriesSize then none else some b
    next := Function.update s.next entry (s.entries hkey)
    entries := Function.update s.entries hkey (some entry) }, entry)

/-- `_kaapi_hashmap_insert`. -/
def insertAt [Zero V] (s : State V) (ptr : Key) (hkey : ℕ) : State V × Entry :=
  s.openBloc.1.link s.openBloc.2 ptr hkey

/-- The loop of `_kaapi_hashmap_find`, with at most `fuel` tests. -/
def findLoop (s : State V) (ptr : Key) : ℕ → Option Entry → Option (Option Entry)
  | 0, _ => none
  | _ + 1, none => some none
  | fuel + 1, some entry =>
      if s.key entry = ptr then some (some entry) else s.findLoop ptr fuel (s.next entry)

/-- One test more than there are entries. -/
def fuel (s : State V) : ℕ :=
  s.brk * blocEntriesSize + 1

/-- `kaapi_hashmap_find`. -/
def find (s : State V) (ptr : Key) : Option (Option Entry) :=
  s.findLoop ptr s.fuel (s.entries (s.hkey ptr))

/-- `kaapi_hashmap_insert`. -/
def insert [Zero V] (s : State V) (ptr : Key) : State V × Entry :=
  s.insertAt ptr (s.hkey ptr)

/-- `kaapi_hashmap_findinsert`. -/
def findinsert [Zero V] (s : State V) (ptr : Key) : Option (State V × Entry) :=
  (s.find ptr).map fun
    | some entry => (s, entry)
    | none => s.insertAt ptr (s.hkey ptr)

/-- `_pop_hashmap_entry`. -/
def pop (s : State V) (h : ℕ) : State V × Option Entry :=
  ({ s with entries := Function.update s.entries h ((s.entries h).bind s.next) }, s.entries h)

/-- An assignment through an entry. -/
def assign (s : State V) (entry : Entry) (v : V) : State V :=
  { s with u := Function.update s.u entry v }

end State

/-! ## Runs -/

/-- The operations. -/
inductive Op (V : Type) where
  | findinsert (ptr : Key)
  | insert (ptr : Key)
  | find (ptr : Key)
  | assign (entry : Entry) (v : V)
  | pop (h : ℕ)
  | clear

section Runs

variable {V : Type} [Zero V]

/-- An operation on the map, with the entry that it returns. -/
def State.exec (s : State V) : Op V → Option (State V × Option Entry)
  | .findinsert ptr => (s.findinsert ptr).map fun r => (r.1, some r.2)
  | .insert ptr => some ((s.insert ptr).1, some (s.insert ptr).2)
  | .find ptr => (s.find ptr).map fun r => (s, r)
  | .assign entry v => some (s.assign entry v, none)
  | .pop h => some (s.pop h)
  | .clear => some (s.clear, none)

/-- The present keys, each with its entry and the last value that was assigned for it. -/
abbrev Live (V : Type) := Key → Option (Entry × V)

/-- What an operation that returned `r` does to the present keys. A key is inserted with the value
zero, and a key is popped when its entry is returned. -/
def Live.exec (live : Live V) (r : Option Entry) : Op V → Live V
  | .findinsert ptr | .insert ptr =>
      if live ptr = none then Function.update live ptr (r.map fun entry => (entry, 0)) else live
  | .find _ => live
  | .assign entry v => fun k => (live k).map fun x => if x.1 = entry then (entry, v) else x
  | .pop _ => fun k => (live k).filter fun x => some x.1 ≠ r
  | .clear => fun _ => none

/-- A map in a run, and the entries that were returned since the last clear. -/
structure Run (V : Type) where
  map : State V
  live : Live V
  returned : List Entry

def step (s : Run V) (op : Op V) : Option (Run V) :=
  (s.map.exec op).map fun r =>
    { map := r.1
      live := s.live.exec r.2 op
      returned := if op matches .clear then [] else r.2.toList ++ s.returned }

/-- What the callers respect: `kaapi_hashmap_insert` is for an absent key, an assignment is through
an entry that was returned since the last clear, and a chain that is popped is in the table. -/
def Respects (s : Run V) : Op V → Prop
  | .insert ptr => s.live ptr = none
  | .assign entry _ => entry ∈ s.returned
  | .pop h => h ≤ s.map.mask
  | _ => True

instance (s : Run V) (op : Op V) : Decidable (Respects s op) :=
  match op with
  | .insert _ => inferInstanceAs (Decidable (_ = none))
  | .assign entry _ => inferInstanceAs (Decidable (entry ∈ _))
  | .pop _ => inferInstanceAs (Decidable (_ ≤ _))
  | .findinsert _ | .find _ | .clear => inferInstanceAs (Decidable True)

/-- A map after `kaapi_hashmap_init`, with a block that exists or without one. -/
def Initial (s : Run V) : Prop :=
  (∃ m powsize initbloc, s.map = State.init m powsize initbloc ∧
    ∀ b, initbloc = some b → b < m.brk) ∧
    (∀ k, s.live k = none) ∧ s.returned = []

def system : TransitionSystem (Run V) (Op V) where
  initial := Initial
  step := step

end Runs

end Xkblas.Memory.HashMap
