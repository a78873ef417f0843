import Mathlib.Algebra.Group.Nat.Defs
import Xkblas.Library.TransitionSystem
import Xkblas.Memory.Dsm

/-!
# The look-up of the metadata of an address

`kaapi_dsm_findaccess_on_node` finds the metadata of the address of an access, or creates it. It
makes sure that the host has a replica, and the asking device too, but it gives no memory to the
latter: that is the work of `_kaapi_dsm_allocate_replica`. The runs below are those of one
address: look-ups with any views and flags, allocations on devices, copies, evictions and
invalidations, with the blocks that the device heaps have given to the address.
-/

namespace Xkblas.Memory.FindAccess

open Library
open Dsm (Lid host)

/-! ## Views -/

/-- `KAAPI_MEMORY_VIEW_1D` and `KAAPI_MEMORY_VIEW_2D`. -/
inductive ViewType where
  | view1D
  | view2D
  deriving DecidableEq, Repr

/-- `KAAPI_MEMORY_STORAGE_ROWMAJOR` and `KAAPI_MEMORY_STORAGE_COLMAJOR`. -/
inductive Storage where
  | rowMajor
  | colMajor
  deriving DecidableEq, Repr

/-- A `kaapi_memory_view_t`. -/
structure View where
  offset : Nat
  size0 : Nat
  size1 : Nat
  ld : Nat
  wordsize : Nat
  type : ViewType
  storage : Storage
  deriving DecidableEq, Repr

namespace View

/-- `kaapi_memory_view_size`. -/
def size (v : View) : Nat :=
  match v.type with
  | .view1D => v.size0 * v.wordsize % 2 ^ 64
  | .view2D => v.size0 * v.size1 * v.wordsize % 2 ^ 64

/-- `kaapi_memory_view_reallocated`. -/
def reallocated (v : View) : View :=
  match v.type with
  | .view1D => v
  | .view2D =>
      match v.storage with
      | .rowMajor => { v with ld := v.size1 }
      | .colMajor => { v with ld := v.size0 }

/-- The view of a new replica on `l`. -/
def onNode {n : Nat} (v : View) (l : Lid n) : View :=
  if l = host then v else v.reallocated

end View

/-! ## Metadata -/

/-- A `kaapi_data_replica_t`. It is linked when it has an entry in a list of its cache. -/
structure Replica where
  ptr : Nat
  view : View
  pinned : Int
  linked : Bool
  deriving DecidableEq, Repr

/-- The assertions of `_kaapi_new_replica` on an old replica. -/
def Replica.Fresh (r : Replica) : Prop :=
  r.linked = false ∧ r.pinned = 0

instance (r : Replica) : Decidable r.Fresh :=
  inferInstanceAs (Decidable (_ ∧ _))

/-- A `kaapi_metadata_info_t`. -/
structure Metadata (n : Nat) where
  replicas : Lid n → Option Replica
  alloc : Finset (Lid n)
  valid : Finset (Lid n)
  xfer : Finset (Lid n)

/-- A block of a device heap: its address and its size. -/
structure Block where
  ptr : Nat
  size : Nat
  deriving DecidableEq, Repr

/-- The blocks of each device that have been allocated for the address and not freed. -/
abbrev Live (n : Nat) :=
  Lid n → List Block

/-- The metadata in the hash table under the address, if there are any, and the blocks. -/
structure State (n : Nat) where
  mdi : Option (Metadata n)
  live : Live n

variable {n : Nat}

/-- `kaapi_memory_free` of a block of `l`. The size that it is given is not used. -/
def free (live : Live n) (l : Lid n) (ptr : Nat) : Live n :=
  Function.update live l ((live l).filter (·.ptr ≠ ptr))

namespace Metadata

/-- The replica of one node is replaced. -/
def setReplica (m : Metadata n) (l : Lid n) (r : Replica) : Metadata n :=
  { m with replicas := Function.update m.replicas l (some r) }

/-- The bits `alloc` and `valid` of a node are cleared. -/
def unset (m : Metadata n) (l : Lid n) : Metadata n :=
  { m with alloc := m.alloc.erase l, valid := m.valid.erase l }

end Metadata

/-- `_kaapi_new_replica`. -/
def newReplica (m : Metadata n) (live : Live n) (l : Lid n) (view : View) :
    Option (Metadata n × Live n) :=
  match m.replicas l with
  | none => some (m.setReplica l ⟨0, view.onNode l, 0, false⟩, live)
  | some r =>
      if r.Fresh then
        if r.ptr = 0 then some (m.setReplica l { r with view := view.onNode l }, live)
        else
          let live := if view.size = r.view.size then live else free live l r.ptr
          some ((m.unset l).setReplica l { r with ptr := 0, pinned := 0, view := view.onNode l },
            live)
      else none

/-- The host memory at `ptr` becomes the only replica. -/
def setHost (m : Metadata n) (r : Replica) (ptr : Nat) : Metadata n :=
  { m.setReplica host { r with ptr := ptr, pinned := 1 } with alloc := {host}, valid := {host} }

/-- `_kaapi_new_mdi`. It is called without a view when only the metadata are asked for. -/
def newMdi (m : Option (Metadata n)) (live : Live n) (ptr : Nat) (view : Option View) :
    Option (Metadata n × Live n) :=
  let m := { m.getD ⟨fun _ => none, ∅, ∅, ∅⟩ with xfer := ∅ }
  if ptr = 0 then some ({ m with alloc := ∅, valid := ∅ }, live)
  else
    view.bind fun view =>
      (newReplica m live host view).bind fun (m, live) =>
        (m.replicas host).map fun r => (setHost m r ptr, live)

/-- `KAAPI_DSM_NOCREATE`, `KAAPI_DSM_CREATE_MDI` and the two flags of creation together. -/
inductive Create where
  | noCreate
  | mdi
  | data
  deriving DecidableEq, Repr

/-- The end of `kaapi_dsm_findaccess_on_node`: the replica of the asking node. -/
def returnValue (m : Metadata n) (live : Live n) (l : Lid n) (view : View) : Option (State n) :=
  if l ∈ m.alloc then some ⟨some m, live⟩
  else (newReplica m live l view).map fun (m, live) => ⟨some m, live⟩

/-- The address that the host replica points to. -/
def hostPtr (m : Metadata n) : Nat :=
  ((m.replicas host).map Replica.ptr).getD 0

/-- `kaapi_dsm_findaccess_on_node` for the node `l`. -/
def findaccess (address : Nat) (s : State n) (l : Lid n) (create : Create)
    (view : Option View) : Option (State n) :=
  match create with
  | .noCreate => some s
  | .mdi =>
      match s.mdi with
      | none => (newMdi none s.live 0 none).map fun (m, live) => ⟨some m, live⟩
      | some _ => some s
  | .data =>
      let found :=
        match s.mdi with
        | none => newMdi none s.live address view
        | some m =>
            if hostPtr m = 0 then newMdi (some m) s.live address view
            else if hostPtr m = address then some (m, s.live)
            else none
      found.bind fun (m, live) => view.bind fun view => returnValue m live l view

/-! ## Runs -/

/-- `allocate` is `_kaapi_dsm_allocate_replica` with the block that the heap gives. `fetch`,
`complete` and `mark` change the bits of a replica, `touch` links it, `pin` and `unpin` count its
reservations. `evict` drops it. `invalidateBloc` is the body of an invalidation task, and
`invalidateEntry` the same for an entry of a cache that is invalidated. -/
inductive Action (n : Nat) where
  | findaccess (l : Lid n) (create : Create) (view : Option View)
  | allocate (l : Lid n) (block : Block)
  | fetch (l : Lid n)
  | complete (l : Lid n)
  | mark (l : Lid n)
  | touch (l : Lid n)
  | pin (l : Lid n)
  | unpin (l : Lid n)
  | evict (l : Lid n)
  | invalidateData
  | invalidateBloc (l : Lid n)
  | invalidateEntry (l : Lid n)
  deriving DecidableEq, Repr

namespace State

/-- The replica of one node changes. -/
def modify (s : State n) (l : Lid n) (f : Replica → Replica) : Option (State n) :=
  s.mdi.bind fun m => (m.replicas l).map fun r => { s with mdi := some (m.setReplica l (f r)) }

/-- The bits change. -/
def setBits (s : State n) (valid xfer : Metadata n → Finset (Lid n)) : Option (State n) :=
  s.mdi.map fun m => { s with mdi := some { m with valid := valid m, xfer := xfer m } }

/-- The memory of the replica `r` of `l` is freed, and it becomes `r'`. -/
def release (s : State n) (m : Metadata n) (l : Lid n) (r r' : Replica) : State n :=
  ⟨some ((m.unset l).setReplica l { r' with ptr := 0 }), free s.live l r.ptr⟩

/-- `kaapi_memory_cache_invalidate_bloc`. -/
def invalidateBloc (s : State n) (l : Lid n) (linked : Replica → Bool) : Option (State n) :=
  s.mdi.bind fun m =>
    (m.replicas l).bind fun r =>
      if l = host then some s
      else if host ∈ m.alloc then
        some (s.release { m with valid := {host} } l r { r with pinned := 0, linked := linked r })
      else none

/-- `kaapi_memory_cache_invalidate_data`. A turn of its loop changes the replica, the bits and the
block of one node only. -/
def invalidateData (s : State n) (m : Metadata n) : State n where
  mdi := some
    { replicas := fun l =>
        if l ∈ m.alloc then
          (m.replicas l).map fun r =>
            { r with ptr := 0, pinned := 0, linked := if l = host then r.linked else false }
        else m.replicas l
      alloc := ∅
      valid := m.valid \ m.alloc
      xfer := m.xfer }
  live := fun l =>
    if l ∈ m.alloc ∧ l ≠ host then
      (s.live l).filter fun b => some b.ptr ≠ (m.replicas l).map Replica.ptr
    else s.live l

end State

/-- One step for the address. The heap gives a block that is not in use and that is large
enough. -/
def step (address : Nat) (s : State n) : Action n → Option (State n)
  | .findaccess l create view => findaccess address s l create view
  | .allocate l block =>
      s.mdi.bind fun m =>
        (m.replicas l).bind fun r =>
          if l ≠ host ∧ l ∉ m.alloc ∧ block.ptr ≠ 0 ∧ r.view.size ≤ block.size ∧
              block.ptr ∉ (s.live l).map Block.ptr then
            let m := m.setReplica l { r with ptr := block.ptr }
            some ⟨some { m with alloc := insert l m.alloc },
              Function.update s.live l (block :: s.live l)⟩
          else none
  | .fetch l => s.setBits Metadata.valid fun m => insert l m.xfer
  | .complete l => s.setBits (fun m => insert l m.valid) fun m => m.xfer.erase l
  | .mark l => s.setBits (fun _ => {l}) Metadata.xfer
  | .touch l => if l = host then some s else s.modify l fun r => { r with linked := true }
  | .pin l => s.modify l fun r => { r with pinned := r.pinned + 1 }
  | .unpin l => s.modify l fun r => { r with pinned := r.pinned - 1 }
  | .evict l =>
      s.mdi.bind fun m =>
        (m.replicas l).bind fun r =>
          if l ≠ host ∧ r.linked ∧ r.pinned = 0 ∧ (m.valid.erase l).Nonempty ∧ l ∉ m.xfer then
            some (s.release m l r { r with linked := false })
          else none
  | .invalidateData => s.mdi.map s.invalidateData
  | .invalidateBloc l => s.invalidateBloc l Replica.linked
  | .invalidateEntry l => s.invalidateBloc l fun _ => false

/-- The address is not known, and no block has been given to it. -/
structure Initial (s : State n) : Prop where
  mdi : s.mdi = none
  live : ∀ l, s.live l = []

/-- The runs for one address of a machine with `n` devices. -/
def system (n address : Nat) : TransitionSystem (State n) (Action n) where
  initial := Initial
  step := step address

end Xkblas.Memory.FindAccess
