import Mathlib.Algebra.BigOperators.Group.Finset.Basic
import Mathlib.Algebra.Order.Ring.Nat
import Mathlib.Data.Fintype.Basic
import Xkblas.Memory.FindAccess

/-!
# The pins of the replicas

A task that is executed on a device acquires its accesses one after the other, which pins the
replicas, and its completion callback releases them. `kaapi_dsm_acquire_data` pins before it
allocates, and the allocation loops until the heap has a block, with the pin taken: the steps of
other threads come between. An invalidation sets the pins to 0, also that of the task of
`xkblas_create_taskinvalidate`, whose own access is pinned.

The replicas of each address are those of `FindAccess`, with all its steps for the look-ups, the
copies, the evictions and the invalidations of other threads. The tasks add the pins.
-/

namespace Xkblas.Memory.PinCount

open Library
open Dsm (Lid host)
open FindAccess (View Replica Metadata Block)

/-- The tasks: compute tasks and those of `xkblas_create_taskwriteback`,
`xkblas_create_taskinvalidate` and the distribution. -/
inductive Kind where
  | compute
  | writeback
  | invalidate
  | distribute
  deriving DecidableEq, Repr

/-- A task with the device that executes it and the data of its accesses, in the order of its
parameters. -/
structure Task (δ : Type*) (n : ℕ) where
  kind : Kind
  device : Lid n
  params : List δ

/-- Where a task stands: the parameter that is looked up, acquired or released next. `allocating`
is the loop of the allocation, for a parameter that is pinned. -/
inductive Phase where
  | ready
  | binding (ith : ℕ)
  | acquiring (ith : ℕ)
  | allocating (ith : ℕ)
  | releasing (ith : ℕ)
  deriving DecidableEq, Repr

/-- The metadata of each address, and the tasks. -/
structure State (δ τ : Type*) (n : ℕ) where
  data : δ → FindAccess.State n
  phase : τ → Phase

/-- The steps. `dsm` is one of another thread or of a copy. `bind` is the look-up of a parameter,
`acquire` is `kaapi_dsm_acquire_data` up to the test of the alloc bit, and `allocate` is
`_kaapi_dsm_allocate_replica` with the block that it gets at last. `execute` is the body of the
task, and `release` is `kaapi_dsm_release_data` for the next parameter. -/
inductive Action (δ τ : Type*) (n : ℕ) where
  | dsm (d : δ) (a : FindAccess.Action n)
  | start (t : τ)
  | bind (t : τ) (view : View)
  | acquire (t : τ)
  | allocate (t : τ) (block : Block)
  | execute (t : τ)
  | release (t : τ)

/-- A step that no task makes. A cache that is invalidated has an entry for the replica. -/
def foreign {n : ℕ} (s : FindAccess.State n) : FindAccess.Action n → Bool
  | .pin _ => false
  | .unpin _ => false
  | .invalidateBloc _ => false
  | .invalidateEntry l => ((s.mdi.bind fun m => m.replicas l).map Replica.linked).getD false
  | .findaccess _ _ _ => true
  | .allocate _ _ => true
  | .fetch _ => true
  | .complete _ => true
  | .mark _ => true
  | .touch _ => true
  | .evict _ => true
  | .invalidateData => true

section

variable {δ τ : Type*} {n : ℕ} [DecidableEq δ] [DecidableEq τ] (address : δ → ℕ)
  (tasks : τ → Task δ n)

/-- The metadata of an address change. -/
def State.setData (s : State δ τ n) (d : δ) (m : FindAccess.State n) : State δ τ n :=
  { s with data := Function.update s.data d m }

/-- A task goes on. -/
def State.setPhase (s : State δ τ n) (t : τ) (p : Phase) : State δ τ n :=
  { s with phase := Function.update s.phase t p }

/-- The replica of `l` is allocated. -/
def allocated (m : FindAccess.State n) (l : Lid n) : Bool :=
  m.mdi.elim false fun m => decide (l ∈ m.alloc)

/-- The body of a task, for the data of its first access. -/
def body (address : ℕ) (m : FindAccess.State n) (l : Lid n) :
    Kind → Option (FindAccess.State n)
  | .compute => some m
  | .writeback => some m
  | .invalidate => FindAccess.step address m (.invalidateBloc l)
  | .distribute => some m

/-- One step. -/
def step (s : State δ τ n) : Action δ τ n → Option (State δ τ n)
  | .dsm d a =>
      if foreign (s.data d) a = true then
        (FindAccess.step (address d) (s.data d) a).map (s.setData d)
      else none
  | .start t => if s.phase t = .ready then some (s.setPhase t (.binding 0)) else none
  | .bind t view =>
      match s.phase t with
      | .binding ith =>
          (tasks t).params[ith]?.bind fun d =>
            (FindAccess.step (address d) (s.data d)
              (.findaccess (tasks t).device .data (some view))).map fun m =>
                (s.setData d m).setPhase t (.acquiring ith)
      | _ => none
  | .acquire t =>
      match s.phase t with
      | .acquiring ith =>
          (tasks t).params[ith]?.bind fun d =>
            (FindAccess.step (address d) (s.data d) (.pin (tasks t).device)).map fun m =>
              (s.setData d m).setPhase t
                (if allocated m (tasks t).device = true then .binding (ith + 1)
                  else .allocating ith)
      | _ => none
  | .allocate t block =>
      match s.phase t with
      | .allocating ith =>
          (tasks t).params[ith]?.bind fun d =>
            (FindAccess.step (address d) (s.data d) (.allocate (tasks t).device block)).map fun m =>
              (s.setData d m).setPhase t (.binding (ith + 1))
      | _ => none
  | .execute t =>
      if s.phase t = .binding (tasks t).params.length then
        match (tasks t).params with
        | [] => some (s.setPhase t (.releasing 0))
        | d :: _ =>
            (body (address d) (s.data d) (tasks t).device (tasks t).kind).map fun m =>
              (s.setData d m).setPhase t (.releasing 0)
      else none
  | .release t =>
      match s.phase t with
      | .releasing ith =>
          (tasks t).params[ith]?.bind fun d =>
            (FindAccess.step (address d) (s.data d) (.unpin (tasks t).device)).map fun m =>
              (s.setData d m).setPhase t (.releasing (ith + 1))
      | _ => none

/-- No address is known, and no task has started. -/
structure Initial (s : State δ τ n) : Prop where
  data : ∀ d, FindAccess.Initial (s.data d)
  phase : ∀ t, s.phase t = .ready

/-- The runs of the tasks. -/
def system : TransitionSystem (State δ τ n) (Action δ τ n) where
  initial := Initial
  step := step address tasks

end

/-! ## What the pins count -/

section

variable {δ τ : Type*} {n : ℕ} [DecidableEq δ] [Fintype τ] (tasks : τ → Task δ n)

/-- The accesses of a task that are acquired and not yet released. The one that waits for memory
is among them. -/
def Task.acquired (task : Task δ n) : Phase → List δ
  | .ready => []
  | .binding ith => task.params.take ith
  | .acquiring ith => task.params.take ith
  | .allocating ith => task.params.take (ith + 1)
  | .releasing ith => task.params.drop ith

/-- The accesses to a data that are acquired by the tasks of a device and not yet released. -/
def held (phase : τ → Phase) (d : δ) (l : Lid n) : ℕ :=
  ∑ t, if (tasks t).device = l then ((tasks t).acquired (phase t)).count d else 0

/-- The pin of the application for its memory. -/
def applicationPin (l : Lid n) (r : Replica) : ℕ :=
  if l = host ∧ r.ptr ≠ 0 then 1 else 0

/-- The pin of the replica of `l` is the number `count` of accesses and the application's. -/
def CountsAt (m : FindAccess.State n) (l : Lid n) (count : ℕ) : Prop :=
  match m.mdi.bind fun m => m.replicas l with
  | none => count = 0
  | some r => r.pinned = count + applicationPin l r

/-- The same for all replicas of an address. -/
def Counts (m : FindAccess.State n) (count : Lid n → ℕ) : Prop :=
  ∀ l, CountsAt m l (count l)

/-- The pins are right. -/
def Balanced (s : State δ τ n) : Prop :=
  ∀ d, Counts (s.data d) fun l => held tasks s.phase d l

/-- A pin is not negative. -/
def Nonnegative (s : State δ τ n) : Prop :=
  ∀ d m l r, (s.data d).mdi = some m → m.replicas l = some r → 0 ≤ r.pinned

/-- After all tasks, the replicas of the devices are not pinned. -/
def Unpinned (s : State δ τ n) : Prop :=
  (∀ t, s.phase t = .releasing (tasks t).params.length) →
    ∀ d m l r, (s.data d).mdi = some m → m.replicas l = some r → l ≠ host → r.pinned = 0

/-- No task invalidates its own replica on a device, and no replica is invalidated while a task has
acquired it. -/
def Released (s : State δ τ n) : Action δ τ n → Prop
  | .dsm d a =>
      (a = .invalidateData →
        ∀ m, (s.data d).mdi = some m → ∀ l ∈ m.alloc, held tasks s.phase d l = 0) ∧
          ∀ l, a = .invalidateEntry l → l = host ∨ held tasks s.phase d l = 0
  | .execute t => (tasks t).kind = .invalidate → (tasks t).params ≠ [] → (tasks t).device = host
  | _ => True

end

end Xkblas.Memory.PinCount
