import Xkblas.Offload.IoStream
import Mathlib.Logic.Function.Basic

/-!
# Device threads that push in their own rings

`kaapi_memory_copy_async` posts every copy in a stream of the device whose thread calls it, and
only this thread takes the instructions of these streams. A push spins while the ring is full,
and its loop takes nothing from the ring: the call of `kaapi_offload_test_stream` is commented out.

A thread is in its main loop, or it has pushes to make before it comes back there. The pushes
that it makes between two polls are one submission: the write-back of a cache, the fetches of the
parameters of a task, the forwarding of a block by a callback. A callback may also push a kernel
in a ring of another device. The ring that `kaapi_offload_select_io_stream` chooses is any.
-/

namespace Xkblas.Offload.OwnRing

open Library Offload.Stream

variable {δ ρ κ : Type*}

/-- An entry of the list `rw` of a cache, and the ring that a copy of it would go to. -/
structure CacheEntry (ρ : Type*) where
  /-- The replica of the host is valid. -/
  validHost : Bool
  /-- The replica of the device is valid. -/
  valid : Bool
  /-- The replica of the host is under transfer. -/
  xferHost : Bool
  /-- The replica that would be sent is under transfer. -/
  route : Bool
  ring : ρ

/-- `kaapi_memory_writeback_all` asks for a copy of the entry, and `kaapi_dsm_fetch_on` posts it:
it neither waits for a copy on its way nor for the source. -/
def CacheEntry.posts (entry : CacheEntry ρ) : Bool :=
  !entry.validHost && entry.valid && !entry.xferHost && !entry.route

/-- `kaapi_memory_writeback_all`: the pushes that it makes. -/
def writebackAll : List (CacheEntry ρ) → List ρ
  | [] => []
  | curr :: rest => if curr.posts = true then curr.ring :: writebackAll rest else writebackAll rest

/-- The push of an instruction and its commit. -/
def pushCommit (ios : IoStream κ) (inst : Instruction κ) : Option (IoStream κ) :=
  (streamPush ios).bind fun ios => (streamFill ios inst).bind streamCommit

/-- The rings of all devices, and for each thread the rings it has still to push in. It spins at
the first. -/
structure State (δ ρ κ : Type*) where
  ring : ρ → IoStream κ
  todo : δ → List ρ

/-- The steps of the threads. -/
inductive Action (δ ρ κ : Type*) where
  /-- `kaapi_memory_writeback_all`. -/
  | writeback (d : δ) (rw : List (CacheEntry ρ))
  /-- Any other submission. -/
  | submit (d : δ) (todo : List ρ)
  /-- The loop of a push ends, and the instruction is committed. -/
  | push (d : δ) (inst : Instruction κ)
  /-- `_kaapi_offload_onestream_process_instruction`. -/
  | process (d : δ) (r : ρ)
  /-- `_kaapi_offload_waittest_stream`, with the pushes of the callbacks. -/
  | test (d : δ) (r : ρ) (blocking : Bool) (rounds : List (ℕ → Bool)) (todo : List ρ)

variable [DecidableEq δ] [DecidableEq ρ]

/-- The thread `d` has the pushes `todo` to make. -/
def State.setTodo (s : State δ ρ κ) (d : δ) (todo : List ρ) : State δ ρ κ :=
  { s with todo := Function.update s.todo d todo }

/-- The ring `r` becomes `ios`. -/
def State.setRing (s : State δ ρ κ) (r : ρ) (ios : IoStream κ) : State δ ρ κ :=
  { s with ring := Function.update s.ring r ios }

/-- A submission. The thread makes no other while it has pushes to make. -/
def submit (s : State δ ρ κ) (d : δ) (todo : List ρ) : Option (State δ ρ κ) :=
  match s.todo d with
  | [] => some (s.setTodo d todo)
  | _ :: _ => none

/-- The push that the thread `d` spins at. -/
def push (s : State δ ρ κ) (d : δ) (inst : Instruction κ) : Option (State δ ρ κ) :=
  match s.todo d with
  | [] => none
  | r :: rest =>
      (pushCommit (s.ring r) inst).map fun ios => (s.setRing r ios).setTodo d rest

/-- The thread `d` takes the new instructions of its ring `r`. -/
def process (owner : ρ → δ) (s : State δ ρ κ) (d : δ) (r : ρ) : Option (State δ ρ κ) :=
  match s.todo d with
  | [] =>
      if owner r = d then (processInstruction (s.ring r)).map fun ios => s.setRing r ios
      else none
  | _ :: _ => none

/-- The thread `d` tests its ring `r`. Only a callback pushes. -/
def test (owner : ρ → δ) (conc : ℕ) (s : State δ ρ κ) (d : δ) (r : ρ) (blocking : Bool)
    (rounds : List (ℕ → Bool)) (todo : List ρ) : Option (State δ ρ κ) :=
  match s.todo d with
  | [] =>
      if owner r = d then
        match waittestStream conc blocking rounds (s.ring r) [] with
        | none => none
        | some (ios, called) =>
            if called.isEmpty = true ∧ todo.isEmpty = false then none
            else some ((s.setRing r ios).setTodo d todo)
      else none
  | _ :: _ => none

/-- One step. The thread `owner r` is the only one that takes from the ring `r`. -/
def step (owner : ρ → δ) (conc : ℕ) (s : State δ ρ κ) : Action δ ρ κ → Option (State δ ρ κ)
  | .writeback d rw => submit s d (writebackAll rw)
  | .submit d todo => submit s d todo
  | .push d inst => push s d inst
  | .process d r => process owner s d r
  | .test d r blocking rounds todo => test owner conc s d r blocking rounds todo

/-- Every ring is new, with a capacity of type `uint64_t`, and every thread is in its loop. -/
structure Initial (s : State δ ρ κ) : Prop where
  ring : ∀ r, ∃ type capacity instr pending, 1 ≤ capacity ∧ capacity < 2 ^ 64 ∧
    s.ring r = iostreamInit type capacity instr pending
  todo : ∀ d, s.todo d = []

/-- The threads of the devices. -/
def system (κ : Type*) (owner : ρ → δ) (conc : ℕ) :
    TransitionSystem (State δ ρ κ) (Action δ ρ κ) where
  initial := Initial
  step := step owner conc

end Xkblas.Offload.OwnRing
