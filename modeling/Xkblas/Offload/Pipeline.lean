import Mathlib.Algebra.Group.Int.Defs
import Mathlib.Algebra.Group.Nat.Defs
import Mathlib.Logic.Function.Basic
import Xkblas.Library.TransitionSystem

/-!
# The pipeline of the tasks of a device

A device prepares its tasks one after the other: it writes a task in the circular buffer
`pipeline`, requests the transfers of its data, and launches its kernel once all data are
valid and all earlier kernels are launched. The completion callbacks of the transfers are run
by any thread; they decrement the wait counter of the task outside the lock `pipe_lock`, and
inside it launch the tasks that have become ready. The threads meet in the counters
`p_write`, `p_ready` and `p_finish`.
-/

namespace Xkblas.Offload.Pipeline

open Library

/-- `kaapi_default_param.cuda_conc_kernel`: a default, or the value of the environment
variable `KAAPI_CUDA_KERNEL_PER_STREAM` converted to `uint8_t`, and at least one. -/
def cudaConcKernel (env : Option Int) : Nat :=
  match env with
  | none => 8
  | some value =>
      let converted := (value % 256).toNat
      if converted < 1 then 1 else converted

/-- The number of accesses of a task: its arguments, with 48 bytes for each access, are
allocated in one block of the stack, or the program aborts. -/
def maxAccesses : Nat := 1048576 / 48

/-- A value of the type `kaapi_atomic16_t` is compared with zero. -/
def isZero16 (wc : Int) : Prop :=
  wc % 2 ^ 16 = 0

instance (wc : Int) : Decidable (isZero16 wc) :=
  inferInstanceAs (Decidable (_ = _))

/-- The program points of the device thread. A task is prepared from `arm`, where its wait
counter is still zero, to `disarm`, where `p_write` is incremented; `left` accesses are still
to be visited, and in `fetch` the counter is incremented for the transfer of one of them.
`drain` is the loop that waits until a new task is accepted. -/
inductive DevicePc where
  | idle
  | arm (left : Nat)
  | visit (left : Nat)
  | fetch (left : Nat)
  | disarm
  | drain
  deriving DecidableEq, Repr

/-- The pipeline. Tasks are named by their index. `transfers i` counts the transfers requested
for task `i` whose callback has not decremented its counter, and `arrived i` the callbacks
between the decrement and the lock. `lock` holds the index reached by a callback in its loop. -/
structure State where
  pc : DevicePc
  pWrite : Nat
  pReady : Nat
  pFinish : Nat
  pipeline : Nat → Option Nat
  wc : Nat → Int
  transfers : Nat → Nat
  arrived : Nat → Nat
  lock : Option Nat
  launched : List Nat
  finished : Nat → Bool

/-- The steps of the device thread, of the callbacks and of the kernels. -/
inductive Action where
  | prepare (count : Nat)
  | arm
  | skip
  | incr
  | fetchPosted
  | fetchValid
  | publish
  | disarm
  | accept
  | decr (i : Nat)
  | enter (i : Nat)
  | advance
  | epilogue (i : Nat)
  deriving DecidableEq, Repr

/-- `kaapi_offload_device_accept_new_task`. -/
def acceptNewTask (size : Nat) (s : State) : Prop :=
  s.pWrite - s.pFinish < size ∧ s.pWrite - s.pReady < (1 + size) / 2

instance (size : Nat) (s : State) : Decidable (acceptNewTask size s) :=
  inferInstanceAs (Decidable (_ ∧ _))

/-- A step of `kaapi_offload_device_prepare_execute_task` and of the loop that follows it. -/
def prepareExecuteTask (size : Nat) (s : State) : Action → Option State
  | .prepare count =>
      if s.pc = .idle ∧ count ≤ maxAccesses then
        some { s with
          pc := .arm count
          pipeline := Function.update s.pipeline (s.pWrite % size) (some s.pWrite) }
      else none
  | .arm =>
      match s.pc with
      | .arm left =>
          some { s with
            pc := .visit left
            wc := Function.update s.wc s.pWrite (s.wc s.pWrite + 1) }
      | _ => none
  | .skip =>
      match s.pc with
      | .visit (left + 1) => some { s with pc := .visit left }
      | _ => none
  | .incr =>
      match s.pc with
      | .visit (left + 1) =>
          some { s with
            pc := .fetch left
            wc := Function.update s.wc s.pWrite (s.wc s.pWrite + 1) }
      | _ => none
  | .fetchPosted =>
      match s.pc with
      | .fetch left =>
          some { s with
            pc := .visit left
            transfers := Function.update s.transfers s.pWrite (s.transfers s.pWrite + 1) }
      | _ => none
  | .fetchValid =>
      match s.pc with
      | .fetch left =>
          some { s with
            pc := .visit left
            wc := Function.update s.wc s.pWrite (s.wc s.pWrite - 1) }
      | _ => none
  | .publish =>
      match s.pc with
      | .visit 0 => some { s with pc := .disarm, pWrite := s.pWrite + 1 }
      | _ => none
  | .disarm =>
      let index := s.pWrite - 1
      if s.pc = .disarm ∧ s.lock = none then
        let armed := { s with
          pc := .drain
          wc := Function.update s.wc index (s.wc index - 1) }
        if isZero16 (s.wc index - 1) ∧ s.pReady = index then
          some { armed with launched := s.launched ++ [index], pReady := s.pReady + 1 }
        else some armed
      else none
  | .accept =>
      if s.pc = .drain ∧ acceptNewTask size s then some { s with pc := .idle } else none
  | _ => none

/-- A step of `callback_set_valid`: the decrement, the test of the index under the lock, and
one turn of the loop. -/
def callbackSetValid (size : Nat) (s : State) : Action → Option State
  | .decr i =>
      if 0 < s.transfers i then
        some { s with
          transfers := Function.update s.transfers i (s.transfers i - 1)
          wc := Function.update s.wc i (s.wc i - 1)
          arrived := Function.update s.arrived i (s.arrived i + 1) }
      else none
  | .enter i =>
      if s.lock = none ∧ 0 < s.arrived i then
        some { s with
          arrived := Function.update s.arrived i (s.arrived i - 1)
          lock := if i = s.pReady then some i else none }
      else none
  | .advance =>
      match s.lock with
      | none => none
      | some index =>
          if index < s.pWrite then
            match s.pipeline (index % size) with
            | none => none
            | some task =>
                if isZero16 (s.wc task) then
                  some { s with lock := some (index + 1), launched := s.launched ++ [task] }
                else some { s with lock := none, pReady := index }
          else some { s with lock := none, pReady := index }
  | _ => none

/-- The loop of `callback_epilogue` that skips the finished tasks, with at most `fuel` turns. -/
def skipFinished (pipeline : Nat → Option Nat) (size : Nat) : Nat → Nat → Nat
  | 0, index => index
  | fuel + 1, index =>
      if pipeline (index % size) = none then skipFinished pipeline size fuel (index + 1)
      else index

/-- `callback_epilogue` of the kernel of index `i`. -/
def callbackEpilogue (size : Nat) (s : State) (i : Nat) : Option State :=
  if i ∈ s.launched ∧ s.finished i = false ∧ s.lock = none then
    let pipeline := Function.update s.pipeline (i % size) none
    some { s with
      finished := Function.update s.finished i true
      pipeline := pipeline
      pFinish :=
        if i = s.pFinish then
          skipFinished pipeline size (s.pReady - (s.pFinish + 1)) (s.pFinish + 1)
        else s.pFinish }
  else none

/-- One step. -/
def step (size : Nat) (s : State) (a : Action) : Option State :=
  match a with
  | .decr _ | .enter _ | .advance => callbackSetValid size s a
  | .epilogue i => callbackEpilogue size s i
  | _ => prepareExecuteTask size s a

/-- The state after `kaapi_offload_device_init`. -/
def initial : State where
  pc := .idle
  pWrite := 0
  pReady := 0
  pFinish := 0
  pipeline := fun _ => none
  wc := fun _ => 0
  transfers := fun _ => 0
  arrived := fun _ => 0
  lock := none
  launched := []
  finished := fun _ => false

/-- The pipeline of a device for a value of the environment variable. -/
def system (env : Option Int) : TransitionSystem State Action where
  initial := fun s => s = initial
  step := step (cudaConcKernel env)

/-! ## The property -/

/-- With `p_write` at `pWrite`, the device thread still visits the accesses of task `i`, or has
not yet given back the pseudo lock on its counter. -/
def DevicePc.preparing (pWrite i : Nat) : DevicePc → Prop
  | .arm _ | .visit _ | .fetch _ => i = pWrite
  | .disarm => i + 1 = pWrite
  | .idle | .drain => False

/-- Task `i` is under preparation. -/
def State.preparing (s : State) (i : Nat) : Prop :=
  s.pc.preparing s.pWrite i

/-- No callback and no preparation is running. -/
def State.quiescent (s : State) : Prop :=
  s.lock = none ∧ (∀ i, s.arrived i = 0) ∧ (s.pc = .idle ∨ s.pc = .drain)

/-- The pipeline works: the kernels are launched in index order and once each, and only when
their data are ready; the three indices are ordered and at most the size of the buffer apart;
the slots of the unfinished tasks are theirs; and nothing is forgotten. -/
structure Sound (size : Nat) (s : State) : Prop where
  inOrder : s.launched = List.range s.launched.length
  dataReady : ∀ i ∈ s.launched, i < s.pWrite ∧ s.transfers i = 0 ∧ ¬ s.preparing i
  finish_le_ready : s.pFinish ≤ s.pReady
  ready_le_write : s.pReady ≤ s.pWrite
  write_le : s.pWrite ≤ s.pFinish + size
  slots : ∀ i, i < s.pWrite ∨ s.preparing i → s.finished i = false →
    s.pipeline (i % size) = some i
  launchedAll : s.quiescent → (∀ i < s.pWrite, s.wc i = 0) →
    s.pReady = s.pWrite ∧ s.launched = List.range s.pWrite

end Xkblas.Offload.Pipeline
