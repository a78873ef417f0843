import Mathlib.Algebra.GroupWithZero.Nat
import Xkblas.Library.TransitionSystem

/-!
# The counters of a frame

A thread commits tasks in a frame and waits for them in `kaapi_sched_sync`. Device threads run
them: the body, the epilogue `callback_epilogue` and, for a write-back task, the callback of its
transfer. Each of these counts in `exec_count` of the frame, and the waiting thread returns and
frees the tasks when the count is `spawn_count`. The order in which tasks become ready is left
open.
-/

namespace Xkblas.Sched.Frame

open Library

/-- A write-back task counts twice. -/
inductive Kind where
  | compute
  | writeback
  deriving DecidableEq, Repr

/-- Where the execution of a task stands. In `body`, `kaapi_dsm_prefetch_on` has returned 0 to a
write-back task. The epilogue has activated the successors, has counted, and has set
`KAAPI_TASK_FLAG_EXEC`. -/
inductive Phase where
  | committed
  | body
  | launched
  | activated
  | counted
  | finished
  deriving DecidableEq, Repr

/-- The transfer of a write-back task: not asked for, not needed, in flight, or complete and
counted. -/
inductive Transfer where
  | none
  | valid
  | pending
  | received
  deriving DecidableEq, Repr

/-- A task. `frame` says whether `task->frame` points to the frame, and `recycled` whether the
stack that holds the task has been given back. -/
structure Task where
  kind : Kind
  frame : Bool
  phase : Phase
  transfer : Transfer
  recycled : Bool
  deriving DecidableEq, Repr

/-- Where the submitting thread stands: between two calls, in `kaapi_task_commit` before it has
stored `task->frame`, in the loop of `kaapi_sched_sync` with its local count, or waiting. -/
inductive Pc where
  | running
  | storing (i : Nat)
  | executing (exec_cnt : BitVec 32)
  | waiting
  deriving DecidableEq, Repr

/-- The frame, its tasks in the order of their commits, and `thread->cnt`. -/
structure State where
  tasks : List Task
  spawn_count : BitVec 32
  exec_count : BitVec 32
  cnt : BitVec 64
  pc : Pc
  deriving DecidableEq, Repr

/-- The submitting thread commits a task, in whose memory `task->frame` is stale, stores the
pointer, calls `kaapi_sched_sync`, executes a task of its queue, adds its count and returns. A
device thread starts the task `i`, whose data is `valid` on the host or not, counts the transfer
that is not needed, receives the data, and runs the three parts of the epilogue. -/
inductive Action where
  | commit (kind : Kind) (stale : Bool)
  | store
  | sync
  | pop (i : Nat)
  | report
  | return_
  | start (i : Nat) (valid : Bool)
  | unroll (i : Nat)
  | receive (i : Nat)
  | activate (i : Nat)
  | count (i : Nat)
  | flag (i : Nat)
  deriving DecidableEq, Repr

/-- The body of a task on a device. That of a write-back task calls `kaapi_dsm_prefetch_on`. -/
def Task.start (t : Task) (valid : Bool) : Task :=
  match t.kind, valid with
  | .compute, _ => { t with phase := .launched }
  | .writeback, true => { t with phase := .body, transfer := .valid }
  | .writeback, false => { t with phase := .launched, transfer := .pending }

/-- The task whose memory, or whose frame, a device thread uses. -/
def Action.device? : Action → Option Nat
  | .start i _ | .unroll i | .receive i | .activate i | .count i | .flag i => some i
  | .commit _ _ | .store | .sync | .pop _ | .report | .return_ => none

namespace State

/-- The task `i` changes. -/
def setTask (s : State) (i : Nat) (t : Task) : State :=
  { s with tasks := s.tasks.set i t }

/-- The task `i` changes, and `exec_count` is incremented. -/
def countTask (s : State) (i : Nat) (t : Task) : State :=
  { s.setTask i t with exec_count := s.exec_count + 1 }

end State

/-- The step function. -/
def step (s : State) : Action → Option State
  | .commit kind stale =>
      if s.pc = .running then
        -- `xkblas_create_taskwriteback` increments `spawn_count` before the commit
        some { s with
          tasks := s.tasks ++ [⟨kind, stale, .committed, .none, false⟩]
          spawn_count := if kind = .writeback then s.spawn_count + 1 else s.spawn_count
          cnt := s.cnt + 1
          pc := .storing s.tasks.length }
      else none
  | .store =>
      match s.pc with
      | .storing i =>
          match s.tasks[i]? with
          | some t => some { s.setTask i { t with frame := true } with pc := .running }
          | none => none
      | _ => none
  | .sync =>
      if s.pc = .running then
        -- the call returns at once when no task has been committed since the last one
        if s.cnt = 0 then some s
        else some { s with
          spawn_count := s.spawn_count + s.cnt.setWidth 32
          cnt := 0
          pc := .executing 0 }
      else none
  | .pop i =>
      match s.pc, s.tasks[i]? with
      | .executing exec_cnt, some t =>
          if t.phase = .committed ∧ t.kind = .compute then
            some { s.setTask i { t with phase := .finished } with pc := .executing (exec_cnt + 1) }
          else none
      | _, _ => none
  | .report =>
      match s.pc with
      | .executing exec_cnt =>
          some { s with exec_count := s.exec_count + exec_cnt, pc := .waiting }
      | _ => none
  | .return_ =>
      if s.pc = .waiting ∧ s.spawn_count = s.exec_count then
        -- `kaapi_frame_pop` gives the stack back
        some { s with
          tasks := s.tasks.map fun t => { t with recycled := true }
          pc := .running }
      else none
  | .start i valid =>
      match s.tasks[i]? with
      | some t => if t.phase = .committed then some (s.setTask i (t.start valid)) else none
      | none => none
  | .unroll i =>
      match s.tasks[i]? with
      | some t =>
          if t.phase = .body then
            some (s.countTask i { t with phase := .launched, transfer := .received })
          else none
      | none => none
  | .receive i =>
      match s.tasks[i]? with
      | some t =>
          if t.transfer = .pending then some (s.countTask i { t with transfer := .received })
          else none
      | none => none
  | .activate i =>
      match s.tasks[i]? with
      | some t =>
          if t.phase = .launched then some (s.setTask i { t with phase := .activated }) else none
      | none => none
  | .count i =>
      match s.tasks[i]? with
      | some t =>
          if t.phase = .activated then
            -- a stale pointer counts somewhere else
            if t.frame then some (s.countTask i { t with phase := .counted })
            else some (s.setTask i { t with phase := .counted })
          else none
      | none => none
  | .flag i =>
      match s.tasks[i]? with
      | some t =>
          if t.phase = .counted then some (s.setTask i { t with phase := .finished }) else none
      | none => none

/-- A frame without tasks, whose counters agree. -/
structure Initial (s : State) : Prop where
  tasks : s.tasks = []
  counts : s.spawn_count = s.exec_count
  cnt : s.cnt = 0
  pc : s.pc = .running

/-- The interleavings of the submitting thread and of the device threads. -/
def system : TransitionSystem State Action where
  initial := Initial
  step := step

/-! ## What has been counted -/

/-- The increments of `exec_count` that a task stands for. -/
def Kind.units : Kind → Nat
  | .compute => 1
  | .writeback => 2

namespace Task

/-- The execution of the task is counted, and its transfer is complete. -/
def Complete (t : Task) : Prop :=
  (t.phase = .counted ∨ t.phase = .finished) ∧ (t.kind = .writeback → t.transfer = .received)

instance (t : Task) : Decidable t.Complete :=
  inferInstanceAs (Decidable (_ ∧ _))

end Task

namespace Pc

/-- The local count of `kaapi_sched_sync`. -/
def exec_cnt : Pc → BitVec 32
  | .executing exec_cnt => exec_cnt
  | .running | .storing _ | .waiting => 0

/-- The thread is in `kaapi_sched_sync`. -/
def Synchronising : Pc → Prop
  | .running | .storing _ => False
  | .executing _ | .waiting => True

instance : DecidablePred Synchronising
  | .running | .storing _ => inferInstanceAs (Decidable False)
  | .executing _ | .waiting => inferInstanceAs (Decidable True)

end Pc

namespace State

/-- The increments that the tasks since the last return of `kaapi_sched_sync` stand for. -/
def units (s : State) : Nat :=
  (s.tasks.map fun t => if t.recycled then 0 else t.kind.units).sum

/-- A call of `kaapi_sched_sync` finds the counters equal. -/
def Completed (s : State) : Prop :=
  s.pc.Synchronising ∧ s.spawn_count = s.exec_count

instance (s : State) : Decidable s.Completed :=
  inferInstanceAs (Decidable (_ ∧ _))

/-- The next increment makes the counters equal. -/
def LastIncrement (s : State) : Prop :=
  s.pc.Synchronising ∧ s.spawn_count = s.exec_count + 1

instance (s : State) : Decidable s.LastIncrement :=
  inferInstanceAs (Decidable (_ ∧ _))

/-- No epilogue stands between its increment and the write of the flag. -/
def Flagged (s : State) : Prop :=
  ∀ t ∈ s.tasks, t.phase ≠ .counted

instance (s : State) : Decidable s.Flagged :=
  inferInstanceAs (Decidable (∀ t ∈ s.tasks, _))

end State

/-- The tasks of the frame stand for fewer than `2 ^ 32` increments, and an epilogue finds the
pointer to the frame stored. -/
def Accounted (s : State) : Action → Prop
  | .commit kind _ => s.units + kind.units < 2 ^ 32
  | .count i => ∀ t ∈ s.tasks[i]?, t.frame = true
  | _ => True

instance : ∀ s a, Decidable (Accounted s a)
  | _, .commit _ _ => inferInstanceAs (Decidable (_ < _))
  | _, .count _ => inferInstanceAs (Decidable (∀ t ∈ _, _))
  | _, .store | _, .sync | _, .pop _ | _, .report | _, .return_ | _, .start _ _ | _, .unroll _
  | _, .receive _ | _, .activate _ | _, .flag _ => inferInstanceAs (Decidable True)

/-- The step that makes the counters equal is not an increment by an epilogue, and no epilogue
stands between its increment and the write of the flag then. -/
def Settled (s : State) : Action → Prop
  | .count _ => ¬ s.LastIncrement
  | .receive _ => s.LastIncrement → s.Flagged
  | .sync => s.spawn_count + s.cnt.setWidth 32 = s.exec_count → s.Flagged
  | .report => s.spawn_count = s.exec_count + s.pc.exec_cnt → s.Flagged
  | _ => True

instance : ∀ s a, Decidable (Settled s a)
  | _, .count _ => inferInstanceAs (Decidable (¬ _))
  | _, .receive _ | _, .sync | _, .report => inferInstanceAs (Decidable (_ → _))
  | _, .commit _ _ | _, .store | _, .pop _ | _, .return_ | _, .start _ _ | _, .unroll _
  | _, .activate _ | _, .flag _ => inferInstanceAs (Decidable True)

end Xkblas.Sched.Frame
