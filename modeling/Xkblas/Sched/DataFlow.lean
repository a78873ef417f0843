import Mathlib.Algebra.GroupWithZero.Nat
import Mathlib.Algebra.Group.Int.Defs
import Mathlib.Data.Option.Basic
import Mathlib.Logic.Function.Basic
import Xkblas.Library.TransitionSystem

/-!
# The data-flow graph of the tasks

A task declares its accesses to the tiles. `kaapi_update_dependencies` links each of them into the
chain of the handle of its tile: consecutive concurrent accesses form a group, a group waits for
the synchronisation point before it, and signals the one after it. A synchronisation point counts
the accesses that have not signalled it, a task those that wait. `xkblas_sync` activates the first
point of every handle, and waits until all tasks are executed. Any number of threads execute ready
tasks; at the end of a task its thread signals the points after its accesses, and a point that is
signalled by all its accesses activates those of the next group one after the other. Each atomic
decrement is a step of its own.
-/

namespace Xkblas.Sched.DataFlow

open Library

variable {η V : Type} [DecidableEq η]

/-! ## Access modes -/

/-- The bits of `kaapi_access_mode_t`. -/
abbrev Mode := BitVec 8

def modeVoid : Mode := 0x00

def modeV : Mode := 0x01

def modeR : Mode := 0x02

def modeW : Mode := 0x04

def modeCW : Mode := 0x08

def modeP : Mode := 0x40

def modeRW : Mode := modeR ||| modeW

/-- `KAAPI_ACCESS_SYNC`, the mode of the synchronisation points. -/
def accessSync : Mode := 0xFF

/-- `KAAPI_ACCESS_IS_CONCURRENT`. -/
def IsConcurrent (a b : Mode) : Prop :=
  (a = b ∧ (b = modeR ∨ b = modeCW)) ∨ (a ||| b) &&& modeP ≠ 0

instance (a b : Mode) : Decidable (IsConcurrent a b) :=
  inferInstanceAs (Decidable (_ ∨ _))

def IsRead (m : Mode) : Prop :=
  m &&& modeR ≠ 0

def IsWrite (m : Mode) : Prop :=
  m &&& modeW ≠ 0

instance (m : Mode) : Decidable (IsRead m) :=
  inferInstanceAs (Decidable (_ ≠ _))

instance (m : Mode) : Decidable (IsWrite m) :=
  inferInstanceAs (Decidable (_ ≠ _))

/-! ## Tasks and accesses -/

/-- A parameter of a task: a value, or an access to the tile of a handle. -/
inductive Param (η : Type) where
  | value
  | access (mode : Mode) (h : η)
  deriving DecidableEq

/-- A task, with the contents that its body computes from those of the tiles. -/
structure Task (η V : Type) where
  params : List (Param η)
  body : (η → V) → η → V

namespace Param

/-- The handle of the tile that the parameter accesses. -/
def handle : Param η → Option η
  | .value => none
  | .access _ h => some h

/-- The parameter accesses the tile of `h` with a mode that passes the test. -/
def Has (test : Mode → Prop) (h : η) : Param η → Prop
  | .value => False
  | .access mode h' => h' = h ∧ test mode

instance (test : Mode → Prop) [DecidablePred test] (h : η) : DecidablePred (Has test h)
  | .value => instDecidableFalse
  | .access _ _ => inferInstanceAs (Decidable (_ ∧ _))

end Param

namespace Task

/-- The handles of a task. -/
def handles (task : Task η V) : List η :=
  task.params.filterMap Param.handle

def Reads (task : Task η V) (h : η) : Prop :=
  ∃ p ∈ task.params, p.Has IsRead h

def Writes (task : Task η V) (h : η) : Prop :=
  ∃ p ∈ task.params, p.Has IsWrite h

instance (task : Task η V) (h : η) : Decidable (task.Reads h) :=
  inferInstanceAs (Decidable (∃ p ∈ task.params, p.Has IsRead h))

instance (task : Task η V) (h : η) : Decidable (task.Writes h) :=
  inferInstanceAs (Decidable (∃ p ∈ task.params, p.Has IsWrite h))

end Task

/-- The address of a `kaapi_access_t`: the field `sync0` of a handle, an argument of a task, or a
synchronisation point on the stack of the thread. -/
inductive Ref (η : Type) where
  | sync0 (h : η)
  | access (t i : ℕ)
  | sync (k : ℕ)
  deriving DecidableEq

/-- The accesses among the parameters of the task `t`, from the parameter `i` on. -/
def accesses (t : ℕ) : ℕ → List (Param η) → List (Ref η)
  | _, [] => []
  | i, .value :: ps => accesses t (i + 1) ps
  | i, .access _ _ :: ps => .access t i :: accesses t (i + 1) ps

/-- Where the thread that executes a task is: before the body, in it, in the loop of
`kaapi_sched_activate_successors` over the accesses that are left, in the one of
`kaapi_sched_activate_syncpoint`, or after the task. -/
inductive Pc (η : Type) where
  | idle
  | running
  | signal (rest : List (Ref η))
  | notify (a : Option (Ref η)) (rest : List (Ref η))
  | finished
  deriving DecidableEq

/-- Where the thread that submits the tasks is: between the calls of `xkblas_sync`, in its loop
over `xkblas_list_sync0`, in `kaapi_sched_activate_syncpoint`, in `kaapi_end_dfg`, or in the loop
that initialises the handles again. -/
inductive MainPc (η : Type) where
  | build
  | activate (curr : Option η)
  | notify (a : Option (Ref η)) (next : Option η)
  | wait
  | reset (curr : Option η)
  deriving DecidableEq

/-- The fields of `kaapi_access_t` at every address, those of the handles and of the context of
XKBLAS, and the tasks in the order of their submission. `nextSync0` is the field `sync0.sync`, the
link of `xkblas_list_sync0`. `pushed` records the calls of `kaapi_thread_push`, `queue` holds the
tasks that no thread has taken, and `held` what the body of a task has read. -/
structure State (η V : Type) where
  mode : Ref η → Mode
  next : Ref η → Option (Ref η)
  sync : Ref η → Option (Ref η)
  task : Ref η → Option ℕ
  ready : Ref η → Bool
  wc : Ref η → ℤ
  last : η → Option (Ref η)
  hsync : η → Option (Ref η)
  listSync0 : Option η
  nextSync0 : η → Option η
  live : η → Bool
  brk : ℕ
  tasks : List (Task η V)
  taskWc : ℕ → ℤ
  queue : List ℕ
  pushed : List ℕ
  pc : ℕ → Pc η
  main : MainPc η
  spawn : ℕ
  exec : ℕ
  mem : η → V
  held : ℕ → η → V

namespace State

/-! ## Submission -/

/-- `kaapi_handle_init`. -/
def handleInit (s : State η V) (h : η) : State η V :=
  { s with
    mode := Function.update s.mode (.sync0 h) accessSync
    next := Function.update s.next (.sync0 h) none
    task := Function.update s.task (.sync0 h) none
    ready := Function.update s.ready (.sync0 h) false
    wc := Function.update s.wc (.sync0 h) 1
    last := Function.update s.last h (some (.sync0 h))
    hsync := Function.update s.hsync h none
    nextSync0 := Function.update s.nextSync0 h none }

/-- A handle that is put in front of `xkblas_list_sync0`. -/
def linkSync0 (s : State η V) (h : η) : State η V :=
  { s with
    nextSync0 := Function.update s.nextSync0 h s.listSync0
    listSync0 := some h }

/-- A handle of `xkblas_init_matrix_handle`. -/
def newHandle (s : State η V) (h : η) : State η V :=
  { (s.handleInit h).linkSync0 h with live := Function.update s.live h true }

/-- The test of `kaapi_update_dependencies`: the last access of the handle is not concurrent. A
null `last` is never read. -/
def Swaps (s : State η V) (mode : Mode) (h : η) : Prop :=
  ∃ l ∈ s.last h, s.mode l ≠ modeVoid ∧ ¬ IsConcurrent mode (s.mode l)

instance (s : State η V) (mode : Mode) (h : η) : Decidable (s.Swaps mode h) :=
  inferInstanceAs (Decidable (∃ l ∈ s.last h, _ ∧ ¬ _))

/-- A new synchronisation point for a handle. -/
def newSync (s : State η V) (h : η) : State η V :=
  { s with
    mode := Function.update s.mode (.sync s.brk) accessSync
    next := Function.update s.next (.sync s.brk) none
    sync := Function.update s.sync (.sync s.brk) none
    task := Function.update s.task (.sync s.brk) none
    ready := Function.update s.ready (.sync s.brk) false
    wc := Function.update s.wc (.sync s.brk) 0
    hsync := Function.update s.hsync h (some (.sync s.brk))
    brk := s.brk + 1 }

/-- The fields that `kaapi_update_dependencies` sets first in the access `i` of the task `t`. -/
def declare (s : State η V) (t i : ℕ) (mode : Mode) : State η V :=
  { s with
    next := Function.update s.next (.access t i) none
    task := Function.update s.task (.access t i) (some t)
    mode := Function.update s.mode (.access t i) mode }

/-- The next access of the handle will hang from its synchronisation point. -/
def swap (s : State η V) (h : η) : State η V :=
  { s with
    last := Function.update s.last h (s.hsync h)
    hsync := Function.update s.hsync h none }

/-- The end of `kaapi_update_dependencies`: the access `a` of the task `t` is linked after the last
one of the handle. -/
def linkAccess (s : State η V) (t : ℕ) (a : Ref η) (h : η) : State η V :=
  { s with
    next := match s.last h with
      | some l => Function.update s.next l (some a)
      | none => s.next
    last := Function.update s.last h (some a)
    sync := Function.update s.sync a (s.hsync h)
    ready := Function.update s.ready a false
    wc := match s.hsync h with
      | some p => Function.update s.wc p (s.wc p + 1)
      | none => s.wc
    taskWc := Function.update s.taskWc t (s.taskWc t + 1) }

/-- `kaapi_update_dependencies` for the parameter `i` of the task `t`. -/
def updateDependencies (s : State η V) (t i : ℕ) (mode : Mode) (h : η) : State η V :=
  let s := s.declare t i mode
  let s := if s.Swaps mode h then s.swap h else s
  let s := if s.hsync h = none then s.newSync h else s
  s.linkAccess t (.access t i) h

/-- The calls of `kaapi_update_dependencies` for a task, from the parameter `i` on. -/
def insertParams (s : State η V) (t : ℕ) : ℕ → List (Param η) → State η V
  | _, [] => s
  | i, .value :: ps => insertParams s t (i + 1) ps
  | i, .access mode h :: ps => insertParams (s.updateDependencies t i mode h) t (i + 1) ps

/-- `kaapi_thread_push`. -/
def push (s : State η V) (t : ℕ) : State η V :=
  { s with
    queue := s.queue ++ [t]
    pushed := s.pushed ++ [t] }

/-- The decrement of the counter of a task, which is pushed when it reaches 0. -/
def decrement (s : State η V) (t : ℕ) : State η V :=
  let s := { s with taskWc := Function.update s.taskWc t (s.taskWc t - 1) }
  if s.taskWc t = 0 then s.push t else s

/-- `kaapi_task_commit`. -/
def commit (s : State η V) (t : ℕ) : State η V :=
  State.decrement { s with spawn := s.spawn + 1 } t

/-- A function that inserts a task: `kaapi_task_alloc`, the dependencies of its accesses, and
`kaapi_task_commit`. -/
def insert (s : State η V) (task : Task η V) : State η V :=
  let t := s.tasks.length
  let s := { s with
    tasks := s.tasks ++ [task]
    taskWc := Function.update s.taskWc t 1
    pc := Function.update s.pc t .idle }
  (s.insertParams t 0 task.params).commit t

/-! ## Execution -/

/-- The decrement of `kaapi_sched_activate_syncpoint`. -/
def signal (s : State η V) (p : Ref η) : State η V :=
  { s with wc := Function.update s.wc p (s.wc p - 1) }

/-- One round of the loop of `kaapi_sched_activate_syncpoint`. -/
def notify (s : State η V) (a : Ref η) : State η V :=
  let s := { s with ready := Function.update s.ready a true }
  match s.task a with
  | some t => s.decrement t
  | none => s

def setPc (s : State η V) (t : ℕ) (pc : Pc η) : State η V :=
  { s with pc := Function.update s.pc t pc }

/-- A thread takes a task of the queue, and its body reads the tiles. -/
def start (s : State η V) (t : ℕ) : State η V :=
  State.setPc { s with queue := s.queue.erase t, held := Function.update s.held t s.mem } t .running

/-- The body of a task ends: its thread writes the tiles that the task has a write access to, and
goes to its first access. -/
def endBody (s : State η V) (t : ℕ) (task : Task η V) : State η V :=
  State.setPc { s with mem := fun x => if task.Writes x then task.body (s.held t) x else s.mem x }
    t (.signal (accesses t 0 task.params))

/-- The next step of the thread that executes the task `t`. -/
def stepTask (s : State η V) (t : ℕ) : Option (State η V) :=
  match s.pc t with
  | .idle => none
  | .running => s.tasks[t]?.map (s.endBody t)
  | .signal [] => some { s.setPc t .finished with exec := s.exec + 1 }
  | .signal (a :: rest) =>
      (s.sync a).map fun p =>
        (s.signal p).setPc t (if s.wc p - 1 = 0 then .notify (s.next p) rest else .signal rest)
  | .notify none rest => some (s.setPc t (.signal rest))
  | .notify (some a) rest => some ((s.notify a).setPc t (.notify (s.next a) rest))
  | .finished => none

/-- The next step of `xkblas_sync`. -/
def stepMain (s : State η V) : Option (State η V) :=
  match s.main with
  | .build => none
  | .activate none => some { s with main := .wait }
  | .activate (some h) =>
      if s.hsync h = none then some { s with main := .activate (s.nextSync0 h) }
      else
        some { s.signal (.sync0 h) with
          main := if s.wc (.sync0 h) - 1 = 0 then .notify (s.next (.sync0 h)) (s.nextSync0 h)
            else .activate (s.nextSync0 h) }
  | .notify none next => some { s with main := .activate next }
  | .notify (some a) next => some { s.notify a with main := .notify (s.next a) next }
  | .wait =>
      -- `_kaapi_frame_completed`
      if s.spawn = s.exec then some { s with main := .reset s.listSync0, listSync0 := none }
      else none
  | .reset none => some { s with main := .build }
  | .reset (some h) => some { (s.handleInit h).linkSync0 h with main := .reset (s.nextSync0 h) }

end State

/-- `init` is a call of `xkblas_init_matrix_handle`, `insert` one of a function that inserts a task,
`sync` of `xkblas_sync` and `invalidate` of `xkblas_memory_invalidate_caches`. The other steps are
those of `xkblas_sync`, of a thread that takes a task, and of one that executes it. -/
inductive Action (η V : Type) where
  | init (hs : List η)
  | insert (task : Task η V)
  | sync
  | invalidate
  | main
  | start (t : ℕ)
  | task (t : ℕ)

def step (s : State η V) : Action η V → Option (State η V)
  | .init hs =>
      if s.main = .build ∧ hs.Nodup ∧ ∀ h ∈ hs, s.live h = false then
        some (hs.foldl State.newHandle s)
      else none
  | .insert task =>
      if s.main = .build ∧ ∀ h ∈ task.handles, s.live h = true then some (s.insert task) else none
  | .sync => if s.main = .build then some { s with main := .activate s.listSync0 } else none
  | .invalidate =>
      if s.main = .build then some { s with live := fun _ => false, listSync0 := none } else none
  | .main => s.stepMain
  | .start t => if t ∈ s.queue then some (s.start t) else none
  | .task t => s.stepTask t

/-- Nothing has been submitted. -/
structure Initial (s : State η V) : Prop where
  live : ∀ h, s.live h = false
  listSync0 : s.listSync0 = none
  tasks : s.tasks = []
  queue : s.queue = []
  pushed : s.pushed = []
  pc : ∀ t, s.pc t = .idle
  main : s.main = .build
  spawn : s.spawn = 0
  exec : s.exec = 0

def system (η V : Type) [DecidableEq η] : TransitionSystem (State η V) (Action η V) where
  initial := Initial
  step := step

end Xkblas.Sched.DataFlow
