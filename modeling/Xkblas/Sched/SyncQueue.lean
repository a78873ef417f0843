import Xkblas.Sched.OwnerQueue

/-!
# Synchronisation of the frames of a thread

The tasks of a frame are those that the thread pushes after it has opened the frame and saved `T`.
A sync executes them: it pops with the saved indices as limits, opens a frame for each task that it
runs, and when it gets no task it sets `T` back to the saved indices. Where `H` is behind them tasks
were stolen; the thread waits for these and sets `H` back too. Frames are nested, since a task may
push tasks and open frames, and thieves take tasks of all frames at any time.
-/

namespace Xkblas.Sched.SyncQueue

open Library OwnerQueue

/-- Where the thread is in a frame. In `code` it runs the code that opened the frame, and from
`loop` on it is in `kaapi_sched_sync`: between two pops, in a pop, in the reset of `T`, in
`kaapi_queue_headgreather`, or waiting for the stolen tasks. The lists are the priorities that are
left of a loop. -/
inductive Mode where
  | code
  | loop
  | popping
  | reset (left : List Prio)
  | test (left : List Prio)
  | wait

/-- `kaapi_frame_t`, with the tasks that had been pushed when the frame was opened. -/
structure Frame (Task : Type) where
  saveT : Prio → ℤ
  mode : Mode
  before : Prio → List Task

/-- The queue, the frame `unlink` of the thread and the frames below it. -/
structure State (κ Task : Type) where
  queue : OwnerQueue.State κ Task
  unlink : Frame Task
  below : List (Frame Task)

/-- The priorities in the order of the loops. -/
abbrev priorities : List Prio :=
  List.finRange (taskMaxPriority + 1)

section Steps

variable {κ Task : Type} (prio : Task → Prio)

/-- `kaapi_frame_push`. -/
def framePush (s : State κ Task) : State κ Task :=
  { s with
    unlink := { saveT := s.queue.rd.T, mode := .code, before := s.queue.pushed }
    below := s.unlink :: s.below }

/-- The result of a call of `kaapi_queue_pop`, at its last step. -/
def popResult : OwnerPc Task → Option Task
  | .out _ _ task => task
  | _ => none

/-- A step of the thread in a call of the queue. A task that is popped is executed in a frame of its
own. -/
def ownerStep (s : State κ Task) : Option (State κ Task) := do
  let queue ← OwnerQueue.ownerStep prio s.queue
  match s.unlink.mode, queue.owner, popResult s.queue.owner with
  | .popping, .idle, some _ =>
      some (framePush { s with queue := queue, unlink := { s.unlink with mode := .loop } })
  | .popping, .idle, none =>
      some { s with queue := queue, unlink := { s.unlink with mode := .reset priorities } }
  | _, _, _ => some { s with queue := queue }

/-- A step of `kaapi_sched_sync` behind its loop. `H` is set under the lock, after a wait that lasts
until the stolen tasks are executed. -/
def leaveStep (s : State κ Task) : Option (State κ Task) :=
  match s.unlink.mode with
  | .reset [] => some { s with unlink := { s.unlink with mode := .test priorities } }
  | .reset (p :: left) =>
      let rd := { s.queue.rd with T := Function.update s.queue.rd.T p (s.unlink.saveT p) }
      some { s with
        queue := { s.queue with rd := rd }
        unlink := { s.unlink with mode := .reset left } }
  | .test [] => some { s with unlink := { s.unlink with mode := .code } }
  | .test (p :: left) =>
      let mode := if s.unlink.saveT p < s.queue.rd.H p then .wait else .test left
      some { s with unlink := { s.unlink with mode := mode } }
  | .wait =>
      match s.queue.lock with
      | .free => some { s with
          queue := { s.queue with rd := { s.queue.rd with H := s.unlink.saveT } }
          unlink := { s.unlink with mode := .code } }
      | _ => none
  | _ => none

/-- The steps of the thread and of the thieves. The thread opens a frame by `begin`, or in a sync by
`start` for a task that it has from elsewhere, and it leaves a frame when `T` is the saved one. -/
inductive Action (κ Task : Type) where
  | push (task : Task)
  | begin
  | finish
  | sync
  | pop
  | start
  | owner
  | leave
  | steal (t : κ)
  | thief

def step (s : State κ Task) : Action κ Task → Option (State κ Task)
  | .push task =>
      match s.unlink.mode with
      | .code | .loop => do
          let queue ← OwnerQueue.step prio s.queue (.push task)
          some { s with queue := queue }
      | _ => none
  | .begin =>
      match s.unlink.mode, s.queue.owner with
      | .code, .idle => some (framePush s)
      | _, _ => none
  | .finish =>
      match s.unlink.mode, s.queue.owner, s.below with
      | .code, .idle, frame :: below =>
          if s.queue.rd.T = s.unlink.saveT then
            some { s with unlink := frame, below := below }
          else none
      | _, _, _ => none
  | .sync =>
      match s.unlink.mode, s.queue.owner with
      | .code, .idle => some { s with unlink := { s.unlink with mode := .loop } }
      | _, _ => none
  | .pop =>
      match s.unlink.mode with
      | .loop => do
          let queue ← OwnerQueue.step prio s.queue (.pop (some s.unlink.saveT))
          some { s with queue := queue, unlink := { s.unlink with mode := .popping } }
      | _ => none
  | .start =>
      match s.unlink.mode, s.queue.owner with
      | .loop, .idle => some (framePush s)
      | _, _ => none
  | .owner => ownerStep prio s
  | .leave => leaveStep s
  | .steal t => do
      let queue ← OwnerQueue.step prio s.queue (.steal t)
      some { s with queue := queue }
  | .thief => do
      let queue ← OwnerQueue.step prio s.queue .thief
      some { s with queue := queue }

/-- The first frame of a thread with an empty queue. -/
def Initial (s : State κ Task) : Prop :=
  OwnerQueue.Initial s.queue ∧ s.below = [] ∧
    s.unlink = { saveT := fun _ => 0, mode := .code, before := fun _ => [] }

def system : TransitionSystem (State κ Task) (Action κ Task) where
  initial := Initial
  step := step prio

/-- The first index of a priority that a pop may take: not below the limit, and not taken. -/
def first (q : OwnerQueue.State κ Task) (T0 : Prio → ℤ) (p : Prio) : ℤ :=
  max (q.lock.head q.rd.H p) (T0 p)

/-- A priority at its limit hides no task of a lower one: the pop looks at the highest priority with
a bit, and it ends when `T` is the limit there. -/
def Clear (q : OwnerQueue.State κ Task) (T0 : Prio → ℤ) : Prop :=
  ∀ r p, r < p → q.rd.bitmap p = true → q.owner.tail q.rd.T p = T0 p →
    q.owner.tail q.rd.T r ≤ first q T0 r

instance (q : OwnerQueue.State κ Task) (T0 : Prio → ℤ) : Decidable (Clear q T0) :=
  inferInstanceAs (Decidable (∀ r p, r < p → _ → _ → _ ≤ first q T0 r))

/-- `H` is set back only to indices that it has reached. -/
def MaySetH (q : OwnerQueue.State κ Task) (saveT : Prio → ℤ) : Mode → Prop
  | .wait => ∀ p, saveT p ≤ q.rd.H p
  | _ => True

instance (q : OwnerQueue.State κ Task) (saveT : Prio → ℤ) (m : Mode) :
    Decidable (MaySetH q saveT m) :=
  match m with
  | .wait => inferInstanceAs (Decidable (∀ p, saveT p ≤ q.rd.H p))
  | .code | .loop | .popping | .reset _ | .test _ => inferInstanceAs (Decidable True)

/-- A pop is called when no priority at its limit hides a task, `H` is not moved forward by a sync,
and an array is replaced only while it is the initial one. -/
def Respects (s : State κ Task) : Action κ Task → Prop
  | .pop => Clear s.queue s.unlink.saveT
  | .leave => MaySetH s.queue s.unlink.saveT s.unlink.mode
  | .owner => OwnerQueue.Respects prio s.queue .owner
  | _ => True

instance (s : State κ Task) (a : Action κ Task) : Decidable (Respects prio s a) :=
  match a with
  | .pop => inferInstanceAs (Decidable (Clear _ _))
  | .leave => inferInstanceAs (Decidable (MaySetH _ _ _))
  | .owner => inferInstanceAs (Decidable (OwnerQueue.Respects _ _ .owner))
  | .push _ | .begin | .finish | .sync | .start | .steal _ | .thief =>
      inferInstanceAs (Decidable True)

end Steps

/-! ## What a sync leaves -/

section Statement

variable {κ Task : Type}

/-- The thread has left the loop of a sync. -/
def Mode.Left : Mode → Prop
  | .reset _ | .test _ | .wait => True
  | _ => False

/-- A task was returned to the thread or to a thief, or a thief is about to return it. -/
def Taken (q : OwnerQueue.State κ Task) (p : Prio) (x : Task) : Prop :=
  x ∈ q.returned p ∨ q.lock.hand q.queued p = some x

/-- When a pop has returned no task, no priority has a task at or above its limit, and each task
that was pushed in the frame was popped or stolen. -/
structure Drained (s : State κ Task) : Prop where
  none_left : ∀ p, s.queue.rd.T p ≤ first s.queue s.unlink.saveT p
  taken : ∀ p x, x ∈ s.queue.pushed p → x ∉ s.unlink.before p → Taken s.queue p x

end Statement

end Xkblas.Sched.SyncQueue
