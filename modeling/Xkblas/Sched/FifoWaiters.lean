import Xkblas.Library.CondVar
import Xkblas.Sched.FifoQueue

/-!
# The producers that wait for space in a queue

A push on a full queue sets `waiter_push` and waits on `cond_push`; an operation that gives space
signals the condition when the flag is set. A push that gets through resets the flag, whether other
producers wait or not.

The queue and its critical sections are those of `FifoQueue`. A producer is blocked until a signal
wakes it, and then tests the queue again once it has the mutex.
-/

namespace Xkblas.Sched

open Library

variable {τ : Type*}

/-- The critical section takes an entry at an end of the queue, after which it tests
`waiter_push`. -/
def Op.givesSpace (unstealable : τ → Bool) (score : Score τ) (rd : FifoQueue τ) : Op τ → Bool
  | .push _ => false
  | .ownerPush _ => false
  | .pop => decide (rd.H < rd.T)
  | .popWithAffinity =>
      decide (rd.size ≠ 0) &&
        decide ((popAffinityLoop rd score (rd.T - rd.H).toNat rd.H).getD rd.H = rd.H)
  | .steal =>
      decide (rd.size ≠ 0) &&
        match (stealLoop rd unstealable (rd.T - rd.H).toNat none).1 with
        | none => false
        | some i => decide (1 + i = rd.T)
  | .stealWithAffinity =>
      decide (rd.size ≠ 0) &&
        match stealAffinityLoop rd unstealable score (rd.T - rd.H).toNat none 0 (0, 0, 0, 0) with
        | none => false
        | some i => decide (1 + i = rd.T)

/-- The queue with its threads and the condition `cond_push`. -/
structure Monitor (τ : Type*) where
  queue : System τ
  condPush : CondVar ℕ

namespace Monitor

/-- The actions of the threads: a call up to the lock of the queue, and a critical section up to
the wait or to its end, with the scores that it computes and the producer that its signal wakes. -/
inductive Action (τ : Type*) where
  | call (thread : ℕ) (op : Op τ)
  | locked (thread : ℕ) (score : Score τ) (woken : Option ℕ)

/-- One step of a thread that is not blocked. -/
def step (unstealable : τ → Bool) (s : Monitor τ) : Action τ → Option (Monitor τ)
  | .call thread op =>
      (Sched.step unstealable s.queue (.call thread op)).map fun queue => { s with queue }
  | .locked thread score woken =>
      if thread ∈ s.condPush.waiting then none
      else
        match s.queue.threads thread with
        | none => none
        | some op =>
            let rd := fifoQueueAlloc s.queue.rd
            if op.pushes = true ∧ rd.full = true then
              some
                { queue := { s.queue with rd := { rd with waiterPush := true } }
                  condPush := s.condPush.wait thread }
            else
              let queue := op.record s.queue (op.outcome unstealable score s.queue.rd) thread
              let condPush := s.condPush.leave thread
              if op.givesSpace unstealable score s.queue.rd = true ∧
                  s.queue.rd.waiterPush = true then
                (condPush.signal woken).map fun condPush => { queue, condPush }
              else some { queue, condPush }

/-- The start. -/
def init : Monitor τ where
  queue := Sched.init
  condPush := CondVar.empty

/-- The queue and its condition with any number of threads. -/
def system (unstealable : τ → Bool) : TransitionSystem (Monitor τ) (Action τ) where
  initial := fun s => s = init
  step := step unstealable

/-! ## What the condition is for -/

/-- When a producer is blocked while there is space, then another one has been woken. -/
def Awake (s : Monitor τ) : Prop :=
  s.condPush.waiting.Nonempty → s.queue.rd.full = false → s.condPush.signalled.Nonempty

/-- A producer is blocked, none has been woken, and no signal is to come. -/
structure Lost (s : Monitor τ) : Prop where
  waiting : s.condPush.waiting.Nonempty
  signalled : s.condPush.signalled = ∅
  waiterPush : s.queue.rd.waiterPush = false

/-- A producer gets through only when no producer is blocked or another one has been woken. -/
def LeavesWoken (s : Monitor τ) : Action τ → Prop
  | .call _ _ => True
  | .locked thread _ _ =>
      match s.queue.threads thread with
      | none => True
      | some op =>
          op.pushes = true → (fifoQueueAlloc s.queue.rd).full = false →
            s.condPush.waiting = ∅ ∨ (s.condPush.signalled.erase thread).Nonempty

end Monitor

end Xkblas.Sched
