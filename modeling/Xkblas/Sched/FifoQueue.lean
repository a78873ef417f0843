import Xkblas.Library.MachineInt
import Xkblas.Library.SlotWindow
import Xkblas.Library.TransitionSystem

/-!
# The task queue of a locality domain

`kaapi_fifo_queue_t` is a circular array with two counters of type `int32_t`. Tasks are pushed at
either end, popped at the head, and stolen from the tail backwards; a task that is taken from
inside of the queue leaves a hole.

An operation is an unlocked test whether the queue is empty, where the code makes one, and a
critical section. A push on a full queue waits and tries again. `accessed` records the indices with
which the array is accessed, and `pushed`, `popped` and `stolen` the tasks that were pushed and
returned.
-/

namespace Xkblas.Sched

open Library

/-! ## The queue -/

/-- `QUEUE_DEFAULT_SIZE`. -/
def queueDefaultSize : ℤ := 16384

/-- The fields of `kaapi_fifo_queue_t` but for the lock, the condition and the call back. The array
is the function of its index; an index outside of the array reaches other memory. -/
structure FifoQueue (τ : Type*) where
  T : ℤ
  H : ℤ
  size : ℤ
  data : ℤ → Option τ
  allocated : Bool
  pushCount : ℕ
  popCount : ℕ
  waiterPush : Bool

variable {τ : Type*}

/-- `_kaapi_fifo_queue_init`. -/
def fifoQueueInit : FifoQueue τ where
  T := 0
  H := 0
  size := 0
  data := fun _ => none
  allocated := false
  pushCount := 0
  popCount := 0
  waiterPush := false

/-- `kaapi_fifo_queue_alloc`. -/
def fifoQueueAlloc (rd : FifoQueue τ) : FifoQueue τ :=
  if rd.allocated = true then rd
  else { rd with
    size := queueDefaultSize
    data := fun _ => none
    allocated := true
    T := queueDefaultSize.tdiv 2
    H := queueDefaultSize.tdiv 2 }

/-- The index of the entry `i`. -/
def FifoQueue.idx (rd : FifoQueue τ) (i : ℤ) : ℤ :=
  i.tmod rd.size

/-- The entry `i`. -/
def FifoQueue.entry (rd : FifoQueue τ) (i : ℤ) : Option τ :=
  rd.data (rd.idx i)

/-- The assignment of the entry `i`. -/
def FifoQueue.assign (rd : FifoQueue τ) (i : ℤ) (task : Option τ) : FifoQueue τ :=
  { rd with data := Function.update rd.data (rd.idx i) task }

/-- What a critical section does: the queue, the task that it returns and the indices of the array
accesses. -/
structure Outcome (τ : Type*) where
  rd : FifoQueue τ
  task : Option τ
  accessed : List ℤ

/-- `T - H >= size`, for which a push waits. -/
def FifoQueue.full (rd : FifoQueue τ) : Bool :=
  decide (rd.size ≤ int32 (rd.T - rd.H))

/-- The rest of `kaapi_fifo_queue_push`, with space in the queue. -/
def fifoQueuePush (rd : FifoQueue τ) (task : τ) : Outcome τ :=
  let T := rd.T
  { rd := { rd.assign T (some task) with
      T := int32 (T + 1)
      waiterPush := false
      pushCount := rd.pushCount + 1 }
    task := none
    accessed := [rd.idx T] }

/-- The rest of `kaapi_fifo_queue_owner_push`, with space in the queue. -/
def fifoQueueOwnerPush (rd : FifoQueue τ) (task : τ) : Outcome τ :=
  let H := int32 (rd.H - 1)
  { rd := { rd.assign H (some task) with
      H := H
      waiterPush := false
      pushCount := rd.pushCount + 1 }
    task := none
    accessed := [rd.idx H] }

/-- The critical section of `kaapi_fifo_queue_pop`. -/
def fifoQueuePop (rd : FifoQueue τ) : Outcome τ :=
  if rd.H < rd.T then
    let H := rd.H
    let task := rd.entry H
    { rd := { rd.assign H none with
        H := int32 (H + 1)
        popCount := if task.isSome then rd.popCount + 1 else rd.popCount }
      task := task
      accessed := [rd.idx H] }
  else { rd := rd, task := none, accessed := [] }

/-- The loop of `kaapi_fifo_queue_steal` over the `n` entries from `H`, from the last one down:
the entry at which it breaks, and the value of `task` after it. `task` is the entry that was read
last, also when the loop goes on because the entry may not be stolen. -/
def stealLoop (rd : FifoQueue τ) (unstealable : τ → Bool) : ℕ → Option τ → Option ℤ × Option τ
  | 0, task => (none, task)
  | n + 1, _ =>
      let i := rd.H + n
      match rd.entry i with
      | none => stealLoop rd unstealable n none
      | some task =>
          if unstealable task = true then stealLoop rd unstealable n (some task)
          else (some i, some task)

/-- The indices of the entries that a loop over the `n` entries from `H` may read. -/
def FifoQueue.scanned (rd : FifoQueue τ) (n : ℕ) : List ℤ :=
  (List.range n).map fun k : ℕ => rd.idx (rd.H + (k : ℤ))

/-- A task is taken from the entry `i`. At the tail the queue gets shorter. -/
def takeTail (rd : FifoQueue τ) (i : ℤ) : FifoQueue τ :=
  { rd.assign i none with
    popCount := rd.popCount + 1
    T := if 1 + i = rd.T then int32 (rd.T - 1) else rd.T }

/-- The critical section of `kaapi_fifo_queue_steal`. -/
def fifoQueueSteal (rd : FifoQueue τ) (unstealable : τ → Bool) : Outcome τ :=
  if rd.size = 0 then { rd := rd, task := none, accessed := [] }
  else
    let n := (rd.T - rd.H).toNat
    let result := stealLoop rd unstealable n none
    { rd := match result.1 with
        | none => rd
        | some i => takeTail rd i
      task := result.2
      accessed := rd.scanned n }

/-- `kaapi_compute_affinity_score` for a device and a level: the four scores, or `none` where it
returns 0. -/
abbrev Score (τ : Type*) := τ → Option (ℕ × ℕ × ℕ × ℕ)

/-- `is_maxscore`. -/
def isMaxscore (a b : ℕ × ℕ × ℕ × ℕ) : Bool :=
  if b.1 < a.1 then true
  else if a.1 < b.1 then false
  else if b.2.1 < a.2.1 then true
  else if a.2.1 < b.2.1 then false
  else if b.2.2.1 < a.2.2.1 then true
  else if a.2.2.1 < b.2.2.1 then false
  else decide (b.2.2.2 < a.2.2.2)

/-- `_kaapi_update_score`: the new best score, if it is that of the task. -/
def updateScore (score : Score τ) (task : τ) (scoreMax : ℕ × ℕ × ℕ × ℕ) :
    Option (ℕ × ℕ × ℕ × ℕ) :=
  match score task with
  | none => none
  | some a => if isMaxscore a scoreMax = true then some a else none

/-- The loop of `kaapi_fifo_queue_pop_with_affinity` over the entries from `i`, `n` of them: the
first entry that has a score. -/
def popAffinityLoop (rd : FifoQueue τ) (score : Score τ) : ℕ → ℤ → Option ℤ
  | 0, _ => none
  | n + 1, i =>
      match rd.entry i with
      | none => popAffinityLoop rd score n (i + 1)
      | some task =>
          if (updateScore score task (0, 0, 0, 0)).isSome then some i
          else popAffinityLoop rd score n (i + 1)

/-- The critical section of `kaapi_fifo_queue_pop_with_affinity`. It does not test again whether
the queue is empty. -/
def fifoQueuePopWithAffinity (rd : FifoQueue τ) (score : Score τ) : Outcome τ :=
  if rd.size = 0 then { rd := rd, task := none, accessed := [] }
  else
    let n := (rd.T - rd.H).toNat
    let ibest := (popAffinityLoop rd score n rd.H).getD rd.H
    { rd := { rd.assign ibest none with
        popCount := rd.popCount + 1
        H := if ibest = rd.H then int32 (rd.H + 1) else rd.H }
      task := rd.entry ibest
      accessed := rd.scanned n ++ [rd.idx ibest] }

/-- `MAX_HISTORY`. -/
def maxHistory : ℕ := 16

/-- The loop of `kaapi_fifo_queue_steal_with_affinity`: the best entry so far, the number of the
scores and the best one. It stops after `MAX_HISTORY` scores. -/
def stealAffinityLoop (rd : FifoQueue τ) (unstealable : τ → Bool) (score : Score τ) :
    ℕ → Option ℤ → ℕ → ℕ × ℕ × ℕ × ℕ → Option ℤ
  | 0, ibest, _, _ => ibest
  | n + 1, ibest, nscore, scoreMax =>
      let i := rd.H + n
      match rd.entry i with
      | none => stealAffinityLoop rd unstealable score n ibest nscore scoreMax
      | some task =>
          if unstealable task = true then
            stealAffinityLoop rd unstealable score n ibest nscore scoreMax
          else
            match updateScore score task scoreMax with
            | none => stealAffinityLoop rd unstealable score n ibest nscore scoreMax
            | some a =>
                if nscore + 1 = maxHistory then some i
                else stealAffinityLoop rd unstealable score n (some i) (nscore + 1) a

/-- The critical section of `kaapi_fifo_queue_steal_with_affinity`. -/
def fifoQueueStealWithAffinity (rd : FifoQueue τ) (unstealable : τ → Bool) (score : Score τ) :
    Outcome τ :=
  if rd.size = 0 then { rd := rd, task := none, accessed := [] }
  else
    let n := (rd.T - rd.H).toNat
    match stealAffinityLoop rd unstealable score n none 0 (0, 0, 0, 0) with
    | none => { rd := rd, task := none, accessed := rd.scanned n }
    | some i =>
        { rd := takeTail rd i
          task := rd.entry i
          accessed := rd.scanned n ++ [rd.idx i] }

/-! ## Threads -/

/-- The operations. -/
inductive Op (τ : Type*) where
  | push (task : τ)
  | ownerPush (task : τ)
  | pop
  | popWithAffinity
  | steal
  | stealWithAffinity

/-- The state of the queue and of the threads: an operation that a thread has started waits for
its critical section. -/
structure System (τ : Type*) where
  rd : FifoQueue τ
  threads : ℕ → Option (Op τ)
  pushed : List τ
  popped : List τ
  stolen : List τ
  accessed : List ℤ

/-- The actions of the threads: a call up to the lock of the queue, a push that waits for space,
and a critical section, with the scores that it computes. -/
inductive Action (τ : Type*) where
  | call (thread : ℕ) (op : Op τ)
  | wait (thread : ℕ)
  | locked (thread : ℕ) (score : Score τ)

/-- The unlocked test, where the operation makes one. -/
def Op.passes (rd : FifoQueue τ) : Op τ → Bool
  | .push _ => true
  | .ownerPush _ => true
  | .pop => decide (rd.H < rd.T)
  | .popWithAffinity => decide (rd.H < rd.T)
  | .steal => decide (rd.H < rd.T)
  | .stealWithAffinity => decide (rd.H < rd.T)

/-- The operation is a push. -/
def Op.pushes : Op τ → Bool
  | .push _ => true
  | .ownerPush _ => true
  | _ => false

/-- The critical section of an operation, on a queue that has space if it is a push. -/
def Op.outcome (unstealable : τ → Bool) (score : Score τ) (rd : FifoQueue τ) : Op τ → Outcome τ
  | .push task => fifoQueuePush (fifoQueueAlloc rd) task
  | .ownerPush task => fifoQueueOwnerPush (fifoQueueAlloc rd) task
  | .pop => fifoQueuePop rd
  | .popWithAffinity => fifoQueuePopWithAffinity rd score
  | .steal => fifoQueueSteal rd unstealable
  | .stealWithAffinity => fifoQueueStealWithAffinity rd unstealable score

/-- What a critical section adds to the records. -/
def Op.record (s : System τ) (outcome : Outcome τ) (thread : ℕ) : Op τ → System τ
  | .push task | .ownerPush task =>
      { s with
        rd := outcome.rd
        threads := Function.update s.threads thread none
        pushed := s.pushed ++ [task]
        accessed := s.accessed ++ outcome.accessed }
  | .pop | .popWithAffinity =>
      { s with
        rd := outcome.rd
        threads := Function.update s.threads thread none
        popped := s.popped ++ outcome.task.toList
        accessed := s.accessed ++ outcome.accessed }
  | .steal | .stealWithAffinity =>
      { s with
        rd := outcome.rd
        threads := Function.update s.threads thread none
        stolen := s.stolen ++ outcome.task.toList
        accessed := s.accessed ++ outcome.accessed }

/-- One step of a thread. -/
def step (unstealable : τ → Bool) (s : System τ) : Action τ → Option (System τ)
  | .call thread op =>
      match s.threads thread with
      | some _ => none
      | none =>
          if op.passes s.rd = true then
            some { s with threads := Function.update s.threads thread (some op) }
          else some s
  | .wait thread =>
      match s.threads thread with
      | none => none
      | some op =>
          let rd := fifoQueueAlloc s.rd
          if op.pushes = true ∧ rd.full = true then
            some { s with rd := { rd with waiterPush := true } }
          else none
  | .locked thread score =>
      match s.threads thread with
      | none => none
      | some op =>
          if op.pushes = true ∧ (fifoQueueAlloc s.rd).full = true then none
          else some (op.record s (op.outcome unstealable score s.rd) thread)

/-- The start: the queue is initialised and no operation is under way. -/
def init : System τ where
  rd := fifoQueueInit
  threads := fun _ => none
  pushed := []
  popped := []
  stolen := []
  accessed := []

/-- The queue with any number of threads. -/
def system (unstealable : τ → Bool) : TransitionSystem (System τ) (Action τ) where
  initial := fun s => s = init
  step := step unstealable

end Xkblas.Sched
