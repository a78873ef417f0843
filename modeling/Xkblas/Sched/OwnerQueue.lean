import Mathlib.Data.Fin.Basic
import Mathlib.Data.List.Count
import Xkblas.Library.SlotWindow
import Xkblas.Library.TransitionSystem

/-!
# The work queue of a thread

The owner of a queue pushes and pops at `T`, thieves steal at `H` under the lock of the context. An
element is taken by a move of the index first and a test of the other index after; when the test
fails the move is undone, and the owner takes the lock. A queue that is full is copied to a larger
array. Memory is sequentially consistent; the steps are the accesses to the fields that another
thread reads or writes, and a thief has its program point in the lock that it holds.
-/

namespace Xkblas.Sched.OwnerQueue

open Library

/-- `KAAPI_TASK_MAX_PRIORITY`. -/
def taskMaxPriority : ℕ :=
  1

abbrev Prio := Fin (taskMaxPriority + 1)

instance (priority := 2000) neZero_prio : NeZero (taskMaxPriority + 1) :=
  ⟨Nat.succ_ne_zero taskMaxPriority⟩

/-- `QUEUE_DEFAULT_SIZE`. -/
def queueDefaultSize : ℤ :=
  16384

/-- `kaapi_queue_t`. An array is the number of its allocation. -/
structure Queue where
  T : Prio → ℤ
  bitmap : Prio → Bool
  size : Prio → ℤ
  data : Prio → Option ℕ
  data0 : Prio → Option ℕ
  H : Prio → ℤ

/-- The limit of a pop: the indices at which it stops. -/
abbrev Limit := Option (Prio → ℤ)

/-- The program points of the owner, with its local variables. From `push` to `setT` it is in
`kaapi_queue_push`, where `grow` to `growFree` are `kaapi_queue_realloc`; the others are those of
`kaapi_queue_pop`. -/
inductive OwnerPc (Task : Type) where
  | idle
  | push (task : Task)
  | grow (task : Task) (T : ℤ)
  | growLock (task : Task) (T newsize : ℤ) (data : ℕ) (todel : Option ℕ)
  | growSet (task : Task) (T newsize : ℤ) (data : ℕ) (todel : Option ℕ)
  | growUnlock (task : Task) (T : ℤ) (todel : Option ℕ)
  | growFree (task : Task) (T : ℤ) (todel : Option ℕ)
  | store (task : Task) (T : ℤ)
  | setBit (task : Task) (T : ℤ)
  | setT (task : Task) (T : ℤ)
  | readBitmap (T0 : Limit)
  | decT (T0 : Limit) (p : Prio)
  | testH (T0 : Limit) (p : Prio) (T : ℤ)
  | rollBack (T0 : Limit) (p : Prio) (T : ℤ)
  | lock (T0 : Limit) (p : Prio)
  | decLocked (T0 : Limit) (p : Prio)
  | testLocked (T0 : Limit) (p : Prio) (T : ℤ)
  | readLocked (T0 : Limit) (p : Prio) (T : ℤ)
  | restore (T0 : Limit) (p : Prio) (T : ℤ)
  | unlock (T0 : Limit) (p : Prio) (task : Option Task)
  | read (T0 : Limit) (p : Prio) (T : ℤ)
  | out (T0 : Limit) (p : Prio) (task : Option Task)

/-- The program points of a thief in `kaapi_queue_steal`. -/
inductive ThiefPc (Task : Type) where
  | readBitmap
  | redo (bitmap : Prio → Bool)
  | readT (bitmap : Prio → Bool) (p : Prio) (H0 : ℤ)
  | restoreH (bitmap : Prio → Bool) (p : Prio) (H0 : ℤ)
  | read (bitmap : Prio → Bool) (p : Prio) (H0 : ℤ)
  | unlock (task : Option (Prio × Task))

/-- The lock of the context: a thief holds it during all of `kaapi_queue_steal`. -/
inductive Lock (κ Task : Type) where
  | free
  | owner
  | thief (t : κ) (pc : ThiefPc Task)

/-- The queue, the arrays with their contents and lengths, the threads, and the tasks that were
pushed and returned for each priority. A cell without a task is undefined. `fault` is set by an
access that is not inside an array. -/
structure State (κ Task : Type) where
  rd : Queue
  cells : ℕ → ℤ → Option Task
  extent : ℕ → ℤ
  brk : ℕ
  owner : OwnerPc Task
  lock : Lock κ Task
  pushed : Prio → List Task
  returned : Prio → List Task
  fault : Bool

namespace State

variable {κ Task : Type}

/-- The index is inside the array. -/
def Inside (s : State κ Task) (b : Option ℕ) (i : ℤ) : Prop :=
  ∃ a ∈ b, 0 ≤ i ∧ i < s.extent a

instance (s : State κ Task) (b : Option ℕ) (i : ℤ) : Decidable (s.Inside b i) :=
  match b with
  | none => .isFalse fun h => nomatch h
  | some a => decidable_of_iff (0 ≤ i ∧ i < s.extent a)
      ⟨fun h => ⟨a, rfl, h⟩, fun ⟨_, ha, h⟩ => Option.some.inj ha ▸ h⟩

/-- The value of a cell, undefined outside of the array. -/
def load (s : State κ Task) (b : Option ℕ) (i : ℤ) : Option Task :=
  if s.Inside b i then b.bind fun a => s.cells a i else none

/-- An access that faults unless the index is inside the array. -/
def touch (s : State κ Task) (b : Option ℕ) (i : ℤ) : State κ Task :=
  { s with fault := s.fault || !decide (s.Inside b i) }

/-- The assignment to a cell. -/
def write (s : State κ Task) (b : Option ℕ) (i : ℤ) (task : Task) : State κ Task :=
  { s with cells := fun a j => if some a = b ∧ j = i then some task else s.cells a j }

end State

/-- `sizeof(int)*8 - __builtin_clz(bitmap) - 1`, when there is a bit. -/
def highest (bitmap : Prio → Bool) : Option Prio :=
  (List.finRange (taskMaxPriority + 1)).reverse.find? bitmap

section Steps

variable {κ Task : Type} (prio : Task → Prio)

/-- The `malloc` and the copy of `kaapi_queue_realloc`. The copy is from `data0`, and it faults
unless this array has `size[p]` cells. -/
def grow (s : State κ Task) (task : Task) (T : ℤ) : State κ Task :=
  let p := prio task
  let newsize := if 2 * s.rd.size p = 0 then queueDefaultSize else 2 * s.rd.size p
  let todel := if s.rd.data p = s.rd.data0 p then none else s.rd.data p
  let copied := s.rd.size p = 0 ∨ s.Inside (s.rd.data0 p) (s.rd.size p - 1)
  { s with
    cells := Function.update s.cells s.brk fun i =>
      if i < s.rd.size p then s.load (s.rd.data0 p) i else none
    extent := Function.update s.extent s.brk newsize
    brk := s.brk + 1
    fault := s.fault || !decide copied
    owner := .growLock task T newsize s.brk todel }

/-- A step of the owner in a call. -/
def ownerStep (s : State κ Task) : Option (State κ Task) :=
  match s.owner with
  | .idle => none
  | .push task =>
      let T := s.rd.T (prio task)
      some { s with owner := if T = s.rd.size (prio task) then .grow task T else .store task T }
  | .grow task T => some (grow prio s task T)
  | .growLock task T newsize data todel =>
      match s.lock with
      | .free => some { s with lock := .owner, owner := .growSet task T newsize data todel }
      | _ => none
  | .growSet task T newsize data todel =>
      let rd := { s.rd with
        size := Function.update s.rd.size (prio task) newsize
        data := Function.update s.rd.data (prio task) (some data) }
      some { s with rd := rd, owner := .growUnlock task T todel }
  | .growUnlock task T todel => some { s with lock := .free, owner := .growFree task T todel }
  | .growFree task T todel =>
      some { s with
        extent := fun b => if some b = todel then 0 else s.extent b
        owner := .store task T }
  | .store task T =>
      let s := (s.touch (s.rd.data (prio task)) T).write (s.rd.data (prio task)) T task
      some { s with owner := .setBit task T }
  | .setBit task T =>
      let rd := { s.rd with bitmap := Function.update s.rd.bitmap (prio task) true }
      some { s with rd := rd, owner := .setT task T }
  | .setT task T =>
      let p := prio task
      some { s with
        rd := { s.rd with T := Function.update s.rd.T p (T + 1) }
        pushed := Function.update s.pushed p (task :: s.pushed p)
        owner := .idle }
  | .readBitmap T0 =>
      match highest s.rd.bitmap with
      | none => some { s with owner := .idle }
      | some p => some { s with owner := .decT T0 p }
  | .decT T0 p =>
      let T := s.rd.T p
      if T0.map (· p) = some T then some { s with owner := .idle }
      else
        let rd := { s.rd with T := Function.update s.rd.T p (T - 1) }
        some { s with rd := rd, owner := .testH T0 p (T - 1) }
  | .testH T0 p T =>
      some { s with owner := if s.rd.H p ≤ T then .read T0 p T else .rollBack T0 p T }
  | .rollBack T0 p T =>
      let rd := { s.rd with T := Function.update s.rd.T p (T + 1) }
      some { s with rd := rd, owner := .lock T0 p }
  | .lock T0 p =>
      match s.lock with
      | .free => some { s with lock := .owner, owner := .decLocked T0 p }
      | _ => none
  | .decLocked T0 p =>
      let T := s.rd.T p - 1
      let rd := { s.rd with T := Function.update s.rd.T p T }
      some { s with rd := rd, owner := .testLocked T0 p T }
  | .testLocked T0 p T =>
      some { s with owner := if s.rd.H p ≤ T then .readLocked T0 p T else .restore T0 p T }
  | .readLocked T0 p T =>
      let task := s.load (s.rd.data p) T
      some { s.touch (s.rd.data p) T with owner := .unlock T0 p task }
  | .restore T0 p T =>
      let rd := { s.rd with T := Function.update s.rd.T p (T + 1) }
      some { s with rd := rd, owner := .unlock T0 p none }
  | .unlock T0 p task => some { s with lock := .free, owner := .out T0 p task }
  | .read T0 p T =>
      let task := s.load (s.rd.data p) T
      some { s.touch (s.rd.data p) T with owner := .out T0 p task }
  | .out T0 p none =>
      let rd := { s.rd with bitmap := Function.update s.rd.bitmap p false }
      some { s with rd := rd, owner := .readBitmap T0 }
  | .out _ p (some task) =>
      some { s with
        returned := Function.update s.returned p (task :: s.returned p)
        owner := .idle }

/-- A step of the thief that holds the lock. -/
def thiefStep (s : State κ Task) (t : κ) : ThiefPc Task → State κ Task
  | .readBitmap => { s with lock := .thief t (.redo s.rd.bitmap) }
  | .redo bitmap =>
      match highest bitmap with
      | none => { s with lock := .thief t (.unlock none) }
      | some p =>
          let H0 := s.rd.H p
          let rd := { s.rd with H := Function.update s.rd.H p (H0 + 1) }
          { s with rd := rd, lock := .thief t (.readT bitmap p H0) }
  | .readT bitmap p H0 =>
      let pc := if s.rd.T p ≤ H0 + 1 then .restoreH bitmap p H0 else .read bitmap p H0
      { s with lock := .thief t pc }
  | .restoreH bitmap p H0 =>
      let rd := { s.rd with H := Function.update s.rd.H p H0 }
      { s with rd := rd, lock := .thief t (.redo (Function.update bitmap p false)) }
  | .read bitmap p H0 =>
      let s' := s.touch (s.rd.data p) H0
      match s.load (s.rd.data p) H0 with
      | none => { s' with lock := .thief t (.redo (Function.update bitmap p false)) }
      | some task => { s' with lock := .thief t (.unlock (some (p, task))) }
  | .unlock none => { s with lock := .free }
  | .unlock (some (p, task)) =>
      { s with
        returned := Function.update s.returned p (task :: s.returned p)
        lock := .free }

/-- The calls of the owner and its steps, the requests of the thieves, which take the lock, and the
steps of the thief that has it. -/
inductive Action (κ Task : Type) where
  | push (task : Task)
  | pop (T0 : Limit)
  | owner
  | steal (t : κ)
  | thief

def step (s : State κ Task) : Action κ Task → Option (State κ Task)
  | .push task =>
      match s.owner with
      | .idle => some { s with owner := .push task }
      | _ => none
  | .pop T0 =>
      match s.owner with
      | .idle => some { s with owner := .readBitmap T0 }
      | _ => none
  | .owner => ownerStep prio s
  | .steal t =>
      match s.lock with
      | .free => some { s with lock := .thief t .readBitmap }
      | _ => none
  | .thief =>
      match s.lock with
      | .thief t pc => some (thiefStep s t pc)
      | _ => none

/-- After `kaapi_queue_init` with an array of `size` cells. With fewer than `2 ^ 30` cells the
counters do not overflow before the array of a priority is replaced a second time. -/
def Initial (s : State κ Task) : Prop :=
  ∃ size, 0 ≤ size ∧ size < 2 ^ 30 ∧
    s.rd = { T := fun _ => 0
             bitmap := fun _ => false
             size := fun p => if p = 0 then size else 0
             data := fun p => if p = 0 then some 0 else none
             data0 := fun p => if p = 0 then some 0 else none
             H := fun _ => 0 } ∧
    s.extent 0 = size ∧ s.brk = 1 ∧ s.owner = .idle ∧ s.lock = .free ∧
    s.pushed = (fun _ => []) ∧ s.returned = (fun _ => []) ∧ s.fault = false

def system : TransitionSystem (State κ Task) (Action κ Task) where
  initial := Initial
  step := step prio

/-- The task of a push whose array is about to be replaced. -/
def OwnerPc.growing : OwnerPc Task → Option Task
  | .grow task _ => some task
  | _ => none

/-- The array of a priority is replaced only while it is the initial one. -/
def Respects (s : State κ Task) : Action κ Task → Prop
  | .owner => ∀ task ∈ s.owner.growing, s.rd.data (prio task) = s.rd.data0 (prio task)
  | _ => True

instance (s : State κ Task) (a : Action κ Task) : Decidable (Respects prio s a) :=
  match a with
  | .owner => inferInstanceAs (Decidable (∀ task ∈ s.owner.growing, _))
  | .push _ | .pop _ | .steal _ | .thief => inferInstanceAs (Decidable True)

end Steps

/-! ## Where the tasks are -/

section Accounts

variable {κ Task : Type}

/-- The first index that is not taken: a thief that has not tested `T` has taken nothing. -/
def Lock.head (H : Prio → ℤ) : Lock κ Task → Prio → ℤ
  | .thief _ (.readT _ p H0) | .thief _ (.restoreH _ p H0) => Function.update H p H0
  | _ => H

/-- The end of the indices that are not taken: an owner that has not tested `H` has taken
nothing. -/
def OwnerPc.tail (T : Prio → ℤ) : OwnerPc Task → Prio → ℤ
  | .testH _ p T' | .rollBack _ p T' | .testLocked _ p T' | .restore _ p T' =>
      Function.update T p (T' + 1)
  | _ => T

/-- The task that the owner has taken and not returned. -/
def OwnerPc.hand (load : Prio → ℤ → Option Task) : OwnerPc Task → Prio → Option Task
  | .read _ p T | .readLocked _ p T => Function.update (fun _ => none) p (load p T)
  | .unlock _ p task | .out _ p task => Function.update (fun _ => none) p task
  | _ => fun _ => none

/-- The task that a thief has taken and not returned. -/
def Lock.hand (load : Prio → ℤ → Option Task) : Lock κ Task → Prio → Option Task
  | .thief _ (.read _ p H0) => Function.update (fun _ => none) p (load p H0)
  | .thief _ (.unlock (some (p, task))) => Function.update (fun _ => none) p (some task)
  | _ => fun _ => none

/-- The cells of the queue of a priority. -/
def State.queued (s : State κ Task) (p : Prio) : ℤ → Option Task :=
  s.load (s.rd.data p)

variable [DecidableEq Task]

/-- How often a task is in the queue of a priority, between `H` and `T`. -/
def State.waiting (s : State κ Task) (p : Prio) (x : Task) : ℕ :=
  occurrences id (s.queued p) (s.lock.head s.rd.H p) (s.owner.tail s.rd.T p) x

/-- How often a task is in a hand. -/
def held (o : Option Task) (x : Task) : ℕ :=
  if o = some x then 1 else 0

/-- Each task that was pushed with a priority was returned once, is in one hand or in the queue,
and no access was outside of an array. A queue with tasks has its bit. -/
structure Sound (s : State κ Task) : Prop where
  accounted : ∀ p x, (s.pushed p).count x = (s.returned p).count x +
    held (s.owner.hand s.queued p) x + held (s.lock.hand s.queued p) x + s.waiting p x
  safe : s.fault = false
  found : ∀ p, s.lock.head s.rd.H p < s.owner.tail s.rd.T p → s.rd.bitmap p = true

end Accounts

end Xkblas.Sched.OwnerQueue
