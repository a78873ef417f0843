import Mathlib.Algebra.Group.Nat.Defs
import Xkblas.Library.LinkedPath
import Xkblas.Library.TransitionSystem

/-!
# The unified work buffer

A buffer that is registered is cut into segments. All of them are linked by `prev` and `next` in the
order of their addresses, and the free ones also by `free_prev` and `free_next`. Each of
`xkblas_get_work_pos` and `xkblas_free_work_pos` runs under a mutex and is one step; a request for
which there is no room waits, and a program that exits makes no step.

A `Ref` points to a `struct memory_segment`, and every field is a function of the `Ref`.
-/

namespace Xkblas.Memory.WorkBuffer

open Library

/-- A pointer to a `struct memory_segment`. -/
abbrev Ref := ℕ

/-- The segments with their fields and the globals. `isFree` is the bit `FREE_STATE` of `state`, and
`brk` is the next segment that `malloc` returns. -/
structure Segments where
  size : Ref → ℕ
  isFree : Ref → Bool
  ptr : Ref → ℕ
  prev : Ref → Option Ref
  next : Ref → Option Ref
  freeNext : Ref → Option Ref
  freePrev : Ref → Option Ref
  freeSegmentList : Option Ref
  firstSegment : Option Ref
  totalSize : ℕ
  brk : Ref

/-- `(size + 7UL) & ~7UL`. -/
def roundSize (size : ℕ) : ℕ :=
  (size + 7) % 2 ^ 64 / 8 * 8

namespace Segments

/-- The part of `xkblas_register_work_buffer` that makes the segment of the buffer. -/
def register (ptr size : ℕ) : Segments where
  size := fun _ => size
  isFree := fun _ => true
  ptr := fun _ => ptr
  prev := fun _ => none
  next := fun _ => none
  freeNext := fun _ => none
  freePrev := fun _ => none
  freeSegmentList := some 0
  firstSegment := some 0
  totalSize := size
  brk := 1

/-- One test more than there are segments. -/
def fuel (s : Segments) : ℕ :=
  s.brk + 1

/-! ## `coherency_check` -/

/-- The tests of one round of the loop. A round that fails exits. -/
def checkSegment (s : Segments) (curr : Ref) : Bool :=
  (match s.prev curr with
    | some p => s.ptr p < s.ptr curr && s.next p == some curr
    | none => s.freePrev curr == none) &&
  (match s.next curr with
    | some n => s.ptr curr < s.ptr n && s.prev n == some curr
    | none => s.freeNext curr == none) &&
  (if s.isFree curr then
    (match s.freePrev curr with
      | some p => s.ptr p < s.ptr curr && s.freeNext p == some curr
      | none => s.freeSegmentList == some curr) &&
    (match s.freeNext curr with
      | some n => s.ptr curr < s.ptr n && s.freePrev n == some curr
      | none => true)
  else s.freePrev curr == none && s.freeNext curr == none)

/-- The loop of `coherency_check`, which succeeds when no round fails. -/
def coherencyCheck (s : Segments) : Option Bool :=
  (search s.next (fun curr => !s.checkSegment curr) s.fuel s.firstSegment).map Option.isNone

/-! ## `xkblas_get_work_pos` -/

/-- A new free segment behind `curr` gets what `size` bytes leave of it. -/
def split (s : Segments) (curr : Ref) (size : ℕ) : Segments :=
  let remainder := s.brk
  { s with
    brk := s.brk + 1
    ptr := Function.update s.ptr remainder (s.ptr curr + size)
    size := Function.update (Function.update s.size remainder (s.size curr - size)) curr size
    isFree := Function.update s.isFree remainder true
    prev := assignAt (Function.update s.prev remainder (some curr)) (s.next curr) (some remainder)
    next :=
      Function.update (Function.update s.next remainder (s.next curr)) curr (some remainder)
    freePrev :=
      assignAt (Function.update s.freePrev remainder (some curr)) (s.freeNext curr) (some remainder)
    freeNext :=
      Function.update (Function.update s.freeNext remainder (s.freeNext curr)) curr
        (some remainder) }

/-- The segment leaves the free list. -/
def take (s : Segments) (curr : Ref) : Segments :=
  { s with
    isFree := Function.update s.isFree curr false
    freePrev :=
      Function.update (assignAt s.freePrev (s.freeNext curr) (s.freePrev curr)) curr none
    freeNext :=
      Function.update (assignAt s.freeNext (s.freePrev curr) (s.freeNext curr)) curr none
    freeSegmentList :=
      if s.freePrev curr = none then s.freeNext curr else s.freeSegmentList }

/-- `xkblas_get_work_pos`: the new segments with the one of the block, unless the program exits or
waits. For a size of zero there is no block. -/
def getWorkPos (s : Segments) (size : ℕ) : Option (Segments × Option Ref) :=
  if size = 0 then some (s, none)
  else
    let size := roundSize size
    if s.totalSize < size then none
    else
      match search s.freeNext (fun curr => size ≤ s.size curr) s.fuel s.freeSegmentList with
      | some (some curr) =>
          let s := if 0 < s.size curr - size then s.split curr size else s
          some (s.take curr, some curr)
      | _ => none

/-! ## `xkblas_free_work_pos` -/

/-- The search of the segment of an address: the loop stops at the first segment that is not before
it. -/
def findSegment (s : Segments) (ptr : ℕ) : Option (Option Ref) :=
  (search s.next (fun curr => ptr ≤ s.ptr curr) s.fuel s.firstSegment).map
    fun r => r.filter fun curr => s.ptr curr = ptr

/-- The merge of `curr` with the free segment `next` behind it, whose place in the free list `curr`
takes. -/
def mergeNext (s : Segments) (curr next : Ref) : Segments :=
  { s with
    size := Function.update s.size curr (s.size curr + s.size next)
    next := Function.update s.next curr (s.next next)
    prev := assignAt s.prev (s.next next) (some curr)
    freeNext :=
      assignAt (Function.update s.freeNext curr (s.freeNext next)) (s.freePrev next) (some curr)
    freePrev :=
      Function.update (assignAt s.freePrev (s.freeNext next) (some curr)) curr (s.freePrev next)
    freeSegmentList := if s.freePrev next = none then some curr else s.freeSegmentList }

/-- The merge of `curr` with the free segment `prev` before it. -/
def mergePrev (s : Segments) (prev curr : Ref) : Segments :=
  { s with
    size := Function.update s.size prev (s.size prev + s.size curr)
    next := Function.update s.next prev (s.next curr)
    prev := assignAt s.prev (s.next curr) (some prev) }

/-- The segment `curr`, which is behind `prev` in the free list, leaves it. -/
def dropFree (s : Segments) (prev curr : Ref) : Segments :=
  { s with
    freeNext := Function.update s.freeNext prev (s.freeNext curr)
    freePrev := assignAt s.freePrev (s.freeNext curr) (some prev) }

/-- The search of the place of `curr` in the free list: the last free segment before it and the
first one behind it. -/
def findGap (s : Segments) (curr : Ref) :
    ℕ → Option Ref → Option Ref → Option (Option Ref × Option Ref)
  | 0, _, _ => none
  | _ + 1, last, none => some (last, none)
  | fuel + 1, last, some freeCurr =>
      if s.ptr curr < s.ptr freeCurr then some (last, some freeCurr)
      else s.findGap curr fuel (some freeCurr) (s.freeNext freeCurr)

/-- The pointers of the neighbours of `curr` in the free list. -/
def linkNeighbours (s : Segments) (curr : Ref) : Segments :=
  { s with
    freeNext := assignAt s.freeNext (s.freePrev curr) (some curr)
    freePrev := assignAt s.freePrev (s.freeNext curr) (some curr) }

/-- The segment enters the free list between `last` and `freeCurr`. -/
def linkFree (s : Segments) (curr : Ref) (last freeCurr : Option Ref) : Segments :=
  let s :=
    if last = none then
      { s with
        freeNext := Function.update s.freeNext curr s.freeSegmentList
        freePrev := Function.update s.freePrev curr none
        freeSegmentList := some curr }
    else
      { s with
        freeNext := Function.update s.freeNext curr freeCurr
        freePrev := Function.update s.freePrev curr last }
  s.linkNeighbours curr

/-- The part of `xkblas_free_work_pos` for the segment that was found. -/
def release (s : Segments) (curr : Ref) : Option Segments :=
  let s := { s with isFree := Function.update s.isFree curr true }
  match (s.next curr).filter s.isFree, (s.prev curr).filter s.isFree with
  | some next, some prev =>
      let s := s.mergeNext curr next
      some ((s.mergePrev prev curr).dropFree prev curr)
  | some next, none => some (s.mergeNext curr next)
  | none, some prev => some (s.mergePrev prev curr)
  | none, none =>
      if s.freeSegmentList = none then some { s with freeSegmentList := some curr }
      else (s.findGap curr s.fuel none s.freeSegmentList).map fun gap =>
        s.linkFree curr gap.1 gap.2

/-- `xkblas_free_work_pos`. It exits when no segment starts at the address or when it is free. -/
def freeWorkPos (s : Segments) (ptr : ℕ) : Option Segments :=
  (s.findSegment ptr).bind fun r => r.bind fun curr =>
    if s.isFree curr then none else s.release curr

end Segments

/-! ## Runs -/

/-- A block that was returned and not freed: its address and the size that was requested. -/
structure Block where
  ptr : ℕ
  size : ℕ
  deriving DecidableEq

/-- The segments and the live blocks. -/
structure State where
  segs : Segments
  live : List Block

/-- A request of a `size_t`, and the free of an address. -/
inductive Action where
  | get (size : ℕ)
  | free (ptr : ℕ)

def step (s : State) : Action → Option State
  | .get size =>
      if size < 2 ^ 64 then
        (s.segs.getWorkPos size).map fun r =>
          { segs := r.1
            live := (r.2.map fun seg => ⟨r.1.ptr seg, size⟩).toList ++ s.live }
      else none
  | .free ptr =>
      if ptr ∈ s.live.map Block.ptr then
        (s.segs.freeWorkPos ptr).map fun segs =>
          { segs := segs, live := s.live.filter fun b => b.ptr ≠ ptr }
      else none

/-- The sequences of calls after the registration of the buffer at `base` of `total` bytes, which is
inside of the address space. -/
def system (base total : ℕ) : TransitionSystem State Action where
  initial := fun s => base + total ≤ 2 ^ 64 ∧ s = ⟨.register base total, []⟩
  step := step

/-- A request is rounded up without an overflow. -/
def Fits : Action → Prop
  | .get size => size ≤ 2 ^ 64 - 8
  | .free _ => True

instance (a : Action) : Decidable (Fits a) :=
  match a with
  | .get _ => inferInstanceAs (Decidable (_ ≤ _))
  | .free _ => inferInstanceAs (Decidable True)

end Xkblas.Memory.WorkBuffer
