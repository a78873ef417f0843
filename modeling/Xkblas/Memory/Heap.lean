import Mathlib.Algebra.Group.Nat.Defs
import Xkblas.Library.LinkedPath
import Xkblas.Library.TransitionSystem

/-!
# The heap of a device

`kaapi_memory_alloc` and `kaapi_memory_free` manage one large block of device memory. The chunks
of the block are described on the host by cells `kaapi_alloc_chunk_t`, linked by `prev` and
`next` in the order of their addresses and, for the free ones, by `freelink`. Both functions run
under the lock of the device, so each call is one step.

A cell is a `Ref`, and every field of the cells is a function of the `Ref`. A `Ref` of
`allocated` has been given by `malloc` and not yet to `free`.
-/

namespace Xkblas.Memory.Heap

open Library

/-- A pointer to a `kaapi_alloc_chunk_t`. -/
abbrev Ref := Nat

/-- `KAAPI_HEAP_STRATEGY`. -/
inductive Strategy where
  | firstFit
  | bestFit
  deriving DecidableEq, Repr

/-- What the device gives: the memory limit of `kaapi_offload_get_mem_info`, and the address that
`f_alloc` returns for the block. The program stops if the address is null. -/
structure Config where
  memLimit : Nat
  base : Nat
  base_pos : 0 < base
  strategy : Strategy

theorem page_pos : 0 < 4096 := by
  decide

/-- The size of the block, rounded down to a multiple of 8. -/
def Config.total (cfg : Config) : Nat :=
  cfg.memLimit / 8 * 8

/-- The part of `kaapi_memory_device_t` that the heap uses, with the fields of its cells.
`isFree` is the bit `FREE_STATE`, and `hasMain` tells whether `main_chunk` is set. -/
structure Device where
  size : Ref → Nat
  isFree : Ref → Bool
  devicePtr : Ref → Nat
  prev : Ref → Option Ref
  next : Ref → Option Ref
  freelink : Ref → Option Ref
  allocated : Ref → Bool
  nextRef : Ref
  freeChunkList : Option Ref
  hasMain : Bool

/-- `sizeof(kaapi_alloc_chunk_t)`. -/
def chunkHeader : Nat := 48

/-- The size that is looked for, `(size + 7UL) & ~7UL` in 64 bits and at least the size of a
cell. -/
def roundSize (size : Nat) : Nat :=
  let rounded := (size + 7) % 2 ^ 64 / 8 * 8
  if rounded < chunkHeader then chunkHeader else rounded

/-- The conversion of a `size_t` to `double`: 53 significant bits, ties to even. -/
def toDouble (n : Nat) : Nat :=
  let ulp := 2 ^ (n.log2 + 1 - 53)
  let quotient := n / ulp
  let rest := n % ulp
  if 2 * rest < ulp ∨ 2 * rest = ulp ∧ quotient % 2 = 0 then quotient * ulp
  else (quotient + 1) * ulp

/-- The test that splits a chunk of size `chunk`, in which `size` fits. The best fit compares
`min_size - size` with `0.5 * size` in `double`. -/
def Strategy.splits (strategy : Strategy) (chunk size : Nat) : Bool :=
  match strategy with
  | .firstFit => decide (chunkHeader < chunk - size)
  | .bestFit => decide (toDouble size ≤ 2 * toDouble (chunk - size))

namespace Device

/-- A device before its first allocation. -/
def initial : Device where
  size := fun _ => 0
  isFree := fun _ => false
  devicePtr := fun _ => 0
  prev := fun _ => none
  next := fun _ => none
  freelink := fun _ => none
  allocated := fun _ => false
  nextRef := 0
  freeChunkList := none
  hasMain := false

/-- `free` of a cell. -/
def delete (d : Device) (r : Ref) : Device :=
  { d with allocated := Function.update d.allocated r false }

/-- The first allocation reserves the block of the device as one free chunk. -/
def reserve (d : Device) (cfg : Config) : Device :=
  if d.freeChunkList = none ∧ d.hasMain = false then
    let chunk0 := d.nextRef
    { d with
      size := Function.update d.size chunk0 cfg.total
      isFree := Function.update d.isFree chunk0 true
      devicePtr := Function.update d.devicePtr chunk0 cfg.base
      prev := Function.update d.prev chunk0 none
      next := Function.update d.next chunk0 none
      freelink := Function.update d.freelink chunk0 none
      allocated := Function.update d.allocated chunk0 true
      nextRef := d.nextRef + 1
      freeChunkList := some chunk0
      hasMain := true }
  else d

/-- The search in the free list, from `curr` whose predecessor is `prevfree`. It returns a chunk
in which `size` fits with its predecessor: the first one, or for the best fit the last one, which
`found` keeps. -/
def findFit (d : Device) (strategy : Strategy) (size : Nat) :
    Nat → Option Ref → Option Ref → Option (Ref × Option Ref) →
      Option (Option (Ref × Option Ref))
  | 0, _, _, _ => none
  | _ + 1, none, _, found => some found
  | fuel + 1, some curr, prevfree, found =>
      if size ≤ d.size curr then
        match strategy with
        | .firstFit => some (some (curr, prevfree))
        | .bestFit =>
            d.findFit strategy size fuel (d.freelink curr) (some curr) (some (curr, prevfree))
      else d.findFit strategy size fuel (d.freelink curr) (some curr) found

/-- The chunk `curr` keeps `size` bytes, and a new free chunk after it, in both lists, gets the
rest. -/
def splitChunk (d : Device) (curr : Ref) (size : Nat) : Device :=
  let remainder := d.nextRef
  { d with
    nextRef := d.nextRef + 1
    allocated := Function.update d.allocated remainder true
    devicePtr := Function.update d.devicePtr remainder (size + d.devicePtr curr)
    size := Function.update (Function.update d.size remainder (d.size curr - size)) curr size
    isFree := Function.update d.isFree remainder true
    prev := Function.update (assignAt d.prev (d.next curr) (some remainder)) remainder (some curr)
    next := Function.update (Function.update d.next remainder (d.next curr)) curr (some remainder)
    freelink :=
      Function.update (Function.update d.freelink remainder (d.freelink curr)) curr
        (some remainder) }

/-- The chunk `curr` leaves the free list, where its predecessor is `prevfree`. -/
def takeChunk (d : Device) (curr : Ref) (prevfree : Option Ref) : Device :=
  { d with
    freeChunkList := if prevfree = none then d.freelink curr else d.freeChunkList
    freelink := Function.update (assignAt d.freelink prevfree (d.freelink curr)) curr none
    isFree := Function.update d.isFree curr false }

/-- `kaapi_memory_alloc`: the new device, and the chunk of the allocation unless it fails. -/
def alloc (d : Device) (cfg : Config) (size : Nat) : Option (Device × Option Ref) :=
  let size := roundSize size
  let d := d.reserve cfg
  match d.findFit cfg.strategy size (d.nextRef + 1) d.freeChunkList none none with
  | none => none
  | some none => some (d, none)
  | some (some (curr, prevfree)) =>
      let d := if cfg.strategy.splits (d.size curr) size then d.splitChunk curr size else d
      some (d.takeChunk curr prevfree, some curr)

/-- The freed chunk becomes a part of the free chunk `next` after it. -/
def absorbNext (d : Device) (chunk next : Ref) : Device :=
  { d with
    prev := Function.update d.prev next (d.prev chunk)
    next := assignAt d.next (d.prev chunk) (some next)
    size := Function.update d.size next (d.size next + d.size chunk)
    devicePtr := Function.update d.devicePtr next (d.devicePtr chunk) }

/-- The chunk `x` becomes a part of the chunk `prev` before it. -/
def mergeIntoPrev (d : Device) (prev x : Ref) : Device :=
  { d with
    size := Function.update d.size prev (d.size prev + d.size x)
    next := Function.update d.next prev (d.next x)
    prev := assignAt d.prev (d.next x) (some prev) }

/-- The walk from the chunk `prev` to the free chunk before it. -/
def prevFree (d : Device) : Nat → Option Ref → Option (Option Ref)
  | 0, _ => none
  | _ + 1, none => some none
  | fuel + 1, some prev =>
      if d.isFree prev then some (some prev) else d.prevFree fuel (d.prev prev)

/-- The freed chunk enters the free list after `prev`. -/
def linkFree (d : Device) (chunk : Ref) (prev : Option Ref) : Device :=
  match prev with
  | none =>
      { d with
        freelink := Function.update d.freelink chunk d.freeChunkList
        freeChunkList := some chunk }
  | some prev =>
      { d with
        freelink :=
          Function.update (Function.update d.freelink chunk (d.freelink prev)) prev (some chunk) }

/-- `kaapi_memory_free` of a chunk. -/
def free (d : Device) (chunk : Ref) : Option Device :=
  let d := { d with isFree := Function.update d.isFree chunk true }
  match (d.next chunk).filter d.isFree with
  | some next =>
      let d := d.absorbNext chunk next
      match (d.prev chunk).filter d.isFree with
      | some prev =>
          let d := d.mergeIntoPrev prev next
          let d := { d with freelink := Function.update d.freelink prev (d.freelink next) }
          some ((d.delete next).delete chunk)
      | none => some (d.delete chunk)
  | none =>
      match (d.prev chunk).filter d.isFree with
      | some prev => some ((d.mergeIntoPrev prev chunk).delete chunk)
      | none => (d.prevFree (d.nextRef + 1) (d.prev chunk)).map fun prev => d.linkFree chunk prev

end Device

/-! ## Runs -/

/-- A live allocation: its chunk, its address and the size that was requested. -/
structure Allocation where
  chunk : Ref
  ptr : Nat
  size : Nat
  deriving DecidableEq, Repr

/-- The device with the allocations that have not been freed. -/
structure State where
  device : Device
  live : List Allocation

/-- An allocation of a `size_t`, or the free of the live allocation `i`. -/
inductive Action where
  | alloc (size : Nat)
  | free (i : Nat)
  deriving DecidableEq, Repr

def step (cfg : Config) (s : State) : Action → Option State
  | .alloc size =>
      if size < 2 ^ 64 then
        match s.device.alloc cfg size with
        | none => none
        | some (d, none) => some { s with device := d }
        | some (d, some chunk) =>
            some { device := d, live := s.live ++ [⟨chunk, d.devicePtr chunk, size⟩] }
      else none
  | .free i =>
      match s.live[i]? with
      | none => none
      | some a =>
          if a.ptr = 0 then some { s with live := s.live.eraseIdx i }
          else (s.device.free a.chunk).map fun d => { device := d, live := s.live.eraseIdx i }

/-- The sequences of calls on the heap of one device. -/
def system (cfg : Config) : TransitionSystem State Action where
  initial := fun s => s = { device := .initial, live := [] }
  step := step cfg

end Xkblas.Memory.Heap
