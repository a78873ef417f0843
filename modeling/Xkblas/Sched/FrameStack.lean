import Xkblas.Library.AlignedBlock
import Xkblas.Library.TransitionSystem

/-!
# The stack of a thread

A thread keeps the arguments of its tasks, its frames and other data in a stack of blocks. A block
is aligned on its size, so that whether it has room is decided by comparing the blocks of two
addresses. A frame saves the top of the stack. The pop of a frame restores the top that the frame
below has saved, not its own, and the blocks above it go to the free list of the allocator: what the
frame below has got before the push of the popped frame is given back with it.
-/

namespace Xkblas.Sched.FrameStack

open Library

/-- The size of the blocks, `KAAPI_STACKBLOCSIZE`, a power of two, and the offset of `data` in a
`kaapi_stack_bloc_t`. -/
structure Layout where
  blocSize : Nat
  header : Nat
  blocSize_dvd : blocSize ∣ 2 ^ 64
  header_pos : 0 < header
  header_lt : header < blocSize

theorem Layout.blocSize_pos (L : Layout) : 0 < L.blocSize :=
  L.header_pos.trans L.header_lt

/-- A `kaapi_frame_t`: the top of the stack that it saves, the block that it was pushed with, and
its flag `KAAPI_FRAME_FLAG_NO_UNLINK`. The regions and the blocks of the stack at the push are
kept to state what its pop should give back. -/
structure Frame where
  sp : Nat
  bloc : Nat
  noUnlink : Bool
  regions : List Region
  blocs : List Nat
  deriving Repr

/-- The stack of a thread and its allocator. The current block is the first of `blocs`, and the
first frame is the one that `unlink` points to. `regions` has the regions that have been returned
since the frames still open, newest first. -/
structure State where
  sp : Nat
  blocs : List Nat
  free : List Nat
  frames : List Frame
  regions : List Region
  deriving Repr

/-- The operations, with the address that `posix_memalign` returns if it is called. -/
inductive Action where
  | dataPush (size fresh : Nat)
  | dataPushAlign (count align fresh : Nat)
  | taskAlloc (size fresh : Nat)
  | framePush (noUnlink : Bool) (bloc : Nat)
  | framePop
  deriving DecidableEq, Repr

variable (L : Layout)

/-- A new block can be at the address `fresh`. -/
def FreshBloc (s : State) (fresh : Nat) : Prop :=
  L.blocSize ∣ fresh ∧ 0 < fresh ∧ fresh + L.blocSize ≤ 2 ^ 64 ∧
    fresh ∉ s.blocs ∧ fresh ∉ s.free

instance (s : State) (fresh : Nat) : Decidable (FreshBloc L s fresh) :=
  inferInstanceAs (Decidable (_ ∧ _ ∧ _ ∧ _ ∧ _))

namespace State

/-- `_kaapi_has_enough_dataspace`. -/
def HasEnoughDataspace (s : State) (size : Nat) : Prop :=
  blockOf L.blocSize s.sp = blockOf L.blocSize ((s.sp + size) % 2 ^ 64)

instance (s : State) (size : Nat) : Decidable (s.HasEnoughDataspace L size) :=
  inferInstanceAs (Decidable (_ = _))

/-- `kaapi_stackallocator_alloc` and the link of the new block. -/
def pushBloc (s : State) (fresh : Nat) : Option (State × Nat) :=
  match s.free with
  | bloc :: rest => some ({ s with blocs := bloc :: s.blocs, free := rest }, bloc)
  | [] =>
      if FreshBloc L s fresh then some ({ s with blocs := fresh :: s.blocs }, fresh) else none

/-- `_kaapi_resize_stack`, with the address that it returns. -/
def resizeStack (s : State) (size fresh : Nat) : Option (State × Nat) :=
  if L.blocSize ≤ size then none
  else (s.pushBloc L fresh).map fun (s, bloc) => (s, bloc + L.header)

/-- `kaapi_thread_slow_push_data`. -/
def slowPushData (s : State) (size fresh : Nat) : Option (State × Nat) :=
  (s.resizeStack L size fresh).map fun (s, retval) =>
    ({ s with sp := (retval + size) % 2 ^ 64 }, retval)

/-- A region has been returned to the caller. -/
def returned (s : State) (start size : Nat) : State :=
  { s with regions := ⟨start, size⟩ :: s.regions }

/-- `kaapi_data_push`. -/
def dataPush (s : State) (size fresh : Nat) : Option State :=
  if s.HasEnoughDataspace L size then
    some ({ s with sp := (s.sp + size) % 2 ^ 64 }.returned s.sp size)
  else (s.slowPushData L size fresh).map fun (s, retval) => s.returned retval size

/-- The top of the stack, rounded up. -/
def alignUp (sp align : Nat) : Nat :=
  blockOf align ((sp + (align - 1)) % 2 ^ 64)

/-- `kaapi_data_push_align`. -/
def dataPushAlign (s : State) (count align fresh : Nat) : Option State :=
  { s with sp := alignUp s.sp align }.dataPush L count fresh

/-- `kaapi_task_alloc`. -/
def taskAlloc (s : State) (size fresh : Nat) : Option State :=
  let found :=
    if s.HasEnoughDataspace L size then some (s, s.sp) else s.slowPushData L size fresh
  found.map fun (s, task) => { s with sp := (s.sp + size) % 2 ^ 64 }.returned task size

/-- `_kaapi_stack_free_until`. The address must be in a block of the stack. -/
def stackFreeUntil (s : State) (addr : Nat) : Option State :=
  let bloc := blockOf L.blocSize addr
  if s.blocs.head? = some bloc then some s
  else if bloc ∈ s.blocs then
    some { s with
      blocs := s.blocs.dropWhile (· ≠ bloc)
      free := s.blocs.takeWhile (· ≠ bloc) ++ s.free }
  else none

/-- `kaapi_frame_push`. -/
def framePush (s : State) (noUnlink : Bool) (bloc : Nat) : State :=
  { s with frames := ⟨s.sp, bloc, noUnlink, s.regions, s.blocs⟩ :: s.frames }

/-- `kaapi_frame_pop`. The regions of the frames still open are those of the push of the popped
one. -/
def framePop (s : State) : Option State :=
  match s.frames with
  | top :: frame :: rest =>
      if frame.noUnlink then some s
      else
        let freed :=
          if s.blocs.head? = some frame.bloc then some s else s.stackFreeUntil L frame.sp
        freed.map fun s =>
          { s with sp := frame.sp, frames := frame :: rest, regions := top.regions }
  | _ => none

end State

/-- One operation. The sizes have the types `size_t` and `uint32_t`, an alignment is a power of
two, and a frame is pushed with a block of the stack. -/
def step (s : State) : Action → Option State
  | .dataPush size fresh => if size < 2 ^ 64 then s.dataPush L size fresh else none
  | .dataPushAlign count align fresh =>
      if count < 2 ^ 32 ∧ align ∣ 2 ^ 63 then s.dataPushAlign L count align fresh else none
  | .taskAlloc size fresh => if size < 2 ^ 32 then s.taskAlloc L size fresh else none
  | .framePush noUnlink bloc => if bloc ∈ s.blocs then some (s.framePush noUnlink bloc) else none
  | .framePop => s.framePop L

/-- One block, and the frame of the thread. -/
structure Initial (s : State) : Prop where
  blocs : ∃ bloc, s.blocs = [bloc] ∧ L.blocSize ∣ bloc ∧ 0 < bloc ∧
    bloc + L.blocSize ≤ 2 ^ 64 ∧ bloc + L.header ≤ s.sp ∧ s.sp < bloc + L.blocSize ∧
      ∃ noUnlink, s.frames = [⟨s.sp, bloc, noUnlink, [], [bloc]⟩]
  free : s.free = []
  regions : s.regions = []

/-- The runs of the operations on the stack of a thread. -/
def system : TransitionSystem State Action where
  initial := Initial L
  step := step L

end Xkblas.Sched.FrameStack
