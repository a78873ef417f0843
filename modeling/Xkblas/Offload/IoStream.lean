import Xkblas.Library.MachineInt
import Xkblas.Library.RingBuffer
import Xkblas.Library.TransitionSystem

/-!
# The instruction stream of a device

A `kaapi_io_stream_t` has two circular arrays of the same size. A thread writes a new instruction
in `instr` between a push and a commit, which hold the mutex. The device thread takes the new
instructions, launches them, and copies those that complete later to `pending`. A test asks which
of them are complete, and runs the callbacks of those before the first that is not.

The calls are atomic, and a callback runs after the test that calls it. `committed` records the
instructions and `called` the callbacks. Each round of a test comes with the answers of
`cudaEventQuery`, by the index of the event.
-/

namespace Xkblas.Offload.Stream

open Library

/-- `kaapi_io_type_t`. -/
inductive IoType where
  | ioNop
  | ioBegin
  | ioEnd
  | ioCopyH2H
  | ioCopyH2D
  | ioCopyD2H
  | ioCopyD2D
  | ioBarrier
  | ioKern
  deriving DecidableEq, Repr

/-- `kaapi_io_stream_type_t`. -/
inductive StreamType where
  | h2d
  | d2h
  | d2d
  | kern
  deriving DecidableEq, Repr

/-- `kaapi_io_instruction_t`: its type and its callback with the arguments, if it has one. -/
structure Instruction (κ : Type*) where
  type : IoType
  cbk : Option κ

/-- `KAAPI_STREAM_CAPACITY`. -/
def streamCapacity : ℕ := 512

/-- The fields of `kaapi_io_stream_t`. -/
structure IoStream (κ : Type*) where
  type : StreamType
  mutex : Bool
  count : ℕ
  posR : ℕ
  posW : ℕ
  posRp : ℕ
  posWp : ℕ
  okP : ℕ
  instr : ℕ → Instruction κ
  pending : ℕ → Instruction κ

variable {κ : Type*}

/-- `_kaapi_offload_iostream_init`. The arrays are not initialised. -/
def iostreamInit (type : StreamType) (capacity : ℕ) (instr pending : ℕ → Instruction κ) :
    IoStream κ where
  type := type
  mutex := false
  count := capacity
  posR := 0
  posW := 0
  posRp := 0
  posWp := 0
  okP := 0
  instr := instr
  pending := pending

/-- `kaapi_io_stream_sizeinstr`. -/
def IoStream.sizeinstr (ios : IoStream κ) : ℕ :=
  uint64 (ios.posW - ios.posR)

/-- `kaapi_io_stream_sizepending`. -/
def IoStream.sizepending (ios : IoStream κ) : ℕ :=
  uint64 (ios.posWp - ios.posRp)

/-- `kaapi_io_stream_fullinstr`. -/
def IoStream.fullinstr (ios : IoStream κ) : Bool :=
  decide (ios.count ≤ ios.sizeinstr)

/-- `kaapi_io_stream_fullpending`. -/
def IoStream.fullpending (ios : IoStream κ) : Bool :=
  decide (ios.count ≤ ios.sizepending)

/-- `kaapi_io_stream_emptyinstr`. -/
def IoStream.emptyinstr (ios : IoStream κ) : Bool :=
  decide (ios.posR = ios.posW)

/-- `kaapi_io_stream_emptypending`. -/
def IoStream.emptypending (ios : IoStream κ) : Bool :=
  decide (ios.posRp = ios.posWp)

/-! ## Push and commit -/

/-- `kaapi_offload_stream_push`. It spins while the mutex is taken or the array is full. -/
def streamPush (ios : IoStream κ) : Option (IoStream κ) :=
  if ios.mutex = true then none
  else if ios.fullinstr = true then none
  else some { ios with mutex := true }

/-- The caller writes the instruction between the push and the commit. -/
def streamFill (ios : IoStream κ) (inst : Instruction κ) : Option (IoStream κ) :=
  if ios.mutex = true then
    some { ios with instr := Function.update ios.instr (ios.posW % ios.count) inst }
  else none

/-- `kaapi_offload_stream_commit`. It aborts at a bad instruction type. -/
def streamCommit (ios : IoStream κ) : Option (IoStream κ) :=
  if ios.mutex = true then
    match (ios.instr (ios.posW % ios.count)).type with
    | .ioNop => none
    | _ => some { ios with posW := uint64 (ios.posW + 1), mutex := false }
  else none

/-! ## Process -/

/-- What `cuda_stream_decode_ioinstruction` returns. -/
inductive Decoded where
  | done
  | inProgress
  deriving DecidableEq, Repr

/-- `cuda_stream_decode_ioinstruction`. A barrier waits for the device and counts itself. -/
def decodeIoinstruction (ios : IoStream κ) (instr : Instruction κ) : IoStream κ × Decoded :=
  match instr.type with
  | .ioNop | .ioBegin | .ioEnd => (ios, .done)
  | .ioBarrier => ({ ios with okP := uint64 (ios.okP + 1) }, .inProgress)
  | .ioCopyH2H | .ioCopyH2D | .ioCopyD2H | .ioCopyD2D | .ioKern => (ios, .inProgress)

/-- One round of the loop of `_kaapi_offload_onestream_process_instruction`. It does not test
whether the array of the pending instructions is full. -/
def processRound (ios : IoStream κ) : IoStream κ :=
  let inst := ios.instr (ios.posR % ios.count)
  let decoded := decodeIoinstruction ios inst
  let ios := { decoded.1 with posR := uint64 (ios.posR + 1) }
  match decoded.2 with
  | .done => ios
  | .inProgress =>
      { ios with
        pending := Function.update ios.pending (ios.posWp % ios.count) inst
        posWp := uint64 (ios.posWp + 1) }

/-- `n` rounds. -/
def processLoop : ℕ → IoStream κ → IoStream κ
  | 0, ios => ios
  | n + 1, ios => processLoop n (processRound ios)

/-- `_kaapi_offload_onestream_process_instruction`: a round for each new instruction. It blocks
while the mutex is taken. -/
def processInstruction (ios : IoStream κ) : Option (IoStream κ) :=
  if ios.emptyinstr = true then some ios
  else if ios.mutex = true then none
  else some (processLoop ios.sizeinstr ios)

/-! ## Test -/

/-- The loop of `cuda_stream_advance_pending` over `n` events from `okp` on: the value of
`prev_iosokp`, a variable of type `int`, after it. -/
def advanceLoop (ios : IoStream κ) (complete : ℕ → Bool) : ℕ → ℕ → ℤ → Option ℤ
  | 0, _, prev => some prev
  | n + 1, okp, prev =>
      let idx := okp % ios.count
      match (ios.pending idx).type with
      | .ioKern | .ioCopyH2H | .ioCopyH2D | .ioCopyD2H | .ioCopyD2D =>
          if complete idx = true ∧ uint64 (int32 (prev + 1)) = okp then
            advanceLoop ios complete n (okp + 1) (int32 (prev + 1))
          else advanceLoop ios complete n (okp + 1) prev
      | .ioEnd | .ioBarrier | .ioNop => advanceLoop ios complete n (okp + 1) prev
      | .ioBegin => none

/-- `cuda_stream_advance_pending`. A blocking one waits for the device. -/
def advancePending (ios : IoStream κ) (blocking : Bool) (complete : ℕ → Bool) :
    Option (IoStream κ) :=
  if ios.emptypending = true then some ios
  else if blocking = true then some { ios with okP := ios.posWp }
  else
    match advanceLoop ios complete (ios.posWp - ios.okP) ios.okP (int32 (ios.okP - 1)) with
    | none => none
    | some prev =>
        if uint64 prev = uint64 (ios.okP - 1) then some ios
        else some { ios with okP := uint64 (int32 (prev + 1)) }

/-- The loop of `cuda_stream_process_pending` over `n` entries from `pos` on: the stream and the
callbacks that were called. -/
def callLoop : ℕ → ℕ → IoStream κ → List κ → Option (IoStream κ × List κ)
  | 0, _, ios, called => some (ios, called)
  | n + 1, pos, ios, called =>
      let idx := pos % ios.count
      let op := ios.pending idx
      let advanced := { ios with posRp := uint64 (ios.posRp + 1) }
      match op.type with
      | .ioKern | .ioCopyH2H | .ioCopyH2D | .ioCopyD2H | .ioCopyD2D | .ioEnd | .ioBarrier =>
          callLoop n (pos + 1)
            { advanced with pending := Function.update ios.pending idx { op with type := .ioNop } }
            (called ++ op.cbk.toList)
      | .ioNop => callLoop n (pos + 1) advanced called
      | .ioBegin => none

/-- `cuda_stream_process_pending`. -/
def processPending (ios : IoStream κ) (blocking : Bool) (complete : ℕ → Bool) (called : List κ) :
    Option (IoStream κ × List κ) :=
  match advancePending ios blocking complete with
  | none => none
  | some ios => callLoop (ios.okP - ios.posRp) ios.posRp ios called

/-- The loop of `_kaapi_offload_waittest_stream` for one stream, with the answers for each round.
`conc` is `kaapi_default_param.cuda_conc_kernel`. -/
def waittestLoop (conc : ℕ) (blocking : Bool) :
    List (ℕ → Bool) → IoStream κ → List κ → Option (IoStream κ × List κ)
  | [], _, _ => none
  | complete :: rest, ios, called =>
      match processPending ios blocking complete called with
      | none => none
      | some (next, called) =>
          if ios.type = .kern ∧ conc < ios.sizepending then
            waittestLoop conc blocking rest next called
          else some (next, called)

/-- `_kaapi_offload_waittest_stream` for one stream. -/
def waittestStream (conc : ℕ) (blocking : Bool) (rounds : List (ℕ → Bool)) (ios : IoStream κ)
    (called : List κ) : Option (IoStream κ × List κ) :=
  if ios.emptypending = true then some (ios, called)
  else waittestLoop conc blocking rounds ios called

/-! ## Runs -/

/-- A stream, the instructions that were committed and the callbacks that were called. -/
structure System (κ : Type*) where
  ios : IoStream κ
  committed : List (Instruction κ)
  called : List κ

/-- The calls. -/
inductive Action (κ : Type*) where
  | push
  | fill (inst : Instruction κ)
  | commit
  | process
  | test (blocking : Bool) (rounds : List (ℕ → Bool))

/-- One call. -/
def step (conc : ℕ) (s : System κ) : Action κ → Option (System κ)
  | .push => (streamPush s.ios).map fun ios => { s with ios := ios }
  | .fill inst => (streamFill s.ios inst).map fun ios => { s with ios := ios }
  | .commit =>
      (streamCommit s.ios).map fun ios =>
        { s with
          ios := ios
          committed := s.committed ++ [s.ios.instr (s.ios.posW % s.ios.count)] }
  | .process => (processInstruction s.ios).map fun ios => { s with ios := ios }
  | .test blocking rounds =>
      (waittestStream conc blocking rounds s.ios s.called).map fun result =>
        { s with ios := result.1, called := result.2 }

/-- The stream before the first call. The indices of the arrays are of type `int`. -/
def Initial (type : StreamType) (capacity : ℕ) (s : System κ) : Prop :=
  2 ≤ capacity ∧ capacity ≤ 2 ^ 31 ∧ ∃ instr pending,
    s = { ios := iostreamInit type capacity instr pending, committed := [], called := [] }

/-- A stream of a device. -/
def system (κ : Type*) (type : StreamType) (capacity conc : ℕ) :
    TransitionSystem (System κ) (Action κ) where
  initial := Initial type capacity
  step := step conc

end Xkblas.Offload.Stream
