import Xkblas.Offload.IoStream

/-!
# Threads that push in one stream

`kaapi_offload_stream_push` takes the mutex of the stream and `kaapi_offload_stream_commit`
releases it. The caller writes the instruction in between. The device thread takes the
instructions under the same mutex. Here the steps are the single reads and writes of `pos_r` and
`pos_w`, and the operations on the mutex, of any number of threads.

The two positions of a test or of an increment are read by steps of their own, in any order.
`committed` and `launched` record the instructions that were added and taken.
-/

namespace Xkblas.Offload.StreamPush

open Library Offload.Stream

/-- The tests of `kaapi_io_stream_fullinstr` in the loop of `kaapi_offload_stream_push`: before
the lock, after it, and the condition of the loop. -/
inductive FullTest where
  | before
  | locked
  | loop
  deriving DecidableEq, Repr

/-- The tests of `kaapi_io_stream_emptyinstr` in the loop of
`_kaapi_offload_onestream_process_instruction`. -/
inductive EmptyTest where
  | loop
  | locked
  deriving DecidableEq, Repr

/-- Where a thread stands. -/
inductive Control (κ : Type*) where
  | out
  /-- It evaluates `pos_w - pos_r >= count`, with the positions it has read. -/
  | full (test : FullTest) (posW posR : Option ℕ)
  | lockPush
  | unlockPush
  /-- `inst = &ios->instr[ios->pos_w % ios->count]`. -/
  | address
  /-- The push has returned the slot. -/
  | fill (slot : ℕ)
  | commit
  /-- `++ios->pos_w`. -/
  | incrW (posW : Option ℕ)
  | release
  /-- It evaluates `pos_r == pos_w`. -/
  | empty (test : EmptyTest) (posW posR : Option ℕ)
  | lockProcess
  | decode
  /-- `++ios->pos_r`, after the instruction of the slot was decoded. -/
  | incrR (slot : ℕ) (inst : Instruction κ) (posR : Option ℕ)
  /-- `ios->pending[wp] = ios->instr[p]`. -/
  | copy (slot : ℕ)
  | unlockProcess

/-- The fields of the stream that the threads share. -/
structure Shared (τ κ : Type*) where
  count : ℕ
  mutex : Option τ
  posR : ℕ
  posW : ℕ
  posWp : ℕ
  instr : ℕ → Instruction κ
  pending : ℕ → Instruction κ
  committed : List (Instruction κ)
  launched : List (Instruction κ)

/-- The stream and where each thread stands. -/
structure State (τ κ : Type*) where
  shared : Shared τ κ
  control : τ → Control κ

/-- The steps of a thread. -/
inductive Action (τ κ : Type*) where
  | push (t : τ)
  | process (t : τ)
  | readW (t : τ)
  | readR (t : τ)
  | write (t : τ) (inst : Instruction κ)
  | next (t : τ)

variable {τ κ : Type*}

/-- `kaapi_io_stream_fullinstr` for the positions that were read. -/
def fullinstr (count posW posR : ℕ) : Bool :=
  decide (count ≤ uint64 (posW - posR))

/-- Where the loop of the push goes on after a test. -/
def afterFull : FullTest → Bool → Control κ
  | .before, false => .lockPush
  | .before, true => .full .loop none none
  | .locked, false => .address
  | .locked, true => .unlockPush
  | .loop, true => .full .before none none
  -- The loop ends, and the mutex is not taken.
  | .loop, false => .address

/-- Where the loop of the process goes on after a test. -/
def afterEmpty : EmptyTest → Bool → Control κ
  | .loop, true => .out
  | .loop, false => .lockProcess
  | .locked, true => .unlockProcess
  | .locked, false => .decode

/-- The operand `pos_w` is read. -/
def Control.readW (posW : ℕ) : Control κ → Option (Control κ)
  | .full test none posR => some (.full test (some posW) posR)
  | .empty test none posR => some (.empty test (some posW) posR)
  | .incrW none => some (.incrW (some posW))
  | _ => none

/-- The operand `pos_r` is read. -/
def Control.readR (posR : ℕ) : Control κ → Option (Control κ)
  | .full test posW none => some (.full test posW (some posR))
  | .empty test posW none => some (.empty test posW (some posR))
  | .incrR slot inst none => some (.incrR slot inst (some posR))
  | _ => none

/-- The next step of a thread whose operands are read: the stream after it and where the thread
stands then. -/
def advance (t : τ) (m : Shared τ κ) : Control κ → Option (Shared τ κ × Control κ)
  | .full test (some posW) (some posR) =>
      some (m, afterFull test (fullinstr m.count posW posR))
  | .lockPush =>
      match m.mutex with
      | none => some ({ m with mutex := some t }, .full .locked none none)
      | some _ => none
  | .unlockPush => some ({ m with mutex := none }, .full .loop none none)
  | .address => some (m, .fill (m.posW % m.count))
  | .commit =>
      match (m.instr (m.posW % m.count)).type with
      | .ioNop => none
      | _ => some (m, .incrW none)
  | .incrW (some posW) =>
      some ({ m with
        posW := uint64 (posW + 1)
        committed := m.committed ++ [m.instr (posW % m.count)] }, .release)
  | .release => some ({ m with mutex := none }, .out)
  | .empty test (some posW) (some posR) =>
      some (m, afterEmpty test (decide (posR = posW)))
  | .lockProcess =>
      match m.mutex with
      | none => some ({ m with mutex := some t }, .empty .locked none none)
      | some _ => none
  | .decode =>
      some (m, .incrR (m.posR % m.count) (m.instr (m.posR % m.count)) none)
  | .incrR slot inst (some posR) =>
      some ({ m with
        posR := uint64 (posR + 1)
        launched := m.launched ++ [inst] },
        -- A launched instruction is copied to the pending ones.
        match inst.type with
        | .ioNop | .ioBegin | .ioEnd => .unlockProcess
        | _ => .copy slot)
  | .copy slot =>
      some ({ m with
        pending := Function.update m.pending (m.posWp % m.count) (m.instr slot)
        posWp := uint64 (m.posWp + 1) }, .unlockProcess)
  | .unlockProcess => some ({ m with mutex := none }, .empty .loop none none)
  | _ => none

variable [DecidableEq τ]

/-- The thread stands elsewhere. -/
def State.goto (s : State τ κ) (t : τ) (c : Control κ) : State τ κ :=
  { s with control := Function.update s.control t c }

/-- One step. -/
def step (s : State τ κ) : Action τ κ → Option (State τ κ)
  | .push t =>
      match s.control t with
      | .out => some (s.goto t (.full .before none none))
      | _ => none
  | .process t =>
      match s.control t with
      | .out => some (s.goto t (.empty .loop none none))
      | _ => none
  | .readW t => ((s.control t).readW s.shared.posW).map fun c => s.goto t c
  | .readR t => ((s.control t).readR s.shared.posR).map fun c => s.goto t c
  | .write t inst =>
      match s.control t with
      | .fill slot =>
          some
            { shared := { s.shared with instr := Function.update s.shared.instr slot inst }
              control := Function.update s.control t .commit }
      | _ => none
  | .next t =>
      (advance t s.shared (s.control t)).map fun result =>
        { shared := result.1, control := Function.update s.control t result.2 }

/-- The stream after `_kaapi_offload_iostream_init`, and no thread uses it. The capacity is an
`unsigned int`, and the assertion of the initialisation holds. -/
def Initial (capacity : ℕ) (s : State τ κ) : Prop :=
  2 ≤ capacity ∧ capacity < 2 ^ 32 ∧ ∃ instr pending,
    s = { shared :=
            { count := capacity, mutex := none, posR := 0, posW := 0, posWp := 0,
              instr := instr, pending := pending, committed := [], launched := [] }
          control := fun _ => .out }

/-- The threads `τ` and one stream. -/
def system (τ κ : Type*) [DecidableEq τ] (capacity : ℕ) :
    TransitionSystem (State τ κ) (Action τ κ) where
  initial := Initial capacity
  step := step

/-! ## What the threads know -/

/-- The thread stands where the program holds the mutex. -/
def Control.holds : Control κ → Prop
  | .full .locked _ _ | .unlockPush | .address | .fill _ | .commit | .incrW _ | .release => True
  | .empty .locked _ _ | .decode | .incrR _ _ _ | .copy _ | .unlockProcess => True
  | _ => False

/-- What a thread that holds the mutex knows of the stream. -/
def Control.Knows (m : Shared τ κ) : Control κ → Prop
  | .full .locked posW posR => (∀ w ∈ posW, w = m.posW) ∧ ∀ r ∈ posR, r = m.posR
  | .address | .commit => m.committed.length < m.launched.length + m.count
  | .fill slot => slot = m.posW % m.count ∧ m.committed.length < m.launched.length + m.count
  | .incrW posW =>
      m.committed.length < m.launched.length + m.count ∧ ∀ w ∈ posW, w = m.posW
  | .empty .locked posW posR => (∀ w ∈ posW, w = m.posW) ∧ ∀ r ∈ posR, r = m.posR
  | .decode => m.launched.length < m.committed.length
  | .incrR slot inst posR =>
      m.launched.length < m.committed.length ∧ slot = m.posR % m.count ∧
        inst = m.instr slot ∧ ∀ r ∈ posR, r = m.posR
  | .copy slot => ∃ before, m.launched = before ++ [m.instr slot]
  | _ => True

/-- The instructions that are not yet launched are in the array, as they were committed. -/
structure Intact (m : Shared τ κ) : Prop where
  le : m.launched.length ≤ m.committed.length
  fits : m.committed.length ≤ m.launched.length + m.count
  count_lt : m.count < 2 ^ 32
  posR : m.posR = m.launched.length % 2 ^ 64
  posW : m.posW = m.committed.length % 2 ^ 64
  contents : m.launched ++ contents m.instr m.count m.launched.length m.committed.length =
    m.committed

/-- The indices of the positions that the counters stand for have the slots of the counters. -/
def Unwrapped (m : Shared τ κ) : Prop :=
  m.count ∣ 2 ^ 64 ∨ m.committed.length < 2 ^ 64

end Xkblas.Offload.StreamPush
