import Mathlib.Algebra.GroupWithZero.Nat
import Xkblas.Library.ByteFile
import Xkblas.Library.TransitionSystem

/-!
# The trace recorder

Each thread has the event buffer of its kid. It pushes the buffer that is full, or that it closes,
into the fifo `listevt`, and gets another one from the list of the free buffers or from `malloc`.
The collector thread, the calls of `kaapi_event_fencebuffers` and `kaapi_eventrecorder_fini` are the
writers: each takes the first buffer of the fifo, releases the mutex (but for the last one), and
writes the events to the file of the kid, which it opens if no other writer has stored its
descriptor.

A section under one of the mutexes is one step, and so is each access to `listfd_set` and each
system call. A write may be partial. The signal handler calls the fence as any other thread; the
program ends after it.
-/

namespace Xkblas.Trace.Recorder

open Library

/-- A pointer to a `kaapi_event_buffer_t`. -/
abbrev Evb := ℕ

/-- A file descriptor. -/
abbrev Fd := ℕ

/-- `KAAPI_EVENT_BUFFER_SIZE`, the kids in the order of their indices, the bytes of an event, and
the header of the file of a kid. -/
structure Config (κ ε β : Type) where
  bufferSize : ℕ
  kids : List κ
  kids_nodup : kids.Nodup
  mem_kids : ∀ k, k ∈ kids
  encode : ε → List β
  zero : β
  headerSize : ℕ
  header : κ → List β
  header_length : ∀ k, (header k).length = headerSize

/-- The fields `kid` and `buffer[0..pos)` of an event buffer. -/
structure EventBuffer (κ ε : Type) where
  kid : κ
  events : List ε

/-- An open file: the kid of its name, the offset, and whether the descriptor is closed again. -/
structure OpenFile (κ : Type) where
  kid : κ
  offset : ℕ
  closed : Bool

/-- The thread of a kid: it has not opened its buffer yet, it has a buffer, it is in
`kaapi_event_flushbuffer` without a buffer, or it has closed its buffer. -/
inductive Thread where
  | never
  | opened (evb : Evb)
  | flushed
  | closed
  deriving DecidableEq

/-- The collector thread, a call of the fence, and `kaapi_eventrecorder_fini`. -/
inductive Writer (ι : Type) where
  | collector
  | fence (i : ι)
  | fini
  deriving DecidableEq

/-- Where a writer is: not called, asleep, before the join, at the loop, in `_kaapi_write_evb` (at
the test of the descriptor, at the `open`, at the dummy header, or with bytes to write), at the
release of the buffer, at the end of the collector, or at the loop that closes the files. -/
inductive Pc (κ β : Type) where
  | idle
  | asleep
  | join
  | loop
  | test (evb : Evb)
  | openFile (evb : Evb)
  | dummy (evb : Evb)
  | write (evb : Evb) (towrite : List β)
  | release (evb : Evb)
  | exited
  | close (kids : List κ)

/-- `brk` is the next buffer that `malloc` returns, and `nextFd` the next descriptor. The fields
`pushed` and `taken` are not in the code: the events that each kid has pushed, and the buffers that
are taken from `listevt` and not written yet, in the order in which they were taken. -/
structure State (κ ι ε β : Type) where
  buffers : Evb → EventBuffer κ ε
  brk : Evb
  thread : κ → Thread
  listevt : List Evb
  listevtfree : List Evb
  listfd_set : κ → Option Fd
  fds : Fd → OpenFile κ
  nextFd : Fd
  files : κ → List β
  pc : Writer ι → Pc κ β
  finalize_flushimator : Bool
  pushed : κ → List ε
  taken : List Evb

section Step

variable {κ ι ε β : Type}

/-- The bytes of the events. -/
def Config.bytes (cfg : Config κ ε β) (events : List ε) : List β :=
  events.flatMap cfg.encode

/-- The header of zeros that is written first. -/
def Config.dummyHeader (cfg : Config κ ε β) : List β :=
  List.replicate cfg.headerSize cfg.zero

variable [DecidableEq κ] [DecidableEq ι]

namespace State

def setPc (s : State κ ι ε β) (w : Writer ι) (p : Pc κ β) : State κ ι ε β :=
  { s with pc := Function.update s.pc w p }

/-- The kid of a buffer. -/
def kid (s : State κ ι ε β) (evb : Evb) : κ :=
  (s.buffers evb).kid

/-- The end of `kaapi_eventrecorder_fini` holds `mutex_listevt` while it writes. -/
def locked (s : State κ ι ε β) : Bool :=
  match s.pc .fini with
  | .loop | .test _ | .openFile _ | .dummy _ | .write _ _ | .release _ => true
  | _ => false

/-- Only `kaapi_eventrecorder_fini` itself gets the mutex that it holds. -/
def canLock (s : State κ ι ε β) (w : Writer ι) : Bool :=
  decide (w = .fini) || !s.locked

/-- `pthread_cond_signal(&signal_thread)`. -/
def signal (s : State κ ι ε β) : State κ ι ε β :=
  match s.pc .collector with
  | .asleep => s.setPc .collector .loop
  | _ => s

/-! ### The threads -/

/-- The fields of a buffer that a thread gets. -/
def initBuffer (s : State κ ι ε β) (k : κ) (evb : Evb) : State κ ι ε β :=
  { s with
    buffers := Function.update s.buffers evb ⟨k, []⟩
    thread := Function.update s.thread k (.opened evb) }

/-- A buffer from `malloc`. -/
def malloc (s : State κ ι ε β) (k : κ) : State κ ι ε β :=
  { s.initBuffer k s.brk with brk := s.brk + 1 }

/-- `kaapi_event_openbuffer`. -/
def openbuffer (s : State κ ι ε β) (k : κ) : Option (State κ ι ε β) :=
  match s.thread k with
  | .never | .closed => if s.finalize_flushimator then none else some (s.malloc k)
  | _ => none

/-- An event is written behind those of the buffer. -/
def record (s : State κ ι ε β) (k : κ) (evb : Evb) (e : ε) : State κ ι ε β :=
  { s with
    buffers := Function.update s.buffers evb ⟨s.kid evb, (s.buffers evb).events ++ [e]⟩
    pushed := Function.update s.pushed k (s.pushed k ++ [e]) }

/-- `kaapi_event_push0` and the like, without the flush of a full buffer. -/
def push (cfg : Config κ ε β) (s : State κ ι ε β) (k : κ) (e : ε) : Option (State κ ι ε β) :=
  match s.thread k with
  | .opened evb =>
      if (s.buffers evb).events.length < cfg.bufferSize then some (s.record k evb e) else none
  | _ => none

/-- The part of `kaapi_event_flushbuffer` and `kaapi_event_closebuffer` that pushes the buffer into
the list, and signals if the list was empty. -/
def enqueue (s : State κ ι ε β) (k : κ) (thread : Thread) : Option (State κ ι ε β) :=
  match s.thread k with
  | .opened evb =>
      if s.locked then none
      else
        let t := if s.listevt = [] then s.signal else s
        some { t with
          listevt := s.listevt ++ [evb]
          thread := Function.update s.thread k thread }
  | _ => none

/-- The part of `kaapi_event_flushbuffer` that gets another buffer. -/
def reopen (s : State κ ι ε β) (k : κ) : Option (State κ ι ε β) :=
  match s.thread k with
  | .flushed =>
      match s.listevtfree with
      | [] => some (s.malloc k)
      | evb :: listevtfree => some { s.initBuffer k evb with listevtfree := listevtfree }
  | _ => none

/-! ### The writers -/

/-- `write` on a descriptor that is open. -/
def writeFd (cfg : Config κ ε β) (s : State κ ι ε β) (fd : Fd) (bytes : List β) : State κ ι ε β :=
  let file := s.fds fd
  { s with
    files := Function.update s.files file.kid
      (writeAt cfg.zero (s.files file.kid) file.offset bytes)
    fds := Function.update s.fds fd { file with offset := file.offset + bytes.length } }

/-- The head of the loop of a writer. -/
def atLoop (cfg : Config κ ε β) (s : State κ ι ε β) (w : Writer ι) : Option (State κ ι ε β) :=
  if s.canLock w then
    match s.listevt, w with
    | evb :: listevt, w =>
        some { s.setPc w (.test evb) with listevt := listevt, taken := s.taken ++ [evb] }
    | [], .collector =>
        if s.finalize_flushimator then some (s.setPc .collector .exited)
        else some (s.setPc .collector .asleep)
    | [], .fence i => some (s.setPc (.fence i) .idle)
    | [], .fini => some (s.setPc .fini (.close cfg.kids))
  else none

/-- The test of the descriptor. -/
def atTest (cfg : Config κ ε β) (s : State κ ι ε β) (w : Writer ι) (evb : Evb) : State κ ι ε β :=
  match s.listfd_set (s.kid evb) with
  | none => s.setPc w (.openFile evb)
  | some _ => s.setPc w (.write evb (cfg.bytes (s.buffers evb).events))

/-- `open` with `O_TRUNC`, and the store of the descriptor. -/
def atOpen (s : State κ ι ε β) (w : Writer ι) (evb : Evb) : State κ ι ε β :=
  let k := s.kid evb
  { s.setPc w (.dummy evb) with
    files := Function.update s.files k []
    fds := Function.update s.fds s.nextFd ⟨k, 0, false⟩
    listfd_set := Function.update s.listfd_set k (some s.nextFd)
    nextFd := s.nextFd + 1 }

/-- The dummy header. The write has to succeed. -/
def atDummy (cfg : Config κ ε β) (s : State κ ι ε β) (w : Writer ι) (evb : Evb) :
    Option (State κ ι ε β) :=
  (s.listfd_set (s.kid evb)).bind fun fd =>
    if (s.fds fd).closed then none
    else some ((s.writeFd cfg fd cfg.dummyHeader).setPc w
      (.write evb (cfg.bytes (s.buffers evb).events)))

/-- The buffer is written. -/
def written (s : State κ ι ε β) (w : Writer ι) (evb : Evb) : State κ ι ε β :=
  { s.setPc w (.release evb) with
    buffers := Function.update s.buffers evb { s.buffers evb with events := [] }
    taken := s.taken.erase evb }

/-- The write fails: the fence returns, and the others do not look at the error. -/
def failed (s : State κ ι ε β) (w : Writer ι) (evb : Evb) : State κ ι ε β :=
  { s.setPc w (match w with | .fence _ => .idle | _ => .release evb) with
    taken := s.taken.erase evb }

/-- A round of the loop of `_kaapi_write_evb`, in which `write` takes at most `n` bytes. -/
def atWrite (cfg : Config κ ε β) (s : State κ ι ε β) (w : Writer ι) (evb : Evb)
    (towrite : List β) (n : ℕ) : Option (State κ ι ε β) :=
  if towrite.isEmpty then some (s.written w evb)
  else
    (s.listfd_set (s.kid evb)).map fun fd =>
      if (s.fds fd).closed then s.failed w evb
      else (s.writeFd cfg fd (towrite.take n)).setPc w (.write evb (towrite.drop n))

/-- The buffer goes to the list of the free ones, or is freed. -/
def atRelease (s : State κ ι ε β) (w : Writer ι) (evb : Evb) : State κ ι ε β :=
  match w with
  | .fini => s.setPc .fini .loop
  | w => { s.setPc w .loop with listevtfree := evb :: s.listevtfree }

/-- A round of the loop that closes the files: `_kaapi_write_header` and `close`. -/
def closeKid (cfg : Config κ ε β) (s : State κ ι ε β) (k : κ) : State κ ι ε β :=
  match s.listfd_set k with
  | none => s
  | some fd =>
      let file := s.fds fd
      { s with
        files := Function.update s.files file.kid
          (writeAt cfg.zero (s.files file.kid) 0 (cfg.header k))
        fds := Function.update s.fds fd ⟨file.kid, cfg.headerSize, true⟩ }

/-- The next step of a writer. -/
def writer (cfg : Config κ ε β) (s : State κ ι ε β) (w : Writer ι) (n : ℕ) :
    Option (State κ ι ε β) :=
  match s.pc w with
  | .loop => s.atLoop cfg w
  | .test evb => some (s.atTest cfg w evb)
  | .openFile evb => some (s.atOpen w evb)
  | .dummy evb => s.atDummy cfg w evb
  | .write evb towrite => s.atWrite cfg w evb towrite n
  | .release evb => some (s.atRelease w evb)
  -- a spurious wake-up
  | .asleep => some (s.setPc w .loop)
  | .join =>
      match s.pc .collector with
      | .exited => some (s.setPc w .loop)
      | _ => none
  | .close (k :: kids) => some ((s.closeKid cfg k).setPc w (.close kids))
  | .idle | .exited | .close [] => none

/-- `kaapi_eventrecorder_fini` is called after all threads have closed their buffers. -/
def fini (cfg : Config κ ε β) (s : State κ ι ε β) : Option (State κ ι ε β) :=
  match s.pc .fini with
  | .idle =>
      if ∀ k ∈ cfg.kids, s.thread k = .never ∨ s.thread k = .closed then
        some { (s.signal).setPc .fini .join with finalize_flushimator := true }
      else none
  | _ => none

/-- `kaapi_event_fencebuffers` is called. -/
def fencebuffers (s : State κ ι ε β) (i : ι) : Option (State κ ι ε β) :=
  match s.pc (.fence i) with
  | .idle => some (s.setPc (.fence i) .loop)
  | _ => none

end State

/-- The steps of the threads, the calls, and the steps of the writers with the bound on what a
`write` takes. -/
inductive Action (κ ι ε : Type) where
  | openbuffer (k : κ)
  | push (k : κ) (e : ε)
  | flush (k : κ)
  | reopen (k : κ)
  | close (k : κ)
  | fencebuffers (i : ι)
  | fini
  | writer (w : Writer ι) (n : ℕ)

def step (cfg : Config κ ε β) (s : State κ ι ε β) : Action κ ι ε → Option (State κ ι ε β)
  | .openbuffer k => s.openbuffer k
  | .push k e => s.push cfg k e
  | .flush k => s.enqueue k .flushed
  | .reopen k => s.reopen k
  | .close k => s.enqueue k .closed
  | .fencebuffers i => s.fencebuffers i
  | .fini => s.fini cfg
  | .writer w n => s.writer cfg w n

/-- After `kaapi_eventrecorder_init`. The files may be those of an earlier program. -/
structure Initial (s : State κ ι ε β) : Prop where
  brk : s.brk = 0
  thread : ∀ k, s.thread k = .never
  listevt : s.listevt = []
  listevtfree : s.listevtfree = []
  listfd_set : ∀ k, s.listfd_set k = none
  collector : s.pc .collector = .loop
  fence : ∀ i, s.pc (.fence i) = .idle
  fini : s.pc .fini = .idle
  finalize_flushimator : s.finalize_flushimator = false
  pushed : ∀ k, s.pushed k = []
  taken : s.taken = []

def system (cfg : Config κ ε β) : TransitionSystem (State κ ι ε β) (Action κ ι ε) where
  initial := Initial
  step := step cfg

/-- The buffers of a kid that are taken and not written yet. -/
def State.unwritten (s : State κ ι ε β) (k : κ) : List Evb :=
  s.taken.filter fun evb => s.kid evb = k

/-- At the test of the descriptor, the buffer is the one that was taken first among the unwritten
ones of its kid. At the close of the file of a kid, no taken buffer of the kid is unwritten. -/
def State.PointInOrder (s : State κ ι ε β) : Pc κ β → Prop
  | .test evb => (s.unwritten (s.kid evb)).head? = some evb
  | .close (k :: _) => s.unwritten k = []
  | _ => True

instance (s : State κ ι ε β) (p : Pc κ β) : Decidable (s.PointInOrder p) :=
  match p with
  | .test evb => inferInstanceAs (Decidable ((s.unwritten (s.kid evb)).head? = some evb))
  | .close (k :: _) => inferInstanceAs (Decidable (s.unwritten k = []))
  | .close [] | .idle | .asleep | .join | .loop | .openFile _ | .dummy _ | .write _ _
  | .release _ | .exited => .isTrue trivial

/-- The writers start to write the buffers of a kid in the order in which they took them, and each
file is closed after them. -/
def InOrder (s : State κ ι ε β) : Action κ ι ε → Prop
  | .writer w _ => s.PointInOrder (s.pc w)
  | _ => True

instance (s : State κ ι ε β) (a : Action κ ι ε) : Decidable (InOrder s a) :=
  match a with
  | .writer w _ => inferInstanceAs (Decidable (s.PointInOrder (s.pc w)))
  | .openbuffer _ | .push _ _ | .flush _ | .reopen _ | .close _ | .fencebuffers _ | .fini =>
      .isTrue trivial

/-- `kaapi_eventrecorder_fini` has closed all files. -/
def State.Finished (s : State κ ι ε β) : Prop :=
  s.pc .fini = .close []

end Step

end Xkblas.Trace.Recorder
