import Mathlib.Algebra.Group.Nat.Defs
import Mathlib.Logic.Function.Basic
import Xkblas.Library.BitMask

/-!
# Performance counters

The tracing functions read the counters of a set with `kaapi_tracelib_thread_read` into an array,
one after the other. The array is the register file of the thread itself, except for the collector
of uncore counters, which has an array of its own. `kaapi_event_push_perfctr` then writes the values
into events, two of them in each, and the reader of a trace takes them out again.

A set is a word of 64 bits. The loops take its positions out with `__builtin_ffsl`
(`BitMask.positions`). The values are those of a type `ν`. A counter of a reader or of PAPI has the
value that it returns in this call. A failed assertion is `none`.
-/

namespace Xkblas.Trace.PerfCounters

open Library.BitMask

variable {ν : Type}

/-- `KAAPI_PERF_ID_ENDSOFTWARE` -/
def endSoftware : ℕ :=
  36

/-- The classes of counters. -/
inductive Kind where
  | unset
  | library
  | papi
  | papiUncore
  | user
  deriving DecidableEq, Repr

/-- The fields of `kaapi_perfctr_info` that a read needs. A reader is what it returns. -/
structure PerfctrInfo (ν : Type) where
  kind : Kind
  reader : Option ν

/-- What a thread knows of the counters. The counters of its PAPI event set are in `papiIds`. The
software counters are not created as user counters, and `papiEventMask` has PAPI counters. -/
structure Kproc (ν : Type) where
  info : ℕ → PerfctrInfo ν
  papiEventMask : BitVec 64
  papiIds : List ℕ
  papiOk : Bool
  papiValue : ℕ → ν
  software_kind : ∀ i, i < endSoftware → (info i).kind ≠ .user
  papi_kind : ∀ i, papiEventMask.getLsbD i = true → (info i).kind ≠ .user

/-- The register file of the thread, and the array of the collector. -/
structure Memory (ν : Type) where
  perfRegs : ℕ → ν
  regs : ℕ → ν

/-- The array that a tracing function passes. -/
inductive Dest where
  | perfRegs
  | regs
  deriving DecidableEq, Repr

def Memory.get (m : Memory ν) : Dest → ℕ → ν
  | .perfRegs => m.perfRegs
  | .regs => m.regs

def Memory.set (m : Memory ν) (dst : Dest) (k : ℕ) (v : ν) : Memory ν :=
  match dst with
  | .perfRegs => { m with perfRegs := Function.update m.perfRegs k v }
  | .regs => { m with regs := Function.update m.regs k v }

/-! ## Reading -/

/-- `*regs = v; ++regs` -/
def store (dst : Dest) (s : ℕ × Memory ν) (v : ν) : ℕ × Memory ν :=
  (s.1 + 1, s.2.set dst s.1 v)

/-- The copy of a software register, which may have been overwritten. -/
def copySoftware (dst : Dest) (s : ℕ × Memory ν) (i : ℕ) : ℕ × Memory ν :=
  store dst s (s.2.perfRegs i)

/-- `PAPI_read` with its assertion. It stores the values of all counters of the event set. -/
def readPapi (kproc : Kproc ν) (dst : Dest) (s : ℕ × Memory ν) : Option (ℕ × Memory ν) :=
  if kproc.papiOk = true then
    some ((kproc.papiIds.map kproc.papiValue).foldl (store dst) s)
  else none

/-- One turn of the loop for user counters. -/
def readUser (kproc : Kproc ν) (dst : Dest) (s : ℕ × Memory ν) (i : ℕ) : Option (ℕ × Memory ν) :=
  if (kproc.info i).kind = .user then (kproc.info i).reader.map (store dst s) else none

/-- The software counters, `(1UL << KAAPI_PERF_ID_ENDSOFTWARE) - 1`. -/
def softwareMask : BitVec 64 :=
  BitVec.ofNat 64 (2 ^ endSoftware - 1)

/-- `kaapi_tracelib_thread_read`, with the number of values that it has stored. -/
def threadRead (kproc : Kproc ν) (idset : BitVec 64) (dst : Dest) (m : Memory ν) :
    Option (ℕ × Memory ν) :=
  let s := (positions (idset &&& softwareMask)).foldl (copySoftware dst) (0, m)
  (if idset &&& kproc.papiEventMask ≠ 0#64 then readPapi kproc dst s else some s).bind fun s =>
    (positions idset).foldlM (readUser kproc dst) s

/-! ## Events -/

/-- The parameters of an event. -/
structure Header where
  evtno : ℕ
  kind : ℕ
  kid : ℕ
  date : ℕ
  d0 : ℕ
  deriving DecidableEq, Repr

/-- An event of counters: the bytes of `data[1]`, and `data[2]` and `data[3]`. -/
structure Event (ν : Type) where
  header : Header
  marks : ℕ → ℕ
  data : ℕ → ν

/-- `KAAPI_EVENT_BUFFER_SIZE` -/
def bufferSize : ℕ :=
  65520

/-- The events of the buffers that have been flushed, the buffer of the thread, and what the next
buffers hold when they come from `malloc` or the free list. -/
structure Buffers (ν : Type) where
  flushed : List (Event ν)
  buffer : ℕ → Event ν
  pos : ℕ
  fresh : ℕ → ℕ → Event ν

/-- All events up to now. -/
def Buffers.events (evb : Buffers ν) : List (Event ν) :=
  evb.flushed ++ (List.range evb.pos).map evb.buffer

/-- `kaapi_event_flushbuffer` -/
def Buffers.flush (evb : Buffers ν) : Buffers ν :=
  ⟨evb.events, evb.fresh 0, 0, fun n => evb.fresh (n + 1)⟩

/-- The test before a new event. -/
def Buffers.reserve (evb : Buffers ν) : Buffers ν :=
  if bufferSize ≤ evb.pos + 1 then evb.flush else evb

/-- The next slot gets its header. -/
def Buffers.startEvent (evb : Buffers ν) (header : Header) : Buffers ν :=
  { evb with
    buffer := Function.update evb.buffer evb.pos { evb.buffer evb.pos with header := header }
    pos := evb.pos + 1 }

/-- The variables of `kaapi_event_push_perfctr`. The current event is a slot of the buffer. -/
structure PushState (ν : Type) where
  evb : Buffers ν
  evt : Option ℕ
  cnt : ℕ
  i : ℕ

/-- A counter in an event. The mark of the next one says that it is unused. -/
def Event.put (e : Event ν) (cnt idx : ℕ) (v : ν) : Event ν :=
  { e with
    marks := Function.update (Function.update e.marks cnt (idx % 2 ^ 8)) (cnt + 1) 255
    data := Function.update e.data (cnt + 2) v }

/-- The current event, or a new one. -/
def PushState.current (s : PushState ν) (header : Header) : Buffers ν × ℕ :=
  match s.evt with
  | some evt => (s.evb, evt)
  | none => (s.evb.reserve.startEvent header, s.evb.reserve.pos)

/-- One turn of the loop of `kaapi_event_push_perfctr`. -/
def pushCounter (header : Header) (perfctr : ℕ → ν) (s : PushState ν) (idx : ℕ) : PushState ν :=
  let evb := (s.current header).1
  let evt := (s.current header).2
  let buffer := Function.update evb.buffer evt ((evb.buffer evt).put s.cnt idx (perfctr s.i))
  if s.cnt + 1 = 2 then ⟨{ evb with buffer := buffer }, none, 0, s.i + 1⟩
  else ⟨{ evb with buffer := buffer }, some evt, s.cnt + 1, s.i + 1⟩

/-- `kaapi_event_push_perfctr` -/
def eventPushPerfctr (header : Header) (idset : BitVec 64) (perfctr : ℕ → ν) (evb : Buffers ν) :
    Buffers ν :=
  ((positions idset).foldl (pushCounter header perfctr) ⟨evb, none, 0, 0⟩).evb

/-- The loop of the reader of a trace over the counters of an event. -/
def Event.decode (e : Event ν) : List (ℕ × ν) :=
  ((List.range 2).takeWhile fun i => e.marks i != 255).map fun i => (e.marks i, e.data (i + 2))

end Xkblas.Trace.PerfCounters
