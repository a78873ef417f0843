import Xkblas.Library.KeyedMachine
import Xkblas.Trace.Reader

/-!
# The converter of traces

`ukilli --csv` reads the files of a trace with `ReadFiles`, whose callback is `callback_main`, and
writes five tables in CSV format: the threads, the tasks, the copies and the kernels of the GPUs,
and the calls of the library. The callback keeps what it knows of each of them in a map until it
sees the end, and then flushes it to the table.

A row has the values that are printed. A time is the double that is printed, which has not all the
digits of a date. A word of an event is a union of 64 bits. What the callback prints about an event
that it does not accept is a warning, and a step that has undefined behaviour is `none`.
-/

namespace Xkblas.Trace.Converter

open Library

/-! ## Events -/

/-- `kaapi_event_data_t`. -/
abbrev EventData := BitVec 64

/-- The member `i32` of the union, as it is converted to `int`. -/
def EventData.i32 (d : EventData) (j : ℕ) : ℤ :=
  (d.extractLsb' (32 * j) 32).toInt

/-- The members `i8` and `c8` of the union. -/
def EventData.i8 (d : EventData) (j : ℕ) : BitVec 8 :=
  d.extractLsb' (8 * j) 8

/-- The fields of `kaapi_event_t` other than the date. -/
structure EventBody where
  evtno : BitVec 6
  kind : BitVec 2
  kid : BitVec 16
  d0 : EventData
  d1 : EventData
  d2 : EventData
  d3 : EventData
  deriving DecidableEq

/-- `kaapi_event_t`. -/
abbrev KaapiEvent := Event EventBody

/-- The numbers of the events that the callback looks at. -/
def evtKproc : BitVec 6 := 0#6

def evtTaskExec : BitVec 6 := 2#6

def evtOffloadCpy : BitVec 6 := 7#6

def evtOffloadKern : BitVec 6 := 8#6

def evtTasksync : BitVec 6 := 9#6

def evtCall : BitVec 6 := 13#6

/-! ## What the callback keeps -/

/-- `state_t::delay`, with the dates of the start and the stop. -/
def delay (t_start t_stop : Date) : ℕ :=
  if t_stop < t_start then 2 ^ 64 - 1 else t_stop.val - t_start.val

/-- `kproc_t`. -/
structure Kproc where
  t_start : Date
  t_stop : Date
  kid : BitVec 16
  type : ℤ
  deriving DecidableEq

/-- `task_info`. The date of the asynchronous start is uninitialized at first. -/
structure TaskInfo where
  t_push : Date
  t_start : Date
  t_stop : Date
  t_async : Option Date
  t_delay : EventData
  kid : BitVec 16
  task : EventData
  fmtid : EventData
  arg : EventData
  deriving DecidableEq

/-- `task_cpy`. The delay is uninitialized until the end of the copy. -/
structure TaskCpy where
  t_push : Date
  t_start : Date
  t_stop : Date
  t_delay : Option EventData
  kid : BitVec 16
  task : EventData
  src_kid : ℤ
  dest_kid : ℤ
  size : EventData
  dir : BitVec 8
  stream : BitVec 8
  deriving DecidableEq

/-- The fields of `task_ker` that the push of the kernel writes. -/
structure KerPush where
  kid : BitVec 16
  taskid : EventData
  task : EventData
  fmtid : EventData
  stream : BitVec 8
  deriving DecidableEq

/-- `task_ker`. The fields of `push` are uninitialized until the push is seen, and the delay until
the end. -/
structure TaskKer where
  t_push : Date
  t_start : Date
  t_stop : Date
  t_delay : Option EventData
  push : Option KerPush
  deriving DecidableEq

/-- `call_info`. The number of the parameters is the length of their list. -/
structure CallInfo where
  t_start : Date
  t_stop : Date
  kid : BitVec 16
  level : ℕ
  name : List (BitVec 8)
  param : List EventData
  deriving DecidableEq

/-- What the callback prints about an event. The last one is printed by a flush. -/
inductive Warning where
  | badDate (kid : BitVec 16)
  | unknownType (type : ℤ)
  | kprocStarted (kid : BitVec 16)
  | unknownKproc (kid : BitVec 16)
  | taskExists (task : EventData)
  | unknownTask (task : EventData)
  | cpyExists (task : EventData)
  | unknownCpy (task : EventData)
  | unknownKer (kid : BitVec 16) (date : Date) (task : EventData)
  | unknownKid (kid : BitVec 16)
  deriving DecidableEq

/-- What an event makes of an entry: it is flushed, or there is a warning. -/
inductive Output (ρ : Type) where
  | flush (x : ρ)
  | warn (w : Warning)
  deriving DecidableEq

/-- The date `0`. -/
def zeroDate : Date :=
  ⟨0, by decide⟩

/-! ## The cases of the callback

Each one finds the entry in its map, and sets it to the result. -/

/-- `KAAPI_EVT_KPROC`. -/
def kproc (event : KaapiEvent) (iter : Option Kproc) : Option Kproc × List (Output Kproc) :=
  let type := event.body.d0.i32 0
  let kid := event.body.kid
  if type < 0 ∨ 3 < type then (iter, [.warn (.unknownType type)])
  else if event.body.kind = 0#2 then
    match iter with
    | some kp => (some kp, [.warn (.kprocStarted kid)])
    | none => (some ⟨event.date, zeroDate, kid, type⟩, [])
  else if event.body.kind = 1#2 then
    match iter with
    | none => (none, [.warn (.unknownKproc kid)])
    | some kp =>
        let kp := { kp with t_stop := event.date }
        (some kp, [.flush kp])
  else (iter, [])

/-- `KAAPI_EVT_TASK_EXEC`. -/
def taskExec (event : KaapiEvent) (iter : Option TaskInfo) :
    Option TaskInfo × List (Output TaskInfo) :=
  let task := event.body.d0
  if event.body.kind = 0#2 then
    match iter with
    | some ti => (some ti, [.warn (.taskExists task)])
    | none => (some ⟨event.date, zeroDate, zeroDate, none, 0#64, event.body.kid, task,
        event.body.d1, event.body.d2⟩, [])
  else
    match iter with
    | none => (none, [.warn (.unknownTask task)])
    | some ti =>
        if event.body.kind = 1#2 then (some { ti with t_async := some event.date }, [])
        else if event.body.kind = 2#2 then (some { ti with t_start := event.date }, [])
        else (none, [.flush { ti with t_stop := event.date, t_delay := event.body.d3 }])

/-- `KAAPI_EVT_OFFLOAD_CPY`. -/
def offloadCpy (event : KaapiEvent) (iter : Option TaskCpy) :
    Option TaskCpy × List (Output TaskCpy) :=
  let taskid := event.body.d0
  if event.body.kind = 0#2 then
    match iter with
    | some ti => (some ti, [.warn (.cpyExists taskid)])
    | none => (some ⟨event.date, zeroDate, zeroDate, none, event.body.kid, taskid,
        event.body.d1.i32 0, event.body.d1.i32 1, event.body.d2, event.body.d3.i8 0,
        event.body.d3.i8 1⟩, [])
  else if event.body.kind = 1#2 then
    match iter with
    | none => (none, [.warn (.unknownCpy taskid)])
    | some ti => (some { ti with t_start := event.date }, [])
  else if event.body.kind = 2#2 then
    match iter with
    | none => (none, [.warn (.unknownCpy taskid)])
    | some ti => (none, [.flush { ti with t_stop := event.date, t_delay := some event.body.d1 }])
  else (iter, [])

/-- The constructor of `task_ker`. -/
def TaskKer.new : TaskKer :=
  ⟨zeroDate, zeroDate, zeroDate, none, none⟩

/-- `KAAPI_EVT_OFFLOAD_KERN`. The push and the start come in any order. -/
def offloadKern (event : KaapiEvent) (iter : Option TaskKer) :
    Option TaskKer × List (Output TaskKer) :=
  let taskid := event.body.d0
  if event.body.kind = 0#2 then
    let ti := iter.getD TaskKer.new
    (some { ti with
      t_push := event.date
      push := some ⟨event.body.kid, taskid, event.body.d1, event.body.d2, event.body.d3.i8 0⟩ }, [])
  else if event.body.kind = 1#2 then
    let ti := iter.getD TaskKer.new
    (some { ti with t_start := event.date }, [])
  else if event.body.kind = 2#2 then
    match iter with
    | none => (none, [.warn (.unknownKer event.body.kid event.date taskid)])
    | some ti => (none, [.flush { ti with t_stop := event.date, t_delay := some event.body.d1 }])
  else (iter, [])

/-- `strncpy` of the name into the seven bytes before the last one, up to the null character. -/
def callName (d : EventData) : List (BitVec 8) :=
  ((List.range 7).map d.i8).takeWhile fun c => c ≠ 0#8

/-- `KAAPI_EVT_CALL`. The information is about the last call, whose parameters have 16 places. -/
def call (event : KaapiEvent) (l : List CallInfo) :
    Option (List CallInfo × List (Output CallInfo)) :=
  let b := event.body
  if b.kind = 0#2 then
    some (l ++ [⟨event.date, zeroDate, b.kid, 0, callName b.d0, [b.d1, b.d2, b.d3]⟩], [])
  else if b.kind = 1#2 then some (l, [])
  else
    match l.getLast? with
    | none => none
    | some ci =>
        if ci.param.length + 4 ≤ 16 then
          some (l.dropLast ++ [{ ci with param := ci.param ++ [b.d0, b.d1, b.d2, b.d3] }], [])
        else none

/-- `KAAPI_EVT_TASKSYNC`. The end of the synchronization flushes the calls of the thread. -/
def tasksync (event : KaapiEvent) (l : List CallInfo) : List CallInfo × List (Output CallInfo) :=
  if event.body.kind = 1#2 then
    ([], l.zipIdx.map fun p => .flush { p.1 with t_stop := event.date, level := p.2 })
  else (l, [])

/-! ## The tables -/

/-- The nearest double of a natural number, of two the one whose mantissa is even. -/
def toDouble (n : ℕ) : ℕ :=
  let ulp := 2 ^ (n.log2 + 1 - 53)
  let q := n / ulp
  let r := n % ulp
  ulp * if 2 * r < ulp ∨ 2 * r = ulp ∧ q % 2 = 0 then q else q + 1

/-- A time in seconds: a double, in units of `2 ^ -82`. -/
abbrev Seconds := ℕ

/-- The constant `1e-9`, which is not a double itself. -/
def nano : Seconds :=
  4835703278458517

/-- `ns2s`: the product is rounded as the conversion is. -/
def ns2s (v : ℕ) : Seconds :=
  toDouble (toDouble v * nano)

/-- Two dates that are 99 nanoseconds apart are printed alike. -/
example : ns2s 1700000000000000001 = ns2s 1700000000000000100 := by decide

/-- A row of `parallel.csv`. The name of the thread is `type-resource`. -/
structure KprocRow where
  resource : BitVec 16
  type : String
  start : Seconds
  stop : Seconds
  duration : Seconds
  deriving DecidableEq

/-- A row of `task.csv`. -/
structure TaskRow where
  resource : BitVec 16
  type : String
  push : Seconds
  start : Seconds
  stop : Seconds
  duration : Seconds
  name : String
  taskId : EventData
  deriving DecidableEq

/-- A row of `cpy.csv`. -/
structure CpyRow where
  resource : BitVec 16
  type : String
  stream : BitVec 8
  push : Seconds
  start : Seconds
  stop : Seconds
  duration : Seconds
  size : EventData
  dir : BitVec 8
  deriving DecidableEq

/-- A row of `kern.csv`. -/
structure KernRow where
  resource : BitVec 16
  type : String
  stream : BitVec 8
  push : Seconds
  start : Seconds
  stop : Seconds
  duration : Seconds
  name : String
  taskId : EventData
  deriving DecidableEq

/-- A row of `call.csv`. There are 16 parameters, the last ones of which are `0`. -/
structure CallRow where
  resource : BitVec 16
  level : ℕ
  start : Seconds
  stop : Seconds
  duration : Seconds
  name : List (BitVec 8)
  nparam : ℕ
  params : List EventData
  deriving DecidableEq

/-- `csv_parallel_region_t`, with the rows of its files and what has been printed. -/
structure ParallelRegion where
  container_kproc : BitVec 16 → Option Kproc
  container_task : EventData → Option TaskInfo
  container_task_cpy : EventData → Option TaskCpy
  container_task_ker : EventData → Option TaskKer
  container_call_info : BitVec 16 → List CallInfo
  fout_parallel : List KprocRow
  fout_task : List TaskRow
  fout_cpy : List CpyRow
  fout_kern : List KernRow
  fout_call : List CallRow
  warnings : List Warning

/-- The constructor of `csv_parallel_region_t`, with the files that `openfile` has opened. -/
def ParallelRegion.empty : ParallelRegion where
  container_kproc := fun _ => none
  container_task := fun _ => none
  container_task_cpy := fun _ => none
  container_task_ker := fun _ => none
  container_call_info := fun _ => []
  fout_parallel := []
  fout_task := []
  fout_cpy := []
  fout_kern := []
  fout_call := []
  warnings := []

/-- An entry of `fmtdefs` in the header of the trace. -/
structure FmtDef where
  fmtid : EventData
  name : String

/-- The name that `all_fmtname` has, into which `openfile` inserts the definitions with an
identifier. The first one of an identifier stays. -/
def fmtName (fmtdefs : List FmtDef) (fmtid : EventData) : String :=
  match (fmtdefs.filter fun f => f.fmtid ≠ 0#64).find? fun f => f.fmtid = fmtid with
  | none => "unkown"
  | some f => f.name

/-- `type_name[type]`. -/
def typeName (type : ℤ) : Option String :=
  if 0 ≤ type then ["CPU", "CUDA", "HIP", "INT"][type.toNat]? else none

namespace ParallelRegion

/-- `type_name[container_kproc[kid].type]`. A thread that is not known is inserted with the type
`-1`, beside the array. -/
def typeOf (r : ParallelRegion) (kid : BitVec 16) : Option String :=
  (r.container_kproc kid).bind fun kp => typeName kp.type

def warn (r : ParallelRegion) (w : Warning) : ParallelRegion :=
  { r with warnings := r.warnings ++ [w] }

/-- `flush(kproc_t*)`. -/
def flushKproc (r : ParallelRegion) (kp : Kproc) : Option ParallelRegion :=
  (typeName kp.type).map fun type =>
    { r with fout_parallel := r.fout_parallel ++
        [⟨kp.kid, type, ns2s kp.t_start, ns2s kp.t_stop, ns2s (delay kp.t_start kp.t_stop)⟩] }

end ParallelRegion

/-- The row of a task on a thread with this type. -/
def taskRow (fmtdefs : List FmtDef) (type : String) (ti : TaskInfo) : TaskRow :=
  ⟨ti.kid, type, ns2s ti.t_push, ns2s ti.t_start, ns2s ti.t_stop, ns2s ti.t_delay.toNat,
    fmtName fmtdefs ti.fmtid, ti.task⟩

/-- The row of a copy. -/
def cpyRow (type : String) (ti : TaskCpy) (t_delay : EventData) : CpyRow :=
  ⟨ti.kid, type, ti.stream, ns2s ti.t_push, ns2s ti.t_start, ns2s ti.t_stop, ns2s t_delay.toNat,
    ti.size, ti.dir⟩

/-- The row of a kernel. -/
def kernRow (fmtdefs : List FmtDef) (type : String) (ti : TaskKer) (p : KerPush)
    (t_delay : EventData) : KernRow :=
  ⟨p.kid, type, p.stream, ns2s ti.t_push, ns2s ti.t_start, ns2s ti.t_stop, ns2s t_delay.toNat,
    fmtName fmtdefs p.fmtid, p.task⟩

/-- The row of a call. -/
def callRow (ci : CallInfo) : CallRow :=
  ⟨ci.kid, ci.level, ns2s ci.t_start, ns2s ci.t_stop, ns2s (delay ci.t_start ci.t_stop), ci.name,
    ci.param.length, ci.param ++ List.replicate (16 - ci.param.length) 0#64⟩

namespace ParallelRegion

/-- `flush(task_info*)`. -/
def flushTask (fmtdefs : List FmtDef) (r : ParallelRegion) (ti : TaskInfo) :
    Option ParallelRegion :=
  (r.typeOf ti.kid).map fun type =>
    { r with fout_task := r.fout_task ++ [taskRow fmtdefs type ti] }

/-- `flush(task_cpy*)`. A copy of a thread that is not known has no row. -/
def flushCpy (r : ParallelRegion) (ti : TaskCpy) : Option ParallelRegion :=
  match r.container_kproc ti.kid with
  | none => some (r.warn (.unknownKid ti.kid))
  | some kp => (typeName kp.type).bind fun type => ti.t_delay.map fun t_delay =>
      { r with fout_cpy := r.fout_cpy ++ [cpyRow type ti t_delay] }

/-- `flush(task_ker*)`. -/
def flushKer (fmtdefs : List FmtDef) (r : ParallelRegion) (ti : TaskKer) :
    Option ParallelRegion :=
  ti.push.bind fun p => (r.typeOf p.kid).bind fun type => ti.t_delay.map fun t_delay =>
    { r with fout_kern := r.fout_kern ++ [kernRow fmtdefs type ti p t_delay] }

/-- `flush(call_info*)`. -/
def flushCall (r : ParallelRegion) (ci : CallInfo) : Option ParallelRegion :=
  some { r with fout_call := r.fout_call ++ [callRow ci] }

/-- The flushes and warnings of an event. -/
def outputs {ρ : Type} (flush : ParallelRegion → ρ → Option ParallelRegion) (r : ParallelRegion)
    (outs : List (Output ρ)) : Option ParallelRegion :=
  outs.foldlM (fun r o =>
    match o with
    | .flush x => flush r x
    | .warn w => some (r.warn w)) r

end ParallelRegion

/-- `callback_main`. -/
def callbackMain (fmtdefs : List FmtDef) (r : ParallelRegion) (event : KaapiEvent) :
    Option ParallelRegion :=
  let kid := event.body.kid
  let d0 := event.body.d0
  if event.date = zeroDate then some (r.warn (.badDate kid))
  else if event.body.evtno = evtKproc then
    let p := kproc event (r.container_kproc kid)
    ({ r with container_kproc := Function.update r.container_kproc kid p.1 }).outputs
      ParallelRegion.flushKproc p.2
  else if event.body.evtno = evtTaskExec then
    let p := taskExec event (r.container_task d0)
    ({ r with container_task := Function.update r.container_task d0 p.1 }).outputs
      (ParallelRegion.flushTask fmtdefs) p.2
  else if event.body.evtno = evtOffloadCpy then
    let p := offloadCpy event (r.container_task_cpy d0)
    ({ r with container_task_cpy := Function.update r.container_task_cpy d0 p.1 }).outputs
      ParallelRegion.flushCpy p.2
  else if event.body.evtno = evtOffloadKern then
    let p := offloadKern event (r.container_task_ker d0)
    ({ r with container_task_ker := Function.update r.container_task_ker d0 p.1 }).outputs
      (ParallelRegion.flushKer fmtdefs) p.2
  else if event.body.evtno = evtTasksync then
    let p := tasksync event (r.container_call_info kid)
    ({ r with container_call_info := Function.update r.container_call_info kid p.1 }).outputs
      ParallelRegion.flushCall p.2
  else if event.body.evtno = evtCall then
    (call event (r.container_call_info kid)).bind fun p =>
      ({ r with container_call_info := Function.update r.container_call_info kid p.1 }).outputs
        ParallelRegion.flushCall p.2
  else some r

/-- The calls of `callback_main` on the events of a trace. -/
def convert (fmtdefs : List FmtDef) (events : List KaapiEvent) (r : ParallelRegion) :
    Option ParallelRegion :=
  events.foldlM (callbackMain fmtdefs) r

/-- `fnc_csv`, with at most `fuel` tests of the loop of `ReadFiles`. The definitions of the formats
are those of the header that `GetHeader` reads. -/
def fncCsv (q : PriorityQueue) (fuel : ℕ) (sz : Sizes) (fmtdefs : List FmtDef)
    (files : List (TraceFile EventBody)) : Option ParallelRegion :=
  (openFiles sz files).bind fun fdset => (readFiles q fuel fdset).bind fun t =>
    convert fmtdefs (t.calls.map Prod.snd) .empty

end Xkblas.Trace.Converter
