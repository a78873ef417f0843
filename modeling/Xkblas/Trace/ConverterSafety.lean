import Xkblas.Trace.ConverterRuns

/-!
# The converter writes what the trace has recorded

A `Recording` is what happened: the threads with their calls, the tasks, the copies and the kernels
that have ended, and the events of those that have not. Its events are in the files of the threads,
each in the order of their dates. `csv_rows` says that `ukilli --csv` then writes a row for each
thread that has stopped, each task, copy and kernel that has ended, and each call before the last
synchronization of its thread, with the values that were recorded, and no other row.
-/

namespace Xkblas.Trace.Converter

open Library KeyedMachine

/-! ## Lives -/

/-- An event with this number and kind about a task, a copy or a kernel. -/
structure IsEvent (evtno : BitVec 6) (kind : BitVec 2) (d0 : EventData) (e : KaapiEvent) :
    Prop where
  evtno : e.body.evtno = evtno
  kind : e.body.kind = kind
  d0 : e.body.d0 = d0

/-- The events of a task that has ended. A task of a GPU has an asynchronous start. -/
structure TaskLife where
  task : EventData
  push : KaapiEvent
  async : Option KaapiEvent
  start : KaapiEvent
  stop : KaapiEvent
  push_is : IsEvent evtTaskExec 0#2 task push
  async_is : ∀ e ∈ async.toList, IsEvent evtTaskExec 1#2 task e
  start_is : IsEvent evtTaskExec 2#2 task start
  stop_is : IsEvent evtTaskExec 3#2 task stop

/-- The events of a copy that has ended. -/
structure CpyLife where
  taskid : EventData
  push : KaapiEvent
  start : KaapiEvent
  stop : KaapiEvent
  push_is : IsEvent evtOffloadCpy 0#2 taskid push
  start_is : IsEvent evtOffloadCpy 1#2 taskid start
  stop_is : IsEvent evtOffloadCpy 2#2 taskid stop

/-- The events of a kernel that has ended. The device thread may start it before the thread that
pushes it writes its event. -/
structure KerLife where
  taskid : EventData
  push : KaapiEvent
  start : KaapiEvent
  stop : KaapiEvent
  early : Bool
  push_is : IsEvent evtOffloadKern 0#2 taskid push
  start_is : IsEvent evtOffloadKern 1#2 taskid start
  stop_is : IsEvent evtOffloadKern 2#2 taskid stop

/-- The events of a call. -/
structure CallLife where
  start : KaapiEvent
  infos : List KaapiEvent
  start_is : start.body.evtno = evtCall ∧ start.body.kind = 0#2
  infos_are : ∀ e ∈ infos, e.body.evtno = evtCall ∧ e.body.kind ≠ 0#2 ∧ e.body.kind ≠ 1#2
  infos_le : infos.length ≤ 3

/-- The calls of a thread up to a synchronization. -/
structure CallGroup where
  calls : List CallLife
  sync : KaapiEvent
  sync_is : sync.body.evtno = evtTasksync ∧ sync.body.kind = 1#2

section Task

namespace TaskLife

def events (a : TaskLife) : List KaapiEvent :=
  a.push :: (a.async.toList ++ [a.start, a.stop])

/-- What is flushed. -/
def info (a : TaskLife) : TaskInfo where
  t_push := a.push.date
  t_start := a.start.date
  t_stop := a.stop.date
  t_async := a.async.map Event.date
  t_delay := a.stop.body.d3
  kid := a.push.body.kid
  task := a.task
  fmtid := a.push.body.d1
  arg := a.push.body.d2

/-- The row of a task. -/
def row (fmtdefs : List FmtDef) (T : BitVec 16 → String) (a : TaskLife) : TaskRow where
  resource := a.push.body.kid
  type := T a.push.body.kid
  push := ns2s a.push.date
  start := ns2s a.start.date
  stop := ns2s a.stop.date
  duration := ns2s a.stop.body.d3.toNat
  name := fmtName fmtdefs a.push.body.d1
  taskId := a.task

end TaskLife

variable {e : KaapiEvent} {ti : TaskInfo}

theorem taskExec_push (h : e.body.kind = 0#2) : taskExec e none = (some ⟨e.date, zeroDate, zeroDate,
    none, 0#64, e.body.kid, e.body.d0, e.body.d1, e.body.d2⟩, []) :=
  if_pos h

theorem taskExec_async (h : e.body.kind = 1#2) :
    taskExec e (some ti) = (some { ti with t_async := some e.date }, []) := by
  unfold taskExec
  dsimp only
  rw [if_neg (by rw [h]; decide), if_pos h]

theorem taskExec_start (h : e.body.kind = 2#2) :
    taskExec e (some ti) = (some { ti with t_start := e.date }, []) := by
  unfold taskExec
  dsimp only
  rw [if_neg (by rw [h]; decide), if_neg (by rw [h]; decide), if_pos h]

theorem taskExec_stop (h : e.body.kind = 3#2) : taskExec e (some ti) =
    (none, [.flush { ti with t_stop := e.date, t_delay := e.body.d3 }]) := by
  unfold taskExec
  dsimp only
  rw [if_neg (by rw [h]; decide), if_neg (by rw [h]; decide), if_neg (by rw [h]; decide)]

/-- A task that ends leaves no entry. -/
theorem tasks_life (a : TaskLife) :
    tasks.entry none a.events = some (none, [.flush a.info]) := by
  have hpush : tasks.step a.push none = some (some ⟨a.push.date, zeroDate, zeroDate, none, 0#64,
      a.push.body.kid, a.task, a.push.body.d1, a.push.body.d2⟩, []) := by
    rw [← a.push_is.d0]
    exact congrArg some (taskExec_push a.push_is.kind)
  have hend : ∀ ti : TaskInfo, tasks.entry (some ti) [a.start, a.stop] = some (none,
      [.flush { ti with
        t_start := a.start.date, t_stop := a.stop.date, t_delay := a.stop.body.d3 }]) := fun ti =>
    entry_silent (congrArg some (taskExec_start a.start_is.kind))
      (entry_singleton (congrArg some (taskExec_stop a.stop_is.kind)))
  refine entry_silent hpush ?_
  cases hasync : a.async with
  | none =>
      have hinfo : a.info = ⟨a.push.date, a.start.date, a.stop.date, none, a.stop.body.d3,
          a.push.body.kid, a.task, a.push.body.d1, a.push.body.d2⟩ := by
        unfold TaskLife.info
        rw [hasync]
        rfl
      rw [hinfo]
      exact hend _
  | some e =>
      have he := a.async_is e (by rw [hasync]; exact List.mem_cons_self)
      have hinfo : a.info = ⟨a.push.date, a.start.date, a.stop.date, some e.date, a.stop.body.d3,
          a.push.body.kid, a.task, a.push.body.d1, a.push.body.d2⟩ := by
        unfold TaskLife.info
        rw [hasync]
        rfl
      rw [hinfo]
      exact entry_silent (congrArg some (taskExec_async he.kind)) (hend _)

/-- The events of a task that has not ended: it has been pushed, and perhaps been started. -/
def OpenTask (task : EventData) (l : List KaapiEvent) : Prop :=
  l = [] ∨ ∃ push rest, l = push :: rest ∧ IsEvent evtTaskExec 0#2 task push ∧
    ∀ e ∈ rest, IsEvent evtTaskExec 1#2 task e ∨ IsEvent evtTaskExec 2#2 task e

theorem tasks_open {task : EventData} {l : List KaapiEvent} (h : OpenTask task l) :
    ∃ y, tasks.entry none l = some (y, []) := by
  obtain rfl | ⟨push, rest, rfl, hpush, hall⟩ := h
  · exact ⟨none, rfl⟩
  · -- the entry is there after the push
    have hrest : ∀ e ∈ rest, ∀ x, (∃ ti, x = some ti) →
        ∃ y, (∃ ti, y = some ti) ∧ tasks.step e x = some (y, []) := by
      rintro e he _ ⟨ti, rfl⟩
      rcases hall e he with he | he
      · exact ⟨_, ⟨_, rfl⟩, congrArg some (taskExec_async he.kind)⟩
      · exact ⟨_, ⟨_, rfl⟩, congrArg some (taskExec_start he.kind)⟩
    obtain ⟨y, hy⟩ := exists_entry_silent hrest ⟨_, rfl⟩
    exact ⟨y, entry_silent (congrArg some (taskExec_push hpush.kind)) hy⟩

end Task

section Copy

namespace CpyLife

def events (a : CpyLife) : List KaapiEvent :=
  [a.push, a.start, a.stop]

/-- What is flushed. -/
def info (a : CpyLife) : TaskCpy where
  t_push := a.push.date
  t_start := a.start.date
  t_stop := a.stop.date
  t_delay := some a.stop.body.d1
  kid := a.push.body.kid
  task := a.taskid
  src_kid := a.push.body.d1.i32 0
  dest_kid := a.push.body.d1.i32 1
  size := a.push.body.d2
  dir := a.push.body.d3.i8 0
  stream := a.push.body.d3.i8 1

/-- The row of a copy. -/
def row (T : BitVec 16 → String) (a : CpyLife) : CpyRow where
  resource := a.push.body.kid
  type := T a.push.body.kid
  stream := a.push.body.d3.i8 1
  push := ns2s a.push.date
  start := ns2s a.start.date
  stop := ns2s a.stop.date
  duration := ns2s a.stop.body.d1.toNat
  size := a.push.body.d2
  dir := a.push.body.d3.i8 0

end CpyLife

variable {e : KaapiEvent} {ti : TaskCpy}

theorem offloadCpy_push (h : e.body.kind = 0#2) : offloadCpy e none = (some ⟨e.date, zeroDate,
    zeroDate, none, e.body.kid, e.body.d0, e.body.d1.i32 0, e.body.d1.i32 1, e.body.d2,
    e.body.d3.i8 0, e.body.d3.i8 1⟩, []) :=
  if_pos h

theorem offloadCpy_start (h : e.body.kind = 1#2) :
    offloadCpy e (some ti) = (some { ti with t_start := e.date }, []) := by
  unfold offloadCpy
  dsimp only
  rw [if_neg (by rw [h]; decide), if_pos h]

theorem offloadCpy_stop (h : e.body.kind = 2#2) : offloadCpy e (some ti) =
    (none, [.flush { ti with t_stop := e.date, t_delay := some e.body.d1 }]) := by
  unfold offloadCpy
  dsimp only
  rw [if_neg (by rw [h]; decide), if_neg (by rw [h]; decide), if_pos h]

/-- A copy that ends leaves no entry. -/
theorem copies_life (a : CpyLife) :
    copies.entry none a.events = some (none, [.flush a.info]) := by
  have hpush : copies.step a.push none = some (some ⟨a.push.date, zeroDate, zeroDate, none,
      a.push.body.kid, a.taskid, a.push.body.d1.i32 0, a.push.body.d1.i32 1, a.push.body.d2,
      a.push.body.d3.i8 0, a.push.body.d3.i8 1⟩, []) := by
    rw [← a.push_is.d0]
    exact congrArg some (offloadCpy_push a.push_is.kind)
  exact entry_silent hpush (entry_silent (congrArg some (offloadCpy_start a.start_is.kind))
    (entry_singleton (congrArg some (offloadCpy_stop a.stop_is.kind))))

/-- The events of a copy that has not ended. -/
def OpenCpy (taskid : EventData) (l : List KaapiEvent) : Prop :=
  l = [] ∨ ∃ push rest, l = push :: rest ∧ IsEvent evtOffloadCpy 0#2 taskid push ∧
    ∀ e ∈ rest, IsEvent evtOffloadCpy 1#2 taskid e

theorem copies_open {taskid : EventData} {l : List KaapiEvent} (h : OpenCpy taskid l) :
    ∃ y, copies.entry none l = some (y, []) := by
  obtain rfl | ⟨push, rest, rfl, hpush, hall⟩ := h
  · exact ⟨none, rfl⟩
  · have hrest : ∀ e ∈ rest, ∀ x, (∃ ti, x = some ti) →
        ∃ y, (∃ ti, y = some ti) ∧ copies.step e x = some (y, []) := by
      rintro e he _ ⟨ti, rfl⟩
      exact ⟨_, ⟨_, rfl⟩, congrArg some (offloadCpy_start (hall e he).kind)⟩
    obtain ⟨y, hy⟩ := exists_entry_silent hrest ⟨_, rfl⟩
    exact ⟨y, entry_silent (congrArg some (offloadCpy_push hpush.kind)) hy⟩

end Copy

section Kernel

namespace KerLife

def events (a : KerLife) : List KaapiEvent :=
  if a.early = true then [a.start, a.push, a.stop] else [a.push, a.start, a.stop]

/-- What is flushed. -/
def info (a : KerLife) : TaskKer where
  t_push := a.push.date
  t_start := a.start.date
  t_stop := a.stop.date
  t_delay := some a.stop.body.d1
  push := some ⟨a.push.body.kid, a.taskid, a.push.body.d1, a.push.body.d2, a.push.body.d3.i8 0⟩

/-- The row of a kernel. -/
def row (fmtdefs : List FmtDef) (T : BitVec 16 → String) (a : KerLife) : KernRow where
  resource := a.push.body.kid
  type := T a.push.body.kid
  stream := a.push.body.d3.i8 0
  push := ns2s a.push.date
  start := ns2s a.start.date
  stop := ns2s a.stop.date
  duration := ns2s a.stop.body.d1.toNat
  name := fmtName fmtdefs a.push.body.d2
  taskId := a.push.body.d1

end KerLife

variable {e : KaapiEvent} {ti : TaskKer} {iter : Option TaskKer}

theorem offloadKern_push (h : e.body.kind = 0#2) : offloadKern e iter = (some {
    iter.getD TaskKer.new with
      t_push := e.date
      push := some ⟨e.body.kid, e.body.d0, e.body.d1, e.body.d2, e.body.d3.i8 0⟩ }, []) :=
  if_pos h

theorem offloadKern_start (h : e.body.kind = 1#2) :
    offloadKern e iter = (some { iter.getD TaskKer.new with t_start := e.date }, []) := by
  unfold offloadKern
  dsimp only
  rw [if_neg (by rw [h]; decide), if_pos h]

theorem offloadKern_stop (h : e.body.kind = 2#2) : offloadKern e (some ti) =
    (none, [.flush { ti with t_stop := e.date, t_delay := some e.body.d1 }]) := by
  unfold offloadKern
  dsimp only
  rw [if_neg (by rw [h]; decide), if_neg (by rw [h]; decide), if_pos h]

/-- A kernel that ends leaves no entry, in both orders of its start and its push. -/
theorem kernels_life (a : KerLife) :
    kernels.entry none a.events = some (none, [.flush a.info]) := by
  have hpush : ∀ iter, kernels.step a.push iter = some (some { iter.getD TaskKer.new with
      t_push := a.push.date
      push := some ⟨a.push.body.kid, a.taskid, a.push.body.d1, a.push.body.d2,
        a.push.body.d3.i8 0⟩ }, []) := fun iter => by
    rw [← a.push_is.d0]
    exact congrArg some (offloadKern_push a.push_is.kind)
  have hstart : ∀ iter, kernels.step a.start iter =
      some (some { iter.getD TaskKer.new with t_start := a.start.date }, []) := fun iter =>
    congrArg some (offloadKern_start a.start_is.kind)
  have hstop : ∀ ti, kernels.entry (some ti) [a.stop] = some (none,
      [.flush { ti with t_stop := a.stop.date, t_delay := some a.stop.body.d1 }]) := fun ti =>
    entry_singleton (congrArg some (offloadKern_stop a.stop_is.kind))
  unfold KerLife.events
  split
  · exact entry_silent (hstart none) (entry_silent (hpush _) (hstop _))
  · exact entry_silent (hpush none) (entry_silent (hstart _) (hstop _))

/-- The events of a kernel that has not ended. -/
def OpenKer (taskid : EventData) (l : List KaapiEvent) : Prop :=
  ∀ e ∈ l, IsEvent evtOffloadKern 0#2 taskid e ∨ IsEvent evtOffloadKern 1#2 taskid e

theorem kernels_open {taskid : EventData} {l : List KaapiEvent} (h : OpenKer taskid l)
    (iter : Option TaskKer) : ∃ y, kernels.entry iter l = some (y, []) := by
  have hall : ∀ e ∈ l, ∀ x : Option TaskKer, True →
      ∃ y, True ∧ kernels.step e x = some (y, []) := by
    intro e he x _
    rcases h e he with he | he
    · exact ⟨_, trivial, congrArg some (offloadKern_push he.kind)⟩
    · exact ⟨_, trivial, congrArg some (offloadKern_start he.kind)⟩
  exact exists_entry_silent hall trivial

end Kernel

/-! ## Calls -/

section Calls

/-- The four words of an event. -/
def words (e : KaapiEvent) : List EventData :=
  [e.body.d0, e.body.d1, e.body.d2, e.body.d3]

namespace CallLife

def events (c : CallLife) : List KaapiEvent :=
  c.start :: c.infos

/-- What is kept about the call until the synchronization. -/
def info (c : CallLife) : CallInfo where
  t_start := c.start.date
  t_stop := zeroDate
  kid := c.start.body.kid
  level := 0
  name := callName c.start.body.d0
  param := [c.start.body.d1, c.start.body.d2, c.start.body.d3] ++ c.infos.flatMap words

end CallLife

namespace CallGroup

def events (g : CallGroup) : List KaapiEvent :=
  g.calls.flatMap CallLife.events ++ [g.sync]

/-- What is flushed by the synchronization. -/
def infos (g : CallGroup) : List CallInfo :=
  (g.calls.map CallLife.info).zipIdx.map fun p =>
    { p.1 with t_stop := g.sync.date, level := p.2 }

end CallGroup

theorem calls_step {e : KaapiEvent} (h : e.body.evtno = evtCall) (l : List CallInfo) :
    calls.step e l = call e l :=
  if_neg (by rw [h]; decide)

/-- The information about the last call. The places of the parameters are enough. -/
theorem calls_infos {infos : List KaapiEvent}
    (h : ∀ e ∈ infos, e.body.evtno = evtCall ∧ e.body.kind ≠ 0#2 ∧ e.body.kind ≠ 1#2)
    (l : List CallInfo) {ci : CallInfo} (hlen : ci.param.length + 4 * infos.length ≤ 16) :
    calls.entry (l ++ [ci]) infos =
      some (l ++ [{ ci with param := ci.param ++ infos.flatMap words }], []) := by
  induction infos generalizing ci with
  | nil =>
      rw [List.flatMap_nil, List.append_nil]
      rfl
  | cons e infos ih =>
      obtain ⟨⟨hevtno, hbegin, hend⟩, hrest⟩ := List.forall_mem_cons.mp h
      rw [List.length_cons] at hlen
      have hcall : call e (l ++ [ci]) =
          some (l ++ [{ ci with param := ci.param ++ words e }], []) := by
        unfold call
        dsimp only
        rw [if_neg hbegin, if_neg hend, List.getLast?_concat]
        dsimp only
        rw [if_pos (by omega), List.dropLast_concat]
        rfl
      have hlen : (ci.param ++ words e).length + 4 * infos.length ≤ 16 := by
        rw [List.length_append]
        show ci.param.length + 4 + _ ≤ 16
        omega
      rw [List.flatMap_cons, ← List.append_assoc]
      exact entry_silent ((calls_step hevtno _).trans hcall) (ih hrest hlen)

theorem calls_life (c : CallLife) (l : List CallInfo) :
    calls.entry l c.events = some (l ++ [c.info], []) := by
  have hcall : call c.start l = some (l ++ [⟨c.start.date, zeroDate, c.start.body.kid, 0,
      callName c.start.body.d0, [c.start.body.d1, c.start.body.d2, c.start.body.d3]⟩], []) :=
    if_pos c.start_is.2
  refine entry_silent ((calls_step c.start_is.1 l).trans hcall) (calls_infos c.infos_are l ?_)
  have hle := c.infos_le
  show 3 + 4 * c.infos.length ≤ 16
  omega

/-- Several calls are kept in their order. -/
theorem calls_lives (cs : List CallLife) (l : List CallInfo) :
    calls.entry l (cs.flatMap CallLife.events) = some (l ++ cs.map CallLife.info, []) := by
  induction cs generalizing l with
  | nil =>
      rw [List.map_nil, List.append_nil]
      rfl
  | cons c cs ih =>
      rw [List.flatMap_cons, List.map_cons, List.append_cons]
      exact entry_append (calls_life c l) (ih _)

/-- A synchronization flushes the calls before it. -/
theorem calls_group (g : CallGroup) :
    calls.entry [] g.events = some ([], g.infos.map .flush) := by
  have hsync : calls.step g.sync (g.calls.map CallLife.info) =
      some ([], g.infos.map .flush) := by
    refine (if_pos g.sync_is.1).trans (congrArg some ((if_pos g.sync_is.2).trans ?_))
    rw [CallGroup.infos, List.map_map]
    rfl
  exact entry_append (calls_lives g.calls []) (entry_singleton hsync)

end Calls

/-! ## Threads -/

section Threads

/-- The events of a thread. It may not have stopped, and the calls after its last synchronization
are pending. -/
structure Thread where
  kid : BitVec 16
  start : KaapiEvent
  body : List KaapiEvent
  stop : Option KaapiEvent
  groups : List CallGroup
  pending : List CallLife
  start_is : start.body.evtno = evtKproc ∧ start.body.kind = 0#2
  stop_is : ∀ e ∈ stop.toList, e.body.evtno = evtKproc ∧ e.body.kind = 1#2 ∧
    ∃ type, typeName (e.body.d0.i32 0) = some type
  body_are : ∀ e ∈ body, e.body.evtno ≠ evtKproc
  kid_is : ∀ e ∈ start :: (body ++ stop.toList), e.body.kid = kid
  calls_are : body.filter (fun e => IsCall e) =
    groups.flatMap CallGroup.events ++ pending.flatMap CallLife.events

namespace Thread

def events (t : Thread) : List KaapiEvent :=
  t.start :: (t.body ++ t.stop.toList)

/-- What is flushed when the thread stops. -/
def kprocs (t : Thread) : List Kproc :=
  t.stop.toList.map fun e =>
    ⟨t.start.date, e.date, t.start.body.kid, t.start.body.d0.i32 0⟩

/-- The row of a thread that has stopped. -/
def rows (T : BitVec 16 → String) (t : Thread) : List KprocRow :=
  t.stop.toList.map fun e =>
    ⟨t.kid, T t.kid, ns2s t.start.date, ns2s e.date, ns2s (delay t.start.date e.date)⟩

/-- The rows of the calls before the last synchronization. -/
def callRows (t : Thread) : List CallRow :=
  (t.groups.flatMap CallGroup.infos).map callRow

end Thread

theorem kproc_start {e : KaapiEvent} {name : String} (hkind : e.body.kind = 0#2)
    (htype : typeName (e.body.d0.i32 0) = some name) :
    kproc e none = (some ⟨e.date, zeroDate, e.body.kid, e.body.d0.i32 0⟩, []) := by
  unfold kproc
  dsimp only
  rw [if_neg (type_range htype), if_pos hkind]

theorem kproc_stop {e : KaapiEvent} {name : String} {kp : Kproc} (hkind : e.body.kind = 1#2)
    (htype : typeName (e.body.d0.i32 0) = some name) : kproc e (some kp) =
      (some { kp with t_stop := e.date }, [.flush { kp with t_stop := e.date }]) := by
  unfold kproc
  dsimp only
  rw [if_neg (type_range htype), if_neg (by rw [hkind]; decide), if_pos hkind]

/-- The start and the stop of a thread. -/
theorem threads_life (t : Thread) {name : String}
    (htype : typeName (t.start.body.d0.i32 0) = some name) :
    ∃ y, threads.entry none (t.start :: t.stop.toList) = some (y, t.kprocs.map .flush) := by
  have hstart := congrArg some (kproc_start t.start_is.2 htype)
  unfold Thread.kprocs
  cases hstop : t.stop with
  | none => exact ⟨_, entry_singleton hstart⟩
  | some e =>
      obtain ⟨_, hkind, _, htype⟩ := t.stop_is e (by rw [hstop]; exact List.mem_cons_self)
      exact ⟨_, entry_silent hstart (entry_singleton (congrArg some (kproc_stop hkind htype)))⟩

end Threads

/-! ## Recordings -/

section Recordings

/-- The events with this number about a task, a copy or a kernel. -/
def eventsAbout (evtno : BitVec 6) (d0 : EventData) (l : List KaapiEvent) : List KaapiEvent :=
  l.filter fun e => e.body.evtno = evtno ∧ e.body.d0 = d0

/-- The events are those of `own`, where each one is later than the ones before it. -/
def Dated (l own : List KaapiEvent) : Prop :=
  l.Perm own ∧ own.Pairwise fun a b => a.date < b.date

/-- What the files of a trace have recorded. The address of a task may be used again after its
end. -/
structure Recording where
  type : BitVec 16 → String
  threads : List Thread
  tasks : List TaskLife
  copies : List CpyLife
  kernels : List KerLife
  openTask : EventData → List KaapiEvent
  openCpy : EventData → List KaapiEvent
  openKer : EventData → List KaapiEvent
  kids : (threads.map Thread.kid).Nodup
  types : ∀ t ∈ threads, typeName (t.start.body.d0.i32 0) = some (type t.kid)
  dates : ∀ t ∈ threads, ∀ e ∈ t.events, e.date ≠ zeroDate
  tasks_are : ∀ k, Dated (eventsAbout evtTaskExec k (threads.flatMap Thread.events))
    ((tasks.filter fun a => a.task = k).flatMap TaskLife.events ++ openTask k)
  copies_are : ∀ k, Dated (eventsAbout evtOffloadCpy k (threads.flatMap Thread.events))
    ((copies.filter fun a => a.taskid = k).flatMap CpyLife.events ++ openCpy k)
  kernels_are : ∀ k, Dated (eventsAbout evtOffloadKern k (threads.flatMap Thread.events))
    ((kernels.filter fun a => a.taskid = k).flatMap KerLife.events ++ openKer k)
  task_open : ∀ k, OpenTask k (openTask k)
  cpy_open : ∀ k, OpenCpy k (openCpy k)
  ker_open : ∀ k, OpenKer k (openKer k)

/-- The calls of the callback: the events of the threads, each with the index of its file, in the
order of their dates. -/
structure Merges (R : Recording) (trace : List (ℕ × KaapiEvent)) : Prop where
  source : ∀ f, recordsOf f trace = (R.threads.map Thread.events)[f]?.getD []
  sorted : trace.Pairwise fun p q => p.2.date ≤ q.2.date

variable {R : Recording} {trace : List (ℕ × KaapiEvent)}

theorem Merges.perm (h : Merges R trace) :
    (trace.map Prod.snd).Perm (R.threads.flatMap Thread.events) :=
  perm_flatten_of_recordsOf h.source

theorem Merges.date_ne (h : Merges R trace) {e : KaapiEvent} (he : e ∈ trace.map Prod.snd) :
    e.date ≠ zeroDate := by
  obtain ⟨t, ht, het⟩ := List.mem_flatMap.mp (h.perm.mem_iff.mp he)
  exact R.dates t ht e het

/-- The events about a task come in the order of the recording. -/
theorem Merges.eventsAbout_eq (h : Merges R trace) {evtno : BitVec 6} {k : EventData}
    {own : List KaapiEvent}
    (hown : Dated (eventsAbout evtno k (R.threads.flatMap Thread.events)) own) :
    eventsAbout evtno k (trace.map Prod.snd) = own :=
  filter_eq_of_sorted (List.pairwise_map.mpr h.sorted) ((h.perm.filter _).trans hown.1) hown.2

/-! ## The threads of the trace are announced -/

theorem Announced.mono {T : BitVec 16 → String} {seen seen' : BitVec 16 → Prop}
    {es : List KaapiEvent} (h : Announced T seen es) (hle : ∀ k, seen k → seen' k) :
    Announced T seen' es := by
  induction es generalizing seen seen' with
  | nil => exact trivial
  | cons e es ih =>
      obtain ⟨⟨hdate, he⟩, hes⟩ := h
      exact ⟨⟨hdate, he.imp_left (hle _)⟩, ih hes fun k hk => hk.imp_left (hle k)⟩

/-- A thread that has an event after `pre` has started, or starts with this event. The induction is
on what is left of the trace. -/
theorem Merges.announced_from (h : Merges R trace) {pre suf : List (ℕ × KaapiEvent)}
    (htrace : trace = pre ++ suf) :
    Announced R.type (fun kid => ∃ q ∈ pre, q.2.body.kid = kid) (suf.map Prod.snd) := by
  induction suf generalizing pre with
  | nil => exact trivial
  | cons q suf ih =>
      have hmem : q.2 ∈ recordsOf q.1 trace := by
        refine List.mem_map_of_mem (List.mem_filter.mpr ⟨?_, decide_eq_true rfl⟩)
        rw [htrace]
        exact List.mem_append_right pre List.mem_cons_self
      have hfile := h.source q.1
      obtain ⟨t, ht, hsource⟩ : ∃ t ∈ R.threads, recordsOf q.1 trace = t.events := by
        rw [List.getElem?_map] at hfile
        cases ht : R.threads[q.1]? with
        | none =>
            rw [hfile, ht] at hmem
            cases hmem
        | some t =>
            rw [ht] at hfile
            exact ⟨t, List.mem_of_getElem? ht, hfile⟩
      rw [hsource] at hmem
      have hkid := t.kid_is q.2 hmem
      have hstart := t.kid_is t.start List.mem_cons_self
      refine ⟨⟨R.dates t ht q.2 hmem, ?_⟩, ?_⟩
      · rw [htrace, recordsOf_append] at hsource
        cases hpre : recordsOf q.1 pre with
        | nil =>
            rw [hpre, recordsOf_cons_self] at hsource
            have heq : q.2 = t.start := (List.cons.inj hsource).1
            rw [heq]
            exact .inr ⟨t.start_is.1, t.start_is.2, hstart ▸ R.types t ht⟩
        | cons s rest =>
            rw [hpre] at hsource
            have heq : s = t.start := (List.cons.inj hsource).1
            have hs : s ∈ recordsOf q.1 pre := hpre ▸ List.mem_cons_self
            obtain ⟨q', hq', rfl⟩ := List.mem_map.mp hs
            refine .inl ⟨q', (List.mem_filter.mp hq').1, ?_⟩
            rw [heq, hstart, hkid]
      · have hrest : Announced R.type (fun kid => ∃ q' ∈ pre ++ [q], q'.2.body.kid = kid)
            (suf.map Prod.snd) := ih (by rw [htrace, List.append_assoc]; rfl)
        refine hrest.mono fun kid hseen => ?_
        obtain ⟨q', hq', heq⟩ := hseen
        refine (List.mem_append.mp hq').imp (fun hmem => ⟨q', hmem, heq⟩) fun hmem => ?_
        rw [← heq, List.mem_singleton.mp hmem]

theorem Merges.announced (h : Merges R trace) :
    Announced R.type (fun _ => False) (trace.map Prod.snd) := by
  have hall : Announced R.type (fun kid => ∃ q ∈ ([] : List (ℕ × KaapiEvent)),
      q.2.body.kid = kid) (trace.map Prod.snd) := h.announced_from rfl
  refine hall.mono fun kid hseen => ?_
  obtain ⟨q, hq, _⟩ := hseen
  exact absurd hq List.not_mem_nil

/-! ## The runs on the trace -/

theorem flushed_map_flush {ρ : Type} (l : List ρ) : flushed (l.map .flush) = l := by
  induction l with
  | nil => rfl
  | cons x l ih => exact congrArg (x :: ·) ih

theorem warned_map_flush {ρ : Type} (l : List ρ) : warned (l.map .flush) = [] := by
  induction l with
  | nil => rfl
  | cons x l ih => exact ih

/-- A machine that gives out, key by key, the flushes of the phases of the key. -/
theorem exists_run_of_entries {κ σ ρ A : Type} [DecidableEq κ]
    {M : KeyedMachine κ KaapiEvent σ (Output ρ)} {x₀ : σ} {es : List KaapiEvent} (phases : List A)
    (key : A → κ) (infos : A → List ρ)
    (h : ∀ k, ∃ y, M.entry x₀ (M.about k es) =
      some (y, ((phases.filter fun a => key a = k).flatMap infos).map .flush)) :
    ∃ t out, M.run (fun _ => x₀) es = some (t, out) ∧
      (flushed (out.map Prod.snd)).Perm (phases.flatMap infos) ∧
      warned (out.map Prod.snd) = [] := by
  obtain ⟨t, out, hrun⟩ := exists_run fun k => (h k).imp' (fun y => (y, _)) fun _ hy => hy
  have hrecords : ∀ k, recordsOf k out =
      (phases.filter fun a => key a = k).flatMap fun a => (infos a).map .flush := by
    intro k
    obtain ⟨y, hy⟩ := h k
    have heq := Option.some.inj ((entry_of_run hrun k).symm.trans hy)
    rw [(Prod.mk.inj heq).2, List.map_flatMap]
  have hperm := perm_flatMap_of_recordsOf phases key _ hrecords
  rw [← List.map_flatMap] at hperm
  refine ⟨t, out, hrun, ?_, ?_⟩
  · have hflushed : (flushed (out.map Prod.snd)).Perm
        (flushed ((phases.flatMap infos).map .flush)) := hperm.filterMap _
    rwa [flushed_map_flush] at hflushed
  · have hwarned : (warned (out.map Prod.snd)).Perm
        (warned ((phases.flatMap infos).map .flush)) := hperm.filterMap _
    rw [warned_map_flush] at hwarned
    exact hwarned.eq_nil

/-- A machine for tasks, copies or kernels, each of which leaves no entry at its end. -/
theorem Merges.exists_lives {σ ρ A : Type} (h : Merges R trace)
    {M : KeyedMachine EventData KaapiEvent (Option σ) (Output ρ)} {evtno : BitVec 6}
    (hkey : M.key = keyOf evtno fun e => e.body.d0) (lives : List A) (key : A → EventData)
    (events : A → List KaapiEvent) (info : A → ρ) (rest : EventData → List KaapiEvent)
    (hlife : ∀ a, M.entry none (events a) = some (none, [.flush (info a)]))
    (hrest : ∀ k, ∃ y, M.entry none (rest k) = some (y, []))
    (hdated : ∀ k, Dated (eventsAbout evtno k (R.threads.flatMap Thread.events))
      ((lives.filter fun a => key a = k).flatMap events ++ rest k)) :
    ∃ t out, M.run (fun _ => none) (trace.map Prod.snd) = some (t, out) ∧
      (flushed (out.map Prod.snd)).Perm (lives.map info) ∧ warned (out.map Prod.snd) = [] := by
  rw [show lives.map info = lives.flatMap fun a => [info a] from List.map_eq_flatMap]
  refine exists_run_of_entries lives key (fun a => [info a]) fun k => ?_
  have habout : M.about k (trace.map Prod.snd) = eventsAbout evtno k (trace.map Prod.snd) := by
    refine List.filter_congr fun e he => decide_eq_decide.mpr ?_
    rw [hkey, keyOf, Option.ite_none_right_eq_some, Option.some_inj, and_iff_right (h.date_ne he)]
  obtain ⟨y, hy⟩ := hrest k
  refine ⟨y, ?_⟩
  rw [habout, h.eventsAbout_eq (hdated k), List.map_flatMap]
  have hlives : M.entry none ((lives.filter fun a => key a = k).flatMap events) = some (none,
      (lives.filter fun a => key a = k).flatMap fun a => [.flush (info a)]) :=
    entry_flatMap fun a _ => hlife a
  rw [entry_append hlives hy, List.append_nil]
  rfl

/-- A machine with an entry for each thread, whose events are chosen by `Q`. -/
theorem Merges.exists_threads {σ ρ : Type} (h : Merges R trace)
    {M : KeyedMachine (BitVec 16) KaapiEvent σ (Output ρ)} {x₀ : σ} {Q : KaapiEvent → Prop}
    [DecidablePred Q]
    (hkey : ∀ e, M.key e = if e.date ≠ zeroDate ∧ Q e then some e.body.kid else none)
    (infos : Thread → List ρ)
    (hentry : ∀ t ∈ R.threads, ∃ y, M.entry x₀ (t.events.filter fun e => Q e) =
      some (y, (infos t).map .flush)) :
    ∃ t out, M.run (fun _ => x₀) (trace.map Prod.snd) = some (t, out) ∧
      (flushed (out.map Prod.snd)).Perm (R.threads.flatMap infos) ∧
      warned (out.map Prod.snd) = [] := by
  refine exists_run_of_entries R.threads Thread.kid infos fun kid => ?_
  have hsome : ∀ t ∈ R.threads, ∀ e ∈ t.events, M.key e = some kid ↔ Q e ∧ t.kid = kid := by
    intro t ht e he
    rw [hkey, ← t.kid_is e he, Option.ite_none_right_eq_some, Option.some_inj,
      and_iff_right (R.dates t ht e he)]
  have habout : M.about kid (trace.map Prod.snd) =
      (R.threads.filter fun t => t.kid = kid).flatMap fun t => t.events.filter fun e =>
        M.key e = some kid :=
    filter_of_source_key R.kids h.source fun t ht e he hp =>
      ((hsome t ht e he).mp (of_decide_eq_true hp)).2
  rw [habout]
  rcases filter_key_cases R.kids kid with hnil | ⟨t, ht, htkid, hsingle⟩
  · rw [hnil]
    exact ⟨x₀, rfl⟩
  · obtain ⟨y, hy⟩ := hentry t ht
    refine ⟨y, ?_⟩
    rw [hsingle, List.flatMap_singleton, List.flatMap_singleton, ← hy]
    refine congrArg (M.entry x₀) (List.filter_congr fun e he => decide_eq_decide.mpr ?_)
    rw [hsome t ht e he]
    exact and_iff_left htkid

theorem Thread.filter_kproc (t : Thread) :
    (t.events.filter fun e => e.body.evtno = evtKproc) = t.start :: t.stop.toList := by
  have hbody : (t.body.filter fun e => e.body.evtno = evtKproc) = [] := by
    refine List.filter_eq_nil_iff.mpr fun e he => ?_
    rw [decide_eq_true_eq]
    exact t.body_are e he
  have hstop : (t.stop.toList.filter fun e => e.body.evtno = evtKproc) = t.stop.toList :=
    List.filter_eq_self.mpr fun e he => decide_eq_true (t.stop_is e he).1
  unfold Thread.events
  rw [List.filter_cons_of_pos, List.filter_append, hbody, hstop, List.nil_append]
  exact decide_eq_true t.start_is.1

theorem Thread.filter_call (t : Thread) : (t.events.filter fun e => IsCall e) =
    t.groups.flatMap CallGroup.events ++ t.pending.flatMap CallLife.events := by
  have hkproc : ∀ {e : KaapiEvent}, e.body.evtno = evtKproc → ¬ IsCall e := fun hev =>
    not_isCall (by rw [hev]; decide)
  have hstop : (t.stop.toList.filter fun e => IsCall e) = [] := by
    refine List.filter_eq_nil_iff.mpr fun e he => ?_
    rw [decide_eq_true_eq]
    exact hkproc (t.stop_is e he).1
  unfold Thread.events
  rw [List.filter_cons_of_neg, List.filter_append, hstop, List.append_nil, t.calls_are]
  rw [decide_eq_true_eq]
  exact hkproc t.start_is.1

theorem Merges.exists_kprocs (h : Merges R trace) :
    ∃ t out, threads.run (fun _ => none) (trace.map Prod.snd) = some (t, out) ∧
      (flushed (out.map Prod.snd)).Perm (R.threads.flatMap Thread.kprocs) ∧
      warned (out.map Prod.snd) = [] := by
  refine h.exists_threads (Q := fun e => e.body.evtno = evtKproc) (fun e => rfl) Thread.kprocs ?_
  intro t ht
  rw [t.filter_kproc]
  exact threads_life t (R.types t ht)

theorem Merges.exists_calls (h : Merges R trace) :
    ∃ t out, calls.run (fun _ => []) (trace.map Prod.snd) = some (t, out) ∧
      (flushed (out.map Prod.snd)).Perm
        (R.threads.flatMap fun t => t.groups.flatMap CallGroup.infos) ∧
      warned (out.map Prod.snd) = [] := by
  refine h.exists_threads (Q := IsCall) (fun e => rfl) _ fun t ht => ?_
  rw [t.filter_call, List.map_flatMap]
  have hgroups : calls.entry [] (t.groups.flatMap CallGroup.events) =
      some ([], t.groups.flatMap fun g => g.infos.map .flush) :=
    entry_flatMap fun g _ => calls_group g
  exact ⟨_, (entry_append hgroups (calls_lives t.pending [])).trans (by rw [List.append_nil])⟩

end Recordings

/-! ## The rows -/

section Rows

variable {R : Recording} {trace : List (ℕ × KaapiEvent)}

/-- What the converter has written. -/
structure Written (fmtdefs : List FmtDef) (R : Recording) (r : ParallelRegion) : Prop where
  parallel : r.fout_parallel.Perm (R.threads.flatMap (Thread.rows R.type))
  task : r.fout_task.Perm (R.tasks.map (TaskLife.row fmtdefs R.type))
  cpy : r.fout_cpy.Perm (R.copies.map (CpyLife.row R.type))
  kern : r.fout_kern.Perm (R.kernels.map (KerLife.row fmtdefs R.type))
  call : r.fout_call.Perm (R.threads.flatMap Thread.callRows)
  warnings : r.warnings = []

/-- Nothing is known at first. -/
theorem known_empty (T : BitVec 16 → String) : Known T (fun _ => False) .empty where
  kproc := fun _ h => h.elim
  type := fun _ _ h => absurd h (Option.some_ne_none _).symm
  task := fun _ _ h => absurd h (Option.some_ne_none _).symm
  cpy := fun _ _ h => absurd h (Option.some_ne_none _).symm
  ker := fun _ _ _ h => absurd h (Option.some_ne_none _).symm

theorem kprocRow_kprocs (T : BitVec 16 → String) (t : Thread) :
    t.kprocs.map (kprocRow T) = t.rows T := by
  unfold Thread.kprocs Thread.rows
  rw [List.map_map]
  refine List.map_congr_left fun e _ => ?_
  show KprocRow.mk t.start.body.kid (T t.start.body.kid) _ _ _ = _
  rw [t.kid_is t.start List.mem_cons_self]

/-- The converter on a merge of the events of the recording. -/
theorem Merges.convert (h : Merges R trace) (fmtdefs : List FmtDef) :
    ∃ r, convert fmtdefs (trace.map Prod.snd) .empty = some r ∧ Written fmtdefs R r := by
  obtain ⟨tk, ok, hk, hok, hwk⟩ := h.exists_kprocs
  obtain ⟨tt, ot, ht, hot, hwt⟩ := h.exists_lives (M := Converter.tasks) rfl R.tasks TaskLife.task
    TaskLife.events TaskLife.info R.openTask tasks_life (fun k => tasks_open (R.task_open k))
    R.tasks_are
  obtain ⟨tc, oc, hc, hoc, hwc⟩ := h.exists_lives (M := Converter.copies) rfl R.copies
    CpyLife.taskid CpyLife.events CpyLife.info R.openCpy copies_life
    (fun k => copies_open (R.cpy_open k)) R.copies_are
  obtain ⟨tr, okr, hr, hor, hwr⟩ := h.exists_lives (M := Converter.kernels) rfl R.kernels
    KerLife.taskid KerLife.events KerLife.info R.openKer kernels_life
    (fun k => kernels_open (R.ker_open k) none) R.kernels_are
  obtain ⟨tl, ol, hl, hol, hwl⟩ := h.exists_calls
  have hruns : Runs ParallelRegion.empty.tables (trace.map Prod.snd) ⟨tk, tt, tc, tr, tl⟩
      ⟨ok, ot, oc, okr, ol⟩ := ⟨hk, ht, hc, hr, hl⟩
  have hpushed : (⟨ok, ot, oc, okr, ol⟩ : Outputs).Pushed := by
    intro ti hti
    obtain ⟨a, _, rfl⟩ := List.mem_map.mp (hor.mem_iff.mp hti)
    exact ⟨_, rfl⟩
  obtain ⟨ws, hconvert, hws⟩ := convert_eq fmtdefs (known_empty R.type) h.announced hruns hpushed
  refine ⟨_, hconvert, ?_⟩
  constructor
  case parallel =>
    have hrows := hok.map (kprocRow R.type)
    rw [List.map_flatMap, List.flatMap_congr fun t _ => kprocRow_kprocs R.type t] at hrows
    exact hrows
  case task =>
    have hrows := hot.map fun ti => taskRow fmtdefs (R.type ti.kid) ti
    rw [List.map_map] at hrows
    exact hrows
  case cpy =>
    have hrows := hoc.flatMap_right (cpyRows R.type)
    rw [List.flatMap_map] at hrows
    rw [List.map_eq_flatMap]
    exact hrows
  case kern =>
    have hrows := hor.flatMap_right (kernRows fmtdefs R.type)
    rw [List.flatMap_map] at hrows
    rw [List.map_eq_flatMap]
    exact hrows
  case call =>
    have hrows := hol.map callRow
    rw [List.map_flatMap] at hrows
    exact hrows
  case warnings =>
    have hnone : (⟨ok, ot, oc, okr, ol⟩ : Outputs).warnings = [] := by
      unfold Outputs.warnings
      rw [hwk, hwt, hwc, hwr, hwl]
      rfl
    rw [hnone] at hws
    exact List.eq_nil_iff_forall_not_mem.mpr fun w hw => absurd (hws w hw) List.not_mem_nil

/-- `ukilli --csv` on the files of a recording ends, and writes what has been recorded. -/
theorem csv_rows {sz : Sizes} {files : List (TraceFile EventBody)}
    (hfiles : ∀ F ∈ files, F.WellFormed sz) (q : PriorityQueue) (fmtdefs : List FmtDef)
    (R : Recording) (hR : files.map (TraceFile.events sz) = R.threads.map Thread.events) :
    ∃ r N, (∀ fuel, N ≤ fuel → fncCsv q fuel sz fmtdefs files = some r) ∧ Written fmtdefs R r := by
  have hpos : ∀ F ∈ files, 0 < F.count sz := by
    intro F hF
    have hmem : F.events sz ∈ R.threads.map Thread.events := hR ▸ List.mem_map_of_mem hF
    obtain ⟨t, _, ht⟩ := List.mem_map.mp hmem
    have hlen := congrArg List.length ht
    rw [TraceFile.events, List.length_map, List.length_range] at hlen
    rw [← hlen]
    exact Nat.succ_pos _
  obtain ⟨s, t, N, hopen, hread, hsound⟩ := readsAll_of_pos hfiles hpos q
  have hmerges : Merges R t.calls := by
    constructor
    case source =>
      intro f
      rw [← hR, List.getElem?_map]
      refine (hsound.calls f).trans ?_
      cases files[f]? with
      | none => rfl
      | some F => rfl
    case sorted => exact hsound.sorted
  obtain ⟨r, hconvert, hwritten⟩ := hmerges.convert fmtdefs
  refine ⟨r, N, fun fuel hfuel => ?_, hwritten⟩
  unfold fncCsv
  rw [hopen, Option.bind_some, hread fuel hfuel, Option.bind_some]
  exact hconvert

/-- An event of the two threads. -/
def sampleEvent (date : Date) (evtno : BitVec 6) (kind : BitVec 2) (kid : BitVec 16)
    (d0 d1 : EventData) : KaapiEvent :=
  ⟨date, evtno, kind, kid, d0, d1, 0#64, 0#64⟩

/-- The task `5`, which one thread pushes and another one executes. -/
def sampleTask : TaskLife where
  task := 5#64
  push := sampleEvent ⟨3, by decide⟩ evtTaskExec 0#2 0#16 5#64 7#64
  async := none
  start := sampleEvent ⟨5, by decide⟩ evtTaskExec 2#2 1#16 5#64 7#64
  stop := sampleEvent ⟨6, by decide⟩ evtTaskExec 3#2 1#16 5#64 7#64
  push_is := ⟨rfl, rfl, rfl⟩
  async_is := fun _ he => absurd he List.not_mem_nil
  start_is := ⟨rfl, rfl, rfl⟩
  stop_is := ⟨rfl, rfl, rfl⟩

/-- A thread with these events. -/
def sampleThread (kid : BitVec 16) (start stop : Date) (body : List KaapiEvent)
    (hkid : ∀ e ∈ body, e.body.kid = kid) (hbody : ∀ e ∈ body, e.body.evtno = evtTaskExec) :
    Thread where
  kid := kid
  start := sampleEvent start evtKproc 0#2 kid 0#64 0#64
  body := body
  stop := some (sampleEvent stop evtKproc 1#2 kid 0#64 0#64)
  groups := []
  pending := []
  start_is := ⟨rfl, rfl⟩
  stop_is := List.forall_mem_singleton.mpr ⟨rfl, rfl, "CPU", rfl⟩
  body_are := fun e he => by
    rw [hbody e he]
    decide
  kid_is := List.forall_mem_cons.mpr ⟨rfl, fun e he => (List.mem_append.mp he).elim (hkid e)
    fun he => List.mem_singleton.mp he ▸ rfl⟩
  calls_are := List.filter_eq_nil_iff.mpr fun e he => by
    rw [decide_eq_true_eq]
    exact not_isCall (by rw [hbody e he]; decide)

/-- The thread that pushes the task and the one that executes it. -/
def sampleThreads : List Thread :=
  [sampleThread 0#16 ⟨1, by decide⟩ ⟨8, by decide⟩ [sampleTask.push] (by decide) (by decide),
    sampleThread 1#16 ⟨2, by decide⟩ ⟨9, by decide⟩ [sampleTask.start, sampleTask.stop] (by decide)
      (by decide)]

/-- The recording of the two threads. -/
def sampleRecording : Recording where
  type := fun _ => "CPU"
  threads := sampleThreads
  tasks := [sampleTask]
  copies := []
  kernels := []
  openTask := fun _ => []
  openCpy := fun _ => []
  openKer := fun _ => []
  kids := by decide
  types := by decide
  dates := by decide
  tasks_are := fun k => by
    by_cases hk : 5#64 = k
    · subst hk
      exact ⟨List.Perm.of_eq (by decide), by decide⟩
    · have hnil : eventsAbout evtTaskExec k (sampleThreads.flatMap Thread.events) = [] := by
        have hall : ∀ e ∈ sampleThreads.flatMap Thread.events,
            e.body.evtno = evtTaskExec → e.body.d0 = 5#64 := by decide
        refine List.filter_eq_nil_iff.mpr fun e he => ?_
        rw [decide_eq_true_eq]
        exact fun hev => hk ((hall e he hev.1).symm.trans hev.2)
      have htasks : ([sampleTask].filter fun a => a.task = k) = [] :=
        List.filter_cons_of_neg (by rw [decide_eq_true_eq]; exact hk)
      rw [hnil, htasks]
      exact ⟨.nil, .nil⟩
  copies_are := fun k => by
    rw [show eventsAbout evtOffloadCpy k (sampleThreads.flatMap Thread.events) = [] from rfl]
    exact ⟨.nil, .nil⟩
  kernels_are := fun k => by
    rw [show eventsAbout evtOffloadKern k (sampleThreads.flatMap Thread.events) = [] from rfl]
    exact ⟨.nil, .nil⟩
  task_open := fun _ => .inl rfl
  cpy_open := fun _ => .inl rfl
  ker_open := fun _ _ he => absurd he List.not_mem_nil

/-- The file of a thread. -/
def sampleFile (t : Thread) : TraceFile EventBody :=
  ⟨8 + 16 * t.events.length, true, fun i => t.events[i]?.getD t.start⟩

theorem csv_rows_twoThreads :
    let sz : Sizes := ⟨8, 16, by decide, by decide⟩
    ∃ r N, (∀ fuel, N ≤ fuel →
      fncCsv firstLeast fuel sz [] (sampleThreads.map sampleFile) = some r) ∧
        Written [] sampleRecording r := by
  intro sz
  refine csv_rows ?_ firstLeast [] sampleRecording (by decide)
  refine List.forall_mem_cons.mpr ⟨⟨rfl, ⟨3, rfl⟩, by decide, by decide⟩, ?_⟩
  exact List.forall_mem_singleton.mpr ⟨rfl, ⟨4, rfl⟩, by decide, by decide⟩

end Rows

end Xkblas.Trace.Converter
