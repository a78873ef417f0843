import Xkblas.Trace.Converter

/-!
# Runs of the converter

Each table of the converter is a machine with an entry for each thread, task, copy or kernel.
`convert_eq` says what the converter makes of a trace in which each thread starts with its start
event: the rows are those of what the machines flush, and the warnings those of the machines.
-/

namespace Xkblas.Trace.Converter

open Library KeyedMachine

variable {ρ Row : Type}

/-! ## The machines -/

/-- What is flushed. -/
def flushed (outs : List (Output ρ)) : List ρ :=
  outs.filterMap fun
    | .flush x => some x
    | .warn _ => none

/-- The warnings. -/
def warned (outs : List (Output ρ)) : List Warning :=
  outs.filterMap fun
    | .flush _ => none
    | .warn w => some w

/-- The key of an event, when it has a date and the number. -/
def keyOf {κ : Type} (evtno : BitVec 6) (key : KaapiEvent → κ) (e : KaapiEvent) : Option κ :=
  if e.date ≠ zeroDate ∧ e.body.evtno = evtno then some (key e) else none

/-- The threads. -/
def threads : KeyedMachine (BitVec 16) KaapiEvent (Option Kproc) (Output Kproc) where
  key := keyOf evtKproc fun e => e.body.kid
  step := fun e x => some (kproc e x)

/-- The tasks. -/
def tasks : KeyedMachine EventData KaapiEvent (Option TaskInfo) (Output TaskInfo) where
  key := keyOf evtTaskExec fun e => e.body.d0
  step := fun e x => some (taskExec e x)

/-- The copies. -/
def copies : KeyedMachine EventData KaapiEvent (Option TaskCpy) (Output TaskCpy) where
  key := keyOf evtOffloadCpy fun e => e.body.d0
  step := fun e x => some (offloadCpy e x)

/-- The kernels. -/
def kernels : KeyedMachine EventData KaapiEvent (Option TaskKer) (Output TaskKer) where
  key := keyOf evtOffloadKern fun e => e.body.d0
  step := fun e x => some (offloadKern e x)

/-- The events that change the calls of a thread. -/
def IsCall (e : KaapiEvent) : Prop :=
  e.body.evtno = evtTasksync ∧ e.body.kind = 1#2 ∨ e.body.evtno = evtCall ∧ e.body.kind ≠ 1#2

instance : DecidablePred IsCall :=
  fun _ => inferInstanceAs (Decidable (_ ∧ _ ∨ _ ∧ _))

/-- The calls. -/
def calls : KeyedMachine (BitVec 16) KaapiEvent (List CallInfo) (Output CallInfo) where
  key := fun e => if e.date ≠ zeroDate ∧ IsCall e then some e.body.kid else none
  step := fun e l => if e.body.evtno = evtTasksync then some (tasksync e l) else call e l

section Keys

variable {e : KaapiEvent} {κ σ : Type} [DecidableEq κ] {M : KeyedMachine κ KaapiEvent σ ρ}
  {n : BitVec 6} {key : KaapiEvent → κ}

/-- A machine on an event of its number. -/
theorem run_of_evtno (hM : M.key = keyOf n key) (hdate : e.date ≠ zeroDate)
    (h : e.body.evtno = n) {m : κ → σ} {p : σ × List ρ}
    (hp : M.step e (m (key e)) = some p) :
    M.run m [e] = some (Function.update m (key e) p.1, p.2.map fun o => (key e, o)) := by
  have hkey : M.key e = some (key e) := by
    rw [hM]
    exact if_pos ⟨hdate, h⟩
  exact run_singleton_some hkey hp

/-- A machine on an event of another number. -/
theorem run_of_evtno_ne (hM : M.key = keyOf n key) (h : e.body.evtno ≠ n) {m : κ → σ} :
    M.run m [e] = some (m, []) := by
  have hkey : M.key e = none := by
    rw [hM]
    exact if_neg fun hk => h hk.2
  exact run_singleton_none hkey

theorem calls_key (hdate : e.date ≠ zeroDate) (h : IsCall e) :
    calls.key e = some e.body.kid :=
  if_pos ⟨hdate, h⟩

theorem calls_none {m : BitVec 16 → List CallInfo} (h : ¬ IsCall e) :
    calls.run m [e] = some (m, []) :=
  run_singleton_none (if_neg fun hk => h hk.2)

theorem IsCall.evtno (h : IsCall e) : e.body.evtno = evtTasksync ∨ e.body.evtno = evtCall :=
  h.imp And.left And.left

theorem not_isCall (h : e.body.evtno ≠ evtTasksync ∧ e.body.evtno ≠ evtCall) : ¬ IsCall e :=
  fun hcall => hcall.evtno.elim h.1 h.2

end Keys

/-! ## Flushes -/

/-- The row of a kernel, if its push has been seen. -/
def kernRows (fmtdefs : List FmtDef) (T : BitVec 16 → String) (ti : TaskKer) : List KernRow :=
  (ti.push.bind fun p => ti.t_delay.map fun t_delay =>
    kernRow fmtdefs (T p.kid) ti p t_delay).toList

/-- The row of a copy. -/
def cpyRows (T : BitVec 16 → String) (ti : TaskCpy) : List CpyRow :=
  (ti.t_delay.map fun t_delay => cpyRow (T ti.kid) ti t_delay).toList

/-- The row of a thread. -/
def kprocRow (T : BitVec 16 → String) (kp : Kproc) : KprocRow :=
  ⟨kp.kid, T kp.kid, ns2s kp.t_start, ns2s kp.t_stop, ns2s (delay kp.t_start kp.t_stop)⟩

/-- The outputs of an event, when each flush appends rows. -/
theorem outputs_eq {flush : ParallelRegion → ρ → Option ParallelRegion} {rows : ρ → List Row}
    (put : ParallelRegion → List Row → List Warning → ParallelRegion)
    (hnil : ∀ r, put r [] [] = r)
    (hput : ∀ r a b c d, put (put r a b) c d = put r (a ++ c) (b ++ d))
    (hwarn : ∀ r w, r.warn w = put r [] [w]) {r : ParallelRegion} {outs : List (Output ρ)}
    (hflush : ∀ x ∈ flushed outs, ∀ a b, flush (put r a b) x = some (put (put r a b) (rows x) [])) :
    r.outputs flush outs = some (put r ((flushed outs).flatMap rows) (warned outs)) := by
  have hfrom : ∀ a b, (put r a b).outputs flush outs =
      some (put r (a ++ (flushed outs).flatMap rows) (b ++ warned outs)) := by
    induction outs with
    | nil =>
        intro a b
        show some (put r a b) = some (put r (a ++ []) (b ++ []))
        rw [List.append_nil, List.append_nil]
    | cons o outs ih =>
        intro a b
        cases o with
        | flush x =>
            have ih := ih fun y hy => hflush y (List.mem_cons_of_mem x hy)
            show (flush (put r a b) x).bind (fun r' => r'.outputs flush outs) =
              some (put r (a ++ (rows x ++ (flushed outs).flatMap rows)) (b ++ warned outs))
            rw [hflush x List.mem_cons_self, hput, List.append_nil, ← List.append_assoc]
            exact ih (a ++ rows x) b
        | warn w =>
            show ((put r a b).warn w).outputs flush outs =
              some (put r (a ++ (flushed outs).flatMap rows) (b ++ (w :: warned outs)))
            rw [hwarn, hput, List.append_nil, List.append_cons b w (warned outs)]
            exact ih hflush a (b ++ [w])
  have h := hfrom [] []
  rwa [hnil] at h

/-! ## Threads that are known -/

/-- The event starts its thread, which has the type `T`. -/
def IsStart (T : BitVec 16 → String) (e : KaapiEvent) : Prop :=
  e.body.evtno = evtKproc ∧ e.body.kind = 0#2 ∧ typeName (e.body.d0.i32 0) = some (T e.body.kid)

/-- Each event has a date and comes from a thread that is in `seen`, or has been started before, or
is started by the event. -/
def Announced (T : BitVec 16 → String) : (BitVec 16 → Prop) → List KaapiEvent → Prop
  | _, [] => True
  | seen, e :: es => (e.date ≠ zeroDate ∧ (seen e.body.kid ∨ IsStart T e)) ∧
      Announced T (fun kid => seen kid ∨ kid = e.body.kid) es

/-- The threads of `seen` are known with their types, and the entries come from them. -/
structure Known (T : BitVec 16 → String) (seen : BitVec 16 → Prop) (r : ParallelRegion) :
    Prop where
  kproc : ∀ kid, seen kid → ∃ kp, r.container_kproc kid = some kp
  type : ∀ kid kp, r.container_kproc kid = some kp → kp.kid = kid ∧ typeName kp.type = some (T kid)
  task : ∀ t ti, r.container_task t = some ti → seen ti.kid
  cpy : ∀ t ti, r.container_task_cpy t = some ti → seen ti.kid
  ker : ∀ t ti p, r.container_task_ker t = some ti → ti.push = some p → seen p.kid

/-! ## The new entries -/

section Entries

variable {σ : Type} {P : σ → Prop} {x : σ} {w : Warning} {e : KaapiEvent}

/-- A property of the new entry and of what is flushed. -/
def Holds (P : σ → Prop) (p : Option σ × List (Output σ)) : Prop :=
  (∀ x, p.1 = some x → P x) ∧ ∀ x ∈ flushed p.2, P x

theorem Holds.keep (h : P x) : Holds P (some x, []) :=
  ⟨fun _ heq => Option.some.inj heq ▸ h, fun _ hmem => absurd hmem List.not_mem_nil⟩

theorem Holds.warn {iter : Option σ} (h : ∀ x, iter = some x → P x) :
    Holds P (iter, [.warn w]) :=
  ⟨h, fun _ hmem => absurd hmem List.not_mem_nil⟩

theorem Holds.pass {iter : Option σ} (h : ∀ x, iter = some x → P x) : Holds P (iter, []) :=
  ⟨h, fun _ hmem => absurd hmem List.not_mem_nil⟩

theorem Holds.erase (h : P x) : Holds P (none, [.flush x]) :=
  ⟨fun _ heq => absurd heq (Option.some_ne_none _).symm,
    fun _ hmem => List.mem_singleton.mp hmem ▸ h⟩

/-- The thread of the push stays the one of the entry. -/
theorem taskExec_holds {seen : BitVec 16 → Prop} {iter : Option TaskInfo} (he : seen e.body.kid)
    (h : ∀ ti, iter = some ti → seen ti.kid) :
    Holds (fun ti => seen ti.kid) (taskExec e iter) := by
  unfold taskExec
  dsimp only
  split
  · cases iter with
    | none => exact .keep he
    | some ti => exact .warn h
  · cases iter with
    | none => exact .warn h
    | some ti =>
        have hti := h ti rfl
        dsimp only
        split
        · exact .keep hti
        · split
          · exact .keep hti
          · exact .erase hti

theorem offloadCpy_holds {seen : BitVec 16 → Prop} {iter : Option TaskCpy} (he : seen e.body.kid)
    (h : ∀ ti, iter = some ti → seen ti.kid) :
    Holds (fun ti => seen ti.kid) (offloadCpy e iter) := by
  unfold offloadCpy
  dsimp only
  split
  · cases iter with
    | none => exact .keep he
    | some ti => exact .warn h
  · split
    · cases iter with
      | none => exact .warn h
      | some ti => exact .keep (h ti rfl)
    · split
      · cases iter with
        | none => exact .warn h
        | some ti => exact .erase (h ti rfl)
      · exact .pass h

theorem offloadKern_holds {seen : BitVec 16 → Prop} {iter : Option TaskKer}
    (he : seen e.body.kid) (h : ∀ ti, iter = some ti → ∀ p, ti.push = some p → seen p.kid) :
    Holds (fun ti => ∀ p, ti.push = some p → seen p.kid) (offloadKern e iter) := by
  unfold offloadKern
  dsimp only
  split
  · exact .keep fun p hp => Option.some.inj hp ▸ he
  · split
    · refine .keep fun p hp => ?_
      cases iter with
      | none => exact absurd hp (Option.some_ne_none p).symm
      | some ti => exact h ti rfl p hp
    · split
      · cases iter with
        | none => exact .warn h
        | some ti => exact .erase (h ti rfl)
      · exact .pass h

/-- The delay of a copy is there when the copy is flushed. -/
theorem offloadCpy_delay (e : KaapiEvent) (iter : Option TaskCpy) {x : TaskCpy}
    (hx : x ∈ flushed (offloadCpy e iter).2) : ∃ t_delay, x.t_delay = some t_delay := by
  unfold offloadCpy at hx
  dsimp only at hx
  split at hx
  · cases iter <;> cases hx
  · split at hx
    · cases iter <;> cases hx
    · split at hx
      · cases iter with
        | none => cases hx
        | some ti => exact ⟨e.body.d1, by rw [List.mem_singleton.mp hx]⟩
      · cases hx

theorem offloadKern_delay (e : KaapiEvent) (iter : Option TaskKer) {x : TaskKer}
    (hx : x ∈ flushed (offloadKern e iter).2) : ∃ t_delay, x.t_delay = some t_delay := by
  unfold offloadKern at hx
  dsimp only at hx
  split at hx
  · cases hx
  · split at hx
    · cases hx
    · split at hx
      · cases iter with
        | none => cases hx
        | some ti => exact ⟨e.body.d1, by rw [List.mem_singleton.mp hx]⟩
      · cases hx

/-- The type of a thread is the one that its start has given, which is `type`. -/
theorem kproc_holds {type : String} {kid : BitVec 16} {iter : Option Kproc}
    (hkid : e.body.kid = kid)
    (h : ∀ kp, iter = some kp → kp.kid = kid ∧ typeName kp.type = some type)
    (hnew : iter = none → e.body.kind = 0#2 → typeName (e.body.d0.i32 0) = some type) :
    Holds (fun kp => kp.kid = kid ∧ typeName kp.type = some type) (kproc e iter) := by
  unfold kproc
  dsimp only
  split
  · exact .warn h
  · split
    case isTrue hkind =>
      cases iter with
      | none => exact .keep ⟨hkid, hnew rfl hkind⟩
      | some kp => exact .warn h
    case isFalse =>
      split
      · cases iter with
        | none => exact .warn h
        | some kp =>
            have hkp := h kp rfl
            exact ⟨fun _ heq => Option.some.inj heq ▸ hkp,
              fun _ hmem => List.mem_singleton.mp hmem ▸ hkp⟩
      · exact .pass h

/-- A type with a name is one of the four. -/
theorem type_range {type : ℤ} {name : String} (h : typeName type = some name) :
    ¬ (type < 0 ∨ 3 < type) := by
  unfold typeName at h
  split at h
  case isTrue hpos =>
    obtain ⟨hlt, _⟩ := List.getElem?_eq_some_iff.mp h
    have hlt : type.toNat < 4 := hlt
    omega
  case isFalse => cases h

/-- A thread that is known stays known, and its start makes it known. -/
theorem kproc_known {T : BitVec 16 → String} {iter : Option Kproc}
    (h : (∃ kp, iter = some kp) ∨ IsStart T e) : ∃ kp, (kproc e iter).1 = some kp := by
  unfold kproc
  dsimp only
  cases iter with
  | some kp =>
      split
      · exact ⟨kp, rfl⟩
      · split
        · exact ⟨kp, rfl⟩
        · split
          · exact ⟨_, rfl⟩
          · exact ⟨kp, rfl⟩
  | none =>
      obtain ⟨_, hkind, htype⟩ := h.resolve_left fun hex => hex.elim fun _ heq =>
        absurd heq (Option.some_ne_none _).symm
      rw [if_neg (type_range htype), if_pos hkind]
      exact ⟨_, rfl⟩

end Entries

/-! ## The flushes of an event -/

section Flushes

variable {fmtdefs : List FmtDef} {T : BitVec 16 → String} {seen : BitVec 16 → Prop}
  {r : ParallelRegion} {e : KaapiEvent}

theorem Known.typeOf (h : Known T seen r) {kid : BitVec 16} (hkid : seen kid) :
    r.typeOf kid = some (T kid) := by
  obtain ⟨kp, hkp⟩ := h.kproc kid hkid
  unfold ParallelRegion.typeOf
  rw [hkp]
  exact (h.type kid kp hkp).2

theorem outputs_flushKproc {outs : List (Output Kproc)}
    (h : ∀ kp ∈ flushed outs, typeName kp.type = some (T kp.kid)) :
    r.outputs ParallelRegion.flushKproc outs = some { r with
      fout_parallel := r.fout_parallel ++ (flushed outs).map (kprocRow T)
      warnings := r.warnings ++ warned outs } := by
  rw [List.map_eq_flatMap]
  refine outputs_eq (fun r rows ws => { r with
    fout_parallel := r.fout_parallel ++ rows, warnings := r.warnings ++ ws }) ?_ ?_ ?_ ?_
  · exact fun r => by simp only [List.append_nil]
  · exact fun r a b c d => by simp only [List.append_assoc]
  · exact fun r w => by simp only [List.append_nil, ParallelRegion.warn]
  · intro kp hkp a b
    unfold ParallelRegion.flushKproc
    rw [h kp hkp]
    simp only [Option.map_some, List.append_nil, kprocRow]

theorem outputs_flushTask {outs : List (Output TaskInfo)}
    (h : ∀ ti ∈ flushed outs, r.typeOf ti.kid = some (T ti.kid)) :
    r.outputs (ParallelRegion.flushTask fmtdefs) outs = some { r with
      fout_task := r.fout_task ++ (flushed outs).map fun ti => taskRow fmtdefs (T ti.kid) ti
      warnings := r.warnings ++ warned outs } := by
  rw [List.map_eq_flatMap]
  refine outputs_eq (fun r rows ws => { r with
    fout_task := r.fout_task ++ rows, warnings := r.warnings ++ ws }) ?_ ?_ ?_ ?_
  · exact fun r => by simp only [List.append_nil]
  · exact fun r a b c d => by simp only [List.append_assoc]
  · exact fun r w => by simp only [List.append_nil, ParallelRegion.warn]
  · intro ti hti a b
    have hti := h ti hti
    unfold ParallelRegion.flushTask ParallelRegion.typeOf at *
    rw [hti]
    simp only [Option.map_some, List.append_nil]

theorem outputs_flushCpy {outs : List (Output TaskCpy)}
    (h : ∀ ti ∈ flushed outs, r.typeOf ti.kid = some (T ti.kid) ∧ ∃ d, ti.t_delay = some d) :
    r.outputs ParallelRegion.flushCpy outs = some { r with
      fout_cpy := r.fout_cpy ++ (flushed outs).flatMap (cpyRows T)
      warnings := r.warnings ++ warned outs } := by
  refine outputs_eq (fun r rows ws => { r with
    fout_cpy := r.fout_cpy ++ rows, warnings := r.warnings ++ ws }) ?_ ?_ ?_ ?_
  · exact fun r => by simp only [List.append_nil]
  · exact fun r a b c d => by simp only [List.append_assoc]
  · exact fun r w => by simp only [List.append_nil, ParallelRegion.warn]
  · intro ti hti a b
    obtain ⟨htype, d, hd⟩ := h ti hti
    obtain ⟨kp, hkp, htype⟩ := Option.bind_eq_some_iff.mp htype
    unfold ParallelRegion.flushCpy cpyRows
    simp only [hkp, htype, hd, Option.bind_some, Option.map_some, List.append_nil,
      Option.toList_some]

theorem outputs_flushKer {outs : List (Output TaskKer)}
    (h : ∀ ti ∈ flushed outs, ∃ p d, ti.push = some p ∧ ti.t_delay = some d ∧
      r.typeOf p.kid = some (T p.kid)) :
    r.outputs (ParallelRegion.flushKer fmtdefs) outs = some { r with
      fout_kern := r.fout_kern ++ (flushed outs).flatMap (kernRows fmtdefs T)
      warnings := r.warnings ++ warned outs } := by
  refine outputs_eq (fun r rows ws => { r with
    fout_kern := r.fout_kern ++ rows, warnings := r.warnings ++ ws }) ?_ ?_ ?_ ?_
  · exact fun r => by simp only [List.append_nil]
  · exact fun r a b c d => by simp only [List.append_assoc]
  · exact fun r w => by simp only [List.append_nil, ParallelRegion.warn]
  · intro ti hti a b
    obtain ⟨p, d, hp, hd, htype⟩ := h ti hti
    unfold ParallelRegion.flushKer kernRows ParallelRegion.typeOf at *
    simp only [hp, hd, htype, Option.bind_some, Option.map_some, List.append_nil,
      Option.toList_some]

theorem outputs_flushCall {outs : List (Output CallInfo)} :
    r.outputs ParallelRegion.flushCall outs = some { r with
      fout_call := r.fout_call ++ (flushed outs).map callRow
      warnings := r.warnings ++ warned outs } := by
  rw [List.map_eq_flatMap]
  refine outputs_eq (fun r rows ws => { r with
    fout_call := r.fout_call ++ rows, warnings := r.warnings ++ ws }) ?_ ?_ ?_ ?_
  · exact fun r => by simp only [List.append_nil]
  · exact fun r a b c d => by simp only [List.append_assoc]
  · exact fun r w => by simp only [List.append_nil, ParallelRegion.warn]
  · intro ci _ a b
    simp only [ParallelRegion.flushCall, List.append_nil]

end Flushes

/-! ## Runs -/

/-- The five maps. -/
structure Tables where
  kproc : BitVec 16 → Option Kproc
  task : EventData → Option TaskInfo
  cpy : EventData → Option TaskCpy
  ker : EventData → Option TaskKer
  call : BitVec 16 → List CallInfo

/-- What the machines flush and print. -/
structure Outputs where
  kproc : List (BitVec 16 × Output Kproc)
  task : List (EventData × Output TaskInfo)
  cpy : List (EventData × Output TaskCpy)
  ker : List (EventData × Output TaskKer)
  call : List (BitVec 16 × Output CallInfo)

namespace Outputs

def append (out out' : Outputs) : Outputs :=
  ⟨out.kproc ++ out'.kproc, out.task ++ out'.task, out.cpy ++ out'.cpy, out.ker ++ out'.ker,
    out.call ++ out'.call⟩

/-- The warnings, machine by machine. -/
def warnings (out : Outputs) : List Warning :=
  warned (out.kproc.map Prod.snd) ++ warned (out.task.map Prod.snd) ++
    warned (out.cpy.map Prod.snd) ++ warned (out.ker.map Prod.snd) ++
    warned (out.call.map Prod.snd)

/-- The pushes of the kernels that are flushed have been seen. -/
def Pushed (out : Outputs) : Prop :=
  ∀ ti ∈ flushed (out.ker.map Prod.snd), ∃ p, ti.push = some p

end Outputs

/-- The runs of the five machines. -/
structure Runs (t : Tables) (es : List KaapiEvent) (t' : Tables) (out : Outputs) : Prop where
  kproc : threads.run t.kproc es = some (t'.kproc, out.kproc)
  task : tasks.run t.task es = some (t'.task, out.task)
  cpy : copies.run t.cpy es = some (t'.cpy, out.cpy)
  ker : kernels.run t.ker es = some (t'.ker, out.ker)
  call : calls.run t.call es = some (t'.call, out.call)

namespace ParallelRegion

def tables (r : ParallelRegion) : Tables :=
  ⟨r.container_kproc, r.container_task, r.container_task_cpy, r.container_task_ker,
    r.container_call_info⟩

/-- The region with new maps, the rows of what is flushed, and more warnings. -/
def after (fmtdefs : List FmtDef) (T : BitVec 16 → String) (r : ParallelRegion) (t : Tables)
    (out : Outputs) (ws : List Warning) : ParallelRegion where
  container_kproc := t.kproc
  container_task := t.task
  container_task_cpy := t.cpy
  container_task_ker := t.ker
  container_call_info := t.call
  fout_parallel := r.fout_parallel ++ (flushed (out.kproc.map Prod.snd)).map (kprocRow T)
  fout_task := r.fout_task ++
    (flushed (out.task.map Prod.snd)).map fun ti => taskRow fmtdefs (T ti.kid) ti
  fout_cpy := r.fout_cpy ++ (flushed (out.cpy.map Prod.snd)).flatMap (cpyRows T)
  fout_kern := r.fout_kern ++ (flushed (out.ker.map Prod.snd)).flatMap (kernRows fmtdefs T)
  fout_call := r.fout_call ++ (flushed (out.call.map Prod.snd)).map callRow
  warnings := r.warnings ++ ws

end ParallelRegion

section Step

variable {fmtdefs : List FmtDef} {T : BitVec 16 → String} {seen : BitVec 16 → Prop}
  {r : ParallelRegion} {e : KaapiEvent} {t : Tables} {out out' : Outputs} {ws ws' : List Warning}

@[simp] theorem flushed_nil : flushed ([] : List (Output ρ)) = [] :=
  rfl

theorem flushed_append (outs outs' : List (Output ρ)) :
    flushed (outs ++ outs') = flushed outs ++ flushed outs' :=
  List.filterMap_append

theorem warned_append (outs outs' : List (Output ρ)) :
    warned (outs ++ outs') = warned outs ++ warned outs' :=
  List.filterMap_append

theorem map_snd_map {κ : Type} (k : κ) (outs : List (Output ρ)) :
    (outs.map fun o => (k, o)).map Prod.snd = outs := by
  rw [List.map_map]
  exact List.map_id outs

theorem Runs.of_cons {t t' : Tables} {es : List KaapiEvent} (h : Runs t (e :: es) t' out) :
    ∃ t₁ out₁ out₂, Runs t [e] t₁ out₁ ∧ Runs t₁ es t' out₂ ∧ out = out₁.append out₂ := by
  obtain ⟨t₁, o₁, o₁', hk, hk', hok⟩ := of_run_cons h.kproc
  obtain ⟨t₂, o₂, o₂', ht, ht', hot⟩ := of_run_cons h.task
  obtain ⟨t₃, o₃, o₃', hc, hc', hoc⟩ := of_run_cons h.cpy
  obtain ⟨t₄, o₄, o₄', hr, hr', hor⟩ := of_run_cons h.ker
  obtain ⟨t₅, o₅, o₅', hl, hl', hol⟩ := of_run_cons h.call
  refine ⟨⟨t₁, t₂, t₃, t₄, t₅⟩, ⟨o₁, o₂, o₃, o₄, o₅⟩, ⟨o₁', o₂', o₃', o₄', o₅'⟩,
    ⟨hk, ht, hc, hr, hl⟩, ⟨hk', ht', hc', hr', hl'⟩, ?_⟩
  obtain ⟨ok, ot, oc, or, ol⟩ := out
  exact Outputs.mk.injEq .. |>.mpr ⟨hok, hot, hoc, hor, hol⟩

theorem after_after (t t' : Tables) :
    (r.after fmtdefs T t out ws).after fmtdefs T t' out' ws' =
      r.after fmtdefs T t' (out.append out') (ws ++ ws') := by
  simp only [ParallelRegion.after, Outputs.append, List.map_append, flushed_append,
    List.flatMap_append, List.append_assoc]

theorem mem_warnings_append {w : Warning} (h : w ∈ out.warnings ∨ w ∈ out'.warnings) :
    w ∈ (out.append out').warnings := by
  simp only [Outputs.warnings, Outputs.append, List.map_append, warned_append, List.mem_append] at *
  tauto

section Single

variable {t t' : Tables}

/-- The machines have one result each. -/
theorem Runs.eq {es : List KaapiEvent} (h : Runs t es t' out) {tk tt tc tr tl ok ot oc okr ol}
    (hk : threads.run t.kproc es = some (tk, ok)) (ht : tasks.run t.task es = some (tt, ot))
    (hc : copies.run t.cpy es = some (tc, oc)) (hr : kernels.run t.ker es = some (tr, okr))
    (hl : calls.run t.call es = some (tl, ol)) :
    t' = ⟨tk, tt, tc, tr, tl⟩ ∧ out = ⟨ok, ot, oc, okr, ol⟩ := by
  obtain ⟨hk₁, hk₂⟩ := Prod.mk.inj (Option.some.inj (h.kproc.symm.trans hk))
  obtain ⟨ht₁, ht₂⟩ := Prod.mk.inj (Option.some.inj (h.task.symm.trans ht))
  obtain ⟨hc₁, hc₂⟩ := Prod.mk.inj (Option.some.inj (h.cpy.symm.trans hc))
  obtain ⟨hr₁, hr₂⟩ := Prod.mk.inj (Option.some.inj (h.ker.symm.trans hr))
  obtain ⟨hl₁, hl₂⟩ := Prod.mk.inj (Option.some.inj (h.call.symm.trans hl))
  obtain ⟨_, _, _, _, _⟩ := t'
  obtain ⟨_, _, _, _, _⟩ := out
  exact ⟨Tables.mk.injEq .. |>.mpr ⟨hk₁, ht₁, hc₁, hr₁, hl₁⟩,
    Outputs.mk.injEq .. |>.mpr ⟨hk₂, ht₂, hc₂, hr₂, hl₂⟩⟩

end Single

/-- The threads stay known when an event comes from one of them. -/
theorem Known.insert (h : Known T seen r) {kid : BitVec 16} (hkid : seen kid) :
    Known T (fun k => seen k ∨ k = kid) r where
  kproc := fun k hk => h.kproc k (hk.elim id fun heq => heq ▸ hkid)
  type := h.type
  task := fun t ti hti => .inl (h.task t ti hti)
  cpy := fun t ti hti => .inl (h.cpy t ti hti)
  ker := fun t ti p hti hp => .inl (h.ker t ti p hti hp)

/-- The step of the converter that the machines describe. -/
def Steps (fmtdefs : List FmtDef) (T : BitVec 16 → String) (seen : BitVec 16 → Prop)
    (r : ParallelRegion) (e : KaapiEvent) (t : Tables) (out : Outputs) : Prop :=
  ∃ ws, callbackMain fmtdefs r e = some (r.after fmtdefs T t out ws) ∧
    (∀ w ∈ ws, w ∈ out.warnings) ∧
    Known T (fun k => seen k ∨ k = e.body.kid) (r.after fmtdefs T t out ws)

/-- An event on a thread. -/
theorem callbackMain_kproc (h : Known T seen r) (hdate : e.date ≠ zeroDate)
    (he : seen e.body.kid ∨ IsStart T e) (hevtno : e.body.evtno = evtKproc)
    (hruns : Runs r.tables [e] t out) : Steps fmtdefs T seen r e t out := by
  generalize hp : kproc e (r.container_kproc e.body.kid) = p at *
  obtain ⟨rfl, rfl⟩ := hruns.eq (run_of_evtno (M := threads) rfl hdate hevtno (congrArg some hp))
    (run_of_evtno_ne rfl (by rw [hevtno]; decide)) (run_of_evtno_ne rfl (by rw [hevtno]; decide))
    (run_of_evtno_ne rfl (by rw [hevtno]; decide))
    (calls_none (not_isCall (by rw [hevtno]; decide)))
  have hholds := kproc_holds rfl (h.type e.body.kid) fun hnone _ => by
    obtain ⟨kp, hkp⟩ | hstart := he.imp_left (h.kproc e.body.kid)
    · exact absurd (hnone.symm.trans hkp) (Option.some_ne_none kp).symm
    · exact hstart.2.2
  have hknown := kproc_known (he.imp_left (h.kproc e.body.kid))
  rw [hp] at hholds hknown
  refine ⟨warned p.2, ?_, ?_, ?_⟩
  · unfold callbackMain
    dsimp only
    rw [if_neg hdate, if_pos hevtno, hp]
    refine (outputs_flushKproc (T := T) fun kp hkp => ?_).trans ?_
    · obtain ⟨hkid, htype⟩ := hholds.2 kp hkp
      rw [hkid, htype]
    · simp [ParallelRegion.after, ParallelRegion.tables]
  · intro w hw
    simp only [Outputs.warnings, map_snd_map, List.mem_append]
    exact .inl (.inl (.inl (.inl hw)))
  · constructor
    case kproc =>
      intro kid hkid
      by_cases heq : kid = e.body.kid
      · subst heq
        obtain ⟨kp, hkp⟩ := hknown
        exact ⟨kp, (Function.update_self _ _ _).trans hkp⟩
      · obtain ⟨kp, hkp⟩ := h.kproc kid (hkid.resolve_right heq)
        exact ⟨kp, (Function.update_of_ne heq _ _).trans hkp⟩
    case type =>
      intro kid kp hkp
      by_cases heq : kid = e.body.kid
      · subst heq
        have hkp : Function.update r.container_kproc e.body.kid p.1 e.body.kid = some kp := hkp
        rw [Function.update_self] at hkp
        exact hholds.1 kp hkp
      · have hkp : Function.update r.container_kproc e.body.kid p.1 kid = some kp := hkp
        rw [Function.update_of_ne heq] at hkp
        exact h.type kid kp hkp
    case task => exact fun t ti hti => .inl (h.task t ti hti)
    case cpy => exact fun t ti hti => .inl (h.cpy t ti hti)
    case ker => exact fun t ti p hti hp => .inl (h.ker t ti p hti hp)

/-- An entry is changed. -/
theorem forall_update {κ σ : Type} [DecidableEq κ] {m : κ → Option σ} {k : κ} {y : Option σ}
    {P : σ → Prop} (hm : ∀ k x, m k = some x → P x) (hy : ∀ x, y = some x → P x) :
    ∀ k' x, Function.update m k y k' = some x → P x := by
  intro k' x hx
  by_cases hk : k' = k
  · subst hk
    rw [Function.update_self] at hx
    exact hy x hx
  · rw [Function.update_of_ne hk] at hx
    exact hm k' x hx

/-- An event on a task. -/
theorem callbackMain_task (h : Known T seen r) (hdate : e.date ≠ zeroDate)
    (hkid : seen e.body.kid) (hevtno : e.body.evtno = evtTaskExec)
    (hruns : Runs r.tables [e] t out) : Steps fmtdefs T seen r e t out := by
  generalize hp : taskExec e (r.container_task e.body.d0) = p at *
  obtain ⟨rfl, rfl⟩ := hruns.eq (run_of_evtno_ne rfl (by rw [hevtno]; decide))
    (run_of_evtno (M := tasks) rfl hdate hevtno (congrArg some hp))
    (run_of_evtno_ne rfl (by rw [hevtno]; decide)) (run_of_evtno_ne rfl (by rw [hevtno]; decide))
    (calls_none (not_isCall (by rw [hevtno]; decide)))
  have hholds := taskExec_holds hkid (h.task e.body.d0)
  rw [hp] at hholds
  have hknown := h.insert hkid
  refine ⟨warned p.2, ?_, ?_, { hknown with task := ?_ }⟩
  · unfold callbackMain
    dsimp only
    rw [if_neg hdate, if_neg (by rw [hevtno]; decide), if_pos hevtno, hp]
    refine (outputs_flushTask (T := T) fun ti hti => ?_).trans ?_
    · exact h.typeOf (hholds.2 ti hti)
    · simp [ParallelRegion.after, ParallelRegion.tables]
  · intro w hw
    simp only [Outputs.warnings, map_snd_map, List.mem_append]
    exact .inl (.inl (.inl (.inr hw)))
  · exact forall_update hknown.task fun ti hti => .inl (hholds.1 ti hti)

/-- An event on a copy. -/
theorem callbackMain_cpy (h : Known T seen r) (hdate : e.date ≠ zeroDate)
    (hkid : seen e.body.kid) (hevtno : e.body.evtno = evtOffloadCpy)
    (hruns : Runs r.tables [e] t out) : Steps fmtdefs T seen r e t out := by
  generalize hp : offloadCpy e (r.container_task_cpy e.body.d0) = p at *
  obtain ⟨rfl, rfl⟩ := hruns.eq (run_of_evtno_ne rfl (by rw [hevtno]; decide))
    (run_of_evtno_ne rfl (by rw [hevtno]; decide))
    (run_of_evtno (M := copies) rfl hdate hevtno (congrArg some hp))
    (run_of_evtno_ne rfl (by rw [hevtno]; decide))
    (calls_none (not_isCall (by rw [hevtno]; decide)))
  have hholds := offloadCpy_holds hkid (h.cpy e.body.d0)
  have hdelay {x : TaskCpy} := offloadCpy_delay e (r.container_task_cpy e.body.d0) (x := x)
  rw [hp] at hholds hdelay
  have hknown := h.insert hkid
  refine ⟨warned p.2, ?_, ?_, { hknown with cpy := ?_ }⟩
  · unfold callbackMain
    dsimp only
    rw [if_neg hdate, if_neg (by rw [hevtno]; decide), if_neg (by rw [hevtno]; decide),
      if_pos hevtno, hp]
    refine (outputs_flushCpy (T := T) fun ti hti => ?_).trans ?_
    · exact ⟨h.typeOf (hholds.2 ti hti), hdelay hti⟩
    · simp [ParallelRegion.after, ParallelRegion.tables]
  · intro w hw
    simp only [Outputs.warnings, map_snd_map, List.mem_append]
    exact .inl (.inl (.inr hw))
  · exact forall_update hknown.cpy fun ti hti => .inl (hholds.1 ti hti)

/-- An event on a kernel. -/
theorem callbackMain_ker (h : Known T seen r) (hdate : e.date ≠ zeroDate)
    (hkid : seen e.body.kid) (hevtno : e.body.evtno = evtOffloadKern)
    (hruns : Runs r.tables [e] t out) (hpushed : out.Pushed) : Steps fmtdefs T seen r e t out := by
  generalize hp : offloadKern e (r.container_task_ker e.body.d0) = p at *
  obtain ⟨rfl, rfl⟩ := hruns.eq (run_of_evtno_ne rfl (by rw [hevtno]; decide))
    (run_of_evtno_ne rfl (by rw [hevtno]; decide)) (run_of_evtno_ne rfl (by rw [hevtno]; decide))
    (run_of_evtno (M := kernels) rfl hdate hevtno (congrArg some hp))
    (calls_none (not_isCall (by rw [hevtno]; decide)))
  have hholds := offloadKern_holds hkid fun ti hti p => h.ker e.body.d0 ti p hti
  have hdelay {x : TaskKer} := offloadKern_delay e (r.container_task_ker e.body.d0) (x := x)
  rw [hp] at hholds hdelay
  have hknown := h.insert hkid
  refine ⟨warned p.2, ?_, ?_, { hknown with ker := ?_ }⟩
  · unfold callbackMain
    dsimp only
    rw [if_neg hdate, if_neg (by rw [hevtno]; decide), if_neg (by rw [hevtno]; decide),
      if_neg (by rw [hevtno]; decide), if_pos hevtno, hp]
    refine (outputs_flushKer (T := T) fun ti hti => ?_).trans ?_
    · obtain ⟨push, hpush⟩ := hpushed ti (by rwa [map_snd_map])
      obtain ⟨d, hd⟩ := hdelay hti
      exact ⟨push, d, hpush, hd, h.typeOf (hholds.2 ti hti push hpush)⟩
    · simp [ParallelRegion.after, ParallelRegion.tables]
  · intro w hw
    simp only [Outputs.warnings, map_snd_map, List.mem_append]
    exact .inl (.inr hw)
  · have hker := forall_update (k := e.body.d0) (P := fun ti => ∀ p, ti.push = some p → seen p.kid)
      (fun k ti hti p hp => h.ker k ti p hti hp) hholds.1
    exact fun k ti push hti hpush => .inl (hker k ti hti push hpush)

/-- An event on a call. The machine has done its step. -/
theorem callbackMain_call (h : Known T seen r) (hdate : e.date ≠ zeroDate)
    (hkid : seen e.body.kid) (hevent : IsCall e) (hruns : Runs r.tables [e] t out) :
    Steps fmtdefs T seen r e t out := by
  have hne : ∀ n ∈ [evtKproc, evtTaskExec, evtOffloadCpy, evtOffloadKern], e.body.evtno ≠ n := by
    rcases hevent.evtno with hev | hev
    all_goals
      rw [hev]
      decide
  simp only [List.forall_mem_cons] at hne
  obtain ⟨hkproc, htask, hcpy, hker, -⟩ := hne
  obtain ⟨l, outs, _, hstep, hnil, _⟩ := of_run_cons_some (calls_key hdate hevent) hruns.call
  obtain ⟨rfl, rfl⟩ := hruns.eq (run_of_evtno_ne rfl hkproc) (run_of_evtno_ne rfl htask)
    (run_of_evtno_ne rfl hcpy) (run_of_evtno_ne rfl hker)
    (run_singleton_some (calls_key hdate hevent) hstep)
  have hknown := h.insert hkid
  refine ⟨warned outs, ?_, ?_, { hknown with }⟩
  · have hcall : callbackMain fmtdefs r e =
        ({ r with container_call_info :=
          Function.update r.container_call_info e.body.kid l }).outputs
            ParallelRegion.flushCall outs := by
      unfold callbackMain
      dsimp only
      rw [if_neg hdate, if_neg hkproc, if_neg htask, if_neg hcpy, if_neg hker]
      rcases hevent.evtno with hev | hev
      · have hstep : tasksync e (r.container_call_info e.body.kid) = (l, outs) :=
          Option.some.inj ((if_pos hev).symm.trans hstep)
        rw [if_pos hev, hstep]
      · have hsync : e.body.evtno ≠ evtTasksync := by
          rw [hev]
          decide
        have hstep : call e (r.container_call_info e.body.kid) = some (l, outs) :=
          (if_neg hsync).symm.trans hstep
        rw [if_neg hsync, if_pos hev, hstep]
        rfl
    refine hcall.trans (outputs_flushCall.trans ?_)
    simp [ParallelRegion.after, ParallelRegion.tables]
  · intro w hw
    simp only [Outputs.warnings, map_snd_map, List.mem_append]
    exact .inr hw

/-- The other events change nothing. -/
theorem callbackMain_pass (hdate : e.date ≠ zeroDate)
    (hevtno : e.body.evtno ≠ evtKproc ∧ e.body.evtno ≠ evtTaskExec ∧
      e.body.evtno ≠ evtOffloadCpy ∧ e.body.evtno ≠ evtOffloadKern) (hcall : ¬ IsCall e) :
    callbackMain fmtdefs r e = some r := by
  obtain ⟨hkproc, htask, hcpy, hker⟩ := hevtno
  unfold callbackMain
  dsimp only
  rw [if_neg hdate, if_neg hkproc, if_neg htask, if_neg hcpy, if_neg hker]
  split
  case isTrue hsync =>
    -- the begin of a synchronization
    have hkind : e.body.kind ≠ 1#2 := fun hkind => hcall (.inl ⟨hsync, hkind⟩)
    unfold tasksync
    rw [if_neg hkind, Function.update_eq_self]
    rfl
  case isFalse =>
    split
    case isTrue hev =>
      -- the end of a call
      have hkind : e.body.kind = 1#2 := by_contra fun hkind => hcall (.inr ⟨hev, hkind⟩)
      unfold call
      dsimp only
      rw [if_neg (by rw [hkind]; decide), if_pos hkind, Option.bind_some, Function.update_eq_self]
      rfl
    case isFalse => rfl

/-- What the converter does on an event whose thread is known or started by it. -/
theorem callbackMain_steps (h : Known T seen r) (hdate : e.date ≠ zeroDate)
    (he : seen e.body.kid ∨ IsStart T e) (hruns : Runs r.tables [e] t out)
    (hpushed : out.Pushed) : Steps fmtdefs T seen r e t out := by
  by_cases hkproc : e.body.evtno = evtKproc
  · exact callbackMain_kproc h hdate he hkproc hruns
  · have hkid : seen e.body.kid := he.resolve_right fun hstart => hkproc hstart.1
    by_cases htask : e.body.evtno = evtTaskExec
    · exact callbackMain_task h hdate hkid htask hruns
    by_cases hcpy : e.body.evtno = evtOffloadCpy
    · exact callbackMain_cpy h hdate hkid hcpy hruns
    by_cases hker : e.body.evtno = evtOffloadKern
    · exact callbackMain_ker h hdate hkid hker hruns hpushed
    by_cases hcall : IsCall e
    · exact callbackMain_call h hdate hkid hcall hruns
    · obtain ⟨rfl, rfl⟩ := hruns.eq (run_of_evtno_ne rfl hkproc) (run_of_evtno_ne rfl htask)
        (run_of_evtno_ne rfl hcpy) (run_of_evtno_ne rfl hker) (calls_none hcall)
      refine ⟨[], (callbackMain_pass hdate ⟨hkproc, htask, hcpy, hker⟩ hcall).trans ?_,
        fun w hw => absurd hw List.not_mem_nil, { h.insert hkid with }⟩
      simp [ParallelRegion.after, ParallelRegion.tables]

end Step

/-! ## The whole trace -/

/-- The converter on a trace is described by the runs of the machines. The induction is on the
trace. -/
theorem convert_eq (fmtdefs : List FmtDef) {T : BitVec 16 → String} {seen : BitVec 16 → Prop}
    {r : ParallelRegion} {es : List KaapiEvent} {t : Tables} {out : Outputs} (h : Known T seen r)
    (hes : Announced T seen es) (hruns : Runs r.tables es t out) (hpushed : out.Pushed) :
    ∃ ws, convert fmtdefs es r = some (r.after fmtdefs T t out ws) ∧
      ∀ w ∈ ws, w ∈ out.warnings := by
  induction es generalizing seen r out with
  | nil =>
      obtain ⟨rfl, rfl⟩ := hruns.eq rfl rfl rfl rfl rfl
      refine ⟨[], ?_, fun w hw => absurd hw List.not_mem_nil⟩
      show some r = _
      simp [ParallelRegion.after, ParallelRegion.tables]
  | cons e es ih =>
      obtain ⟨⟨hdate, he⟩, hes⟩ := hes
      obtain ⟨t₁, out₁, out₂, hfirst, hrest, rfl⟩ := hruns.of_cons
      have hpushed₁ : out₁.Pushed := fun ti hti => hpushed ti <| by
        simp only [Outputs.append, List.map_append, flushed_append, List.mem_append]
        exact .inl hti
      have hpushed₂ : out₂.Pushed := fun ti hti => hpushed ti <| by
        simp only [Outputs.append, List.map_append, flushed_append, List.mem_append]
        exact .inr hti
      have hsteps : Steps fmtdefs T seen r e t₁ out₁ :=
        callbackMain_steps h hdate he hfirst hpushed₁
      obtain ⟨ws₁, hstep, hws₁, hknown⟩ := hsteps
      obtain ⟨ws₂, hconvert, hws₂⟩ := ih hknown hes hrest hpushed₂
      refine ⟨ws₁ ++ ws₂, ?_, fun w hw => mem_warnings_append ?_⟩
      · rw [← after_after t₁ t]
        exact (congrArg (Option.bind · _) hstep).trans hconvert
      · exact (List.mem_append.mp hw).imp (hws₁ w) (hws₂ w)

end Xkblas.Trace.Converter
