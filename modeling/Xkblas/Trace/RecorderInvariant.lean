import Xkblas.Library.Ownership
import Xkblas.Trace.Recorder

/-!
# The buffers and the files of the trace recorder

`BuffersInv` says who has a buffer: a thread, the fifo, a writer or the list of free buffers.
`FilesInv` says what a file has while it is written: with `written k`, the events of the buffers of
the kid that are completely written, each point of `_kaapi_write_evb` determines the file. It needs
that the writers start in the order in which they took the buffers. `EventsInv` says that no event
is lost on the way, and `PhaseInv` how the program ends.
-/

namespace Xkblas.Trace.Recorder

open Library

variable {κ ι ε β : Type}

/-! ## Who has a buffer -/

/-- Where a buffer can be. -/
inductive Place (κ ι : Type) where
  | thread (k : κ)
  | queue
  | writer (w : Writer ι)
  | free

def Thread.buffers : Thread → List Evb
  | .opened evb => [evb]
  | _ => []

/-- The buffer of a writer. -/
def Pc.buffer : Pc κ β → Option Evb
  | .test evb | .openFile evb | .dummy evb | .write evb _ | .release evb => some evb
  | _ => none

/-- The buffer of a writer that is not written yet. -/
def Pc.pending : Pc κ β → Option Evb
  | .test evb | .openFile evb | .dummy evb | .write evb _ => some evb
  | _ => none

/-- The buffer that a writer has started to write. -/
def Pc.started : Pc κ β → Option Evb
  | .openFile evb | .dummy evb | .write evb _ => some evb
  | _ => none

def State.places (s : State κ ι ε β) : Place κ ι → List Evb
  | .thread k => (s.thread k).buffers
  | .queue => s.listevt
  | .writer w => (s.pc w).buffer.toList
  | .free => s.listevtfree

/-- Each buffer is in one place, and `taken` has those of the writers that are not written. -/
structure BuffersInv (s : State κ ι ε β) : Prop where
  owned : ∃ S, Owned s.places S ∧ ∀ evb ∈ S, evb < s.brk
  kid : ∀ k evb, s.thread k = .opened evb → s.kid evb = k
  nodup : s.taken.Nodup
  taken : ∀ evb, evb ∈ s.taken ↔ ∃ w, (s.pc w).pending = some evb

variable {s t : State κ ι ε β} {w w' : Writer ι} {k k' : κ} {evb evb' : Evb} {p : Pc κ β}

theorem Pc.pending_of_started (h : p.started = some evb) : p.pending = some evb := by
  cases p with
  | openFile evb => exact h
  | dummy evb => exact h
  | write evb towrite => exact h
  | _ => cases h

theorem Pc.buffer_of_pending (h : p.pending = some evb) : p.buffer = some evb := by
  cases p with
  | test evb => exact h
  | openFile evb => exact h
  | dummy evb => exact h
  | write evb towrite => exact h
  | _ => cases h

/-- The buffer of a writer is in its place. -/
theorem mem_places_writer : evb ∈ s.places (.writer w) ↔ (s.pc w).buffer = some evb :=
  Option.mem_toList

theorem mem_places_thread : evb ∈ s.places (.thread k) ↔ s.thread k = .opened evb := by
  show evb ∈ (s.thread k).buffers ↔ _
  cases s.thread k with
  | opened evb' =>
      show evb ∈ [evb'] ↔ Thread.opened evb' = Thread.opened evb
      rw [List.mem_singleton, Thread.opened.injEq]
      exact eq_comm
  | never => exact ⟨nofun, nofun⟩
  | flushed => exact ⟨nofun, nofun⟩
  | closed => exact ⟨nofun, nofun⟩

namespace BuffersInv

theorem unique (h : BuffersInv s) {p q : Place κ ι} (hp : evb ∈ s.places p)
    (hq : evb ∈ s.places q) : p = q := by
  obtain ⟨_, howned, _⟩ := h.owned
  exact howned.unique hp hq

theorem lt_brk (h : BuffersInv s) {p : Place κ ι} (hp : evb ∈ s.places p) : evb < s.brk := by
  obtain ⟨S, howned, hlt⟩ := h.owned
  exact hlt evb ((howned.mem evb).mpr ⟨p, hp⟩)

/-- A writer has the buffers that are not written. -/
theorem writer_of_taken (h : BuffersInv s) (hevb : evb ∈ s.taken) :
    ∃ w, evb ∈ s.places (.writer w) := by
  obtain ⟨w, hw⟩ := (h.taken evb).mp hevb
  exact ⟨w, mem_places_writer.mpr (Pc.buffer_of_pending hw)⟩

/-- A buffer that is somewhere else is written or not taken. -/
theorem notMem_taken (h : BuffersInv s) {p : Place κ ι} (hp : evb ∈ s.places p)
    (hne : ∀ w, p ≠ .writer w) : evb ∉ s.taken := by
  intro hevb
  obtain ⟨w, hw⟩ := h.writer_of_taken hevb
  exact hne w (h.unique hp hw)

/-- Two writers have two buffers. -/
theorem writer_unique (h : BuffersInv s) (hw : (s.pc w).pending = some evb)
    (hw' : (s.pc w').pending = some evb) : w = w' := by
  have hplace : (Place.writer w : Place κ ι) = Place.writer w' :=
    h.unique (mem_places_writer.mpr (Pc.buffer_of_pending hw))
      (mem_places_writer.mpr (Pc.buffer_of_pending hw'))
  exact Place.writer.inj hplace

end BuffersInv

section Files

variable [DecidableEq κ] {cfg : Config κ ε β} {written : κ → List ε}

/-! ## The files -/

/-- The file of the kid is closed. -/
def State.Closed (s : State κ ι ε β) (k : κ) : Prop :=
  ∃ kids, s.pc .fini = .close kids ∧ k ∉ kids

/-- The events `written k` are in the file of `k`. The file starts with the dummy header, and the
buffer that is being written follows. -/
structure FilesInv (cfg : Config κ ε β) (written : κ → List ε) (s : State κ ι ε β) : Prop where
  descr : ∀ k fd, ¬ s.Closed k → s.listfd_set k = some fd →
    fd < s.nextFd ∧ s.fds fd = ⟨k, (s.files k).length, false⟩
  unopened : ∀ k, s.listfd_set k = none → written k = []
  first : ∀ w evb, (s.pc w).started = some evb → (s.unwritten (s.kid evb)).head? = some evb
  opening : ∀ w evb, s.pc w = .openFile evb → s.listfd_set (s.kid evb) = none
  dummy : ∀ w evb, s.pc w = .dummy evb → s.listfd_set (s.kid evb) ≠ none ∧
    s.files (s.kid evb) = [] ∧ written (s.kid evb) = []
  writing : ∀ w evb towrite, s.pc w = .write evb towrite → s.listfd_set (s.kid evb) ≠ none ∧
    s.files (s.kid evb) ++ towrite =
      cfg.dummyHeader ++ cfg.bytes (written (s.kid evb)) ++ cfg.bytes (s.buffers evb).events
  quiet : ∀ k, ¬ s.Closed k → s.listfd_set k ≠ none →
    (∀ w evb, (s.pc w).started = some evb → s.kid evb ≠ k) →
    s.files k = cfg.dummyHeader ++ cfg.bytes (written k)
  closed : ∀ k, s.Closed k → s.unwritten k = [] ∧
    (s.listfd_set k ≠ none → s.files k = cfg.header k ++ cfg.bytes (written k))

/-- A step that does not touch the files nor the buffers that are being written. -/
structure SameFiles (s t : State κ ι ε β) : Prop where
  listfd_set : t.listfd_set = s.listfd_set
  fds : t.fds = s.fds
  nextFd : t.nextFd = s.nextFd
  files : t.files = s.files
  taken : t.taken = s.taken
  pc : ∀ w, t.pc w = s.pc w ∨ (s.pc w).buffer = none ∧ (t.pc w).buffer = none
  closed : ∀ k, t.Closed k ↔ s.Closed k
  buffers : ∀ evb ∈ s.taken, t.buffers evb = s.buffers evb

omit [DecidableEq κ] in
/-- A point that has a buffer has it before and after such a step. -/
theorem SameFiles.pc_eq (hs : SameFiles s t) (hw : (t.pc w).buffer = some evb) :
    s.pc w = t.pc w := by
  rcases hs.pc w with heq | ⟨_, hnone⟩
  · exact heq.symm
  · rw [hnone] at hw
    cases hw

omit [DecidableEq κ] in
theorem SameFiles.pc_eq' (hs : SameFiles s t) (hw : (s.pc w).buffer = some evb) :
    t.pc w = s.pc w := by
  rcases hs.pc w with heq | ⟨hnone, _⟩
  · exact heq
  · rw [hnone] at hw
    cases hw

/-- The buffers of a kid that are not written. -/
theorem SameFiles.unwritten (hs : SameFiles s t) (k : κ) : t.unwritten k = s.unwritten k := by
  unfold State.unwritten
  rw [hs.taken]
  refine List.filter_congr fun evb hevb => ?_
  unfold State.kid
  rw [hs.buffers evb hevb]

theorem FilesInv.frame (h : FilesInv cfg written s) (hb : BuffersInv s) (hs : SameFiles s t) :
    FilesInv cfg written t := by
  have hpending : ∀ {w evb}, (t.pc w).pending = some evb →
      s.pc w = t.pc w ∧ t.buffers evb = s.buffers evb := by
    intro w evb hw
    have hpc := hs.pc_eq (Pc.buffer_of_pending hw)
    rw [← hpc] at hw
    exact ⟨hpc, hs.buffers evb ((hb.taken evb).mpr ⟨w, hw⟩)⟩
  have hkid : ∀ {evb}, t.buffers evb = s.buffers evb → t.kid evb = s.kid evb := fun heq =>
    congrArg EventBuffer.kid heq
  constructor
  case descr =>
    intro k fd hopen hfd
    rw [hs.closed] at hopen
    rw [hs.listfd_set] at hfd
    rw [hs.fds, hs.nextFd, hs.files]
    exact h.descr k fd hopen hfd
  case unopened =>
    rw [hs.listfd_set]
    exact h.unopened
  case first =>
    intro w evb hw
    obtain ⟨hpc, hbuf⟩ := hpending (Pc.pending_of_started hw)
    rw [hs.unwritten, hkid hbuf]
    rw [← hpc] at hw
    exact h.first w evb hw
  case opening =>
    intro w evb hw
    have hevb : (t.pc w).pending = some evb := by rw [hw]; rfl
    obtain ⟨hpc, hbuf⟩ := hpending hevb
    rw [hs.listfd_set, hkid hbuf]
    exact h.opening w evb (hpc.trans hw)
  case dummy =>
    intro w evb hw
    have hevb : (t.pc w).pending = some evb := by rw [hw]; rfl
    obtain ⟨hpc, hbuf⟩ := hpending hevb
    rw [hs.listfd_set, hs.files, hkid hbuf]
    exact h.dummy w evb (hpc.trans hw)
  case writing =>
    intro w evb towrite hw
    have hevb : (t.pc w).pending = some evb := by rw [hw]; rfl
    obtain ⟨hpc, hbuf⟩ := hpending hevb
    rw [hs.listfd_set, hs.files, hkid hbuf, hbuf]
    exact h.writing w evb towrite (hpc.trans hw)
  case quiet =>
    intro k hopen hfd hnone
    rw [hs.closed] at hopen
    rw [hs.listfd_set] at hfd
    rw [hs.files]
    refine h.quiet k hopen hfd fun w evb hw => ?_
    have hpc := hs.pc_eq' (Pc.buffer_of_pending (Pc.pending_of_started hw))
    have htaken := (hb.taken evb).mpr ⟨w, Pc.pending_of_started hw⟩
    rw [← hkid (hs.buffers evb htaken)]
    rw [← hpc] at hw
    exact hnone w evb hw
  case closed =>
    intro k hclosed
    rw [hs.closed] at hclosed
    rw [hs.unwritten, hs.listfd_set, hs.files]
    exact h.closed k hclosed

/-! ## The events -/

/-- The events of the kid in a list of buffers. -/
def State.eventsOf (s : State κ ι ε β) (l : List Evb) (k : κ) : List ε :=
  (l.filter fun evb => s.kid evb = k).flatMap fun evb => (s.buffers evb).events

/-- The events in the buffer of a thread. -/
def State.current (s : State κ ι ε β) (k : κ) : List ε :=
  (s.thread k).buffers.flatMap fun evb => (s.buffers evb).events

/-- The events that a kid pushed are written, taken by a writer, in the fifo or in the buffer of the
thread, in this order. -/
def EventsInv (written : κ → List ε) (s : State κ ι ε β) : Prop :=
  ∀ k, s.pushed k = written k ++ s.eventsOf (s.taken ++ s.listevt) k ++ s.current k

theorem eventsOf_append (l l' : List Evb) (k : κ) :
    s.eventsOf (l ++ l') k = s.eventsOf l k ++ s.eventsOf l' k := by
  unfold State.eventsOf
  rw [List.filter_append, List.flatMap_append]

/-- The events only depend on the buffers of the list. -/
theorem eventsOf_congr {l : List Evb} (h : ∀ evb ∈ l, t.buffers evb = s.buffers evb) (k : κ) :
    t.eventsOf l k = s.eventsOf l k := by
  have hfilter : l.filter (fun evb => decide (t.kid evb = k)) =
      l.filter fun evb => decide (s.kid evb = k) :=
    List.filter_congr fun evb hevb => by
      unfold State.kid
      rw [h evb hevb]
  unfold State.eventsOf
  rw [hfilter]
  refine List.flatMap_congr fun evb hevb => ?_
  rw [h evb (List.mem_filter.mp hevb).1]

theorem eventsOf_singleton (evb : Evb) (k : κ) :
    s.eventsOf [evb] k = if s.kid evb = k then (s.buffers evb).events else [] := by
  unfold State.eventsOf
  by_cases hk : s.kid evb = k
  · have hfilter : [evb].filter (fun evb => decide (s.kid evb = k)) = [evb] :=
      List.filter_cons_of_pos (decide_eq_true hk)
    rw [hfilter, if_pos hk]
    exact List.append_nil _
  · have hfilter : [evb].filter (fun evb => decide (s.kid evb = k)) = [] :=
      List.filter_cons_of_neg fun hkid => hk (of_decide_eq_true hkid)
    rw [hfilter, if_neg hk]
    rfl

/-! ## The phases -/

/-- The points of each writer. -/
def Pc.Of : Writer ι → Pc κ β → Prop
  | .collector, p => ∀ kids, p ≠ .idle ∧ p ≠ .join ∧ p ≠ .close kids
  | .fence _, p => ∀ kids, p ≠ .asleep ∧ p ≠ .join ∧ p ≠ .exited ∧ p ≠ .close kids
  | .fini, p => p ≠ .asleep ∧ p ≠ .exited

/-- When the threads, the collector and the fifo are done with. A buffer of each thread that has
closed is in the file, unless it is on the way. -/
structure PhaseInv (cfg : Config κ ε β) (s : State κ ι ε β) : Prop where
  point : ∀ w, (s.pc w).Of w
  called : s.finalize_flushimator = false ↔ s.pc .fini = .idle
  threads : s.finalize_flushimator = true → ∀ k, s.thread k = .never ∨ s.thread k = .closed
  exited : s.pc .fini ≠ .idle → s.pc .fini ≠ .join → s.pc .collector = .exited
  asleep : s.pc .collector = .asleep → s.listevt = [] ∧ s.finalize_flushimator = false
  drained : ∀ kids, s.pc .fini = .close kids → s.listevt = [] ∧ kids <:+ cfg.kids
  visited : ∀ k, s.thread k = .closed → s.listfd_set k ≠ none ∨
    ∃ evb ∈ s.taken ++ s.listevt, s.kid evb = k

/-- All of it. -/
structure Inv (cfg : Config κ ε β) (written : κ → List ε) (s : State κ ι ε β) : Prop where
  buffers : BuffersInv s
  files : FilesInv cfg written s
  events : EventsInv written s
  phase : PhaseInv cfg s

end Files

end Xkblas.Trace.Recorder
