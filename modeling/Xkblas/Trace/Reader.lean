import Mathlib.Data.List.MinMax
import Mathlib.Order.Bounds.Basic
import Mathlib.Order.Fin.Basic
import Xkblas.Library.KWayMerge
import Xkblas.Library.ListUpdate
import Xkblas.Library.MachineInt

/-!
# The trace reader

`OpenFiles` maps the files of a trace and puts the date of the first event of each one into a
priority queue. `ReadFiles` takes the least date, calls back on the event, and puts the date of the
next event of the same file into the queue. `readFiles_sound_iff` says that this merges the files
if and only if each of them has an event.

The events of a file are read through a pointer after the header, which also gives a value outside
of the file. What is read is recorded.
-/

namespace Xkblas.Trace

open Library

/-- The dates, which are `uint64_t`. -/
abbrev Date := Fin (2 ^ 64)

/-- `kaapi_event_t`: the date, and the other fields. -/
structure Event (β : Type) where
  date : Date
  body : β
  deriving DecidableEq

/-- `sizeof(kaapi_eventfile_header_t)` and `sizeof(kaapi_event_t)`. -/
structure Sizes where
  header : ℕ
  event : ℕ
  header_pos : 0 < header
  event_pos : 0 < event

/-- A file: its size, whether its header has the version `__KAAPI_TRACE_VERSION__`, and the event
that is read at an index after the header. -/
structure TraceFile (β : Type) where
  size : ℕ
  trace_version : Bool
  base : ℕ → Event β

/-- `file_event`. -/
structure FileEvent (β : Type) where
  file : TraceFile β
  rpos : ℕ
  fin : ℕ

/-- `next_event_t`. -/
structure NextEvent where
  date : Date
  fds : ℕ
  deriving DecidableEq

/-- The fields of `FileSet` that the two functions use, with the events that are read, by file and
index, and the calls of the callback. -/
structure FileSet (β : Type) where
  fds : List (FileEvent β)
  tmin : Date
  tmax : Date
  eventqueue : List NextEvent
  reads : List (ℕ × ℕ)
  calls : List (ℕ × Event β)

/-- `std::priority_queue` with `compare_event`. It gives an entry with the least date; which one
among several depends on how it was filled, here on the number of entries taken so far. -/
structure PriorityQueue where
  top : ℕ → List NextEvent → Option NextEvent
  top_nil : ∀ k, top k [] = none
  top_cons : ∀ k e es, ∃ ne, top k (e :: es) = some ne
  top_mem : ∀ k es ne, top k es = some ne → ne ∈ es
  top_le : ∀ k es ne, top k es = some ne → ∀ e ∈ es, ne.date ≤ e.date

variable {β : Type}

/-- The number of events of a file, past the last position to read. -/
def TraceFile.count (sz : Sizes) (F : TraceFile β) : ℕ :=
  uint64 (F.size - sz.header) / sz.event

/-- The events of a file. -/
def TraceFile.events (sz : Sizes) (F : TraceFile β) : List (Event β) :=
  (List.range (F.count sz)).map F.base

/-- What is established for a file that is opened. -/
def TraceFile.opened (sz : Sizes) (F : TraceFile β) : FileEvent β where
  file := F
  rpos := 0
  fin := F.count sz

/-- The index `end-1`, which is a `size_t`. -/
def TraceFile.last (sz : Sizes) (F : TraceFile β) : ℕ :=
  uint64 (F.count sz - 1)

/-- The part of an iteration of the loop of `OpenFiles` that follows the checks. -/
def FileSet.addFile (sz : Sizes) (fdset : FileSet β) (F : TraceFile β) : FileSet β :=
  let c := fdset.fds.length
  { fdset with
    fds := fdset.fds ++ [F.opened sz]
    tmin := if (F.base 0).date < fdset.tmin then (F.base 0).date else fdset.tmin
    tmax := if fdset.tmax < (F.base (F.last sz)).date then (F.base (F.last sz)).date
      else fdset.tmax
    eventqueue := ⟨(F.base 0).date, c⟩ :: fdset.eventqueue
    reads := fdset.reads ++ [(c, 0), (c, F.last sz)] }

/-- An iteration of the loop of `OpenFiles`. A file without a header is skipped, and a wrong version
ends the program. -/
def openFile (sz : Sizes) (fdset : FileSet β) (F : TraceFile β) : Option (FileSet β) :=
  if F.size = 0 then some fdset
  else if F.trace_version = false then none
  else some (fdset.addFile sz F)

/-- `OpenFiles`. -/
def openFiles (sz : Sizes) (files : List (TraceFile β)) : Option (FileSet β) :=
  files.foldlM (openFile sz) ⟨[], Fin.last (2 ^ 64 - 1), 0, [], [], []⟩

/-- The rest of an iteration of the loop of `ReadFiles`: the entry `ne` has been taken from the
queue, and `fe` is its file. The date of the next event is pushed, if there is one. -/
def FileSet.advance (fdset : FileSet β) (ne : NextEvent) (fe : FileEvent β) : FileSet β :=
  let next : FileEvent β := { fe with rpos := fe.rpos + 1 }
  { fdset with
    fds := fdset.fds.set ne.fds next
    eventqueue :=
      if next.rpos < next.fin then
        ⟨(fe.file.base next.rpos).date, ne.fds⟩ :: fdset.eventqueue.erase ne
      else fdset.eventqueue.erase ne
    reads := fdset.reads ++ (ne.fds, fe.rpos) ::
      if next.rpos < next.fin then [(ne.fds, next.rpos)] else []
    calls := fdset.calls ++ [(ne.fds, fe.file.base fe.rpos)] }

/-- `ReadFiles`, with at most `fuel` tests of the loop. -/
def readFiles (q : PriorityQueue) : ℕ → FileSet β → Option (FileSet β)
  | 0, _ => none
  | fuel + 1, fdset =>
      match q.top fdset.calls.length fdset.eventqueue with
      | none => some fdset
      | some ne =>
          match fdset.fds[ne.fds]? with
          | none => none
          | some fe => readFiles q fuel (fdset.advance ne fe)

/-! ## The claim -/

/-- A header of the version of the reader, and events with nondecreasing dates. -/
structure TraceFile.WellFormed (sz : Sizes) (F : TraceFile β) : Prop where
  version : F.trace_version = true
  size : ∃ n, F.size = sz.header + n * sz.event
  size_lt : F.size < 2 ^ 64
  sorted : (F.events sz).Pairwise fun a b => a.date ≤ b.date

/-- The dates of the events of the files. -/
def dates (sz : Sizes) (files : List (TraceFile β)) : Set Date :=
  { x | ∃ F ∈ files, ∃ e ∈ F.events sz, e.date = x }

/-- What the callback has got, what was read, and the two dates. -/
structure Sound (sz : Sizes) (files : List (TraceFile β)) (t : FileSet β) : Prop where
  calls : ∀ f, (t.calls.filter fun p => p.1 = f).map Prod.snd =
    (files[f]?).elim [] (TraceFile.events sz)
  sorted : t.calls.Pairwise fun p r => p.2.date ≤ r.2.date
  reads : ∀ r ∈ t.reads, ∃ F, files[r.1]? = some F ∧ r.2 < F.count sz
  tmin : (dates sz files).Nonempty → IsLeast (dates sz files) t.tmin
  tmax : (dates sz files).Nonempty → IsGreatest (dates sz files) t.tmax

/-- The files are opened, and `ReadFiles` ends in a sound state. -/
def ReadsAll (sz : Sizes) (files : List (TraceFile β)) (q : PriorityQueue) : Prop :=
  ∃ s t N, openFiles sz files = some s ∧ (∀ fuel, N ≤ fuel → readFiles q fuel s = some t) ∧
    Sound sz files t

/-! ## The queue and the read positions -/

/-- The events of a file that are not read yet. -/
def FileEvent.rest (fe : FileEvent β) : List (Event β) :=
  (List.range' fe.rpos (fe.fin - fe.rpos)).map fe.file.base

theorem FileEvent.rest_of_lt {fe : FileEvent β} (h : fe.rpos < fe.fin) :
    fe.rest = fe.file.base fe.rpos :: FileEvent.rest { fe with rpos := fe.rpos + 1 } := by
  unfold FileEvent.rest
  rw [show fe.fin - fe.rpos = (fe.fin - (fe.rpos + 1)) + 1 by omega, List.range'_succ,
    List.map_cons]

theorem FileEvent.rest_of_le {fe : FileEvent β} (h : fe.fin ≤ fe.rpos) : fe.rest = [] := by
  unfold FileEvent.rest
  rw [Nat.sub_eq_zero_of_le h]
  rfl

namespace FileSet

/-- The sources of the merge. -/
def remaining (s : FileSet β) (f : ℕ) : List (Event β) :=
  (s.fds[f]?).elim [] FileEvent.rest

/-- The number of events that are not read yet. -/
def left (s : FileSet β) : ℕ :=
  (s.fds.map fun fe => fe.fin - fe.rpos).sum

/-- The queue has the date of the next event of each file that is not at its end, once, and what
was read is in the files. -/
structure Inv (s : FileSet β) : Prop where
  entry : ∀ e ∈ s.eventqueue, ∃ fe, s.fds[e.fds]? = some fe ∧ fe.rpos < fe.fin ∧
    e.date = (fe.file.base fe.rpos).date
  queued : ∀ f fe, s.fds[f]? = some fe → fe.rpos < fe.fin → ∃ e ∈ s.eventqueue, e.fds = f
  nodup : (s.eventqueue.map NextEvent.fds).Nodup
  reads : ∀ r ∈ s.reads, ∃ fe, s.fds[r.1]? = some fe ∧ r.2 < fe.fin

variable {s : FileSet β} {ne : NextEvent} {fe : FileEvent β}

/-- Another entry of the queue is one of another file. -/
theorem Inv.fds_ne (h : Inv s) (hne : ne ∈ s.eventqueue) {e : NextEvent}
    (he : e ∈ s.eventqueue.erase ne) : e ∈ s.eventqueue ∧ e.fds ≠ ne.fds := by
  have hperm := (List.perm_cons_erase hne).map NextEvent.fds
  have hnodup := hperm.nodup_iff.mp h.nodup
  refine ⟨List.mem_of_mem_erase he, fun heq => ?_⟩
  rw [List.map_cons, List.nodup_cons] at hnodup
  exact hnodup.1 (heq ▸ List.mem_map_of_mem he)

/-- The entries of the other files are kept when the entry `ne` is taken. -/
theorem Inv.erase_nodup (h : Inv s) (hne : ne ∈ s.eventqueue) :
    ne.fds ∉ (s.eventqueue.erase ne).map NextEvent.fds ∧
      ((s.eventqueue.erase ne).map NextEvent.fds).Nodup := by
  have hnodup := ((List.perm_cons_erase hne).map NextEvent.fds).nodup_iff.mp h.nodup
  rw [List.map_cons] at hnodup
  exact List.nodup_cons.mp hnodup

/-- What an iteration does to the files. -/
theorem getElem?_advance (hfe : s.fds[ne.fds]? = some fe) (next : FileEvent β) (f : ℕ) :
    (s.fds.set ne.fds next)[f]? = if f = ne.fds then some next else s.fds[f]? := by
  obtain ⟨hlt, _⟩ := List.getElem?_eq_some_iff.mp hfe
  by_cases hf : f = ne.fds
  · subst hf
    rw [if_pos rfl, List.getElem?_set_self hlt]
  · rw [if_neg hf, List.getElem?_set_ne (Ne.symm hf)]

/-- An iteration keeps the invariant. -/
theorem Inv.advance (h : Inv s) (hne : ne ∈ s.eventqueue) (hfe : s.fds[ne.fds]? = some fe)
    (hlt : fe.rpos < fe.fin) : Inv (s.advance ne fe) := by
  have hfds := getElem?_advance hfe { fe with rpos := fe.rpos + 1 }
  have hother : ∀ e ∈ s.eventqueue.erase ne, ∃ fe', (s.advance ne fe).fds[e.fds]? = some fe' ∧
      fe'.rpos < fe'.fin ∧ e.date = (fe'.file.base fe'.rpos).date := by
    intro e he
    obtain ⟨hmem, hef⟩ := h.fds_ne hne he
    obtain ⟨fe', hfe', hrest⟩ := h.entry e hmem
    exact ⟨fe', (hfds e.fds).trans ((if_neg hef).trans hfe'), hrest⟩
  obtain ⟨hnotMem, hnodup⟩ := h.erase_nodup hne
  constructor
  case entry =>
    show ∀ e ∈ (if fe.rpos + 1 < fe.fin then _ else _), _
    split
    case isTrue hnext =>
      refine List.forall_mem_cons.mpr ⟨⟨_, (hfds ne.fds).trans (if_pos rfl), hnext, rfl⟩, hother⟩
    case isFalse => exact hother
  case queued =>
    intro f fe' hfe' hlt'
    have hf : (if f = ne.fds then some { fe with rpos := fe.rpos + 1 } else s.fds[f]?) = some fe' :=
      (hfds f).symm.trans hfe'
    show ∃ e ∈ (if fe.rpos + 1 < fe.fin then _ else _), _
    by_cases hfne : f = ne.fds
    · rw [if_pos hfne] at hf
      obtain rfl := Option.some.inj hf
      rw [if_pos hlt']
      exact ⟨_, List.mem_cons_self, hfne.symm⟩
    · rw [if_neg hfne] at hf
      obtain ⟨e, he, hef⟩ := h.queued f fe' hf hlt'
      have herase : e ∈ s.eventqueue.erase ne := by
        refine (List.mem_erase_of_ne ?_).mpr he
        rintro rfl
        exact hfne hef.symm
      split
      · exact ⟨e, List.mem_cons_of_mem _ herase, hef⟩
      · exact ⟨e, herase, hef⟩
  case nodup =>
    show ((if fe.rpos + 1 < fe.fin then _ else _ : List NextEvent).map NextEvent.fds).Nodup
    split
    · exact List.nodup_cons.mpr ⟨hnotMem, hnodup⟩
    · exact hnodup
  case reads =>
    have hkept : ∀ r : ℕ × ℕ, (∃ fe, s.fds[r.1]? = some fe ∧ r.2 < fe.fin) →
        ∃ fe', (s.advance ne fe).fds[r.1]? = some fe' ∧ r.2 < fe'.fin := by
      rintro r ⟨fe', hfe', hr⟩
      by_cases hrf : r.1 = ne.fds
      · rw [hrf, hfe] at hfe'
        obtain rfl := Option.some.inj hfe'
        exact ⟨_, (hfds r.1).trans (if_pos hrf), hr⟩
      · exact ⟨fe', (hfds r.1).trans ((if_neg hrf).trans hfe'), hr⟩
    refine List.forall_mem_append.mpr ⟨fun r hr => hkept r (h.reads r hr), ?_⟩
    refine List.forall_mem_cons.mpr ⟨hkept _ ⟨fe, hfe, hlt⟩, ?_⟩
    split
    case isTrue hnext => exact List.forall_mem_singleton.mpr (hkept _ ⟨fe, hfe, hnext⟩)
    case isFalse => exact fun _ hr => absurd hr List.not_mem_nil

theorem remaining_advance (hfe : s.fds[ne.fds]? = some fe) :
    (s.advance ne fe).remaining =
      Function.update s.remaining ne.fds (FileEvent.rest { fe with rpos := fe.rpos + 1 }) := by
  funext f
  have hf := getElem?_advance hfe { fe with rpos := fe.rpos + 1 } f
  show ((s.fds.set ne.fds { fe with rpos := fe.rpos + 1 })[f]?).elim [] FileEvent.rest = _
  rw [hf]
  by_cases hfne : f = ne.fds
  · subst hfne
    rw [if_pos rfl, Function.update_self]
    rfl
  · rw [if_neg hfne, Function.update_of_ne hfne]
    rfl

/-- No source starts with a date before the least one of the queue. -/
theorem Inv.head_le (h : Inv s) (hleast : ∀ e ∈ s.eventqueue, ne.date ≤ e.date) {f : ℕ}
    {b : Event β} (hb : (s.remaining f).head? = some b) : ne.date ≤ b.date := by
  unfold remaining at hb
  cases hfe : s.fds[f]? with
  | none =>
      rw [hfe] at hb
      cases hb
  | some fe =>
      rw [hfe] at hb
      rcases Nat.lt_or_ge fe.rpos fe.fin with hlt | hge
      · obtain ⟨e, he, hef⟩ := h.queued f fe hfe hlt
        obtain ⟨fe', hfe', _, hdate⟩ := h.entry e he
        rw [hef, hfe] at hfe'
        obtain rfl := Option.some.inj hfe'
        have hb : fe.rest.head? = some b := hb
        rw [FileEvent.rest_of_lt hlt] at hb
        obtain rfl := Option.some.inj hb
        exact hdate ▸ hleast e he
      · have hb : fe.rest.head? = some b := hb
        rw [FileEvent.rest_of_le hge] at hb
        cases hb

theorem left_advance (hfe : s.fds[ne.fds]? = some fe) (hlt : fe.rpos < fe.fin) :
    (s.advance ne fe).left < s.left := by
  have hsum := sum_map_set (b := { fe with rpos := fe.rpos + 1 })
    (f := fun fe : FileEvent β => fe.fin - fe.rpos) hfe
  have hleft : (s.advance ne fe).left + (fe.fin - fe.rpos) = s.left + (fe.fin - (fe.rpos + 1)) :=
    hsum
  omega

end FileSet

/-- `ReadFiles` merges what is left of the files, and ends. The induction is on the number of tests
of the loop. -/
theorem readFiles_spec (q : PriorityQueue) {fuel : ℕ} {s : FileSet β} (h : s.Inv)
    (hfuel : s.left < fuel) :
    ∃ t out, readFiles q fuel s = some t ∧ KWayMerge Event.date s.remaining out ∧
      t.calls = s.calls ++ out ∧ t.Inv ∧ (t.tmin = s.tmin ∧ t.tmax = s.tmax) ∧
      t.fds.map (fun fe => (fe.file, fe.fin)) = s.fds.map fun fe => (fe.file, fe.fin) := by
  induction fuel generalizing s with
  | zero => exact absurd hfuel (Nat.not_lt_zero _)
  | succ fuel ih =>
      unfold readFiles
      cases hqueue : s.eventqueue with
      | nil =>
          rw [q.top_nil]
          refine ⟨s, [], rfl, .done fun f => ?_, (List.append_nil _).symm, h, ⟨rfl, rfl⟩, rfl⟩
          -- a file with an event left would have an entry in the queue
          unfold FileSet.remaining
          cases hfe : s.fds[f]? with
          | none => rfl
          | some fe =>
              refine FileEvent.rest_of_le (Nat.le_of_not_lt fun hlt => ?_)
              obtain ⟨e, he, _⟩ := h.queued f fe hfe hlt
              rw [hqueue] at he
              cases he
      | cons e es =>
          obtain ⟨ne, htop⟩ := q.top_cons s.calls.length e es
          have hne := q.top_mem _ _ _ htop
          have hleast := q.top_le _ _ _ htop
          rw [← hqueue] at hne hleast
          obtain ⟨fe, hfe, hlt, hdate⟩ := h.entry ne hne
          have hleft := FileSet.left_advance hfe hlt
          obtain ⟨t, out, hrun, hmerge, hcalls, hinv, hdates, hfiles⟩ :=
            ih (h.advance hne hfe hlt) (by omega)
          have hsrc : s.remaining ne.fds =
              fe.file.base fe.rpos :: FileEvent.rest { fe with rpos := fe.rpos + 1 } := by
            unfold FileSet.remaining
            rw [hfe]
            exact FileEvent.rest_of_lt hlt
          rw [FileSet.remaining_advance hfe] at hmerge
          refine ⟨t, (ne.fds, fe.file.base fe.rpos) :: out, ?_, .take hsrc ?_ hmerge, ?_, hinv,
            hdates, ?_⟩
          · simp only [htop, hfe]
            exact hrun
          · intro j b hb
            exact hdate ▸ h.head_le hleast hb
          · rw [hcalls]
            exact List.append_assoc _ _ _
          · rw [hfiles]
            exact map_set_of_eq hfe rfl

/-! ## Opening the files -/

/-- The state after the files of `done` have been opened. -/
structure Opened (sz : Sizes) (done : List (TraceFile β)) (s : FileSet β) : Prop where
  fds : s.fds = done.map (TraceFile.opened sz)
  calls : s.calls = []
  entry : ∀ e, e ∈ s.eventqueue ↔ ∃ F, done[e.fds]? = some F ∧ e.date = (F.base 0).date
  nodup : (s.eventqueue.map NextEvent.fds).Nodup
  reads : ∀ r, r ∈ s.reads ↔
    ∃ F, done[r.1]? = some F ∧ (r.2 = 0 ∨ r.2 = F.last sz)
  tmin_le : ∀ F ∈ done, s.tmin ≤ (F.base 0).date
  tmin_eq : s.tmin = Fin.last (2 ^ 64 - 1) ∨ ∃ F ∈ done, s.tmin = (F.base 0).date
  le_tmax : ∀ F ∈ done, (F.base (F.last sz)).date ≤ s.tmax
  tmax_eq : s.tmax = 0 ∨ ∃ F ∈ done, s.tmax = (F.base (F.last sz)).date

variable {sz : Sizes} {done files : List (TraceFile β)} {F : TraceFile β} {s : FileSet β}

/-- The entries of a list with one more entry. -/
theorem getElem?_snoc_iff {α : Type*} {l : List α} {a b : α} {i : ℕ} :
    (l ++ [a])[i]? = some b ↔ l[i]? = some b ∨ i = l.length ∧ a = b := by
  rw [List.getElem?_append]
  split
  case isTrue h => exact ⟨.inl, fun hor => hor.resolve_right fun hi => h.ne hi.1⟩
  case isFalse h =>
    rw [List.getElem?_eq_none (Nat.le_of_not_lt h), List.getElem?_singleton]
    have hi : i - l.length = 0 ↔ i = l.length := by omega
    simp [hi]

/-- What holds of an entry of the files, when one more is opened. -/
theorem exists_snoc_iff {i : ℕ} {p : TraceFile β → Prop} :
    (∃ G, (done ++ [F])[i]? = some G ∧ p G) ↔
      (∃ G, done[i]? = some G ∧ p G) ∨ i = done.length ∧ p F := by
  simp only [getElem?_snoc_iff]
  constructor
  · rintro ⟨G, hG | ⟨hi, rfl⟩, hp⟩
    · exact .inl ⟨G, hG, hp⟩
    · exact .inr ⟨hi, hp⟩
  · rintro (⟨G, hG, hp⟩ | ⟨hi, hp⟩)
    · exact ⟨G, .inl hG, hp⟩
    · exact ⟨F, .inr ⟨hi, rfl⟩, hp⟩

theorem tmin_addFile : (s.addFile sz F).tmin = min (F.base 0).date s.tmin :=
  (min_def_lt _ _).symm

theorem tmax_addFile : (s.addFile sz F).tmax = max s.tmax (F.base (F.last sz)).date :=
  (max_def_lt _ _).symm

/-- One more file is opened. -/
theorem Opened.addFile (h : Opened sz done s) : Opened sz (done ++ [F]) (s.addFile sz F) := by
  have hlen : s.fds.length = done.length := by rw [h.fds, List.length_map]
  constructor
  case fds =>
    show s.fds ++ [F.opened sz] = _
    rw [h.fds, List.map_append, List.map_singleton]
  case calls => exact h.calls
  case entry =>
    intro e
    show e ∈ (⟨(F.base 0).date, s.fds.length⟩ :: s.eventqueue : List NextEvent) ↔ _
    rw [List.mem_cons, h.entry, exists_snoc_iff, hlen, or_comm]
    obtain ⟨date, fds⟩ := e
    rw [NextEvent.mk.injEq, and_comm]
  case nodup =>
    refine List.nodup_cons.mpr ⟨fun hmem => ?_, h.nodup⟩
    obtain ⟨e, he, hef⟩ := List.mem_map.mp hmem
    obtain ⟨G, hG, _⟩ := (h.entry e).mp he
    obtain ⟨hlt, _⟩ := List.getElem?_eq_some_iff.mp hG
    have hef : e.fds = s.fds.length := hef
    omega
  case reads =>
    intro r
    show r ∈ s.reads ++ [(s.fds.length, 0), (s.fds.length, F.last sz)] ↔ _
    rw [List.mem_append, h.reads, exists_snoc_iff, hlen]
    obtain ⟨f, i⟩ := r
    simp only [List.mem_cons, List.not_mem_nil, or_false, Prod.mk.injEq, and_or_left]
  case tmin_le =>
    intro G hG
    rw [tmin_addFile]
    rcases List.mem_append.mp hG with hG | hG
    · exact (min_le_right _ _).trans (h.tmin_le G hG)
    · obtain rfl := List.mem_singleton.mp hG
      exact min_le_left _ _
  case tmin_eq =>
    rw [tmin_addFile]
    rcases min_choice (F.base 0).date s.tmin with hmin | hmin
    · exact .inr ⟨F, List.mem_append_right _ (List.mem_singleton_self F), hmin⟩
    · rw [hmin]
      refine h.tmin_eq.imp_right fun hG => ?_
      obtain ⟨G, hG, heq⟩ := hG
      exact ⟨G, List.mem_append_left _ hG, heq⟩
  case le_tmax =>
    intro G hG
    rw [tmax_addFile]
    rcases List.mem_append.mp hG with hG | hG
    · exact (h.le_tmax G hG).trans (le_max_left _ _)
    · obtain rfl := List.mem_singleton.mp hG
      exact le_max_right _ _
  case tmax_eq =>
    rw [tmax_addFile]
    rcases max_choice s.tmax (F.base (F.last sz)).date with hmax | hmax
    · rw [hmax]
      refine h.tmax_eq.imp_right fun hG => ?_
      obtain ⟨G, hG, heq⟩ := hG
      exact ⟨G, List.mem_append_left _ hG, heq⟩
    · exact .inr ⟨F, List.mem_append_right _ (List.mem_singleton_self F), hmax⟩

/-- Files with a header of the right version are opened one after the other. -/
theorem Opened.openFiles (h : Opened sz done s)
    (hfiles : ∀ F ∈ files, F.size ≠ 0 ∧ F.trace_version = true) :
    ∃ t, files.foldlM (openFile sz) s = some t ∧ Opened sz (done ++ files) t := by
  induction files generalizing done s with
  | nil => exact ⟨s, rfl, by rwa [List.append_nil]⟩
  | cons F files ih =>
      obtain ⟨⟨hsize, hversion⟩, hfiles⟩ := List.forall_mem_cons.mp hfiles
      obtain ⟨t, ht, hopened⟩ := ih (h.addFile (F := F)) hfiles
      refine ⟨t, ?_, ?_⟩
      · have hopen : openFile sz s F = some (s.addFile sz F) := by
          unfold openFile
          rw [if_neg hsize, if_neg (by rw [hversion]; exact Bool.noConfusion)]
        rw [List.foldlM_cons, hopen]
        exact ht
      · rwa [List.append_assoc, List.singleton_append] at hopened

/-- Before the first file. -/
theorem opened_nil : Opened sz [] (⟨[], Fin.last (2 ^ 64 - 1), 0, [], [], []⟩ : FileSet β) where
  fds := rfl
  calls := rfl
  entry := fun e => by simp
  nodup := List.nodup_nil
  reads := fun r => by simp
  tmin_le := fun _ hF => absurd hF List.not_mem_nil
  tmin_eq := .inl rfl
  le_tmax := fun _ hF => absurd hF List.not_mem_nil
  tmax_eq := .inl rfl

/-- The files of a well-formed trace are opened. -/
theorem openFiles_eq (hfiles : ∀ F ∈ files, F.WellFormed sz) :
    ∃ s, openFiles sz files = some s ∧ Opened sz files s := by
  have hopen : ∀ F ∈ files, F.size ≠ 0 ∧ F.trace_version = true := by
    intro F hF
    obtain ⟨n, hn⟩ := (hfiles F hF).size
    have hpos := sz.header_pos
    exact ⟨by omega, (hfiles F hF).version⟩
  exact opened_nil.openFiles hopen

/-! ## The main theorem -/

theorem TraceFile.count_lt : F.count sz < 2 ^ 64 := by
  have hle := Nat.div_le_self (uint64 (F.size - sz.header)) sz.event
  unfold TraceFile.count
  unfold uint64 at hle ⊢
  omega

theorem TraceFile.last_of_pos (h : 0 < F.count sz) : F.last sz = F.count sz - 1 :=
  uint64_sub h count_lt

theorem TraceFile.mem_events {e : Event β} : e ∈ F.events sz ↔ ∃ i < F.count sz, F.base i = e := by
  simp [TraceFile.events]

theorem TraceFile.WellFormed.date_le (h : F.WellFormed sz) {i j : ℕ} (hij : i ≤ j)
    (hj : j < F.count sz) : (F.base i).date ≤ (F.base j).date := by
  rcases hij.eq_or_lt with rfl | hlt
  · exact le_rfl
  · have hpair := List.pairwise_iff_getElem.mp (List.pairwise_map.mp h.sorted)
    have hij := hpair i j (by rw [List.length_range]; omega) (by rwa [List.length_range]) hlt
    rwa [List.getElem_range, List.getElem_range] at hij

/-- The files that are opened are not read yet. -/
theorem Opened.remaining (h : Opened sz files s) (f : ℕ) :
    s.remaining f = (files[f]?).elim [] (TraceFile.events sz) := by
  unfold FileSet.remaining
  rw [h.fds, List.getElem?_map]
  cases files[f]? with
  | none => rfl
  | some F =>
      show (List.range' 0 (F.count sz - 0)).map F.base = (List.range (F.count sz)).map F.base
      rw [Nat.sub_zero, List.range_eq_range']

/-- When each file has an event, the queue is right. -/
theorem Opened.inv (h : Opened sz files s) (hpos : ∀ F ∈ files, 0 < F.count sz) : s.Inv := by
  have hfds : ∀ {f : ℕ} {F : TraceFile β}, files[f]? = some F →
      s.fds[f]? = some (F.opened sz) := by
    intro f F hF
    rw [h.fds, List.getElem?_map, hF]
    rfl
  constructor
  case entry =>
    intro e he
    obtain ⟨F, hF, hdate⟩ := (h.entry e).mp he
    exact ⟨F.opened sz, hfds hF, hpos F (List.mem_of_getElem? hF), hdate⟩
  case queued =>
    intro f fe hfe hlt
    rw [h.fds, List.getElem?_map] at hfe
    obtain ⟨F, hF, rfl⟩ := Option.map_eq_some_iff.mp hfe
    exact ⟨⟨(F.base 0).date, f⟩, (h.entry _).mpr ⟨F, hF, rfl⟩, rfl⟩
  case nodup => exact h.nodup
  case reads =>
    intro r hr
    obtain ⟨F, hF, hzero | hlast⟩ := (h.reads r).mp hr
    · exact ⟨F.opened sz, hfds hF, by
        rw [hzero]
        exact hpos F (List.mem_of_getElem? hF)⟩
    · have hF' := hpos F (List.mem_of_getElem? hF)
      rw [TraceFile.last_of_pos hF'] at hlast
      refine ⟨F.opened sz, hfds hF, ?_⟩
      show r.2 < F.count sz
      omega

/-- The first date of each file gives the minimum. -/
theorem Opened.isLeast (h : Opened sz files s) (hfiles : ∀ F ∈ files, F.WellFormed sz)
    (hpos : ∀ F ∈ files, 0 < F.count sz) (hne : (dates sz files).Nonempty) :
    IsLeast (dates sz files) s.tmin := by
  have hfirst : ∀ F ∈ files, (F.base 0).date ∈ dates sz files := fun F hF =>
    ⟨F, hF, F.base 0, TraceFile.mem_events.mpr ⟨0, hpos F hF, rfl⟩, rfl⟩
  constructor
  · rcases h.tmin_eq with hmax | ⟨F, hF, heq⟩
    · -- every first date is the greatest one
      obtain ⟨_, F, hF, _⟩ := hne
      have hle := h.tmin_le F hF
      rw [hmax] at hle ⊢
      exact le_antisymm hle (Fin.le_last _) ▸ hfirst F hF
    · exact heq ▸ hfirst F hF
  · intro x hx
    obtain ⟨F, hF, e, he, rfl⟩ := hx
    obtain ⟨i, hi, rfl⟩ := TraceFile.mem_events.mp he
    exact (h.tmin_le F hF).trans ((hfiles F hF).date_le (Nat.zero_le i) hi)

/-- The last date of each file gives the maximum. -/
theorem Opened.isGreatest (h : Opened sz files s) (hfiles : ∀ F ∈ files, F.WellFormed sz)
    (hpos : ∀ F ∈ files, 0 < F.count sz) (hne : (dates sz files).Nonempty) :
    IsGreatest (dates sz files) s.tmax := by
  have hlast : ∀ F ∈ files, (F.base (F.last sz)).date ∈ dates sz files := by
    intro F hF
    have hF' := hpos F hF
    refine ⟨F, hF, _, TraceFile.mem_events.mpr ⟨F.last sz, ?_, rfl⟩, rfl⟩
    rw [TraceFile.last_of_pos hF']
    omega
  constructor
  · rcases h.tmax_eq with hmin | ⟨F, hF, heq⟩
    · obtain ⟨_, F, hF, _⟩ := hne
      have hle := h.le_tmax F hF
      rw [hmin] at hle ⊢
      exact le_antisymm (Fin.zero_le _) hle ▸ hlast F hF
    · exact heq ▸ hlast F hF
  · intro x hx
    obtain ⟨F, hF, e, he, rfl⟩ := hx
    obtain ⟨i, hi, rfl⟩ := TraceFile.mem_events.mp he
    have hF' := hpos F hF
    have hle : (F.base i).date ≤ (F.base (F.last sz)).date := by
      rw [TraceFile.last_of_pos hF']
      exact (hfiles F hF).date_le (by omega) (by omega)
    exact hle.trans (h.le_tmax F hF)

/-- What was read stays recorded. -/
theorem mem_reads_readFiles {q : PriorityQueue} {fuel : ℕ} {t : FileSet β}
    (hrun : readFiles q fuel s = some t) {r : ℕ × ℕ} (hr : r ∈ s.reads) : r ∈ t.reads := by
  induction fuel generalizing s with
  | zero => cases hrun
  | succ fuel ih =>
      unfold readFiles at hrun
      split at hrun
      case h_1 => exact Option.some.inj hrun ▸ hr
      case h_2 =>
        split at hrun
        case h_1 => cases hrun
        case h_2 => exact ih hrun (List.mem_append_left _ hr)

/-- More tests of the loop do not change the result. -/
theorem readFiles_mono {q : PriorityQueue} {fuel fuel' : ℕ} {t : FileSet β}
    (hrun : readFiles q fuel s = some t) (hle : fuel ≤ fuel') : readFiles q fuel' s = some t := by
  induction fuel generalizing fuel' s with
  | zero => cases hrun
  | succ fuel ih =>
      obtain ⟨fuel', rfl⟩ : ∃ n, fuel' = n + 1 := ⟨fuel' - 1, by omega⟩
      unfold readFiles at hrun ⊢
      split at hrun
      case h_1 => exact hrun
      case h_2 =>
        split at hrun
        case h_1 => cases hrun
        case h_2 => exact ih hrun (by omega)

/-- When each file has an event, the reader merges the files. -/
theorem readsAll_of_pos (hfiles : ∀ F ∈ files, F.WellFormed sz) (hpos : ∀ F ∈ files, 0 < F.count sz)
    (q : PriorityQueue) : ReadsAll sz files q := by
  obtain ⟨s, hs, hopened⟩ := openFiles_eq hfiles
  obtain ⟨t, out, hrun, hmerge, hcalls, hinv, ⟨htmin, htmax⟩, hfds⟩ :=
    readFiles_spec q (hopened.inv hpos) (Nat.lt_succ_self s.left)
  have hcalls : t.calls = out := by rw [hcalls, hopened.calls, List.nil_append]
  refine ⟨s, t, s.left + 1, hs, fun fuel hle => readFiles_mono hrun hle, ?_⟩
  constructor
  case calls =>
    intro f
    rw [hcalls, hmerge.source, hopened.remaining]
  case sorted =>
    rw [hcalls]
    refine hmerge.sorted fun f => ?_
    rw [hopened.remaining]
    cases hF : files[f]? with
    | none => exact List.Pairwise.nil
    | some F => exact (hfiles F (List.mem_of_getElem? hF)).sorted
  case reads =>
    intro r hr
    obtain ⟨fe, hfe, hlt⟩ := hinv.reads r hr
    have hmap := congrArg (·[r.1]?) hfds
    simp only [hopened.fds, List.map_map, List.getElem?_map, hfe, Option.map_some] at hmap
    obtain ⟨F, hF, heq⟩ := Option.map_eq_some_iff.mp hmap.symm
    have hfin : F.count sz = fe.fin := congrArg Prod.snd heq
    exact ⟨F, hF, hfin ▸ hlt⟩
  case tmin => exact fun hne => htmin ▸ hopened.isLeast hfiles hpos hne
  case tmax => exact fun hne => htmax ▸ hopened.isGreatest hfiles hpos hne

/-- A file without events is read where it has none. -/
theorem pos_of_readsAll (hfiles : ∀ F ∈ files, F.WellFormed sz) {q : PriorityQueue}
    (h : ReadsAll sz files q) : ∀ F ∈ files, 0 < F.count sz := by
  obtain ⟨s, t, N, hs, hrun, hsound⟩ := h
  obtain ⟨s', hs', hopened⟩ := openFiles_eq hfiles
  obtain rfl := Option.some.inj (hs.symm.trans hs')
  intro F hF
  obtain ⟨f, hf⟩ := List.mem_iff_getElem?.mp hF
  have hread : (f, 0) ∈ s.reads := (hopened.reads (f, 0)).mpr ⟨F, hf, .inl rfl⟩
  obtain ⟨F', hf', hlt⟩ := hsound.reads _ (mem_reads_readFiles (hrun N le_rfl) hread)
  obtain rfl := Option.some.inj (hf.symm.trans hf')
  exact hlt

/-- For a well-formed trace, `OpenFiles` and `ReadFiles` end after calling back on the events of
each file once, in its order, and on all of them by date, read nothing outside of the files and
find the extreme dates, if and only if every file has an event. -/
theorem readFiles_sound_iff (sz : Sizes) {files : List (TraceFile β)}
    (hfiles : ∀ F ∈ files, F.WellFormed sz) (q : PriorityQueue) :
    ReadsAll sz files q ↔ ∀ F ∈ files, 0 < F.count sz :=
  ⟨pos_of_readsAll hfiles, fun hpos => readsAll_of_pos hfiles hpos q⟩

/-- The queue that gives the first of the least entries. -/
def firstLeast : PriorityQueue where
  top := fun _ es => es.argmin NextEvent.date
  top_nil := fun _ => rfl
  top_cons := fun k e es => by
    cases h : (e :: es).argmin NextEvent.date with
    | none => exact absurd (List.argmin_eq_none.mp h) (List.cons_ne_nil e es)
    | some ne => exact ⟨ne, rfl⟩
  top_mem := fun _ _ _ h => List.argmin_mem h
  top_le := fun _ _ _ h _ he => List.le_of_mem_argmin he h

/-- A file of two events between which the event of another file lies. -/
theorem readsAll_twoFiles :
    ReadsAll ⟨8, 16, by decide, by decide⟩
      [⟨40, true, fun i => ⟨if i = 0 then 1 else 4, ()⟩⟩, ⟨24, true, fun _ => ⟨2, ()⟩⟩]
      firstLeast := by
  refine (readFiles_sound_iff _ ?_ _).mpr (by decide)
  refine List.forall_mem_cons.mpr ⟨⟨rfl, ⟨2, rfl⟩, by decide, by decide⟩, ?_⟩
  exact List.forall_mem_singleton.mpr ⟨rfl, ⟨1, rfl⟩, by decide, by decide⟩

/-- A well-formed file that has a header only. What follows the header is read at the indices `0`
and `2 ^ 64 - 1`, and the callback is called on it. -/
theorem readsAll_headerOnly :
    let sz : Sizes := ⟨8, 16, by decide, by decide⟩
    let F : TraceFile ℕ := ⟨8, true, fun i => ⟨7, i⟩⟩
    F.WellFormed sz ∧ ¬ ReadsAll sz [F] firstLeast ∧
      ((openFiles sz [F]).bind (readFiles firstLeast 2)).map (fun t => (t.calls, t.reads)) =
        some ([(0, ⟨7, 0⟩)], [(0, 0), (0, 2 ^ 64 - 1), (0, 0)]) := by
  intro sz F
  have hF : F.WellFormed sz := ⟨rfl, ⟨0, rfl⟩, by decide, by decide⟩
  refine ⟨hF, fun h => ?_, by decide⟩
  have hpos := pos_of_readsAll (List.forall_mem_singleton.mpr hF) h F List.mem_cons_self
  exact absurd hpos (by decide)

end Xkblas.Trace
