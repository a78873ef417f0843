import Xkblas.Trace.RecorderInvariant

/-!
# The threads of the trace recorder

A thread touches its own buffer and the two lists only, so that the files and the buffers on the way
to them stay as they are. The steps of the writers between points at which they have no buffer are
here too.
-/

namespace Xkblas.Trace.Recorder

open Library

variable {κ ι ε β : Type} [DecidableEq κ] {cfg : Config κ ε β}
  {written : κ → List ε} {s t : State κ ι ε β} {w : Writer ι} {k : κ} {evb : Evb} {p : Pc κ β}

/-! ## Steps between points without a buffer -/

omit [DecidableEq κ] in
/-- A file is closed when the call that closes it is behind it. -/
theorem closed_congr {k : κ} (h : t.pc .fini = s.pc .fini) : t.Closed k ↔ s.Closed k := by
  unfold State.Closed
  rw [h]

omit [DecidableEq κ] in
/-- No file is closed before the last loop. -/
theorem not_closed {k : κ} (h : ∀ kids, s.pc .fini ≠ .close kids) : ¬ s.Closed k :=
  fun ⟨kids, hpc, _⟩ => h kids hpc

/-- Some writers go from a point without a buffer to another one. -/
theorem Inv.repoint {pc : Writer ι → Pc κ β} {b : Bool} (h : Inv cfg written s)
    (hpc : ∀ w, pc w = s.pc w ∨ (s.pc w).buffer = none ∧ (pc w).buffer = none)
    (hclosed : ∀ k, State.Closed { s with pc := pc, finalize_flushimator := b } k ↔ s.Closed k)
    (hphase : PhaseInv cfg { s with pc := pc, finalize_flushimator := b }) :
    Inv cfg written { s with pc := pc, finalize_flushimator := b } := by
  have hbuffer : ∀ w, (pc w).buffer = (s.pc w).buffer := by
    intro w
    rcases hpc w with heq | ⟨hold, hnew⟩
    · rw [heq]
    · rw [hold, hnew]
  have hpending : ∀ w, (pc w).pending = (s.pc w).pending := by
    intro w
    rcases hpc w with heq | ⟨hold, hnew⟩
    · rw [heq]
    · have hnone : ∀ {p : Pc κ β}, p.buffer = none → p.pending = none := by
        intro p hp
        by_contra hsome
        obtain ⟨evb, hevb⟩ := Option.ne_none_iff_exists'.mp hsome
        rw [Pc.buffer_of_pending hevb] at hp
        cases hp
      rw [hnone hold, hnone hnew]
  refine ⟨⟨?_, h.buffers.kid, h.buffers.nodup, fun evb => ?_⟩, ?_, h.events, hphase⟩
  · obtain ⟨S, howned, hlt⟩ := h.buffers.owned
    refine ⟨S, howned.congr fun place => List.Perm.of_eq ?_, hlt⟩
    cases place with
    | writer w => exact congrArg Option.toList (hbuffer w)
    | thread k => rfl
    | queue => rfl
    | free => rfl
  · rw [h.buffers.taken]
    exact exists_congr fun w => by rw [hpending]
  · exact h.files.frame h.buffers
      { listfd_set := rfl, fds := rfl, nextFd := rfl, files := rfl, taken := rfl,
        pc := hpc, closed := hclosed, buffers := fun _ _ => rfl }

/-! ## Steps of the threads -/

/-- The buffers on the way are not in the hands of a thread. -/
theorem Inv.ne_of_onTheWay (h : Inv cfg written s) {place : Place κ ι} (hevb : evb ∈ s.places place)
    (hqueue : place ≠ .queue) (hwriter : ∀ w, place ≠ .writer w) :
    ∀ evb' ∈ s.taken ++ s.listevt, evb' ≠ evb := by
  rintro evb' hmem rfl
  rcases List.mem_append.mp hmem with htaken | hlist
  · exact h.buffers.notMem_taken hevb hwriter htaken
  · exact hqueue (h.buffers.unique (q := .queue) hevb hlist)

/-- The buffer that a thread gets: fresh, or a free one. -/
theorem Inv.initBuffer {listevtfree : List Evb} {brk : Evb} (h : Inv cfg written s)
    (hthread : (s.thread k).buffers = []) (hopen : s.finalize_flushimator = false)
    (hfree : ∀ place, evb ∈ s.places place → place = .free)
    (howned : ∃ S, Owned (State.places { s.initBuffer k evb with
      listevtfree := listevtfree, brk := brk }) S ∧ ∀ evb ∈ S, evb < brk) :
    Inv cfg written { s.initBuffer k evb with listevtfree := listevtfree, brk := brk } := by
  have hbuffers : ∀ (place : Place κ ι) {evb'}, evb' ∈ s.places place → place ≠ .free →
      (s.initBuffer k evb).buffers evb' = s.buffers evb' := by
    intro place evb' hevb' hplace
    refine Function.update_of_ne (fun heq => hplace (hfree place ?_)) _ _
    rwa [← heq]
  have htaken : ∀ evb' ∈ s.taken, (s.initBuffer k evb).buffers evb' = s.buffers evb' := by
    intro evb' hmem
    obtain ⟨w, hw⟩ := h.buffers.writer_of_taken hmem
    exact hbuffers _ hw nofun
  have honTheWay : ∀ evb' ∈ s.taken ++ s.listevt,
      (s.initBuffer k evb).buffers evb' = s.buffers evb' := by
    intro evb' hmem
    rcases List.mem_append.mp hmem with hmem | hmem
    · exact htaken evb' hmem
    · exact hbuffers .queue hmem nofun
  have hthreads : ∀ k', k' ≠ k → (s.initBuffer k evb).thread k' = s.thread k' := fun k' hk' =>
    Function.update_of_ne hk' _ _
  have hself : (s.initBuffer k evb).thread k = .opened evb := Function.update_self _ _ _
  have hbuffer : (s.initBuffer k evb).buffers evb = ⟨k, []⟩ := Function.update_self _ _ _
  refine ⟨⟨howned, fun k' evb' hk' => ?_, h.buffers.nodup, h.buffers.taken⟩, ?_, fun k' => ?_, ?_⟩
  · by_cases hk : k' = k
    · rw [hk] at hk'
      obtain rfl := Thread.opened.inj (hself.symm.trans hk')
      rw [hk]
      exact congrArg EventBuffer.kid hbuffer
    · have hold : s.thread k' = .opened evb' := (hthreads k' hk).symm.trans hk'
      have hplace : evb' ∈ s.places (.thread k') := mem_places_thread.mpr hold
      exact (congrArg EventBuffer.kid (hbuffers _ hplace nofun)).trans (h.buffers.kid k' evb' hold)
  · exact h.files.frame h.buffers
      { listfd_set := rfl, fds := rfl, nextFd := rfl, files := rfl, taken := rfl,
        pc := fun _ => .inl rfl, closed := fun _ => Iff.rfl, buffers := htaken }
  · have hcurrent : (s.initBuffer k evb).current k' = s.current k' := by
      unfold State.current
      by_cases hk : k' = k
      · rw [hk, hself, hthread]
        show (((s.initBuffer k evb).buffers evb).events) ++ [] = []
        rw [hbuffer]
        rfl
      · rw [hthreads k' hk]
        refine List.flatMap_congr fun evb' hevb' => ?_
        rw [hbuffers (.thread k') hevb' nofun]
    have hevents := h.events k'
    show s.pushed k' = written k' ++ (s.initBuffer k evb).eventsOf (s.taken ++ s.listevt) k' ++
      (s.initBuffer k evb).current k'
    rw [eventsOf_congr honTheWay, hcurrent]
    exact hevents
  · have hphase := h.phase
    refine ⟨hphase.point, hphase.called, fun hfinal => ?_, hphase.exited, hphase.asleep,
      hphase.drained, fun k' hk' => ?_⟩
    · rw [show s.finalize_flushimator = true from hfinal] at hopen
      cases hopen
    · have hk : k' ≠ k := by
        rintro rfl
        cases hself.symm.trans hk'
      rcases hphase.visited k' ((hthreads k' hk).symm.trans hk') with hfd | ⟨evb', hevb', hkid⟩
      · exact .inl hfd
      · exact .inr ⟨evb', hevb', (congrArg EventBuffer.kid (honTheWay evb' hevb')).trans hkid⟩

/-- A buffer from `malloc`. -/
theorem Inv.malloc (h : Inv cfg written s) (hthread : (s.thread k).buffers = [])
    (hopen : s.finalize_flushimator = false) : Inv cfg written (s.malloc k) := by
  have hnone : ∀ place, s.brk ∉ s.places place := fun place hmem =>
    lt_irrefl _ (h.buffers.lt_brk hmem)
  refine h.initBuffer hthread hopen (fun place hmem => absurd hmem (hnone place)) ?_
  obtain ⟨S, howned, hlt⟩ := h.buffers.owned
  refine ⟨insert s.brk S,
    howned.grant (i := .thread k) (fun hmem => lt_irrefl _ (hlt _ hmem)) ?_ ?_, ?_⟩
  · show (Function.update s.thread k (.opened s.brk) k).buffers.Perm
      (s.brk :: (s.thread k).buffers)
    rw [Function.update_self, hthread]
    exact List.Perm.refl _
  · intro place hplace
    refine List.Perm.of_eq ?_
    cases place with
    | thread k' =>
        have hk : k' ≠ k := fun heq => hplace (congrArg Place.thread heq)
        exact congrArg Thread.buffers (Function.update_of_ne hk _ _)
    | queue => rfl
    | writer w => rfl
    | free => rfl
  · rintro evb (rfl | hevb)
    · exact Nat.lt_succ_self _
    · exact Nat.lt_succ_of_lt (hlt evb hevb)

/-- `kaapi_event_openbuffer`. -/
theorem Inv.openbuffer (h : Inv cfg written s) (hstep : s.openbuffer k = some t) :
    Inv cfg written t := by
  have hmalloc : (s.thread k).buffers = [] →
      (if s.finalize_flushimator then none else some (s.malloc k)) = some t →
      Inv cfg written t := by
    intro hthread hif
    split at hif
    case isTrue => cases hif
    case isFalse hopen =>
      obtain rfl := Option.some.inj hif
      exact h.malloc hthread (Bool.eq_false_iff.mpr hopen)
  unfold State.openbuffer at hstep
  split at hstep
  case h_1 hthread => exact hmalloc (by rw [hthread]; rfl) hstep
  case h_2 hthread => exact hmalloc (by rw [hthread]; rfl) hstep
  case h_3 => cases hstep

/-- The part of `kaapi_event_flushbuffer` that gets another buffer. -/
theorem Inv.reopen (h : Inv cfg written s) (hstep : s.reopen k = some t) : Inv cfg written t := by
  unfold State.reopen at hstep
  split at hstep
  case h_2 => cases hstep
  case h_1 hflushed =>
    have hthread : (s.thread k).buffers = [] := by rw [hflushed]; rfl
    have hopen : s.finalize_flushimator = false := by
      by_contra hfinal
      rcases h.phase.threads (Bool.eq_true_of_not_eq_false hfinal) k with hk | hk <;>
        cases hflushed.symm.trans hk
    split at hstep
    case h_1 =>
      obtain rfl := Option.some.inj hstep
      exact h.malloc hthread hopen
    case h_2 evb listevtfree hlist =>
      obtain rfl := Option.some.inj hstep
      have hmem : evb ∈ s.places .free := by
        show evb ∈ s.listevtfree
        rw [hlist]
        exact List.mem_cons_self
      refine h.initBuffer hthread hopen (fun place hplace => h.buffers.unique hplace hmem) ?_
      obtain ⟨S, howned, hlt⟩ := h.buffers.owned
      classical
      refine ⟨S, howned.move (a := evb) (i := .free) (j := .thread k) nofun ?_ ?_ ?_, hlt⟩
      · show s.listevtfree.Perm (evb :: listevtfree)
        rw [hlist]
      · show (Function.update s.thread k (.opened evb) k).buffers.Perm
          (evb :: (s.thread k).buffers)
        rw [Function.update_self, hthread]
        exact List.Perm.refl _
      · intro place hfree hplace
        refine List.Perm.of_eq ?_
        cases place with
        | thread k' =>
            have hk : k' ≠ k := fun heq => hplace (congrArg Place.thread heq)
            exact congrArg Thread.buffers (Function.update_of_ne hk _ _)
        | queue => rfl
        | writer w => rfl
        | free => exact absurd rfl hfree

/-- An event is written into the buffer of a thread. -/
theorem Inv.record {e : ε} (h : Inv cfg written s) (hthread : s.thread k = .opened evb) :
    Inv cfg written (s.record k evb e) := by
  have hplace : evb ∈ s.places (.thread k) := mem_places_thread.mpr hthread
  have hother : ∀ evb', evb' ≠ evb → (s.record k evb e).buffers evb' = s.buffers evb' :=
    fun evb' hne => Function.update_of_ne hne _ _
  have hself : (s.record k evb e).buffers evb = ⟨s.kid evb, (s.buffers evb).events ++ [e]⟩ :=
    Function.update_self _ _ _
  have honTheWay : ∀ evb' ∈ s.taken ++ s.listevt,
      (s.record k evb e).buffers evb' = s.buffers evb' := fun evb' hmem =>
    hother evb' (h.ne_of_onTheWay hplace nofun nofun evb' hmem)
  have hkid : ∀ evb', (s.record k evb e).kid evb' = s.kid evb' := by
    intro evb'
    by_cases hne : evb' = evb
    · rw [hne]
      unfold State.kid
      rw [hself]
      rfl
    · exact congrArg EventBuffer.kid (hother evb' hne)
  refine ⟨⟨?_, fun k' evb' hk' => ?_, h.buffers.nodup, h.buffers.taken⟩, ?_, fun k' => ?_, ?_⟩
  · obtain ⟨S, howned, hlt⟩ := h.buffers.owned
    refine ⟨S, howned.congr fun place => List.Perm.of_eq ?_, hlt⟩
    cases place <;> rfl
  · exact (hkid evb').trans (h.buffers.kid k' evb' hk')
  · have htaken : ∀ evb' ∈ s.taken, (s.record k evb e).buffers evb' = s.buffers evb' :=
      fun evb' hmem => honTheWay evb' (List.mem_append_left _ hmem)
    exact h.files.frame h.buffers
      { listfd_set := rfl, fds := rfl, nextFd := rfl, files := rfl, taken := rfl,
        pc := fun _ => .inl rfl, closed := fun _ => Iff.rfl, buffers := htaken }
  · have hevents := h.events k'
    show Function.update s.pushed k (s.pushed k ++ [e]) k' =
      written k' ++ (s.record k evb e).eventsOf (s.taken ++ s.listevt) k' ++
        (s.thread k').buffers.flatMap fun evb' => ((s.record k evb e).buffers evb').events
    rw [eventsOf_congr honTheWay]
    unfold State.current at hevents
    by_cases hk : k' = k
    · rw [hk, hthread] at hevents
      have hcurrent : Thread.buffers (.opened evb) = [evb] := rfl
      rw [hk, Function.update_self, hthread, hevents, hcurrent, List.flatMap_singleton,
        List.flatMap_singleton, hself, List.append_assoc]
    · rw [Function.update_of_ne hk, hevents]
      refine congrArg _ (List.flatMap_congr fun evb' hmem => ?_)
      rw [hother evb' fun heq => hk ?_]
      have hplace' : evb ∈ s.places (.thread k') := by rwa [← heq]
      exact Place.thread.inj (h.buffers.unique hplace' hplace)
  · have hphase := h.phase
    refine ⟨hphase.point, hphase.called, hphase.threads, hphase.exited, hphase.asleep,
      hphase.drained, fun k' hk' => ?_⟩
    rcases hphase.visited k' hk' with hfd | ⟨evb', hevb', hkid'⟩
    · exact .inl hfd
    · exact .inr ⟨evb', hevb', (hkid evb').trans hkid'⟩

theorem Inv.push {e : ε} (h : Inv cfg written s) (hstep : s.push cfg k e = some t) :
    Inv cfg written t := by
  unfold State.push at hstep
  split at hstep
  case h_2 => cases hstep
  case h_1 evb hthread =>
  split at hstep
  case isFalse => cases hstep
  case isTrue =>
  obtain rfl := Option.some.inj hstep
  exact h.record hthread

/-- A buffer enters the fifo when the collector does not sleep beside an empty fifo. -/
theorem Inv.insert {thr : Thread} (h : Inv cfg written s) (hthread : s.thread k = .opened evb)
    (hnone : thr = .flushed ∨ thr = .closed) (hawake : s.pc .collector ≠ .asleep) :
    Inv cfg written { s with
      listevt := s.listevt ++ [evb], thread := Function.update s.thread k thr } := by
  have hbuffers : thr.buffers = [] := by
    rcases hnone with rfl | rfl <;> rfl
  have hothers : ∀ k', k' ≠ k → Function.update s.thread k thr k' = s.thread k' := fun k' hk' =>
    Function.update_of_ne hk' _ _
  have hopen : s.finalize_flushimator = false := by
    by_contra hfinal
    rcases h.phase.threads (Bool.eq_true_of_not_eq_false hfinal) k with hk | hk <;>
      cases hthread.symm.trans hk
  have hidle : s.pc .fini = .idle := h.phase.called.mp hopen
  refine ⟨⟨?_, fun k' evb' hk' => ?_, h.buffers.nodup, h.buffers.taken⟩, ?_, fun k' => ?_, ?_⟩
  · obtain ⟨S, howned, hlt⟩ := h.buffers.owned
    classical
    refine ⟨S, howned.move (a := evb) (i := .thread k) (j := .queue) nofun ?_ ?_ ?_, hlt⟩
    · show (s.thread k).buffers.Perm (evb :: (Function.update s.thread k thr k).buffers)
      rw [hthread, Function.update_self, hbuffers]
      exact List.Perm.refl _
    · exact List.perm_append_singleton _ _
    · intro place hplace hqueue
      refine List.Perm.of_eq ?_
      cases place with
      | thread k' =>
          have hk : k' ≠ k := fun heq => hplace (congrArg Place.thread heq)
          exact congrArg Thread.buffers (hothers k' hk)
      | queue => exact absurd rfl hqueue
      | writer w => rfl
      | free => rfl
  · by_cases hk : k' = k
    · rw [hk] at hk'
      have heq : thr = .opened evb' := (Function.update_self _ _ _).symm.trans hk'
      rw [heq] at hbuffers
      cases hbuffers
    · exact h.buffers.kid k' evb' ((hothers k' hk).symm.trans hk')
  · exact h.files.frame h.buffers
      { listfd_set := rfl, fds := rfl, nextFd := rfl, files := rfl, taken := rfl,
        pc := fun _ => .inl rfl, closed := fun _ => Iff.rfl, buffers := fun _ _ => rfl }
  · have hevents := h.events k'
    have hkid := h.buffers.kid k evb hthread
    show s.pushed k' = written k' ++ s.eventsOf (s.taken ++ (s.listevt ++ [evb])) k' ++
      ((Function.update s.thread k thr k').buffers.flatMap fun evb' => (s.buffers evb').events)
    rw [← List.append_assoc, eventsOf_append, eventsOf_singleton, hkid, hevents]
    unfold State.current
    by_cases hk : k' = k
    · rw [hk, Function.update_self, hbuffers, if_pos rfl, hthread]
      show _ ++ ((s.buffers evb).events ++ []) = _ ++ (_ ++ (s.buffers evb).events) ++ []
      simp only [List.append_assoc, List.append_nil]
    · rw [hothers k' hk, if_neg (Ne.symm hk), List.append_nil]
  · have hphase := h.phase
    refine ⟨hphase.point, hphase.called, fun hfinal => ?_, hphase.exited, fun hasleep => ?_,
      fun kids hclose => ?_, fun k' hk' => ?_⟩
    · rw [show s.finalize_flushimator = true from hfinal] at hopen
      cases hopen
    · exact absurd hasleep hawake
    · cases hidle.symm.trans hclose
    · by_cases hk : k' = k
      · refine .inr ⟨evb, ?_, (h.buffers.kid k evb hthread).trans hk.symm⟩
        exact List.mem_append_right _ (List.mem_append_right _ List.mem_cons_self)
      · rcases hphase.visited k' ((hothers k' hk).symm.trans hk') with hfd | ⟨evb', hevb', hkid'⟩
        · exact .inl hfd
        · refine .inr ⟨evb', ?_, hkid'⟩
          show evb' ∈ s.taken ++ (s.listevt ++ [evb])
          rw [← List.append_assoc]
          exact List.mem_append_left _ hevb'

/-! ## Steps of one writer -/

variable [DecidableEq ι]

omit [DecidableEq κ] in
theorem setPc_pc_self (s : State κ ι ε β) (w : Writer ι) (p : Pc κ β) : (s.setPc w p).pc w = p :=
  Function.update_self _ _ _

omit [DecidableEq κ] in
theorem setPc_pc_of_ne {w' : Writer ι} (s : State κ ι ε β) (p : Pc κ β) (hw : w' ≠ w) :
    (s.setPc w p).pc w' = s.pc w' :=
  Function.update_of_ne hw _ _

omit [DecidableEq κ] in
/-- One writer goes from a point without a buffer to another one. -/
theorem setPc_points (hs : (s.pc w).buffer = none) (hp : p.buffer = none) (w' : Writer ι) :
    (s.setPc w p).pc w' = s.pc w' ∨
      (s.pc w').buffer = none ∧ ((s.setPc w p).pc w').buffer = none := by
  by_cases hw : w' = w
  · rw [hw, setPc_pc_self]
    exact .inr ⟨hs, hp⟩
  · exact .inl (setPc_pc_of_ne s p hw)

omit [DecidableEq κ] in
/-- The points of the other writers are as before. -/
theorem point_setPc (h : ∀ w, (s.pc w).Of w) (hp : p.Of w) (w' : Writer ι) :
    ((s.setPc w p).pc w').Of w' := by
  by_cases hw : w' = w
  · subst hw
    rw [setPc_pc_self]
    exact hp
  · rw [setPc_pc_of_ne s p hw]
    exact h w'

omit [DecidableEq κ] in
/-- What a step of the collector or of a fence leaves of the phases. -/
theorem PhaseInv.setPc (h : PhaseInv cfg s) (hw : w ≠ .fini) (hp : p.Of w)
    (hexited : s.pc .collector = .exited → w ≠ .collector)
    (hasleep : w = .collector → p = .asleep → s.listevt = [] ∧ s.finalize_flushimator = false) :
    PhaseInv cfg (s.setPc w p) := by
  have hfini : (s.setPc w p).pc .fini = s.pc .fini := setPc_pc_of_ne s p hw.symm
  refine ⟨point_setPc h.point hp, ?_, h.threads, fun hidle hjoin => ?_, fun hcollector => ?_, ?_,
    h.visited⟩
  · rw [hfini]
    exact h.called
  · rw [hfini] at hidle hjoin
    have hold := h.exited hidle hjoin
    rw [setPc_pc_of_ne s p (hexited hold).symm]
    exact hold
  · by_cases hwc : w = .collector
    · rw [hwc, setPc_pc_self] at hcollector
      exact hasleep hwc hcollector
    · rw [setPc_pc_of_ne s p (Ne.symm hwc)] at hcollector
      exact h.asleep hcollector
  · rw [hfini]
    exact h.drained

/-- A step of the collector or of a fence between points without a buffer. -/
theorem Inv.setPc (h : Inv cfg written s) (hw : w ≠ .fini) (hs : (s.pc w).buffer = none)
    (hbuffer : p.buffer = none) (hp : p.Of w) (hexited : s.pc .collector = .exited → w ≠ .collector)
    (hasleep : w = .collector → p = .asleep → s.listevt = [] ∧ s.finalize_flushimator = false) :
    Inv cfg written (s.setPc w p) :=
  h.repoint (setPc_points hs hbuffer)
    (fun _ => closed_congr (setPc_pc_of_ne s p hw.symm))
    (h.phase.setPc hw hp hexited hasleep)

/-- The collector is signalled. -/
theorem Inv.signal (h : Inv cfg written s) : Inv cfg written s.signal := by
  unfold State.signal
  split
  case h_1 hasleep =>
    refine h.setPc nofun (by rw [hasleep]; rfl) rfl (fun kids => ⟨nofun, nofun, nofun⟩) ?_ nofun
    intro hexited
    rw [hasleep] at hexited
    cases hexited
  case h_2 => exact h

omit [DecidableEq κ] in
/-- A signal writes the point of the collector only. -/
theorem signal_eq (s : State κ ι ε β) : s.signal = { s with pc := s.signal.pc } := by
  unfold State.signal
  split <;> rfl

/-- A buffer is flushed or closed. -/
theorem Inv.enqueue {thr : Thread} (h : Inv cfg written s)
    (hnone : thr = .flushed ∨ thr = .closed) (hstep : s.enqueue k thr = some t) :
    Inv cfg written t := by
  unfold State.enqueue at hstep
  split at hstep
  case h_2 => cases hstep
  case h_1 evb hthread =>
  split at hstep
  case isTrue => cases hstep
  obtain rfl := Option.some.inj hstep
  by_cases hempty : s.listevt = []
  · rw [if_pos hempty]
    have hsignal := h.signal
    have hawake : s.signal.pc .collector ≠ .asleep := by
      intro hasleep
      unfold State.signal at hasleep
      split at hasleep
      · rw [setPc_pc_self] at hasleep
        cases hasleep
      · contradiction
    rw [signal_eq] at hsignal ⊢
    exact hsignal.insert hthread hnone hawake
  · rw [if_neg hempty]
    exact h.insert hthread hnone fun hasleep => hempty (h.phase.asleep hasleep).1

end Xkblas.Trace.Recorder
