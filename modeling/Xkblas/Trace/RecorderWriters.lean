import Mathlib.Data.List.Nodup
import Xkblas.Trace.RecorderThreads

/-!
# The writers of the trace recorder

A writer that holds the first unwritten buffer of a kid is the only one that touches the file of the
kid. Each point of `_kaapi_write_evb` keeps `Inv` then, and so does the loop that writes the headers
and closes the files.
-/

namespace Xkblas.Trace.Recorder

open Library

variable {κ ι ε β : Type} [DecidableEq κ] [DecidableEq ι] {cfg : Config κ ε β}
  {written : κ → List ε} {s t : State κ ι ε β} {w : Writer ι} {k : κ} {evb : Evb} {p : Pc κ β}

/-! ## The loop of a writer -/

/-- The points from the loop of a writer to the release of its buffer. -/
def Pc.inner : Pc κ β → Bool
  | .loop | .test _ | .openFile _ | .dummy _ | .write _ _ | .release _ => true
  | _ => false

omit [DecidableEq κ] [DecidableEq ι] in
/-- Every writer has these points. -/
theorem Pc.of_inner (hp : p.inner = true) : p.Of w := by
  cases p <;> cases w <;> simp_all [Pc.inner, Pc.Of]

omit [DecidableEq κ] in
/-- No file is closed by a step between such points. -/
theorem closed_inner (hw : (s.pc w).inner = true) (hp : p.inner = true)
    (hpc : t.pc = Function.update s.pc w p) (k : κ) : t.Closed k ↔ s.Closed k := by
  by_cases hfini : w = .fini
  · subst hfini
    have hopen : ∀ {q : Pc κ β}, q.inner = true → ∀ kids, q ≠ .close kids := by
      rintro q hq kids rfl
      cases hq
    have ht : t.pc .fini = p := by rw [hpc, Function.update_self]
    exact iff_of_false (not_closed (by rw [ht]; exact hopen hp)) (not_closed (hopen hw))
  · exact closed_congr (by rw [hpc, Function.update_of_ne (Ne.symm hfini)])

omit [DecidableEq κ] in
/-- Steps between such points keep the phase. -/
theorem PhaseInv.step (h : PhaseInv cfg s) (hw : (s.pc w).inner = true) (hp : p.inner = true)
    (hpc : t.pc = Function.update s.pc w p)
    (hfinal : t.finalize_flushimator = s.finalize_flushimator) (hthread : t.thread = s.thread)
    (hlist : s.listevt = [] → t.listevt = [])
    (hvisited : ∀ k, s.thread k = .closed → t.listfd_set k ≠ none ∨
      ∃ evb ∈ t.taken ++ t.listevt, t.kid evb = k) : PhaseInv cfg t := by
  have hself : t.pc w = p := by rw [hpc, Function.update_self]
  have hother : ∀ w', w' ≠ w → t.pc w' = s.pc w' := fun w' hne => by
    rw [hpc, Function.update_of_ne hne]
  -- a writer that is not at such a point is as before
  have hsame : ∀ {w' q}, q.inner = false → (t.pc w' = q ↔ s.pc w' = q) := by
    intro w' q hq
    by_cases hne : w' = w
    · rw [hne, hself]
      constructor
      · rintro rfl
        rw [hp] at hq
        cases hq
      · rintro rfl
        rw [hw] at hq
        cases hq
    · rw [hother w' hne]
  constructor
  case point =>
    intro w'
    by_cases hne : w' = w
    · rw [hne, hself]
      exact Pc.of_inner hp
    · rw [hother w' hne]
      exact h.point w'
  case called =>
    rw [hfinal, h.called]
    exact (hsame rfl).symm
  case threads =>
    rw [hfinal, hthread]
    exact h.threads
  case exited =>
    intro hidle hjoin
    exact (hsame rfl).mpr (h.exited (fun hs => hidle ((hsame rfl).mpr hs))
      fun hs => hjoin ((hsame rfl).mpr hs))
  case asleep =>
    intro hasleep
    obtain ⟨hempty, hopen⟩ := h.asleep ((hsame rfl).mp hasleep)
    exact ⟨hlist hempty, hfinal.trans hopen⟩
  case drained =>
    intro kids hclose
    obtain ⟨hempty, hsuffix⟩ := h.drained kids ((hsame rfl).mp hclose)
    exact ⟨hlist hempty, hsuffix⟩
  case visited =>
    rw [hthread]
    exact hvisited

omit [DecidableEq κ] in
/-- A writer goes on with its buffer. -/
theorem BuffersInv.frame (h : BuffersInv s) (hthread : t.thread = s.thread)
    (hlist : t.listevt = s.listevt) (hfree : t.listevtfree = s.listevtfree) (hbrk : t.brk = s.brk)
    (hkid : ∀ evb, t.kid evb = s.kid evb) (htaken : t.taken = s.taken)
    (hbuffer : p.buffer = (s.pc w).buffer) (hpending : p.pending = (s.pc w).pending)
    (hpc : t.pc = Function.update s.pc w p) : BuffersInv t := by
  have hpoint : ∀ w', (t.pc w').buffer = (s.pc w').buffer ∧
      (t.pc w').pending = (s.pc w').pending := by
    intro w'
    rw [hpc]
    by_cases hne : w' = w
    · rw [hne, Function.update_self]
      exact ⟨hbuffer, hpending⟩
    · rw [Function.update_of_ne hne]
      exact ⟨rfl, rfl⟩
  refine ⟨?_, fun k evb hk => ?_, ?_, fun evb => ?_⟩
  · obtain ⟨S, howned, hlt⟩ := h.owned
    refine ⟨S, howned.congr fun place => List.Perm.of_eq ?_, ?_⟩
    · cases place with
      | thread k => exact congrArg Thread.buffers (congrFun hthread k)
      | queue => exact hlist
      | writer w' => exact congrArg Option.toList (hpoint w').1
      | free => exact hfree
    · rw [hbrk]
      exact hlt
  · rw [hkid]
    rw [hthread] at hk
    exact h.kid k evb hk
  · rw [htaken]
    exact h.nodup
  · rw [htaken, h.taken]
    exact exists_congr fun w' => by rw [(hpoint w').2]

/-- A writer takes the first buffer of the fifo. -/
theorem Inv.pop {listevt : List Evb} (h : Inv cfg written s) (hw : s.pc w = .loop)
    (hlist : s.listevt = evb :: listevt) :
    Inv cfg written { s.setPc w (.test evb) with
      listevt := listevt, taken := s.taken ++ [evb] } := by
  have hqueue : evb ∈ s.places .queue := by
    show evb ∈ s.listevt
    rw [hlist]
    exact List.mem_cons_self
  have hinner : (s.pc w).inner = true := by
    rw [hw]
    rfl
  have hpoint : (s.setPc w (.test evb)).pc w = .test evb := setPc_pc_self s w _
  have hother : ∀ w', w' ≠ w → (s.setPc w (.test evb)).pc w' = s.pc w' := fun w' hne =>
    setPc_pc_of_ne s _ hne
  have hnew : evb ∉ s.taken := h.buffers.notMem_taken hqueue nofun
  -- nothing has been started with this step
  have hstarted : ∀ {w' evb'}, ((s.setPc w (.test evb)).pc w').started = some evb' ↔
      (s.pc w').started = some evb' := by
    intro w' evb'
    by_cases hne : w' = w
    · rw [hne, hpoint, hw]
      exact ⟨nofun, nofun⟩
    · rw [hother w' hne]
  have hsame : ∀ {w'} {q : Pc κ β}, q.started ≠ none → (s.setPc w (.test evb)).pc w' = q →
      s.pc w' = q := by
    intro w' q hq hpc
    by_cases hne : w' = w
    · rw [hne, hpoint] at hpc
      rw [← hpc] at hq
      exact absurd rfl hq
    · rw [← hother w' hne]
      exact hpc
  have hclosed : ∀ k, State.Closed { s.setPc w (.test evb) with
      listevt := listevt, taken := s.taken ++ [evb] } k ↔ s.Closed k :=
    closed_inner hinner rfl rfl
  refine ⟨⟨?_, h.buffers.kid, ?_, fun evb' => ?_⟩, ?_, fun k => ?_, ?_⟩
  · obtain ⟨S, howned, hlt⟩ := h.buffers.owned
    classical
    refine ⟨S, howned.move (a := evb) (i := .queue) (j := .writer w) nofun ?_ ?_ ?_, hlt⟩
    · show s.listevt.Perm (evb :: listevt)
      rw [hlist]
    · show ((s.setPc w (.test evb)).pc w).buffer.toList.Perm (evb :: (s.pc w).buffer.toList)
      rw [hpoint, hw]
      exact List.Perm.refl _
    · intro place hplace hwriter
      refine List.Perm.of_eq ?_
      cases place with
      | thread k => rfl
      | queue => exact absurd rfl hplace
      | writer w' =>
          have hne : w' ≠ w := fun heq => hwriter (congrArg Place.writer heq)
          exact congrArg (fun q => q.buffer.toList) (hother w' hne)
      | free => rfl
  · exact List.nodup_append'.mpr ⟨h.buffers.nodup, List.nodup_singleton evb,
      List.disjoint_singleton.mpr hnew⟩
  · show evb' ∈ s.taken ++ [evb] ↔ ∃ w', ((s.setPc w (.test evb)).pc w').pending = some evb'
    rw [List.mem_append, List.mem_singleton, h.buffers.taken]
    constructor
    · rintro (⟨w', hw'⟩ | rfl)
      · have hne : w' ≠ w := by
          rintro rfl
          rw [hw] at hw'
          cases hw'
        exact ⟨w', by rw [hother w' hne]; exact hw'⟩
      · exact ⟨w, by rw [hpoint]; rfl⟩
    · rintro ⟨w', hw'⟩
      by_cases hne : w' = w
      · rw [hne, hpoint] at hw'
        exact .inr (Option.some.inj hw').symm
      · rw [hother w' hne] at hw'
        exact .inl ⟨w', hw'⟩
  · have hfiles := h.files
    constructor
    case descr => exact fun k fd hopen => hfiles.descr k fd fun hc => hopen ((hclosed k).mpr hc)
    case unopened => exact hfiles.unopened
    case first =>
      intro w' evb' hw'
      have hold := hfiles.first w' evb' (hstarted.mp hw')
      unfold State.unwritten at hold
      show ((s.taken ++ [evb]).filter fun evb'' => decide (s.kid evb'' = s.kid evb')).head? = _
      rw [List.filter_append, List.head?_append, hold]
      rfl
    case opening => exact fun w' evb' hw' => hfiles.opening w' evb' (hsame nofun hw')
    case dummy => exact fun w' evb' hw' => hfiles.dummy w' evb' (hsame nofun hw')
    case writing =>
      exact fun w' evb' towrite hw' => hfiles.writing w' evb' towrite (hsame nofun hw')
    case quiet =>
      intro k hopen hfd hnone
      exact hfiles.quiet k (fun hc => hopen ((hclosed k).mpr hc)) hfd fun w' evb' hw' =>
        hnone w' evb' (hstarted.mpr hw')
    case closed =>
      intro k hc
      obtain ⟨kids, hclose, _⟩ := (hclosed k).mp hc
      rw [(h.phase.drained kids hclose).1] at hlist
      cases hlist
  · have hevents := h.events k
    rw [hlist, List.append_cons] at hevents
    exact hevents
  · refine h.phase.step hinner rfl rfl rfl rfl (fun hempty => ?_) fun k hk => ?_
    · rw [hempty] at hlist
      cases hlist
    · have hvisited := h.phase.visited k hk
      rw [hlist, List.append_cons] at hvisited
      exact hvisited

/-! ## The write of a buffer -/

/-- The writer `w` has the buffer `evb`, which is the first of its kid that is not written. -/
structure Holds (s : State κ ι ε β) (w : Writer ι) (evb : Evb) : Prop where
  pending : (s.pc w).pending = some evb
  first : (s.unwritten (s.kid evb)).head? = some evb

omit [DecidableEq ι] in
theorem Holds.inner (h : Holds s w evb) : (s.pc w).inner = true := by
  have hpending := h.pending
  cases hpc : s.pc w <;> rw [hpc] at hpending <;> first | rfl | cases hpending

omit [DecidableEq ι] in
theorem Holds.buffer (h : Holds s w evb) : (s.pc w).buffer = some evb :=
  Pc.buffer_of_pending h.pending

omit [DecidableEq ι] in
theorem Holds.mem_unwritten (h : Holds s w evb) : evb ∈ s.unwritten (s.kid evb) :=
  List.mem_of_mem_head? h.first

omit [DecidableEq ι] in
/-- The file of the kid is not closed. -/
theorem Holds.not_closed (h : Holds s w evb) (hfiles : FilesInv cfg written s) :
    ¬ s.Closed (s.kid evb) := by
  intro hclosed
  have hmem := h.mem_unwritten
  rw [(hfiles.closed _ hclosed).1] at hmem
  cases hmem

omit [DecidableEq ι] in
/-- No other writer writes the file of the kid. -/
theorem Holds.other {w' : Writer ι} {evb' : Evb} (h : Holds s w evb) (hinv : Inv cfg written s)
    (hw' : (s.pc w').started = some evb') (hne : w' ≠ w) : s.kid evb' ≠ s.kid evb := by
  intro hkid
  have hfirst := hinv.files.first w' evb' hw'
  rw [hkid, h.first] at hfirst
  obtain rfl := Option.some.inj hfirst
  exact hne (hinv.buffers.writer_unique (Pc.pending_of_started hw') h.pending)

/-- The files after a step of a writer that does not touch them: the writer goes on to `p`. -/
theorem FilesInv.setPc (hinv : Inv cfg written s) (h : Holds s w evb)
    (hp : p.started = some evb) (hquiet : (s.pc w).started = none)
    (hopening : p = .openFile evb → s.listfd_set (s.kid evb) = none)
    (hdummy : p ≠ .dummy evb)
    (hwriting : ∀ towrite, p = .write evb towrite → s.listfd_set (s.kid evb) ≠ none ∧
      s.files (s.kid evb) ++ towrite = cfg.dummyHeader ++ cfg.bytes (written (s.kid evb)) ++
        cfg.bytes (s.buffers evb).events) : FilesInv cfg written (s.setPc w p) := by
  have hfiles := hinv.files
  have hinner : p.inner = true := by
    cases p <;> first | rfl | cases hp
  have hclosed : ∀ k, (s.setPc w p).Closed k ↔ s.Closed k := closed_inner h.inner hinner rfl
  have hevb : ∀ {evb'}, p.started = some evb' → evb' = evb := fun hs =>
    Option.some.inj (hs.symm.trans hp)
  have hcases : ∀ {w' q}, (s.setPc w p).pc w' = q → w' = w ∧ q = p ∨ s.pc w' = q := by
    intro w' q hpc
    by_cases hne : w' = w
    · rw [hne, setPc_pc_self] at hpc
      exact .inl ⟨hne, hpc.symm⟩
    · rw [setPc_pc_of_ne s p hne] at hpc
      exact .inr hpc
  constructor
  case descr => exact fun k fd hopen => hfiles.descr k fd fun hc => hopen ((hclosed k).mpr hc)
  case unopened => exact hfiles.unopened
  case first =>
    intro w' evb' hw'
    rcases hcases rfl with ⟨_, heq⟩ | heq
    · rw [heq] at hw'
      obtain rfl := hevb hw'
      exact h.first
    · rw [← heq] at hw'
      exact hfiles.first w' evb' hw'
  case opening =>
    intro w' evb' hw'
    rcases hcases hw' with ⟨_, heq⟩ | hold
    · obtain rfl : evb' = evb := hevb (by rw [← heq]; rfl)
      exact hopening heq.symm
    · exact hfiles.opening w' evb' hold
  case dummy =>
    intro w' evb' hw'
    rcases hcases hw' with ⟨_, heq⟩ | hold
    · obtain rfl : evb' = evb := hevb (by rw [← heq]; rfl)
      exact absurd heq.symm hdummy
    · exact hfiles.dummy w' evb' hold
  case writing =>
    intro w' evb' towrite hw'
    rcases hcases hw' with ⟨_, heq⟩ | hold
    · obtain rfl : evb' = evb := hevb (by rw [← heq]; rfl)
      exact hwriting towrite heq.symm
    · exact hfiles.writing w' evb' towrite hold
  case quiet =>
    intro k hopen hfd hnone
    refine hfiles.quiet k (fun hc => hopen ((hclosed k).mpr hc)) hfd fun w' evb' hw' => ?_
    have hne : w' ≠ w := by
      rintro rfl
      rw [hquiet] at hw'
      cases hw'
    refine hnone w' evb' ?_
    rw [setPc_pc_of_ne s p hne]
    exact hw'
  case closed => exact fun k hc => hfiles.closed k ((hclosed k).mp hc)

/-- The descriptor is tested. -/
theorem Inv.test (h : Inv cfg written s) (hw : s.pc w = .test evb)
    (hfirst : (s.unwritten (s.kid evb)).head? = some evb) :
    Inv cfg written (s.atTest cfg w evb) := by
  have hholds : Holds s w evb := ⟨by rw [hw]; rfl, hfirst⟩
  have hquiet : (s.pc w).started = none := by
    rw [hw]
    rfl
  have hgoal : ∀ p : Pc κ β, p.inner = true → p.buffer = some evb → p.pending = some evb →
      FilesInv cfg written (s.setPc w p) → Inv cfg written (s.setPc w p) := by
    intro p hinner hbuffer hpending hfiles
    refine ⟨?_, hfiles, h.events, h.phase.step hholds.inner hinner rfl rfl rfl id h.phase.visited⟩
    exact h.buffers.frame rfl rfl rfl rfl (fun _ => rfl) rfl (hbuffer.trans hholds.buffer.symm)
      (hpending.trans hholds.pending.symm) rfl
  unfold State.atTest
  split
  case h_1 hfd =>
    exact hgoal _ rfl rfl rfl
      (FilesInv.setPc h hholds rfl hquiet (fun _ => hfd) (by simp) (by simp))
  case h_2 fd hfd =>
    have hsome : s.listfd_set (s.kid evb) ≠ none := by
      rw [hfd]
      exact Option.some_ne_none fd
    refine hgoal _ rfl rfl rfl (FilesInv.setPc h hholds rfl hquiet (by simp) (by simp) ?_)
    rintro towrite htowrite
    obtain ⟨_, rfl⟩ := Pc.write.inj htowrite
    refine ⟨hsome, ?_⟩
    rw [h.files.quiet _ (hholds.not_closed h.files) hsome fun w' evb' hw' => ?_]
    refine hholds.other h hw' ?_
    rintro rfl
    rw [hquiet] at hw'
    cases hw'

/-- The file is opened. -/
theorem Inv.open (h : Inv cfg written s) (hw : s.pc w = .openFile evb) :
    Inv cfg written (s.atOpen w evb) := by
  have hstarted : (s.pc w).started = some evb := by
    rw [hw]
    rfl
  have hholds : Holds s w evb := ⟨Pc.pending_of_started hstarted, h.files.first w evb hstarted⟩
  have hfd := h.files.opening w evb hw
  have hpoint : (s.atOpen w evb).pc w = .dummy evb := setPc_pc_self s w _
  have hother : ∀ w', w' ≠ w → (s.atOpen w evb).pc w' = s.pc w' := fun w' hne =>
    setPc_pc_of_ne s _ hne
  have hclosed : ∀ k, (s.atOpen w evb).Closed k ↔ s.Closed k := closed_inner hholds.inner rfl rfl
  have hfiles := h.files
  -- the fields of the kid, and those of the other kids
  have hset : (s.atOpen w evb).listfd_set (s.kid evb) = some s.nextFd := Function.update_self _ _ _
  have hempty : (s.atOpen w evb).files (s.kid evb) = [] := Function.update_self _ _ _
  have hsets : ∀ k, k ≠ s.kid evb → (s.atOpen w evb).listfd_set k = s.listfd_set k := fun k hk =>
    Function.update_of_ne hk _ _
  have hfile : ∀ k, k ≠ s.kid evb → (s.atOpen w evb).files k = s.files k := fun k hk =>
    Function.update_of_ne hk _ _
  refine ⟨?_, ?_, h.events, h.phase.step hholds.inner rfl rfl rfl rfl id fun k hk => ?_⟩
  · have hbuffer : (Pc.dummy evb : Pc κ β).buffer = (s.pc w).buffer := hholds.buffer.symm
    exact h.buffers.frame rfl rfl rfl rfl (fun _ => rfl) rfl hbuffer hholds.pending.symm rfl
  · constructor
    case descr =>
      intro k fd hopen hk
      by_cases hkid : k = s.kid evb
      · rw [hkid, hset] at hk
        obtain rfl := Option.some.inj hk
        rw [hkid, hempty]
        exact ⟨Nat.lt_succ_self _, Function.update_self _ _ _⟩
      · rw [hsets k hkid] at hk
        obtain ⟨hlt, hdescr⟩ := hfiles.descr k fd (fun hc => hopen ((hclosed k).mpr hc)) hk
        rw [hfile k hkid]
        exact ⟨Nat.lt_succ_of_lt hlt, (Function.update_of_ne hlt.ne _ _).trans hdescr⟩
    case unopened =>
      intro k hk
      have hkid : k ≠ s.kid evb := by
        rintro rfl
        rw [hset] at hk
        cases hk
      rw [hsets k hkid] at hk
      exact hfiles.unopened k hk
    case first =>
      intro w' evb' hw'
      by_cases hne : w' = w
      · rw [hne, hpoint] at hw'
        obtain rfl := Option.some.inj hw'
        exact hholds.first
      · rw [hother w' hne] at hw'
        exact hfiles.first w' evb' hw'
    case opening =>
      intro w' evb' hw'
      by_cases hne : w' = w
      · rw [hne, hpoint] at hw'
        cases hw'
      · rw [hother w' hne] at hw'
        exact (hsets _ (hholds.other h (by rw [hw']; rfl) hne)).trans (hfiles.opening w' evb' hw')
    case dummy =>
      intro w' evb' hw'
      by_cases hne : w' = w
      · rw [hne, hpoint] at hw'
        obtain rfl := Pc.dummy.inj hw'
        refine ⟨?_, hempty, hfiles.unopened _ hfd⟩
        show (s.atOpen w evb).listfd_set (s.kid evb) ≠ none
        rw [hset]
        exact Option.some_ne_none _
      · rw [hother w' hne] at hw'
        have hkid := hholds.other h (by rw [hw']; rfl) hne
        obtain ⟨hsome, hold, hnil⟩ := hfiles.dummy w' evb' hw'
        exact ⟨fun hnone => hsome ((hsets _ hkid).symm.trans hnone), (hfile _ hkid).trans hold,
          hnil⟩
    case writing =>
      intro w' evb' towrite hw'
      by_cases hne : w' = w
      · rw [hne, hpoint] at hw'
        cases hw'
      · rw [hother w' hne] at hw'
        have hkid := hholds.other h (by rw [hw']; rfl) hne
        obtain ⟨hsome, hold⟩ := hfiles.writing w' evb' towrite hw'
        refine ⟨fun hnone => hsome ((hsets _ hkid).symm.trans hnone), ?_⟩
        show (s.atOpen w evb).files (s.kid evb') ++ towrite = _
        rw [hfile _ hkid]
        exact hold
    case quiet =>
      intro k hopen hsome hnone
      have hkid : k ≠ s.kid evb := by
        rintro rfl
        exact hnone w evb (by rw [hpoint]; rfl) rfl
      rw [hsets k hkid] at hsome
      rw [hfile k hkid]
      refine hfiles.quiet k (fun hc => hopen ((hclosed k).mpr hc)) hsome fun w' evb' hw' => ?_
      by_cases hne : w' = w
      · rw [hne, hstarted] at hw'
        obtain rfl := Option.some.inj hw'
        exact hkid.symm
      · refine hnone w' evb' ?_
        rw [hother w' hne]
        exact hw'
    case closed =>
      intro k hc
      have hkid : k ≠ s.kid evb := by
        rintro rfl
        exact hholds.not_closed hfiles ((hclosed _).mp hc)
      rw [hsets k hkid, hfile k hkid]
      exact hfiles.closed k ((hclosed k).mp hc)
  · by_cases hkid : k = s.kid evb
    · left
      rw [hkid, hset]
      exact Option.some_ne_none _
    · rw [hsets k hkid]
      exact h.phase.visited k hk

omit [DecidableEq ι] in
/-- A write at the end of a file. -/
theorem writeFd_eq {fd : Fd} (hfd : s.fds fd = ⟨k, (s.files k).length, false⟩) (bytes : List β) :
    s.writeFd cfg fd bytes = { s with
      files := Function.update s.files k (s.files k ++ bytes)
      fds := Function.update s.fds fd ⟨k, (s.files k ++ bytes).length, false⟩ } := by
  unfold State.writeFd
  rw [hfd]
  dsimp only
  rw [writeAt_length, List.length_append]

/-- A writer that has started appends to the file of its buffer. -/
theorem Inv.append {fd : Fd} {bytes towrite : List β} (h : Inv cfg written s)
    (hw : (s.pc w).started = some evb) (hfd : s.listfd_set (s.kid evb) = some fd)
    (hfile : s.files (s.kid evb) ++ bytes ++ towrite = cfg.dummyHeader ++
      cfg.bytes (written (s.kid evb)) ++ cfg.bytes (s.buffers evb).events) :
    (s.fds fd).closed = false ∧
      Inv cfg written ((s.writeFd cfg fd bytes).setPc w (.write evb towrite)) := by
  have hholds : Holds s w evb := ⟨Pc.pending_of_started hw, h.files.first w evb hw⟩
  have hfiles := h.files
  obtain ⟨_, hdescr⟩ := hfiles.descr _ fd (hholds.not_closed hfiles) hfd
  have hclosed' : (s.fds fd).closed = false := by rw [hdescr]
  refine ⟨hclosed', ?_⟩
  rw [writeFd_eq hdescr]
  have hself : Function.update s.files (s.kid evb) (s.files (s.kid evb) ++ bytes) (s.kid evb) =
      s.files (s.kid evb) ++ bytes := Function.update_self _ _ _
  have hother : ∀ k, k ≠ s.kid evb →
      Function.update s.files (s.kid evb) (s.files (s.kid evb) ++ bytes) k = s.files k :=
    fun k hk => Function.update_of_ne hk _ _
  generalize Function.update s.files (s.kid evb) (s.files (s.kid evb) ++ bytes) = files
    at hself hother ⊢
  let t : State κ ι ε β := State.setPc { s with
    files := files
    fds := Function.update s.fds fd ⟨s.kid evb, (s.files (s.kid evb) ++ bytes).length, false⟩ } w
    (.write evb towrite)
  have hpoint : t.pc w = .write evb towrite := setPc_pc_self _ w _
  have hothers : ∀ w', w' ≠ w → t.pc w' = s.pc w' := fun w' hne => setPc_pc_of_ne _ _ hne
  have hclosed : ∀ k, t.Closed k ↔ s.Closed k := closed_inner hholds.inner rfl rfl
  have hbuffer : (Pc.write evb towrite : Pc κ β).buffer = (s.pc w).buffer := hholds.buffer.symm
  show Inv cfg written t
  refine ⟨h.buffers.frame rfl rfl rfl rfl (fun _ => rfl) rfl hbuffer hholds.pending.symm rfl, ?_,
    h.events, h.phase.step hholds.inner rfl rfl rfl rfl id h.phase.visited⟩
  constructor
  case descr =>
    intro k fd' hopen hk
    obtain ⟨hlt, hold⟩ := hfiles.descr k fd' (fun hc => hopen ((hclosed k).mpr hc)) hk
    refine ⟨hlt, ?_⟩
    show Function.update s.fds fd _ fd' = ⟨k, (files k).length, false⟩
    by_cases hkid : k = s.kid evb
    · rw [hkid] at hk ⊢
      obtain rfl := Option.some.inj (hfd.symm.trans hk)
      rw [Function.update_self, hself]
    · have hne : fd' ≠ fd := by
        rintro rfl
        rw [hdescr] at hold
        exact hkid (congrArg OpenFile.kid hold).symm
      rw [Function.update_of_ne hne, hother k hkid]
      exact hold
  case unopened => exact hfiles.unopened
  case first =>
    intro w' evb' hw'
    by_cases hne : w' = w
    · rw [hne, hpoint] at hw'
      obtain rfl := Option.some.inj hw'
      exact hholds.first
    · rw [hothers w' hne] at hw'
      exact hfiles.first w' evb' hw'
  case opening =>
    intro w' evb' hw'
    by_cases hne : w' = w
    · rw [hne, hpoint] at hw'
      cases hw'
    · rw [hothers w' hne] at hw'
      exact hfiles.opening w' evb' hw'
  case dummy =>
    intro w' evb' hw'
    by_cases hne : w' = w
    · rw [hne, hpoint] at hw'
      cases hw'
    · rw [hothers w' hne] at hw'
      obtain ⟨hsome, hold, hnil⟩ := hfiles.dummy w' evb' hw'
      exact ⟨hsome, (hother _ (hholds.other h (by rw [hw']; rfl) hne)).trans hold, hnil⟩
  case writing =>
    intro w' evb' towrite' hw'
    by_cases hne : w' = w
    · rw [hne, hpoint] at hw'
      obtain ⟨rfl, rfl⟩ := Pc.write.inj hw'
      refine ⟨fun hnone => ?_, (congrArg (· ++ towrite) hself).trans hfile⟩
      cases hfd.symm.trans hnone
    · rw [hothers w' hne] at hw'
      obtain ⟨hsome, hold⟩ := hfiles.writing w' evb' towrite' hw'
      have hsame := hother _ (hholds.other h (by rw [hw']; rfl) hne)
      exact ⟨hsome, (congrArg (· ++ towrite') hsame).trans hold⟩
  case quiet =>
    intro k hopen hsome hnone
    have hkid : k ≠ s.kid evb := by
      rintro rfl
      exact hnone w evb (by rw [hpoint]; rfl) rfl
    refine (hother k hkid).trans ?_
    refine hfiles.quiet k (fun hc => hopen ((hclosed k).mpr hc)) hsome fun w' evb' hw' => ?_
    by_cases hne : w' = w
    · rw [hne, hw] at hw'
      obtain rfl := Option.some.inj hw'
      exact hkid.symm
    · refine hnone w' evb' ?_
      rw [hothers w' hne]
      exact hw'
  case closed =>
    intro k hc
    have hkid : k ≠ s.kid evb := by
      rintro rfl
      exact hholds.not_closed hfiles ((hclosed _).mp hc)
    obtain ⟨hnil, hold⟩ := hfiles.closed k ((hclosed k).mp hc)
    exact ⟨hnil, fun hsome => (hother k hkid).trans (hold hsome)⟩

/-- The dummy header is written. -/
theorem Inv.dummy (h : Inv cfg written s) (hw : s.pc w = .dummy evb)
    (hstep : s.atDummy cfg w evb = some t) : Inv cfg written t := by
  obtain ⟨hsome, hempty, hnil⟩ := h.files.dummy w evb hw
  obtain ⟨fd, hfd⟩ := Option.ne_none_iff_exists'.mp hsome
  have hstarted : (s.pc w).started = some evb := by
    rw [hw]
    rfl
  have hfile : s.files (s.kid evb) ++ cfg.dummyHeader ++ cfg.bytes (s.buffers evb).events =
      cfg.dummyHeader ++ cfg.bytes (written (s.kid evb)) ++ cfg.bytes (s.buffers evb).events := by
    rw [hempty, hnil, List.nil_append]
    exact congrArg (· ++ _) (List.append_nil _).symm
  obtain ⟨hopen, hinv⟩ := h.append hstarted hfd hfile
  unfold State.atDummy at hstep
  rw [hfd] at hstep
  dsimp only [Option.bind_some] at hstep
  rw [hopen] at hstep
  obtain rfl := Option.some.inj hstep
  exact hinv

/-- The buffer is written: its events are in the file. -/
theorem Inv.written_step (h : Inv cfg written s) (hw : s.pc w = .write evb []) :
    Inv cfg (Function.update written (s.kid evb)
      (written (s.kid evb) ++ (s.buffers evb).events)) (s.written w evb) := by
  have hstarted : (s.pc w).started = some evb := by
    rw [hw]
    rfl
  have hholds : Holds s w evb := ⟨Pc.pending_of_started hstarted, h.files.first w evb hstarted⟩
  have hfiles := h.files
  obtain ⟨hsome, hfile⟩ := hfiles.writing w evb [] hw
  rw [List.append_nil] at hfile
  have hpoint : (s.written w evb).pc w = .release evb := setPc_pc_self s w _
  have hothers : ∀ w', w' ≠ w → (s.written w evb).pc w' = s.pc w' := fun w' hne =>
    setPc_pc_of_ne s _ hne
  have hclosed : ∀ k, (s.written w evb).Closed k ↔ s.Closed k := closed_inner hholds.inner rfl rfl
  have hbuffers : ∀ evb', evb' ≠ evb → (s.written w evb).buffers evb' = s.buffers evb' :=
    fun evb' hne => Function.update_of_ne hne _ _
  have hself : (s.written w evb).buffers evb = { s.buffers evb with events := [] } :=
    Function.update_self _ _ _
  have hkid : ∀ evb', (s.written w evb).kid evb' = s.kid evb' := by
    intro evb'
    by_cases hne : evb' = evb
    · unfold State.kid
      rw [hne, hself]
    · exact congrArg EventBuffer.kid (hbuffers evb' hne)
  have hold : ∀ k, k ≠ s.kid evb → Function.update written (s.kid evb)
      (written (s.kid evb) ++ (s.buffers evb).events) k = written k := fun k hk =>
    Function.update_of_ne hk _ _
  have htaken : evb ∈ s.taken := (h.buffers.taken evb).mpr ⟨w, hholds.pending⟩
  -- the list of the kid loses its first buffer, the others are as before
  have hunwritten : ∀ k, (s.written w evb).unwritten k = (s.unwritten k).erase evb := by
    intro k
    have hfilter : (s.written w evb).unwritten k =
        (s.taken.erase evb).filter fun evb' => decide (s.kid evb' = k) :=
      List.filter_congr fun evb' _ => by rw [hkid]
    rw [hfilter, h.buffers.nodup.erase_eq_filter, List.filter_comm]
    exact ((h.buffers.nodup.filter _).erase_eq_filter evb).symm
  have hunwritten' : ∀ k, k ≠ s.kid evb → (s.written w evb).unwritten k = s.unwritten k := by
    intro k hk
    rw [hunwritten]
    refine List.erase_of_not_mem fun hmem => hk ?_
    exact (of_decide_eq_true (List.mem_filter.mp hmem).2).symm
  have hlist : evb ∉ s.listevt := by
    intro hmem
    have hplace : evb ∈ s.places .queue := hmem
    exact h.buffers.notMem_taken hplace nofun htaken
  refine ⟨⟨?_, fun k evb' hk => ?_, ?_, fun evb' => ?_⟩, ?_, fun k => ?_, ?_⟩
  · obtain ⟨S, howned, hlt⟩ := h.buffers.owned
    refine ⟨S, howned.congr fun place => List.Perm.of_eq ?_, hlt⟩
    cases place with
    | thread k => rfl
    | queue => rfl
    | writer w' =>
        show ((s.written w evb).pc w').buffer.toList = (s.pc w').buffer.toList
        by_cases hne : w' = w
        · rw [hne, hpoint, hw]
          rfl
        · rw [hothers w' hne]
    | free => rfl
  · exact (hkid evb').trans (h.buffers.kid k evb' hk)
  · exact h.buffers.nodup.erase evb
  · show evb' ∈ s.taken.erase evb ↔ _
    rw [h.buffers.nodup.mem_erase_iff, h.buffers.taken]
    constructor
    · rintro ⟨hne, w', hw'⟩
      have hww : w' ≠ w := by
        rintro rfl
        rw [hholds.pending] at hw'
        exact hne (Option.some.inj hw').symm
      exact ⟨w', by rw [hothers w' hww]; exact hw'⟩
    · rintro ⟨w', hw'⟩
      by_cases hww : w' = w
      · rw [hww, hpoint] at hw'
        cases hw'
      · rw [hothers w' hww] at hw'
        refine ⟨?_, w', hw'⟩
        rintro rfl
        exact hww (h.buffers.writer_unique hw' hholds.pending)
  · constructor
    case descr => exact fun k fd hopen => hfiles.descr k fd fun hc => hopen ((hclosed k).mpr hc)
    case unopened =>
      intro k hk
      have hne : k ≠ s.kid evb := by
        rintro rfl
        exact hsome hk
      rw [hold k hne]
      exact hfiles.unopened k hk
    case first =>
      intro w' evb' hw'
      have hne : w' ≠ w := by
        rintro rfl
        rw [hpoint] at hw'
        cases hw'
      rw [hothers w' hne] at hw'
      rw [hkid, hunwritten' _ (hholds.other h hw' hne)]
      exact hfiles.first w' evb' hw'
    case opening =>
      intro w' evb' hw'
      have hne : w' ≠ w := by
        rintro rfl
        cases hpoint.symm.trans hw'
      rw [hothers w' hne] at hw'
      rw [hkid]
      exact hfiles.opening w' evb' hw'
    case dummy =>
      intro w' evb' hw'
      have hne : w' ≠ w := by
        rintro rfl
        cases hpoint.symm.trans hw'
      rw [hothers w' hne] at hw'
      rw [hkid, hold _ (hholds.other h (by rw [hw']; rfl) hne)]
      exact hfiles.dummy w' evb' hw'
    case writing =>
      intro w' evb' towrite hw'
      have hne : w' ≠ w := by
        rintro rfl
        cases hpoint.symm.trans hw'
      rw [hothers w' hne] at hw'
      have hkids := hholds.other h (by rw [hw']; rfl) hne
      have hevb : evb' ≠ evb := fun heq => hkids (congrArg s.kid heq)
      rw [hkid, hold _ hkids, hbuffers evb' hevb]
      exact hfiles.writing w' evb' towrite hw'
    case quiet =>
      intro k hopen hfd hnone
      by_cases hk : k = s.kid evb
      · rw [hk, Function.update_self]
        refine hfile.trans ?_
        unfold Config.bytes
        rw [List.flatMap_append, List.append_assoc]
      · rw [hold k hk]
        refine hfiles.quiet k (fun hc => hopen ((hclosed k).mpr hc)) hfd fun w' evb' hw' => ?_
        by_cases hne : w' = w
        · rw [hne, hstarted] at hw'
          obtain rfl := Option.some.inj hw'
          exact Ne.symm hk
        · rw [← hkid]
          refine hnone w' evb' ?_
          rw [hothers w' hne]
          exact hw'
    case closed =>
      intro k hc
      have hk : k ≠ s.kid evb := by
        rintro rfl
        exact hholds.not_closed hfiles ((hclosed _).mp hc)
      rw [hunwritten' k hk, hold k hk]
      exact hfiles.closed k ((hclosed k).mp hc)
  · have hevents := h.events k
    have hcurrent : (s.written w evb).current k = s.current k := by
      refine List.flatMap_congr fun evb' hmem => ?_
      rw [hbuffers evb' ?_]
      rintro rfl
      have hplace : evb' ∈ s.places (.thread k) := hmem
      exact h.buffers.notMem_taken hplace nofun htaken
    have hqueued : (s.written w evb).eventsOf s.listevt k = s.eventsOf s.listevt k :=
      eventsOf_congr (fun evb' hmem => hbuffers evb' (ne_of_mem_of_not_mem hmem hlist)) k
    have hrest : (s.written w evb).eventsOf (s.taken.erase evb) k =
        ((s.unwritten k).erase evb).flatMap fun evb' => (s.buffers evb').events := by
      rw [← hunwritten]
      refine List.flatMap_congr fun evb' hmem => ?_
      rw [hbuffers evb' ?_]
      rintro rfl
      exact (h.buffers.nodup.mem_erase_iff.mp (List.mem_filter.mp hmem).1).1 rfl
    show s.pushed k = _ ++ (s.written w evb).eventsOf (s.taken.erase evb ++ s.listevt) k ++ _
    rw [eventsOf_append, hqueued, hrest, hcurrent, hevents, eventsOf_append]
    show written k ++ ((s.unwritten k).flatMap _ ++ _) ++ _ = _
    by_cases hk : k = s.kid evb
    · obtain ⟨tail, htail⟩ := List.head?_eq_some_iff.mp hholds.first
      rw [hk, Function.update_self, htail, List.erase_cons_head, List.flatMap_cons]
      simp only [List.append_assoc]
    · rw [hold k hk, ← hunwritten, hunwritten' k hk]
  · refine h.phase.step hholds.inner rfl rfl rfl rfl id fun k hk => ?_
    by_cases hkids : k = s.kid evb
    · exact .inl (by rw [hkids]; exact hsome)
    · rcases h.phase.visited k hk with hfd | ⟨evb', hmem, hkid'⟩
      · exact .inl hfd
      · refine .inr ⟨evb', ?_, (hkid evb').trans hkid'⟩
        have hne : evb' ≠ evb := by
          rintro rfl
          exact hkids hkid'.symm
        rcases List.mem_append.mp hmem with hmem | hmem
        · exact List.mem_append_left _ ((List.mem_erase_of_ne hne).mpr hmem)
        · exact List.mem_append_right _ hmem

/-- A round of the loop of `_kaapi_write_evb`. -/
theorem Inv.write {towrite : List β} {n : ℕ} (h : Inv cfg written s)
    (hw : s.pc w = .write evb towrite) (hstep : s.atWrite cfg w evb towrite n = some t) :
    ∃ written', Inv cfg written' t := by
  unfold State.atWrite at hstep
  split at hstep
  case isTrue hempty =>
    obtain rfl := List.isEmpty_iff.mp hempty
    obtain rfl := Option.some.inj hstep
    exact ⟨_, h.written_step hw⟩
  case isFalse =>
    obtain ⟨fd, hfd, rfl⟩ := Option.map_eq_some_iff.mp hstep
    obtain ⟨_, hfile⟩ := h.files.writing w evb towrite hw
    have hstarted : (s.pc w).started = some evb := by
      rw [hw]
      rfl
    rw [← List.take_append_drop n towrite, ← List.append_assoc] at hfile
    obtain ⟨hopen, hinv⟩ := h.append hstarted hfd hfile
    rw [hopen]
    exact ⟨written, hinv⟩

/-- A writer releases its buffer. -/
theorem Inv.release {listevtfree : List Evb} (h : Inv cfg written s) (hw : s.pc w = .release evb)
    (hfree : listevtfree = s.listevtfree ∨ listevtfree = evb :: s.listevtfree) :
    Inv cfg written { s.setPc w .loop with listevtfree := listevtfree } := by
  have hinner : (s.pc w).inner = true := by
    rw [hw]
    rfl
  have hpoint : (s.setPc w .loop).pc w = .loop := setPc_pc_self s w _
  have hothers : ∀ w', w' ≠ w → (s.setPc w .loop).pc w' = s.pc w' := fun w' hne =>
    setPc_pc_of_ne s _ hne
  have hpending : ∀ w', ((s.setPc w .loop).pc w').pending = (s.pc w').pending := by
    intro w'
    by_cases hne : w' = w
    · rw [hne, hpoint, hw]
      rfl
    · rw [hothers w' hne]
  refine ⟨⟨?_, h.buffers.kid, h.buffers.nodup, fun evb' => ?_⟩, ?_, h.events,
    h.phase.step hinner rfl rfl rfl rfl id h.phase.visited⟩
  · obtain ⟨S, howned, hlt⟩ := h.buffers.owned
    have hmine : (s.places (.writer w)).Perm
        (evb :: ((s.setPc w .loop).pc w).buffer.toList) := by
      show ((s.pc w).buffer.toList).Perm _
      rw [hpoint, hw]
      exact List.Perm.refl _
    have hkept : ∀ place, place ≠ .writer w → place ≠ .free →
        (State.places { s.setPc w .loop with listevtfree := listevtfree } place).Perm
          (s.places place) := by
      intro place hwriter hplace
      refine List.Perm.of_eq ?_
      cases place with
      | thread k => rfl
      | queue => rfl
      | writer w' =>
          have hne : w' ≠ w := fun heq => hwriter (congrArg Place.writer heq)
          exact congrArg (fun q => q.buffer.toList) (hothers w' hne)
      | free => exact absurd rfl hplace
    rcases hfree with rfl | rfl
    · refine ⟨S \ {evb}, howned.revoke (i := .writer w) hmine fun place hwriter => ?_,
        fun evb' hmem => hlt evb' hmem.1⟩
      by_cases hplace : place = .free
      · subst hplace
        exact List.Perm.refl _
      · exact hkept place hwriter hplace
    · classical
      exact ⟨S, howned.move (i := .writer w) (j := .free) nofun hmine (List.Perm.refl _) hkept, hlt⟩
  · exact (h.buffers.taken evb').trans
      (exists_congr fun w' => (congrArg (· = some evb') (hpending w')).symm.to_iff)
  · have hfiles := h.files
    have hstarted : ∀ w', ((s.setPc w .loop).pc w').started = (s.pc w').started := by
      intro w'
      by_cases hne : w' = w
      · rw [hne, hpoint, hw]
        rfl
      · rw [hothers w' hne]
    have hsame : ∀ {w'} {q : Pc κ β}, q.started ≠ none → (s.setPc w .loop).pc w' = q →
        s.pc w' = q := by
      intro w' q hq hpc
      by_cases hne : w' = w
      · rw [hne, hpoint] at hpc
        rw [← hpc] at hq
        exact absurd rfl hq
      · rw [← hothers w' hne]
        exact hpc
    have hclosed : ∀ k, State.Closed { s.setPc w .loop with listevtfree := listevtfree } k ↔
        s.Closed k := closed_inner hinner rfl rfl
    exact {
      descr := fun k fd hopen => hfiles.descr k fd fun hc => hopen ((hclosed k).mpr hc)
      unopened := hfiles.unopened
      first := fun w' evb' hw' => hfiles.first w' evb' ((hstarted w').symm.trans hw')
      opening := fun w' evb' hw' => hfiles.opening w' evb' (hsame nofun hw')
      dummy := fun w' evb' hw' => hfiles.dummy w' evb' (hsame nofun hw')
      writing := fun w' evb' towrite hw' => hfiles.writing w' evb' towrite (hsame nofun hw')
      quiet := fun k hopen hfd hnone => hfiles.quiet k (fun hc => hopen ((hclosed k).mpr hc)) hfd
        fun w' evb' hw' => hnone w' evb' ((hstarted w').trans hw')
      closed := fun k hc => hfiles.closed k ((hclosed k).mp hc) }

/-! ## The end of the program -/

/-- The header is written over the dummy header, and the file is closed. -/
theorem Inv.closeKid {kids : List κ} (h : Inv cfg written s) (hw : s.pc .fini = .close (k :: kids))
    (hnone : s.unwritten k = []) :
    Inv cfg written ((s.closeKid cfg k).setPc .fini (.close kids)) := by
  obtain ⟨hempty, hsuffix⟩ := h.phase.drained _ hw
  have hnodup : (k :: kids).Nodup := cfg.kids_nodup.sublist hsuffix.sublist
  obtain ⟨hk, _⟩ := List.nodup_cons.mp hnodup
  have hfiles := h.files
  have hkopen : ¬ s.Closed k := by
    rintro ⟨kids', hclose, hmem⟩
    obtain rfl := Pc.close.inj (hw.symm.trans hclose)
    exact hmem List.mem_cons_self
  -- the fields that the round does not write
  have hfields : ∃ files fds, s.closeKid cfg k = { s with files := files, fds := fds } ∧
      (∀ k', k' ≠ k → files k' = s.files k') ∧
      (∀ k' fd, k' ≠ k → s.listfd_set k' = some fd → ¬ s.Closed k' → fds fd = s.fds fd) ∧
      (s.listfd_set k ≠ none → files k = cfg.header k ++ cfg.bytes (written k)) := by
    unfold State.closeKid
    split
    case h_1 hfd =>
      exact ⟨_, _, rfl, fun _ _ => rfl, fun _ _ _ _ _ => rfl, fun hsome => absurd hfd hsome⟩
    case h_2 fd hfd =>
      obtain ⟨_, hdescr⟩ := hfiles.descr k fd hkopen hfd
      have hsome : s.listfd_set k ≠ none := by
        rw [hfd]
        exact Option.some_ne_none fd
      have hfile : s.files k = cfg.dummyHeader ++ cfg.bytes (written k) := by
        refine hfiles.quiet k hkopen hsome fun w evb hw' hkid => ?_
        have hmem := List.mem_of_mem_head? (hfiles.first w evb hw')
        rw [hkid, hnone] at hmem
        cases hmem
      refine ⟨_, _, rfl, fun k' hk' => ?_, fun k' fd' hk' hfd' hopen => ?_, fun _ => ?_⟩
      · rw [hdescr]
        exact Function.update_of_ne hk' _ _
      · have hne : fd' ≠ fd := by
          rintro rfl
          have hdescr' := (hfiles.descr k' fd' hopen hfd').2
          rw [hdescr] at hdescr'
          exact hk' (congrArg OpenFile.kid hdescr').symm
        exact Function.update_of_ne hne _ _
      · rw [hdescr]
        dsimp only
        rw [Function.update_self, hfile]
        refine writeAt_zero _ _ ?_
        rw [cfg.header_length, Config.dummyHeader, List.length_replicate]
  obtain ⟨files, fds, heq, hother, hdescrs, hheader⟩ := hfields
  rw [heq]
  let t : State κ ι ε β := State.setPc { s with files := files, fds := fds } .fini (.close kids)
  have hpoint : t.pc .fini = .close kids := setPc_pc_self _ _ _
  have hothers : ∀ w', w' ≠ .fini → t.pc w' = s.pc w' := fun w' hne => setPc_pc_of_ne _ _ hne
  have hclosed : ∀ k', t.Closed k' ↔ k' = k ∨ s.Closed k' := by
    intro k'
    constructor
    · rintro ⟨kids', hclose, hmem⟩
      obtain rfl := Pc.close.inj (hpoint.symm.trans hclose)
      by_cases hk' : k' = k
      · exact .inl hk'
      · exact .inr ⟨_, hw, fun hmem' => (List.mem_cons.mp hmem').elim hk' hmem⟩
    · rintro (rfl | ⟨kids', hclose, hmem⟩)
      · exact ⟨kids, hpoint, hk⟩
      · obtain rfl := Pc.close.inj (hw.symm.trans hclose)
        exact ⟨kids, hpoint, fun hmem' => hmem (List.mem_cons_of_mem _ hmem')⟩
  have hbuffer : (Pc.close kids : Pc κ β).buffer = (s.pc .fini).buffer := by
    rw [hw]
    rfl
  have hpending : (Pc.close kids : Pc κ β).pending = (s.pc .fini).pending := by
    rw [hw]
    rfl
  have hsame : ∀ {w'} {q : Pc κ β}, q.started ≠ none → t.pc w' = q → s.pc w' = q := by
    intro w' q hq hpc
    by_cases hne : w' = .fini
    · rw [hne, hpoint] at hpc
      rw [← hpc] at hq
      exact absurd rfl hq
    · rw [← hothers w' hne]
      exact hpc
  have hstarted : ∀ w', (t.pc w').started = (s.pc w').started := by
    intro w'
    by_cases hne : w' = .fini
    · rw [hne, hpoint, hw]
      rfl
    · rw [hothers w' hne]
  have hkids : ∀ {w' evb'}, (s.pc w').pending = some evb' → s.kid evb' ≠ k := by
    intro w' evb' hw' hkid
    have hmem : evb' ∈ s.unwritten k :=
      List.mem_filter.mpr ⟨(h.buffers.taken evb').mpr ⟨w', hw'⟩, decide_eq_true hkid⟩
    rw [hnone] at hmem
    cases hmem
  show Inv cfg written t
  refine ⟨h.buffers.frame rfl rfl rfl rfl (fun _ => rfl) rfl hbuffer hpending rfl, ?_, h.events, ?_⟩
  · constructor
    case descr =>
      intro k' fd hopen hfd
      rw [hclosed, not_or] at hopen
      obtain ⟨hlt, hold⟩ := hfiles.descr k' fd hopen.2 hfd
      refine ⟨hlt, (hdescrs k' fd hopen.1 hfd hopen.2).trans ?_⟩
      rw [hold]
      exact congrArg (fun l => OpenFile.mk k' (List.length l) false) (hother k' hopen.1).symm
    case unopened => exact hfiles.unopened
    case first => exact fun w' evb' hw' => hfiles.first w' evb' ((hstarted w').symm.trans hw')
    case opening => exact fun w' evb' hw' => hfiles.opening w' evb' (hsame nofun hw')
    case dummy =>
      intro w' evb' hw'
      have hold : s.pc w' = .dummy evb' := hsame nofun hw'
      obtain ⟨hsome, hnil, hwritten⟩ := hfiles.dummy w' evb' hold
      exact ⟨hsome, (hother _ (hkids (by rw [hold]; rfl))).trans hnil, hwritten⟩
    case writing =>
      intro w' evb' towrite hw'
      have hold : s.pc w' = .write evb' towrite := hsame nofun hw'
      obtain ⟨hsome, hfile⟩ := hfiles.writing w' evb' towrite hold
      have hkept := hother _ (hkids (by rw [hold]; rfl))
      exact ⟨hsome, (congrArg (· ++ towrite) hkept).trans hfile⟩
    case quiet =>
      intro k' hopen hsome hnostart
      rw [hclosed, not_or] at hopen
      refine (hother k' hopen.1).trans (hfiles.quiet k' hopen.2 hsome fun w' evb' hw' => ?_)
      exact hnostart w' evb' ((hstarted w').trans hw')
    case closed =>
      intro k' hc
      by_cases hk' : k' = k
      · rw [hk']
        exact ⟨hnone, hheader⟩
      · obtain ⟨hnil, hfile⟩ := hfiles.closed k' (((hclosed k').mp hc).resolve_left hk')
        exact ⟨hnil, fun hsome => (hother k' hk').trans (hfile hsome)⟩
  · have hphase := h.phase
    have hidle : s.finalize_flushimator ≠ false := fun hopen => by
      cases hw.symm.trans (hphase.called.mp hopen)
    refine ⟨fun w' => ?_, ?_, hphase.threads, fun _ _ => ?_, hphase.asleep, fun kids' hclose => ?_,
      hphase.visited⟩
    · by_cases hne : w' = .fini
      · rw [hne, hpoint]
        exact ⟨nofun, nofun⟩
      · rw [hothers w' hne]
        exact hphase.point w'
    · rw [hpoint]
      exact iff_of_false hidle nofun
    · exact hphase.exited (by rw [hw]; nofun) (by rw [hw]; nofun)
    · obtain rfl := Pc.close.inj (hpoint.symm.trans hclose)
      exact ⟨hempty, (List.suffix_cons k kids).trans hsuffix⟩

/-! ## The steps -/

omit [DecidableEq κ] in
/-- `kaapi_eventrecorder_fini` goes to a point behind the end of the collector. -/
theorem PhaseInv.fini (h : PhaseInv cfg s) (hp : p = .loop ∨ p = .close cfg.kids)
    (hexited : s.pc .collector = .exited) (hcalled : s.pc .fini ≠ .idle)
    (hdrained : p = .close cfg.kids → s.listevt = []) : PhaseInv cfg (s.setPc .fini p) := by
  have hpoint : (s.setPc .fini p).pc .fini = p := setPc_pc_self s _ p
  have hidle : p ≠ .idle := by
    rcases hp with rfl | rfl <;> nofun
  have hcollector : (s.setPc .fini p).pc .collector = s.pc .collector := setPc_pc_of_ne s p nofun
  refine ⟨point_setPc h.point ?_, ?_, h.threads, fun _ _ => hcollector.trans hexited, ?_, ?_,
    h.visited⟩
  · rcases hp with rfl | rfl <;> exact ⟨nofun, nofun⟩
  · rw [hpoint]
    exact iff_of_false (fun hopen => hcalled (h.called.mp hopen)) hidle
  · rw [hcollector]
    exact h.asleep
  · intro kids hclose
    rw [hpoint] at hclose
    have heq : p = .close cfg.kids := by
      rcases hp with rfl | rfl
      · cases hclose
      · rfl
    rw [heq] at hclose
    obtain rfl := Pc.close.inj hclose
    exact ⟨hdrained heq, List.suffix_refl _⟩

/-- The head of the loop of a writer. -/
theorem Inv.loop (h : Inv cfg written s) (hw : s.pc w = .loop) (hstep : s.atLoop cfg w = some t) :
    Inv cfg written t := by
  have hnone : (s.pc w).buffer = none := by
    rw [hw]
    rfl
  unfold State.atLoop at hstep
  split at hstep
  case isFalse => cases hstep
  case isTrue hlock =>
  clear hlock
  split at hstep
  case h_1 hlist =>
    obtain rfl := Option.some.inj hstep
    exact h.pop hw hlist
  case h_2 hempty =>
    have hexited : s.pc .collector ≠ .exited := by
      simp [hw]
    split at hstep
    case isTrue =>
      obtain rfl := Option.some.inj hstep
      exact h.setPc (by simp) hnone rfl (fun _ => ⟨by simp, by simp, by simp⟩)
        (fun hx => absurd hx hexited) (by simp)
    case isFalse hopen =>
      obtain rfl := Option.some.inj hstep
      exact h.setPc (by simp) hnone rfl (fun _ => ⟨by simp, by simp, by simp⟩)
        (fun hx => absurd hx hexited) fun _ _ => ⟨hempty, Bool.eq_false_iff.mpr hopen⟩
  case h_3 =>
    obtain rfl := Option.some.inj hstep
    exact h.setPc (by simp) hnone rfl (fun _ => ⟨by simp, by simp, by simp, by simp⟩) (by simp)
      (by simp)
  case h_4 hempty =>
    obtain rfl := Option.some.inj hstep
    have hexited := h.phase.exited (by simp [hw]) (by simp [hw])
    refine h.repoint (setPc_points hnone rfl) (fun k => ?_)
      (h.phase.fini (.inr rfl) hexited (by simp [hw]) fun _ => hempty)
    refine iff_of_false ?_ (not_closed fun kids hclose => by cases hw.symm.trans hclose)
    rintro ⟨kids, hclose, hmem⟩
    obtain rfl := Pc.close.inj ((setPc_pc_self s _ _).symm.trans hclose)
    exact hmem (cfg.mem_kids k)

/-- A step of a writer that keeps the order. -/
theorem Inv.writer {n : ℕ} (h : Inv cfg written s) (hok : InOrder s (.writer w n))
    (hstep : s.writer cfg w n = some t) : ∃ written', Inv cfg written' t := by
  have horder : s.PointInOrder (s.pc w) := hok
  unfold State.writer at hstep
  cases hw : s.pc w with
  | loop =>
      rw [hw] at hstep
      exact ⟨written, h.loop hw hstep⟩
  | test evb =>
      rw [hw] at hstep
      rw [hw] at horder
      obtain rfl := Option.some.inj hstep
      exact ⟨written, h.test hw horder⟩
  | openFile evb =>
      rw [hw] at hstep
      obtain rfl := Option.some.inj hstep
      exact ⟨written, h.open hw⟩
  | dummy evb =>
      rw [hw] at hstep
      exact ⟨written, h.dummy hw hstep⟩
  | write evb towrite =>
      rw [hw] at hstep
      exact h.write hw hstep
  | release evb =>
      rw [hw] at hstep
      obtain rfl := Option.some.inj hstep
      refine ⟨written, ?_⟩
      unfold State.atRelease
      split
      · exact h.release hw (.inl rfl)
      · exact h.release hw (.inr rfl)
  | asleep =>
      rw [hw] at hstep
      obtain rfl := Option.some.inj hstep
      have hpoint := h.phase.point w
      rw [hw] at hpoint
      cases w with
      | collector =>
          have hquiet : (s.pc .collector).buffer = none := by
            rw [hw]
            rfl
          exact ⟨written, h.setPc (by simp) hquiet rfl (fun _ => ⟨by simp, by simp, by simp⟩)
            (by simp [hw]) (by simp)⟩
      | fence i => exact absurd rfl (hpoint []).1
      | fini => exact absurd rfl hpoint.1
  | join =>
      rw [hw] at hstep
      dsimp only at hstep
      split at hstep
      case h_2 => cases hstep
      case h_1 hexited =>
      obtain rfl := Option.some.inj hstep
      have hpoint := h.phase.point w
      rw [hw] at hpoint
      cases w with
      | collector => exact absurd rfl (hpoint []).2.1
      | fence i => exact absurd rfl (hpoint []).2.1
      | fini =>
          refine ⟨written, h.repoint (setPc_points (by rw [hw]; rfl) rfl) (fun k => ?_)
            (h.phase.fini (.inl rfl) hexited (by simp [hw]) (by simp))⟩
          refine iff_of_false (not_closed fun kids hclose => ?_)
            (not_closed fun kids hclose => by cases hw.symm.trans hclose)
          cases (setPc_pc_self s _ _).symm.trans hclose
  | close kids =>
      rw [hw] at hstep
      rw [hw] at horder
      have hpoint := h.phase.point w
      rw [hw] at hpoint
      cases kids with
      | nil => cases hstep
      | cons k kids =>
          obtain rfl := Option.some.inj hstep
          cases w with
          | collector => exact absurd rfl (hpoint (k :: kids)).2.2
          | fence i => exact absurd rfl (hpoint (k :: kids)).2.2.2
          | fini => exact ⟨written, h.closeKid hw horder⟩
  | idle =>
      rw [hw] at hstep
      cases hstep
  | exited =>
      rw [hw] at hstep
      cases hstep

/-- `kaapi_eventrecorder_fini` is called. -/
theorem Inv.fini (h : Inv cfg written s) (hstep : s.fini cfg = some t) : Inv cfg written t := by
  unfold State.fini at hstep
  split at hstep
  case h_2 => cases hstep
  case h_1 hidle =>
  split at hstep
  case isFalse => cases hstep
  case isTrue hthreads =>
  obtain rfl := Option.some.inj hstep
  have hs := h.signal
  have hidle' : s.signal.pc .fini = .idle := by
    unfold State.signal
    split
    · have hne : (Writer.fini : Writer ι) ≠ .collector := by simp
      exact (setPc_pc_of_ne s _ hne).trans hidle
    · exact hidle
  have hthread : s.signal.thread = s.thread := by rw [signal_eq]
  have hawake : s.signal.pc .collector ≠ .asleep := by
    intro hasleep
    unfold State.signal at hasleep
    split at hasleep
    · cases (setPc_pc_self s _ _).symm.trans hasleep
    · contradiction
  have hpoint : (s.signal.setPc .fini .join).pc .fini = .join := setPc_pc_self _ _ _
  have hothers : ∀ w', w' ≠ .fini → (s.signal.setPc .fini .join).pc w' = s.signal.pc w' :=
    fun w' hne => setPc_pc_of_ne _ _ hne
  refine hs.repoint (setPc_points (by rw [hidle']; rfl) rfl) (fun k => ?_) ?_
  · refine iff_of_false (not_closed fun kids hclose => ?_)
      (not_closed fun kids hclose => by cases hidle'.symm.trans hclose)
    cases hpoint.symm.trans hclose
  · refine ⟨point_setPc hs.phase.point ⟨by simp, by simp⟩, ?_, fun _ k => ?_, fun _ hjoin => ?_,
      fun hasleep => ?_, fun kids hclose => ?_, hs.phase.visited⟩
    · exact iff_of_false (by simp) fun hi => by cases hpoint.symm.trans hi
    · show s.signal.thread k = _ ∨ s.signal.thread k = _
      rw [hthread]
      exact hthreads k (cfg.mem_kids k)
    · exact absurd hpoint hjoin
    · exact absurd ((hothers .collector (by simp)).symm.trans hasleep) hawake
    · cases hpoint.symm.trans hclose

/-- Every step that keeps the order keeps the invariant. -/
theorem Inv.step {a : Action κ ι ε} (h : Inv cfg written s) (hok : InOrder s a)
    (hstep : Recorder.step cfg s a = some t) : ∃ written', Inv cfg written' t := by
  cases a with
  | openbuffer k => exact ⟨written, h.openbuffer hstep⟩
  | push k e => exact ⟨written, h.push hstep⟩
  | flush k => exact ⟨written, h.enqueue (.inl rfl) hstep⟩
  | reopen k => exact ⟨written, h.reopen hstep⟩
  | close k => exact ⟨written, h.enqueue (.inr rfl) hstep⟩
  | fencebuffers i =>
      simp only [Recorder.step, State.fencebuffers] at hstep
      split at hstep
      case h_2 => cases hstep
      case h_1 hidle =>
      obtain rfl := Option.some.inj hstep
      have hquiet : (s.pc (.fence i)).buffer = none := by
        rw [hidle]
        rfl
      exact ⟨written, h.setPc (by simp) hquiet rfl (fun _ => ⟨by simp, by simp, by simp, by simp⟩)
        (by simp) (by simp)⟩
  | fini => exact ⟨written, h.fini hstep⟩
  | writer w n => exact h.writer hok hstep

omit [DecidableEq ι] in
/-- After `kaapi_eventrecorder_init` nothing is written. -/
theorem Inv.initial (h : Initial s) : Inv cfg (fun _ => []) s := by
  have hpc : ∀ w, (s.pc w).buffer = none := by
    intro w
    cases w with
    | collector => rw [h.collector]; rfl
    | fence i => rw [h.fence]; rfl
    | fini => rw [h.fini]; rfl
  have hplaces : ∀ place, s.places place = [] := by
    intro place
    cases place with
    | thread k => exact congrArg Thread.buffers (h.thread k)
    | queue => exact h.listevt
    | writer w => exact congrArg Option.toList (hpc w)
    | free => exact h.listevtfree
  have hpending : ∀ w evb, (s.pc w).pending ≠ some evb := fun w evb hw => by
    have hbuffer := Pc.buffer_of_pending hw
    rw [hpc w] at hbuffer
    cases hbuffer
  have hopen : ∀ k, ¬ s.Closed k := fun k => not_closed fun kids hclose => by
    cases h.fini.symm.trans hclose
  refine ⟨⟨⟨∅, Owned.empty hplaces, nofun⟩, fun k evb hk => ?_, ?_, fun evb => ?_⟩, ?_, fun k => ?_,
    ?_⟩
  · cases (h.thread k).symm.trans hk
  · rw [h.taken]
    exact List.nodup_nil
  · rw [h.taken]
    exact ⟨nofun, fun ⟨w, hw⟩ => absurd hw (hpending w evb)⟩
  · exact {
      descr := fun k fd _ hfd => by cases (h.listfd_set k).symm.trans hfd
      unopened := fun _ _ => rfl
      first := fun w evb hw => absurd (Pc.pending_of_started hw) (hpending w evb)
      opening := fun w evb hw => absurd (by rw [hw]; rfl) (hpending w evb)
      dummy := fun w evb hw => absurd (by rw [hw]; rfl) (hpending w evb)
      writing := fun w evb _ hw => absurd (by rw [hw]; rfl) (hpending w evb)
      quiet := fun k _ hfd => absurd (h.listfd_set k) hfd
      closed := fun k hc => absurd hc (hopen k) }
  · unfold State.current
    rw [h.pushed, h.taken, h.listevt, h.thread]
    rfl
  · refine ⟨fun w => ?_, ?_, fun hfinal => ?_, fun hidle => ?_, fun hasleep => ?_,
      fun kids hclose => ?_, fun k hk => ?_⟩
    · cases w with
      | collector =>
          rw [h.collector]
          exact fun _ => ⟨nofun, nofun, nofun⟩
      | fence i =>
          rw [h.fence]
          exact fun _ => ⟨nofun, nofun, nofun, nofun⟩
      | fini =>
          rw [h.fini]
          exact ⟨nofun, nofun⟩
    · exact iff_of_true h.finalize_flushimator h.fini
    · cases h.finalize_flushimator.symm.trans hfinal
    · exact absurd h.fini hidle
    · cases h.collector.symm.trans hasleep
    · cases h.fini.symm.trans hclose
    · cases (h.thread k).symm.trans hk

end Xkblas.Trace.Recorder
