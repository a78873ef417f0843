import Xkblas.Memory.DsmInvariant
import Xkblas.Library.FinLiteral

/-!
# Coherence of the replicas

`Coherent` says that some replica is valid and that every valid replica holds the version of
the last write acquired. It fails when a write access is acquired while a write-back is on its
way to the host (`stale_host_reachable`): the write invalidates the host, and the completion of
the old copy makes it valid again. It holds in every run without evictions in which no write is
acquired at such a time (`coherent_of_quietWrites`).
-/

namespace Xkblas.Memory.Dsm

open Library
open scoped Library.FinLiteral

variable {n : Nat}

/-- Some replica is valid, and the valid replicas hold the last version. -/
def Coherent (s : State n) : Prop :=
  s.valid.Nonempty ∧ ∀ l ∈ s.valid, s.holds l = some s.version

instance (s : State n) : Decidable (Coherent s) :=
  inferInstanceAs (Decidable (_ ∧ _))

/-- The step acquires a write access on the data. -/
def WriteStep (s : State n) (a : Action n) : Prop :=
  match a with
  | .mark i => ∃ b ∈ s.accesses[i]?, b.mode.isWrite = true
  | _ => False

instance (s : State n) : ∀ a : Action n, Decidable (WriteStep s a) := by
  rintro ⟨⟩
  case mark i => exact inferInstanceAs (Decidable (∃ b ∈ s.accesses[i]?, b.mode.isWrite = true))
  all_goals exact instDecidableFalse

/-- Nothing is evicted, and a write access is acquired only when no copy to the host is on its
way. -/
def QuietWrites (s : State n) (a : Action n) : Prop :=
  a.evicts = false ∧ (WriteStep s a → host ∉ s.xfer)

instance (s : State n) (a : Action n) : Decidable (QuietWrites s a) :=
  inferInstanceAs (Decidable (_ ∧ (_ → _)))

/-! ## The invariant -/

/-- A write access that has been acquired on `l` and waits for its input. -/
def PendingWrite (l : Lid n) (a : Access n) : Prop :=
  a.lid = l ∧ a.mode.isWrite = true ∧ a.pc = .acquired ∧ a.waiting = true

/-- The transfer brings the input of a write access that has been acquired. -/
def Superseded (s : State n) (t : Transfer n) : Prop :=
  ∃ a ∈ s.accesses, PendingWrite t.dest a

/-- The transfer brings the last version. -/
def Sound (s : State n) (t : Transfer n) : Prop :=
  match t.pc with
  | .onReceive => t.src ∈ s.xfer
  | .unposted => t.src ∈ s.valid
  | .submitted => t.src ∈ s.valid ∧ s.ptr t.src = t.srcPtr
  | .received payload => payload = some s.version

/-- What holds of an access. -/
structure SoundAccess (s : State n) (a : Access n) : Prop where
  supplied : ∀ src, a.pc.selected = some src → Supplied s src
  reader : a.pc.prefetches = true → a.mode.isWrite = false
  writer : a.mode.isWrite = true → a.pc = .acquired → a.lid ∈ s.valid ∧ host ∉ s.xfer

/-- The invariant of the runs with quiet writes. -/
structure Current (s : State n) : Prop where
  coherent : Coherent s
  transfers : ∀ t ∈ s.transfers, Superseded s t ∨ Sound s t
  accesses : ∀ a ∈ s.accesses, SoundAccess s a
  threads : ∀ l src, (s.thread l).selected = some src → s.accesses = [] ∧ Supplied s src

theorem current_initial : Current (initial : State n) := by
  refine ⟨⟨?_, ?_⟩, ?_, ?_, ?_⟩
  all_goals simp [initial, ThreadPc.selected]

/-- In a coherent state the choice of a source finds the data, or a replica that waits for it. -/
theorem State.IsSource.supplied {s : State n} (hs : s.valid.Nonempty) {src : Lid n}
    (h : s.IsSource src) : Supplied s src := by
  rcases h.mem with hvalid | hxfer | ⟨rfl, hnone⟩
  · exact .inl hvalid
  · exact .inr hxfer
  · refine .inl ?_
    obtain ⟨l, hl⟩ := hs
    by_contra hhost
    have hmem : l ∈ s.valid.erase host := by
      refine Finset.mem_erase.mpr ⟨?_, hl⟩
      rintro rfl
      exact hhost hl
    rw [hnone] at hmem
    exact absurd hmem (Finset.notMem_empty l)

/-! ## The steps -/

/-- A fetch from a supplied source adds a sound transfer. -/
theorem Current.sound_fetchOn {s : State n} (h : Current s) {dest src : Lid n}
    (hsrc : Supplied s src) : ∀ t ∈ (s.fetchOn dest src).transfers,
      Superseded s t ∨ Sound (s.fetchOn dest src) t := by
  have hold : ∀ t ∈ s.transfers, Superseded s t ∨ Sound (s.fetchOn dest src) t := by
    intro t ht
    refine (h.transfers t ht).imp_right fun hsound => ?_
    unfold Sound at hsound ⊢
    cases hpc : t.pc with
    | onReceive =>
        rw [hpc] at hsound
        exact (s.mem_fetchOn_xfer dest src t.src).mpr (.inl hsound)
    | unposted =>
        rw [hpc] at hsound
        simpa using hsound
    | submitted =>
        rw [hpc] at hsound
        simpa using hsound
    | received payload =>
        rw [hpc] at hsound
        simpa using hsound
  rcases s.fetchOn_transfers dest src with heq | ⟨u, heq, hvalid, _, hsrcEq, hdest, hkind⟩
  · rw [heq]
    exact hold
  · rw [heq]
    intro t ht
    rcases List.mem_append.mp ht with ht | ht
    · exact hold t ht
    · rw [List.mem_singleton.mp ht]
      refine .inr ?_
      unfold Sound
      rcases hkind with ⟨hxfer, hpc⟩ | ⟨hxfer, hpc⟩
      · rw [hpc, hsrcEq]
        exact (s.mem_fetchOn_xfer dest src src).mpr (.inl hxfer)
      · rw [hpc, hsrcEq]
        simpa using hsrc.resolve_right hxfer

/-- A fetch keeps what holds of an access, unless it is a fetch on the host under a writer. -/
theorem SoundAccess.fetchOn {s : State n} {a : Access n} (h : SoundAccess s a)
    {dest src : Lid n} (hhost : a.mode.isWrite = true → a.pc = .acquired → dest ≠ host) :
    SoundAccess (s.fetchOn dest src) a where
  supplied := fun d hd => (h.supplied d hd).mono (by simp)
    fun l hl => (s.mem_fetchOn_xfer dest src l).mpr (.inl hl)
  reader := h.reader
  writer := by
    intro hwrite hpc
    obtain ⟨hvalid, hxfer⟩ := h.writer hwrite hpc
    refine ⟨by simpa using hvalid, fun hmem => ?_⟩
    rcases (s.mem_fetchOn_xfer dest src host).mp hmem with hmem | ⟨hdest, _⟩
    · exact hxfer hmem
    · exact hhost hwrite hpc hdest.symm

/-- A fetch from a supplied source, not on the host under a writer. -/
theorem Current.fetchOn {s : State n} (h : Current s) {dest src : Lid n} (hsrc : Supplied s src)
    (hhost : ∀ a ∈ s.accesses, a.mode.isWrite = true → a.pc = .acquired → dest ≠ host) :
    Current (s.fetchOn dest src) where
  coherent := by
    unfold Coherent
    rw [State.fetchOn_valid, State.fetchOn_holds, State.fetchOn_version]
    exact h.coherent
  transfers := by
    unfold Superseded
    rw [State.fetchOn_accesses]
    exact h.sound_fetchOn hsrc
  accesses := by
    rw [State.fetchOn_accesses]
    exact fun a ha => (h.accesses a ha).fetchOn (hhost a ha)
  threads := by
    rw [State.fetchOn_accesses, State.fetchOn_thread]
    intro l d hsel
    obtain ⟨hnil, hsup⟩ := h.threads l d hsel
    exact ⟨hnil, hsup.mono (by simp) fun x hx => (s.mem_fetchOn_xfer dest src x).mpr (.inl hx)⟩

/-- A submission gives the device the pointer of a valid replica. -/
theorem Current.postCopy {s : State n} (h : Current s) (dest : Lid n) :
    Current (s.postCopy dest) := by
  refine ⟨h.coherent, fun v hv => ?_, fun a ha => ?_, h.threads⟩
  · obtain ⟨t, ht, rfl⟩ := List.mem_map.mp hv
    unfold Superseded
    rw [State.posted_dest]
    refine (h.transfers t ht).imp_right fun hsound => ?_
    rcases s.posted_cases dest t with ⟨hpc, heq⟩ | heq
    · unfold Sound at hsound
      rw [hpc] at hsound
      rw [heq]
      exact ⟨hsound, rfl⟩
    · rw [heq]
      exact hsound
  · obtain ⟨hsup, hreader, hwriter⟩ := h.accesses a ha
    exact ⟨hsup, hreader, hwriter⟩

/-- The start of an access. -/
theorem Current.startAccess {s : State n} (hb : Inv s) (h : Current s) {l : Lid n}
    {mode : AccessMode} {pc : AccessPc n} (hthreads : ∀ d, (s.thread d).writesBack = false)
    (hpc : SoundAccess (s.startAccess l mode pc) ⟨l, mode, pc, false⟩) :
    Current (s.startAccess l mode pc) := by
  have hvalid : (s.startAccess l mode pc).valid = s.valid := s.allocate_valid l
  have hxfer : (s.startAccess l mode pc).xfer = s.xfer := s.allocate_xfer l
  have hversion : (s.startAccess l mode pc).version = s.version := s.allocate_version l
  have hkeep : ∀ d ∈ s.valid, (s.startAccess l mode pc).ptr d = s.ptr d ∧
      (s.startAccess l mode pc).holds d = s.holds d :=
    fun d hd => s.allocate_of_mem (hb.allocated.valid_subset hd)
  constructor
  case coherent =>
    refine ⟨hvalid ▸ h.coherent.1, fun d hd => ?_⟩
    rw [hvalid] at hd
    rw [(hkeep d hd).2, hversion]
    exact h.coherent.2 d hd
  case transfers =>
    intro t ht
    replace ht : t ∈ s.transfers := by simpa [State.startAccess] using ht
    refine (h.transfers t ht).imp ?_ ?_
    · rintro ⟨a, ha, hpending⟩
      exact ⟨a, List.mem_append_left _ ha, hpending⟩
    · unfold Sound
      intro hsound
      cases htpc : t.pc with
      | onReceive =>
          rw [htpc] at hsound
          exact hxfer ▸ hsound
      | unposted =>
          rw [htpc] at hsound
          exact hvalid ▸ hsound
      | submitted =>
          rw [htpc] at hsound
          exact ⟨hvalid ▸ hsound.1, (hkeep _ hsound.1).1.trans hsound.2⟩
      | received payload =>
          rw [htpc] at hsound
          exact hversion ▸ hsound
  case accesses =>
    intro a ha
    rcases List.mem_append.mp ha with ha | ha
    · obtain ⟨hsup, hreader, hwriter⟩ := h.accesses a ha
      refine ⟨fun src hsrc => ?_, hreader, ?_⟩
      · exact (hsup src hsrc).mono hvalid.ge hxfer.ge
      · rw [hvalid, hxfer]
        exact hwriter
    · rw [List.mem_singleton.mp ha]
      exact hpc
  case threads =>
    intro d src hd
    have hnone : (s.thread d).selected = some src := by simpa [State.startAccess] using hd
    rw [ThreadPc.selected_of_writesBack (hthreads d)] at hnone
    cases hnone

/-- The acquisition of a write access makes the version that its replica holds. -/
theorem Current.markWrite {s : State n} (hb : Inv s) (h : Current s) {i : Nat} {l : Lid n}
    {mode : AccessMode} {waiting : Bool} (hi : s.accesses[i]? = some ⟨l, mode, .marking, waiting⟩)
    (hwrite : mode.isWrite = true) (hhost : host ∉ s.xfer) :
    Current (((s.setAllDirtyExcept l).cacheTouch l mode).setAccess i
      ⟨l, mode, .acquired, waiting⟩) := by
  have hmem := List.mem_of_getElem? hi
  have hxfer := xfer_subset_of_write hb hhost hmem hwrite
  have honly : ∀ a ∈ s.accesses.set i ⟨l, mode, .acquired, waiting⟩,
      a = ⟨l, mode, .acquired, waiting⟩ := by
    intro a ha
    obtain ⟨hlt, _⟩ := List.getElem?_eq_some_iff.mp hi
    refine eq_of_mem_of_length_le_one ?_ ha (List.mem_set hlt _)
    rw [List.length_set]
    exact hb.exclusive _ hmem hwrite
  constructor
  case coherent =>
    refine ⟨⟨l, Finset.mem_singleton_self l⟩, fun d hd => ?_⟩
    rw [Finset.mem_singleton.mp hd]
    exact Function.update_self _ _ _
  case transfers =>
    intro t ht
    -- the only transfer left is the one that this access waits for
    obtain ⟨hdest, hwait⟩ := hxfer t.dest
      ((hb.transfers.mem_xfer _).mpr (List.mem_map_of_mem ht))
    obtain ⟨hlt, _⟩ := List.getElem?_eq_some_iff.mp hi
    exact .inl ⟨_, List.mem_set hlt _, hdest.symm, hwrite, rfl, hwait⟩
  case accesses =>
    intro a ha
    rw [honly a ha]
    exact ⟨fun src hsrc => (by cases hsrc), fun hpc => (by cases hpc),
      fun _ _ => ⟨Finset.mem_singleton_self l, hhost⟩⟩
  case threads =>
    intro d src hd
    have hnil := (h.threads d src hd).1
    rw [hnil] at hmem
    cases hmem

/-- The pointer of a valid replica is read by its copies, so a sound copy reads the last
version. -/
theorem Current.copy {s : State n} (h : Current s) {k : Nat} {t : Transfer n}
    (hk : s.transfers[k]? = some t) (hpc : t.pc = .submitted) :
    Current (s.setTransfer k { t with pc := .received (s.readSource t) }) := by
  refine ⟨h.coherent, ?_, fun a ha => ?_, h.threads⟩
  · refine forall_mem_set h.transfers ?_
    refine (h.transfers t (List.mem_of_getElem? hk)).imp_right fun hsound => ?_
    unfold Sound at hsound
    rw [hpc] at hsound
    show s.readSource t = some s.version
    unfold State.readSource
    rw [if_pos hsound.2]
    exact h.coherent.2 _ hsound.1
  · obtain ⟨hsup, hreader, hwriter⟩ := h.accesses a ha
    exact ⟨hsup, hreader, hwriter⟩

/-- A writer of a replica has made it valid. -/
theorem Current.valid_of_hasWriter {s : State n} (h : Current s) {l : Lid n}
    (hwriter : s.HasWriter l) : l ∈ s.valid := by
  obtain ⟨a, ha, rfl, hwrite, hacq⟩ := hwriter
  have hsound := h.accesses a ha
  cases hpc : a.pc with
  | acquired => exact (hsound.writer hwrite hpc).1
  | fetching | posting | marking =>
      rw [hpc] at hacq
      cases hacq
  | prefetching | postingHost =>
      rw [hsound.reader (by rw [hpc]; rfl)] at hwrite
      cases hwrite

/-- The completion of a transfer makes valid a replica that holds the last version. -/
theorem Current.complete {s : State n} (hb : Inv s) (h : Current s) {k : Nat} {t : Transfer n}
    {payload : Option Nat} (hk : s.transfers[k]? = some t) (hpc : t.pc = .received payload) :
    Current (s.activateReplica t.dest payload (s.transfers.eraseIdx k)) := by
  have hother : ∀ u ∈ s.transfers.eraseIdx k, u.dest ≠ t.dest := by
    intro u hu
    have hk' : (s.transfers.map Transfer.dest)[k]? = some t.dest := by
      rw [List.getElem?_map, hk]
      rfl
    have hmem := List.mem_map_of_mem (f := Transfer.dest) hu
    rw [← List.eraseIdx_map] at hmem
    exact ((mem_eraseIdx_of_nodup hb.transfers.nodup hk').mp hmem).1
  constructor
  case coherent =>
    refine ⟨Finset.insert_nonempty _ _, fun l hl => ?_⟩
    show (if s.HasWriter t.dest then s.holds else Function.update s.holds t.dest payload) l = _
    split
    case isTrue hwriter =>
      refine h.coherent.2 l ?_
      rcases Finset.mem_insert.mp hl with rfl | hl
      · exact h.valid_of_hasWriter hwriter
      · exact hl
    case isFalse hwriter =>
      by_cases hdest : l = t.dest
      · rw [hdest, Function.update_self]
        rcases h.transfers t (List.mem_of_getElem? hk) with ⟨a, ha, hlid, hwrite, hacq, _⟩ | hsound
        · exact absurd ⟨a, ha, hlid, hwrite, by rw [hacq]; rfl⟩ hwriter
        · unfold Sound at hsound
          rw [hpc] at hsound
          exact hsound
      · rw [Function.update_of_ne hdest]
        exact h.coherent.2 l (Finset.mem_of_mem_insert_of_ne hl hdest)
  case transfers =>
    intro v hv
    obtain ⟨u, hu, rfl⟩ := List.mem_map.mp hv
    by_cases hforward : u.src = t.dest ∧ u.pc = .onReceive
    · refine .inr ?_
      unfold State.resend
      rw [if_pos hforward]
      exact ⟨Finset.mem_insert_self _ _, rfl⟩
    · have hsame : s.resend t.dest u = u := if_neg hforward
      rw [hsame]
      refine (h.transfers u (List.mem_of_mem_eraseIdx hu)).imp ?_ ?_
      · rintro ⟨a, ha, hlid, hrest⟩
        refine ⟨a, List.mem_map.mpr ⟨a, ha, if_neg ?_⟩, hlid, hrest⟩
        rw [hlid]
        exact hother u hu
      · unfold Sound
        intro hsound
        cases hupc : u.pc with
        | onReceive =>
            rw [hupc] at hsound
            exact Finset.mem_erase.mpr ⟨fun hsrc => hforward ⟨hsrc, hupc⟩, hsound⟩
        | unposted =>
            rw [hupc] at hsound
            exact Finset.mem_insert_of_mem hsound
        | submitted =>
            rw [hupc] at hsound
            exact ⟨Finset.mem_insert_of_mem hsound.1, hsound.2⟩
        | received p =>
            rw [hupc] at hsound
            exact hsound
  case accesses =>
    intro a ha
    obtain ⟨b, hbmem, rfl⟩ := List.mem_map.mp ha
    obtain ⟨hsup, hreader, hwriter⟩ := h.accesses b hbmem
    have hpcEq : (if b.lid = t.dest then { b with waiting := false } else b).pc = b.pc ∧
        (if b.lid = t.dest then { b with waiting := false } else b).mode = b.mode ∧
        (if b.lid = t.dest then { b with waiting := false } else b).lid = b.lid := by
      split <;> exact ⟨rfl, rfl, rfl⟩
    constructor
    · rw [hpcEq.1]
      exact fun src hsrc => (hsup src hsrc).complete t.dest payload _
    · rw [hpcEq.1, hpcEq.2.1]
      exact hreader
    · rw [hpcEq.1, hpcEq.2.1, hpcEq.2.2]
      intro hwrite hacq
      obtain ⟨hvalid, hhost⟩ := hwriter hwrite hacq
      exact ⟨Finset.mem_insert_of_mem hvalid, fun hx => hhost (Finset.mem_of_mem_erase hx)⟩
  case threads =>
    intro l src hsel
    obtain ⟨hnil, hsrc⟩ := h.threads l src hsel
    refine ⟨?_, hsrc.complete t.dest payload _⟩
    show s.accesses.map _ = []
    rw [hnil]
    rfl

/-- The replacement of an access by one that is sound and as pending as it was. -/
theorem Current.setAccess {s t : State n} (h : Current s) {i : Nat} {a b : Access n}
    (hi : s.accesses[i]? = some a) (ht : t = s.setAccess i b)
    (hpending : ∀ l, PendingWrite l a → PendingWrite l b) (hb : SoundAccess s b) : Current t := by
  subst ht
  refine ⟨h.coherent, fun u hu => ?_, fun c hc => ?_, fun l src hsel => ?_⟩
  · exact (h.transfers u hu).imp_left fun hsup => exists_mem_set hi hsup (hpending u.dest)
  · obtain ⟨hsup, hreader, hwriter⟩ := forall_mem_set h.accesses hb c hc
    exact ⟨hsup, hreader, hwriter⟩
  · obtain ⟨hnil, _⟩ := h.threads l src hsel
    rw [hnil] at hi
    cases hi

/-- A change of a device thread that chooses no source. -/
theorem Current.setThread {s : State n} (h : Current s) {l : Lid n} {pc : ThreadPc n}
    (hpc : ∀ src, pc.selected = some src → s.accesses = [] ∧ Supplied s src) :
    Current (s.setThread l pc) := by
  refine ⟨h.coherent, h.transfers, fun a ha => ?_, fun d src hsel => ?_⟩
  · obtain ⟨hsup, hreader, hwriter⟩ := h.accesses a ha
    exact ⟨hsup, hreader, hwriter⟩
  · by_cases hd : d = l
    · refine hpc src ?_
      rw [← hsel, hd]
      simp [State.setThread]
    · refine h.threads d src ?_
      rw [← hsel]
      simp [State.setThread, hd]

theorem Current.addSynced {s : State n} (h : Current s) (l : Lid n) : Current (s.addSynced l) := by
  refine ⟨h.coherent, h.transfers, fun a ha => ?_, h.threads⟩
  obtain ⟨hsup, hreader, hwriter⟩ := h.accesses a ha
  exact ⟨hsup, hreader, hwriter⟩

/-- The end of an access that does not wait. -/
theorem Current.endAccess {s : State n} (h : Current s) {i : Nat} {a : Access n}
    (hi : s.accesses[i]? = some a) (hwaiting : a.waiting = false) :
    Current (s.endAccess i a.lid) := by
  refine ⟨h.coherent, fun u hu => ?_, fun c hc => ?_, fun l src hsel => ?_⟩
  · refine (h.transfers u hu).imp_left fun hsup => exists_mem_eraseIdx hi hsup ?_
    rintro ⟨_, _, _, hwait⟩
    rw [hwaiting] at hwait
    cases hwait
  · obtain ⟨hsup, hreader, hwriter⟩ := h.accesses c (List.mem_of_mem_eraseIdx hc)
    exact ⟨hsup, hreader, hwriter⟩
  · obtain ⟨hnil, _⟩ := h.threads l src hsel
    rw [hnil] at hi
    cases hi

/-- The touch of the cache changes the cache list only. -/
theorem Current.cacheTouch {s : State n} (h : Current s) (l : Lid n) (mode : AccessMode) :
    Current (s.cacheTouch l mode) := by
  refine ⟨h.coherent, h.transfers, fun a ha => ?_, h.threads⟩
  obtain ⟨hsup, hreader, hwriter⟩ := h.accesses a ha
  exact ⟨hsup, hreader, hwriter⟩

theorem Current.step {s t : State n} {a : Action n} (hb : Inv s) (h : Current s)
    (hok : QuietWrites s a) (he : Effect s a t) : Current t := by
  cases he with
  | @acquireFetch l mode src hlid hidle hordered hthreads hvalid hsrc =>
      refine h.startAccess hb hthreads ⟨fun d hd => ?_, fun hd => (by cases hd),
        fun _ hacq => (by cases hacq)⟩
      obtain rfl : src = d := Option.some.inj hd
      exact (hsrc.supplied h.coherent.1).mono (s.allocate_valid l).ge (s.allocate_xfer l).ge
  | acquireMark hlid hidle hordered hthreads hvalid =>
      exact h.startAccess hb hthreads ⟨fun d hd => (by cases hd), fun hd => (by cases hd),
        fun _ hacq => (by cases hacq)⟩
  | @fetch i l src mode waiting hi hlock hlockSrc =>
      have hmem := List.mem_of_getElem? hi
      have hfetch : Current (s.fetchOn l src) :=
        h.fetchOn ((h.accesses _ hmem).supplied src rfl) fun _ _ _ _ => hb.allocated.device _ hmem
      rw [← s.fetchOn_accesses l src] at hi
      refine hfetch.setAccess hi rfl (fun d hd => by cases hd.2.2.1) ?_
      refine State.afterFetch_ind
        (p := fun pc => SoundAccess (s.fetchOn l src) ⟨l, mode, pc, decide (l ∉ s.valid)⟩) ?_ ?_
      all_goals
        exact ⟨fun d hd => (by cases hd), fun hd => (by cases hd), fun _ hacq => (by cases hacq)⟩
  | @post i l mode waiting hi =>
      exact (h.postCopy l).setAccess hi rfl (fun d hd => by cases hd.2.2.1)
        ⟨fun d hd => (by cases hd), fun hd => (by cases hd), fun _ hacq => (by cases hacq)⟩
  | @postHost i l mode waiting hi =>
      have hread := (h.accesses _ (List.mem_of_getElem? hi)).reader rfl
      refine (h.postCopy host).setAccess hi rfl (fun d hd => by cases hd.2.2.1)
        ⟨fun d hd => (by cases hd), fun _ => hread, fun hwrite _ => ?_⟩
      rw [hread] at hwrite
      cases hwrite
  | markWrite hi hwrite =>
      refine h.markWrite hb hi hwrite (hok.2 ?_)
      exact ⟨_, hi, hwrite⟩
  | @markRead i l mode waiting hi hread =>
      refine (h.cacheTouch l mode).setAccess hi rfl (fun d hd => by cases hd.2.2.1)
        ⟨fun d hd => (by cases hd), fun hd => (by cases hd), fun hwrite _ => ?_⟩
      rw [hread] at hwrite
      cases hwrite
  | release hi => exact h.endAccess hi rfl
  | @prefetch i l src hi hhost hsrc =>
      refine h.setAccess hi rfl (fun d hd => by cases hd.2.1)
        ⟨fun d hd => ?_, fun _ => rfl, fun hwrite => by cases hwrite⟩
      obtain rfl : src = d := Option.some.inj hd
      exact hsrc.supplied h.coherent.1
  | @fetchHost i l src mode waiting hi hlock =>
      have hmem := List.mem_of_getElem? hi
      have hsound := h.accesses _ hmem
      have hfetch : Current (s.fetchOn host src) := by
        refine h.fetchOn (hsound.supplied src rfl) fun b hbmem hwrite hacq => ?_
        -- a writer would be the only access, and this one is not
        have hab := eq_of_mem_of_length_le_one (hb.exclusive b hbmem hwrite) hbmem hmem
        rw [hab] at hacq
        cases hacq
      rw [← s.fetchOn_accesses host src] at hi
      have hread : mode.isWrite = false := hsound.reader rfl
      refine hfetch.setAccess hi rfl (fun d hd => by cases hd.2.2.1) ?_
      refine State.afterFetch_ind
        (p := fun pc => SoundAccess (s.fetchOn host src) ⟨l, mode, pc, waiting⟩) ?_ ?_
      all_goals
        refine ⟨fun d hd => (by cases hd), fun _ => hread, fun hwrite _ => ?_⟩
        rw [hread] at hwrite
        cases hwrite
  | copy hk hpc => exact h.copy hk hpc
  | complete hk hpc hlock hresend => exact h.complete hb hk hpc
  | evictTest | evictLock | evictSkip | evictDrop => exact absurd hok.1 (by simp [Action.evicts])
  | writebackSelect hlid hidle hdone hlist hhost hvalid hsrc =>
      refine h.setThread fun d hd => ⟨hdone, ?_⟩
      rw [← Option.some.inj hd]
      exact hsrc.supplied h.coherent.1
  | @writebackSkip l => exact h.addSynced l
  | @writebackFetch l src hthread hlock =>
      obtain ⟨hnil, hsup⟩ := h.threads l src (by rw [hthread]; rfl)
      have hfetch : Current (s.fetchOn host src) :=
        h.fetchOn hsup fun a ha => by rw [hnil] at ha; cases ha
      refine (hfetch.setThread fun d hd => ?_).addSynced l
      rw [State.afterFetch_ind (p := fun pc : ThreadPc n => pc.selected = none) rfl rfl] at hd
      cases hd
  | writebackPost => exact (h.postCopy host).setThread fun d hd => by cases hd

/-! ## Coherence -/

/-- In every run without evictions in which a write access is acquired only when no copy is on
its way to the host, some replica is valid and the valid replicas hold the last version. -/
theorem coherent_of_quietWrites {s : State n}
    (hs : (system n).ReachableWhen QuietWrites s) : Coherent s := by
  have hcurrent : Current s := by
    refine hs.invariant_of_reachable (fun t ht => ?_) fun t a u ht h hok hstep => ?_
    · cases ht
      exact current_initial
    · exact h.step (inv_of_reachableWhen ht) hok (step_effect hstep)
  exact hcurrent.coherent

/-- A task on the first device writes the data, a write-back task reads the data there and
fetches it on the host, and a second task reads it on the other device. -/
def quietRun : List (Action 2) :=
  [.acquire 1 .rw 0, .fetch 0, .post 0, .mark 0, .copy 0, .complete 0, .release 0,
   .acquire 1 .r 0, .mark 0, .prefetch 0 1, .fetchHost 0, .post 0, .release 0,
   .acquire 2 .r 1, .fetch 0, .post 0, .mark 0, .copy 0, .complete 0, .copy 0, .complete 0,
   .release 0,
   .acquire 2 .w 0, .mark 0]

theorem coherent_quietRun :
    ∃ s, (system 2).replay QuietWrites initial quietRun = some s ∧ s.version = 2 ∧ Coherent s :=
  ⟨((system 2).replay QuietWrites initial quietRun).get (by decide), by simp, by decide,
    coherent_of_quietWrites (.replay (.start rfl) (Option.some_get _).symm)⟩

/-- The second write is acquired while the write-back of the first version is on its way: its
device has read the first version, and the host is not yet valid. -/
def staleRun : List (Action 1) :=
  [.acquire 1 .w 0, .mark 0, .release 0,
   .acquire 1 .r 0, .mark 0, .prefetch 0 1, .fetchHost 0, .post 0, .release 0, .copy 0,
   .acquire 1 .rw 0, .mark 0, .complete 0]

/-- Without a condition on the writes the host is made valid with an old version. -/
theorem stale_host_reachable :
    ¬ ∀ (n : Nat) (s : State n),
      (system n).ReachableWhen (fun _ a => a.evicts = false) s → Coherent s := by
  intro hall
  refine absurd (hall 1 (((system 1).replay (fun _ a => a.evicts = false) initial
    staleRun).get (by decide)) ?_) (by decide)
  exact .replay (.start rfl) (Option.some_get _).symm

end Xkblas.Memory.Dsm
