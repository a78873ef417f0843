import Mathlib.Algebra.BigOperators.Fin
import Mathlib.Algebra.Order.BigOperators.Group.Finset
import Xkblas.Offload.PinQueue

/-!
# Safety of the queue of the pin and unpin requests

The daemon has executed the requests before `posr`, and perhaps the one at `posr`. A thread that
waits for an index has the only wait for it, and either holds the lock of the request, so that the
daemon cannot mark it, or sleeps with the state `REQUEST_WAIT`. The proofs rely on three conditions:
a test does not look at the request that is being executed, two threads do not wait for one request,
and a wait does not wake up without the signal.
-/

namespace Xkblas.Offload.PinQueue

open Library

variable {κ ρ : Type} [DecidableEq κ] {s t : State κ ρ} {c c' : κ} {index : ℕ} {pc : Pc ρ}

/-! ## The invariant -/

/-- The index of the request that a thread waits for while the daemon cannot mark it, or sleeps. -/
def Pc.waiter : Pc ρ → Option ℕ
  | .waitReq index | .waitState index | .waitSleep index => some index
  | _ => none

/-- The request at `posr` has been executed. -/
def Daemon.executed : Daemon ρ → Bool
  | .relock | .finish => true
  | _ => false

/-- The daemon works on the request at `posr`. -/
def Daemon.busy : Daemon ρ → Bool
  | .execute _ | .relock | .finish => true
  | _ => false

/-- The daemon has the lock of the queue. -/
def Daemon.locks : Daemon ρ → Bool
  | .check | .finish => true
  | _ => false

/-- What a thread knows where it is. -/
def State.Knows (s : State κ ρ) : Pc ρ → Prop
  | .testRead index | .waitLock index => index < s.posw
  | .waitReq index => s.posr ≤ index ∧ index < s.posw
  | .waitState index => s.posr ≤ index ∧ index < s.posw ∧ s.state (slot index) = .post
  | .waitSleep index => s.posr ≤ index ∧ index < s.posw ∧ s.state (slot index) = .wait
  | .waitWake index => index < s.posr
  | .postSleep _ => s.posr + maxReglist ≤ s.posw
  | .waitall earlier => earlier ≤ s.posw
  | .waitallSleep pos earlier => s.posr < pos ∧ pos ≤ s.posw ∧ earlier ≤ pos
  | .waitallWake pos earlier => pos ≤ s.posw ∧ earlier ≤ pos
  | .tested index err executed =>
      (err = .ok ↔ executed = true) ∧ (executed = true → index < s.executed.length)
  | .waited index err => err = .ok → index < s.posr
  | .waitedAll earlier => earlier ≤ s.posr
  | _ => True

/-- The invariant of the runs. -/
structure Inv (s : State κ ρ) : Prop where
  inOrder : s.executed <+: s.posted
  length : s.posted.length = s.posw
  count : s.executed.length = s.posr + if s.daemon.executed then 1 else 0
  busy : s.daemon.busy = true → s.posr < s.posw
  le : s.posr ≤ s.posw
  fits : s.posw ≤ s.posr + maxReglist
  copied : ∀ req, s.daemon = .execute req → s.posted[s.posr]? = some req
  slots : ∀ i, s.posr ≤ i → i < s.posw → s.posted[i]? = some (s.req (slot i))
  states : ∀ i, s.posr ≤ i → i < s.posw → s.state (slot i) = .post ∨
    s.state (slot i) = .wait ∧ ∃ c, s.pc c = .waitSleep i
  asleep : s.daemon = .asleep → s.posw = s.posr
  lockDaemon : s.lock = some .daemon ↔ s.daemon.locks = true
  lockClient : ∀ c, s.lock = some (.client c) ↔ ∃ index, s.pc c = .waitReq index
  reqLock : ∀ j c, s.reqLock j = some c ↔ ∃ index, s.pc c = .waitState index ∧ slot index = j
  knows : ∀ c, s.Knows (s.pc c)
  unique : ∀ c c' index, (s.pc c).waiter = some index → (s.pc c').waiter = some index → c = c'

omit [DecidableEq κ] in
/-- What a thread knows stays true while the daemon does not mark a request. -/
theorem State.Knows.mono (h : s.Knows pc) (hposr : t.posr = s.posr) (hposw : s.posw ≤ t.posw)
    (hexecuted : s.executed.length ≤ t.executed.length)
    (hstate : ∀ i, pc.waiter = some i → s.posr ≤ i → i < s.posw →
      t.state (slot i) = s.state (slot i)) : t.Knows pc := by
  cases pc with
  | testRead index => exact lt_of_lt_of_le h hposw
  | waitLock index => exact lt_of_lt_of_le h hposw
  | waitReq index =>
      obtain ⟨hle, hlt⟩ : s.posr ≤ index ∧ index < s.posw := h
      exact ⟨hposr.trans_le hle, hlt.trans_le hposw⟩
  | waitState index =>
      obtain ⟨hle, hlt, heq⟩ : s.posr ≤ index ∧ index < s.posw ∧ s.state (slot index) = .post := h
      exact ⟨hposr.trans_le hle, hlt.trans_le hposw, (hstate index rfl hle hlt).trans heq⟩
  | waitSleep index =>
      obtain ⟨hle, hlt, heq⟩ : s.posr ≤ index ∧ index < s.posw ∧ s.state (slot index) = .wait := h
      exact ⟨hposr.trans_le hle, hlt.trans_le hposw, (hstate index rfl hle hlt).trans heq⟩
  | waitWake index =>
      have hlt : index < s.posr := h
      exact hlt.trans_eq hposr.symm
  | postSleep req =>
      have hfull : s.posr + maxReglist ≤ s.posw := h
      show t.posr + maxReglist ≤ t.posw
      omega
  | waitall earlier => exact le_trans h hposw
  | waitallSleep pos earlier =>
      obtain ⟨hlt, hle, hearlier⟩ : s.posr < pos ∧ pos ≤ s.posw ∧ earlier ≤ pos := h
      exact ⟨hposr.trans_lt hlt, hle.trans hposw, hearlier⟩
  | waitallWake pos earlier =>
      obtain ⟨hle, hearlier⟩ : pos ≤ s.posw ∧ earlier ≤ pos := h
      exact ⟨hle.trans hposw, hearlier⟩
  | tested index err executed =>
      obtain ⟨hiff, hlt⟩ : (err = .ok ↔ executed = true) ∧
        (executed = true → index < s.executed.length) := h
      exact ⟨hiff, fun hexec => (hlt hexec).trans_le hexecuted⟩
  | waited index err => exact fun herr => lt_of_lt_of_eq (h herr) hposr.symm
  | waitedAll earlier => exact le_of_le_of_eq h hposr.symm
  | _ => trivial

/-- The indices of the requests that are not marked have different slots. -/
theorem slot_ne {i j : ℕ} (hlt : i < j) (hfit : j < i + maxReglist) : slot i ≠ slot j :=
  mod_ne_of_window hlt hfit

omit [DecidableEq κ] in
theorem Inv.eq_of_slot (h : Inv s) {i j : ℕ} (hi : s.posr ≤ i) (hi' : i < s.posw)
    (hj : s.posr ≤ j) (hj' : j < s.posw) (hslot : slot i = slot j) : i = j := by
  have hfits := h.fits
  rcases Nat.lt_trichotomy i j with hlt | heq | hlt
  · exact absurd hslot (slot_ne hlt (by omega))
  · exact heq
  · exact absurd hslot.symm (slot_ne hlt (by omega))

/-! ## The steps of the threads -/

theorem setPc_pc_self (s : State κ ρ) (c : κ) (pc : Pc ρ) : (s.setPc c pc).pc c = pc :=
  Function.update_self _ _ _

theorem setPc_pc_of_ne (s : State κ ρ) (pc : Pc ρ) (hc : c' ≠ c) :
    (s.setPc c pc).pc c' = s.pc c' :=
  Function.update_of_ne hc _ _

/-- A thread goes on without a lock, and does not wait for a request before or after the step. -/
theorem Inv.plain (h : Inv s) (hold : (s.pc c).waiter = none) (hnew : pc.waiter = none)
    (hknows : s.Knows pc) : Inv (s.setPc c pc) := by
  have hself := setPc_pc_self s c pc
  have hother : ∀ c', c' ≠ c → (s.setPc c pc).pc c' = s.pc c' := fun c' hc' =>
    setPc_pc_of_ne s pc hc'
  -- the points at which a thread waits for a request are as before
  have hsame : ∀ c' (p : Pc ρ), p.waiter ≠ none →
      ((s.setPc c pc).pc c' = p ↔ s.pc c' = p) := by
    intro c' p hp
    by_cases hc' : c' = c
    · rw [hc', hself]
      constructor
      · rintro rfl
        exact absurd hnew hp
      · rintro rfl
        exact absurd hold hp
    · rw [hother c' hc']
  refine ⟨h.inOrder, h.length, h.count, h.busy, h.le, h.fits, h.copied, h.slots,
    fun i hle hlt => ?_, h.asleep, h.lockDaemon, fun c' => ?_, fun j c' => ?_, fun c' => ?_,
    fun c₁ c₂ i h₁ h₂ => ?_⟩
  · rcases h.states i hle hlt with hpost | ⟨hwait, c', hc'⟩
    · exact .inl hpost
    · exact .inr ⟨hwait, c', (hsame c' (.waitSleep i) nofun).mpr hc'⟩
  · refine (h.lockClient c').trans (exists_congr fun i => ?_)
    exact (hsame c' (.waitReq i) nofun).symm
  · refine (h.reqLock j c').trans (exists_congr fun i => and_congr_left fun _ => ?_)
    exact (hsame c' (.waitState i) nofun).symm
  · by_cases hc' : c' = c
    · rw [hc', hself]
      exact hknows
    · rw [hother c' hc']
      exact h.knows c'
  · have hwaiter : ∀ c', ((s.setPc c pc).pc c').waiter = some i → (s.pc c').waiter = some i := by
      intro c' hc'
      by_cases hcc : c' = c
      · rw [hcc, hself, hnew] at hc'
        cases hc'
      · rwa [hother c' hcc] at hc'
    exact h.unique c₁ c₂ i (hwaiter c₁ h₁) (hwaiter c₂ h₂)

/-- A request is posted. -/
theorem Inv.posted {req : ρ} (h : Inv s) (hpc : s.pc c = .post req)
    (hroom : s.posw < s.posr + maxReglist) :
    Inv { s.setPc c (.posted s.posw) with
      posw := s.posw + 1
      req := Function.update s.req (slot s.posw) req
      state := Function.update s.state (slot s.posw) .post
      daemon := s.daemon.signal
      posted := s.posted ++ [req] } := by
  have hplain : Inv (s.setPc c (.posted s.posw)) := h.plain (by rw [hpc]; rfl) rfl trivial
  have hle := h.le
  have hslot : ∀ i, s.posr ≤ i → i < s.posw → slot i ≠ slot s.posw := fun i hi hlt =>
    slot_ne hlt (by omega)
  have hdaemon : ∀ d : Daemon ρ, d ≠ .lock →
      (s.daemon.signal = d ↔ s.daemon = d ∧ d ≠ .asleep) := by
    intro d hd
    cases s.daemon with
    | asleep =>
        show Daemon.lock = d ↔ Daemon.asleep = d ∧ _
        constructor
        · exact fun heq => absurd heq.symm hd
        · rintro ⟨rfl, hne⟩
          exact absurd rfl hne
    | lock => exact ⟨fun heq => absurd heq.symm hd, fun heq => absurd heq.1.symm hd⟩
    | check => exact ⟨fun heq => ⟨heq, heq ▸ nofun⟩, And.left⟩
    | execute r => exact ⟨fun heq => ⟨heq, heq ▸ nofun⟩, And.left⟩
    | relock => exact ⟨fun heq => ⟨heq, heq ▸ nofun⟩, And.left⟩
    | finish => exact ⟨fun heq => ⟨heq, heq ▸ nofun⟩, And.left⟩
  have hflags : s.daemon.signal.executed = s.daemon.executed ∧
      s.daemon.signal.busy = s.daemon.busy ∧ s.daemon.signal.locks = s.daemon.locks := by
    cases s.daemon <;> exact ⟨rfl, rfl, rfl⟩
  obtain ⟨hexecuted, hbusy, hlocks⟩ := hflags
  refine ⟨h.inOrder.trans (List.prefix_append _ _), ?_, ?_, fun hb => ?_, ?_, ?_, fun r hr => ?_,
    fun i hi hlt => ?_, fun i hi hlt => ?_, fun hasleep => ?_, ?_, hplain.lockClient,
    hplain.reqLock, fun c' => ?_, hplain.unique⟩
  · show (s.posted ++ [req]).length = s.posw + 1
    rw [List.length_append, h.length]
    rfl
  · show s.executed.length = s.posr + if s.daemon.signal.executed then 1 else 0
    rw [hexecuted]
    exact h.count
  · exact Nat.lt_succ_of_lt (h.busy (hbusy.symm.trans hb))
  · exact Nat.le_succ_of_le hle
  · exact hroom
  · obtain ⟨hold, _⟩ := (hdaemon (.execute r) nofun).mp hr
    have hlt : s.posr < s.posted.length := h.length ▸ h.busy (by rw [hold]; rfl)
    exact (List.getElem?_append_left hlt).trans (h.copied r hold)
  · show (s.posted ++ [req])[i]? = some (Function.update s.req (slot s.posw) req (slot i))
    by_cases hnew : i = s.posw
    · rw [hnew, Function.update_self, ← h.length]
      exact List.getElem?_concat_length
    · have hlt' : i < s.posw := lt_of_le_of_ne (Nat.le_of_lt_succ hlt) hnew
      rw [Function.update_of_ne (hslot i hi hlt'), List.getElem?_append_left (h.length ▸ hlt')]
      exact h.slots i hi hlt'
  · show Function.update s.state (slot s.posw) .post (slot i) = .post ∨
      Function.update s.state (slot s.posw) .post (slot i) = .wait ∧ _
    by_cases hnew : i = s.posw
    · exact .inl (by rw [hnew, Function.update_self])
    · have hlt' : i < s.posw := lt_of_le_of_ne (Nat.le_of_lt_succ hlt) hnew
      rw [Function.update_of_ne (hslot i hi hlt')]
      exact hplain.states i hi hlt'
  · exact absurd rfl ((hdaemon .asleep nofun).mp hasleep).2
  · show s.lock = some .daemon ↔ s.daemon.signal.locks = true
    rw [hlocks]
    exact h.lockDaemon
  · refine (hplain.knows c').mono rfl (Nat.le_succ _) le_rfl fun i _ hi hlt => ?_
    exact Function.update_of_ne (hslot i hi hlt) _ _

/-- `post_request` with the lock of the queue. -/
theorem Inv.post {req : ρ} (h : Inv s) (hpc : s.pc c = .post req) : Inv (s.post c req) := by
  unfold State.post
  have hle := h.le
  split
  case isTrue hfull =>
    refine h.plain (by rw [hpc]; rfl) rfl ?_
    show s.posr + maxReglist ≤ s.posw
    omega
  case isFalse hroom => exact h.posted hpc (by omega)

/-- A test reads `posr`. -/
theorem Inv.testRead (h : Inv s) (hpc : s.pc c = .testRead index)
    (hok : index = s.posr → index < s.executed.length) : Inv (s.testRead c index) := by
  have hcount := h.count
  refine h.plain (by rw [hpc]; rfl) rfl ⟨?_, of_decide_eq_true⟩
  rw [decide_eq_true_eq]
  by_cases hle : index ≤ s.posr
  · rw [if_pos hle]
    refine iff_of_true rfl ?_
    rcases hle.lt_or_eq with hlt | heq
    · omega
    · exact hok heq
  · rw [if_neg hle]
    refine iff_of_false nofun ?_
    split at hcount <;> omega

/-- A wait takes the lock of the queue. -/
theorem Inv.waitLock (h : Inv s) (hpc : s.pc c = .waitLock index) (hfree : s.lock = none)
    (hok : s.posr ≤ index → ∀ c, (s.pc c).waitsFor index = false) : Inv (s.waitLock c index) := by
  have hlt : index < s.posw := by
    have hknows := h.knows c
    rw [hpc] at hknows
    exact hknows
  have hold : (s.pc c).waiter = none := by
    rw [hpc]
    rfl
  unfold State.waitLock
  split
  case isFalse hdone => exact h.plain hold rfl fun _ => Nat.lt_of_not_le hdone
  case isTrue hle =>
  have hself := setPc_pc_self s c (.waitReq index)
  have hother : ∀ c', c' ≠ c → (s.setPc c (.waitReq index)).pc c' = s.pc c' := fun c' hc' =>
    setPc_pc_of_ne s _ hc'
  have hnobody : ∀ c' i, s.pc c' ≠ .waitReq i := by
    intro c' i hc'
    have hlock := (h.lockClient c').mpr ⟨i, hc'⟩
    rw [hfree] at hlock
    cases hlock
  have hsame : ∀ c' (p : Pc ρ), p ≠ .waitReq index → p.waiter ≠ none →
      ((s.setPc c (.waitReq index)).pc c' = p ↔ s.pc c' = p) := by
    intro c' p hp hwaiter
    by_cases hc' : c' = c
    · rw [hc', hself, hpc]
      exact iff_of_false hp.symm fun heq => hwaiter (by rw [← heq]; rfl)
    · rw [hother c' hc']
  refine ⟨h.inOrder, h.length, h.count, h.busy, h.le, h.fits, h.copied, h.slots,
    fun i hi hlt' => ?_, h.asleep, ?_, fun c' => ?_, fun j c' => ?_, fun c' => ?_,
    fun c₁ c₂ i h₁ h₂ => ?_⟩
  · rcases h.states i hi hlt' with hpost | ⟨hwait, c', hc'⟩
    · exact .inl hpost
    · exact .inr ⟨hwait, c', (hsame c' (.waitSleep i) nofun nofun).mpr hc'⟩
  · show some (Party.client c) = some .daemon ↔ _
    refine iff_of_false nofun fun hlocks => ?_
    rw [h.lockDaemon.mpr hlocks] at hfree
    cases hfree
  · show some (Party.client c) = some (.client c') ↔ _
    rw [Option.some.injEq, Party.client.injEq]
    constructor
    · rintro rfl
      exact ⟨index, hself⟩
    · rintro ⟨i, hi⟩
      by_contra hne
      exact hnobody c' i ((hother c' (Ne.symm hne)).symm.trans hi)
  · refine (h.reqLock j c').trans (exists_congr fun i => and_congr_left fun _ => ?_)
    exact (hsame c' (.waitState i) nofun nofun).symm
  · by_cases hc' : c' = c
    · rw [hc', hself]
      exact ⟨hle, hlt⟩
    · rw [hother c' hc']
      exact h.knows c'
  · -- the other waits are for other requests
    have hfirst : ∀ c', c' ≠ c → ((s.setPc c (.waitReq index)).pc c').waiter = some i →
        (s.pc c').waiter = some i ∧ i ≠ index := by
      intro c' hc' hwaiter
      rw [hother c' hc'] at hwaiter
      refine ⟨hwaiter, ?_⟩
      rintro rfl
      have hno := hok hle c'
      cases hp : s.pc c' with
      | waitReq k => exact hnobody c' k hp
      | waitState k =>
          rw [hp] at hwaiter hno
          exact absurd (Option.some.inj hwaiter) (of_decide_eq_false hno)
      | waitSleep k =>
          rw [hp] at hwaiter hno
          exact absurd (Option.some.inj hwaiter) (of_decide_eq_false hno)
      | _ =>
          rw [hp] at hwaiter
          cases hwaiter
    have hmine : ((s.setPc c (.waitReq index)).pc c).waiter = some i → i = index := by
      rw [hself]
      exact fun heq => (Option.some.inj heq).symm
    by_cases hc₁ : c₁ = c <;> by_cases hc₂ : c₂ = c
    · exact hc₁.trans hc₂.symm
    · rw [hc₁] at h₁
      exact absurd (hmine h₁) (hfirst c₂ hc₂ h₂).2
    · rw [hc₂] at h₂
      exact absurd (hmine h₂) (hfirst c₁ hc₁ h₁).2
    · exact h.unique c₁ c₂ i (hfirst c₁ hc₁ h₁).1 (hfirst c₂ hc₂ h₂).1

/-- The requests that the threads wait for stay different when a thread goes on with its wait. -/
theorem Inv.unique_setPc (h : Inv s) (hpc : pc.waiter = (s.pc c).waiter) (c₁ c₂ : κ) (i : ℕ)
    (h₁ : ((s.setPc c pc).pc c₁).waiter = some i) (h₂ : ((s.setPc c pc).pc c₂).waiter = some i) :
    c₁ = c₂ := by
  have hwaiter : ∀ c', ((s.setPc c pc).pc c').waiter = (s.pc c').waiter := by
    intro c'
    by_cases hc' : c' = c
    · rw [hc', setPc_pc_self, hpc]
    · rw [setPc_pc_of_ne s pc hc']
  rw [hwaiter] at h₁ h₂
  exact h.unique c₁ c₂ i h₁ h₂

/-- A wait takes the lock of its request and releases the lock of the queue. -/
theorem Inv.waitReq (h : Inv s) (hpc : s.pc c = .waitReq index)
    (hfree : s.reqLock (slot index) = none) :
    Inv { s.setPc c (.waitState index) with
      reqLock := Function.update s.reqLock (slot index) (some c)
      lock := none } := by
  have hself := setPc_pc_self s c (.waitState index)
  have hother : ∀ c', c' ≠ c → (s.setPc c (.waitState index)).pc c' = s.pc c' := fun c' hc' =>
    setPc_pc_of_ne s _ hc'
  have hlock : s.lock = some (.client c) := (h.lockClient c).mpr ⟨index, hpc⟩
  obtain ⟨hle, hlt⟩ : s.posr ≤ index ∧ index < s.posw := by
    have hknows := h.knows c
    rw [hpc] at hknows
    exact hknows
  refine ⟨h.inOrder, h.length, h.count, h.busy, h.le, h.fits, h.copied, h.slots,
    fun i hi hlt' => ?_, h.asleep, ?_, fun c' => ?_, fun j c' => ?_, fun c' => ?_,
    h.unique_setPc (by rw [hpc]; rfl)⟩
  · rcases h.states i hi hlt' with hpost | ⟨hwait, c', hc'⟩
    · exact .inl hpost
    · refine .inr ⟨hwait, c', (hother c' ?_).trans hc'⟩
      rintro rfl
      rw [hpc] at hc'
      cases hc'
  · refine iff_of_false nofun fun hlocks => ?_
    have hdaemon := h.lockDaemon.mpr hlocks
    rw [hlock] at hdaemon
    cases hdaemon
  · refine iff_of_false nofun ?_
    rintro ⟨i, hi⟩
    by_cases hc' : c' = c
    · rw [hc'] at hi
      cases hself.symm.trans hi
    · have hlock' := (h.lockClient c').mpr ⟨i, (hother c' hc').symm.trans hi⟩
      rw [hlock] at hlock'
      cases hlock'
      exact hc' rfl
  · show Function.update s.reqLock (slot index) (some c) j = some c' ↔ _
    by_cases hj : j = slot index <;> by_cases hc' : c' = c
    · rw [hj, hc', Function.update_self]
      exact iff_of_true rfl ⟨index, hself, rfl⟩
    · rw [hj, Function.update_self]
      refine iff_of_false (fun heq => hc' (Option.some.inj heq).symm) ?_
      rintro ⟨i, hi, hslot⟩
      have hlocked := (h.reqLock (slot index) c').mpr ⟨i, (hother c' hc').symm.trans hi, hslot⟩
      rw [hfree] at hlocked
      cases hlocked
    · rw [Function.update_of_ne hj, hc']
      refine iff_of_false (fun hlocked => ?_) ?_
      · obtain ⟨i, hi, _⟩ := (h.reqLock j c).mp hlocked
        rw [hpc] at hi
        cases hi
      · rintro ⟨i, hi, hslot⟩
        cases hself.symm.trans hi
        exact hj hslot.symm
    · rw [Function.update_of_ne hj]
      refine (h.reqLock j c').trans (exists_congr fun i => and_congr_left fun _ => ?_)
      exact iff_of_eq (congrArg (· = Pc.waitState i) (hother c' hc').symm)
  · by_cases hc' : c' = c
    · rw [hc', hself]
      refine ⟨hle, hlt, ?_⟩
      -- another thread does not sleep on the condition of the request
      rcases h.states index hle hlt with hpost | ⟨_, c₂, hc₂⟩
      · exact hpost
      · obtain rfl : c₂ = c := h.unique c₂ c index (by rw [hc₂]; rfl) (by rw [hpc]; rfl)
        rw [hpc] at hc₂
        cases hc₂
    · rw [hother c' hc']
      exact h.knows c'

/-- A wait marks its request and sleeps. -/
theorem Inv.waitState (h : Inv s) (hpc : s.pc c = .waitState index) :
    Inv (s.waitState c index) := by
  obtain ⟨hle, hlt, hpost⟩ :
      s.posr ≤ index ∧ index < s.posw ∧ s.state (slot index) = .post := by
    have hknows := h.knows c
    rw [hpc] at hknows
    exact hknows
  have hlocked : s.reqLock (slot index) = some c := (h.reqLock _ c).mpr ⟨index, hpc, rfl⟩
  have hself := setPc_pc_self s c (.waitSleep index)
  have hother : ∀ c', c' ≠ c → (s.setPc c (.waitSleep index)).pc c' = s.pc c' := fun c' hc' =>
    setPc_pc_of_ne s _ hc'
  unfold State.waitState
  rw [if_pos hpost]
  refine ⟨h.inOrder, h.length, h.count, h.busy, h.le, h.fits, h.copied, h.slots,
    fun i hi hlt' => ?_, h.asleep, h.lockDaemon, fun c' => ?_, fun j c' => ?_, fun c' => ?_,
    h.unique_setPc (by rw [hpc]; rfl)⟩
  · show Function.update s.state (slot index) .wait (slot i) = .post ∨
      Function.update s.state (slot index) .wait (slot i) = .wait ∧ _
    by_cases hi' : i = index
    · refine .inr ⟨by rw [hi', Function.update_self], c, ?_⟩
      rw [hi']
      exact hself
    · rw [Function.update_of_ne fun hslot => hi' (h.eq_of_slot hi hlt' hle hlt hslot)]
      rcases h.states i hi hlt' with hpost' | ⟨hwait, c', hc'⟩
      · exact .inl hpost'
      · refine .inr ⟨hwait, c', (hother c' ?_).trans hc'⟩
        rintro rfl
        rw [hpc] at hc'
        cases hc'
  · refine (h.lockClient c').trans (exists_congr fun i => ?_)
    by_cases hc' : c' = c
    · rw [hc', hpc]
      exact iff_of_false nofun fun heq => nomatch hself.symm.trans heq
    · exact iff_of_eq (congrArg (· = Pc.waitReq i) (hother c' hc').symm)
  · show Function.update s.reqLock (slot index) none j = some c' ↔ _
    by_cases hj : j = slot index <;> by_cases hc' : c' = c
    · rw [hj, hc', Function.update_self]
      refine iff_of_false nofun ?_
      rintro ⟨i, hi, _⟩
      cases hself.symm.trans hi
    · rw [hj, Function.update_self]
      refine iff_of_false nofun ?_
      rintro ⟨i, hi, hslot⟩
      have hlocked' := (h.reqLock (slot index) c').mpr ⟨i, (hother c' hc').symm.trans hi, hslot⟩
      exact hc' (Option.some.inj (hlocked'.symm.trans hlocked))
    · rw [Function.update_of_ne hj, hc']
      refine iff_of_false (fun hlocked' => ?_) ?_
      · obtain ⟨i, hi, hslot⟩ := (h.reqLock j c).mp hlocked'
        rw [hpc] at hi
        cases hi
        exact hj hslot.symm
      · rintro ⟨i, hi, _⟩
        cases hself.symm.trans hi
    · rw [Function.update_of_ne hj]
      refine (h.reqLock j c').trans (exists_congr fun i => and_congr_left fun _ => ?_)
      exact iff_of_eq (congrArg (· = Pc.waitState i) (hother c' hc').symm)
  · by_cases hc' : c' = c
    · rw [hc', hself]
      exact ⟨hle, hlt, Function.update_self _ _ _⟩
    · rw [hother c' hc']
      refine (h.knows c').mono rfl le_rfl le_rfl fun i hwaiter hi hlt' => ?_
      refine Function.update_of_ne (fun hslot => hc' ?_) _ _
      obtain rfl := h.eq_of_slot hi hlt' hle hlt hslot
      exact h.unique c' c i hwaiter (by rw [hpc]; rfl)

/-- A wait for all requests looks at `posr` with the lock of the queue. -/
theorem Inv.waitallLoop {pos earlier : ℕ} (h : Inv s) (hold : (s.pc c).waiter = none)
    (hpos : pos ≤ s.posw) (hearlier : earlier ≤ pos) : Inv (s.waitallLoop c pos earlier) := by
  unfold State.waitallLoop
  split
  case isTrue hlt => exact h.plain hold rfl ⟨hlt, hpos, hearlier⟩
  case isFalse hle => exact h.plain hold rfl (hearlier.trans (Nat.le_of_not_lt hle))

/-- A thread starts a call. -/
theorem Inv.call {op : Op ρ} (h : Inv s) (hstep : s.call c op = some t) : Inv t := by
  unfold State.call at hstep
  split at hstep
  case isFalse => cases hstep
  case isTrue hout =>
  obtain rfl := Option.some.inj hstep
  have hold : (s.pc c).waiter = none := by
    cases hp : s.pc c <;> first | rfl | (rw [hp] at hout; cases hout)
  cases op with
  | post req => exact h.plain hold rfl trivial
  | test index => exact h.plain hold rfl trivial
  | wait index => exact h.plain hold rfl trivial
  | waitall => exact h.plain hold rfl (le_refl s.posw)

/-- A step of a thread in a call. -/
theorem Inv.client (h : Inv s) (hok : s.PointOk (s.pc c)) (hstep : s.client c = some t) :
    Inv t := by
  unfold State.client at hstep
  have hknows := h.knows c
  cases hpc : s.pc c with
  | post req =>
      rw [hpc] at hstep
      simp only [Option.ite_none_right_eq_some] at hstep
      obtain ⟨_, heq⟩ := hstep
      obtain rfl := Option.some.inj heq
      exact h.post hpc
  | test index =>
      rw [hpc] at hstep
      simp only at hstep
      have hcount := h.count
      have hbusy := h.busy
      split at hstep
      case isTrue hle =>
        obtain rfl := Option.some.inj hstep
        refine h.plain (by rw [hpc]; rfl) rfl ⟨iff_of_false nofun ?_, of_decide_eq_true⟩
        -- the executed requests have been posted
        rw [decide_eq_true_eq, Nat.not_lt]
        have hsub := h.inOrder.length_le
        rw [h.length] at hsub
        exact hsub.trans hle
      case isFalse hlt =>
        obtain rfl := Option.some.inj hstep
        exact h.plain (by rw [hpc]; rfl) rfl (Nat.lt_of_not_le hlt)
  | testRead index =>
      rw [hpc] at hstep hok
      obtain rfl := Option.some.inj hstep
      exact h.testRead hpc hok
  | wait index =>
      rw [hpc] at hstep
      simp only at hstep
      split at hstep
      case isTrue hle =>
        obtain rfl := Option.some.inj hstep
        exact h.plain (by rw [hpc]; rfl) rfl fun herr => nomatch herr
      case isFalse hlt =>
        obtain rfl := Option.some.inj hstep
        exact h.plain (by rw [hpc]; rfl) rfl (Nat.lt_of_not_le hlt)
  | waitLock index =>
      rw [hpc] at hstep hok
      simp only [Option.ite_none_right_eq_some] at hstep
      obtain ⟨hfree, heq⟩ := hstep
      obtain rfl := Option.some.inj heq
      exact h.waitLock hpc hfree hok
  | waitReq index =>
      rw [hpc] at hstep
      simp only [Option.ite_none_right_eq_some] at hstep
      obtain ⟨hfree, heq⟩ := hstep
      obtain rfl := Option.some.inj heq
      exact h.waitReq hpc hfree
  | waitState index =>
      rw [hpc] at hstep
      obtain rfl := Option.some.inj hstep
      exact h.waitState hpc
  | waitWake index =>
      rw [hpc] at hstep hknows
      simp only [Option.ite_none_right_eq_some] at hstep
      obtain ⟨_, heq⟩ := hstep
      obtain rfl := Option.some.inj heq
      exact h.plain (by rw [hpc]; rfl) rfl fun _ => hknows
  | waitall earlier =>
      rw [hpc] at hstep hknows
      simp only [Option.ite_none_right_eq_some] at hstep
      obtain ⟨_, heq⟩ := hstep
      obtain rfl := Option.some.inj heq
      exact h.waitallLoop (by rw [hpc]; rfl) le_rfl hknows
  | waitallWake pos earlier =>
      rw [hpc] at hstep hknows
      simp only [Option.ite_none_right_eq_some] at hstep
      obtain ⟨_, heq⟩ := hstep
      obtain rfl := Option.some.inj heq
      exact h.waitallLoop (by rw [hpc]; rfl) hknows.1 hknows.2
  | _ =>
      rw [hpc] at hstep
      cases hstep

/-- A thread wakes up from another condition than that of a request. -/
theorem Inv.spurious (h : Inv s) (hok : (s.pc c).Wakes = true) (hstep : s.spurious c = some t) :
    Inv t := by
  unfold State.spurious at hstep
  have hknows := h.knows c
  cases hpc : s.pc c with
  | postSleep req =>
      rw [hpc] at hstep
      obtain rfl := Option.some.inj hstep
      exact h.plain (by rw [hpc]; rfl) rfl trivial
  | waitallSleep pos earlier =>
      rw [hpc] at hstep hknows
      obtain rfl := Option.some.inj hstep
      exact h.plain (by rw [hpc]; rfl) rfl hknows.2
  | waitSleep index =>
      rw [hpc] at hok
      cases hok
  | _ =>
      rw [hpc] at hstep
      cases hstep

/-! ## The steps of the daemon -/

omit [DecidableEq κ] in
/-- No thread is at the lock of a request while the daemon has the lock of the queue, or nobody. -/
theorem Inv.not_waitReq (h : Inv s) (hlock : ∀ c, s.lock ≠ some (.client c)) (c : κ) (index : ℕ) :
    s.pc c ≠ .waitReq index := fun hpc => hlock c ((h.lockClient c).mpr ⟨index, hpc⟩)

omit [DecidableEq κ] in
/-- The daemon takes the lock of the queue. -/
theorem Inv.daemonLock {d : Daemon ρ} (h : Inv s) (hfree : s.lock = none)
    (hexecuted : d.executed = s.daemon.executed) (hbusy : d.busy = s.daemon.busy)
    (hlocks : d.locks = true) : Inv { s with lock := some .daemon, daemon := d } := by
  have hclient : ∀ c, s.lock ≠ some (.client c) := by
    rw [hfree]
    nofun
  refine ⟨h.inOrder, h.length, ?_, fun hb => h.busy (hbusy.symm.trans hb), h.le, h.fits,
    fun req hd => ?_, h.slots, h.states, fun hd => ?_, iff_of_true rfl hlocks, fun c => ?_,
    h.reqLock, h.knows, h.unique⟩
  · show s.executed.length = s.posr + if d.executed then 1 else 0
    rw [hexecuted]
    exact h.count
  · obtain rfl : d = .execute req := hd
    cases hlocks
  · obtain rfl : d = .asleep := hd
    cases hlocks
  · refine iff_of_false nofun ?_
    rintro ⟨index, hpc⟩
    exact h.not_waitReq hclient c index hpc

omit [DecidableEq κ] in
/-- The daemon finds the queue empty and sleeps. -/
theorem Inv.sleep (h : Inv s) (hd : s.daemon = .check) (hempty : s.posw = s.posr) :
    Inv { s with lock := none, daemon := .asleep } := by
  have hlock : s.lock = some .daemon := h.lockDaemon.mpr (by rw [hd]; rfl)
  have hclient : ∀ c, s.lock ≠ some (.client c) := by
    rw [hlock]
    nofun
  have hcount := h.count
  rw [hd] at hcount
  refine ⟨h.inOrder, h.length, hcount, nofun, h.le, h.fits, nofun, h.slots, h.states,
    fun _ => hempty, iff_of_false nofun nofun, fun c => ?_, h.reqLock, h.knows, h.unique⟩
  refine iff_of_false nofun ?_
  rintro ⟨index, hpc⟩
  exact h.not_waitReq hclient c index hpc

omit [DecidableEq κ] in
/-- The daemon copies the request at `posr`. -/
theorem Inv.copy (h : Inv s) (hd : s.daemon = .check) (hlt : s.posr < s.posw) :
    Inv { s with lock := none, daemon := .execute (s.req (slot s.posr)) } := by
  have hlock : s.lock = some .daemon := h.lockDaemon.mpr (by rw [hd]; rfl)
  have hclient : ∀ c, s.lock ≠ some (.client c) := by
    rw [hlock]
    nofun
  have hcount := h.count
  rw [hd] at hcount
  refine ⟨h.inOrder, h.length, hcount, fun _ => hlt, h.le, h.fits, fun req heq => ?_, h.slots,
    h.states, nofun, iff_of_false nofun nofun, fun c => ?_, h.reqLock, h.knows, h.unique⟩
  · obtain rfl : s.req (slot s.posr) = req := Daemon.execute.inj heq
    exact h.slots s.posr le_rfl hlt
  · refine iff_of_false nofun ?_
    rintro ⟨index, hpc⟩
    exact h.not_waitReq hclient c index hpc

omit [DecidableEq κ] in
/-- The daemon executes the request. -/
theorem Inv.execute {req : ρ} (h : Inv s) (hd : s.daemon = .execute req) :
    Inv { s with executed := s.executed ++ [req], daemon := .relock } := by
  have hcount : s.executed.length = s.posr := by
    have hcount := h.count
    rw [hd] at hcount
    exact hcount
  refine ⟨?_, h.length, ?_, fun _ => h.busy (by rw [hd]; rfl), h.le, h.fits, nofun, h.slots,
    h.states, nofun, ?_, h.lockClient, h.reqLock, fun c => ?_, h.unique⟩
  · obtain ⟨rest, hrest⟩ := h.inOrder
    have hnext := h.copied req hd
    rw [← hrest, ← hcount, List.getElem?_append_right le_rfl, Nat.sub_self] at hnext
    cases rest with
    | nil => cases hnext
    | cons r rest =>
        obtain rfl : r = req := Option.some.inj hnext
        refine ⟨rest, ?_⟩
        rw [← hrest, List.append_assoc]
        rfl
  · show (s.executed ++ [req]).length = s.posr + 1
    rw [List.length_append, hcount]
    rfl
  · refine h.lockDaemon.trans (iff_of_false ?_ nofun)
    rw [hd]
    nofun
  · refine (h.knows c).mono rfl le_rfl ?_ fun i _ _ _ => rfl
    show s.executed.length ≤ (s.executed ++ [req]).length
    rw [List.length_append]
    exact Nat.le_add_right _ _

/-- The thread that waits for the request at `posr` is woken, and no other thread. -/
theorem Inv.signalReq [Fintype κ] {w : Option κ} {pcs : κ → Pc ρ} (h : Inv s)
    (hlt : s.posr < s.posw)
    (hsignal : (if s.state (slot s.posr) = .wait then s.signalReq (slot s.posr) w
      else some s.pc) = some pcs) :
    (∀ c, pcs c = s.pc c ∨ s.pc c = .waitSleep s.posr ∧ pcs c = .waitWake s.posr) ∧
      ∀ c, pcs c ≠ .waitSleep s.posr := by
  have hsleeps : ∀ c, s.pc c = .waitSleep s.posr → s.state (slot s.posr) = .wait := by
    intro c hpc
    have hknows := h.knows c
    rw [hpc] at hknows
    exact hknows.2.2
  split at hsignal
  case isFalse hstate =>
    obtain rfl := Option.some.inj hsignal
    exact ⟨fun c => .inl rfl, fun c hpc => hstate (hsleeps c hpc)⟩
  case isTrue hstate =>
  cases w with
  | none =>
      simp only [State.signalReq, Option.ite_none_right_eq_some] at hsignal
      obtain ⟨hno, heq⟩ := hsignal
      obtain rfl := Option.some.inj heq
      refine ⟨fun c => .inl rfl, fun c hpc => ?_⟩
      have hc := hno c
      rw [hpc] at hc
      exact of_decide_eq_false hc rfl
  | some c =>
      simp only [State.signalReq] at hsignal
      cases hpc : s.pc c with
      | waitSleep index =>
          rw [hpc] at hsignal
          simp only [Option.ite_none_right_eq_some] at hsignal
          obtain ⟨hslot, heq⟩ := hsignal
          obtain rfl := Option.some.inj heq
          have hknows := h.knows c
          rw [hpc] at hknows
          obtain rfl : index = s.posr := h.eq_of_slot hknows.1 hknows.2.1 le_rfl hlt hslot
          refine ⟨fun c' => ?_, fun c' hc' => ?_⟩
          · by_cases hcc : c' = c
            · rw [hcc, Function.update_self]
              exact .inr ⟨hpc, rfl⟩
            · rw [Function.update_of_ne hcc]
              exact .inl rfl
          · by_cases hcc : c' = c
            · rw [hcc, Function.update_self] at hc'
              cases hc'
            · rw [Function.update_of_ne hcc] at hc'
              exact hcc (h.unique c' c s.posr (by rw [hc']; rfl) (by rw [hpc]; rfl))
      | _ =>
          rw [hpc] at hsignal
          cases hsignal

/-- The points at which a thread waits for a request are not changed by a broadcast. -/
theorem Pc.broadcast_of_waiter {p : Pc ρ} (hp : p.broadcast.waiter ≠ none) : p.broadcast = p := by
  cases p with
  | postSleep req => exact absurd rfl hp
  | waitallSleep pos earlier => exact absurd rfl hp
  | _ => rfl

/-- The daemon marks the request as done. -/
theorem Inv.finish [Fintype κ] {w : Option κ} (h : Inv s) (hd : s.daemon = .finish)
    (hstep : s.finish w = some t) : Inv t := by
  simp only [State.finish, Option.ite_none_right_eq_some, Option.map_eq_some_iff] at hstep
  obtain ⟨hfree, pcs, hsignal, rfl⟩ := hstep
  have hlt : s.posr < s.posw := h.busy (by rw [hd]; rfl)
  have hfits := h.fits
  have hlock : s.lock = some .daemon := h.lockDaemon.mpr (by rw [hd]; rfl)
  have hnobody : ∀ c i, s.pc c ≠ .waitReq i := h.not_waitReq (by rw [hlock]; nofun)
  obtain ⟨hpcs, hwoken⟩ := h.signalReq hlt hsignal
  have hslot : ∀ i, s.posr + 1 ≤ i → i < s.posw → slot i ≠ slot s.posr := fun i hi hi' =>
    (slot_ne hi (by omega)).symm
  -- a thread that still waits for a request waits for a later one, at the point where it was
  have hlater : ∀ c p i, p.waiter = some i → ((pcs c).broadcast = p ↔ s.pc c = p ∧ i ≠ s.posr) := by
    intro c p i hp
    constructor
    · intro heq
      have hsome : (pcs c).broadcast.waiter ≠ none := by
        rw [heq, hp]
        nofun
      have hpc : pcs c = p := (Pc.broadcast_of_waiter hsome).symm.trans heq
      rcases hpcs c with hsame | ⟨_, hwake⟩
      · refine ⟨hsame.symm.trans hpc, ?_⟩
        rintro rfl
        cases p with
        | waitReq index => exact hnobody c index (hsame.symm.trans hpc)
        | waitState index =>
            obtain rfl : index = s.posr := Option.some.inj hp
            have hlocked := (h.reqLock (slot s.posr) c).mpr ⟨s.posr, hsame.symm.trans hpc, rfl⟩
            rw [hfree] at hlocked
            cases hlocked
        | waitSleep index =>
            obtain rfl : index = s.posr := Option.some.inj hp
            exact hwoken c hpc
        | _ => cases hp
      · rw [← hpc, hwake] at hp
        cases hp
    · rintro ⟨hpc, hne⟩
      rcases hpcs c with hsame | ⟨hsleep, _⟩
      · rw [hsame, hpc]
        cases p <;> first | rfl | cases hp
      · rw [← hpc, hsleep] at hp
        exact absurd (Option.some.inj hp).symm hne
  have hcount := h.count
  rw [hd] at hcount
  refine ⟨h.inOrder, h.length, hcount, nofun, hlt, ?_, nofun,
    fun i hi hi' => h.slots i (Nat.le_of_succ_le hi) hi', fun i hi hi' => ?_, nofun,
    iff_of_true hlock rfl, fun c => iff_of_false ?_ ?_, fun j c => ?_, fun c => ?_,
    fun c₁ c₂ i h₁ h₂ => ?_⟩
  · show s.posw ≤ s.posr + 1 + maxReglist
    omega
  · show Function.update s.state (slot s.posr) .done (slot i) = .post ∨
      Function.update s.state (slot s.posr) .done (slot i) = .wait ∧ _
    rw [Function.update_of_ne (hslot i hi hi')]
    rcases h.states i (Nat.le_of_succ_le hi) hi' with hpost | ⟨hwait, c, hc⟩
    · exact .inl hpost
    · exact .inr ⟨hwait, c, (hlater c (.waitSleep i) i rfl).mpr ⟨hc, Nat.ne_of_gt hi⟩⟩
  · show s.lock ≠ some (.client c)
    rw [hlock]
    nofun
  · rintro ⟨i, hi⟩
    exact hnobody c i ((hlater c (.waitReq i) i rfl).mp hi).1
  · refine (h.reqLock j c).trans (exists_congr fun i => and_congr_left fun _ => ?_)
    refine Iff.trans ⟨fun hpc => ⟨hpc, ?_⟩, And.left⟩ (hlater c (.waitState i) i rfl).symm
    rintro rfl
    have hlocked := (h.reqLock (slot s.posr) c).mpr ⟨s.posr, hpc, rfl⟩
    rw [hfree] at hlocked
    cases hlocked
  · show State.Knows _ (pcs c).broadcast
    rcases hpcs c with hsame | ⟨_, hwake⟩
    · have hstill := hlater c (s.pc c)
      have hknows := h.knows c
      rw [hsame]
      cases hpc : s.pc c with
      | waitReq index => exact absurd hpc (hnobody c index)
      | waitState index =>
          rw [hpc] at hknows hstill
          obtain ⟨hle, hlt', hstate⟩ := hknows
          have hne := ((hstill index rfl).mp (by rw [hsame, hpc]; rfl)).2
          have hle' : s.posr + 1 ≤ index := lt_of_le_of_ne hle hne.symm
          exact ⟨hle', hlt', (Function.update_of_ne (hslot index hle' hlt') _ _).trans hstate⟩
      | waitSleep index =>
          rw [hpc] at hknows hstill
          obtain ⟨hle, hlt', hstate⟩ := hknows
          have hne := ((hstill index rfl).mp (by rw [hsame, hpc]; rfl)).2
          have hle' : s.posr + 1 ≤ index := lt_of_le_of_ne hle hne.symm
          exact ⟨hle', hlt', (Function.update_of_ne (hslot index hle' hlt') _ _).trans hstate⟩
      | testRead index =>
          rw [hpc] at hknows
          exact hknows
      | waitLock index =>
          rw [hpc] at hknows
          exact hknows
      | waitWake index =>
          rw [hpc] at hknows
          exact Nat.lt_succ_of_lt hknows
      | waitall earlier =>
          rw [hpc] at hknows
          exact hknows
      | waitallSleep pos earlier =>
          rw [hpc] at hknows
          exact hknows.2
      | waitallWake pos earlier =>
          rw [hpc] at hknows
          exact hknows
      | tested index err executed =>
          rw [hpc] at hknows
          exact hknows
      | waited index err =>
          rw [hpc] at hknows
          exact fun herr => Nat.lt_succ_of_lt (hknows herr)
      | waitedAll earlier =>
          rw [hpc] at hknows
          exact Nat.le_succ_of_le hknows
      | _ => trivial
    · rw [hwake]
      exact Nat.lt_succ_self s.posr
  · have hwaiter : ∀ c, ((pcs c).broadcast).waiter = some i → (s.pc c).waiter = some i := by
      intro c hc
      rw [((hlater c _ i hc).mp rfl).1]
      exact hc
    exact h.unique c₁ c₂ i (hwaiter c₁ h₁) (hwaiter c₂ h₂)

/-- A step of the daemon. -/
theorem Inv.daemonStep [Fintype κ] {w : Option κ} (h : Inv s) (hstep : s.daemonStep w = some t) :
    Inv t := by
  unfold State.daemonStep at hstep
  cases hd : s.daemon with
  | lock =>
      rw [hd] at hstep
      simp only [Option.ite_none_right_eq_some] at hstep
      obtain ⟨hfree, heq⟩ := hstep
      obtain rfl := Option.some.inj heq
      exact h.daemonLock hfree (by rw [hd]; rfl) (by rw [hd]; rfl) rfl
  | check =>
      rw [hd] at hstep
      simp only at hstep
      split at hstep
      case isTrue hempty =>
        obtain rfl := Option.some.inj hstep
        exact h.sleep hd hempty
      case isFalse hne =>
        have hlt : s.posr < s.posw := lt_of_le_of_ne h.le (Ne.symm hne)
        rw [if_pos hlt] at hstep
        obtain rfl := Option.some.inj hstep
        exact h.copy hd hlt
  | asleep =>
      rw [hd] at hstep
      cases hstep
  | execute req =>
      rw [hd] at hstep
      obtain rfl := Option.some.inj hstep
      exact h.execute hd
  | relock =>
      rw [hd] at hstep
      simp only [Option.ite_none_right_eq_some] at hstep
      obtain ⟨hfree, heq⟩ := hstep
      obtain rfl := Option.some.inj heq
      exact h.daemonLock hfree (by rw [hd]; rfl) (by rw [hd]; rfl) rfl
  | finish =>
      rw [hd] at hstep
      exact h.finish hd hstep

omit [DecidableEq κ] in
/-- The daemon wakes up without a signal. -/
theorem Inv.spuriousDaemon (h : Inv s) (hd : s.daemon = .asleep) :
    Inv { s with daemon := .lock } := by
  have hcount := h.count
  have hlock := h.lockDaemon
  rw [hd] at hcount hlock
  exact ⟨h.inOrder, h.length, hcount, nofun, h.le, h.fits, nofun, h.slots, h.states, nofun, hlock,
    h.lockClient, h.reqLock, h.knows, h.unique⟩

/-! ## The runs -/

omit [DecidableEq κ] in
theorem Inv.initial (h : Initial s) : Inv s := by
  have hpc := h.pc
  refine ⟨?_, ?_, ?_, ?_, ?_, ?_, ?_, ?_, ?_, ?_, ?_, fun c => ?_, fun j c => ?_, fun c => ?_,
    fun c c' index hc _ => ?_⟩
  · rw [h.executed]
    exact List.nil_prefix
  · rw [h.posted, h.posw]
    rfl
  · rw [h.executed, h.posr, h.daemon]
    rfl
  · rw [h.daemon]
    nofun
  · rw [h.posw, h.posr]
  · rw [h.posw]
    exact Nat.zero_le _
  · rw [h.daemon]
    nofun
  · rw [h.posw]
    exact fun i _ hi => absurd hi (Nat.not_lt_zero i)
  · rw [h.posw]
    exact fun i _ hi => absurd hi (Nat.not_lt_zero i)
  · rw [h.daemon]
    nofun
  · rw [h.lock, h.daemon]
    exact iff_of_false nofun nofun
  · rw [h.lock, hpc c]
    exact iff_of_false nofun nofun
  · rw [h.reqLock, hpc c]
    exact iff_of_false nofun nofun
  · rw [hpc c]
    trivial
  · rw [hpc c] at hc
    cases hc

/-- A step that meets the condition keeps the invariant. -/
theorem Inv.step [Fintype κ] {a : Action κ ρ} (h : Inv s) (hok : Ok s a)
    (hstep : step s a = some t) : Inv t := by
  cases a with
  | call c op => exact h.call hstep
  | client c => exact h.client hok hstep
  | daemon w => exact h.daemonStep hstep
  | spurious c => exact h.spurious hok hstep
  | spuriousDaemon =>
      unfold PinQueue.step at hstep
      cases hd : s.daemon with
      | asleep =>
          rw [hd] at hstep
          obtain rfl := Option.some.inj hstep
          exact h.spuriousDaemon hd
      | _ =>
          rw [hd] at hstep
          cases hstep

/-- The invariant holds in the runs that meet the condition. -/
theorem inv_of_reachable [Fintype κ] (h : (system κ ρ).ReachableWhen Ok s) : Inv s :=
  h.invariant (fun _ => Inv.initial) fun _ _ _ => Inv.step

end Xkblas.Offload.PinQueue
