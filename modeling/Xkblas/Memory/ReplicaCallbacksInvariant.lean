import Mathlib.Data.Finset.Basic
import Xkblas.Library.Ownership
import Xkblas.Memory.ReplicaCallbacks

/-!
# The invariant of the callbacks

Each replica under transfer has one carrier: a copy, a thread that is about to emit one, or a
callback on another replica that will send it on. Each fetch that has left a callback has it in
the list of its destination or in the log. The replicas that wait for others have increasing
ranks.
-/

namespace Xkblas.Memory.ReplicaCallbacks

open Library
open Dsm (Lid host)

variable {τ : Type*} {n : Nat}

/-- The fetch that a callback belongs to. -/
def Callback.fetch? : Callback n → Option Nat
  | .user fetch => some fetch
  | .resend _ _ => none

/-- The destination that a callback sends to. -/
def Callback.target? : Callback n → Option (Lid n)
  | .user _ => none
  | .resend _ dest => some dest

/-- The callback of a fetch is on its destination, and one that sends on is on the source. -/
def Callback.On (dest : Nat → Lid n) (l : Lid n) : Callback n → Prop
  | .user fetch => dest fetch = l
  | .resend src _ => src = l

/-- The fetch that a thread runs. -/
def Pc.fetch? : Pc n → Option Nat
  | .idle => none
  | .choosing fetch | .selected fetch _ | .emitting fetch _ => some fetch

/-- Who brings the data to a replica under transfer. -/
inductive Carrier (τ : Type*) (n : Nat) where
  | copies
  | thread (t : τ)
  | replica (l : Lid n)
  deriving DecidableEq

namespace State

/-- The destinations of a carrier. -/
def carried (s : State τ n) : Carrier τ n → List (Lid n)
  | .copies => s.copies.map Copy.dest
  | .thread t =>
      match s.thread t with
      | .emitting fetch _ => [s.dest fetch]
      | _ => []
  | .replica l => (s.callbacks l).filterMap Callback.target?

/-- The fetches whose callback is on a replica, or in the log. -/
def pending (s : State τ n) : Option (Lid n) → List Nat
  | some l => (s.callbacks l).filterMap Callback.fetch?
  | none => s.called.map Prod.fst

/-- The fetch has left its callback: it has returned `EINPROGRESS`, or will. -/
def Registered (s : State τ n) (fetch : Nat) : Prop :=
  s.result fetch = some .inProgress ∨ ∃ t src, s.thread t = .emitting fetch src

/-- The callback on `src` sends the data on to `dest`. -/
def Forwards (s : State τ n) (src dest : Lid n) : Prop :=
  ∃ src', .resend src' dest ∈ s.callbacks src

end State

/-- The threads run different fetches, which have begun and not returned. -/
structure Threads (thread : τ → Pc n) (result : Nat → Option Result) (nextFetch : Nat) :
    Prop where
  running : ∀ {t k}, (thread t).fetch? = some k → k < nextFetch ∧ result k = none
  distinct : ∀ {t t' k}, (thread t).fetch? = some k → (thread t').fetch? = some k → t = t'
  fresh : ∀ k, nextFetch ≤ k → result k = none

/-- The invariant of the callbacks. -/
structure Inv (s : State τ n) : Prop where
  carriers : Owned s.carried {l | l ∈ s.xfer}
  fetches : Owned s.pending {k | s.Registered k}
  threads : Threads s.thread s.result s.nextFetch
  placed : ∀ {l c}, c ∈ s.callbacks l → c.On s.dest l
  disjoint : ∀ l ∈ s.xfer, l ∉ s.valid
  full : ∀ l, s.slot l = none → s.receiving l = false → s.rest l = []
  live : ∀ l, s.callbacks l ≠ [] → l ∈ s.xfer ∨ s.receiving l = true
  received : ∀ l, s.receiving l = true → l ∈ s.valid
  called : ∀ c ∈ s.called, c.2 = true
  ranked : ∃ rank : Lid n → Nat, ∀ src dest, s.Forwards src dest → rank src < rank dest

/-! ## The lists of callbacks -/

section Lists

variable {s : State τ n} {l l' : Lid n} {c : Callback n}

/-- A callback is added to the replica. -/
theorem callbacks_allocateCallback_self (h : s.slot l = none → s.rest l = []) :
    ((s.allocateCallback l c).callbacks l).Perm (c :: s.callbacks l) := by
  unfold State.callbacks State.allocateCallback
  by_cases hslot : s.slot l = none
  · simp [hslot, h hslot]
  · obtain ⟨c', hc'⟩ := Option.ne_none_iff_exists'.mp hslot
    simp only [hc', reduceCtorEq, if_false, Function.update_self, Option.toList_some]
    exact List.Perm.swap c c' _

theorem callbacks_allocateCallback_of_ne (hl : l' ≠ l) :
    (s.allocateCallback l c).callbacks l' = s.callbacks l' := by
  unfold State.callbacks State.allocateCallback
  dsimp only
  rw [Function.update_of_ne hl]
  split
  · rw [Function.update_of_ne hl]
  · rfl

/-- A list with a free slot stays without one cut. -/
theorem full_allocateCallback (h : s.slot l' = none → s.rest l' = [])
    (hslot : (s.allocateCallback l c).slot l' = none) : (s.allocateCallback l c).rest l' = [] := by
  unfold State.allocateCallback at hslot ⊢
  dsimp only at hslot ⊢
  by_cases hl : l' = l
  · subst hl
    by_cases hnone : s.slot l' = none
    · simp [hnone] at hslot
    · simp [hnone] at hslot
  · rw [Function.update_of_ne hl]
    split at hslot
    · rw [Function.update_of_ne hl] at hslot
      exact h hslot
    · exact h hslot

/-- The callbacks after `_allocate_callback`. -/
theorem mem_allocateCallback (h : s.slot l = none → s.rest l = []) {c' : Callback n} :
    c' ∈ (s.allocateCallback l c).callbacks l' ↔ l' = l ∧ c' = c ∨ c' ∈ s.callbacks l' := by
  by_cases hl : l' = l
  · subst hl
    rw [(callbacks_allocateCallback_self h).mem_iff, List.mem_cons]
    simp
  · rw [callbacks_allocateCallback_of_ne hl]
    simp [hl]

theorem callbacks_ne_nil_of_allocateCallback (h : (s.allocateCallback l c).callbacks l' ≠ []) :
    l' = l ∨ s.callbacks l' ≠ [] := by
  by_cases hl : l' = l
  · exact .inl hl
  · rw [callbacks_allocateCallback_of_ne hl] at h
    exact .inr h

/-- The callback of a fetch does not send the data on. -/
theorem forwards_allocateCallback_user (h : s.slot l = none → s.rest l = []) {k : Nat}
    {src dest : Lid n} :
    (s.allocateCallback l (.user k)).Forwards src dest ↔ s.Forwards src dest := by
  refine exists_congr fun src' => ?_
  rw [mem_allocateCallback h]
  simp

variable {α : Type*} {f : Callback n → Option α}

/-- What `f` selects does not change when it does not select the new callback. -/
theorem filterMap_allocateCallback_none (h : s.slot l = none → s.rest l = []) (hf : f c = none) :
    (((s.allocateCallback l c).callbacks l').filterMap f).Perm
      ((s.callbacks l').filterMap f) := by
  by_cases hl : l' = l
  · subst hl
    refine ((callbacks_allocateCallback_self h).filterMap f).trans ?_
    rw [List.filterMap_cons_none hf]
  · rw [callbacks_allocateCallback_of_ne hl]

theorem filterMap_allocateCallback_some (h : s.slot l = none → s.rest l = []) {a : α}
    (hf : f c = some a) :
    (((s.allocateCallback l c).callbacks l).filterMap f).Perm
      (a :: (s.callbacks l).filterMap f) := by
  refine ((callbacks_allocateCallback_self h).filterMap f).trans ?_
  rw [List.filterMap_cons_some hf]

end Lists

/-! ## The threads -/

namespace Threads

variable [DecidableEq τ] {thread : τ → Pc n} {result : Nat → Option Result} {nextFetch k : Nat}
  {t : τ} {pc : Pc n}

/-- A thread goes on in its fetch. -/
theorem setPc (h : Threads thread result nextFetch) (hpc : pc.fetch? = (thread t).fetch?) :
    Threads (Function.update thread t pc) result nextFetch := by
  have hsame : ∀ t', (Function.update thread t pc t').fetch? = (thread t').fetch? := by
    intro t'
    by_cases ht : t' = t
    · rw [ht, Function.update_self, hpc]
    · rw [Function.update_of_ne ht]
  constructor
  case running =>
    intro t' j hj
    exact h.running ((hsame t').symm.trans hj)
  case distinct =>
    intro t₁ t₂ j h₁ h₂
    exact h.distinct ((hsame t₁).symm.trans h₁) ((hsame t₂).symm.trans h₂)
  case fresh => exact h.fresh

/-- A thread starts a fetch. -/
theorem start (h : Threads thread result nextFetch) (hpc : pc.fetch? = some nextFetch) :
    Threads (Function.update thread t pc) result (nextFetch + 1) := by
  have hold : ∀ {t' j}, t' ≠ t → (Function.update thread t pc t').fetch? = some j →
      (thread t').fetch? = some j := by
    intro t' j ht hj
    rwa [Function.update_of_ne ht] at hj
  have hnew : ∀ {j}, (Function.update thread t pc t).fetch? = some j → j = nextFetch := by
    intro j hj
    rw [Function.update_self, hpc] at hj
    exact (Option.some.inj hj).symm
  constructor
  case running =>
    intro t' j hj
    by_cases ht : t' = t
    · obtain rfl := hnew (ht ▸ hj)
      exact ⟨Nat.lt_succ_self _, h.fresh _ (Nat.le_refl _)⟩
    · obtain ⟨hlt, hnone⟩ := h.running (hold ht hj)
      exact ⟨hlt.trans (Nat.lt_succ_self _), hnone⟩
  case distinct =>
    intro t₁ t₂ j h₁ h₂
    by_cases ht₁ : t₁ = t <;> by_cases ht₂ : t₂ = t
    · exact ht₁.trans ht₂.symm
    · have hlt := (h.running (hold ht₂ h₂)).1
      obtain rfl := hnew (ht₁ ▸ h₁)
      exact absurd hlt (Nat.lt_irrefl _)
    · have hlt := (h.running (hold ht₁ h₁)).1
      obtain rfl := hnew (ht₂ ▸ h₂)
      exact absurd hlt (Nat.lt_irrefl _)
    · exact h.distinct (hold ht₁ h₁) (hold ht₂ h₂)
  case fresh => exact fun j hj => h.fresh j ((Nat.le_succ _).trans hj)

/-- The fetch of a thread returns. -/
theorem return_ (h : Threads thread result nextFetch) (hk : (thread t).fetch? = some k)
    (r : Result) :
    Threads (Function.update thread t .idle) (Function.update result k (some r)) nextFetch := by
  have hold : ∀ {t' j}, (Function.update thread t .idle t').fetch? = some j →
      t' ≠ t ∧ (thread t').fetch? = some j := by
    intro t' j hj
    by_cases ht : t' = t
    · rw [ht, Function.update_self] at hj
      cases hj
    · rw [Function.update_of_ne ht] at hj
      exact ⟨ht, hj⟩
  constructor
  case running =>
    intro t' j hj
    obtain ⟨ht, hj⟩ := hold hj
    have hne : j ≠ k := by
      rintro rfl
      exact ht (h.distinct hj hk)
    rw [Function.update_of_ne hne]
    exact h.running hj
  case distinct =>
    intro t₁ t₂ j h₁ h₂
    exact h.distinct (hold h₁).2 (hold h₂).2
  case fresh =>
    intro j hj
    have hne : j ≠ k := ((h.running hk).1.trans_le hj).ne'
    rw [Function.update_of_ne hne]
    exact h.fresh j hj

end Threads

/-- A fetch that has left its callback has begun. -/
theorem Inv.lt_of_registered {s : State τ n} (h : Inv s) {k : Nat} (hk : s.Registered k) :
    k < s.nextFetch := by
  rcases hk with hresult | ⟨t, src, ht⟩
  · by_contra hlt
    rw [h.threads.fresh k (not_lt.mp hlt)] at hresult
    cases hresult
  · refine (h.threads.running (t := t) ?_).1
    rw [ht]
    rfl

/-- The callbacks on the replicas are those of fetches that have begun. -/
theorem Inv.lt_of_mem_callbacks {s : State τ n} (h : Inv s) {l : Lid n} {k : Nat}
    (hk : .user k ∈ s.callbacks l) : k < s.nextFetch := by
  refine h.lt_of_registered ((h.fetches.mem k).mpr ⟨some l, ?_⟩)
  exact List.mem_filterMap.mpr ⟨_, hk, rfl⟩

/-! ## Steps that leave no callback -/

section Quiet

variable {s : State τ n} {t : τ}

@[simp] theorem thread_setThread_self [DecidableEq τ] {pc : Pc n} :
    (s.setThread t pc).thread t = pc :=
  Function.update_self _ _ _

theorem carried_of_emitting {k : Nat} {src : Lid n} (ht : s.thread t = .emitting k src) :
    s.carried (.thread t) = [s.dest k] := by
  simp only [State.carried, ht]

theorem carried_of_not_emitting (ht : ∀ k src, s.thread t ≠ .emitting k src) :
    s.carried (.thread t) = [] := by
  unfold State.carried
  cases hpc : s.thread t with
  | emitting k src => exact absurd hpc (ht k src)
  | idle | choosing | selected => simp only [hpc]

/-- A thread carries the same when it emits the same copy. -/
theorem carried_thread_congr {s' : State τ n}
    (hemit : ∀ k src, s'.thread t = .emitting k src ↔ s.thread t = .emitting k src)
    (hdest : ∀ k src, s.thread t = .emitting k src → s'.dest k = s.dest k) :
    s'.carried (.thread t) = s.carried (.thread t) := by
  by_cases hemitting : ∃ k src, s.thread t = .emitting k src
  · obtain ⟨k, src, ht⟩ := hemitting
    rw [carried_of_emitting ht, carried_of_emitting ((hemit k src).mpr ht), hdest k src ht]
  · have hnot : ∀ k src, s.thread t ≠ .emitting k src := fun k src ht => hemitting ⟨k, src, ht⟩
    have hnot' : ∀ k src, s'.thread t ≠ .emitting k src := fun k src ht =>
      hnot k src ((hemit k src).mp ht)
    rw [carried_of_not_emitting hnot, carried_of_not_emitting hnot']

/-- The threads change, but none begins or ends to emit, and no callback is left. -/
theorem Inv.quiet (h : Inv s) {thread : τ → Pc n} {result : Nat → Option Result}
    {nextFetch : Nat} {dest : Nat → Lid n} (hthreads : Threads thread result nextFetch)
    (hemit : ∀ t k src, thread t = .emitting k src ↔ s.thread t = .emitting k src)
    (hresult : ∀ k, result k = some .inProgress ↔ s.result k = some .inProgress)
    (hdest : ∀ k < s.nextFetch, dest k = s.dest k) :
    Inv { s with thread := thread, result := result, nextFetch := nextFetch, dest := dest } := by
  let s' : State τ n :=
    { s with thread := thread, result := result, nextFetch := nextFetch, dest := dest }
  have hregistered : ∀ k, s'.Registered k ↔ s.Registered k := by
    intro k
    unfold State.Registered
    rw [hresult]
    exact or_congr_right (exists_congr fun t => exists_congr fun src => hemit t k src)
  constructor
  case carriers =>
    refine h.carriers.congr fun i => ?_
    cases i with
    | copies => exact List.Perm.refl _
    | replica l => exact List.Perm.refl _
    | thread t =>
        refine List.Perm.of_eq (carried_thread_congr (hemit t) fun k src ht => hdest k ?_)
        exact (h.threads.running (t := t) (by rw [ht]; rfl)).1
  case fetches =>
    rw [show {k | s'.Registered k} = {k | s.Registered k} from Set.ext hregistered]
    exact h.fetches
  case threads => exact hthreads
  case placed =>
    intro l c hc
    cases c with
    | user k => exact (hdest k (h.lt_of_mem_callbacks hc)).trans (h.placed hc)
    | resend src dest => exact h.placed hc
  case disjoint => exact h.disjoint
  case full => exact h.full
  case live => exact h.live
  case received => exact h.received
  case called => exact h.called
  case ranked => exact h.ranked

variable [DecidableEq τ]

/-- A thread that does not emit goes on to a point where it does not either. -/
theorem emitting_update {pc : Pc n} (ht : ∀ k src, s.thread t ≠ .emitting k src)
    (hpc : ∀ k src, pc ≠ .emitting k src) (t' : τ) (k : Nat) (src : Lid n) :
    Function.update s.thread t pc t' = .emitting k src ↔ s.thread t' = .emitting k src := by
  by_cases htt : t' = t
  · subst htt
    rw [Function.update_self]
    exact iff_of_false (hpc k src) (ht k src)
  · rw [Function.update_of_ne htt]

/-- A fetch of a thread that returns 0. -/
theorem inv_return_ok (h : Inv s) {k : Nat} (hk : (s.thread t).fetch? = some k)
    (ht : ∀ k src, s.thread t ≠ .emitting k src) : Inv (s.return_ t k .ok) := by
  refine h.quiet (h.threads.return_ hk .ok) (emitting_update ht fun _ _ => by simp) ?_
    fun _ _ => rfl
  intro j
  by_cases hj : j = k
  · subst hj
    rw [Function.update_self, (h.threads.running hk).2]
    simp
  · rw [Function.update_of_ne hj]

/-- A call of `kaapi_dsm_fetch_on`. -/
theorem inv_fetch (h : Inv s) {dest : Lid n} {s' : State τ n}
    (hstep : step s (.fetch t dest) = some s') : Inv s' := by
  simp only [step] at hstep
  split at hstep
  case isFalse => cases hstep
  case isTrue hidle =>
    have ht : ∀ k src, s.thread t ≠ .emitting k src := fun k src heq => by
      rw [hidle] at heq
      cases heq
    have hchoosing : Inv ({ s with
        nextFetch := s.nextFetch + 1
        dest := Function.update s.dest s.nextFetch dest }.setThread t
          (.choosing s.nextFetch)) := by
      refine h.quiet (h.threads.start rfl) (emitting_update ht fun _ _ => by simp)
        (fun _ => Iff.rfl) fun k hk => ?_
      exact Function.update_of_ne hk.ne _ _
    split at hstep
    case isFalse =>
      cases hstep
      exact hchoosing
    case isTrue =>
      -- the fetch that returns at once is one that starts and returns
      cases hstep
      have hreturned := inv_return_ok (t := t) hchoosing (k := s.nextFetch)
        (by rw [thread_setThread_self]; rfl) fun k src heq => by
          rw [thread_setThread_self] at heq
          cases heq
      simpa only [State.return_, State.setThread, Function.update_idem] using hreturned

/-- The choice of the source. -/
theorem inv_choose (h : Inv s) {src : Lid n} {s' : State τ n}
    (hstep : step s (.choose t src) = some s') : Inv s' := by
  simp only [step] at hstep
  split at hstep
  case h_2 => cases hstep
  case h_1 k hthread =>
    split at hstep
    case isFalse => cases hstep
    case isTrue =>
      cases hstep
      refine h.quiet (h.threads.setPc ?_) (emitting_update (fun k src heq => ?_)
        fun _ _ => by simp) (fun _ => Iff.rfl) fun _ _ => rfl
      · rw [hthread]
        rfl
      · rw [hthread] at heq
        cases heq

end Quiet

/-! ## The part under the locks -/

section Locked

variable {s : State τ n} {t : τ} {k : Nat} {src : Lid n}

/-- A replica that is not under transfer and not locked has no callback. -/
theorem Inv.callbacks_eq_nil (h : Inv s) {l : Lid n} (hxfer : l ∉ s.xfer)
    (hfree : s.receiving l = false) : s.callbacks l = [] := by
  by_contra hne
  rcases h.live l hne with hmem | hreceiving
  · exact hxfer hmem
  · rw [hfree] at hreceiving
    cases hreceiving

/-- Data is only sent on to replicas under transfer. -/
theorem Inv.mem_xfer_of_forwards (h : Inv s) {l l' : Lid n} (hl : s.Forwards l l') :
    l' ∈ s.xfer := by
  obtain ⟨src', hsrc⟩ := hl
  refine (h.carriers.mem l').mpr ⟨.replica l, ?_⟩
  exact List.mem_filterMap.mpr ⟨_, hsrc, rfl⟩

/-- A replica comes under transfer and has a carrier. -/
theorem Inv.carriers_insert (h : Inv s) {s' : State τ n} {l : Lid n}
    {i : Carrier τ n} (hl : l ∉ s.xfer) (hxfer : s'.xfer = insert l s.xfer)
    (hi : (s'.carried i).Perm (l :: s.carried i))
    (hother : ∀ j ≠ i, (s'.carried j).Perm (s.carried j)) :
    Owned s'.carried {l | l ∈ s'.xfer} := by
  have hset : {x | x ∈ s'.xfer} = insert l {x | x ∈ s.xfer} := by
    ext x
    rw [hxfer]
    exact Finset.mem_insert
  rw [hset]
  exact h.carriers.grant hl hi hother

/-- A thread that has chosen a source does not emit. -/
theorem not_emitting_of_selected (hthread : s.thread t = .selected k src) (k' : Nat)
    (src' : Lid n) : s.thread t ≠ .emitting k' src' := by
  intro heq
  rw [hthread] at heq
  cases heq

/-- The fetch of a thread that has chosen a source has not left its callback. -/
theorem Inv.not_registered (h : Inv s) (hthread : s.thread t = .selected k src) :
    ¬ s.Registered k := by
  have hrunning := (h.threads.running (t := t) (k := k) (by rw [hthread]; rfl)).2
  rintro (hresult | ⟨t', src', ht'⟩)
  · rw [hrunning] at hresult
    cases hresult
  · have htt : t' = t := h.threads.distinct (k := k) (by rw [ht']; rfl) (by rw [hthread]; rfl)
    subst htt
    exact not_emitting_of_selected hthread _ _ ht'

/-- The callback of a fetch that has not left one is left on its destination. -/
theorem Inv.fetches_allocateCallback (h : Inv s) {s' : State τ n} (hk : ¬ s.Registered k)
    (hfull : s.slot (s.dest k) = none → s.rest (s.dest k) = [])
    (hcallbacks : ∀ l, ((s'.callbacks l).filterMap Callback.fetch?).Perm
      (((s.allocateCallback (s.dest k) (.user k)).callbacks l).filterMap Callback.fetch?))
    (hcalled : s'.called = s.called)
    (hregistered : {j | s'.Registered j} = insert k {j | s.Registered j}) :
    Owned s'.pending {j | s'.Registered j} := by
  rw [hregistered]
  refine h.fetches.grant (i := some (s.dest k)) hk ?_ fun i hi => ?_
  · exact (hcallbacks _).trans (filterMap_allocateCallback_some hfull rfl)
  · cases i with
    | none =>
        show (s'.called.map Prod.fst).Perm (s.called.map Prod.fst)
        rw [hcalled]
    | some l =>
        have hl : l ≠ s.dest k := fun heq => hi (congrArg some heq)
        refine (hcallbacks l).trans (List.Perm.of_eq ?_)
        rw [callbacks_allocateCallback_of_ne hl]
        rfl

variable [DecidableEq τ]

/-- The fetch of a thread that does not emit leaves its callback. -/
theorem registered_return (ht : ∀ k src, s.thread t ≠ .emitting k src) :
    {j | (s.return_ t k .inProgress).Registered j} = insert k {j | s.Registered j} := by
  have hemit : ∀ t' j src, Function.update s.thread t .idle t' = .emitting j src ↔
      s.thread t' = .emitting j src := emitting_update ht fun _ _ => by simp
  ext j
  show (Function.update s.result k (some .inProgress) j = some .inProgress ∨
    ∃ t' src, Function.update s.thread t .idle t' = .emitting j src) ↔ j = k ∨ s.Registered j
  simp only [hemit]
  by_cases hj : j = k
  · subst hj
    simp
  · rw [Function.update_of_ne hj]
    simp only [hj, false_or]
    rfl

theorem registered_setThread (ht : ∀ k src, s.thread t ≠ .emitting k src) :
    {j | (s.setThread t (.emitting k src)).Registered j} = insert k {j | s.Registered j} := by
  ext j
  show (s.result j = some .inProgress ∨
    ∃ t' src', Function.update s.thread t (.emitting k src) t' = .emitting j src') ↔
      j = k ∨ s.Registered j
  constructor
  · rintro (hresult | ⟨t', src', ht'⟩)
    · exact .inr (.inl hresult)
    · by_cases htt : t' = t
      · subst htt
        rw [Function.update_self] at ht'
        cases ht'
        exact .inl rfl
      · rw [Function.update_of_ne htt] at ht'
        exact .inr (.inr ⟨t', src', ht'⟩)
  · rintro (hj | hresult | ⟨t', src', ht'⟩)
    · subst hj
      exact .inr ⟨t, src, Function.update_self _ _ _⟩
    · exact .inl hresult
    · have htt : t' ≠ t := by
        rintro rfl
        exact ht _ _ ht'
      exact .inr ⟨t', src', (Function.update_of_ne htt _ _).trans ht'⟩

variable (h : Inv s) (hthread : s.thread t = .selected k src)
  (hfree : s.receiving (s.dest k) = false)
include h hthread hfree

/-- The fetch finds its destination under transfer. -/
theorem inv_lock_wait (hxfer : s.dest k ∈ s.xfer) :
    Inv ((s.allocateCallback (s.dest k) (.user k)).return_ t k .inProgress) := by
  have ht := not_emitting_of_selected hthread
  have hfull := fun hnone => h.full (s.dest k) hnone hfree
  constructor
  case carriers =>
    refine h.carriers.congr fun i => ?_
    cases i with
    | copies => exact List.Perm.refl _
    | thread t' =>
        refine List.Perm.of_eq (carried_thread_congr (s := s) ?_ fun _ _ _ => rfl)
        exact emitting_update ht (fun _ _ => by simp) t'
    | replica l => exact filterMap_allocateCallback_none hfull rfl
  case fetches =>
    refine h.fetches_allocateCallback (h.not_registered hthread) hfull
      (fun _ => List.Perm.refl _) rfl ?_
    exact registered_return (s := s.allocateCallback (s.dest k) (.user k)) ht
  case threads => exact h.threads.return_ (by rw [hthread]; rfl) _
  case placed =>
    intro l c hc
    rcases (mem_allocateCallback hfull).mp hc with ⟨rfl, rfl⟩ | hc
    · rfl
    · exact h.placed hc
  case disjoint => exact h.disjoint
  case full =>
    intro l hslot hrec
    exact full_allocateCallback (fun hnone => h.full l hnone hrec) hslot
  case live =>
    intro l hl
    rcases callbacks_ne_nil_of_allocateCallback hl with rfl | hl
    · exact .inl hxfer
    · exact h.live l hl
  case received => exact h.received
  case called => exact h.called
  case ranked =>
    obtain ⟨rank, hrank⟩ := h.ranked
    exact ⟨rank, fun a b hab => hrank a b ((forwards_allocateCallback_user hfull).mp hab)⟩

/-- The fetch marks its destination, and its thread will emit the copy. -/
theorem inv_lock_emit (hvalid : s.dest k ∉ s.valid) (hxfer : s.dest k ∉ s.xfer) :
    Inv ({ s.allocateCallback (s.dest k) (.user k) with
      xfer := insert (s.dest k) s.xfer }.setThread t (.emitting k src)) := by
  have ht := not_emitting_of_selected hthread
  have hfull := fun hnone => h.full (s.dest k) hnone hfree
  constructor
  case carriers =>
    refine h.carriers_insert (i := .thread t) hxfer rfl ?_ fun i hi => ?_
    · rw [carried_of_not_emitting ht]
      rw [carried_of_emitting thread_setThread_self]
      exact List.Perm.refl _
    · cases i with
      | copies => exact List.Perm.refl _
      | thread t' =>
          have htt : t' ≠ t := fun heq => hi (congrArg Carrier.thread heq)
          refine List.Perm.of_eq (carried_thread_congr (s := s) ?_ fun _ _ _ => rfl)
          intro j src'
          show Function.update s.thread t (.emitting k src) t' = _ ↔ _
          rw [Function.update_of_ne htt]
      | replica l => exact filterMap_allocateCallback_none hfull rfl
  case fetches =>
    refine h.fetches_allocateCallback (h.not_registered hthread) hfull
      (fun _ => List.Perm.refl _) rfl ?_
    exact registered_setThread (s := s.allocateCallback (s.dest k) (.user k)) ht
  case threads => exact h.threads.setPc (by rw [hthread]; rfl)
  case placed =>
    intro l c hc
    rcases (mem_allocateCallback hfull).mp hc with ⟨rfl, rfl⟩ | hc
    · rfl
    · exact h.placed hc
  case disjoint =>
    intro l hl
    rcases Finset.mem_insert.mp hl with rfl | hl
    · exact hvalid
    · exact h.disjoint l hl
  case full =>
    intro l hslot hrec
    exact full_allocateCallback (fun hnone => h.full l hnone hrec) hslot
  case live =>
    intro l hl
    rcases callbacks_ne_nil_of_allocateCallback hl with rfl | hl
    · exact .inl (Finset.mem_insert_self _ _)
    · exact (h.live l hl).imp_left Finset.mem_insert_of_mem
  case received => exact h.received
  case called => exact h.called
  case ranked =>
    obtain ⟨rank, hrank⟩ := h.ranked
    exact ⟨rank, fun a b hab => hrank a b ((forwards_allocateCallback_user hfull).mp hab)⟩

/-- The source is under transfer and will send the data on. -/
theorem inv_lock_route (hsrc : s.receiving src = false) (hvalid : s.dest k ∉ s.valid)
    (hsrcXfer : src ∈ s.xfer) (hxfer : s.dest k ∉ s.xfer) :
    Inv (({ s.allocateCallback (s.dest k) (.user k) with
      xfer := insert (s.dest k) s.xfer }.allocateCallback src
        (.resend src (s.dest k))).return_ t k .inProgress) := by
  have ht := not_emitting_of_selected hthread
  have hfull := fun hnone => h.full (s.dest k) hnone hfree
  have hne : src ≠ s.dest k := ne_of_mem_of_not_mem hsrcXfer hxfer
  let s₁ : State τ n :=
    { s.allocateCallback (s.dest k) (.user k) with xfer := insert (s.dest k) s.xfer }
  have hfull₁ : s₁.slot src = none → s₁.rest src = [] :=
    full_allocateCallback fun hnone => h.full src hnone hsrc
  have hmem : ∀ {l c}, c ∈ (s₁.allocateCallback src (.resend src (s.dest k))).callbacks l ↔
      l = src ∧ c = .resend src (s.dest k) ∨ l = s.dest k ∧ c = .user k ∨
        c ∈ s.callbacks l := by
    intro l c
    rw [mem_allocateCallback hfull₁]
    exact or_congr_right (mem_allocateCallback hfull)
  constructor
  case carriers =>
    refine h.carriers_insert (i := .replica src) hxfer rfl ?_ fun i hi => ?_
    · show (List.filterMap Callback.target?
        ((s₁.allocateCallback src (.resend src (s.dest k))).callbacks src)).Perm _
      refine (filterMap_allocateCallback_some hfull₁ (a := s.dest k) rfl).trans ?_
      refine List.Perm.cons _ ?_
      exact filterMap_allocateCallback_none hfull rfl
    · cases i with
      | copies => exact List.Perm.refl _
      | thread t' =>
          refine List.Perm.of_eq (carried_thread_congr (s := s) ?_ fun _ _ _ => rfl)
          exact emitting_update ht (fun _ _ => by simp) t'
      | replica l =>
          have hl : l ≠ src := fun heq => hi (congrArg Carrier.replica heq)
          show (List.filterMap Callback.target?
            ((s₁.allocateCallback src (.resend src (s.dest k))).callbacks l)).Perm _
          rw [callbacks_allocateCallback_of_ne hl]
          exact filterMap_allocateCallback_none hfull rfl
  case fetches =>
    refine h.fetches_allocateCallback (h.not_registered hthread) hfull
      (fun _ => filterMap_allocateCallback_none hfull₁ rfl) rfl ?_
    exact registered_return (s := s₁.allocateCallback src (.resend src (s.dest k))) ht
  case threads => exact h.threads.return_ (by rw [hthread]; rfl) _
  case placed =>
    intro l c hc
    rcases hmem.mp hc with ⟨rfl, rfl⟩ | ⟨rfl, rfl⟩ | hc
    · rfl
    · rfl
    · exact h.placed hc
  case disjoint =>
    intro l hl
    rcases Finset.mem_insert.mp hl with rfl | hl
    · exact hvalid
    · exact h.disjoint l hl
  case full =>
    intro l hslot hrec
    exact full_allocateCallback (full_allocateCallback fun hnone => h.full l hnone hrec) hslot
  case live =>
    intro l hl
    rcases callbacks_ne_nil_of_allocateCallback hl with rfl | hl
    · exact .inl (Finset.mem_insert_of_mem hsrcXfer)
    rcases callbacks_ne_nil_of_allocateCallback hl with rfl | hl
    · exact .inl (Finset.mem_insert_self _ _)
    · exact (h.live l hl).imp_left Finset.mem_insert_of_mem
  case received => exact h.received
  case called => exact h.called
  case ranked =>
    -- nothing is sent on to the destination or by it, so it can follow the source
    obtain ⟨rank, hrank⟩ := h.ranked
    refine ⟨Function.update rank (s.dest k) (rank src + 1), fun a b hab => ?_⟩
    obtain ⟨src', hab⟩ := hab
    rcases hmem.mp hab with ⟨rfl, heq⟩ | ⟨_, heq⟩ | hab
    · cases heq
      rw [Function.update_self, Function.update_of_ne hne]
      exact Nat.lt_succ_self _
    · cases heq
    · have hb : b ≠ s.dest k := ne_of_mem_of_not_mem (h.mem_xfer_of_forwards ⟨src', hab⟩) hxfer
      have ha : a ≠ s.dest k := by
        rintro rfl
        rw [h.callbacks_eq_nil hxfer hfree] at hab
        cases hab
      rw [Function.update_of_ne ha, Function.update_of_ne hb]
      exact hrank a b ⟨src', hab⟩

end Locked

section Steps

variable {s s' : State τ n} {t : τ} [DecidableEq τ]

/-- The part of `kaapi_dsm_fetch_on` under the locks. -/
theorem inv_lock (h : Inv s) (hstep : step s (.lock t) = some s') : Inv s' := by
  simp only [step] at hstep
  split at hstep
  case h_2 => cases hstep
  case h_1 k src hthread =>
    split at hstep
    case isFalse => cases hstep
    case isTrue hfree =>
      cases hstep
      unfold State.fetchLocked
      dsimp only
      split_ifs with hvalid hroute hxfer
      · refine inv_return_ok h ?_ (not_emitting_of_selected hthread)
        rw [hthread]
        rfl
      · exact inv_lock_route h hthread hfree.2 hfree.1 hvalid hroute.1 hroute.2
      · exact inv_lock_wait h hthread hfree.2 hxfer
      · exact inv_lock_emit h hthread hfree.2 hvalid hxfer

/-- A fetch that emits has left its callback already. -/
theorem registered_emit {k : Nat} {src : Lid n} {copies : List (Copy n)}
    (hthread : s.thread t = .emitting k src) :
    {j | ({ s with copies := copies }.return_ t k .inProgress).Registered j} =
      {j | s.Registered j} := by
  ext j
  show (Function.update s.result k (some .inProgress) j = some .inProgress ∨
    ∃ t' src', Function.update s.thread t .idle t' = .emitting j src') ↔ s.Registered j
  by_cases hj : j = k
  · subst hj
    exact iff_of_true (.inl (Function.update_self _ _ _)) (.inr ⟨t, src, hthread⟩)
  · rw [Function.update_of_ne hj]
    refine or_congr_right (exists_congr fun t' => exists_congr fun src' => ?_)
    by_cases ht : t' = t
    · subst ht
      rw [Function.update_self, hthread]
      simp [Ne.symm hj]
    · rw [Function.update_of_ne ht]

/-- The copy is given to the device. -/
theorem inv_emit (h : Inv s) (hstep : step s (.emit t) = some s') : Inv s' := by
  simp only [step] at hstep
  split at hstep
  case h_2 => cases hstep
  case h_1 k src hthread =>
    cases hstep
    have hidle : ∀ {t'}, t' ≠ t → ∀ {pc}, Function.update s.thread t .idle t' = pc ↔
        s.thread t' = pc := by
      intro t' ht pc
      rw [Function.update_of_ne ht]
    constructor
    case carriers =>
      refine h.carriers.move (i := .thread t) (j := .copies) (a := s.dest k) (by simp) ?_
        (List.Perm.refl _) fun i hit hic => ?_
      · rw [carried_of_emitting hthread, carried_of_not_emitting]
        intro k' src' heq
        have : Function.update s.thread t .idle t = .emitting k' src' := heq
        rw [Function.update_self] at this
        cases this
      · cases i with
        | copies => exact absurd rfl hic
        | thread t' =>
            have ht : t' ≠ t := fun heq => hit (congrArg Carrier.thread heq)
            refine List.Perm.of_eq (carried_thread_congr (s := s) ?_ fun _ _ _ => rfl)
            exact fun _ _ => hidle ht
        | replica l => exact List.Perm.refl _
    case fetches =>
      show Owned s.pending _
      rw [registered_emit hthread]
      exact h.fetches
    case threads => exact h.threads.return_ (by rw [hthread]; rfl) _
    case placed => exact h.placed
    case disjoint => exact h.disjoint
    case full => exact h.full
    case live => exact h.live
    case received => exact h.received
    case called => exact h.called
    case ranked => exact h.ranked

/-- The copy has arrived: its destination is valid, and its callbacks are to run. -/
theorem inv_receive (h : Inv s) {i : Nat} (hstep : step s (.receive i) = some s') : Inv s' := by
  simp only [step] at hstep
  split at hstep
  case h_1 => cases hstep
  case h_2 c hc =>
    split at hstep
    case isFalse => cases hstep
    case isTrue hfree =>
      cases hstep
      constructor
      case carriers =>
        have hset : {l | l ∈ s.xfer.erase c.dest} = {l | l ∈ s.xfer} \ {c.dest} := by
          ext l
          simp [and_comm]
        show Owned _ {l | l ∈ s.xfer.erase c.dest}
        rw [hset]
        refine h.carriers.revoke (i := .copies) ?_ fun i hi => ?_
        · obtain ⟨hi, rfl⟩ := List.getElem?_eq_some_iff.mp hc
          exact ((List.getElem_cons_eraseIdx_perm hi).symm.map Copy.dest)
        · cases i with
          | copies => exact absurd rfl hi
          | thread t => exact List.Perm.refl _
          | replica l => exact List.Perm.refl _
      case fetches => exact h.fetches
      case threads => exact h.threads
      case placed => exact h.placed
      case disjoint =>
        intro l hl hvalid
        obtain ⟨hne, hl⟩ := Finset.mem_erase.mp hl
        rcases Finset.mem_insert.mp hvalid with heq | hvalid
        · exact hne heq
        · exact h.disjoint l hl hvalid
      case full =>
        intro l hslot hrec
        by_cases hl : l = c.dest
        · rw [hl, State.receiving_markReceived_self] at hrec
          cases hrec
        · rw [State.receiving_markReceived_of_ne hl] at hrec
          exact h.full l hslot hrec
      case live =>
        intro l hcallbacks
        by_cases hl : l = c.dest
        · rw [hl]
          exact .inr State.receiving_markReceived_self
        · rw [State.receiving_markReceived_of_ne hl]
          exact (h.live l hcallbacks).imp_left fun hx => Finset.mem_erase.mpr ⟨hl, hx⟩
      case received =>
        intro l hrec
        by_cases hl : l = c.dest
        · exact Finset.mem_insert.mpr (.inl hl)
        · rw [State.receiving_markReceived_of_ne hl] at hrec
          exact Finset.mem_insert_of_mem (h.received l hrec)
      case called => exact h.called
      case ranked => exact h.ranked

/-- The next callback of a replica runs. -/
theorem inv_runCallback (h : Inv s) {l : Lid n} (hrec : s.receiving l = true) {c : Callback n}
    {slot : Lid n → Option (Callback n)} {rest : Lid n → List (Callback n)}
    (hl : s.callbacks l = c :: ({ s with slot := slot, rest := rest } : State τ n).callbacks l)
    (hother : ∀ l' ≠ l, slot l' = s.slot l' ∧ rest l' = s.rest l')
    (hstep : ({ s with slot := slot, rest := rest } : State τ n).runCallback c = some s') :
    Inv s' := by
  let s₁ : State τ n := { s with slot := slot, rest := rest }
  have hcallbacks : ∀ l' ≠ l, s₁.callbacks l' = s.callbacks l' := by
    intro l' hl'
    show (slot l').toList ++ rest l' = (s.slot l').toList ++ s.rest l'
    rw [(hother l' hl').1, (hother l' hl').2]
  have hmem : ∀ {l' c'}, c' ∈ s₁.callbacks l' → c' ∈ s.callbacks l' := by
    intro l' c' hc'
    by_cases hl' : l' = l
    · subst hl'
      rw [hl]
      exact List.mem_cons_of_mem _ hc'
    · rwa [hcallbacks l' hl'] at hc'
  have hplaced := h.placed (l := l) (c := c) (by rw [hl]; exact List.mem_cons_self)
  -- what holds of the state whatever the callback is
  have hfull : ∀ l', slot l' = none → s.receiving l' = false → rest l' = [] := by
    intro l' hslot hfree
    have hl' : l' ≠ l := by
      rintro rfl
      rw [hrec] at hfree
      cases hfree
    rw [(hother l' hl').1] at hslot
    rw [(hother l' hl').2]
    exact h.full l' hslot hfree
  have hlive : ∀ l', s₁.callbacks l' ≠ [] → l' ∈ s.xfer ∨ s.receiving l' = true := by
    intro l' hne
    obtain ⟨c', hc'⟩ := List.exists_mem_of_ne_nil _ hne
    exact h.live l' (List.ne_nil_of_mem (hmem hc'))
  have hranked : ∃ rank : Lid n → Nat, ∀ a b, s₁.Forwards a b → rank a < rank b := by
    obtain ⟨rank, hrank⟩ := h.ranked
    exact ⟨rank, fun a b ⟨src, hab⟩ => hrank a b ⟨src, hmem hab⟩⟩
  cases c with
  | user k =>
      have hvalid : s.dest k ∈ s.valid := hplaced ▸ h.received l hrec
      obtain rfl := Option.some.inj hstep
      constructor
      case carriers =>
        refine h.carriers.congr fun i => ?_
        cases i with
        | copies => exact List.Perm.refl _
        | thread t => exact List.Perm.refl _
        | replica l' =>
            show ((s₁.callbacks l').filterMap Callback.target?).Perm
              ((s.callbacks l').filterMap Callback.target?)
            by_cases hl' : l' = l
            · rw [hl', hl]
              exact List.Perm.refl _
            · rw [hcallbacks l' hl']
      case fetches =>
        refine h.fetches.move (i := some l) (j := none) (a := k) (by simp) ?_
          (List.Perm.refl _) fun i hil hin => ?_
        · show ((s.callbacks l).filterMap Callback.fetch?).Perm _
          rw [hl]
          exact List.Perm.refl _
        · cases i with
          | none => exact absurd rfl hin
          | some l' =>
              have hl' : l' ≠ l := fun heq => hil (congrArg some heq)
              show ((s₁.callbacks l').filterMap _).Perm ((s.callbacks l').filterMap _)
              rw [hcallbacks l' hl']
      case threads => exact h.threads
      case placed => exact fun hc => h.placed (hmem hc)
      case disjoint => exact h.disjoint
      case full => exact hfull
      case live => exact hlive
      case received => exact h.received
      case called =>
        intro c hc
        rcases List.mem_cons.mp hc with rfl | hc
        · exact decide_eq_true hvalid
        · exact h.called c hc
      case ranked => exact hranked
  | resend src dest =>
      simp only [State.runCallback] at hstep
      split at hstep
      case isTrue => cases hstep
      case isFalse =>
        obtain rfl := Option.some.inj hstep
        constructor
        case carriers =>
          refine h.carriers.move (i := .replica l) (j := .copies) (a := dest) (by simp) ?_
            (List.Perm.refl _) fun i hil hic => ?_
          · show ((s.callbacks l).filterMap Callback.target?).Perm _
            rw [hl]
            exact List.Perm.refl _
          · cases i with
            | copies => exact absurd rfl hic
            | thread t => exact List.Perm.refl _
            | replica l' =>
                have hl' : l' ≠ l := fun heq => hil (congrArg Carrier.replica heq)
                show ((s₁.callbacks l').filterMap _).Perm ((s.callbacks l').filterMap _)
                rw [hcallbacks l' hl']
        case fetches =>
          refine h.fetches.congr fun i => ?_
          cases i with
          | none => exact List.Perm.refl _
          | some l' =>
              show ((s₁.callbacks l').filterMap Callback.fetch?).Perm
                ((s.callbacks l').filterMap Callback.fetch?)
              by_cases hl' : l' = l
              · rw [hl', hl]
                exact List.Perm.refl _
              · rw [hcallbacks l' hl']
        case threads => exact h.threads
        case placed => exact fun hc => h.placed (hmem hc)
        case disjoint => exact h.disjoint
        case full => exact hfull
        case live => exact hlive
        case received => exact h.received
        case called => exact h.called
        case ranked => exact hranked

omit [DecidableEq τ] in
/-- A replica that has run its last callback is unlocked. -/
theorem inv_unlock (h : Inv s) {l : Lid n} (hslot : s.slot l = none) (hrest : s.rest l = []) :
    Inv { s with receiving := Function.update s.receiving l false } := by
  have hreceiving : ∀ {l'}, Function.update s.receiving l false l' = true →
      s.receiving l' = true := by
    intro l' hrec
    by_cases hl : l' = l
    · rw [hl, Function.update_self] at hrec
      cases hrec
    · rwa [Function.update_of_ne hl] at hrec
  constructor
  case carriers => exact h.carriers
  case fetches => exact h.fetches
  case threads => exact h.threads
  case placed => exact h.placed
  case disjoint => exact h.disjoint
  case full =>
    intro l' hslot' hfree
    by_cases hl : l' = l
    · rw [hl]
      exact hrest
    · refine h.full l' hslot' ?_
      exact (Function.update_of_ne hl _ _).symm.trans hfree
  case live =>
    intro l' hne
    have hl : l' ≠ l := by
      rintro rfl
      refine hne ?_
      show (s.slot l').toList ++ s.rest l' = []
      rw [hslot, hrest]
      rfl
    refine (h.live l' hne).imp_right fun hrec => ?_
    exact (Function.update_of_ne hl _ _).trans hrec
  case received => exact fun l' hrec => h.received l' (hreceiving hrec)
  case called => exact h.called
  case ranked => exact h.ranked

/-- A completed copy runs the callbacks of its destination. -/
theorem inv_callback (h : Inv s) {l : Lid n} (hstep : step s (.callback l) = some s') :
    Inv s' := by
  simp only [step] at hstep
  split at hstep
  case isFalse => cases hstep
  case isTrue hrec =>
    split at hstep
    case h_1 c hslot =>
      refine inv_runCallback h hrec (c := c) ?_ ?_ hstep
      · show (s.slot l).toList ++ s.rest l =
          c :: ((Function.update s.slot l none l).toList ++ s.rest l)
        rw [hslot, Function.update_self]
        rfl
      · exact fun l' hl => ⟨Function.update_of_ne hl _ _, rfl⟩
    case h_2 hslot =>
      split at hstep
      case h_1 c rest hrest =>
        refine inv_runCallback h hrec (c := c) ?_ ?_ hstep
        · show (s.slot l).toList ++ s.rest l =
            c :: ((s.slot l).toList ++ Function.update s.rest l rest l)
          rw [hslot, hrest, Function.update_self]
          rfl
        · exact fun l' hl => ⟨rfl, Function.update_of_ne hl _ _⟩
      case h_2 hrest =>
        cases hstep
        exact inv_unlock h hslot hrest

/-- Each step keeps the invariant. -/
theorem inv_step (h : Inv s) {a : Action τ n} (hstep : step s a = some s') : Inv s' := by
  cases a with
  | fetch t dest => exact inv_fetch h hstep
  | choose t src => exact inv_choose h hstep
  | lock t => exact inv_lock h hstep
  | emit t => exact inv_emit h hstep
  | receive i => exact inv_receive h hstep
  | callback l => exact inv_callback h hstep

omit [DecidableEq τ] in
/-- Nothing is left to do at the start. -/
theorem inv_initial (h : Initial s) : Inv s := by
  have hcallbacks : ∀ l, s.callbacks l = [] := by
    intro l
    unfold State.callbacks
    rw [h.slot l, h.rest l]
    rfl
  have hnot : ∀ {l c}, c ∉ s.callbacks l := by
    intro l c hc
    rw [hcallbacks l] at hc
    cases hc
  have hidle : ∀ {t k}, (s.thread t).fetch? ≠ some k := by
    intro t k heq
    rw [h.thread t] at heq
    cases heq
  constructor
  case carriers =>
    have hset : {l | l ∈ s.xfer} = ∅ := by
      rw [h.xfer]
      exact Set.eq_empty_of_forall_notMem fun l hl => Finset.notMem_empty l hl
    rw [hset]
    refine Owned.empty fun i => ?_
    cases i with
    | copies => exact congrArg (List.map Copy.dest) h.copies
    | thread t =>
        refine carried_of_not_emitting fun k src heq => ?_
        rw [h.thread t] at heq
        cases heq
    | replica l => exact congrArg (List.filterMap Callback.target?) (hcallbacks l)
  case fetches =>
    have hset : {k | s.Registered k} = ∅ := by
      refine Set.eq_empty_of_forall_notMem fun k hk => ?_
      rcases hk with hresult | ⟨t, src, ht⟩
      · rw [h.result k] at hresult
        cases hresult
      · exact hidle (t := t) (k := k) (by rw [ht]; rfl)
    rw [hset]
    refine Owned.empty fun i => ?_
    cases i with
    | none => exact congrArg (List.map Prod.fst) h.called
    | some l => exact congrArg (List.filterMap Callback.fetch?) (hcallbacks l)
  case threads =>
    exact ⟨fun ht => absurd ht hidle, fun ht => absurd ht hidle, fun k _ => h.result k⟩
  case placed => exact fun hc => absurd hc hnot
  case disjoint =>
    intro l hl
    rw [h.xfer] at hl
    exact absurd hl (Finset.notMem_empty l)
  case full => exact fun l _ _ => h.rest l
  case live => exact fun l hl => absurd (hcallbacks l) hl
  case received =>
    intro l hl
    rw [h.receiving l] at hl
    cases hl
  case called =>
    intro c hc
    rw [h.called] at hc
    cases hc
  case ranked => exact ⟨fun _ => 0, fun a b ⟨_, hab⟩ => absurd hab hnot⟩

theorem Inv.of_reachable (hs : (system τ n).Reachable s) : Inv s := by
  induction hs with
  | start hinit => exact inv_initial hinit
  | next _ _ hstep ih => exact inv_step ih hstep

end Steps

end Xkblas.Memory.ReplicaCallbacks
