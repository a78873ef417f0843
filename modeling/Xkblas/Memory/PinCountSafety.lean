import Mathlib.Algebra.Order.BigOperators.Group.Finset
import Xkblas.Memory.FindAccessSafety
import Xkblas.Memory.PinCount
import Xkblas.Library.FinLiteral

/-!
# When the pins are right

The steps of other threads keep the pins (`counts_foreign`), an acquire adds one, a release takes
one, and the accesses that a task holds change in the same way (`held_setPhase`).
`pins_balanced` puts this together, with what the other steps do: each of them leaves a pin that
does not count the accesses.
-/

namespace Xkblas.Memory.PinCount

open Library
open scoped Library.FinLiteral
open Dsm (Lid host)
open FindAccess (View Replica Metadata Block)

/-! ## The pins of one address -/

section

variable {n address : ℕ} {m m' : FindAccess.State n} {mdi mdi' : Metadata n} {l l' : Lid n}
  {r : Replica} {count : ℕ} {counts : Lid n → ℕ}

theorem countsAt_some (hm : m.mdi = some mdi) (hr : mdi.replicas l = some r) :
    CountsAt m l count ↔ r.pinned = count + applicationPin l r := by
  unfold CountsAt
  rw [hm, Option.bind_some, hr]

theorem countsAt_none (hm : m.mdi = some mdi) (hr : mdi.replicas l = none) :
    CountsAt m l count ↔ count = 0 := by
  unfold CountsAt
  rw [hm, Option.bind_some, hr]

/-- The replicas alone matter. -/
theorem countsAt_congr
    (h : (m'.mdi.bind fun m => m.replicas l) = m.mdi.bind fun m => m.replicas l) :
    CountsAt m' l count ↔ CountsAt m l count := by
  unfold CountsAt
  rw [h]

/-- One replica is replaced, and its count changes with it. -/
theorem counts_of_update {counts' : Lid n → ℕ} (hm : m.mdi = some mdi) (hm' : m'.mdi = some mdi')
    (hreplicas : mdi'.replicas = Function.update mdi.replicas l (some r)) (h : Counts m counts)
    (hother : ∀ l' ≠ l, counts' l' = counts l')
    (hpin : r.pinned = counts' l + applicationPin l r) : Counts m' counts' := by
  intro l'
  by_cases hl : l' = l
  · subst hl
    refine (countsAt_some hm' ?_).mpr hpin
    rw [hreplicas, Function.update_self]
  · rw [hother l' hl]
    refine (countsAt_congr ?_).mpr (h l')
    rw [hm, hm', Option.bind_some, Option.bind_some, hreplicas, Function.update_of_ne hl]

theorem applicationPin_of_ne (hl : l ≠ host) : applicationPin l r = 0 :=
  if_neg fun h => hl h.1

theorem applicationPin_of_ptr (hptr : r.ptr = 0) : applicationPin l r = 0 :=
  if_neg fun h => h.2 hptr

/-- The replica that `_kaapi_new_replica` gives has no memory and no pin, and so had the old one. -/
theorem newReplica_spec {live live' : FindAccess.Live n} {view : View}
    (h : FindAccess.newReplica mdi live l view = some (mdi', live')) :
    (∀ r, mdi.replicas l = some r → r.pinned = 0) ∧
      ∃ r, mdi'.replicas = Function.update mdi.replicas l (some r) ∧ r.ptr = 0 ∧ r.pinned = 0 := by
  unfold FindAccess.newReplica at h
  split at h
  next hnone =>
    cases h
    refine ⟨fun r hr => ?_, _, rfl, rfl, rfl⟩
    rw [hnone] at hr
    cases hr
  next r hr =>
    split at h
    next hfresh =>
      refine ⟨fun r' hr' => ?_, ?_⟩
      · rw [hr] at hr'
        cases hr'
        exact hfresh.2
      · split at h
        next hzero =>
          cases h
          exact ⟨_, rfl, hzero, hfresh.2⟩
        next =>
          cases h
          exact ⟨_, rfl, rfl, rfl⟩
    next => cases h

/-- A replica without a pin is counted by nobody. -/
theorem count_eq_zero (hpin : ∀ r, mdi.replicas l = some r → r.pinned = 0)
    (hm : m.mdi = some mdi) (h : CountsAt m l count) : count = 0 := by
  cases hr : mdi.replicas l with
  | none => exact (countsAt_none hm hr).mp h
  | some r =>
      have hcount := (countsAt_some hm hr).mp h
      rw [hpin r hr] at hcount
      omega

theorem counts_newReplica {live live' : FindAccess.Live n} {view : View}
    (hm : m.mdi = some mdi) (h : Counts m counts)
    (hnew : FindAccess.newReplica mdi live l view = some (mdi', live')) :
    Counts ⟨some mdi', live'⟩ counts ∧ counts l = 0 := by
  obtain ⟨hpin, r, hreplicas, hptr, hpin'⟩ := newReplica_spec hnew
  have hzero : counts l = 0 := count_eq_zero hpin hm (h l)
  refine ⟨counts_of_update hm rfl hreplicas h (fun _ _ => rfl) ?_, hzero⟩
  rw [hpin', hzero, applicationPin_of_ptr hptr]
  rfl

/-- The metadata of an address get the memory of the application. -/
theorem counts_newMdi {live live' : FindAccess.Live n} {view : Option View}
    {old : Option (Metadata n)} (hm : m.mdi = old) (h : Counts m counts)
    (hnew : FindAccess.newMdi old live address view = some (mdi', live')) :
    Counts ⟨some mdi', live'⟩ counts := by
  have hblank : ∀ (alloc valid xfer : Finset (Lid n)) (live : FindAccess.Live n),
      Counts ⟨some { old.getD ⟨fun _ => none, ∅, ∅, ∅⟩ with alloc, valid, xfer }, live⟩ counts := by
    intro alloc valid xfer live l
    refine (countsAt_congr ?_).mpr (h l)
    rw [hm]
    cases old with
    | none => rfl
    | some mdi => rfl
  unfold FindAccess.newMdi at hnew
  dsimp only at hnew
  split at hnew
  · cases hnew
    exact hblank _ _ _ _
  next haddress =>
    obtain ⟨view, -, hnew⟩ := Option.bind_eq_some_iff.mp hnew
    obtain ⟨⟨mdi₁, live₁⟩, hreplica, hnew⟩ := Option.bind_eq_some_iff.mp hnew
    obtain ⟨r, hr, hnew⟩ := Option.map_eq_some_iff.mp hnew
    cases hnew
    obtain ⟨hcounts, hzero⟩ := counts_newReplica rfl (hblank _ _ _ live) hreplica
    refine counts_of_update rfl rfl rfl hcounts (fun _ _ => rfl) ?_
    rw [hzero]
    show (1 : ℤ) = ((0 : ℕ) : ℤ) + (applicationPin host { r with ptr := address, pinned := 1 } : ℕ)
    unfold applicationPin
    rw [if_pos ⟨rfl, haddress⟩]
    rfl

/-- A look-up keeps the counts. -/
theorem counts_findaccess {create : FindAccess.Create} {view : Option View}
    (h : Counts m counts) (hstep : FindAccess.findaccess address m l create view = some m') :
    Counts m' counts := by
  unfold FindAccess.findaccess at hstep
  cases create with
  | noCreate =>
      cases hstep
      exact h
  | mdi =>
      dsimp only at hstep
      split at hstep
      next hnone =>
        obtain ⟨⟨mdi, live⟩, hnew, rfl⟩ := Option.map_eq_some_iff.mp hstep
        exact counts_newMdi hnone h hnew
      next =>
        cases hstep
        exact h
  | data =>
      obtain ⟨⟨mdi, live⟩, hfound, hstep⟩ := Option.bind_eq_some_iff.mp hstep
      have hcounts : Counts ⟨some mdi, live⟩ counts := by
        split at hfound
        next hnone => exact counts_newMdi hnone h hfound
        next old hold =>
          split at hfound
          · exact counts_newMdi hold h hfound
          · split at hfound
            · cases hfound
              intro l
              refine (countsAt_congr ?_).mpr (h l)
              rw [hold]
            · cases hfound
      obtain ⟨view, -, hstep⟩ := Option.bind_eq_some_iff.mp hstep
      unfold FindAccess.returnValue at hstep
      split at hstep
      · cases hstep
        exact hcounts
      · obtain ⟨⟨mdi', live'⟩, hnew, rfl⟩ := Option.map_eq_some_iff.mp hstep
        exact (counts_newReplica rfl hcounts hnew).1

/-! ## The other steps -/

/-- A step that changes the replica of `l` only, and neither its pin nor that of the application. -/
theorem counts_modify {f : Replica → Replica} (h : Counts m counts)
    (hpin : ∀ r, (f r).pinned = r.pinned ∧ (f r).ptr = r.ptr)
    (hstep : m.modify l f = some m') : Counts m' counts := by
  unfold FindAccess.State.modify at hstep
  obtain ⟨mdi, hm, hstep⟩ := Option.bind_eq_some_iff.mp hstep
  obtain ⟨r, hr, rfl⟩ := Option.map_eq_some_iff.mp hstep
  refine counts_of_update hm rfl rfl h (fun _ _ => rfl) ?_
  have hold := (countsAt_some hm hr).mp (h l)
  unfold applicationPin at hold ⊢
  rw [(hpin r).1, (hpin r).2]
  exact hold

theorem counts_setBits {valid xfer : Metadata n → Finset (Lid n)} (h : Counts m counts)
    (hstep : m.setBits valid xfer = some m') : Counts m' counts := by
  unfold FindAccess.State.setBits at hstep
  obtain ⟨mdi, hm, rfl⟩ := Option.map_eq_some_iff.mp hstep
  intro l
  refine (countsAt_congr ?_).mpr (h l)
  rw [hm]
  rfl

/-- A pin counts one access more. -/
theorem counts_pin (h : Counts m counts)
    (hstep : FindAccess.step address m (.pin l) = some m') :
    Counts m' (Function.update counts l (counts l + 1)) := by
  unfold FindAccess.step FindAccess.State.modify at hstep
  obtain ⟨mdi, hm, hstep⟩ := Option.bind_eq_some_iff.mp hstep
  obtain ⟨r, hr, rfl⟩ := Option.map_eq_some_iff.mp hstep
  have hold := (countsAt_some hm hr).mp (h l)
  refine counts_of_update hm rfl rfl h (fun l' hl => Function.update_of_ne hl _ _) ?_
  show r.pinned + 1 = _ + (applicationPin l r : ℕ)
  rw [Function.update_self, hold]
  omega

/-- A release counts one access less. -/
theorem counts_unpin {k : ℕ} (h : Counts m counts) (hk : counts l = k + 1)
    (hstep : FindAccess.step address m (.unpin l) = some m') :
    Counts m' (Function.update counts l k) := by
  unfold FindAccess.step FindAccess.State.modify at hstep
  obtain ⟨mdi, hm, hstep⟩ := Option.bind_eq_some_iff.mp hstep
  obtain ⟨r, hr, rfl⟩ := Option.map_eq_some_iff.mp hstep
  have hold := (countsAt_some hm hr).mp (h l)
  refine counts_of_update hm rfl rfl h (fun l' hl => Function.update_of_ne hl _ _) ?_
  show r.pinned - 1 = _ + (applicationPin l r : ℕ)
  rw [Function.update_self, hold, hk]
  omega

/-- The replica of a device is replaced by one with the same pin. -/
theorem counts_of_pinned {r' : Replica} (hl : l ≠ host) (hm : m.mdi = some mdi)
    (hr : mdi.replicas l = some r) (hm' : m'.mdi = some mdi')
    (hreplicas : mdi'.replicas = Function.update mdi.replicas l (some r'))
    (hpin : r'.pinned = r.pinned) (h : Counts m counts) : Counts m' counts := by
  refine counts_of_update hm hm' hreplicas h (fun _ _ => rfl) ?_
  rw [hpin, (countsAt_some hm hr).mp (h l), applicationPin_of_ne hl, applicationPin_of_ne hl]

theorem counts_allocate {block : Block} (h : Counts m counts)
    (hstep : FindAccess.step address m (.allocate l block) = some m') : Counts m' counts := by
  unfold FindAccess.step at hstep
  obtain ⟨mdi, hm, hstep⟩ := Option.bind_eq_some_iff.mp hstep
  obtain ⟨r, hr, hstep⟩ := Option.bind_eq_some_iff.mp hstep
  split at hstep
  next hguard =>
    cases hstep
    exact counts_of_pinned hguard.1 hm hr rfl rfl rfl h
  next => cases hstep

theorem counts_evict (h : Counts m counts)
    (hstep : FindAccess.step address m (.evict l) = some m') : Counts m' counts := by
  unfold FindAccess.step at hstep
  obtain ⟨mdi, hm, hstep⟩ := Option.bind_eq_some_iff.mp hstep
  obtain ⟨r, hr, hstep⟩ := Option.bind_eq_some_iff.mp hstep
  split at hstep
  next hguard =>
    cases hstep
    exact counts_of_pinned hguard.1 hm hr rfl rfl rfl h
  next => cases hstep

/-- An invalidation leaves no pin, which is right when nobody has acquired the replica. -/
theorem counts_invalidateBloc {linked : Replica → Bool} (h : Counts m counts) (hl : l ≠ host)
    (hstep : m.invalidateBloc l linked = some m') : Counts m' counts ↔ counts l = 0 := by
  unfold FindAccess.State.invalidateBloc at hstep
  obtain ⟨mdi, hm, hstep⟩ := Option.bind_eq_some_iff.mp hstep
  obtain ⟨r, hr, hstep⟩ := Option.bind_eq_some_iff.mp hstep
  rw [if_neg hl] at hstep
  split at hstep
  next =>
    cases hstep
    constructor
    · intro hcounts
      have hnew := (countsAt_some rfl (Function.update_self l _ _)).mp (hcounts l)
      rw [applicationPin_of_ne hl] at hnew
      have hnew : (0 : ℤ) = counts l + ((0 : ℕ) : ℤ) := hnew
      omega
    · intro hzero
      refine counts_of_update hm rfl rfl h (fun _ _ => rfl) ?_
      rw [hzero, applicationPin_of_ne hl]
      rfl
  next => cases hstep

/-- The replica of `l` after the invalidation of all allocated replicas. -/
theorem replicas_invalidateData :
    ((m.invalidateData mdi).mdi.bind fun m => m.replicas l) =
      if l ∈ mdi.alloc then
        (mdi.replicas l).map fun r =>
          { r with ptr := 0, pinned := 0, linked := if l = host then r.linked else false }
      else mdi.replicas l :=
  rfl

theorem counts_invalidateData (hm : m.mdi = some mdi) (h : Counts m counts) :
    Counts (m.invalidateData mdi) counts ↔ ∀ l ∈ mdi.alloc, counts l = 0 := by
  have hat : ∀ l ∈ mdi.alloc, CountsAt (m.invalidateData mdi) l (counts l) ↔ counts l = 0 := by
    intro l hl
    cases hr : mdi.replicas l with
    | none =>
        have hzero := (countsAt_none hm hr).mp (h l)
        unfold CountsAt
        rw [replicas_invalidateData, if_pos hl, hr, Option.map_none]
    | some r =>
        unfold CountsAt
        rw [replicas_invalidateData, if_pos hl, hr, Option.map_some]
        dsimp only
        rw [applicationPin_of_ptr rfl]
        omega
  constructor
  · exact fun hcounts l hl => (hat l hl).mp (hcounts l)
  · intro hzero l
    by_cases hl : l ∈ mdi.alloc
    · exact (hat l hl).mpr (hzero l hl)
    · refine (countsAt_congr ?_).mpr (h l)
      rw [replicas_invalidateData, if_neg hl, hm]
      rfl

/-- On the host nothing is invalidated. -/
theorem invalidateBloc_host {linked : Replica → Bool} (hl : l = host)
    (hstep : m.invalidateBloc l linked = some m') : m' = m := by
  unfold FindAccess.State.invalidateBloc at hstep
  obtain ⟨mdi, -, hstep⟩ := Option.bind_eq_some_iff.mp hstep
  obtain ⟨r, -, hstep⟩ := Option.bind_eq_some_iff.mp hstep
  rw [if_pos hl] at hstep
  exact (Option.some.inj hstep).symm

/-- A step of another thread keeps the counts, unless it invalidates a replica that is counted. -/
theorem counts_foreign {a : FindAccess.Action n} (hforeign : foreign m a = true)
    (hstep : FindAccess.step address m a = some m') (h : Counts m counts) :
    Counts m' counts ↔
      (a = .invalidateData → ∀ mdi, m.mdi = some mdi → ∀ l ∈ mdi.alloc, counts l = 0) ∧
        ∀ l, a = .invalidateEntry l → l = host ∨ counts l = 0 := by
  have hkept : Counts m' counts → a ≠ .invalidateData → (∀ l, a ≠ .invalidateEntry l) →
      (Counts m' counts ↔
        (a = .invalidateData → ∀ mdi, m.mdi = some mdi → ∀ l ∈ mdi.alloc, counts l = 0) ∧
          ∀ l, a = .invalidateEntry l → l = host ∨ counts l = 0) :=
    fun hcounts hdata hentry => iff_of_true hcounts
      ⟨fun heq => absurd heq hdata, fun l heq => absurd heq (hentry l)⟩
  cases a with
  | findaccess l create view => exact hkept (counts_findaccess h hstep) nofun nofun
  | allocate l block => exact hkept (counts_allocate h hstep) nofun nofun
  | fetch l => exact hkept (counts_setBits h hstep) nofun nofun
  | complete l => exact hkept (counts_setBits h hstep) nofun nofun
  | mark l => exact hkept (counts_setBits h hstep) nofun nofun
  | touch l =>
      refine hkept ?_ nofun nofun
      unfold FindAccess.step at hstep
      dsimp only at hstep
      split at hstep
      · cases hstep
        exact h
      · have hpin : ∀ r : Replica, ({ r with linked := true } : Replica).pinned = r.pinned ∧
            ({ r with linked := true } : Replica).ptr = r.ptr := fun r => ⟨rfl, rfl⟩
        exact counts_modify h hpin hstep
  | pin l => cases hforeign
  | unpin l => cases hforeign
  | evict l => exact hkept (counts_evict h hstep) nofun nofun
  | invalidateData =>
      obtain ⟨mdi, hm, rfl⟩ := Option.map_eq_some_iff.mp hstep
      rw [counts_invalidateData hm h]
      constructor
      · refine fun hzero => ⟨fun _ mdi' hm' => ?_, nofun⟩
        rw [hm] at hm'
        cases hm'
        exact hzero
      · exact fun hzero => hzero.1 rfl mdi hm
  | invalidateBloc l => cases hforeign
  | invalidateEntry l =>
      by_cases hl : l = host
      · refine iff_of_true ?_ ⟨nofun, fun l' heq => Or.inl ?_⟩
        · rw [invalidateBloc_host hl hstep]
          exact h
        · cases heq
          exact hl
      · rw [counts_invalidateBloc h hl hstep]
        constructor
        · refine fun hzero => ⟨nofun, fun l' heq => Or.inr ?_⟩
          cases heq
          exact hzero
        · exact fun hzero => (hzero.2 l rfl).resolve_left hl

end

/-! ## The accesses of the tasks -/

section

variable {δ τ : Type*} {n : ℕ} [DecidableEq δ] [Fintype τ] [DecidableEq τ] {tasks : τ → Task δ n}
  {phase : τ → Phase} {t : τ} {p : Phase} {d : δ} {l : Lid n} {ith : ℕ}

/-- The accesses to a data that a task of the device `l` has acquired. -/
def share (tasks : τ → Task δ n) (d : δ) (l : Lid n) (t : τ) (p : Phase) : ℕ :=
  if (tasks t).device = l then ((tasks t).acquired p).count d else 0

/-- When one task goes on, only its own accesses change. -/
theorem held_update :
    held tasks (Function.update phase t p) d l + share tasks d l t (phase t) =
      held tasks phase d l + share tasks d l t p := by
  have hsum : ∀ phase : τ → Phase, held tasks phase d l =
      share tasks d l t (phase t) + ∑ t' ∈ Finset.univ.erase t, share tasks d l t' (phase t') :=
    fun phase => (Finset.add_sum_erase Finset.univ (fun t' => share tasks d l t' (phase t'))
      (Finset.mem_univ t)).symm
  have hrest : ∑ t' ∈ Finset.univ.erase t, share tasks d l t' (Function.update phase t p t') =
      ∑ t' ∈ Finset.univ.erase t, share tasks d l t' (phase t') := by
    refine Finset.sum_congr rfl fun t' ht' => ?_
    rw [Function.update_of_ne (Finset.ne_of_mem_erase ht')]
  rw [hsum (Function.update phase t p), hsum phase, hrest, Function.update_self]
  omega

theorem held_same (h : (tasks t).acquired p = (tasks t).acquired (phase t)) :
    held tasks (Function.update phase t p) = held tasks phase := by
  funext d l
  have hupdate : held tasks (Function.update phase t p) d l + share tasks d l t (phase t) =
      held tasks phase d l + share tasks d l t p := held_update
  unfold share at hupdate
  rw [h] at hupdate
  omega

variable (phase) in
/-- One access more of the task changes the count of its replica only. -/
theorem held_cons (h : ((tasks t).acquired p).Perm (d :: (tasks t).acquired (phase t))) (d' : δ)
    (l : Lid n) :
    held tasks (Function.update phase t p) d' l =
      held tasks phase d' l + if (tasks t).device = l then if d = d' then 1 else 0 else 0 := by
  have hupdate : held tasks (Function.update phase t p) d' l + share tasks d' l t (phase t) =
      held tasks phase d' l + share tasks d' l t p := held_update
  unfold share at hupdate
  rw [h.count_eq, List.count_cons] at hupdate
  by_cases hl : (tasks t).device = l
  · rw [if_pos hl, if_pos hl] at hupdate
    rw [if_pos hl]
    by_cases hdd : d = d'
    · rw [if_pos (beq_iff_eq.mpr hdd)] at hupdate
      rw [if_pos hdd]
      omega
    · rw [if_neg fun h => hdd (beq_iff_eq.mp h)] at hupdate
      rw [if_neg hdd]
      omega
  · rw [if_neg hl, if_neg hl] at hupdate
    rw [if_neg hl]
    exact hupdate

/-- One access more is acquired, -/
theorem held_acquire (hphase : phase t = .acquiring ith) (hd : (tasks t).params[ith]? = some d)
    (hp : (tasks t).acquired p = (tasks t).params.take (ith + 1)) :
    (∀ l, held tasks (Function.update phase t p) d l =
        Function.update (fun l => held tasks phase d l) (tasks t).device
          (held tasks phase d (tasks t).device + 1) l) ∧
      ∀ d' ≠ d, ∀ l, held tasks (Function.update phase t p) d' l = held tasks phase d' l := by
  have hperm : ((tasks t).acquired p).Perm (d :: (tasks t).acquired (phase t)) := by
    rw [hp, hphase, List.take_add_one, hd]
    exact List.perm_append_singleton d _
  have hupdate := held_cons phase hperm
  constructor
  · intro l
    rw [hupdate, if_pos rfl]
    by_cases hl : l = (tasks t).device
    · subst hl
      rw [if_pos rfl, Function.update_self]
    · rw [if_neg (Ne.symm hl), Function.update_of_ne hl, Nat.add_zero]
  · intro d' hd' l
    rw [hupdate, if_neg (Ne.symm hd'), ite_self, Nat.add_zero]

/-- and one less after a release. -/
theorem held_release (hphase : phase t = .releasing ith) (hd : (tasks t).params[ith]? = some d) :
    ∃ k, held tasks phase d (tasks t).device = k + 1 ∧
      (∀ l, held tasks (Function.update phase t (.releasing (ith + 1))) d l =
        Function.update (fun l => held tasks phase d l) (tasks t).device k l) ∧
      ∀ d' ≠ d, ∀ l, held tasks (Function.update phase t (.releasing (ith + 1))) d' l =
        held tasks phase d' l := by
  have hdrop : (tasks t).acquired (phase t) = d :: (tasks t).acquired (.releasing (ith + 1)) := by
    rw [hphase]
    show (tasks t).params.drop ith = d :: (tasks t).params.drop (ith + 1)
    obtain ⟨hlt, hget⟩ := List.getElem?_eq_some_iff.mp hd
    rw [List.drop_eq_getElem_cons hlt, hget]
  -- back from the next phase to this one, the access is held again
  have hupdate : ∀ d' l, held tasks phase d' l =
      held tasks (Function.update phase t (.releasing (ith + 1))) d' l +
        if (tasks t).device = l then if d = d' then 1 else 0 else 0 := by
    intro d' l
    have hback := held_cons (Function.update phase t (.releasing (ith + 1))) (p := phase t)
      (by rw [Function.update_self, hdrop]) d' l
    rwa [Function.update_idem, Function.update_eq_self] at hback
  refine ⟨held tasks (Function.update phase t (.releasing (ith + 1))) d (tasks t).device, ?_, ?_,
    ?_⟩
  · rw [hupdate d, if_pos rfl, if_pos rfl]
  · intro l
    by_cases hl : l = (tasks t).device
    · subst hl
      rw [Function.update_self]
    · rw [Function.update_of_ne hl, hupdate d l, if_neg (Ne.symm hl)]
      exact (Nat.add_zero _).symm
  · intro d' hd' l
    rw [hupdate d' l, if_neg (Ne.symm hd'), ite_self]
    exact (Nat.add_zero _).symm

end

/-! ## Steps -/

section

variable {δ τ : Type*} {n : ℕ} [DecidableEq δ] [Fintype τ] [DecidableEq τ] {address : δ → ℕ}
  {tasks : τ → Task δ n} {s s' : State δ τ n} {m : FindAccess.State n} {d : δ}

omit [DecidableEq τ] in
/-- When one address changes, the pins are right if they are for this address. -/
theorem balanced_iff (h : Balanced tasks s) (hdata : s'.data = Function.update s.data d m)
    (hheld : ∀ d' ≠ d, ∀ l, held tasks s'.phase d' l = held tasks s.phase d' l) :
    Balanced tasks s' ↔ Counts m fun l => held tasks s'.phase d l := by
  unfold Balanced
  rw [hdata]
  constructor
  · intro hbalanced
    have hd := hbalanced d
    rw [Function.update_self] at hd
    exact hd
  · intro hcounts d'
    by_cases hd : d' = d
    · subst hd
      rw [Function.update_self]
      exact hcounts
    · rw [Function.update_of_ne hd, funext (hheld d' hd)]
      exact h d'

/-- A task that goes on without its accesses changing. -/
theorem held_setPhase {t : τ} {p : Phase}
    (h : (tasks t).acquired p = (tasks t).acquired (s.phase t)) :
    held tasks (s.setPhase t p).phase = held tasks s.phase :=
  held_same h

omit [DecidableEq δ] [Fintype τ] [DecidableEq τ] in
/-- The last access is acquired before the body and released after it. -/
theorem acquired_executed {t : τ} (h : s.phase t = .binding (tasks t).params.length) :
    (tasks t).acquired (.releasing 0) = (tasks t).acquired (s.phase t) := by
  rw [h]
  show (tasks t).params.drop 0 = (tasks t).params.take (tasks t).params.length
  rw [List.drop_zero, List.take_length]

omit [DecidableEq τ] in
/-- The first access of a task is counted while its body is executed. -/
theorem held_pos {t : τ} {rest : List δ} (h : s.phase t = .binding (tasks t).params.length)
    (hparams : (tasks t).params = d :: rest) : held tasks s.phase d (tasks t).device ≠ 0 := by
  have hshare : share tasks d (tasks t).device t (s.phase t) ≤
      held tasks s.phase d (tasks t).device :=
    Finset.single_le_sum (f := fun t' => share tasks d (tasks t).device t' (s.phase t'))
      (fun _ _ => Nat.zero_le _) (Finset.mem_univ t)
  have hcount : share tasks d (tasks t).device t (s.phase t) = (d :: rest).count d := by
    unfold share
    rw [if_pos rfl, h]
    show ((tasks t).params.take (tasks t).params.length).count d = _
    rw [List.take_length, hparams]
  rw [hcount, List.count_cons_self] at hshare
  omega

theorem balanced_dsm {a : FindAccess.Action n} (h : Balanced tasks s)
    (hstep : step address tasks s (.dsm d a) = some s') :
    Balanced tasks s' ↔ Released tasks s (.dsm d a) := by
  simp only [step] at hstep
  split at hstep
  next hforeign =>
    obtain ⟨m, hm, rfl⟩ := Option.map_eq_some_iff.mp hstep
    have hiff : Balanced tasks (s.setData d m) ↔ Counts m fun l => held tasks s.phase d l :=
      balanced_iff h rfl fun _ _ _ => rfl
    exact hiff.trans (counts_foreign hforeign hm (h d))
  next => cases hstep

theorem balanced_start {t : τ} (h : Balanced tasks s)
    (hstep : step address tasks s (.start t) = some s') : Balanced tasks s' := by
  simp only [step] at hstep
  split at hstep
  next hphase =>
    cases hstep
    have hheld : held tasks (s.setPhase t (.binding 0)).phase = held tasks s.phase :=
      held_setPhase (by rw [hphase]; rfl)
    unfold Balanced
    rw [hheld]
    exact h
  next => cases hstep

theorem balanced_bind {t : τ} {view : View} (h : Balanced tasks s)
    (hstep : step address tasks s (.bind t view) = some s') : Balanced tasks s' := by
  simp only [step] at hstep
  split at hstep
  next ith hphase =>
    obtain ⟨d, hd, hstep⟩ := Option.bind_eq_some_iff.mp hstep
    obtain ⟨m, hm, rfl⟩ := Option.map_eq_some_iff.mp hstep
    have hm : FindAccess.findaccess (address d) (s.data d) (tasks t).device .data (some view) =
        some m := hm
    have hheld : held tasks (Function.update s.phase t (.acquiring ith)) = held tasks s.phase :=
      held_same (by rw [hphase]; rfl)
    have hiff : Balanced tasks ((s.setData d m).setPhase t (.acquiring ith)) ↔
        Counts m fun l => held tasks (Function.update s.phase t (.acquiring ith)) d l :=
      balanced_iff h rfl fun d' _ l => congrFun (congrFun hheld d') l
    rw [hiff, hheld]
    exact counts_findaccess (h d) hm
  next => cases hstep

/-- An acquire adds the pin of its access, -/
theorem balanced_acquire {t : τ} (h : Balanced tasks s)
    (hstep : step address tasks s (.acquire t) = some s') : Balanced tasks s' := by
  simp only [step] at hstep
  split at hstep
  next ith hphase =>
    obtain ⟨d, hd, hstep⟩ := Option.bind_eq_some_iff.mp hstep
    obtain ⟨m, hm, rfl⟩ := Option.map_eq_some_iff.mp hstep
    have hacquired : (tasks t).acquired
        (if allocated m (tasks t).device = true then .binding (ith + 1) else .allocating ith) =
          (tasks t).params.take (ith + 1) := by
      split
      · rfl
      · rfl
    obtain ⟨hself, hother⟩ := held_acquire hphase hd hacquired
    refine (balanced_iff h rfl hother).mpr ?_
    show Counts m fun l => held tasks (Function.update s.phase t _) d l
    rw [funext hself]
    exact counts_pin (h d) hm
  next => cases hstep

/-- and the block changes no pin. -/
theorem balanced_allocate {t : τ} {block : Block} (h : Balanced tasks s)
    (hstep : step address tasks s (.allocate t block) = some s') : Balanced tasks s' := by
  simp only [step] at hstep
  split at hstep
  next ith hphase =>
    obtain ⟨d, -, hstep⟩ := Option.bind_eq_some_iff.mp hstep
    obtain ⟨m, hm, rfl⟩ := Option.map_eq_some_iff.mp hstep
    have hheld : held tasks (Function.update s.phase t (.binding (ith + 1))) =
        held tasks s.phase := held_same (by rw [hphase]; rfl)
    refine (balanced_iff h rfl fun d' _ l => congrFun (congrFun hheld d') l).mpr ?_
    show Counts m fun l => held tasks (Function.update s.phase t (.binding (ith + 1))) d l
    rw [hheld]
    exact counts_allocate (h d) hm
  next => cases hstep

/-- A body keeps the pins right unless it invalidates the replica of its own access. -/
theorem balanced_execute {t : τ} (h : Balanced tasks s)
    (hstep : step address tasks s (.execute t) = some s') :
    Balanced tasks s' ↔ Released tasks s (.execute t) := by
  simp only [step] at hstep
  split at hstep
  next hphase =>
    have hheld : held tasks (Function.update s.phase t (.releasing 0)) = held tasks s.phase :=
      held_same (acquired_executed hphase)
    split at hstep
    next hparams =>
      cases hstep
      refine iff_of_true ?_ fun _ hne => absurd hparams hne
      show ∀ d, Counts (s.data d) fun l => held tasks (Function.update s.phase t (.releasing 0)) d l
      rw [hheld]
      exact h
    next d rest hparams =>
      obtain ⟨m, hm, rfl⟩ := Option.map_eq_some_iff.mp hstep
      have hiff : Balanced tasks ((s.setData d m).setPhase t (.releasing 0)) ↔
          Counts m fun l => held tasks (Function.update s.phase t (.releasing 0)) d l :=
        balanced_iff h rfl fun d' _ l => congrFun (congrFun hheld d') l
      rw [hiff, hheld]
      have hquiet : (tasks t).kind ≠ .invalidate → m = s.data d →
          (Counts m (fun l => held tasks s.phase d l) ↔ Released tasks s (.execute t)) := by
        intro hkind hsame
        rw [hsame]
        exact iff_of_true (h d) fun hinvalidate => absurd hinvalidate hkind
      cases hkind : (tasks t).kind with
      | compute =>
          rw [hkind] at hm
          exact hquiet (by rw [hkind]; nofun) (Option.some.inj hm).symm
      | writeback =>
          rw [hkind] at hm
          exact hquiet (by rw [hkind]; nofun) (Option.some.inj hm).symm
      | distribute =>
          rw [hkind] at hm
          exact hquiet (by rw [hkind]; nofun) (Option.some.inj hm).symm
      | invalidate =>
          rw [hkind] at hm
          have hm : (s.data d).invalidateBloc (tasks t).device Replica.linked = some m := hm
          have hcondition : Released tasks s (.execute t) ↔ (tasks t).device = host :=
            ⟨fun hreleased => hreleased hkind (by rw [hparams]; nofun), fun hhost _ _ => hhost⟩
          rw [hcondition]
          by_cases hhost : (tasks t).device = host
          · refine iff_of_true ?_ hhost
            rw [invalidateBloc_host hhost hm]
            exact h d
          · rw [counts_invalidateBloc (h d) hhost hm]
            exact iff_of_false (held_pos hphase hparams) hhost
  next => cases hstep

/-- A release takes the pin of its access. -/
theorem balanced_release {t : τ} (h : Balanced tasks s)
    (hstep : step address tasks s (.release t) = some s') : Balanced tasks s' := by
  simp only [step] at hstep
  split at hstep
  next ith hphase =>
    obtain ⟨d, hd, hstep⟩ := Option.bind_eq_some_iff.mp hstep
    obtain ⟨m, hm, rfl⟩ := Option.map_eq_some_iff.mp hstep
    obtain ⟨k, hk, hself, hother⟩ := held_release hphase hd
    have hiff : Balanced tasks ((s.setData d m).setPhase t (.releasing (ith + 1))) ↔
        Counts m fun l => held tasks (Function.update s.phase t (.releasing (ith + 1))) d l :=
      balanced_iff h rfl hother
    rw [hiff, funext hself]
    exact counts_unpin (h d) hk hm
  next => cases hstep

/-- A step keeps the pins right exactly when it meets the condition. -/
theorem balanced_step (h : Balanced tasks s) {a : Action δ τ n}
    (hstep : step address tasks s a = some s') : Balanced tasks s' ↔ Released tasks s a := by
  cases a with
  | dsm d a => exact balanced_dsm h hstep
  | start t => exact iff_of_true (balanced_start h hstep) trivial
  | bind t view => exact iff_of_true (balanced_bind h hstep) trivial
  | acquire t => exact iff_of_true (balanced_acquire h hstep) trivial
  | allocate t block => exact iff_of_true (balanced_allocate h hstep) trivial
  | execute t => exact balanced_execute h hstep
  | release t => exact iff_of_true (balanced_release h hstep) trivial

/-! ## Runs -/

omit [DecidableEq τ] in
theorem balanced_initial (h : Initial s) : Balanced tasks s := by
  intro d l
  unfold CountsAt
  rw [(h.data d).mdi]
  show held tasks s.phase d l = 0
  refine Finset.sum_eq_zero fun t _ => ?_
  rw [h.phase t]
  exact ite_self 0

theorem ReachableWhen.balanced (h : (system address tasks).ReachableWhen (Released tasks) s) :
    Balanced tasks s :=
  h.invariant (fun _ => balanced_initial)
    fun _ _ _ hbalanced hreleased hstep => (balanced_step hbalanced hstep).mpr hreleased

omit [DecidableEq τ] in
/-- A number of accesses is not negative. -/
theorem Balanced.nonnegative (h : Balanced tasks s) : Nonnegative s := by
  intro d m l r hm hr
  rw [(countsAt_some hm hr).mp (h d l)]
  omega

omit [DecidableEq τ] in
/-- When all tasks are through, no access is acquired. -/
theorem held_completed (h : ∀ t, s.phase t = .releasing (tasks t).params.length) (d : δ)
    (l : Lid n) : held tasks s.phase d l = 0 := by
  refine Finset.sum_eq_zero fun t _ => ?_
  rw [h t]
  show (if _ then ((tasks t).params.drop (tasks t).params.length).count d else 0) = 0
  rw [List.drop_length, List.count_nil, ite_self]

omit [DecidableEq τ] in
theorem Balanced.unpinned (h : Balanced tasks s) : Unpinned tasks s := by
  intro hcompleted d m l r hm hr hl
  have hpin : r.pinned = (held tasks s.phase d l : ℤ) + (applicationPin l r : ℕ) :=
    (countsAt_some hm hr).mp (h d l)
  rw [hpin, held_completed hcompleted, applicationPin_of_ne hl]
  rfl

/-- When no task invalidates its own replica on a device and no acquired replica is invalidated, the
pins of every replica are those of the accesses and of the
application. They are not negative, and they are 0 on the devices at the end. The first step that
does not meet the condition leaves a wrong pin. -/
theorem pins_balanced (h : (system address tasks).ReachableWhen (Released tasks) s) :
    Balanced tasks s ∧ Nonnegative s ∧ Unpinned tasks s ∧
      ∀ a s', step address tasks s a = some s' → (Balanced tasks s' ↔ Released tasks s a) :=
  have hbalanced := ReachableWhen.balanced h
  ⟨hbalanced, hbalanced.nonnegative, hbalanced.unpinned, fun _ _ => balanced_step hbalanced⟩

end

/-- One task of the first device with one access. -/
def oneAccess (kind : Kind) (_ : Fin 1) : Task Unit 1 :=
  ⟨kind, 1, [()]⟩

/-- No metadata yet. -/
def nothingKnown : State Unit (Fin 1) 1 :=
  ⟨fun _ => ⟨none, fun _ => []⟩, fun _ => .ready⟩

theorem initial_nothingKnown : Initial nothingKnown :=
  ⟨fun _ => ⟨rfl, fun _ => rfl⟩, fun _ => rfl⟩

/-- Eight bytes of the application. -/
def eightBytes : View :=
  ⟨0, 1, 1, 1, 8, .view2D, .colMajor⟩

/-- A compute task. It has one pin on its device until it is released. -/
theorem pins_balanced_compute :
    ∃ s : State Unit (Fin 1) 1, (∀ t, s.phase t = .releasing 1) ∧
      (∃ m r, (s.data ()).mdi = some m ∧ m.replicas 1 = some r ∧ r.pinned = 0) ∧
        Balanced (oneAccess .compute) s ∧ Unpinned (oneAccess .compute) s := by
  let next := step (fun _ => 8) (oneAccess .compute)
  let s₁ := (next nothingKnown (.start 0)).get (by decide)
  let s₂ := (next s₁ (.bind 0 eightBytes)).get (by decide)
  let s₃ := (next s₂ (.acquire 0)).get (by decide)
  let s₄ := (next s₃ (.allocate 0 ⟨16, 8⟩)).get (by decide)
  let s₅ := (next s₄ (.execute 0)).get (by decide)
  let s₆ := (next s₅ (.release 0)).get (by decide)
  let sys := system (fun _ : Unit => 8) (oneAccess .compute)
  have hs₁ : sys.ReachableWhen (Released (oneAccess .compute)) s₁ :=
    .next (a := .start 0) (.start initial_nothingKnown) trivial (Option.some_get _).symm
  have hs₂ : sys.ReachableWhen (Released (oneAccess .compute)) s₂ :=
    .next (a := .bind 0 eightBytes) hs₁ trivial (Option.some_get _).symm
  have hs₃ : sys.ReachableWhen (Released (oneAccess .compute)) s₃ :=
    .next (a := .acquire 0) hs₂ trivial (Option.some_get _).symm
  have hs₄ : sys.ReachableWhen (Released (oneAccess .compute)) s₄ :=
    .next (a := .allocate 0 ⟨16, 8⟩) hs₃ trivial (Option.some_get _).symm
  have hs₅ : sys.ReachableWhen (Released (oneAccess .compute)) s₅ :=
    .next (a := .execute 0) hs₄ nofun (Option.some_get _).symm
  have hs₆ : sys.ReachableWhen (Released (oneAccess .compute)) s₆ :=
    .next (a := .release 0) hs₅ trivial (Option.some_get _).symm
  have hbalanced := pins_balanced hs₆
  exact ⟨s₆, by decide, ⟨_, _, rfl, rfl, rfl⟩, hbalanced.1, hbalanced.2.2.1⟩

/-- A task that invalidates its own replica makes the pin negative. -/
theorem not_pins_balanced :
    ∃ s : State Unit (Fin 1) 1,
      (system (fun _ => 8) (oneAccess .invalidate)).Reachable s ∧
        ¬ Balanced (oneAccess .invalidate) s ∧ ¬ Nonnegative s ∧
          ¬ Unpinned (oneAccess .invalidate) s := by
  let trace : List (Action Unit (Fin 1) 1) :=
    [.start 0, .bind 0 eightBytes, .acquire 0, .allocate 0 ⟨16, 8⟩, .execute 0, .release 0]
  let s := ((system (fun _ => 8) (oneAccess .invalidate)).run nothingKnown trace).get (by decide)
  have hrun : (system (fun _ => 8) (oneAccess .invalidate)).run nothingKnown trace = some s :=
    (Option.some_get _).symm
  -- The body has set the pin to 0 when the release comes.
  have hnonnegative : ¬ Nonnegative s := by
    intro hnonnegative
    have hpin : (0 : ℤ) ≤ -1 := hnonnegative () _ 1 _ rfl rfl
    exact absurd hpin (by decide)
  refine ⟨s, .replay (.start initial_nothingKnown) hrun,
    fun hbalanced => hnonnegative hbalanced.nonnegative, hnonnegative, fun hunpinned => ?_⟩
  have hpin : (-1 : ℤ) = 0 := hunpinned (by decide) () _ 1 _ rfl rfl (by decide)
  exact absurd hpin (by decide)

end Xkblas.Memory.PinCount
