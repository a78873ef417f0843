import Xkblas.Sched.OwnerQueueSafety
import Xkblas.Sched.SyncQueue

/-!
# A sync leaves no ready task

The pop of a sync ends at the first priority that it finds at its limit. While this priority hides
no task of a lower one, the other end of a pop is an empty queue: a priority is skipped only after
its bit was cleared, and the bit is cleared under the lock when `H` has reached `T`. Behind the loop
`T` may be smaller than `H`; the invariant is then about the queue with `T` raised to `H`, which the
thieves cannot tell from the real one.
-/

namespace Xkblas.Sched.SyncQueue

open Library OwnerQueue

variable {κ Task : Type} {prio : Task → Prio} {q q' : OwnerQueue.State κ Task} {T0 : Prio → ℤ}

/-! ## What a step of the queue moves -/

/-- The program points at which the thread is not in a pop. -/
def Pushing : OwnerPc Task → Prop
  | .idle | .push _ | .grow .. | .growLock .. | .growSet .. | .growUnlock .. | .growFree ..
  | .store .. | .setBit .. | .setT .. => True
  | _ => False

/-- Nothing is given back to a queue, and the cells below `T` stay. -/
structure Advance (q q' : OwnerQueue.State κ Task) : Prop where
  head : ∀ p, q.lock.head q.rd.H p ≤ q'.lock.head q'.rd.H p
  queued : ∀ p i, i < q.rd.T p → q'.queued p i = q.queued p i

theorem Advance.refl (q : OwnerQueue.State κ Task) : Advance q q where
  head _ := le_rfl
  queued _ _ _ := rfl

/-- A step of a thief changes no cell. -/
theorem thiefStep_queued (u : κ) (pc : ThiefPc Task) (p : Prio) (i : ℤ) :
    (OwnerQueue.thiefStep q u pc).queued p i = q.queued p i := by
  cases pc with
  | readBitmap | readT | restoreH => rfl
  | redo bitmap =>
      simp only [OwnerQueue.thiefStep]
      split <;> rfl
  | read bitmap r H0 =>
      simp only [OwnerQueue.thiefStep]
      split <;> rfl
  | unlock task =>
      cases task with
      | none | some => rfl

/-- A thief moves the first index that is not taken forward, or not at all. -/
theorem thiefStep_head {u : κ} {pc : ThiefPc Task} (hthief : ThiefAt q q.lock)
    (hlock : q.lock = .thief u pc) (p : Prio) :
    q.lock.head q.rd.H p ≤ (OwnerQueue.thiefStep q u pc).lock.head
      (OwnerQueue.thiefStep q u pc).rd.H p := by
  rw [hlock] at hthief ⊢
  cases pc with
  | readBitmap => exact le_rfl
  | redo bitmap =>
      simp only [OwnerQueue.thiefStep]
      cases highest bitmap with
      | none => exact le_rfl
      | some r =>
          show q.rd.H p ≤ Function.update (Function.update q.rd.H r (q.rd.H r + 1)) r (q.rd.H r) p
          rw [Function.update_idem, Function.update_eq_self]
  | readT bitmap r H0 =>
      have hH : q.rd.H r = H0 + 1 := hthief
      simp only [OwnerQueue.thiefStep]
      split
      · exact le_rfl
      · show Function.update q.rd.H r H0 p ≤ q.rd.H p
        by_cases hp : p = r
        · rw [hp, Function.update_self, hH]
          exact (Int.lt_succ H0).le
        · rw [Function.update_of_ne hp]
  | restoreH bitmap r H0 => exact le_rfl
  | read bitmap r H0 =>
      simp only [OwnerQueue.thiefStep]
      split <;> exact le_rfl
  | unlock task =>
      cases task with
      | none | some => exact le_rfl

theorem thiefStep_rd (u : κ) (pc : ThiefPc Task) :
    (OwnerQueue.thiefStep q u pc).rd.T = q.rd.T ∧
      (OwnerQueue.thiefStep q u pc).rd.bitmap = q.rd.bitmap ∧
        (OwnerQueue.thiefStep q u pc).owner = q.owner := by
  cases pc with
  | readBitmap | readT | restoreH => exact ⟨rfl, rfl, rfl⟩
  | redo bitmap =>
      simp only [OwnerQueue.thiefStep]
      split <;> exact ⟨rfl, rfl, rfl⟩
  | read bitmap r H0 =>
      simp only [OwnerQueue.thiefStep]
      split <;> exact ⟨rfl, rfl, rfl⟩
  | unlock task =>
      cases task with
      | none | some => exact ⟨rfl, rfl, rfl⟩

variable [DecidableEq Task]

/-- The thread gives nothing back either, and it writes at `T` only. -/
theorem ownerStep_advance (h : OwnerQueue.Inv prio q)
    (hstep : OwnerQueue.ownerStep prio q = some q') : Advance q q' := by
  have howner := h.owner
  have hlocked := h.locked
  cases hpc : q.owner with
  | idle =>
      simp only [OwnerQueue.ownerStep, hpc] at hstep
      cases hstep
  | grow task T =>
      simp only [OwnerQueue.ownerStep, hpc] at hstep
      cases hstep
      refine { head := fun _ => le_rfl, queued := fun p i _ => ?_ }
      refine State.load_congr (fun a ha => ?_) (fun a ha => ?_) i
      · exact Function.update_of_ne (h.arrays.extent p a ha).2.ne _ _
      · exact Function.update_of_ne (h.arrays.extent p a ha).2.ne _ _
  | growSet task T newsize data todel =>
      simp only [OwnerQueue.ownerStep, hpc] at hstep
      cases hstep
      rw [hpc] at howner
      have hgrown : Grown prio q task T newsize data todel := howner
      refine { head := fun _ => le_rfl, queued := fun p i _ => ?_ }
      by_cases hp : p = prio task
      · subst hp
        rw [← hgrown.copied]
        show q.load (Function.update q.rd.data (prio task) (some data) (prio task)) i = _
        rw [Function.update_self]
      · show q.load (Function.update q.rd.data (prio task) (some data) p) i = _
        rw [Function.update_of_ne hp]
        rfl
  | growFree task T todel =>
      simp only [OwnerQueue.ownerStep, hpc] at hstep
      cases hstep
      rw [hpc] at howner
      obtain ⟨_, rfl⟩ := howner
      exact ⟨fun _ => le_rfl, fun _ _ _ => rfl⟩
  | store task T =>
      simp only [OwnerQueue.ownerStep, hpc] at hstep
      cases hstep
      rw [hpc] at howner
      obtain ⟨hT, hroom⟩ : Room prio q task T := howner
      have htail := h.le (prio task)
      rw [hpc] at htail
      have hin : q.Inside (q.rd.data (prio task)) T :=
        h.arrays.inside_iff.mpr ⟨(h.low _).trans (htail.trans_eq hT), hroom⟩
      refine { head := fun _ => le_rfl, queued := fun p i hi => ?_ }
      show ((q.touch _ T).write _ T task).queued p i = q.queued p i
      rw [State.touch_eq_self hin, h.arrays.queued_write hin]
      refine if_neg fun hat => ?_
      obtain ⟨rfl, rfl⟩ := hat
      exact absurd hT (ne_of_gt hi)
  | readBitmap T0 =>
      simp only [OwnerQueue.ownerStep, hpc] at hstep
      split at hstep <;> cases hstep <;> exact ⟨fun _ => le_rfl, fun _ _ _ => rfl⟩
  | decT T0 p =>
      simp only [OwnerQueue.ownerStep, hpc] at hstep
      split at hstep <;> cases hstep <;> exact ⟨fun _ => le_rfl, fun _ _ _ => rfl⟩
  | growLock | lock =>
      simp only [OwnerQueue.ownerStep, hpc] at hstep
      split at hstep
      case h_1 hlock =>
        cases hstep
        refine { head := fun p => ?_, queued := fun _ _ _ => rfl }
        rw [hlock]
        exact le_rfl
      case h_2 => cases hstep
  | growUnlock | unlock =>
      simp only [OwnerQueue.ownerStep, hpc] at hstep
      cases hstep
      rw [hpc] at hlocked
      refine { head := fun p => ?_, queued := fun _ _ _ => rfl }
      rw [hlocked.mp trivial]
      exact le_rfl
  | out T0 p task =>
      cases task with
      | none | some =>
          simp only [OwnerQueue.ownerStep, hpc] at hstep
          cases hstep
          exact ⟨fun _ => le_rfl, fun _ _ _ => rfl⟩
  | _ =>
      simp only [OwnerQueue.ownerStep, hpc] at hstep
      cases hstep
      exact ⟨fun _ => le_rfl, fun _ _ _ => rfl⟩

/-! ## A pop with limits -/

omit [DecidableEq Task] in
theorem first_mono (hhead : ∀ p, q.lock.head q.rd.H p ≤ q'.lock.head q'.rd.H p) (p : Prio) :
    first q T0 p ≤ first q' T0 p :=
  max_le_max (hhead p) le_rfl

omit [DecidableEq Task] in
/-- A step that takes no task and sets no bit hides no task. -/
theorem Clear.congr (h : Clear q T0) (htail : q'.owner.tail q'.rd.T = q.owner.tail q.rd.T)
    (hhead : ∀ p, q.lock.head q.rd.H p ≤ q'.lock.head q'.rd.H p)
    (hbitmap : ∀ p, q'.rd.bitmap p = true → q.rd.bitmap p = true) : Clear q' T0 := by
  intro r p hlt hbit hat
  rw [htail] at hat ⊢
  exact (h r p hlt (hbitmap p hbit) hat).trans (first_mono hhead r)

/-- What holds at a program point of a pop with the limits `T0`. Until the thread has tested `H` no
task is hidden, and the test is made above the limit only. -/
def PopAt (T0 : Prio → ℤ) (q : OwnerQueue.State κ Task) : OwnerPc Task → Prop
  | .idle => True
  | .readBitmap L => L = some T0 ∧ Clear q T0
  | .decT L p => L = some T0 ∧ Clear q T0 ∧ highest q.rd.bitmap = some p
  | .testH L _ _ | .rollBack L _ _ | .testLocked L _ _ | .restore L _ _ => L = some T0 ∧ Clear q T0
  | .lock L p | .decLocked L p => L = some T0 ∧ Clear q T0 ∧ T0 p < q.rd.T p
  | .readLocked L _ _ | .read L _ _ => L = some T0
  | .unlock L _ task | .out L _ task => L = some T0 ∧ (task = none → Clear q T0)
  | _ => False

omit [DecidableEq Task] in
/-- A step of a thief keeps it. -/
theorem PopAt.congr {pc : OwnerPc Task} (h : PopAt T0 q pc) (hT : q'.rd.T = q.rd.T)
    (hbitmap : q'.rd.bitmap = q.rd.bitmap) (howner : q'.owner = q.owner)
    (hhead : ∀ p, q.lock.head q.rd.H p ≤ q'.lock.head q'.rd.H p) : PopAt T0 q' pc := by
  have hclear : Clear q T0 → Clear q' T0 := fun hclear =>
    hclear.congr (by rw [howner, hT]) hhead fun p hbit => by rwa [← hbitmap]
  cases pc with
  | idle => trivial
  | readBitmap L | testH L p T | rollBack L p T | testLocked L p T | restore L p T =>
      exact ⟨h.1, hclear h.2⟩
  | decT L p =>
      refine ⟨h.1, hclear h.2.1, ?_⟩
      rw [hbitmap]
      exact h.2.2
  | lock L p | decLocked L p =>
      refine ⟨h.1, hclear h.2.1, ?_⟩
      rw [hT]
      exact h.2.2
  | readLocked L p T | read L p T => exact h
  | unlock L p task | out L p task => exact ⟨h.1, fun hnone => hclear (h.2 hnone)⟩
  | _ => exact h

/-- The priority at which a pop looks is the highest one with a bit. -/
theorem highest_eq_some {bitmap : Prio → Bool} {p : Prio} (h : highest bitmap = some p) :
    bitmap p = true ∧ ∀ r, p < r → bitmap r = false := by
  obtain ⟨hp, before, after, heq, hbefore⟩ := List.find?_eq_some_iff_append.mp h
  refine ⟨hp, fun r hlt => ?_⟩
  have hsorted : (before ++ p :: after).Pairwise fun a b => b < a := by
    rw [← heq, List.pairwise_reverse]
    exact List.pairwise_lt_finRange _
  have hmem : r ∈ before ++ p :: after := by
    rw [← heq]
    exact List.mem_reverse.mpr (List.mem_finRange r)
  rcases List.mem_append.mp hmem with hr | hr
  · exact Bool.not_eq_true' _ ▸ hbefore r hr
  · rcases List.mem_cons.mp hr with rfl | hr
    · exact absurd hlt (lt_irrefl _)
    · exact absurd hlt (not_lt.mpr ((List.pairwise_cons.mp
        (List.pairwise_append.mp hsorted).2.1).1 r hr).le)

theorem highest_eq_none {bitmap : Prio → Bool} (h : highest bitmap = none) (p : Prio) :
    bitmap p = false := by
  have hall := List.find?_eq_none.mp h p (List.mem_reverse.mpr (List.mem_finRange p))
  exact Bool.eq_false_iff.mpr hall

/-- A priority without a bit has no task. -/
theorem tail_le_first (T0 : Prio → ℤ) (h : OwnerQueue.Inv prio q) {p : Prio}
    (hbit : q.rd.bitmap p = false) :
    q.owner.tail q.rd.T p ≤ first q T0 p := by
  refine le_trans ?_ (le_max_left _ _)
  by_contra hlt
  rw [h.sound.found p (not_le.mp hlt)] at hbit
  cases hbit

/-- A step of a pop respects the limits. -/
theorem PopAt.step (h : OwnerQueue.Inv prio q) (hpop : PopAt T0 q q.owner)
    (hle : ∀ p, T0 p ≤ q.rd.T p)
    (hstep : OwnerQueue.ownerStep prio q = some q') :
    PopAt T0 q' q'.owner ∧ ∀ p, T0 p ≤ q'.rd.T p := by
  have howner := h.owner
  cases hpc : q.owner with
  | readBitmap L =>
      rw [hpc] at hpop
      obtain ⟨rfl, hclear⟩ := hpop
      simp only [OwnerQueue.ownerStep, hpc] at hstep
      split at hstep
      case h_1 =>
        cases hstep
        exact ⟨trivial, hle⟩
      case h_2 p hp =>
        cases hstep
        refine ⟨⟨rfl, hclear.congr ?_ (fun _ => le_rfl) fun _ hb => hb, hp⟩, hle⟩
        rw [hpc]
        rfl
  | decT L p =>
      rw [hpc] at hpop
      obtain ⟨rfl, hclear, hp⟩ := hpop
      simp only [OwnerQueue.ownerStep, hpc] at hstep
      split at hstep
      case isTrue =>
        cases hstep
        exact ⟨trivial, hle⟩
      case isFalse hne =>
        cases hstep
        have hlt : T0 p < q.rd.T p :=
          lt_of_le_of_ne (hle p) fun heq => hne (congrArg some heq)
        refine ⟨⟨rfl, hclear.congr ?_ (fun _ => le_rfl) fun _ hb => hb⟩,
          le_update_iff.mpr ⟨Int.le_sub_one_of_lt hlt, fun r _ => hle r⟩⟩
        show Function.update (Function.update q.rd.T p _) p (q.rd.T p - 1 + 1) = _
        rw [Function.update_idem, Int.sub_add_cancel, Function.update_eq_self, hpc]
        rfl
  | testH L p T =>
      rw [hpc] at hpop
      obtain ⟨rfl, hclear⟩ := hpop
      simp only [OwnerQueue.ownerStep, hpc] at hstep
      cases hstep
      refine ⟨?_, hle⟩
      by_cases hH : q.rd.H p ≤ T
      · simp only [if_pos hH]
        rfl
      · simp only [if_neg hH]
        refine ⟨rfl, hclear.congr ?_ (fun _ => le_rfl) fun _ hb => hb⟩
        rw [hpc]
        rfl
  | rollBack L p T =>
      rw [hpc] at hpop howner
      obtain ⟨rfl, hclear⟩ := hpop
      have hT : q.rd.T p = T := howner
      simp only [OwnerQueue.ownerStep, hpc] at hstep
      cases hstep
      have hlt : T0 p < T + 1 := Int.lt_add_one_of_le ((hle p).trans_eq hT)
      refine ⟨⟨rfl, hclear.congr ?_ (fun _ => le_rfl) fun _ hb => hb, ?_⟩,
        le_update_iff.mpr ⟨hlt.le, fun r _ => hle r⟩⟩
      · rw [hpc]
        rfl
      · show T0 p < Function.update q.rd.T p (T + 1) p
        rw [Function.update_self]
        exact hlt
  | lock L p =>
      rw [hpc] at hpop
      obtain ⟨rfl, hclear, hlt⟩ := hpop
      simp only [OwnerQueue.ownerStep, hpc] at hstep
      split at hstep
      case h_1 hlock =>
        cases hstep
        refine ⟨⟨rfl, hclear.congr ?_ (fun _ => ?_) fun _ hb => hb, hlt⟩, hle⟩
        · rw [hpc]
          rfl
        · rw [hlock]
          exact le_rfl
      case h_2 => cases hstep
  | decLocked L p =>
      rw [hpc] at hpop
      obtain ⟨rfl, hclear, hlt⟩ := hpop
      simp only [OwnerQueue.ownerStep, hpc] at hstep
      cases hstep
      refine ⟨⟨rfl, hclear.congr ?_ (fun _ => le_rfl) fun _ hb => hb⟩,
        le_update_iff.mpr ⟨Int.le_sub_one_of_lt hlt, fun r _ => hle r⟩⟩
      show Function.update (Function.update q.rd.T p _) p (q.rd.T p - 1 + 1) = _
      rw [Function.update_idem, Int.sub_add_cancel, Function.update_eq_self, hpc]
      rfl
  | testLocked L p T =>
      rw [hpc] at hpop
      obtain ⟨rfl, hclear⟩ := hpop
      simp only [OwnerQueue.ownerStep, hpc] at hstep
      cases hstep
      refine ⟨?_, hle⟩
      by_cases hH : q.rd.H p ≤ T
      · simp only [if_pos hH]
        rfl
      · simp only [if_neg hH]
        refine ⟨rfl, hclear.congr ?_ (fun _ => le_rfl) fun _ hb => hb⟩
        rw [hpc]
        rfl
  | readLocked L p T =>
      rw [hpc] at hpop howner
      simp only [OwnerQueue.ownerStep, hpc] at hstep
      cases hstep
      obtain ⟨_, hfilled⟩ : q.Filled p T := howner
      exact ⟨⟨hpop, fun hnone => absurd hnone hfilled⟩, hle⟩
  | restore L p T =>
      rw [hpc] at hpop howner
      obtain ⟨rfl, hclear⟩ := hpop
      obtain ⟨hT, _⟩ := howner
      simp only [OwnerQueue.ownerStep, hpc] at hstep
      cases hstep
      have hmore : T0 p ≤ T + 1 := (hle p).trans (hT ▸ (Int.lt_succ _).le)
      refine ⟨⟨rfl, fun _ => hclear.congr ?_ (fun _ => le_rfl) fun _ hb => hb⟩,
        le_update_iff.mpr ⟨hmore, fun r _ => hle r⟩⟩
      rw [hpc]
      rfl
  | unlock L p task =>
      have hlocked := h.locked
      rw [hpc] at hpop hlocked
      obtain ⟨rfl, hclear⟩ := hpop
      simp only [OwnerQueue.ownerStep, hpc] at hstep
      cases hstep
      refine ⟨⟨rfl, fun hnone => (hclear hnone).congr ?_ (fun _ => ?_) fun _ hb => hb⟩, hle⟩
      · rw [hpc]
        rfl
      · rw [hlocked.mp trivial]
        exact le_rfl
  | read L p T =>
      rw [hpc] at hpop howner
      simp only [OwnerQueue.ownerStep, hpc] at hstep
      cases hstep
      obtain ⟨_, hfilled⟩ : q.Filled p T := howner
      exact ⟨⟨hpop, fun hnone => absurd hnone hfilled⟩, hle⟩
  | out L p task =>
      rw [hpc] at hpop
      obtain ⟨rfl, hclear⟩ := hpop
      cases task with
      | some task =>
          simp only [OwnerQueue.ownerStep, hpc] at hstep
          cases hstep
          exact ⟨trivial, hle⟩
      | none =>
          simp only [OwnerQueue.ownerStep, hpc] at hstep
          cases hstep
          refine ⟨⟨rfl, (hclear rfl).congr ?_ (fun _ => le_rfl) fun r hr => ?_⟩, hle⟩
          · rw [hpc]
            rfl
          · have hr : Function.update q.rd.bitmap p false r = true := hr
            by_cases hp : r = p
            · rw [hp, Function.update_self] at hr
              cases hr
            · rwa [Function.update_of_ne hp] at hr
  | _ =>
      rw [hpc] at hpop
      simp only [OwnerQueue.ownerStep, hpc] at hstep
      first
        | exact hpop.elim
        | cases hstep

/-- A pop that returns no task has left none at or above its limits. -/
theorem PopAt.none_left (h : OwnerQueue.Inv prio q) (hpop : PopAt T0 q q.owner)
    (hstep : OwnerQueue.ownerStep prio q = some q') (hidle : q'.owner = .idle)
    (hnone : popResult q.owner = none) (p : Prio) : q'.rd.T p ≤ first q' T0 p := by
  cases hpc : q.owner with
  | readBitmap L =>
      simp only [OwnerQueue.ownerStep, hpc] at hstep
      split at hstep
      case h_1 htop =>
        cases hstep
        have hle := tail_le_first T0 h (highest_eq_none htop p)
        rw [hpc] at hle
        exact hle
      case h_2 =>
        cases hstep
        cases hidle
  | decT L r =>
      rw [hpc] at hpop
      obtain ⟨rfl, hclear, htop⟩ := hpop
      simp only [OwnerQueue.ownerStep, hpc] at hstep
      split at hstep
      case isTrue hlimit =>
        cases hstep
        obtain ⟨hbit, hhigher⟩ := highest_eq_some htop
        have hT : T0 r = q.rd.T r := Option.some.inj hlimit
        -- the priority at its limit, those below it, and those above it
        rcases lt_trichotomy p r with hlt | rfl | hgt
        · have hle := hclear p r hlt hbit
          rw [hpc] at hle
          exact hle hT.symm
        · exact hT.ge.trans (le_max_right _ _)
        · have hle := tail_le_first T0 h (hhigher p hgt)
          rw [hpc] at hle
          exact hle
      case isFalse =>
        cases hstep
        cases hidle
  | lock L r =>
      simp only [OwnerQueue.ownerStep, hpc] at hstep
      split at hstep <;> cases hstep
      cases hidle
  | testH L r T | testLocked L r T =>
      simp only [OwnerQueue.ownerStep, hpc] at hstep
      cases hstep
      simp only at hidle
      split at hidle <;> cases hidle
  | out L r task =>
      cases task with
      | some task =>
          rw [hpc] at hnone
          cases hnone
      | none =>
          simp only [OwnerQueue.ownerStep, hpc] at hstep
          cases hstep
          cases hidle
  | rollBack | decLocked | readLocked | restore | unlock | read =>
      simp only [OwnerQueue.ownerStep, hpc] at hstep
      cases hstep
      cases hidle
  | idle =>
      simp only [OwnerQueue.ownerStep, hpc] at hstep
      cases hstep
  | _ =>
      rw [hpc] at hpop
      exact hpop.elim

/-! ## Pushes and thieves -/

/-- A push does not move `T` back, and it ends outside of a pop. -/
theorem Pushing.step (hpush : Pushing q.owner)
    (hstep : OwnerQueue.ownerStep prio q = some q') (h : OwnerQueue.Inv prio q) :
    Pushing q'.owner ∧ ∀ p, q.rd.T p ≤ q'.rd.T p := by
  have howner := h.owner
  cases hpc : q.owner with
  | idle =>
      simp only [OwnerQueue.ownerStep, hpc] at hstep
      cases hstep
  | push task =>
      simp only [OwnerQueue.ownerStep, hpc] at hstep
      cases hstep
      refine ⟨?_, fun _ => le_rfl⟩
      by_cases hfull : q.rd.T (prio task) = q.rd.size (prio task)
      · simp only [if_pos hfull]
        trivial
      · simp only [if_neg hfull]
        trivial
  | growLock =>
      simp only [OwnerQueue.ownerStep, hpc] at hstep
      split at hstep <;> cases hstep
      exact ⟨trivial, fun _ => le_rfl⟩
  | setT task T =>
      rw [hpc] at howner
      obtain ⟨⟨hT, _⟩, _⟩ := howner
      simp only [OwnerQueue.ownerStep, hpc] at hstep
      cases hstep
      refine ⟨trivial, fun p => ?_⟩
      show q.rd.T p ≤ Function.update q.rd.T (prio task) (T + 1) p
      by_cases hp : p = prio task
      · rw [hp, Function.update_self, hT]
        exact (Int.lt_succ T).le
      · rw [Function.update_of_ne hp]
  | grow | growSet | growUnlock | growFree | store | setBit =>
      simp only [OwnerQueue.ownerStep, hpc] at hstep
      cases hstep
      exact ⟨trivial, fun _ => le_rfl⟩
  | _ =>
      rw [hpc] at hpush
      exact hpush.elim

/-- The queue with `T` raised to the first index that is not taken. -/
def lifted (q : OwnerQueue.State κ Task) : OwnerQueue.State κ Task :=
  { q with rd := { q.rd with T := fun p => max (q.rd.T p) (q.lock.head q.rd.H p) } }

omit [DecidableEq Task] in
/-- Where no index behind `T` is taken the queue is raised to itself. -/
theorem lifted_eq_self (h : ∀ p, q.lock.head q.rd.H p ≤ q.rd.T p) : lifted q = q := by
  have hT : (fun p => max (q.rd.T p) (q.lock.head q.rd.H p)) = q.rd.T :=
    funext fun p => max_eq_left (h p)
  unfold lifted
  rw [hT]

omit [DecidableEq Task] in
/-- A thief does not see the difference: it stops at `T` when it has reached it. -/
theorem lifted_thiefStep {u : κ} {pc : ThiefPc Task} (hthief : ThiefAt q q.lock)
    (hlock : q.lock = .thief u pc) :
    OwnerQueue.thiefStep (lifted q) u pc = lifted (OwnerQueue.thiefStep q u pc) := by
  rw [hlock] at hthief
  cases pc with
  | readBitmap | restoreH =>
      simp only [OwnerQueue.thiefStep, lifted, hlock, Lock.head]
  | redo bitmap =>
      simp only [OwnerQueue.thiefStep, lifted, hlock]
      cases highest bitmap with
      | none => rfl
      | some r => simp only [Lock.head, Function.update_idem, Function.update_eq_self]
  | readT bitmap r H0 =>
      have hH : q.rd.H r = H0 + 1 := hthief
      have hhead : (q.lock.head q.rd.H) r = H0 := by
        rw [hlock]
        exact Function.update_self _ _ _
      by_cases hle : q.rd.T r ≤ H0 + 1
      · have hle' : (lifted q).rd.T r ≤ H0 + 1 :=
          max_le hle (hhead.trans_le (Int.lt_succ H0).le)
        simp only [OwnerQueue.thiefStep, if_pos hle, if_pos hle']
        simp only [lifted, hlock, Lock.head]
      · have hle' : ¬ (lifted q).rd.T r ≤ H0 + 1 := fun h => hle ((le_max_left _ _).trans h)
        simp only [OwnerQueue.thiefStep, if_neg hle, if_neg hle']
        have hT : (fun p => max (q.rd.T p) (q.lock.head q.rd.H p)) =
            fun p => max (q.rd.T p) (q.rd.H p) := by
          funext p
          by_cases hp : p = r
          · rw [hp, hhead, hH, max_eq_left (by omega), max_eq_left (by omega)]
          · rw [hlock]
            simp only [Lock.head, Function.update_of_ne hp]
        unfold lifted
        rw [hT]
        rfl
  | read bitmap r H0 =>
      cases hload : q.load (q.rd.data r) H0 with
      | none | some =>
          have hload' : (lifted q).load ((lifted q).rd.data r) H0 = _ := hload
          simp only [OwnerQueue.thiefStep, hload, hload']
          simp only [lifted, hlock, Lock.head]
          rfl
  | unlock task =>
      cases task with
      | none | some => simp only [OwnerQueue.thiefStep, lifted, hlock, Lock.head]

/-- What a step of the thieves does to the queue. -/
structure ThiefMove (prio : Task → Prio) (a : OwnerQueue.Action κ Task)
    (q q' : OwnerQueue.State κ Task) : Prop extends Advance q q' where
  T : q'.rd.T = q.rd.T
  bitmap : q'.rd.bitmap = q.rd.bitmap
  owner : q'.owner = q.owner
  raised : OwnerQueue.step prio (lifted q) a = some (lifted q')

omit [DecidableEq Task] in
theorem thiefMove_steal {u : κ} (hstep : OwnerQueue.step prio q (.steal u) = some q') :
    ThiefMove prio (.steal u) q q' := by
  simp only [OwnerQueue.step] at hstep
  split at hstep
  case h_1 hlock =>
    cases hstep
    refine { head := fun p => ?_, queued := fun _ _ _ => rfl, T := rfl, bitmap := rfl,
             owner := rfl, raised := ?_ }
    · rw [hlock]
      exact le_rfl
    · simp only [OwnerQueue.step, lifted, hlock, Lock.head]
  case h_2 => cases hstep

omit [DecidableEq Task] in
theorem thiefMove_thief (hthief : ThiefAt q q.lock)
    (hstep : OwnerQueue.step prio q .thief = some q') : ThiefMove prio .thief q q' := by
  simp only [OwnerQueue.step] at hstep
  split at hstep
  case h_1 u pc hlock =>
    cases hstep
    obtain ⟨hT, hbitmap, howner⟩ := thiefStep_rd (q := q) u pc
    refine { head := thiefStep_head hthief hlock, queued := fun p i _ => thiefStep_queued u pc p i,
             T := hT, bitmap := hbitmap, owner := howner, raised := ?_ }
    have hlifted : (lifted q).lock = .thief u pc := hlock
    simp only [OwnerQueue.step, hlifted, lifted_thiefStep hthief hlock]
  case h_2 => cases hstep

omit [DecidableEq Task] in
/-- A thief does not move the first index that is not taken behind `T`. -/
theorem ThiefMove.head_le {a : OwnerQueue.Action κ Task} (h : ThiefMove prio a q q')
    (hT : (lifted q').rd.T = (lifted q).rd.T) {p : Prio}
    (hle : q.lock.head q.rd.H p ≤ q.rd.T p) : q'.lock.head q'.rd.H p ≤ q'.rd.T p := by
  have hmax : max (q'.rd.T p) (q'.lock.head q'.rd.H p) =
      max (q.rd.T p) (q.lock.head q.rd.H p) := congrFun hT p
  rw [h.T, max_eq_left hle] at hmax
  rw [h.T]
  exact (le_max_right _ _).trans_eq hmax

/-! ## The invariant -/

/-- What holds of a frame: the tasks that are left below its indices were pushed before it was
opened. -/
structure FrameAt (q : OwnerQueue.State κ Task) (f : Frame Task) : Prop where
  nonneg : ∀ p, 0 ≤ f.saveT p
  older : ∀ p i x, q.lock.head q.rd.H p ≤ i → i < f.saveT p → q.queued p i = some x → x ∈ f.before p

/-- What holds after a pop that returned no task. -/
structure Leaving (prio : Task → Prio) (q : OwnerQueue.State κ Task) (saveT : Prio → ℤ) : Prop where
  inv : OwnerQueue.Inv prio (lifted q)
  idle : q.owner = .idle
  none_left : ∀ p, q.rd.T p ≤ first q saveT p

/-- What holds at a point of the thread in a frame. -/
def ModeAt (prio : Task → Prio) (q : OwnerQueue.State κ Task) (saveT : Prio → ℤ) : Mode → Prop
  | .code | .loop => OwnerQueue.Inv prio q ∧ Pushing q.owner
  | .popping => OwnerQueue.Inv prio q ∧ PopAt saveT q q.owner
  | .reset left => Leaving prio q saveT ∧ ∀ p, p ∉ left → q.rd.T p = saveT p
  | .test left => Leaving prio q saveT ∧ q.rd.T = saveT ∧
      ∀ p, p ∉ left → q.lock.head q.rd.H p ≤ q.rd.T p
  | .wait => Leaving prio q saveT ∧ q.rd.T = saveT

/-- The thread is outside of a call of the queue, as in a frame with others above it. -/
def Mode.Suspended : Mode → Prop
  | .code | .loop => True
  | _ => False

/-- The invariant of the runs. -/
structure Nested (prio : Task → Prio) (s : State κ Task) : Prop where
  frames : ∀ f ∈ s.unlink :: s.below, FrameAt s.queue f
  ordered : (s.unlink :: s.below).Pairwise fun f g => ∀ p, g.saveT p ≤ f.saveT p
  suspended : ∀ f ∈ s.below, f.mode.Suspended
  le : ∀ p, s.unlink.saveT p ≤ s.queue.rd.T p
  mode : ModeAt prio s.queue s.unlink.saveT s.unlink.mode

variable {s t : State κ Task}

/-- The indices of all frames are behind `T` or at it. -/
theorem Nested.le_all (h : Nested prio s) {f : Frame Task} (hf : f ∈ s.unlink :: s.below)
    (p : Prio) : f.saveT p ≤ s.queue.rd.T p := by
  rcases List.mem_cons.mp hf with rfl | hf
  · exact h.le p
  · exact ((List.pairwise_cons.mp h.ordered).1 f hf p).trans (h.le p)

omit [DecidableEq Task] in
theorem FrameAt.advance {f : Frame Task} (h : FrameAt q f) (hadv : Advance q q')
    (hle : ∀ p, f.saveT p ≤ q.rd.T p) : FrameAt q' f where
  nonneg := h.nonneg
  older p i x hlo hhi hx := by
    rw [hadv.queued p i (hhi.trans_le (hle p))] at hx
    exact h.older p i x ((hadv.head p).trans hlo) hhi hx

/-- A step that stays in the frame. -/
theorem Nested.move {m : Mode} (h : Nested prio s) (hadv : Advance s.queue q')
    (hle : ∀ p, s.unlink.saveT p ≤ q'.rd.T p) (hmode : ModeAt prio q' s.unlink.saveT m) :
    Nested prio { s with queue := q', unlink := { s.unlink with mode := m } } where
  frames f hf := by
    rcases List.mem_cons.mp hf with rfl | hf
    · have hunlink := (h.frames _ (List.mem_cons_self)).advance hadv h.le
      exact { hunlink with }
    · have hmem := List.mem_cons_of_mem s.unlink hf
      exact (h.frames f hmem).advance hadv (h.le_all hmem)
  ordered := List.pairwise_cons.mpr (List.pairwise_cons.mp h.ordered)
  suspended := h.suspended
  le := hle
  mode := hmode

/-- A frame that is opened at `T` has all tasks of the queue below it. -/
theorem Nested.framePush (h : Nested prio s) (hinv : OwnerQueue.Inv prio s.queue)
    (hidle : s.queue.owner = .idle) (hmode : s.unlink.mode.Suspended) :
    Nested prio (framePush s) where
  frames f hf := by
    rcases List.mem_cons.mp hf with rfl | hf
    · refine ⟨fun p => ((hinv.low p).trans (hinv.le p)).trans_eq (by rw [hidle]; rfl), ?_⟩
      intro p i x hlo hhi hx
      have hin : 0 < s.queue.waiting p x := by
        refine Finset.card_pos.mpr ⟨i, Finset.mem_filter.mpr ⟨Finset.mem_Ico.mpr ⟨hlo, ?_⟩, hx⟩⟩
        rw [hidle]
        exact hhi
      have hacc := hinv.sound.accounted p x
      have hpos : 0 < (s.queue.pushed p).count x := by omega
      exact List.count_pos_iff.mp hpos
    · exact h.frames f hf
  ordered := by
    refine List.pairwise_cons.mpr ⟨fun f hf p => ?_, h.ordered⟩
    exact h.le_all hf p
  suspended f hf := by
    rcases List.mem_cons.mp hf with rfl | hf
    · exact hmode
    · exact h.suspended f hf
  le _ := le_rfl
  mode := by
    refine ⟨hinv, ?_⟩
    show Pushing s.queue.owner
    rw [hidle]
    trivial

/-- A step of the thieves. -/
theorem Nested.thiefMove {a : OwnerQueue.Action κ Task} (h : Nested prio s)
    (hmove : ThiefMove prio a s.queue q')
    (hinv : ∀ r r' : OwnerQueue.State κ Task,
      OwnerQueue.Inv prio r → OwnerQueue.step prio r a = some r' → OwnerQueue.Inv prio r' ∧ r'.rd.T = r.rd.T)
    (hstep : OwnerQueue.step prio s.queue a = some q') :
    Nested prio { s with queue := q' } := by
  have hle : ∀ p, s.unlink.saveT p ≤ q'.rd.T p := by
    rw [hmove.T]
    exact h.le
  have hleaving : Leaving prio s.queue s.unlink.saveT → Leaving prio q' s.unlink.saveT := by
    intro hl
    refine ⟨(hinv _ _ hl.inv hmove.raised).1, hmove.owner.trans hl.idle, fun p => ?_⟩
    rw [hmove.T]
    exact (hl.none_left p).trans (first_mono hmove.head p)
  have hmode := h.mode
  refine h.move (m := s.unlink.mode) hmove.toAdvance hle ?_
  cases hm : s.unlink.mode with
  | code | loop =>
      rw [hm] at hmode
      refine ⟨(hinv _ _ hmode.1 hstep).1, ?_⟩
      rw [hmove.owner]
      exact hmode.2
  | popping =>
      rw [hm] at hmode
      refine ⟨(hinv _ _ hmode.1 hstep).1, ?_⟩
      rw [hmove.owner]
      exact hmode.2.congr hmove.T hmove.bitmap hmove.owner hmove.head
  | reset left =>
      rw [hm] at hmode
      refine ⟨hleaving hmode.1, ?_⟩
      rw [hmove.T]
      exact hmode.2
  | test left =>
      rw [hm] at hmode
      obtain ⟨hl, hT, hhead⟩ := hmode
      refine ⟨hleaving hl, hmove.T.trans hT, fun p hp => ?_⟩
      exact hmove.head_le (hinv _ _ hl.inv hmove.raised).2 (hhead p hp)
  | wait =>
      rw [hm] at hmode
      exact ⟨hleaving hmode.1, hmove.T.trans hmode.2⟩

/-- The indices of a thief in the queue of a run. -/
theorem Nested.thiefAt (h : Nested prio s) : ThiefAt s.queue s.queue.lock := by
  have hmode := h.mode
  cases hm : s.unlink.mode with
  | code | loop | popping =>
      rw [hm] at hmode
      exact hmode.1.thief
  | reset left | test left | wait =>
      rw [hm] at hmode
      exact hmode.1.inv.thief

/-- A step of the thread in a call of the queue. -/
theorem Nested.ownerStep (h : Nested prio s) (hok : OwnerQueue.Respects prio s.queue .owner)
    (hstep : ownerStep prio s = some t) : Nested prio t := by
  unfold SyncQueue.ownerStep at hstep
  obtain ⟨q', hq, hstep⟩ := Option.bind_eq_some_iff.mp hstep
  have hmode := h.mode
  cases hm : s.unlink.mode with
  | code | loop =>
      rw [hm] at hmode
      obtain ⟨hinv, hpush⟩ := hmode
      obtain ⟨hpush', hT⟩ := hpush.step hq hinv
      simp only [hm] at hstep
      cases hstep
      refine h.move (m := s.unlink.mode) (ownerStep_advance hinv hq)
        (fun p => (h.le p).trans (hT p)) ?_
      rw [hm]
      exact ⟨hinv.ownerStep hok hq, hpush'⟩
  | popping =>
      rw [hm] at hmode
      obtain ⟨hinv, hpop⟩ := hmode
      obtain ⟨hpop', hle⟩ := hpop.step hinv h.le hq
      have hinv' := hinv.ownerStep hok hq
      have hadv := ownerStep_advance hinv hq
      simp only [hm] at hstep
      cases hidle : q'.owner with
      | idle =>
          simp only [hidle] at hstep
          cases hresult : popResult s.queue.owner with
          | some task =>
              simp only [hresult] at hstep
              cases hstep
              have hloop : ModeAt prio q' s.unlink.saveT .loop := by
                refine ⟨hinv', ?_⟩
                rw [hidle]
                trivial
              exact (h.move hadv hle hloop).framePush hinv' hidle trivial
          | none =>
              simp only [hresult] at hstep
              cases hstep
              refine h.move hadv hle ⟨⟨?_, hidle, ?_⟩, ?_⟩
              · rw [lifted_eq_self fun p => (hinv'.le p).trans_eq (by rw [hidle]; rfl)]
                exact hinv'
              · exact hpop.none_left hinv hq hidle hresult
              · exact fun p hp => absurd (List.mem_finRange p) hp
      | _ =>
          simp only [hidle] at hstep
          cases hstep
          refine h.move (m := s.unlink.mode) hadv hle ?_
          rw [hm]
          exact ⟨hinv', hpop'⟩
  | reset left | test left | wait =>
      rw [hm] at hmode
      have hidle := hmode.1.idle
      simp only [OwnerQueue.ownerStep, hidle] at hq
      cases hq

/-- The queue after `H` is set to `T`, when no task is left between them. -/
theorem Leaving.setH {saveT : Prio → ℤ} (h : Leaving prio q saveT) (hlock : q.lock = .free)
    (hT : q.rd.T = saveT) (hnonneg : ∀ p, 0 ≤ saveT p) (hok : ∀ p, saveT p ≤ q.rd.H p) :
    OwnerQueue.Inv prio { q with rd := { q.rd with H := saveT } } := by
  have hinv := h.inv
  have hhead : (lifted q).lock.head (lifted q).rd.H = q.rd.H := by
    show q.lock.head q.rd.H = q.rd.H
    rw [hlock]
    rfl
  have htail : (lifted q).owner.tail (lifted q).rd.T = q.rd.H := by
    show q.owner.tail (fun p => max (q.rd.T p) (q.lock.head q.rd.H p)) = q.rd.H
    rw [h.idle, hlock, hT]
    exact funext fun p => max_eq_right (hok p)
  have hhead' : q.lock.head saveT = saveT := by
    rw [hlock]
    rfl
  have htail' : q.owner.tail q.rd.T = saveT := by
    rw [h.idle]
    exact hT
  constructor
  case arrays => exact hinv.arrays
  case low =>
    show ∀ p, 0 ≤ q.lock.head saveT p
    rw [hhead']
    exact hnonneg
  case le =>
    show ∀ p, q.lock.head saveT p ≤ q.owner.tail q.rd.T p
    rw [hhead', htail']
    exact fun _ => le_rfl
  case high =>
    have hhigh := hinv.high
    rw [htail] at hhigh
    show ∀ p, q.owner.tail q.rd.T p ≤ q.rd.size p
    rw [htail']
    exact fun p => (hok p).trans (hhigh p)
  case filled =>
    show ∀ p i, q.lock.head saveT p ≤ i → i < q.owner.tail q.rd.T p → q.queued p i ≠ none
    rw [hhead', htail']
    exact fun p i hlo hhi => absurd hhi (not_lt.mpr hlo)
  case locked => exact hinv.locked
  case owner =>
    show OwnerAt prio _ q.owner
    rw [h.idle]
    trivial
  case thief =>
    show ThiefAt _ q.lock
    rw [hlock]
    trivial
  case sound =>
    refine ⟨fun p x => ?_, hinv.sound.safe, ?_⟩
    · have hacc := hinv.sound.accounted p x
      unfold State.waiting at hacc
      rw [hhead, htail, occurrences_empty le_rfl] at hacc
      show _ = _ + occurrences id (q.queued p) (q.lock.head saveT p) (q.owner.tail q.rd.T p) x
      rw [hhead', htail', occurrences_empty le_rfl]
      exact hacc
    · show ∀ p, q.lock.head saveT p < q.owner.tail q.rd.T p → q.rd.bitmap p = true
      rw [hhead', htail']
      exact fun p hlt => absurd hlt (lt_irrefl _)

/-- The queue after `T` is set back for a priority: raised, it is the same. -/
theorem Leaving.setT {saveT : Prio → ℤ} (h : Leaving prio q saveT) (hle : ∀ p, saveT p ≤ q.rd.T p)
    (p : Prio) :
    Leaving prio { q with rd := { q.rd with T := Function.update q.rd.T p (saveT p) } } saveT := by
  refine ⟨?_, h.idle, fun r => ?_⟩
  · have hT : (fun r => max (Function.update q.rd.T p (saveT p) r) (q.lock.head q.rd.H r)) =
        fun r => max (q.rd.T r) (q.lock.head q.rd.H r) := by
      funext r
      by_cases hr : r = p
      · subst hr
        rw [Function.update_self]
        refine le_antisymm (max_le_max (hle r) le_rfl) (max_le ?_ (le_max_right _ _))
        rw [max_comm]
        exact h.none_left r
      · rw [Function.update_of_ne hr]
    have hlifted : lifted { q with rd := { q.rd with T := Function.update q.rd.T p (saveT p) } } =
        lifted q := by
      unfold lifted
      rw [hT]
    rw [hlifted]
    exact h.inv
  · show Function.update q.rd.T p (saveT p) r ≤ max (q.lock.head q.rd.H r) (saveT r)
    by_cases hr : r = p
    · rw [hr, Function.update_self]
      exact le_max_right _ _
    · rw [Function.update_of_ne hr]
      exact h.none_left r

/-- A step behind the loop of a sync. -/
theorem Nested.leaveStep (h : Nested prio s)
    (hok : MaySetH s.queue s.unlink.saveT s.unlink.mode) (hstep : leaveStep s = some t) :
    Nested prio t := by
  have hmode := h.mode
  cases hm : s.unlink.mode with
  | code | loop | popping =>
      simp only [SyncQueue.leaveStep, hm] at hstep
      cases hstep
  | reset left =>
      rw [hm] at hmode
      obtain ⟨hl, hdone⟩ := hmode
      cases left with
      | nil =>
          simp only [SyncQueue.leaveStep, hm] at hstep
          cases hstep
          refine h.move (.refl s.queue) h.le ⟨hl, ?_, ?_⟩
          · exact funext fun p => hdone p List.not_mem_nil
          · exact fun p hp => absurd (List.mem_finRange p) hp
      | cons p left =>
          simp only [SyncQueue.leaveStep, hm] at hstep
          cases hstep
          refine h.move ⟨fun _ => le_rfl, fun _ _ _ => rfl⟩ (fun r => ?_)
            ⟨hl.setT h.le p, fun r hr => ?_⟩
          · show s.unlink.saveT r ≤ Function.update s.queue.rd.T p (s.unlink.saveT p) r
            by_cases hp : r = p
            · rw [hp, Function.update_self]
            · rw [Function.update_of_ne hp]
              exact h.le r
          · show Function.update s.queue.rd.T p (s.unlink.saveT p) r = s.unlink.saveT r
            by_cases hp : r = p
            · rw [hp, Function.update_self]
            · rw [Function.update_of_ne hp]
              exact hdone r fun hmem => (List.mem_cons.mp hmem).elim hp hr
  | test left =>
      rw [hm] at hmode
      obtain ⟨hl, hT, hhead⟩ := hmode
      cases left with
      | nil =>
          simp only [SyncQueue.leaveStep, hm] at hstep
          cases hstep
          refine h.move (.refl s.queue) h.le ⟨?_, ?_⟩
          · have hinv := hl.inv
            rw [lifted_eq_self fun p => hhead p (List.not_mem_nil)] at hinv
            exact hinv
          · rw [hl.idle]
            trivial
      | cons p left =>
          simp only [SyncQueue.leaveStep, hm] at hstep
          cases hstep
          refine h.move (.refl s.queue) h.le ?_
          by_cases hlt : s.unlink.saveT p < s.queue.rd.H p
          · rw [if_pos hlt]
            exact ⟨hl, hT⟩
          · rw [if_neg hlt]
            refine ⟨hl, hT, fun r hr => ?_⟩
            by_cases hp : r = p
            · rw [hp, hT]
              exact (hl.inv.head_le p).trans (not_lt.mp hlt)
            · exact hhead r fun hmem => (List.mem_cons.mp hmem).elim hp hr
  | wait =>
      rw [hm] at hmode hok
      obtain ⟨hl, hT⟩ := hmode
      simp only [SyncQueue.leaveStep, hm] at hstep
      split at hstep
      case h_2 => cases hstep
      case h_1 hlock =>
        cases hstep
        have hlow : s.queue.lock.head s.unlink.saveT = s.unlink.saveT := by
          rw [hlock]
          rfl
        have hunlink := h.frames _ List.mem_cons_self
        -- all indices that are left are below those of the frames
        have hempty : ∀ f ∈ s.unlink :: s.below, ∀ p i,
            s.queue.lock.head s.unlink.saveT p ≤ i → ¬ i < f.saveT p := by
          intro f hf p i hlo hhi
          have hle := h.le_all hf p
          rw [hT] at hle
          rw [hlow] at hlo
          omega
        constructor
        case frames =>
          intro f hf
          rcases List.mem_cons.mp hf with rfl | hf
          · exact ⟨hunlink.nonneg, fun p i x hlo hhi =>
              absurd hhi (hempty _ List.mem_cons_self p i hlo)⟩
          · have hmem := List.mem_cons_of_mem s.unlink hf
            refine ⟨(h.frames f hmem).nonneg, fun p i x hlo hhi => ?_⟩
            exact absurd hhi (hempty f hmem p i hlo)
        case ordered => exact List.pairwise_cons.mpr (List.pairwise_cons.mp h.ordered)
        case suspended => exact h.suspended
        case le => exact h.le
        case mode =>
          refine ⟨hl.setH hlock hT hunlink.nonneg hok, ?_⟩
          show Pushing s.queue.owner
          rw [hl.idle]
          trivial

/-- Every step keeps the invariant. -/
theorem Nested.step {a : Action κ Task} (h : Nested prio s) (hok : Respects prio s a)
    (hstep : step prio s a = some t) : Nested prio t := by
  have hmode := h.mode
  cases a with
  | push task =>
      have hmode' : (s.unlink.mode = .code ∨ s.unlink.mode = .loop) →
          OwnerQueue.Inv prio s.queue ∧ Pushing s.queue.owner := by
        rintro (hm | hm) <;> rw [hm] at hmode <;> exact hmode
      have hpush : (s.unlink.mode = .code ∨ s.unlink.mode = .loop) → ∀ q',
          OwnerQueue.step prio s.queue (.push task) = some q' →
            Nested prio { s with queue := q' } := by
        intro hm q' hq
        have hinv' := (hmode' hm).1.step (a := .push task) trivial hq
        simp only [OwnerQueue.step] at hq
        split at hq
        case h_2 => cases hq
        case h_1 hidle =>
          cases hq
          refine h.move (m := s.unlink.mode) ⟨fun _ => le_rfl, fun _ _ _ => rfl⟩ h.le ?_
          rcases hm with hm | hm <;> rw [hm] <;> exact ⟨hinv', trivial⟩
      simp only [SyncQueue.step] at hstep
      split at hstep
      case h_1 hm =>
        obtain ⟨q', hq, hstep⟩ := Option.bind_eq_some_iff.mp hstep
        cases hstep
        exact hpush (.inl hm) q' hq
      case h_2 hm =>
        obtain ⟨q', hq, hstep⟩ := Option.bind_eq_some_iff.mp hstep
        cases hstep
        exact hpush (.inr hm) q' hq
      case h_3 => cases hstep
  | begin =>
      simp only [SyncQueue.step] at hstep
      split at hstep
      case h_1 hm hidle =>
        cases hstep
        rw [hm] at hmode
        refine h.framePush hmode.1 hidle ?_
        rw [hm]
        trivial
      case h_2 => cases hstep
  | finish =>
      simp only [SyncQueue.step] at hstep
      split at hstep
      case h_1 frame below hm hidle hbelow =>
        split at hstep
        case isFalse => cases hstep
        case isTrue hT =>
          cases hstep
          rw [hm] at hmode
          have hordered := h.ordered
          have hsuspended := h.suspended
          have hframes := h.frames
          rw [hbelow] at hordered hsuspended hframes
          obtain ⟨hfirst, hrest⟩ := List.pairwise_cons.mp hordered
          refine ⟨fun f hf => hframes f (List.mem_cons_of_mem _ hf), hrest,
            fun f hf => hsuspended f (List.mem_cons_of_mem _ hf), fun p => ?_, ?_⟩
          · rw [hT]
            exact hfirst frame List.mem_cons_self p
          · have hframe := hsuspended frame List.mem_cons_self
            show ModeAt prio s.queue frame.saveT frame.mode
            cases hfm : frame.mode with
            | code | loop => exact hmode
            | popping | reset left | test left | wait =>
                rw [hfm] at hframe
                exact hframe.elim
      case h_2 => cases hstep
  | sync =>
      simp only [SyncQueue.step] at hstep
      split at hstep
      case h_1 hm hidle =>
        cases hstep
        rw [hm] at hmode
        exact h.move (.refl s.queue) h.le hmode
      case h_2 => cases hstep
  | pop =>
      simp only [SyncQueue.step] at hstep
      split at hstep
      case h_1 hm =>
        obtain ⟨q', hq, hstep⟩ := Option.bind_eq_some_iff.mp hstep
        cases hstep
        rw [hm] at hmode
        have hinv' := hmode.1.step (a := .pop _) trivial hq
        simp only [OwnerQueue.step] at hq
        split at hq
        case h_1 hidle =>
          cases hq
          refine h.move ⟨fun _ => le_rfl, fun _ _ _ => rfl⟩ h.le ⟨hinv', rfl, ?_⟩
          refine Clear.congr hok ?_ (fun _ => le_rfl) fun _ hb => hb
          rw [hidle]
          rfl
        case h_2 => cases hq
      case h_2 => cases hstep
  | start =>
      simp only [SyncQueue.step] at hstep
      split at hstep
      case h_1 hm hidle =>
        cases hstep
        rw [hm] at hmode
        refine h.framePush hmode.1 hidle ?_
        rw [hm]
        trivial
      case h_2 => cases hstep
  | owner => exact h.ownerStep hok hstep
  | leave => exact h.leaveStep hok hstep
  | steal u =>
      obtain ⟨q', hq, hstep⟩ := Option.bind_eq_some_iff.mp hstep
      cases hstep
      refine h.thiefMove (thiefMove_steal hq)
        (fun r r' hr hr' => ⟨hr.step (a := .steal u) trivial hr', ?_⟩) hq
      exact (thiefMove_steal hr').T
  | thief =>
      obtain ⟨q', hq, hstep⟩ := Option.bind_eq_some_iff.mp hstep
      cases hstep
      refine h.thiefMove (thiefMove_thief h.thiefAt hq)
        (fun r r' hr hr' => ⟨hr.step (a := .thief) trivial hr', ?_⟩) hq
      exact (thiefMove_thief hr.thief hr').T

/-! ## Runs -/

/-- The queue of a thread before its first task. -/
theorem Nested.initial (h : Initial s) : Nested prio s := by
  obtain ⟨hqueue, hbelow, hunlink⟩ := h
  have hinv : OwnerQueue.Inv prio s.queue := .initial hqueue
  obtain ⟨_, _, _, hrd, _, _, howner, _⟩ := hqueue
  have hframe : FrameAt s.queue s.unlink := by
    rw [hunlink]
    refine ⟨fun _ => le_rfl, fun p i x hlo hhi _ => ?_⟩
    exact absurd hhi (not_lt.mpr ((hinv.low p).trans hlo))
  constructor
  case frames =>
    rw [hbelow]
    intro f hf
    rw [List.mem_singleton.mp hf]
    exact hframe
  case ordered =>
    rw [hbelow]
    exact List.pairwise_singleton _ _
  case suspended =>
    rw [hbelow]
    exact fun f hf => absurd hf List.not_mem_nil
  case le =>
    rw [hunlink, hrd]
    exact fun _ => le_rfl
  case mode =>
    rw [hunlink]
    refine ⟨hinv, ?_⟩
    rw [howner]
    trivial

/-- A task that was not pushed before the frame is not among those that are left. -/
theorem Leaving.taken {f : Frame Task} (h : Leaving prio q f.saveT) (hframe : FrameAt q f)
    {p : Prio} {x : Task} (hpushed : x ∈ q.pushed p) (hnew : x ∉ f.before p) : Taken q p x := by
  have hacc := h.inv.sound.accounted p x
  have hwaiting : (lifted q).waiting p x = 0 := by
    unfold State.waiting occurrences
    rw [Finset.card_eq_zero, Finset.filter_eq_empty_iff]
    refine fun i hi hx => hnew ?_
    obtain ⟨hlo, hhi⟩ := Finset.mem_Ico.mp hi
    have hlo : q.lock.head q.rd.H p ≤ i := hlo
    have hhi : i < q.owner.tail (lifted q).rd.T p := hhi
    rw [h.idle] at hhi
    have hleft : i < max (q.lock.head q.rd.H p) (f.saveT p) :=
      hhi.trans_le (max_le (h.none_left p) (le_max_left _ _))
    exact hframe.older p i x hlo ((lt_max_iff.mp hleft).resolve_left (not_lt.mpr hlo)) hx
  have hhand : held (q.owner.hand q.queued p) x = 0 := by
    rw [h.idle]
    rfl
  have hacc : (q.pushed p).count x = (q.returned p).count x +
      held (q.owner.hand q.queued p) x + held (q.lock.hand q.queued p) x +
        (lifted q).waiting p x := hacc
  rw [hwaiting, hhand] at hacc
  by_cases hheld : q.lock.hand q.queued p = some x
  · exact .inr hheld
  · have hzero : held (q.lock.hand q.queued p) x = 0 := if_neg hheld
    have hpos := List.count_pos_iff.mpr hpushed
    exact .inl (List.count_pos_iff.mp (by omega))

/-- When a sync has left its loop, all tasks of its frame are taken, in every run in which no pop
meets a priority at its limit above one with tasks and `H` is not moved forward. -/
theorem sync_drained (hs : (system prio).ReachableWhen (Respects prio) s)
    (hleft : s.unlink.mode.Left) : Drained s := by
  have h : Nested prio s := by
    clear hleft
    induction hs with
    | start hinit => exact .initial hinit
    | next _ hok hstep ih => exact ih.step hok hstep
  have hleaving : Leaving prio s.queue s.unlink.saveT := by
    have hmode := h.mode
    cases hm : s.unlink.mode with
    | code | loop | popping =>
        rw [hm] at hleft
        exact hleft.elim
    | reset left | test left | wait =>
        rw [hm] at hmode
        exact hmode.1
  have hframe := h.frames _ List.mem_cons_self
  exact ⟨hleaving.none_left, fun p x hpushed hnew => hleaving.taken hframe hpushed hnew⟩

/-- The queue of two priorities in which the odd tasks go first. -/
def oddFirst (task : ℕ) : Prio :=
  if task % 2 = 0 then 0 else 1

/-- A thread with an empty queue. -/
def emptyThread : State Bool ℕ where
  queue := emptyState
  unlink := { saveT := fun _ => 0, mode := .code, before := fun _ => [] }
  below := []

theorem emptyThread_initial : Initial emptyThread :=
  ⟨emptyState_initial, rfl, rfl⟩

/-- A push, and a push that replaces the array. -/
def pushTask (task : ℕ) : List (Action Bool ℕ) :=
  .push task :: List.replicate 4 .owner

def pushAndReplace (task : ℕ) : List (Action Bool ℕ) :=
  .push task :: List.replicate 9 .owner

/-- A pop that ends after some steps. -/
def popTask (steps : ℕ) : List (Action Bool ℕ) :=
  .pop :: List.replicate steps .owner

/-- A task is stolen, one is popped, and the pop of the next one finds their priority empty. -/
theorem sync_drained_stolen :
    Drained (((system oddFirst).replay (Respects oddFirst) emptyThread
      (pushAndReplace 1 ++ pushTask 3 ++ pushTask 4 ++ .steal true :: List.replicate 5 .thief ++
        .sync :: popTask 5 ++ .finish :: popTask 15 ++ .finish :: popTask 2 ++
          [.leave, .leave, .leave])).get (by decide)) := by
  let s := ((system oddFirst).replay (Respects oddFirst) emptyThread
    (pushAndReplace 1 ++ pushTask 3 ++ pushTask 4 ++ .steal true :: List.replicate 5 .thief ++
      .sync :: popTask 5 ++ .finish :: popTask 15 ++ .finish :: popTask 2 ++
        [.leave, .leave, .leave])).get (by decide)
  have hmode : s.unlink.mode = .test priorities := rfl
  refine sync_drained (s := s) ((TransitionSystem.ReachableWhen.start emptyThread_initial).replay
    (Option.some_get _).symm) ?_
  rw [hmode]
  trivial

/-- The bit of a priority stays after its last task was popped, and the tasks of the lower priority
are dropped. -/
theorem not_sync_drained :
    ¬ ∀ s : State Bool ℕ, (system oddFirst).Reachable s → s.unlink.mode.Left → Drained s := by
  intro hall
  let s := ((system oddFirst).run emptyThread (pushAndReplace 1 ++ pushTask 4 ++
    .sync :: popTask 5 ++ .finish :: popTask 2)).get (by decide)
  have hs : (system oddFirst).Reachable s :=
    (TransitionSystem.ReachableWhen.start emptyThread_initial).replay (Option.some_get _).symm
  have hmode : s.unlink.mode = .reset priorities := rfl
  have hleft : s.unlink.mode.Left := by
    rw [hmode]
    trivial
  exact absurd ((hall s hs hleft).none_left 0) (by decide)

omit [DecidableEq Task] in
/-- The condition of a pop is exact: called when a priority at its limit hides a task, it returns
none where no thief helps. -/
theorem pop_of_not_clear (hmode : s.unlink.mode = .loop) (hidle : s.queue.owner = .idle)
    (hclear : ¬ Clear s.queue s.unlink.saveT) :
    ∃ t, (system prio).LeadsTo (fun _ _ => True) s t ∧ t.unlink.mode = .reset priorities ∧
      ¬ Drained t := by
  obtain ⟨r, p, hlt, hbit, hat, hhidden⟩ : ∃ r p, r < p ∧ s.queue.rd.bitmap p = true ∧
      s.queue.rd.T p = s.unlink.saveT p ∧ first s.queue s.unlink.saveT r < s.queue.rd.T r := by
    simp only [Clear, not_forall, not_le, hidle] at hclear
    obtain ⟨r, p, hlt, hbit, hat, hhidden⟩ := hclear
    exact ⟨r, p, hlt, hbit, hat, hhidden⟩
  obtain rfl : p = 1 := Fin.eq_one_of_ne_zero p (Fin.pos_iff_ne_zero.mp (r.zero_le.trans_lt hlt))
  have htop : highest s.queue.rd.bitmap = some 1 := by
    unfold highest
    exact List.find?_cons_of_pos hbit
  let popping (pc : OwnerPc Task) : State κ Task :=
    { s with queue := { s.queue with owner := pc }, unlink := { s.unlink with mode := .popping } }
  let t : State κ Task :=
    { s with
      queue := { s.queue with owner := .idle }
      unlink := { s.unlink with mode := .reset priorities } }
  have hcall : step prio s .pop = some (popping (.readBitmap (some s.unlink.saveT))) := by
    simp only [SyncQueue.step, hmode, OwnerQueue.step, hidle]
    rfl
  have hread : step prio (popping (.readBitmap (some s.unlink.saveT))) .owner =
      some (popping (.decT (some s.unlink.saveT) 1)) := by
    simp only [SyncQueue.step, SyncQueue.ownerStep, OwnerQueue.ownerStep, popping, htop]
    rfl
  have hend : step prio (popping (.decT (some s.unlink.saveT) 1)) .owner = some t := by
    simp only [SyncQueue.step, SyncQueue.ownerStep, OwnerQueue.ownerStep, popping, Option.map_some,
      hat, if_true]
    rfl
  refine ⟨t, ?_, rfl, fun hdrained => ?_⟩
  · have hcalled : (system prio).LeadsTo (fun _ _ => True) s _ := .single (a := .pop) trivial hcall
    exact .next (a := .owner) (.next (a := .owner) hcalled trivial hread) trivial hend
  · exact absurd (hdrained.none_left r) (not_le.mpr hhidden)

end Xkblas.Sched.SyncQueue
