import Mathlib.Algebra.BigOperators.Group.Finset.Piecewise
import Mathlib.Algebra.Order.BigOperators.Group.Finset
import Mathlib.Data.Fintype.EquivFin
import Mathlib.Tactic.Ring
import Xkblas.Library.MachineInt
import Xkblas.Library.TransitionSystem
import Xkblas.Library.FinLiteral

/-!
# The spin lock

The counter of a `kaapi_lock_t` is 1 when the lock is free. A thread takes the lock by a decrement
that gives 0; the decrements of the other threads are not undone, and the unlock writes 1. A thread
takes one access to the lock at a time.

While the lock is held a thread decrements the counter at most twice before it spins: once in a
`kaapi_atomic_trylock` that has read 1 before the lock was taken, and once in `kaapi_atomic_lock`.
The thread that holds the lock can decrement it once, if it calls `kaapi_atomic_lock` again. So the
counter of 32 bits does not wrap up to `2 ^ 30` threads (`lock_sound`), and with more threads it can
(`wrapped`).
-/

namespace Xkblas.Sched.SpinLock

open Library
open scoped Library.FinLiteral

/-- Where a thread is: in no call, before the read or the decrement of `kaapi_atomic_trylock`,
before the decrement of `kaapi_atomic_lock` or in its loop, before the read and the write of `_sync`
or the write of the counter in `kaapi_atomic_unlock`, before the write of `_sync` in
`kaapi_atomic_waitlock` or one of the two reads of its loop. -/
inductive Pc where
  | outside
  | tryRead
  | tryDecr
  | lockDecr
  | spin
  | unlockRead
  | unlockSync
  | unlockWrite
  | waitSync
  | waitRead
  | waitCounter
  deriving DecidableEq

/-- The fields of a `kaapi_lock_t`, the threads, and those that are between a successful acquisition
and its unlock. -/
structure State (τ : Type) where
  counter : ℤ
  sync : ℤ
  pc : τ → Pc
  holds : τ → Bool

inductive Call where
  | lock
  | trylock
  | unlock
  | waitlock

/-- A thread starts a call, or it takes the next step of its call. -/
inductive Action (τ : Type) where
  | call (t : τ) (c : Call)
  | run (t : τ)

section Step

variable {τ : Type} [DecidableEq τ]

namespace State

def setPc (s : State τ) (t : τ) (pc : Pc) : State τ :=
  { s with pc := Function.update s.pc t pc }

def setHolds (s : State τ) (t : τ) (holds : Bool) : State τ :=
  { s with holds := Function.update s.holds t holds }

/-- `KAAPI_ATOMIC_DECR`. The thread has the lock if the result is 0, and goes to `failed` if not. -/
def decr (s : State τ) (t : τ) (failed : Pc) : State τ :=
  let counter := int32 (s.counter - 1)
  if counter = 0 then ({ s with counter := counter }.setHolds t true).setPc t .outside
  else { s with counter := counter }.setPc t failed

end State

/-- A thread that is in no call starts one. It unlocks only a lock that it holds. -/
def start (s : State τ) (t : τ) : Call → Option (State τ)
  | .lock => some (s.setPc t .lockDecr)
  | .trylock => some (s.setPc t .tryRead)
  | .unlock => if s.holds t = true then some (s.setPc t .unlockRead) else none
  | .waitlock => some (s.setPc t .waitSync)

/-- The next step of a thread that is in a call. -/
def next (s : State τ) (t : τ) : Option (State τ) :=
  match s.pc t with
  | .outside => none
  | .tryRead => some (s.setPc t (if s.counter = 1 then .tryDecr else .outside))
  | .tryDecr => some (s.decr t .outside)
  | .lockDecr => some (s.decr t .spin)
  | .spin => some (s.setPc t (if s.counter ≤ 0 then .spin else .lockDecr))
  | .unlockRead => some (s.setPc t (if s.sync ≠ 0 then .unlockSync else .unlockWrite))
  | .unlockSync => some ({ s with sync := 0 }.setPc t .unlockWrite)
  | .unlockWrite => some (({ s with counter := 1 }.setHolds t false).setPc t .outside)
  | .waitSync => some ({ s with sync := 1 }.setPc t .waitRead)
  | .waitRead => some (s.setPc t (if s.sync ≠ 0 then .waitCounter else .outside))
  | .waitCounter => some (s.setPc t (if s.counter ≤ 0 then .waitRead else .outside))

def step (s : State τ) : Action τ → Option (State τ)
  | .call t c => if s.pc t = .outside then start s t c else none
  | .run t => next s t

/-- After `kaapi_atomic_initlock`, with no thread in a call. -/
structure Initial (s : State τ) : Prop where
  counter : s.counter = 1
  sync : s.sync = 0
  outside : ∀ t, s.pc t = .outside
  holds : ∀ t, s.holds t = false

def system (τ : Type) [DecidableEq τ] : TransitionSystem (State τ) (Action τ) where
  initial := Initial
  step := step

/-- At most one thread has the lock; if none has it then its counter is 1, and the next decrement
takes it. -/
structure Sound (s : State τ) : Prop where
  exclusive : ∀ t u, s.holds t = true → s.holds u = true → t = u
  available : (∀ t, s.holds t = false) → s.counter = 1
  acquires : (∀ t, s.holds t = false) → ∀ t, s.pc t = .tryDecr ∨ s.pc t = .lockDecr →
    ∃ s', (system τ).step s (.run t) = some s' ∧ s'.holds t = true

end Step

/-! ## The decrements of a thread -/

/-- The number of decrements that a thread can still do before it reads a positive counter. -/
def Pc.budget : Pc → ℕ
  | .tryDecr => 2
  | .spin => 0
  | _ => 1

/-- The thread is in `kaapi_atomic_unlock`. -/
def Pc.unlocking : Pc → Bool
  | .unlockRead | .unlockSync | .unlockWrite => true
  | _ => false

section Invariant

variable {τ : Type} [DecidableEq τ] {s s' : State τ} {t u h : τ}

@[simp] theorem setPc_counter (pc : Pc) : (s.setPc t pc).counter = s.counter := rfl

@[simp] theorem setPc_sync (pc : Pc) : (s.setPc t pc).sync = s.sync := rfl

@[simp] theorem setPc_holds (pc : Pc) : (s.setPc t pc).holds = s.holds := rfl

@[simp] theorem setPc_self (pc : Pc) : (s.setPc t pc).pc t = pc :=
  Function.update_self _ _ _

theorem setPc_of_ne (pc : Pc) (hne : u ≠ t) : (s.setPc t pc).pc u = s.pc u :=
  Function.update_of_ne hne _ _

@[simp] theorem setHolds_counter (b : Bool) : (s.setHolds t b).counter = s.counter := rfl

@[simp] theorem setHolds_pc (b : Bool) : (s.setHolds t b).pc = s.pc := rfl

@[simp] theorem setHolds_self (b : Bool) : (s.setHolds t b).holds t = b :=
  Function.update_self _ _ _

theorem setHolds_of_ne (b : Bool) (hne : u ≠ t) : (s.setHolds t b).holds u = s.holds u :=
  Function.update_of_ne hne _ _

theorem decr_pc_of_ne (failed : Pc) (hne : u ≠ t) : (s.decr t failed).pc u = s.pc u := by
  unfold State.decr
  dsimp only
  split
  case isTrue => exact setPc_of_ne _ hne
  case isFalse => exact setPc_of_ne _ hne

/-- No thread has the lock. -/
structure Free (s : State τ) : Prop where
  counter : s.counter = 1
  holds : ∀ t, s.holds t = false

variable [Fintype τ]

/-- The thread `h` has the lock. The others and it have decremented the counter since then, and
none of them more often than it can before it spins. -/
structure HeldBy (s : State τ) (h : τ) : Prop where
  holds : ∀ t, s.holds t = true ↔ t = h
  debts : ∃ debt : τ → ℕ, s.counter = -((∑ t, debt t : ℕ) : ℤ) ∧
    ∀ t, debt t + (s.pc t).budget ≤ if t = h then 1 else 2

/-- The invariant of the lock. -/
structure Inv (s : State τ) : Prop where
  unlocking : ∀ t, (s.pc t).unlocking = true → s.holds t = true
  lock : Free s ∨ ∃ h, HeldBy s h

/-- All decrements of a period in which the lock is held. -/
theorem sum_debts_lt {debt budget : τ → ℕ} (h : τ)
    (hle : ∀ t, debt t + budget t ≤ if t = h then 1 else 2) :
    (∑ t, debt t) + 1 ≤ 2 * Fintype.card τ := by
  have hsum : ∑ t, debt t + (∑ t, if t = h then 1 else 0) ≤ ∑ _t : τ, 2 := by
    rw [← Finset.sum_add_distrib]
    refine Finset.sum_le_sum fun t _ => ?_
    have hbound := hle t
    split at hbound
    case isTrue heq =>
      rw [if_pos heq]
      omega
    case isFalse hne =>
      rw [if_neg hne]
      omega
  rw [Finset.sum_ite_eq' Finset.univ h, if_pos (Finset.mem_univ h),
    Finset.sum_const_nat fun _ _ => rfl, Finset.card_univ] at hsum
  omega

/-- The counter of a lock that is held is not positive. -/
theorem HeldBy.counter_le (hheld : HeldBy s h) : s.counter ≤ 0 := by
  obtain ⟨debt, hcounter, -⟩ := hheld.debts
  omega

/-- A step that changes neither the counter nor the holders, and does not give a thread more
decrements. -/
theorem HeldBy.setPc (hheld : HeldBy s h) {pc : Pc} (hle : pc.budget ≤ (s.pc t).budget) :
    HeldBy (s.setPc t pc) h := by
  obtain ⟨debt, hcounter, hdebt⟩ := hheld.debts
  refine ⟨hheld.holds, debt, hcounter, fun u => ?_⟩
  by_cases hu : u = t
  · subst hu
    have hbound := hdebt u
    rw [setPc_self]
    omega
  · rw [setPc_of_ne _ hu]
    exact hdebt u

/-- A decrement of a lock that is held fails, and its thread pays for it. -/
theorem HeldBy.decr (hheld : HeldBy s h) (hcard : Fintype.card τ ≤ 2 ^ 30) {failed : Pc}
    (hle : failed.budget + 1 ≤ (s.pc t).budget) :
    HeldBy (s.decr t failed) h ∧ (s.decr t failed).pc t = failed ∧
      (s.decr t failed).holds = s.holds := by
  obtain ⟨debt, hcounter, hdebt⟩ := hheld.debts
  let debt' := Function.update debt t (debt t + 1)
  have hself : debt' t = debt t + 1 := Function.update_self _ _ _
  have hother : ∀ u, u ≠ t → debt' u = debt u := fun u hu => Function.update_of_ne hu _ _
  have hsum : ∑ u, debt' u = ∑ u, debt u + 1 := by
    rw [← Finset.add_sum_erase _ _ (Finset.mem_univ t), hself,
      ← Finset.add_sum_erase _ debt (Finset.mem_univ t)]
    have hrest : ∑ u ∈ Finset.univ.erase t, debt' u = ∑ u ∈ Finset.univ.erase t, debt u :=
      Finset.sum_congr rfl fun u hu => hother u (Finset.ne_of_mem_erase hu)
    omega
  have hdebt' : ∀ u, debt' u + ((s.setPc t failed).pc u).budget ≤ if u = h then 1 else 2 := by
    intro u
    have hbound := hdebt u
    by_cases hu : u = t
    · subst hu
      rw [hself, setPc_self]
      omega
    · rw [hother u hu, setPc_of_ne _ hu]
      exact hbound
  have hall := sum_debts_lt h hdebt'
  have hint : int32 (s.counter - 1) = s.counter - 1 := int32_of_lt (by omega) (by omega)
  have hdecr : s.decr t failed = { s with counter := s.counter - 1 }.setPc t failed := by
    unfold State.decr
    rw [hint]
    exact if_neg (by omega)
  rw [hdecr]
  refine ⟨⟨hheld.holds, debt', ?_, hdebt'⟩, setPc_self _, rfl⟩
  show s.counter - 1 = _
  omega

/-- A decrement of a free lock takes it. -/
theorem Free.decr (hfree : Free s) (failed : Pc) :
    HeldBy (s.decr t failed) t ∧
      s.decr t failed = ({ s with counter := 0 }.setHolds t true).setPc t .outside := by
  have hdecr : s.decr t failed = ({ s with counter := 0 }.setHolds t true).setPc t .outside := by
    unfold State.decr
    rw [hfree.counter]
    rfl
  rw [hdecr]
  refine ⟨⟨fun u => ?_, fun _ => 0, ?_, fun u => ?_⟩, rfl⟩
  · rw [setPc_holds]
    by_cases hu : u = t
    · subst hu
      rw [setHolds_self]
      exact iff_of_true rfl rfl
    · rw [setHolds_of_ne _ hu]
      exact iff_of_false (by rw [show _ = false from hfree.holds u]; exact Bool.false_ne_true) hu
  · rw [Finset.sum_const_zero]
    rfl
  · by_cases hu : u = t
    · subst hu
      rw [setPc_self, if_pos rfl]
      exact le_rfl
    · rw [if_neg hu, Nat.zero_add]
      cases ((({ s with counter := 0 } : State τ).setHolds t true).setPc t .outside).pc u <;>
        decide

/-- A step that changes neither the counter nor the holders. -/
theorem Inv.setPc (hinv : Inv s) {pc : Pc} (hle : ∀ h, HeldBy s h → pc.budget ≤ (s.pc t).budget)
    (hunlock : pc.unlocking = true → s.holds t = true) : Inv (s.setPc t pc) := by
  refine ⟨fun u hu => ?_, ?_⟩
  · by_cases heq : u = t
    · subst heq
      rw [setPc_self] at hu
      exact hunlock hu
    · rw [setPc_of_ne _ heq] at hu
      exact hinv.unlocking u hu
  · rcases hinv.lock with hfree | ⟨h, hheld⟩
    · exact .inl ⟨hfree.counter, hfree.holds⟩
    · exact .inr ⟨h, hheld.setPc (hle h hheld)⟩

/-- `_sync` plays no part. -/
theorem Inv.withSync (hinv : Inv s) (n : ℤ) : Inv { s with sync := n } := by
  refine ⟨hinv.unlocking, ?_⟩
  rcases hinv.lock with hfree | ⟨h, hheld⟩
  · exact .inl ⟨hfree.counter, hfree.holds⟩
  · exact .inr ⟨h, hheld.holds, hheld.debts⟩

theorem Inv.decr (hinv : Inv s) (hcard : Fintype.card τ ≤ 2 ^ 30) {failed : Pc}
    (hle : failed.budget + 1 ≤ (s.pc t).budget) (hout : failed.unlocking = false) :
    Inv (s.decr t failed) := by
  rcases hinv.lock with hfree | ⟨h, hheld⟩
  · obtain ⟨htaken, heq⟩ := hfree.decr (t := t) failed
    refine ⟨fun u hu => ?_, .inr ⟨t, htaken⟩⟩
    -- nobody unlocks a lock that is free
    rw [heq] at hu
    by_cases hut : u = t
    · subst hut
      rw [setPc_self] at hu
      cases hu
    · rw [setPc_of_ne _ hut] at hu
      have hholds := hinv.unlocking u hu
      rw [hfree.holds u] at hholds
      cases hholds
  · obtain ⟨hheld', hpc, hholds⟩ := hheld.decr hcard hle
    refine ⟨fun u hu => ?_, .inr ⟨h, hheld'⟩⟩
    rw [hholds]
    by_cases hut : u = t
    · subst hut
      rw [hpc, hout] at hu
      cases hu
    · rw [decr_pc_of_ne _ hut] at hu
      exact hinv.unlocking u hu

/-- The unlock frees the lock. -/
theorem Inv.unlock (hinv : Inv s) (hpc : s.pc t = .unlockWrite) :
    Inv (({ s with counter := 1 }.setHolds t false).setPc t .outside) := by
  have hmine := hinv.unlocking t (by rw [hpc]; rfl)
  rcases hinv.lock with hfree | ⟨h, hheld⟩
  · rw [hfree.holds t] at hmine
    cases hmine
  · obtain rfl := (hheld.holds t).mp hmine
    have hrest : ∀ u, u ≠ t → s.holds u = false := fun u hu =>
      Bool.eq_false_iff.mpr fun hholds => hu ((hheld.holds u).mp hholds)
    refine ⟨fun u hu => ?_, .inl ⟨rfl, fun u => ?_⟩⟩
    · by_cases hut : u = t
      · subst hut
        rw [setPc_self] at hu
        cases hu
      · rw [setPc_of_ne _ hut] at hu
        have hholds := hinv.unlocking u hu
        rw [hrest u hut] at hholds
        cases hholds
    · rw [setPc_holds]
      by_cases hut : u = t
      · subst hut
        exact setHolds_self false
      · rw [setHolds_of_ne _ hut]
        exact hrest u hut

theorem Inv.start (hinv : Inv s) (hout : s.pc t = .outside) {c : Call}
    (h : start s t c = some s') : Inv s' := by
  have hbudget : ∀ {pc : Pc}, pc.budget = 1 → ∀ h, HeldBy s h → pc.budget ≤ (s.pc t).budget := by
    intro pc hpc _ _
    rw [hout, hpc]
    exact le_rfl
  cases c with
  | lock =>
      cases h
      exact hinv.setPc (hbudget rfl) fun hunlock => nomatch hunlock
  | trylock =>
      cases h
      exact hinv.setPc (hbudget rfl) fun hunlock => nomatch hunlock
  | unlock =>
      simp only [SpinLock.start] at h
      split at h
      case isTrue hholds =>
        cases h
        exact hinv.setPc (hbudget rfl) fun _ => hholds
      case isFalse => cases h
  | waitlock =>
      cases h
      exact hinv.setPc (hbudget rfl) fun hunlock => nomatch hunlock

theorem Inv.next (hinv : Inv s) (hcard : Fintype.card τ ≤ 2 ^ 30) (h : next s t = some s') :
    Inv s' := by
  unfold SpinLock.next at h
  cases hpc : s.pc t <;> simp only [hpc] at h <;> cases h
  case tryRead =>
    refine hinv.setPc (fun h hheld => ?_) fun hunlock => ?_
    · -- the counter is not 1 while the lock is held
      have hle := hheld.counter_le
      rw [hpc, if_neg (by omega)]
      exact le_rfl
    · split at hunlock <;> cases hunlock
  case tryDecr => exact hinv.decr hcard (by rw [hpc]; exact le_rfl) rfl
  case lockDecr => exact hinv.decr hcard (by rw [hpc]; exact le_rfl) rfl
  case spin =>
    refine hinv.setPc (fun h hheld => ?_) fun hunlock => ?_
    · rw [hpc, if_pos hheld.counter_le]
    · split at hunlock <;> cases hunlock
  case unlockRead =>
    refine hinv.setPc (fun h hheld => ?_) fun _ => hinv.unlocking t (by rw [hpc]; rfl)
    rw [hpc]
    split <;> exact le_rfl
  case unlockSync =>
    have hmine := hinv.unlocking t (by rw [hpc]; rfl)
    have hmoved : Inv (s.setPc t .unlockWrite) := by
      refine hinv.setPc (fun h hheld => ?_) fun _ => hmine
      rw [hpc]
      exact le_rfl
    exact hmoved.withSync 0
  case unlockWrite => exact hinv.unlock hpc
  case waitSync =>
    have hmoved : Inv (s.setPc t .waitRead) := by
      refine hinv.setPc (fun h hheld => ?_) fun hunlock => nomatch hunlock
      rw [hpc]
      exact le_rfl
    exact hmoved.withSync 1
  case waitRead =>
    refine hinv.setPc (fun h hheld => ?_) fun hunlock => ?_
    · rw [hpc]
      split <;> exact le_rfl
    · split at hunlock <;> cases hunlock
  case waitCounter =>
    refine hinv.setPc (fun h hheld => ?_) fun hunlock => ?_
    · rw [hpc]
      split <;> exact le_rfl
    · split at hunlock <;> cases hunlock

theorem inv_of_reachable (hcard : Fintype.card τ ≤ 2 ^ 30) (h : (system τ).Reachable s) :
    Inv s := by
  refine h.invariant (fun s hinit => ?_) fun s a s' hinv _ hstep => ?_
  · refine ⟨fun t ht => ?_, .inl ⟨hinit.counter, hinit.holds⟩⟩
    rw [hinit.outside t] at ht
    cases ht
  · have hstep : step s a = some s' := hstep
    cases a with
    | call t c =>
        simp only [step] at hstep
        split at hstep
        case isTrue hout => exact hinv.start hout hstep
        case isFalse => cases hstep
    | run t => exact hinv.next hcard hstep

theorem Inv.isSound (hinv : Inv s) : Sound s := by
  rcases hinv.lock with hfree | ⟨h, hheld⟩
  · refine ⟨fun t u ht => ?_, fun _ => hfree.counter, fun _ t ht => ?_⟩
    · rw [hfree.holds t] at ht
      cases ht
    · have htaken : ∀ failed, (s.decr t failed).holds t = true := fun failed =>
        ((hfree.decr failed).1.holds t).mpr rfl
      rcases ht with ht | ht
      · exact ⟨s.decr t .outside, by simp only [system, step, SpinLock.next, ht], htaken _⟩
      · exact ⟨s.decr t .spin, by simp only [system, step, SpinLock.next, ht], htaken _⟩
  · have hnot : ¬ ∀ t, s.holds t = false := by
      intro hnone
      have hholds := (hheld.holds h).mpr rfl
      rw [hnone h] at hholds
      cases hholds
    refine ⟨fun t u ht hu => ?_, fun hnone => absurd hnone hnot, fun hnone => absurd hnone hnot⟩
    exact ((hheld.holds t).mp ht).trans ((hheld.holds u).mp hu).symm

/-- With at most `2 ^ 30` threads the lock is exclusive, and available when no thread has it. -/
theorem lock_sound (hcard : Fintype.card τ ≤ 2 ^ 30) (h : (system τ).Reachable s) : Sound s :=
  (inv_of_reachable hcard h).isSound

end Invariant

/-- The lock after `kaapi_atomic_initlock`. -/
def newLock (τ : Type) : State τ where
  counter := 1
  sync := 0
  pc := fun _ => .outside
  holds := fun _ => false

/-- A thread has the lock, a second one spins, and a third one has tried to take it. -/
def contended : List (Action (Fin 3)) :=
  [.call 0 .lock, .call 1 .lock, .call 2 .trylock, .run 2, .run 0, .run 1, .run 2, .run 1]

theorem lock_sound_contended :
    ∃ s, (system (Fin 3)).run (newLock (Fin 3)) contended = some s ∧ s.counter = -2 ∧ Sound s := by
  let s := ((system (Fin 3)).run (newLock (Fin 3)) contended).get (by decide)
  have hrun : (system (Fin 3)).run (newLock (Fin 3)) contended = some s :=
    (Option.some_get _).symm
  have hinit : (system (Fin 3)).initial (newLock (Fin 3)) :=
    ⟨rfl, rfl, fun _ => rfl, fun _ => rfl⟩
  exact ⟨s, hrun, rfl, lock_sound (by decide) (.replay (.start hinit) hrun)⟩

/-! ## More threads -/

section Wrap

variable {τ : Type} [DecidableEq τ] {h t : τ}

/-- A crowd of threads around the thread `h`: those of `T` are at `b`, the others at `a`. -/
def crowd (h : τ) (held : Bool) (ph a b : Pc) (T : Finset τ) (counter : ℤ) : State τ where
  counter := counter
  sync := 0
  pc := fun t => if t = h then ph else if t ∈ T then b else a
  holds := fun t => held && decide (t = h)

/-- One more thread of the crowd gets to `b`. -/
theorem setPc_crowd {held : Bool} {ph a b pc : Pc} {T : Finset τ} {counter : ℤ} (hne : t ≠ h) :
    ((crowd h held ph a b T counter).setPc t pc).setPc t b =
      crowd h held ph a b (insert t T) counter := by
  unfold State.setPc crowd
  refine congrArg (State.mk _ _ · _) (funext fun u => ?_)
  dsimp only
  rw [Function.update_idem]
  by_cases hut : u = t
  · subst hut
    rw [Function.update_self, if_neg hne, if_pos (Finset.mem_insert_self _ _)]
  · rw [Function.update_of_ne hut]
    simp only [Finset.mem_insert, hut, false_or]

theorem crowd_pc {held : Bool} {ph a b : Pc} {T : Finset τ} {counter : ℤ} (hne : t ≠ h)
    (ht : t ∉ T) : (crowd h held ph a b T counter).pc t = a := by
  show (if t = h then ph else if t ∈ T then b else a) = a
  rw [if_neg hne, if_neg ht]

theorem int32_pred (x : ℤ) : int32 (int32 x - 1) = int32 (x - 1) := by
  unfold int32
  omega

/-- A decrement that fails. -/
theorem decr_crowd {held : Bool} {ph a b pc : Pc} {T : Finset τ} {x y : ℤ}
    (hxy : int32 (x - 1) = y) (hy : y ≠ 0) (hne : t ≠ h) :
    ((crowd h held ph a b T x).setPc t pc).decr t b = crowd h held ph a b (insert t T) y := by
  have hdecr : ((crowd h held ph a b T x).setPc t pc).decr t b =
      ((crowd h held ph a b T y).setPc t pc).setPc t b := by
    unfold State.decr
    rw [setPc_counter, show (crowd h held ph a b T x).counter = x from rfl, hxy]
    exact if_neg hy
  rw [hdecr, setPc_crowd hne]

theorem setPc_of_eq {s : State τ} {pc : Pc} (hpc : s.pc t = pc) : s.setPc t pc = s := by
  unfold State.setPc
  rw [← hpc, Function.update_eq_self]

/-- A thread reads 1 in `kaapi_atomic_trylock`. -/
theorem trylock_crowd (T : Finset τ) (t : τ) (hne : t ≠ h) (ht : t ∉ T) :
    (system τ).LeadsTo (fun _ _ => True) (crowd h false .outside .outside .tryDecr T 1)
      (crowd h false .outside .outside .tryDecr (insert t T) 1) := by
  have hcall : (system τ).step (crowd h false .outside .outside .tryDecr T 1) (.call t .trylock) =
      some ((crowd h false .outside .outside .tryDecr T 1).setPc t .tryRead) :=
    if_pos (crowd_pc hne ht)
  have hread : (system τ).step ((crowd h false .outside .outside .tryDecr T 1).setPc t .tryRead)
      (.run t) = some (crowd h false .outside .outside .tryDecr (insert t T) 1) := by
    simp only [system, step, next, setPc_self]
    exact congrArg some (setPc_crowd hne)
  exact (TransitionSystem.LeadsTo.single trivial hcall).trans (.single trivial hread)

/-- The decrement of a thread that has read 1. -/
theorem tryDecr_crowd (T : Finset τ) (t : τ) (hne : t ≠ h) (ht : t ∉ T) (x y : ℤ)
    (hxy : int32 (x - 1) = y) (hy : y ≠ 0) :
    (system τ).LeadsTo (fun _ _ => True) (crowd h true .spin .tryDecr .outside T x)
      (crowd h true .spin .tryDecr .outside (insert t T) y) := by
  have hpc : (crowd h true .spin .tryDecr .outside T x).pc t = .tryDecr := crowd_pc hne ht
  have hstep : (system τ).step (crowd h true .spin .tryDecr .outside T x) (.run t) =
      some (crowd h true .spin .tryDecr .outside (insert t T) y) := by
    simp only [system, step, next, hpc]
    have hdecr : ((crowd h true .spin .tryDecr .outside T x).setPc t .tryDecr).decr t .outside =
        crowd h true .spin .tryDecr .outside (insert t T) y := decr_crowd hxy hy hne
    rwa [setPc_of_eq hpc, ← Option.some.injEq] at hdecr
  exact .single trivial hstep

/-- The decrement of a thread in `kaapi_atomic_lock`. -/
theorem lockDecr_crowd (T : Finset τ) (t : τ) (hne : t ≠ h) (ht : t ∉ T) (x y : ℤ)
    (hxy : int32 (x - 1) = y) (hy : y ≠ 0) :
    (system τ).LeadsTo (fun _ _ => True) (crowd h true .spin .outside .spin T x)
      (crowd h true .spin .outside .spin (insert t T) y) := by
  have hcall : (system τ).step (crowd h true .spin .outside .spin T x) (.call t .lock) =
      some ((crowd h true .spin .outside .spin T x).setPc t .lockDecr) :=
    if_pos (crowd_pc hne ht)
  have hdecr : (system τ).step ((crowd h true .spin .outside .spin T x).setPc t .lockDecr)
      (.run t) = some (crowd h true .spin .outside .spin (insert t T) y) := by
    simp only [system, step, next, setPc_self]
    exact congrArg some (decr_crowd hxy hy hne)
  exact (TransitionSystem.LeadsTo.single trivial hcall).trans (.single trivial hdecr)

/-- The counter after `k` decrements of a lock that is held. -/
def lowered (k : ℕ) : ℤ :=
  int32 (-k)

theorem lowered_succ (k : ℕ) : int32 (lowered k - 1) = lowered (k + 1) := by
  unfold lowered
  rw [int32_pred]
  congr 1
  omega

theorem lowered_ne_zero {k : ℕ} (hpos : 0 < k) (hlt : k < 2 ^ 32) : lowered k ≠ 0 := by
  unfold lowered int32
  omega

/-- The thread `h` takes the lock, and calls `kaapi_atomic_lock` once more. -/
theorem relock (a b : Pc) : (system τ).LeadsTo (fun _ _ => True)
    (crowd h false .outside a b ∅ 1) (crowd h true .spin a b ∅ (lowered 1)) := by
  have hupd : ∀ (held : Bool) (ph pc : Pc) (x : ℤ),
      (crowd h held ph a b ∅ x).setPc h pc = crowd h held pc a b ∅ x := by
    intro held ph pc x
    unfold State.setPc crowd
    refine congrArg (State.mk _ _ · _) (funext fun u => ?_)
    by_cases hu : u = h
    · subst hu
      rw [Function.update_self, if_pos rfl]
    · refine (Function.update_of_ne hu _ _).trans ?_
      dsimp only
      rw [if_neg hu, if_neg hu]
  have hholds : ∀ (ph : Pc) (x : ℤ),
      (crowd h false ph a b ∅ x).setHolds h true = crowd h true ph a b ∅ x := by
    intro ph x
    unfold State.setHolds crowd
    refine congrArg (State.mk _ _ _ ·) (funext fun u => ?_)
    by_cases hu : u = h
    · subst hu
      rw [Function.update_self, decide_eq_true rfl]
      rfl
    · rw [Function.update_of_ne hu, decide_eq_false hu]
      rfl
  have hpc : ∀ (held : Bool) (ph : Pc) (x : ℤ), (crowd h held ph a b ∅ x).pc h = ph :=
    fun _ _ _ => if_pos rfl
  have hcall : ∀ (held : Bool) (x : ℤ),
      (system τ).step (crowd h held .outside a b ∅ x) (.call h .lock) =
        some (crowd h held .lockDecr a b ∅ x) := by
    intro held x
    refine (if_pos (hpc held .outside x)).trans ?_
    exact congrArg some (hupd held .outside .lockDecr x)
  have htake : (system τ).step (crowd h false .lockDecr a b ∅ 1) (.run h) =
      some (crowd h true .outside a b ∅ 0) := by
    simp only [system, step, next, hpc]
    show some (((crowd h false .lockDecr a b ∅ 0).setHolds h true).setPc h .outside) = _
    rw [hholds, hupd]
  have hfail : (system τ).step (crowd h true .lockDecr a b ∅ 0) (.run h) =
      some (crowd h true .spin a b ∅ (lowered 1)) := by
    simp only [system, step, next, hpc]
    show some ((crowd h true .lockDecr a b ∅ (lowered 1)).setPc h .spin) = _
    rw [hupd]
  exact (((TransitionSystem.LeadsTo.single trivial (hcall false 1)).trans
    (.single trivial htake)).trans (.single trivial (hcall true 0))).trans (.single trivial hfail)

/-- A thread that spins decrements a positive counter. -/
theorem spin_decr {s : State τ} {x : ℤ} (hpc : s.pc t = .spin) (hpos : 0 < s.counter)
    (hx : int32 (s.counter - 1) = x) :
    (system τ).LeadsTo (fun _ _ => True) s
      (if x = 0 then ({ s with counter := x }.setHolds t true).setPc t .outside
        else { s with counter := x }.setPc t .spin) := by
  have hread : (system τ).step s (.run t) = some (s.setPc t .lockDecr) := by
    simp only [system, step, next, hpc]
    rw [if_neg (by omega)]
  have hdecr : (system τ).step (s.setPc t .lockDecr) (.run t) =
      some (if x = 0 then ({ s with counter := x }.setHolds t true).setPc t .outside
        else { s with counter := x }.setPc t .spin) := by
    simp only [system, step, next, setPc_self, State.decr, setPc_counter, hx]
    simp only [State.setPc, State.setHolds, Function.update_idem]
  exact .next (.single trivial hread) trivial hdecr

/-- A thread that spins gets the lock from a positive counter, whoever has it. -/
theorem overtake (n : ℕ) {s : State τ} (hpc : s.pc t = .spin) (hcounter : s.counter = n + 1)
    (hlt : n + 1 < 2 ^ 31) (hheld : s.holds h = true) :
    ∃ s', (system τ).LeadsTo (fun _ _ => True) s s' ∧ s'.holds t = true ∧ s'.holds h = true := by
  have hx : int32 (s.counter - 1) = n := by
    rw [hcounter, int32_of_lt (by omega) (by omega)]
    omega
  have hdecr := spin_decr hpc (by omega) hx
  induction n generalizing s with
  | zero =>
      rw [if_pos (show ((0 : ℕ) : ℤ) = 0 from rfl)] at hdecr
      refine ⟨_, hdecr, setHolds_self true, ?_⟩
      by_cases hht : h = t
      · subst hht
        exact setHolds_self true
      · exact (setHolds_of_ne true hht).trans hheld
  | succ n ih =>
      rw [if_neg (by omega)] at hdecr
      have hx' : int32 ((n + 1 : ℕ) - 1) = n := by
        rw [int32_of_lt (by omega) (by omega)]
        omega
      obtain ⟨s', hrest, hholds⟩ := ih (s := { s with counter := (n + 1 : ℕ) }.setPc t .spin)
        (setPc_self _) (by rw [setPc_counter]; exact Nat.cast_succ n) (by omega) hheld hx'
        (spin_decr (setPc_self _) (by rw [setPc_counter]; dsimp only; omega) hx')
      exact ⟨s', hdecr.trans hrest, hholds⟩

variable [Fintype τ]

/-- When each thread of the crowd gets from `a` to `b`, all of them do. -/
theorem sweep {held : Bool} {ph a b : Pc} (f : ℕ → ℤ)
    (hmove : ∀ T : Finset τ, ∀ t, t ≠ h → t ∉ T → T.card + 1 < Fintype.card τ →
      (system τ).LeadsTo (fun _ _ => True) (crowd h held ph a b T (f T.card))
        (crowd h held ph a b (insert t T) (f (T.card + 1)))) (c : Pc) :
    (system τ).LeadsTo (fun _ _ => True) (crowd h held ph a b ∅ (f 0))
      (crowd h held ph b c ∅ (f (Fintype.card τ - 1))) := by
  have hall : ∀ T : Finset τ, h ∉ T → (system τ).LeadsTo (fun _ _ => True)
      (crowd h held ph a b ∅ (f 0)) (crowd h held ph a b T (f T.card)) := by
    intro T
    induction T using Finset.induction_on with
    | empty => exact fun _ => .refl
    | insert t T ht ih =>
        intro hh
        have hne : t ≠ h := fun heq => hh (heq ▸ Finset.mem_insert_self _ _)
        have hT : h ∉ T := fun hmem => hh (Finset.mem_insert_of_mem hmem)
        have hlt : T.card + 1 < Fintype.card τ := by
          have hsub : (insert h (insert t T)).card ≤ Fintype.card τ := Finset.card_le_univ _
          rw [Finset.card_insert_of_notMem hh, Finset.card_insert_of_notMem ht] at hsub
          omega
        rw [Finset.card_insert_of_notMem ht]
        exact (ih hT).trans (hmove T t hne ht hlt)
  have hrest := hall (Finset.univ.erase h) (Finset.notMem_erase h _)
  rw [Finset.card_erase_of_mem (Finset.mem_univ h), Finset.card_univ] at hrest
  have hsame : crowd h held ph a b (Finset.univ.erase h) (f (Fintype.card τ - 1)) =
      crowd h held ph b c ∅ (f (Fintype.card τ - 1)) := by
    unfold crowd
    refine congrArg (State.mk _ _ · _) (funext fun u => ?_)
    by_cases hu : u = h
    · rw [if_pos hu, if_pos hu]
    · rw [if_neg hu, if_neg hu, if_pos (Finset.mem_erase.mpr ⟨hu, Finset.mem_univ u⟩),
        if_neg (Finset.notMem_empty u)]
  rwa [hsame] at hrest

/-- The decrements of all threads but one, after `n` others. -/
theorem sweep_decr {a b : Pc} {n : ℕ} (hpos : 0 < n) (hn : n + Fintype.card τ ≤ 2 ^ 32)
    (hmove : ∀ T : Finset τ, ∀ t, t ≠ h → t ∉ T → ∀ x y, int32 (x - 1) = y → y ≠ 0 →
      (system τ).LeadsTo (fun _ _ => True) (crowd h true .spin a b T x)
        (crowd h true .spin a b (insert t T) y)) (c : Pc) :
    (system τ).LeadsTo (fun _ _ => True) (crowd h true .spin a b ∅ (lowered n))
      (crowd h true .spin b c ∅ (lowered (n + (Fintype.card τ - 1)))) := by
  refine sweep (fun k => lowered (n + k)) (fun T t hne ht hlt => ?_) c
  exact hmove T t hne ht _ _ (lowered_succ (n + T.card)) (lowered_ne_zero (by omega) (by omega))

variable (τ) in
/-- With more threads the counter can wrap while the lock is held, and a second thread gets it. -/
theorem wrapped (hlo : 2 ^ 30 < Fintype.card τ) (hhi : Fintype.card τ < 2 ^ 31) :
    ∃ s, (system τ).Reachable s ∧ ¬ Sound s := by
  obtain ⟨h, t, hne⟩ := Fintype.one_lt_card_iff.mp (show 1 < Fintype.card τ by omega)
  have hnew : crowd h false .outside .outside .tryDecr ∅ 1 = newLock τ := by
    unfold crowd newLock
    refine congrArg₂ (State.mk _ _) (funext fun u => ?_) (funext fun u => rfl)
    rw [if_neg (Finset.notMem_empty u), ite_self]
  have hstart : (system τ).Reachable (newLock τ) := .start ⟨rfl, rfl, fun _ => rfl, fun _ => rfl⟩
  -- all threads read 1 before `h` takes the lock
  have hread := sweep (fun _ => 1) (fun T u hu hT _ => trylock_crowd (h := h) T u hu hT) .outside
  rw [hnew] at hread
  have htaken := (hstart.leadsTo hread).leadsTo (relock .tryDecr .outside)
  have htried := htaken.leadsTo (sweep_decr one_pos (by omega) tryDecr_crowd .spin)
  have hlocked := htried.leadsTo
    (sweep_decr (Nat.add_pos_left one_pos _) (by omega) lockDecr_crowd .spin)
  obtain ⟨n, hn⟩ : ∃ n : ℕ, lowered (1 + (Fintype.card τ - 1) + (Fintype.card τ - 1)) = n + 1 ∧
      n + 1 < 2 ^ 31 := by
    refine ⟨2 ^ 32 - 2 * Fintype.card τ, ?_, by omega⟩
    unfold lowered int32
    omega
  let s₁ := crowd h true .spin .spin .spin ∅ (lowered (1 + (Fintype.card τ - 1) +
    (Fintype.card τ - 1)))
  have hpc : s₁.pc t = .spin := crowd_pc hne.symm (Finset.notMem_empty t)
  have hholds : s₁.holds h = true := decide_eq_true (rfl : h = h)
  obtain ⟨s, hlast, hst, hsh⟩ := overtake n hpc hn.1 hn.2 hholds
  exact ⟨s, hlocked.leadsTo hlast, fun hsound => hne (hsound.exclusive h t hsh hst)⟩

end Wrap

/-- The lock is not exclusive for every number of threads below `2 ^ 31`. -/
theorem not_lock_sound : ¬ ∀ n < 2 ^ 31, ∀ s : State (Fin n), (system (Fin n)).Reachable s →
    Sound s := by
  intro hall
  have hcard : Fintype.card (Fin (2 ^ 31 - 1)) = 2 ^ 31 - 1 := Fintype.card_fin _
  obtain ⟨s, hs, hnot⟩ := wrapped (Fin (2 ^ 31 - 1)) (by rw [hcard]; omega)
    (by rw [hcard]; omega)
  exact hnot (hall (2 ^ 31 - 1) (by omega) s hs)

end Xkblas.Sched.SpinLock
