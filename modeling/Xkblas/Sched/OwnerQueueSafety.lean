import Xkblas.Sched.OwnerQueue

/-!
# No task of a work queue is lost

The proof rests on two windows. The indices from `head` to `tail` are those that no thread has
taken, and they differ from `H` and `T` only by an unfinished test. A thief takes the first one
only if it has seen another one behind it, and the owner takes the last one only if `H` is not
behind it, so the window never becomes negative in any order of the two tests.
-/

namespace Xkblas.Sched.OwnerQueue

open Library

variable {κ Task : Type} {prio : Task → Prio} {s t : State κ Task}

/-- The arrays have the sizes of the queue and are not shared. -/
structure Arrays (size : Prio → ℤ) (data : Prio → Option ℕ) (extent : ℕ → ℤ) (brk : ℕ) : Prop where
  extent : ∀ p b, data p = some b → extent b = size p ∧ b < brk
  empty : ∀ p, data p = none → size p = 0
  distinct : ∀ p q b, data p = some b → data q = some b → p = q

/-- The owner has a copy of a full array. -/
structure Grown (prio : Task → Prio) (s : State κ Task) (task : Task) (T newsize : ℤ) (data : ℕ)
    (todel : Option ℕ) : Prop where
  T_eq : s.rd.T (prio task) = T
  full : T = s.rd.size (prio task)
  larger : s.rd.size (prio task) < newsize
  todel_eq : todel = none
  extent : s.extent data = newsize ∧ data < s.brk
  unused : ∀ q, s.rd.data q ≠ some data
  copied : s.load (some data) = s.queued (prio task)

/-- The owner pushes at an index of the array. -/
def Room (prio : Task → Prio) (s : State κ Task) (task : Task) (T : ℤ) : Prop :=
  s.rd.T (prio task) = T ∧ T < s.rd.size (prio task)

/-- No task of the priority is left. -/
def State.Empty (s : State κ Task) (p : Prio) : Prop :=
  s.owner.tail s.rd.T p ≤ s.lock.head s.rd.H p

/-- The index has a task. -/
def State.Filled (s : State κ Task) (p : Prio) (i : ℤ) : Prop :=
  s.Inside (s.rd.data p) i ∧ s.queued p i ≠ none

/-- What holds at a program point of the owner. -/
def OwnerAt (prio : Task → Prio) (s : State κ Task) : OwnerPc Task → Prop
  | .idle | .push _ | .readBitmap _ | .decT _ _ | .lock _ _ | .decLocked _ _ => True
  | .grow task T => s.rd.T (prio task) = T ∧ T = s.rd.size (prio task)
  | .growLock task T newsize data todel | .growSet task T newsize data todel =>
      Grown prio s task T newsize data todel
  | .growUnlock task T todel | .growFree task T todel => Room prio s task T ∧ todel = none
  | .store task T => Room prio s task T
  | .setBit task T => Room prio s task T ∧ s.queued (prio task) T = some task
  | .setT task T => Room prio s task T ∧ s.queued (prio task) T = some task ∧
      s.rd.bitmap (prio task) = true
  | .testH _ p T | .rollBack _ p T | .testLocked _ p T => s.rd.T p = T
  | .restore _ p T => s.rd.T p = T ∧ s.Empty p
  | .readLocked _ p T | .read _ p T => s.Filled p T
  | .unlock _ p task | .out _ p task => task = none → s.Empty p

/-- The points at which the owner has the lock. -/
def OwnerPc.Locked : OwnerPc Task → Prop
  | .growSet .. | .growUnlock .. | .decLocked .. | .testLocked .. | .readLocked .. | .restore ..
  | .unlock .. => True
  | _ => False

/-- What holds at a program point of a thief. -/
def ThiefAt (s : State κ Task) : Lock κ Task → Prop
  | .thief _ (.readT _ p H0) | .thief _ (.restoreH _ p H0) => s.rd.H p = H0 + 1
  | .thief _ (.read _ p H0) => s.rd.H p = H0 + 1 ∧ s.Filled p H0
  | _ => True

variable [DecidableEq Task]

/-- The invariant of the runs. -/
structure Inv (prio : Task → Prio) (s : State κ Task) : Prop where
  arrays : Arrays s.rd.size s.rd.data s.extent s.brk
  low : ∀ p, 0 ≤ s.lock.head s.rd.H p
  le : ∀ p, s.lock.head s.rd.H p ≤ s.owner.tail s.rd.T p
  high : ∀ p, s.owner.tail s.rd.T p ≤ s.rd.size p
  filled : ∀ p i, s.lock.head s.rd.H p ≤ i → i < s.owner.tail s.rd.T p → s.queued p i ≠ none
  locked : s.owner.Locked ↔ s.lock = .owner
  owner : OwnerAt prio s s.owner
  thief : ThiefAt s s.lock
  sound : Sound s

omit [DecidableEq Task] in
/-- The indices of an array are those below its size. -/
theorem Arrays.inside_iff (h : Arrays s.rd.size s.rd.data s.extent s.brk) {p : Prio} {i : ℤ} :
    s.Inside (s.rd.data p) i ↔ 0 ≤ i ∧ i < s.rd.size p := by
  cases hdata : s.rd.data p with
  | none =>
      rw [h.empty p hdata]
      refine iff_of_false ?_ fun hi => absurd hi.2 (not_lt.mpr hi.1)
      rintro ⟨_, ha, _⟩
      cases ha
  | some b =>
      rw [← (h.extent p b hdata).1]
      refine ⟨?_, fun hi => ⟨b, rfl, hi⟩⟩
      rintro ⟨_, ha, hi⟩
      cases ha
      exact hi

omit [DecidableEq Task] in
/-- An access inside an array does not fault. -/
theorem State.touch_eq_self {b : Option ℕ} {i : ℤ} (h : s.Inside b i) : s.touch b i = s := by
  unfold State.touch
  rw [decide_eq_true h, Bool.not_true, Bool.or_false]

omit [DecidableEq Task] in
/-- A cell is read from its own array. -/
theorem State.load_congr {b : Option ℕ} (hextent : ∀ a ∈ b, t.extent a = s.extent a)
    (hcells : ∀ a ∈ b, t.cells a = s.cells a) (i : ℤ) : t.load b i = s.load b i := by
  unfold State.load
  cases b with
  | none => rfl
  | some a =>
      refine if_congr ?_ (congrFun (hcells a rfl) i) rfl
      refine exists_congr fun c => and_congr_right fun hc => ?_
      rw [hextent c hc]

/-- An index of the window has a task. -/
theorem Inv.filled_of_mem (h : Inv prio s) {p : Prio} {i : ℤ} (hlo : s.lock.head s.rd.H p ≤ i)
    (hhi : i < s.owner.tail s.rd.T p) : s.Filled p i :=
  ⟨h.arrays.inside_iff.mpr ⟨(h.low p).trans hlo, hhi.trans_le (h.high p)⟩, h.filled p i hlo hhi⟩

/-- A step from `s` to `t` that moves no task, and after which the facts of `t` hold. -/
structure Frame (prio : Task → Prio) (s t : State κ Task) : Prop where
  head : t.lock.head t.rd.H = s.lock.head s.rd.H
  tail : t.owner.tail t.rd.T = s.owner.tail s.rd.T
  locked : t.owner.Locked ↔ t.lock = .owner
  owner : OwnerAt prio t t.owner
  thief : ThiefAt t t.lock
  arrays : Arrays t.rd.size t.rd.data t.extent t.brk
  size : ∀ p, s.rd.size p ≤ t.rd.size p
  queued : ∀ p i, s.lock.head s.rd.H p ≤ i → i < s.owner.tail s.rd.T p →
    t.queued p i = s.queued p i
  ownerHand : t.owner.hand t.queued = s.owner.hand s.queued
  thiefHand : t.lock.hand t.queued = s.lock.hand s.queued
  bitmap : ∀ p, s.lock.head s.rd.H p < s.owner.tail s.rd.T p → s.rd.bitmap p = true →
    t.rd.bitmap p = true
  pushed : t.pushed = s.pushed
  returned : t.returned = s.returned
  fault : t.fault = s.fault

/-- Such a step keeps the invariant. -/
theorem Inv.frame (h : Inv prio s) (f : Frame prio s t) : Inv prio t := by
  constructor
  case arrays => exact f.arrays
  case locked => exact f.locked
  case owner => exact f.owner
  case thief => exact f.thief
  case low =>
    rw [f.head]
    exact h.low
  case le =>
    rw [f.head, f.tail]
    exact h.le
  case high =>
    rw [f.tail]
    exact fun p => (h.high p).trans (f.size p)
  case filled =>
    rw [f.head, f.tail]
    intro p i hlo hhi
    rw [f.queued p i hlo hhi]
    exact h.filled p i hlo hhi
  case sound =>
    have hs := h.sound
    refine ⟨fun p x => ?_, f.fault.trans hs.safe, ?_⟩
    · have hwaiting : t.waiting p x = s.waiting p x := by
        unfold State.waiting
        rw [f.head, f.tail]
        exact occurrences_congr (fun i hlo hhi => f.queued p i hlo hhi) x
      rw [f.pushed, f.returned, f.ownerHand, f.thiefHand, hwaiting]
      exact hs.accounted p x
    · rw [f.head, f.tail]
      exact fun p hlt => f.bitmap p hlt (hs.found p hlt)

/-! ## The two tests -/

/-- The taken indices end at `H` or before it. -/
theorem Inv.head_le (h : Inv prio s) (p : Prio) : s.lock.head s.rd.H p ≤ s.rd.H p := by
  have hthief := h.thief
  cases hlock : s.lock with
  | free | owner => exact le_rfl
  | thief t pc =>
      rw [hlock] at hthief
      cases pc with
      | readBitmap | redo bitmap | read bitmap q H0 | unlock task => exact le_rfl
      | readT bitmap q H0 | restoreH bitmap q H0 =>
          have hthief : s.rd.H q = H0 + 1 := hthief
          show Function.update s.rd.H q H0 p ≤ s.rd.H p
          by_cases hpq : p = q
          · rw [hpq, Function.update_self]
            omega
          · rw [Function.update_of_ne hpq]

/-- The indices that are not taken reach to `T` or behind it. -/
theorem Inv.le_tail (h : Inv prio s) (p : Prio) : s.rd.T p ≤ s.owner.tail s.rd.T p := by
  have howner := h.owner
  have hmoved : ∀ q T, s.rd.T q = T → s.rd.T p ≤ Function.update s.rd.T q (T + 1) p := by
    intro q T hT
    by_cases hpq : p = q
    · rw [hpq, Function.update_self]
      omega
    · rw [Function.update_of_ne hpq]
  cases hpc : s.owner with
  | testH T0 q T | rollBack T0 q T | testLocked T0 q T =>
      rw [hpc] at howner
      exact hmoved q T howner
  | restore T0 q T =>
      rw [hpc] at howner
      exact hmoved q T howner.1
  | _ => exact le_rfl

theorem held_none (x : Task) : held none x = 0 :=
  rfl

/-- The owner has tested `H` and takes the last index. -/
theorem Inv.takeLast {pc : OwnerPc Task} {p : Prio} {T : ℤ} (h : Inv prio s)
    (htail : s.owner.tail s.rd.T = Function.update s.rd.T p (T + 1))
    (hhand : s.owner.hand s.queued = fun _ => none) (hT : s.rd.T p = T) (hle : s.rd.H p ≤ T)
    (htail' : pc.tail s.rd.T = s.rd.T)
    (hhand' : pc.hand s.queued = Function.update (fun _ => none) p (s.queued p T))
    (hlocked : pc.Locked ↔ s.owner.Locked)
    (hat : s.Filled p T → OwnerAt prio { s with owner := pc } pc) :
    Inv prio { s with owner := pc } := by
  have hlow : s.lock.head s.rd.H p ≤ T := (h.head_le p).trans hle
  have hlast : s.owner.tail s.rd.T p = T + 1 := by
    rw [htail, Function.update_self]
  have hothers : ∀ q, q ≠ p → s.owner.tail s.rd.T q = s.rd.T q := fun q hq => by
    rw [htail, Function.update_of_ne hq]
  have hshorter : ∀ q, s.rd.T q ≤ s.owner.tail s.rd.T q := h.le_tail
  constructor
  case arrays => exact h.arrays
  case low => exact h.low
  case le =>
    show ∀ q, s.lock.head s.rd.H q ≤ pc.tail s.rd.T q
    intro q
    rw [htail']
    by_cases hq : q = p
    · rw [hq, hT]
      exact hlow
    · rw [← hothers q hq]
      exact h.le q
  case high =>
    show ∀ q, pc.tail s.rd.T q ≤ s.rd.size q
    intro q
    rw [htail']
    exact (hshorter q).trans (h.high q)
  case filled =>
    show ∀ q i, s.lock.head s.rd.H q ≤ i → i < pc.tail s.rd.T q → s.queued q i ≠ none
    intro q i hlo hhi
    rw [htail'] at hhi
    exact h.filled q i hlo (hhi.trans_le (hshorter q))
  case locked => exact hlocked.trans h.locked
  case owner =>
    refine hat (h.filled_of_mem hlow ?_)
    rw [hlast]
    exact Int.lt_succ T
  case thief => exact h.thief
  case sound =>
    refine ⟨fun q x => ?_, h.sound.safe, ?_⟩
    · show (s.pushed q).count x = (s.returned q).count x + held (pc.hand s.queued q) x +
        held (s.lock.hand s.queued q) x +
          occurrences id (s.queued q) (s.lock.head s.rd.H q) (pc.tail s.rd.T q) x
      have hacc := h.sound.accounted q x
      unfold State.waiting at hacc
      rw [htail', hhand']
      rw [hhand, held_none] at hacc
      by_cases hq : q = p
      · subst hq
        rw [hlast, occurrences_succ hlow] at hacc
        have hheld : held (s.queued q T) x = if s.queued q (id T) = some x then 1 else 0 := rfl
        rw [Function.update_self, hT, hacc, hheld]
        omega
      · rw [hothers q hq] at hacc
        rw [Function.update_of_ne hq, held_none]
        exact hacc
    · show ∀ q, s.lock.head s.rd.H q < pc.tail s.rd.T q → s.rd.bitmap q = true
      intro q hlt
      rw [htail'] at hlt
      exact h.sound.found q (hlt.trans_le (hshorter q))

/-- A thief has tested `T` and takes the first index. -/
theorem Inv.takeFirst {u : κ} {bitmap : Prio → Bool} {p : Prio} {H0 : ℤ} (h : Inv prio s)
    (hlock : s.lock = .thief u (.readT bitmap p H0)) (hlt : ¬ s.rd.T p ≤ H0 + 1)
    (hat : (∀ q, s.Empty q → s.owner.tail s.rd.T q ≤ s.rd.H q) →
      OwnerAt prio { s with lock := .thief u (.read bitmap p H0) } s.owner) :
    Inv prio { s with lock := .thief u (.read bitmap p H0) } := by
  have hH : s.rd.H p = H0 + 1 := by
    have hthief := h.thief
    rw [hlock] at hthief
    exact hthief
  have hhead : s.lock.head s.rd.H = Function.update s.rd.H p H0 := by
    rw [hlock]
    rfl
  have hfirst : s.lock.head s.rd.H p = H0 := by
    rw [hhead, Function.update_self]
  have hothers : ∀ q, q ≠ p → s.lock.head s.rd.H q = s.rd.H q := fun q hq => by
    rw [hhead, Function.update_of_ne hq]
  have hroom : H0 + 1 < s.owner.tail s.rd.T p := (not_le.mp hlt).trans_le (h.le_tail p)
  have hfilled : s.Filled p H0 := h.filled_of_mem hfirst.le (by omega)
  constructor
  case arrays => exact h.arrays
  case low => exact fun q => (h.low q).trans (h.head_le q)
  case le =>
    show ∀ q, s.rd.H q ≤ s.owner.tail s.rd.T q
    intro q
    by_cases hq : q = p
    · rw [hq, hH]
      exact hroom.le
    · rw [← hothers q hq]
      exact h.le q
  case high => exact h.high
  case filled => exact fun q i hlo hhi => h.filled q i ((h.head_le q).trans hlo) hhi
  case locked =>
    refine h.locked.trans ?_
    rw [hlock]
    exact ⟨nofun, nofun⟩
  case owner =>
    refine hat fun q hempty => ?_
    exact hempty.trans (h.head_le q)
  case thief => exact ⟨hH, hfilled⟩
  case sound =>
    refine ⟨fun q x => ?_, h.sound.safe, ?_⟩
    · show (s.pushed q).count x = (s.returned q).count x + held (s.owner.hand s.queued q) x +
        held (Function.update (fun _ => none) p (s.queued p H0) q) x +
          occurrences id (s.queued q) (s.rd.H q) (s.owner.tail s.rd.T q) x
      have hacc := h.sound.accounted q x
      unfold State.waiting at hacc
      have hhand : s.lock.hand s.queued q = none := by
        rw [hlock]
        rfl
      rw [hhand, held_none] at hacc
      by_cases hq : q = p
      · subst hq
        have hpred : occurrences id (s.queued q) (H0 + 1 - 1) (s.owner.tail s.rd.T q) x = _ :=
          occurrences_pred hroom.le x
        rw [Int.add_sub_cancel] at hpred
        rw [hfirst, hpred] at hacc
        have hheld : held (s.queued q H0) x = if s.queued q (id H0) = some x then 1 else 0 := rfl
        rw [Function.update_self, hH, hacc, hheld]
        omega
      · rw [hothers q hq] at hacc
        rw [Function.update_of_ne hq, held_none]
        exact hacc
    · exact fun q hlt => h.sound.found q ((h.head_le q).trans_lt hlt)

/-! ## A push -/

omit [DecidableEq Task] in
/-- The hand of a thief has the cell that it is about to read. -/
theorem Lock.hand_congr {load load' : Prio → ℤ → Option Task} (l : Lock κ Task)
    (hread : ∀ u bitmap p H0, l = .thief u (.read bitmap p H0) → load' p H0 = load p H0) :
    l.hand load' = l.hand load := by
  cases l with
  | free | owner => rfl
  | thief u pc =>
      cases pc with
      | read bitmap p H0 =>
          show Function.update _ p _ = Function.update _ p _
          rw [hread u bitmap p H0 rfl]
      | unlock task => cases task <;> rfl
      | _ => rfl

omit [DecidableEq Task] in
/-- A write to a cell of the queue changes this index of this priority. -/
theorem Arrays.queued_write (h : Arrays s.rd.size s.rd.data s.extent s.brk) {p : Prio} {T : ℤ}
    (hin : s.Inside (s.rd.data p) T) (task : Task) (q : Prio) (i : ℤ) :
    (s.write (s.rd.data p) T task).queued q i =
      if q = p ∧ i = T then some task else s.queued q i := by
  obtain ⟨b, hb, _⟩ := id hin
  show (if s.Inside (s.rd.data q) i then (s.rd.data q).bind fun a =>
    if some a = s.rd.data p ∧ i = T then some task else s.cells a i else none) = _
  by_cases hat : q = p ∧ i = T
  · obtain ⟨rfl, rfl⟩ := hat
    rw [if_pos hin, hb, if_pos ⟨rfl, rfl⟩]
    exact if_pos ⟨rfl, rfl⟩
  rw [if_neg hat]
  refine if_congr Iff.rfl ?_ rfl
  cases hdata : s.rd.data q with
  | none => rfl
  | some a =>
      refine if_neg fun hsame => hat ⟨?_, hsame.2⟩
      exact h.distinct q p a hdata hsame.1.symm

/-- The task of a push is stored behind the window. -/
theorem Inv.store {task : Task} {T : ℤ} (h : Inv prio s) (hpc : s.owner = .store task T) :
    Inv prio { (s.touch (s.rd.data (prio task)) T).write (s.rd.data (prio task)) T task with
      owner := .setBit task T } := by
  have howner := h.owner
  rw [hpc] at howner
  obtain ⟨hT, hroom⟩ : Room prio s task T := howner
  have htail : s.owner.tail s.rd.T = s.rd.T := by
    rw [hpc]
    rfl
  have hend : s.owner.tail s.rd.T (prio task) = T := by
    rw [htail, hT]
  have hin : s.Inside (s.rd.data (prio task)) T := by
    refine h.arrays.inside_iff.mpr ⟨?_, hroom⟩
    rw [← hend]
    exact (h.low _).trans (h.le _)
  have hqueued := h.arrays.queued_write hin task
  -- the index that is written is not in a hand of a thief
  have hthief : ∀ q H0, s.rd.H q = H0 + 1 → s.lock.head s.rd.H = s.rd.H →
      (s.write (s.rd.data (prio task)) T task).queued q H0 = s.queued q H0 := by
    intro q H0 hH hhead
    rw [hqueued, if_neg]
    rintro ⟨rfl, rfl⟩
    have hle := h.le (prio task)
    rw [hend, hhead, hH] at hle
    omega
  rw [State.touch_eq_self hin]
  refine h.frame
    { head := rfl, tail := htail.symm, locked := ?_, owner := ⟨⟨hT, hroom⟩, ?_⟩, thief := ?_,
      arrays := h.arrays, queued := ?_, ownerHand := ?_, thiefHand := ?_, size := fun _ => le_rfl,
      bitmap := fun _ _ hb => hb, pushed := rfl, returned := rfl, fault := rfl }
  · refine Iff.trans ?_ h.locked
    rw [hpc]
    rfl
  · exact (hqueued _ _).trans (if_pos ⟨rfl, rfl⟩)
  · show ThiefAt _ s.lock
    have hat := h.thief
    cases hlock : s.lock with
    | free | owner => trivial
    | thief u pc =>
        rw [hlock] at hat
        cases pc with
        | read bitmap q H0 =>
            obtain ⟨hH, hinside, hfilled⟩ := hat
            refine ⟨hH, hinside, fun hnone => hfilled ?_⟩
            exact (hthief q H0 hH (by rw [hlock]; rfl)).symm.trans hnone
        | _ => exact hat
  · intro q i _ hi
    refine (hqueued q i).trans (if_neg ?_)
    rintro ⟨rfl, rfl⟩
    rw [hend] at hi
    exact lt_irrefl _ hi
  · rw [hpc]
    rfl
  · refine s.lock.hand_congr fun u bitmap q H0 hlock => ?_
    have hat := h.thief
    rw [hlock] at hat
    exact hthief q H0 hat.1 (by rw [hlock]; rfl)

/-- The task of a push enters the window. -/
theorem Inv.setT {task : Task} {T : ℤ} (h : Inv prio s) (hpc : s.owner = .setT task T) :
    Inv prio { s with
      rd := { s.rd with T := Function.update s.rd.T (prio task) (T + 1) }
      pushed := Function.update s.pushed (prio task) (task :: s.pushed (prio task))
      owner := .idle } := by
  have howner := h.owner
  rw [hpc] at howner
  obtain ⟨⟨hT, hroom⟩, hcell, hbit⟩ := howner
  have htail : s.owner.tail s.rd.T = s.rd.T := by
    rw [hpc]
    rfl
  have hle : ∀ q, s.lock.head s.rd.H q ≤ s.rd.T q := fun q => by
    rw [← htail]
    exact h.le q
  have hgrown : ∀ q, s.rd.T q ≤ Function.update s.rd.T (prio task) (T + 1) q := by
    intro q
    by_cases hq : q = prio task
    · rw [hq, Function.update_self, hT]
      omega
    · rw [Function.update_of_ne hq]
  constructor
  case arrays => exact h.arrays
  case low => exact h.low
  case le => exact fun q => (hle q).trans (hgrown q)
  case high =>
    show ∀ q, Function.update s.rd.T (prio task) (T + 1) q ≤ s.rd.size q
    intro q
    by_cases hq : q = prio task
    · rw [hq, Function.update_self]
      exact hroom
    · rw [Function.update_of_ne hq, ← htail]
      exact h.high q
  case filled =>
    show ∀ q i, s.lock.head s.rd.H q ≤ i → i < Function.update s.rd.T (prio task) (T + 1) q →
      s.queued q i ≠ none
    intro q i hlo hhi
    by_cases hnew : q = prio task ∧ i = T
    · rw [hnew.1, hnew.2, hcell]
      exact Option.some_ne_none task
    · refine h.filled q i hlo ?_
      rw [htail]
      by_cases hq : q = prio task
      · rw [hq, Function.update_self] at hhi
        have hne : i ≠ T := fun hi => hnew ⟨hq, hi⟩
        rw [hq, hT]
        omega
      · rwa [Function.update_of_ne hq] at hhi
  case locked =>
    refine Iff.trans ?_ h.locked
    rw [hpc]
    rfl
  case owner => trivial
  case thief => exact h.thief
  case sound =>
    refine ⟨fun q x => ?_, h.sound.safe, ?_⟩
    · show (Function.update s.pushed (prio task) (task :: s.pushed (prio task)) q).count x =
        (s.returned q).count x + held none x + held (s.lock.hand s.queued q) x +
          occurrences id (s.queued q) (s.lock.head s.rd.H q)
            (Function.update s.rd.T (prio task) (T + 1) q) x
      have hacc := h.sound.accounted q x
      have hhand : s.owner.hand s.queued q = none := by
        rw [hpc]
        rfl
      unfold State.waiting at hacc
      rw [htail, hhand] at hacc
      by_cases hq : q = prio task
      · subst hq
        have hlo := hle (prio task)
        rw [hT] at hlo hacc
        have hcount : (task :: s.pushed (prio task)).count x =
            (s.pushed (prio task)).count x +
              if s.queued (prio task) (id T) = some x then 1 else 0 := by
          rw [List.count_cons, id_eq, hcell]
          simp only [beq_iff_eq, Option.some.injEq]
        rw [Function.update_self, Function.update_self, occurrences_succ hlo, hcount, hacc]
        omega
      · rw [Function.update_of_ne hq, Function.update_of_ne hq]
        exact hacc
    · show ∀ q, s.lock.head s.rd.H q < Function.update s.rd.T (prio task) (T + 1) q →
        s.rd.bitmap q = true
      intro q hlt
      by_cases hq : q = prio task
      · rw [hq]
        exact hbit
      · rw [Function.update_of_ne hq, ← htail] at hlt
        exact h.sound.found q hlt

/-- The sizes are not negative. -/
theorem Inv.size_nonneg (h : Inv prio s) (p : Prio) : 0 ≤ s.rd.size p :=
  (h.low p).trans ((h.le p).trans (h.high p))

/-- A full initial array is copied. -/
theorem Inv.grow {task : Task} {T : ℤ} (h : Inv prio s) (hpc : s.owner = .grow task T)
    (hinit : s.rd.data (prio task) = s.rd.data0 (prio task)) :
    Inv prio (grow prio s task T) := by
  have howner := h.owner
  rw [hpc] at howner
  obtain ⟨hT, hfull⟩ := howner
  have hnonneg := h.size_nonneg (prio task)
  have hold : ∀ q, ∀ a ∈ s.rd.data q, a ≠ s.brk := fun q a ha =>
    (h.arrays.extent q a ha).2.ne
  have hload : ∀ q i, (OwnerQueue.grow prio s task T).queued q i = s.queued q i := by
    intro q i
    refine State.load_congr (fun a ha => ?_) (fun a ha => ?_) i
    · exact Function.update_of_ne (hold q a ha) _ _
    · exact Function.update_of_ne (hold q a ha) _ _
  have hcopied : s.rd.size (prio task) = 0 ∨
      s.Inside (s.rd.data0 (prio task)) (s.rd.size (prio task) - 1) := by
    rw [← hinit, h.arrays.inside_iff]
    omega
  have hlarger : s.rd.size (prio task) <
      if 2 * s.rd.size (prio task) = 0 then queueDefaultSize else 2 * s.rd.size (prio task) := by
    have hdefault : queueDefaultSize = 16384 := rfl
    split <;> omega
  have htodel : (if s.rd.data (prio task) = s.rd.data0 (prio task) then none
      else s.rd.data (prio task)) = none := if_pos hinit
  refine h.frame
    { head := rfl, tail := ?_, locked := ?_, owner := ?_, thief := ?_, arrays := ?_,
      queued := fun q i _ _ => hload q i, ownerHand := ?_,
      thiefHand := s.lock.hand_congr fun _ _ q H0 _ => hload q H0, fault := ?_,
      size := fun _ => le_rfl, bitmap := fun _ _ hb => hb, pushed := rfl, returned := rfl }
  · rw [hpc]
    rfl
  · refine Iff.trans ?_ h.locked
    rw [hpc]
    rfl
  · refine ⟨hT, hfull, hlarger, htodel, ⟨Function.update_self _ _ _, Nat.lt_succ_self _⟩,
      fun q hq => hold q _ hq rfl, ?_⟩
    funext i
    rw [hload]
    -- behind the old size the new array is undefined
    show (if State.Inside _ (some s.brk) i then Function.update s.cells s.brk _ s.brk i else none) =
      s.load (s.rd.data (prio task)) i
    rw [Function.update_self, ← hinit]
    unfold State.load
    by_cases hin : s.Inside (s.rd.data (prio task)) i
    · obtain ⟨hlo, hhi⟩ := h.arrays.inside_iff.mp hin
      rw [if_pos hin, if_pos hhi, if_pos]
      refine ⟨s.brk, rfl, hlo, ?_⟩
      show i < Function.update s.extent s.brk _ s.brk
      rw [Function.update_self]
      exact hhi.trans hlarger
    · rw [if_neg hin]
      exact ite_eq_right_iff.mpr fun _ => ite_self none
  · have hthief := h.thief
    show ThiefAt _ s.lock
    cases hlock : s.lock with
    | free | owner => trivial
    | thief u pc =>
        rw [hlock] at hthief
        cases pc with
        | read bitmap q H0 =>
            obtain ⟨hH, ⟨a, ha, hin⟩, hfilled⟩ := hthief
            refine ⟨hH, ⟨a, ha, ?_⟩, fun hnone => hfilled ((hload q H0).symm.trans hnone)⟩
            show 0 ≤ H0 ∧ H0 < Function.update s.extent s.brk _ a
            rwa [Function.update_of_ne (hold q a ha)]
        | _ => exact hthief
  · refine ⟨fun q b hb => ?_, h.arrays.empty, h.arrays.distinct⟩
    obtain ⟨hext, hlt⟩ := h.arrays.extent q b hb
    exact ⟨(Function.update_of_ne hlt.ne _ _).trans hext, Nat.lt_succ_of_lt hlt⟩
  · rw [hpc]
    rfl
  · show (s.fault || !decide _) = s.fault
    rw [decide_eq_true hcopied, Bool.not_true, Bool.or_false]

omit [DecidableEq Task] in
/-- An unused array becomes that of a priority. -/
theorem Arrays.set {size : Prio → ℤ} {data : Prio → Option ℕ} {extent : ℕ → ℤ} {brk d : ℕ}
    {p : Prio} {newsize : ℤ} (h : Arrays size data extent brk) (hd : extent d = newsize ∧ d < brk)
    (hunused : ∀ q, data q ≠ some d) :
    Arrays (Function.update size p newsize) (Function.update data p (some d)) extent brk := by
  constructor
  case extent =>
    intro q b hb
    by_cases hqp : q = p
    · rw [hqp, Function.update_self] at hb ⊢
      cases hb
      exact hd
    · rw [Function.update_of_ne hqp] at hb ⊢
      exact h.extent q b hb
  case empty =>
    intro q hq
    by_cases hqp : q = p
    · rw [hqp, Function.update_self] at hq
      cases hq
    · rw [Function.update_of_ne hqp] at hq ⊢
      exact h.empty q hq
  case distinct =>
    intro q r b hq hr
    by_cases hqp : q = p
    · by_cases hrp : r = p
      · rw [hqp, hrp]
      · rw [hqp, Function.update_self] at hq
        rw [Function.update_of_ne hrp, ← hq] at hr
        exact absurd hr (hunused r)
    · rw [Function.update_of_ne hqp] at hq
      by_cases hrp : r = p
      · rw [hrp, Function.update_self] at hr
        rw [← hr] at hq
        exact absurd hq (hunused q)
      · rw [Function.update_of_ne hrp] at hr
        exact h.distinct q r b hq hr

/-- The copy becomes the array of the priority. -/
theorem Inv.growSet {task : Task} {T newsize : ℤ} {data : ℕ} {todel : Option ℕ} (h : Inv prio s)
    (hpc : s.owner = .growSet task T newsize data todel) :
    Inv prio { s with
      rd := { s.rd with
        size := Function.update s.rd.size (prio task) newsize
        data := Function.update s.rd.data (prio task) (some data) }
      owner := .growUnlock task T todel } := by
  have howner := h.owner
  rw [hpc] at howner
  have hgrown : Grown prio s task T newsize data todel := howner
  have hlock : s.lock = .owner := h.locked.mp (by rw [hpc]; trivial)
  have hqueued : ∀ q i, s.load (Function.update s.rd.data (prio task) (some data) q) i =
      s.queued q i := by
    intro q i
    by_cases hq : q = prio task
    · rw [hq, Function.update_self, hgrown.copied]
    · rw [Function.update_of_ne hq]
      rfl
  refine h.frame
    { head := rfl, tail := ?_, locked := ?_, owner := ⟨⟨hgrown.T_eq, ?_⟩, hgrown.todel_eq⟩,
      thief := ?_, arrays := ?_, size := fun q => ?_, queued := fun q i _ _ => hqueued q i,
      ownerHand := ?_, thiefHand := s.lock.hand_congr fun _ _ q H0 _ => hqueued q H0,
      bitmap := fun _ _ hb => hb, pushed := rfl, returned := rfl, fault := rfl }
  · rw [hpc]
    rfl
  · exact ⟨fun _ => hlock, fun _ => trivial⟩
  · show T < Function.update s.rd.size (prio task) newsize (prio task)
    rw [Function.update_self, hgrown.full]
    exact hgrown.larger
  · show ThiefAt _ s.lock
    rw [hlock]
    trivial
  · exact h.arrays.set hgrown.extent hgrown.unused
  · show s.rd.size q ≤ Function.update s.rd.size (prio task) newsize q
    by_cases hq : q = prio task
    · rw [hq, Function.update_self]
      exact hgrown.larger.le
    · rw [Function.update_of_ne hq]
  · rw [hpc]
    rfl

/-! ## A return -/

/-- A returned task leaves the hand. -/
theorem count_returned (returned : Prio → List Task) (p q : Prio) (task x : Task) :
    (Function.update returned p (task :: returned p) q).count x =
      (returned q).count x + held (Function.update (fun _ => none) p (some task) q) x := by
  by_cases hq : q = p
  · rw [hq, Function.update_self, Function.update_self, List.count_cons]
    simp only [held, beq_iff_eq, Option.some.injEq]
  · rw [Function.update_of_ne hq, Function.update_of_ne hq]
    rfl

/-- The owner returns a task. -/
theorem Inv.giveOwner {T0 : Limit} {p : Prio} {task : Task} (h : Inv prio s)
    (hpc : s.owner = .out T0 p (some task)) :
    Inv prio { s with
      returned := Function.update s.returned p (task :: s.returned p)
      owner := .idle } := by
  have htail : s.owner.tail s.rd.T = s.rd.T := by
    rw [hpc]
    rfl
  constructor
  case arrays => exact h.arrays
  case low => exact h.low
  case le =>
    rw [← htail]
    exact h.le
  case high =>
    rw [← htail]
    exact h.high
  case filled =>
    rw [← htail]
    exact h.filled
  case locked =>
    refine Iff.trans ?_ h.locked
    rw [hpc]
    rfl
  case owner => trivial
  case thief => exact h.thief
  case sound =>
    refine ⟨fun q x => ?_, h.sound.safe, ?_⟩
    · have hacc := h.sound.accounted q x
      have hhand : s.owner.hand s.queued = Function.update (fun _ => none) p (some task) := by
        rw [hpc]
        rfl
      have hret := count_returned s.returned p q task x
      rw [hhand] at hacc
      unfold State.waiting at hacc ⊢
      rw [htail] at hacc
      show (s.pushed q).count x = (Function.update s.returned p (task :: s.returned p) q).count x +
        held none x + held (s.lock.hand s.queued q) x + _
      rw [hret, hacc, held_none]
      exact Nat.add_right_cancel_iff.mpr (Nat.add_right_cancel_iff.mpr rfl)
    · have hfound := h.sound.found
      rw [htail] at hfound
      exact hfound

/-- A thief returns a task and leaves. -/
theorem Inv.giveThief {u : κ} {p : Prio} {task : Task} (h : Inv prio s)
    (hlock : s.lock = .thief u (.unlock (some (p, task))))
    (hat : OwnerAt prio { s with
      returned := Function.update s.returned p (task :: s.returned p)
      lock := (.free : Lock κ Task) } s.owner) :
    Inv prio { s with
      returned := Function.update s.returned p (task :: s.returned p)
      lock := (.free : Lock κ Task) } := by
  have hhead : s.lock.head s.rd.H = s.rd.H := by
    rw [hlock]
    rfl
  constructor
  case arrays => exact h.arrays
  case low =>
    rw [← hhead]
    exact h.low
  case le =>
    rw [← hhead]
    exact h.le
  case high => exact h.high
  case filled =>
    rw [← hhead]
    exact h.filled
  case locked =>
    refine h.locked.trans ?_
    rw [hlock]
    exact ⟨nofun, nofun⟩
  case owner => exact hat
  case thief => trivial
  case sound =>
    refine ⟨fun q x => ?_, h.sound.safe, ?_⟩
    · have hacc := h.sound.accounted q x
      have hhand : s.lock.hand s.queued = Function.update (fun _ => none) p (some task) := by
        rw [hlock]
        rfl
      have hret := count_returned s.returned p q task x
      rw [hhand] at hacc
      unfold State.waiting at hacc ⊢
      rw [hhead] at hacc
      show (s.pushed q).count x = (Function.update s.returned p (task :: s.returned p) q).count x +
        held (s.owner.hand s.queued q) x + held none x + _
      rw [hret, hacc, held_none]
      exact Nat.add_right_cancel_iff.mpr (by omega)
    · have hfound := h.sound.found
      rw [hhead] at hfound
      exact hfound

/-! ## Steps -/

omit [DecidableEq Task] in
/-- A step of a thief moves `H` only, and leaves an empty queue empty. -/
theorem OwnerAt.of_thief {pc : OwnerPc Task} {H : Prio → ℤ} {l : Lock κ Task}
    {returned : Prio → List Task} (h : OwnerAt prio s pc)
    (hempty : ∀ p, s.Empty p → s.owner.tail s.rd.T p ≤ l.head H p) :
    OwnerAt prio { s with rd := { s.rd with H := H }, lock := l, returned := returned } pc := by
  cases pc with
  | growLock | growSet => exact { h with }
  | restore T0 p T => exact ⟨h.1, hempty p h.2⟩
  | unlock T0 p task | out T0 p task => exact fun hnone => hempty p (h hnone)
  | _ => exact h

/-- A step of a thief that takes or gives no task keeps the invariant. -/
theorem Inv.moveThief {l : Lock κ Task} {H : Prio → ℤ} (h : Inv prio s) (hs : s.lock ≠ .owner)
    (hl : l ≠ .owner) (hhead : l.head H = s.lock.head s.rd.H)
    (hhand : l.hand s.queued = s.lock.hand s.queued)
    (hat : ThiefAt { s with rd := { s.rd with H := H }, lock := l } l) :
    Inv prio { s with rd := { s.rd with H := H }, lock := l } := by
  refine h.frame
    { head := hhead, tail := rfl, locked := ?_, owner := ?_, thief := hat, arrays := h.arrays,
      thiefHand := hhand, size := fun _ => le_rfl, queued := fun _ _ _ _ => rfl, ownerHand := rfl,
      bitmap := fun _ _ hb => hb, pushed := rfl, returned := rfl, fault := rfl }
  · exact ⟨fun hlocked => absurd (h.locked.mp hlocked) hs, fun heq => absurd heq hl⟩
  · refine h.owner.of_thief fun p hempty => ?_
    rw [hhead]
    exact hempty

/-- A step of a thief keeps the invariant. -/
theorem Inv.thiefStep {u : κ} {pc : ThiefPc Task} (h : Inv prio s) (hlock : s.lock = .thief u pc) :
    Inv prio (thiefStep s u pc) := by
  have hs : s.lock ≠ .owner := fun hown => by
    rw [hlock] at hown
    cases hown
  have hthief := h.thief
  rw [hlock] at hthief
  have hhead := (congrArg (fun l => l.head s.rd.H) hlock).symm
  have hhand := (congrArg (fun l => l.hand s.queued) hlock).symm
  cases pc with
  | readBitmap => exact h.moveThief hs nofun hhead hhand trivial
  | redo bitmap =>
      cases htop : highest bitmap with
      | none =>
          simp only [OwnerQueue.thiefStep, htop]
          exact h.moveThief hs nofun hhead hhand trivial
      | some p =>
          have hback : Function.update (Function.update s.rd.H p (s.rd.H p + 1)) p (s.rd.H p) =
              s.lock.head s.rd.H := by
            rw [Function.update_idem, Function.update_eq_self]
            exact hhead
          simp only [OwnerQueue.thiefStep, htop]
          exact h.moveThief hs nofun hback hhand (Function.update_self _ _ _)
  | readT bitmap p H0 =>
      by_cases hle : s.rd.T p ≤ H0 + 1
      · simp only [OwnerQueue.thiefStep, if_pos hle]
        exact h.moveThief hs nofun hhead hhand hthief
      · simp only [OwnerQueue.thiefStep, if_neg hle]
        exact h.takeFirst hlock hle fun hempty => h.owner.of_thief (H := s.rd.H) hempty
  | restoreH bitmap p H0 => exact h.moveThief hs nofun hhead hhand trivial
  | read bitmap p H0 =>
      obtain ⟨_, hin, hfilled⟩ := hthief
      obtain ⟨task, htask⟩ := Option.ne_none_iff_exists'.mp hfilled
      have htask' : s.load (s.rd.data p) H0 = some task := htask
      have hheld : Function.update (fun _ => none) p (some task) = s.lock.hand s.queued := by
        rw [← htask]
        exact hhand
      simp only [OwnerQueue.thiefStep, htask', State.touch_eq_self hin]
      exact h.moveThief hs nofun hhead hheld trivial
  | unlock task =>
      cases task with
      | none => exact h.moveThief hs nofun hhead hhand trivial
      | some x =>
          refine h.giveThief hlock (h.owner.of_thief (H := s.rd.H) fun p hempty => ?_)
          unfold State.Empty at hempty
          rw [hlock] at hempty
          exact hempty

/-- A step of the owner that moves no index and takes or gives no task keeps the invariant. -/
theorem Inv.moveOwner {pc : OwnerPc Task} (h : Inv prio s)
    (htail : pc.tail s.rd.T = s.owner.tail s.rd.T)
    (hhand : pc.hand s.queued = s.owner.hand s.queued) (hlocked : pc.Locked ↔ s.owner.Locked)
    (hat : OwnerAt prio { s with owner := pc } pc) : Inv prio { s with owner := pc } :=
  h.frame
    { head := rfl, tail := htail, locked := hlocked.trans h.locked, owner := hat, thief := h.thief,
      arrays := h.arrays, ownerHand := hhand, size := fun _ => le_rfl, queued := fun _ _ _ _ => rfl,
      thiefHand := rfl, bitmap := fun _ _ hb => hb, pushed := rfl, returned := rfl, fault := rfl }

/-- The owner takes the lock when it is free. -/
theorem Inv.lockOwner {pc : OwnerPc Task} (h : Inv prio s) (hlock : s.lock = .free)
    (htail : pc.tail s.rd.T = s.owner.tail s.rd.T)
    (hhand : pc.hand s.queued = s.owner.hand s.queued) (hlocked : pc.Locked)
    (hat : OwnerAt prio { s with owner := pc, lock := (.owner : Lock κ Task) } pc) :
    Inv prio { s with owner := pc, lock := (.owner : Lock κ Task) } := by
  refine h.frame
    { head := ?_, tail := htail, locked := ⟨fun _ => rfl, fun _ => hlocked⟩, owner := hat,
      thief := trivial, arrays := h.arrays, ownerHand := hhand, thiefHand := ?_,
      size := fun _ => le_rfl, queued := fun _ _ _ _ => rfl, bitmap := fun _ _ hb => hb,
      pushed := rfl, returned := rfl, fault := rfl }
  · rw [hlock]
    rfl
  · rw [hlock]
    rfl

/-- The owner releases the lock. -/
theorem Inv.unlockOwner {pc : OwnerPc Task} (h : Inv prio s) (hlock : s.lock = .owner)
    (htail : pc.tail s.rd.T = s.owner.tail s.rd.T)
    (hhand : pc.hand s.queued = s.owner.hand s.queued) (hlocked : ¬ pc.Locked)
    (hat : OwnerAt prio { s with owner := pc, lock := (.free : Lock κ Task) } pc) :
    Inv prio { s with owner := pc, lock := (.free : Lock κ Task) } := by
  refine h.frame
    { head := ?_, tail := htail, locked := ⟨fun hl => absurd hl hlocked, nofun⟩, owner := hat,
      thief := trivial, arrays := h.arrays, ownerHand := hhand, thiefHand := ?_,
      size := fun _ => le_rfl, queued := fun _ _ _ _ => rfl, bitmap := fun _ _ hb => hb,
      pushed := rfl, returned := rfl, fault := rfl }
  · rw [hlock]
    rfl
  · rw [hlock]
    rfl

/-- The owner moves `T` where the indices that are not taken stay the same. -/
theorem Inv.moveT {pc : OwnerPc Task} {T : Prio → ℤ} (h : Inv prio s)
    (htail : pc.tail T = s.owner.tail s.rd.T)
    (hhand : pc.hand s.queued = s.owner.hand s.queued) (hlocked : pc.Locked ↔ s.owner.Locked)
    (hat : OwnerAt prio { s with rd := { s.rd with T := T }, owner := pc } pc) :
    Inv prio { s with rd := { s.rd with T := T }, owner := pc } :=
  h.frame
    { head := rfl, tail := htail, locked := hlocked.trans h.locked, owner := hat, thief := h.thief,
      arrays := h.arrays, ownerHand := hhand, size := fun _ => le_rfl, queued := fun _ _ _ _ => rfl,
      thiefHand := rfl, bitmap := fun _ _ hb => hb, pushed := rfl, returned := rfl, fault := rfl }

/-- A step of the owner keeps the invariant, when it does not replace an array a second time. -/
theorem Inv.ownerStep (h : Inv prio s) (hok : Respects prio s .owner)
    (hstep : ownerStep prio s = some t) : Inv prio t := by
  have howner := h.owner
  have hlocked := h.locked
  cases hpc : s.owner with
  | idle =>
      simp only [OwnerQueue.ownerStep, hpc] at hstep
      cases hstep
  | push task =>
      simp only [OwnerQueue.ownerStep, hpc] at hstep
      cases hstep
      by_cases hfull : s.rd.T (prio task) = s.rd.size (prio task)
      · simp only [if_pos hfull]
        refine h.moveOwner ?_ ?_ ?_ ⟨rfl, hfull⟩ <;> rw [hpc] <;> rfl
      · simp only [if_neg hfull]
        have hle := h.high (prio task)
        rw [hpc] at hle
        have hlt : s.rd.T (prio task) < s.rd.size (prio task) := lt_of_le_of_ne hle hfull
        refine h.moveOwner ?_ ?_ ?_ ⟨rfl, hlt⟩ <;> rw [hpc] <;> rfl
  | grow task T =>
      simp only [OwnerQueue.ownerStep, hpc] at hstep
      cases hstep
      refine h.grow hpc (hok task ?_)
      rw [hpc]
      rfl
  | growLock task T newsize data todel =>
      simp only [OwnerQueue.ownerStep, hpc] at hstep
      rw [hpc] at howner
      cases hlock : s.lock with
      | free =>
          simp only [hlock] at hstep
          cases hstep
          refine h.lockOwner hlock ?_ ?_ trivial { (howner : Grown ..) with } <;> rw [hpc] <;> rfl
      | owner | thief u pc =>
          simp only [hlock] at hstep
          cases hstep
  | growSet task T newsize data todel =>
      simp only [OwnerQueue.ownerStep, hpc] at hstep
      cases hstep
      exact h.growSet hpc
  | growUnlock task T todel =>
      simp only [OwnerQueue.ownerStep, hpc] at hstep
      cases hstep
      rw [hpc] at howner hlocked
      refine h.unlockOwner (hlocked.mp trivial) ?_ ?_ id howner <;> rw [hpc] <;> rfl
  | growFree task T todel =>
      simp only [OwnerQueue.ownerStep, hpc] at hstep
      cases hstep
      rw [hpc] at howner
      obtain ⟨hroom, rfl⟩ := howner
      -- nothing is freed
      refine h.moveOwner ?_ ?_ ?_ hroom <;> rw [hpc] <;> rfl
  | store task T =>
      simp only [OwnerQueue.ownerStep, hpc] at hstep
      cases hstep
      exact h.store hpc
  | setBit task T =>
      simp only [OwnerQueue.ownerStep, hpc] at hstep
      cases hstep
      rw [hpc] at howner
      obtain ⟨hroom, hcell⟩ := howner
      refine h.frame
        { head := rfl, tail := ?_, locked := ?_, thief := h.thief, arrays := h.arrays,
          owner := ⟨hroom, hcell, Function.update_self _ _ _⟩, ownerHand := ?_,
          bitmap := fun p _ hb => ?_, size := fun _ => le_rfl, queued := fun _ _ _ _ => rfl,
          thiefHand := rfl, pushed := rfl, returned := rfl, fault := rfl }
      · rw [hpc]
        rfl
      · refine Iff.trans ?_ hlocked
        rw [hpc]
        rfl
      · rw [hpc]
        rfl
      · show Function.update s.rd.bitmap (prio task) true p = true
        by_cases hp : p = prio task
        · rw [hp, Function.update_self]
        · rw [Function.update_of_ne hp]
          exact hb
  | setT task T =>
      simp only [OwnerQueue.ownerStep, hpc] at hstep
      cases hstep
      exact h.setT hpc
  | readBitmap T0 =>
      simp only [OwnerQueue.ownerStep, hpc] at hstep
      cases htop : highest s.rd.bitmap with
      | none =>
          simp only [htop] at hstep
          cases hstep
          refine h.moveOwner ?_ ?_ ?_ trivial <;> rw [hpc] <;> rfl
      | some p =>
          simp only [htop] at hstep
          cases hstep
          refine h.moveOwner ?_ ?_ ?_ trivial <;> rw [hpc] <;> rfl
  | decT T0 p =>
      simp only [OwnerQueue.ownerStep, hpc] at hstep
      split at hstep
      · cases hstep
        refine h.moveOwner ?_ ?_ ?_ trivial <;> rw [hpc] <;> rfl
      · cases hstep
        refine h.moveT ?_ ?_ ?_ (Function.update_self _ _ _) <;> rw [hpc]
        · show Function.update (Function.update s.rd.T p _) p (s.rd.T p - 1 + 1) = s.rd.T
          rw [Function.update_idem, Int.sub_add_cancel, Function.update_eq_self]
        · rfl
        · rfl
  | testH T0 p T =>
      simp only [OwnerQueue.ownerStep, hpc] at hstep
      cases hstep
      rw [hpc] at howner
      have hT : s.rd.T p = T := howner
      by_cases hle : s.rd.H p ≤ T
      · simp only [if_pos hle]
        refine h.takeLast ?_ ?_ hT hle rfl rfl ?_ id <;> rw [hpc] <;> rfl
      · simp only [if_neg hle]
        refine h.moveOwner ?_ ?_ ?_ hT <;> rw [hpc] <;> rfl
  | rollBack T0 p T =>
      simp only [OwnerQueue.ownerStep, hpc] at hstep
      cases hstep
      refine h.moveT ?_ ?_ ?_ trivial <;> rw [hpc] <;> rfl
  | lock T0 p =>
      simp only [OwnerQueue.ownerStep, hpc] at hstep
      cases hlock : s.lock with
      | free =>
          simp only [hlock] at hstep
          cases hstep
          refine h.lockOwner hlock ?_ ?_ trivial trivial <;> rw [hpc] <;> rfl
      | owner | thief u pc =>
          simp only [hlock] at hstep
          cases hstep
  | decLocked T0 p =>
      simp only [OwnerQueue.ownerStep, hpc] at hstep
      cases hstep
      refine h.moveT ?_ ?_ ?_ (Function.update_self _ _ _) <;> rw [hpc]
      · show Function.update (Function.update s.rd.T p _) p (s.rd.T p - 1 + 1) = s.rd.T
        rw [Function.update_idem, Int.sub_add_cancel, Function.update_eq_self]
      · rfl
      · rfl
  | testLocked T0 p T =>
      simp only [OwnerQueue.ownerStep, hpc] at hstep
      cases hstep
      rw [hpc] at howner hlocked
      have hT : s.rd.T p = T := howner
      by_cases hle : s.rd.H p ≤ T
      · simp only [if_pos hle]
        refine h.takeLast ?_ ?_ hT hle rfl rfl ?_ id <;> rw [hpc] <;> rfl
      · simp only [if_neg hle]
        -- no thief is active, so the queue is empty
        have hempty : Function.update s.rd.T p (T + 1) p ≤ s.lock.head s.rd.H p := by
          rw [hlocked.mp trivial, Function.update_self]
          exact not_le.mp hle
        refine h.moveOwner ?_ ?_ ?_ ⟨hT, hempty⟩ <;> rw [hpc] <;> rfl
  | readLocked T0 p T =>
      simp only [OwnerQueue.ownerStep, hpc] at hstep
      cases hstep
      rw [hpc] at howner
      obtain ⟨hin, hfilled⟩ : s.Filled p T := howner
      rw [State.touch_eq_self hin]
      refine h.moveOwner ?_ ?_ ?_ (fun hnone => absurd hnone hfilled) <;> rw [hpc] <;> rfl
  | restore T0 p T =>
      simp only [OwnerQueue.ownerStep, hpc] at hstep
      cases hstep
      rw [hpc] at howner
      obtain ⟨_, hempty⟩ := howner
      refine h.moveT ?_ ?_ ?_ (fun _ => ?_)
      · rw [hpc]
        rfl
      · rw [hpc]
        exact Function.update_eq_self p fun _ => none
      · rw [hpc]
        rfl
      · unfold State.Empty at hempty
        rw [hpc] at hempty
        exact hempty
  | unlock T0 p task =>
      simp only [OwnerQueue.ownerStep, hpc] at hstep
      cases hstep
      rw [hpc] at howner hlocked
      have hlock := hlocked.mp trivial
      refine h.unlockOwner hlock ?_ ?_ id (fun hnone => ?_)
      · rw [hpc]
        rfl
      · rw [hpc]
        rfl
      · have hempty : s.owner.tail s.rd.T p ≤ s.lock.head s.rd.H p := howner hnone
        rw [hpc, hlock] at hempty
        exact hempty
  | read T0 p T =>
      simp only [OwnerQueue.ownerStep, hpc] at hstep
      cases hstep
      rw [hpc] at howner
      obtain ⟨hin, hfilled⟩ : s.Filled p T := howner
      rw [State.touch_eq_self hin]
      refine h.moveOwner ?_ ?_ ?_ (fun hnone => absurd hnone hfilled) <;> rw [hpc] <;> rfl
  | out T0 p task =>
      cases task with
      | none =>
          simp only [OwnerQueue.ownerStep, hpc] at hstep
          cases hstep
          rw [hpc] at howner
          have hempty : s.owner.tail s.rd.T p ≤ s.lock.head s.rd.H p := howner rfl
          refine h.frame
            { head := rfl, tail := ?_, locked := ?_, owner := trivial, thief := h.thief,
              arrays := h.arrays, ownerHand := ?_, bitmap := fun q hlt hb => ?_,
              size := fun _ => le_rfl, queued := fun _ _ _ _ => rfl, thiefHand := rfl,
              pushed := rfl, returned := rfl, fault := rfl }
          · rw [hpc]
            rfl
          · refine Iff.trans ?_ hlocked
            rw [hpc]
            rfl
          · rw [hpc]
            exact (Function.update_eq_self p fun _ => none).symm
          · show Function.update s.rd.bitmap p false q = true
            have hq : q ≠ p := by
              rintro rfl
              exact absurd hlt (not_lt.mpr hempty)
            rw [Function.update_of_ne hq]
            exact hb
      | some task =>
          simp only [OwnerQueue.ownerStep, hpc] at hstep
          cases hstep
          exact h.giveOwner hpc

/-! ## Runs -/

/-- The queue after its initialisation. -/
theorem Inv.initial (h : Initial s) : Inv prio s := by
  obtain ⟨size, hnonneg, _, hrd, hextent, hbrk, howner, hlock, hpushed, hreturned, hfault⟩ := h
  constructor
  case arrays =>
    have hdata : ∀ p, s.rd.data p = if p = 0 then some 0 else none := fun p => by rw [hrd]
    have hsize : ∀ p, s.rd.size p = if p = 0 then size else 0 := fun p => by rw [hrd]
    have hzero : ∀ p b, s.rd.data p = some b → p = 0 := by
      intro p b hb
      by_contra hp
      rw [hdata, if_neg hp] at hb
      cases hb
    refine ⟨fun p b hb => ?_, fun p hp => ?_, fun p q b hp hq => ?_⟩
    · have hp := hzero p b hb
      rw [hdata, if_pos hp] at hb
      cases hb
      rw [hsize, if_pos hp, hbrk]
      exact ⟨hextent, Nat.one_pos⟩
    · rw [hsize]
      refine if_neg fun hp0 => ?_
      rw [hdata, if_pos hp0] at hp
      cases hp
    · rw [hzero p b hp, hzero q b hq]
  case low =>
    rw [hlock, hrd]
    exact fun _ => le_rfl
  case le =>
    rw [hlock, howner, hrd]
    exact fun _ => le_rfl
  case high =>
    rw [howner, hrd]
    intro p
    show (0 : ℤ) ≤ if p = 0 then size else 0
    split
    · exact hnonneg
    · exact le_rfl
  case filled =>
    rw [hlock, howner, hrd]
    exact fun p i hlo hhi => absurd hhi (not_lt.mpr hlo)
  case locked =>
    rw [howner, hlock]
    exact ⟨False.elim, nofun⟩
  case owner =>
    rw [howner]
    trivial
  case thief =>
    rw [hlock]
    trivial
  case sound =>
    refine ⟨fun p x => ?_, hfault, ?_⟩
    · unfold State.waiting
      rw [hpushed, hreturned, howner, hlock, hrd]
      show 0 = 0 + 0 + 0 + occurrences id (s.queued p) 0 0 x
      rw [occurrences_empty le_rfl]
    · rw [hlock, howner, hrd]
      exact fun p hlt => absurd hlt (lt_irrefl _)

/-- A step keeps the invariant. -/
theorem Inv.step {a : Action κ Task} (h : Inv prio s) (hok : Respects prio s a)
    (hstep : step prio s a = some t) : Inv prio t := by
  cases a with
  | push task =>
      simp only [OwnerQueue.step] at hstep
      split at hstep
      case h_1 hpc =>
        cases hstep
        refine h.moveOwner ?_ ?_ ?_ trivial <;> rw [hpc] <;> rfl
      case h_2 => cases hstep
  | pop T0 =>
      simp only [OwnerQueue.step] at hstep
      split at hstep
      case h_1 hpc =>
        cases hstep
        refine h.moveOwner ?_ ?_ ?_ trivial <;> rw [hpc] <;> rfl
      case h_2 => cases hstep
  | owner => exact h.ownerStep hok hstep
  | steal u =>
      simp only [OwnerQueue.step] at hstep
      split at hstep
      case h_1 hlock =>
        cases hstep
        refine h.moveThief (fun hown => ?_) nofun ?_ ?_ trivial
        · rw [hown] at hlock
          cases hlock
        · rw [hlock]
          rfl
        · rw [hlock]
          rfl
      case h_2 => cases hstep
  | thief =>
      simp only [OwnerQueue.step] at hstep
      split at hstep
      case h_1 u pc hlock =>
        cases hstep
        exact h.thiefStep hlock
      case h_2 => cases hstep

/-- In every run that replaces an array only while it is the initial one, no task is lost, returned
twice or replaced by another value. -/
theorem ownerQueue_sound (hs : (system prio).ReachableWhen (Respects prio) s) : Sound s := by
  have h : Inv prio s := by
    induction hs with
    | start hinit => exact .initial hinit
    | next _ hok hstep ih => exact ih.step hok hstep
  exact h.sound

/-- A queue with an array of one cell. -/
def emptyState : State Bool ℕ where
  rd := { T := fun _ => 0
          bitmap := fun _ => false
          size := fun p => if p = 0 then 1 else 0
          data := fun p => if p = 0 then some 0 else none
          data0 := fun p => if p = 0 then some 0 else none
          H := fun _ => 0 }
  cells := fun _ _ => none
  extent := fun _ => 1
  brk := 1
  owner := .idle
  lock := .free
  pushed := fun _ => []
  returned := fun _ => []
  fault := false

theorem emptyState_initial : Initial emptyState :=
  ⟨1, by decide, by decide, rfl, rfl, rfl, rfl, rfl, rfl, rfl, rfl⟩

/-- A push into the array of `emptyState`, and one that replaces it. -/
def push (task : ℕ) : List (Action Bool ℕ) :=
  .push task :: List.replicate 4 .owner

def pushAndGrow (task : ℕ) : List (Action Bool ℕ) :=
  .push task :: List.replicate 9 .owner

/-- A thief and the owner meet at the last task of an array that was replaced. -/
theorem ownerQueue_sound_race :
    Sound (((system fun _ => 0).replay (Respects fun _ => 0) emptyState
      (push 5 ++ pushAndGrow 6 ++ .steal true :: List.replicate 5 .thief ++
        [.steal false, .thief, .thief, .pop none, .owner, .owner, .owner, .thief, .owner, .thief,
          .thief, .thief] ++ List.replicate 6 .owner)).get (by decide)) :=
  ownerQueue_sound ((TransitionSystem.ReachableWhen.start emptyState_initial).replay
    (Option.some_get _).symm)

/-- The second replacement of an array copies the initial one, and the task behind its end is
lost. -/
theorem not_ownerQueue_sound :
    ¬ ∀ s : State Bool ℕ, (system fun _ => 0).Reachable s → Sound s := by
  intro hall
  let s := ((system fun _ => 0).run emptyState (push 5 ++ pushAndGrow 6 ++ pushAndGrow 7)).get
    (by decide)
  have hs : (system fun _ => 0).Reachable s :=
    (TransitionSystem.ReachableWhen.start emptyState_initial).replay (Option.some_get _).symm
  exact absurd ((hall s hs).accounted 0 6) (by decide)

end Xkblas.Sched.OwnerQueue
