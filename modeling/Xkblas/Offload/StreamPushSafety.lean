import Mathlib.Data.Nat.ModEq
import Mathlib.Order.Basic
import Xkblas.Offload.StreamPush
import Xkblas.Library.FinLiteral

/-!
# Pushing in a stream is mutually exclusive

The loop of the push also ends when its condition finds that the array is not full any more. Then
the thread returns a slot without the mutex. In the runs without such an end a thread that has
returned from the push holds the mutex and a free slot.
-/

namespace Xkblas.Offload.StreamPush

open Library Offload.Stream
open scoped Library.FinLiteral

variable {τ κ : Type*} {t : τ} {m m' : Shared τ κ} {c c' : Control κ} {inst : Instruction κ}

/-! ## The array -/

/-- The slot of the index that a counter stands for. -/
theorem mod_slot {count n : ℕ} (h : count ∣ 2 ^ 64 ∨ n < 2 ^ 64) :
    n % 2 ^ 64 % count = n % count := by
  rcases h with hdvd | hlt
  · exact Nat.mod_mod_of_dvd n hdvd
  · rw [Nat.mod_eq_of_lt hlt]

theorem Intact.slotW (h : Intact m) (hu : Unwrapped m) :
    m.posW % m.count = m.committed.length % m.count := by
  rw [h.posW]
  exact mod_slot hu

theorem Intact.slotR (h : Intact m) (hu : Unwrapped m) :
    m.posR % m.count = m.launched.length % m.count := by
  rw [h.posR]
  exact mod_slot (hu.imp_right (Nat.lt_of_le_of_lt h.le))

/-- The difference of the counters is the number of instructions that are not launched. -/
theorem Intact.sub (h : Intact m) :
    uint64 (m.posW - m.posR) = m.committed.length - m.launched.length := by
  have hle := h.le
  have hfits := h.fits
  have hcount := h.count_lt
  rw [h.posR, h.posW]
  unfold uint64
  omega

theorem uint64_mod_succ (n : ℕ) : uint64 ((n % 2 ^ 64 : ℕ) + 1) = (n + 1) % 2 ^ 64 := by
  unfold uint64
  omega

/-- The mutex and the pending instructions do not matter. -/
theorem Intact.lock {o : Option τ} (h : Intact m) : Intact { m with mutex := o } :=
  ⟨h.le, h.fits, h.count_lt, h.posR, h.posW, h.contents⟩

theorem Intact.pend {n : ℕ} {pending : ℕ → Instruction κ} (h : Intact m) :
    Intact { m with pending := pending, posWp := n } :=
  ⟨h.le, h.fits, h.count_lt, h.posR, h.posW, h.contents⟩

/-- The slot of an array that is not full is written. -/
theorem Intact.write (h : Intact m) (hu : Unwrapped m)
    (hroom : m.committed.length < m.launched.length + m.count) :
    Intact { m with instr := Function.update m.instr (m.posW % m.count) inst } where
  le := h.le
  fits := h.fits
  count_lt := h.count_lt
  posR := h.posR
  posW := h.posW
  contents := by
    show m.launched ++ Library.contents (Function.update m.instr (m.posW % m.count) inst) m.count
      m.launched.length m.committed.length = m.committed
    rw [h.slotW hu, contents_update_end hroom]
    exact h.contents

/-- The instruction of the slot is committed. -/
theorem Intact.commit (h : Intact m) (hu : Unwrapped m)
    (hroom : m.committed.length < m.launched.length + m.count) :
    Intact { m with
      posW := uint64 (m.posW + 1)
      committed := m.committed ++ [m.instr (m.posW % m.count)] } where
  le := by
    have hle := h.le
    show m.launched.length ≤ (m.committed ++ [_]).length
    rw [List.length_append]
    exact Nat.le_add_right_of_le hle
  fits := by
    show (m.committed ++ [_]).length ≤ m.launched.length + m.count
    rw [List.length_append, List.length_singleton]
    exact hroom
  count_lt := h.count_lt
  posR := h.posR
  posW := by
    show uint64 (m.posW + 1) = (m.committed ++ [_]).length % 2 ^ 64
    rw [h.posW, uint64_mod_succ, List.length_append, List.length_singleton]
  contents := by
    show m.launched ++ Library.contents m.instr m.count m.launched.length
      (m.committed ++ [_]).length = m.committed ++ [_]
    rw [List.length_append, List.length_singleton, contents_snoc h.le, ← List.append_assoc,
      h.contents, h.slotW hu]

/-- The first instruction is taken. -/
theorem Intact.launch (h : Intact m) (hu : Unwrapped m)
    (hlt : m.launched.length < m.committed.length) :
    Intact { m with
      posR := uint64 (m.posR + 1)
      launched := m.launched ++ [m.instr (m.posR % m.count)] } where
  le := by
    show (m.launched ++ [_]).length ≤ m.committed.length
    rw [List.length_append, List.length_singleton]
    exact hlt
  fits := by
    have hfits := h.fits
    show m.committed.length ≤ (m.launched ++ [_]).length + m.count
    rw [List.length_append, List.length_singleton]
    omega
  count_lt := h.count_lt
  posR := by
    show uint64 (m.posR + 1) = (m.launched ++ [_]).length % 2 ^ 64
    rw [h.posR, uint64_mod_succ, List.length_append, List.length_singleton]
  posW := h.posW
  contents := by
    show (m.launched ++ [_]) ++ Library.contents m.instr m.count (m.launched ++ [_]).length
      m.committed.length = m.committed
    rw [List.length_append, List.length_singleton, List.append_assoc, List.singleton_append,
      h.slotR hu, ← contents_cons hlt]
    exact h.contents

/-! ## One step of a thread -/

/-- A thread that is not in a part that holds the mutex knows nothing of the stream. -/
theorem Control.knows_of_not_holds (c : Control κ) (h : ¬ c.holds) : c.Knows m := by
  cases c with
  | full test posW posR =>
      cases test with
      | locked => exact absurd trivial h
      | before | loop => exact trivial
  | empty test posW posR =>
      cases test with
      | locked => exact absurd trivial h
      | loop => exact trivial
  | out | lockPush | lockProcess | release | unlockPush | unlockProcess => exact trivial
  | address | fill | commit | incrW | decode | incrR | copy => exact absurd trivial h

/-- What the loop of the push and the increment of `pos_w` are required to meet: the condition of
the loop finds the array full, and the counter does not wrap unless the capacity divides `2 ^ 64`. -/
def StepOk (m : Shared τ κ) : Control κ → Prop
  | .full .loop (some posW) (some posR) => fullinstr m.count posW posR = true
  | .incrW _ => m.count ∣ 2 ^ 64 ∨ m.committed.length + 1 < 2 ^ 64
  | _ => True

instance decidableStepOk (m : Shared τ κ) (c : Control κ) : Decidable (StepOk m c) := by
  unfold StepOk
  split <;> infer_instance

/-- What a step of the thread `t` keeps, when it stands at `c'` after it. -/
structure Keeps (t : τ) (m' : Shared τ κ) (c' : Control κ) : Prop where
  intact : Intact m'
  unwrapped : Unwrapped m'
  owner : c'.holds ↔ m'.mutex = some t
  knows : c'.Knows m'

/-- No position is read. -/
theorem noneRead {n : ℕ} : ∀ w ∈ (none : Option ℕ), w = n :=
  fun _ hw => (Option.not_mem_none _ hw).elim

theorem unread :
    (∀ w ∈ (none : Option ℕ), w = m.posW) ∧ ∀ r ∈ (none : Option ℕ), r = m.posR :=
  ⟨noneRead, noneRead⟩

/-- The thread takes the mutex. -/
theorem keeps_lock (h : Keeps t m c) (hholds : c'.holds)
    (hknows : c'.Knows { m with mutex := some t }) : Keeps t { m with mutex := some t } c' :=
  ⟨h.intact.lock, h.unwrapped, iff_of_true hholds rfl, hknows⟩

/-- The thread releases the mutex. -/
theorem keeps_unlock (h : Keeps t m c) (hholds : ¬ c'.holds) :
    Keeps t { m with mutex := none } c' :=
  ⟨h.intact.lock, h.unwrapped, iff_of_false hholds nofun, c'.knows_of_not_holds hholds⟩

/-- A test changes nothing of the stream. -/
theorem keeps_full {test : FullTest} {posW posR : ℕ}
    (h : Keeps t m (.full test (some posW) (some posR)))
    (hok : StepOk m (.full test (some posW) (some posR))) :
    Keeps t m (afterFull test (fullinstr m.count posW posR)) := by
  have hi := h.intact
  cases test with
  | before =>
      refine ⟨hi, h.unwrapped, ?_, ?_⟩
      · cases hfull : fullinstr m.count posW posR <;> exact h.owner
      · cases hfull : fullinstr m.count posW posR <;> exact trivial
  | locked =>
      cases hfull : fullinstr m.count posW posR with
      | true => exact ⟨hi, h.unwrapped, h.owner, trivial⟩
      | false =>
          refine ⟨hi, h.unwrapped, h.owner, ?_⟩
          -- The positions are those of the stream, because no other thread changes them.
          obtain ⟨hw, hr⟩ := h.knows
          have hle := hi.le
          rw [hw posW rfl, hr posR rfl] at hfull
          have hlt := of_decide_eq_false hfull
          rw [hi.sub] at hlt
          show m.committed.length < m.launched.length + m.count
          omega
  | loop =>
      have hfull : fullinstr m.count posW posR = true := hok
      rw [hfull]
      exact ⟨hi, h.unwrapped, h.owner, trivial⟩

theorem keeps_empty {test : EmptyTest} {posW posR : ℕ}
    (h : Keeps t m (.empty test (some posW) (some posR))) :
    Keeps t m (afterEmpty test (decide (posR = posW))) := by
  have hi := h.intact
  cases test with
  | loop =>
      refine ⟨hi, h.unwrapped, ?_, ?_⟩
      · by_cases heq : posR = posW <;> simp only [heq, decide_true, decide_false] <;>
          exact h.owner
      · by_cases heq : posR = posW <;> simp only [heq, decide_true, decide_false] <;>
          exact trivial
  | locked =>
      by_cases heq : posR = posW
      · rw [decide_eq_true heq]
        exact ⟨hi, h.unwrapped, h.owner, trivial⟩
      · rw [decide_eq_false heq]
        refine ⟨hi, h.unwrapped, h.owner, ?_⟩
        obtain ⟨hw, hr⟩ := h.knows
        have hle := hi.le
        rw [hw posW rfl, hr posR rfl, hi.posR, hi.posW] at heq
        show m.launched.length < m.committed.length
        exact Nat.lt_of_le_of_ne hle fun hlen => heq (by rw [hlen])

theorem advance_keeps (h : Keeps t m c) (hok : StepOk m c)
    (hstep : advance t m c = some (m', c')) : Keeps t m' c' := by
  have hi := h.intact
  have hu := h.unwrapped
  cases c with
  | out => cases hstep
  | full test posW posR =>
      cases posW with
      | none => cases hstep
      | some posW =>
          cases posR with
          | none => cases hstep
          | some posR =>
              cases hstep
              exact keeps_full h hok
  | lockPush =>
      cases hm : m.mutex with
      | some u => simp only [advance, hm, reduceCtorEq] at hstep
      | none =>
          simp only [advance, hm] at hstep
          cases hstep
          exact keeps_lock h trivial unread
  | unlockPush =>
      cases hstep
      exact keeps_unlock h id
  | address =>
      cases hstep
      exact ⟨hi, hu, h.owner, rfl, h.knows⟩
  | fill slot => cases hstep
  | commit =>
      have hroom : m.committed.length < m.launched.length + m.count := h.knows
      simp only [advance] at hstep
      split at hstep
      · cases hstep
      · cases hstep
        exact ⟨hi, hu, h.owner, hroom, noneRead⟩
  | incrW posW =>
      cases posW with
      | none => cases hstep
      | some posW =>
          obtain ⟨hroom, hw⟩ := h.knows
          obtain rfl : posW = m.posW := hw posW rfl
          cases hstep
          refine ⟨hi.commit hu hroom, ?_, h.owner, trivial⟩
          show m.count ∣ 2 ^ 64 ∨ (m.committed ++ [_]).length < 2 ^ 64
          rw [List.length_append, List.length_singleton]
          exact hok
  | release =>
      cases hstep
      exact keeps_unlock h id
  | empty test posW posR =>
      cases posW with
      | none => cases hstep
      | some posW =>
          cases posR with
          | none => cases hstep
          | some posR =>
              cases hstep
              exact keeps_empty h
  | lockProcess =>
      cases hm : m.mutex with
      | some u => simp only [advance, hm, reduceCtorEq] at hstep
      | none =>
          simp only [advance, hm] at hstep
          cases hstep
          exact keeps_lock h trivial unread
  | decode =>
      cases hstep
      exact ⟨hi, hu, h.owner, h.knows, rfl, rfl, noneRead⟩
  | incrR slot inst posR =>
      cases posR with
      | none => cases hstep
      | some posR =>
          obtain ⟨hlt, rfl, rfl, hr⟩ := h.knows
          obtain rfl : posR = m.posR := hr posR rfl
          cases hstep
          refine ⟨hi.launch hu hlt, hu, ?_, ?_⟩
          · split <;> exact h.owner
          · split
            · exact trivial
            · exact trivial
            · exact trivial
            · exact ⟨m.launched, rfl⟩
  | copy slot =>
      cases hstep
      exact ⟨hi.pend, hu, h.owner, trivial⟩
  | unlockProcess =>
      cases hstep
      exact keeps_unlock h id

/-- A thread that does not hold the mutex leaves the stream as it is, or takes the mutex. -/
theorem advance_of_not_holds (hc : ¬ c.holds) (hstep : advance t m c = some (m', c')) :
    m' = m ∨ m.mutex = none := by
  cases c with
  | out | fill => cases hstep
  | full test posW posR | empty test posW posR =>
      cases posW with
      | none => cases hstep
      | some posW =>
          cases posR with
          | none => cases hstep
          | some posR =>
              cases hstep
              exact .inl rfl
  | lockPush | lockProcess =>
      cases hm : m.mutex with
      | none => exact .inr rfl
      | some u => simp only [advance, hm, reduceCtorEq] at hstep
  | unlockPush | address | commit | incrW | release | decode | incrR | copy | unlockProcess =>
      exact absurd trivial hc

/-- The mutex goes to the thread that steps, or is released. -/
theorem advance_mutex (hstep : advance t m c = some (m', c')) :
    m'.mutex = m.mutex ∨ m'.mutex = none ∨ m'.mutex = some t := by
  unfold advance at hstep
  split at hstep
  case h_2 | h_9 =>
    split at hstep
    · cases hstep
      exact .inr (.inr rfl)
    · cases hstep
  case h_5 =>
    split at hstep
    · cases hstep
    · cases hstep
      exact .inl rfl
  case h_3 | h_7 | h_13 =>
    cases hstep
    exact .inr (.inl rfl)
  all_goals cases hstep
  all_goals exact .inl rfl

/-- What the other threads know is kept. -/
theorem advance_other {u : τ} {d : Control κ} (hne : u ≠ t) (howner : c.holds ↔ m.mutex = some t)
    (hstep : advance t m c = some (m', c')) (hd : d.holds ↔ m.mutex = some u) (hk : d.Knows m) :
    (d.holds ↔ m'.mutex = some u) ∧ d.Knows m' := by
  by_cases hholds : d.holds
  · -- The other thread holds the mutex, so this one changes nothing.
    have hmutex := hd.mp hholds
    have hc : ¬ c.holds := fun hc => by
      rw [howner.mp hc] at hmutex
      exact hne (Option.some.inj hmutex).symm
    rcases advance_of_not_holds hc hstep with rfl | hnone
    · exact ⟨hd, hk⟩
    · rw [hnone] at hmutex
      cases hmutex
  · refine ⟨iff_of_false hholds fun hmutex => ?_, d.knows_of_not_holds hholds⟩
    rcases advance_mutex hstep with heq | hnone | ht
    · exact hholds (hd.mpr (heq.symm.trans hmutex))
    · rw [hnone] at hmutex
      cases hmutex
    · rw [ht] at hmutex
      exact hne (Option.some.inj hmutex).symm

/-! ## The runs -/

/-- Reading a position. -/
theorem readW_keeps (h : c.readW m.posW = some c') (hk : c.Knows m) :
    (c'.holds ↔ c.holds) ∧ c'.Knows m := by
  unfold Control.readW at h
  split at h
  case h_1 test _ =>
    cases h
    cases test with
    | before | loop => exact ⟨Iff.rfl, trivial⟩
    | locked => exact ⟨Iff.rfl, fun w hw => (Option.some.inj hw).symm, hk.2⟩
  case h_2 test _ =>
    cases h
    cases test with
    | loop => exact ⟨Iff.rfl, trivial⟩
    | locked => exact ⟨Iff.rfl, fun w hw => (Option.some.inj hw).symm, hk.2⟩
  case h_3 =>
    cases h
    exact ⟨Iff.rfl, hk.1, fun w hw => (Option.some.inj hw).symm⟩
  case h_4 => cases h

theorem readR_keeps (h : c.readR m.posR = some c') (hk : c.Knows m) :
    (c'.holds ↔ c.holds) ∧ c'.Knows m := by
  unfold Control.readR at h
  split at h
  case h_1 test _ =>
    cases h
    cases test with
    | before | loop => exact ⟨Iff.rfl, trivial⟩
    | locked => exact ⟨Iff.rfl, hk.1, fun r hr => (Option.some.inj hr).symm⟩
  case h_2 test _ =>
    cases h
    cases test with
    | loop => exact ⟨Iff.rfl, trivial⟩
    | locked => exact ⟨Iff.rfl, hk.1, fun r hr => (Option.some.inj hr).symm⟩
  case h_3 =>
    cases h
    exact ⟨Iff.rfl, hk.1, hk.2.1, hk.2.2.1, fun r hr => (Option.some.inj hr).symm⟩
  case h_4 => cases h

variable {s s' : State τ κ} {a : Action τ κ} {capacity : ℕ}

/-- The step meets the condition in the state it is taken from. -/
def StepsOk (s : State τ κ) : Action τ κ → Prop
  | .next t => StepOk s.shared (s.control t)
  | _ => True

instance (s : State τ κ) (a : Action τ κ) : Decidable (StepsOk s a) := by
  unfold StepsOk
  split <;> infer_instance

/-- The invariant. -/
structure Invariant (s : State τ κ) : Prop where
  intact : Intact s.shared
  unwrapped : Unwrapped s.shared
  owner : ∀ t, (s.control t).holds ↔ s.shared.mutex = some t
  knows : ∀ t, (s.control t).Knows s.shared

theorem Invariant.keeps (h : Invariant s) (t : τ) : Keeps t s.shared (s.control t) :=
  ⟨h.intact, h.unwrapped, h.owner t, h.knows t⟩

/-- The returns of the push are exclusive. -/
structure Exclusive (s : State τ κ) : Prop where
  /-- A thread that has returned holds the mutex, and the array has room for its instruction. -/
  returned : ∀ t slot, s.control t = .fill slot → s.shared.mutex = some t ∧
    slot = s.shared.posW % s.shared.count ∧
    uint64 (s.shared.posW - s.shared.posR) < s.shared.count
  /-- Two threads do not initialise one slot. -/
  slots : ∀ t u slot slot', s.control t = .fill slot → s.control u = .fill slot' → t = u
  /-- The instructions that are not yet launched are in the array, as they were committed. -/
  unprocessed : s.shared.launched ++
    contents s.shared.instr s.shared.count s.shared.launched.length s.shared.committed.length =
      s.shared.committed

theorem Invariant.exclusive (h : Invariant s) : Exclusive s where
  returned := by
    intro t slot hc
    have hknows := h.knows t
    have howner := h.owner t
    rw [hc] at hknows howner
    obtain ⟨hslot, hroom⟩ := hknows
    refine ⟨howner.mp trivial, hslot, ?_⟩
    have hle := h.intact.le
    rw [h.intact.sub]
    omega
  slots := by
    intro t u slot slot' ht hu
    have howner := h.owner t
    have howner' := h.owner u
    rw [ht] at howner
    rw [hu] at howner'
    exact Option.some.inj ((howner.mp trivial).symm.trans (howner'.mp trivial))
  unprocessed := h.intact.contents

variable [DecidableEq τ]

/-- One thread steps, and what the others know is kept. -/
theorem Invariant.update {t : τ} {m : Shared τ κ} {c : Control κ} (ht : Keeps t m c)
    (hother : ∀ u, u ≠ t →
      ((s.control u).holds ↔ m.mutex = some u) ∧ (s.control u).Knows m) :
    Invariant { shared := m, control := Function.update s.control t c } where
  intact := ht.intact
  unwrapped := ht.unwrapped
  owner := by
    intro u
    by_cases hu : u = t
    · subst hu
      show (Function.update s.control u c u).holds ↔ m.mutex = some u
      rw [Function.update_self]
      exact ht.owner
    · show (Function.update s.control t c u).holds ↔ m.mutex = some u
      rw [Function.update_of_ne hu]
      exact (hother u hu).1
  knows := by
    intro u
    by_cases hu : u = t
    · subst hu
      show (Function.update s.control u c u).Knows m
      rw [Function.update_self]
      exact ht.knows
    · show (Function.update s.control t c u).Knows m
      rw [Function.update_of_ne hu]
      exact (hother u hu).2

theorem Invariant.goto {t : τ} {c : Control κ} (h : Invariant s)
    (howner : c.holds ↔ (s.control t).holds) (hknows : c.Knows s.shared) :
    Invariant (s.goto t c) :=
  .update ⟨h.intact, h.unwrapped, howner.trans (h.owner t), hknows⟩
    fun u _ => ⟨h.owner u, h.knows u⟩

/-- The slot is written by the thread that holds the mutex. -/
theorem Invariant.write {t : τ} {slot : ℕ} (h : Invariant s) (hc : s.control t = .fill slot) :
    Invariant
      { shared := { s.shared with instr := Function.update s.shared.instr slot inst }
        control := Function.update s.control t .commit } := by
  have hknows := h.knows t
  have howner := h.owner t
  rw [hc] at hknows howner
  obtain ⟨rfl, hroom⟩ := hknows
  have hmutex : s.shared.mutex = some t := howner.mp trivial
  refine .update ⟨h.intact.write h.unwrapped hroom, h.unwrapped, howner, hroom⟩ fun u hu => ?_
  refine ⟨h.owner u, (s.control u).knows_of_not_holds fun hholds => ?_⟩
  have heq := (h.owner u).mp hholds
  rw [hmutex] at heq
  exact hu (Option.some.inj heq).symm

theorem step_invariant (h : Invariant s) (hok : StepsOk s a) (hstep : step s a = some s') :
    Invariant s' := by
  cases a with
  | push t | process t =>
      simp only [step] at hstep
      split at hstep
      case h_1 hc =>
        cases hstep
        refine h.goto ?_ trivial
        rw [hc]
        exact Iff.rfl
      case h_2 => cases hstep
  | readW t =>
      obtain ⟨c, hc, rfl⟩ := Option.map_eq_some_iff.mp hstep
      obtain ⟨howner, hknows⟩ := readW_keeps hc (h.knows t)
      exact h.goto howner hknows
  | readR t =>
      obtain ⟨c, hc, rfl⟩ := Option.map_eq_some_iff.mp hstep
      obtain ⟨howner, hknows⟩ := readR_keeps hc (h.knows t)
      exact h.goto howner hknows
  | write t inst =>
      simp only [step] at hstep
      split at hstep
      case h_1 hc =>
        cases hstep
        exact h.write hc
      case h_2 => cases hstep
  | next t =>
      obtain ⟨⟨m, c⟩, hc, rfl⟩ := Option.map_eq_some_iff.mp hstep
      exact .update (advance_keeps (h.keeps t) hok hc)
        fun u hu => advance_other hu (h.owner t) hc (h.owner u) (h.knows u)

omit [DecidableEq τ] in
theorem initial_invariant (h : Initial capacity s) : Invariant s := by
  obtain ⟨_, hlt, instr, pending, rfl⟩ := h
  refine ⟨⟨le_rfl, Nat.zero_le _, hlt, rfl, rfl, ?_⟩, .inr (Nat.two_pow_pos 64), ?_, fun _ => trivial⟩
  · exact (List.nil_append _).trans (contents_self _ _ _)
  · exact fun t => iff_of_false id nofun

/-- In the runs in which the condition of the loop of the push always finds the array full, the
returns of the push are exclusive. -/
theorem push_exclusive (h : (system τ κ capacity).ReachableWhen StepsOk s) : Exclusive s :=
  (h.invariant (fun _ => initial_invariant) fun _ _ _ => step_invariant).exclusive

/-! ## Runs of two pushers and a device thread -/

/-- A stream of two instructions before the first step. -/
def start : State (Fin 3) Unit where
  shared :=
    { count := 2, mutex := none, posR := 0, posW := 0, posWp := 0,
      instr := fun _ => ⟨.ioNop, none⟩, pending := fun _ => ⟨.ioNop, none⟩,
      committed := [], launched := [] }
  control := fun _ => .out

theorem start_initial : Initial 2 start :=
  ⟨le_rfl, by decide, _, _, rfl⟩

/-- A test of the thread. -/
def testSteps (t : Fin 3) : List (Action (Fin 3) Unit) :=
  [.readW t, .readR t, .next t]

/-- A push by the thread that finds room in the array. -/
def pushSteps (t : Fin 3) : List (Action (Fin 3) Unit) :=
  .push t :: testSteps t ++ .next t :: testSteps t ++ [.next t]

/-- The thread writes a kernel and commits it. -/
def commitSteps (t : Fin 3) : List (Action (Fin 3) Unit) :=
  [.write t ⟨.ioKern, none⟩, .next t, .readW t, .next t, .next t]

/-- The thread launches one instruction. -/
def launchSteps (t : Fin 3) : List (Action (Fin 3) Unit) :=
  .process t :: testSteps t ++ .next t :: testSteps t ++
    [.next t, .readR t, .next t, .next t, .next t]

/-- A thread pushes two instructions, and the device thread launches the first. -/
def fairTrace : List (Action (Fin 3) Unit) :=
  pushSteps 0 ++ commitSteps 0 ++ launchSteps 2 ++ pushSteps 0

theorem push_exclusive_fair : ∃ s, (system (Fin 3) Unit 2).ReachableWhen StepsOk s ∧
    s.shared.launched.length = 1 ∧ s.shared.mutex = some 0 ∧ Exclusive s :=
  ⟨((system (Fin 3) Unit 2).replay StepsOk start fairTrace).get (by decide),
    .replay (.start start_initial) (Option.some_get _).symm, by decide, by decide,
    push_exclusive (.replay (.start start_initial) (Option.some_get _).symm)⟩

/-- The array is full when the second thread tests it before the lock. An instruction is launched
before it tests the array again. Both threads return from the push with the same slot. -/
def racyTrace : List (Action (Fin 3) Unit) :=
  pushSteps 0 ++ commitSteps 0 ++ pushSteps 0 ++ commitSteps 0 ++ .push 1 :: testSteps 1 ++
    launchSteps 2 ++ testSteps 1 ++ .next 1 :: pushSteps 0

theorem push_without_mutex : ¬ ∀ s, (system (Fin 3) Unit 2).Reachable s → Exclusive s := by
  intro h
  have hs := h (((system (Fin 3) Unit 2).run start racyTrace).get (by decide))
    (.replay (.start start_initial) (Option.some_get _).symm)
  have hheld := hs.slots 0 1 0 0 rfl rfl
  exact absurd hheld (by decide)

end Xkblas.Offload.StreamPush
