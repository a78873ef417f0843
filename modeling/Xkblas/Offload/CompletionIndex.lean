import Mathlib.Data.List.Basic
import Mathlib.Tactic.IntervalCases
import Mathlib.Tactic.Ring
import Xkblas.Library.LeadingRun
import Xkblas.Offload.IoStream

/-!
# The completion index of a stream

`cuda_stream_advance_pending` asks for the events of all pending instructions and moves `ok_p` past
those that are complete. It counts them with `prev_iosokp`, an `int`, while the positions have 64
bits, and an instruction without event does not move the counter. `completes_iff` says on which
streams `ok_p` still becomes the index that is meant.

`cuda_stream_process_pending` then calls the callbacks, which may push instructions. Here they run
inside the loop, between the read of an entry and its end.
-/

namespace Xkblas.Offload.Stream

open Library

variable {κ : Type*}

/-- The instructions whose event is asked for. -/
def IoType.hasEvent : IoType → Bool
  | .ioKern | .ioCopyH2H | .ioCopyH2D | .ioCopyD2H | .ioCopyD2D => true
  | .ioNop | .ioBegin | .ioEnd | .ioBarrier => false

/-- What `cuda_stream_advance_pending` returns. -/
inductive Returned where
  | zero
  | einprogress
  deriving DecidableEq, Repr

/-- `cuda_stream_advance_pending`, with the value that it returns. -/
def advanceReturns (ios : IoStream κ) (blocking : Bool) (complete : ℕ → Bool) :
    Option (IoStream κ × Returned) :=
  if ios.emptypending = true then some (ios, .zero)
  else if blocking = true then some ({ ios with okP := ios.posWp }, .zero)
  else
    match advanceLoop ios complete (ios.posWp - ios.okP) ios.okP (int32 (ios.okP - 1)) with
    | none => none
    | some prev =>
        if uint64 prev = uint64 (ios.okP - 1) then some (ios, .einprogress)
        else some ({ ios with okP := uint64 (int32 (prev + 1)) }, .zero)

/-- The stream is as `advancePending` has it. -/
theorem advancePending_eq (ios : IoStream κ) (blocking : Bool) (complete : ℕ → Bool) :
    advancePending ios blocking complete =
      (advanceReturns ios blocking complete).map Prod.fst := by
  unfold advancePending advanceReturns
  split
  · rfl
  · split
    · rfl
    · cases advanceLoop ios complete (ios.posWp - ios.okP) ios.okP (int32 (ios.okP - 1)) with
      | none => rfl
      | some prev =>
          dsimp only
          split <;> rfl

/-- The callbacks of the instructions. On the stream itself they only push. -/
structure Callbacks (κ : Type*) where
  run : κ → IoStream κ → IoStream κ
  count (k : κ) (ios : IoStream κ) : (run k ios).count = ios.count
  pending (k : κ) (ios : IoStream κ) : (run k ios).pending = ios.pending
  posRp (k : κ) (ios : IoStream κ) : (run k ios).posRp = ios.posRp
  posWp (k : κ) (ios : IoStream κ) : (run k ios).posWp = ios.posWp
  okP (k : κ) (ios : IoStream κ) : (run k ios).okP = ios.okP

/-- The call of the callback of an instruction, if it has one. -/
def Callbacks.call (cbks : Callbacks κ) (op : Instruction κ) (ios : IoStream κ) : IoStream κ :=
  match op.cbk with
  | none => ios
  | some k => cbks.run k ios

/-- The loop of `cuda_stream_process_pending`. It reads `ok_p` again in each iteration, and writes
the type of the entry after its callback. -/
def callPending (cbks : Callbacks κ) : ℕ → ℕ → IoStream κ → List κ → Option (IoStream κ × List κ)
  | 0, _, _, _ => none
  | fuel + 1, pos, ios, called =>
      if pos < ios.okP then
        let idx := pos % ios.count
        let op := ios.pending idx
        match op.type with
        | .ioKern | .ioCopyH2H | .ioCopyH2D | .ioCopyD2H | .ioCopyD2D | .ioEnd | .ioBarrier =>
            let ios := cbks.call op ios
            let nop := { ios.pending idx with type := .ioNop }
            callPending cbks fuel (pos + 1)
              { ios with
                pending := Function.update ios.pending idx nop
                posRp := uint64 (ios.posRp + 1) }
              (called ++ op.cbk.toList)
        | .ioNop =>
            callPending cbks fuel (pos + 1) { ios with posRp := uint64 (ios.posRp + 1) } called
        | .ioBegin => none
      else some (ios, called)

/-- `cuda_stream_process_pending`, with the callbacks that it calls. -/
def processCalling (cbks : Callbacks κ) (ios : IoStream κ) (blocking : Bool) (complete : ℕ → Bool) :
    Option (IoStream κ × List κ) :=
  match advanceReturns ios blocking complete with
  | none => none
  | some (ios, _) => callPending cbks (ios.okP - ios.posRp + 1) ios.posRp ios []

/-! ## What the two functions are for -/

/-- The positions of a stream. An index in its arrays is an `int`. -/
structure Positions (ios : IoStream κ) : Prop where
  readp_le : ios.posRp ≤ ios.okP
  ok_le : ios.okP ≤ ios.posWp
  fits : ios.posWp ≤ ios.posRp + ios.count
  writep_lt : ios.posWp < 2 ^ 64
  count_le : ios.count ≤ 2 ^ 31

/-- The type of the pending instruction at a position. -/
def IoStream.typeAt (ios : IoStream κ) (i : ℕ) : IoType :=
  (ios.pending (i % ios.count)).type

/-- The instruction is complete. One without event counts as complete, and so does every one when
the caller has waited for the device. -/
def Completed (ios : IoStream κ) (blocking : Bool) (complete : ℕ → Bool) (i : ℕ) : Prop :=
  blocking = true ∨ ((ios.typeAt i).hasEvent = true → complete (i % ios.count) = true)

instance (ios : IoStream κ) (blocking : Bool) (complete : ℕ → Bool) (i : ℕ) :
    Decidable (Completed ios blocking complete i) :=
  inferInstanceAs (Decidable (_ ∨ (_ → _)))

/-- The indices that `ok_p` may take: all instructions before them are complete. -/
def completedIndices (ios : IoStream κ) (blocking : Bool) (complete : ℕ → Bool) : Set ℕ :=
  {j | ios.okP ≤ j ∧ j ≤ ios.posWp ∧ ∀ i, ios.okP ≤ i → i < j → Completed ios blocking complete i}

/-- The callbacks of the `n` positions from `pos` on. -/
def callbacksOf (ios : IoStream κ) (pos n : ℕ) : List κ :=
  (List.range' pos n).flatMap fun i =>
    if ios.typeAt i = .ioNop then [] else (ios.pending (i % ios.count)).cbk.toList

/-- `ok_p` becomes the largest index before which all is complete, the value returned says whether
it moved or nothing was pending, and each callback before it is called once, in order. -/
def Completes (ios : IoStream κ) (blocking : Bool) (complete : ℕ → Bool) (cbks : Callbacks κ) :
    Prop :=
  ∃ okP code, advanceReturns ios blocking complete = some ({ ios with okP := okP }, code) ∧
    IsGreatest (completedIndices ios blocking complete) okP ∧
    (code = .zero ↔ ios.okP < okP ∨ ios.posRp = ios.posWp) ∧
    ∃ ios', processCalling cbks ios blocking complete =
        some (ios', callbacksOf ios ios.posRp (okP - ios.posRp)) ∧ ios'.posRp = okP

/-- The counter follows the positions: the instructions that are complete one after the other have
events, and an `int` holds their positions. -/
structure Follows (ios : IoStream κ) (complete : ℕ → Bool) : Prop where
  /-- No instruction without event comes before the first unfinished one. -/
  events : ∀ i, ios.okP ≤ i → i < ios.posWp →
    (∀ j, ios.okP ≤ j → j ≤ i → Completed ios false complete j) → (ios.typeAt i).hasEvent = true
  /-- The index to reach is below 2^31, or `ok_p` is among the last 2^31 positions. -/
  moves : ∀ i, ios.okP ≤ i → i < ios.posWp →
    (∀ j, ios.okP ≤ j → j ≤ i → Completed ios false complete j) →
      i + 1 < 2 ^ 31 ∨ 2 ^ 64 - 2 ^ 31 ≤ ios.okP
  /-- The same when there is nothing to count. -/
  idle : (ios.okP < ios.posWp → ¬ Completed ios false complete ios.okP) →
    ios.okP ≤ 2 ^ 31 ∨ 2 ^ 64 - 2 ^ 31 < ios.okP

/-- The streams on which the functions do what they are for. -/
def Regular (ios : IoStream κ) (blocking : Bool) (complete : ℕ → Bool) : Prop :=
  ios.posRp = ios.posWp ∨
    (∀ i, ios.posRp ≤ i → i < ios.posWp → ios.typeAt i ≠ .ioBegin) ∧
      if blocking = true then ios.okP < ios.posWp else Follows ios complete

/-! ## The counter -/

section Counter

/-- A counter that wraps is that of the integer. -/
theorem int32_succ (x : ℤ) : int32 (int32 x + 1) = int32 (x + 1) := by
  unfold int32
  omega

/-- The positions that an `int` keeps when it is compared with 64 bits. -/
def Kept (i : ℕ) : Prop :=
  i < 2 ^ 31 ∨ 2 ^ 64 - 2 ^ 31 ≤ i

instance : DecidablePred Kept :=
  fun _ => inferInstanceAs (Decidable (_ ∨ _))

theorem uint64_int32_eq_iff {i j : ℕ} (hi : i < 2 ^ 64) (hle : i ≤ j + 2 ^ 31) (hle' : j ≤ i) :
    uint64 (int32 j) = i ↔ i = j ∧ Kept i := by
  unfold uint64 int32 Kept
  omega

/-- The counter before the first position is compared with that position. -/
theorem uint64_int32_pred {i n : ℕ} (hi : i < 2 ^ 64) (hn : n < 2 ^ 32) :
    uint64 (int32 (i + n - 1)) = uint64 (i - 1) ↔
      n = 0 ∧ (i ≤ 2 ^ 31 ∨ 2 ^ 64 - 2 ^ 31 < i) := by
  unfold uint64 int32
  omega

end Counter

/-! ## The scan -/

section Scan

variable {ios : IoStream κ} {complete : ℕ → Bool} {n i j : ℕ} {prev : ℤ}

theorem advanceLoop_event (h : (ios.typeAt i).hasEvent = true) :
    advanceLoop ios complete (n + 1) i prev =
      if complete (i % ios.count) = true ∧ uint64 (int32 (prev + 1)) = i then
        advanceLoop ios complete n (i + 1) (int32 (prev + 1))
      else advanceLoop ios complete n (i + 1) prev := by
  unfold IoStream.typeAt at h
  cases htype : (ios.pending (i % ios.count)).type
  all_goals rw [htype] at h
  case ioNop | ioBegin | ioEnd | ioBarrier => cases h
  all_goals simp only [advanceLoop, htype]

theorem advanceLoop_skip (h : (ios.typeAt i).hasEvent = false) (hbegin : ios.typeAt i ≠ .ioBegin) :
    advanceLoop ios complete (n + 1) i prev = advanceLoop ios complete n (i + 1) prev := by
  unfold IoStream.typeAt at h hbegin
  cases htype : (ios.pending (i % ios.count)).type
  all_goals rw [htype] at h hbegin
  case ioBegin => exact absurd rfl hbegin
  case ioNop | ioEnd | ioBarrier => simp only [advanceLoop, htype]
  all_goals cases h

/-- A bad instruction stops the program. -/
theorem advanceLoop_begin (hle : i ≤ j) (hlt : j < i + n) (hbegin : ios.typeAt j = .ioBegin) :
    advanceLoop ios complete n i prev = none := by
  induction n generalizing i prev with
  | zero => omega
  | succ n ih =>
      rcases hle.eq_or_lt with rfl | hlt'
      · unfold IoStream.typeAt at hbegin
        simp only [advanceLoop, hbegin]
      · by_cases hevent : (ios.typeAt i).hasEvent = true
        · rw [advanceLoop_event hevent]
          split <;> exact ih hlt' (by omega)
        · by_cases hfirst : ios.typeAt i = .ioBegin
          · unfold IoStream.typeAt at hfirst
            simp only [advanceLoop, hfirst]
          · rw [advanceLoop_skip (Bool.eq_false_iff.mpr hevent) hfirst]
            exact ih hlt' (by omega)

/-- A counter that has stopped before the position is not found again. -/
theorem advanceLoop_stopped (hbegin : ∀ k, i ≤ k → k < i + n → ios.typeAt k ≠ .ioBegin)
    (hlt : j < i) (hfit : i + n ≤ j + 2 ^ 31) (hword : i + n ≤ 2 ^ 64) :
    advanceLoop ios complete n i (int32 (j - 1)) = some (int32 (j - 1)) := by
  induction n generalizing i with
  | zero => rfl
  | succ n ih =>
      have ih := ih (fun k hlo hhi => hbegin k (by omega) (by omega)) (by omega : j < i + 1)
        (by omega) (by omega)
      by_cases hevent : (ios.typeAt i).hasEvent = true
      · have hbehind : uint64 (int32 (int32 (j - 1) + 1)) ≠ i := by
          rw [int32_succ, sub_add_cancel, Ne, uint64_int32_eq_iff (by omega) (by omega) hlt.le]
          omega
        rw [advanceLoop_event hevent, if_neg fun h => hbehind h.2]
        exact ih
      · rw [advanceLoop_skip (Bool.eq_false_iff.mpr hevent) (hbegin i le_rfl (by omega))]
        exact ih

/-- The instructions that move the counter. -/
def Counts (ios : IoStream κ) (complete : ℕ → Bool) (i : ℕ) : Prop :=
  (ios.typeAt i).hasEvent = true ∧ complete (i % ios.count) = true ∧ Kept i

instance : DecidablePred (Counts ios complete) :=
  fun _ => inferInstanceAs (Decidable (_ ∧ _ ∧ _))

/-- The counter moves over the instructions that count until the first that does not. -/
theorem advanceLoop_eq (hbegin : ∀ k, i ≤ k → k < i + n → ios.typeAt k ≠ .ioBegin)
    (hfit : n ≤ 2 ^ 31) (hword : i + n < 2 ^ 64) :
    advanceLoop ios complete n i (int32 (i - 1)) =
      some (int32 (i + leading (Counts ios complete) n i - 1)) := by
  induction n generalizing i with
  | zero => rw [leading, Nat.cast_zero, add_zero, advanceLoop]
  | succ n ih =>
      have hrest : ∀ k, i + 1 ≤ k → k < i + 1 + n → ios.typeAt k ≠ .ioBegin :=
        fun k hlo hhi => hbegin k (by omega) (by omega)
      have hmatch : uint64 (int32 (int32 (i - 1) + 1)) = i ↔ Kept i := by
        rw [int32_succ, sub_add_cancel, uint64_int32_eq_iff (by omega) (by omega) le_rfl]
        exact and_iff_right rfl
      have hstopped : advanceLoop ios complete n (i + 1) (int32 (i - 1)) = some (int32 (i - 1)) :=
        advanceLoop_stopped hrest (Nat.lt_succ_self i) (by omega) (by omega)
      by_cases hcounts : Counts ios complete i
      · obtain ⟨hevent, hcomplete, hkept⟩ := hcounts
        have ih := ih hrest (by omega) (by omega)
        rw [advanceLoop_event hevent, if_pos ⟨hcomplete, hmatch.mpr hkept⟩, int32_succ,
          leading_succ_of_pos ⟨hevent, hcomplete, hkept⟩, sub_add_cancel]
        push_cast at ih ⊢
        rw [add_sub_cancel_right] at ih
        rw [ih]
        congr 2
        ring
      · rw [leading_succ_of_neg hcounts, Nat.cast_zero, add_zero]
        by_cases hevent : (ios.typeAt i).hasEvent = true
        · rw [advanceLoop_event hevent,
            if_neg fun h => hcounts ⟨hevent, h.1, hmatch.mp h.2⟩]
          exact hstopped
        · rw [advanceLoop_skip (Bool.eq_false_iff.mpr hevent) (hbegin i le_rfl (by omega))]
          exact hstopped

/-- The number of instructions that the counter moves over. -/
def moved (ios : IoStream κ) (complete : ℕ → Bool) : ℕ :=
  leading (Counts ios complete) (ios.posWp - ios.okP) ios.okP

/-- The number of instructions that are complete one after the other. -/
def run (ios : IoStream κ) (complete : ℕ → Bool) : ℕ :=
  leading (Completed ios false complete) (ios.posWp - ios.okP) ios.okP

theorem run_le (ios : IoStream κ) (complete : ℕ → Bool) : run ios complete ≤ ios.posWp - ios.okP :=
  leading_le _ _ _

theorem moved_le_run (ios : IoStream κ) (complete : ℕ → Bool) :
    moved ios complete ≤ run ios complete :=
  leading_mono fun _ hcounts => .inr fun _ => hcounts.2.1

/-- The instructions of the run. -/
theorem lt_run_iff (hlo : ios.okP ≤ i) (hhi : i < ios.posWp) :
    i < ios.okP + run ios complete ↔
      ∀ j, ios.okP ≤ j → j ≤ i → Completed ios false complete j := by
  have hreach : i - ios.okP + 1 ≤ run ios complete ↔ _ := le_leading_iff (by omega)
  constructor
  · exact fun hlt j hj hj' => hreach.mp (by omega) j hj (by omega)
  · intro hall
    have hle := hreach.mpr fun j hj hj' => hall j hj (by omega)
    omega

/-- Those that the counter moves over. -/
theorem moved_eq_run_iff :
    moved ios complete = run ios complete ↔
      ∀ j, ios.okP ≤ j → j < ios.okP + run ios complete → Counts ios complete j := by
  have hreach : run ios complete ≤ moved ios complete ↔ _ := le_leading_iff (run_le ios complete)
  rw [← hreach]
  exact ⟨fun heq => heq.ge, fun hle => le_antisymm (moved_le_run ios complete) hle⟩

variable (h : Positions ios)

include h

/-- The index to reach is at the end of the run. -/
theorem isGreatest_run (complete : ℕ → Bool) :
    IsGreatest (completedIndices ios false complete) (ios.okP + run ios complete) := by
  have hgreatest := isGreatest_leading (Completed ios false complete) (ios.posWp - ios.okP) ios.okP
  rwa [Nat.add_sub_cancel' h.ok_le] at hgreatest

/-- The counter follows the positions when it has moved over the run, and an `int` holds the
position it comes to. -/
theorem follows_iff (complete : ℕ → Bool) :
    Follows ios complete ↔
      run ios complete = 0 ∧ (ios.okP ≤ 2 ^ 31 ∨ 2 ^ 64 - 2 ^ 31 < ios.okP) ∨
        0 < run ios complete ∧ moved ios complete = run ios complete ∧
          Kept (ios.okP + run ios complete) := by
  have hread := h.readp_le
  have hok := h.ok_le
  have hfits := h.fits
  have hlt := h.writep_lt
  have hcount := h.count_le
  have hle := run_le ios complete
  constructor
  · intro hfollows
    rcases Nat.eq_zero_or_pos (run ios complete) with hzero | hpos
    · refine .inl ⟨hzero, hfollows.idle fun hfirst hcomplete => ?_⟩
      have hone := (lt_run_iff le_rfl hfirst).mpr fun j hj hj' => by
        rwa [le_antisymm hj' hj]
      omega
    · have hinside : ∀ j, ios.okP ≤ j → j < ios.okP + run ios complete →
          ∀ k, ios.okP ≤ k → k ≤ j → Completed ios false complete k :=
        fun j hlo hhi => (lt_run_iff hlo (by omega)).mp hhi
      refine .inr ⟨hpos, moved_eq_run_iff.mpr fun j hlo hhi => ?_, ?_⟩
      · have hevent := hfollows.events j hlo (by omega) (hinside j hlo hhi)
        refine ⟨hevent, (hinside j hlo hhi j hlo le_rfl).resolve_left Bool.false_ne_true hevent, ?_⟩
        rcases hfollows.moves j hlo (by omega) (hinside j hlo hhi) with hsmall | hlarge
        · exact .inl (by omega)
        · exact .inr (hlarge.trans hlo)
      · have hlast := hfollows.moves (ios.okP + run ios complete - 1) (by omega) (by omega)
          (hinside _ (by omega) (by omega))
        unfold Kept
        omega
  · rintro (⟨hzero, hrange⟩ | ⟨hpos, hmoved, hkept⟩)
    · -- nothing is complete
      have hnone : ∀ i, ios.okP ≤ i → i < ios.posWp →
          ¬ ∀ j, ios.okP ≤ j → j ≤ i → Completed ios false complete j := by
        intro i hlo hhi hall
        have hrun := (lt_run_iff hlo hhi).mpr hall
        omega
      exact ⟨fun i hlo hhi hall => absurd hall (hnone i hlo hhi),
        fun i hlo hhi hall => absurd hall (hnone i hlo hhi), fun _ => hrange⟩
    · have hcounts := moved_eq_run_iff.mp hmoved
      have hfirst := (hcounts ios.okP le_rfl (by omega)).2.2
      refine ⟨fun i hlo hhi hall => ?_, fun i hlo hhi hall => ?_, fun hidle => ?_⟩
      · exact (hcounts i hlo ((lt_run_iff hlo hhi).mpr hall)).1
      · have hrun := (lt_run_iff hlo hhi).mpr hall
        unfold Kept at hfirst hkept
        omega
      · have hlast : ios.okP < ios.posWp := by omega
        have hstart : ios.okP < ios.okP + run ios complete := by omega
        have hone := (lt_run_iff le_rfl hlast).mp hstart
        exact absurd (hone ios.okP le_rfl le_rfl) (hidle hlast)

/-- What a scan that finds no bad instruction does. -/
theorem advanceReturns_scan (complete : ℕ → Bool) (hpending : ios.posRp ≠ ios.posWp)
    (hbegin : ∀ k, ios.okP ≤ k → k < ios.posWp → ios.typeAt k ≠ .ioBegin) :
    advanceReturns ios false complete =
      if moved ios complete = 0 ∧ (ios.okP ≤ 2 ^ 31 ∨ 2 ^ 64 - 2 ^ 31 < ios.okP) then
        some (ios, .einprogress)
      else
        some ({ ios with okP := uint64 (int32 ((ios.okP + moved ios complete : ℕ) : ℤ)) },
          .zero) := by
  have hread := h.readp_le
  have hok := h.ok_le
  have hfits := h.fits
  have hlt := h.writep_lt
  have hcount := h.count_le
  have hle : moved ios complete ≤ ios.posWp - ios.okP := leading_le _ _ _
  have hscan : advanceLoop ios complete (ios.posWp - ios.okP) ios.okP (int32 (ios.okP - 1)) =
      some (int32 (ios.okP + moved ios complete - 1)) :=
    advanceLoop_eq (fun k hlo hhi => hbegin k hlo (by omega)) (by omega) (by omega)
  have hempty : ¬ ios.emptypending = true := fun hsame => hpending (of_decide_eq_true hsame)
  unfold advanceReturns
  rw [if_neg hempty, if_neg Bool.false_ne_true, hscan]
  simp only [uint64_int32_pred (by omega : ios.okP < 2 ^ 64)
    (by omega : moved ios complete < 2 ^ 32), int32_succ, sub_add_cancel, Nat.cast_add]

/-- A scan is right exactly when the counter follows the positions. -/
theorem scan_right_iff (complete : ℕ → Bool) (hpending : ios.posRp ≠ ios.posWp)
    (hbegin : ∀ k, ios.okP ≤ k → k < ios.posWp → ios.typeAt k ≠ .ioBegin) {okP : ℕ}
    {code : Returned}
    (hreturns : advanceReturns ios false complete = some ({ ios with okP := okP }, code)) :
    (okP = ios.okP + run ios complete ∧ (code = .zero ↔ ios.okP < okP ∨ ios.posRp = ios.posWp)) ↔
      Follows ios complete := by
  have hread := h.readp_le
  have hok := h.ok_le
  have hfits := h.fits
  have hlt := h.writep_lt
  have hcount := h.count_le
  have hle := run_le ios complete
  have hmoved := moved_le_run ios complete
  rw [follows_iff h complete]
  rw [advanceReturns_scan h complete hpending hbegin] at hreturns
  split at hreturns
  next hidle =>
    obtain ⟨hnone, hrange⟩ := hidle
    obtain ⟨hios, rfl⟩ := Prod.mk.inj (Option.some.inj hreturns)
    have hokP : ios.okP = okP := congrArg IoStream.okP hios
    constructor
    · rintro ⟨heq, -⟩
      exact .inl ⟨by omega, hrange⟩
    · intro hfollows
      have hzero : run ios complete = 0 := by
        rcases hfollows with ⟨hzero, -⟩ | ⟨hpos, heq, -⟩ <;> omega
      have hcode : Returned.einprogress ≠ .zero := nofun
      exact ⟨by omega, iff_of_false hcode (by omega)⟩
  next hmoves =>
    have hreaches : uint64 (int32 ((ios.okP + moved ios complete : ℕ) : ℤ)) =
        ios.okP + run ios complete ↔ _ :=
      uint64_int32_eq_iff (by omega) (by omega) (by omega)
    generalize uint64 (int32 ((ios.okP + moved ios complete : ℕ) : ℤ)) = reached
      at hreturns hreaches
    obtain ⟨hios, rfl⟩ := Prod.mk.inj (Option.some.inj hreturns)
    obtain rfl : reached = okP := congrArg IoStream.okP hios
    rw [hreaches]
    constructor
    · rintro ⟨⟨heq, hkept⟩, hcode⟩
      have hadvanced := hcode.mp rfl
      have hsame := hreaches.mpr ⟨heq, hkept⟩
      exact .inr ⟨by omega, by omega, hkept⟩
    · rintro (⟨hzero, hrange⟩ | ⟨hpos, heq, hkept⟩)
      · exact absurd ⟨by omega, hrange⟩ hmoves
      · have hsame := hreaches.mpr ⟨by omega, hkept⟩
        exact ⟨⟨by omega, hkept⟩, fun _ => .inl (by omega), fun _ => rfl⟩

end Scan

/-! ## The callbacks -/

section Calls

variable {ios ios' : IoStream κ} {cbks : Callbacks κ} {n pos i : ℕ} {called : List κ}

theorem Callbacks.call_pending (op : Instruction κ) : (cbks.call op ios).pending = ios.pending := by
  unfold Callbacks.call
  split
  · rfl
  · exact cbks.pending _ _

theorem Callbacks.call_count (op : Instruction κ) : (cbks.call op ios).count = ios.count := by
  unfold Callbacks.call
  split
  · rfl
  · exact cbks.count _ _

theorem Callbacks.call_posRp (op : Instruction κ) : (cbks.call op ios).posRp = ios.posRp := by
  unfold Callbacks.call
  split
  · rfl
  · exact cbks.posRp _ _

theorem Callbacks.call_okP (op : Instruction κ) : (cbks.call op ios).okP = ios.okP := by
  unfold Callbacks.call
  split
  · rfl
  · exact cbks.okP _ _

theorem callbacksOf_zero : callbacksOf ios pos 0 = [] :=
  rfl

theorem callbacksOf_succ :
    callbacksOf ios pos (n + 1) =
      (if ios.typeAt pos = .ioNop then [] else (ios.pending (pos % ios.count)).cbk.toList) ++
        callbacksOf ios (pos + 1) n :=
  rfl

theorem callbacksOf_congr (hcount : ios'.count = ios.count)
    (hpending : ∀ i, pos ≤ i → i < pos + n →
      ios'.pending (i % ios.count) = ios.pending (i % ios.count)) :
    callbacksOf ios' pos n = callbacksOf ios pos n := by
  refine List.flatMap_congr fun i hi => ?_
  obtain ⟨hlo, hhi⟩ := List.mem_range'_1.mp hi
  unfold IoStream.typeAt
  rw [hcount, hpending i hlo hhi]

/-- The stream after an iteration of the loop: the entry is done, and the later entries are kept. -/
structure Called (ios ios' : IoStream κ) (pos : ℕ) : Prop where
  count : ios'.count = ios.count
  okP : ios'.okP = ios.okP
  posRp : ios'.posRp = uint64 (ios.posRp + 1)
  pending : ∀ i, pos < i → i < pos + ios.count →
    ios'.pending (i % ios.count) = ios.pending (i % ios.count)

/-- One iteration. -/
theorem callPending_succ (cbks : Callbacks κ) (n : ℕ) (called : List κ) (hlt : pos < ios.okP)
    (hbegin : ios.typeAt pos ≠ .ioBegin) :
    ∃ ios', Called ios ios' pos ∧
      callPending cbks (n + 1) pos ios called = callPending cbks n (pos + 1) ios'
        (called ++ if ios.typeAt pos = .ioNop then []
          else (ios.pending (pos % ios.count)).cbk.toList) := by
  unfold IoStream.typeAt at hbegin ⊢
  by_cases hnop : (ios.pending (pos % ios.count)).type = .ioNop
  · refine ⟨{ ios with posRp := uint64 (ios.posRp + 1) }, ⟨rfl, rfl, rfl, fun i _ _ => rfl⟩, ?_⟩
    simp only [callPending, if_pos hlt, hnop, if_true, List.append_nil]
  · have hdone : Called ios
        { cbks.call (ios.pending (pos % ios.count)) ios with
          pending := Function.update (cbks.call (ios.pending (pos % ios.count)) ios).pending
            (pos % ios.count)
            { (cbks.call (ios.pending (pos % ios.count)) ios).pending (pos % ios.count) with
              type := .ioNop }
          posRp := uint64 ((cbks.call (ios.pending (pos % ios.count)) ios).posRp + 1) } pos := by
      constructor
      case count => exact Callbacks.call_count _
      case okP => exact Callbacks.call_okP _
      case posRp =>
        dsimp only
        rw [Callbacks.call_posRp]
      case pending =>
        intro i hlo hhi
        rw [Callbacks.call_pending]
        exact Function.update_of_ne (mod_ne_of_window hlo hhi).symm _ _
    refine ⟨_, hdone, ?_⟩
    rw [if_neg hnop]
    cases htype : (ios.pending (pos % ios.count)).type
    case ioNop => exact absurd htype hnop
    case ioBegin => exact absurd htype hbegin
    all_goals simp only [callPending, if_pos hlt, htype]

/-- The loop calls the callbacks of the positions before `ok_p`, and leaves `pos_rp` there. -/
theorem callPending_eq (cbks : Callbacks κ) (called : List κ) (hn : pos + n = ios.okP)
    (hfits : n ≤ ios.count) (hword : ios.okP < 2 ^ 64) (hpos : ios.posRp = pos)
    (hbegin : ∀ i, pos ≤ i → i < ios.okP → ios.typeAt i ≠ .ioBegin) :
    ∃ ios', callPending cbks (n + 1) pos ios called = some (ios', called ++ callbacksOf ios pos n) ∧
      ios'.posRp = ios.okP := by
  induction n generalizing ios pos called with
  | zero =>
      refine ⟨ios, ?_, hpos.trans hn⟩
      rw [callbacksOf_zero, List.append_nil, callPending, if_neg (by omega)]
  | succ n ih =>
      have hlt : pos < ios.okP := by omega
      obtain ⟨ios', hcalled, hstep⟩ :=
        callPending_succ cbks (n + 1) called hlt (hbegin pos le_rfl hlt)
      have hslots : ∀ i, pos + 1 ≤ i → i < pos + 1 + n →
          ios'.pending (i % ios.count) = ios.pending (i % ios.count) :=
        fun i hlo hhi => hcalled.pending i hlo (by omega)
      have hposRp : ios'.posRp = pos + 1 := by
        rw [hcalled.posRp, hpos]
        exact uint64_succ (by omega)
      have hbegin' : ∀ i, pos + 1 ≤ i → i < ios'.okP → ios'.typeAt i ≠ .ioBegin := by
        intro i hlo hhi
        rw [hcalled.okP] at hhi
        unfold IoStream.typeAt
        rw [hcalled.count, hslots i hlo (by omega)]
        exact hbegin i (by omega) hhi
      obtain ⟨last, hloop, hlast⟩ := ih (called ++ if ios.typeAt pos = .ioNop then []
          else (ios.pending (pos % ios.count)).cbk.toList)
        (by rw [hcalled.okP]; omega) (by rw [hcalled.count]; omega)
        (by rw [hcalled.okP]; exact hword) hposRp hbegin'
      refine ⟨last, ?_, hlast.trans hcalled.okP⟩
      rw [hstep, hloop, callbacksOf_succ, callbacksOf_congr hcalled.count hslots,
        List.append_assoc]

/-- A bad instruction stops the program. -/
theorem callPending_begin (cbks : Callbacks κ) (called : List κ) (hlo : pos ≤ i) (hhi : i < ios.okP)
    (hfits : ios.okP ≤ pos + ios.count) (hbegin : ios.typeAt i = .ioBegin) :
    callPending cbks n pos ios called = none := by
  induction n generalizing ios pos called with
  | zero => rfl
  | succ n ih =>
      by_cases hfirst : ios.typeAt pos = .ioBegin
      · unfold IoStream.typeAt at hfirst
        simp only [callPending, if_pos (by omega : pos < ios.okP), hfirst]
      · have hne : pos ≠ i := fun heq => hfirst (heq ▸ hbegin)
        obtain ⟨ios', hcalled, hstep⟩ :=
          callPending_succ cbks n called (by omega : pos < ios.okP) hfirst
        rw [hstep]
        refine ih _ (by omega) (by rw [hcalled.okP]; exact hhi) ?_ ?_
        · rw [hcalled.okP, hcalled.count]
          omega
        · unfold IoStream.typeAt at hbegin ⊢
          rw [hcalled.count, hcalled.pending i (by omega) (by omega)]
          exact hbegin

end Calls

/-! ## The completion index -/

section Completion

variable {ios : IoStream κ} {blocking : Bool} {complete : ℕ → Bool} {okP : ℕ} {code : Returned}

/-- The two functions agree on what they do to `ok_p`. -/
theorem processCalling_eq (cbks : Callbacks κ)
    (hreturns : advanceReturns ios blocking complete = some ({ ios with okP := okP }, code)) :
    processCalling cbks ios blocking complete =
      callPending cbks (okP - ios.posRp + 1) ios.posRp { ios with okP := okP } [] := by
  unfold processCalling
  rw [hreturns]

/-- Callbacks that leave the stream alone. -/
def Callbacks.idle (κ : Type*) : Callbacks κ where
  run := fun _ ios => ios
  count := fun _ _ => rfl
  pending := fun _ _ => rfl
  posRp := fun _ _ => rfl
  posWp := fun _ _ => rfl
  okP := fun _ _ => rfl

/-- With such callbacks the loop is the one of `processPending`. -/
theorem callPending_idle {n pos : ℕ} (called : List κ) (hn : pos + n = ios.okP) :
    callPending (.idle κ) (n + 1) pos ios called = callLoop n pos ios called := by
  induction n generalizing ios pos called with
  | zero => rw [callPending, if_neg (by omega), callLoop]
  | succ n ih =>
      have hcall : Callbacks.call (.idle κ) (ios.pending (pos % ios.count)) ios = ios := by
        unfold Callbacks.call
        split <;> rfl
      have hnext : pos + 1 + n = ios.okP := by omega
      rw [callPending, callLoop]
      simp only [if_pos (by omega : pos < ios.okP), hcall]
      cases (ios.pending (pos % ios.count)).type
      case ioBegin => rfl
      all_goals exact ih _ hnext

/-- The callbacks before `ok_p` are called when there is no bad instruction before it. -/
theorem calls_iff (h : Positions ios) (cbks : Callbacks κ)
    (hreturns : advanceReturns ios blocking complete = some ({ ios with okP := okP }, code))
    (hlo : ios.posRp ≤ okP) (hhi : okP ≤ ios.posWp) :
    (∃ ios', processCalling cbks ios blocking complete =
        some (ios', callbacksOf ios ios.posRp (okP - ios.posRp)) ∧ ios'.posRp = okP) ↔
      ∀ i, ios.posRp ≤ i → i < okP → ios.typeAt i ≠ .ioBegin := by
  have hfits := h.fits
  have hlt := h.writep_lt
  rw [processCalling_eq cbks hreturns]
  constructor
  · rintro ⟨ios', hcalls, -⟩ i hi hi' hbegin
    have hnone : callPending cbks (okP - ios.posRp + 1) ios.posRp { ios with okP := okP } [] =
        none := callPending_begin cbks [] hi hi' (by show okP ≤ ios.posRp + ios.count; omega) hbegin
    rw [hnone] at hcalls
    cases hcalls
  · intro hbegin
    have hend : ios.posRp + (okP - ios.posRp) = okP := Nat.add_sub_cancel' hlo
    have hroom : okP - ios.posRp ≤ ios.count := by omega
    have hword : okP < 2 ^ 64 := by omega
    exact callPending_eq cbks [] hend hroom hword rfl hbegin

/-- The functions do what they are for exactly on these streams. -/
theorem completes_iff (h : Positions ios) (blocking : Bool) (complete : ℕ → Bool)
    (cbks : Callbacks κ) :
    Completes ios blocking complete cbks ↔ Regular ios blocking complete := by
  have hread := h.readp_le
  have hok := h.ok_le
  by_cases hpending : ios.posRp = ios.posWp
  · -- nothing is pending
    have hreturns : advanceReturns ios blocking complete =
        some ({ ios with okP := ios.okP }, .zero) := if_pos (decide_eq_true hpending)
    refine iff_of_true ⟨ios.okP, .zero, hreturns, ⟨⟨le_rfl, hok, ?_⟩, ?_⟩, ?_, ?_⟩ (.inl hpending)
    · exact fun i hlo hhi => absurd hhi (not_lt.mpr hlo)
    · rintro j ⟨-, hj, -⟩
      omega
    · exact iff_of_true rfl (.inr hpending)
    · exact (calls_iff h cbks hreturns hread hok).mpr fun i hlo hhi => absurd hhi (by omega)
  unfold Regular
  rw [or_iff_right hpending]
  have hempty : ¬ ios.emptypending = true := fun hsame => hpending (of_decide_eq_true hsame)
  cases blocking with
  | true =>
      have hreturns : advanceReturns ios true complete =
          some ({ ios with okP := ios.posWp }, .zero) := by
        unfold advanceReturns
        rw [if_neg hempty, if_pos rfl]
      have hcalls := calls_iff h cbks hreturns (hread.trans hok) le_rfl
      rw [if_pos rfl]
      constructor
      · rintro ⟨okP, code, hreturns', -, hcode, hprocess⟩
        rw [hreturns] at hreturns'
        obtain ⟨hios, rfl⟩ := Prod.mk.inj (Option.some.inj hreturns')
        obtain rfl : ios.posWp = okP := congrArg IoStream.okP hios
        exact ⟨hcalls.mp hprocess, (hcode.mp rfl).resolve_right hpending⟩
      · rintro ⟨hbegin, hlt⟩
        refine ⟨ios.posWp, .zero, hreturns, ⟨⟨hok, le_rfl, fun _ _ _ => .inl rfl⟩, ?_⟩,
          iff_of_true rfl (.inl hlt), hcalls.mpr hbegin⟩
        exact fun j hj => hj.2.1
  | false =>
      rw [if_neg Bool.false_ne_true]
      have hrun := run_le ios complete
      constructor
      · rintro ⟨okP, code, hreturns, hgreatest, hcode, hprocess⟩
        obtain rfl : okP = ios.okP + run ios complete :=
          hgreatest.unique (isGreatest_run h complete)
        have hcalls := (calls_iff h cbks hreturns (by omega) (by omega)).mp hprocess
        have hscanned : ∀ k, ios.okP ≤ k → k < ios.posWp → ios.typeAt k ≠ .ioBegin := by
          intro k hlo hhi hbegin
          have hnone : advanceLoop ios complete (ios.posWp - ios.okP) ios.okP
              (int32 (ios.okP - 1)) = none := advanceLoop_begin hlo (by omega) hbegin
          unfold advanceReturns at hreturns
          rw [if_neg hempty, if_neg Bool.false_ne_true, hnone] at hreturns
          cases hreturns
        refine ⟨fun i hlo hhi => ?_, ?_⟩
        · rcases Nat.lt_or_ge i ios.okP with hlt | hge
          · exact hcalls i hlo (by omega)
          · exact hscanned i hge hhi
        · exact (scan_right_iff h complete hpending hscanned hreturns).mp ⟨rfl, hcode⟩
      · rintro ⟨hbegin, hfollows⟩
        have hscanned : ∀ k, ios.okP ≤ k → k < ios.posWp → ios.typeAt k ≠ .ioBegin :=
          fun k hlo hhi => hbegin k (by omega) hhi
        have hscan := advanceReturns_scan h complete hpending hscanned
        obtain ⟨okP, code, hreturns⟩ : ∃ okP code, advanceReturns ios false complete =
            some ({ ios with okP := okP }, code) := by
          rw [hscan]
          split
          · exact ⟨ios.okP, .einprogress, rfl⟩
          · exact ⟨_, .zero, rfl⟩
        obtain ⟨rfl, hcode⟩ := (scan_right_iff h complete hpending hscanned hreturns).mpr hfollows
        refine ⟨_, code, hreturns, isGreatest_run h complete, hcode, ?_⟩
        exact (calls_iff h cbks hreturns (by omega) (by omega)).mpr fun i hlo hhi =>
          hbegin i hlo (by omega)

end Completion

/-- A stream of 4 entries with these pending instructions, whose callbacks are their positions. -/
def pendingStream (types : List IoType) (okP : ℕ) : IoStream ℕ :=
  { iostreamInit .kern 4 (fun _ => ⟨.ioNop, none⟩)
      (fun i => ⟨types.getD i .ioNop, some i⟩) with
    posWp := types.length
    okP := okP }

/-- Callbacks that push a copy each. -/
def pushingCallbacks : Callbacks ℕ where
  run := fun k ios =>
    { ios with
      instr := Function.update ios.instr (ios.posW % ios.count) ⟨.ioCopyD2H, some k⟩
      posW := uint64 (ios.posW + 1) }
  count := fun _ _ => rfl
  pending := fun _ _ => rfl
  posRp := fun _ _ => rfl
  posWp := fun _ _ => rfl
  okP := fun _ _ => rfl

/-- The first two of three instructions are complete. -/
theorem completes_twoOfThree :
    Completes (pendingStream [.ioKern, .ioCopyH2D, .ioKern] 0) false (fun i => decide (i ≠ 2))
      pushingCallbacks := by
  have h : Positions (pendingStream [.ioKern, .ioCopyH2D, .ioKern] 0) := by
    constructor <;> decide
  refine (completes_iff h false _ pushingCallbacks).mpr (.inr ⟨?_, ?_⟩)
  · intro i _ hi
    have hi : i < 3 := hi
    interval_cases i <;> decide
  · exact (follows_iff h _).mpr (.inr (by decide))

/-- A barrier behind a kernel is never passed. -/
theorem not_completes :
    ¬ Completes (pendingStream [.ioKern, .ioBarrier] 1) false (fun _ => true) pushingCallbacks := by
  rintro ⟨okP, code, hreturns, hgreatest, -⟩
  have hokP : okP = 1 := by
    have hstays : advanceReturns (pendingStream [.ioKern, .ioBarrier] 1) false (fun _ => true) =
        some (pendingStream [.ioKern, .ioBarrier] 1, .einprogress) := rfl
    rw [hstays] at hreturns
    exact (congrArg IoStream.okP (Prod.mk.inj (Option.some.inj hreturns)).1).symm
  have hpassed : 2 ∈ completedIndices (pendingStream [.ioKern, .ioBarrier] 1) false
      fun _ => true := ⟨by decide, le_rfl, fun _ _ _ => .inr fun _ => rfl⟩
  have hle := hgreatest.2 hpassed
  omega

end Xkblas.Offload.Stream
