import Mathlib.Data.Int.Order.Basic
import Mathlib.Order.Basic
import Xkblas.Offload.IoStream

/-!
# No callback of a stream is lost

The lists `new` and `held` are the contents of the two arrays. A process moves instructions from
the first to the second (`Processed`), and a test takes them from the second (`Tested`). The
invariant says where each committed instruction is. It is kept by the calls that meet `ok`.
-/

namespace Xkblas.Offload.Stream

open Library

variable {κ : Type*} {ios ios' ios'' : IoStream κ} {taken taken' : List (Instruction κ)}
  {inst : Instruction κ} {called : List κ} {blocking : Bool} {complete : ℕ → Bool} {conc n : ℕ}

/-! ## The contents of the arrays -/

/-- The instruction is copied to the pending ones. -/
def IoType.launches : IoType → Bool
  | .ioNop | .ioBegin | .ioEnd => false
  | .ioCopyH2H | .ioCopyH2D | .ioCopyD2H | .ioCopyD2D | .ioBarrier | .ioKern => true

def Instruction.launches (inst : Instruction κ) : Bool :=
  inst.type.launches

/-- The callbacks of the instructions. -/
def callbacks (insts : List (Instruction κ)) : List κ :=
  insts.filterMap Instruction.cbk

/-- The new instructions. -/
def IoStream.new (ios : IoStream κ) : List (Instruction κ) :=
  contents ios.instr ios.count ios.posR ios.posW

/-- The pending instructions. -/
def IoStream.held (ios : IoStream κ) : List (Instruction κ) :=
  contents ios.pending ios.count ios.posRp ios.posWp

/-- The pending instructions that are not known to be complete. -/
def IoStream.waiting (ios : IoStream κ) : List (Instruction κ) :=
  contents ios.pending ios.count ios.okP ios.posWp

/-- The positions of a stream. -/
structure Bounded (ios : IoStream κ) : Prop where
  read_le : ios.posR ≤ ios.posW
  newFits : ios.posW ≤ ios.posR + ios.count
  write_lt : ios.posW < 2 ^ 64
  readp_le : ios.posRp ≤ ios.okP
  ok_le : ios.okP ≤ ios.posWp
  pendingFits : ios.posWp ≤ ios.posRp + ios.count
  writep_le : ios.posWp ≤ ios.posR

theorem callbacks_append (l l' : List (Instruction κ)) :
    callbacks (l ++ l') = callbacks l ++ callbacks l' :=
  List.filterMap_append

theorem Bounded.sizeinstr_eq (h : Bounded ios) : ios.sizeinstr = ios.posW - ios.posR :=
  uint64_sub h.read_le h.write_lt

theorem Bounded.sizepending_eq (h : Bounded ios) :
    ios.sizepending = ios.posWp - ios.posRp := by
  have hread := h.readp_le
  have hok := h.ok_le
  have hwrite := h.writep_le
  have hle := h.read_le
  have hlt := h.write_lt
  exact uint64_sub (by omega) (by omega)

theorem Bounded.held_eq (h : Bounded ios) :
    ios.held = contents ios.pending ios.count ios.posRp ios.okP ++ ios.waiting :=
  contents_split h.readp_le h.ok_le

/-! ## Process -/

/-- The round of a process that takes the first new instruction goes right: the pending ones are
not full, no callback is dropped, and a barrier finds that all of them are known to be complete. -/
def RoundOk (ios : IoStream κ) : Prop :=
  let inst := ios.instr (ios.posR % ios.count)
  (inst.launches = true → ios.fullpending = false) ∧ (inst.launches = false → inst.cbk = none) ∧
    (inst.type = .ioBarrier → ios.okP = ios.posWp)

instance (ios : IoStream κ) : Decidable (RoundOk ios) :=
  inferInstanceAs (Decidable (_ ∧ _ ∧ _))

/-- `n` rounds go right. -/
def ProcessOk : ℕ → IoStream κ → Prop
  | 0, _ => True
  | n + 1, ios => RoundOk ios ∧ ProcessOk n (processRound ios)

instance decidableProcessOk : (n : ℕ) → (ios : IoStream κ) → Decidable (ProcessOk n ios)
  | 0, _ => isTrue trivial
  | n + 1, ios => @instDecidableAnd _ _ _ (decidableProcessOk n (processRound ios))

/-- What a process does that takes the given new instructions. -/
structure Processed (ios ios' : IoStream κ) (taken : List (Instruction κ)) : Prop where
  bounded : Bounded ios'
  new : ios.new = taken ++ ios'.new
  held : ios'.held = ios.held ++ taken.filter Instruction.launches
  posR : ios'.posR = ios.posR + taken.length
  posRp : ios'.posRp = ios.posRp
  posW : ios'.posW = ios.posW
  mutex : ios'.mutex = ios.mutex
  count : ios'.count = ios.count
  waiting : (∀ x ∈ ios.waiting, x.type ≠ .ioBarrier) → ∀ x ∈ ios'.waiting, x.type ≠ .ioBarrier
  silent : ∀ x ∈ taken, x.launches = false → x.cbk = none

theorem Processed.refl (h : Bounded ios) : Processed ios ios [] where
  bounded := h
  new := rfl
  held := (List.append_nil _).symm
  posR := rfl
  posRp := rfl
  posW := rfl
  mutex := rfl
  count := rfl
  waiting := id
  silent := fun _ hx => absurd hx List.not_mem_nil

theorem Processed.trans (h : Processed ios ios' taken) (h' : Processed ios' ios'' taken') :
    Processed ios ios'' (taken ++ taken') where
  bounded := h'.bounded
  new := by rw [h.new, h'.new, List.append_assoc]
  held := by rw [h'.held, h.held, List.filter_append, List.append_assoc]
  posR := by rw [h'.posR, h.posR, List.length_append, Nat.add_assoc]
  posRp := h'.posRp.trans h.posRp
  posW := h'.posW.trans h.posW
  mutex := h'.mutex.trans h.mutex
  count := h'.count.trans h.count
  waiting := fun hw => h'.waiting (h.waiting hw)
  silent := fun x hx => (List.mem_append.mp hx).elim (h.silent x) (h'.silent x)

/-- A round that only drops the first new instruction. -/
theorem processed_done (h : Bounded ios) (hlt : ios.posR < ios.posW)
    (hinst : ios.instr (ios.posR % ios.count) = inst) (hlaunch : inst.launches = false)
    (hcbk : inst.cbk = none) :
    Processed ios { ios with posR := uint64 (ios.posR + 1) } [inst] := by
  have hposR : uint64 (ios.posR + 1) = ios.posR + 1 := by
    have hwrite := h.write_lt
    exact uint64_succ (by omega)
  rw [hposR]
  refine ⟨⟨hlt, ?_, h.write_lt, h.readp_le, h.ok_le, h.pendingFits, ?_⟩, ?_, ?_, rfl, rfl, rfl, rfl,
    rfl, id, ?_⟩
  · have hfits := h.newFits
    show ios.posW ≤ ios.posR + 1 + ios.count
    omega
  · exact Nat.le_succ_of_le h.writep_le
  · rw [← hinst]
    exact contents_cons hlt
  · rw [List.filter_singleton, hlaunch]
    exact (List.append_nil _).symm
  · intro x hx _
    obtain rfl := List.mem_singleton.mp hx
    exact hcbk

/-- A round that launches the first new instruction, with the position of the instructions that
are known to be complete after it. -/
theorem processed_inProgress (h : Bounded ios) (hlt : ios.posR < ios.posW)
    (hinst : ios.instr (ios.posR % ios.count) = inst) (hlaunch : inst.launches = true)
    (hroom : ios.fullpending = false) {okP : ℕ}
    (hok : okP = ios.okP ∧ inst.type ≠ .ioBarrier ∨ okP = ios.posWp + 1) :
    Processed ios
      { ios with
        okP := okP
        posR := uint64 (ios.posR + 1)
        pending := Function.update ios.pending (ios.posWp % ios.count) inst
        posWp := uint64 (ios.posWp + 1) } [inst] := by
  have hle := h.writep_le
  have hwrite := h.write_lt
  have hread := h.readp_le
  have hokle := h.ok_le
  have hfits := h.newFits
  have hspace : ios.posWp < ios.posRp + ios.count := by
    have hfull := of_decide_eq_false hroom
    rw [h.sizepending_eq] at hfull
    omega
  have hposR : uint64 (ios.posR + 1) = ios.posR + 1 := uint64_succ (by omega)
  have hposWp : uint64 (ios.posWp + 1) = ios.posWp + 1 := uint64_succ (by omega)
  have hokP : ios.okP ≤ okP ∧ okP ≤ ios.posWp + 1 := by omega
  rw [hposR, hposWp]
  refine ⟨⟨hlt, ?_, hwrite, hread.trans hokP.1, hokP.2, hspace, Nat.succ_le_succ hle⟩, ?_, ?_, rfl,
    rfl, rfl, rfl, rfl, fun hw x hx => ?_, ?_⟩
  · show ios.posW ≤ ios.posR + 1 + ios.count
    omega
  · rw [← hinst]
    exact contents_cons hlt
  · rw [List.filter_singleton, hlaunch]
    exact contents_push (hread.trans hokle) hspace
  · have hx : x ∈ contents (Function.update ios.pending (ios.posWp % ios.count) inst) ios.count
        okP (ios.posWp + 1) := hx
    rcases hok with ⟨rfl, htype⟩ | rfl
    · rw [contents_push hokle (by omega)] at hx
      rcases List.mem_append.mp hx with hx | hx
      · exact hw x hx
      · obtain rfl := List.mem_singleton.mp hx
        exact htype
    · rw [contents_self] at hx
      exact absurd hx List.not_mem_nil
  · intro x hx hnot
    obtain rfl := List.mem_singleton.mp hx
    rw [hlaunch] at hnot
    cases hnot

theorem processed_round (h : Bounded ios) (hlt : ios.posR < ios.posW) (hok : RoundOk ios) :
    Processed ios (processRound ios) [ios.instr (ios.posR % ios.count)] := by
  obtain ⟨hroom, hcbk, hbarrier⟩ := hok
  obtain ⟨inst, hinst⟩ : ∃ inst, ios.instr (ios.posR % ios.count) = inst := ⟨_, rfl⟩
  have hlaunch : inst.launches = inst.type.launches := rfl
  unfold processRound decodeIoinstruction
  simp only [hinst] at hroom hcbk hbarrier ⊢
  cases htype : inst.type
  all_goals rw [htype] at hlaunch hbarrier
  all_goals simp only
  case ioNop | ioBegin | ioEnd => exact processed_done h hlt hinst hlaunch (hcbk hlaunch)
  case ioCopyH2H | ioCopyH2D | ioCopyD2H | ioCopyD2D | ioKern =>
    refine processed_inProgress h hlt hinst hlaunch (hroom hlaunch) (.inl ⟨rfl, ?_⟩)
    rw [htype]
    decide
  case ioBarrier =>
    have hokP : uint64 (ios.okP + 1) = ios.posWp + 1 := by
      have hle := h.writep_le
      have hwrite := h.write_lt
      rw [hbarrier rfl, uint64_succ (by omega)]
    exact processed_inProgress h hlt hinst hlaunch (hroom hlaunch) (.inr hokP)

/-- The rounds of a process. -/
theorem processed_loop (h : Bounded ios) (hn : ios.posR + n ≤ ios.posW) (hok : ProcessOk n ios) :
    ∃ taken, taken.length = n ∧ Processed ios (processLoop n ios) taken := by
  induction n generalizing ios with
  | zero => exact ⟨[], rfl, .refl h⟩
  | succ n ih =>
      have hround := processed_round h (by omega) hok.1
      have hposR : (processRound ios).posR = ios.posR + 1 := hround.posR
      have hposW := hround.posW
      obtain ⟨taken, hlength, hrest⟩ := ih hround.bounded (by omega) hok.2
      exact ⟨_ :: taken, by rw [List.length_cons, hlength], hround.trans hrest⟩

/-- A process takes all new instructions. -/
theorem processed_process (h : Bounded ios) (hok : ProcessOk ios.sizeinstr ios)
    (hprocess : processInstruction ios = some ios') : ∃ taken, Processed ios ios' taken ∧
      ios'.new = [] := by
  unfold processInstruction at hprocess
  split at hprocess
  next hempty =>
    cases hprocess
    have hsame : ios.posR = ios.posW := of_decide_eq_true hempty
    refine ⟨[], .refl h, ?_⟩
    show contents _ _ ios.posR ios.posW = []
    rw [hsame]
    exact contents_self _ _ _
  next =>
    split at hprocess
    next => cases hprocess
    next =>
      cases hprocess
      have hle := h.read_le
      rw [h.sizeinstr_eq] at hok ⊢
      obtain ⟨taken, hlength, htaken⟩ := processed_loop h (by omega) hok
      refine ⟨taken, htaken, ?_⟩
      have hend : (processLoop (ios.posW - ios.posR) ios).posR =
          (processLoop (ios.posW - ios.posR) ios).posW := by
        rw [htaken.posR, hlength, htaken.posW, Nat.add_sub_cancel' hle]
      unfold IoStream.new
      rw [hend]
      exact contents_self _ _ _

/-! ## Test -/

/-- What a test does that calls the callbacks of the given pending instructions. -/
structure Tested (ios ios' : IoStream κ) (taken : List (Instruction κ)) : Prop where
  bounded : Bounded ios'
  held : ios.held = taken ++ ios'.held
  posRp : ios'.posRp = ios.posRp + taken.length
  waiting : ∀ x ∈ ios'.waiting, x ∈ ios.waiting
  frame : ios' = { ios with okP := ios'.okP, posRp := ios'.posRp, pending := ios'.pending }

theorem Tested.refl (h : Bounded ios) : Tested ios ios [] where
  bounded := h
  held := rfl
  posRp := rfl
  waiting := fun _ hx => hx
  frame := rfl

theorem Tested.trans (h : Tested ios ios' taken) (h' : Tested ios' ios'' taken') :
    Tested ios ios'' (taken ++ taken') where
  bounded := h'.bounded
  held := by rw [h.held, h'.held, List.append_assoc]
  posRp := by rw [h'.posRp, h.posRp, List.length_append, Nat.add_assoc]
  waiting := fun x hx => h.waiting x (h'.waiting x hx)
  frame := by
    rw [h'.frame, h.frame]

/-- The positions that are known to be complete may advance. -/
theorem tested_advance (h : Bounded ios) {okP : ℕ} (hle : ios.okP ≤ okP) (hok : okP ≤ ios.posWp) :
    Tested ios { ios with okP := okP } [] := by
  refine ⟨⟨h.read_le, h.newFits, h.write_lt, h.readp_le.trans hle, hok, h.pendingFits,
    h.writep_le⟩, rfl, rfl, fun x hx => ?_, rfl⟩
  have hsplit : ios.waiting = contents ios.pending ios.count ios.okP okP ++
      contents ios.pending ios.count okP ios.posWp := contents_split hle hok
  rw [hsplit]
  exact List.mem_append_right _ hx

theorem advanceLoop_succ {okp : ℕ} {prev : ℤ}
    (hlaunch : (ios.pending (okp % ios.count)).launches = true)
    (hbarrier : (ios.pending (okp % ios.count)).type ≠ .ioBarrier) :
    advanceLoop ios complete (n + 1) okp prev =
      if complete (okp % ios.count) = true ∧ uint64 (int32 (prev + 1)) = okp then
        advanceLoop ios complete n (okp + 1) (int32 (prev + 1))
      else advanceLoop ios complete n (okp + 1) prev := by
  unfold Instruction.launches at hlaunch
  cases htype : (ios.pending (okp % ios.count)).type
  all_goals rw [htype] at hlaunch hbarrier
  case ioNop | ioBegin | ioEnd => cases hlaunch
  case ioBarrier => exact absurd rfl hbarrier
  all_goals simp only [advanceLoop, htype]

/-- The events are asked one after the other. `prev` is the last position before which all are
complete. -/
theorem advanceLoop_spec (complete : ℕ → Bool) (hint : ios.posWp < 2 ^ 31)
    (hheld : ∀ x ∈ ios.waiting, x.launches = true ∧ x.type ≠ .ioBarrier) {okp : ℕ} {prev : ℤ}
    (hle : ios.okP ≤ okp) (hn : okp + n = ios.posWp) (hlo : -1 ≤ prev) (hhi : prev < okp) :
    ∃ prev', advanceLoop ios complete n okp prev = some prev' ∧ prev ≤ prev' ∧
      prev' < ios.posWp ∧ ((∀ i, complete i = true) → prev + 1 = okp →
        prev' + 1 = ios.posWp) := by
  induction n generalizing okp prev with
  | zero => exact ⟨prev, rfl, le_rfl, by omega, fun _ hprev => by omega⟩
  | succ n ih =>
      have hmem : ios.pending (okp % ios.count) ∈ ios.waiting := by
        have hsplit : ios.waiting = contents ios.pending ios.count ios.okP okp ++
            contents ios.pending ios.count okp ios.posWp := contents_split hle (by omega)
        have hlt : okp < ios.posWp := by omega
        rw [hsplit, contents_cons hlt]
        exact List.mem_append_right _ List.mem_cons_self
      obtain ⟨hlaunch, hbarrier⟩ := hheld _ hmem
      have hprev : int32 (prev + 1) = prev + 1 := int32_of_lt (by omega) (by omega)
      have hword : uint64 (prev + 1) = (prev + 1).toNat := uint64_of_lt (by omega) (by omega)
      -- the answer of the event
      have hstep : ∃ next, advanceLoop ios complete (n + 1) okp prev =
          advanceLoop ios complete n (okp + 1) next ∧ prev ≤ next ∧ next < (okp + 1 : ℕ) ∧
          ((∀ i, complete i = true) → prev + 1 = okp → next + 1 = (okp + 1 : ℕ)) := by
        rw [advanceLoop_succ hlaunch hbarrier, hprev, hword]
        split
        next hcomplete => exact ⟨prev + 1, rfl, by omega, by omega, fun _ _ => by omega⟩
        next hnot =>
          refine ⟨prev, rfl, le_rfl, by omega, fun hall hsame => absurd ⟨hall _, ?_⟩ hnot⟩
          omega
      obtain ⟨next, heq, hge, hlt, hall⟩ := hstep
      obtain ⟨prev', hloop, hle', hlt', hall'⟩ :=
        ih (by omega) (by omega) (by omega : -1 ≤ next) hlt
      exact ⟨prev', heq.trans hloop, hge.trans hle', hlt',
        fun hc hp => hall' hc (hall hc hp)⟩

/-- The completions are found, and all of them where all are reported. -/
theorem advancePending_spec (complete : ℕ → Bool) (h : Bounded ios)
    (hint : blocking = false → ios.posWp < 2 ^ 31)
    (hheld : ∀ x ∈ ios.waiting, x.launches = true ∧ x.type ≠ .ioBarrier) :
    ∃ okP, advancePending ios blocking complete = some { ios with okP := okP } ∧ ios.okP ≤ okP ∧
      okP ≤ ios.posWp ∧ ((∀ i, complete i = true) → okP = ios.posWp) := by
  have hok := h.ok_le
  have hread := h.readp_le
  unfold advancePending
  split
  next hempty =>
    have hsame : ios.posRp = ios.posWp := of_decide_eq_true hempty
    exact ⟨ios.okP, rfl, le_rfl, hok, fun _ => by omega⟩
  next =>
    split
    next => exact ⟨ios.posWp, rfl, hok, le_rfl, fun _ => rfl⟩
    next hblock =>
      have hint := hint ((Bool.not_eq_true _).mp hblock)
      have hfirst : int32 (ios.okP - 1) = ios.okP - 1 := int32_of_lt (by omega) (by omega)
      obtain ⟨prev, hloop, hge, hlt, hall⟩ := advanceLoop_spec complete hint hheld
        (le_refl ios.okP) (Nat.add_sub_cancel' hok) (by omega : -1 ≤ (ios.okP : ℤ) - 1) (by omega)
      rw [hfirst, hloop]
      simp only
      split
      next heq =>
        have hsame : prev = ios.okP - 1 := by
          unfold uint64 at heq
          omega
        exact ⟨ios.okP, rfl, le_rfl, hok, fun hc => by have hend := hall hc (by omega); omega⟩
      next =>
        have hnext : uint64 (int32 (prev + 1)) = (prev + 1).toNat := by
          rw [int32_of_lt (by omega) (by omega), uint64_of_lt (by omega) (by omega)]
        rw [hnext]
        refine ⟨(prev + 1).toNat, rfl, by omega, by omega, fun hc => ?_⟩
        have hend := hall hc (by omega)
        omega

/-- The callback of the first pending instruction is called. -/
theorem tested_call (h : Bounded ios) (hlt : ios.posRp < ios.okP) :
    Tested ios
      { ios with
        posRp := uint64 (ios.posRp + 1)
        pending := Function.update ios.pending (ios.posRp % ios.count)
          { ios.pending (ios.posRp % ios.count) with type := .ioNop } }
      [ios.pending (ios.posRp % ios.count)] := by
  have hok := h.ok_le
  have hfits := h.pendingFits
  have hwritep := h.writep_le
  have hread := h.read_le
  have hwrite := h.write_lt
  rw [uint64_succ (by omega : ios.posRp + 1 < 2 ^ 64)]
  refine ⟨⟨hread, h.newFits, hwrite, hlt, hok, ?_, hwritep⟩, ?_, rfl, fun x hx => ?_, rfl⟩
  · show ios.posWp ≤ ios.posRp + 1 + ios.count
    omega
  · show contents _ _ _ _ = _ :: contents _ _ (ios.posRp + 1) _
    rw [contents_update_before (Nat.lt_succ_self _) hfits]
    exact contents_cons (hlt.trans_le hok)
  · have hx : x ∈ contents (Function.update ios.pending (ios.posRp % ios.count) _) ios.count
        ios.okP ios.posWp := hx
    rwa [contents_update_before hlt hfits] at hx

theorem callLoop_succ {pos : ℕ} (hlaunch : (ios.pending (pos % ios.count)).launches = true) :
    callLoop (n + 1) pos ios called =
      callLoop n (pos + 1)
        { ios with
          posRp := uint64 (ios.posRp + 1)
          pending := Function.update ios.pending (pos % ios.count)
            { ios.pending (pos % ios.count) with type := .ioNop } }
        (called ++ (ios.pending (pos % ios.count)).cbk.toList) := by
  unfold Instruction.launches at hlaunch
  cases htype : (ios.pending (pos % ios.count)).type
  all_goals rw [htype] at hlaunch
  case ioNop | ioBegin | ioEnd => cases hlaunch
  all_goals simp only [callLoop, htype]

/-- The callbacks of the complete instructions are called in their order. -/
theorem callLoop_spec (called : List κ) (h : Bounded ios) (hn : ios.posRp + n = ios.okP)
    (hheld : ∀ x ∈ ios.held, x.launches = true) :
    ∃ ios' taken, callLoop n ios.posRp ios called = some (ios', called ++ callbacks taken) ∧
      Tested ios ios' taken ∧ ios'.posRp = ios.okP := by
  induction n generalizing ios called with
  | zero =>
      refine ⟨ios, [], ?_, .refl h, hn⟩
      show some (ios, called) = some (ios, called ++ [])
      rw [List.append_nil]
  | succ n ih =>
      have hcall := tested_call h (by omega : ios.posRp < ios.okP)
      obtain ⟨op, hop⟩ : ∃ op, ios.pending (ios.posRp % ios.count) = op := ⟨_, rfl⟩
      rw [hop] at hcall
      have hlaunch : (ios.pending (ios.posRp % ios.count)).launches = true := by
        refine hheld _ ?_
        rw [hop, hcall.held]
        exact List.mem_append_left _ List.mem_cons_self
      have hposRp : uint64 (ios.posRp + 1) = ios.posRp + 1 := hcall.posRp
      rw [callLoop_succ hlaunch, hop]
      rw [hposRp] at hcall ⊢
      obtain ⟨ios', taken, hloop, htaken, hend⟩ := ih (called ++ op.cbk.toList)
        hcall.bounded (by show ios.posRp + 1 + n = ios.okP; omega) fun x hx =>
          hheld x (by rw [hcall.held]; exact List.mem_append_right _ hx)
      refine ⟨ios', op :: taken, hloop.trans ?_, hcall.trans htaken, hend⟩
      have hcallbacks : callbacks (op :: taken) = op.cbk.toList ++ callbacks taken := by
        unfold callbacks
        rw [List.filterMap_cons]
        cases op.cbk <;> rfl
      rw [hcallbacks, List.append_assoc]

/-- A round of a test. -/
theorem processPending_spec (complete : ℕ → Bool) (called : List κ) (h : Bounded ios)
    (hint : blocking = false → ios.posWp < 2 ^ 31) (hheld : ∀ x ∈ ios.held, x.launches = true)
    (hwaiting : ∀ x ∈ ios.waiting, x.type ≠ .ioBarrier) :
    ∃ ios' taken, processPending ios blocking complete called =
        some (ios', called ++ callbacks taken) ∧
      Tested ios ios' taken ∧ ((∀ i, complete i = true) → ios'.posRp = ios'.posWp) := by
  obtain ⟨okP, hadvance, hge, hle, hall⟩ := advancePending_spec complete h hint
    fun x hx => ⟨hheld x (by rw [h.held_eq]; exact List.mem_append_right _ hx), hwaiting x hx⟩
  have htested := tested_advance h hge hle
  obtain ⟨ios', taken, hloop, htaken, hend⟩ := callLoop_spec called htested.bounded
    (Nat.add_sub_cancel' htested.bounded.readp_le) hheld
  refine ⟨ios', taken, ?_, htested.trans htaken, fun hc => ?_⟩
  · unfold processPending
    rw [hadvance]
    exact hloop
  · rw [hend, htaken.frame]
    exact hall hc

/-- What is assumed of the stream before each round of a test. -/
structure Ready (blocking : Bool) (ios : IoStream κ) : Prop where
  bounded : Bounded ios
  int : blocking = false → ios.posWp < 2 ^ 31
  launched : ∀ x ∈ ios.held, x.launches = true
  waiting : ∀ x ∈ ios.waiting, x.type ≠ .ioBarrier

theorem Ready.tested (h : Ready blocking ios) (ht : Tested ios ios' taken) :
    Ready blocking ios' where
  bounded := ht.bounded
  int := by
    rw [ht.frame]
    exact h.int
  launched := fun x hx => h.launched x (by rw [ht.held]; exact List.mem_append_right _ hx)
  waiting := fun x hx => h.waiting x (ht.waiting x hx)

/-- A test calls the callbacks of the first pending instructions. -/
theorem waittestLoop_tested {rounds : List (ℕ → Bool)} {result : IoStream κ × List κ}
    (h : Ready blocking ios) (hloop : waittestLoop conc blocking rounds ios called = some result) :
    ∃ taken, Tested ios result.1 taken ∧ result.2 = called ++ callbacks taken := by
  induction rounds generalizing ios called with
  | nil => cases hloop
  | cons complete rest ih =>
      obtain ⟨next, taken, hround, htaken, _⟩ :=
        processPending_spec complete called h.bounded h.int h.launched
          h.waiting
      simp only [waittestLoop, hround] at hloop
      split at hloop
      next =>
        obtain ⟨taken', htaken', hresult⟩ := ih (h.tested htaken) hloop
        refine ⟨taken ++ taken', htaken.trans htaken', ?_⟩
        rw [hresult, callbacks_append, List.append_assoc]
      next =>
        cases hloop
        exact ⟨taken, htaken, rfl⟩

theorem waittestStream_tested {rounds : List (ℕ → Bool)} {result : IoStream κ × List κ}
    (h : Ready blocking ios)
    (htest : waittestStream conc blocking rounds ios called = some result) :
    ∃ taken, Tested ios result.1 taken ∧ result.2 = called ++ callbacks taken := by
  unfold waittestStream at htest
  split at htest
  next =>
    cases htest
    refine ⟨[], .refl h.bounded, ?_⟩
    exact (List.append_nil called).symm
  next => exact waittestLoop_tested h htest

/-- A test that is told that all pending instructions are complete returns after two rounds at
most, and has called their callbacks. -/
theorem waittestStream_complete (conc : ℕ) (called : List κ) (h : Ready blocking ios) :
    ∃ result, waittestStream conc blocking [fun _ => true, fun _ => true] ios called =
      some result ∧ result.2 = called ++ callbacks ios.held := by
  unfold waittestStream
  split
  next hempty =>
    have hsame : ios.posRp = ios.posWp := of_decide_eq_true hempty
    have hheld : ios.held = [] := by
      unfold IoStream.held
      rw [hsame]
      exact contents_self _ _ _
    refine ⟨_, rfl, ?_⟩
    rw [hheld]
    exact (List.append_nil called).symm
  next =>
    obtain ⟨next, taken, hround, htaken, hend⟩ :=
      processPending_spec (fun _ => true) called h.bounded h.int h.launched
        h.waiting
    have hsame := hend fun _ => rfl
    have hheld : ios.held = taken := by
      rw [htaken.held]
      unfold IoStream.held
      rw [hsame, contents_self, List.append_nil]
    obtain ⟨last, taken', hround', htaken', _⟩ :=
      processPending_spec (fun _ => true) (called ++ callbacks taken)
        htaken.bounded (h.tested htaken).int (h.tested htaken).launched (h.tested htaken).waiting
    have hnone : taken' = [] := by
      have hlength : next.held.length = 0 := by
        unfold IoStream.held
        rw [length_contents, hsame, Nat.sub_self]
      rw [htaken'.held, List.length_append] at hlength
      exact List.length_eq_zero_iff.mp (by omega)
    have hsize : next.sizepending = 0 := by
      rw [htaken.bounded.sizepending_eq, hsame, Nat.sub_self]
    simp only [waittestLoop, hround, hround', hsize, Nat.not_lt_zero, and_false, if_false]
    rw [hheld]
    split
    next =>
      refine ⟨_, rfl, ?_⟩
      rw [hnone]
      exact List.append_nil _
    next => exact ⟨_, rfl, rfl⟩

/-! ## Runs -/

/-- The instructions that were copied to the pending ones. -/
def System.launched (s : System κ) : List (Instruction κ) :=
  (s.committed.take s.ios.posR).filter Instruction.launches

/-- The calls that go right: a commit that does not wrap the position, a process whose rounds go
right, and a test that does not exceed the type `int`, unless it waits for the device. -/
def ok (s : System κ) : Action κ → Prop
  | .commit => s.ios.posW + 1 < 2 ^ 64
  | .process => ProcessOk s.ios.sizeinstr s.ios
  | .test blocking _ => blocking = false → s.ios.posWp < 2 ^ 31
  | _ => True

instance (s : System κ) : (a : Action κ) → Decidable (ok s a)
  | .push | .fill _ => isTrue trivial
  | .commit => inferInstanceAs (Decidable (_ < _))
  | .process => inferInstanceAs (Decidable (ProcessOk _ _))
  | .test _ _ => inferInstanceAs (Decidable (_ → _))

/-- What holds of a stream. No array is more than full and each holds the instructions that are
next in the order of the commits. The callbacks that were called and those of the instructions in
the arrays are the callbacks of all instructions, once each and in the order of the commits. After
a process and a test that is told that everything is complete all of them are called. -/
structure Sound (conc : ℕ) (s : System κ) : Prop where
  newFits : s.ios.sizeinstr ≤ s.ios.count
  newIntact : s.ios.new = s.committed.drop s.ios.posR
  pendingFits : s.ios.sizepending ≤ s.ios.count
  pendingIntact : s.ios.held = s.launched.drop s.ios.posRp
  calledOnce : s.called ++ callbacks s.ios.held ++ callbacks s.ios.new = callbacks s.committed
  delivers : ok s .process → ∀ t, step conc s .process = some t →
    ∀ blocking, (blocking = false → t.ios.posWp < 2 ^ 31) →
      ∃ u, step conc t (.test blocking [fun _ => true, fun _ => true]) = some u ∧
        u.called = callbacks u.committed

/-- The invariant of the runs. -/
structure Inv (s : System κ) : Prop where
  bounded : Bounded s.ios
  room : s.ios.mutex = true → s.ios.posW < s.ios.posR + s.ios.count
  length : s.committed.length = s.ios.posW
  newIntact : s.ios.new = s.committed.drop s.ios.posR
  launched : s.launched.length = s.ios.posWp
  pendingIntact : s.ios.held = s.launched.drop s.ios.posRp
  called : s.called = callbacks (s.launched.take s.ios.posRp)
  silent : ∀ x ∈ s.committed.take s.ios.posR, x.launches = false → x.cbk = none
  waiting : ∀ x ∈ s.ios.waiting, x.type ≠ .ioBarrier

/-- The instructions that are not launched have no callbacks. -/
theorem callbacks_filter {insts : List (Instruction κ)}
    (h : ∀ x ∈ insts, x.launches = false → x.cbk = none) :
    callbacks (insts.filter Instruction.launches) = callbacks insts := by
  unfold callbacks
  induction insts with
  | nil => rfl
  | cons x rest ih =>
      have hrest := ih fun y hy => h y (List.mem_cons_of_mem x hy)
      cases hlaunch : x.launches with
      | true => rw [List.filter_cons_of_pos hlaunch, List.filterMap_cons, List.filterMap_cons, hrest]
      | false =>
          have hnone := h x List.mem_cons_self hlaunch
          rw [List.filter_cons_of_neg (by rw [hlaunch]; decide), List.filterMap_cons_none hnone,
            hrest]

section Steps

variable {s s' : System κ}

theorem Inv.ready (h : Inv s) (hint : blocking = false → s.ios.posWp < 2 ^ 31) :
    Ready blocking s.ios where
  bounded := h.bounded
  int := hint
  launched := by
    intro x hx
    rw [h.pendingIntact] at hx
    exact (List.mem_filter.mp (List.mem_of_mem_drop hx)).2
  waiting := h.waiting

/-- Every callback was called or belongs to an instruction in one of the arrays. -/
theorem Inv.calledOnce (h : Inv s) :
    s.called ++ callbacks s.ios.held ++ callbacks s.ios.new = callbacks s.committed := by
  calc s.called ++ callbacks s.ios.held ++ callbacks s.ios.new
      = callbacks s.launched ++ callbacks (s.committed.drop s.ios.posR) := by
        rw [h.called, h.pendingIntact, h.newIntact, ← callbacks_append, List.take_append_drop]
    _ = callbacks (s.committed.take s.ios.posR) ++ callbacks (s.committed.drop s.ios.posR) := by
        unfold System.launched
        rw [callbacks_filter h.silent]
    _ = callbacks s.committed := by
        rw [← callbacks_append, List.take_append_drop]

theorem inv_push {ios : IoStream κ} (h : Inv s) (hpush : streamPush s.ios = some ios) :
    Inv { s with ios := ios } := by
  unfold streamPush at hpush
  split at hpush
  next => cases hpush
  next =>
    split at hpush
    next => cases hpush
    next hfull =>
      cases hpush
      have hbounded := h.bounded
      refine ⟨⟨hbounded.read_le, hbounded.newFits, hbounded.write_lt, hbounded.readp_le,
        hbounded.ok_le, hbounded.pendingFits, hbounded.writep_le⟩, fun _ => ?_, h.length,
        h.newIntact, h.launched, h.pendingIntact, h.called, h.silent, h.waiting⟩
      have hroom := of_decide_eq_false ((Bool.not_eq_true _).mp hfull)
      rw [hbounded.sizeinstr_eq] at hroom
      show s.ios.posW < s.ios.posR + s.ios.count
      omega

theorem inv_fill {ios : IoStream κ} (h : Inv s) (hfill : streamFill s.ios inst = some ios) :
    Inv { s with ios := ios } := by
  unfold streamFill at hfill
  split at hfill
  next hmutex =>
    cases hfill
    have hbounded := h.bounded
    refine ⟨⟨hbounded.read_le, hbounded.newFits, hbounded.write_lt, hbounded.readp_le,
      hbounded.ok_le, hbounded.pendingFits, hbounded.writep_le⟩, h.room, h.length, ?_,
      h.launched, h.pendingIntact, h.called, h.silent, h.waiting⟩
    refine Eq.trans ?_ h.newIntact
    exact contents_update_end (h.room hmutex)
  next => cases hfill

theorem inv_commit {ios : IoStream κ} (h : Inv s) (hok : s.ios.posW + 1 < 2 ^ 64)
    (hcommit : streamCommit s.ios = some ios) :
    Inv { s with
      ios := ios
      committed := s.committed ++ [s.ios.instr (s.ios.posW % s.ios.count)] } := by
  have hios : s.ios.mutex = true ∧ ios = { s.ios with posW := s.ios.posW + 1, mutex := false } := by
    unfold streamCommit at hcommit
    rw [uint64_succ hok] at hcommit
    split at hcommit
    next hmutex =>
      split at hcommit
      next => cases hcommit
      next =>
        cases hcommit
        exact ⟨hmutex, rfl⟩
    next => cases hcommit
  obtain ⟨hmutex, rfl⟩ := hios
  have hbounded := h.bounded
  have hread := hbounded.read_le
  have hroom := h.room hmutex
  have hle : s.ios.posR ≤ s.committed.length := by
    rw [h.length]
    exact hread
  have htake : (s.committed ++ [s.ios.instr (s.ios.posW % s.ios.count)]).take s.ios.posR =
      s.committed.take s.ios.posR := List.take_append_of_le_length hle
  refine ⟨⟨Nat.le_succ_of_le hread, hroom, hok, hbounded.readp_le, hbounded.ok_le,
    hbounded.pendingFits, hbounded.writep_le⟩, fun hfree => ?_, ?_, ?_, ?_, ?_, ?_, ?_,
    h.waiting⟩
  · cases hfree
  · rw [List.length_append, h.length]
    rfl
  · show contents _ _ s.ios.posR (s.ios.posW + 1) = (s.committed ++ _).drop s.ios.posR
    rw [contents_snoc hread, List.drop_append_of_le_length hle, ← h.newIntact]
    rfl
  · unfold System.launched
    rw [htake]
    exact h.launched
  · unfold System.launched
    rw [htake]
    exact h.pendingIntact
  · unfold System.launched
    rw [htake]
    exact h.called
  · rw [htake]
    exact h.silent

theorem inv_process {ios : IoStream κ} (h : Inv s) (hprocess : Processed s.ios ios taken) :
    Inv { s with ios := ios } := by
  have hrest : s.committed.drop s.ios.posR = taken ++ ios.new := by
    rw [← h.newIntact]
    exact hprocess.new
  obtain ⟨hdrop, htake⟩ := consume_of_drop hrest
  rw [← hprocess.posR] at hdrop htake
  have hbounded := h.bounded
  have hlaunched : ({ s with ios := ios } : System κ).launched =
      s.launched ++ taken.filter Instruction.launches := by
    unfold System.launched
    rw [htake, List.filter_append]
  have hle : s.ios.posRp ≤ s.launched.length := by
    rw [h.launched]
    exact hbounded.readp_le.trans hbounded.ok_le
  refine ⟨hprocess.bounded, fun hmutex => ?_, h.length.trans hprocess.posW.symm, hdrop.symm, ?_, ?_,
    ?_, fun x hx => ?_, hprocess.waiting h.waiting⟩
  · have hroom := h.room (hprocess.mutex.symm.trans hmutex)
    have hposW := hprocess.posW
    have hposR := hprocess.posR
    have hcount := hprocess.count
    show ios.posW < ios.posR + ios.count
    omega
  · have hlength := congrArg List.length hprocess.held
    unfold IoStream.held at hlength
    rw [List.length_append, length_contents, length_contents, hprocess.posRp] at hlength
    have hread := hprocess.bounded.readp_le
    have hok := hprocess.bounded.ok_le
    rw [hprocess.posRp] at hread
    have hlen := h.launched
    rw [hlaunched, List.length_append]
    show _ = ios.posWp
    omega
  · rw [hlaunched]
    show ios.held = List.drop ios.posRp _
    rw [hprocess.posRp, List.drop_append_of_le_length hle, ← h.pendingIntact]
    exact hprocess.held
  · rw [hlaunched]
    show s.called = callbacks (List.take ios.posRp _)
    rw [hprocess.posRp, List.take_append_of_le_length hle]
    exact h.called
  · rw [htake] at hx
    exact (List.mem_append.mp hx).elim (h.silent x) (hprocess.silent x)

theorem inv_test {result : IoStream κ × List κ} (h : Inv s) (htest : Tested s.ios result.1 taken)
    (hcalled : result.2 = s.called ++ callbacks taken) :
    Inv { s with ios := result.1, called := result.2 } := by
  have hrest : s.launched.drop s.ios.posRp = taken ++ result.1.held := by
    rw [← h.pendingIntact]
    exact htest.held
  obtain ⟨hdrop, htake⟩ := consume_of_drop hrest
  rw [← htest.posRp] at hdrop htake
  have hposR : result.1.posR = s.ios.posR := by rw [htest.frame]
  have hlaunched : ({ s with ios := result.1, called := result.2 } : System κ).launched =
      s.launched := by
    unfold System.launched
    rw [hposR]
  refine ⟨htest.bounded, ?_, ?_, ?_, ?_, ?_, ?_, ?_, fun x hx => h.waiting x (htest.waiting x hx)⟩
  · rw [htest.frame]
    exact h.room
  · rw [htest.frame]
    exact h.length
  · rw [htest.frame]
    exact h.newIntact
  · rw [hlaunched, h.launched, htest.frame]
  · rw [hlaunched]
    exact hdrop.symm
  · rw [hlaunched]
    show result.2 = callbacks (List.take result.1.posRp s.launched)
    rw [htake, callbacks_append, ← h.called]
    exact hcalled
  · rw [hposR]
    exact h.silent

theorem inv_step {a : Action κ} (h : Inv s) (hok : ok s a) (hstep : step conc s a = some s') :
    Inv s' := by
  cases a with
  | push =>
      obtain ⟨ios, hpush, rfl⟩ := Option.map_eq_some_iff.mp hstep
      exact inv_push h hpush
  | fill inst =>
      obtain ⟨ios, hfill, rfl⟩ := Option.map_eq_some_iff.mp hstep
      exact inv_fill h hfill
  | commit =>
      obtain ⟨ios, hcommit, rfl⟩ := Option.map_eq_some_iff.mp hstep
      exact inv_commit h hok hcommit
  | process =>
      obtain ⟨ios, hprocess, rfl⟩ := Option.map_eq_some_iff.mp hstep
      obtain ⟨taken, htaken, _⟩ := processed_process h.bounded hok hprocess
      exact inv_process h htaken
  | test blocking rounds =>
      obtain ⟨result, htest, rfl⟩ := Option.map_eq_some_iff.mp hstep
      obtain ⟨taken, htaken, hcalled⟩ := waittestStream_tested (h.ready hok) htest
      exact inv_test h htaken hcalled

/-- After a process and a test that is told that everything is complete every callback is
called. -/
theorem Inv.delivers (h : Inv s) (hok : ok s .process) (hstep : step conc s .process = some s')
    (hint : blocking = false → s'.ios.posWp < 2 ^ 31) :
    ∃ u, step conc s' (.test blocking [fun _ => true, fun _ => true]) = some u ∧
      u.called = callbacks u.committed := by
  have hinv := inv_step h hok hstep
  have hnew : s'.ios.new = [] := by
    obtain ⟨ios, hprocess, rfl⟩ := Option.map_eq_some_iff.mp hstep
    obtain ⟨_, _, hnew⟩ := processed_process h.bounded hok hprocess
    exact hnew
  obtain ⟨result, htest, hcalled⟩ := waittestStream_complete conc s'.called (hinv.ready hint)
  refine ⟨{ s' with ios := result.1, called := result.2 }, ?_, ?_⟩
  · unfold step
    simp only [htest, Option.map_some]
  · show result.2 = callbacks s'.committed
    have honce := hinv.calledOnce
    rw [hnew] at honce
    rw [hcalled, ← honce]
    exact (List.append_nil _).symm

theorem Inv.isSound (h : Inv s) : Sound conc s where
  newFits := by
    have hfits := h.bounded.newFits
    rw [h.bounded.sizeinstr_eq]
    omega
  newIntact := h.newIntact
  pendingFits := by
    have hfits := h.bounded.pendingFits
    rw [h.bounded.sizepending_eq]
    omega
  pendingIntact := h.pendingIntact
  calledOnce := h.calledOnce
  delivers := fun hok _ hstep _ hint => h.delivers hok hstep hint

theorem inv_initial {type : StreamType} {capacity : ℕ} (h : Initial type capacity s) : Inv s := by
  obtain ⟨_, _, instr, pending, rfl⟩ := h
  refine ⟨⟨le_rfl, Nat.zero_le _, show 0 < 2 ^ 64 by decide, le_rfl, le_rfl, Nat.zero_le _, le_rfl⟩,
    ?_, rfl, rfl, rfl, rfl, rfl, ?_, ?_⟩
  · intro hmutex
    cases hmutex
  · intro x hx
    cases hx
  · intro x hx
    cases hx

/-- In every run whose calls all go right the stream is sound. -/
theorem stream_sound {type : StreamType} {capacity : ℕ}
    (h : (system κ type capacity conc).ReachableWhen ok s) : Sound conc s := by
  have hinv : Inv s :=
    h.invariant (fun _ hs => inv_initial hs) fun _ _ _ hs hok hstep => inv_step hs hok hstep
  exact hinv.isSound

/-- Two transfers are launched and the second one completes first. -/
def outOfOrderRun : List (Action ℕ) :=
  [.push, .fill { type := .ioCopyH2D, cbk := some 1 }, .commit,
   .push, .fill { type := .ioCopyH2D, cbk := some 2 }, .commit, .process,
   .test false [fun idx => idx == 1],
   .push, .fill { type := .ioCopyH2D, cbk := some 3 }, .commit, .process,
   .test false [fun idx => idx != 2]]

/-- A stream whose arrays hold no instructions. -/
def emptySystem (type : StreamType) (capacity : ℕ) : System ℕ where
  ios := iostreamInit type capacity (fun _ => { type := .ioNop, cbk := none })
    fun _ => { type := .ioNop, cbk := none }
  committed := []
  called := []

theorem initial_emptySystem (type : StreamType) :
    Initial type streamCapacity (emptySystem type streamCapacity) :=
  ⟨by decide, by decide, _, _, rfl⟩

theorem stream_sound_outOfOrderRun :
    ∃ s, (system ℕ .h2d streamCapacity 8).replay ok (emptySystem .h2d streamCapacity) outOfOrderRun =
        some s ∧ s.called = [1, 2] ∧ Sound 8 s :=
  ⟨((system ℕ .h2d streamCapacity 8).replay ok (emptySystem .h2d streamCapacity) outOfOrderRun).get
    (by decide), by simp, by decide,
    stream_sound (.replay (.start (initial_emptySystem .h2d)) (Option.some_get _).symm)⟩

/-- A kernel is committed and launched, and no test follows. -/
theorem launch_step {n : ℕ} (hn : n + 1 < 2 ^ 64) (hr : s.ios.posR = n) (hw : s.ios.posW = n)
    (hwp : s.ios.posWp = n) (hcount : s.ios.count = streamCapacity) (hmutex : s.ios.mutex = false) :
    ∃ t, (system κ .kern streamCapacity conc).LeadsTo (fun _ _ => True) s t ∧
      t.ios.posR = n + 1 ∧ t.ios.posW = n + 1 ∧ t.ios.posWp = n + 1 ∧
      t.ios.posRp = s.ios.posRp ∧ t.ios.count = streamCapacity ∧ t.ios.mutex = false := by
  have hnext : uint64 (n + 1) = n + 1 := uint64_succ hn
  -- the four calls
  let kernel : Instruction κ := { type := .ioKern, cbk := none }
  let filled := Function.update s.ios.instr (n % s.ios.count) kernel
  let s₁ : System κ := { s with ios := { s.ios with mutex := true } }
  let s₂ : System κ := { s₁ with ios := { s₁.ios with instr := filled } }
  let s₃ : System κ := { s₂ with
    ios := { s₂.ios with posW := n + 1, mutex := false }
    committed := s.committed ++ [kernel] }
  let s₄ : System κ := { s₃ with
    ios := { s₃.ios with
      posR := n + 1
      pending := Function.update s.ios.pending (n % s.ios.count) kernel
      posWp := n + 1 } }
  have hpush : step conc s .push = some s₁ := by
    have hroom : s.ios.fullinstr = false := by
      unfold IoStream.fullinstr IoStream.sizeinstr
      rw [hr, hw, hcount, Int.sub_self]
      decide
    simp only [step, streamPush, hmutex, hroom, Bool.false_eq_true, if_false, Option.map_some, s₁]
  have hfill : step conc s₁ (.fill kernel) = some s₂ := by
    simp only [step, streamFill, s₁, s₂, filled, hw, if_true, Option.map_some]
  have hinstr : s₂.ios.instr (n % s.ios.count) = kernel := Function.update_self _ _ _
  have hcommit : step conc s₂ .commit = some s₃ := by
    have hposW : s₂.ios.posW = n := hw
    have hcount₂ : s₂.ios.count = s.ios.count := rfl
    simp only [step, streamCommit, hposW, hcount₂, hinstr, kernel, hnext, s₃]
    rfl
  have hprocess : step conc s₃ .process = some s₄ := by
    have hne : s₃.ios.emptyinstr = false := by
      refine decide_eq_false ?_
      show ¬ s.ios.posR = n + 1
      omega
    have hsize : s₃.ios.sizeinstr = 1 := by
      show uint64 ((n + 1 : ℕ) - (s.ios.posR : ℤ)) = 1
      rw [hr, uint64_sub (Nat.le_succ n) (by omega)]
      omega
    have hround : processRound s₃.ios = s₄.ios := by
      have hposR : s₃.ios.posR = n := hr
      have hposWp : s₃.ios.posWp = n := hwp
      have hcount₃ : s₃.ios.count = s.ios.count := rfl
      have hinstr₃ : s₃.ios.instr (n % s.ios.count) = kernel := hinstr
      simp only [processRound, decodeIoinstruction, hposR, hposWp, hcount₃, hinstr₃, kernel, hnext]
      rfl
    have hmutex₃ : s₃.ios.mutex = false := rfl
    simp only [step, processInstruction, hne, hmutex₃, hsize, processLoop, hround,
      Bool.false_eq_true, if_false, Option.map_some, s₄]
  exact ⟨s₄, .next (a := .process) (.next (a := .commit) (.next (a := .fill kernel)
    (.next (a := .push) .refl trivial hpush) trivial hfill) trivial hcommit) trivial hprocess,
    rfl, rfl, rfl, rfl, hcount, rfl⟩

/-- Any number of kernels is launched. -/
theorem launch_reachable (conc : ℕ) {n : ℕ} (hn : n < 2 ^ 64) :
    ∃ s, (system ℕ .kern streamCapacity conc).Reachable s ∧ s.ios.posR = n ∧ s.ios.posW = n ∧
      s.ios.posWp = n ∧ s.ios.posRp = 0 ∧ s.ios.count = streamCapacity ∧ s.ios.mutex = false := by
  induction n with
  | zero => exact ⟨_, .start (initial_emptySystem .kern), rfl, rfl, rfl, rfl, rfl, rfl⟩
  | succ n ih =>
      obtain ⟨s, hs, hr, hw, hwp, hrp, hcount, hmutex⟩ := ih (by omega)
      obtain ⟨t, ht, hr', hw', hwp', hrp', hcount', hmutex'⟩ :=
        launch_step hn hr hw hwp hcount hmutex
      exact ⟨t, hs.leadsTo ht, hr', hw', hwp', hrp'.trans hrp, hcount', hmutex'⟩

/-- One kernel more than the array holds is launched before any of them is known to be complete:
the last one overwrites the first one. -/
theorem pending_overwritten :
    ¬ ∀ s, (system ℕ .kern streamCapacity 8).Reachable s → Sound 8 s := by
  intro hall
  obtain ⟨s, hs, _, _, hwp, hrp, hcount, _⟩ :=
    launch_reachable 8 (by decide : streamCapacity + 1 < 2 ^ 64)
  have hfits := (hall s hs).pendingFits
  unfold IoStream.sizepending at hfits
  rw [hwp, hrp, hcount] at hfits
  revert hfits
  decide

end Steps

end Xkblas.Offload.Stream
