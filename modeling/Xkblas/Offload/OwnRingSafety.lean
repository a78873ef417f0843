import Xkblas.Offload.OwnRing
import Mathlib.Data.List.Count

/-!
# When a push in an own ring returns

A push that spins at a full ring of its own device never returns, in any continuation of the run:
the one thread that could take an instruction from the ring is the one that spins. It returns at
the first test of its loop if the ring has room.

A write-back posts a copy for each dirty block without a poll in between, so a cache with more
dirty blocks than a ring has free places blocks its device for ever. Nothing blocks in the runs
where a submission finds room for all the pushes it makes in the rings of its device, and where
the pushes of other devices leave that room.
-/

namespace Xkblas.Offload.OwnRing

open Library Offload.Stream

variable {δ ρ κ : Type*} {ios ios' : IoStream κ} {conc : ℕ}

/-! ## The positions of one ring -/

/-- A ring between two calls. -/
structure Sound (ios : IoStream κ) : Prop where
  mutex : ios.mutex = false
  posR : ios.posR < 2 ^ 64
  posW : ios.posW < 2 ^ 64
  count : ios.count < 2 ^ 64
  size : ios.sizeinstr ≤ ios.count

/-- The same array of new instructions, with the same positions. -/
structure SameInstr (ios ios' : IoStream κ) : Prop where
  mutex : ios'.mutex = ios.mutex
  count : ios'.count = ios.count
  posR : ios'.posR = ios.posR
  posW : ios'.posW = ios.posW

theorem SameInstr.refl (ios : IoStream κ) : SameInstr ios ios :=
  ⟨rfl, rfl, rfl, rfl⟩

theorem SameInstr.trans {ios'' : IoStream κ} (h : SameInstr ios ios')
    (h' : SameInstr ios' ios'') : SameInstr ios ios'' where
  mutex := h'.mutex.trans h.mutex
  count := h'.count.trans h.count
  posR := h'.posR.trans h.posR
  posW := h'.posW.trans h.posW

theorem SameInstr.sizeinstr (h : SameInstr ios ios') : ios'.sizeinstr = ios.sizeinstr := by
  simp only [IoStream.sizeinstr, h.posR, h.posW]

theorem SameInstr.keepsSound (h : SameInstr ios ios') (hsound : Sound ios) : Sound ios' where
  mutex := h.mutex.trans hsound.mutex
  posR := h.posR ▸ hsound.posR
  posW := h.posW ▸ hsound.posW
  count := h.count ▸ hsound.count
  size := by
    rw [h.sizeinstr, h.count]
    exact hsound.size

theorem fullinstr_eq_false : ios.fullinstr = false ↔ ios.sizeinstr < ios.count := by
  simp only [IoStream.fullinstr, decide_eq_false_iff_not, not_le]

theorem fullinstr_eq_true : ios.fullinstr = true ↔ ios.count ≤ ios.sizeinstr := by
  simp only [IoStream.fullinstr, decide_eq_true_eq]

/-! ### Push -/

/-- What a push and its commit have done when they return. -/
structure Pushed (ios ios' : IoStream κ) : Prop where
  room : ios.sizeinstr < ios.count
  mutex : ios'.mutex = false
  count : ios'.count = ios.count
  posR : ios'.posR = ios.posR
  posW : ios'.posW = uint64 (ios.posW + 1)

theorem pushed_of_pushCommit {inst : Instruction κ} (h : pushCommit ios inst = some ios') :
    Pushed ios ios' := by
  obtain ⟨locked, hpush, h⟩ := Option.bind_eq_some_iff.mp h
  obtain ⟨filled, hfill, hcommit⟩ := Option.bind_eq_some_iff.mp h
  simp only [streamPush] at hpush
  split at hpush
  · cases hpush
  split at hpush
  · cases hpush
  case isFalse hroom =>
    cases hpush
    simp only [streamFill, if_true, Option.some.injEq] at hfill
    subst hfill
    simp only [streamCommit, if_true] at hcommit
    split at hcommit
    · cases hcommit
    · cases hcommit
      exact ⟨fullinstr_eq_false.mp (Bool.eq_false_iff.mpr hroom), rfl, rfl, rfl, rfl⟩

/-- A push returns when no thread has the mutex and the ring has room. -/
theorem exists_pushCommit {inst : Instruction κ} (hmutex : ios.mutex = false)
    (hroom : ios.sizeinstr < ios.count) (htype : inst.type ≠ .ioNop) :
    ∃ ios', pushCommit ios inst = some ios' := by
  have hfull : ios.fullinstr = false := fullinstr_eq_false.mpr hroom
  have hpush : streamPush ios = some { ios with mutex := true } := by
    simp only [streamPush, hmutex, hfull, Bool.false_eq_true, if_false]
  simp only [pushCommit, hpush, Option.bind_some, streamFill, streamCommit, if_true,
    Function.update_self]
  exact ⟨_, rfl⟩

theorem Pushed.sizeinstr (h : Pushed ios ios') (hsound : Sound ios) :
    ios'.sizeinstr = ios.sizeinstr + 1 := by
  have hroom := h.room
  have hcount := hsound.count
  have hw := hsound.posW
  have hr := hsound.posR
  simp only [IoStream.sizeinstr, h.posR, h.posW] at hroom ⊢
  unfold uint64 at hroom ⊢
  omega

theorem Pushed.keepsSound (h : Pushed ios ios') (hsound : Sound ios) : Sound ios' where
  mutex := h.mutex
  posR := h.posR ▸ hsound.posR
  posW := by
    rw [h.posW]
    unfold uint64
    omega
  count := h.count ▸ hsound.count
  size := by
    rw [h.sizeinstr hsound, h.count]
    exact h.room

/-! ### Process -/

theorem processRound_spec (hpos : 0 < ios.sizeinstr) (hsound : Sound ios) :
    Sound (processRound ios) ∧ (processRound ios).sizeinstr + 1 = ios.sizeinstr ∧
      (processRound ios).count = ios.count := by
  have hfields : (processRound ios).mutex = ios.mutex ∧
      (processRound ios).count = ios.count ∧
      (processRound ios).posR = uint64 (ios.posR + 1) ∧
      (processRound ios).posW = ios.posW := by
    simp only [processRound, decodeIoinstruction]
    cases (ios.instr (ios.posR % ios.count)).type <;> exact ⟨rfl, rfl, rfl, rfl⟩
  obtain ⟨hmutex, hcount, hposR, hposW⟩ := hfields
  have hw := hsound.posW
  have hr := hsound.posR
  have hsize : (processRound ios).sizeinstr + 1 = ios.sizeinstr := by
    simp only [IoStream.sizeinstr, hposR, hposW] at hpos ⊢
    unfold uint64 at hpos ⊢
    omega
  have hbound : (processRound ios).posR < 2 ^ 64 := by
    rw [hposR]
    unfold uint64
    omega
  have hle := hsound.size
  exact ⟨⟨hmutex.trans hsound.mutex, hbound, hposW ▸ hw, hcount ▸ hsound.count, by omega⟩,
    hsize, hcount⟩

theorem processLoop_spec {n : ℕ} (hn : n = ios.sizeinstr) (hsound : Sound ios) :
    Sound (processLoop n ios) ∧ (processLoop n ios).sizeinstr = 0 ∧
      (processLoop n ios).count = ios.count := by
  induction n generalizing ios with
  | zero => exact ⟨hsound, hn.symm, rfl⟩
  | succ n ih =>
      obtain ⟨hround, hsize, hcount⟩ := processRound_spec (by omega) hsound
      obtain ⟨hsound', hzero, hcount'⟩ :=
        ih (show n = (processRound ios).sizeinstr by omega) hround
      exact ⟨hsound', hzero, hcount'.trans hcount⟩

/-- The device thread leaves its ring empty. -/
theorem processInstruction_spec (h : processInstruction ios = some ios') (hsound : Sound ios) :
    Sound ios' ∧ ios'.sizeinstr = 0 ∧ ios'.count = ios.count := by
  simp only [processInstruction] at h
  split at h
  case isTrue hempty =>
    cases h
    have heq : ios.posR = ios.posW := of_decide_eq_true hempty
    have hzero : ios.sizeinstr = 0 := by
      simp only [IoStream.sizeinstr, heq, Int.sub_self]
      rfl
    exact ⟨hsound, hzero, rfl⟩
  case isFalse =>
    split at h
    · cases h
    · cases h
      exact processLoop_spec rfl hsound

/-! ### Test -/

theorem callLoop_same {n pos : ℕ} {called : List κ} {result : IoStream κ × List κ}
    (h : callLoop n pos ios called = some result) : SameInstr ios result.1 := by
  induction n generalizing pos ios called with
  | zero =>
      cases h
      exact .refl ios
  | succ n ih =>
      simp only [callLoop] at h
      split at h
      case h_9 => cases h
      all_goals
        have hrest := ih h
        exact ⟨hrest.mutex, hrest.count, hrest.posR, hrest.posW⟩

theorem advancePending_same {blocking : Bool} {complete : ℕ → Bool}
    (h : advancePending ios blocking complete = some ios') : SameInstr ios ios' := by
  simp only [advancePending] at h
  repeat' split at h
  all_goals cases h
  all_goals exact ⟨rfl, rfl, rfl, rfl⟩

theorem processPending_same {blocking : Bool} {complete : ℕ → Bool} {called : List κ}
    {result : IoStream κ × List κ}
    (h : processPending ios blocking complete called = some result) : SameInstr ios result.1 := by
  simp only [processPending] at h
  split at h
  · cases h
  case h_2 hadvance => exact (advancePending_same hadvance).trans (callLoop_same h)

theorem waittestLoop_same {blocking : Bool} {rounds : List (ℕ → Bool)} {called : List κ}
    {result : IoStream κ × List κ}
    (h : waittestLoop conc blocking rounds ios called = some result) :
    SameInstr ios result.1 := by
  induction rounds generalizing ios called with
  | nil => cases h
  | cons complete rest ih =>
      simp only [waittestLoop] at h
      split at h
      · cases h
      case h_2 hpending =>
        split at h
        · exact (processPending_same hpending).trans (ih h)
        · cases h
          exact processPending_same hpending

/-- A test does not touch the array of the new instructions. -/
theorem waittestStream_same {blocking : Bool} {rounds : List (ℕ → Bool)} {called : List κ}
    {result : IoStream κ × List κ}
    (h : waittestStream conc blocking rounds ios called = some result) :
    SameInstr ios result.1 := by
  simp only [waittestStream] at h
  split at h
  · cases h
    exact .refl ios
  · exact waittestLoop_same h

/-! ## The rings of all devices -/

variable {owner : ρ → δ} {s t : State δ ρ κ} {d : δ} {r : ρ} {rest todo : List ρ}

section

variable [DecidableEq δ]

@[simp]
theorem State.ring_setTodo : (s.setTodo d todo).ring = s.ring :=
  rfl

@[simp]
theorem State.todo_setTodo_self : (s.setTodo d todo).todo d = todo :=
  Function.update_self _ _ _

theorem State.todo_setTodo_of_ne {e : δ} (hne : e ≠ d) : (s.setTodo d todo).todo e = s.todo e :=
  Function.update_of_ne hne _ _

theorem submit_eq_some (h : submit s d todo = some t) : s.todo d = [] ∧ t = s.setTodo d todo := by
  simp only [submit] at h
  split at h
  case h_1 hidle => exact ⟨hidle, (Option.some.inj h).symm⟩
  case h_2 => cases h

end

section

variable [DecidableEq ρ]

@[simp]
theorem State.todo_setRing : (s.setRing r ios).todo = s.todo :=
  rfl

@[simp]
theorem State.ring_setRing_self : (s.setRing r ios).ring r = ios :=
  Function.update_self _ _ _

theorem State.ring_setRing_of_ne {x : ρ} (hne : x ≠ r) : (s.setRing r ios).ring x = s.ring x :=
  Function.update_of_ne hne _ _

theorem sound_setRing (hsound : ∀ x, Sound (s.ring x)) (hios : Sound ios) (x : ρ) :
    Sound ((s.setRing r ios).ring x) := by
  by_cases hx : x = r
  · subst hx
    rw [State.ring_setRing_self]
    exact hios
  · rw [State.ring_setRing_of_ne hx]
    exact hsound x

end

variable [DecidableEq δ] [DecidableEq ρ]

/-- The rings of the device `d` have room for all the pushes of a submission. -/
def Fits (owner : ρ → δ) (s : State δ ρ κ) (d : δ) (todo : List ρ) : Prop :=
  ∀ r ∈ todo, owner r = d → (s.ring r).sizeinstr + todo.count r ≤ (s.ring r).count

/-- The push that the thread `d` spins at leaves room for those that the device of the ring has
still to make in it, if this is another device. -/
def Spares (owner : ρ → δ) (s : State δ ρ κ) (d : δ) : Prop :=
  match s.todo d with
  | [] => True
  | r :: _ =>
      owner r ≠ d → (s.ring r).sizeinstr + (s.todo (owner r)).count r < (s.ring r).count

/-- A submission fits in the rings of its device, and a push spares those of other devices. -/
def Room (owner : ρ → δ) (s : State δ ρ κ) : Action δ ρ κ → Prop
  | .writeback d rw => Fits owner s d (writebackAll rw)
  | .submit d todo => Fits owner s d todo
  | .push d _ => Spares owner s d
  | .process _ _ => True
  | .test d _ _ _ todo => Fits owner s d todo

/-- What a step has done. -/
inductive Stepped (owner : ρ → δ) (s : State δ ρ κ) (a : Action δ ρ κ) :
    State δ ρ κ → Prop where
  | submit (d : δ) (todo : List ρ) (hidle : s.todo d = [])
      (hroom : Room owner s a ↔ Fits owner s d todo) : Stepped owner s a (s.setTodo d todo)
  | push (d : δ) (r : ρ) (rest : List ρ) (ios : IoStream κ) (htodo : s.todo d = r :: rest)
      (hpush : Pushed (s.ring r) ios)
      (hroom : Room owner s a ↔ (owner r ≠ d →
        (s.ring r).sizeinstr + (s.todo (owner r)).count r < (s.ring r).count)) :
      Stepped owner s a ((s.setRing r ios).setTodo d rest)
  | process (r : ρ) (ios : IoStream κ) (hidle : s.todo (owner r) = [])
      (hprocess : processInstruction (s.ring r) = some ios) (hroom : Room owner s a) :
      Stepped owner s a (s.setRing r ios)
  | test (r : ρ) (ios : IoStream κ) (todo : List ρ) (hidle : s.todo (owner r) = [])
      (hsame : SameInstr (s.ring r) ios) (hroom : Room owner s a ↔ Fits owner s (owner r) todo) :
      Stepped owner s a ((s.setRing r ios).setTodo (owner r) todo)

theorem stepped {a : Action δ ρ κ} (h : (system κ owner conc).step s a = some t) :
    Stepped owner s a t := by
  change step owner conc s a = some t at h
  cases a with
  | writeback d rw =>
      obtain ⟨hidle, rfl⟩ := submit_eq_some h
      exact .submit d _ hidle Iff.rfl
  | submit d todo =>
      obtain ⟨hidle, rfl⟩ := submit_eq_some h
      exact .submit d _ hidle Iff.rfl
  | push d inst =>
      simp only [step, push] at h
      split at h
      · cases h
      case h_2 r rest htodo =>
        obtain ⟨ios, hpush, rfl⟩ := Option.map_eq_some_iff.mp h
        refine .push d r rest ios htodo (pushed_of_pushCommit hpush) ?_
        simp only [Room, Spares, htodo]
  | process d r =>
      simp only [step, process] at h
      split at h
      case h_2 => cases h
      case h_1 hidle =>
        split at h
        case isFalse => cases h
        case isTrue howner =>
          obtain ⟨ios, hprocess, rfl⟩ := Option.map_eq_some_iff.mp h
          exact .process r ios (howner.symm ▸ hidle) hprocess trivial
  | test d r blocking rounds todo =>
      simp only [step, test] at h
      split at h
      case h_2 => cases h
      case h_1 hidle =>
        split at h
        case isFalse => cases h
        case isTrue howner =>
          subst howner
          split at h
          · cases h
          case h_2 htest =>
            split at h
            · cases h
            · cases h
              exact .test r _ todo hidle (waittestStream_same htest) Iff.rfl

/-! ### A push at a full ring of the own device -/

/-- The thread `d` spins at a full ring of its own. -/
def Blocked (owner : ρ → δ) (s : State δ ρ κ) (d : δ) : Prop :=
  ∃ r rest, s.todo d = r :: rest ∧ owner r = d ∧ (s.ring r).fullinstr = true

/-- No step of any thread ends the spinning. -/
theorem full_step {a : Action δ ρ κ} (h : Stepped owner s a t) (htodo : s.todo d = r :: rest)
    (howner : owner r = d) (hfull : (s.ring r).fullinstr = true) :
    t.todo d = r :: rest ∧ (t.ring r).fullinstr = true := by
  have hbusy : s.todo d ≠ [] := by
    rw [htodo]
    exact List.cons_ne_nil r rest
  cases h with
  | submit e todo hidle =>
      have hne : d ≠ e := fun heq => hbusy (heq ▸ hidle)
      exact ⟨(State.todo_setTodo_of_ne hne).trans htodo, hfull⟩
  | push e r' rest' ios htodo' hpush =>
      -- A push in the ring itself would have found room.
      have hring : r ≠ r' := by
        intro heq
        subst heq
        exact absurd hpush.room (not_lt.mpr (fullinstr_eq_true.mp hfull))
      have hne : d ≠ e := by
        intro heq
        subst heq
        rw [htodo] at htodo'
        exact hring (List.cons.inj htodo').1
      refine ⟨(State.todo_setTodo_of_ne hne).trans htodo, ?_⟩
      rw [State.ring_setTodo, State.ring_setRing_of_ne hring]
      exact hfull
  | process r' ios hidle =>
      have hring : r ≠ r' := fun heq => hbusy (howner ▸ heq ▸ hidle)
      refine ⟨htodo, ?_⟩
      rw [State.ring_setRing_of_ne hring]
      exact hfull
  | test r' ios todo hidle =>
      have hne : d ≠ owner r' := fun heq => hbusy (heq ▸ hidle)
      have hring : r ≠ r' := fun heq => hne (howner ▸ heq ▸ rfl)
      refine ⟨(State.todo_setTodo_of_ne hne).trans htodo, ?_⟩
      rw [State.ring_setTodo, State.ring_setRing_of_ne hring]
      exact hfull

/-- The spinning goes on in every continuation of the run. -/
theorem full_leadsTo (h : (system κ owner conc).LeadsTo (fun _ _ => True) s t)
    (htodo : s.todo d = r :: rest) (howner : owner r = d)
    (hfull : (s.ring r).fullinstr = true) :
    t.todo d = r :: rest ∧ (t.ring r).fullinstr = true := by
  induction h with
  | refl => exact ⟨htodo, hfull⟩
  | next _ _ hstep ih => exact full_step (stepped hstep) ih.1 howner ih.2

/-! ### The rings stay sound -/

theorem sound_step {a : Action δ ρ κ} (h : Stepped owner s a t) (hsound : ∀ x, Sound (s.ring x))
    (x : ρ) : Sound (t.ring x) := by
  cases h with
  | submit => exact hsound x
  | push e r rest ios htodo hpush => exact sound_setRing hsound (hpush.keepsSound (hsound r)) x
  | process r ios hidle hprocess =>
      exact sound_setRing hsound (processInstruction_spec hprocess (hsound r)).1 x
  | test r ios todo hidle hsame => exact sound_setRing hsound (hsame.keepsSound (hsound r)) x

omit [DecidableEq δ] [DecidableEq ρ] in
theorem sound_initial (h : Initial s) (x : ρ) :
    Sound (s.ring x) ∧ (s.ring x).sizeinstr = 0 := by
  obtain ⟨type, capacity, instr, pending, -, hcapacity, heq⟩ := h.ring x
  rw [heq]
  exact ⟨⟨rfl, Nat.two_pow_pos 64, Nat.two_pow_pos 64, hcapacity, Nat.zero_le _⟩, rfl⟩

theorem sound_reachable {ok : State δ ρ κ → Action δ ρ κ → Prop}
    (h : (system κ owner conc).ReachableWhen ok s) (x : ρ) : Sound (s.ring x) := by
  induction h generalizing x with
  | start hinit => exact (sound_initial hinit x).1
  | next _ _ hstep ih => exact sound_step (stepped hstep) ih x

/-- A push of the thread `d` in a sound ring with room. -/
theorem exists_push (owner : ρ → δ) (conc : ℕ) (inst : Instruction κ)
    (hsound : Sound (s.ring r)) (htodo : s.todo d = r :: rest)
    (hroom : (s.ring r).sizeinstr < (s.ring r).count)
    (htype : inst.type ≠ .ioNop) :
    ∃ ios, Pushed (s.ring r) ios ∧
      (system κ owner conc).step s (.push d inst) =
        some ((s.setRing r ios).setTodo d rest) := by
  obtain ⟨ios, hios⟩ := exists_pushCommit hsound.mutex hroom htype
  refine ⟨ios, pushed_of_pushCommit hios, ?_⟩
  simp only [system, step, push, htodo, hios, Option.map_some]

/-- A push in a ring of the own device returns in some continuation of the run if and only if
the ring has room when the push begins to spin. -/
theorem own_push_returns_iff (hs : (system κ owner conc).Reachable s)
    (htodo : s.todo d = r :: rest) (howner : owner r = d) :
    (∃ t, (system κ owner conc).LeadsTo (fun _ _ => True) s t ∧ t.todo d = rest) ↔
      (s.ring r).fullinstr = false := by
  constructor
  · intro h
    obtain ⟨t, hlead, hrest⟩ := h
    by_contra hfull
    have hkept := (full_leadsTo hlead htodo howner (Bool.not_eq_false _ |>.mp hfull)).1
    rw [hrest] at hkept
    exact List.cons_ne_self r rest hkept.symm
  · intro hfree
    obtain ⟨ios, -, hstep⟩ := exists_push owner conc ⟨.ioKern, none⟩ (sound_reachable hs r)
      htodo (fullinstr_eq_false.mp hfree) (nofun)
    exact ⟨_, .single trivial hstep, State.todo_setTodo_self⟩

/-! ### Runs where every submission finds its room -/

/-- Every ring has room for the pushes that its device has still to make in it. -/
def Covered (owner : ρ → δ) (s : State δ ρ κ) : Prop :=
  ∀ r, (s.ring r).sizeinstr + (s.todo (owner r)).count r ≤ (s.ring r).count

/-- The pushes that the thread `d` has still to make do not fit in its ring `r`. -/
def Overrun (owner : ρ → δ) (s : State δ ρ κ) (d : δ) (r : ρ) : Prop :=
  owner r = d ∧ (s.ring r).count < (s.ring r).sizeinstr + (s.todo d).count r

/-- A submission that fits covers the rings of its device. -/
theorem covered_setTodo (hsound : ∀ x, Sound (s.ring x)) (hcovered : Covered owner s)
    (hfits : Fits owner s d todo) : Covered owner (s.setTodo d todo) := by
  intro x
  have hsize := (hsound x).size
  rw [State.ring_setTodo]
  by_cases howner : owner x = d
  · rw [howner, State.todo_setTodo_self]
    by_cases hmem : x ∈ todo
    · exact hfits x hmem howner
    · rw [List.count_eq_zero_of_not_mem hmem]
      exact hsize
  · rw [State.todo_setTodo_of_ne howner]
    exact hcovered x

/-- A step that meets the condition keeps the rings covered. -/
theorem covered_step {a : Action δ ρ κ} (h : Stepped owner s a t)
    (hsound : ∀ x, Sound (s.ring x)) (hcovered : Covered owner s) (hroom : Room owner s a) :
    Covered owner t := by
  cases h with
  | submit d todo hidle hiff => exact covered_setTodo hsound hcovered (hiff.mp hroom)
  | push d r rest ios htodo hpush hiff =>
      intro x
      have hx := hcovered x
      by_cases hring : x = r
      · subst hring
        have hsize := hpush.sizeinstr (hsound x)
        have hcount := hpush.count
        rw [State.ring_setTodo, State.ring_setRing_self]
        by_cases howner : owner x = d
        · -- The push takes the place that was kept for it.
          rw [howner, htodo, List.count_cons_self] at hx
          rw [howner, State.todo_setTodo_self]
          omega
        · have hspare := hiff.mp hroom howner
          rw [State.todo_setTodo_of_ne howner, State.todo_setRing]
          omega
      · rw [State.ring_setTodo, State.ring_setRing_of_ne hring]
        by_cases howner : owner x = d
        · rw [howner, htodo, List.count_cons_of_ne (Ne.symm hring)] at hx
          rw [howner, State.todo_setTodo_self]
          exact hx
        · rw [State.todo_setTodo_of_ne howner, State.todo_setRing]
          exact hx
  | process r ios hidle hprocess =>
      intro x
      by_cases hring : x = r
      · subst hring
        obtain ⟨-, hzero, -⟩ := processInstruction_spec hprocess (hsound x)
        rw [State.ring_setRing_self, State.todo_setRing, hidle, hzero]
        exact Nat.zero_le _
      · rw [State.ring_setRing_of_ne hring, State.todo_setRing]
        exact hcovered x
  | test r ios todo hidle hsame hiff =>
      have hios : ∀ x, ((s.setRing r ios).ring x).sizeinstr = (s.ring x).sizeinstr ∧
          ((s.setRing r ios).ring x).count = (s.ring x).count := by
        intro x
        by_cases hring : x = r
        · subst hring
          rw [State.ring_setRing_self]
          exact ⟨hsame.sizeinstr, hsame.count⟩
        · rw [State.ring_setRing_of_ne hring]
          exact ⟨rfl, rfl⟩
      refine covered_setTodo (sound_setRing hsound (hsame.keepsSound (hsound r))) ?_ ?_
      · intro x
        rw [(hios x).1, (hios x).2]
        exact hcovered x
      · intro x hmem howner
        rw [(hios x).1, (hios x).2]
        exact hiff.mp hroom x hmem howner

theorem covered_reachable (h : (system κ owner conc).ReachableWhen (Room owner) s) :
    Covered owner s := by
  induction h with
  | start hinit =>
      intro x
      rw [(sound_initial hinit x).2, hinit.todo, List.count_nil]
      exact Nat.zero_le _
  | next hs hok hstep ih => exact covered_step (stepped hstep) (sound_reachable hs) ih hok

omit [DecidableEq δ] in
/-- A push that the thread of a covered ring spins at finds room. -/
theorem Covered.room (h : Covered owner s) (htodo : s.todo d = r :: rest) (howner : owner r = d) :
    (s.ring r).sizeinstr < (s.ring r).count := by
  have hr := h r
  rw [howner, htodo, List.count_cons_self] at hr
  omega

/-- The pushes of the thread `d`. -/
def PushesOf (d : δ) (_ : State δ ρ κ) : Action δ ρ κ → Prop
  | .push e _ => e = d
  | _ => False

/-- The pushes of the thread `d` in its own rings return. -/
structure Returns (owner : ρ → δ) (conc : ℕ) (s : State δ ρ κ) (d : δ) : Prop where
  /-- The loop of the push ends at its first test. -/
  now : ∀ r rest inst, s.todo d = r :: rest → owner r = d → inst.type ≠ .ioNop →
    ∃ t, (system κ owner conc).step s (.push d inst) = some t ∧ t.todo d = rest
  /-- The thread comes back to its main loop by its own pushes alone. -/
  all : (∀ r ∈ s.todo d, owner r = d) →
    ∃ t, (system κ owner conc).LeadsTo (PushesOf d) s t ∧ t.todo d = []

theorem Covered.all (hsound : ∀ x, Sound (s.ring x)) (hcovered : Covered owner s)
    (hown : ∀ r ∈ s.todo d, owner r = d) :
    ∃ t, (system κ owner conc).LeadsTo (PushesOf d) s t ∧ t.todo d = [] := by
  induction htodo : s.todo d generalizing s with
  | nil => exact ⟨s, .refl, htodo⟩
  | cons r rest ih =>
      have howner : owner r = d := hown r (htodo ▸ List.mem_cons_self)
      obtain ⟨ios, -, hstep⟩ := exists_push owner conc ⟨.ioKern, none⟩ (hsound r) htodo
        (hcovered.room htodo howner) (nofun)
      have hdone : Stepped owner s _ ((s.setRing r ios).setTodo d rest) := stepped hstep
      have hspares : Room owner s (.push d ⟨.ioKern, none⟩) := by
        simp only [Room, Spares, htodo]
        exact fun hne => absurd howner hne
      have hown' : ∀ x ∈ ((s.setRing r ios).setTodo d rest).todo d, owner x = d := by
        rw [State.todo_setTodo_self]
        exact fun x hx => hown x (htodo ▸ List.mem_cons_of_mem r hx)
      have hpush : (system κ owner conc).LeadsTo (PushesOf d) s
          ((s.setRing r ios).setTodo d rest) :=
        .single (show PushesOf d s (.push d _) from rfl) hstep
      obtain ⟨t, hlead, hnil⟩ := ih (sound_step hdone hsound)
        (covered_step hdone hsound hcovered hspares) hown' State.todo_setTodo_self
      exact ⟨t, hpush.trans hlead, hnil⟩

/-! ### A submission that does not fit -/

/-- The places that are missing stay missing. -/
theorem overrun_step {a : Action δ ρ κ} (h : Stepped owner s a t)
    (hsound : ∀ x, Sound (s.ring x)) (hover : Overrun owner s d r) : Overrun owner t d r := by
  obtain ⟨howner, hlt⟩ := hover
  have hbusy : s.todo d ≠ [] := by
    intro hnil
    rw [hnil, List.count_nil] at hlt
    exact absurd (hsound r).size (by omega)
  refine ⟨howner, ?_⟩
  cases h with
  | submit e todo hidle =>
      have hne : d ≠ e := fun heq => hbusy (heq ▸ hidle)
      rw [State.ring_setTodo, State.todo_setTodo_of_ne hne]
      exact hlt
  | push e r' rest ios htodo hpush =>
      rw [State.ring_setTodo]
      have hsize := hpush.sizeinstr (hsound r')
      have hcount := hpush.count
      by_cases hring : r = r'
      · subst hring
        rw [State.ring_setRing_self]
        by_cases hne : d = e
        · subst hne
          rw [htodo, List.count_cons_self] at hlt
          rw [State.todo_setTodo_self]
          omega
        · rw [State.todo_setTodo_of_ne hne, State.todo_setRing]
          omega
      · rw [State.ring_setRing_of_ne hring]
        by_cases hne : d = e
        · subst hne
          rw [htodo, List.count_cons_of_ne (Ne.symm hring)] at hlt
          rw [State.todo_setTodo_self]
          exact hlt
        · rw [State.todo_setTodo_of_ne hne, State.todo_setRing]
          exact hlt
  | process r' ios hidle =>
      have hring : r ≠ r' := fun heq => hbusy (howner ▸ heq ▸ hidle)
      rw [State.ring_setRing_of_ne hring, State.todo_setRing]
      exact hlt
  | test r' ios todo hidle =>
      have hne : d ≠ owner r' := fun heq => hbusy (heq ▸ hidle)
      have hring : r ≠ r' := fun heq => hne (howner ▸ heq ▸ rfl)
      rw [State.ring_setTodo, State.ring_setRing_of_ne hring, State.todo_setTodo_of_ne hne,
        State.todo_setRing]
      exact hlt

/-- The thread never comes back to its main loop. -/
theorem overrun_leadsTo (h : (system κ owner conc).LeadsTo (fun _ _ => True) s t)
    (hsound : ∀ x, Sound (s.ring x)) (hover : Overrun owner s d r) : t.todo d ≠ [] := by
  have hkept : (∀ x, Sound (t.ring x)) ∧ Overrun owner t d r := by
    induction h with
    | refl => exact ⟨hsound, hover⟩
    | next _ _ hstep ih =>
        exact ⟨sound_step (stepped hstep) ih.1, overrun_step (stepped hstep) ih.1 ih.2⟩
  intro hnil
  have hlt := hkept.2.2
  rw [hnil, List.count_nil] at hlt
  exact absurd (hkept.1 r).size (by omega)

theorem overrun_setTodo (h : ¬ Fits owner s d todo) :
    ∃ r, Overrun owner (s.setTodo d todo) d r := by
  simp only [Fits, not_forall, not_le] at h
  obtain ⟨r, -, howner, hlt⟩ := h
  refine ⟨r, howner, ?_⟩
  rw [State.ring_setTodo, State.todo_setTodo_self]
  exact hlt

/-- A step that does not meet the condition leaves some thread with pushes that do not fit. -/
theorem overrun_of_not_room {a : Action δ ρ κ} (h : Stepped owner s a t)
    (hsound : ∀ x, Sound (s.ring x)) (hroom : ¬ Room owner s a) :
    ∃ d r, Overrun owner t d r := by
  cases h with
  | submit d todo hidle hiff => exact ⟨d, overrun_setTodo (fun hfits => hroom (hiff.mpr hfits))⟩
  | push d r rest ios htodo hpush hiff =>
      rw [hiff, Classical.not_imp, not_lt] at hroom
      obtain ⟨hne, hle⟩ := hroom
      refine ⟨owner r, r, rfl, ?_⟩
      have hsize := hpush.sizeinstr (hsound r)
      have hcount := hpush.count
      rw [State.ring_setTodo, State.ring_setRing_self, State.todo_setTodo_of_ne hne,
        State.todo_setRing]
      omega
  | process r ios hidle hprocess hiff => exact absurd hiff hroom
  | test r ios todo hidle hsame hiff =>
      refine ⟨owner r, overrun_setTodo fun hfits => hroom (hiff.mpr fun x hmem howner => ?_)⟩
      have hx := hfits x hmem howner
      by_cases hring : x = r
      · subst hring
        rw [State.ring_setRing_self, hsame.sizeinstr, hsame.count] at hx
        exact hx
      · rw [State.ring_setRing_of_ne hring] at hx
        exact hx

/-- In every run whose submissions find their room no thread spins at a full ring of its own, and
every push it makes in one returns at once. From the first submission on that does not find its
room, some thread never comes back to its main loop. -/
theorem own_push_returns (hs : (system κ owner conc).ReachableWhen (Room owner) s) :
    (∀ d, ¬ Blocked owner s d ∧ Returns owner conc s d) ∧
      ∀ a t, (system κ owner conc).step s a = some t → ¬ Room owner s a →
        ∃ d, ∀ u, (system κ owner conc).LeadsTo (fun _ _ => True) t u → u.todo d ≠ [] := by
  have hsound : ∀ x, Sound (s.ring x) := sound_reachable hs
  have hcovered : Covered owner s := covered_reachable hs
  constructor
  · intro d
    refine ⟨?_, ⟨?_, hcovered.all hsound⟩⟩
    · intro hblocked
      obtain ⟨r, rest, htodo, howner, hfull⟩ := hblocked
      exact absurd (hcovered.room htodo howner) (not_lt.mpr (fullinstr_eq_true.mp hfull))
    · intro r rest inst htodo howner htype
      obtain ⟨ios, -, hstep⟩ :=
        exists_push owner conc inst (hsound r) htodo (hcovered.room htodo howner) htype
      exact ⟨_, hstep, State.todo_setTodo_self⟩
  · intro a t hstep hroom
    obtain ⟨d, r, hover⟩ := overrun_of_not_room (stepped hstep) hsound hroom
    exact ⟨d, fun u hlead =>
      overrun_leadsTo hlead (sound_step (stepped hstep) hsound) hover⟩

/-! ### The write-back of a large cache -/

/-- An entry that only the device has. -/
def dirtyEntry : CacheEntry Unit where
  validHost := false
  valid := true
  xferHost := false
  route := false
  ring := ()

/-- A device with one new ring. -/
def newDevice (capacity : ℕ) : State Unit Unit Unit where
  ring := fun _ => iostreamInit .d2h capacity (fun _ => ⟨.ioNop, none⟩) fun _ => ⟨.ioNop, none⟩
  todo := fun _ => []

theorem initial_newDevice (capacity : ℕ) (hpos : 1 ≤ capacity) (hlt : capacity < 2 ^ 64) :
    Initial (newDevice capacity) where
  ring := fun _ => ⟨_, _, _, _, hpos, hlt, rfl⟩
  todo := fun _ => rfl

/-- A write-back that fits: three blocks, two of them dirty, in a ring of two places. -/
theorem own_push_returns_newDevice :
    ∃ s : State Unit Unit Unit,
      (system Unit (fun _ => ()) 1).step (newDevice 2)
        (.writeback () [dirtyEntry, { dirtyEntry with validHost := true }, dirtyEntry]) = some s ∧
      s.todo () = [(), ()] ∧
      (∀ d, ¬ Blocked (fun _ => ()) s d ∧ Returns (fun _ => ()) 1 s d) ∧
      ∀ a t, (system Unit (fun _ => ()) 1).step s a = some t → ¬ Room (fun _ => ()) s a →
        ∃ d, ∀ u, (system Unit (fun _ => ()) 1).LeadsTo (fun _ _ => True) t u → u.todo d ≠ [] := by
  have hinit := initial_newDevice 2 (by decide) (by decide)
  have hroom : Room (fun _ => ()) (newDevice 2)
      (.writeback () [dirtyEntry, { dirtyEntry with validHost := true }, dirtyEntry]) :=
    fun _ _ _ => le_refl 2
  have hstep : (system Unit (fun _ => ()) 1).step (newDevice 2)
      (.writeback () [dirtyEntry, { dirtyEntry with validHost := true }, dirtyEntry]) =
      some ((newDevice 2).setTodo () [(), ()]) := rfl
  exact ⟨_, hstep, rfl, own_push_returns (.next (.start hinit) hroom hstep)⟩

theorem writebackAll_replicate (n : ℕ) :
    writebackAll (List.replicate n dirtyEntry) = List.replicate n () := by
  induction n with
  | zero => rfl
  | succ n ih =>
      rw [List.replicate_succ, List.replicate_succ, ← ih]
      rfl

/-- The thread fills the free places of the ring. -/
theorem exists_full (conc : ℕ) {s : State Unit Unit Unit} (hsound : ∀ x, Sound (s.ring x))
    {free more : ℕ} (hfree : (s.ring ()).sizeinstr + free = (s.ring ()).count)
    (htodo : s.todo () = List.replicate (free + more) ()) :
    ∃ t, (system Unit (fun _ => ()) conc).LeadsTo (fun _ _ => True) s t ∧
      t.todo () = List.replicate more () ∧ (t.ring ()).fullinstr = true := by
  induction free generalizing s with
  | zero =>
      refine ⟨s, .refl, ?_, fullinstr_eq_true.mpr (by omega)⟩
      rw [htodo, Nat.zero_add]
  | succ free ih =>
      rw [Nat.succ_add, List.replicate_succ] at htodo
      obtain ⟨ios, hpush, hstep⟩ := exists_push (fun _ => ()) conc ⟨.ioCopyD2H, none⟩
        (hsound ()) htodo (by omega) (nofun)
      have hsize := hpush.sizeinstr (hsound ())
      have hcount := hpush.count
      obtain ⟨t, hlead, hrest⟩ := ih (sound_step (stepped hstep) hsound)
        (by rw [State.ring_setTodo, State.ring_setRing_self]; omega) State.todo_setTodo_self
      exact ⟨t, (TransitionSystem.LeadsTo.single trivial hstep).trans hlead, hrest⟩

/-- For every capacity, the write-back of one more dirty block than the ring has places blocks
the device. -/
theorem writeback_blocks (conc capacity : ℕ) (hpos : 1 ≤ capacity) (hlt : capacity < 2 ^ 64) :
    ∃ s t, (system Unit (fun _ => ()) conc).step (newDevice capacity)
        (.writeback () (List.replicate (capacity + 1) dirtyEntry)) = some s ∧
      (system Unit (fun _ => ()) conc).LeadsTo (fun _ _ => True) s t ∧
      Blocked (fun _ => ()) t () := by
  have hinit := initial_newDevice capacity hpos hlt
  have hstep : (system Unit (fun _ => ()) conc).step (newDevice capacity)
      (.writeback () (List.replicate (capacity + 1) dirtyEntry)) =
      some ((newDevice capacity).setTodo () (List.replicate (capacity + 1) ())) := by
    rw [← writebackAll_replicate]
    rfl
  obtain ⟨t, hlead, htodo, hfull⟩ := exists_full conc
    (sound_step (stepped hstep) fun x => (sound_initial hinit x).1)
    (Nat.zero_add capacity) State.todo_setTodo_self
  exact ⟨_, t, hstep, hlead, (), [], htodo, rfl, hfull⟩

/-- A ring has 512 places by default. -/
theorem not_own_push_returns :
    ¬ ∀ s : State Unit Unit Unit, (system Unit (fun _ => ()) 1).Reachable s →
      ∀ d, ¬ Blocked (fun _ => ()) s d := by
  intro h
  obtain ⟨s, t, hstep, hlead, hblocked⟩ :=
    writeback_blocks 1 streamCapacity (by decide) (by decide)
  have hinit := initial_newDevice streamCapacity (by decide) (by decide)
  exact h t (.leadsTo (.next (.start hinit) trivial hstep) hlead) () hblocked

end Xkblas.Offload.OwnRing
