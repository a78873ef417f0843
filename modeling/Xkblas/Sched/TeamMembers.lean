import Mathlib.Data.Finset.Card
import Mathlib.Data.List.Nodup
import Xkblas.Library.MachineInt
import Xkblas.Library.TransitionSystem
import Xkblas.Library.FinLiteral

/-!
# The threads of a team

A team has the array of its threads by index, an array of threads for each type of processor, and
an array of the locality domains of its threads for each type of domain. `kaapi_team_attach` grows
each of them when it needs an entry, and `kaapi_team_deattach` only clears the entry of the first
array.

The thread enters the array of its type at its index in the team, although that array is grown for
its rank in the type. `team_sound` says which calls this is right for.
-/

namespace Xkblas.Sched.TeamMembers

open Library
open scoped Library.FinLiteral

/-- `KAAPI_PROC_TYPE_HOST` and the others. -/
inductive ProcType where
  | host
  | cuda
  | hip
  | internal
  deriving DecidableEq, Repr

/-- The types of locality domains that have threads, `KAAPI_LD_NUMA` and `KAAPI_LD_GPU`. -/
inductive LdType where
  | numa
  | gpu
  deriving DecidableEq, Repr

/-- The type of the domains for the threads of a type, if it is supported. -/
def ProcType.ldType : ProcType → Option LdType
  | .host => some .numa
  | .cuda => some .gpu
  | .hip => some .gpu
  | .internal => none

/-- A locality domain of the registry, which its type and its index in the type determine. -/
structure Domain where
  type : LdType
  index : ℕ
  deriving DecidableEq, Repr

/-- An array of pointers that grows. Its capacity is the length of the list. -/
abbrev Cells (α : Type*) := List (Option α)

section Cells

variable {α : Type*}

/-- `realloc` to a larger capacity, with null pointers in the new entries. -/
def grow (a : Cells α) (capacity : ℕ) : Cells α :=
  a ++ List.replicate (capacity - a.length) none

/-- The array with twice the capacity, at first 8, if there is no entry `i`. -/
def reserve (a : Cells α) (i : ℕ) : Cells α :=
  if a.length ≤ i then
    let capacity := a.length * 2
    grow a (if capacity = 0 then 8 else capacity)
  else a

end Cells

variable {τ : Type*}

/-- `kaapi_team_t`. -/
structure Team (τ : Type*) where
  threads : Cells τ
  pertypeCount : ProcType → ℕ
  pertype : ProcType → Cells τ
  ldsCount : LdType → ℕ
  lds : LdType → Cells Domain
  count : ℤ

/-- A team with the fields `kid` and `ld` of the contexts of its threads. The `attached` threads
are those whose field `team` is this one, and `outOfBounds` tells whether an access was beyond the
capacity of its array. -/
structure State (τ : Type*) where
  team : Team τ
  kid : τ → ℕ
  ld : τ → Option Domain
  attached : Finset τ
  outOfBounds : Bool

/-- A team of `kaapi_team_alloc`, before its first thread. -/
def newTeam (τ : Type*) : State τ where
  team :=
    { threads := []
      pertypeCount := fun _ => 0
      pertype := fun _ => []
      ldsCount := fun _ => 0
      lds := fun _ => []
      count := 0 }
  kid := fun _ => 0
  ld := fun _ => none
  attached := ∅
  outOfBounds := false

/-- A call. The registry answers an attach with the number of its domains and with whether the
domain of that index is not null. -/
inductive Action (τ : Type*) where
  | attach (thread : τ) (idx : ℕ) (count : ℕ) (present : Bool)
  | deattach (thread : τ)
  deriving DecidableEq, Repr

section

variable [DecidableEq τ] (proctype : τ → ProcType)

/-- `kaapi_team_attach`. The program stops when the new capacity is not a positive `int` and when
the type of the thread is not supported. -/
def attach (s : State τ) (thread : τ) (idx count : ℕ) (present : Bool) : Option (State τ) :=
  let p := proctype thread
  let size := int32 (2 * int32 (idx + 1))
  if s.team.threads.length ≤ idx ∧ size ≤ 0 then none
  else
    let threads :=
      if s.team.threads.length ≤ idx then grow s.team.threads size.toNat else s.team.threads
    let pertype_idx := s.team.pertypeCount p
    let cells := reserve (s.team.pertype p) pertype_idx
    match p.ldType with
    | none => none
    | some ldtype =>
        let ld :=
          if pertype_idx < count then if present then some ⟨ldtype, pertype_idx⟩ else none
          else s.ld thread
        let lds := reserve (s.team.lds ldtype) (s.team.ldsCount ldtype)
        some
          { team :=
              { threads := threads.set idx (some thread)
                pertypeCount := Function.update s.team.pertypeCount p (pertype_idx + 1)
                pertype := Function.update s.team.pertype p (cells.set idx (some thread))
                ldsCount :=
                  if pertype_idx < count then
                    Function.update s.team.ldsCount ldtype (s.team.ldsCount ldtype + 1)
                  else s.team.ldsCount
                lds :=
                  if pertype_idx < count then
                    Function.update s.team.lds ldtype (lds.set (s.team.ldsCount ldtype) ld)
                  else s.team.lds
                count := s.team.count + 1 }
            kid := Function.update s.kid thread idx
            ld := Function.update s.ld thread ld
            attached := insert thread s.attached
            outOfBounds :=
              s.outOfBounds || decide (threads.length ≤ idx) || decide (cells.length ≤ idx) ||
                decide (pertype_idx < count ∧ lds.length ≤ s.team.ldsCount ldtype) }

/-- `kaapi_team_deattach`. -/
def deattach (s : State τ) (thread : τ) : State τ :=
  { s with
    team :=
      { s.team with
        threads := s.team.threads.set (s.kid thread) none
        count := s.team.count - 1 }
    attached := s.attached.erase thread
    outOfBounds := s.outOfBounds || decide (s.team.threads.length ≤ s.kid thread) }

/-- The calls of a team: a thread that is not in the team is attached at an index that no thread of
the team has, and a thread of the team is detached. -/
def step (s : State τ) : Action τ → Option (State τ)
  | .attach thread idx count present =>
      if thread ∉ s.attached ∧ (∀ t ∈ s.attached, s.kid t ≠ idx) ∧ idx < 2 ^ 31 then
        attach proctype s thread idx count present
      else none
  | .deattach thread => if thread ∈ s.attached then some (deattach s thread) else none

/-- The sequences of calls on one team. -/
def system : TransitionSystem (State τ) (Action τ) where
  initial := fun s => s = newTeam τ
  step := step proctype

end

/-- What a team promises about its arrays. -/
structure Sound (proctype : τ → ProcType) (s : State τ) : Prop where
  inBounds : s.outOfBounds = false
  threads : ∀ idx t, s.team.threads[idx]? = some (some t) ↔ t ∈ s.attached ∧ s.kid t = idx
  pertype : ∀ p, ∃ l : List τ, l.Nodup ∧ (∀ t, t ∈ l ↔ t ∈ s.attached ∧ proctype t = p) ∧
    l.length = s.team.pertypeCount p ∧
    (s.team.pertype p).take (s.team.pertypeCount p) = l.map some
  domains : ∀ t ∈ s.attached, ∀ t' ∈ s.attached, ∀ d, s.ld t = some d → s.ld t' = some d → t = t'
  count : s.team.count = s.attached.card

/-- The thread of the call is attached at the index that is its rank in its type. No thread is
detached. -/
def InRank (proctype : τ → ProcType) (s : State τ) : Action τ → Prop
  | .attach thread idx _ _ => idx = s.team.pertypeCount (proctype thread)
  | .deattach _ => False

instance (proctype : τ → ProcType) (s : State τ) : ∀ a, Decidable (InRank proctype s a)
  | .attach _ _ _ _ => inferInstanceAs (Decidable (_ = _))
  | .deattach _ => inferInstanceAs (Decidable False)

/-! ## The arrays -/

section Cells

variable {α : Type*} {a : Cells α} {i n : ℕ} {x : α}

theorem length_grow (h : a.length ≤ n) : (grow a n).length = n := by
  unfold grow
  rw [List.length_append, List.length_replicate]
  omega

/-- The new entries are null. -/
theorem getElem?_grow : (grow a n)[i]? = some (some x) ↔ a[i]? = some (some x) := by
  unfold grow
  rw [List.getElem?_append]
  split
  · exact Iff.rfl
  next hlen =>
    rw [List.getElem?_eq_none (not_lt.mp hlen), List.getElem?_replicate]
    split <;> simp

/-- An array whose first entries are the list `l` keeps them, and has one more. -/
theorem reserve_append {l : List α} {k : ℕ} (h : a = l.map some ++ List.replicate k none) :
    ∃ k', reserve a l.length = l.map some ++ none :: List.replicate k' none := by
  have hlen : a.length = l.length + k := by
    rw [h, List.length_append, List.length_map, List.length_replicate]
  unfold reserve
  dsimp only
  split_ifs with hfull hzero
  · -- the array is empty
    obtain rfl : k = 0 := by omega
    obtain rfl : l = [] := List.eq_nil_of_length_eq_zero (by omega)
    rw [h]
    exact ⟨7, rfl⟩
  · obtain rfl : k = 0 := by omega
    refine ⟨a.length - 1, ?_⟩
    unfold grow
    rw [show a.length * 2 - a.length = a.length - 1 + 1 by omega, List.replicate_succ, h]
    simp
  · obtain ⟨k', rfl⟩ := Nat.exists_eq_succ_of_ne_zero (by omega : k ≠ 0)
    exact ⟨k', h⟩

theorem lt_length_reserve (h : i ≤ a.length) : i < (reserve a i).length := by
  unfold reserve
  dsimp only
  split_ifs with hfull hzero
  · rw [length_grow (by omega)]
    omega
  · rw [length_grow (by omega)]
    omega
  · omega

/-- The entry after those of `l` is set. -/
theorem set_append {l : List α} {k : ℕ} :
    (l.map some ++ none :: List.replicate k none).set l.length (some x) =
      (l ++ [x]).map some ++ List.replicate k none := by
  rw [List.set_append_right _ _ (by rw [List.length_map])]
  simp

end Cells

/-! ## Runs -/

variable [DecidableEq τ] {proctype : τ → ProcType} {s s' : State τ}

/-- The invariant of the runs whose calls are in rank. -/
structure Inv (proctype : τ → ProcType) (s : State τ) : Prop where
  sound : Sound proctype s
  array : ∀ p, ∃ (l : List τ) (k : ℕ),
    s.team.pertype p = l.map some ++ List.replicate k none ∧
      l.length = s.team.pertypeCount p ∧ l.Nodup ∧ ∀ t, t ∈ l ↔ t ∈ s.attached ∧ proctype t = p
  rank : ∀ t ∈ s.attached, ∀ d, s.ld t = some d → d.index = s.kid t
  fresh : ∀ t ∉ s.attached, s.ld t = none
  lds : ∀ t, s.team.ldsCount t ≤ (s.team.lds t).length

omit [DecidableEq τ] in
theorem inv_newTeam : Inv proctype (newTeam τ) where
  sound :=
    { inBounds := rfl
      threads := fun idx t => by simp [newTeam]
      pertype := fun p => ⟨[], List.nodup_nil, fun t => by simp [newTeam], rfl, rfl⟩
      domains := fun t ht => absurd ht (Finset.notMem_empty t)
      count := rfl }
  array := fun p => ⟨[], 0, rfl, rfl, List.nodup_nil, fun t => by simp [newTeam]⟩
  rank := fun t ht => absurd ht (Finset.notMem_empty t)
  fresh := fun t _ => rfl
  lds := fun t => le_rfl

/-- The index of a thread is an entry of the array of the threads. -/
theorem size_of_pos {idx : ℕ} (hidx : idx < 2 ^ 31) (h : 0 < int32 (2 * int32 (idx + 1))) :
    idx < (int32 (2 * int32 (idx + 1))).toNat := by
  unfold int32 at h ⊢
  omega

/-- What an attach does to a team whose arrays of domains have room for their entries. -/
structure Entered (proctype : τ → ProcType) (s s' : State τ) (thread : τ) (idx : ℕ) : Prop where
  threads : ∃ a : Cells τ, idx < a.length ∧
    (∀ (i : ℕ) (t : τ), a[i]? = some (some t) ↔ s.team.threads[i]? = some (some t)) ∧
      s'.team.threads = a.set idx (some thread)
  pertypeCount : s'.team.pertypeCount = Function.update s.team.pertypeCount (proctype thread)
    (s.team.pertypeCount (proctype thread) + 1)
  pertype : s'.team.pertype = Function.update s.team.pertype (proctype thread)
    ((reserve (s.team.pertype (proctype thread))
      (s.team.pertypeCount (proctype thread))).set idx (some thread))
  lds : ∀ t, s'.team.ldsCount t ≤ (s'.team.lds t).length
  count : s'.team.count = s.team.count + 1
  kid : s'.kid = Function.update s.kid thread idx
  ld : ∃ ld, s'.ld = Function.update s.ld thread ld ∧
    (ld = s.ld thread ∨ ∀ d, ld = some d → d.index = s.team.pertypeCount (proctype thread))
  attached : s'.attached = insert thread s.attached
  outOfBounds : s'.outOfBounds = (s.outOfBounds ||
    decide ((reserve (s.team.pertype (proctype thread))
      (s.team.pertypeCount (proctype thread))).length ≤ idx))

theorem attach_spec {thread : τ} {idx count : ℕ} {present : Bool} (hidx : idx < 2 ^ 31)
    (hlds : ∀ t, s.team.ldsCount t ≤ (s.team.lds t).length)
    (h : attach proctype s thread idx count present = some s') :
    Entered proctype s s' thread idx := by
  unfold attach at h
  dsimp only at h
  split at h
  · cases h
  next hsize =>
    split at h
    · cases h
    next ldtype _ =>
      have hroom := lt_length_reserve (hlds ldtype)
      have hthreads : idx < (if s.team.threads.length ≤ idx then
          grow s.team.threads (int32 (2 * int32 (idx + 1))).toNat else s.team.threads).length := by
        split
        next hfull =>
          have hpos := size_of_pos hidx (not_le.mp fun hle => hsize ⟨hfull, hle⟩)
          rw [length_grow (by omega)]
          exact hpos
        next hfull => exact not_le.mp hfull
      cases h
      constructor
      case threads =>
        refine ⟨_, hthreads, fun i t => ?_, rfl⟩
        split
        · exact getElem?_grow
        · exact Iff.rfl
      case lds =>
        intro t
        dsimp only
        split
        · by_cases ht : t = ldtype
          · subst ht
            rw [Function.update_self, Function.update_self, List.length_set]
            exact hroom
          · rw [Function.update_of_ne ht, Function.update_of_ne ht]
            exact hlds t
        · exact hlds t
      case ld =>
        refine ⟨_, rfl, ?_⟩
        split
        · refine .inr fun d hd => ?_
          split at hd
          · cases hd
            rfl
          · cases hd
        · exact .inl rfl
      case outOfBounds =>
        dsimp only
        have hlds : ¬ (s.team.pertypeCount (proctype thread) < count ∧
            (reserve (s.team.lds ldtype) (s.team.ldsCount ldtype)).length ≤
              s.team.ldsCount ldtype) := fun hbad => absurd hbad.2 (not_le.mpr hroom)
        rw [decide_eq_false (not_le.mpr hthreads), decide_eq_false hlds]
        simp
      all_goals rfl

/-- A thread enters in rank: the entries of the arrays stay those of the attached threads. -/
theorem Inv.attach (h : Inv proctype s) {thread : τ} {idx : ℕ} (hnew : thread ∉ s.attached)
    (hfree : ∀ t ∈ s.attached, s.kid t ≠ idx)
    (hrank : idx = s.team.pertypeCount (proctype thread))
    (henter : Entered proctype s s' thread idx) : Inv proctype s' := by
  obtain ⟨l, k, harray, hlength, hnodup, hmem⟩ := h.array (proctype thread)
  obtain ⟨k', hreserve⟩ := reserve_append harray
  have hmoved : ∀ t ∈ s.attached, t ≠ thread := fun t ht heq => hnew (heq ▸ ht)
  have hkid : ∀ t ∈ s.attached, s'.kid t = s.kid t := fun t ht => by
    rw [henter.kid, Function.update_of_ne (hmoved t ht)]
  have hkidThread : s'.kid thread = idx := by
    rw [henter.kid, Function.update_self]
  have harray' : ∀ p, ∃ (l : List τ) (k : ℕ),
      s'.team.pertype p = l.map some ++ List.replicate k none ∧
        l.length = s'.team.pertypeCount p ∧ l.Nodup ∧
          ∀ t, t ∈ l ↔ t ∈ s'.attached ∧ proctype t = p := by
    intro p
    rw [henter.pertype, henter.pertypeCount, henter.attached]
    by_cases hp : p = proctype thread
    · subst hp
      refine ⟨l ++ [thread], k', ?_, ?_, ?_, fun t => ?_⟩
      · rw [Function.update_self, hrank, ← hlength, hreserve, set_append]
      · rw [Function.update_self, List.length_append, hlength]
        rfl
      · refine List.nodup_append.mpr ⟨hnodup, List.nodup_singleton _, fun a ha b hb => ?_⟩
        rw [List.mem_singleton.mp hb]
        exact hmoved a ((hmem a).mp ha).1
      · rw [List.mem_append, hmem t, List.mem_singleton, Finset.mem_insert]
        constructor
        · rintro (⟨ht, hp⟩ | rfl)
          · exact ⟨.inr ht, hp⟩
          · exact ⟨.inl rfl, rfl⟩
        · rintro ⟨rfl | ht, hp⟩
          · exact .inr rfl
          · exact .inl ⟨ht, hp⟩
    · obtain ⟨l, k, harray, hlength, hnodup, hmem⟩ := h.array p
      refine ⟨l, k, ?_, ?_, hnodup, fun t => ?_⟩
      · rw [Function.update_of_ne hp, harray]
      · rw [Function.update_of_ne hp, hlength]
      · rw [hmem t, Finset.mem_insert]
        constructor
        · exact fun ⟨ht, htp⟩ => ⟨.inr ht, htp⟩
        · rintro ⟨rfl | ht, htp⟩
          · exact absurd htp.symm hp
          · exact ⟨ht, htp⟩
  have hlds := henter.lds
  obtain ⟨ld, hld, hgiven⟩ := henter.ld
  have hrank' : ∀ t ∈ s'.attached, ∀ d, s'.ld t = some d → d.index = s'.kid t := by
    intro t ht d hd
    rw [hld] at hd
    rw [henter.attached, Finset.mem_insert] at ht
    rcases ht with rfl | ht
    · rw [Function.update_self] at hd
      rw [hkidThread, hrank]
      rcases hgiven with hold | hgiven
      · rw [hold, h.fresh t hnew] at hd
        cases hd
      · exact hgiven d hd
    · rw [Function.update_of_ne (hmoved t ht)] at hd
      rw [hkid t ht]
      exact h.rank t ht d hd
  have hthreads : ∀ i t, s'.team.threads[i]? = some (some t) ↔ t ∈ s'.attached ∧ s'.kid t = i := by
    intro i t
    obtain ⟨a, hlt, hold, heq⟩ := henter.threads
    rw [heq, henter.attached, Finset.mem_insert]
    by_cases hi : idx = i
    · subst hi
      rw [List.getElem?_set_self hlt]
      rw [Option.some.injEq, Option.some.injEq]
      constructor
      · rintro rfl
        exact ⟨.inl rfl, hkidThread⟩
      · rintro ⟨rfl | ht, hki⟩
        · rfl
        · exact absurd ((hkid t ht).symm.trans hki) (hfree t ht)
    · rw [List.getElem?_set_ne hi, hold, h.sound.threads]
      constructor
      · exact fun ⟨ht, hki⟩ => ⟨.inr ht, (hkid t ht).trans hki⟩
      · rintro ⟨rfl | ht, hki⟩
        · exact absurd (hkidThread.symm.trans hki) hi
        · exact ⟨ht, (hkid t ht).symm.trans hki⟩
  refine ⟨⟨?_, hthreads, fun p => ?_, ?_, ?_⟩, harray', hrank', ?_, hlds⟩
  · -- the entry of the rank is in the array
    rw [henter.outOfBounds, h.sound.inBounds, hrank, Bool.false_or]
    refine decide_eq_false (not_le.mpr (lt_length_reserve ?_))
    rw [harray, ← hlength]
    simp
  · obtain ⟨l, k, harray, hlength, hnodup, hmem⟩ := harray' p
    refine ⟨l, hnodup, hmem, hlength, ?_⟩
    rw [harray, ← hlength, List.take_append_of_le_length (by simp)]
    simp
  · -- a domain is at the index of its thread
    intro t ht t' ht' d hd hd'
    have hindex := (hrank' t ht d hd).symm.trans (hrank' t' ht' d hd')
    have hentry := (hthreads _ t).mpr ⟨ht, hindex⟩
    have hentry' := (hthreads _ t').mpr ⟨ht', rfl⟩
    rw [hentry] at hentry'
    exact Option.some.inj (Option.some.inj hentry')
  · rw [henter.count, h.sound.count, henter.attached, Finset.card_insert_of_notMem hnew]
    rfl
  · intro t ht
    rw [henter.attached, Finset.mem_insert, not_or] at ht
    rw [hld, Function.update_of_ne ht.1]
    exact h.fresh t ht.2

/-- The call of a step. -/
theorem step_attach {thread : τ} {idx count : ℕ} {present : Bool}
    (h : step proctype s (.attach thread idx count present) = some s') :
    (thread ∉ s.attached ∧ (∀ t ∈ s.attached, s.kid t ≠ idx) ∧ idx < 2 ^ 31) ∧
      attach proctype s thread idx count present = some s' := by
  simp only [step] at h
  split at h
  next hcall => exact ⟨hcall, h⟩
  next => cases h

theorem step_deattach (proctype : τ → ProcType) {thread : τ}
    (h : step proctype s (.deattach thread) = some s') :
    thread ∈ s.attached ∧ s' = deattach s thread := by
  simp only [step] at h
  split at h
  next hcall => exact ⟨hcall, (Option.some.inj h).symm⟩
  next => cases h

theorem inv_of_reachable (h : (system proctype).ReachableWhen (InRank proctype) s) :
    Inv proctype s := by
  refine h.invariant ?_ fun s a s' hinv hrank hstep => ?_
  · rintro s rfl
    exact inv_newTeam
  · cases a with
    | attach thread idx count present =>
        obtain ⟨⟨hnew, hfree, hidx⟩, hattach⟩ := step_attach hstep
        exact hinv.attach hnew hfree hrank (attach_spec hidx hinv.lds hattach)
    | deattach thread => exact absurd hrank id

/-- A thread that enters beside its rank leaves the entry of the rank empty. -/
theorem not_sound_attach (h : Inv proctype s) {thread : τ} {idx : ℕ}
    (hrank : idx ≠ s.team.pertypeCount (proctype thread))
    (henter : Entered proctype s s' thread idx) : ¬ Sound proctype s' := by
  intro hsound
  obtain ⟨l, k, harray, hlength, -, -⟩ := h.array (proctype thread)
  obtain ⟨k', hreserve⟩ := reserve_append harray
  obtain ⟨l', -, -, hlength', htake⟩ := hsound.pertype (proctype thread)
  rw [henter.pertype, henter.pertypeCount, Function.update_self, Function.update_self] at *
  have hentry : (l'.map some)[l.length]? = some none := by
    rw [← htake, List.getElem?_take_of_lt (by omega), ← hlength, hreserve,
      List.getElem?_set_ne (by omega), List.getElem?_append_right (by simp)]
    simp
  rw [List.getElem?_map, Option.map_eq_some_iff] at hentry
  obtain ⟨t, -, ht⟩ := hentry
  cases ht

/-- A thread that leaves stays in the array of its type. -/
theorem not_sound_deattach (h : Inv proctype s) {thread : τ} (hthread : thread ∈ s.attached) :
    ¬ Sound proctype (deattach s thread) := by
  intro hsound
  obtain ⟨l, k, harray, hlength, -, hmem⟩ := h.array (proctype thread)
  obtain ⟨l', -, hmem', -, htake⟩ := hsound.pertype (proctype thread)
  have hl : l'.map some = l.map some := by
    rw [← htake]
    show (s.team.pertype (proctype thread)).take (s.team.pertypeCount (proctype thread)) = _
    rw [harray, ← hlength, List.take_append_of_le_length (by simp)]
    simp
  have hin : some thread ∈ l'.map some := by
    rw [hl]
    exact List.mem_map_of_mem ((hmem thread).mpr ⟨hthread, rfl⟩)
  obtain ⟨t, ht, heq⟩ := List.mem_map.mp hin
  cases heq
  exact absurd ((hmem' thread).mp ht).1 (Finset.notMem_erase thread s.attached)

/-- The team is sound in all runs whose calls are in rank, and the first call that is not in rank
ends this. -/
theorem team_sound (proctype : τ → ProcType)
    (h : (system proctype).ReachableWhen (InRank proctype) s) :
    Sound proctype s ∧ ∀ a s', (system proctype).step s a = some s' →
      (Sound proctype s' ↔ InRank proctype s a) := by
  have hinv := inv_of_reachable h
  refine ⟨hinv.sound, fun a s' hstep => ⟨fun hsound => ?_, fun hrank => ?_⟩⟩
  · cases a with
    | attach thread idx count present =>
        obtain ⟨⟨-, -, hidx⟩, hattach⟩ := step_attach hstep
        by_contra hrank
        exact not_sound_attach hinv hrank (attach_spec hidx hinv.lds hattach) hsound
    | deattach thread =>
        obtain ⟨hthread, rfl⟩ := step_deattach proctype hstep
        exact not_sound_deattach hinv hthread hsound
  · exact (inv_of_reachable (.next h hrank hstep)).sound

/-- Three processors attach in rank. -/
def processors : List (Action (Fin 3)) :=
  [.attach 2 0 1 true, .attach 0 1 1 true, .attach 1 2 1 true]

theorem team_sound_processors :
    ∃ s, (system fun _ : Fin 3 => .host).replay (InRank fun _ => .host) (newTeam (Fin 3))
        processors = some s ∧ s.team.count = 3 ∧ Sound (fun _ => .host) s := by
  let s := ((system fun _ : Fin 3 => .host).replay (InRank fun _ => .host) (newTeam (Fin 3))
    processors).get (by decide)
  have hrun : (system fun _ : Fin 3 => .host).replay (InRank fun _ => .host) (newTeam (Fin 3))
      processors = some s := (Option.some_get _).symm
  exact ⟨s, hrun, rfl, (team_sound (fun _ => .host) (.replay (.start rfl) hrun)).1⟩

/-- A processor at the index 0 and a GPU at the index 1. -/
def processorAndGpu : List (Action (Fin 2)) :=
  [.attach 0 0 1 true, .attach 1 1 1 true]

/-- The type of the thread 1. -/
def firstIsHost (t : Fin 2) : ProcType :=
  if t = 0 then .host else .cuda

/-- The GPU is the first of its type, and it is in the second entry. -/
theorem not_team_sound :
    ∃ s, (system firstIsHost).run (newTeam (Fin 2)) processorAndGpu = some s ∧
      ¬ Sound firstIsHost s := by
  let s := ((system firstIsHost).run (newTeam (Fin 2)) processorAndGpu).get (by decide)
  have hrun : (system firstIsHost).run (newTeam (Fin 2)) processorAndGpu = some s :=
    (Option.some_get _).symm
  refine ⟨s, hrun, fun hsound => ?_⟩
  obtain ⟨l, -, -, hlength, htake⟩ := hsound.pertype .cuda
  have hempty : [none] = l.map some := htake
  cases l with
  | nil => cases hlength
  | cons t l => cases hempty

end Xkblas.Sched.TeamMembers
