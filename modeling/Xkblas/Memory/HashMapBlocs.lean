import Xkblas.Library.LinkedPath
import Xkblas.Memory.HashMap

/-!
# The blocks of the hash map

The blocks that a map takes from `malloc` are in the list `allallocatedbloc` until
`kaapi_hashmap_clear` makes this list the free one. A block that is taken back from the free list
enters no list again, so the next clear and `kaapi_hashmap_destroy` do not know it.
-/

namespace Xkblas.Memory.HashMap

open Library

variable {V : Type}

/-! ## `kaapi_hashmap_destroy` -/

/-- `_kaapi_hashmap_destroy_list`: the blocks that are freed one after the other, with at most
`fuel` rounds. -/
def State.destroyList (s : State V) : ℕ → Option ℕ → Option (List ℕ)
  | _, none => some []
  | 0, some _ => none
  | fuel + 1, some curr => (s.destroyList fuel (s.blocNext curr)).map fun l => curr :: l

/-- The calls of `free` in `kaapi_hashmap_destroy`. -/
def State.destroy (s : State V) : Option (List ℕ) := do
  let allocated ← s.destroyList s.brk s.allallocatedbloc
  let free ← s.destroyList s.brk s.freebloc
  some (allocated ++ free)

/-! ## Rounds -/

section Runs

variable [Zero V]

/-- The operation ends a round. -/
def Op.isClear : Op V → Bool
  | .clear => true
  | _ => false

/-- The operation inserts an entry. -/
def State.Inserts (s : State V) : Op V → Prop
  | .insert _ => True
  | .findinsert ptr => s.find ptr = some none
  | _ => False

instance (s : State V) (op : Op V) : Decidable (s.Inserts op) :=
  match op with
  | .insert _ => inferInstanceAs (Decidable True)
  | .findinsert _ => inferInstanceAs (Decidable (_ = _))
  | .find _ | .assign _ _ | .pop _ | .clear => inferInstanceAs (Decidable False)

/-- A map with the blocks that `malloc` returned to it. A round ends with a clear: `room` is what
the block of `kaapi_hashmap_init` holds in the round, `inserted` counts the entries of the round,
and `most` is the largest number of blocks that an earlier round needed. -/
structure Rounds (V : Type) where
  map : State V
  allocated : List ℕ
  room : ℕ
  inserted : ℕ
  most : ℕ

/-- How many blocks the entries of the round need. -/
def Rounds.needed (s : Rounds V) : ℕ :=
  (s.inserted - s.room + (blocEntriesSize - 1)) / blocEntriesSize

def roundsStep (s : Rounds V) (op : Op V) : Option (Rounds V) :=
  (s.map.exec op).map fun r =>
    { map := r.1
      allocated := if s.map.brk < r.1.brk then s.map.brk :: s.allocated else s.allocated
      room := if op.isClear then 0 else s.room
      inserted :=
        if op.isClear then 0
        else if s.map.Inserts op then s.inserted + 1 else s.inserted
      most := if op.isClear then max s.most s.needed else s.most }

/-- A map after `kaapi_hashmap_init`, with a block that exists or without one. -/
def RoundsInitial (s : Rounds V) : Prop :=
  (∃ m powsize initbloc, s.map = State.init m powsize initbloc ∧
    (∀ b, initbloc = some b → b < m.brk) ∧
    s.room = if initbloc = none then 0 else blocEntriesSize) ∧
    s.allocated = [] ∧ s.inserted = 0 ∧ s.most = 0

def roundsSystem : TransitionSystem (Rounds V) (Op V) where
  initial := RoundsInitial
  step := roundsStep

/-- The operation takes a block back from the free list. -/
def Reuses (s : Rounds V) (op : Op V) : Prop :=
  s.map.Inserts op ∧ s.map.currentbloc = none ∧ s.map.freebloc ≠ none

instance (s : Rounds V) (op : Op V) : Decidable (Reuses s op) :=
  inferInstanceAs (Decidable (_ ∧ _))

/-- The blocks are conserved. -/
structure Conserved (s : Rounds V) : Prop where
  /-- Each block is at one place of one of the two lists. -/
  lists : ∃ alloc free, IsPath s.map.blocNext s.map.allallocatedbloc alloc none ∧
    IsPath s.map.blocNext s.map.freebloc free none ∧ (alloc ++ free).Nodup ∧
    (alloc ++ free).Perm s.allocated
  /-- The assertion of `kaapi_hashmap_clear`. -/
  assertion : s.map.allallocatedbloc ≠ none → s.map.freebloc = none
  /-- A clear makes all blocks free. -/
  reusable : ∃ free, IsPath s.map.clear.blocNext s.map.clear.freebloc free none ∧
    free.Perm s.allocated
  count : s.allocated.length = max s.most s.needed
  /-- `kaapi_hashmap_destroy` frees each block once. -/
  destroyed : ∃ frees, s.map.destroy = some frees ∧ frees.Perm s.allocated

end Runs

/-! ## The blocks in a step -/

variable {s t : State V} {p : Option ℕ} {l : List ℕ} {b : ℕ}

/-- The blocks of a path are freed in its order. -/
theorem destroyList_eq {fuel : ℕ} (hpath : IsPath s.blocNext p l none) (hfuel : l.length ≤ fuel) :
    s.destroyList fuel p = some l := by
  induction l generalizing p fuel with
  | nil =>
      obtain rfl : p = none := hpath
      rw [State.destroyList]
  | cons b l ih =>
      obtain ⟨rfl, hpath⟩ := hpath
      obtain ⟨fuel, rfl⟩ := Nat.exists_eq_succ_of_ne_zero (Nat.ne_zero_of_lt hfuel)
      rw [State.destroyList, ih hpath (Nat.le_of_succ_le_succ hfuel)]
      rfl

/-- `kaapi_hashmap_destroy` frees the blocks of the two lists. -/
theorem destroy_eq {alloc free : List ℕ} (halloc : IsPath s.blocNext s.allallocatedbloc alloc none)
    (hfree : IsPath s.blocNext s.freebloc free none) (hnodup : (alloc ++ free).Nodup)
    (hlt : ∀ b ∈ alloc ++ free, b < s.brk) : s.destroy = some (alloc ++ free) := by
  have hlength : (alloc ++ free).length ≤ s.brk := by
    have hsub := hnodup.subperm fun b hb => List.mem_range.mpr (hlt b hb)
    have hle := hsub.length_le
    rw [List.length_range] at hle
    exact hle
  rw [List.length_append] at hlength
  unfold State.destroy
  rw [destroyList_eq halloc (by omega), destroyList_eq hfree (by omega)]
  rfl

/-- How many entries the current block can still give. -/
def State.left (s : State V) : ℕ :=
  match s.currentbloc with
  | none => 0
  | some b => blocEntriesSize - s.pos b

/-- The current block is not full. -/
def State.Open (s : State V) : Prop :=
  ∀ b, s.currentbloc = some b → s.pos b < blocEntriesSize

/-- Another operation than an insertion and a clear leaves the fields of the blocks. -/
structure SameBlocs (s t : State V) : Prop where
  currentbloc : t.currentbloc = s.currentbloc
  freebloc : t.freebloc = s.freebloc
  allallocatedbloc : t.allallocatedbloc = s.allallocatedbloc
  blocNext : t.blocNext = s.blocNext
  pos : t.pos = s.pos
  brk : t.brk = s.brk

theorem SameBlocs.refl (s : State V) : SameBlocs s s :=
  ⟨rfl, rfl, rfl, rfl, rfl, rfl⟩

section Steps

variable [Zero V] {op : Op V} {ptr : Key} {h : ℕ}

/-- An entry of a block is given. -/
theorem link_left (ptr : Key) (h : ℕ) (hpos : s.pos b < blocEntriesSize) :
    (s.link b ptr h).1.left + 1 = blocEntriesSize - s.pos b ∧ (s.link b ptr h).1.Open := by
  have hcurrent : (s.link b ptr h).1.currentbloc =
      if s.pos b + 1 = blocEntriesSize then none else some b := rfl
  have hnext : (s.link b ptr h).1.pos b = s.pos b + 1 := Function.update_self _ _ _
  unfold State.left State.Open
  by_cases hfull : s.pos b + 1 = blocEntriesSize
  · rw [hcurrent, if_pos hfull]
    refine ⟨?_, nofun⟩
    show 0 + 1 = blocEntriesSize - s.pos b
    omega
  · rw [hcurrent, if_neg hfull]
    refine ⟨?_, fun b' hb' => ?_⟩
    · show blocEntriesSize - (s.link b ptr h).1.pos b + 1 = _
      rw [hnext]
      omega
    · obtain rfl := Option.some.inj hb'
      rw [hnext]
      omega

/-- An operation inserts an entry, clears the map, or leaves the blocks. -/
theorem exec_cases {r : Option Entry} (hexec : s.exec op = some (t, r)) :
    (s.Inserts op ∧ op.isClear = false ∧ ∃ ptr h, t = (s.insertAt ptr h).1) ∨
      (¬ s.Inserts op ∧ op = .clear ∧ t = s.clear) ∨
      (¬ s.Inserts op ∧ op.isClear = false ∧ SameBlocs s t) := by
  cases op with
  | insert ptr =>
      obtain ⟨rfl, _⟩ := Prod.mk.inj (Option.some.inj hexec)
      exact .inl ⟨trivial, rfl, ptr, _, rfl⟩
  | findinsert ptr =>
      obtain ⟨⟨t', e⟩, hfind, heq⟩ := Option.map_eq_some_iff.mp hexec
      obtain ⟨rfl, _⟩ := Prod.mk.inj heq
      obtain ⟨found, hfound, hresult⟩ := Option.map_eq_some_iff.mp hfind
      cases found with
      | none =>
          have ht : s.insertAt ptr (s.hkey ptr) = (t', e) := hresult
          exact .inl ⟨hfound, rfl, ptr, s.hkey ptr, by rw [ht]⟩
      | some entry =>
          obtain ⟨rfl, _⟩ := Prod.mk.inj hresult
          refine .inr (.inr ⟨fun hnone => ?_, rfl, .refl s⟩)
          have hnone : s.find ptr = some none := hnone
          rw [hfound] at hnone
          cases hnone
  | find ptr =>
      obtain ⟨found, _, heq⟩ := Option.map_eq_some_iff.mp hexec
      obtain ⟨rfl, _⟩ := Prod.mk.inj heq
      exact .inr (.inr ⟨id, rfl, .refl s⟩)
  | assign entry v | pop h =>
      obtain ⟨rfl, _⟩ := Prod.mk.inj (Option.some.inj hexec)
      exact .inr (.inr ⟨id, rfl, rfl, rfl, rfl, rfl, rfl, rfl⟩)
  | clear =>
      obtain ⟨rfl, _⟩ := Prod.mk.inj (Option.some.inj hexec)
      exact .inr (.inl ⟨id, rfl, rfl⟩)

end Steps

/-! ## Rounds without a reuse -/

section Rounds

/-- All blocks are in the list of those that are allocated. -/
structure Growing (s : Rounds V) : Prop where
  path : IsPath s.map.blocNext s.map.allallocatedbloc s.allocated none
  free : s.map.freebloc = none
  most : s.most = 0
  isOpen : s.map.Open
  total : s.inserted + s.map.left = s.room + blocEntriesSize * s.allocated.length
  begun : s.allocated ≠ [] → s.map.left < blocEntriesSize
  left_le : s.map.left ≤ blocEntriesSize

/-- A clear has made all blocks free, and there is no entry. -/
structure Resting (s : Rounds V) : Prop where
  path : IsPath s.map.blocNext s.map.freebloc s.allocated none
  alloc : s.map.allallocatedbloc = none
  current : s.map.currentbloc = none
  inserted : s.inserted = 0
  most : s.most = s.allocated.length
  nonempty : s.allocated ≠ []

/-- What holds in a run in which no block is taken back from the free list. -/
structure RoundsInv (s : Rounds V) : Prop where
  nodup : s.allocated.Nodup
  lt : ∀ b ∈ s.allocated, b < s.map.brk
  phase : Growing s ∨ Resting s

variable {s t : Rounds V}

/-- The entries of the round fill the blocks but for what is left in the last one. -/
theorem Growing.needed_eq (hg : Growing s) : s.needed = s.allocated.length := by
  have htotal := hg.total
  have hle := hg.left_le
  unfold Rounds.needed
  unfold blocEntriesSize at *
  cases hblocs : s.allocated with
  | nil =>
      rw [hblocs, List.length_nil] at htotal
      rw [List.length_nil]
      omega
  | cons b l =>
      have hlt := hg.begun (by rw [hblocs]; exact List.cons_ne_nil b l)
      unfold blocEntriesSize at hlt
      rw [hblocs] at htotal
      generalize (b :: l).length = n at htotal ⊢
      omega

theorem Resting.needed_eq (hr : Resting s) : s.needed = 0 := by
  unfold Rounds.needed blocEntriesSize
  rw [hr.inserted]
  omega

/-- What the invariant says of the map. -/
theorem RoundsInv.conserved (h : RoundsInv s) : Conserved s := by
  rcases h.phase with hg | hr
  · have hfree : IsPath s.map.blocNext s.map.freebloc [] none := hg.free
    have hnodup : (s.allocated ++ []).Nodup := by
      rw [List.append_nil]
      exact h.nodup
    have hdestroy := destroy_eq hg.path hfree hnodup (by simpa using h.lt)
    constructor
    case lists => exact ⟨_, [], hg.path, hfree, hnodup, by rw [List.append_nil]⟩
    case assertion => exact fun _ => hg.free
    case reusable =>
      refine ⟨s.allocated, ?_, List.Perm.refl _⟩
      show IsPath s.map.blocNext
        (if s.map.allallocatedbloc = none then s.map.freebloc else s.map.allallocatedbloc) _ none
      split
      case isTrue hnone =>
        have hpath := hg.path
        rw [hnone] at hpath
        rw [hg.free]
        exact hpath
      case isFalse => exact hg.path
    case count => rw [hg.most, hg.needed_eq, Nat.zero_max]
    case destroyed => exact ⟨_, hdestroy, by rw [List.append_nil]⟩
  · have halloc : IsPath s.map.blocNext s.map.allallocatedbloc [] none := hr.alloc
    constructor
    case lists => exact ⟨[], _, halloc, hr.path, h.nodup, List.Perm.refl _⟩
    case assertion => exact fun hne => absurd hr.alloc hne
    case reusable =>
      refine ⟨s.allocated, ?_, List.Perm.refl _⟩
      show IsPath s.map.blocNext
        (if s.map.allallocatedbloc = none then s.map.freebloc else s.map.allallocatedbloc) _ none
      rw [if_pos hr.alloc]
      exact hr.path
    case count => rw [hr.most, hr.needed_eq, Nat.max_zero]
    case destroyed => exact ⟨_, destroy_eq halloc hr.path h.nodup h.lt, List.Perm.refl _⟩

/-- A new block enters the list at its front. -/
theorem openBloc_new {m : State V} (hcurrent : m.currentbloc = none) (hfree : m.freebloc = none) :
    m.openBloc = ({ m with
      currentbloc := some m.brk
      blocNext := Function.update m.blocNext m.brk m.allallocatedbloc
      allallocatedbloc := some m.brk
      pos := Function.update m.pos m.brk 0
      brk := m.brk + 1 }, m.brk) := by
  unfold State.openBloc State.allocateBloc
  rw [hcurrent, hfree]

variable [Zero V] {op : Op V}

/-- An insertion while the blocks grow. -/
theorem Growing.insert (ptr : Key) (h : ℕ) (hlt : ∀ b ∈ s.allocated, b < s.map.brk)
    (hg : Growing s) {allocated : List ℕ}
    (hallocated : allocated =
      if s.map.brk < (s.map.insertAt ptr h).1.brk then s.map.brk :: s.allocated
      else s.allocated) :
    Growing ⟨(s.map.insertAt ptr h).1, allocated, s.room, s.inserted + 1, s.most⟩ ∧
      (allocated = s.allocated ∧ (s.map.insertAt ptr h).1.brk = s.map.brk ∨
        allocated = s.map.brk :: s.allocated ∧
          (s.map.insertAt ptr h).1.brk = s.map.brk + 1) := by
  have htotal := hg.total
  cases hcurrent : s.map.currentbloc with
  | some b =>
      have hopen : s.map.openBloc = (s.map, b) := by
        unfold State.openBloc
        rw [hcurrent]
      have hinsert : s.map.insertAt ptr h = s.map.link b ptr h := by
        unfold State.insertAt
        rw [hopen]
      rw [hinsert] at hallocated ⊢
      have hbrk : ¬ s.map.brk < (s.map.link b ptr h).1.brk := Nat.lt_irrefl _
      rw [if_neg hbrk] at hallocated
      have hpos := hg.isOpen b hcurrent
      obtain ⟨hleft, hopen'⟩ := link_left ptr h hpos
      have hbefore : s.map.left = blocEntriesSize - s.map.pos b := by
        unfold State.left
        rw [hcurrent]
      refine ⟨⟨?_, hg.free, hg.most, hopen', ?_, fun hne => ?_, ?_⟩, .inl ⟨hallocated, rfl⟩⟩
      · rw [hallocated]
        exact hg.path
      · show s.inserted + 1 + (s.map.link b ptr h).1.left = s.room + _ * allocated.length
        rw [hallocated, ← htotal, hbefore, ← hleft]
        omega
      · show (s.map.link b ptr h).1.left < blocEntriesSize
        omega
      · show (s.map.link b ptr h).1.left ≤ blocEntriesSize
        omega
  | none =>
      have hopen := openBloc_new hcurrent hg.free
      have hinsert : s.map.insertAt ptr h = s.map.openBloc.1.link s.map.brk ptr h := by
        unfold State.insertAt
        rw [hopen]
      have hzero : s.map.openBloc.1.pos s.map.brk = 0 := by
        rw [hopen]
        exact Function.update_self _ _ _
      have hbrk : (s.map.insertAt ptr h).1.brk = s.map.brk + 1 := by
        rw [hinsert, hopen]
        rfl
      rw [hbrk, if_pos (Nat.lt_succ_self _)] at hallocated
      obtain ⟨hleft, hopen'⟩ := link_left ptr h
        (by rw [hzero]; decide : s.map.openBloc.1.pos s.map.brk < blocEntriesSize)
      rw [hzero, Nat.sub_zero, ← hinsert] at hleft
      rw [← hinsert] at hopen'
      have hbefore : s.map.left = 0 := by
        unfold State.left
        rw [hcurrent]
      refine ⟨⟨?_, ?_, hg.most, hopen', ?_, fun _ => ?_, ?_⟩, .inr ⟨hallocated, hbrk⟩⟩
      · show IsPath (s.map.insertAt ptr h).1.blocNext (s.map.insertAt ptr h).1.allallocatedbloc
          allocated none
        rw [hallocated, hinsert, hopen]
        refine ⟨rfl, ?_⟩
        show IsPath (Function.update s.map.blocNext s.map.brk s.map.allallocatedbloc)
          (Function.update s.map.blocNext s.map.brk s.map.allallocatedbloc s.map.brk) _ none
        rw [Function.update_self]
        exact hg.path.congr fun b hb => Function.update_of_ne (hlt b hb).ne _ _
      · show (s.map.insertAt ptr h).1.freebloc = none
        rw [hinsert, hopen]
        exact hg.free
      · show s.inserted + 1 + (s.map.insertAt ptr h).1.left = s.room + _ * allocated.length
        rw [hallocated, List.length_cons, Nat.mul_succ, ← Nat.add_assoc, ← htotal, hbefore, ← hleft]
        omega
      · show (s.map.insertAt ptr h).1.left < blocEntriesSize
        omega
      · show (s.map.insertAt ptr h).1.left ≤ blocEntriesSize
        omega

omit [Zero V] in
/-- A clear. -/
theorem RoundsInv.clear (h : RoundsInv s) :
    RoundsInv ⟨s.map.clear, s.allocated, 0, 0, max s.most s.needed⟩ := by
  refine ⟨h.nodup, h.lt, ?_⟩
  rcases h.phase with hg | hr
  · by_cases hnil : s.allocated = []
    · left
      have hneeded := hg.needed_eq
      rw [hnil, List.length_nil] at hneeded
      have hpath := hg.path
      rw [hnil] at hpath
      have hnone : s.map.allallocatedbloc = none := hpath
      constructor
      case path =>
        show IsPath _ none s.allocated none
        rw [hnil]
        rfl
      case free =>
        show (if s.map.allallocatedbloc = none then s.map.freebloc else _) = none
        rw [if_pos hnone, hg.free]
      case most =>
        show max s.most s.needed = 0
        rw [hg.most, hneeded]
        rfl
      case isOpen => exact nofun
      case total =>
        show 0 + 0 = 0 + blocEntriesSize * s.allocated.length
        rw [hnil]
        rfl
      case begun => exact fun hne => absurd hnil hne
      case left_le => exact Nat.zero_le _
    · right
      have hsome : s.map.allallocatedbloc ≠ none := by
        intro hnone
        have hpath := hg.path
        rw [hnone] at hpath
        cases hblocs : s.allocated with
        | nil => exact hnil hblocs
        | cons b l =>
            rw [hblocs] at hpath
            cases hpath.1
      refine ⟨?_, rfl, rfl, rfl, ?_, hnil⟩
      · show IsPath _ (if s.map.allallocatedbloc = none then s.map.freebloc else _) _ none
        rw [if_neg hsome]
        exact hg.path
      · show max s.most s.needed = s.allocated.length
        rw [hg.most, hg.needed_eq, Nat.zero_max]
  · right
    refine ⟨?_, rfl, rfl, rfl, ?_, hr.nonempty⟩
    · show IsPath _ (if s.map.allallocatedbloc = none then s.map.freebloc else _) _ none
      rw [if_pos hr.alloc]
      exact hr.path
    · show max s.most s.needed = s.allocated.length
      rw [hr.most, hr.needed_eq, Nat.max_zero]

omit [Zero V] in
/-- The fields of the blocks decide the invariant. -/
theorem RoundsInv.same {m : State V} (h : RoundsInv s) (hm : SameBlocs s.map m) :
    RoundsInv ⟨m, s.allocated, s.room, s.inserted, s.most⟩ := by
  have hleft : m.left = s.map.left := by
    unfold State.left
    rw [hm.currentbloc, hm.pos]
  refine ⟨h.nodup, fun b hb => (h.lt b hb).trans_eq hm.brk.symm, ?_⟩
  rcases h.phase with hg | hr
  · left
    constructor
    case path =>
      rw [hm.blocNext, hm.allallocatedbloc]
      exact hg.path
    case free => exact hm.freebloc.trans hg.free
    case most => exact hg.most
    case isOpen =>
      intro b hb
      rw [hm.pos]
      exact hg.isOpen b (hm.currentbloc ▸ hb)
    case total =>
      rw [hleft]
      exact hg.total
    case begun =>
      rw [hleft]
      exact hg.begun
    case left_le =>
      rw [hleft]
      exact hg.left_le
  · right
    refine ⟨?_, hm.allallocatedbloc.trans hr.alloc, hm.currentbloc.trans hr.current, hr.inserted,
      hr.most, hr.nonempty⟩
    rw [hm.blocNext, hm.freebloc]
    exact hr.path

omit [Zero V] in
theorem RoundsInv.initial (h : RoundsInitial s) : RoundsInv s := by
  obtain ⟨⟨m, powsize, initbloc, hmap, _, hroom⟩, hallocated, hinserted, hmost⟩ := h
  obtain ⟨map, allocated, room, inserted, most⟩ := s
  obtain rfl : map = m.init powsize initbloc := hmap
  obtain rfl : allocated = [] := hallocated
  obtain rfl : inserted = 0 := hinserted
  obtain rfl : most = 0 := hmost
  have hroom : room = if initbloc = none then 0 else blocEntriesSize := hroom
  have hpos : ∀ b, initbloc = some b → (m.init powsize initbloc).pos b = 0 := fun b hb => if_pos hb
  have hleft : (m.init powsize initbloc).left = room := by
    unfold State.left
    rw [hroom]
    cases initbloc with
    | none => rfl
    | some b =>
        show blocEntriesSize - (m.init powsize (some b)).pos b = _
        rw [hpos b rfl]
        rfl
  refine ⟨List.nodup_nil, nofun, .inl ?_⟩
  constructor
  case path => rfl
  case free => rfl
  case most => rfl
  case isOpen =>
    intro b hb
    rw [hpos b hb]
    decide
  case total =>
    show 0 + (m.init powsize initbloc).left = room + blocEntriesSize * 0
    omega
  case begun => exact fun hne => absurd rfl hne
  case left_le =>
    show (m.init powsize initbloc).left ≤ blocEntriesSize
    rw [hleft, hroom]
    split
    · exact Nat.zero_le _
    · exact le_rfl

theorem RoundsInv.step (h : RoundsInv s) (hok : ¬ Reuses s op) (hstep : roundsStep s op = some t) :
    RoundsInv t := by
  obtain ⟨⟨m, r⟩, hexec, rfl⟩ := Option.map_eq_some_iff.mp hstep
  rcases exec_cases hexec with ⟨hins, hclear, ptr, k, rfl⟩ | ⟨_, rfl, rfl⟩ | ⟨hins, hclear, hm⟩
  · rcases h.phase with hg | hr
    · dsimp only
      rw [hclear, if_pos hins]
      obtain ⟨hgrow, hlists⟩ := hg.insert ptr k h.lt rfl
      refine ⟨?_, ?_, .inl hgrow⟩
      · rcases hlists with ⟨hsame, _⟩ | ⟨hnew, _⟩
        · rw [hsame]
          exact h.nodup
        · rw [hnew]
          exact List.nodup_cons.mpr ⟨fun hmem => Nat.lt_irrefl _ (h.lt _ hmem), h.nodup⟩
      · intro b hb
        rcases hlists with ⟨hsame, hbrk⟩ | ⟨hnew, hbrk⟩
        · rw [hsame] at hb
          exact (h.lt b hb).trans_eq hbrk.symm
        · rw [hnew] at hb
          show b < (s.map.insertAt ptr k).1.brk
          rw [hbrk]
          rcases List.mem_cons.mp hb with rfl | hb
          · exact Nat.lt_succ_self _
          · exact (h.lt b hb).trans (Nat.lt_succ_self _)
    · -- there is no current block, and the free list is not empty
      refine absurd ⟨hins, hr.current, fun hnone => ?_⟩ hok
      have hpath := hr.path
      rw [hnone] at hpath
      cases hblocs : s.allocated with
      | nil => exact hr.nonempty hblocs
      | cons b l =>
          rw [hblocs] at hpath
          cases hpath.1
  · have hbrk : ¬ s.map.brk < s.map.clear.brk := Nat.lt_irrefl _
    dsimp only
    rw [if_neg hbrk]
    exact h.clear
  · have hbrk : ¬ s.map.brk < m.brk := by
      rw [hm.brk]
      exact Nat.lt_irrefl _
    dsimp only
    rw [if_neg hbrk, hclear, if_neg hins]
    exact h.same hm

/-- A block that is taken back is in no list. -/
theorem RoundsInv.lost (h : RoundsInv s) (hreuse : Reuses s op)
    (hstep : roundsStep s op = some t) : ¬ Conserved t := by
  obtain ⟨hins, hcurrent, hfree⟩ := hreuse
  obtain ⟨⟨m, r⟩, hexec, rfl⟩ := Option.map_eq_some_iff.mp hstep
  rcases h.phase with hg | hr
  · exact absurd hg.free hfree
  obtain ⟨ptr, k, rfl⟩ : ∃ ptr h, m = (s.map.insertAt ptr h).1 := by
    rcases exec_cases hexec with ⟨_, _, hm⟩ | ⟨hnot, _⟩ | ⟨hnot, _⟩
    · exact hm
    · exact absurd hins hnot
    · exact absurd hins hnot
  cases hblocs : s.allocated with
  | nil => exact absurd hblocs hr.nonempty
  | cons b l =>
      have hpath := hr.path
      rw [hblocs] at hpath
      obtain ⟨hhead, htail⟩ := hpath
      have hinsert : s.map.insertAt ptr k = ({ s.map with
          currentbloc := some b
          freebloc := s.map.blocNext b
          pos := Function.update s.map.pos b 0 }.link b ptr k) := by
        unfold State.insertAt State.openBloc State.allocateBloc
        rw [hcurrent, hhead]
      have hbrk : ¬ s.map.brk < (s.map.insertAt ptr k).1.brk := by
        rw [hinsert]
        exact Nat.lt_irrefl _
      intro hconserved
      obtain ⟨alloc, free, halloc, hfree', _, hperm⟩ := hconserved.lists
      dsimp only at halloc hfree' hperm
      rw [if_neg hbrk] at hperm
      rw [hinsert] at halloc hfree'
      have halloc : IsPath s.map.blocNext s.map.allallocatedbloc alloc none := halloc
      have hfree' : IsPath s.map.blocNext (s.map.blocNext b) free none := hfree'
      rw [hr.alloc] at halloc
      obtain rfl : alloc = [] := halloc.unique rfl
      obtain rfl := hfree'.unique htail
      have hlength := hperm.length_eq
      rw [List.nil_append, List.length_cons] at hlength
      omega

end Rounds

/-! ## Runs -/

/-- In every run in which no block is taken back from the free list, the blocks are conserved, and
they are after the next operation when it takes none back either. -/
theorem blocs_conserved [Zero V] {s : Rounds V}
    (hs : roundsSystem.ReachableWhen (fun s op => ¬ Reuses s op) s) :
    Conserved s ∧ ∀ op t, roundsStep s op = some t → (Conserved t ↔ ¬ Reuses s op) := by
  have h : RoundsInv s := by
    induction hs with
    | start hinit => exact .initial hinit
    | next _ hok hstep ih => exact ih.step hok hstep
  refine ⟨h.conserved, fun op t hstep => ⟨fun hconserved hreuse => ?_, fun hok => ?_⟩⟩
  · exact h.lost hreuse hstep hconserved
  · exact (h.step hok hstep).conserved

/-- A map without a block. -/
def emptyRounds : Rounds ℕ where
  map := State.init ⟨fun _ => none, 0, none, none, none, fun _ => none, fun _ => 0, fun _ => 0,
    fun _ => none, fun _ => 0, 0⟩ 0 none
  allocated := []
  room := 0
  inserted := 0
  most := 0

theorem emptyRounds_initial : RoundsInitial emptyRounds :=
  ⟨⟨_, 0, none, rfl, nofun, rfl⟩, rfl, rfl, rfl⟩

/-- Two entries in one block, and a clear. -/
theorem blocs_conserved_oneRound :
    let s := (roundsSystem.replay (fun s op => ¬ Reuses s op) emptyRounds
      [.insert 5, .findinsert 6, .clear]).get (by decide)
    Conserved s ∧ ∀ op t, roundsStep s op = some t → (Conserved t ↔ ¬ Reuses s op) :=
  blocs_conserved ((TransitionSystem.ReachableWhen.start emptyRounds_initial).replay
    (Option.some_get _).symm)

/-- The block of the second round is in no list after the second clear. -/
theorem not_blocs_conserved :
    ¬ ∀ s : Rounds ℕ, roundsSystem.Reachable s → Conserved s := by
  intro hall
  let s := (roundsSystem.run emptyRounds [.insert 5, .clear, .insert 5, .clear]).get (by decide)
  have hs : roundsSystem.Reachable s :=
    .replay (.start emptyRounds_initial) (Option.some_get _).symm
  obtain ⟨alloc, free, halloc, hfree, _, hperm⟩ := (hall s hs).lists
  have hnil : s.map.allallocatedbloc = none ∧ s.map.freebloc = none ∧ s.allocated = [0] := by decide
  rw [hnil.1] at halloc
  rw [hnil.2.1] at hfree
  obtain rfl : alloc = [] := halloc.unique rfl
  obtain rfl : free = [] := hfree.unique rfl
  rw [hnil.2.2] at hperm
  exact absurd hperm.length_eq (by decide)

end Xkblas.Memory.HashMap
