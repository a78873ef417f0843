import Xkblas.Sched.LocalityDomain
import Xkblas.Library.FinLiteral

/-!
# What the registry keeps

As long as the calls are proper, both tables list the attached domains (`Inv`), so the lookups do
too. `registry_sound` adds that the first call that is not proper breaks the promise: it unlocks
without the lock, it is not refused, it changes the registry and fails, or a lookup is wrong
afterwards.
-/

namespace Xkblas.Sched.LocalityDomain

open Library
open scoped Library.FinLiteral
open Library.BitMask

/-! ## Types -/

theorem known_iff {type : BitVec 32} : Known type ↔ ∃ t : LdType, t.code = type := by
  unfold Known
  rw [List.mem_map]
  constructor
  · exact fun ⟨t, _, ht⟩ => ⟨t, ht⟩
  · refine fun ⟨t, ht⟩ => ⟨t, ?_, ht⟩
    cases t <;> decide

namespace LdType

variable {t t' : LdType}

/-- The position of the bit of a type. -/
def index : LdType → ℕ
  | .core => 0
  | .numa => 1
  | .socket => 2
  | .board => 3
  | .gpu => 4

set_option maxRecDepth 8000 in
theorem ffs_code (t : LdType) : ffs t.code = t.index + 1 := by
  cases t <;> decide

theorem refused_code (t : LdType) : refused t.code = false := by
  have hsingle : t.code &&& ~~~allType = 0#32 := by
    cases t with
    | core => rfl
    | numa => rfl
    | socket => rfl
    | board => rfl
    | gpu => rfl
  unfold refused
  rw [hsingle, decide_eq_false (not_not.mpr rfl), Bool.and_false]

theorem index_injective (h : t.index = t'.index) : t = t' := by
  cases t <;> cases t' <;> first | rfl | exact absurd h (by decide)

theorem code_injective (h : t.code = t'.code) : t = t' := by
  have hffs := congrArg ffs h
  rw [ffs_code, ffs_code] at hffs
  exact index_injective (Nat.succ.inj hffs)

end LdType

variable {δ : Type*} {s s' : State δ} {o : Outcome δ} {type : BitVec 32} {t : LdType}
  {parent : Option δ} {ld ld' : δ} {fails : Option Realloc}

/-! ## The invariant -/

/-- Both tables list the attached domains, a domain that has left has no index, and the children are
attached. -/
structure Inv (s : State δ) : Prop where
  map : s.map.Lists s.ldid (HasId s)
  table : ∀ t : LdType, (s.tables t.index).ld.Lists (s.tables t.index).count (HasIndex s t)
  count : ∀ t : LdType, (s.tables t.index).count < 2 ^ 32
  ldid : s.ldid < 2 ^ 64
  known : ∀ ld ∈ s.attached, ∃ f, s.fields ld = some f ∧ ∃ t : LdType, f.type = t.code
  left : ∀ ld ∉ s.attached, ∀ f, s.fields ld = some f → f.idx = 2 ^ 32 - 1
  children : ∀ parent, (s.subld parent).Nodup ∧ ∀ ld, ld ∈ s.subld parent ↔
    ld ∈ s.attached ∧ ∃ f, s.fields ld = some f ∧ f.parent = some parent

theorem inv_start : Inv (start δ) where
  map := PointerTable.Lists.nil.congr fun _ ld => iff_of_false id fun h =>
    absurd h.1 (Finset.notMem_empty ld)
  table := fun _ => PointerTable.Lists.nil.congr fun _ ld => iff_of_false id fun h =>
    absurd h.1 (Finset.notMem_empty ld)
  count := fun _ => Nat.two_pow_pos 32
  ldid := Nat.two_pow_pos 64
  known := fun ld h => absurd h (Finset.notMem_empty ld)
  left := fun _ _ _ h => nomatch h
  children := fun _ => ⟨List.nodup_nil, fun ld => iff_of_false List.not_mem_nil fun h =>
    absurd h.1 (Finset.notMem_empty ld)⟩

theorem getBytype_code (h : s.lddomains ≠ none) (i : ℕ) :
    getBytype s t.code i =
      if (s.tables t.index).count ≤ i then some none else (s.tables t.index).ld.read i := by
  unfold getBytype State.tables
  cases hdomains : s.lddomains with
  | none => exact absurd hdomains h
  | some lddomains =>
      dsimp only
      rw [LdType.refused_code, if_neg Bool.false_ne_true, t.ffs_code, if_neg (Nat.succ_ne_zero _)]
      rfl

theorem getBytype_none (h : s.lddomains = none) (i : ℕ) : getBytype s type i = some none := by
  unfold getBytype
  rw [h]

namespace Inv

theorem sound_getBytype (h : Inv s) (t : LdType) (i : ℕ) :
    ∃ r, getBytype s t.code i = some r ∧ ∀ ld, r = some ld ↔ HasIndex s t i ld := by
  have hnone : (s.tables t.index).count ≤ i → ∀ ld, none = some ld ↔ HasIndex s t i ld :=
    fun hle ld => iff_of_false nofun fun hid => absurd ((h.table t).lt hid) (Nat.not_lt.mpr hle)
  by_cases hdomains : s.lddomains = none
  · refine ⟨none, getBytype_none hdomains i, hnone ?_⟩
    unfold State.tables
    rw [hdomains]
    exact Nat.zero_le i
  · rw [getBytype_code hdomains]
    by_cases hle : (s.tables t.index).count ≤ i
    · rw [if_pos hle]
      exact ⟨none, rfl, hnone hle⟩
    · rw [if_neg hle]
      exact (h.table t).read (Nat.lt_of_not_le hle)

theorem isSound (h : Inv s) : Sound s where
  get := fun ldid => by
    unfold LocalityDomain.get
    by_cases hle : s.ldid ≤ ldid
    · rw [if_pos hle]
      exact ⟨none, rfl, fun ld => iff_of_false nofun fun hid =>
        absurd (h.map.lt hid) (Nat.not_lt.mpr hle)⟩
    · rw [if_neg hle]
      exact h.map.read (Nat.lt_of_not_le hle)
  getBytype := h.sound_getBytype
  getNum := fun t i => by
    obtain ⟨r, hr, hlists⟩ := h.sound_getBytype t i
    unfold LocalityDomain.getNum
    rw [hr]
    cases r with
    | none =>
        refine ⟨_, rfl, fun ld hld => ?_, fun _ => rfl⟩
        exact absurd ((hlists ld).mpr hld) nofun
    | some ld =>
        have hld := (hlists ld).mp rfl
        obtain ⟨f, hf, -, -⟩ := hld.2
        refine ⟨f.ldid, congrArg (Option.map Fields.ldid) hf, fun ld' hld' => ?_, fun hnone => ?_⟩
        · obtain rfl := Option.some.inj ((hlists ld').mpr hld')
          exact ⟨hld.1, f, hf, rfl⟩
        · exact absurd hld (hnone ld)
  children := h.children

end Inv

/-! ## What a call does -/

variable [DecidableEq δ]

/-- What a successful attach with a single known type does. -/
structure Entered (s s' : State δ) (t : LdType) (parent : Option δ) (ld : δ)
    (fails : Option Realloc) : Prop where
  map : ∃ map, s.map.realloc ((s.ldid + 1) % 2 ^ 64) (decide (fails = some .map)) = some map ∧
    s'.map = some (map.set s.ldid (.pointer ld))
  table : ∃ cells, (s.tables t.index).ld.realloc (((s.tables t.index).count + 1) % 2 ^ 32)
      (decide (fails = some .table)) = some cells ∧
    s'.tables = Function.update s.tables t.index
      ⟨((s.tables t.index).count + 1) % 2 ^ 32,
        some (cells.set (s.tables t.index).count (.pointer ld))⟩
  ldid : s'.ldid = (s.ldid + 1) % 2 ^ 64
  fields : s'.fields = Function.update s.fields ld
    (some ⟨t.code, (s.tables t.index).count, s.ldid, parent⟩)
  attached : s'.attached = insert ld s.attached
  subld : ∀ p, s'.subld p = if parent = some p then s.subld p ++ [ld] else s.subld p
  room : parent = none ∨ fails ≠ some .subld

/-- An attach with a single known type increments the count of the type, also when it fails. -/
theorem attach_code (h : attach s t.code parent ld fails = some o) :
    o.took = true ∧ o.released = true ∧
      (o.status = .enomem ∧ o.state.lddomains ≠ none ∧
          (o.state.tables t.index).count = ((s.tables t.index).count + 1) % 2 ^ 32 ∨
        o.status = .ok ∧ Entered s o.state t parent ld fails) := by
  unfold attach at h
  rw [LdType.refused_code, if_neg Bool.false_ne_true, t.ffs_code, if_neg (Nat.succ_ne_zero _)] at h
  simp only [Nat.add_sub_cancel] at h
  split at h
  next =>
    cases h
    refine ⟨rfl, rfl, Or.inl ⟨rfl, nofun, ?_⟩⟩
    show Table.count (Function.update s.tables t.index _ t.index) = _
    rw [Function.update_self]
  next map hmap =>
    split at h
    next =>
      cases h
      refine ⟨rfl, rfl, Or.inl ⟨rfl, nofun, ?_⟩⟩
      have hself : ∀ (tables : ℕ → Table δ) (table : Table δ),
          Function.update tables t.index table t.index = table :=
        fun tables table => Function.update_self t.index table tables
      exact congrArg Table.count (hself _ _)
    next cells hcells =>
      have htables : ∀ table : Table δ,
          Function.update (State.tables { s with
            lddomains := some (Function.update s.tables t.index
              { s.tables t.index with count := ((s.tables t.index).count + 1) % 2 ^ 32 }) })
            t.index table = Function.update s.tables t.index table :=
        fun table => Function.update_idem _ _ _
      split at h
      next =>
        cases h
        refine ⟨rfl, rfl, Or.inr ⟨rfl, ⟨map, hmap, rfl⟩, ⟨cells, hcells, htables _⟩, rfl, rfl, rfl,
          fun p => ?_, Or.inl rfl⟩⟩
        rw [if_neg nofun]
      next parent =>
        split at h
        next => cases h
        next hroom =>
          cases h
          refine ⟨rfl, rfl, Or.inr ⟨rfl, ⟨map, hmap, rfl⟩, ⟨cells, hcells, htables _⟩, rfl, rfl,
            rfl, fun p => ?_, Or.inr hroom⟩⟩
          show Function.update s.subld parent (s.subld parent ++ [ld]) p = _
          by_cases hp : p = parent
          · subst hp
            rw [Function.update_self, if_pos rfl]
          · rw [Function.update_of_ne hp, if_neg fun heq => hp (Option.some.inj heq).symm]

/-- A call that is refused unlocks without the lock, and one that is not refused does not return
`EINVAL`. -/
theorem attach_einval (h : attach s type parent ld fails = some o) :
    o.took ≠ o.released ∨ o.status ≠ .einval := by
  unfold attach at h
  split at h
  · cases h
    exact Or.inl nofun
  · refine Or.inr ?_
    dsimp only at h
    split at h
    · cases h
    · split at h
      · cases h
        nofun
      · split at h
        · cases h
          nofun
        · split at h
          · cases h
            nofun
          · split at h
            · cases h
            · cases h
              nofun

theorem deattach_einval (h : deattach s type ld = some o) :
    o.took ≠ o.released ∨ o.status ≠ .einval := by
  unfold deattach at h
  split at h
  · cases h
    exact Or.inl nofun
  · refine Or.inr ?_
    split at h
    · cases h
    · obtain ⟨lddomains, -, h⟩ := Option.bind_eq_some_iff.mp h
      obtain ⟨fields, -, h⟩ := Option.bind_eq_some_iff.mp h
      obtain ⟨cells, -, h⟩ := Option.bind_eq_some_iff.mp h
      obtain ⟨map, -, h⟩ := Option.map_eq_some_iff.mp h
      cases h
      nofun

omit [DecidableEq δ] in
/-- The count of a single known type. -/
theorem count_code (h : s.lddomains ≠ none) : count s t.code = some (s.tables t.index).count := by
  unfold count State.tables
  cases hdomains : s.lddomains with
  | none => exact absurd hdomains h
  | some lddomains =>
      dsimp only
      rw [LdType.refused_code, if_neg Bool.false_ne_true, t.ffs_code, if_neg (Nat.succ_ne_zero _)]
      rfl

omit [DecidableEq δ] in
theorem count_none (h : s.lddomains = none) : count s type = some (2 ^ 32 - 1) := by
  unfold count
  rw [h]

omit [DecidableEq δ] in
/-- An attach without memory changes the count. -/
theorem Inv.not_same (h : Inv s) (hdomains : s'.lddomains ≠ none)
    (hcount : (s'.tables t.index).count = ((s.tables t.index).count + 1) % 2 ^ 32) :
    ¬ Same s s' := by
  intro hsame
  have hlt := h.count t
  have hsame := hsame.count t.code
  rw [count_code hdomains, hcount] at hsame
  by_cases hnone : s.lddomains = none
  · have hzero : (s.tables t.index).count = 0 := by
      unfold State.tables
      rw [hnone]
      rfl
    rw [count_none hnone, hzero] at hsame
    exact absurd (Option.some.inj hsame) (by decide)
  · rw [count_code hnone] at hsame
    have heq := Option.some.inj hsame
    omega

/-- What a call of `kaapi_localitydomain_deattach` with a single known type does. -/
structure Left (s s' : State δ) (t : LdType) (ld : δ) (f : Fields δ) : Prop where
  fields : s.fields ld = some f
  table : ∃ cells, (s.tables t.index).ld.write f.idx .null = some cells ∧
    s'.tables = Function.update s.tables t.index { s.tables t.index with ld := cells }
  map : s.map.write f.ldid .null = some s'.map
  ldid : s'.ldid = s.ldid
  fields' : s'.fields = Function.update s.fields ld (some { f with idx := 2 ^ 32 - 1 })
  subld : ∀ p, s'.subld p = if f.parent = some p then (s.subld p).erase ld else s.subld p
  attached : s'.attached = s.attached.erase ld

theorem deattach_code (h : deattach s t.code ld = some o) :
    o.took = true ∧ o.released = true ∧ o.status = .ok ∧ o.state.lddomains ≠ none ∧
      ∃ f, Left s o.state t ld f := by
  unfold deattach at h
  rw [LdType.refused_code, if_neg Bool.false_ne_true, t.ffs_code, if_neg (Nat.succ_ne_zero _)] at h
  simp only [Nat.add_sub_cancel] at h
  obtain ⟨lddomains, hdomains, h⟩ := Option.bind_eq_some_iff.mp h
  obtain ⟨f, hf, h⟩ := Option.bind_eq_some_iff.mp h
  obtain ⟨cells, hcells, h⟩ := Option.bind_eq_some_iff.mp h
  obtain ⟨map, hmap, h⟩ := Option.map_eq_some_iff.mp h
  have htables : s.tables = lddomains := by
    unfold State.tables
    rw [hdomains]
    rfl
  subst h
  refine ⟨rfl, rfl, rfl, nofun, f, hf, ⟨cells, ?_, ?_⟩, hmap, rfl, rfl, ?_, rfl⟩
  · rw [htables]
    exact hcells
  · rw [htables]
    rfl
  · intro p
    cases hparent : f.parent with
    | none => exact (if_neg nofun).symm
    | some parent =>
        show Function.update s.subld parent ((s.subld parent).erase ld) p = _
        by_cases hp : p = parent
        · subst hp
          rw [Function.update_self, if_pos rfl]
        · rw [Function.update_of_ne hp, if_neg fun heq => hp (Option.some.inj heq).symm]

namespace Entered

variable (henter : Entered s s' t parent ld fails)

include henter

theorem fields_self :
    s'.fields ld = some ⟨t.code, (s.tables t.index).count, s.ldid, parent⟩ := by
  rw [henter.fields, Function.update_self]

theorem fields_of_ne {d : δ} (hd : d ≠ ld) : s'.fields d = s.fields d := by
  rw [henter.fields, Function.update_of_ne hd]

theorem mem_attached {d : δ} : d ∈ s'.attached ↔ d = ld ∨ d ∈ s.attached := by
  rw [henter.attached, Finset.mem_insert]

/-- The property of the fields of the attached domains, with the new domain. -/
theorem attached_iff (hfresh : ld ∉ s.attached) {P : Fields δ → Prop} {d : δ} :
    (d ∈ s'.attached ∧ ∃ f, s'.fields d = some f ∧ P f) ↔
      d = ld ∧ P ⟨t.code, (s.tables t.index).count, s.ldid, parent⟩ ∨
        d ∈ s.attached ∧ ∃ f, s.fields d = some f ∧ P f := by
  rw [henter.mem_attached]
  by_cases hd : d = ld
  · subst hd
    rw [henter.fields_self]
    constructor
    · intro ⟨_, f, hf, hP⟩
      cases hf
      exact Or.inl ⟨rfl, hP⟩
    · intro h
      rcases h with ⟨_, hP⟩ | ⟨hin, _⟩
      · exact ⟨Or.inl rfl, _, rfl, hP⟩
      · exact absurd hin hfresh
  · rw [henter.fields_of_ne hd]
    constructor
    · intro ⟨hin, hf⟩
      exact Or.inr ⟨hin.resolve_left hd, hf⟩
    · intro h
      rcases h with ⟨heq, _⟩ | ⟨hin, hf⟩
      · exact absurd heq hd
      · exact ⟨Or.inr hin, hf⟩

end Entered

/-- An attach with room keeps the invariant. -/
theorem Inv.attach (h : Inv s) (hfresh : ld ∉ s.attached)
    (hcount : (s.tables t.index).count + 1 < 2 ^ 32) (hldid : s.ldid + 1 < 2 ^ 64)
    (henter : Entered s s' t parent ld fails) : Inv s' := by
  constructor
  case map =>
    obtain ⟨map, hmap, hmap'⟩ := henter.map
    rw [Nat.mod_eq_of_lt hldid] at hmap
    rw [henter.ldid, hmap', Nat.mod_eq_of_lt hldid]
    refine (h.map.push hmap).congr fun i d => ?_
    unfold HasId
    rw [henter.attached_iff hfresh]
    constructor
    · intro hin
      rcases hin with ⟨hi, hd⟩ | ⟨_, hin⟩
      · exact Or.inl ⟨hd, hi.symm⟩
      · exact Or.inr hin
    · intro hin
      rcases hin with ⟨hd, hi⟩ | hin
      · exact Or.inl ⟨hi.symm, hd⟩
      · exact Or.inr ⟨Nat.ne_of_lt (h.map.lt hin), hin⟩
  case table =>
    intro t'
    obtain ⟨cells, hcells, htables⟩ := henter.table
    rw [Nat.mod_eq_of_lt hcount] at hcells htables
    rw [htables]
    by_cases ht : t' = t
    · subst ht
      rw [Function.update_self]
      refine ((h.table t').push hcells).congr fun i d => ?_
      unfold HasIndex
      rw [henter.attached_iff hfresh]
      constructor
      · intro hin
        rcases hin with ⟨hi, hd⟩ | ⟨_, hin⟩
        · exact Or.inl ⟨hd, rfl, hi.symm⟩
        · exact Or.inr hin
      · intro hin
        rcases hin with ⟨hd, _, hi⟩ | hin
        · exact Or.inl ⟨hi.symm, hd⟩
        · exact Or.inr ⟨Nat.ne_of_lt ((h.table t').lt hin), hin⟩
    · rw [Function.update_of_ne fun hidx => ht (LdType.index_injective hidx)]
      refine (h.table t').congr fun i d => ?_
      unfold HasIndex
      rw [henter.attached_iff hfresh]
      constructor
      · exact Or.inr
      · intro hin
        rcases hin with ⟨_, hcode, _⟩ | hin
        · exact absurd (LdType.code_injective hcode).symm ht
        · exact hin
  case count =>
    intro t'
    obtain ⟨cells, -, htables⟩ := henter.table
    rw [htables]
    by_cases ht : t'.index = t.index
    · rw [ht, Function.update_self]
      exact Nat.mod_lt _ (Nat.two_pow_pos 32)
    · rw [Function.update_of_ne ht]
      exact h.count t'
  case ldid =>
    rw [henter.ldid]
    exact Nat.mod_lt _ (Nat.two_pow_pos 64)
  case known =>
    intro d hd
    by_cases hdl : d = ld
    · subst hdl
      exact ⟨_, henter.fields_self, t, rfl⟩
    · rw [henter.fields_of_ne hdl]
      exact h.known d ((henter.mem_attached.mp hd).resolve_left hdl)
  case left =>
    intro d hd f hf
    have hdl : d ≠ ld := fun heq => hd (henter.mem_attached.mpr (Or.inl heq))
    rw [henter.fields_of_ne hdl] at hf
    exact h.left d (fun hin => hd (henter.mem_attached.mpr (Or.inr hin))) f hf
  case children =>
    intro p
    obtain ⟨hnodup, hmem⟩ := h.children p
    have hnew : ld ∉ s.subld p := fun hin => hfresh ((hmem ld).mp hin).1
    rw [henter.subld]
    constructor
    · split
      · refine List.nodup_append.mpr ⟨hnodup, List.nodup_singleton ld, fun a ha b hb => ?_⟩
        rw [List.mem_singleton.mp hb]
        exact fun heq => hnew (heq ▸ ha)
      · exact hnodup
    · intro d
      rw [henter.attached_iff hfresh, ← hmem]
      split
      next hp =>
        rw [List.mem_append, List.mem_singleton, and_iff_left hp]
        exact or_comm
      next hp =>
        constructor
        · exact Or.inr
        · intro hin
          rcases hin with ⟨_, hparent⟩ | hin
          · exact absurd hparent hp
          · exact hin

/-- A domain leaves. -/
theorem Inv.deattach (h : Inv s) {f : Fields δ} (hin : ld ∈ s.attached) (htype : f.type = t.code)
    (hleft : Left s s' t ld f) : Inv s' := by
  have hattached : ∀ {P : Fields δ → Prop} {d : δ},
      (d ∈ s'.attached ∧ ∃ f, s'.fields d = some f ∧ P f) ↔
        d ≠ ld ∧ d ∈ s.attached ∧ ∃ f, s.fields d = some f ∧ P f := by
    intro P d
    rw [hleft.attached, Finset.mem_erase, hleft.fields', and_assoc]
    refine and_congr_right fun hd => ?_
    rw [Function.update_of_ne hd]
  have hid : HasId s f.ldid ld := ⟨hin, f, hleft.fields, rfl⟩
  have hidx : HasIndex s t f.idx ld := ⟨hin, f, hleft.fields, htype, rfl⟩
  obtain ⟨cells, hcells, htables⟩ := hleft.table
  constructor
  case map =>
    rw [hleft.ldid]
    refine (h.map.clear hleft.map).congr fun i d => ?_
    unfold HasId
    rw [hattached]
    refine and_congr_left fun hd => not_congr ⟨fun hi => ?_, fun hdl => ?_⟩
    · subst hi
      exact h.map.unique hd hid
    · subst hdl
      obtain ⟨_, g, hg, hi⟩ := hd
      rw [hleft.fields] at hg
      cases hg
      exact hi.symm
  case table =>
    intro t'
    rw [htables]
    by_cases ht : t' = t
    · subst ht
      rw [Function.update_self]
      refine ((h.table t').clear hcells).congr fun i d => ?_
      unfold HasIndex
      rw [hattached]
      refine and_congr_left fun hd => not_congr ⟨fun hi => ?_, fun hdl => ?_⟩
      · subst hi
        exact (h.table t').unique hd hidx
      · subst hdl
        obtain ⟨_, g, hg, _, hi⟩ := hd
        rw [hleft.fields] at hg
        cases hg
        exact hi.symm
    · rw [Function.update_of_ne fun hidx => ht (LdType.index_injective hidx)]
      refine (h.table t').congr fun i d => ?_
      unfold HasIndex
      rw [hattached]
      refine (and_iff_right_of_imp fun hd hdl => ?_).symm
      subst hdl
      obtain ⟨_, g, hg, hcode, _⟩ := hd
      rw [hleft.fields] at hg
      cases hg
      exact ht (LdType.code_injective (hcode.symm.trans htype))
  case count =>
    intro t'
    rw [htables]
    by_cases ht : t'.index = t.index
    · rw [ht, Function.update_self]
      exact h.count t
    · rw [Function.update_of_ne ht]
      exact h.count t'
  case ldid =>
    rw [hleft.ldid]
    exact h.ldid
  case known =>
    intro d hd
    rw [hleft.attached, Finset.mem_erase] at hd
    rw [hleft.fields', Function.update_of_ne hd.1]
    exact h.known d hd.2
  case left =>
    intro d hd g hg
    rw [hleft.attached, Finset.mem_erase, not_and] at hd
    rw [hleft.fields'] at hg
    by_cases hdl : d = ld
    · subst hdl
      rw [Function.update_self] at hg
      cases hg
      rfl
    · rw [Function.update_of_ne hdl] at hg
      exact h.left d (hd hdl) g hg
  case children =>
    intro p
    obtain ⟨hnodup, hmem⟩ := h.children p
    rw [hleft.subld]
    constructor
    · split
      · exact hnodup.erase ld
      · exact hnodup
    · intro d
      rw [hattached, ← hmem]
      split
      next => exact hnodup.mem_erase_iff
      next hp =>
        refine (and_iff_right_of_imp fun hd hdl => hp ?_).symm
        subst hdl
        obtain ⟨_, g, hg, hparent⟩ := (hmem d).mp hd
        rw [hleft.fields] at hg
        cases hg
        exact hparent

/-! ## Calls -/

/-- With memory, an attach with a single known type is successful. -/
theorem attach_ok
    (hmap : ∃ map, s.map.realloc ((s.ldid + 1) % 2 ^ 64) (decide (fails = some .map)) = some map)
    (htable : ∃ cells, (s.tables t.index).ld.realloc (((s.tables t.index).count + 1) % 2 ^ 32)
      (decide (fails = some .table)) = some cells)
    (hroom : parent = none ∨ fails ≠ some .subld) :
    ∃ o, attach s t.code parent ld fails = some o ∧ o.status = .ok := by
  obtain ⟨map, hmap⟩ := hmap
  obtain ⟨cells, hcells⟩ := htable
  unfold attach
  rw [LdType.refused_code, if_neg Bool.false_ne_true, t.ffs_code, if_neg (Nat.succ_ne_zero _)]
  simp only [Nat.add_sub_cancel, hmap, hcells]
  cases parent with
  | none => exact ⟨_, rfl, rfl⟩
  | some parent =>
      dsimp only
      rw [if_neg (hroom.resolve_left nofun)]
      exact ⟨_, rfl, rfl⟩

/-- The detach of an attached domain is successful. -/
theorem Inv.deattach_ok (h : Inv s) (hin : ld ∈ s.attached) {f : Fields δ}
    (hf : s.fields ld = some f) (ht : f.type = t.code) :
    ∃ o, LocalityDomain.deattach s t.code ld = some o := by
  have hidx : HasIndex s t f.idx ld := ⟨hin, f, hf, ht, rfl⟩
  have hid : HasId s f.ldid ld := ⟨hin, f, hf, rfl⟩
  have htable : f.idx < (s.tables t.index).ld.cells.length := by
    rw [(h.table t).length]
    exact (h.table t).lt hidx
  have hmap : f.ldid < s.map.cells.length := by
    rw [h.map.length]
    exact h.map.lt hid
  unfold LocalityDomain.deattach
  rw [LdType.refused_code, if_neg Bool.false_ne_true, t.ffs_code, if_neg (Nat.succ_ne_zero _)]
  simp only [Nat.add_sub_cancel]
  unfold State.tables at htable
  cases hdomains : s.lddomains with
  | none =>
      rw [hdomains] at htable
      exact absurd htable (Nat.not_lt_zero _)
  | some lddomains =>
      rw [hdomains] at htable
      have hcells := PointerTable.write_of_lt (c := .null) htable
      rw [Option.bind_some, hf, Option.bind_some]
      simp only [Option.getD_some] at hcells
      rw [hcells, Option.bind_some, PointerTable.write_of_lt hmap]
      exact ⟨_, rfl⟩

/-- A proper attach is successful. -/
theorem Proper.entered (hproper : Proper s (.attach t.code parent ld fails)) :
    ∃ o, attach s t.code parent ld fails = some o ∧ o.status = .ok ∧ o.took = o.released ∧
      Entered s o.state t parent ld fails := by
  obtain ⟨_, hfresh, hmemory, hcount, hldid⟩ := hproper
  rw [t.ffs_code, Nat.add_sub_cancel] at hcount
  have hfails : fails ≠ some .map ∧ fails ≠ some .table ∧
      (parent = none ∨ fails ≠ some .subld) := by
    rcases hmemory with rfl | ⟨rfl, hparent⟩
    · exact ⟨nofun, nofun, Or.inr nofun⟩
    · exact ⟨nofun, nofun, Or.inl hparent⟩
  have hmap : ∃ map, s.map.realloc ((s.ldid + 1) % 2 ^ 64) (decide (fails = some .map)) =
      some map := by
    rw [Nat.mod_eq_of_lt hldid]
    exact PointerTable.realloc_isSome.mpr ⟨decide_eq_false hfails.1, Nat.succ_ne_zero _⟩
  have htable : ∃ cells, (s.tables t.index).ld.realloc
      (((s.tables t.index).count + 1) % 2 ^ 32) (decide (fails = some .table)) =
        some cells := by
    rw [Nat.mod_eq_of_lt hcount]
    exact PointerTable.realloc_isSome.mpr ⟨decide_eq_false hfails.2.1, Nat.succ_ne_zero _⟩
  obtain ⟨o, hcall, hok⟩ :
      ∃ o, LocalityDomain.attach s t.code parent ld fails = some o ∧ o.status = .ok :=
    attach_ok hmap htable hfails.2.2
  obtain ⟨htook, hreleased, hend⟩ := attach_code hcall
  rcases hend with ⟨hstatus, -⟩ | ⟨-, henter⟩
  · rw [hok] at hstatus
    cases hstatus
  · exact ⟨o, hcall, hok, htook.trans hreleased.symm, henter⟩

/-- A proper call is correct and keeps the invariant. -/
theorem Inv.correct (h : Inv s) {a : Action δ} (hproper : Proper s a) :
    ∃ o, call s a = some o ∧ Correct a s o ∧ Inv o.state := by
  cases a with
  | attach type parent ld fails =>
      obtain ⟨t, rfl⟩ := known_iff.mp hproper.1
      obtain ⟨o, hcall, hok, hlock, henter⟩ := Proper.entered hproper
      obtain ⟨hknown, hfresh, _, hcount, hldid⟩ := hproper
      rw [t.ffs_code, Nat.add_sub_cancel] at hcount
      have hinv := h.attach hfresh hcount hldid henter
      refine ⟨o, hcall, ⟨hlock, fun hne => absurd hok hne,
        fun type htype hunknown => ?_, hinv.isSound⟩, hinv⟩
      cases htype
      exact absurd hknown hunknown
  | deattach type ld =>
      obtain ⟨hin, htype⟩ := hproper
      obtain ⟨f, hf, t, ht⟩ := h.known ld hin
      obtain rfl : type = t.code := by
        rw [hf] at htype
        exact (Option.some.inj htype).symm.trans ht
      obtain ⟨o, hcall⟩ := h.deattach_ok hin hf ht
      obtain ⟨htook, hreleased, hstatus, -, g, hleft⟩ := deattach_code hcall
      obtain rfl : g = f := Option.some.inj (hleft.fields.symm.trans hf)
      have hinv := h.deattach hin ht hleft
      refine ⟨o, hcall, ⟨htook.trans hreleased.symm, fun hne => absurd hstatus hne,
        fun type htype hunknown => ?_, hinv.isSound⟩, hinv⟩
      cases htype
      exact absurd (known_iff.mpr ⟨t, rfl⟩) hunknown
  | finalize => exact absurd hproper id

/-- An attached domain that is attached again stays under its old identifier too. -/
theorem Inv.not_sound_again (h : Inv s) (hin : ld ∈ s.attached) (hldid : s.ldid + 1 < 2 ^ 64)
    (henter : Entered s s' t parent ld fails) : ¬ Sound s' := by
  intro hsound
  obtain ⟨f, hf, -, -⟩ := h.known ld hin
  have hid : HasId s f.ldid ld := ⟨hin, f, hf, rfl⟩
  have hlt := h.map.lt hid
  obtain ⟨map, hmap, hmap'⟩ := henter.map
  rw [Nat.mod_eq_of_lt hldid] at hmap
  have hread : get s' f.ldid = some (some ld) := by
    unfold get
    rw [henter.ldid, Nat.mod_eq_of_lt hldid, if_neg (by omega), hmap', PointerTable.read_eq_pointer]
    exact ((h.map.push hmap).pointer f.ldid ld).mpr (Or.inr ⟨Nat.ne_of_lt hlt, hid⟩)
  obtain ⟨r, hr, hlists⟩ := hsound.get f.ldid
  rw [hread] at hr
  obtain ⟨-, g, hg, hgid⟩ := (hlists ld).mp (Option.some.inj hr).symm
  rw [henter.fields_self] at hg
  cases hg
  exact absurd hgid.symm (Nat.ne_of_lt hlt)

/-- A domain that leaves under another type stays in the table of its type. -/
theorem Inv.not_sound_other (h : Inv s) (hin : ld ∈ s.attached) {f : Fields δ}
    (hleft : Left s s' t ld f) (hdomains : s'.lddomains ≠ none) {t' : LdType}
    (htype : f.type = t'.code) (hne : t' ≠ t) : ¬ Sound s' := by
  intro hsound
  have hidx : HasIndex s t' f.idx ld := ⟨hin, f, hleft.fields, htype, rfl⟩
  obtain ⟨cells, -, htables⟩ := hleft.table
  have hsame : s'.tables t'.index = s.tables t'.index := by
    rw [htables, Function.update_of_ne fun heq => hne (LdType.index_injective heq)]
  have hread : getBytype s' t'.code f.idx = some (some ld) := by
    rw [getBytype_code hdomains, hsame, if_neg (Nat.not_le.mpr ((h.table t').lt hidx)),
      PointerTable.read_eq_pointer]
    exact ((h.table t').pointer f.idx ld).mpr hidx
  obtain ⟨r, hr, hlists⟩ := hsound.getBytype t' f.idx
  rw [hread] at hr
  have hin' := ((hlists ld).mp (Option.some.inj hr).symm).1
  rw [hleft.attached] at hin'
  exact Finset.notMem_erase ld s.attached hin'

/-- A correct call is proper. -/
theorem Inv.proper (h : Inv s) {a : Action δ} (hcall : call s a = some o)
    (hcorrect : Correct a s o) : Proper s a := by
  cases a with
  | attach type parent ld fails =>
      have hknown : Known type := by
        by_contra hunknown
        have heinval := hcorrect.type type rfl hunknown
        rcases attach_einval hcall with hlock | hstatus
        · exact hlock hcorrect.lock
        · exact hstatus heinval
      refine ⟨hknown, ?_⟩
      obtain ⟨t, rfl⟩ := known_iff.mp hknown
      rw [t.ffs_code, Nat.add_sub_cancel]
      obtain ⟨-, -, hend⟩ := attach_code hcall
      rcases hend with ⟨hstatus, hdomains, hcount⟩ | ⟨-, henter⟩
      · have hsame := hcorrect.error (by rw [hstatus]; nofun)
        exact absurd hsame (h.not_same hdomains hcount)
      · obtain ⟨map, hmap, -⟩ := henter.map
        obtain ⟨cells, hcells, -⟩ := henter.table
        obtain ⟨hmapFails, hldid⟩ := PointerTable.realloc_isSome.mp ⟨map, hmap⟩
        obtain ⟨htableFails, hcount⟩ := PointerTable.realloc_isSome.mp ⟨cells, hcells⟩
        have hldidLt := h.ldid
        have hcountLt := h.count t
        have hldidRoom : s.ldid + 1 < 2 ^ 64 := by omega
        refine ⟨fun hin => ?_, ?_, by omega, hldidRoom⟩
        · exact h.not_sound_again hin hldidRoom henter hcorrect.sound
        · have hroom := henter.room
          cases fails with
          | none => exact Or.inl rfl
          | some fails =>
              refine Or.inr ?_
              cases fails with
              | map => exact absurd hmapFails (by decide)
              | table => exact absurd htableFails (by decide)
              | subld => exact ⟨rfl, hroom.resolve_right (not_not.mpr rfl)⟩
  | deattach type ld =>
      have hknown : Known type := by
        by_contra hunknown
        have heinval := hcorrect.type type rfl hunknown
        rcases deattach_einval hcall with hlock | hstatus
        · exact hlock hcorrect.lock
        · exact hstatus heinval
      obtain ⟨t, rfl⟩ := known_iff.mp hknown
      obtain ⟨-, -, -, hdomains, f, hleft⟩ := deattach_code hcall
      obtain ⟨cells, hcells, -⟩ := hleft.table
      have hin : ld ∈ s.attached := by
        by_contra hout
        -- a domain that has left has the index -1, which is beyond the table
        have hgone := h.left ld hout f hleft.fields
        have hlt := (PointerTable.write_eq_some hcells).1
        rw [(h.table t).length] at hlt
        have hcount := h.count t
        omega
      refine ⟨hin, ?_⟩
      obtain ⟨g, hg, t', ht'⟩ := h.known ld hin
      obtain rfl : g = f := Option.some.inj (hg.symm.trans hleft.fields)
      rw [hg, Option.map_some, ht']
      by_contra hne
      refine h.not_sound_other hin hleft hdomains ht' (fun heq => hne ?_) hcorrect.sound
      rw [heq]
  | finalize =>
      -- the identifier 0 has no entry
      cases hcall
      obtain ⟨r, hr, -⟩ := hcorrect.sound.get 0
      cases hr

/-! ## Main results -/

theorem inv_of_reachable (h : (system δ).ReachableWhen Proper s) : Inv s := by
  refine h.invariant ?_ fun s a s' hinv hproper hstep => ?_
  · rintro s rfl
    exact inv_start
  · obtain ⟨o, hcall, -, hinv'⟩ := hinv.correct hproper
    have hstate : some o.state = some s' := by
      rw [← hstep]
      show _ = (call s a).map Outcome.state
      rw [hcall]
      rfl
    exact Option.some.inj hstate ▸ hinv'

/-- The registry is sound in all runs whose calls are proper, where the calls are correct, and no
other call is. -/
theorem registry_sound (h : (system δ).ReachableWhen Proper s) :
    Sound s ∧ ∀ a, (∃ o, call s a = some o ∧ Correct a s o) ↔ Proper s a := by
  have hinv := inv_of_reachable h
  refine ⟨hinv.isSound, fun a => ⟨fun ⟨o, hcall, hcorrect⟩ => hinv.proper hcall hcorrect, ?_⟩⟩
  intro hproper
  obtain ⟨o, hcall, hcorrect, -⟩ := hinv.correct hproper
  exact ⟨o, hcall, hcorrect⟩

/-- The domain of the host and two domains of GPUs below it are attached, and the first GPU is
detached. -/
def hostAndGpus : List (Action (Fin 3)) :=
  [.attach 0x02#32 none 0 none, .attach 0x10#32 (some 0) 1 none, .attach 0x10#32 (some 0) 2 none,
    .deattach 0x10#32 1]

set_option maxRecDepth 20000 in
theorem registry_sound_hostAndGpus :
    ∃ s, (system (Fin 3)).replay Proper (start (Fin 3)) hostAndGpus = some s ∧ Sound s ∧
      ∃ o, call s (.attach 0x10#32 none 1 none) = some o ∧
        Correct (.attach 0x10#32 none 1 none) s o := by
  let s := ((system (Fin 3)).replay Proper (start (Fin 3)) hostAndGpus).get (by decide)
  have hrun : (system (Fin 3)).replay Proper (start (Fin 3)) hostAndGpus = some s :=
    (Option.some_get _).symm
  have hsound := registry_sound (.replay (.start rfl) hrun)
  exact ⟨s, hrun, hsound.1, (hsound.2 _).mpr (by decide)⟩

set_option maxRecDepth 8000 in
/-- An unknown type is refused by a call that unlocks without the lock, the types of two domains at
once are accepted, an attach without memory takes an identifier, and after
`kaapi_localitydomain_finalize` the identifier 0 is looked up in no table. -/
theorem registry_not_sound :
    (∃ o, call (start (Fin 1)) (.attach 0x20#32 none 0 none) = some o ∧ o.took ≠ o.released) ∧
      (∃ o, call (start (Fin 1)) (.attach 0x03#32 none 0 none) = some o ∧ ¬ Known 0x03#32 ∧
        o.status = .ok) ∧
      (∃ o, call (start (Fin 1)) (.attach 0x10#32 none 0 (some .map)) = some o ∧
        o.status = .enomem ∧ o.state.ldid ≠ (start (Fin 1)).ldid) ∧
      get (finalize (start (Fin 1))).state 0 = none := by
  have hunknown : refused 0x20#32 = true := by decide
  have hboth : refused 0x03#32 = false := by decide
  have hfirst : ffs 0x03#32 = 1 := by decide
  refine ⟨?_, ?_, ?_, rfl⟩
  · refine ⟨⟨.einval, false, true, start (Fin 1)⟩, ?_, nofun⟩
    rw [call, attach, if_pos hunknown]
  · simp only [call]
    rw [attach, hboth, if_neg Bool.false_ne_true, hfirst, if_neg Nat.one_ne_zero]
    exact ⟨_, rfl, by decide, rfl⟩
  · have hrefused : refused 0x10#32 = false := LdType.gpu.refused_code
    have hgpu : ffs 0x10#32 = 5 := LdType.gpu.ffs_code
    simp only [call]
    rw [attach, hrefused, if_neg Bool.false_ne_true, hgpu, if_neg (Nat.succ_ne_zero _)]
    exact ⟨_, rfl, rfl, nofun⟩

end Xkblas.Sched.LocalityDomain
