import Mathlib.Algebra.BigOperators.Group.List.Basic
import Mathlib.Data.Fintype.Card
import Xkblas.Sched.Locality
import Xkblas.Sched.LocalityDomainSafety
import Xkblas.Library.FinLiteral

/-!
# When tasks are placed where their data are

In every cycle the domains of the GPUs have the numbers of their memories, and the host has the
domain 0 in the first cycle and 1 in the others, where the cell 0 of the table is never written.
`placed_iff` says what this means for the three functions that choose a domain.
-/

namespace Xkblas.Sched.Locality

open Library
open scoped Library.FinLiteral
open Library.BitMask
open LocalityDomain (LdType Fields HasId Entered Left get)
open Memory.Source (Bits Random getRandomBit1 getRandomBit1_spec)

/-! ## The table of the domains -/

section

variable {δ : Type*} [DecidableEq δ] {r r' : LocalityDomain.State δ} {t : LdType} {d : δ}

/-- There is memory for a new domain. -/
theorem config_spec (hcount : ∀ t : LdType, (r.tables t.index).count ≤ r.ldid)
    (hldid : r.ldid < 2 ^ 16) (h : config r t d = some r') : Entered r r' t none d none := by
  obtain ⟨o, ho, rfl⟩ := Option.map_eq_some_iff.mp h
  have hle := hcount t
  have hmap : ∃ map, r.map.realloc ((r.ldid + 1) % 2 ^ 64)
      (decide ((none : Option LocalityDomain.Realloc) = some .map)) = some map :=
    PointerTable.realloc_isSome.mpr ⟨rfl, by omega⟩
  have htable : ∃ cells, (r.tables t.index).ld.realloc (((r.tables t.index).count + 1) % 2 ^ 32)
      (decide ((none : Option LocalityDomain.Realloc) = some .table)) = some cells :=
    PointerTable.realloc_isSome.mpr ⟨rfl, by omega⟩
  obtain ⟨o', ho', hok⟩ : ∃ o, LocalityDomain.attach r t.code none d none = some o ∧
      o.status = .ok := LocalityDomain.attach_ok hmap htable (Or.inl rfl)
  rw [ho] at ho'
  cases ho'
  obtain ⟨-, -, hfailed | hentered⟩ := LocalityDomain.attach_code ho
  · rw [hok] at hfailed
    cases hfailed.1
  · exact hentered.2

/-- The cells of the table after an attach. -/
theorem cells_entered (henter : Entered r r' t none d none)
    (hlength : r.map.cells.length ≤ r.ldid) (hldid : r.ldid < 2 ^ 16) (i : ℕ) :
    r'.map.cells[i]? =
      if i = r.ldid then some (.pointer d)
      else if i < r.map.cells.length then r.map.cells[i]?
      else if i < r.ldid then some .uninit
      else none := by
  obtain ⟨map, hmap, hmap'⟩ := henter.map
  rw [Nat.mod_eq_of_lt (by omega)] at hmap
  have hcells := PointerTable.cells_realloc hmap
  rw [List.take_of_length_le (by omega)] at hcells
  have hlength' : map.length = r.ldid + 1 := by
    rw [hcells, List.length_append, List.length_replicate]
    omega
  rw [hmap']
  show (map.set r.ldid (.pointer d))[i]? = _
  by_cases hi : i = r.ldid
  · subst hi
    rw [if_pos rfl, List.getElem?_set_self (by omega)]
  · rw [if_neg hi, List.getElem?_set_ne (Ne.symm hi), hcells]
    by_cases hold : i < r.map.cells.length
    · rw [if_pos hold, List.getElem?_append_left hold]
    · rw [if_neg hold, List.getElem?_append_right (Nat.le_of_not_lt hold)]
      by_cases hlt : i < r.ldid
      · rw [if_pos hlt]
        exact List.getElem?_replicate_of_lt (by omega)
      · rw [if_neg hlt]
        exact List.getElem?_eq_none (by rw [List.length_replicate]; omega)

/-- The table points to the attached domains after an attach too. -/
theorem pointer_entered (henter : Entered r r' t none d none) (hfresh : d ∉ r.attached)
    (hlength : r.map.cells.length ≤ r.ldid) (hldid : r.ldid < 2 ^ 16)
    (hpointer : ∀ (i : ℕ) x, r.map.cells[i]? = some (.pointer x) ↔ HasId r i x) (i : ℕ) (x : δ) :
    r'.map.cells[i]? = some (.pointer x) ↔ HasId r' i x := by
  have hid : HasId r' i x ↔ x = d ∧ r.ldid = i ∨ HasId r i x :=
    henter.attached_iff hfresh (P := fun f => f.ldid = i)
  rw [hid, cells_entered henter hlength hldid]
  by_cases hi : i = r.ldid
  · subst hi
    have hnone : ¬ HasId r r.ldid x := by
      rw [← hpointer, List.getElem?_eq_none hlength]
      nofun
    rw [if_pos rfl]
    constructor
    · intro heq
      cases heq
      exact Or.inl ⟨rfl, rfl⟩
    · intro heq
      rw [(heq.resolve_right hnone).1]
  · rw [if_neg hi]
    have hnew : ¬ (x = d ∧ r.ldid = i) := fun heq => hi heq.2.symm
    rw [or_iff_right hnew, ← hpointer]
    by_cases hold : i < r.map.cells.length
    · rw [if_pos hold]
    · rw [if_neg hold, List.getElem?_eq_none (Nat.le_of_not_lt hold)]
      refine iff_of_false (fun heq => ?_) nofun
      split at heq
      · cases heq
      · cases heq

end

/-! ## The invariant -/

section

variable {δ : Type*} [DecidableEq δ] {s s' : State δ} {d target : δ} {i lid ldid : ℕ}

/-- The identifier of the host in this cycle. -/
def State.base (s : State δ) : ℕ :=
  if s.cycle = 0 then 0 else 1

omit [DecidableEq δ] in
theorem State.base_le (s : State δ) : s.base ≤ 1 := by
  unfold State.base
  split
  · exact Nat.zero_le 1
  · exact Nat.le_refl 1

/-- While the runtime is not stopped, the table has the cells up to the next identifier, and only
those before the host are not written. A GPU has the memory of its identifier. -/
structure Inv (s : State δ) : Prop where
  length : s.registry.map.cells.length = if s.phase = .stopped then 0 else s.registry.ldid
  pointer : ∀ (i : ℕ) d, s.registry.map.cells[i]? = some (.pointer d) ↔ HasId s.registry i d
  uninit : ∀ i : ℕ, s.registry.map.cells[i]? = some .uninit ↔ i < s.base ∧ s.phase ≠ .stopped
  ldid : s.registry.ldid = if s.phase = .stopped then s.base else s.base + 1 + s.gpus
  gpus : s.gpus ≤ 255
  count : ∀ t : LdType, (s.registry.tables t.index).count ≤ s.registry.ldid
  known : ∀ d ∈ s.registry.attached, ∃ f, s.registry.fields d = some f ∧
    if s.host = some d then f.ldid = s.base else s.base < f.ldid
  stopped : s.phase = .stopped → s.registry.attached = ∅
  host : s.phase = .running → ∀ d, s.host = some d → d ∈ s.registry.attached
  asid : ∀ d lid, s.asid d = some lid → d ∈ s.registry.attached ∧
    ∃ f, s.registry.fields d = some f ∧ lid = if s.host = some d then 0 else f.ldid

theorem inv_start : Inv (start δ) where
  length := rfl
  pointer := fun _ d => iff_of_false nofun fun hid => absurd hid.1 (Finset.notMem_empty d)
  uninit := fun _ => iff_of_false nofun fun hlt => absurd hlt.1 (Nat.not_lt_zero _)
  ldid := rfl
  gpus := Nat.zero_le 255
  count := fun _ => Nat.le_refl 0
  known := fun d hd => absurd hd (Finset.notMem_empty d)
  stopped := fun _ => rfl
  host := fun _ _ => nofun
  asid := fun _ _ => nofun

namespace Inv

theorem ldid_lt (h : Inv s) : s.registry.ldid < 2 ^ 16 := by
  have hgpus := h.gpus
  have hbase := s.base_le
  rw [h.ldid]
  split
  · omega
  · omega

theorem length_le (h : Inv s) : s.registry.map.cells.length ≤ s.registry.ldid := by
  rw [h.length]
  split
  · exact Nat.zero_le _
  · exact Nat.le_refl _

/-- An identifier is below the next one. -/
theorem lt_of_hasId (h : Inv s) (hid : HasId s.registry i d) : i < s.registry.ldid := by
  have hget := (h.pointer i d).mpr hid
  exact Nat.lt_of_lt_of_le (List.getElem?_eq_some_iff.mp hget).1 h.length_le

end Inv

namespace Inv

/-- A new domain gets the next identifier. -/
theorem config (h : Inv s) {t : LdType} {r : LocalityDomain.State δ}
    (hfresh : d ∉ s.registry.attached) (hconfig : Locality.config s.registry t d = some r) :
    Entered s.registry r t none d none ∧ r.ldid = s.registry.ldid + 1 ∧
      (∀ (i : ℕ) x, r.map.cells[i]? = some (.pointer x) ↔ HasId r i x) ∧
        r.map.cells.length = s.registry.ldid + 1 ∧
          ∀ t : LdType, (r.tables t.index).count ≤ s.registry.ldid + 1 := by
  have hlt := h.ldid_lt
  have henter := config_spec h.count hlt hconfig
  have hldid : r.ldid = s.registry.ldid + 1 := by
    rw [henter.ldid, Nat.mod_eq_of_lt (by omega)]
  refine ⟨henter, hldid, pointer_entered henter hfresh h.length_le hlt h.pointer, ?_, ?_⟩
  · obtain ⟨map, hmap, hmap'⟩ := henter.map
    rw [Nat.mod_eq_of_lt (by omega)] at hmap
    have hcells := PointerTable.cells_realloc hmap
    have hlength := h.length_le
    rw [hmap']
    show (map.set _ _).length = _
    rw [List.length_set, hcells, List.length_append, List.length_take, List.length_replicate]
    omega
  · intro t'
    obtain ⟨cells, -, htables⟩ := henter.table
    have hcount := h.count t
    have hcount' := h.count t'
    rw [htables]
    by_cases ht : t'.index = t.index
    · rw [ht, Function.update_self]
      exact Nat.le_trans (Nat.mod_le _ _) (by omega)
    · rw [Function.update_of_ne ht]
      omega

theorem configHost (h : Inv s) (hstep : step s (.configHost d) = some s') : Inv s' := by
  simp only [step] at hstep
  split at hstep
  next hguard =>
    obtain ⟨hstopped, hfresh⟩ := hguard
    obtain ⟨r, hconfig, rfl⟩ := Option.map_eq_some_iff.mp hstep
    obtain ⟨henter, hldid, hpointer, hlength, hcount⟩ := h.config hfresh hconfig
    have hlength₀ : s.registry.map.cells.length = 0 := by rw [h.length, if_pos hstopped]
    have hbase : s.registry.ldid = s.base := by rw [h.ldid, if_pos hstopped]
    have hempty := h.stopped hstopped
    have hattached : ∀ d', d' ∈ r.attached → d' = d := by
      intro d' hd'
      rw [henter.mem_attached, hempty] at hd'
      exact hd'.resolve_right (Finset.notMem_empty d')
    constructor
    case length => exact hlength.trans hldid.symm
    case pointer => exact hpointer
    case uninit =>
      intro i
      refine Iff.trans ?_ (and_iff_left (b := Phase.running ≠ .stopped) nofun).symm
      show r.map.cells[i]? = _ ↔ i < s.base
      rw [cells_entered henter h.length_le h.ldid_lt, hlength₀, hbase,
        if_neg (Nat.not_lt_zero i)]
      by_cases hi : i = s.base
      · rw [if_pos hi]
        exact iff_of_false nofun (by omega)
      · rw [if_neg hi]
        by_cases hlt : i < s.base
        · rw [if_pos hlt]
          exact iff_of_true rfl hlt
        · rw [if_neg hlt]
          exact iff_of_false nofun hlt
    case ldid => exact hldid.trans (congrArg Nat.succ hbase)
    case gpus => exact Nat.zero_le 255
    case count => exact fun t => (hcount t).trans_eq hldid.symm
    case known =>
      intro d' hd'
      obtain rfl := hattached d' hd'
      refine ⟨_, henter.fields_self, ?_⟩
      rw [if_pos rfl]
      exact hbase
    case stopped => exact nofun
    case host =>
      intro _ d' hd'
      cases hd'
      exact henter.mem_attached.mpr (Or.inl rfl)
    case asid =>
      intro d' lid hlid
      have hin := (h.asid d' lid hlid).1
      rw [hempty] at hin
      exact absurd hin (Finset.notMem_empty d')
  next => cases hstep

theorem configGpu (h : Inv s) (hstep : step s (.configGpu d) = some s') : Inv s' := by
  simp only [step] at hstep
  split at hstep
  next hguard =>
    obtain ⟨hrunning, hgpus, hfresh⟩ := hguard
    obtain ⟨r, hconfig, rfl⟩ := Option.map_eq_some_iff.mp hstep
    obtain ⟨henter, hldid, hpointer, hlength, hcount⟩ := h.config hfresh hconfig
    have hphase : s.phase ≠ .stopped := by
      rw [hrunning]
      nofun
    have hlength₀ : s.registry.map.cells.length = s.registry.ldid := by
      rw [h.length, if_neg hphase]
    have hbase : s.registry.ldid = s.base + 1 + s.gpus := by rw [h.ldid, if_neg hphase]
    have hhost : s.host ≠ some d := fun heq => hfresh (h.host hrunning d heq)
    constructor
    case length =>
      show r.map.cells.length = if s.phase = .stopped then 0 else r.ldid
      rw [if_neg hphase, hlength, hldid]
    case pointer => exact hpointer
    case uninit =>
      intro i
      show r.map.cells[i]? = _ ↔ i < s.base ∧ s.phase ≠ .stopped
      rw [cells_entered henter h.length_le h.ldid_lt, hlength₀, ← h.uninit]
      by_cases hi : i = s.registry.ldid
      · rw [if_pos hi, h.uninit]
        exact iff_of_false nofun (by omega)
      · rw [if_neg hi]
        by_cases hlt : i < s.registry.ldid
        · rw [if_pos hlt]
        · rw [if_neg hlt, if_neg hlt, h.uninit]
          exact iff_of_false nofun (by omega)
    case ldid =>
      show r.ldid = if s.phase = .stopped then s.base else s.base + 1 + (s.gpus + 1)
      rw [if_neg hphase, hldid, hbase]
      omega
    case gpus => exact hgpus
    case count => exact fun t => (hcount t).trans_eq hldid.symm
    case known =>
      intro d' hd'
      show ∃ f, r.fields d' = some f ∧ if s.host = some d' then f.ldid = s.base else s.base < f.ldid
      by_cases heq : d' = d
      · subst heq
        refine ⟨_, henter.fields_self, ?_⟩
        rw [if_neg hhost]
        show s.base < s.registry.ldid
        omega
      · rw [henter.fields_of_ne heq]
        exact h.known d' ((henter.mem_attached.mp hd').resolve_left heq)
    case stopped => exact fun hstopped => absurd hstopped hphase
    case host => exact fun _ d' hd' => henter.mem_attached.mpr (Or.inr (h.host hrunning d' hd'))
    case asid =>
      intro d' lid hlid
      obtain ⟨hin, f, hf, hlid⟩ := h.asid d' lid hlid
      have hne : d' ≠ d := fun heq => hfresh (heq ▸ hin)
      refine ⟨henter.mem_attached.mpr (Or.inr hin), f, ?_, hlid⟩
      rw [henter.fields_of_ne hne]
      exact hf
  next => cases hstep

end Inv

/-- A registration sets the identifier of the memory, and may enter a node. -/
theorem registerDevice_spec (h : registerDevice s d ldid = some s') :
    ∃ nodes, s' = { s with
      asid := Function.update s.asid d (some (if s.host = some d then 0 else ldid % 2 ^ 16))
      nodes } := by
  unfold registerDevice at h
  generalize (if s.host = some d then 0 else ldid % 2 ^ 16) = lid at h ⊢
  dsimp only at h
  split at h
  · cases h
    exact ⟨_, rfl⟩
  · split at h
    · split at h
      · cases h
        exact ⟨_, rfl⟩
      · cases h
    · cases h
      exact ⟨_, rfl⟩

namespace Inv

theorem register (h : Inv s) (hstep : step s (.register d) = some s') : Inv s' := by
  simp only [step] at hstep
  split at hstep
  next hguard =>
    obtain ⟨f, hf, hstep⟩ := Option.bind_eq_some_iff.mp hstep
    obtain ⟨nodes, rfl⟩ := registerDevice_spec hstep
    have hid : HasId s.registry f.ldid d := ⟨hguard.1, f, hf, rfl⟩
    have hlt := Nat.lt_trans (h.lt_of_hasId hid) h.ldid_lt
    refine { h with asid := fun d' lid hlid => ?_ }
    by_cases hd : d' = d
    · subst hd
      have hlid : Function.update s.asid d' _ d' = some lid := hlid
      rw [Function.update_self, Nat.mod_eq_of_lt hlt] at hlid
      exact ⟨hguard.1, f, hf, (Option.some.inj hlid).symm⟩
    · have hlid : Function.update s.asid d _ d' = some lid := hlid
      rw [Function.update_of_ne hd] at hlid
      exact h.asid d' lid hlid
  next => cases hstep

theorem stop (h : Inv s) (hstep : step s .stop = some s') : Inv s' := by
  simp only [step] at hstep
  split at hstep
  next hrunning =>
    cases hstep
    have hphase : s.phase ≠ .stopped := by
      rw [hrunning]
      nofun
    refine { h with
      length := ?_, uninit := fun i => ?_, ldid := ?_, stopped := nofun, host := nofun }
    · show _ = s.registry.ldid
      rw [h.length, if_neg hphase]
    · rw [h.uninit]
      exact and_congr_right fun _ => iff_of_true hphase nofun
    · show _ = s.base + 1 + s.gpus
      rw [h.ldid, if_neg hphase]
  next => cases hstep

theorem leave (h : Inv s) (hstep : step s (.leave d) = some s') : Inv s' := by
  simp only [step] at hstep
  split at hstep
  next hstopping =>
    obtain ⟨lid, hlid, hstep⟩ := Option.bind_eq_some_iff.mp hstep
    obtain ⟨nodes, hnodes, hstep⟩ := Option.bind_eq_some_iff.mp hstep
    obtain ⟨o, ho, rfl⟩ := Option.map_eq_some_iff.mp hstep
    obtain ⟨-, -, -, -, f, hleft⟩ := LocalityDomain.deattach_code ho
    obtain ⟨hlt, hcells⟩ := PointerTable.write_eq_some hleft.map
    have hin := (h.asid d lid hlid).1
    have hfields : ∀ d' ≠ d, o.state.fields d' = s.registry.fields d' := fun d' hd' => by
      rw [hleft.fields', Function.update_of_ne hd']
    have hattached : ∀ d', d' ∈ o.state.attached ↔ d' ≠ d ∧ d' ∈ s.registry.attached := fun d' => by
      rw [hleft.attached, Finset.mem_erase]
    have hid : ∀ (i : ℕ) d', HasId o.state i d' ↔ d' ≠ d ∧ HasId s.registry i d' := by
      intro i d'
      unfold HasId
      rw [hattached, and_assoc]
      refine and_congr_right fun hd' => ?_
      rw [hfields d' hd']
    constructor
    case length =>
      show o.state.map.cells.length = if s.phase = .stopped then 0 else o.state.ldid
      rw [hcells, List.length_set, hleft.ldid, h.length]
    case pointer =>
      intro i d'
      show o.state.map.cells[i]? = _ ↔ HasId o.state i d'
      rw [hid, hcells]
      by_cases hi : i = f.ldid
      · subst hi
        rw [List.getElem?_set_self hlt]
        refine iff_of_false nofun fun ⟨hne, hold⟩ => hne ?_
        -- Two domains with one identifier.
        have hd := (h.pointer f.ldid d).mpr ⟨hin, f, hleft.fields, rfl⟩
        rw [(h.pointer f.ldid d').mpr hold] at hd
        cases hd
        rfl
      · rw [List.getElem?_set_ne (Ne.symm hi), h.pointer]
        refine (and_iff_right_of_imp fun hold heq => hi ?_).symm
        obtain ⟨-, g, hg, hgi⟩ := hold
        rw [heq, hleft.fields] at hg
        cases hg
        exact hgi.symm
    case uninit =>
      intro i
      show o.state.map.cells[i]? = _ ↔ i < s.base ∧ s.phase ≠ .stopped
      rw [hcells]
      by_cases hi : i = f.ldid
      · subst hi
        rw [List.getElem?_set_self hlt, ← h.uninit,
          (h.pointer f.ldid d).mpr ⟨hin, f, hleft.fields, rfl⟩]
        exact iff_of_false nofun nofun
      · rw [List.getElem?_set_ne (Ne.symm hi), h.uninit]
    case ldid =>
      show o.state.ldid = if s.phase = .stopped then s.base else s.base + 1 + s.gpus
      rw [hleft.ldid, h.ldid]
    case gpus => exact h.gpus
    case count =>
      intro t
      obtain ⟨cells, -, htables⟩ := hleft.table
      show (o.state.tables t.index).count ≤ o.state.ldid
      rw [hleft.ldid, htables]
      by_cases ht : t.index = LdType.gpu.index
      · rw [ht, Function.update_self]
        exact h.count .gpu
      · rw [Function.update_of_ne ht]
        exact h.count t
    case known =>
      intro d' hd'
      obtain ⟨hne, hd'⟩ := (hattached d').mp hd'
      show ∃ f, o.state.fields d' = some f ∧ _
      rw [hfields d' hne]
      exact h.known d' hd'
    case stopped =>
      intro hstopped
      have hstopped : s.phase = .stopped := hstopped
      rw [hstopping] at hstopped
      cases hstopped
    case host =>
      intro hrunning
      have hrunning : s.phase = .running := hrunning
      rw [hstopping] at hrunning
      cases hrunning
    case asid =>
      intro d' lid' hlid'
      have hlid' : Function.update s.asid d none d' = some lid' := hlid'
      by_cases hd : d' = d
      · rw [hd, Function.update_self] at hlid'
        cases hlid'
      · rw [Function.update_of_ne hd] at hlid'
        obtain ⟨hin', hf'⟩ := h.asid d' lid' hlid'
        refine ⟨(hattached d').mpr ⟨hd, hin'⟩, ?_⟩
        show ∃ f, o.state.fields d' = some f ∧ _
        rw [hfields d' hd]
        exact hf'
  next => cases hstep

theorem finalize (h : Inv s) (hstep : step s .finalize = some s') : Inv s' := by
  simp only [step] at hstep
  split at hstep
  next hguard =>
    obtain ⟨_, hnodes, rfl⟩ := Option.map_eq_some_iff.mp hstep
    constructor
    case length => rfl
    case pointer =>
      exact fun i d => iff_of_false nofun fun hid => absurd hid.1 (Finset.notMem_empty d)
    case uninit => exact fun i => iff_of_false nofun fun hphase => hphase.2 rfl
    case ldid => rfl
    case gpus => exact Nat.zero_le 255
    case count => exact fun _ => Nat.zero_le 1
    case known => exact fun d hd => absurd hd (Finset.notMem_empty d)
    case stopped => exact fun _ => rfl
    case host => nofun
    case asid =>
      intro d lid hlid
      have hin := (h.asid d lid hlid).1
      rw [hguard.2] at hin
      exact absurd hin (Finset.notMem_empty d)
  next => cases hstep

end Inv

theorem inv_of_reachable (h : (system δ).Reachable s) : Inv s := by
  refine h.invariant ?_ fun s a s' hinv _ hstep => ?_
  · rintro s rfl
    exact inv_start
  · cases a with
    | configHost d => exact hinv.configHost hstep
    | configGpu d => exact hinv.configGpu hstep
    | register d => exact hinv.register hstep
    | stop => exact hinv.stop hstep
    | leave d => exact hinv.leave hstep
    | finalize => exact hinv.finalize hstep

/-! ## Lookups -/

namespace Inv

/-- The lookup of an identifier is defined from that of the host on. -/
theorem get_of_base_le (h : Inv s) (hphase : s.phase ≠ .stopped) (hi : s.base ≤ i) :
    ∃ ld, get s.registry i = some ld ∧ ∀ d, ld = some d ↔ HasId s.registry i d := by
  unfold LocalityDomain.get
  by_cases hle : s.registry.ldid ≤ i
  · rw [if_pos hle]
    exact ⟨none, rfl, fun d => iff_of_false nofun fun hid =>
      absurd (h.lt_of_hasId hid) (Nat.not_lt.mpr hle)⟩
  · rw [if_neg hle]
    have hlt : i < s.registry.map.cells.length := by
      rw [h.length, if_neg hphase]
      exact Nat.lt_of_not_le hle
    have hget := List.getElem?_eq_getElem hlt
    unfold PointerTable.read
    rw [hget]
    cases hcell : s.registry.map.cells[i] with
    | uninit =>
        rw [hcell] at hget
        exact absurd ((h.uninit i).mp hget).1 (Nat.not_lt.mpr hi)
    | null =>
        refine ⟨none, rfl, fun d => iff_of_false nofun fun hid => ?_⟩
        rw [← h.pointer, hget, hcell] at hid
        cases hid
    | pointer x =>
        refine ⟨some x, rfl, fun d => ?_⟩
        rw [← h.pointer, hget, hcell]
        constructor
        · intro heq
          cases heq
          rfl
        · intro heq
          cases heq
          rfl

/-- In a later cycle the cell 0 is not written. -/
theorem get_zero (h : Inv s) (hphase : s.phase ≠ .stopped) (hcycle : s.cycle ≠ 0) :
    get s.registry 0 = none := by
  have hbase : s.base = 1 := if_neg hcycle
  have hldid := h.ldid
  rw [if_neg hphase] at hldid
  have hcell := (h.uninit 0).mpr ⟨by omega, hphase⟩
  unfold LocalityDomain.get PointerTable.read
  rw [if_neg (by omega), hcell]

/-- A registered device is there. -/
theorem phase_of_asid (h : Inv s) (hlid : s.asid d = some lid) : s.phase ≠ .stopped := by
  intro hstopped
  have hin := (h.asid d lid hlid).1
  rw [h.stopped hstopped] at hin
  exact absurd hin (Finset.notMem_empty d)

/-- The domain of the memory of a GPU is that of the GPU. -/
theorem get_gpu (h : Inv s) (hlid : s.asid d = some lid) (hhost : s.host ≠ some d) :
    get s.registry lid = some (some d) := by
  obtain ⟨hin, f, hf, heq⟩ := h.asid d lid hlid
  rw [if_neg hhost] at heq
  obtain ⟨g, hg, hbase⟩ := h.known d hin
  rw [hf] at hg
  cases hg
  rw [if_neg hhost] at hbase
  obtain ⟨ld, hget, hld⟩ := h.get_of_base_le (h.phase_of_asid hlid) (i := lid) (by omega)
  rw [hget, (hld d).mpr ⟨hin, f, hf, heq.symm⟩]

/-- The domain of the memory of the host is that of the host in the first cycle only. -/
theorem get_host_iff (h : Inv s) (hlid : s.asid d = some lid) (hhost : s.host = some d) :
    get s.registry lid = some (some d) ↔ s.cycle = 0 := by
  obtain ⟨hin, f, hf, heq⟩ := h.asid d lid hlid
  rw [if_pos hhost] at heq
  subst heq
  have hphase := h.phase_of_asid hlid
  by_cases hcycle : s.cycle = 0
  · refine iff_of_true ?_ hcycle
    have hbase : s.base = 0 := if_pos hcycle
    obtain ⟨g, hg, hldid⟩ := h.known d hin
    rw [hf] at hg
    cases hg
    rw [if_pos hhost, hbase] at hldid
    obtain ⟨ld, hget, hld⟩ := h.get_of_base_le hphase (Nat.le_of_eq hbase)
    rw [hget, (hld d).mpr ⟨hin, f, hf, hldid⟩]
  · refine iff_of_false (fun hget => ?_) hcycle
    rw [h.get_zero hphase hcycle] at hget
    cases hget

/-- A memory is that of a GPU or of the host. -/
theorem get_iff (h : Inv s) :
    (∀ d lid, s.asid d = some lid → get s.registry lid = some (some d)) ↔
      ∀ d, s.host = some d → s.asid d ≠ none → s.cycle = 0 := by
  constructor
  · intro hget d hhost hregistered
    obtain ⟨lid, hlid⟩ := Option.ne_none_iff_exists'.mp hregistered
    exact (h.get_host_iff hlid hhost).mp (hget d lid hlid)
  · intro hfirst d lid hlid
    by_cases hhost : s.host = some d
    · refine (h.get_host_iff hlid hhost).mpr (hfirst d hhost ?_)
      rw [hlid]
      nofun
    · exact h.get_gpu hlid hhost

end Inv

/-! ## The affinity score -/

/-- The bytes that a replica counts for. -/
def Param.weight (p : Param) (data : Data) (lid : ℕ) : ℕ :=
  if p.read && p.write then data.size lid * 2 else data.size lid

/-- The target counts the replicas of the memory before its identifier. -/
theorem addReplica_spec (h : Inv s) (hphase : s.phase ≠ .stopped)
    (htarget : HasId s.registry ldid target) (p : Param) (data : Data) (score : Score) (lid : ℕ) :
    ∃ score', addReplica s.registry (some target) p data score lid = some score' ∧
      score'.target = score.target +
        if data.valid.getLsbD lid = true ∧ lid + 1 = ldid then p.weight data lid else 0 := by
  unfold addReplica
  by_cases hvalid : data.valid.getLsbD lid = true
  · rw [if_pos hvalid]
    have hbase := s.base_le
    obtain ⟨ld, hget, hld⟩ := h.get_of_base_le hphase (i := lid + 1) (by omega)
    rw [hget, Option.bind_some]
    cases ld with
    | none =>
        refine ⟨score, rfl, ?_⟩
        have hne : ¬ (data.valid.getLsbD lid = true ∧ lid + 1 = ldid) := by
          rintro ⟨-, rfl⟩
          exact nomatch (hld target).mpr htarget
        rw [if_neg hne]
        rfl
    | some ld =>
        have hid := (hld ld).mp rfl
        dsimp only
        by_cases hsame : ld = target
        · subst hsame
          obtain ⟨-, f, hf, hfid⟩ := hid
          obtain ⟨-, g, hg, hgid⟩ := htarget
          rw [hf] at hg
          cases hg
          have hcounted : data.valid.getLsbD lid = true ∧ lid + 1 = ldid := ⟨hvalid, by omega⟩
          rw [if_pos (rfl : some ld = some ld), if_pos hcounted]
          exact ⟨_, rfl, rfl⟩
        · rw [if_neg fun heq => hsame (Option.some.inj heq)]
          have hne : ¬ (data.valid.getLsbD lid = true ∧ lid + 1 = ldid) := by
            rintro ⟨-, rfl⟩
            exact hsame (Option.some.inj ((hld target).mpr htarget))
          obtain ⟨-, f, hf, -⟩ := hid
          obtain ⟨-, g, hg, -⟩ := htarget
          rw [hf, Option.bind_some, Option.bind_some, hg, Option.map_some, if_neg hne]
          refine ⟨_, rfl, ?_⟩
          by_cases htype : f.type = g.type
          · rw [if_pos htype]
            rfl
          · rw [if_neg htype]
            rfl
  · rw [if_neg hvalid, if_neg fun hboth => hvalid hboth.1]
    exact ⟨score, rfl, rfl⟩

/-- The bytes of a parameter on the memory before. -/
def Param.bytesBefore (p : Param) : ℕ → ℕ
  | 0 => 0
  | lid + 1 => p.bytes lid

theorem Param.bytes_of_data {p : Param} {data : Data} (hvalue : p.value = false)
    (hdata : p.data = some data) (lid : ℕ) :
    p.bytes lid = if data.valid.getLsbD lid = true then p.weight data lid else 0 := by
  unfold Param.bytes
  rw [hvalue, hdata, if_neg Bool.false_ne_true]
  rfl

/-- The loop over the memories. -/
theorem foldlM_addReplica (h : Inv s) (hphase : s.phase ≠ .stopped)
    (htarget : HasId s.registry ldid target) {p : Param} {data : Data} (hvalue : p.value = false)
    (hdata : p.data = some data) (score : Score) (n : ℕ) :
    ∃ score', (List.range n).foldlM (addReplica s.registry (some target) p data) score =
        some score' ∧
      score'.target = score.target + if ldid ≤ n then p.bytesBefore ldid else 0 := by
  induction n with
  | zero =>
      refine ⟨score, rfl, ?_⟩
      cases ldid with
      | zero => rfl
      | succ lid => rfl
  | succ n ih =>
      obtain ⟨score₁, hfold, hscore₁⟩ := ih
      obtain ⟨score₂, hadd, hscore₂⟩ := addReplica_spec h hphase htarget p data score₁ n
      refine ⟨score₂, ?_, ?_⟩
      · rw [List.range_succ, List.foldlM_append, hfold]
        show [n].foldlM (addReplica s.registry (some target) p data) score₁ = some score₂
        rw [List.foldlM_cons, hadd]
        rfl
      · rw [hscore₂, hscore₁]
        by_cases hldid : n + 1 = ldid
        · subst hldid
          rw [if_neg (by omega), if_pos (Nat.le_refl _)]
          show _ = score.target + p.bytes n
          rw [Param.bytes_of_data hvalue hdata]
          by_cases hvalid : data.valid.getLsbD n = true
          · have hcounted : data.valid.getLsbD n = true ∧ n + 1 = n + 1 := ⟨hvalid, rfl⟩
            rw [if_pos hcounted, if_pos hvalid, Nat.add_zero]
          · have hother : ¬ (data.valid.getLsbD n = true ∧ n + 1 = n + 1) :=
              fun hboth => hvalid hboth.1
            rw [if_neg hother, if_neg hvalid, Nat.add_zero]
        · have hother : ¬ (data.valid.getLsbD n = true ∧ n + 1 = ldid) := fun hboth => hldid hboth.2
          rw [if_neg hother, Nat.add_zero]
          by_cases hle : ldid ≤ n
          · rw [if_pos hle, if_pos (by omega)]
          · rw [if_neg hle, if_neg (by omega)]

theorem addParam_spec (h : Inv s) (hphase : s.phase ≠ .stopped)
    (htarget : HasId s.registry ldid target) (p : Param) (score : Score) :
    ∃ score', addParam s.registry (some target) score p = some score' ∧
      score'.target = score.target + p.bytesBefore ldid := by
  unfold addParam
  by_cases hvalue : p.value = true
  · rw [if_pos hvalue]
    refine ⟨score, rfl, ?_⟩
    cases ldid with
    | zero => rfl
    | succ lid =>
        show _ = score.target + p.bytes lid
        unfold Param.bytes
        rw [if_pos hvalue]
        rfl
  · have hvalue' : p.value = false := Bool.eq_false_iff.mpr hvalue
    rw [if_neg hvalue]
    cases hdata : p.data with
    | none =>
        refine ⟨score, rfl, ?_⟩
        cases ldid with
        | zero => rfl
        | succ lid =>
            show _ = score.target + p.bytes lid
            unfold Param.bytes
            rw [if_neg hvalue, hdata]
            rfl
    | some data =>
        obtain ⟨score', hfold, hscore'⟩ :=
          foldlM_addReplica h hphase htarget hvalue' hdata score maxNodes
        refine ⟨score', hfold, ?_⟩
        rw [hscore']
        by_cases hle : ldid ≤ maxNodes
        · rw [if_pos hle]
        · -- There is no memory with this number.
          rw [if_neg hle]
          obtain ⟨lid, rfl⟩ : ∃ lid, ldid = lid + 1 :=
            Nat.exists_eq_succ_of_ne_zero (Nat.ne_zero_of_lt (Nat.lt_of_not_le hle))
          show _ = score.target + p.bytes lid
          rw [Param.bytes_of_data hvalue' hdata, if_neg]
          intro hvalid
          have hlt := lt_of_getLsbD hvalid
          unfold maxNodes at hle
          omega

/-- The score of the target counts the bytes on the memory before its identifier. -/
theorem computeAffinityScore_spec (h : Inv s) (hphase : s.phase ≠ .stopped)
    (hbase : s.base ≤ ldid) (htarget : HasId s.registry ldid target) (task : Task) {level : ℕ}
    (hlevel : 1 ≤ level) (hlevel' : level ≤ 4) :
    ∃ score reached, computeAffinityScore s.registry ldid task level = some (score, reached) ∧
      score.target = task.bytesBefore ldid := by
  have hfold : ∀ (params : List Param) (score : Score), ∃ score',
      params.foldlM (addParam s.registry (some target)) score = some score' ∧
        score'.target = score.target + (params.map fun p => p.bytesBefore ldid).sum := by
    intro params
    induction params with
    | nil => exact fun score => ⟨score, rfl, rfl⟩
    | cons p params ih =>
        intro score
        obtain ⟨score₁, hadd, hscore₁⟩ := addParam_spec h hphase htarget p score
        obtain ⟨score₂, hfold, hscore₂⟩ := ih score₁
        refine ⟨score₂, ?_, ?_⟩
        · rw [List.foldlM_cons, hadd]
          exact hfold
        · rw [hscore₂, hscore₁, List.map_cons, List.sum_cons, Nat.add_assoc]
  obtain ⟨ld, hget, hld⟩ := h.get_of_base_le hphase hbase
  obtain rfl := (hld target).mpr htarget
  obtain ⟨score, hscore, htotal⟩ := hfold task.params ⟨0, 0, 0, 0⟩
  refine ⟨score, score.reached level, ?_, ?_⟩
  · unfold computeAffinityScore
    rw [hget, Option.bind_some, if_pos ⟨hlevel, hlevel'⟩, hscore]
    rfl
  · rw [htotal, Nat.zero_add]
    cases ldid with
    | zero =>
        show (task.params.map fun _ => 0).sum = 0
        rw [List.map_const', List.sum_replicate, nsmul_zero]
    | succ lid => rfl

/-! ## The best domain -/

omit [DecidableEq δ]

theorem popcount_le (bits : Bits) : popcount bits ≤ maxNodes := by
  have hcard := Finset.card_le_univ (ones bits)
  rw [Fintype.card_fin] at hcard
  exact hcard

/-- The loop goes through all ones. -/
theorem validLoop_spec {data : Data} {fuel : ℕ} {bits : Bits} {affinity : ℕ → ℕ}
    (hfuel : popcount bits ≤ fuel) (l : ℕ) :
    validLoop data fuel bits affinity l = affinity l +
      if bits.getLsbD l = true ∧ data.valid.getLsbD l = true then data.size l else 0 := by
  have hzero : ∀ affinity : ℕ → ℕ, affinity l = affinity l +
      if (0#16).getLsbD l = true ∧ data.valid.getLsbD l = true then data.size l else 0 := by
    intro affinity
    rw [if_neg, Nat.add_zero]
    rw [BitVec.getLsbD_zero]
    exact fun hboth => nomatch hboth.1
  induction fuel generalizing bits affinity with
  | zero =>
      have hbits : bits = 0#16 := by
        by_contra hne
        exact absurd (popcount_pos_iff.mpr hne) (Nat.not_lt.mpr hfuel)
      subst hbits
      exact hzero affinity
  | succ fuel ih =>
      unfold validLoop
      by_cases hbits : bits = 0#16
      · subst hbits
        rw [if_pos rfl]
        exact hzero affinity
      · rw [if_neg hbits]
        have hlow := getLsbD_ffs hbits
        have hfuel' : popcount (clear bits (ffs bits - 1)) ≤ fuel := by
          rw [popcount_clear hlow]
          omega
        rw [ih hfuel']
        by_cases hl : l = ffs bits - 1
        · subst hl
          have hcleared : ¬ ((clear bits (ffs bits - 1)).getLsbD (ffs bits - 1) = true ∧
              data.valid.getLsbD (ffs bits - 1) = true) :=
            fun hboth => (getLsbD_clear.mp hboth.1).2 rfl
          rw [if_neg hcleared, Nat.add_zero]
          by_cases hvalid : data.valid.getLsbD (ffs bits - 1) = true
          · rw [if_pos hvalid, if_pos ⟨hlow, hvalid⟩, Function.update_self]
          · rw [if_neg hvalid, if_neg fun hboth => hvalid hboth.2, Nat.add_zero]
        · have hkept : (clear bits (ffs bits - 1)).getLsbD l = true ↔ bits.getLsbD l = true :=
            getLsbD_clear.trans (and_iff_left hl)
          simp only [hkept]
          by_cases hvalid : data.valid.getLsbD (ffs bits - 1) = true
          · rw [if_pos hvalid, Function.update_of_ne hl]
          · rw [if_neg hvalid]

theorem addAffinity_spec (affinity : (ℕ → ℕ) × (ℕ → ℕ)) (p : Param) (l : ℕ) :
    (addAffinity affinity p).1 l = affinity.1 l + p.deviceBytes true l ∧
      (addAffinity affinity p).2 l = affinity.2 l + p.deviceBytes false l := by
  unfold addAffinity Param.deviceBytes
  cases p.value with
  | true => exact ⟨rfl, rfl⟩
  | false =>
      rw [if_neg Bool.false_ne_true]
      cases p.data with
      | none => exact ⟨rfl, rfl⟩
      | some data =>
          have hloop : ∀ affinity : ℕ → ℕ,
              validLoop data maxNodes (clear data.valid 0) affinity l = affinity l +
                if l ≠ 0 ∧ data.valid.getLsbD l = true then data.size l else 0 := by
            intro affinity
            have hbits : (clear data.valid 0).getLsbD l = true ∧ data.valid.getLsbD l = true ↔
                l ≠ 0 ∧ data.valid.getLsbD l = true := by
              rw [getLsbD_clear]
              exact ⟨fun hboth => ⟨hboth.1.2, hboth.2⟩, fun hboth => ⟨⟨hboth.2, hboth.1⟩, hboth.2⟩⟩
            rw [validLoop_spec (popcount_le _)]
            simp only [hbits]
          cases p.write with
          | true =>
              refine ⟨(hloop affinity.1).trans ?_, ?_⟩
              · simp
              · simp
          | false =>
              refine ⟨?_, (hloop affinity.2).trans ?_⟩
              · simp
              · simp

/-- The arrays are the bytes on the devices. -/
theorem foldl_addAffinity (task : Task) :
    task.params.foldl addAffinity (fun _ => 0, fun _ => 0) =
      (task.deviceBytes true, task.deviceBytes false) := by
  have hfold : ∀ (params : List Param) (affinity : (ℕ → ℕ) × (ℕ → ℕ)) (l : ℕ),
      (params.foldl addAffinity affinity).1 l =
          affinity.1 l + (params.map fun p => p.deviceBytes true l).sum ∧
        (params.foldl addAffinity affinity).2 l =
          affinity.2 l + (params.map fun p => p.deviceBytes false l).sum := by
    intro params
    induction params with
    | nil => exact fun _ _ => ⟨rfl, rfl⟩
    | cons p params ih =>
        intro affinity l
        obtain ⟨hwritten, hother⟩ := ih (addAffinity affinity p) l
        obtain ⟨hp, hp'⟩ := addAffinity_spec affinity p l
        rw [List.map_cons, List.sum_cons, List.map_cons, List.sum_cons, ← Nat.add_assoc,
          ← Nat.add_assoc, ← hp, ← hp']
        exact ⟨hwritten, hother⟩
  refine Prod.ext (funext fun l => ?_) (funext fun l => ?_)
  · rw [(hfold task.params _ l).1]
    exact Nat.zero_add _
  · rw [(hfold task.params _ l).2]
    exact Nat.zero_add _

/-- Nothing is counted for the host. -/
theorem deviceBytes_zero (task : Task) (write : Bool) : task.deviceBytes write 0 = 0 := by
  have hparam : ∀ p : Param, p.deviceBytes write 0 = 0 := by
    intro p
    unfold Param.deviceBytes
    cases p.data with
    | none => exact ite_self 0
    | some data =>
        dsimp only
        rw [if_neg (c := p.write = write ∧ (0 : ℕ) ≠ 0 ∧ data.valid.getLsbD 0 = true)
          fun hboth => hboth.2.1 rfl, ite_self]
  unfold Task.deviceBytes
  rw [funext hparam, List.map_const', List.sum_replicate, nsmul_zero]

theorem Task.Best.ne_zero {task : Task} (h : task.Best lid) : lid ≠ 0 := by
  rintro rfl
  rcases h with h | h
  · exact h.2 (deviceBytes_zero task true)
  · exact h.2.2 (deviceBytes_zero task false)

/-- Only the memories that exist count. -/
theorem deviceBytes_of_ge (task : Task) (write : Bool) {l : ℕ} (hl : maxNodes ≤ l) :
    task.deviceBytes write l = 0 := by
  have hparam : ∀ p : Param, p.deviceBytes write l = 0 := by
    intro p
    unfold Param.deviceBytes
    cases p.data with
    | none => exact ite_self 0
    | some data =>
        dsimp only
        rw [if_neg (c := p.write = write ∧ l ≠ 0 ∧ data.valid.getLsbD l = true), ite_self]
        exact fun hboth => absurd (lt_of_getLsbD hboth.2.2) (Nat.not_lt.mpr hl)
  unfold Task.deviceBytes
  rw [funext hparam, List.map_const', List.sum_replicate, nsmul_zero]

/-- The best domain is that after the best memory. -/
theorem computeBestLd_eq_some (task : Task) :
    (computeBestLd task).1 = some ldid ↔ ∃ lid, ldid = lid + 1 ∧ task.Best lid := by
  unfold computeBestLd
  rw [foldl_addAffinity]
  dsimp only
  have hmax : ∀ (f : ℕ → ℕ) (lid : ℕ), IsFirstMax f (maxNodes - 1) lid →
      f (firstMax f (maxNodes - 1)) = f lid ∧ firstMax f (maxNodes - 1) = lid :=
    fun f lid h => ⟨congrArg f (firstMax_eq_iff.mpr h), firstMax_eq_iff.mpr h⟩
  by_cases hwritten : task.deviceBytes true (firstMax (task.deviceBytes true) (maxNodes - 1)) = 0
  · rw [if_neg (not_not.mpr hwritten)]
    have hnone : ∀ l, task.deviceBytes true l = 0 := by
      intro l
      by_cases hl : maxNodes ≤ l
      · exact deviceBytes_of_ge task true hl
      · exact firstMax_eq_zero_iff.mp hwritten l (by omega)
    have hbest : ∀ lid, task.Best lid ↔ IsFirstMax (task.deviceBytes false) (maxNodes - 1) lid ∧
        task.deviceBytes false lid ≠ 0 := by
      intro lid
      unfold Task.Best
      rw [or_iff_right fun h => h.2 (hnone lid), and_iff_right hnone]
    simp only [hbest]
    by_cases hother :
        task.deviceBytes false (firstMax (task.deviceBytes false) (maxNodes - 1)) = 0
    · rw [if_neg (not_not.mpr hother)]
      refine iff_of_false nofun ?_
      rintro ⟨lid, -, hfirst, hne⟩
      exact hne ((hmax _ lid hfirst).1.symm.trans hother)
    · rw [if_pos hother]
      constructor
      · intro heq
        exact ⟨_, (Option.some.inj heq).symm, firstMax_spec _ _, hother⟩
      · rintro ⟨lid, rfl, hfirst, -⟩
        rw [(hmax _ lid hfirst).2]
  · rw [if_pos hwritten]
    have hbest : ∀ lid, task.Best lid ↔ IsFirstMax (task.deviceBytes true) (maxNodes - 1) lid := by
      intro lid
      constructor
      · rintro (h | h)
        · exact h.1
        · exact absurd (h.1 _) hwritten
      · intro hfirst
        refine Or.inl ⟨hfirst, ?_⟩
        rw [← (hmax _ lid hfirst).1]
        exact hwritten
    simp only [hbest]
    constructor
    · intro heq
      exact ⟨_, (Option.some.inj heq).symm, firstMax_spec _ _⟩
    · rintro ⟨lid, rfl, hfirst⟩
      rw [(hmax _ lid hfirst).2]

end

/-! ## Placement -/

section

variable {δ : Type*} [DecidableEq δ] {s : State δ} {d target : δ} {task : Task} {lid ldid : ℕ}

/-- The memory 0 is that of the host. -/
theorem Inv.host_ne (h : Inv s) (hlid : s.asid d = some lid) (hne : lid ≠ 0) : s.host ≠ some d := by
  intro hhost
  obtain ⟨-, f, -, heq⟩ := h.asid d lid hlid
  rw [if_pos hhost] at heq
  exact hne heq

/-- The best domain is right when its device has a replica, although it is not the best memory. -/
theorem best_iff (h : Inv s) (hphase : s.phase ≠ .stopped) (hstored : Stored s task) :
    (∀ ldid, (computeBestLd task).1 = some ldid →
      ∃ d lid, get s.registry ldid = some (some d) ∧ s.asid d = some lid ∧ task.Holds lid) ↔
        ∀ lid, task.Best lid → task.Holds (lid + 1) := by
  constructor
  · intro hplaced lid hbest
    obtain ⟨d, lid', hget, hlid', hholds⟩ :=
      hplaced (lid + 1) ((computeBestLd_eq_some task).mpr ⟨lid, rfl, hbest⟩)
    have hbase := s.base_le
    obtain ⟨ld, hget', hld⟩ := h.get_of_base_le hphase (i := lid + 1) (by omega)
    rw [hget'] at hget
    obtain ⟨-, f, hf, hfid⟩ := (hld d).mp (Option.some.inj hget)
    obtain ⟨hin, g, hg, hglid⟩ := h.asid d lid' hlid'
    obtain ⟨g', hg', hknown⟩ := h.known d hin
    rw [hf] at hg hg'
    cases hg
    cases hg'
    have hne := hbest.ne_zero
    -- The host has a smaller identifier.
    have hhost : s.host ≠ some d := by
      intro hhost
      rw [if_pos hhost] at hknown
      omega
    rw [if_neg hhost, hfid] at hglid
    rw [hglid] at hholds
    exact hholds
  · intro hnext ldid hldid
    obtain ⟨lid, rfl, hbest⟩ := (computeBestLd_eq_some task).mp hldid
    have hholds := hnext lid hbest
    obtain ⟨p, hp, -, data, hdata, hvalid⟩ := hholds
    obtain ⟨d, hd⟩ := hstored p hp data hdata (lid + 1) hvalid
    exact ⟨d, lid + 1, h.get_gpu hd (h.host_ne hd (Nat.succ_ne_zero lid)), hd, hnext lid hbest⟩

/-- `kaapi_thread_push` finds the device of a valid replica. -/
theorem threadPush_owner (h : Inv s) (hstored : Stored s task) {σ : Type} (random : Random σ)
    (ctxt : Context σ) {ith : ℕ} {p : Param} {data : Data} (hp : task.params[ith]? = some p)
    (hdata : p.data = some data) (hvalid : clear data.valid 0 ≠ 0#16) :
    ∃ d lid ctxt', threadPush random s.registry ctxt { task with ld := some (.ocrParam ith) } =
      some (some d, ctxt') ∧ s.asid d = some lid ∧ data.valid.getLsbD lid = true := by
  obtain ⟨lid, seed, hrandom, hlid⟩ := getRandomBit1_spec random hvalid ctxt.seed
  obtain ⟨hlid, hne⟩ := getLsbD_clear.mp hlid
  obtain ⟨d, hd⟩ := hstored p (List.mem_of_getElem? hp) data hdata lid hlid
  have hget := h.get_gpu hd (h.host_ne hd hne)
  have howner : ownerDomain random s.registry data ctxt =
      some (some d, { ctxt with seed := seed }) := by
    unfold ownerDomain
    simp only [if_neg hvalid, hrandom, Nat.add_sub_cancel, hget]
    rfl
  refine ⟨d, lid, { ctxt with seed := seed }, ?_, hd, hlid⟩
  unfold threadPush
  simp only [hp, Option.bind_some, hdata, howner]

/-- In every state of the runtime, the identifiers agree and a task is placed where its data are
exactly when a host that is registered has been configured in the first cycle, the memory before
the identifier of the target has as many bytes of the task as that of the target, and the memory
after the best one holds a replica. -/
theorem placed_iff (h : (system δ).Reachable s) (hstored : Stored s task)
    (hlid : s.asid target = some lid)
    (hldid : (s.registry.fields target).map Fields.ldid = some ldid) :
    Placed s task target ldid lid ↔
      (∀ d, s.host = some d → s.asid d ≠ none → s.cycle = 0) ∧
        task.bytesBefore ldid = task.bytes lid ∧
          ∀ lid, task.Best lid → task.Holds (lid + 1) := by
  have hinv := inv_of_reachable h
  have hphase := hinv.phase_of_asid hlid
  obtain ⟨f, hf, rfl⟩ := Option.map_eq_some_iff.mp hldid
  obtain ⟨hin, -⟩ := hinv.asid target lid hlid
  have htarget : HasId s.registry f.ldid target := ⟨hin, f, hf, rfl⟩
  have hbase : s.base ≤ f.ldid := by
    obtain ⟨g, hg, hknown⟩ := hinv.known target hin
    rw [hf] at hg
    cases hg
    split at hknown
    · omega
    · omega
  have hscore : ∀ level, 1 ≤ level → level ≤ 4 → ∃ score reached,
      computeAffinityScore s.registry f.ldid task level = some (score, reached) ∧
        score.target = task.bytesBefore f.ldid :=
    fun level hlevel hlevel' =>
      computeAffinityScore_spec hinv hphase hbase htarget task hlevel hlevel'
  rw [← hinv.get_iff, ← best_iff hinv hphase hstored]
  constructor
  · intro hplaced
    refine ⟨hplaced.get, ?_, hplaced.best⟩
    obtain ⟨score, reached, hcompute, htotal⟩ := hscore 1 (Nat.le_refl 1) (by omega)
    obtain ⟨score', reached', hcompute', htotal'⟩ := hplaced.score 1 (Nat.le_refl 1) (by omega)
    rw [hcompute] at hcompute'
    cases hcompute'
    exact htotal.symm.trans htotal'
  · intro ⟨hget, hbytes, hbest⟩
    refine ⟨hget, fun level hlevel hlevel' => ?_, hbest, ?_⟩
    · obtain ⟨score, reached, hcompute, htotal⟩ := hscore level hlevel hlevel'
      exact ⟨score, reached, hcompute, htotal.trans hbytes⟩
    · exact fun σ random ctxt ith p data hp hdata hvalid =>
        threadPush_owner hinv hstored random ctxt hp hdata hvalid

end

/-- A task that reads eight bytes, which are valid on the memories of `valid`. -/
def readEight (valid : Bits) : Task :=
  ⟨[⟨false, true, false, some ⟨valid, 0#16, fun _ => 8⟩⟩], none⟩

/-- The host and two GPUs are started. -/
def twoGpus : List (Action (Fin 3)) :=
  [.configHost 0, .configGpu 1, .configGpu 2, .register 0, .register 1, .register 2]

theorem stored_readEight {s : State (Fin 3)} {valid : Bits}
    (h : ∀ lid < 16, valid.getLsbD lid = true → ∃ d, s.asid d = some lid) :
    Stored s (readEight valid) := by
  intro p hp data hdata lid hlid
  obtain rfl := List.mem_singleton.mp hp
  cases hdata
  exact h lid (lt_of_getLsbD hlid) hlid

set_option maxRecDepth 20000 in
/-- With a replica on both GPUs nothing goes wrong for the second one. -/
theorem placed_readEight :
    ∃ s : State (Fin 3), (system (Fin 3)).Reachable s ∧ Placed s (readEight 6#16) 2 2 2 := by
  let s := ((system (Fin 3)).run (start (Fin 3)) twoGpus).get (by decide)
  have hrun : (system (Fin 3)).run (start (Fin 3)) twoGpus = some s := (Option.some_get _).symm
  have hs : (system (Fin 3)).Reachable s := .replay (.start rfl) hrun
  have hstored : Stored s (readEight 6#16) := stored_readEight (by decide)
  have hholds : (readEight 6#16).Holds 2 := ⟨_, List.mem_singleton.mpr rfl, rfl, _, rfl, by decide⟩
  refine ⟨s, hs, (placed_iff hs hstored (by decide) (by decide)).mpr
    ⟨fun _ _ _ => by decide, by decide, fun lid hbest => ?_⟩⟩
  have hcompute : (computeBestLd (readEight 6#16)).1 = some 2 := by decide
  rw [(computeBestLd_eq_some _).mpr ⟨lid, rfl, hbest⟩] at hcompute
  rw [Option.some.inj hcompute]
  exact hholds

set_option maxRecDepth 20000 in
/-- The host is not found after a restart, and a GPU with the only replica has the score 0. -/
theorem not_placed :
    (∃ s : State (Fin 3), (system (Fin 3)).Reachable s ∧ s.asid 0 = some 0 ∧
      get s.registry 0 ≠ some (some 0)) ∧
      ∃ s : State (Fin 3), (system (Fin 3)).Reachable s ∧ s.cycle = 0 ∧
        Stored s (readEight 2#16) ∧ ¬ Placed s (readEight 2#16) 1 1 1 := by
  constructor
  · let trace := twoGpus ++
      [.stop, .leave 0, .leave 1, .leave 2, .finalize, .configHost 0, .register 0]
    let s := ((system (Fin 3)).run (start (Fin 3)) trace).get (by decide)
    have hrun : (system (Fin 3)).run (start (Fin 3)) trace = some s := (Option.some_get _).symm
    exact ⟨s, .replay (.start rfl) hrun, by decide, by decide⟩
  · let s := ((system (Fin 3)).run (start (Fin 3)) twoGpus).get (by decide)
    have hrun : (system (Fin 3)).run (start (Fin 3)) twoGpus = some s := (Option.some_get _).symm
    have hstored : Stored s (readEight 2#16) := stored_readEight (by decide)
    refine ⟨s, .replay (.start rfl) hrun, by decide, hstored, fun hplaced => ?_⟩
    obtain ⟨score, reached, hscore, htarget⟩ := hplaced.score 1 (Nat.le_refl 1) (by decide)
    have hcompute : computeAffinityScore s.registry 1 (readEight 2#16) 1 =
        some (⟨0, 8, 0, 0⟩, false) := by decide
    rw [hcompute] at hscore
    cases hscore
    exact absurd htarget (by decide)

end Xkblas.Sched.Locality
