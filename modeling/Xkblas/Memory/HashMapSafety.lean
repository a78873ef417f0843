import Mathlib.Data.Finset.Prod
import Xkblas.Library.LinkedPath
import Xkblas.Memory.HashMap

/-!
# The hash map is a finite map

The blocks are shared out between the free list, the list of the allocated blocks and the entries
that were returned since the last clear (`Blocks`), and the chains hold the present keys (`Chains`).
`hashmap_sound` says that what the operations return is what the present keys say, in every state of
every run.
-/

namespace Xkblas.Memory.HashMap

open Library

variable {V : Type} {s : State V} {live : Live V} {returned : List Entry} {free alloc : List ℕ}
  {L : ℕ → List Entry} {ptr : Key} {b h : ℕ} {e : Entry}

/-! ## Blocks -/

/-- The two lists of blocks, one of which is empty, and the entries that were returned: none of them
is in a free block, nor among the entries that are left of the current one. -/
structure Blocks (s : State V) (returned : List Entry) (free alloc : List ℕ) : Prop where
  freePath : IsPath s.blocNext s.freebloc free none
  allocPath : IsPath s.blocNext s.allallocatedbloc alloc none
  freeNodup : free.Nodup
  allocNodup : alloc.Nodup
  one : free = [] ∨ alloc = []
  freeLt : ∀ b ∈ free, b < s.brk
  allocLt : ∀ b ∈ alloc, b < s.brk
  current : ∀ b, s.currentbloc = some b → b ∉ free ∧ b < s.brk ∧ s.pos b < blocEntriesSize
  taken : ∀ e ∈ returned, e.1 ∉ free ∧ (e.1 < s.brk ∧ e.2 < blocEntriesSize) ∧
    (s.currentbloc = some e.1 → e.2 < s.pos e.1)

/-- The next entry of the current block was not returned. -/
theorem Blocks.fresh (hb : Blocks s returned free alloc) (hcurrent : s.currentbloc = some b) :
    (b, s.pos b) ∉ returned := by
  intro hmem
  exact Nat.lt_irrefl _ ((hb.taken _ hmem).2.2 hcurrent)

/-- A block is opened when there is no current one: the first free block, or a new one. -/
theorem Blocks.openBloc (hb : Blocks s returned free alloc) :
    s.openBloc.1.currentbloc = some s.openBloc.2 ∧
      ∃ free' alloc', Blocks s.openBloc.1 returned free' alloc' := by
  unfold State.openBloc
  split
  case h_2 b hcurrent => exact ⟨hcurrent, free, alloc, hb⟩
  case h_1 hcurrent =>
    unfold State.allocateBloc
    split
    case h_1 hfree =>
      have hnil : free = [] := by
        cases free with
        | nil => rfl
        | cons b rest => exact absurd (hfree.symm.trans hb.freePath.1) nofun
      subst hnil
      have hne : ∀ b < s.brk, b ≠ s.brk := fun b hlt => hlt.ne
      refine ⟨rfl, [], s.brk :: alloc, ?_⟩
      constructor
      case freePath => exact hfree
      case allocPath =>
        refine ⟨rfl, ?_⟩
        show IsPath _ (Function.update s.blocNext s.brk s.allallocatedbloc s.brk) _ _
        rw [Function.update_self]
        exact hb.allocPath.congr fun b hmem => Function.update_of_ne (hne b (hb.allocLt b hmem)) _ _
      case freeNodup => exact List.nodup_nil
      case allocNodup =>
        exact List.nodup_cons.mpr ⟨fun hmem => hne _ (hb.allocLt _ hmem) rfl, hb.allocNodup⟩
      case one => exact .inl rfl
      case freeLt => exact fun _ hmem => absurd hmem List.not_mem_nil
      case allocLt =>
        refine List.forall_mem_cons.mpr ⟨Nat.lt_succ_self _, fun b hmem => ?_⟩
        exact Nat.lt_succ_of_lt (hb.allocLt b hmem)
      case current =>
        intro b hcur
        obtain rfl := Option.some.inj hcur
        refine ⟨List.not_mem_nil, Nat.lt_succ_self _, ?_⟩
        show Function.update s.pos s.brk 0 s.brk < _
        rw [Function.update_self]
        exact Nat.succ_pos _
      case taken =>
        intro e he
        obtain ⟨_, ⟨hlt, hidx⟩, _⟩ := hb.taken e he
        refine ⟨List.not_mem_nil, ⟨Nat.lt_succ_of_lt hlt, hidx⟩, fun hcur => ?_⟩
        exact absurd (Option.some.inj hcur).symm (hne _ hlt)
    case h_2 b hfree =>
      obtain ⟨rest, rfl⟩ : ∃ rest, free = b :: rest := by
        cases free with
        | nil => exact absurd (hfree.symm.trans hb.freePath) nofun
        | cons b' rest =>
            obtain rfl := Option.some.inj (hfree.symm.trans hb.freePath.1)
            exact ⟨rest, rfl⟩
      obtain ⟨hnotMem, hnodup⟩ := List.nodup_cons.mp hb.freeNodup
      obtain rfl : alloc = [] := hb.one.resolve_left (List.cons_ne_nil _ _)
      refine ⟨rfl, rest, [], ?_⟩
      constructor
      case freePath => exact hb.freePath.2
      case allocPath => exact hb.allocPath
      case freeNodup => exact hnodup
      case allocNodup => exact List.nodup_nil
      case one => exact .inr rfl
      case freeLt => exact fun b' hmem => hb.freeLt b' (List.mem_cons_of_mem b hmem)
      case allocLt => exact hb.allocLt
      case current =>
        intro b' hcur
        obtain rfl := Option.some.inj hcur
        refine ⟨hnotMem, hb.freeLt _ List.mem_cons_self, ?_⟩
        show Function.update s.pos b 0 b < _
        rw [Function.update_self]
        exact Nat.succ_pos _
      case taken =>
        intro e he
        obtain ⟨hout, hbound, _⟩ := hb.taken e he
        refine ⟨fun hmem => hout (List.mem_cons_of_mem b hmem), hbound, fun hcur => ?_⟩
        exact absurd (Option.some.inj hcur ▸ List.mem_cons_self) hout

/-- An entry of the current block is given out. -/
theorem Blocks.link [Zero V] (hb : Blocks s returned free alloc)
    (hcurrent : s.currentbloc = some b) :
    Blocks (s.link b ptr h).1 ((b, s.pos b) :: returned) free alloc := by
  obtain ⟨hfree, hlt, hpos⟩ := hb.current b hcurrent
  have hcur : ∀ b', (s.link b ptr h).1.currentbloc = some b' →
      b' = b ∧ s.pos b + 1 ≠ blocEntriesSize := by
    intro b' hcur
    have hcur : (if s.pos b + 1 = blocEntriesSize then none else some b) = some b' := hcur
    split at hcur
    case isTrue => cases hcur
    case isFalse hne => exact ⟨(Option.some.inj hcur).symm, hne⟩
  have hself : (s.link b ptr h).1.pos b = s.pos b + 1 := Function.update_self _ _ _
  constructor
  case freePath => exact hb.freePath
  case allocPath => exact hb.allocPath
  case freeNodup => exact hb.freeNodup
  case allocNodup => exact hb.allocNodup
  case one => exact hb.one
  case freeLt => exact hb.freeLt
  case allocLt => exact hb.allocLt
  case current =>
    intro b' hb'
    obtain ⟨rfl, hne⟩ := hcur b' hb'
    rw [hself]
    exact ⟨hfree, hlt, by omega⟩
  case taken =>
    refine List.forall_mem_cons.mpr ⟨⟨hfree, ⟨hlt, hpos⟩, fun _ => ?_⟩, fun e he => ?_⟩
    · rw [hself]
      exact Nat.lt_succ_self _
    · obtain ⟨hout, hbound, hidx⟩ := hb.taken e he
      refine ⟨hout, hbound, fun hb' => ?_⟩
      obtain ⟨heb, _⟩ := hcur _ hb'
      rw [heb, hself]
      rw [heb] at hidx
      exact Nat.lt_succ_of_lt (hidx hcurrent)

/-- A clear gives all blocks of the list of the allocated ones back. -/
theorem Blocks.clear (hb : Blocks s returned free alloc) :
    ∃ free', Blocks s.clear [] free' [] := by
  cases halloc : s.allallocatedbloc with
  | none =>
      refine ⟨free, ?_, rfl, hb.freeNodup, List.nodup_nil, .inr rfl, hb.freeLt, nofun, nofun,
        nofun⟩
      show IsPath _ (if s.allallocatedbloc = none then s.freebloc else _) _ _
      rw [if_pos halloc]
      exact hb.freePath
  | some b =>
      refine ⟨alloc, ?_, rfl, hb.allocNodup, List.nodup_nil, .inr rfl, hb.allocLt, nofun, nofun,
        nofun⟩
      show IsPath _ (if s.allallocatedbloc = none then _ else s.allallocatedbloc) _ _
      rw [if_neg (by rw [halloc]; nofun)]
      exact hb.allocPath

/-! ## Chains -/

/-- The chains of the table hold the present keys, each in the chain of its hash. -/
structure Chains (s : State V) (live : Live V) (returned : List Entry) (L : ℕ → List Entry) :
    Prop where
  path : ∀ h ≤ s.mask, IsPath s.next (s.entries h) (L h) none
  nodup : ∀ h ≤ s.mask, (L h).Nodup
  entry : ∀ h ≤ s.mask, ∀ e ∈ L h,
    s.hkey (s.key e) = h ∧ live (s.key e) = some (e, s.u e) ∧ e ∈ returned
  present : ∀ k e v, live k = some (e, v) → e ∈ L (s.hkey k) ∧ s.key e = k ∧ s.u e = v

theorem hkey_le (s : State V) (ptr : Key) : s.hkey ptr ≤ s.mask :=
  Nat.and_le_right

/-- The chains do not read the fields of the blocks. -/
theorem Chains.congr {t : State V} (hc : Chains s live returned L)
    (hentries : t.entries = s.entries) (hmask : t.mask = s.mask) (hkey : t.key = s.key)
    (hnext : t.next = s.next) (hu : t.u = s.u) :
    Chains t live returned L := by
  have hhash : t.hkey = s.hkey := by
    funext ptr
    unfold State.hkey
    rw [hmask]
  constructor
  case path =>
    rw [hmask, hentries, hnext]
    exact hc.path
  case nodup =>
    rw [hmask]
    exact hc.nodup
  case entry =>
    rw [hmask, hhash, hkey, hu]
    exact hc.entry
  case present =>
    rw [hhash, hkey, hu]
    exact hc.present

/-- Two present keys with one entry are the same. -/
theorem Chains.key_unique (hc : Chains s live returned L) {k k' : Key} {v v' : V}
    (hk : live k = some (e, v)) (hk' : live k' = some (e, v')) : k = k' :=
  (hc.present k e v hk).2.1.symm.trans (hc.present k' e v' hk').2.1

/-- The loop over a chain finds the first entry with the key. -/
theorem findLoop_eq {fuel : ℕ} {p : Option Entry} {l : List Entry} (hpath : IsPath s.next p l none)
    (hfuel : l.length < fuel) :
    s.findLoop ptr fuel p = some (l.find? fun e => s.key e = ptr) := by
  induction l generalizing p fuel with
  | nil =>
      obtain ⟨fuel, rfl⟩ := Nat.exists_eq_succ_of_ne_zero (by omega : fuel ≠ 0)
      obtain rfl : p = none := hpath
      rfl
  | cons e l ih =>
      obtain ⟨fuel, rfl⟩ := Nat.exists_eq_succ_of_ne_zero (by omega : fuel ≠ 0)
      obtain ⟨rfl, hpath⟩ := hpath
      show (if s.key e = ptr then some (some e) else s.findLoop ptr fuel (s.next e)) = _
      by_cases hkey : s.key e = ptr
      · rw [if_pos hkey, List.find?_cons_of_pos (by simpa using hkey)]
      · rw [if_neg hkey, List.find?_cons_of_neg (by simpa using hkey)]
        exact ih hpath (by simpa using hfuel)

/-- A chain is shorter than the bound of the loop. -/
theorem Chains.length_lt_fuel (hc : Chains s live returned L) (hb : Blocks s returned free alloc)
    (hh : h ≤ s.mask) : (L h).length < s.fuel := by
  have hsub : (L h).toFinset ⊆ Finset.range s.brk ×ˢ Finset.range blocEntriesSize := by
    intro e he
    obtain ⟨_, _, hmem⟩ := hc.entry h hh e (List.mem_toFinset.mp he)
    obtain ⟨_, ⟨hlt, hidx⟩, _⟩ := hb.taken e hmem
    exact Finset.mem_product.mpr ⟨Finset.mem_range.mpr hlt, Finset.mem_range.mpr hidx⟩
  have hcard := Finset.card_le_card hsub
  rw [List.toFinset_card_of_nodup (hc.nodup h hh), Finset.card_product, Finset.card_range,
    Finset.card_range] at hcard
  exact Nat.lt_succ_of_le hcard

/-- `kaapi_hashmap_find` ends, and returns the entry of a present key. -/
theorem Chains.find_eq (hc : Chains s live returned L) (hb : Blocks s returned free alloc)
    (ptr : Key) : s.find ptr = some ((live ptr).map Prod.fst) := by
  have hh := hkey_le s ptr
  unfold State.find
  rw [findLoop_eq (hc.path _ hh) (hc.length_lt_fuel hb hh)]
  congr 1
  cases hfind : (L (s.hkey ptr)).find? fun e => s.key e = ptr with
  | some e =>
      have hkey : s.key e = ptr := by simpa using List.find?_some hfind
      obtain ⟨_, hlive, _⟩ := hc.entry _ hh e (List.mem_of_find?_eq_some hfind)
      rw [hkey] at hlive
      rw [hlive]
      rfl
  | none =>
      cases hlive : live ptr with
      | none => rfl
      | some x =>
          obtain ⟨hmem, hkey, _⟩ := hc.present ptr x.1 x.2 hlive
          have hno := List.find?_eq_none.mp hfind x.1 hmem
          exact absurd (by simpa using hkey) hno

/-- A new entry enters the chain of its key. -/
theorem Chains.link [Zero V] (hc : Chains s live returned L) (hfresh : (b, s.pos b) ∉ returned)
    (hlive : live ptr = none) :
    Chains (s.link b ptr (s.hkey ptr)).1
      (Function.update live ptr (some ((b, s.pos b), 0))) ((b, s.pos b) :: returned)
      (Function.update L (s.hkey ptr) ((b, s.pos b) :: L (s.hkey ptr))) := by
  let t := (s.link b ptr (s.hkey ptr)).1
  let n : Entry := (b, s.pos b)
  have hout : ∀ h ≤ s.mask, ∀ e ∈ L h, e ≠ n := by
    intro h hh e he heq
    have hmem := (hc.entry h hh e he).2.2
    rw [heq] at hmem
    exact hfresh hmem
  have hkeyn : t.key n = ptr := Function.update_self _ _ _
  have hun : t.u n = 0 := Function.update_self _ _ _
  have hkept : ∀ e, e ≠ n → t.key e = s.key e ∧ t.u e = s.u e ∧ t.next e = s.next e := fun e he =>
    ⟨Function.update_of_ne he _ _, Function.update_of_ne he _ _, Function.update_of_ne he _ _⟩
  have hpath : ∀ h ≤ s.mask, IsPath t.next (s.entries h) (L h) none := fun h hh =>
    (hc.path h hh).congr fun e he => (hkept e (hout h hh e he)).2.2
  -- the entries of the chains that were there
  have hentry : ∀ h ≤ s.mask, ∀ e ∈ L h, s.hkey (t.key e) = h ∧
      Function.update live ptr (some (n, 0)) (t.key e) = some (e, t.u e) ∧ e ∈ n :: returned := by
    intro h hh e he
    obtain ⟨hhash, hl, hmem⟩ := hc.entry h hh e he
    obtain ⟨hkey, hu, _⟩ := hkept e (hout h hh e he)
    have hne : s.key e ≠ ptr := by
      intro heq
      rw [heq, hlive] at hl
      cases hl
    rw [hkey, hu, Function.update_of_ne hne]
    exact ⟨hhash, hl, List.mem_cons_of_mem n hmem⟩
  constructor
  case path =>
    intro h hh
    show IsPath t.next (Function.update s.entries (s.hkey ptr) (some n) h) _ _
    by_cases hhp : h = s.hkey ptr
    · subst hhp
      rw [Function.update_self, Function.update_self]
      refine ⟨rfl, ?_⟩
      rw [show t.next n = s.entries (s.hkey ptr) from Function.update_self _ _ _]
      exact hpath _ hh
    · rw [Function.update_of_ne hhp, Function.update_of_ne hhp]
      exact hpath h hh
  case nodup =>
    intro h hh
    by_cases hhp : h = s.hkey ptr
    · subst hhp
      rw [Function.update_self]
      exact List.nodup_cons.mpr ⟨fun hmem => hout _ hh _ hmem rfl, hc.nodup _ hh⟩
    · rw [Function.update_of_ne hhp]
      exact hc.nodup h hh
  case entry =>
    intro h hh
    by_cases hhp : h = s.hkey ptr
    · subst hhp
      rw [Function.update_self]
      refine List.forall_mem_cons.mpr ⟨⟨?_, ?_, List.mem_cons_self⟩, hentry _ hh⟩
      · show s.hkey (t.key n) = _
        rw [hkeyn]
      · show Function.update live ptr (some (n, 0)) (t.key n) = some (n, t.u n)
        rw [hkeyn, hun, Function.update_self]
    · rw [Function.update_of_ne hhp]
      exact hentry h hh
  case present =>
    intro k e v hk
    show e ∈ Function.update L (s.hkey ptr) (n :: L (s.hkey ptr)) (s.hkey k) ∧ t.key e = k ∧
      t.u e = v
    by_cases hkp : k = ptr
    · subst hkp
      rw [Function.update_self] at hk
      obtain ⟨rfl, rfl⟩ := Prod.mk.inj (Option.some.inj hk)
      rw [Function.update_self]
      exact ⟨List.mem_cons_self, hkeyn, hun⟩
    · rw [Function.update_of_ne hkp] at hk
      obtain ⟨hmem, hkey, hu⟩ := hc.present k e v hk
      obtain ⟨hkey', hu', _⟩ := hkept e (hout _ (hkey_le s k) e hmem)
      refine ⟨?_, hkey'.trans hkey, hu'.trans hu⟩
      by_cases hhash : s.hkey k = s.hkey ptr
      · rw [hhash, Function.update_self, ← hhash]
        exact List.mem_cons_of_mem n hmem
      · rwa [Function.update_of_ne hhash]

/-- An assignment is one for the key of the entry, if this key is present. -/
theorem Chains.assign (hc : Chains s live returned L) (v : V) :
    Chains (s.assign e v) (fun k => (live k).map fun x => if x.1 = e then (e, v) else x) returned
      L where
  path := hc.path
  nodup := hc.nodup
  entry := by
    intro h hh e' he'
    obtain ⟨hhash, hl, hmem⟩ := hc.entry h hh e' he'
    refine ⟨hhash, ?_, hmem⟩
    show (live (s.key e')).map _ = some (e', Function.update s.u e v e')
    rw [hl, Option.map_some]
    by_cases hee : e' = e
    · subst hee
      rw [if_pos rfl, Function.update_self]
    · rw [if_neg hee, Function.update_of_ne hee]
  present := by
    intro k e' v' hk
    obtain ⟨⟨e₀, v₀⟩, hk₀, heq⟩ := Option.map_eq_some_iff.mp hk
    obtain ⟨hmem, hkey, hu⟩ := hc.present k e₀ v₀ hk₀
    show e' ∈ L (s.hkey k) ∧ s.key e' = k ∧ Function.update s.u e v e' = v'
    dsimp only at heq
    split at heq
    case isTrue hee =>
      obtain ⟨rfl, rfl⟩ := Prod.mk.inj heq
      rw [Function.update_self]
      exact ⟨hee ▸ hmem, hee ▸ hkey, rfl⟩
    case isFalse hee =>
      obtain ⟨rfl, rfl⟩ := Prod.mk.inj heq
      rw [Function.update_of_ne hee]
      exact ⟨hmem, hkey, hu⟩

/-- The first entry of a chain is popped. -/
theorem Chains.pop (hc : Chains s live returned L) (hh : h ≤ s.mask) :
    Chains (s.pop h).1 (fun k => (live k).filter fun x => some x.1 ≠ s.entries h) returned
      (Function.update L h (L h).tail) := by
  have hpath := hc.path h hh
  have hhead : s.entries h = (L h).head? := hpath.eq_head?
  -- the entries that are left
  have hleft : ∀ h' ≤ s.mask, ∀ e', e' ∈ Function.update L h (L h).tail h' ↔
      e' ∈ L h' ∧ some e' ≠ s.entries h := by
    intro h' hh' e'
    by_cases hhh : h' = h
    · subst hhh
      rw [Function.update_self, hhead]
      have hnodup := hc.nodup h' hh
      cases hL : L h' with
      | nil => simp
      | cons e rest =>
          rw [hL] at hnodup
          have hnotMem := (List.nodup_cons.mp hnodup).1
          show e' ∈ rest ↔ e' ∈ e :: rest ∧ some e' ≠ some e
          rw [List.mem_cons, ne_eq, Option.some.injEq]
          constructor
          · exact fun hmem => ⟨.inr hmem, ne_of_mem_of_not_mem hmem hnotMem⟩
          · exact fun hor => hor.1.resolve_left hor.2
    · rw [Function.update_of_ne hhh]
      refine ⟨fun hmem => ⟨hmem, fun heq => hhh ?_⟩, And.left⟩
      -- the first entry of another chain has another hash
      have hmem' : e' ∈ L h := List.mem_of_mem_head? (heq.trans hhead).symm
      exact (hc.entry h' hh' e' hmem).1.symm.trans (hc.entry h hh e' hmem').1
  have hkept : ∀ {k e' v}, ((live k).filter fun x => some x.1 ≠ s.entries h) = some (e', v) ↔
      live k = some (e', v) ∧ some e' ≠ s.entries h := by
    intro k e' v
    rw [Option.filter_eq_some_iff, decide_eq_true_eq]
  constructor
  case path =>
    intro h' hh'
    show IsPath s.next (Function.update s.entries h ((s.entries h).bind s.next) h') _ _
    by_cases hhh : h' = h
    · subst hhh
      rw [Function.update_self, Function.update_self, hhead]
      cases hL : L h' with
      | nil => rfl
      | cons e rest =>
          rw [hL] at hpath
          exact hpath.2
    · rw [Function.update_of_ne hhh, Function.update_of_ne hhh]
      exact hc.path h' hh'
  case nodup =>
    intro h' hh'
    by_cases hhh : h' = h
    · subst hhh
      rw [Function.update_self]
      exact (List.tail_sublist _).nodup (hc.nodup h' hh')
    · rw [Function.update_of_ne hhh]
      exact hc.nodup h' hh'
  case entry =>
    intro h' hh' e' he'
    obtain ⟨hmem, hne⟩ := (hleft h' hh' e').mp he'
    obtain ⟨hhash, hl, hret⟩ := hc.entry h' hh' e' hmem
    exact ⟨hhash, hkept.mpr ⟨hl, hne⟩, hret⟩
  case present =>
    intro k e' v hk
    obtain ⟨hl, hne⟩ := hkept.mp hk
    obtain ⟨hmem, hkey, hu⟩ := hc.present k e' v hl
    exact ⟨(hleft _ (hkey_le s k) e').mpr ⟨hmem, hne⟩, hkey, hu⟩

/-- After a clear the chains are empty. -/
theorem chains_clear : Chains s.clear (fun _ => none) [] fun _ => [] where
  path := fun _ hh => if_pos hh
  nodup := fun _ _ => List.nodup_nil
  entry := fun _ _ _ he => absurd he List.not_mem_nil
  present := nofun

/-! ## Runs -/

/-- The invariant of a run. -/
def Inv (r : Run V) : Prop :=
  ∃ free alloc L, Blocks r.map r.returned free alloc ∧ Chains r.map r.live r.returned L

/-- Entries that were returned before are returned again. -/
theorem Inv.again {t : State V} {live : Live V} {returned r : List Entry}
    (h : Inv ⟨t, live, returned⟩) (hr : ∀ e ∈ r, e ∈ returned) : Inv ⟨t, live, r ++ returned⟩ := by
  obtain ⟨free, alloc, L, hb, hc⟩ := h
  refine ⟨free, alloc, L, { hb with taken := ?_ }, { hc with entry := ?_ }⟩
  · exact fun e he => hb.taken e ((List.mem_append.mp he).elim (hr e) id)
  · intro h hh e he
    obtain ⟨hhash, hl, hmem⟩ := hc.entry h hh e he
    exact ⟨hhash, hl, List.mem_append_right _ hmem⟩

/-- The entry that is inserted was not returned before, and reads as zero. -/
theorem Inv.insertAt [Zero V] {s : Run V} (h : Inv s) (hlive : s.live ptr = none) :
    let r := s.map.insertAt ptr (s.map.hkey ptr)
    Inv ⟨r.1, Function.update s.live ptr (some (r.2, 0)), r.2 :: s.returned⟩ ∧
      r.2 ∉ s.returned ∧ r.1.u r.2 = 0 := by
  obtain ⟨free, alloc, L, hb, hc⟩ := h
  obtain ⟨hcurrent, free', alloc', hb'⟩ := hb.openBloc
  have hfields : s.map.openBloc.1.entries = s.map.entries ∧ s.map.openBloc.1.mask = s.map.mask ∧
      s.map.openBloc.1.key = s.map.key ∧ s.map.openBloc.1.next = s.map.next ∧
      s.map.openBloc.1.u = s.map.u := by
    unfold State.openBloc State.allocateBloc
    split
    · split <;> exact ⟨rfl, rfl, rfl, rfl, rfl⟩
    · exact ⟨rfl, rfl, rfl, rfl, rfl⟩
  obtain ⟨hentries, hmask, hkey, hnext, hu⟩ := hfields
  have hc' := hc.congr hentries hmask hkey hnext hu
  have hhash : s.map.openBloc.1.hkey ptr = s.map.hkey ptr := by
    unfold State.hkey
    rw [hmask]
  have hfresh := hb'.fresh hcurrent
  have hlink := hc'.link hfresh hlive
  rw [hhash] at hlink
  exact ⟨⟨free', alloc', _, hb'.link hcurrent, hlink⟩, hfresh, Function.update_self _ _ _⟩

theorem Inv.initial {s : Run V} (h : Initial s) : Inv s := by
  obtain ⟨⟨m, powsize, initbloc, hmap, hlt⟩, hlive, hret⟩ := h
  obtain ⟨map, live, returned⟩ := s
  obtain rfl : map = m.init powsize initbloc := hmap
  obtain rfl : returned = [] := hret
  have hlive : ∀ k, live k = none := hlive
  refine ⟨[], [], fun _ => [], ?_, ?_⟩
  · refine ⟨rfl, rfl, List.nodup_nil, List.nodup_nil, .inl rfl, nofun, nofun, fun b hb => ?_, nofun⟩
    have hb : initbloc = some b := hb
    refine ⟨List.not_mem_nil, hlt b hb, ?_⟩
    show (if initbloc = some b then 0 else m.pos b) < blocEntriesSize
    rw [if_pos hb]
    exact Nat.succ_pos _
  · refine ⟨fun h hh => if_pos hh, fun _ _ => List.nodup_nil, fun _ _ _ he => absurd he
      List.not_mem_nil, fun k e v hk => ?_⟩
    have hk : live k = some (e, v) := hk
    rw [hlive k] at hk
    cases hk

/-- An operation of a caller that respects the contract keeps the invariant. -/
theorem Inv.step [Zero V] {s t : Run V} {op : Op V} (h : Inv s) (hok : Respects s op)
    (hstep : step s op = some t) : Inv t := by
  obtain ⟨⟨map', r⟩, hexec, rfl⟩ := Option.map_eq_some_iff.mp hstep
  have ⟨free, alloc, L, hb, hc⟩ := h
  cases op with
  | findinsert ptr =>
      obtain ⟨⟨map₁, e⟩, hfi, heq⟩ := Option.map_eq_some_iff.mp hexec
      obtain ⟨rfl, rfl⟩ := Prod.mk.inj heq
      unfold State.findinsert at hfi
      rw [hc.find_eq hb, Option.map_some] at hfi
      cases hlive : s.live ptr with
      | none =>
          rw [hlive] at hfi
          obtain ⟨rfl, rfl⟩ := Prod.mk.inj (Option.some.inj hfi)
          have hinv := (h.insertAt hlive).1
          simp only [Live.exec, if_pos hlive]
          exact hinv
      | some x =>
          rw [hlive] at hfi
          obtain ⟨rfl, rfl⟩ := Prod.mk.inj (Option.some.inj hfi)
          obtain ⟨hmem, _⟩ := hc.present ptr x.1 x.2 hlive
          have hret := (hc.entry _ (hkey_le _ ptr) _ hmem).2.2
          simp only [Live.exec, hlive]
          exact h.again (r := [x.1]) (List.forall_mem_singleton.mpr hret)
  | insert ptr =>
      obtain ⟨rfl, rfl⟩ := Prod.mk.inj (Option.some.inj hexec)
      have hlive : s.live ptr = none := hok
      simp only [Live.exec, if_pos hlive]
      exact (h.insertAt hlive).1
  | find ptr =>
      obtain ⟨e, hfind, heq⟩ := Option.map_eq_some_iff.mp hexec
      obtain ⟨rfl, rfl⟩ := Prod.mk.inj heq
      refine h.again fun e' he' => ?_
      rw [hc.find_eq hb] at hfind
      obtain rfl := Option.some.inj hfind
      obtain ⟨x, hlive, rfl⟩ := Option.map_eq_some_iff.mp (Option.mem_toList.mp he')
      obtain ⟨hmem, _⟩ := hc.present ptr x.1 x.2 hlive
      exact (hc.entry _ (hkey_le _ ptr) _ hmem).2.2
  | assign entry v =>
      obtain ⟨rfl, rfl⟩ := Prod.mk.inj (Option.some.inj hexec)
      exact ⟨free, alloc, L, { hb with }, hc.assign v⟩
  | pop h' =>
      obtain ⟨rfl, rfl⟩ := Prod.mk.inj (Option.some.inj hexec)
      have hpop : Inv ⟨(s.map.pop h').1, fun k => (s.live k).filter fun x =>
          some x.1 ≠ s.map.entries h', s.returned⟩ :=
        ⟨free, alloc, _, { hb with }, hc.pop hok⟩
      refine hpop.again fun e he => ?_
      have hhead : s.map.entries h' = (L h').head? := (hc.path h' hok).eq_head?
      have he : s.map.entries h' = some e := Option.mem_toList.mp he
      exact (hc.entry h' hok e (List.mem_of_mem_head? (hhead.symm.trans he))).2.2
  | clear =>
      obtain ⟨rfl, rfl⟩ := Prod.mk.inj (Option.some.inj hexec)
      obtain ⟨free', hb'⟩ := hb.clear
      exact ⟨free', [], _, hb', chains_clear⟩

/-- What the operations return in a state of a run. A search ends and finds the entry of a present
key, and nothing for another one. The entry has the last value assigned for the key, and distinct
keys have distinct entries. An insertion returns the entry of a present key, or one that reads as
zero and is that of no present key. A chain gives the entry of a present key of its hash until
there is none. -/
structure MapSound [Zero V] (s : Run V) : Prop where
  find : ∀ k, s.map.find k = some ((s.live k).map Prod.fst)
  value : ∀ k e v, s.live k = some (e, v) → s.map.key e = k ∧ s.map.u e = v
  distinct : ∀ k k' e v v', s.live k = some (e, v) → s.live k' = some (e, v') → k = k'
  findinsert : ∀ k, ∃ t e, s.map.findinsert k = some (t, e) ∧
    (∀ e' v, s.live k = some (e', v) → e = e') ∧
    (s.live k = none → t.u e = 0 ∧ ∀ k' v, s.live k' ≠ some (e, v))
  insert : ∀ k, s.live k = none → (s.map.insert k).1.u (s.map.insert k).2 = 0 ∧
    ∀ k' v, s.live k' ≠ some ((s.map.insert k).2, v)
  pop : ∀ h ≤ s.map.mask,
    ((s.map.pop h).2 = none ↔ ∀ k, s.map.hkey k = h → s.live k = none) ∧
    ∀ e, (s.map.pop h).2 = some e → ∃ k v, s.map.hkey k = h ∧ s.live k = some (e, v)

/-- The hash map refines the finite map, in every run of callers that respect the contract. -/
theorem hashmap_sound [Zero V] {s : Run V} (hs : system.ReachableWhen Respects s) : MapSound s := by
  have h : Inv s := by
    induction hs with
    | start hinit => exact .initial hinit
    | next _ hok hstep ih => exact ih.step hok hstep
  have ⟨free, alloc, L, hb, hc⟩ := h
  have hnew : ∀ e ∉ s.returned, ∀ k v, s.live k ≠ some (e, v) := by
    intro e he k v hk
    exact he (hc.entry _ (hkey_le _ k) e (hc.present k e v hk).1).2.2
  constructor
  case find => exact fun k => hc.find_eq hb k
  case value => exact fun k e v hk => (hc.present k e v hk).2
  case distinct => exact fun k k' e v v' hk hk' => hc.key_unique hk hk'
  case findinsert =>
    intro k
    unfold State.findinsert
    rw [hc.find_eq hb, Option.map_some]
    cases hlive : s.live k with
    | none =>
        obtain ⟨_, hfresh, hzero⟩ := h.insertAt hlive
        exact ⟨_, _, rfl, nofun, fun _ => ⟨hzero, hnew _ hfresh⟩⟩
    | some x =>
        refine ⟨s.map, x.1, rfl, fun e' v hk => ?_, nofun⟩
        exact congrArg Prod.fst (Option.some.inj hk)
  case insert =>
    intro k hlive
    obtain ⟨_, hfresh, hzero⟩ := h.insertAt hlive
    exact ⟨hzero, hnew _ hfresh⟩
  case pop =>
    intro h hh
    have hhead : s.map.entries h = (L h).head? := (hc.path h hh).eq_head?
    have hsome : ∀ e, s.map.entries h = some e →
        ∃ k v, s.map.hkey k = h ∧ s.live k = some (e, v) := by
      intro e he
      obtain ⟨hhash, hl, _⟩ := hc.entry h hh e (List.mem_of_mem_head? (hhead.symm.trans he))
      exact ⟨_, _, hhash, hl⟩
    refine ⟨⟨fun hnone k hk => ?_, fun hall => ?_⟩, hsome⟩
    · have hnil : L h = [] := List.head?_eq_none_iff.mp (hhead.symm.trans hnone)
      cases hlive : s.live k with
      | none => rfl
      | some x =>
          have hmem := (hc.present k x.1 x.2 hlive).1
          rw [hk, hnil] at hmem
          cases hmem
    · cases he : s.map.entries h with
      | none => exact he
      | some e =>
          obtain ⟨k, v, hk, hl⟩ := hsome e he
          rw [hall k hk] at hl
          cases hl

/-- A map with a table of one chain and no block. -/
def emptyRun : Run ℕ where
  map := State.init ⟨fun _ => none, 0, none, none, none, fun _ => none, fun _ => 0, fun _ => 0,
    fun _ => none, fun _ => 0, 0⟩ 0 none
  live := fun _ => none
  returned := []

/-- Two keys in one chain, of which one is popped, and a third one in the block after a clear. -/
theorem hashmap_sound_twoRounds :
    MapSound ((system.replay Respects emptyRun
      [.findinsert 5, .insert 6, .assign (0, 0) 7, .findinsert 5, .pop 0, .find 6, .clear,
        .findinsert 9, .assign (0, 0) 3]).get (by decide)) :=
  hashmap_sound ((TransitionSystem.ReachableWhen.start
    (show Initial emptyRun from ⟨⟨_, 0, none, rfl, nofun⟩, fun _ => rfl, rfl⟩)).replay
      (Option.some_get _).symm)

end Xkblas.Memory.HashMap
