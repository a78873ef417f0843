import Mathlib.Data.List.Perm.Subperm
import Mathlib.Data.Set.Insert
import Xkblas.Memory.LruCache

/-!
# The invariant of a software cache

`CacheInv` places every entry that has been taken from a block: in one of the two lists, in the
free list, or outside. The lists are doubly linked, the free list is a path, and the entries of
the lists are those that the replicas point to. An operation on the cache is a sequence of four
moves: an entry is taken (`CacheInv.allocateEntry`), an entry leaves its list
(`CacheInv.unlink`), and an entry outside enters a list (`CacheInv.pushFront`) or the free list
(`CacheInv.pushFree`).
-/

namespace Xkblas.Memory.LruCache

open Library
open Dsm (Lid host CacheList)

variable {δ : Type*} {n : Nat}

/-! ## Blocks -/

namespace Cache

/-- The entries of a block come after those of the blocks under it. -/
theorem bloc_lt_of_mem_taken {blocs : List Nat} {e : EntryId} (h : e ∈ taken blocs) :
    e.bloc < blocs.length := by
  induction blocs with
  | nil => cases h
  | cons pos rest ih =>
      rcases List.mem_append.mp h with hnew | hold
      · obtain ⟨i, _, rfl⟩ := List.mem_map.mp hnew
        exact Nat.lt_succ_self _
      · exact (ih hold).trans (Nat.lt_succ_self _)

/-- The entries of a block that has given one more. -/
theorem mem_taken_succ {pos : Nat} {rest : List Nat} (hpos : 1 ≤ pos) (e : EntryId) :
    e ∈ taken ((pos + 1) :: rest) ↔ e ∈ taken (pos :: rest) ∨ e = ⟨rest.length, pos⟩ := by
  have hrange : List.range' 1 (pos + 1 - 1) = List.range' 1 (pos - 1) ++ [pos] := by
    obtain ⟨m, rfl⟩ := Nat.exists_eq_add_of_le hpos
    rw [Nat.add_sub_cancel, Nat.add_sub_cancel_left, Nat.add_comm 1 m, List.range'_1_concat]
    rw [Nat.add_comm 1 m]
  simp only [taken, hrange, List.map_append, List.mem_append, List.map_cons, List.map_nil,
    List.mem_singleton]
  tauto

/-- The next entry of a block has not been taken. -/
theorem notMem_taken {pos : Nat} {rest : List Nat} : ⟨rest.length, pos⟩ ∉ taken (pos :: rest) := by
  intro h
  rcases List.mem_append.mp h with hnew | hold
  · obtain ⟨i, hi, heq⟩ := List.mem_map.mp hnew
    obtain ⟨_, rfl⟩ := EntryId.mk.injEq .. ▸ heq
    have := (List.mem_range'_1.mp hi)
    omega
  · exact absurd (bloc_lt_of_mem_taken hold) (Nat.lt_irrefl _)

/-- The block that is opened has given the same entries, and its next index is in bounds. -/
theorem openBloc_spec {blocs : List Nat} (h : ∀ pos ∈ blocs, 1 ≤ pos ∧ pos ≤ blocSize) :
    taken ((openBloc blocs).1 :: (openBloc blocs).2) = taken blocs ∧
      (1 ≤ (openBloc blocs).1 ∧ (openBloc blocs).1 < blocSize) ∧
      ∀ pos ∈ (openBloc blocs).2, 1 ≤ pos ∧ pos ≤ blocSize := by
  unfold openBloc
  split
  case h_1 => exact ⟨rfl, by decide, fun _ hpos => absurd hpos List.not_mem_nil⟩
  case h_2 pos rest =>
    obtain ⟨hpos, hrest⟩ := List.forall_mem_cons.mp h
    split
    case isTrue => exact ⟨rfl, ⟨Nat.le_refl 1, by show 1 < 1024; decide⟩, h⟩
    case isFalse hne => exact ⟨rfl, ⟨hpos.1, lt_of_le_of_ne hpos.2 hne⟩, hrest⟩

/-- No entry is taken twice. -/
theorem nodup_taken (blocs : List Nat) : (taken blocs).Nodup := by
  induction blocs with
  | nil => exact List.nodup_nil
  | cons pos rest ih =>
      have hblock : ((List.range' 1 (pos - 1)).map (EntryId.mk rest.length)).Nodup :=
        List.Nodup.map (fun i j hij => (EntryId.mk.inj hij).2) List.nodup_range'
      refine List.nodup_append'.mpr ⟨hblock, ih, fun e hnew hold => ?_⟩
      · obtain ⟨i, _, rfl⟩ := List.mem_map.mp hnew
        exact absurd (bloc_lt_of_mem_taken hold) (Nat.lt_irrefl _)

/-- The number of entries is bounded by the sum of the indices. -/
theorem length_taken_le (blocs : List Nat) : (taken blocs).length ≤ blocs.sum := by
  induction blocs with
  | nil => exact Nat.le_refl 0
  | cons pos rest ih =>
      rw [taken, List.length_append, List.length_map, List.length_range', List.sum_cons]
      omega

end Cache

/-! ## The places of the entries -/

/-- Each entry of `all` is in one of the two lists, in the free list, or outside. -/
structure Placed (es : CacheList → List EntryId) (free : List EntryId) (out : Set EntryId)
    (all : List EntryId) : Prop where
  unique : ∀ {k k' e}, e ∈ es k → e ∈ es k' → k = k'
  freeNodup : free.Nodup
  notFree : ∀ {k e}, e ∈ es k → e ∉ free
  notOut : ∀ {k e}, e ∈ es k → e ∉ out
  freeNotOut : ∀ {e}, e ∈ free → e ∉ out
  covers : ∀ e, e ∈ all ↔ (∃ k, e ∈ es k) ∨ e ∈ free ∨ e ∈ out

variable {es : CacheList → List EntryId} {free before after all : List EntryId}
  {out : Set EntryId} {k : CacheList} {e : EntryId}

namespace Placed

/-- The members of the lists when an entry has left its list. -/
theorem mem_unlink (h : Placed es free out all) (hes : es k = before ++ e :: after)
    (hnodup : (es k).Nodup) {k' : CacheList} {x : EntryId} :
    x ∈ Function.update es k (before ++ after) k' ↔ x ∈ es k' ∧ x ≠ e := by
  rw [hes] at hnodup
  have he : e ∈ es k := by simp [hes]
  have hne := (List.nodup_cons.mp (List.nodup_middle.mp hnodup)).1
  by_cases hk : k' = k
  · subst hk
    rw [Function.update_self, hes]
    constructor
    · exact fun hx => ⟨by simp at hx ⊢; tauto, ne_of_mem_of_not_mem hx hne⟩
    · intro hx
      simp only [List.mem_append, List.mem_cons] at hx ⊢
      tauto
  · rw [Function.update_of_ne hk]
    refine ⟨fun hx => ⟨hx, ?_⟩, fun hx => hx.1⟩
    rintro rfl
    exact hk (h.unique hx he)

/-- An entry leaves its list. -/
theorem unlink (h : Placed es free out all) (hes : es k = before ++ e :: after)
    (hnodup : (es k).Nodup) :
    Placed (Function.update es k (before ++ after)) free (insert e out) all := by
  have he : e ∈ es k := by simp [hes]
  have hmem : ∀ {k' x}, x ∈ Function.update es k (before ++ after) k' ↔ x ∈ es k' ∧ x ≠ e :=
    fun {_ _} => h.mem_unlink hes hnodup
  constructor
  case unique => exact fun hx hx' => h.unique (hmem.mp hx).1 (hmem.mp hx').1
  case freeNodup => exact h.freeNodup
  case notFree => exact fun hx => h.notFree (hmem.mp hx).1
  case notOut =>
    intro k' x hx hout
    rcases Set.mem_insert_iff.mp hout with heq | hout
    · exact (hmem.mp hx).2 heq
    · exact h.notOut (hmem.mp hx).1 hout
  case freeNotOut =>
    intro x hx hout
    rcases Set.mem_insert_iff.mp hout with rfl | hout
    · exact h.notFree he hx
    · exact h.freeNotOut hx hout
  case covers =>
    intro x
    simp only [h.covers, hmem, Set.mem_insert_iff]
    by_cases hx : x = e
    · subst hx
      exact ⟨fun _ => .inr (.inr (.inl rfl)), fun _ => .inl ⟨k, he⟩⟩
    · simp [hx]

/-- The members of the lists when an entry has entered one. -/
theorem mem_push {k' : CacheList} {x : EntryId} :
    x ∈ Function.update es k (e :: es k) k' ↔ x ∈ es k' ∨ x = e ∧ k' = k := by
  by_cases hk : k' = k
  · subst hk
    simp [or_comm]
  · simp [hk]

/-- An entry outside enters a list. -/
theorem push (h : Placed es free out all) (he : e ∈ out) :
    Placed (Function.update es k (e :: es k)) free (out \ {e}) all := by
  have hmem : ∀ {k' x}, x ∈ Function.update es k (e :: es k) k' ↔ x ∈ es k' ∨ x = e ∧ k' = k :=
    fun {_ _} => mem_push
  constructor
  case unique =>
    intro k₁ k₂ x hx hx'
    rcases hmem.mp hx with hx | ⟨hxe, hk⟩ <;> rcases hmem.mp hx' with hx' | ⟨hxe', hk'⟩
    · exact h.unique hx hx'
    · exact absurd he (hxe' ▸ h.notOut hx)
    · exact absurd he (hxe ▸ h.notOut hx')
    · exact hk.trans hk'.symm
  case freeNodup => exact h.freeNodup
  case notFree =>
    intro k' x hx
    rcases hmem.mp hx with hx | ⟨rfl, _⟩
    · exact h.notFree hx
    · exact fun hfree => h.freeNotOut hfree he
  case notOut =>
    intro k' x hx hout
    rcases hmem.mp hx with hx | ⟨rfl, _⟩
    · exact h.notOut hx hout.1
    · exact hout.2 rfl
  case freeNotOut => exact fun hx hout => h.freeNotOut hx hout.1
  case covers =>
    intro x
    simp only [h.covers, hmem, Set.mem_sdiff, Set.mem_singleton_iff]
    by_cases hx : x = e
    · subst hx
      simp [he]
    · simp [hx]

/-- An entry outside enters the free list. -/
theorem pushFree (h : Placed es free out all) (he : e ∈ out) :
    Placed es (e :: free) (out \ {e}) all := by
  constructor
  case unique => exact h.unique
  case freeNodup => exact List.nodup_cons.mpr ⟨fun hfree => h.freeNotOut hfree he, h.freeNodup⟩
  case notFree =>
    intro k' x hx hfree
    rcases List.mem_cons.mp hfree with rfl | hfree
    · exact h.notOut hx he
    · exact h.notFree hx hfree
  case notOut => exact fun hx hout => h.notOut hx hout.1
  case freeNotOut =>
    intro x hx hout
    rcases List.mem_cons.mp hx with rfl | hx
    · exact hout.2 rfl
    · exact h.freeNotOut hx hout.1
  case covers =>
    intro x
    simp only [h.covers, List.mem_cons, Set.mem_sdiff, Set.mem_singleton_iff]
    by_cases hx : x = e
    · subst hx
      simp [he]
    · simp [hx]

/-- The first entry of the free list is taken out of it. -/
theorem popFree (h : Placed es (e :: free) out all) : Placed es free (insert e out) all := by
  obtain ⟨he, hnodup⟩ := List.nodup_cons.mp h.freeNodup
  constructor
  case unique => exact h.unique
  case freeNodup => exact hnodup
  case notFree => exact fun hx hfree => h.notFree hx (List.mem_cons_of_mem _ hfree)
  case notOut =>
    intro k' x hx hout
    rcases Set.mem_insert_iff.mp hout with rfl | hout
    · exact h.notFree hx List.mem_cons_self
    · exact h.notOut hx hout
  case freeNotOut =>
    intro x hx hout
    rcases Set.mem_insert_iff.mp hout with rfl | hout
    · exact he hx
    · exact h.freeNotOut (List.mem_cons_of_mem _ hx) hout
  case covers =>
    intro x
    simp only [h.covers, List.mem_cons, Set.mem_insert_iff]
    tauto

/-- A block gives a new entry. -/
theorem fresh {all' : List EntryId} (h : Placed es free out all) (he : e ∉ all)
    (hall : ∀ x, x ∈ all' ↔ x ∈ all ∨ x = e) : Placed es free (insert e out) all' := by
  have hcovers := fun x => (h.covers x).mpr
  constructor
  case unique => exact h.unique
  case freeNodup => exact h.freeNodup
  case notFree => exact h.notFree
  case notOut =>
    intro k' x hx hout
    rcases Set.mem_insert_iff.mp hout with rfl | hout
    · exact he (hcovers x (.inl ⟨k', hx⟩))
    · exact h.notOut hx hout
  case freeNotOut =>
    intro x hx hout
    rcases Set.mem_insert_iff.mp hout with rfl | hout
    · exact he (hcovers x (.inr (.inl hx)))
    · exact h.freeNotOut hx hout
  case covers =>
    intro x
    simp only [hall, h.covers, Set.mem_insert_iff]
    tauto

end Placed

/-! ## The invariant and its moves -/

/-- The entries of the cache `c` are in the places `es`, `free` and `out`, and those of the two
lists are the ones that the replicas `rep` of the device point to. -/
structure CacheInv (c : Cache δ) (rep : δ → Replica) (es : CacheList → List EntryId)
    (free : List EntryId) (out : Set EntryId) : Prop where
  linked : ∀ k, DoublyLinked c.next c.prev (c.list k).beg (c.list k).fin (es k)
  freePath : IsPath c.next c.freelist free none
  placed : Placed es free out (Cache.taken c.allocatedBloc)
  bounds : ∀ pos ∈ c.allocatedBloc, 1 ≤ pos ∧ pos ≤ blocSize
  owned : ∀ {k e}, e ∈ es k → ∃ d, c.mdi e = some d
  back : ∀ k e d, e ∈ es k ∧ c.mdi e = some d ↔
    (rep d).cacheentry = some e ∧ (rep d).cachelist = some k
  paired : ∀ d, (rep d).cacheentry = none ↔ (rep d).cachelist = none

namespace CacheInv

variable {c c' : Cache δ} {rep rep' : δ → Replica} {d : δ}

/-- The fields of the entries outside are not read, nor is what a replica does not say about its
entry. -/
theorem congr (h : CacheInv c rep es free out) (hlist : c'.list = c.list)
    (hfree : c'.freelist = c.freelist) (hbloc : c'.allocatedBloc = c.allocatedBloc)
    (hnext : ∀ e ∉ out, c'.next e = c.next e) (hprev : ∀ e ∉ out, c'.prev e = c.prev e)
    (hmdi : ∀ e ∉ out, c'.mdi e = c.mdi e)
    (hrep : ∀ d, (rep' d).cacheentry = (rep d).cacheentry ∧
      (rep' d).cachelist = (rep d).cachelist) : CacheInv c' rep' es free out := by
  have hout : ∀ {k e}, e ∈ es k → e ∉ out := h.placed.notOut
  constructor
  case linked =>
    intro k
    rw [hlist]
    exact (h.linked k).congr (fun e he => hnext e (hout he)) fun e he => hprev e (hout he)
  case freePath =>
    rw [hfree]
    exact h.freePath.congr fun e he => hnext e (h.placed.freeNotOut he)
  case placed => exact hbloc ▸ h.placed
  case bounds => exact hbloc ▸ h.bounds
  case owned =>
    intro k e he
    rw [hmdi e (hout he)]
    exact h.owned he
  case back =>
    intro k e d
    rw [(hrep d).1, (hrep d).2, ← h.back]
    refine and_congr_right fun he => ?_
    rw [hmdi e (hout he)]
  case paired =>
    intro d
    rw [(hrep d).1, (hrep d).2]
    exact h.paired d

/-- The number of entries of a list is less than the fuel of its walks. -/
theorem length_lt_fuel (h : CacheInv c rep es free out) (k : CacheList) :
    (es k).length < c.fuel := by
  have hsub : es k ⊆ Cache.taken c.allocatedBloc := fun e he =>
    (h.placed.covers e).mpr (.inl ⟨k, he⟩)
  have hlen := ((h.linked k).nodup.subperm hsub).length_le
  exact Nat.lt_succ_of_le (hlen.trans (Cache.length_taken_le _))

/-- The entry of a replica that is in a list. -/
theorem mem_of_cacheentry (h : CacheInv c rep es free out) (he : (rep d).cacheentry = some e) :
    ∃ k, (rep d).cachelist = some k ∧ e ∈ es k ∧ c.mdi e = some d := by
  have hlist : (rep d).cachelist ≠ none := fun hnone => by
    rw [(h.paired d).mpr hnone] at he
    cases he
  obtain ⟨k, hk⟩ := Option.ne_none_iff_exists'.mp hlist
  exact ⟨k, hk, (h.back k e d).mpr ⟨he, hk⟩⟩

/-- `unlink` writes the links of entries of the list only. -/
theorem unlink_frame (h : CacheInv c rep es free out) (hes : es k = before ++ e :: after)
    {x : EntryId} (hx : x ∉ es k) :
    (c.unlink k e).next x = c.next x ∧ (c.unlink k e).prev x = c.prev x := by
  have hl := h.linked k
  rw [hes] at hl hx
  obtain ⟨hb, ha⟩ := hl.notMem
  have hprev : assignAt c.prev (c.next e) (c.prev e) e = c.prev e := by
    rw [hl.next_eq]
    exact assignAt_head?_of_notMem ha
  constructor
  · show assignAt c.next (assignAt c.prev (c.next e) (c.prev e) e) (c.next e) x = c.next x
    rw [hprev, hl.prev_eq]
    exact assignAt_getLast?_of_notMem fun hmem => hx (List.mem_append_left _ hmem)
  · show assignAt c.prev (c.next e) (c.prev e) x = c.prev x
    rw [hl.next_eq]
    exact assignAt_head?_of_notMem fun hmem =>
      hx (List.mem_append_right _ (List.mem_cons_of_mem _ hmem))

/-- An entry leaves its list, and its replica forgets it. -/
theorem unlink [DecidableEq δ] (h : CacheInv c rep es free out)
    (hes : es k = before ++ e :: after) (hd : c.mdi e = some d) {r : Replica}
    (hentry : r.cacheentry = none) (hlist : r.cachelist = none) :
    CacheInv (c.unlink k e) (Function.update rep d r)
      (Function.update es k (before ++ after)) free (insert e out) := by
  have he : e ∈ es k := by simp [hes]
  have hplaced := h.placed.unlink hes (h.linked k).nodup
  have hframe := fun {x} hx => h.unlink_frame (x := x) hes hx
  have hl := h.linked k
  rw [hes] at hl
  have hprev : assignAt c.prev (c.next e) (c.prev e) e = c.prev e := by
    rw [hl.next_eq]
    exact assignAt_head?_of_notMem hl.notMem.2
  constructor
  case linked =>
    intro k'
    by_cases hk : k' = k
    · subst hk
      simp only [Cache.unlink, Function.update_self]
      rw [hprev]
      exact hl.unlink
    · rw [Function.update_of_ne hk]
      simp only [Cache.unlink, Function.update_of_ne hk]
      have hother : ∀ x ∈ es k', x ∉ es k := fun x hx hxk => hk (h.placed.unique hx hxk)
      exact (h.linked k').congr (fun x hx => (hframe (hother x hx)).1)
        fun x hx => (hframe (hother x hx)).2
  case freePath =>
    exact h.freePath.congr fun x hx => (hframe fun hxk => h.placed.notFree hxk hx).1
  case placed => exact hplaced
  case bounds => exact h.bounds
  case owned =>
    intro k' x hx
    exact h.owned ((h.placed.mem_unlink hes (h.linked k).nodup).mp hx).1
  case back =>
    intro k' x d'
    rw [h.placed.mem_unlink hes (h.linked k).nodup]
    by_cases hdd : d' = d
    · subst hdd
      rw [Function.update_self, hentry]
      refine ⟨?_, fun hnone => by cases hnone.1⟩
      rintro ⟨⟨hx, hne⟩, hxd⟩
      -- the replica of `d` points to one entry only, and this is `e`
      have hxe := ((h.back k' x d').mp ⟨hx, hxd⟩).1
      rw [((h.back k e d').mp ⟨he, hd⟩).1] at hxe
      exact absurd (Option.some.inj hxe).symm hne
    · rw [Function.update_of_ne hdd, ← h.back]
      constructor
      · exact fun hx => ⟨hx.1.1, hx.2⟩
      · intro hx
        refine ⟨⟨hx.1, ?_⟩, hx.2⟩
        rintro rfl
        rw [hd] at hx
        exact hdd (Option.some.inj hx.2).symm
  case paired =>
    intro d'
    by_cases hdd : d' = d
    · subst hdd
      simp [hentry, hlist]
    · rw [Function.update_of_ne hdd]
      exact h.paired d'

/-- An entry outside that holds the data of an uncached replica enters a list. -/
theorem pushFront [DecidableEq δ] (h : CacheInv c rep es free out) (he : e ∈ out)
    (hd : c.mdi e = some d) (huncached : (rep d).cacheentry = none) {r : Replica}
    (hentry : r.cacheentry = some e) (hlist : r.cachelist = some k) :
    CacheInv (c.pushFront k e) (Function.update rep d r)
      (Function.update es k (e :: es k)) free (out \ {e}) := by
  have hnot : ∀ k', e ∉ es k' := fun k' hmem => h.placed.notOut hmem he
  have hnext : ∀ x, x ≠ e → (c.pushFront k e).next x = c.next x := fun x hx =>
    Function.update_of_ne hx _ _
  have hprev : ∀ x, x ≠ e → x ∉ es k → (c.pushFront k e).prev x = c.prev x := by
    intro x hx hxk
    show assignAt (Function.update c.prev e none) (c.list k).beg (some e) x = c.prev x
    rw [(h.linked k).beg_eq, assignAt_head?_of_notMem hxk, Function.update_of_ne hx]
  constructor
  case linked =>
    intro k'
    by_cases hk : k' = k
    · subst hk
      simp only [Cache.pushFront, Function.update_self]
      exact (h.linked k').pushFront (hnot k')
    · simp only [Function.update_of_ne hk, Cache.pushFront]
      refine (h.linked k').congr (fun x hx => ?_) fun x hx => ?_
      · exact hnext x (ne_of_mem_of_not_mem hx (hnot k'))
      · exact hprev x (ne_of_mem_of_not_mem hx (hnot k')) fun hxk => hk (h.placed.unique hx hxk)
  case freePath =>
    exact h.freePath.congr fun x hx => hnext x fun hxe => h.placed.freeNotOut hx (hxe ▸ he)
  case placed => exact h.placed.push he
  case bounds => exact h.bounds
  case owned =>
    intro k' x hx
    rcases Placed.mem_push.mp hx with hx | ⟨rfl, rfl⟩
    · exact h.owned hx
    · exact ⟨d, hd⟩
  case back =>
    intro k' x d'
    rw [Placed.mem_push]
    by_cases hdd : d' = d
    · subst hdd
      rw [Function.update_self, hentry, hlist]
      constructor
      · rintro ⟨hx | ⟨rfl, rfl⟩, hxd⟩
        · have hback := ((h.back k' x d').mp ⟨hx, hxd⟩).1
          rw [huncached] at hback
          cases hback
        · exact ⟨rfl, rfl⟩
      · rintro ⟨⟨⟩, ⟨⟩⟩
        exact ⟨.inr ⟨rfl, rfl⟩, hd⟩
    · rw [Function.update_of_ne hdd, ← h.back]
      refine and_congr_left fun hxd => or_iff_left ?_
      rintro ⟨rfl, -⟩
      -- `e` holds `d` and no other data
      exact hdd (Option.some.inj (hd.symm.trans hxd)).symm
  case paired =>
    intro d'
    by_cases hdd : d' = d
    · subst hdd
      simp [hentry, hlist]
    · rw [Function.update_of_ne hdd]
      exact h.paired d'

/-- An entry outside enters the free list. -/
theorem pushFree (h : CacheInv c rep es free out) (he : e ∈ out) :
    CacheInv (c.pushFree e) rep es (e :: free) (out \ {e}) := by
  have hnext : ∀ x, x ≠ e → (c.pushFree e).next x = c.next x := fun x hx =>
    Function.update_of_ne hx _ _
  constructor
  case linked =>
    intro k
    refine (h.linked k).congr (fun x hx => hnext x ?_) fun _ _ => rfl
    exact fun hxe => h.placed.notOut hx (hxe ▸ he)
  case freePath =>
    refine ⟨rfl, ?_⟩
    rw [show (c.pushFree e).next e = c.freelist from Function.update_self _ _ _]
    exact h.freePath.congr fun x hx => hnext x fun hxe => h.placed.freeNotOut hx (hxe ▸ he)
  case placed => exact h.placed.pushFree he
  case bounds => exact h.bounds
  case owned => exact h.owned
  case back => exact h.back
  case paired => exact h.paired

/-- An entry is taken from the free list or from a block. -/
theorem allocateEntry (h : CacheInv c rep es free out) :
    ∃ free', CacheInv c.allocateEntry.1 rep es free' (insert c.allocateEntry.2 out) ∧
      c.allocateEntry.2 ∉ out := by
  unfold Cache.allocateEntry
  split
  case h_1 e heq =>
    -- the free list starts with the entry
    obtain ⟨tail, rfl⟩ : ∃ tail, free = e :: tail := by
      cases free with
      | nil =>
          have hnone := h.freePath.eq_head?
          rw [heq] at hnone
          cases hnone
      | cons x tail =>
          obtain rfl : e = x := Option.some.inj (heq.symm.trans h.freePath.1)
          exact ⟨tail, rfl⟩
    refine ⟨tail, ⟨h.linked, h.freePath.2, h.placed.popFree, h.bounds, h.owned, h.back,
      h.paired⟩, h.placed.freeNotOut List.mem_cons_self⟩
  case h_2 =>
    obtain ⟨htaken, hpos, hrest⟩ := Cache.openBloc_spec h.bounds
    have hfresh := @Cache.notMem_taken (Cache.openBloc c.allocatedBloc).1
      (Cache.openBloc c.allocatedBloc).2
    rw [htaken] at hfresh
    refine ⟨free, ⟨h.linked, h.freePath, h.placed.fresh hfresh fun x => ?_, ?_, h.owned, h.back,
      h.paired⟩, fun hout => hfresh ((h.placed.covers _).mpr (.inr (.inr hout)))⟩
    · rw [← htaken]
      exact Cache.mem_taken_succ hpos.1 x
    · exact List.forall_mem_cons.mpr ⟨⟨Nat.le_add_left 1 _, hpos.2⟩, hrest⟩

end CacheInv

end Xkblas.Memory.LruCache
