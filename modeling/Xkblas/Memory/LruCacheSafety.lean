import Xkblas.Library.TransitionSystem
import Xkblas.Memory.LruCacheSweep
import Xkblas.Library.FinLiteral

/-!
# The bookkeeping of the software caches

The runs interleave the operations on the caches with steps of the rest of the distributed shared
memory, which may change the metadata of a data in any way that leaves the caches and keeps its
bits consistent. `Bookkeeping` holds in every run in which a cache is only invalidated as a whole
when its two lists are empty (`bookkeeping_of_emptyInvalidation`). The invalidation of a cache
that is not empty loses its entries (`not_bookkeeping_of_invalidateCache`).
-/

namespace Xkblas.Memory.LruCache

open Library
open scoped Library.FinLiteral
open Dsm (Lid host CacheList)

variable {δ : Type*} {n : Nat}

/-! ## Walks -/

section Walks

variable [DecidableEq δ] {s t : State δ n} {l : Lid n} {p : State δ n → Prop}

/-- What the drops of a walk keep holds after the walk. -/
theorem State.evictLoop_rule {k : CacheList} {fuel size2 r : Nat} {curr : Option EntryId}
    (hdrop : ∀ u e d, p u → l ∉ (u.mdi d).xfer → p (u.evictEntry l k e d)) (hs : p s)
    (hstep : State.evictLoop l k fuel curr size2 s = some (t, r)) : p t := by
  induction fuel generalizing curr size2 s with
  | zero => cases hstep
  | succ fuel ih =>
      cases curr with
      | none =>
          cases hstep
          exact hs
      | some e =>
          simp only [State.evictLoop] at hstep
          split at hstep
          case isTrue =>
            cases hstep
            exact hs
          case isFalse =>
            split at hstep
            case h_1 => cases hstep
            case h_2 d _ =>
              split_ifs at hstep with _ hxfer
              · exact ih (hdrop s e d hs hxfer) hstep
              · exact ih hs hstep

/-- What the invalidation of a replica keeps holds after that of the data. -/
theorem State.invalidateData_rule {d : δ}
    (hreplica : ∀ u v l, p u → u.invalidateReplica d l = some v → p v) (hs : p s)
    (hstep : s.invalidateData d = some t) : p t := by
  unfold State.invalidateData at hstep
  revert hstep
  generalize (List.finRange (n + 1)).filter (· ∈ (s.mdi d).alloc) = lids
  induction lids generalizing s with
  | nil => exact fun hstep => Option.some.inj hstep ▸ hs
  | cons l lids ih =>
      intro hstep
      rw [List.foldlM_cons] at hstep
      obtain ⟨u, hu, hrest⟩ := Option.bind_eq_some_iff.mp hstep
      exact ih (hreplica s u l hs hu) hrest

end Walks

/-! ## Consistent metadata -/

/-- A valid replica is allocated, and an allocated one has a pointer. -/
def Metadata.Consistent (m : Metadata n) : Prop :=
  (∀ l, l ∈ m.valid → l ∈ m.alloc) ∧ ∀ l, l ∈ m.alloc → (m.replicas l).ptr ≠ 0

instance (m : Metadata n) : Decidable m.Consistent :=
  inferInstanceAs (Decidable (_ ∧ _))

/-- A replica that loses its memory loses its bits. -/
theorem Metadata.Consistent.deallocate {m : Metadata n} (h : m.Consistent) (l : Lid n)
    (r : Replica) : (m.deallocate l r).Consistent := by
  constructor
  · intro l' hl'
    obtain ⟨hne, hvalid⟩ := Finset.mem_erase.mp hl'
    exact Finset.mem_erase.mpr ⟨hne, h.1 l' hvalid⟩
  · intro l' hl'
    obtain ⟨hne, halloc⟩ := Finset.mem_erase.mp hl'
    rw [Metadata.replicas_deallocate_of_ne hne]
    exact h.2 l' halloc

/-- The host becomes the only valid replica. -/
theorem Metadata.Consistent.setHostValid {m : Metadata n} (h : m.Consistent)
    (halloc : host ∈ m.alloc) : { m with valid := {host} : Metadata n }.Consistent := by
  refine ⟨fun l hl => ?_, h.2⟩
  rw [Finset.mem_singleton.mp hl]
  exact halloc

/-- A replica gets a place in the cache, or leaves it. -/
theorem Metadata.Consistent.setReplica {m : Metadata n} (h : m.Consistent) {l : Lid n}
    {r : Replica}
    (hptr : r.ptr = (m.replicas l).ptr) : (m.setReplica l r).Consistent := by
  refine ⟨h.1, fun l' hl' => ?_⟩
  by_cases hl : l' = l
  · subst hl
    rw [Metadata.replicas_setReplica_self, hptr]
    exact h.2 l' hl'
  · rw [Metadata.replicas_setReplica_of_ne hl]
    exact h.2 l' hl'

/-- The metadata of every data are consistent. -/
def Consistent (s : State δ n) : Prop :=
  ∀ d, (s.mdi d).Consistent

namespace Consistent

variable [DecidableEq δ] {s t : State δ n} {l : Lid n} {d : δ}

theorem setMdi (h : Consistent s) {m : Metadata n} (hm : m.Consistent) :
    Consistent (s.setMdi d m) := by
  intro d'
  by_cases hd : d' = d
  · subst hd
    rwa [State.mdi_setMdi_self]
  · rw [State.mdi_setMdi_of_ne hd]
    exact h d'

omit [DecidableEq δ] in
theorem setCache (h : Consistent s) (c : Cache δ) : Consistent (s.setCache l c) :=
  h

theorem touch {write : Bool} (h : Consistent s) (hstep : s.touch l write d = some t) :
    Consistent t := by
  unfold State.touch at hstep
  split at hstep
  case isTrue => exact Option.some.inj hstep ▸ h
  case isFalse =>
    obtain ⟨⟨c, e⟩, _, rfl⟩ := Option.map_eq_some_iff.mp hstep
    exact (h.setCache _).setMdi ((h d).setReplica rfl)

theorem evictLoop {k : CacheList} {fuel size2 r : Nat} {curr : Option EntryId}
    (h : Consistent s) (hstep : State.evictLoop l k fuel curr size2 s = some (t, r)) :
    Consistent t :=
  State.evictLoop_rule (fun _ _ d hu _ => (hu.setMdi ((hu d).deallocate l _)).setCache _) h hstep

theorem invalidateReplica (h : Consistent s) (hstep : s.invalidateReplica d l = some t) :
    Consistent t := by
  unfold State.invalidateReplica at hstep
  split at hstep
  case isTrue =>
    cases hstep
    exact h.setMdi ((h d).deallocate l _)
  case isFalse =>
    obtain ⟨c, _, rfl⟩ := Option.map_eq_some_iff.mp hstep
    exact (h.setCache c).setMdi ((h d).deallocate l _)

theorem invalidateData (h : Consistent s) (hstep : s.invalidateData d = some t) :
    Consistent t :=
  State.invalidateData_rule (fun _ _ _ hu hv => hu.invalidateReplica hv) h hstep

theorem invalidateBloc (h : Consistent s) (hstep : s.invalidateBloc l d = some t) :
    Consistent t := by
  rcases State.invalidateBloc_cases hstep with rfl | ⟨halloc, rfl⟩
  · exact h
  · exact h.setMdi (((h d).setHostValid halloc).deallocate l _)

theorem invalidateLoop {fuel : Nat} {curr : Option EntryId} (h : Consistent s)
    (hstep : State.invalidateLoop l fuel curr s = some t) : Consistent t := by
  induction fuel generalizing curr s with
  | zero => cases hstep
  | succ fuel ih =>
      cases curr with
      | none => exact Option.some.inj hstep ▸ h
      | some e =>
          simp only [State.invalidateLoop] at hstep
          split at hstep
          case h_1 => cases hstep
          case h_2 d _ =>
            obtain ⟨u, hu, hrest⟩ := Option.bind_eq_some_iff.mp hstep
            obtain ⟨v, hv, rfl⟩ := Option.map_eq_some_iff.mp hu
            have hbloc := h.invalidateBloc hv
            refine ih ?_ hrest
            refine Consistent.setCache (Consistent.setMdi hbloc ?_) _
            exact (hbloc d).setReplica rfl

theorem invalidateCache (h : Consistent s) (hstep : s.invalidateCache l = some t) :
    Consistent t := by
  unfold State.invalidateCache at hstep
  split at hstep
  case isTrue => exact Option.some.inj hstep ▸ h
  case isFalse =>
    obtain ⟨u, hro, hrw⟩ := Option.bind_eq_some_iff.mp hstep
    obtain ⟨v, hv, rfl⟩ := Option.map_eq_some_iff.mp hro
    obtain ⟨w, hw, rfl⟩ := Option.map_eq_some_iff.mp hrw
    exact (((h.invalidateLoop hv).setCache _).invalidateLoop hw).setCache _

end Consistent

/-! ## Runs -/

/-- The two metadata place the replicas in the caches alike. -/
def Metadata.SameCaches (m m' : Metadata n) : Prop :=
  ∀ l, (m'.replicas l).cacheentry = (m.replicas l).cacheentry ∧
    (m'.replicas l).cachelist = (m.replicas l).cachelist

instance (m m' : Metadata n) : Decidable (m.SameCaches m') :=
  inferInstanceAs (Decidable (∀ _, _))

/-- The operations on the caches. `dsm` stands for every other change to the metadata of a data:
the allocation of a replica, the end of a copy, a write, a reservation. -/
inductive Action (δ : Type*) (n : Nat) where
  | touch (l : Lid n) (write : Bool) (d : δ)
  | evict (l : Lid n) (k : CacheList) (size : Nat)
  | invalidateData (d : δ)
  | invalidateBloc (l : Lid n) (d : δ)
  | invalidateCache (l : Lid n)
  | dsm (d : δ) (m : Metadata n)

variable [DecidableEq δ]

def step (s : State δ n) : Action δ n → Option (State δ n)
  | .touch l write d => s.touch l write d
  | .evict l k size => if l = host then none else (s.evictFromlist l k size).map Prod.fst
  | .invalidateData d => s.invalidateData d
  | .invalidateBloc l d => s.invalidateBloc l d
  | .invalidateCache l => s.invalidateCache l
  | .dsm d m => if m.Consistent ∧ (s.mdi d).SameCaches m then some (s.setMdi d m) else none

/-- The caches are empty, and no replica is in one. -/
structure Initial (s : State δ n) : Prop where
  list : ∀ l k, (s.cache l).list k = ⟨none, none⟩
  freelist : ∀ l, (s.cache l).freelist = none
  bloc : ∀ l, (s.cache l).allocatedBloc = []
  uncached : ∀ d l, (s.rep l d).cacheentry = none ∧ (s.rep l d).cachelist = none
  consistent : Consistent s

/-- The sequences of operations on the caches of a machine. -/
def system (δ : Type*) [DecidableEq δ] (n : Nat) : TransitionSystem (State δ n) (Action δ n) where
  initial := Initial
  step := step

/-! ## Bookkeeping -/

/-- The two lists and the free list of a cache hold each entry taken from a block once, and the
entries of the two lists are those that the replicas point to. -/
structure Bookkept (c : Cache δ) (rep : δ → Replica) (es : CacheList → List EntryId)
    (free : List EntryId) : Prop where
  linked : ∀ k, DoublyLinked c.next c.prev (c.list k).beg (c.list k).fin (es k)
  freelist : IsPath c.next c.freelist free none
  nodup : (es .ro ++ es .rw ++ free).Nodup
  taken : (es .ro ++ es .rw ++ free).Perm (Cache.taken c.allocatedBloc)
  back : ∀ k e d, e ∈ es k ∧ c.mdi e = some d ↔
    (rep d).cacheentry = some e ∧ (rep d).cachelist = some k

/-- The bookkeeping of the cache of `l` is right. -/
def Bookkeeping (s : State δ n) (l : Lid n) : Prop :=
  ∃ es free, Bookkept (s.cache l) (s.rep l) es free

/-- A cache is invalidated as a whole only when its lists are empty. -/
def EmptyInvalidation (s : State δ n) (a : Action δ n) : Prop :=
  match a with
  | .invalidateCache l =>
      l ≠ host → ((s.cache l).list .ro).beg = none ∧ ((s.cache l).list .rw).beg = none
  | _ => True

omit [DecidableEq δ] in
instance (s : State δ n) (a : Action δ n) : Decidable (EmptyInvalidation s a) := by
  unfold EmptyInvalidation
  split
  · exact inferInstanceAs (Decidable (_ → _))
  · infer_instance

omit [DecidableEq δ] in
/-- A cache with no entry outside is bookkept. -/
theorem CacheInv.bookkept {c : Cache δ} {rep : δ → Replica} {es : CacheList → List EntryId}
    {free : List EntryId} (h : CacheInv c rep es free ∅) : Bookkept c rep es free := by
  have hnodup : (es .ro ++ es .rw ++ free).Nodup := by
    refine List.nodup_append'.mpr ⟨List.nodup_append'.mpr ⟨(h.linked .ro).nodup,
      (h.linked .rw).nodup, fun e hro hrw => ?_⟩, h.placed.freeNodup, fun e he hfree => ?_⟩
    · cases h.placed.unique hro hrw
    · rcases List.mem_append.mp he with hro | hrw
      · exact h.placed.notFree hro hfree
      · exact h.placed.notFree hrw hfree
  have hperm : (es .ro ++ es .rw ++ free).Perm (Cache.taken c.allocatedBloc) := by
    refine (List.perm_ext_iff_of_nodup hnodup (Cache.nodup_taken _)).mpr fun e => ?_
    rw [h.placed.covers, List.mem_append, List.mem_append]
    constructor
    · rintro ((hro | hrw) | hfree)
      · exact .inl ⟨.ro, hro⟩
      · exact .inl ⟨.rw, hrw⟩
      · exact .inr (.inl hfree)
    · rintro (⟨k, he⟩ | hfree | hout)
      · cases k with
        | ro => exact .inl (.inl he)
        | rw => exact .inl (.inr he)
      · exact .inr hfree
      · exact absurd hout (Set.notMem_empty e)
  exact ⟨h.linked, h.freePath, hnodup, hperm, h.back⟩

omit [DecidableEq δ] in
/-- In the initial states no entry has been taken. -/
theorem Initial.cached {s : State δ n} (h : Initial s) (l : Lid n) : Cached s l ∅ := by
  refine ⟨fun _ => [], [], ?_⟩
  constructor
  case linked =>
    intro k
    rw [h.list l k]
    exact .empty _ _
  case freePath => exact h.freelist l
  case placed =>
    rw [h.bloc l]
    exact ⟨fun hx => absurd hx List.not_mem_nil, List.nodup_nil,
      fun hx => absurd hx List.not_mem_nil, fun hx => absurd hx List.not_mem_nil,
      fun hx => absurd hx List.not_mem_nil, by simp [Cache.taken]⟩
  case bounds =>
    rw [h.bloc l]
    exact fun _ hpos => absurd hpos List.not_mem_nil
  case owned => exact fun he => absurd he List.not_mem_nil
  case back =>
    intro k e d
    rw [(h.uncached d l).1]
    exact ⟨fun he => absurd he.1 List.not_mem_nil, fun he => by cases he.1⟩
  case paired =>
    intro d
    simp [(h.uncached d l).1, (h.uncached d l).2]

/-- One step keeps every cache, with the entries outside. -/
theorem cached_step {s t : State δ n} {a : Action δ n} {outs : Lid n → Set EntryId}
    (h : ∀ l ≠ host, Cached s l (outs l)) (hok : EmptyInvalidation s a)
    (hstep : step s a = some t) : ∀ l ≠ host, Cached t l (outs l) := by
  cases a with
  | touch l write d =>
      intro l' hl'
      by_cases hll : l' = l
      · subst hll
        obtain ⟨u, hu : s.touch l' write d = some u, hcached⟩ := (h l' hl').touch hl'
        obtain rfl : t = u := Option.some.inj (hstep.symm.trans hu)
        exact hcached
      · exact (h l' hl').touch_other hll hstep
  | evict l k size =>
      simp only [step] at hstep
      split at hstep
      case isTrue => cases hstep
      case isFalse hl =>
        obtain ⟨⟨u, r⟩, hu, rfl⟩ := Option.map_eq_some_iff.mp hstep
        exact (Cached.evictFromlist h hl).1 u r hu
  | invalidateData d =>
      obtain ⟨u, hu, hcached⟩ := Cached.invalidateData (d := d) h
      obtain rfl : t = u := Option.some.inj (hstep.symm.trans hu)
      exact hcached
  | invalidateBloc l d => exact fun l' hl' => (h l' hl').invalidateBloc hstep
  | invalidateCache l =>
      have hstep : s.invalidateCache l = some t := hstep
      intro l' hl'
      by_cases hl : l = host
      · rw [State.invalidateCache, if_pos hl] at hstep
        exact Option.some.inj hstep ▸ h l' hl'
      · by_cases hll : l' = l
        · subst hll
          obtain ⟨hro, hrw⟩ := hok hl
          refine (h l' hl').invalidateCache_empty hl hstep fun k => ?_
          cases k with
          | ro => exact hro
          | rw => exact hrw
        · obtain ⟨es, free, hinv⟩ := h l hl
          obtain ⟨hcache, hrep⟩ := (invalidateCache_inv hl hstep hinv).2.1 l' hll
          exact (h l' hl').congr hcache fun d => by rw [hrep]; exact ⟨rfl, rfl⟩
  | dsm d m =>
      simp only [step] at hstep
      split at hstep
      case isFalse => cases hstep
      case isTrue hsame =>
        cases hstep
        exact fun l' hl' => (h l' hl').setMdi (hsame.2 l').1 (hsame.2 l').2

/-- One step keeps the metadata consistent. -/
theorem consistent_step {s t : State δ n} {a : Action δ n} (h : Consistent s)
    (hstep : step s a = some t) : Consistent t := by
  cases a with
  | touch l write d => exact h.touch hstep
  | evict l k size =>
      simp only [step] at hstep
      split at hstep
      case isTrue => cases hstep
      case isFalse =>
        obtain ⟨⟨u, r⟩, hu, rfl⟩ := Option.map_eq_some_iff.mp hstep
        obtain ⟨⟨v, r'⟩, hv, heq⟩ := Option.map_eq_some_iff.mp hu
        cases heq
        exact h.evictLoop hv
  | invalidateData d => exact h.invalidateData hstep
  | invalidateBloc l d => exact h.invalidateBloc hstep
  | invalidateCache l => exact h.invalidateCache hstep
  | dsm d m =>
      simp only [step] at hstep
      split at hstep
      case isFalse => cases hstep
      case isTrue hm =>
        cases hstep
        exact h.setMdi hm.1

/-- In the runs under the condition no entry is outside. -/
theorem cached_of_emptyInvalidation {s : State δ n}
    (hs : (system δ n).ReachableWhen EmptyInvalidation s) : ∀ l ≠ host, Cached s l ∅ := by
  induction hs with
  | start hinit => exact fun l _ => Initial.cached hinit l
  | next _ hok hstep ih => exact cached_step ih hok hstep

/-- In every run in which a cache is invalidated as a whole only when its two lists are empty, the
bookkeeping of every cache is right, a valid replica is allocated, and an allocated one has a
pointer. -/
theorem bookkeeping_of_emptyInvalidation {s : State δ n}
    (hs : (system δ n).ReachableWhen EmptyInvalidation s) :
    (∀ l ≠ host, Bookkeeping s l) ∧
      ∀ d l, (l ∈ (s.mdi d).valid → l ∈ (s.mdi d).alloc) ∧
        (l ∈ (s.mdi d).alloc → ((s.mdi d).replicas l).ptr ≠ 0) := by
  have hconsistent : Consistent s := by
    induction hs with
    | start hinit => exact Initial.consistent hinit
    | next _ _ hstep ih => exact consistent_step ih hstep
  refine ⟨fun l hl => ?_, fun d l => ⟨(hconsistent d).1 l, (hconsistent d).2 l⟩⟩
  obtain ⟨es, free, hinv⟩ := cached_of_emptyInvalidation hs l hl
  exact ⟨es, free, hinv.bookkept⟩

/-- Two data, each valid on the host and on the only device, and empty caches. -/
def sharedState : State Bool 1 where
  mdi := fun _ =>
    { replicas := fun l => ⟨l + 8, 8, 0, none, none⟩
      alloc := Finset.univ
      valid := Finset.univ
      xfer := ∅ }
  cache := fun _ => ⟨fun _ => ⟨none, none⟩, none, [], fun _ => none, fun _ => none, fun _ => none⟩

theorem initial_sharedState : Initial sharedState where
  list := fun _ _ => rfl
  freelist := fun _ => rfl
  bloc := fun _ => rfl
  uncached := fun _ _ => ⟨rfl, rfl⟩
  consistent := fun _ => ⟨fun _ _ => Finset.mem_univ _, fun l _ => Nat.succ_ne_zero (l.val + 7)⟩

/-- The device touches both data, evicts the second, and takes its entry again. -/
def reuseRun : List (Action Bool 1) :=
  [.touch 1 true false, .touch 1 false true, .evict 1 .ro 4, .touch 1 false true,
    .invalidateBloc 1 true, .invalidateData false]

theorem bookkeeping_reuseRun :
    ∃ s, (system Bool 1).replay EmptyInvalidation sharedState reuseRun = some s ∧
      ((s.cache 1).list .ro).beg = some ⟨0, 2⟩ ∧ (s.cache 1).freelist = some ⟨0, 1⟩ ∧
      (∀ l ≠ host, Bookkeeping s l) :=
  ⟨((system Bool 1).replay EmptyInvalidation sharedState reuseRun).get (by decide),
    (Option.some_get _).symm, by decide, by decide,
    (bookkeeping_of_emptyInvalidation
      (.replay (.start initial_sharedState) (Option.some_get _).symm)).1⟩

/-! ## Lost entries -/

omit [DecidableEq δ] in
/-- A cache that is bookkept has no entry outside. -/
theorem Bookkept.out_eq_empty {c : Cache δ} {rep : δ → Replica} {es es' : CacheList → List EntryId}
    {free free' : List EntryId} {out : Set EntryId} (h : Bookkept c rep es free)
    (hinv : CacheInv c rep es' free' out) : out = ∅ := by
  have hes : ∀ k, es k = es' k := fun k => (h.linked k).forward.unique (hinv.linked k).forward
  have hfree : free = free' := h.freelist.unique hinv.freePath
  refine Set.eq_empty_of_forall_notMem fun e hout => ?_
  have htaken := h.taken.mem_iff.mpr ((hinv.placed.covers e).mpr (.inr (.inr hout)))
  rw [List.mem_append, List.mem_append, hes, hes, hfree] at htaken
  rcases htaken with (hro | hrw) | hmem
  · exact hinv.placed.notOut hro hout
  · exact hinv.placed.notOut hrw hout
  · exact hinv.placed.freeNotOut hmem hout

/-- The invalidation of a cache that is not empty loses its entries. -/
theorem not_bookkeeping_of_invalidateCache {s t : State δ n} {l : Lid n} {out : Set EntryId}
    (h : Cached s l out) (hl : l ≠ host) (hstep : s.invalidateCache l = some t)
    (hfull : ∃ k, ((s.cache l).list k).beg ≠ none) : ¬ Bookkeeping t l := by
  rintro ⟨es'', free'', hbookkept⟩
  obtain ⟨es, free, hinv⟩ := h
  obtain ⟨⟨es', free', ht⟩, _⟩ := invalidateCache_inv hl hstep hinv
  have hempty := hbookkept.out_eq_empty ht
  obtain ⟨k, hbeg⟩ := hfull
  -- the first entry of the list is lost
  obtain ⟨e, he⟩ : ∃ e, e ∈ es k := by
    rw [(hinv.linked k).beg_eq] at hbeg
    obtain ⟨e, he⟩ := Option.ne_none_iff_exists'.mp hbeg
    exact ⟨e, List.mem_of_mem_head? he⟩
  refine absurd hempty (Set.nonempty_iff_ne_empty.mp ⟨e, ?_⟩)
  cases k with
  | ro => exact .inl (.inr ⟨List.ne_nil_of_mem he, .inl he⟩)
  | rw =>
      have hrw : Function.update es .ro [] .rw = es .rw := Function.update_of_ne (by decide) _ _
      exact .inr ⟨by rw [hrw]; exact List.ne_nil_of_mem he, .inl (by rwa [hrw])⟩

/-- Without a condition on the invalidations the bookkeeping is lost: the device touches a data
and then invalidates its cache. -/
theorem bookkeeping_lost :
    ¬ ∀ (s : State Bool 1), (system Bool 1).Reachable s →
      (∀ l ≠ host, Bookkeeping s l) ∧
        ∀ d l, (l ∈ (s.mdi d).valid → l ∈ (s.mdi d).alloc) ∧
          (l ∈ (s.mdi d).alloc → ((s.mdi d).replicas l).ptr ≠ 0) := by
  intro hall
  let touched := ((system Bool 1).replay EmptyInvalidation sharedState
    [.touch 1 false false]).get (by decide)
  have hreach : (system Bool 1).ReachableWhen EmptyInvalidation touched :=
    .replay (.start initial_sharedState) (Option.some_get _).symm
  let swept := (touched.invalidateCache 1).get (by decide)
  have hstep : touched.invalidateCache 1 = some swept := (Option.some_get _).symm
  have hkept := hall swept (.next (a := .invalidateCache 1)
    (hreach.mono fun _ _ _ => trivial) trivial hstep)
  exact not_bookkeeping_of_invalidateCache (cached_of_emptyInvalidation hreach 1 (by decide))
    (by decide) hstep ⟨.ro, by decide⟩ (hkept.1 1 (by decide))

end Xkblas.Memory.LruCache
