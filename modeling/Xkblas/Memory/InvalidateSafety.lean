import Xkblas.Memory.InvalidateMachine
import Xkblas.Library.FinLiteral

/-!
# When the invalidation of a data is complete, local and final

The loop over the bits `alloc` clears every replica that holds memory. The counter of reservations
is set before the memory is allocated, and a copy in flight outlives the loop: its callback marks
a replica valid that has no memory any more. The invalidation is sound when there is neither.
-/

namespace Xkblas.Memory.Invalidate

open Library
open scoped Library.FinLiteral
open LruCache
open Dsm (Lid host CacheList)

variable {δ : Type*} {n : Nat}

/-! ## What the loop clears -/

/-- From `m` to `m'` the replicas on `lids` are cleared. -/
structure ClearedOn (lids : List (Lid n)) (m m' : Metadata n) : Prop where
  alloc : ∀ l, l ∈ m'.alloc ↔ l ∈ m.alloc ∧ l ∉ lids
  valid : ∀ l, l ∈ m'.valid ↔ l ∈ m.valid ∧ l ∉ lids
  xfer : m'.xfer = m.xfer
  gone : ∀ l ∈ lids, (m'.replicas l).ptr = 0 ∧ (m'.replicas l).pinned = 0 ∧
    (l ≠ host → (m'.replicas l).cachelist = none ∧ (m'.replicas l).cacheentry = none)
  kept : ∀ l ∉ lids, m'.replicas l = m.replicas l

namespace ClearedOn

variable {m m' m'' : Metadata n} {l : Lid n} {lids : List (Lid n)}

theorem refl (m : Metadata n) : ClearedOn [] m m where
  alloc _ := (and_iff_left List.not_mem_nil).symm
  valid _ := (and_iff_left List.not_mem_nil).symm
  xfer := rfl
  gone _ hl := absurd hl List.not_mem_nil
  kept _ _ := rfl

theorem cons (h : ClearedOn [l] m m') (h' : ClearedOn lids m' m'') (hl : l ∉ lids) :
    ClearedOn (l :: lids) m m'' := by
  have hnot : ∀ l', l' ∉ l :: lids ↔ l' ∉ [l] ∧ l' ∉ lids := by
    intro l'
    rw [List.mem_cons, List.mem_singleton, not_or]
  constructor
  case alloc =>
    intro l'
    rw [h'.alloc, h.alloc, hnot, and_assoc]
  case valid =>
    intro l'
    rw [h'.valid, h.valid, hnot, and_assoc]
  case xfer => rw [h'.xfer, h.xfer]
  case gone =>
    intro l' hl'
    rcases List.mem_cons.mp hl' with rfl | hmem
    · rw [h'.kept l' hl]
      exact h.gone l' (List.mem_singleton_self l')
    · exact h'.gone l' hmem
  case kept =>
    intro l' hl'
    obtain ⟨hfirst, hrest⟩ := (hnot l').mp hl'
    rw [h'.kept l' hrest, h.kept l' hfirst]

/-- One replica is cleared. -/
theorem deallocate {r : Replica} (hptr : r.ptr = 0) (hpinned : r.pinned = 0)
    (hcache : l ≠ host → r.cachelist = none ∧ r.cacheentry = none) :
    ClearedOn [l] m (m.deallocate l r) := by
  constructor
  case alloc =>
    intro l'
    rw [List.mem_singleton]
    exact Finset.mem_erase.trans and_comm
  case valid =>
    intro l'
    rw [List.mem_singleton]
    exact Finset.mem_erase.trans and_comm
  case xfer => rfl
  case gone =>
    intro l' hl'
    obtain rfl := List.mem_singleton.mp hl'
    rw [Metadata.replicas_deallocate_self]
    exact ⟨hptr, hpinned, hcache⟩
  case kept =>
    intro l' hl'
    exact Metadata.replicas_deallocate_of_ne fun heq => hl' (List.mem_singleton.mpr heq)

end ClearedOn

variable [DecidableEq δ]

section Loop

variable {s : LruCache.State δ n} {d : δ} {outs : Lid n → Set EntryId}

/-- One turn of the loop. -/
theorem invalidateReplica_spec (h : ∀ l ≠ host, Cached s l (outs l)) (l : Lid n) :
    ∃ t, s.invalidateReplica d l = some t ∧ (∀ l ≠ host, Cached t l (outs l)) ∧
      (∀ d' ≠ d, t.mdi d' = s.mdi d') ∧ ClearedOn [l] (s.mdi d) (t.mdi d) := by
  obtain ⟨t, ht, hcached⟩ := Cached.invalidateReplica (d := d) h l
  refine ⟨t, ht, hcached, ?_⟩
  unfold State.invalidateReplica at ht
  split at ht
  case isTrue hl =>
    cases ht
    refine ⟨fun d' hd' => State.mdi_setMdi_of_ne hd', ?_⟩
    rw [State.mdi_setMdi_self]
    exact .deallocate rfl rfl fun hne => absurd hl hne
  case isFalse =>
    obtain ⟨c, _, rfl⟩ := Option.map_eq_some_iff.mp ht
    refine ⟨fun d' hd' => State.mdi_setMdi_of_ne hd', ?_⟩
    rw [State.mdi_setMdi_self]
    exact .deallocate rfl rfl fun _ => ⟨rfl, rfl⟩

/-- The loop over the replicas on `lids`. -/
theorem foldlM_spec {lids : List (Lid n)} (hnodup : lids.Nodup)
    (h : ∀ l ≠ host, Cached s l (outs l)) (freed : List (Block n)) :
    ∃ t, lids.foldlM (invalidateReplica d) (s, freed) =
        some (t, freed ++ lids.flatMap (freedBlock s d)) ∧
      (∀ l ≠ host, Cached t l (outs l)) ∧ (∀ d' ≠ d, t.mdi d' = s.mdi d') ∧
      ClearedOn lids (s.mdi d) (t.mdi d) := by
  induction lids generalizing s freed with
  | nil => exact ⟨s, by rw [List.flatMap_nil, List.append_nil]; rfl, h, fun _ _ => rfl, .refl _⟩
  | cons l lids ih =>
      obtain ⟨hl, hrest⟩ := List.nodup_cons.mp hnodup
      obtain ⟨u, hu, hcached, hothers, hcleared⟩ := invalidateReplica_spec (d := d) h l
      obtain ⟨t, ht, hcached', hothers', hcleared'⟩ := ih hrest hcached
        (freed ++ freedBlock s d l)
      refine ⟨t, ?_, hcached', fun d' hd' => (hothers' d' hd').trans (hothers d' hd'),
        hcleared.cons hcleared' hl⟩
      -- the blocks of the replicas that come later are still there
      have hblocks : ∀ l' ∈ lids, freedBlock u d l' = freedBlock s d l' := by
        intro l' hl'
        have hne : l' ∉ [l] := fun hmem => hl (List.mem_singleton.mp hmem ▸ hl')
        have hrep : u.rep l' d = s.rep l' d := hcleared.kept l' hne
        unfold freedBlock
        rw [hrep]
      rw [List.foldlM_cons, invalidateReplica, hu]
      show lids.foldlM (invalidateReplica d) (u, freed ++ freedBlock s d l) = _
      rw [ht, List.flatMap_cons, List.append_assoc, List.flatMap_congr hblocks]

end Loop

/-! ## Soundness -/

/-- No replica of `d` is left. -/
structure Cleared (s : LruCache.State δ n) (d : δ) : Prop where
  valid : (s.mdi d).valid = ∅
  alloc : (s.mdi d).alloc = ∅
  replica : ∀ l, (s.rep l d).ptr = 0 ∧ (s.rep l d).pinned = 0
  unlinked : ∀ l ≠ host, ∀ k, d ∉ Evict.cached s l k

/-- Each block of `d` on a device is freed once, and no other. -/
def FreedOnce (s : LruCache.State δ n) (d : δ) (freed : List (Block n)) : Prop :=
  freed.Nodup ∧ ∀ l ptr, (l, ptr) ∈ freed ↔ l ≠ host ∧ ptr ≠ 0 ∧ (s.rep l d).ptr = ptr

/-- In every run from `s` the callback of a copy that has been asked for before `s` leaves the
bits of `d`. -/
def Final (s : State δ n) (d : δ) : Prop :=
  ∀ u v i f, (system δ n).LeadsTo (fun _ _ => True) s u → u.flights[i]? = some f →
    f.number < s.next → step u (.receive i) = some v →
      (v.mdi d).valid = (u.mdi d).valid ∧ (v.mdi d).alloc = (u.mdi d).alloc

/-- The invalidation of `d` is complete, local and final. -/
def InvalidateSound (s : State δ n) (d : δ) : Prop :=
  ∃ base freed, invalidateData s.base.base d = some (base, freed) ∧ Cleared base d ∧
    FreedOnce s.base.base d freed ∧ (∀ d' ≠ d, base.mdi d' = s.mdi d') ∧
    Final { s with base := { s.base with base := base } } d

/-! ## The copies in flight -/

/-- What tells a copy from the others. -/
def Flight.key (f : Flight δ n) : Nat × δ × Lid n :=
  (f.number, f.data, f.dest)

/-- The replicas under transfer are the destinations of the copies in flight, each of one. A copy
that waits does so for an older one. -/
structure InFlight (flights : List (Flight δ n)) (next : Nat) (xfer : δ → Finset (Lid n)) :
    Prop where
  xfer : ∀ d l, l ∈ xfer d ↔ ∃ k, (k, d, l) ∈ flights.map Flight.key
  single : ((flights.map Flight.key).map Prod.snd).Nodup
  number : ∀ key ∈ flights.map Flight.key, key.1 < next
  waiting : ∀ f ∈ flights, f.status = .waiting →
    ∃ k < f.number, (k, f.data, f.src) ∈ flights.map Flight.key

namespace InFlight

variable {flights flights' : List (Flight δ n)} {next : Nat} {xfer xfer' : δ → Finset (Lid n)}
  {f : Flight δ n} {i : Nat}

omit [DecidableEq δ] in
theorem congr (h : InFlight flights next xfer) (hxfer : ∀ d, xfer' d = xfer d) :
    InFlight flights next xfer' := by
  rwa [show xfer' = xfer from funext hxfer]

omit [DecidableEq δ] in
/-- A copy goes on, and does not wait any more. -/
theorem set (h : InFlight flights next xfer) (hf : flights[i]? = some f) {status : Status}
    (hstatus : status ≠ .waiting) :
    InFlight (flights.set i { f with status := status }) next xfer := by
  obtain ⟨hi, rfl⟩ := List.getElem?_eq_some_iff.mp hf
  have hkeys : (flights.set i { flights[i] with status := status }).map Flight.key =
      flights.map Flight.key := by
    rw [List.map_set]
    show (flights.map Flight.key).set i (Flight.key flights[i]) = flights.map Flight.key
    rw [← List.getElem_map Flight.key (h := by rwa [List.length_map]), List.set_getElem_self]
  refine ⟨?_, ?_, ?_, fun g hg hwaiting => ?_⟩
  · rw [hkeys]
    exact h.xfer
  · rw [hkeys]
    exact h.single
  · rw [hkeys]
    exact h.number
  · rw [hkeys]
    rcases List.mem_or_eq_of_mem_set hg with hmem | rfl
    · exact h.waiting g hmem hwaiting
    · exact absurd hwaiting hstatus

/-- A new copy to a replica that is not under transfer. -/
theorem cons (h : InFlight flights next xfer) {d : δ} {dest : Lid n} (src : Lid n)
    {status : Status} (hdest : dest ∉ xfer d) (hstatus : status = .waiting → src ∈ xfer d) :
    InFlight (⟨next, d, dest, src, status⟩ :: flights) (next + 1)
      (Function.update xfer d (insert dest (xfer d))) := by
  have hkeys : (⟨next, d, dest, src, status⟩ :: flights : List (Flight δ n)).map Flight.key =
      (next, d, dest) :: flights.map Flight.key := rfl
  constructor
  case xfer =>
    intro d' l
    rw [hkeys]
    by_cases hd : d' = d
    · subst hd
      rw [Function.update_self, Finset.mem_insert, h.xfer]
      constructor
      · rintro (rfl | ⟨k, hk⟩)
        · exact ⟨next, List.mem_cons_self⟩
        · exact ⟨k, List.mem_cons_of_mem _ hk⟩
      · rintro ⟨k, hk⟩
        rcases List.mem_cons.mp hk with heq | hmem
        · exact .inl (congrArg (fun key => key.2.2) heq)
        · exact .inr ⟨k, hmem⟩
    · rw [Function.update_of_ne hd, h.xfer]
      constructor
      · rintro ⟨k, hk⟩
        exact ⟨k, List.mem_cons_of_mem _ hk⟩
      · rintro ⟨k, hk⟩
        rcases List.mem_cons.mp hk with heq | hmem
        · exact absurd (congrArg (fun key => key.2.1) heq) hd
        · exact ⟨k, hmem⟩
  case single =>
    rw [hkeys, List.map_cons]
    refine List.nodup_cons.mpr ⟨fun hmem => ?_, h.single⟩
    obtain ⟨⟨k, key⟩, hk, rfl⟩ := List.mem_map.mp hmem
    exact hdest ((h.xfer _ _).mpr ⟨k, hk⟩)
  case number =>
    intro key hkey
    rw [hkeys] at hkey
    rcases List.mem_cons.mp hkey with rfl | hmem
    · exact Nat.lt_succ_self next
    · exact Nat.lt_succ_of_lt (h.number key hmem)
  case waiting =>
    intro f hf hwaiting
    rw [hkeys]
    rcases List.mem_cons.mp hf with rfl | hmem
    · obtain ⟨k, hk⟩ := (h.xfer d src).mp (hstatus hwaiting)
      exact ⟨k, h.number _ hk, List.mem_cons_of_mem _ hk⟩
    · obtain ⟨k, hlt, hk⟩ := h.waiting f hmem hwaiting
      exact ⟨k, hlt, List.mem_cons_of_mem _ hk⟩

/-- The end of a copy wakes those that wait for it. -/
theorem receive (h : InFlight flights next xfer) (hf : flights[i]? = some f) :
    InFlight ((flights.eraseIdx i).map f.wake) next
      (Function.update xfer f.data ((xfer f.data).erase f.dest)) := by
  obtain ⟨hi, hfi⟩ := List.getElem?_eq_some_iff.mp hf
  have hperm : (f :: flights.eraseIdx i).Perm flights := hfi ▸ List.getElem_cons_eraseIdx_perm hi
  have hwake : ∀ g : Flight δ n, (f.wake g).key = g.key := by
    intro g
    unfold Flight.wake
    split
    · rfl
    · rfl
  have hkeys : ((flights.eraseIdx i).map f.wake).map Flight.key =
      (flights.eraseIdx i).map Flight.key := by
    rw [List.map_map]
    exact List.map_congr_left fun g _ => hwake g
  have hmem : ∀ key, key ∈ flights.map Flight.key ↔
      key = f.key ∨ key ∈ (flights.eraseIdx i).map Flight.key := fun key => by
    rw [← (hperm.map Flight.key).mem_iff, List.map_cons, List.mem_cons]
  have hsingle := ((hperm.map Flight.key).map Prod.snd).nodup_iff.mpr h.single
  obtain ⟨hself, hrest⟩ := List.nodup_cons.mp hsingle
  constructor
  case xfer =>
    intro d l
    rw [hkeys]
    by_cases hd : d = f.data
    · subst hd
      rw [Function.update_self, Finset.mem_erase, h.xfer]
      constructor
      · rintro ⟨hne, k, hk⟩
        rcases (hmem _).mp hk with heq | hk
        · exact absurd (congrArg (fun key => key.2.2) heq) hne
        · exact ⟨k, hk⟩
      · rintro ⟨k, hk⟩
        refine ⟨fun hl => ?_, k, (hmem _).mpr (.inr hk)⟩
        subst hl
        exact hself (List.mem_map.mpr ⟨_, hk, rfl⟩)
    · rw [Function.update_of_ne hd, h.xfer]
      constructor
      · rintro ⟨k, hk⟩
        rcases (hmem _).mp hk with heq | hk
        · exact absurd (congrArg (fun key => key.2.1) heq) hd
        · exact ⟨k, hk⟩
      · rintro ⟨k, hk⟩
        exact ⟨k, (hmem _).mpr (.inr hk)⟩
  case single =>
    rw [hkeys]
    exact hrest
  case number =>
    intro key hkey
    rw [hkeys] at hkey
    exact h.number key ((hmem key).mpr (.inr hkey))
  case waiting =>
    intro g' hg' hwaiting
    obtain ⟨g, hg, rfl⟩ := List.mem_map.mp hg'
    rw [hkeys]
    -- a copy that still waits does so for another one
    unfold Flight.wake at hwaiting ⊢
    split at hwaiting
    case isTrue => cases hwaiting
    case isFalse hnot =>
      rw [if_neg hnot]
      have hgmem : g ∈ flights := List.mem_of_mem_eraseIdx hg
      obtain ⟨k, hlt, hk⟩ := h.waiting g hgmem hwaiting
      refine ⟨k, hlt, ?_⟩
      rcases (hmem _).mp hk with heq | hk
      · exact absurd ⟨hwaiting, congrArg (fun key => key.2.1) heq,
          congrArg (fun key => key.2.2) heq⟩ hnot
      · exact hk

omit [DecidableEq δ] in
/-- The oldest copy of a data does not wait. -/
theorem exists_not_waiting (h : InFlight flights next xfer) (hf : f ∈ flights) :
    ∃ g ∈ flights, g.data = f.data ∧ g.status ≠ .waiting := by
  induction hk : f.number using Nat.strongRecOn generalizing f with
  | ind k ih =>
      by_cases hwaiting : f.status = .waiting
      · obtain ⟨k', hlt, hmem⟩ := h.waiting f hf hwaiting
        obtain ⟨g, hg, hkey⟩ := List.mem_map.mp hmem
        have hnumber : g.number = k' := congrArg Prod.fst hkey
        have hdata : g.data = f.data := congrArg (fun key => key.2.1) hkey
        obtain ⟨g', hg', hdata', hstatus⟩ := ih k' (hk ▸ hlt) hg hnumber
        exact ⟨g', hg', hdata'.trans hdata, hstatus⟩
      · exact ⟨f, hf, rfl, hwaiting⟩

end InFlight

/-! ## The runs -/

/-- The invariant of the machine and of the copies. -/
structure Inv (s : State δ n) : Prop where
  machine : Machine s.base
  copies : InFlight s.flights s.next fun d => (s.mdi d).xfer

/-- A data is only invalidated when no copy of it is in flight and no operation on it runs. -/
def QuietInvalidation (s : State δ n) (a : Action δ n) : Prop :=
  match a with
  | .invalidateData d => (s.mdi d).xfer = ∅ ∧ ∀ l, ∀ op ∈ s.base.running l, op.data ≠ d
  | _ => True

instance (s : State δ n) (a : Action δ n) : Decidable (QuietInvalidation s a) :=
  match a with
  | .invalidateData _ => inferInstanceAs (Decidable (_ ∧ _))
  | .access .. | .evict .. | .allocate .. | .fetch .. | .mark .. | .touch .. | .fetchHost ..
  | .receive .. | .forward .. | .release .. => inferInstanceAs (Decidable True)

omit [DecidableEq δ] in
theorem inv_initial {s : State δ n} (h : Initial s) : Inv s := by
  have hempty : ∀ d, (s.mdi d).valid = ∅ := by
    intro d
    refine Finset.subset_empty.mp fun l hl => ?_
    rw [← (h.unknown d).1]
    exact (h.base.base.consistent d).1 l hl
  constructor
  case machine =>
    refine ⟨⟨fun _ => ∅, fun l _ => h.base.base.cached l⟩, fun d => ?_, fun l op hop => ?_⟩
    · constructor
      case memory =>
        intro l
        refine iff_of_false (not_not.mpr (h.base.free d l)) fun hmem => ?_
        exact Finset.notMem_empty l ((h.unknown d).1 ▸ hmem)
      case valid =>
        rw [show (s.base.base.mdi d).valid = ∅ from hempty d]
        exact Finset.empty_subset _
      case xfer =>
        rw [show (s.base.base.mdi d).xfer = ∅ from (h.unknown d).2]
        exact Finset.empty_subset _
      case cached => exact fun l _ hl => absurd (h.base.base.uncached d l).1 hl
      case host => exact fun _ => (h.unknown d).1
    · rw [h.base.idle l] at hop
      cases hop
  case copies =>
    rw [h.flights]
    constructor
    case xfer =>
      intro d l
      rw [(h.unknown d).2]
      exact iff_of_false (Finset.notMem_empty l) fun ⟨_, hk⟩ => List.not_mem_nil hk
    case single => exact List.nodup_nil
    case number => exact fun _ hkey => absurd hkey List.not_mem_nil
    case waiting => exact fun _ hf => absurd hf List.not_mem_nil

namespace Inv

variable {s t : State δ n}

/-- A step of the machine that leaves the bits `xfer`. -/
theorem lift {a : Reclaim.Action δ n} (h : Inv s) (hstep : s.lift a = some t)
    (hkept : ∀ base, Reclaim.step s.base a = some base →
      Machine base ∧ SameXfer s.base.base base.base) : Inv t := by
  obtain ⟨base, hbase, rfl⟩ := Option.map_eq_some_iff.mp hstep
  obtain ⟨hmachine, hxfer⟩ := hkept base hbase
  exact ⟨hmachine, h.copies.congr hxfer⟩

/-- A fetch asks for a copy, which the bits `xfer` show. -/
theorem addFlight (h : Inv s) {d : δ} {dest src : Lid n} {base : Reclaim.State δ n}
    (hmachine : Machine base)
    (hbase : ∀ d', base.base.mdi d' =
      Function.update s.base.base.mdi d (Reclaim.fetchMdi (s.mdi d) dest) d') :
    Inv { s.addFlight d dest src with base := base } := by
  refine ⟨hmachine, ?_⟩
  have hxfer : ∀ d', (base.base.mdi d').xfer =
      Function.update (fun d => (s.mdi d).xfer) d (Reclaim.fetchMdi (s.mdi d) dest).xfer d' := by
    intro d'
    rw [hbase d']
    by_cases hd : d' = d
    · subst hd
      rw [Function.update_self, Function.update_self]
    · rw [Function.update_of_ne hd, Function.update_of_ne hd]
      rfl
  unfold State.addFlight
  split
  case isTrue hpresent =>
    refine h.copies.congr fun d' => (hxfer d').trans ?_
    have hsame : (Reclaim.fetchMdi (s.mdi d) dest).xfer = (s.mdi d).xfer := by
      unfold Reclaim.fetchMdi
      split
      case isTrue => rfl
      case isFalse hvalid =>
        exact Finset.insert_eq_of_mem (hpresent.resolve_left hvalid)
    by_cases hd : d' = d
    · subst hd
      rw [Function.update_self, hsame]
    · rw [Function.update_of_ne hd]
  case isFalse habsent =>
    obtain ⟨hvalid, hnot⟩ := not_or.mp habsent
    refine (h.copies.cons src hnot fun hwaiting => ?_).congr fun d' => ?_
    · by_contra hsrc
      rw [if_neg hsrc] at hwaiting
      cases hwaiting
    · refine (hxfer d').trans ?_
      rw [Reclaim.fetchMdi, if_neg hvalid]

/-- The end of a copy makes its destination valid. -/
theorem receive (h : Inv s) {i : Nat} {f : Flight δ n} (hf : s.flights[i]? = some f) :
    Inv (s.receive i f) := by
  have hkey : f.key ∈ s.flights.map Flight.key :=
    List.mem_map_of_mem (List.mem_of_getElem? hf)
  have hxfer : f.dest ∈ (s.mdi f.data).xfer := (h.copies.xfer f.data f.dest).mpr ⟨_, hkey⟩
  have hsound := h.machine.sound f.data
  refine ⟨h.machine.setBits (hsound.setBits (Finset.insert_subset (hsound.xfer hxfer)
    hsound.valid) ((Finset.erase_subset _ _).trans hsound.xfer)) rfl rfl, ?_⟩
  refine (h.copies.receive hf).congr fun d => ?_
  show ((s.base.base.setMdi f.data _).mdi d).xfer = _
  by_cases hd : d = f.data
  · subst hd
    rw [LruCache.State.mdi_setMdi_self, Function.update_self]
  · rw [LruCache.State.mdi_setMdi_of_ne hd, Function.update_of_ne hd]
    rfl

/-- What the loop of `kaapi_memory_cache_invalidate_data` leaves. -/
theorem invalidateData (h : Inv s) (d : δ) :
    ∃ base, invalidateData s.base.base d = some
        (base, ((List.finRange (n + 1)).filter (· ∈ (s.mdi d).alloc)).flatMap
          (freedBlock s.base.base d)) ∧
      (∃ outs : Lid n → Set EntryId, ∀ l ≠ host, Cached base l (outs l)) ∧
      (∀ d' ≠ d, base.mdi d' = s.mdi d') ∧
      ClearedOn ((List.finRange (n + 1)).filter (· ∈ (s.mdi d).alloc)) (s.mdi d)
        (base.mdi d) := by
  obtain ⟨outs, hcached⟩ := h.machine.cached
  obtain ⟨base, hbase, hcached', hothers, hcleared⟩ := foldlM_spec (d := d)
    ((List.nodup_finRange (n + 1)).filter (· ∈ (s.mdi d).alloc)) hcached []
  exact ⟨base, hbase, ⟨outs, hcached'⟩, hothers, hcleared⟩

omit [DecidableEq δ] in
/-- No bit of the data is left, and no memory. -/
theorem cleared (h : Inv s) {d : δ} {m : Metadata n}
    (hm : ClearedOn ((List.finRange (n + 1)).filter (· ∈ (s.mdi d).alloc)) (s.mdi d) m) :
    m.valid = ∅ ∧ m.alloc = ∅ ∧ (∀ l, (m.replicas l).ptr = 0) ∧
      ∀ l ≠ host, (m.replicas l).cacheentry = none := by
  have hsound := h.machine.sound d
  have hlids : ∀ l, l ∈ (List.finRange (n + 1)).filter (· ∈ (s.mdi d).alloc) ↔
      l ∈ (s.mdi d).alloc := by
    intro l
    rw [List.mem_filter, decide_eq_true_iff]
    exact and_iff_right (List.mem_finRange l)
  refine ⟨?_, ?_, fun l => ?_, fun l hl => ?_⟩
  · refine Finset.eq_empty_of_forall_notMem fun l hl => ?_
    obtain ⟨hvalid, hnot⟩ := (hm.valid l).mp hl
    exact hnot ((hlids l).mpr (hsound.valid hvalid))
  · refine Finset.eq_empty_of_forall_notMem fun l hl => ?_
    obtain ⟨halloc, hnot⟩ := (hm.alloc l).mp hl
    exact hnot ((hlids l).mpr halloc)
  · by_cases halloc : l ∈ (s.mdi d).alloc
    · exact (hm.gone l ((hlids l).mpr halloc)).1
    · rw [hm.kept l fun hmem => halloc ((hlids l).mp hmem)]
      exact not_not.mp fun hptr => halloc ((hsound.memory l).mp hptr)
  · by_cases halloc : l ∈ (s.mdi d).alloc
    · exact ((hm.gone l ((hlids l).mpr halloc)).2.2 hl).2
    · rw [hm.kept l fun hmem => halloc ((hlids l).mp hmem)]
      exact not_not.mp fun hentry => halloc (hsound.cached l hl hentry)

/-- A data that no operation is about is invalidated between two copies. -/
theorem quiet (h : Inv s) {d : δ} (hxfer : (s.mdi d).xfer = ∅)
    (hrunning : ∀ l, ∀ op ∈ s.base.running l, op.data ≠ d) {base : LruCache.State δ n}
    {freed : List (Block n)}
    (hstep : Invalidate.invalidateData s.base.base d = some (base, freed)) :
    Inv { s with base := { s.base with base := base } } := by
  obtain ⟨u, hu, hcached, hothers, hcleared⟩ := h.invalidateData d
  obtain rfl : base = u := congrArg Prod.fst (Option.some.inj (hstep.symm.trans hu))
  obtain ⟨hvalid, halloc, hptr, hentry⟩ := h.cleared hcleared
  have hxfer' : (base.mdi d).xfer = ∅ := hcleared.xfer.trans hxfer
  constructor
  case machine =>
    refine ⟨hcached, fun d' => ?_, fun l op hop => ?_⟩
    · by_cases hd : d' = d
      · subst hd
        constructor
        case memory =>
          intro l
          refine iff_of_false (not_not.mpr (hptr l)) fun hmem => ?_
          exact Finset.notMem_empty l (halloc ▸ hmem)
        case valid => exact hvalid ▸ Finset.empty_subset _
        case xfer => exact hxfer' ▸ Finset.empty_subset _
        case cached => exact fun l hl hcache => absurd (hentry l hl) hcache
        case host => exact fun _ => halloc
      · show Sound (base.mdi d')
        rw [hothers d' hd]
        exact h.machine.sound d'
    · have hready := h.machine.ready l op hop
      have hsame : base.mdi op.data = s.mdi op.data := hothers _ (hrunning l op hop)
      refine ⟨hready.device, ?_, fun hphase => ?_⟩
      · show host ∈ (base.mdi op.data).alloc
        rw [hsame]
        exact hready.known
      · show l ∈ (base.mdi op.data).alloc
        rw [hsame]
        exact hready.allocated hphase
  case copies =>
    refine h.copies.congr fun d' => ?_
    by_cases hd : d' = d
    · subst hd
      exact hcleared.xfer
    · exact congrArg Metadata.xfer (hothers d' hd)

end Inv

/-- A copy that is received has been under way. -/
theorem step_receive {s t : State δ n} {i : Nat} (hstep : step s (.receive i) = some t) :
    ∃ f, s.flights[i]? = some f ∧ t = s.receive i f := by
  simp only [step] at hstep
  split at hstep
  case h_1 => cases hstep
  case h_2 f hf =>
    split at hstep
    case isFalse => cases hstep
    case isTrue =>
      cases hstep
      exact ⟨f, hf, rfl⟩

/-- A callback sends one copy. -/
theorem step_forward {s t : State δ n} {i : Nat} (hstep : step s (.forward i) = some t) :
    ∃ f, s.flights[i]? = some f ∧
      t = { s with flights := s.flights.set i { f with status := .copying } } := by
  simp only [step] at hstep
  split at hstep
  case h_1 => cases hstep
  case h_2 f hf =>
    split at hstep
    case isFalse => cases hstep
    case isTrue =>
      cases hstep
      exact ⟨f, hf, rfl⟩

/-- One step that meets the condition keeps the invariant. -/
theorem inv_step {s t : State δ n} {a : Action δ n} (h : Inv s) (hok : QuietInvalidation s a)
    (hstep : step s a = some t) : Inv t := by
  cases a with
  | access l d ptr size operation =>
      obtain ⟨u, hu, hstep⟩ := Option.bind_eq_some_iff.mp hstep
      have hbind : Inv u := h.lift hu fun base hbase =>
        ⟨(h.machine.bind hbase).1, (h.machine.bind hbase).2.1⟩
      have hknown : host ∈ (u.base.base.mdi d).alloc := by
        obtain ⟨base, hbase, rfl⟩ := Option.map_eq_some_iff.mp hu
        exact (h.machine.bind hbase).2.2
      exact hbind.lift hstep fun base hbase => hbind.machine.startAction hknown hbase
  | evict l k size => exact h.lift hstep fun base hbase => h.machine.evict hbase
  | allocate l ptr => exact h.lift hstep fun base hbase => h.machine.allocate hbase
  | fetch l src =>
      obtain ⟨op, hop, hstep⟩ := Option.bind_eq_some_iff.mp hstep
      have hmachine := h.machine.fetch hop
      split at hstep
      case isTrue hread =>
        split at hstep
        case isFalse => cases hstep
        case isTrue =>
          cases hstep
          refine h.addFlight hmachine fun d' => ?_
          unfold Reclaim.State.fetch
          split
          case h_1 => rfl
          case h_2 mode hmode =>
            rw [hmode] at hread
            rw [show mode.isRead = true from hread]
            rfl
      case isFalse hread =>
        cases hstep
        refine ⟨hmachine, h.copies.congr fun d' => ?_⟩
        -- the replica is only written
        unfold State.mdi Reclaim.State.fetch
        split
        case h_1 hprefetch =>
          rw [hprefetch] at hread
          exact absurd rfl hread
        case h_2 mode hmode =>
          rw [hmode] at hread
          rw [show mode.isRead = false from Bool.eq_false_iff.mpr hread]
          exact SameXfer.setMdi (s := s.base.base) (d := op.data)
            (m := s.base.base.mdi op.data) rfl d'
  | mark l => exact h.lift hstep fun base hbase => h.machine.mark hbase
  | touch l => exact h.lift hstep fun base hbase => h.machine.touch hbase
  | fetchHost d src =>
      simp only [step] at hstep
      split at hstep
      case isFalse => cases hstep
      case isTrue hguard =>
        obtain ⟨base, hbase, rfl⟩ := Option.map_eq_some_iff.mp hstep
        have hsame : (s.addFlight d host src).base = s.base := by
          unfold State.addFlight
          split
          · rfl
          · rfl
        rw [hsame] at hbase
        cases hbase
        refine h.addFlight (h.machine.setBits ((h.machine.sound d).fetch hguard.1) ?_ ?_)
          fun d' => rfl
        · unfold Reclaim.fetchMdi
          split
          · rfl
          · rfl
        · unfold Reclaim.fetchMdi
          split
          · rfl
          · rfl
  | receive i =>
      obtain ⟨f, hf, rfl⟩ := step_receive hstep
      exact h.receive hf
  | forward i =>
      obtain ⟨f, hf, rfl⟩ := step_forward hstep
      exact ⟨h.machine, h.copies.set hf fun heq => (nomatch heq)⟩
  | release l d =>
      exact h.lift hstep fun base hbase => by
        cases hbase
        exact ⟨h.machine.pin _, SameXfer.setMdi rfl⟩
  | invalidateData d =>
      obtain ⟨⟨base, freed⟩, hbase, rfl⟩ := Option.map_eq_some_iff.mp hstep
      exact h.quiet hok.1 hok.2 hbase

/-- The invariant of the runs that meet the condition. -/
theorem inv_of_reachableWhen {s : State δ n}
    (hs : (system δ n).ReachableWhen QuietInvalidation s) : Inv s :=
  hs.invariant (fun _ hinit => inv_initial hinit) fun _ _ _ h hok hstep => inv_step h hok hstep

/-! ## The callbacks of old copies -/

/-- The copies of `t` that were asked for before `s` are copies of `s`. -/
structure OldCopies (s t : State δ n) : Prop where
  next : s.next ≤ t.next
  old : ∀ f ∈ t.flights, f.number < s.next →
    ∃ g ∈ s.flights, g.number = f.number ∧ g.data = f.data

namespace OldCopies

variable {s t u : State δ n}

omit [DecidableEq δ] in
theorem of_eq (hflights : t.flights = s.flights) (hnext : t.next = s.next) : OldCopies s t :=
  ⟨hnext.ge, fun f hf _ => ⟨f, hflights ▸ hf, rfl, rfl⟩⟩

omit [DecidableEq δ] in
theorem trans (h : OldCopies s t) (h' : OldCopies t u) : OldCopies s u := by
  refine ⟨h.next.trans h'.next, fun f hf hlt => ?_⟩
  obtain ⟨g, hg, hnumber, hdata⟩ := h'.old f hf (hlt.trans_le h.next)
  obtain ⟨g', hg', hnumber', hdata'⟩ := h.old g hg (hnumber ▸ hlt)
  exact ⟨g', hg', hnumber'.trans hnumber, hdata'.trans hdata⟩

omit [DecidableEq δ] in
theorem addFlight {d : δ} {dest src : Lid n} {base : Reclaim.State δ n} :
    OldCopies s { s.addFlight d dest src with base := base } := by
  unfold State.addFlight
  split
  case isTrue => exact .of_eq rfl rfl
  case isFalse =>
    refine ⟨Nat.le_succ s.next, fun f hf hlt => ?_⟩
    rcases List.mem_cons.mp hf with rfl | hmem
    · exact absurd hlt (Nat.lt_irrefl s.next)
    · exact ⟨f, hmem, rfl, rfl⟩

theorem lift {a : Reclaim.Action δ n} (hstep : s.lift a = some t) : OldCopies s t := by
  obtain ⟨base, _, rfl⟩ := Option.map_eq_some_iff.mp hstep
  exact .of_eq rfl rfl

/-- Every step. -/
theorem step {a : Action δ n} (hstep : Invalidate.step s a = some t) : OldCopies s t := by
  cases a with
  | access l d ptr size operation =>
      obtain ⟨u, hu, hstep⟩ := Option.bind_eq_some_iff.mp hstep
      exact (lift hu).trans (lift hstep)
  | evict | allocate | mark | touch | release => exact lift hstep
  | fetch l src =>
      obtain ⟨op, hop, hstep⟩ := Option.bind_eq_some_iff.mp hstep
      split at hstep
      case isTrue =>
        split at hstep
        case isFalse => cases hstep
        case isTrue =>
          cases hstep
          exact addFlight
      case isFalse =>
        cases hstep
        exact .of_eq rfl rfl
  | fetchHost d src =>
      simp only [Invalidate.step] at hstep
      split at hstep
      case isFalse => cases hstep
      case isTrue =>
        obtain ⟨base, _, rfl⟩ := Option.map_eq_some_iff.mp hstep
        exact addFlight
  | receive i =>
      obtain ⟨f, hf, rfl⟩ := step_receive hstep
      refine ⟨Nat.le_refl s.next, fun g' hg' _ => ?_⟩
      obtain ⟨g, hg, rfl⟩ := List.mem_map.mp hg'
      refine ⟨g, List.mem_of_mem_eraseIdx hg, ?_⟩
      unfold Flight.wake
      split
      · exact ⟨rfl, rfl⟩
      · exact ⟨rfl, rfl⟩
  | forward i =>
      obtain ⟨f, hf, rfl⟩ := step_forward hstep
      refine ⟨Nat.le_refl s.next, fun g hg _ => ?_⟩
      rcases List.mem_or_eq_of_mem_set hg with hmem | rfl
      · exact ⟨g, hmem, rfl, rfl⟩
      · exact ⟨f, List.mem_of_getElem? hf, rfl, rfl⟩
  | invalidateData d =>
      obtain ⟨⟨base, freed⟩, _, rfl⟩ := Option.map_eq_some_iff.mp hstep
      exact .of_eq rfl rfl

end OldCopies

/-- The copies that run in any continuation. -/
theorem oldCopies_of_leadsTo {s t : State δ n}
    (h : (system δ n).LeadsTo (fun _ _ => True) s t) : OldCopies s t := by
  induction h with
  | refl => exact .of_eq rfl rfl
  | next _ _ hstep ih => exact ih.trans (.step hstep)

/-- When no copy of `d` is in flight, no callback of an older copy is about `d`. -/
theorem final_of_no_copy {s : State δ n} {d : δ} (h : ∀ f ∈ s.flights, f.data ≠ d) :
    Final s d := by
  intro u v i f hu hf hold hstep
  obtain ⟨f', hf', rfl⟩ := step_receive hstep
  obtain rfl : f = f' := Option.some.inj (hf.symm.trans hf')
  obtain ⟨g, hg, _, hdata⟩ := (oldCopies_of_leadsTo hu).old f (List.mem_of_getElem? hf) hold
  have hne : d ≠ f.data := fun heq => h g hg (hdata.trans heq.symm)
  have hsame : (u.receive i f).mdi d = u.mdi d := LruCache.State.mdi_setMdi_of_ne hne
  rw [hsame]
  exact ⟨rfl, rfl⟩

/-- The callback of a copy of `d` marks a replica valid. -/
theorem not_final_of_copy (s : State δ n) {d : δ} {f : Flight δ n} (hf : f ∈ s.flights)
    (hdata : f.data = d) (hstatus : f.status ≠ .waiting) (hnumber : f.number < s.next)
    (hvalid : (s.mdi d).valid = ∅) : ¬ Final s d := by
  intro hfinal
  subst hdata
  obtain ⟨i, hi⟩ := List.getElem?_of_mem hf
  -- the callback runs in the state `u`, where the copy is under way
  have hreceive : ∀ u : State δ n, (system δ n).LeadsTo (fun _ _ => True) s u →
      u.base = s.base → u.flights[i]? = some { f with status := .copying } → False := by
    intro u hu hbase hcopy
    have hstep : step u (.receive i) = some (u.receive i { f with status := .copying }) := by
      simp only [step, hcopy, if_true]
    have hkept := (hfinal u _ i _ hu hcopy hnumber hstep).1
    have hmdi : u.mdi f.data = s.mdi f.data := by
      unfold State.mdi
      rw [hbase]
    have hdest : f.dest ∈ ((u.receive i { f with status := .copying }).mdi f.data).valid := by
      show f.dest ∈ ((u.base.base.setMdi f.data _).mdi f.data).valid
      rw [LruCache.State.mdi_setMdi_self]
      exact Finset.mem_insert_self _ _
    rw [hkept, hmdi, hvalid] at hdest
    exact Finset.notMem_empty _ hdest
  cases hs : f.status with
  | waiting => exact hstatus hs
  | copying =>
      refine hreceive s .refl rfl ?_
      rw [hi, ← hs]
  | resending =>
      obtain ⟨hlt, _⟩ := List.getElem?_eq_some_iff.mp hi
      have hstep : (system δ n).step s (.forward i) =
          some { s with flights := s.flights.set i { f with status := .copying } } := by
        have hdest : f.dest ∉ (s.mdi f.data).valid := hvalid ▸ Finset.notMem_empty _
        show step s (.forward i) = _
        simp only [step, hi]
        exact if_pos ⟨hs, hdest⟩
      refine hreceive _ (.single trivial hstep) rfl ?_
      exact List.getElem?_set_self hlt

/-! ## The exact condition -/

omit [DecidableEq δ] in
/-- The loop frees each block of the devices once. -/
theorem freedOnce {s : LruCache.State δ n} {d : δ} (h : Sound (s.mdi d)) :
    FreedOnce s d (((List.finRange (n + 1)).filter (· ∈ (s.mdi d).alloc)).flatMap
      (freedBlock s d)) := by
  have hblock : ∀ l l' ptr, (l', ptr) ∈ freedBlock s d l ↔
      l' = l ∧ l ≠ host ∧ ptr ≠ 0 ∧ (s.rep l d).ptr = ptr := by
    intro l l' ptr
    unfold freedBlock
    split
    case isTrue hnone =>
      refine iff_of_false List.not_mem_nil ?_
      rintro ⟨_, hl, hptr, heq⟩
      exact hnone.elim hl fun hzero => hptr (heq ▸ hzero)
    case isFalse hsome =>
      obtain ⟨hl, hptr⟩ := not_or.mp hsome
      rw [List.mem_singleton, Prod.mk.injEq]
      constructor
      · rintro ⟨rfl, rfl⟩
        exact ⟨rfl, hl, hptr, rfl⟩
      · rintro ⟨rfl, _, _, rfl⟩
        exact ⟨rfl, rfl⟩
  constructor
  · refine List.nodup_flatMap.mpr ⟨fun l _ => ?_, ?_⟩
    · unfold freedBlock
      split
      · exact List.nodup_nil
      · exact List.nodup_singleton _
    · refine ((List.nodup_finRange (n + 1)).filter _).imp fun {l l'} hne => ?_
      show (freedBlock s d l).Disjoint (freedBlock s d l')
      rw [List.disjoint_left]
      rintro ⟨l'', ptr⟩ hl hl'
      exact hne (((hblock l l'' ptr).mp hl).1.symm.trans ((hblock l' l'' ptr).mp hl').1)
  · intro l ptr
    rw [List.mem_flatMap]
    constructor
    · rintro ⟨l', _, hmem⟩
      obtain ⟨rfl, hfreed⟩ := (hblock l' l ptr).mp hmem
      exact hfreed
    · intro hfreed
      refine ⟨l, List.mem_filter.mpr ⟨List.mem_finRange l, ?_⟩, (hblock l l ptr).mpr ⟨rfl, hfreed⟩⟩
      have hptr : ((s.mdi d).replicas l).ptr ≠ 0 := by
        rw [show ((s.mdi d).replicas l).ptr = ptr from hfreed.2.2]
        exact hfreed.2.1
      exact decide_eq_true ((h.memory l).mp hptr)

/-- In a run whose invalidations were of data with no copy in flight and no running operation, the
next invalidation of a data is complete, local and final exactly when no copy of it is in flight
and every reserved replica of it is allocated. -/
theorem invalidate_sound_iff {s : State δ n}
    (hs : (system δ n).ReachableWhen QuietInvalidation s) (d : δ) :
    InvalidateSound s d ↔ (s.mdi d).xfer = ∅ ∧
      ∀ l, ((s.mdi d).replicas l).pinned ≠ 0 → l ∈ (s.mdi d).alloc := by
  have h := inv_of_reachableWhen hs
  obtain ⟨base, hbase, ⟨outs, hcached⟩, hothers, hcleared⟩ := h.invalidateData d
  obtain ⟨hvalid, halloc, hptr, hentry⟩ := h.cleared hcleared
  have hmem : ∀ l, l ∈ (List.finRange (n + 1)).filter (· ∈ (s.mdi d).alloc) ↔
      l ∈ (s.mdi d).alloc := by
    intro l
    rw [List.mem_filter, decide_eq_true_iff]
    exact and_iff_right (List.mem_finRange l)
  constructor
  · rintro ⟨base', freed, hbase', hclear, _, _, hfinal⟩
    obtain rfl : base' = base := congrArg Prod.fst (Option.some.inj (hbase'.symm.trans hbase))
    constructor
    · by_contra hxfer
      obtain ⟨l, hl⟩ := Finset.nonempty_iff_ne_empty.mpr hxfer
      obtain ⟨k, hk⟩ := (h.copies.xfer d l).mp hl
      obtain ⟨f, hf, hkey⟩ := List.mem_map.mp hk
      -- the oldest copy of the data is under way
      obtain ⟨g, hg, hdata, hstatus⟩ := h.copies.exists_not_waiting hf
      have hd : g.data = d := hdata.trans (congrArg (fun key => key.2.1) hkey)
      exact not_final_of_copy { s with base := { s.base with base := base' } } hg hd hstatus
        (h.copies.number _ (List.mem_map_of_mem hg)) hvalid hfinal
    · intro l hpinned
      by_contra hnot
      refine hpinned ?_
      rw [← hcleared.kept l fun hl => hnot ((hmem l).mp hl)]
      exact (hclear.replica l).2
  · rintro ⟨hxfer, hpinned⟩
    refine ⟨base, _, hbase, ⟨hvalid, halloc, fun l => ⟨hptr l, ?_⟩, fun l hl k => ?_⟩,
      freedOnce (h.machine.sound d), hothers, final_of_no_copy fun f hf hdata => ?_⟩
    · by_cases hl : l ∈ (s.mdi d).alloc
      · exact (hcleared.gone l ((hmem l).mpr hl)).2.1
      · rw [LruCache.State.rep, hcleared.kept l fun hmem' => hl ((hmem l).mp hmem')]
        exact not_not.mp fun hne => hl (hpinned l hne)
    · obtain ⟨es, free, hinv⟩ := hcached l hl
      rw [Evict.mem_cached hinv]
      intro hlist
      have hnolist : (base.rep l d).cachelist = none := (hinv.paired d).mp (hentry l hl)
      cases hlist.symm.trans hnolist
    · have hdest : f.dest ∈ (s.mdi d).xfer :=
        (h.copies.xfer d f.dest).mpr ⟨f.number, List.mem_map.mpr ⟨f, hf, by rw [← hdata]; rfl⟩⟩
      rw [hxfer] at hdest
      exact Finset.notMem_empty _ hdest

/-- One data that is not known, and one device. -/
def emptyState : State Unit 1 :=
  ⟨Reclaim.emptyState, [], 0⟩

theorem initial_emptyState : Initial emptyState :=
  ⟨Reclaim.initial_emptyState, fun _ => ⟨rfl, rfl⟩, rfl⟩

/-- A task reads the data on the device, and the copy ends. -/
def acquireRun : List (Action Unit 1) :=
  [.access 1 () 16 8 (.acquire .r), .allocate 1 32, .fetch 1 0, .mark 1, .touch 1, .receive 0]

theorem invalidate_sound_acquireRun :
    ∃ s, (system Unit 1).replay QuietInvalidation emptyState acquireRun = some s ∧
      ((s.mdi ()).replicas 1).ptr = 32 ∧ InvalidateSound s () := by
  let s := ((system Unit 1).replay QuietInvalidation emptyState acquireRun).get (by decide)
  have hrun : (system Unit 1).replay QuietInvalidation emptyState acquireRun = some s :=
    (Option.some_get _).symm
  refine ⟨s, hrun, rfl, ?_⟩
  refine (invalidate_sound_iff (.replay (.start initial_emptyState) hrun) ()).mpr ⟨rfl, ?_⟩
  decide

/-- The data is invalidated while the copy of the acquisition is in flight. -/
theorem not_invalidate_sound :
    ¬ ∀ s : State Unit 1, (system Unit 1).Reachable s → ∀ d, InvalidateSound s d := by
  intro hall
  let s := ((system Unit 1).run emptyState (acquireRun.take 5)).get (by decide)
  have hrun : (system Unit 1).run emptyState (acquireRun.take 5) = some s :=
    (Option.some_get _).symm
  obtain ⟨base, freed, hbase, hclear, _, _, hfinal⟩ :=
    hall s (.replay (.start initial_emptyState) hrun) ()
  -- the copy to the device is the only one, and it is under way
  exact not_final_of_copy { s with base := { s.base with base := base } }
    (f := ⟨0, (), 1, 0, .copying⟩) List.mem_cons_self rfl (fun heq => (nomatch heq))
    (Nat.lt_succ_self 0) hclear.valid hfinal

end Xkblas.Memory.Invalidate
