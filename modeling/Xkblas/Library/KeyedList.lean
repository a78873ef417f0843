import Mathlib.Data.List.Basic
import Mathlib.Data.List.Pairwise
import Mathlib.Data.List.Perm.Basic
import Mathlib.Order.Defs.PartialOrder

/-!
# Lists whose entries have keys

A list of records, each with a key, is known up to its order by the records of each key
(`perm_of_recordsOf`). A merge of several sources is a list whose keys are the indices of the
sources. What is chosen from a merge is known when it comes from one source (`filter_of_source`), or
when the merge is sorted and no two of the chosen entries are equal in the order
(`filter_eq_of_sorted`).
-/

namespace Xkblas.Library

variable {κ ρ α : Type*} [DecidableEq κ]

/-- The records of a key. -/
def recordsOf (k : κ) (out : List (κ × ρ)) : List ρ :=
  (out.filter fun r => r.1 = k).map Prod.snd

theorem recordsOf_append (k : κ) (out out' : List (κ × ρ)) :
    recordsOf k (out ++ out') = recordsOf k out ++ recordsOf k out' := by
  unfold recordsOf
  rw [List.filter_append, List.map_append]

theorem recordsOf_cons_self (r : κ × ρ) (out : List (κ × ρ)) :
    recordsOf r.1 (r :: out) = r.2 :: recordsOf r.1 out := by
  unfold recordsOf
  rw [List.filter_cons_of_pos (by simp), List.map_cons]

theorem recordsOf_map_self (k : κ) (rs : List ρ) : recordsOf k (rs.map (k, ·)) = rs := by
  unfold recordsOf
  rw [List.filter_eq_self.mpr, List.map_map]
  · exact List.map_id rs
  · intro r hr
    obtain ⟨_, _, rfl⟩ := List.mem_map.mp hr
    exact decide_eq_true rfl

theorem recordsOf_map_of_ne {k' : κ} (hne : k' ≠ k) (rs : List ρ) :
    recordsOf k (rs.map (k', ·)) = [] := by
  unfold recordsOf
  rw [List.filter_eq_nil_iff.mpr]
  · rfl
  · intro r hr
    obtain ⟨_, _, rfl⟩ := List.mem_map.mp hr
    rw [decide_eq_true_eq]
    exact hne

/-- The entries of a key, with the key. -/
theorem map_recordsOf (k : κ) (out : List (κ × ρ)) :
    (recordsOf k out).map (k, ·) = out.filter fun r => r.1 = k := by
  unfold recordsOf
  rw [List.map_map]
  refine (List.map_congr_left fun r hr => ?_).trans (List.map_id _)
  have hk := (List.mem_filter.mp hr).2
  exact Prod.ext (of_decide_eq_true hk).symm rfl

/-- Lists with the same entries for each key, in the same order, have the same entries. -/
theorem perm_of_recordsOf {out out' : List (κ × ρ)}
    (h : ∀ k, recordsOf k out = recordsOf k out') : out.Perm out' := by
  classical
  refine List.perm_iff_count.mpr fun r => ?_
  have hfilter : (out.filter fun q => q.1 = r.1) = out'.filter fun q => q.1 = r.1 := by
    rw [← map_recordsOf, ← map_recordsOf, h]
  have hcount : ∀ l : List (κ × ρ), (l.filter fun q => q.1 = r.1).count r = l.count r :=
    fun l => List.count_filter (p := fun q : κ × ρ => q.1 = r.1) (decide_eq_true rfl)
  rw [← hcount out, hfilter, hcount]

/-- The records of phases, each of which has a key. -/
theorem recordsOf_flatMap (k : κ) (phases : List α) (key : α → κ) (records : α → List ρ) :
    recordsOf k (phases.flatMap fun a => (records a).map (key a, ·)) =
      (phases.filter fun a => key a = k).flatMap records := by
  induction phases with
  | nil => rfl
  | cons a phases ih =>
      rw [List.flatMap_cons, recordsOf_append, ih]
      by_cases hk : key a = k
      · rw [List.filter_cons_of_pos (by simpa using hk), List.flatMap_cons, hk,
          recordsOf_map_self]
      · rw [List.filter_cons_of_neg (by simpa using hk), recordsOf_map_of_ne hk,
          List.nil_append]

/-- Records that are, key by key, those of the phases. -/
theorem perm_flatMap_of_recordsOf {out : List (κ × ρ)} (phases : List α) (key : α → κ)
    (records : α → List ρ)
    (h : ∀ k, recordsOf k out = (phases.filter fun a => key a = k).flatMap records) :
    (out.map Prod.snd).Perm (phases.flatMap records) := by
  have hperm : out.Perm (phases.flatMap fun a => (records a).map (key a, ·)) :=
    perm_of_recordsOf fun k => (h k).trans (recordsOf_flatMap k phases key records).symm
  have hsnd : ∀ a, ((records a).map (key a, ·)).map Prod.snd = records a := fun a => by
    rw [List.map_map]
    exact List.map_id _
  refine (hperm.map Prod.snd).trans (List.Perm.of_eq ?_)
  rw [List.map_flatMap]
  exact List.flatMap_congr fun a _ => hsnd a

/-- The list with an index. -/
theorem filter_zipIdx_flatMap (n f : ℕ) (lists : List (List ρ)) :
    ((lists.zipIdx n).filter fun p => p.2 = f).flatMap Prod.fst =
      if n ≤ f then lists[f - n]?.getD [] else [] := by
  induction lists generalizing n with
  | nil =>
      show [] = if n ≤ f then [] else []
      rw [ite_self]
  | cons l lists ih =>
      rw [List.zipIdx_cons]
      rcases Nat.lt_trichotomy n f with hlt | rfl | hgt
      · rw [List.filter_cons_of_neg (by simpa using Nat.ne_of_lt hlt), ih,
          if_pos (Nat.succ_le_of_lt hlt), if_pos (Nat.le_of_lt hlt),
          show f - n = (f - (n + 1)) + 1 by omega, List.getElem?_cons_succ]
      · rw [List.filter_cons_of_pos (by simp), List.flatMap_cons, ih,
          if_neg (Nat.not_succ_le_self n), if_pos (Nat.le_refl n), Nat.sub_self, List.append_nil]
        rfl
      · rw [List.filter_cons_of_neg (by simpa using Nat.ne_of_gt hgt), ih, if_neg (by omega),
          if_neg (by omega)]

/-- The records that stand with the index of a list are those of the list. -/
theorem perm_flatten_of_recordsOf {out : List (ℕ × ρ)} {lists : List (List ρ)}
    (h : ∀ f, recordsOf f out = lists[f]?.getD []) : (out.map Prod.snd).Perm lists.flatten := by
  have hperm := perm_flatMap_of_recordsOf lists.zipIdx Prod.snd Prod.fst fun f =>
    (h f).trans (filter_zipIdx_flatMap 0 f lists).symm
  refine hperm.trans (List.Perm.of_eq ?_)
  show (lists.zipIdx.map Prod.fst).flatten = _
  rw [List.zipIdx_map_fst]

/-- The only entry with a key. -/
theorem filter_key_eq {key : α → κ} {l : List α} (hnodup : (l.map key).Nodup) {i : ℕ} {a : α}
    (ha : l[i]? = some a) : (l.filter fun b => key b = key a) = [a] := by
  induction l generalizing i with
  | nil => cases ha
  | cons b l ih =>
      rw [List.map_cons, List.nodup_cons] at hnodup
      cases i with
      | zero =>
          obtain rfl := Option.some.inj ha
          rw [List.filter_cons_of_pos (by simp), List.filter_eq_nil_iff.mpr]
          intro c hc
          rw [decide_eq_true_eq]
          exact fun heq => hnodup.1 (heq ▸ List.mem_map_of_mem hc)
      | succ i =>
          have hmem : key a ∈ l.map key := List.mem_map_of_mem (List.mem_of_getElem? ha)
          rw [List.filter_cons_of_neg]
          · exact ih hnodup.2 ha
          · rw [decide_eq_true_eq]
            exact fun heq => hnodup.1 (heq ▸ hmem)

/-- At most one entry has the key. -/
theorem filter_key_cases {key : α → κ} {l : List α} (hnodup : (l.map key).Nodup) (k : κ) :
    (l.filter fun b => key b = k) = [] ∨
      ∃ a ∈ l, key a = k ∧ (l.filter fun b => key b = k) = [a] := by
  by_cases hex : ∃ a ∈ l, key a = k
  · obtain ⟨a, ha, rfl⟩ := hex
    obtain ⟨i, hi⟩ := List.mem_iff_getElem?.mp ha
    exact .inr ⟨a, ha, rfl, filter_key_eq hnodup hi⟩
  · refine .inl (List.filter_eq_nil_iff.mpr fun a ha => ?_)
    rw [decide_eq_true_eq]
    exact fun hak => hex ⟨a, ha, hak⟩

/-- The entries of a merge that come from one source only. -/
theorem filter_of_source {out : List (ℕ × ρ)} {lists : List (List ρ)} {p : ρ → Bool} {f : ℕ}
    (hsrc : ∀ f, recordsOf f out = lists[f]?.getD [])
    (hp : ∀ g, ∀ a ∈ lists[g]?.getD [], p a = true → g = f) :
    (out.map Prod.snd).filter p = (lists[f]?.getD []).filter p := by
  have hout : out.filter (p ∘ Prod.snd) = (out.filter fun r => r.1 = f).filter (p ∘ Prod.snd) := by
    rw [List.filter_filter]
    refine List.filter_congr fun r hr => ?_
    have hmem : r.2 ∈ lists[r.1]?.getD [] := by
      rw [← hsrc]
      exact List.mem_map_of_mem (List.mem_filter.mpr ⟨hr, decide_eq_true rfl⟩)
    cases hpr : p r.2 with
    | false => simp [hpr]
    | true => simp [hpr, hp r.1 r.2 hmem hpr]
  rw [List.filter_map, hout, ← List.filter_map]
  exact congrArg (List.filter p) (hsrc f)

/-- The same, for sources with keys. -/
theorem filter_of_source_key {out : List (ℕ × ρ)} {sources : List α} {key : α → κ}
    {events : α → List ρ} {p : ρ → Bool} {k : κ} (hnodup : (sources.map key).Nodup)
    (hsrc : ∀ f, recordsOf f out = (sources.map events)[f]?.getD [])
    (hp : ∀ a ∈ sources, ∀ r ∈ events a, p r = true → key a = k) :
    (out.map Prod.snd).filter p =
      (sources.filter fun a => key a = k).flatMap fun a => (events a).filter p := by
  have hkey : ∀ g : ℕ, ∀ r ∈ (sources.map events)[g]?.getD [], p r = true →
      ∃ a, sources[g]? = some a ∧ key a = k := by
    intro g r hr hpr
    rw [List.getElem?_map] at hr
    cases ha : sources[g]? with
    | none =>
        rw [ha] at hr
        cases hr
    | some a =>
        rw [ha] at hr
        exact ⟨a, rfl, hp a (List.mem_of_getElem? ha) r hr hpr⟩
  rcases filter_key_cases hnodup k with hnil | ⟨a, ha, rfl, hsingle⟩
  · have hnone : ∀ g : ℕ, ∀ r ∈ (sources.map events)[g]?.getD [], p r = true →
        g = sources.length := by
      intro g r hr hpr
      obtain ⟨a, ha, hak⟩ := hkey g r hr hpr
      have hmem : a ∈ sources.filter fun a => key a = k :=
        List.mem_filter.mpr ⟨List.mem_of_getElem? ha, decide_eq_true hak⟩
      rw [hnil] at hmem
      cases hmem
    rw [filter_of_source hsrc hnone, hnil,
      List.getElem?_eq_none (Nat.le_of_eq (List.length_map events))]
    rfl
  · obtain ⟨i, ha⟩ := List.mem_iff_getElem?.mp ha
    rw [hsingle, List.flatMap_singleton,
      filter_of_source hsrc (f := i) fun g r hr hpr => ?_]
    · rw [List.getElem?_map, ha]
      rfl
    · -- two sources with the key are the same
      obtain ⟨b, hb, heq⟩ := hkey g r hr hpr
      have hg : (sources.map key)[g]? = some (key a) := by rw [List.getElem?_map, hb, ← heq]; rfl
      have hi : (sources.map key)[i]? = some (key a) := by rw [List.getElem?_map, ha]; rfl
      obtain ⟨hglt, _⟩ := List.getElem?_eq_some_iff.mp hg
      exact (List.getElem?_inj hglt hnodup).mp (hg.trans hi.symm)

/-- The chosen entries of a sorted list, when it is known what they are and that no two of them have
the same place in the order. -/
theorem filter_eq_of_sorted {δ : Type*} [PartialOrder δ] {date : α → δ} {l chosen : List α}
    {p : α → Bool} (hsorted : l.Pairwise fun a b => date a ≤ date b)
    (hperm : (l.filter p).Perm chosen) (hchosen : chosen.Pairwise fun a b => date a < date b) :
    l.filter p = chosen := by
  have hanti : ∀ a b, a ∈ l.filter p → b ∈ chosen → date a ≤ date b → date b ≤ date a → a = b := by
    intro a b ha hb hab hba
    by_contra hne
    -- two entries of `chosen` with the same date are at the same place
    have : Std.Symm fun a b : α => date a ≠ date b := ⟨fun _ _ h => h.symm⟩
    have hdates : chosen.Pairwise fun a b => date a ≠ date b := hchosen.imp ne_of_lt
    exact hdates.forall (hperm.mem_iff.mp ha) hb hne (le_antisymm hab hba)
  exact List.Perm.eq_of_pairwise hanti (hsorted.filter p) (hchosen.imp le_of_lt) hperm

end Xkblas.Library
