import Mathlib.Data.List.Perm.Basic
import Mathlib.Data.Set.Insert
import Mathlib.Order.BooleanAlgebra.Set

/-!
# Exclusive ownership

The owners of a family each have a list, and every member of a set is in the list of exactly one
owner, once. The rules give a member to an owner, take it from its owner, and move it from one
owner to another. The order of the lists does not matter, so the lists after a step are given up
to permutation.
-/

namespace Xkblas.Library

variable {ι α : Type*}

/-- Each member of `S` is in the list of one owner, once. -/
structure Owned (lists : ι → List α) (S : Set α) : Prop where
  nodup : ∀ i, (lists i).Nodup
  unique : ∀ {i j a}, a ∈ lists i → a ∈ lists j → i = j
  mem : ∀ a, a ∈ S ↔ ∃ i, a ∈ lists i

namespace Owned

variable {lists lists' : ι → List α} {S : Set α} {i j : ι} {a : α}

/-- The lists of owners that have nothing. -/
theorem empty (h : ∀ i, lists i = []) : Owned lists ∅ := by
  constructor
  case nodup =>
    intro i
    rw [h i]
    exact List.nodup_nil
  case unique =>
    intro i j a hi
    rw [h i] at hi
    cases hi
  case mem =>
    intro a
    constructor
    · exact fun ha => absurd ha (Set.notMem_empty a)
    · rintro ⟨i, hi⟩
      rw [h i] at hi
      cases hi

/-- The order of a list does not matter. -/
theorem congr (h : Owned lists S) (hperm : ∀ i, (lists' i).Perm (lists i)) :
    Owned lists' S := by
  constructor
  case nodup => exact fun i => (hperm i).nodup_iff.mpr (h.nodup i)
  case unique =>
    intro i j a hi hj
    exact h.unique ((hperm i).mem_iff.mp hi) ((hperm j).mem_iff.mp hj)
  case mem =>
    intro a
    rw [h.mem]
    exact exists_congr fun i => (hperm i).mem_iff.symm

/-- A new member is given to `i`. -/
theorem grant (h : Owned lists S) (ha : a ∉ S) (hi : (lists' i).Perm (a :: lists i))
    (hother : ∀ j ≠ i, (lists' j).Perm (lists j)) : Owned lists' (insert a S) := by
  have hmem : ∀ {j x}, x ∈ lists' j ↔ x ∈ lists j ∨ x = a ∧ j = i := by
    intro j x
    by_cases hj : j = i
    · subst hj
      rw [hi.mem_iff, List.mem_cons]
      tauto
    · rw [(hother j hj).mem_iff]
      tauto
  have hnot : ∀ {j x}, x ∈ lists j → x ≠ a := by
    rintro j x hx rfl
    exact ha ((h.mem x).mpr ⟨j, hx⟩)
  constructor
  case nodup =>
    intro j
    by_cases hj : j = i
    · subst hj
      exact hi.nodup_iff.mpr (List.nodup_cons.mpr ⟨fun hx => hnot hx rfl, h.nodup j⟩)
    · exact (hother j hj).nodup_iff.mpr (h.nodup j)
  case unique =>
    intro j k x hj hk
    rcases hmem.mp hj with hj | ⟨hxj, hj⟩ <;> rcases hmem.mp hk with hk | ⟨hxk, hk⟩
    · exact h.unique hj hk
    · exact absurd hxk (hnot hj)
    · exact absurd hxj (hnot hk)
    · exact hj.trans hk.symm
  case mem =>
    intro x
    rw [Set.mem_insert_iff, h.mem]
    constructor
    · rintro (hx | ⟨j, hj⟩)
      · exact ⟨i, hmem.mpr (.inr ⟨hx, rfl⟩)⟩
      · exact ⟨j, hmem.mpr (.inl hj)⟩
    · rintro ⟨j, hj⟩
      rcases hmem.mp hj with hj | ⟨hx, _⟩
      · exact .inr ⟨j, hj⟩
      · exact .inl hx

/-- A member is taken from its owner `i`. -/
theorem revoke (h : Owned lists S) (hi : (lists i).Perm (a :: lists' i))
    (hother : ∀ j ≠ i, (lists' j).Perm (lists j)) : Owned lists' (S \ {a}) := by
  have hai : a ∈ lists i := hi.mem_iff.mpr List.mem_cons_self
  have hnodup := List.nodup_cons.mp (hi.nodup_iff.mp (h.nodup i))
  have hmem : ∀ {j x}, x ∈ lists' j ↔ x ∈ lists j ∧ x ≠ a := by
    intro j x
    by_cases hj : j = i
    · subst hj
      rw [hi.mem_iff, List.mem_cons]
      constructor
      · exact fun hx => ⟨.inr hx, ne_of_mem_of_not_mem hx hnodup.1⟩
      · tauto
    · rw [(hother j hj).mem_iff]
      refine ⟨fun hx => ⟨hx, ?_⟩, fun hx => hx.1⟩
      rintro rfl
      exact hj (h.unique hx hai)
  constructor
  case nodup =>
    intro j
    by_cases hj : j = i
    · subst hj
      exact hnodup.2
    · exact (hother j hj).nodup_iff.mpr (h.nodup j)
  case unique => exact fun hj hk => h.unique (hmem.mp hj).1 (hmem.mp hk).1
  case mem =>
    intro x
    rw [Set.mem_sdiff, Set.mem_singleton_iff, h.mem]
    constructor
    · rintro ⟨⟨j, hj⟩, hx⟩
      exact ⟨j, hmem.mpr ⟨hj, hx⟩⟩
    · rintro ⟨j, hj⟩
      exact ⟨⟨j, (hmem.mp hj).1⟩, (hmem.mp hj).2⟩

/-- A member moves from the owner `i` to the owner `j`. -/
theorem move [DecidableEq ι] (h : Owned lists S) (hij : i ≠ j)
    (hi : (lists i).Perm (a :: lists' i)) (hj : (lists' j).Perm (a :: lists j))
    (hother : ∀ k, k ≠ i → k ≠ j → (lists' k).Perm (lists k)) : Owned lists' S := by
  have haS : a ∈ S := (h.mem a).mpr ⟨i, hi.mem_iff.mpr List.mem_cons_self⟩
  have hrevoked : Owned (Function.update lists i (lists' i)) (S \ {a}) := by
    refine h.revoke (i := i) (by rwa [Function.update_self]) fun k hk => ?_
    rw [Function.update_of_ne hk]
  have hgranted : Owned lists' (insert a (S \ {a})) := by
    refine hrevoked.grant (i := j) (fun hmem => hmem.2 rfl)
      (by rwa [Function.update_of_ne hij.symm]) fun k hk => ?_
    by_cases hki : k = i
    · rw [hki, Function.update_self]
    · rw [Function.update_of_ne hki]
      exact hother k hki hk
  rwa [Set.insert_sdiff_self_of_mem haS] at hgranted

end Owned

end Xkblas.Library
