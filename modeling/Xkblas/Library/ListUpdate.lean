import Mathlib.Algebra.BigOperators.Group.List.Basic
import Mathlib.Algebra.GroupWithZero.Nat
import Mathlib.Data.List.Nodup

/-!
# Members of an updated list

How the members of a list, and sums over it, change when the entry at one index is replaced or
removed. The entry is given by `l[i]? = some a`, as a step function finds it. An array is a function
on its indices.
-/

namespace Xkblas.Library

variable {α : Type*} {p : α → Prop} {l : List α} {i : Nat} {a b : α}

/-- The entries of a list, one of them replaced. -/
theorem forall_mem_set (h : ∀ x ∈ l, p x) (hb : p b) : ∀ x ∈ l.set i b, p x := by
  intro x hx
  rcases List.mem_or_eq_of_mem_set hx with hmem | rfl
  · exact h x hmem
  · exact hb

theorem forall_mem_eraseIdx (h : ∀ x ∈ l, p x) : ∀ x ∈ l.eraseIdx i, p x := by
  intro x hx
  exact h x (List.mem_of_mem_eraseIdx hx)

/-- A witness survives the replacement of an entry by one that is a witness if the old was. -/
theorem exists_mem_set (hi : l[i]? = some a) (h : ∃ x ∈ l, p x) (hab : p a → p b) :
    ∃ x ∈ l.set i b, p x := by
  obtain ⟨x, hx, hpx⟩ := h
  obtain ⟨j, hj, rfl⟩ := List.mem_iff_getElem.mp hx
  obtain ⟨hlt, rfl⟩ := List.getElem?_eq_some_iff.mp hi
  by_cases hij : i = j
  · subst hij
    exact ⟨b, List.mem_set hlt b, hab hpx⟩
  · refine ⟨l[j], List.mem_iff_getElem.mpr ⟨j, by simpa using hj, ?_⟩, hpx⟩
    rw [List.getElem_set_of_ne hij]

/-- A witness survives the removal of an entry that is none. -/
theorem exists_mem_eraseIdx (hi : l[i]? = some a) (h : ∃ x ∈ l, p x) (ha : ¬ p a) :
    ∃ x ∈ l.eraseIdx i, p x := by
  obtain ⟨x, hx, hpx⟩ := h
  obtain ⟨j, hj, rfl⟩ := List.mem_iff_getElem.mp hx
  refine ⟨l[j], List.mem_eraseIdx_iff_getElem.mpr ⟨j, hj, ?_, rfl⟩, hpx⟩
  rintro rfl
  obtain ⟨_, rfl⟩ := List.getElem?_eq_some_iff.mp hi
  exact ha hpx

/-- An image of the list does not see the replacement of an entry by one with the same image. -/
theorem map_set_of_eq {β : Type*} {f : α → β} (hi : l[i]? = some a) (hf : f b = f a) :
    (l.set i b).map f = l.map f := by
  obtain ⟨hlt, rfl⟩ := List.getElem?_eq_some_iff.mp hi
  rw [List.map_set, hf, ← List.getElem_map f (h := by simpa using hlt)]
  exact List.set_getElem_self _

/-- A sum over the list sees the replacement of an entry by the difference of its terms. -/
theorem sum_map_set {f : α → Nat} (hi : l[i]? = some a) :
    ((l.set i b).map f).sum + f a = (l.map f).sum + f b := by
  induction l generalizing i with
  | nil => cases hi
  | cons x l ih =>
      cases i with
      | zero =>
          obtain rfl := Option.some.inj hi
          simp only [List.set_cons_zero, List.map_cons, List.sum_cons]
          omega
      | succ i =>
          have hl := ih (i := i) hi
          simp only [List.set_cons_succ, List.map_cons, List.sum_cons]
          omega

/-- Removing an entry of a list without duplicates removes its value. -/
theorem mem_eraseIdx_of_nodup (hnodup : l.Nodup) (hi : l[i]? = some a) :
    b ∈ l.eraseIdx i ↔ b ≠ a ∧ b ∈ l := by
  classical
  obtain ⟨hlt, rfl⟩ := List.getElem?_eq_some_iff.mp hi
  rw [← hnodup.erase_getElem i hlt]
  exact hnodup.mem_erase_iff

/-- The number of entries that pass a test drops by one when one entry fails it from now on. -/
theorem countP_eq_add_one {p q : α → Bool} (hnodup : l.Nodup) (ha : a ∈ l) (hp : p a = true)
    (hq : q a = false) (h : ∀ b ∈ l, b ≠ a → p b = q b) : l.countP p = l.countP q + 1 := by
  obtain ⟨l₁, l₂, rfl⟩ := List.append_of_mem ha
  have hnot : ∀ b, b ∈ l₁ ∨ b ∈ l₂ → b ≠ a := by
    rintro b hb rfl
    obtain ⟨_, hcons, hdisjoint⟩ := List.nodup_append'.mp hnodup
    rcases hb with hb | hb
    · exact hdisjoint hb List.mem_cons_self
    · exact (List.nodup_cons.mp hcons).1 hb
  have hfirst : l₁.countP p = l₁.countP q := List.countP_congr fun b hb => by
    rw [h b (List.mem_append_left _ hb) (hnot b (.inl hb))]
  have hrest : l₂.countP p = l₂.countP q := List.countP_congr fun b hb => by
    rw [h b (List.mem_append_right _ (List.mem_cons_of_mem a hb)) (hnot b (.inr hb))]
  rw [List.countP_append, List.countP_append, List.countP_cons, List.countP_cons, hp, hq, hfirst,
    hrest]
  simp
  omega

/-- A list with at most one entry is the entry found in it. -/
theorem eq_of_mem_of_length_le_one (hlen : l.length ≤ 1) (ha : a ∈ l) (hb : b ∈ l) : a = b := by
  obtain ⟨i, hi, rfl⟩ := List.mem_iff_getElem.mp ha
  obtain ⟨j, hj, rfl⟩ := List.mem_iff_getElem.mp hb
  have hij : i = j := by omega
  subst hij
  rfl

/-- The entries of an array before the one that is written. -/
theorem map_range_update_of_le (f : ℕ → α) {n k : ℕ} (h : n ≤ k) (a : α) :
    (List.range n).map (Function.update f k a) = (List.range n).map f := by
  refine List.map_congr_left fun i hi => Function.update_of_ne ?_ a f
  exact Nat.ne_of_lt (Nat.lt_of_lt_of_le (List.mem_range.mp hi) h)

/-- The entries of an array up to the one that has just been written. -/
theorem map_range_update (f : ℕ → α) (n : ℕ) (a : α) :
    (List.range (n + 1)).map (Function.update f n a) = (List.range n).map f ++ [a] := by
  rw [List.range_succ, List.map_append, List.map_singleton, Function.update_self,
    map_range_update_of_le f (Nat.le_refl n)]

end Xkblas.Library
