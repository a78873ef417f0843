import Mathlib.Data.List.Nodup
import Mathlib.Logic.Function.Basic

/-!
# Paths of pointers

A linked list in a store is a pointer to its first cell and a pointer in each cell to the next
one. `IsPath link p l q` says that the cells met from `p` by following `link` are those of `l`,
and that the last pointer is `q`. The field of a cell is abstracted to the function `link`, so a
doubly linked list is a path of its forward pointers and, on the reversed list, one of its
backward pointers.
-/

namespace Xkblas.Library

variable {α : Type*}

/-- Following `link` from `p` goes through the cells of the list and ends at `q`. -/
def IsPath (link : α → Option α) (p : Option α) : List α → Option α → Prop
  | [], q => p = q
  | x :: l, q => p = some x ∧ IsPath link (link x) l q

variable {link link' : α → Option α} {p q r : Option α} {l l' : List α} {x : α}

@[simp] theorem isPath_nil : IsPath link p [] q ↔ p = q :=
  Iff.rfl

@[simp] theorem isPath_cons : IsPath link p (x :: l) q ↔ p = some x ∧ IsPath link (link x) l q :=
  Iff.rfl

/-- A path through two lists goes through the pointer between them. -/
theorem isPath_append :
    IsPath link p (l ++ l') q ↔ ∃ r, IsPath link p l r ∧ IsPath link r l' q := by
  induction l generalizing p with
  | nil =>
      constructor
      · exact fun h => ⟨p, rfl, h⟩
      · rintro ⟨r, rfl, h⟩
        exact h
  | cons y l ih =>
      show p = some y ∧ IsPath link (link y) (l ++ l') q ↔
        ∃ r, (p = some y ∧ IsPath link (link y) l r) ∧ IsPath link r l' q
      rw [ih]
      constructor
      · rintro ⟨hp, r, h, h'⟩
        exact ⟨r, ⟨hp, h⟩, h'⟩
      · rintro ⟨r, ⟨hp, h⟩, h'⟩
        exact ⟨hp, r, h, h'⟩

/-- A path to a cell and on. -/
theorem isPath_append_cons :
    IsPath link p (l ++ x :: l') q ↔ IsPath link p l (some x) ∧ IsPath link (link x) l' q := by
  rw [isPath_append]
  constructor
  · rintro ⟨r, h, rfl, h'⟩
    exact ⟨h, h'⟩
  · rintro ⟨h, h'⟩
    exact ⟨some x, h, rfl, h'⟩

/-- A path only reads the fields of its cells. -/
theorem IsPath.congr (h : IsPath link p l q) (heq : ∀ y ∈ l, link' y = link y) :
    IsPath link' p l q := by
  induction l generalizing p with
  | nil => exact h
  | cons y l ih =>
      obtain ⟨hp, htail⟩ := h
      refine ⟨hp, ?_⟩
      rw [heq y List.mem_cons_self]
      exact ih htail fun z hz => heq z (List.mem_cons_of_mem _ hz)

/-- The first pointer of a path to the end of a list is the first cell. -/
theorem IsPath.eq_head? (h : IsPath link p l none) : p = l.head? := by
  cases l with
  | nil => exact h
  | cons y l => exact h.1

/-- The pointers determine the cells of a path to the end of a list. -/
theorem IsPath.unique (h : IsPath link p l none) (h' : IsPath link p l' none) : l = l' := by
  induction l generalizing p l' with
  | nil =>
      obtain rfl : p = none := h
      exact (List.head?_eq_none_iff.mp h'.eq_head?.symm).symm
  | cons y l ih =>
      obtain ⟨rfl, htail⟩ := h
      cases l' with
      | nil => cases h'
      | cons z l' =>
          obtain ⟨heq, htail'⟩ := h'
          cases heq
          rw [ih htail htail']

/-- A path to the end of a list meets no cell twice. -/
theorem IsPath.nodup (h : IsPath link p l none) : l.Nodup := by
  induction l generalizing p with
  | nil => exact List.nodup_nil
  | cons y l ih =>
      obtain ⟨_, htail⟩ := h
      refine List.nodup_cons.mpr ⟨fun hy => ?_, ih htail⟩
      -- from the second visit of `y` the path would end as from the first one
      obtain ⟨l₁, l₂, rfl⟩ := List.append_of_mem hy
      have hsame := htail.unique (isPath_append_cons.mp htail).2
      have hlen := congrArg List.length hsame
      rw [List.length_append, List.length_cons] at hlen
      omega

/-- The cells met from `p`, at most `fuel` of them. -/
def walk (link : α → Option α) : ℕ → Option α → List α
  | 0, _ => []
  | _ + 1, none => []
  | fuel + 1, some x => x :: walk link fuel (link x)

/-- A walk that is long enough meets the cells of the path. -/
theorem IsPath.walk_eq {fuel : ℕ} (h : IsPath link p l none) (hfuel : l.length ≤ fuel) :
    walk link fuel p = l := by
  induction l generalizing p fuel with
  | nil =>
      obtain rfl : p = none := h
      cases fuel <;> rfl
  | cons y l ih =>
      obtain ⟨rfl, htail⟩ := h
      obtain ⟨fuel, rfl⟩ := Nat.exists_eq_succ_of_ne_zero (Nat.ne_of_gt (Nat.zero_lt_of_lt hfuel))
      exact congrArg (y :: ·) (ih htail (Nat.le_of_succ_le_succ hfuel))

/-- The loop that follows `link` from `p` until a cell passes the test or the list ends, with at
most `fuel` tests. -/
def search (link : α → Option α) (test : α → Bool) : ℕ → Option α → Option (Option α)
  | 0, _ => none
  | _ + 1, none => some none
  | fuel + 1, some x => if test x then some (some x) else search link test fuel (link x)

/-- The loop ends on a path to the end of a list, with the first cell that passes the test. -/
theorem IsPath.search_eq {test : α → Bool} {fuel : ℕ} (h : IsPath link p l none)
    (hfuel : l.length < fuel) : search link test fuel p = some (l.find? test) := by
  induction l generalizing p fuel with
  | nil =>
      obtain ⟨fuel, rfl⟩ := Nat.exists_eq_succ_of_ne_zero (Nat.ne_of_gt hfuel)
      obtain rfl : p = none := h
      rfl
  | cons y l ih =>
      obtain ⟨fuel, rfl⟩ := Nat.exists_eq_succ_of_ne_zero (Nat.ne_of_gt (Nat.zero_lt_of_lt hfuel))
      obtain ⟨rfl, htail⟩ := h
      show (if test y then some (some y) else search link test fuel (link y)) = _
      by_cases htest : test y = true
      · rw [if_pos htest, List.find?_cons_of_pos htest]
      · rw [if_neg htest, List.find?_cons_of_neg htest]
        exact ih htail (Nat.lt_of_succ_lt_succ hfuel)

/-- The field of a cell is set to a list that does not go through the cell: a path through the
cell goes on with that list. -/
theorem IsPath.redirect [DecidableEq α] {l₁ l₂ : List α} (h : IsPath link p (l₁ ++ x :: l₂) none)
    (hr : IsPath link r l' none) (hx : x ∉ l') :
    IsPath (Function.update link x r) p (l₁ ++ x :: l') none := by
  have hnot : x ∉ l₁ := fun hmem =>
    (List.nodup_append'.mp h.nodup).2.2 hmem List.mem_cons_self
  refine isPath_append_cons.mpr ⟨(isPath_append_cons.mp h).1.congr fun y hy => ?_, ?_⟩
  · exact Function.update_of_ne (ne_of_mem_of_not_mem hy hnot) _ _
  · rw [Function.update_self]
    exact hr.congr fun y hy => Function.update_of_ne (ne_of_mem_of_not_mem hy hx) _ _

/-- An assignment to a field through a pointer that may be null. -/
def assignAt {β : Type*} [DecidableEq α] (field : α → β) (r : Option α) (v : β) (x : α) : β :=
  if r = some x then v else field x

theorem assignAt_of_ne {β : Type*} [DecidableEq α] {field : α → β} {r : Option α} {v : β}
    (h : r ≠ some x) : assignAt field r v x = field x :=
  if_neg h

@[simp] theorem assignAt_none {β : Type*} [DecidableEq α] {field : α → β} {v : β} :
    assignAt field (none : Option α) v = field := by
  funext x
  exact assignAt_of_ne (by simp)

@[simp] theorem assignAt_some {β : Type*} [DecidableEq α] {field : α → β} {v : β} :
    assignAt field (some x) v = Function.update field x v := by
  funext y
  by_cases hy : y = x
  · rw [hy, Function.update_self]
    exact if_pos rfl
  · rw [Function.update_of_ne hy]
    exact assignAt_of_ne fun heq => hy (Option.some.inj heq).symm

/-- An assignment through a pointer to the last cell of a list changes no cell outside. -/
theorem assignAt_getLast?_of_notMem {β : Type*} [DecidableEq α] {field : α → β} {v : β}
    (hx : x ∉ l) : assignAt field l.getLast? v x = field x :=
  assignAt_of_ne fun hlast => hx (List.mem_of_getLast? hlast)

/-- An assignment through a pointer to the first cell of a list changes no cell outside. -/
theorem assignAt_head?_of_notMem {β : Type*} [DecidableEq α] {field : α → β} {v : β}
    (hx : x ∉ l) : assignAt field l.head? v x = field x :=
  assignAt_of_ne fun hhead => hx (List.mem_of_mem_head? hhead)

/-- The first pointer of a path whose last pointer is set to `r`. -/
def restart (p : Option α) (l : List α) (r : Option α) : Option α :=
  if l = [] then r else p

/-- Setting the field of the last cell moves the end of the path. -/
theorem IsPath.retarget [DecidableEq α] (h : IsPath link p l q) (hnodup : l.Nodup)
    (r : Option α) : IsPath (assignAt link l.getLast? r) (restart p l r) l r := by
  rcases List.eq_nil_or_concat l with rfl | ⟨init, y, rfl⟩
  · exact rfl
  · rw [List.concat_eq_append] at h hnodup ⊢
    have hy : y ∉ init := fun hmem =>
      (List.nodup_append'.mp hnodup).2.2 hmem (List.mem_singleton_self y)
    have hstart : restart p (init ++ [y]) r = p := if_neg (by simp)
    rw [hstart, isPath_append_cons]
    refine ⟨(isPath_append_cons.mp h).1.congr fun z hz => assignAt_of_ne ?_, ?_⟩
    · rw [List.getLast?_concat]
      rintro ⟨rfl⟩
      exact hy hz
    · exact if_pos List.getLast?_concat

/-- A cell `y` is linked in between two lists: the last cell of the first points to it, and it
points where that cell did. -/
theorem IsPath.insert [DecidableEq α] {y : α} (hl : IsPath link p l r)
    (hl' : IsPath link r l' q) (hnodup : l.Nodup)
    (hlast : ∀ z ∈ l, link' z = assignAt link l.getLast? (some y) z) (hy : link' y = r)
    (hrest : ∀ z ∈ l', link' z = link z) :
    IsPath link' (restart p l (some y)) (l ++ y :: l') q := by
  refine isPath_append_cons.mpr ⟨(hl.retarget hnodup (some y)).congr hlast, ?_⟩
  rw [hy]
  exact hl'.congr hrest

/-- A cell `y` is unlinked: the cell before it points where `y` did. -/
theorem IsPath.remove [DecidableEq α] {y : α} (h : IsPath link p (l ++ y :: l') q)
    (hnodup : l.Nodup) (hlast : ∀ z ∈ l, link' z = assignAt link l.getLast? (link y) z)
    (hrest : ∀ z ∈ l', link' z = link z) : IsPath link' (restart p l (link y)) (l ++ l') q := by
  obtain ⟨hl, hl'⟩ := isPath_append_cons.mp h
  exact isPath_append.mpr ⟨_, (hl.retarget hnodup (link y)).congr hlast, hl'.congr hrest⟩

end Xkblas.Library
