import Mathlib.Data.List.TakeWhile

/-!
# Maximal runs

`Run p s a rest` says that the text `s` is the longest run `a` of characters that satisfy `p`,
followed by `rest`. The rest is there in the judgement, so that no run ends before its last
character. `run_iff` computes it by `List.takeWhile` and `List.dropWhile`.
-/

namespace Xkblas.Library

variable {α : Type*} {p q : α → Bool} {s a b rest rest' : List α} {c : α}

/-- The text `s` starts with the run `a` of `p`, and `rest` does not continue it. -/
structure Run (p : α → Bool) (s a rest : List α) : Prop where
  eq : s = a ++ rest
  all : ∀ c ∈ a, p c = true
  ends : ∀ c, rest.head? = some c → p c = false

theorem Run.nil (h : ∀ c, s.head? = some c → p c = false) : Run p s [] s :=
  ⟨rfl, nofun, h⟩

theorem run_takeWhile (p : α → Bool) (s : List α) : Run p s (s.takeWhile p) (s.dropWhile p) := by
  refine ⟨(List.takeWhile_append_dropWhile).symm, fun c hc => List.mem_takeWhile_imp hc,
    fun c hc => ?_⟩
  induction s with
  | nil => cases hc
  | cons d s ih =>
      by_cases hd : p d = true
      · rw [List.dropWhile_cons_of_pos hd] at hc
        exact ih hc
      · rw [List.dropWhile_cons_of_neg hd] at hc
        obtain rfl := Option.some.inj hc
        exact Bool.eq_false_iff.mpr hd

/-- There is one such run. -/
theorem Run.unique (h : Run p s a rest) (h' : Run p s b rest') : a = b ∧ rest = rest' := by
  obtain ⟨rfl, hall, hends⟩ := h
  obtain ⟨heq, hall', hends'⟩ := h'
  induction a generalizing b with
  | nil =>
      cases b with
      | nil => exact ⟨rfl, heq⟩
      | cons d b =>
          change rest = d :: (b ++ rest') at heq
          have hd := hends d (by rw [heq]; rfl)
          rw [hall' d List.mem_cons_self] at hd
          cases hd
  | cons c a ih =>
      cases b with
      | nil =>
          change c :: (a ++ rest) = rest' at heq
          have hc := hends' c (by rw [← heq]; rfl)
          rw [hall c List.mem_cons_self] at hc
          cases hc
      | cons d b =>
          change c :: (a ++ rest) = d :: (b ++ rest') at heq
          obtain ⟨rfl, htail⟩ := List.cons.inj heq
          obtain ⟨rfl, rfl⟩ := ih (fun e he => hall e (List.mem_cons_of_mem c he)) htail
            fun e he => hall' e (List.mem_cons_of_mem c he)
          exact ⟨rfl, rfl⟩

theorem run_iff : Run p s a rest ↔ s.takeWhile p = a ∧ s.dropWhile p = rest := by
  constructor
  · exact fun h => (run_takeWhile p s).unique h
  · rintro ⟨rfl, rfl⟩
    exact run_takeWhile p s

theorem Run.takeWhile (h : Run p s a rest) : s.takeWhile p = a :=
  (run_iff.mp h).1

theorem Run.dropWhile (h : Run p s a rest) : s.dropWhile p = rest :=
  (run_iff.mp h).2

/-- A text that only has characters of the run. -/
theorem Run.whole (h : ∀ c ∈ s, p c = true) : Run p s s [] :=
  ⟨(List.append_nil s).symm, h, nofun⟩

/-- The run is empty at a character that does not satisfy `p`. -/
theorem Run.of_head (h : p c = false) : Run p (c :: s) [] (c :: s) := by
  refine .nil fun d hd => ?_
  obtain rfl := Option.some.inj hd
  exact h

/-- The rest is not longer. -/
theorem Run.length_le (h : Run p s a rest) : rest.length ≤ s.length := by
  rw [h.eq, List.length_append]
  omega

theorem Run.length_lt (h : Run p s a rest) (hne : a ≠ []) : rest.length < s.length := by
  rw [h.eq, List.length_append]
  have hpos := List.length_pos_iff.mpr hne
  omega

end Xkblas.Library
