import Mathlib.Algebra.BigOperators.Group.Finset.Basic
import Mathlib.Algebra.BigOperators.Intervals
import Mathlib.Data.List.Intervals
import Mathlib.Tactic.Ring

/-!
# Loops that make a list of tasks

A program that is a list of tasks is run by `List.foldl`. `forLoop` is the list that a loop makes.
`Acts` says what a list does to an observation of the state, and its rules follow the loops: only
one iteration of a loop changes what is observed (`Acts.forLoop_unique`), or every iteration adds
to it (`Acts.forLoop_accumulate`).
-/

namespace Xkblas.Library

variable {σ ω τ : Type*}

/-- Under the invariant `inv`, which they keep, the tasks change what is observed of the state by
`g`. -/
def Acts (exec : σ → τ → σ) (inv : σ → Prop) (obs : σ → ω) (tasks : List τ) (g : ω → ω) : Prop :=
  ∀ s, inv s → inv (tasks.foldl exec s) ∧ obs (tasks.foldl exec s) = g (obs s)

variable {exec : σ → τ → σ} {inv : σ → Prop} {obs : σ → ω} {tasks tasks' : List τ} {g g' : ω → ω}

theorem Acts.nil : Acts exec inv obs [] id :=
  fun _ hs => ⟨hs, rfl⟩

theorem Acts.append (h : Acts exec inv obs tasks g) (h' : Acts exec inv obs tasks' g') :
    Acts exec inv obs (tasks ++ tasks') fun x => g' (g x) := by
  intro s hs
  rw [List.foldl_append]
  obtain ⟨hinv, hobs⟩ := h s hs
  obtain ⟨hinv', hobs'⟩ := h' _ hinv
  exact ⟨hinv', by rw [hobs', hobs]⟩

theorem Acts.cons {t : τ} (h : Acts exec inv obs [t] g) (h' : Acts exec inv obs tasks g') :
    Acts exec inv obs (t :: tasks) fun x => g' (g x) :=
  h.append h'

theorem Acts.congr (h : Acts exec inv obs tasks g) (heq : ∀ x, g x = g' x) :
    Acts exec inv obs tasks g' := by
  rwa [show g' = g from funext fun x => (heq x).symm]

/-- A loop over the list `l`. -/
theorem Acts.flatMap {κ : Type*} {l : List κ} {body : κ → List τ} {g : κ → ω → ω}
    (h : ∀ k ∈ l, Acts exec inv obs (body k) (g k)) :
    Acts exec inv obs (l.flatMap body) fun x => l.foldl (fun x k => g k x) x := by
  induction l with
  | nil => exact .nil
  | cons k l ih =>
      rw [List.flatMap_cons]
      exact (h k List.mem_cons_self).append (ih fun a ha => h a (List.mem_cons_of_mem k ha))

/-- Tasks that leave the observation alone. -/
theorem foldl_eq_self {act : ω → τ → ω} {tasks : List τ} (h : ∀ t ∈ tasks, ∀ x, act x t = x)
    (x : ω) : tasks.foldl act x = x := by
  induction tasks with
  | nil => rfl
  | cons t tasks ih =>
      rw [List.foldl_cons, h t List.mem_cons_self]
      exact ih fun u hu => h u (List.mem_cons_of_mem t hu)

/-- What is observed of the state depends on the tasks that satisfy `p`, when the others do not
change it. -/
theorem foldl_observe (obs : σ → ω) (act : ω → τ → ω) (p : τ → Bool) {tasks : List τ}
    (hact : ∀ t ∈ tasks, p t = true → ∀ s, obs (exec s t) = act (obs s) t)
    (hother : ∀ t ∈ tasks, p t = false → ∀ s, obs (exec s t) = obs s) (s : σ) :
    obs (tasks.foldl exec s) = (tasks.filter p).foldl act (obs s) := by
  induction tasks generalizing s with
  | nil => rfl
  | cons t tasks ih =>
      have ih := ih (fun u hu => hact u (List.mem_cons_of_mem t hu))
        (fun u hu => hother u (List.mem_cons_of_mem t hu)) (exec s t)
      rw [List.foldl_cons, ih]
      cases hp : p t with
      | true => rw [List.filter_cons_of_pos hp, List.foldl_cons, hact t List.mem_cons_self hp]
      | false =>
          rw [List.filter_cons_of_neg (by rw [hp]; exact Bool.false_ne_true),
            hother t List.mem_cons_self hp]

/-- Only the entry `a` of a list without duplicates acts. -/
theorem foldl_unique {act : ω → τ → ω} {l : List τ} {a : τ} (hnodup : l.Nodup) (ha : a ∈ l)
    (h : ∀ b ∈ l, b ≠ a → ∀ x, act x b = x) (x : ω) : l.foldl act x = act x a := by
  obtain ⟨front, back, rfl⟩ := List.append_of_mem ha
  obtain ⟨hrest, hnodup⟩ := List.nodup_cons.mp (List.nodup_middle.mp hnodup)
  have hfront : ∀ b ∈ front, ∀ x, act x b = x := by
    intro b hb
    refine h b (List.mem_append_left _ hb) ?_
    rintro rfl
    exact hrest (List.mem_append_left _ hb)
  have hback : ∀ b ∈ back, ∀ x, act x b = x := by
    intro b hb
    refine h b (List.mem_append_right _ (List.mem_cons_of_mem _ hb)) ?_
    rintro rfl
    exact hrest (List.mem_append_right _ hb)
  rw [List.foldl_append, List.foldl_cons, foldl_eq_self hfront, foldl_eq_self hback]

/-- A loop that adds its terms to a value, which its first iteration scales. -/
theorem foldl_range_accumulate {R : Type*} [CommRing R] {act : R → ℕ → R} {term : ℕ → R}
    {beta : R} {n : ℕ} (h : ∀ k < n, ∀ x, act x k = term k + (if k = 0 then beta else 1) * x)
    (hn : 0 < n) (x : R) :
    (List.range n).foldl act x = ∑ k ∈ Finset.range n, term k + beta * x := by
  induction n with
  | zero => exact absurd hn (Nat.lt_irrefl 0)
  | succ n ih =>
      rw [List.range_succ, List.foldl_append, List.foldl_cons, List.foldl_nil,
        h n (Nat.lt_succ_self n), Finset.sum_range_succ]
      rcases Nat.eq_zero_or_pos n with rfl | hpos
      · simp
      · rw [ih (fun k hk => h k (Nat.lt_succ_of_lt hk)) hpos, if_neg (by omega)]
        ring

/-! ## Loops -/

/-- `for (k = lo; k < hi; k++) body`, as the list of what the iterations make. -/
def forLoop (lo hi : ℕ) (body : ℕ → List τ) : List τ :=
  (List.Ico lo hi).flatMap body

variable {lo hi : ℕ} {body body' : ℕ → List τ}

theorem mem_forLoop {t : τ} : t ∈ forLoop lo hi body ↔ ∃ k, (lo ≤ k ∧ k < hi) ∧ t ∈ body k := by
  simp only [forLoop, List.mem_flatMap, List.Ico.mem]

theorem forall_mem_forLoop {p : τ → Prop} :
    (∀ t ∈ forLoop lo hi body, p t) ↔ ∀ k, lo ≤ k → k < hi → ∀ t ∈ body k, p t := by
  simp only [mem_forLoop]
  constructor
  · exact fun h k hlo hhi t ht => h t ⟨k, ⟨hlo, hhi⟩, ht⟩
  · intro h t ht
    obtain ⟨k, ⟨hlo, hhi⟩, ht⟩ := ht
    exact h k hlo hhi t ht

theorem forLoop_congr (h : ∀ k, lo ≤ k → k < hi → body k = body' k) :
    forLoop lo hi body = forLoop lo hi body' :=
  List.flatMap_congr fun k hk => h k (List.Ico.mem.mp hk).1 (List.Ico.mem.mp hk).2

theorem map_forLoop {ρ : Type*} (f : τ → ρ) :
    (forLoop lo hi body).map f = forLoop lo hi fun k => (body k).map f := by
  unfold forLoop
  rw [List.map_flatMap]

theorem filter_forLoop (p : τ → Bool) :
    (forLoop lo hi body).filter p = forLoop lo hi fun k => (body k).filter p := by
  unfold forLoop
  rw [List.filter_flatMap]

/-- A loop whose iterations make nothing. -/
theorem forLoop_nil (h : ∀ k, lo ≤ k → k < hi → body k = []) : forLoop lo hi body = [] :=
  List.flatMap_eq_nil_iff.mpr fun k hk => h k (List.Ico.mem.mp hk).1 (List.Ico.mem.mp hk).2

/-- A list without repetitions only one element of which makes something. -/
theorem flatMap_unique {α : Type*} {l : List α} {f : α → List τ} {a : α} (hnodup : l.Nodup)
    (ha : a ∈ l) (h : ∀ b ∈ l, b ≠ a → f b = []) : l.flatMap f = f a := by
  obtain ⟨front, back, rfl⟩ := List.append_of_mem ha
  rw [List.nodup_append, List.nodup_cons] at hnodup
  obtain ⟨-, ⟨hback, -⟩, hfront⟩ := hnodup
  rw [List.flatMap_append, List.flatMap_cons]
  have hnil : front.flatMap f = [] := List.flatMap_eq_nil_iff.mpr fun b hb =>
    h b (List.mem_append_left _ hb) (hfront b hb a List.mem_cons_self)
  have hnil' : back.flatMap f = [] := List.flatMap_eq_nil_iff.mpr fun b hb =>
    h b (List.mem_append_right _ (List.mem_cons_of_mem a hb)) fun heq => hback (heq ▸ hb)
  rw [hnil, hnil', List.nil_append, List.append_nil]

/-- A loop only one iteration of which makes something. -/
theorem forLoop_single {a : ℕ} (hlo : lo ≤ a) (hhi : a < hi)
    (h : ∀ k, lo ≤ k → k < hi → k ≠ a → body k = []) : forLoop lo hi body = body a := by
  refine flatMap_unique (List.Ico.nodup lo hi) (List.Ico.mem.mpr ⟨hlo, hhi⟩) fun k hk hne => ?_
  exact h k (List.Ico.mem.mp hk).1 (List.Ico.mem.mp hk).2 hne

/-- A relation between the tasks of an iteration and those of the same and of later iterations. -/
theorem pairwise_forLoop {r : τ → τ → Prop}
    (h : ∀ a b, lo ≤ a → a ≤ b → b < hi → ∀ t ∈ body a, ∀ u ∈ body b, r t u) :
    (forLoop lo hi body).Pairwise r := by
  refine List.pairwise_flatMap.mpr ⟨fun k hk => ?_, ?_⟩
  · obtain ⟨hlo, hhi⟩ := List.Ico.mem.mp hk
    exact List.pairwise_of_forall_mem_list (h k k hlo le_rfl hhi)
  · refine (List.Ico.pairwise_lt lo hi).imp_of_mem fun {a b} ha hb hab => ?_
    exact h a b (List.Ico.mem.mp ha).1 hab.le (List.Ico.mem.mp hb).2

/-- `for (k = hi-1; k > -1; k--) body`. -/
def forLoopDown (hi : ℕ) (body : ℕ → List τ) : List τ :=
  (List.range hi).reverse.flatMap body

/-- A loop that counts down, as one that counts up. -/
theorem forLoopDown_eq (hi : ℕ) (body : ℕ → List τ) :
    forLoopDown hi body = forLoop 0 hi fun k => body (hi - 1 - k) := by
  unfold forLoopDown forLoop
  rw [List.Ico.zero_bot, List.range_eq_range', List.reverse_range', List.flatMap_map]
  simp [List.range_eq_range']

theorem forall_mem_forLoopDown {p : τ → Prop} :
    (∀ t ∈ forLoopDown hi body, p t) ↔ ∀ k < hi, ∀ t ∈ body k, p t := by
  rw [forLoopDown_eq, forall_mem_forLoop]
  constructor
  · intro h k hk
    have hback := h (hi - 1 - k) (Nat.zero_le _) (by omega)
    rwa [show hi - 1 - (hi - 1 - k) = k by omega] at hback
  · exact fun h k _ hk => h (hi - 1 - k) (by omega)

theorem forLoopDown_congr (h : ∀ k < hi, body k = body' k) :
    forLoopDown hi body = forLoopDown hi body' :=
  List.flatMap_congr fun k hk => h k (List.mem_range.mp (List.mem_reverse.mp hk))

/-- The fold of the actions of the iterations. -/
theorem Acts.forLoop {g : ℕ → ω → ω}
    (h : ∀ k, lo ≤ k → k < hi → Acts exec inv obs (body k) (g k)) :
    Acts exec inv obs (forLoop lo hi body)
      fun x => (List.Ico lo hi).foldl (fun x k => g k x) x :=
  .flatMap fun k hk => h k (List.Ico.mem.mp hk).1 (List.Ico.mem.mp hk).2

/-- A loop only the iteration `a` of which acts. -/
theorem Acts.forLoop_unique {a : ℕ} (hlo : lo ≤ a) (hhi : a < hi)
    (h : Acts exec inv obs (body a) g)
    (hother : ∀ b, lo ≤ b → b < hi → b ≠ a → Acts exec inv obs (body b) id) :
    Acts exec inv obs (Library.forLoop lo hi body) g := by
  have hloop : Acts exec inv obs (Library.forLoop lo hi body)
      fun x => (List.Ico lo hi).foldl (fun x b => if b = a then g x else x) x := by
    refine .forLoop fun b hlo hhi => ?_
    by_cases hba : b = a
    · subst hba
      exact h.congr fun x => (if_pos rfl).symm
    · exact (hother b hlo hhi hba).congr fun x => (if_neg hba).symm
  refine hloop.congr fun x => ?_
  rw [foldl_unique (List.Ico.nodup lo hi) (List.Ico.mem.mpr ⟨hlo, hhi⟩)
    fun b _ hba x => if_neg hba, if_pos rfl]

/-- A loop that adds its terms to what is observed, which its first iteration scales. -/
theorem Acts.forLoop_accumulate {R : Type*} [CommRing R] {obs : σ → R} {term : ℕ → R} {beta : R}
    (hhi : 0 < hi)
    (h : ∀ k < hi, Acts exec inv obs (body k) fun x => term k + (if k = 0 then beta else 1) * x) :
    Acts exec inv obs (Library.forLoop 0 hi body)
      fun x => ∑ k ∈ Finset.range hi, term k + beta * x := by
  refine (Acts.forLoop fun k _ hk => h k hk).congr fun x => ?_
  rw [List.Ico.zero_bot]
  exact foldl_range_accumulate (fun _ _ _ => rfl) hhi x

/-- Tasks none of which changes what is observed. -/
theorem Acts.of_forall_id (h : ∀ t ∈ tasks, Acts exec inv obs [t] id) :
    Acts exec inv obs tasks id := by
  induction tasks with
  | nil => exact .nil
  | cons t tasks ih =>
      exact (h t List.mem_cons_self).cons (ih fun u hu => h u (List.mem_cons_of_mem t hu))

/-- A loop none of whose iterations acts. -/
theorem Acts.forLoop_id (h : ∀ k, lo ≤ k → k < hi → Acts exec inv obs (body k) id) :
    Acts exec inv obs (Library.forLoop lo hi body) id :=
  (Acts.forLoop h).congr (foldl_eq_self fun _ _ _ => rfl)

/-- A loop that adds its terms to what is observed, or leaves it alone. -/
theorem Acts.forLoop_accumulate_if {R : Type*} [CommRing R] {obs : σ → R} {term : ℕ → R} {beta : R}
    {P : Prop} [Decidable P] (hhi : 0 < hi)
    (h : ∀ k < hi, Acts exec inv obs (body k) fun x =>
      if P then term k + (if k = 0 then beta else 1) * x else x) :
    Acts exec inv obs (Library.forLoop 0 hi body) fun x =>
      if P then ∑ k ∈ Finset.range hi, term k + beta * x else x := by
  by_cases hP : P
  · refine (Acts.forLoop_accumulate hhi fun k hk => ?_).congr fun x => (if_pos hP).symm
    exact (h k hk).congr fun x => if_pos hP
  · refine (Acts.forLoop_id fun k _ hk => ?_).congr fun x => (if_neg hP).symm
    exact (h k hk).congr fun x => if_neg hP

end Xkblas.Library
