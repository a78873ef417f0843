import Mathlib.Tactic.LinearCombination
import Xkblas.Library.LoopFold

/-!
# Substitution and product by blocks

A vector is cut into the disjoint blocks `S 0, S 1, …` and changed block by block. A step
replaces one block by a combination of itself and of the rows of `T` applied to a block
(`Updated`), or by the solution of the system of the block (`Solved`). Nothing is asked of the
order of the indices: a block triangular matrix is one with `T i l = 0` for `l` in a later block,
so that forward and backward sweeps are the same theorem.

`block_substitution` solves a triangular system, `block_product` multiplies by a triangular
matrix in place.
-/

namespace Xkblas.Library

open Finset

variable {R : Type*} [CommRing R] {T : ℕ → ℕ → R} {S : ℕ → Finset ℕ} {K : ℕ} {v v' w : ℕ → R}
  {alpha : R} {i : ℕ}

/-- The row `i` of `T`, restricted to the columns of a block, applied to `v`. -/
def blockRow (T : ℕ → ℕ → R) (s : Finset ℕ) (v : ℕ → R) (i : ℕ) : R :=
  ∑ l ∈ s, T i l * v l

theorem blockRow_congr {s : Finset ℕ} (h : ∀ l ∈ s, v l = v' l) (i : ℕ) :
    blockRow T s v i = blockRow T s v' i :=
  sum_congr rfl fun l hl => by rw [h l hl]

theorem blockRow_eq_zero {s : Finset ℕ} (h : ∀ l ∈ s, T i l = 0) (v : ℕ → R) :
    blockRow T s v i = 0 :=
  sum_eq_zero fun l hl => by rw [h l hl, zero_mul]

/-- The block `s'` of `v'` combines the block of `v` with the rows of `T` applied to the block
`s`. -/
structure Updated (T : ℕ → ℕ → R) (s s' : Finset ℕ) (mu lam : R) (v v' : ℕ → R) : Prop where
  block : ∀ i ∈ s', v' i = mu * blockRow T s v i + lam * v i
  frame : ∀ i ∉ s', v' i = v i

/-- The vector after such a step. -/
def blockUpdate (T : ℕ → ℕ → R) (s s' : Finset ℕ) (mu lam : R) (v : ℕ → R) : ℕ → R := fun i =>
  if i ∈ s' then mu * blockRow T s v i + lam * v i else v i

theorem updated_blockUpdate (T : ℕ → ℕ → R) (s s' : Finset ℕ) (mu lam : R) (v : ℕ → R) :
    Updated T s s' mu lam v (blockUpdate T s s' mu lam v) where
  block := fun _ hi => if_pos hi
  frame := fun _ hi => if_neg hi

/-- The block `s` of `v'` solves its part of the system, with the right-hand side `c * v`. -/
structure Solved (T : ℕ → ℕ → R) (s : Finset ℕ) (c : R) (v v' : ℕ → R) : Prop where
  block : ∀ i ∈ s, blockRow T s v' i = c * v i
  frame : ∀ i ∉ s, v' i = v i

/-- The blocks are disjoint. -/
def DisjointBlocks (S : ℕ → Finset ℕ) (K : ℕ) : Prop :=
  ∀ a < K, ∀ b < K, ∀ i ∈ S a, i ∈ S b → a = b

/-! ## Substitution -/

/-- The blocks of `ms` are updated from a block that is none of them. -/
theorem foldl_updated {s : Finset ℕ} {mu lam : R} {upd : (ℕ → R) → ℕ → ℕ → R} {ms : List ℕ}
    (hnodup : ms.Nodup) (hS : ∀ a ∈ ms, ∀ b ∈ ms, ∀ i ∈ S a, i ∈ S b → a = b)
    (hs : ∀ m ∈ ms, ∀ i ∈ S m, i ∉ s)
    (hupd : ∀ m ∈ ms, ∀ v, Updated T s (S m) mu lam v (upd v m)) (v : ℕ → R) :
    (∀ m ∈ ms, ∀ i ∈ S m, ms.foldl upd v i = mu * blockRow T s v i + lam * v i) ∧
      ∀ i, (∀ m ∈ ms, i ∉ S m) → ms.foldl upd v i = v i := by
  induction ms generalizing v with
  | nil => simp
  | cons m ms ih =>
      obtain ⟨hm, hnodup⟩ := List.nodup_cons.mp hnodup
      have hstep := hupd m List.mem_cons_self v
      obtain ⟨hblock, hframe⟩ := ih hnodup
        (fun a ha b hb => hS a (List.mem_cons_of_mem m ha) b (List.mem_cons_of_mem m hb))
        (fun a ha => hs a (List.mem_cons_of_mem m ha))
        (fun a ha => hupd a (List.mem_cons_of_mem m ha)) (upd v m)
      have hother : ∀ a ∈ ms, ∀ i ∈ S a, i ∉ S m := by
        intro a ha i hi him
        have heq := hS a (List.mem_cons_of_mem m ha) m List.mem_cons_self i hi him
        exact hm (heq ▸ ha)
      have hrow : ∀ i, blockRow T s (upd v m) i = blockRow T s v i :=
        blockRow_congr fun l hl =>
          hstep.frame l fun hlm => hs m List.mem_cons_self l hlm hl
      constructor
      · intro a ha i hi
        rcases List.mem_cons.mp ha with rfl | ha
        · rw [List.foldl_cons, hframe i fun b hb hib => hother b hb i hib hi, hstep.block i hi]
        · rw [List.foldl_cons, hblock a ha i hi, hrow i, hstep.frame i (hother a ha i hi)]
      · intro i hi
        rw [List.foldl_cons, hframe i fun b hb => hi b (List.mem_cons_of_mem m hb),
          hstep.frame i (hi m List.mem_cons_self)]

/-- The rows of the first `k` blocks. -/
def partialRow (T : ℕ → ℕ → R) (S : ℕ → Finset ℕ) (k : ℕ) (v : ℕ → R) (i : ℕ) : R :=
  ∑ b ∈ range k, blockRow T (S b) v i

theorem partialRow_succ (k : ℕ) (v : ℕ → R) (i : ℕ) :
    partialRow T S (k + 1) v i = partialRow T S k v i + blockRow T (S k) v i :=
  sum_range_succ _ _

theorem partialRow_congr {k : ℕ} (h : ∀ b < k, ∀ l ∈ S b, v l = v' l) (i : ℕ) :
    partialRow T S k v i = partialRow T S k v' i :=
  sum_congr rfl fun b hb => blockRow_congr (h b (mem_range.mp hb)) i

/-- After `k` stages the first `k` blocks satisfy their equations, and the other blocks are the
right-hand sides of what remains, divided by the scale `c k`. -/
structure SubstInv (T : ℕ → ℕ → R) (S : ℕ → Finset ℕ) (K : ℕ) (alpha ck : R) (w : ℕ → R) (k : ℕ)
    (v : ℕ → R) : Prop where
  solved : ∀ a < k, ∀ i ∈ S a, partialRow T S (a + 1) v i = alpha * w i
  remaining : ∀ a < K, k ≤ a → ∀ i ∈ S a, ck * v i = alpha * w i - partialRow T S k v i
  frame : ∀ i, (∀ a < K, i ∉ S a) → v i = w i

/-- A stage solves the block `k` and updates the blocks of `rest`, which are those after it. -/
theorem SubstInv.stage {k : ℕ} {ck ck' mu lam : R} {solve : ℕ → R} {upd : (ℕ → R) → ℕ → ℕ → R}
    {rest : List ℕ} (h : SubstInv T S K alpha ck w k v) (hS : DisjointBlocks S K) (hk : k < K)
    (hrest : rest.Nodup) (hmem : ∀ m, m ∈ rest ↔ k < m ∧ m < K)
    (hsolve : Solved T (S k) ck v solve)
    (hupd : ∀ m ∈ rest, ∀ v, Updated T (S k) (S m) mu lam v (upd v m))
    (hmu : ck' * mu = -1) (hlam : ck' * lam = ck) :
    SubstInv T S K alpha ck' w (k + 1) (rest.foldl upd solve) := by
  have hlt : ∀ m ∈ rest, m < K := fun m hm => ((hmem m).mp hm).2
  obtain ⟨hblock, hframe⟩ := foldl_updated hrest
    (fun a ha b hb => hS a (hlt a ha) b (hlt b hb))
    (fun m hm i hi hik => absurd (hS m (hlt m hm) k hk i hi hik) ((hmem m).mp hm).1.ne')
    hupd solve
  -- the stage leaves the first `k` blocks as they are, and the block `k` as it was solved
  have hdone : ∀ a ≤ k, ∀ l ∈ S a, rest.foldl upd solve l = solve l := by
    intro a ha l hl
    refine hframe l fun m hm hlm => ?_
    have heq := hS a (lt_of_le_of_lt ha hk) m (hlt m hm) l hl hlm
    exact absurd ((hmem m).mp hm).1 (by omega)
  have hbefore : ∀ a < k, ∀ l ∈ S a, rest.foldl upd solve l = v l := by
    intro a ha l hl
    rw [hdone a ha.le l hl]
    exact hsolve.frame l fun hlk => absurd (hS a (ha.trans hk) k hk l hl hlk) ha.ne
  have hrow : ∀ i, blockRow T (S k) (rest.foldl upd solve) i = blockRow T (S k) solve i :=
    blockRow_congr (hdone k le_rfl)
  have hpartial : ∀ i, partialRow T S k (rest.foldl upd solve) i = partialRow T S k v i :=
    partialRow_congr hbefore
  constructor
  case solved =>
    intro a ha i hi
    rcases Nat.lt_succ_iff_lt_or_eq.mp ha with ha | rfl
    · rw [partialRow_congr fun b hb l hl => hbefore b (by omega) l hl]
      exact h.solved a ha i hi
    · rw [partialRow_succ, hpartial, hrow, hsolve.block i hi, h.remaining a hk le_rfl i hi]
      ring
  case remaining =>
    intro a ha hka i hi
    have hik : i ∉ S k := fun hik => absurd (hS a ha k hk i hi hik) (by omega)
    have hstart := h.remaining a ha (by omega) i hi
    rw [partialRow_succ, hpartial, hrow, hblock a ((hmem a).mpr ⟨hka, ha⟩) i hi,
      hsolve.frame i hik]
    linear_combination blockRow T (S k) solve i * hmu + v i * hlam + hstart
  case frame =>
    intro i hi
    rw [hframe i fun m hm => hi m (hlt m hm), hsolve.frame i (hi k hk)]
    exact h.frame i hi

/-- The stages of a substitution solve the system. The scale `c k` of the stage `k` starts as
`alpha`; the updates keep the blocks that remain at the scale of the next stage. -/
theorem block_substitution {c mu lam : ℕ → R} {solve : (ℕ → R) → ℕ → ℕ → R}
    {upd : ℕ → (ℕ → R) → ℕ → ℕ → R} {rest : ℕ → List ℕ} (hS : DisjointBlocks S K)
    (hrest : ∀ k < K, (rest k).Nodup) (hmem : ∀ k < K, ∀ m, m ∈ rest k ↔ k < m ∧ m < K)
    (hsolve : ∀ k < K, ∀ v, Solved T (S k) (c k) v (solve v k))
    (hupd : ∀ k < K, ∀ m ∈ rest k, ∀ v, Updated T (S k) (S m) (mu k) (lam k) v (upd k v m))
    (hc : c 0 = alpha) (hmu : ∀ k, c (k + 1) * mu k = -1) (hlam : ∀ k, c (k + 1) * lam k = c k)
    (w : ℕ → R) :
    SubstInv T S K alpha (c K) w K
      ((List.range K).foldl (fun v k => (rest k).foldl (upd k) (solve v k)) w) := by
  have hrun : ∀ k ≤ K, SubstInv T S K alpha (c k) w k
      ((List.range k).foldl (fun v k => (rest k).foldl (upd k) (solve v k)) w) := by
    intro k hk
    induction k with
    | zero =>
        refine ⟨fun a ha => absurd ha (Nat.not_lt_zero a), fun a _ _ i _ => ?_, fun i _ => rfl⟩
        simp [partialRow, hc]
    | succ k ih =>
        rw [List.range_succ, List.foldl_append, List.foldl_cons, List.foldl_nil]
        exact (ih (by omega)).stage hS hk (hrest k hk) (hmem k hk) (hsolve k hk _) (hupd k hk)
          (hmu k) (hlam k)
  exact hrun K le_rfl

/-- A triangular system with an invertible diagonal has one solution. An unknown depends on those
of a smaller rank. -/
theorem triangular_unique [IsDomain R] {n : ℕ} {rank : ℕ → ℕ} {x y : ℕ → R}
    (hT : ∀ i < n, ∀ l < n, l ≠ i → rank i ≤ rank l → T i l = 0) (hdiag : ∀ i < n, T i i ≠ 0)
    (h : ∀ i < n, ∑ l ∈ range n, T i l * x l = ∑ l ∈ range n, T i l * y l) :
    ∀ i < n, x i = y i := by
  intro i hi
  induction hrank : rank i using Nat.strong_induction_on generalizing i with
  | _ r ih =>
      have hother : ∀ l ∈ (range n).erase i, T i l * x l = T i l * y l := by
        intro l hl
        obtain ⟨hne, hl⟩ := mem_erase.mp hl
        rcases Nat.lt_or_ge (rank l) (rank i) with hlt | hge
        · rw [ih (rank l) (hrank ▸ hlt) l (mem_range.mp hl) rfl]
        · rw [hT i hi l (mem_range.mp hl) hne hge, zero_mul, zero_mul]
      have hrow := h i hi
      rw [← add_sum_erase _ _ (mem_range.mpr hi), ← add_sum_erase _ _ (mem_range.mpr hi),
        sum_congr rfl hother] at hrow
      exact mul_left_cancel₀ (hdiag i hi) (add_right_cancel hrow)

/-! ## Product -/

/-- The rows of `T` applied to the blocks of `bs` are added to the block `s`, which is none of
them. -/
theorem foldl_added {s : Finset ℕ} {add : (ℕ → R) → ℕ → ℕ → R} {bs : List ℕ}
    (hs : ∀ b ∈ bs, ∀ i ∈ S b, i ∉ s)
    (hadd : ∀ b ∈ bs, ∀ v, Updated T (S b) s alpha 1 v (add v b)) (v : ℕ → R) :
    (∀ i ∈ s, bs.foldl add v i = alpha * (bs.map fun b => blockRow T (S b) v i).sum + v i) ∧
      ∀ i ∉ s, bs.foldl add v i = v i := by
  induction bs generalizing v with
  | nil => simp
  | cons b bs ih =>
      have hstep := hadd b List.mem_cons_self v
      obtain ⟨hblock, hframe⟩ := ih (fun a ha => hs a (List.mem_cons_of_mem b ha))
        (fun a ha => hadd a (List.mem_cons_of_mem b ha)) (add v b)
      have hrow : ∀ a ∈ bs, ∀ i, blockRow T (S a) (add v b) i = blockRow T (S a) v i :=
        fun a ha => blockRow_congr fun l hl =>
          hstep.frame l (hs a (List.mem_cons_of_mem b ha) l hl)
      constructor
      · intro i hi
        have hmap : (bs.map fun a => blockRow T (S a) (add v b) i) =
            bs.map fun a => blockRow T (S a) v i :=
          List.map_congr_left fun a ha => hrow a ha i
        rw [List.foldl_cons, hblock i hi, hmap, hstep.block i hi, List.map_cons, List.sum_cons]
        ring
      · intro i hi
        rw [List.foldl_cons, hframe i hi, hstep.frame i hi]

/-- After `k` stages the first `k` blocks are those of the product, the others as at the
start. -/
structure ProductInv (T : ℕ → ℕ → R) (S : ℕ → Finset ℕ) (K : ℕ) (alpha : R) (w : ℕ → R) (k : ℕ)
    (v : ℕ → R) : Prop where
  done : ∀ a < k, ∀ i ∈ S a, v i = alpha * ∑ b ∈ Ico a K, blockRow T (S b) w i
  remaining : ∀ a < K, k ≤ a → ∀ i ∈ S a, v i = w i
  frame : ∀ i, (∀ a < K, i ∉ S a) → v i = w i

/-- A stage multiplies the block `k` by its diagonal block, and adds the products with the
blocks of `rest`, which are those after it. -/
theorem ProductInv.stage {k : ℕ} {mul : ℕ → R} {add : (ℕ → R) → ℕ → ℕ → R} {rest : List ℕ}
    (h : ProductInv T S K alpha w k v) (hS : DisjointBlocks S K) (hk : k < K)
    (hrest : rest.Nodup) (hmem : ∀ m, m ∈ rest ↔ k < m ∧ m < K)
    (hmul : Updated T (S k) (S k) alpha 0 v mul)
    (hadd : ∀ b ∈ rest, ∀ v, Updated T (S b) (S k) alpha 1 v (add v b)) :
    ProductInv T S K alpha w (k + 1) (rest.foldl add mul) := by
  have hlt : ∀ m ∈ rest, m < K := fun m hm => ((hmem m).mp hm).2
  have hother : ∀ a < K, a ≠ k → ∀ i ∈ S a, i ∉ S k :=
    fun a ha hak i hi hik => hak (hS a ha k hk i hi hik)
  obtain ⟨hblock, hframe⟩ := foldl_added
    (fun b hb => hother b (hlt b hb) ((hmem b).mp hb).1.ne') hadd mul
  have hkeep : ∀ a < K, a ≠ k → ∀ i ∈ S a, rest.foldl add mul i = v i := by
    intro a ha hak i hi
    rw [hframe i (hother a ha hak i hi), hmul.frame i (hother a ha hak i hi)]
  constructor
  case done =>
    intro a ha i hi
    rcases Nat.lt_succ_iff_lt_or_eq.mp ha with ha | rfl
    · rw [hkeep a (ha.trans hk) ha.ne i hi]
      exact h.done a ha i hi
    · -- the blocks read by the stage are those of the start
      have hrow : ∀ b < K, a ≤ b → blockRow T (S b) v i = blockRow T (S b) w i :=
        fun b hb hab => blockRow_congr (h.remaining b hb hab) i
      have hmulrow : ∀ b ∈ rest, blockRow T (S b) mul i = blockRow T (S b) w i := by
        intro b hb
        obtain ⟨hab, hbK⟩ := (hmem b).mp hb
        rw [← hrow b hbK hab.le]
        exact blockRow_congr (fun l hl => hmul.frame l (hother b hbK hab.ne' l hl)) i
      have hsum : (rest.map fun b => blockRow T (S b) mul i).sum =
          ∑ b ∈ Ico (a + 1) K, blockRow T (S b) w i := by
        have hset : rest.toFinset = Ico (a + 1) K := by
          ext b
          rw [List.mem_toFinset, hmem b, mem_Ico, Nat.succ_le_iff]
        rw [← hset, List.sum_toFinset _ hrest, List.map_congr_left hmulrow]
      rw [hblock i hi, hsum, hmul.block i hi, hrow a hk le_rfl, sum_eq_sum_Ico_succ_bot hk]
      ring
  case remaining =>
    intro a ha hka i hi
    rw [hkeep a ha (by omega) i hi]
    exact h.remaining a ha (by omega) i hi
  case frame =>
    intro i hi
    rw [hframe i (hi k hk), hmul.frame i (hi k hk)]
    exact h.frame i hi

/-- The stages of a product in place. -/
theorem block_product {mul : (ℕ → R) → ℕ → ℕ → R} {add : ℕ → (ℕ → R) → ℕ → ℕ → R}
    {rest : ℕ → List ℕ} (hS : DisjointBlocks S K) (hrest : ∀ k < K, (rest k).Nodup)
    (hmem : ∀ k < K, ∀ m, m ∈ rest k ↔ k < m ∧ m < K)
    (hmul : ∀ k < K, ∀ v, Updated T (S k) (S k) alpha 0 v (mul v k))
    (hadd : ∀ k < K, ∀ b ∈ rest k, ∀ v, Updated T (S b) (S k) alpha 1 v (add k v b))
    (w : ℕ → R) :
    ProductInv T S K alpha w K
      ((List.range K).foldl (fun v k => (rest k).foldl (add k) (mul v k)) w) := by
  have hrun : ∀ k ≤ K, ProductInv T S K alpha w k
      ((List.range k).foldl (fun v k => (rest k).foldl (add k) (mul v k)) w) := by
    intro k hk
    induction k with
    | zero =>
        exact ⟨fun a ha => absurd ha (Nat.not_lt_zero a), fun _ _ _ _ _ => rfl, fun _ _ => rfl⟩
    | succ k ih =>
        rw [List.range_succ, List.foldl_append, List.foldl_cons, List.foldl_nil]
        exact (ih (by omega)).stage hS hk (hrest k hk) (hmem k hk) (hmul k hk _) (hadd k hk)
  exact hrun K le_rfl

end Xkblas.Library
