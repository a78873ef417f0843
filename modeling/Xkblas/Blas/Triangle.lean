import Xkblas.Blas.Accumulate

/-!
# The tiles of a triangle

The triangle `uplo` of a matrix in tiles: the tiles outside of the diagonal are in the triangle or
not, and a tile of the diagonal has its own triangle. `triangleLoops` visits the tiles of a
triangle, and `run_triangleLoops` says what is left in the matrix.
-/

namespace Xkblas.Blas

open Library

/-- A block of the diagonal is stored as the matrix is. -/
theorem Uplo.stores_add (uplo : Uplo) (a i j : ℕ) :
    uplo.stores (a + i) (a + j) = uplo.stores i j := by
  cases uplo <;> simp [Uplo.stores]

/-- Outside of the blocks of the diagonal an element is stored when its block is. -/
theorem Uplo.stores_of_tile_ne (uplo : Uplo) {NB i j m k : ℕ} (hi : i / NB = m) (hj : j / NB = k)
    (hne : m ≠ k) : uplo.stores i j = uplo.stores m k := by
  subst hi hj
  have hle : ∀ a b : ℕ, a / NB ≠ b / NB → (a ≤ b ↔ a / NB ≤ b / NB) := by
    intro a b hab
    refine ⟨Nat.div_le_div_right, fun h => ?_⟩
    by_contra hlt
    exact hab (Nat.le_antisymm h (Nat.div_le_div_right (Nat.le_of_not_le hlt)))
  cases uplo with
  | upper => simpa [Uplo.stores] using hle i j hne
  | lower => simpa [Uplo.stores] using hle j i hne.symm

/-- The tile of an element of the triangle. -/
theorem Uplo.stores_tile (uplo : Uplo) {i j : ℕ} (NB : ℕ) (h : uplo.stores i j = true) :
    uplo.stores (i / NB) (j / NB) = true := by
  cases uplo with
  | upper =>
      simp only [Uplo.stores, decide_eq_true_eq] at h ⊢
      exact Nat.div_le_div_right h
  | lower =>
      simp only [Uplo.stores, decide_eq_true_eq] at h ⊢
      exact Nat.div_le_div_right h

/-- Where the loops go after the tile `(n, n)`. -/
inductive Visit where
  | below
  | right
  | above
  deriving DecidableEq, Repr

/-- The triangle that is visited. -/
def Visit.uplo : Visit → Uplo
  | .below => .lower
  | .right => .upper
  | .above => .upper

/-- The order of the loops that go below or to the right. -/
def Uplo.belowOrRight : Uplo → Visit
  | .lower => .below
  | .upper => .right

/-- The order of the loops that go below or above. -/
def Uplo.belowOrAbove : Uplo → Visit
  | .lower => .below
  | .upper => .above

@[simp] theorem Uplo.belowOrRight_uplo (uplo : Uplo) : uplo.belowOrRight.uplo = uplo := by
  cases uplo <;> rfl

@[simp] theorem Uplo.belowOrAbove_uplo (uplo : Uplo) : uplo.belowOrAbove.uplo = uplo := by
  cases uplo <;> rfl

/-- The tile of the iterations `n` and `m`. -/
def Visit.tile : Visit → ℕ → ℕ → ℕ × ℕ
  | .right, n, m => (n, m)
  | _, n, m => (m, n)

/-- The first iteration of the inner loop. -/
def Visit.lo : Visit → ℕ → ℕ
  | .above, _ => 0
  | _, n => n + 1

/-- The bound of the inner loop. -/
def Visit.hi : Visit → ℕ → ℕ → ℕ
  | .above, _, n => n
  | _, nt, _ => nt

/-- The loops over the tiles of a triangle. -/
def triangleLoops {τ : Type*} (v : Visit) (nt : ℕ) (body : ℕ → ℕ → List τ) : List τ :=
  forLoop 0 nt fun n =>
    body n n ++ forLoop (v.lo n) (v.hi nt n) fun m => body (v.tile n m).1 (v.tile n m).2

/-- The inner loop visits tiles of the triangle outside of the diagonal. -/
theorem Visit.mem_triangle (v : Visit) {nt n m : ℕ} (hn : n < nt)
    (hm : v.lo n ≤ m ∧ m < v.hi nt n) :
    ((v.tile n m).1 < nt ∧ (v.tile n m).2 < nt ∧
      v.uplo.stores (v.tile n m).1 (v.tile n m).2 = true) ∧ (v.tile n m).1 ≠ (v.tile n m).2 := by
  cases v <;> simp [Visit.uplo, Visit.tile, Visit.lo, Visit.hi, Uplo.stores] at hm ⊢ <;> omega

theorem Uplo.stores_self (uplo : Uplo) (n : ℕ) : uplo.stores n n = true := by
  cases uplo <;> simp [Uplo.stores]

/-- Only tiles of the triangle are visited. -/
theorem mem_triangleLoops {τ : Type*} {v : Visit} {nt : ℕ} {body : ℕ → ℕ → List τ} {t : τ}
    (h : t ∈ triangleLoops v nt body) :
    ∃ m n, (m < nt ∧ n < nt ∧ v.uplo.stores m n = true) ∧ t ∈ body m n := by
  obtain ⟨n, ⟨_, hn⟩, ht⟩ := mem_forLoop.mp h
  rcases List.mem_append.mp ht with ht | ht
  · exact ⟨n, n, ⟨hn, hn, v.uplo.stores_self n⟩, ht⟩
  · obtain ⟨m, hm, ht⟩ := mem_forLoop.mp ht
    exact ⟨_, _, (v.mem_triangle hn hm).1, ht⟩

/-- The iterations that visit a tile of the triangle. -/
theorem Visit.exists_iteration (v : Visit) {nt a b : ℕ} (ha : a < nt) (hb : b < nt)
    (hab : v.uplo.stores a b = true) (hne : a ≠ b) :
    ∃ n m, n < nt ∧ (v.lo n ≤ m ∧ m < v.hi nt n) ∧ v.tile n m = (a, b) := by
  cases v with
  | below =>
      simp only [Visit.uplo, Uplo.stores, decide_eq_true_eq] at hab
      exact ⟨b, a, hb, ⟨by show b + 1 ≤ a; omega, ha⟩, rfl⟩
  | right =>
      simp only [Visit.uplo, Uplo.stores, decide_eq_true_eq] at hab
      exact ⟨a, b, ha, ⟨by show a + 1 ≤ b; omega, hb⟩, rfl⟩
  | above =>
      simp only [Visit.uplo, Uplo.stores, decide_eq_true_eq] at hab
      exact ⟨b, a, hb, ⟨Nat.zero_le a, by show a < b; omega⟩, rfl⟩

/-- Every tile of the triangle is visited. -/
theorem mem_triangleLoops_of_stores {τ : Type*} {v : Visit} {nt a b : ℕ} {body : ℕ → ℕ → List τ}
    {t : τ} (ha : a < nt) (hb : b < nt) (hab : v.uplo.stores a b = true) (ht : t ∈ body a b) :
    t ∈ triangleLoops v nt body := by
  by_cases hne : a = b
  · subst hne
    exact mem_forLoop.mpr ⟨a, ⟨Nat.zero_le a, ha⟩, List.mem_append_left _ ht⟩
  · obtain ⟨n, m, hn, hm, htile⟩ := v.exists_iteration ha hb hab hne
    refine mem_forLoop.mpr ⟨n, ⟨Nat.zero_le n, hn⟩, List.mem_append_right _ ?_⟩
    refine mem_forLoop.mpr ⟨m, hm, ?_⟩
    rwa [htile]

theorem Visit.tile_inj (v : Visit) {n m n' m' : ℕ} (h : v.tile n m = v.tile n' m') :
    n = n' ∧ m = m' := by
  cases v <;> simp [Visit.tile] at h <;> omega

section Acts

variable {R : Type*} {d : Operand → Descr} {s₀ : State R} {X : Operand} {v : Visit} {NB N : ℕ}
  {ld : ℤ} {body : ℕ → ℕ → List (Task R)} {i j : ℕ} {g : R → R}

/-- A task on a tile of the diagonal whose kernel writes the triangle. -/
theorem acts_diagonalTask (hd : ∀ X, (d X).Valid) {M : ℕ} (hX : (d X).Tiled NB M N ld)
    {uplo : Uplo} {t : Task R} (ht : t.OnTile d X (i / NB) (j / NB)) (hi : i < M) (hj : j < N)
    (htile : i / NB = j / NB) (hwrites : t.writes = uplo.stores)
    (hg : ∀ s, OnlyChanges X s₀ s →
      t.value (s.block d) (i - i / NB * NB) (j - j / NB * NB) = g (s.get d X i j)) :
    ActsOn d s₀ X i j [t] fun x => if uplo.stores i j = true then g x else x := by
  have hlocal : uplo.stores (i - i / NB * NB) (j - j / NB * NB) = uplo.stores i j := by
    rw [← uplo.stores_add (i / NB * NB), tile_add_sub, htile, tile_add_sub]
  by_cases hstores : uplo.stores i j = true
  · refine (acts_onTile hd hX ht hi hj ?_ hg).congr fun x => (if_pos hstores).symm
    rw [hwrites, hlocal, hstores]
  · have hiM : i < (d X).M := hX.M_eq.symm ▸ hi
    refine (acts_of_not_covers hd ht (hiM.trans_le hX.rows_le) ?_).congr
      fun x => (if_neg hstores).symm
    rw [ht.covers_iff hiM (hX.N_eq.symm ▸ hj), hX.mb_eq, hX.nb_eq, hwrites, hlocal]
    exact fun h => hstores h.2

/-- The loops act on an element of a tile of the triangle as the tasks of this tile do. -/
theorem acts_triangleLoops (hd : ∀ X, (d X).Valid) (hX : (d X).Tiled NB N N ld)
    (hbody : ∀ m < numTiles N NB, ∀ n < numTiles N NB, v.uplo.stores m n = true →
      ∀ t ∈ body m n, t.OnTile d X m n)
    (hi : i < N) (hj : j < N) (htile : v.uplo.stores (i / NB) (j / NB) = true)
    (h : ActsOn d s₀ X i j (body (i / NB) (j / NB)) g) :
    ActsOn d s₀ X i j (triangleLoops v (numTiles N NB) body) g := by
  have hNB : 0 < NB := hX.mb_eq ▸ hX.mb_pos
  have hrow := div_lt_numTiles hNB hi
  have hcol := div_lt_numTiles hNB hj
  have hdiag : ∀ n < numTiles N NB, ¬ (i / NB = n ∧ j / NB = n) →
      ActsOn d s₀ X i j (body n n) id := fun n hn hne =>
    acts_other_tiles hd hX hi hj fun t ht =>
      ⟨n, n, hbody n hn n hn (v.uplo.stores_self n) t ht, hne⟩
  have hside : ∀ n < numTiles N NB, ∀ m, v.lo n ≤ m ∧ m < v.hi (numTiles N NB) n →
      v.tile n m ≠ (i / NB, j / NB) →
      ActsOn d s₀ X i j (body (v.tile n m).1 (v.tile n m).2) id := by
    intro n hn m hm hne
    obtain ⟨⟨hrow', hcol', hstores⟩, _⟩ := v.mem_triangle hn hm
    refine acts_other_tiles hd hX hi hj fun t ht =>
      ⟨_, _, hbody _ hrow' _ hcol' hstores t ht, ?_⟩
    rintro ⟨hi', hj'⟩
    exact hne (Prod.ext hi'.symm hj'.symm)
  by_cases hne : i / NB = j / NB
  · -- the tile of the element is the first one of its iteration
    refine .forLoop_unique (Nat.zero_le _) hrow ?_ fun n _ hn hni => ?_
    · refine Acts.append (g := g) ?_ (.forLoop_id fun m hlo hhi => ?_)
      · rwa [← hne] at h
      · refine hside _ hrow m ⟨hlo, hhi⟩ fun heq => (v.mem_triangle hrow ⟨hlo, hhi⟩).2 ?_
        rw [heq]
        exact hne
    · refine Acts.append (g := id) (hdiag n hn fun h => hni h.1.symm)
        (.forLoop_id fun m hlo hhi => hside n hn m ⟨hlo, hhi⟩ fun heq => ?_)
      have hoff := (v.mem_triangle hn ⟨hlo, hhi⟩).2
      rw [heq] at hoff
      exact hoff hne
  · obtain ⟨n, m, hn, hm, htile⟩ := v.exists_iteration hrow hcol htile hne
    refine .forLoop_unique (Nat.zero_le _) hn ?_ fun n' _ hn' hne' => ?_
    · refine Acts.append (g := id) (hdiag n hn fun h => hne (h.1.trans h.2.symm))
        (.forLoop_unique hm.1 hm.2 (by rwa [htile]) fun m' hlo hhi hne' => ?_)
      exact hside n hn m' ⟨hlo, hhi⟩ fun heq => hne' (v.tile_inj (heq.trans htile.symm)).2
    · refine Acts.append (g := id) (hdiag n' hn' fun h => hne (h.1.trans h.2.symm))
        (.forLoop_id fun m' hlo hhi => hside n' hn' m' ⟨hlo, hhi⟩ fun heq => ?_)
      exact hne' (v.tile_inj (heq.trans htile.symm)).1

/-- The matrix after the loops, when the tasks of a tile of the triangle give its elements the
values of `f`, and leave those of the other triangle as they are. -/
theorem run_triangleLoops (hd : ∀ X, (d X).Valid) (hX : (d X).Tiled NB N N ld)
    (hbody : ∀ m < numTiles N NB, ∀ n < numTiles N NB, v.uplo.stores m n = true →
      ∀ t ∈ body m n, t.OnTile d X m n) {f : ℕ → ℕ → R}
    (hacts : ∀ i < N, ∀ j < N, v.uplo.stores (i / NB) (j / NB) = true →
      ∃ g, ActsOn d s₀ X i j (body (i / NB) (j / NB)) g ∧
        g (s₀.get d X i j) = if v.uplo.stores i j = true then f i j else s₀.get d X i j) :
    run d (triangleLoops v (numTiles N NB) body) s₀ = Function.update s₀ X
      (store (s₀ X) 0 (d X).ld N N v.uplo.stores f) := by
  refine run_eq_of_acts hd hX (fun t ht => ?_) fun i hi j hj => ?_
  · obtain ⟨m, n, ⟨hm, hn, hstores⟩, ht⟩ := mem_triangleLoops ht
    have htile := hbody m hm n hn hstores t ht
    exact ⟨htile.stores, htile.mat⟩
  · by_cases htile : v.uplo.stores (i / NB) (j / NB) = true
    · obtain ⟨g, hg, hf⟩ := hacts i hi j hj htile
      exact ⟨g, acts_triangleLoops hd hX hbody hi hj htile hg, hf⟩
    · refine ⟨id, acts_other_tiles hd hX hi hj fun t ht => ?_, ?_⟩
      · obtain ⟨m, n, ⟨hm, hn, hstores⟩, ht⟩ := mem_triangleLoops ht
        refine ⟨m, n, hbody m hm n hn hstores t ht, ?_⟩
        rintro ⟨rfl, rfl⟩
        exact htile hstores
      · exact (if_neg fun h => htile (v.uplo.stores_tile NB h)).symm

end Acts

end Xkblas.Blas
