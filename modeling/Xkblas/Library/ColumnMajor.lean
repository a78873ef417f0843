import Mathlib.Data.Nat.ModEq

/-!
# Column-major blocks

An array of elements holds a matrix with the leading dimension `ld`: its entry `(i, j)` is at
`i + j * ld`. A block of the matrix is given by its offset, and `store` writes the entries of a
block that satisfy `p`. `store_entry` reads the array of a store back, in the coordinates of the
whole matrix, and `ext_entries` says that the entries determine the array.
-/

namespace Xkblas.Library

variable {α : Type*} {ld rows cols i j : ℕ}

/-- Two entries of one address are the same entry. -/
theorem mul_add_inj {ld r r' c c' : ℕ} (hc : c < ld) (hc' : c' < ld)
    (h : r * ld + c = r' * ld + c') : r = r' ∧ c = c' := by
  have hr : r = r' := by
    have hdiv := congrArg (· / ld) h
    simpa [Nat.mul_add_div (by omega : ld > 0), Nat.mul_comm _ ld, Nat.div_eq_of_lt hc,
      Nat.div_eq_of_lt hc'] using hdiv
  subst hr
  exact ⟨rfl, by omega⟩

/-- The entry `(i, j)` of a block at offset `off`. -/
def entry (mem : ℕ → α) (off ld i j : ℕ) : α :=
  mem (off + i + j * ld)

/-- The array with the entries of a block of `rows` rows and `cols` columns that satisfy `p`
replaced by the values of `f`. -/
def store (mem : ℕ → α) (off ld rows cols : ℕ) (p : ℕ → ℕ → Bool) (f : ℕ → ℕ → α) : ℕ → α :=
  fun a =>
    let i := (a - off) % ld
    let j := (a - off) / ld
    if off ≤ a ∧ i < rows ∧ j < cols ∧ p i j = true then f i j else mem a

/-- A store depends on the values of the entries of its block. -/
theorem store_congr (mem : ℕ → α) (off ld : ℕ) (p : ℕ → ℕ → Bool) {f f' : ℕ → ℕ → α}
    (h : ∀ i < rows, ∀ j < cols, f i j = f' i j) :
    store mem off ld rows cols p f = store mem off ld rows cols p f' := by
  funext a
  exact ite_congr rfl (fun hin => h _ hin.2.1 _ hin.2.2.1) fun _ => rfl

/-- The entry of a block, in the coordinates of the whole matrix. -/
theorem entry_block (mem : ℕ → α) (i₀ j₀ ld i j : ℕ) :
    entry mem (i₀ + j₀ * ld) ld i j = entry mem 0 ld (i₀ + i) (j₀ + j) := by
  unfold entry
  congr 1
  rw [Nat.add_mul]
  omega

/-- The entry is in the block that starts at `(i₀, j₀)`. -/
def InBlock (i₀ j₀ rows cols i j : ℕ) : Prop :=
  (i₀ ≤ i ∧ i < i₀ + rows) ∧ j₀ ≤ j ∧ j < j₀ + cols

instance (i₀ j₀ rows cols i j : ℕ) : Decidable (InBlock i₀ j₀ rows cols i j) :=
  inferInstanceAs (Decidable ((_ ∧ _) ∧ _ ∧ _))

/-- An address that is not before the offset of the block has a column from `j₀` on. -/
theorem sub_block_address (hi : i < ld) {i₀ j₀ : ℕ} (hi₀ : i₀ ≤ i) (hj₀ : j₀ ≤ j) :
    (i + j * ld - (i₀ + j₀ * ld)) % ld = i - i₀ ∧ (i + j * ld - (i₀ + j₀ * ld)) / ld = j - j₀ := by
  have hsub : i + j * ld - (i₀ + j₀ * ld) = (i - i₀) + (j - j₀) * ld := by
    have hmul : j₀ * ld ≤ j * ld := Nat.mul_le_mul_right _ hj₀
    rw [Nat.sub_mul]
    omega
  have hlt : i - i₀ < ld := by omega
  rw [hsub, Nat.add_mul_mod_self_right, Nat.mod_eq_of_lt hlt,
    Nat.add_mul_div_right _ _ (by omega), Nat.div_eq_of_lt hlt, Nat.zero_add]
  exact ⟨rfl, rfl⟩

/-- An address of a row before the block is read as a row after it. -/
theorem sub_block_address_of_lt {i₀ j₀ : ℕ} (hi₀ : i < i₀) (hle : i₀ ≤ ld)
    (hj₀ : j₀ < j) : (i + j * ld - (i₀ + j₀ * ld)) % ld = ld + i - i₀ := by
  have hsub : i + j * ld - (i₀ + j₀ * ld) = (ld + i - i₀) + (j - j₀ - 1) * ld := by
    obtain ⟨k, rfl⟩ := Nat.exists_eq_add_of_lt hj₀
    rw [show j₀ + k + 1 - j₀ - 1 = k by omega, Nat.add_mul, Nat.add_mul]
    omega
  rw [hsub, Nat.add_mul_mod_self_right, Nat.mod_eq_of_lt (by omega)]

/-- A store changes the entries of its block, and no other entry. -/
theorem store_entry (mem : ℕ → α) (p : ℕ → ℕ → Bool) (f : ℕ → ℕ → α) {i₀ j₀ : ℕ}
    (hrows : i₀ + rows ≤ ld) (hi : i < ld) :
    entry (store mem (i₀ + j₀ * ld) ld rows cols p f) 0 ld i j =
      if InBlock i₀ j₀ rows cols i j ∧ p (i - i₀) (j - j₀) = true then f (i - i₀) (j - j₀)
      else entry mem 0 ld i j := by
  unfold entry store InBlock
  rw [Nat.zero_add]
  by_cases hcol : j₀ ≤ j
  · by_cases hrow : i₀ ≤ i
    · -- the address is decoded to the coordinates in the block
      obtain ⟨hmod, hdiv⟩ := sub_block_address hi hrow hcol
      have hoff : i₀ + j₀ * ld ≤ i + j * ld :=
        Nat.add_le_add hrow (Nat.mul_le_mul_right _ hcol)
      simp only [hmod, hdiv]
      refine if_congr ?_ rfl rfl
      constructor
      · rintro ⟨_, hr, hc, hp⟩
        exact ⟨⟨⟨hrow, by omega⟩, hcol, by omega⟩, hp⟩
      · rintro ⟨⟨⟨_, hr⟩, _, hc⟩, hp⟩
        exact ⟨hoff, by omega, by omega, hp⟩
    · rw [if_neg, if_neg (by omega)]
      rintro ⟨hoff, hmod, _⟩
      rcases Nat.lt_or_ge j₀ j with hlt | hge
      · rw [sub_block_address_of_lt (by omega) (by omega) hlt] at hmod
        omega
      · obtain rfl : j = j₀ := by omega
        omega
  · rw [if_neg, if_neg (by omega)]
    rintro ⟨hoff, _⟩
    have hmul : j * ld + ld ≤ j₀ * ld := by
      rw [← Nat.succ_mul]
      exact Nat.mul_le_mul_right _ (by omega)
    omega

/-- The entries of a matrix determine the array. -/
theorem ext_entries {mem mem' : ℕ → α} (hld : 0 < ld)
    (h : ∀ i < ld, ∀ j, entry mem 0 ld i j = entry mem' 0 ld i j) : mem = mem' := by
  funext a
  have hentry := h (a % ld) (Nat.mod_lt a hld) (a / ld)
  unfold entry at hentry
  rwa [Nat.zero_add, Nat.mod_add_div'] at hentry

end Xkblas.Library
