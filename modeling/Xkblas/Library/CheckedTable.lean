import Mathlib.Data.Int.Basic
import Mathlib.Data.List.Basic
import Mathlib.Data.Nat.Bitwise
import Mathlib.Logic.Function.Basic

/-!
# Checked tables

A table is an array from `malloc`. A cell has no value before it is written, and to read it then is
undefined, as it is to read or write beside the table. A program with such steps is run by
`List.foldlM`: `foldlM_invariant` says what holds after a run that is defined, and `foldlM_isSome`
that a run is defined when every step is. `foldlM_spec` says both. `Masks t n P` says that a table
has `n` bit masks, and that the bit `b` of the mask `i` is set exactly when `P i b`.
-/

namespace Xkblas.Library

/-- The cells of a table and their number. -/
structure Table (α : Type*) where
  size : ℕ
  cell : ℕ → Option α

namespace Table

variable {α : Type*} {t t' : Table α} {i j : ℤ} {x y : α}

/-- A table of uninitialized cells. -/
def malloc (size : ℕ) : Table α :=
  ⟨size, fun _ => none⟩

/-- The value of the cell `i`, where it is defined. -/
def read (t : Table α) (i : ℤ) : Option α :=
  if 0 ≤ i ∧ i < t.size then t.cell i.toNat else none

/-- The cell `i` is written, where it is defined. -/
def write (t : Table α) (i : ℤ) (x : α) : Option (Table α) :=
  if 0 ≤ i ∧ i < t.size then some ⟨t.size, Function.update t.cell i.toNat (some x)⟩ else none

/-- A cell that has a value is in the table. -/
theorem lt_of_read (h : t.read i = some x) : 0 ≤ i ∧ i < t.size := by
  unfold read at h
  split at h
  case isTrue hin => exact hin
  case isFalse => cases h

/-- A write in the table is defined. -/
theorem exists_write (h : 0 ≤ i ∧ i < t.size) (x : α) : ∃ t', t.write i x = some t' :=
  ⟨_, if_pos h⟩

theorem of_write (h : t.write i x = some t') :
    (0 ≤ i ∧ i < t.size) ∧ t' = ⟨t.size, Function.update t.cell i.toNat (some x)⟩ := by
  unfold write at h
  split at h
  case isTrue hin => exact ⟨hin, (Option.some.inj h).symm⟩
  case isFalse => cases h

theorem size_write (h : t.write i x = some t') : t'.size = t.size := by
  obtain ⟨_, rfl⟩ := of_write h
  rfl

/-- The cell that was written. -/
theorem read_write (h : t.write i x = some t') : t'.read i = some x := by
  obtain ⟨hin, rfl⟩ := of_write h
  exact (if_pos hin).trans (Function.update_self _ _ _)

/-- The other cells are unchanged. -/
theorem read_write_ne (h : t.write i x = some t') (hne : j ≠ i) : t'.read j = t.read j := by
  obtain ⟨hin, rfl⟩ := of_write h
  unfold read
  dsimp only
  split
  case isTrue hj => exact Function.update_of_ne (by omega) _ _
  case isFalse => rfl

/-- One more of the cells that a loop writes. -/
theorem read_append_write {τ : Type*} {run : List τ} {p : τ} {f : τ → ℤ} {g : τ → α}
    (h : t.write (f p) (g p) = some t') (hinj : ∀ q ∈ run, f q = f p → q = p)
    (hrun : ∀ q ∈ run, t.read (f q) = some (g q)) :
    ∀ q ∈ run ++ [p], t'.read (f q) = some (g q) := by
  intro q hq
  rcases List.mem_append.mp hq with hold | hnew
  · by_cases hcell : f q = f p
    · obtain rfl := hinj q hold hcell
      exact read_write h
    · rw [read_write_ne h hcell]
      exact hrun q hold
  · obtain rfl := List.mem_singleton.mp hnew
    exact read_write h

end Table

variable {σ τ : Type*} {step : σ → τ → Option σ} {l : List τ} {s s' : σ}

/-- What holds of the entries that were run, after a run that is defined. -/
theorem foldlM_invariant (motive : List τ → σ → Prop) (hstart : motive [] s)
    (hstep : ∀ run t s s', t ∈ l → motive run s → step s t = some s' → motive (run ++ [t]) s')
    (h : l.foldlM step s = some s') : motive l s' := by
  suffices hrun : ∀ rest run s, (∀ t ∈ rest, t ∈ l) → motive run s →
      rest.foldlM step s = some s' → motive (run ++ rest) s' by
    exact hrun l [] s (fun _ ht => ht) hstart h
  intro rest
  induction rest with
  | nil =>
      intro run s _ hs hrest
      obtain rfl := Option.some.inj hrest
      rwa [List.append_nil]
  | cons t rest ih =>
      intro run s hsub hs hrest
      rw [List.foldlM_cons] at hrest
      obtain ⟨s₁, hstep₁, hrest⟩ := Option.bind_eq_some_iff.mp hrest
      have hs₁ := hstep run t s s₁ (hsub t List.mem_cons_self) hs hstep₁
      have hall := ih (run ++ [t]) s₁ (fun u hu => hsub u (List.mem_cons_of_mem t hu)) hs₁ hrest
      rwa [List.append_assoc] at hall

/-- A run is defined when every step is, as long as `inv` holds. -/
theorem foldlM_isSome (inv : σ → Prop) (hstart : inv s)
    (hstep : ∀ t ∈ l, ∀ s, inv s → ∃ s', step s t = some s' ∧ inv s') :
    ∃ s', l.foldlM step s = some s' := by
  induction l generalizing s with
  | nil => exact ⟨s, rfl⟩
  | cons t l ih =>
      obtain ⟨s₁, hs₁, hinv₁⟩ := hstep t List.mem_cons_self s hstart
      obtain ⟨s', hs'⟩ := ih hinv₁ fun u hu => hstep u (List.mem_cons_of_mem t hu)
      refine ⟨s', ?_⟩
      rw [List.foldlM_cons, hs₁]
      exact hs'

/-- The two rules together. -/
theorem foldlM_spec (motive : List τ → σ → Prop) (hstart : motive [] s)
    (hstep : ∀ run t s, t ∈ l → motive run s →
      ∃ s', step s t = some s' ∧ motive (run ++ [t]) s') :
    ∃ s', l.foldlM step s = some s' ∧ motive l s' := by
  have hsome : ∃ s', l.foldlM step s = some s' := by
    refine foldlM_isSome (fun s => ∃ run, motive run s) ⟨[], hstart⟩ fun t ht s ⟨run, hs⟩ => ?_
    obtain ⟨s', hs', hmotive⟩ := hstep run t s ht hs
    exact ⟨s', hs', _, hmotive⟩
  obtain ⟨s', hs'⟩ := hsome
  refine ⟨s', hs', foldlM_invariant motive hstart (fun run t s s₁ ht hs hs₁ => ?_) hs'⟩
  obtain ⟨s₂, hs₂, hmotive⟩ := hstep run t s ht hs
  obtain rfl := Option.some.inj (hs₁.symm.trans hs₂)
  exact hmotive

/-! ## Tables of bit masks -/

namespace Table

variable {t : Table ℕ} {n i b : ℕ} {P Q : ℕ → ℕ → Prop}

/-- `t[i] = 0` -/
def zeroCell (t : Table ℕ) (i : ℕ) : Option (Table ℕ) :=
  t.write i 0

/-- `t[i] |= bits` -/
def orCell (t : Table ℕ) (i : ℤ) (bits : ℕ) : Option (Table ℕ) :=
  (t.read i).bind fun mask => t.write i (mask ||| bits)

/-- The bits of the masks. -/
structure Masks (t : Table ℕ) (n : ℕ) (P : ℕ → ℕ → Prop) : Prop where
  size : t.size = n
  read : ∀ i < n, ∃ mask, t.read i = some mask ∧ ∀ b, mask.testBit b = true ↔ P i b

theorem Masks.congr (h : Masks t n P) (hiff : ∀ i < n, ∀ b, P i b ↔ Q i b) : Masks t n Q := by
  refine ⟨h.size, fun i hi => ?_⟩
  obtain ⟨mask, hmask, hbits⟩ := h.read i hi
  exact ⟨mask, hmask, fun b => (hbits b).trans (hiff i hi b)⟩

/-- One more bit. -/
theorem Masks.orCell (h : Masks t n P) (hi : i < n) (b : ℕ) :
    ∃ t', t.orCell i (2 ^ b) = some t' ∧ Masks t' n fun j c => P j c ∨ j = i ∧ c = b := by
  obtain ⟨mask, hmask, hbits⟩ := h.read i hi
  have hin : 0 ≤ (i : ℤ) ∧ (i : ℤ) < t.size := Table.lt_of_read hmask
  obtain ⟨t', ht'⟩ := Table.exists_write hin (mask ||| 2 ^ b)
  refine ⟨t', ?_, (size_write ht').trans h.size, fun j hj => ?_⟩
  · unfold Table.orCell
    rw [hmask, Option.bind_some]
    exact ht'
  · by_cases hcell : j = i
    · subst hcell
      refine ⟨_, read_write ht', fun c => ?_⟩
      rw [Nat.testBit_or, Bool.or_eq_true, hbits, Nat.testBit_two_pow, decide_eq_true_iff]
      exact or_congr_right ⟨fun heq => ⟨rfl, heq.symm⟩, fun heq => heq.2.symm⟩
    · rw [read_write_ne ht' (by omega)]
      obtain ⟨mask', hmask', hbits'⟩ := h.read j hj
      exact ⟨mask', hmask', fun c =>
        (hbits' c).trans (or_iff_left fun heq => hcell heq.1).symm⟩

/-- A new table after the loop that sets the masks to zero. -/
theorem exists_zeros (n : ℕ) :
    ∃ t, (List.range n).foldlM zeroCell (malloc n) = some t ∧ Masks t n fun _ _ => False := by
  have hloop : ∃ t, (List.range n).foldlM zeroCell (malloc n) = some t ∧
      t.size = n ∧ ∀ i ∈ List.range n, t.read (i : ℕ) = some 0 := by
    refine foldlM_spec (fun run (t : Table ℕ) => t.size = n ∧ ∀ i ∈ run, t.read (i : ℕ) = some 0)
      ⟨rfl, nofun⟩ fun run i t hi ⟨hsize, hrun⟩ => ?_
    have hin : 0 ≤ (i : ℤ) ∧ (i : ℤ) < t.size := by
      have hlt := List.mem_range.mp hi
      omega
    obtain ⟨t', ht'⟩ := Table.exists_write hin 0
    refine ⟨t', ht', (size_write ht').trans hsize, ?_⟩
    exact read_append_write (f := fun j : ℕ => (j : ℤ)) (g := fun _ => 0) ht'
      (fun j _ hj => Int.ofNat.inj hj) hrun
  obtain ⟨t, ht, hsize, hzero⟩ := hloop
  refine ⟨t, ht, hsize, fun i hi => ⟨0, hzero i (List.mem_range.mpr hi), fun b => ?_⟩⟩
  rw [Nat.zero_testBit]
  exact iff_of_false Bool.false_ne_true id

end Table

end Xkblas.Library
