import Mathlib.Data.List.Nodup
import Mathlib.Data.Set.BooleanAlgebra
import Mathlib.Data.Set.Insert
import Mathlib.Logic.Function.Basic
import Mathlib.Order.CompletePartialOrder
import Mathlib.Order.Disjoint

/-!
# Tasks that write disjoint regions

Each task of a list has a region that it writes. It changes nothing else, and what it writes
depends only on the elements that it reads. When no task writes what another one reads or writes, a
run of the tasks does in each region what its task alone does, whatever the order of the tasks.

`scatter` is the task that changes one element. Tasks with distinct addresses are the case of
regions of one element.
-/

namespace Xkblas.Library

variable {σ ι α τ : Type*} (read : σ → ι → α) {exec : σ → τ → σ} {writes reads : τ → Set ι}
  {tasks : List τ} {t : τ} {p : ι}

/-- The task works in its regions. -/
structure WorksIn (exec : σ → τ → σ) (writes reads : τ → Set ι) (t : τ) :
    Prop where
  frame : ∀ s p, p ∉ writes t → read (exec s t) p = read s p
  congr : ∀ s s', (∀ q ∈ reads t, read s q = read s' q) →
    ∀ p ∈ writes t, read (exec s t) p = read (exec s' t) p

/-- Neither task writes what the other one reads or writes. -/
structure Apart (writes reads : τ → Set ι) (t u : τ) : Prop where
  both : Disjoint (writes t) (writes u)
  left : Disjoint (writes t) (reads u)
  right : Disjoint (writes u) (reads t)

/-- An element of no region keeps its value. -/
theorem foldl_of_notMem (hworks : ∀ t ∈ tasks, WorksIn read exec writes reads t)
    (hp : ∀ t ∈ tasks, p ∉ writes t) (s : σ) : read (tasks.foldl exec s) p = read s p := by
  induction tasks generalizing s with
  | nil => rfl
  | cons t tasks ih =>
      rw [List.foldl_cons, ih (fun u hu => hworks u (List.mem_cons_of_mem t hu))
        (fun u hu => hp u (List.mem_cons_of_mem t hu))]
      exact (hworks t List.mem_cons_self).frame s p (hp t List.mem_cons_self)

/-- An element of a region has the value that the task of the region alone gives to it. -/
theorem foldl_of_mem (hworks : ∀ t ∈ tasks, WorksIn read exec writes reads t)
    (hapart : tasks.Pairwise (Apart writes reads)) (ht : t ∈ tasks) (hp : p ∈ writes t) (s : σ) :
    read (tasks.foldl exec s) p = read (exec s t) p := by
  induction tasks generalizing s with
  | nil => cases ht
  | cons u tasks ih =>
      have hrest : ∀ v ∈ tasks, WorksIn read exec writes reads v := fun v hv =>
        hworks v (List.mem_cons_of_mem u hv)
      obtain ⟨hu, hpairs⟩ := List.pairwise_cons.mp hapart
      rw [List.foldl_cons]
      rcases List.mem_cons.mp ht with rfl | ht
      · exact foldl_of_notMem read hrest
          (fun v hv hmem => Set.disjoint_left.mp (hu v hv).both hp hmem) _
      · rw [ih hrest hpairs ht]
        -- The task `u` has left alone what `t` reads.
        refine (hworks t (List.mem_cons_of_mem u ht)).congr _ _ (fun q hq => ?_) p hp
        exact (hworks u List.mem_cons_self).frame s q
          fun hmem => Set.disjoint_left.mp (hu t ht).left hmem hq

/-! ## Tasks that change one element -/

variable [DecidableEq ι] {cond : τ → Prop} [DecidablePred cond] {addr : τ → ι}
  {val : τ → α → α}

/-- `if (cond) s[addr] = val(s[addr])`. -/
def scatter (cond : τ → Prop) [DecidablePred cond] (addr : τ → ι) (val : τ → α → α) (s : ι → α)
    (t : τ) : ι → α :=
  if cond t then Function.update s (addr t) (val t (s (addr t))) else s

theorem scatter_worksIn (t : τ) :
    WorksIn (fun s => s) (scatter cond addr val) (fun t => {p | cond t ∧ p = addr t})
      (fun t => {p | cond t ∧ p = addr t}) t := by
  constructor
  · intro s p hp
    unfold scatter
    split
    case isTrue hcond => exact Function.update_of_ne (fun heq => hp ⟨hcond, heq⟩) _ _
    case isFalse => rfl
  · intro s s' heq p hp
    obtain ⟨hcond, rfl⟩ := hp
    simp only [scatter, if_pos hcond, Function.update_self, heq (addr t) ⟨hcond, rfl⟩]

/-- An element whose address no task has. -/
theorem foldl_scatter_of_ne (hp : ∀ t ∈ tasks, cond t → p ≠ addr t) (s : ι → α) :
    tasks.foldl (scatter cond addr val) s p = s p :=
  foldl_of_notMem (fun s : ι → α => s) (fun t _ => scatter_worksIn t)
    (fun t ht hmem => hp t ht hmem.1 hmem.2) s

/-- The element of a task. -/
theorem foldl_scatter (cond : τ → Prop) [DecidablePred cond] (addr : τ → ι) (val : τ → α → α)
    (hnodup : tasks.Nodup)
    (hinj : ∀ t ∈ tasks, ∀ u ∈ tasks, cond t → cond u → addr t = addr u → t = u)
    (ht : t ∈ tasks) (hcond : cond t) (s : ι → α) :
    tasks.foldl (scatter cond addr val) s (addr t) = val t (s (addr t)) := by
  have hapart : tasks.Pairwise
      (Apart (fun t => {p | cond t ∧ p = addr t}) fun t => {p | cond t ∧ p = addr t}) := by
    refine hnodup.imp_of_mem fun {t u} ht hu hne => ?_
    have hdisjoint : ∀ p, cond t ∧ p = addr t → ¬ (cond u ∧ p = addr u) := fun p hpt hpu =>
      hne (hinj t ht u hu hpt.1 hpu.1 (hpt.2.symm.trans hpu.2))
    have hleft := Set.disjoint_left.mpr hdisjoint
    exact ⟨hleft, hleft, hleft.symm⟩
  rw [foldl_of_mem (fun s : ι → α => s) (fun t _ => scatter_worksIn t) hapart ht
    ⟨hcond, rfl⟩]
  simp only [scatter, if_pos hcond, Function.update_self]

end Xkblas.Library
