import Mathlib.Data.List.Pairwise
import Mathlib.Logic.Function.Basic
import Mathlib.Order.Defs.PartialOrder

/-!
# Merging sources

Several sources, each a list, are merged by a key: the next entry of the result is the first one of
a source, and no source starts with a smaller key. `KWayMerge.source` finds each source in the
result, in its order, and `KWayMerge.sorted` says that the merge of sorted sources is sorted.
-/

namespace Xkblas.Library

variable {ι α κ : Type*} [DecidableEq ι] [Preorder κ]

/-- The entries of `out` are those of the sources, taken from the front of one that starts with a
least key. Each entry has the source that it comes from. -/
inductive KWayMerge (key : α → κ) : (ι → List α) → List (ι × α) → Prop where
  | done {src : ι → List α} (h : ∀ i, src i = []) : KWayMerge key src []
  | take {src : ι → List α} {i : ι} {a : α} {rest : List α} {out : List (ι × α)}
      (hsrc : src i = a :: rest) (hleast : ∀ j b, (src j).head? = some b → key a ≤ key b)
      (h : KWayMerge key (Function.update src i rest) out) : KWayMerge key src ((i, a) :: out)

namespace KWayMerge

variable {key : α → κ} {src : ι → List α} {out : List (ι × α)}

/-- What comes from a source is this source, in its order. -/
theorem source (h : KWayMerge key src out) (i : ι) :
    (out.filter fun p => p.1 = i).map Prod.snd = src i := by
  induction h with
  | done h => exact (h i).symm
  | @take src j a rest out hsrc hleast h ih =>
      by_cases hij : i = j
      · subst hij
        rw [Function.update_self] at ih
        rw [List.filter_cons_of_pos (by simp), List.map_cons, ih, hsrc]
      · rw [Function.update_of_ne hij] at ih
        rw [List.filter_cons_of_neg (by simpa using Ne.symm hij), ih]

/-- An entry of the result is one of its source. -/
theorem mem (h : KWayMerge key src out) {p : ι × α} (hp : p ∈ out) : p.2 ∈ src p.1 := by
  rw [← h.source p.1]
  exact List.mem_map_of_mem (List.mem_filter.mpr ⟨hp, by simp⟩)

/-- The merge of sorted sources is sorted. -/
theorem sorted (h : KWayMerge key src out)
    (hsorted : ∀ i, (src i).Pairwise fun a b => key a ≤ key b) :
    out.Pairwise fun p r => key p.2 ≤ key r.2 := by
  induction h with
  | done => exact List.Pairwise.nil
  | @take src i a rest out hsrc hleast h ih =>
      have hi := hsorted i
      rw [hsrc, List.pairwise_cons] at hi
      refine List.pairwise_cons.mpr ⟨fun p hp => ?_, ih fun j => ?_⟩
      · have hmem := h.mem hp
        by_cases hpi : p.1 = i
        · rw [hpi, Function.update_self] at hmem
          exact hi.1 p.2 hmem
        · -- the entry is not before the first one of its source
          rw [Function.update_of_ne hpi] at hmem
          have hp := hsorted p.1
          cases hhead : src p.1 with
          | nil =>
              rw [hhead] at hmem
              cases hmem
          | cons b l =>
              have hab := hleast p.1 b (by rw [hhead]; rfl)
              rw [hhead] at hmem hp
              rcases List.mem_cons.mp hmem with heq | hl
              · exact heq ▸ hab
              · exact le_trans hab ((List.pairwise_cons.mp hp).1 p.2 hl)
      · by_cases hji : j = i
        · rw [hji, Function.update_self]
          exact hi.2
        · rw [Function.update_of_ne hji]
          exact hsorted j

end KWayMerge

end Xkblas.Library
