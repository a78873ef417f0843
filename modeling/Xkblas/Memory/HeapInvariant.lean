import Mathlib.Data.List.Chain
import Xkblas.Library.ListUpdate
import Xkblas.Memory.HeapLayout

/-!
# The invariant of the heap of a device

`HeapInv` says that the chunks of a device are laid out as `Layout` asks, where the free list
holds the free chunks in the order of their addresses, and that no two neighbours are free.
`alloc_spec` and `free_spec` are what an allocation and a free do to such a device.
-/

namespace Xkblas.Memory.Heap

open Library

variable {d : Device} {refs before after front back : List Ref} {base top : Nat} {c n : Ref}
  {isFree isFree' : Ref → Bool}

/-! ## Neighbours -/

/-- No two neighbours are free. -/
def Sparse (isFree : Ref → Bool) (refs : List Ref) : Prop :=
  refs.IsChain fun x y => ¬ (isFree x = true ∧ isFree y = true)

/-- The list does not end with a free chunk. -/
def EndsUsed (isFree : Ref → Bool) (refs : List Ref) : Prop :=
  ∀ x ∈ refs.getLast?, isFree x = false

/-- The list does not start with a free chunk. -/
def StartsUsed (isFree : Ref → Bool) (refs : List Ref) : Prop :=
  ∀ x ∈ refs.head?, isFree x = false

theorem sparse_used (hc : isFree c = false) :
    Sparse isFree (before ++ c :: after) ↔ Sparse isFree before ∧ Sparse isFree after := by
  unfold Sparse
  rw [List.isChain_append, List.isChain_cons]
  simp [hc]

theorem sparse_free (hc : isFree c = true) :
    Sparse isFree (before ++ c :: after) ↔
      Sparse isFree before ∧ Sparse isFree after ∧ EndsUsed isFree before ∧
        StartsUsed isFree after := by
  unfold Sparse EndsUsed StartsUsed
  rw [List.isChain_append, List.isChain_cons]
  simp [hc]
  tauto

theorem Sparse.congr (h : Sparse isFree refs) (heq : ∀ x ∈ refs, isFree' x = isFree x) :
    Sparse isFree' refs := by
  refine List.IsChain.imp_of_mem_imp (fun x y hx hy hxy => ?_) h
  rw [heq x hx, heq y hy]
  exact hxy

theorem EndsUsed.congr (h : EndsUsed isFree refs) (heq : ∀ x ∈ refs, isFree' x = isFree x) :
    EndsUsed isFree' refs := by
  intro x hx
  rw [heq x (List.mem_of_getLast? hx)]
  exact h x hx

theorem StartsUsed.congr (h : StartsUsed isFree refs) (heq : ∀ x ∈ refs, isFree' x = isFree x) :
    StartsUsed isFree' refs := by
  intro x hx
  rw [heq x (List.mem_of_mem_head? hx)]
  exact h x hx

/-! ## The searches -/

/-- The chunk is in the free list after the given predecessor, and `size` fits in it. -/
def IsFit (d : Device) (size : Nat) (free : List Ref) (fit : Ref × Option Ref) : Prop :=
  ∃ front back, free = front ++ fit.1 :: back ∧ fit.2 = front.getLast? ∧ size ≤ d.size fit.1

/-- The search ends, and what it finds fits. -/
theorem findFit_spec (strategy : Strategy) {size fuel : Nat} {curr : Option Ref}
    {found : Option (Ref × Option Ref)} {rest : List Ref}
    (hpath : IsPath d.freelink curr rest none) (hfuel : rest.length < fuel)
    (hfound : ∀ fit ∈ found, IsFit d size (front ++ rest) fit) :
    ∃ result, d.findFit strategy size fuel curr front.getLast? found = some result ∧
      ∀ fit ∈ result, IsFit d size (front ++ rest) fit := by
  induction rest generalizing front curr found fuel with
  | nil =>
      obtain ⟨fuel, rfl⟩ := Nat.exists_eq_succ_of_ne_zero (by omega : fuel ≠ 0)
      obtain rfl : curr = none := hpath
      exact ⟨found, rfl, hfound⟩
  | cons c rest ih =>
      obtain ⟨fuel, rfl⟩ := Nat.exists_eq_succ_of_ne_zero (by omega : fuel ≠ 0)
      obtain ⟨rfl, htail⟩ := hpath
      have hlen : rest.length < fuel := by simpa using hfuel
      have happend : front ++ c :: rest = front ++ [c] ++ rest := by simp
      have hlast : (front ++ [c]).getLast? = some c := List.getLast?_concat
      rw [happend] at hfound
      by_cases hfits : size ≤ d.size c
      · have hfit : IsFit d size (front ++ c :: rest) (c, front.getLast?) :=
          ⟨front, rest, rfl, rfl, hfits⟩
        cases strategy with
        | firstFit =>
            refine ⟨some (c, front.getLast?), by simp [Device.findFit, hfits], fun fit hmem => ?_⟩
            cases hmem
            exact hfit
        | bestFit =>
            have hnew : ∀ fit ∈ some (c, front.getLast?),
                IsFit d size (front ++ [c] ++ rest) fit := by
              intro fit hmem
              cases hmem
              rwa [happend] at hfit
            obtain ⟨result, hresult, hspec⟩ := ih htail hlen hnew
            rw [hlast] at hresult
            exact ⟨result, by simpa [Device.findFit, hfits] using hresult, by simpa using hspec⟩
      · obtain ⟨result, hresult, hspec⟩ := ih htail hlen hfound
        rw [hlast] at hresult
        exact ⟨result, by simpa [Device.findFit, hfits] using hresult, by simpa using hspec⟩

/-- A search that finds nothing has seen only chunks that are too small. -/
theorem findFit_eq_none {strategy : Strategy} {size fuel : Nat} {curr prevfree : Option Ref}
    {found : Option (Ref × Option Ref)} {rest : List Ref} (hpath : IsPath d.freelink curr rest none)
    (h : d.findFit strategy size fuel curr prevfree found = some none) :
    found = none ∧ ∀ c ∈ rest, d.size c < size := by
  induction rest generalizing curr prevfree found fuel with
  | nil =>
      obtain rfl : curr = none := hpath
      cases fuel with
      | zero => cases h
      | succ fuel => exact ⟨Option.some.inj h, fun c hc => absurd hc List.not_mem_nil⟩
  | cons c rest ih =>
      obtain ⟨rfl, htail⟩ := hpath
      cases fuel with
      | zero => cases h
      | succ fuel =>
          by_cases hfits : size ≤ d.size c
          · simp only [Device.findFit, if_pos hfits] at h
            cases strategy with
            | firstFit => cases h
            | bestFit => exact nomatch (ih htail h).1
          · simp only [Device.findFit, if_neg hfits] at h
            obtain ⟨hfound, hsmall⟩ := ih htail h
            refine ⟨hfound, fun x hx => ?_⟩
            rcases List.mem_cons.mp hx with rfl | hx
            · exact not_le.mp hfits
            · exact hsmall x hx

/-- The walk over the backward links ends at the first free chunk. -/
theorem prevFree_spec {fuel : Nat} {p : Option Ref} (hpath : IsPath d.prev p refs none)
    (hfuel : refs.length < fuel) : d.prevFree fuel p = some (refs.find? d.isFree) := by
  induction refs generalizing p fuel with
  | nil =>
      obtain ⟨fuel, rfl⟩ := Nat.exists_eq_succ_of_ne_zero (by omega : fuel ≠ 0)
      obtain rfl : p = none := hpath
      rfl
  | cons x refs ih =>
      obtain ⟨fuel, rfl⟩ := Nat.exists_eq_succ_of_ne_zero (by omega : fuel ≠ 0)
      obtain ⟨rfl, htail⟩ := hpath
      by_cases hx : d.isFree x
      · simp [Device.prevFree, hx]
      · simpa [Device.prevFree, hx] using ih htail (by simpa using hfuel)

/-- From the chunk `c` the walk ends at the last free chunk before it. -/
theorem prevFree_before (hpath : IsPath d.prev (d.prev c) before.reverse none) {fuel : Nat}
    (hfuel : before.length < fuel) :
    d.prevFree fuel (d.prev c) = some ((before.filter d.isFree).getLast?) := by
  rw [prevFree_spec hpath (by simpa using hfuel), ← List.head?_filter, List.filter_reverse,
    List.head?_reverse]

/-! ## The invariant of the device -/

/-- The heap of a device whose block has been reserved. -/
structure HeapInv (cfg : Config) (d : Device) (refs : List Ref) : Prop where
  layout : Layout d refs (refs.filter d.isFree) cfg.base (cfg.base + cfg.total)
  sparse : Sparse d.isFree refs
  allocated : ∀ r, d.allocated r = true ↔ r ∈ refs
  fresh : ∀ r ∈ refs, r < d.nextRef
  count : refs.length ≤ d.nextRef
  positive : 1 < refs.length → ∀ r ∈ refs, 0 < d.size r
  nonempty : refs ≠ []
  hasMain : d.hasMain = true

/-- The first allocation makes one free chunk. -/
theorem heapInv_reserve (cfg : Config) : HeapInv cfg (Device.initial.reserve cfg) [0] := by
  constructor
  case layout =>
    refine ⟨List.nodup_singleton 0, ?_, ?_, ?_, ?_⟩
    all_goals simp [Device.reserve, Device.initial]
  case sparse => exact List.isChain_singleton 0
  case allocated =>
    intro r
    by_cases hr : r = 0 <;> simp [Device.reserve, Device.initial, hr]
  all_goals simp [Device.reserve, Device.initial]

/-! ## Allocation -/

/-- A positive size stays positive in `double`. -/
theorem toDouble_pos {m : Nat} (hm : 0 < m) : 0 < toDouble m := by
  have hulp : 2 ^ (m.log2 + 1 - 53) ≤ m := by
    refine (Nat.pow_le_pow_right (by decide) ?_).trans (Nat.log2_self_le (by omega))
    omega
  have hpos : 0 < 2 ^ (m.log2 + 1 - 53) := Nat.two_pow_pos _
  have hquotient : 0 < m / 2 ^ (m.log2 + 1 - 53) := Nat.div_pos hulp hpos
  unfold toDouble
  dsimp only
  split
  · exact Nat.mul_pos hquotient hpos
  · exact Nat.mul_pos (Nat.succ_pos _) hpos

/-- A chunk is only split when something is left. -/
theorem lt_of_splits {strategy : Strategy} {chunk size : Nat} (hsize : 0 < size)
    (h : strategy.splits chunk size = true) : size < chunk := by
  cases strategy with
  | firstFit =>
      simp only [Strategy.splits, decide_eq_true_eq] at h
      omega
  | bestFit =>
      simp only [Strategy.splits, decide_eq_true_eq] at h
      by_contra hle
      have hzero : chunk - size = 0 := by omega
      have hpos := toDouble_pos hsize
      rw [hzero, show toDouble 0 = 0 from rfl] at h
      omega

theorem roundSize_pos (size : Nat) : 0 < roundSize size := by
  unfold roundSize chunkHeader
  dsimp only
  split <;> omega

/-- A request that does not wrap is rounded up. -/
theorem le_roundSize {size : Nat} (hsize : size ≤ 2 ^ 64 - 8) : size ≤ roundSize size := by
  have hmod : (size + 7) % 2 ^ 64 = size + 7 := Nat.mod_eq_of_lt (by omega)
  unfold roundSize chunkHeader
  dsimp only
  rw [hmod]
  split <;> omega

/-- The free list around a free chunk. -/
theorem filter_append_cons_free (hc : isFree c = true) :
    (before ++ c :: after).filter isFree = before.filter isFree ++ c :: after.filter isFree := by
  rw [List.filter_append, List.filter_cons_of_pos hc]

theorem filter_append_cons_used (hc : isFree c = false) :
    (before ++ c :: after).filter isFree = before.filter isFree ++ after.filter isFree := by
  rw [List.filter_append, List.filter_cons_of_neg (by simp [hc])]

/-- The free list of a part of the heap that keeps its free chunks. -/
theorem filter_eq_of_eq (heq : ∀ x ∈ refs, isFree' x = isFree x) :
    refs.filter isFree' = refs.filter isFree :=
  List.filter_congr heq

/-- The chunk of an allocation is free until it is taken, whole. -/
theorem HeapInv.take {cfg : Config} (h : HeapInv cfg d (before ++ c :: after))
    (hc : d.isFree c = true) :
    HeapInv cfg (d.takeChunk c (before.filter d.isFree).getLast?) (before ++ c :: after) := by
  obtain ⟨hcb, hca, _⟩ := notMem_of_nodup h.layout.nodup
  have hfree := h.layout.nodup.filter d.isFree
  have hlayout := h.layout
  rw [filter_append_cons_free hc] at hlayout hfree
  have hkeep : ∀ x, x ≠ c →
      (d.takeChunk c (before.filter d.isFree).getLast?).isFree x = d.isFree x :=
    fun x hx => Function.update_of_ne hx _ _
  have hused : (d.takeChunk c (before.filter d.isFree).getLast?).isFree c = false :=
    Function.update_self _ _ _
  have hbefore : ∀ x ∈ before, _ := fun x hx => hkeep x (by rintro rfl; exact hcb hx)
  have hafter : ∀ x ∈ after, _ := fun x hx => hkeep x (by rintro rfl; exact hca hx)
  obtain ⟨hsb, hsa, _, _⟩ := (sparse_free hc).mp h.sparse
  refine ⟨?_, ?_, h.allocated, h.fresh, h.count, h.positive, h.nonempty, h.hasMain⟩
  · rw [filter_append_cons_used hused, filter_eq_of_eq hbefore, filter_eq_of_eq hafter]
    exact hlayout.takeChunk hfree
  · exact (sparse_used hused).mpr ⟨hsb.congr hbefore, hsa.congr hafter⟩

/-- The chunk of an allocation is split, and the part that is not taken is a free chunk. -/
theorem HeapInv.splitTake {cfg : Config} (h : HeapInv cfg d (before ++ c :: after))
    (hc : d.isFree c = true) {size : Nat} (hpos : 0 < size) (hsize : size < d.size c) :
    HeapInv cfg ((d.splitChunk c size).takeChunk c (before.filter d.isFree).getLast?)
      (before ++ c :: d.nextRef :: after) := by
  obtain ⟨hcb, hca, _⟩ := notMem_of_nodup h.layout.nodup
  have hfree := h.layout.nodup.filter d.isFree
  have hlayout := h.layout
  rw [filter_append_cons_free hc] at hlayout hfree
  have hlt : ∀ x ∈ before ++ c :: after, x ≠ d.nextRef := fun x hx => (h.fresh x hx).ne
  have hcr : c ≠ d.nextRef := hlt c (by simp)
  have hfresh : d.nextRef ∉ before ++ c :: after := fun hmem => hlt _ hmem rfl
  have hfreshFree : d.nextRef ∉ before.filter d.isFree ++ c :: after.filter d.isFree := by
    rw [← filter_append_cons_free hc]
    exact fun hmem => hfresh (List.mem_filter.mp hmem).1
  have hsplit := hlayout.splitChunk hfree hsize.le hfresh hfreshFree
  have hfree' : (before.filter d.isFree ++ c :: d.nextRef :: after.filter d.isFree).Nodup := by
    rw [show before.filter d.isFree ++ c :: d.nextRef :: after.filter d.isFree =
      (before.filter d.isFree ++ [c]) ++ d.nextRef :: after.filter d.isFree by simp]
    refine List.nodup_middle.mpr (List.nodup_cons.mpr ⟨by simpa using hfreshFree, ?_⟩)
    simpa using hfree
  have hkeep : ∀ x ∈ before ++ after,
      ((d.splitChunk c size).takeChunk c (before.filter d.isFree).getLast?).isFree x =
        d.isFree x := by
    intro x hx
    have hxc : x ≠ c := by
      rintro rfl
      exact (List.mem_append.mp hx).elim hcb hca
    have hxr : x ≠ d.nextRef := hlt x (by simp at hx ⊢; tauto)
    simp [Device.splitChunk, Device.takeChunk, hxc, hxr]
  have hused : ((d.splitChunk c size).takeChunk c (before.filter d.isFree).getLast?).isFree c =
      false := by simp [Device.takeChunk]
  have hrest : ((d.splitChunk c size).takeChunk c (before.filter d.isFree).getLast?).isFree
      d.nextRef = true := by simp [Device.splitChunk, Device.takeChunk, hcr.symm]
  have hbefore : ∀ x ∈ before, _ := fun x hx => hkeep x (List.mem_append_left _ hx)
  have hafter : ∀ x ∈ after, _ := fun x hx => hkeep x (List.mem_append_right _ hx)
  obtain ⟨hsb, hsa, _, hstart⟩ := (sparse_free hc).mp h.sparse
  constructor
  case layout =>
    rw [filter_append_cons_used hused, List.filter_cons_of_pos hrest, filter_eq_of_eq hbefore,
      filter_eq_of_eq hafter]
    exact hsplit.takeChunk hfree'
  case sparse =>
    refine (sparse_used hused).mpr ⟨hsb.congr hbefore, ?_⟩
    have hlast : Sparse _ ([] ++ d.nextRef :: after) := (sparse_free hrest).mpr
      ⟨List.isChain_nil, hsa.congr hafter, by simp [EndsUsed], hstart.congr hafter⟩
    exact hlast
  case allocated =>
    intro r
    by_cases hr : r = d.nextRef
    · simp [Device.takeChunk, Device.splitChunk, hr]
    · simpa [Device.takeChunk, Device.splitChunk, hr] using h.allocated r
  case fresh =>
    intro r hr
    show r < d.nextRef + 1
    by_cases hrr : r = d.nextRef
    · exact hrr ▸ Nat.lt_succ_self r
    · exact Nat.lt_succ_of_lt (h.fresh r (by simp [hrr] at hr ⊢; exact hr))
  case count =>
    show (before ++ c :: d.nextRef :: after).length ≤ d.nextRef + 1
    refine le_trans (le_of_eq ?_) (Nat.succ_le_succ h.count)
    simp [Nat.add_assoc]
  case positive =>
    intro _ r hr
    show 0 < (Function.update (Function.update d.size d.nextRef (d.size c - size)) c size) r
    by_cases hrc : r = c
    · rw [hrc, Function.update_self]
      exact hpos
    · rw [Function.update_of_ne hrc]
      by_cases hrr : r = d.nextRef
      · rw [hrr, Function.update_self]
        omega
      · rw [Function.update_of_ne hrr]
        have hmem : r ∈ before ∨ r ∈ after := by simpa [hrc, hrr] using hr
        have hlength : 1 < (before ++ c :: after).length := by
          rw [List.length_append, List.length_cons]
          rcases hmem with hmem | hmem <;> have := List.length_pos_of_mem hmem <;> omega
        exact h.positive hlength r (by simp [hmem, hrc])
  case nonempty => simp
  case hasMain => exact h.hasMain

/-- What an allocation of `c` does to the device `d` with the chunks `refs`. -/
structure Allocated (cfg : Config) (d d' : Device) (refs refs' : List Ref) (c : Ref)
    (size : Nat) : Prop where
  inv : HeapInv cfg d' refs'
  mem : c ∈ refs ∧ d.isFree c = true
  used : ∀ r, r ∈ refs' ∧ d'.isFree r = false ↔ r ∈ refs ∧ d.isFree r = false ∨ r = c
  kept : ∀ r ∈ refs, d.isFree r = false →
    d'.devicePtr r = d.devicePtr r ∧ d'.size r = d.size r
  fits : size ≤ d'.size c

/-- A free chunk is taken whole. -/
theorem allocated_take {cfg : Config} (h : HeapInv cfg d (before ++ c :: after))
    (hc : d.isFree c = true) {size : Nat} (hsize : size ≤ d.size c) :
    Allocated cfg d (d.takeChunk c (before.filter d.isFree).getLast?) (before ++ c :: after)
      (before ++ c :: after) c size where
  inv := h.take hc
  mem := ⟨by simp, hc⟩
  used := by
    intro r
    by_cases hr : r = c
    · simp [Device.takeChunk, hr]
    · simp [Device.takeChunk, hr]
  kept := fun r _ _ => ⟨rfl, rfl⟩
  fits := hsize

/-- A free chunk is split. -/
theorem allocated_splitTake {cfg : Config} (h : HeapInv cfg d (before ++ c :: after))
    (hc : d.isFree c = true) {size : Nat} (hpos : 0 < size) (hsize : size < d.size c) :
    Allocated cfg d ((d.splitChunk c size).takeChunk c (before.filter d.isFree).getLast?)
      (before ++ c :: after) (before ++ c :: d.nextRef :: after) c size where
  inv := h.splitTake hc hpos hsize
  mem := ⟨by simp, hc⟩
  used := by
    intro r
    by_cases hr : r = c
    · simp [Device.takeChunk, hr]
    · by_cases hrr : r = d.nextRef
      · have hfresh : ¬ (d.nextRef ∈ before ++ c :: after) := fun hmem =>
          (h.fresh _ hmem).ne rfl
        subst hrr
        simp [Device.takeChunk, Device.splitChunk, hr]
        simpa [hr] using fun hmem => absurd hmem (by simpa [hr] using hfresh)
      · simp [Device.takeChunk, Device.splitChunk, hr, hrr]
  kept := by
    intro r hr hused
    have hrc : r ≠ c := by
      rintro rfl
      rw [hc] at hused
      cases hused
    simp [Device.takeChunk, Device.splitChunk, hrc, (h.fresh r hr).ne]
  fits := by simp [Device.takeChunk, Device.splitChunk]

/-- An allocation ends, and takes a free chunk or finds none. -/
theorem alloc_spec {cfg : Config} (h : HeapInv cfg d refs) (size : Nat) :
    d.alloc cfg size = some (d, none) ∨ ∃ d' refs' c, d.alloc cfg size = some (d', some c) ∧
      Allocated cfg d d' refs refs' c (roundSize size) := by
  have hreserve : d.reserve cfg = d := if_neg (by simp [h.hasMain])
  have hlength : (refs.filter d.isFree).length < d.nextRef + 1 :=
    Nat.lt_succ_of_le ((List.length_filter_le _ _).trans h.count)
  have hnone : ∀ fit ∈ (none : Option (Ref × Option Ref)),
      IsFit d (roundSize size) ([] ++ refs.filter d.isFree) fit := by simp
  obtain ⟨result, hresult, hspec⟩ := findFit_spec cfg.strategy h.layout.free hlength hnone
  cases result with
  | none =>
      refine .inl ?_
      unfold Device.alloc
      dsimp only
      rw [hreserve, show (none : Option Ref) = ([] : List Ref).getLast? from rfl, hresult]
  | some fit =>
      obtain ⟨c, prevfree⟩ := fit
      obtain ⟨front, back, hfree, hprev, hsize⟩ := hspec _ rfl
      dsimp only at hfree hprev hsize
      have hmem : c ∈ refs.filter d.isFree := by
        rw [List.nil_append] at hfree
        rw [hfree]
        simp
      obtain ⟨hc, hisFree⟩ := List.mem_filter.mp hmem
      obtain ⟨before, after, rfl⟩ := List.append_of_mem hc
      obtain ⟨hcb, hca, _⟩ := notMem_of_nodup h.layout.nodup
      have hfront : before.filter d.isFree = front := by
        rw [filter_append_cons_free hisFree, List.nil_append] at hfree
        exact ((List.append_cons_inj_of_notMem (fun hm => hcb (List.mem_filter.mp hm).1)
          fun hm => hca (List.mem_filter.mp hm).1).mp hfree).1
      rw [← hfront] at hprev
      refine .inr ?_
      unfold Device.alloc
      dsimp only
      rw [hreserve, show (none : Option Ref) = ([] : List Ref).getLast? from rfl, hresult]
      by_cases hsplits : cfg.strategy.splits (d.size c) (roundSize size) = true
      · refine ⟨_, before ++ c :: d.nextRef :: after, c, rfl, ?_⟩
        rw [if_pos hsplits, hprev]
        exact allocated_splitTake h hisFree (roundSize_pos size)
          (lt_of_splits (roundSize_pos size) hsplits)
      · refine ⟨_, before ++ c :: after, c, rfl, ?_⟩
        rw [if_neg hsplits, hprev]
        exact allocated_take h hisFree hsize

/-- An allocation fails exactly when every free chunk is too small. -/
theorem alloc_eq_none_iff {cfg : Config} (h : HeapInv cfg d refs) (size : Nat) :
    d.alloc cfg size = some (d, none) ↔
      ∀ c ∈ refs, d.isFree c = true → d.size c < roundSize size := by
  have hreserve : d.reserve cfg = d := if_neg (by simp [h.hasMain])
  have hlength : (refs.filter d.isFree).length < d.nextRef + 1 :=
    Nat.lt_succ_of_le ((List.length_filter_le _ _).trans h.count)
  have hnone : ∀ fit ∈ (none : Option (Ref × Option Ref)),
      IsFit d (roundSize size) ([] ++ refs.filter d.isFree) fit := by simp
  obtain ⟨result, hresult, hspec⟩ := findFit_spec cfg.strategy h.layout.free hlength hnone
  have hfind : d.findFit cfg.strategy (roundSize size) (d.nextRef + 1) d.freeChunkList none none =
      some result := hresult
  cases result with
  | none =>
      refine iff_of_true ?_ fun c hc hfree => ?_
      · unfold Device.alloc
        dsimp only
        rw [hreserve, hfind]
      · exact (findFit_eq_none h.layout.free hfind).2 c (List.mem_filter.mpr ⟨hc, hfree⟩)
  | some fit =>
      obtain ⟨front, back, hfree, _, hsize⟩ := hspec fit rfl
      rw [List.nil_append] at hfree
      have hmem : fit.1 ∈ refs.filter d.isFree := by
        rw [hfree]
        exact List.mem_append_right _ List.mem_cons_self
      obtain ⟨hc, hisFree⟩ := List.mem_filter.mp hmem
      refine iff_of_false (fun halloc => ?_) fun hsmall => ?_
      · unfold Device.alloc at halloc
        dsimp only at halloc
        rw [hreserve, hfind] at halloc
        exact nomatch congrArg Prod.snd (Option.some.inj halloc)
      · exact absurd hsize (not_le.mpr (hsmall fit.1 hc hisFree))

/-! ## Deallocation -/

/-- What the free of `c` does to the device `d` with the chunks `refs`. -/
structure Freed (cfg : Config) (d d' : Device) (refs refs' : List Ref) (c : Ref) : Prop where
  inv : HeapInv cfg d' refs'
  used : ∀ r, r ∈ refs' ∧ d'.isFree r = false ↔ (r ∈ refs ∧ d.isFree r = false) ∧ r ≠ c
  kept : ∀ r ∈ refs, d.isFree r = false → r ≠ c →
    d'.devicePtr r = d.devicePtr r ∧ d'.size r = d.size r

/-- The device with the chunk `c` marked free, the first step of `kaapi_memory_free`. -/
def markFree (d : Device) (c : Ref) : Device :=
  { d with isFree := Function.update d.isFree c true }

/-- Marking a used chunk free leaves the lists as they are, with the chunk in neither. -/
theorem HeapInv.layout_markFree {cfg : Config} (h : HeapInv cfg d (before ++ c :: after))
    (hc : d.isFree c = false) :
    Layout (markFree d c) (before ++ c :: after)
      (before.filter d.isFree ++ after.filter d.isFree) cfg.base (cfg.base + cfg.total) := by
  have hlayout := h.layout
  rw [filter_append_cons_used hc] at hlayout
  exact ⟨hlayout.nodup, hlayout.next, hlayout.prev, hlayout.tiles, hlayout.free⟩

@[simp] theorem markFree_isFree_self (d : Device) (c : Ref) : (markFree d c).isFree c = true :=
  Function.update_self _ _ _

theorem markFree_isFree_of_ne (d : Device) {c r : Ref} (hr : r ≠ c) :
    (markFree d c).isFree r = d.isFree r :=
  Function.update_of_ne hr _ _

/-- The other chunks keep their state. -/
theorem markFree_isFree_of_notMem (hc : c ∉ refs) :
    ∀ x ∈ refs, (markFree d c).isFree x = d.isFree x := by
  intro x hx
  refine markFree_isFree_of_ne d ?_
  rintro rfl
  exact hc hx

/-- The free list of the device after the free of `c`, around a free chunk `x`. -/
theorem filter_markFree {x : Ref} (hbefore : c ∉ before) (hafter : c ∉ after)
    (hx : (markFree d c).isFree x = true) :
    (before ++ x :: after).filter (markFree d c).isFree =
      before.filter d.isFree ++ x :: after.filter d.isFree := by
  rw [filter_append_cons_free hx, filter_eq_of_eq (markFree_isFree_of_notMem hbefore),
    filter_eq_of_eq (markFree_isFree_of_notMem hafter)]

/-- No two neighbours are free around the free chunk `x`. -/
theorem sparse_markFree {x : Ref} (hbefore : c ∉ before) (hafter : c ∉ after)
    (hx : (markFree d c).isFree x = true) (hsb : Sparse d.isFree before)
    (hsa : Sparse d.isFree after) (hend : EndsUsed d.isFree before)
    (hstart : StartsUsed d.isFree after) :
    Sparse (markFree d c).isFree (before ++ x :: after) := by
  have hb := markFree_isFree_of_notMem (d := d) hbefore
  have ha := markFree_isFree_of_notMem (d := d) hafter
  exact (sparse_free hx).mpr ⟨hsb.congr hb, hsa.congr ha, hend.congr hb, hstart.congr ha⟩

/-- A free that leaves the chunks `before ++ x :: after`, where `x` has taken the place of the
freed chunk and of its free neighbours. -/
theorem Freed.intro {cfg : Config} {d' : Device} {x : Ref} (h : HeapInv cfg d refs)
    (hcb : c ∉ before) (hca : c ∉ after)
    (hlayout : Layout d' (before ++ x :: after)
      (before.filter d.isFree ++ x :: after.filter d.isFree) cfg.base (cfg.base + cfg.total))
    (hisFree : d'.isFree = (markFree d c).isFree) (hx : (markFree d c).isFree x = true)
    (hsb : Sparse d.isFree before) (hsa : Sparse d.isFree after) (hend : EndsUsed d.isFree before)
    (hstart : StartsUsed d.isFree after) (hsub : (before ++ x :: after).Sublist refs)
    (hgone : ∀ r ∈ refs, d.isFree r = false → r ≠ c → r ∈ before ++ x :: after)
    (hallocated : ∀ r, d'.allocated r = true ↔ r ∈ before ++ x :: after)
    (hnextRef : d'.nextRef = d.nextRef) (hmain : d'.hasMain = d.hasMain)
    (hsize : ∀ r, d.size r ≤ d'.size r)
    (hkept : ∀ r, d.isFree r = false → r ≠ c →
      d'.devicePtr r = d.devicePtr r ∧ d'.size r = d.size r) :
    Freed cfg d d' refs (before ++ x :: after) c := by
  constructor
  case inv =>
    constructor
    case layout =>
      rw [hisFree, filter_markFree hcb hca hx]
      exact hlayout
    case sparse =>
      rw [hisFree]
      exact sparse_markFree hcb hca hx hsb hsa hend hstart
    case allocated => exact hallocated
    case fresh =>
      intro r hr
      rw [hnextRef]
      exact h.fresh r (hsub.subset hr)
    case count =>
      rw [hnextRef]
      exact hsub.length_le.trans h.count
    case positive =>
      intro hlength r hr
      exact (h.positive (hlength.trans_le hsub.length_le) r (hsub.subset hr)).trans_le (hsize r)
    case nonempty => simp
    case hasMain => exact hmain.trans h.hasMain
  case used =>
    intro r
    rw [hisFree]
    by_cases hrc : r = c
    · simp [hrc]
    · rw [markFree_isFree_of_ne d hrc]
      constructor
      · rintro ⟨hmem, hused⟩
        exact ⟨⟨hsub.subset hmem, hused⟩, hrc⟩
      · rintro ⟨⟨hmem, hused⟩, _⟩
        exact ⟨hgone r hmem hused hrc, hused⟩
  case kept => exact fun r _ => hkept r

/-- A pointer to a free neighbour after the chunk. -/
theorem startsUsed_or_cons (f : Ref → Bool) (after : List Ref) :
    (after.head?.filter f = none ∧ StartsUsed f after) ∨
      ∃ n rest, after = n :: rest ∧ f n = true ∧ after.head?.filter f = some n := by
  cases after with
  | nil => exact .inl ⟨rfl, by simp [StartsUsed]⟩
  | cons n rest =>
      by_cases hn : f n = true
      · exact .inr ⟨n, rest, rfl, hn, by simp [hn]⟩
      · exact .inl ⟨by simp [hn], by simpa [StartsUsed] using hn⟩

/-- A pointer to a free neighbour before the chunk. -/
theorem endsUsed_or_concat (f : Ref → Bool) (before : List Ref) :
    (before.getLast?.filter f = none ∧ EndsUsed f before) ∨
      ∃ rest p, before = rest ++ [p] ∧ f p = true ∧ before.getLast?.filter f = some p := by
  rcases List.eq_nil_or_concat before with rfl | ⟨rest, p, rfl⟩
  · exact .inl ⟨rfl, by simp [EndsUsed]⟩
  · rw [List.concat_eq_append]
    by_cases hp : f p = true
    · exact .inr ⟨rest, p, rfl, hp, by simp [hp]⟩
    · exact .inl ⟨by simp [hp], by simpa [EndsUsed] using hp⟩

/-- The freed chunk has no free neighbour, and enters the free list. -/
theorem freed_link {cfg : Config} (h : HeapInv cfg d (before ++ c :: after))
    (hc : d.isFree c = false) (hend : EndsUsed d.isFree before)
    (hstart : StartsUsed d.isFree after) :
    Freed cfg d ((markFree d c).linkFree c (before.filter d.isFree).getLast?)
      (before ++ c :: after) (before ++ c :: after) c := by
  obtain ⟨hcb, hca, _⟩ := notMem_of_nodup h.layout.nodup
  obtain ⟨hsb, hsa⟩ := (sparse_used hc).mp h.sparse
  have hnodup : (before.filter d.isFree ++ c :: after.filter d.isFree).Nodup := by
    have hfilter := h.layout.nodup.filter (markFree d c).isFree
    rwa [filter_markFree hcb hca (markFree_isFree_self d c)] at hfilter
  have hfields : ∀ prev : Option Ref, ((markFree d c).linkFree c prev).isFree =
      (markFree d c).isFree ∧ ((markFree d c).linkFree c prev).allocated = d.allocated ∧
      ((markFree d c).linkFree c prev).nextRef = d.nextRef ∧
      ((markFree d c).linkFree c prev).hasMain = d.hasMain ∧
      ((markFree d c).linkFree c prev).size = d.size ∧
      ((markFree d c).linkFree c prev).devicePtr = d.devicePtr := by
    intro prev
    cases prev <;> exact ⟨rfl, rfl, rfl, rfl, rfl, rfl⟩
  obtain ⟨hfree, halloc, hnext, hmain, hsize, hptr⟩ := hfields (before.filter d.isFree).getLast?
  exact Freed.intro h hcb hca ((h.layout_markFree hc).linkFree hnodup) hfree
    (markFree_isFree_self d c) hsb hsa hend hstart (List.Sublist.refl _) (fun r hr _ _ => hr)
    (fun r => by rw [halloc]; exact h.allocated r) hnext hmain (fun r => by rw [hsize])
    fun r _ _ => ⟨by rw [hptr], by rw [hsize]⟩

/-- A chunk that is free after the free of another was free before. -/
theorem isFree_of_markFree {x : Ref} (hx : (markFree d c).isFree x = true) (hne : x ≠ c) :
    d.isFree x = true := by
  rwa [markFree_isFree_of_ne d hne] at hx

/-- A free chunk after a used one has no free chunk after it. -/
theorem sparse_free_head {x : Ref} (hx : d.isFree x = true) (h : Sparse d.isFree (x :: after)) :
    Sparse d.isFree after ∧ StartsUsed d.isFree after := by
  have hsparse : Sparse d.isFree ([] ++ x :: after) := h
  obtain ⟨_, hafter, _, hstart⟩ := (sparse_free hx).mp hsparse
  exact ⟨hafter, hstart⟩

/-- The freed chunk is absorbed by the free chunk after it. -/
theorem freed_absorb {cfg : Config} (h : HeapInv cfg d (before ++ c :: n :: after))
    (hc : d.isFree c = false) (hn : (markFree d c).isFree n = true)
    (hend : EndsUsed d.isFree before) :
    Freed cfg d (((markFree d c).absorbNext c n).delete c) (before ++ c :: n :: after)
      (before ++ n :: after) c := by
  obtain ⟨hcb, hcna, _⟩ := notMem_of_nodup h.layout.nodup
  obtain ⟨hcn, hca⟩ := not_or.mp (List.mem_cons.not.mp hcna)
  have hfree : d.isFree n = true := isFree_of_markFree hn fun heq => hcn heq.symm
  obtain ⟨hsb, hsna⟩ := (sparse_used hc).mp h.sparse
  obtain ⟨hsa, hstart⟩ := sparse_free_head hfree hsna
  have hlayout := (h.layout_markFree hc).absorbNext
  rw [List.filter_cons_of_pos hfree] at hlayout
  refine Freed.intro h hcb hca ⟨hlayout.nodup, hlayout.next, hlayout.prev, hlayout.tiles,
    hlayout.free⟩ rfl hn hsb hsa hend hstart ?_ ?_ ?_ rfl rfl ?_ ?_
  · exact (List.sublist_cons_self c _).append_left before
  · intro r hr _ hrc
    simpa [hrc] using hr
  · intro r
    by_cases hrc : r = c
    · simp [Device.delete, hrc, hcb, hcn, hca]
    · simpa [Device.delete, Device.absorbNext, markFree, hrc] using h.allocated r
  · intro r
    by_cases hrn : r = n <;> simp [Device.delete, Device.absorbNext, markFree, hrn]
  · intro r hr _
    have hrn : r ≠ n := by
      rintro rfl
      rw [hfree] at hr
      cases hr
    simp [Device.delete, Device.absorbNext, markFree, hrn]

/-- The freed chunk becomes a part of the free chunk before it. -/
theorem freed_merge {cfg : Config} {x : Ref} (h : HeapInv cfg d (before ++ x :: c :: after))
    (hc : d.isFree c = false) (hx : (markFree d c).isFree x = true)
    (hstart : StartsUsed d.isFree after) :
    Freed cfg d (((markFree d c).mergeIntoPrev x c).delete c) (before ++ x :: c :: after)
      (before ++ x :: after) c := by
  have hsplit : HeapInv cfg d ((before ++ [x]) ++ c :: after) := by simpa using h
  obtain ⟨hcbx, hca, _⟩ := notMem_of_nodup hsplit.layout.nodup
  obtain ⟨hcb, hcx⟩ : c ∉ before ∧ c ≠ x := by simpa using hcbx
  have hfree : d.isFree x = true := isFree_of_markFree hx hcx.symm
  obtain ⟨hsb, hsca, hend, _⟩ := (sparse_free hfree).mp h.sparse
  obtain ⟨_, hsa⟩ := (sparse_used hc).mp (show Sparse _ ([] ++ c :: after) from hsca)
  have hlayout := hsplit.layout_markFree hc
  rw [List.append_assoc, List.singleton_append, List.filter_append,
    List.filter_singleton, hfree, cond_true, List.append_assoc, List.singleton_append] at hlayout
  have hmerged := hlayout.mergeIntoPrev
  refine Freed.intro h hcb hca ⟨hmerged.nodup, hmerged.next, hmerged.prev, hmerged.tiles,
    hmerged.free⟩ rfl hx hsb hsa hend hstart ?_ ?_ ?_ rfl rfl ?_ ?_
  · exact ((List.sublist_cons_self c _).cons_cons x).append_left before
  · intro r hr _ hrc
    simpa [hrc] using hr
  · intro r
    by_cases hrc : r = c
    · simp [Device.delete, hrc, hcb, hcx, hca]
    · simpa [Device.delete, Device.mergeIntoPrev, markFree, hrc] using h.allocated r
  · intro r
    by_cases hrx : r = x <;> simp [Device.delete, Device.mergeIntoPrev, markFree, hrx]
  · intro r hr _
    have hrx : r ≠ x := by
      rintro rfl
      rw [hfree] at hr
      cases hr
    simp [Device.delete, Device.mergeIntoPrev, markFree, hrx]

/-- The device after the free of `c` between two free chunks `x` and `n`. -/
def mergeBoth (d : Device) (x c n : Ref) : Device :=
  let d := ((markFree d c).absorbNext c n).mergeIntoPrev x n
  (({ d with freelink := Function.update d.freelink x (d.freelink n) }).delete n).delete c

/-- The freed chunk and the free chunk after it become a part of the free chunk before. -/
theorem freed_mergeBoth {cfg : Config} {x : Ref}
    (h : HeapInv cfg d (before ++ x :: c :: n :: after)) (hc : d.isFree c = false)
    (hx : (markFree d c).isFree x = true) (hn : (markFree d c).isFree n = true) :
    Freed cfg d (mergeBoth d x c n) (before ++ x :: c :: n :: after) (before ++ x :: after) c := by
  have hsplit : HeapInv cfg d ((before ++ [x]) ++ c :: n :: after) := by simpa using h
  obtain ⟨hcbx, hcna, hbna⟩ := notMem_of_nodup hsplit.layout.nodup
  obtain ⟨hcb, hcx⟩ : c ∉ before ∧ c ≠ x := by simpa using hcbx
  obtain ⟨hcn, hca⟩ := not_or.mp (List.mem_cons.not.mp hcna)
  obtain ⟨hnbx, hna, _⟩ := notMem_of_nodup hbna
  obtain ⟨hnb, hnx⟩ : n ∉ before ∧ n ≠ x := by simpa using hnbx
  have hfreex : d.isFree x = true := isFree_of_markFree hx hcx.symm
  have hfreen : d.isFree n = true := isFree_of_markFree hn fun heq => hcn heq.symm
  obtain ⟨hsb, hscna, hend, _⟩ := (sparse_free hfreex).mp h.sparse
  obtain ⟨_, hsna⟩ := (sparse_used hc).mp (show Sparse _ ([] ++ c :: n :: after) from hscna)
  obtain ⟨hsa, hstart⟩ := sparse_free_head hfreen hsna
  have hlayout := (hsplit.layout_markFree hc).absorbNext
  rw [List.append_assoc, List.singleton_append, List.filter_append, List.filter_singleton,
    hfreex, cond_true, List.append_assoc, List.singleton_append,
    List.filter_cons_of_pos hfreen] at hlayout
  have hnodup : (before.filter d.isFree ++ x :: n :: after.filter d.isFree).Nodup := by
    have hfilter := h.layout.nodup.filter d.isFree
    simpa [List.filter_cons, hfreex, hfreen, hc] using hfilter
  have hmerged := hlayout.mergeIntoPrev.unlinkFree hnodup
  refine Freed.intro h hcb hca ⟨hmerged.nodup, hmerged.next, hmerged.prev, hmerged.tiles,
    hmerged.free⟩ rfl hx hsb hsa hend hstart ?_ ?_ ?_ rfl rfl ?_ ?_
  · exact ((((List.sublist_cons_self n _).cons c)).cons_cons x).append_left before
  · intro r hr hused hrc
    have hrn : r ≠ n := by
      rintro rfl
      rw [hfreen] at hused
      cases hused
    simpa [hrc, hrn] using hr
  · intro r
    by_cases hrc : r = c
    · simp [mergeBoth, Device.delete, hrc, hcb, hcx, hca]
    · by_cases hrn : r = n
      · have hnc : n ≠ c := fun heq => hcn heq.symm
        simp [mergeBoth, Device.delete, hrn, hnc, hnb, hnx, hna]
      · simpa [mergeBoth, Device.delete, Device.mergeIntoPrev, Device.absorbNext, markFree, hrc,
          hrn] using h.allocated r
  · intro r
    by_cases hrx : r = x
    · simp [mergeBoth, Device.delete, Device.mergeIntoPrev, Device.absorbNext, markFree, hrx,
        hnx.symm]
    · by_cases hrn : r = n <;>
        simp [mergeBoth, Device.delete, Device.mergeIntoPrev, Device.absorbNext, markFree, hrx, hrn,
          hnx]
  · intro r hr _
    have hrx : r ≠ x := by
      rintro rfl
      rw [hfreex] at hr
      cases hr
    have hrn : r ≠ n := by
      rintro rfl
      rw [hfreen] at hr
      cases hr
    simp [mergeBoth, Device.delete, Device.mergeIntoPrev, Device.absorbNext, markFree, hrx, hrn]

/-! The four branches of `kaapi_memory_free`, by the chunks that are free next to the chunk. -/

theorem free_of_used (hnext : ((markFree d c).next c).filter (markFree d c).isFree = none)
    (hprev : ((markFree d c).prev c).filter (markFree d c).isFree = none) :
    d.free c = ((markFree d c).prevFree (d.nextRef + 1) ((markFree d c).prev c)).map
      fun prev => (markFree d c).linkFree c prev := by
  unfold markFree at hnext hprev
  dsimp only at hnext hprev
  unfold Device.free
  dsimp only
  rw [hnext]
  dsimp only
  rw [hprev]
  rfl

theorem free_of_prev {x : Ref}
    (hnext : ((markFree d c).next c).filter (markFree d c).isFree = none)
    (hprev : ((markFree d c).prev c).filter (markFree d c).isFree = some x) :
    d.free c = some (((markFree d c).mergeIntoPrev x c).delete c) := by
  unfold markFree at hnext hprev
  dsimp only at hnext hprev
  unfold Device.free
  dsimp only
  rw [hnext]
  dsimp only
  rw [hprev]
  rfl

theorem free_of_next {n : Ref}
    (hnext : ((markFree d c).next c).filter (markFree d c).isFree = some n)
    (hprev : (((markFree d c).absorbNext c n).prev c).filter
      ((markFree d c).absorbNext c n).isFree = none) :
    d.free c = some (((markFree d c).absorbNext c n).delete c) := by
  unfold markFree at hnext hprev
  dsimp only at hnext hprev
  unfold Device.free
  dsimp only
  rw [hnext]
  dsimp only
  rw [hprev]
  rfl

theorem free_of_both {n x : Ref}
    (hnext : ((markFree d c).next c).filter (markFree d c).isFree = some n)
    (hprev : (((markFree d c).absorbNext c n).prev c).filter
      ((markFree d c).absorbNext c n).isFree = some x) :
    d.free c = some (mergeBoth d x c n) := by
  unfold markFree at hnext hprev
  dsimp only at hnext hprev
  unfold Device.free
  dsimp only
  rw [hnext]
  dsimp only
  rw [hprev]
  rfl

/-- The free of a used chunk ends, and leaves the heap without it. -/
theorem free_spec {cfg : Config} (h : HeapInv cfg d refs) (hmem : c ∈ refs)
    (hc : d.isFree c = false) :
    ∃ d' refs', d.free c = some d' ∧ Freed cfg d d' refs refs' c := by
  obtain ⟨before, after, rfl⟩ := List.append_of_mem hmem
  obtain ⟨hcb, hca, _⟩ := notMem_of_nodup h.layout.nodup
  have hnext : (markFree d c).next c = after.head? := h.layout.next_eq
  have hprev : (markFree d c).prev c = before.getLast? := h.layout.prev_eq
  rcases startsUsed_or_cons (markFree d c).isFree after with
    ⟨hnone, hstart⟩ | ⟨n, rest, rfl, hn, hsome⟩
  · have hnone := (congrArg (Option.filter (markFree d c).isFree) hnext).trans hnone
    have hstart' := hstart.congr fun x hx => (markFree_isFree_of_notMem hca x hx).symm
    rcases endsUsed_or_concat (markFree d c).isFree before with
      ⟨hnone', hend⟩ | ⟨rest, x, rfl, hx, hsome'⟩
    · -- no free neighbour: the chunk is linked after the last free chunk before it
      have hfree := free_of_used hnone
        ((congrArg (Option.filter (markFree d c).isFree) hprev).trans hnone')
      have hend' := hend.congr fun x hx => (markFree_isFree_of_notMem hcb x hx).symm
      obtain ⟨_, _, hbefore⟩ := h.layout.prev_split
      have hlength : before.length < d.nextRef + 1 := by
        refine Nat.lt_succ_of_le (le_trans ?_ h.count)
        simp
      have hwalk := prevFree_before (d := markFree d c) hbefore hlength
      rw [filter_eq_of_eq (markFree_isFree_of_notMem hcb)] at hwalk
      refine ⟨_, _, ?_, freed_link h hc hend' hstart'⟩
      rw [hfree, hwalk, Option.map_some]
    · have hfree := free_of_prev hnone
        ((congrArg (Option.filter (markFree d c).isFree) hprev).trans hsome')
      rw [List.append_assoc, List.singleton_append] at h
      have hfreed := freed_merge h hc hx hstart'
      exact ⟨_, rest ++ x :: after, hfree, by simpa using hfreed⟩
  · have hsome := (congrArg (Option.filter (markFree d c).isFree) hnext).trans hsome
    obtain ⟨hcn, _⟩ := not_or.mp (List.mem_cons.not.mp hca)
    have hprev' : ((markFree d c).absorbNext c n).prev c = before.getLast? := by
      rw [← hprev]
      exact Function.update_of_ne hcn _ _
    rcases endsUsed_or_concat (markFree d c).isFree before with
      ⟨hnone', hend⟩ | ⟨front, x, rfl, hx, hsome'⟩
    · have hfree := free_of_next hsome
        ((congrArg (Option.filter (markFree d c).isFree) hprev').trans hnone')
      have hend' := hend.congr fun x hx => (markFree_isFree_of_notMem hcb x hx).symm
      exact ⟨_, before ++ n :: rest, hfree, freed_absorb h hc hn hend'⟩
    · have hfree := free_of_both hsome
        ((congrArg (Option.filter (markFree d c).isFree) hprev').trans hsome')
      rw [List.append_assoc, List.singleton_append] at h
      have hfreed := freed_mergeBoth h hc hx hn
      exact ⟨_, front ++ x :: rest, hfree, by simpa using hfreed⟩

end Xkblas.Memory.Heap
