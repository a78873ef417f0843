import Mathlib.Data.List.Perm.Subperm
import Xkblas.Library.RoundEven
import Xkblas.Memory.HeapInvariant

/-!
# The choice of the best fit

Compiled for the best fit, `kaapi_memory_alloc` scans the whole free list. The comparison with
`min_size` is compiled out, so every chunk that is large enough replaces the one kept so far, and
the last of them is taken. `bestFit_iff` says on which free lists this is the smallest one. The
other two properties of the best fit hold on every list: a chunk is found when one is large
enough, and after the split less than half of the request is lost.
-/

namespace Xkblas.Memory.Heap

open Library

variable {d : Device} {cfg : Config} {free rest : List Ref} {size : Nat}

/-- The free list of a device, in the order of `freelink`. -/
structure FreeList (d : Device) (free : List Ref) : Prop where
  path : IsPath d.freelink d.freeChunkList free none
  fresh : ∀ r ∈ free, r < d.nextRef

/-- The heap of every run has its free chunks in this list. -/
theorem HeapInv.freeList {refs : List Ref} (h : HeapInv cfg d refs) :
    FreeList d (refs.filter d.isFree) where
  path := h.layout.free
  fresh := fun r hr => h.fresh r (List.mem_of_mem_filter hr)

theorem FreeList.length_le (h : FreeList d free) : free.length ≤ d.nextRef := by
  have hsub : free ⊆ List.range d.nextRef := fun r hr => List.mem_range.mpr (h.fresh r hr)
  have hle := (List.Nodup.subperm h.path.nodup hsub).length_le
  rwa [List.length_range] at hle

/-- The chunks of the list that are large enough. -/
def enough (d : Device) (size : Nat) (free : List Ref) : List Ref :=
  free.filter fun c => decide (size ≤ d.size c)

theorem mem_enough {c : Ref} : c ∈ enough d size free ↔ c ∈ free ∧ size ≤ d.size c := by
  unfold enough
  rw [List.mem_filter, decide_eq_true_iff]

theorem enough_cons_of_le {c : Ref} (h : size ≤ d.size c) :
    enough d size (c :: rest) = c :: enough d size rest :=
  List.filter_cons_of_pos (decide_eq_true h)

theorem enough_cons_of_lt {c : Ref} (h : ¬ size ≤ d.size c) :
    enough d size (c :: rest) = enough d size rest :=
  List.filter_cons_of_neg (by rwa [decide_eq_true_iff])

/-- The search keeps the last chunk that is large enough. -/
theorem findFit_bestFit (size : Nat) {fuel : Nat} {curr : Option Ref} (prevfree : Option Ref)
    (found : Option (Ref × Option Ref)) (hpath : IsPath d.freelink curr rest none)
    (hfuel : rest.length < fuel) :
    ∃ result, d.findFit .bestFit size fuel curr prevfree found = some result ∧
      result.map Prod.fst = (enough d size rest).getLast?.or (found.map Prod.fst) := by
  induction rest generalizing curr prevfree found fuel with
  | nil =>
      obtain ⟨fuel, rfl⟩ := Nat.exists_eq_succ_of_ne_zero (by omega : fuel ≠ 0)
      obtain rfl : curr = none := hpath
      exact ⟨found, rfl, rfl⟩
  | cons c rest ih =>
      obtain ⟨fuel, rfl⟩ := Nat.exists_eq_succ_of_ne_zero (by omega : fuel ≠ 0)
      obtain ⟨rfl, htail⟩ := hpath
      have hlen : rest.length < fuel := by simpa using hfuel
      by_cases hfits : size ≤ d.size c
      · obtain ⟨result, hresult, hlast⟩ := ih (some c) (some (c, prevfree)) htail hlen
        refine ⟨result, by simpa [Device.findFit, hfits] using hresult, ?_⟩
        rw [hlast, enough_cons_of_le hfits, List.getLast?_cons]
        cases (enough d size rest).getLast? <;> rfl
      · obtain ⟨result, hresult, hlast⟩ := ih (some c) found htail hlen
        refine ⟨result, by simpa [Device.findFit, hfits] using hresult, ?_⟩
        rw [hlast, enough_cons_of_lt hfits]

/-- A chunk that is not split loses less than half of the request: the comparison in `double`
decides as the exact one would. -/
theorem waste_lt {chunk : Nat} (h : Strategy.bestFit.splits chunk size = false) :
    2 * (chunk - size) < size := by
  have htest : ¬ roundBits 53 size ≤ 2 * roundBits 53 (chunk - size) := of_decide_eq_false h
  by_contra hle
  refine htest ?_
  rw [← roundBits_two_mul]
  exact roundBits_mono (by decide) (not_lt.mp hle)

/-- An allocation returns the last chunk that is large enough. Its size becomes the request if
it is split. -/
theorem alloc_bestFit (hcfg : cfg.strategy = .bestFit) (hfree : FreeList (d.reserve cfg) free)
    (size : Nat) :
    ∃ d', d.alloc cfg size =
        some (d', (enough (d.reserve cfg) (roundSize size) free).getLast?) ∧
      ∀ c ∈ (enough (d.reserve cfg) (roundSize size) free).getLast?,
        d'.size c =
          if Strategy.bestFit.splits ((d.reserve cfg).size c) (roundSize size) then roundSize size
          else (d.reserve cfg).size c := by
  obtain ⟨result, hresult, hlast⟩ := findFit_bestFit (roundSize size) none none hfree.path
    (Nat.lt_succ_of_le hfree.length_le)
  rw [Option.map_none, Option.or_none] at hlast
  rw [← hlast]
  unfold Device.alloc
  dsimp only
  rw [hcfg, hresult]
  cases result with
  | none => exact ⟨_, rfl, fun c hc => nomatch hc⟩
  | some fit =>
      obtain ⟨c, prevfree⟩ := fit
      refine ⟨_, rfl, fun c' hc' => ?_⟩
      obtain rfl : c = c' := Option.some.inj hc'
      split
      · exact Function.update_self _ _ _
      · rfl

/-- What the best fit promises for a request of `size` bytes, on the device `d` that becomes
`d'`. -/
structure Served (d d' : Device) (free : List Ref) (size : Nat) (chunk : Option Ref) : Prop where
  found : chunk.isSome ↔ ∃ c ∈ free, size ≤ d.size c
  fits : ∀ c ∈ chunk, c ∈ free ∧ size ≤ d.size c
  smallest : ∀ c ∈ chunk, ∀ c' ∈ free, size ≤ d.size c' → d.size c ≤ d.size c'
  waste : ∀ c ∈ chunk, size ≤ d'.size c ∧ 2 * (d'.size c - size) < size

/-- The allocation of `size` bytes is a best fit. The free list is the one after the block of the
device is reserved. -/
def BestFit (cfg : Config) (d : Device) (free : List Ref) (size : Nat) : Prop :=
  ∃ d' chunk, d.alloc cfg size = some (d', chunk) ∧
    Served (d.reserve cfg) d' free (roundSize size) chunk

/-- The last chunk that is large enough is as small as all of them. -/
def LastSmallest (d : Device) (free : List Ref) (size : Nat) : Prop :=
  ∀ c ∈ (enough d size free).getLast?, ∀ c' ∈ free, size ≤ d.size c' → d.size c ≤ d.size c'

/-- The choice is the best fit exactly when the last chunk of the list that is large enough has
the smallest size of those. -/
theorem bestFit_iff (hcfg : cfg.strategy = .bestFit) (hfree : FreeList (d.reserve cfg) free)
    (size : Nat) :
    BestFit cfg d free size ↔ LastSmallest (d.reserve cfg) free (roundSize size) := by
  obtain ⟨d', halloc, hsize⟩ := alloc_bestFit hcfg hfree size
  constructor
  · rintro ⟨d'', chunk, halloc', hserved⟩
    rw [halloc] at halloc'
    cases halloc'
    exact hserved.smallest
  · intro hlast
    have hmem : ∀ c ∈ (enough (d.reserve cfg) (roundSize size) free).getLast?,
        c ∈ free ∧ roundSize size ≤ (d.reserve cfg).size c :=
      fun c hc => mem_enough.mp (List.mem_of_getLast? hc)
    refine ⟨d', _, halloc, ?_, hmem, hlast, fun c hc => ?_⟩
    · rw [Option.isSome_iff_ne_none, Ne, List.getLast?_eq_none_iff,
        List.eq_nil_iff_forall_not_mem, not_forall_not]
      simp only [mem_enough]
    · rw [hsize c hc]
      split
      · have hpos := roundSize_pos size
        omega
      · next hsplit => exact ⟨(hmem c hc).2, waste_lt (Bool.eq_false_iff.mpr hsplit)⟩

/-! ## Two free chunks -/

/-- A device with 1 MiB of memory. -/
def oneMiB : Config where
  memLimit := 2 ^ 20
  base := 4096
  base_pos := page_pos
  strategy := .bestFit

/-- Two allocations, of which the first one is freed: it is a free chunk before the rest of the
memory. -/
def twoFree (first : Nat) : List Action :=
  [.alloc first, .alloc 48, .free 0]

/-- The rest of the memory is the smaller chunk, and it stands last. -/
theorem bestFit_smallerLast :
    ∃ s, (system oneMiB).run { device := .initial, live := [] } (twoFree (2 ^ 19)) = some s ∧
      BestFit oneMiB s.device [0, 2] 100 := by
  let s := ((system oneMiB).run { device := .initial, live := [] } (twoFree (2 ^ 19))).get
    (by decide)
  have hfree : FreeList (s.device.reserve oneMiB) [0, 2] := ⟨⟨rfl, rfl, rfl⟩, by decide⟩
  refine ⟨s, (Option.some_get _).symm, ?_⟩
  refine (bestFit_iff rfl hfree 100).mpr fun c hc c' hc' _ => ?_
  obtain rfl : 2 = c := Option.some.inj hc
  rcases List.mem_pair.mp hc' with rfl | rfl <;> decide

/-- The smaller chunk stands first, and the rest of the memory is cut instead. -/
theorem not_bestFit :
    ∃ s, (system oneMiB).run { device := .initial, live := [] } (twoFree 128) = some s ∧
      FreeList (s.device.reserve oneMiB) [0, 2] ∧ ¬ BestFit oneMiB s.device [0, 2] 100 := by
  let s := ((system oneMiB).run { device := .initial, live := [] } (twoFree 128)).get (by decide)
  refine ⟨s, (Option.some_get _).symm, ⟨⟨rfl, rfl, rfl⟩, by decide⟩, ?_⟩
  rintro ⟨d', chunk, halloc, hserved⟩
  have hchunk : chunk = some 2 := congrArg Prod.snd (Option.some.inj halloc).symm
  have hle := hserved.smallest 2 hchunk 0 List.mem_cons_self (by decide)
  exact absurd hle (by decide)

end Xkblas.Memory.Heap
