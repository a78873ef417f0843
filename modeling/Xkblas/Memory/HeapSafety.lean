import Mathlib.Data.List.InsertIdx
import Xkblas.Memory.HeapInvariant

/-!
# The heap of a device is sound

`Sound` collects what holds of the heap in every state of a run: the chunks tile the block in
both directions of their links, the free list is the list of the free chunks, no two neighbours
are free, and the live allocations are disjoint and large enough. A request of more than
`2^64 - 8` bytes wraps to a small one (`small_allocation_reachable`). In every run without such
requests the heap is sound and every call returns (`sound_of_fitting`).
-/

namespace Xkblas.Memory.Heap

open Library

variable {cfg : Config} {d d' : Device} {refs refs' : List Ref} {live : List Allocation} {c : Ref}

/-- The chunks `refs` of a device that has reserved its block, with the allocations `live`. -/
structure SoundBlock (cfg : Config) (d : Device) (refs : List Ref) (live : List Allocation) :
    Prop where
  allocated : ∀ r, d.allocated r = true ↔ r ∈ refs
  next : IsPath d.next refs.head? refs none
  prev : IsPath d.prev refs.getLast? refs.reverse none
  tiles : Tiles d.devicePtr d.size cfg.base refs (cfg.base + cfg.total)
  increasing : refs.Pairwise fun x y => d.devicePtr x < d.devicePtr y
  freeList : IsPath d.freelink d.freeChunkList (refs.filter d.isFree) none
  sparse : Sparse d.isFree refs
  used : ∀ r, r ∈ live.map Allocation.chunk ↔ r ∈ refs ∧ d.isFree r = false
  whole : live = [] →
    ∃ c, refs = [c] ∧ d.isFree c = true ∧ d.devicePtr c = cfg.base ∧ d.size c = cfg.total

/-- What holds of the heap of one device between two calls. -/
structure Sound (cfg : Config) (s : State) : Prop where
  block : (s.device.hasMain = false ∧ s.live = []) ∨
    ∃ refs, SoundBlock cfg s.device refs s.live
  large : ∀ a ∈ s.live, a.ptr = s.device.devicePtr a.chunk ∧ a.size ≤ s.device.size a.chunk
  disjoint : s.live.Pairwise fun a b =>
    a.ptr + s.device.size a.chunk ≤ b.ptr ∨ b.ptr + s.device.size b.chunk ≤ a.ptr
  alloc_returns : ∀ size < 2 ^ 64, (step cfg s (.alloc size)).isSome
  free_returns : ∀ i < s.live.length, (step cfg s (.free i)).isSome

/-! ## The invariant of a run -/

/-- The live allocations are the used chunks. -/
structure LiveInv (d : Device) (refs : List Ref) (live : List Allocation) : Prop where
  nodup : (live.map Allocation.chunk).Nodup
  used : ∀ r, r ∈ live.map Allocation.chunk ↔ r ∈ refs ∧ d.isFree r = false
  ptr : ∀ a ∈ live, a.ptr = d.devicePtr a.chunk
  large : ∀ a ∈ live, a.size ≤ d.size a.chunk

/-- A device before its first allocation, or one that has reserved its block. -/
inductive Inv (cfg : Config) : State → Prop where
  | fresh : Inv cfg { device := .initial, live := [] }
  | reserved {d : Device} {refs : List Ref} {live : List Allocation} (hheap : HeapInv cfg d refs)
      (hlive : LiveInv d refs live) : Inv cfg { device := d, live := live }

/-- A live allocation has a used chunk. -/
theorem LiveInv.mem (h : LiveInv d refs live) {a : Allocation} (ha : a ∈ live) :
    a.chunk ∈ refs ∧ d.isFree a.chunk = false :=
  (h.used a.chunk).mp (List.mem_map_of_mem ha)

theorem liveInv_reserve (cfg : Config) : LiveInv (Device.initial.reserve cfg) [0] [] := by
  refine ⟨List.nodup_nil, fun r => ?_, by simp, by simp⟩
  by_cases hr : r = 0 <;> simp [Device.reserve, Device.initial, hr]

/-- An allocation adds its chunk to the used ones. -/
theorem LiveInv.alloc {size : Nat} (h : LiveInv d refs live)
    (ha : Allocated cfg d d' refs refs' c (roundSize size)) (hsize : size ≤ 2 ^ 64 - 8) :
    LiveInv d' refs' (live ++ [⟨c, d'.devicePtr c, size⟩]) := by
  have hnew : c ∉ live.map Allocation.chunk := by
    intro hmem
    have hused := ((h.used c).mp hmem).2
    rw [ha.mem.2] at hused
    cases hused
  have hkept : ∀ a ∈ live, d'.devicePtr a.chunk = d.devicePtr a.chunk ∧
      d'.size a.chunk = d.size a.chunk := by
    intro a hmem
    obtain ⟨hrefs, hused⟩ := h.mem hmem
    exact ha.kept a.chunk hrefs hused
  constructor
  case nodup =>
    rw [List.map_append]
    refine List.nodup_append'.mpr ⟨h.nodup, List.nodup_singleton _, ?_⟩
    simpa [List.disjoint_singleton] using hnew
  case used =>
    intro r
    rw [ha.used r, List.map_append, List.mem_append, h.used r]
    simp
  case ptr =>
    intro a hmem
    rcases List.mem_append.mp hmem with hmem | hmem
    · rw [h.ptr a hmem, (hkept a hmem).1]
    · rw [List.mem_singleton.mp hmem]
  case large =>
    intro a hmem
    rcases List.mem_append.mp hmem with hmem | hmem
    · rw [(hkept a hmem).2]
      exact h.large a hmem
    · rw [List.mem_singleton.mp hmem]
      exact (le_roundSize hsize).trans ha.fits

/-- A free removes its chunk from the used ones. -/
theorem LiveInv.free {i : Nat} {a : Allocation} (h : LiveInv d refs live)
    (hi : live[i]? = some a) (hf : Freed cfg d d' refs refs' a.chunk) :
    LiveInv d' refs' (live.eraseIdx i) := by
  have hchunk : (live.map Allocation.chunk)[i]? = some a.chunk := by
    rw [List.getElem?_map, hi, Option.map_some]
  have hmem : ∀ r, r ∈ (live.eraseIdx i).map Allocation.chunk ↔
      r ≠ a.chunk ∧ r ∈ live.map Allocation.chunk := by
    intro r
    rw [← List.eraseIdx_map]
    exact mem_eraseIdx_of_nodup h.nodup hchunk
  have hkept : ∀ b ∈ live.eraseIdx i, d'.devicePtr b.chunk = d.devicePtr b.chunk ∧
      d'.size b.chunk = d.size b.chunk := by
    intro b hb
    obtain ⟨hrefs, hused⟩ := h.mem (List.mem_of_mem_eraseIdx hb)
    exact hf.kept b.chunk hrefs hused ((hmem b.chunk).mp (List.mem_map_of_mem hb)).1
  constructor
  case nodup =>
    rw [← List.eraseIdx_map]
    exact h.nodup.sublist (List.eraseIdx_sublist _ _)
  case used =>
    intro r
    rw [hmem r, hf.used r, h.used r, and_comm]
  case ptr =>
    intro b hb
    rw [(hkept b hb).1]
    exact h.ptr b (List.mem_of_mem_eraseIdx hb)
  case large =>
    intro b hb
    rw [(hkept b hb).2]
    exact h.large b (List.mem_of_mem_eraseIdx hb)

/-- The address of a live allocation is not null. -/
theorem ptr_ne_zero {a : Allocation} (hheap : HeapInv cfg d refs) (hlive : LiveInv d refs live)
    (ha : a ∈ live) : a.ptr ≠ 0 := by
  rw [hlive.ptr a ha]
  have hbounds := hheap.layout.tiles.bounds a.chunk (hlive.mem ha).1
  exact (cfg.base_pos.trans_le hbounds.1).ne'

/-- The first allocation is one of the device with a reserved block. -/
theorem alloc_initial (cfg : Config) (size : Nat) :
    Device.initial.alloc cfg size = (Device.initial.reserve cfg).alloc cfg size := by
  have hreserve : (Device.initial.reserve cfg).reserve cfg = Device.initial.reserve cfg := by
    refine if_neg ?_
    simp [Device.reserve, Device.initial]
  unfold Device.alloc
  rw [hreserve]

/-- The requests whose rounding does not wrap. -/
def Fitting (_ : State) (a : Action) : Prop :=
  match a with
  | .alloc size => size ≤ 2 ^ 64 - 8
  | .free _ => True

instance (s : State) (a : Action) : Decidable (Fitting s a) := by
  unfold Fitting
  split <;> infer_instance

/-- An allocation on a device with a reserved block. -/
theorem step_alloc (hheap : HeapInv cfg d refs) (hlive : LiveInv d refs live) {size : Nat}
    (hsize : size < 2 ^ 64) {s : State} (hs : s.device.alloc cfg size = d.alloc cfg size)
    (hl : s.live = live) :
    ∃ t, step cfg s (.alloc size) = some t ∧ (size ≤ 2 ^ 64 - 8 → Inv cfg t) := by
  unfold step
  dsimp only
  rw [if_pos hsize, hs]
  rcases alloc_spec hheap size with hnone | ⟨d', refs', c, hsome, hspec⟩
  · rw [hnone]
    refine ⟨_, rfl, fun _ => ?_⟩
    rw [hl]
    exact .reserved hheap hlive
  · rw [hsome, hl]
    exact ⟨_, rfl, fun hfit => .reserved hspec.inv (hlive.alloc hspec hfit)⟩

/-- The free of a live allocation. -/
theorem step_free (hheap : HeapInv cfg d refs) (hlive : LiveInv d refs live) {i : Nat}
    {a : Allocation} (hi : live[i]? = some a) :
    ∃ t, step cfg { device := d, live := live } (.free i) = some t ∧ Inv cfg t := by
  have ha : a ∈ live := List.mem_of_getElem? hi
  obtain ⟨hmem, hused⟩ := hlive.mem ha
  obtain ⟨d', refs', hfree, hspec⟩ := free_spec hheap hmem hused
  refine ⟨_, ?_, .reserved hspec.inv (hlive.free hi hspec)⟩
  simp only [step, hi, if_neg (ptr_ne_zero hheap hlive ha), hfree, Option.map_some]

theorem Inv.step {s t : State} {a : Action} (h : Inv cfg s) (hok : Fitting s a)
    (hstep : step cfg s a = some t) : Inv cfg t := by
  cases a with
  | alloc size =>
      have hsize : size < 2 ^ 64 := lt_of_le_of_lt hok (by decide)
      cases h with
      | fresh =>
          obtain ⟨u, hu, hinv⟩ := step_alloc (heapInv_reserve cfg) (liveInv_reserve cfg) hsize
            (s := { device := .initial, live := [] }) (alloc_initial cfg size) rfl
          cases hstep.symm.trans hu
          exact hinv hok
      | reserved hheap hlive =>
          obtain ⟨u, hu, hinv⟩ := step_alloc hheap hlive hsize
            (s := { device := _, live := _ }) rfl rfl
          cases hstep.symm.trans hu
          exact hinv hok
  | free i =>
      cases h with
      | fresh => cases hstep
      | @reserved d refs live hheap hlive =>
          cases hi : live[i]? with
          | none => simp [Heap.step, hi] at hstep
          | some a =>
              obtain ⟨u, hu, hinv⟩ := step_free hheap hlive hi
              cases hstep.symm.trans hu
              exact hinv

/-! ## Soundness -/

/-- A list of free chunks, no two of them neighbours, has one chunk at most. -/
theorem eq_singleton_of_free {isFree : Ref → Bool} (hne : refs ≠ []) (hs : Sparse isFree refs)
    (hfree : ∀ r ∈ refs, isFree r = true) : ∃ c, refs = [c] := by
  match refs, hne with
  | [c], _ => exact ⟨c, rfl⟩
  | x :: y :: rest, _ =>
      have hxy := (List.isChain_cons_cons.mp hs).1
      exact absurd ⟨hfree x (by simp), hfree y (by simp)⟩ hxy

/-- The chunks of the block are in the order of their addresses. -/
theorem HeapInv.increasing (h : HeapInv cfg d refs) :
    refs.Pairwise fun x y => d.devicePtr x < d.devicePtr y := by
  match refs, h with
  | [], _ => exact List.Pairwise.nil
  | [c], _ => exact List.pairwise_singleton _ c
  | x :: y :: rest, h =>
      refine h.layout.tiles.pairwise.imp_of_mem fun {u v} hu _ huv => ?_
      have hpos := h.positive (by simp) u hu
      omega

theorem soundBlock (hheap : HeapInv cfg d refs) (hlive : LiveInv d refs live) :
    SoundBlock cfg d refs live where
  allocated := hheap.allocated
  next := hheap.layout.next
  prev := hheap.layout.prev
  tiles := hheap.layout.tiles
  increasing := hheap.increasing
  freeList := hheap.layout.free
  sparse := hheap.sparse
  used := hlive.used
  whole := by
    rintro rfl
    have hfree : ∀ r ∈ refs, d.isFree r = true := by
      intro r hr
      by_contra hused
      have hmem := (hlive.used r).mpr ⟨hr, by simpa using hused⟩
      cases hmem
    obtain ⟨c, rfl⟩ := eq_singleton_of_free hheap.nonempty hheap.sparse hfree
    obtain ⟨hstart, hend⟩ : d.devicePtr c = cfg.base ∧ cfg.base + d.size c = cfg.base + cfg.total :=
      hheap.layout.tiles
    exact ⟨c, rfl, hfree c (by simp), hstart, Nat.add_left_cancel hend⟩

/-- The chunks of the live allocations are disjoint. -/
theorem live_disjoint (hheap : HeapInv cfg d refs) (hlive : LiveInv d refs live) :
    live.Pairwise fun a b =>
      a.ptr + d.size a.chunk ≤ b.ptr ∨ b.ptr + d.size b.chunk ≤ a.ptr := by
  have hrefs : ∀ x ∈ refs, ∀ y ∈ refs, x ≠ y →
      d.devicePtr x + d.size x ≤ d.devicePtr y ∨ d.devicePtr y + d.size y ≤ d.devicePtr x := by
    intro x hx y hy hxy
    obtain ⟨before, after, rfl⟩ := List.append_of_mem hx
    obtain ⟨hbefore, hafter, hcross⟩ := List.pairwise_append.mp hheap.layout.tiles.pairwise
    rcases List.mem_append.mp hy with hy | hy
    · exact .inr (hcross y hy x (by simp))
    · rcases List.mem_cons.mp hy with rfl | hy
      · exact absurd rfl hxy
      · exact .inl ((List.pairwise_cons.mp hafter).1 y hy)
  refine (List.pairwise_map.mp hlive.nodup).imp_of_mem fun {a b} ha hb hne => ?_
  rw [hlive.ptr a ha, hlive.ptr b hb]
  exact hrefs _ (hlive.mem ha).1 _ (hlive.mem hb).1 hne

theorem Inv.toSound {s : State} (h : Inv cfg s) : Sound cfg s := by
  cases h with
  | fresh =>
      refine ⟨.inl ⟨rfl, rfl⟩, by simp, List.Pairwise.nil, fun size hsize => ?_, by simp⟩
      obtain ⟨t, ht, _⟩ := step_alloc (heapInv_reserve cfg) (liveInv_reserve cfg) hsize
        (s := { device := .initial, live := [] }) (alloc_initial cfg size) rfl
      rw [ht, Option.isSome_some]
  | @reserved d refs live hheap hlive =>
      refine ⟨.inr ⟨refs, soundBlock hheap hlive⟩, fun a ha => ⟨hlive.ptr a ha, hlive.large a ha⟩,
        live_disjoint hheap hlive, fun size hsize => ?_, fun i hi => ?_⟩
      · obtain ⟨t, ht, _⟩ := step_alloc hheap hlive hsize
          (s := { device := d, live := live }) rfl rfl
        rw [ht, Option.isSome_some]
      · obtain ⟨t, ht, _⟩ := step_free hheap hlive (List.getElem?_eq_getElem hi)
        rw [ht, Option.isSome_some]

/-- In every run in which no request wraps, the heap is sound. -/
theorem sound_of_fitting {s : State} (hs : (system cfg).ReachableWhen Fitting s) :
    Sound cfg s := by
  refine Inv.toSound (hs.invariant (fun s hinit => ?_) fun s a t h hok hstep => h.step hok hstep)
  cases hinit
  exact .fresh

/-- A device with a block of 1000 bytes. -/
def smallConfig : Config where
  memLimit := 1000
  base := 4096
  base_pos := page_pos
  strategy := .bestFit

/-- The chunk between two others is freed, then the other two. -/
def mergingRun : List Action :=
  [.alloc 100, .alloc 200, .alloc 40, .free 1, .free 0, .free 0]

theorem sound_mergingRun :
    ∃ s, (system smallConfig).replay Fitting { device := .initial, live := [] } mergingRun =
      some s ∧ s.live = [] ∧ s.device.size 1 = 1000 ∧ Sound smallConfig s :=
  ⟨((system smallConfig).replay Fitting _ mergingRun).get (by decide), by simp, by decide,
    by decide, sound_of_fitting (.replay (.start rfl) (Option.some_get _).symm)⟩

/-- A request of almost the whole address space. -/
def wrappingRun : List Action :=
  [.alloc (2 ^ 64 - 7)]

/-- Without a bound on the requests an allocation can be smaller than requested: here the
request of `2^64 - 7` bytes gets 48. -/
theorem small_allocation_reachable :
    ¬ ∀ (cfg : Config) (s : State), (system cfg).Reachable s → Sound cfg s := by
  intro hall
  let s := ((system smallConfig).run { device := .initial, live := [] } wrappingRun).get (by decide)
  have hs : (system smallConfig).Reachable s :=
    .replay (.start rfl) (Option.some_get _).symm
  have hlive : s.live = [⟨0, 4096, 2 ^ 64 - 7⟩] := by decide
  have hlarge := (hall smallConfig s hs).large ⟨0, 4096, 2 ^ 64 - 7⟩ (by simp [hlive])
  exact absurd hlarge.2 (by decide)

end Xkblas.Memory.Heap
