import Xkblas.Library.TileRange
import Xkblas.Memory.WorkBufferRuns

/-!
# The registration of the work buffer

`xkblas_register_work_buffer` makes one free segment, takes all of it with requests of at most one
element, and starts a thread that writes zeros to each element and frees it. The requests are
rounded up to a multiple of eight bytes, and the thread steps by whole elements.
-/

namespace Xkblas.Memory.WorkBuffer

open Library

/-- `element_size`. -/
def elementSize : ℕ :=
  1024 * 1024 * 1024

/-- The bytes of the memory. -/
abbrev Bytes := ℕ → UInt8

/-- `f_memset` with the value zero. -/
def memset (mem : Bytes) (pos size : ℕ) : Bytes :=
  fun a => if pos ≤ a ∧ a < pos + size then 0 else mem a

/-- The loop of `xkblas_register_work_buffer`, with at most `fuel` tests. `element` is
`bargs->element_size`, and `fin` is the end of the buffer. A request that exits or waits ends it
without a result. -/
def getAll (element fin : ℕ) : ℕ → Segments → ℕ → ℕ → Option Segments
  | 0, _, _, _ => none
  | fuel + 1, s, pos, keep =>
      if pos < fin then
        let min := if keep < element then keep else element
        (s.getWorkPos min).bind fun r =>
          getAll element fin fuel r.1 ((pos + min) % 2 ^ 64) (keep - min)
      else some s

/-- The loop of `memset_init_thread_function`, with at most `fuel` tests. -/
def memsetAll (element fin : ℕ) : ℕ → Segments → Bytes → ℕ → ℕ → Option (Segments × Bytes)
  | 0, _, _, _, _ => none
  | fuel + 1, s, mem, pos, keep =>
      if pos < fin then
        let min := if keep < element then keep else element
        let mem := memset mem pos min
        (s.freeWorkPos pos).bind fun s =>
          memsetAll element fin fuel s mem ((pos + element) % 2 ^ 64)
            ((keep + 2 ^ 64 - element) % 2 ^ 64)
      else some (s, mem)

/-- `xkblas_register_work_buffer` when nothing is registered, with the thread that it joins. -/
def registerWorkBuffer (fuel : ℕ) (mem : Bytes) (ptr size : ℕ) : Option (Segments × Bytes) := do
  let fin := (ptr + size) % 2 ^ 64
  let s ← getAll elementSize fin fuel (.register ptr size) ptr size
  memsetAll elementSize fin fuel s mem ptr size

/-- The registration returns. It has written zeros to the bytes of the buffer and to no other byte,
one free segment covers the buffer, and a request of a size up to that of the buffer succeeds. -/
def Registers (mem : Bytes) (ptr size : ℕ) : Prop :=
  ∃ fuel s mem', registerWorkBuffer fuel mem ptr size = some (s, mem') ∧
    mem' = memset mem ptr size ∧ Whole ptr size s ∧
    ∀ n, 0 < n → n ≤ size → ∃ s' curr, s.getWorkPos n = some (s', some curr)

variable {s s' : Segments} {live : List Block} {refs used : List Ref}
  {base total pos keep element fin fuel : ℕ} {c : Ref} {mem : Bytes}

/-! ## The requests -/

/-- The segments while the buffer is taken: all but the last one, which starts at `pos`, are
used. -/
structure Rest (base total : ℕ) (s : Segments) (used : List Ref) (c : Ref) (pos keep : ℕ) :
    Prop where
  segs : SegInv base total s (used ++ [c])
  used : ∀ r ∈ used, s.isFree r = false
  isFree : s.isFree c = true
  ptr : s.ptr c = pos
  size : s.size c = keep

theorem Rest.le_total (h : Rest base total s used c pos keep) : keep ≤ total := by
  have hbounds := h.segs.layout.tiles.bounds c (List.mem_append_right _ List.mem_cons_self)
  rw [h.size] at hbounds
  omega

/-- A request of at least one byte gets the last segment when it fits in it. -/
theorem Rest.getWorkPos (h : Rest base total s used c pos keep) {size : ℕ} (hsize : 0 < size) :
    s.getWorkPos size =
      if roundSize size ≤ keep then
        some ((if 0 < keep - roundSize size then s.split c (roundSize size) else s).take c, some c)
      else none := by
  have hfilter : (used ++ [c]).filter s.isFree = [c] := by
    rw [List.filter_append, List.filter_cons_of_pos h.isFree, List.filter_nil]
    have hnil : used.filter s.isFree = [] := List.filter_eq_nil_iff.mpr fun r hr => by
      rw [h.used r hr]
      exact Bool.false_ne_true
    rw [hnil, List.nil_append]
  have hfuel := h.segs.filter_length_lt_fuel
  have hfrees := h.segs.layout.frees.forward
  rw [hfilter] at hfuel hfrees
  unfold Segments.getWorkPos
  rw [if_neg hsize.ne']
  dsimp only
  rw [hfrees.search_eq hfuel, h.segs.total_eq]
  by_cases hfits : roundSize size ≤ keep
  · have htotal : ¬ total < roundSize size := not_lt.mpr (hfits.trans h.le_total)
    have hfind : [c].find? (fun curr => decide (roundSize size ≤ s.size curr)) = some c := by
      rw [List.find?_cons_of_pos]
      rw [h.size]
      exact decide_eq_true hfits
    rw [if_neg htotal, if_pos hfits, hfind]
    dsimp only
    rw [h.size]
  · have hfind : [c].find? (fun curr => decide (roundSize size ≤ s.size curr)) = none := by
      rw [List.find?_cons_of_neg]
      · rfl
      · rw [h.size]
        simpa using hfits
    rw [if_neg hfits, hfind]
    split <;> rfl

/-- A size that is a multiple of eight is not changed. -/
theorem roundSize_of_dvd {size : ℕ} (hdvd : 8 ∣ size) (hlt : size < 2 ^ 64) :
    roundSize size = size := by
  unfold roundSize
  omega

/-- Another size becomes larger. -/
theorem lt_roundSize {size : ℕ} (hdvd : ¬ 8 ∣ size) (hlt : size ≤ 2 ^ 64 - 8) :
    size < roundSize size := by
  unfold roundSize
  omega

/-- The block of a request that succeeds is that of the last segment. -/
theorem Rest.inv_get (h : Rest base total s used c pos keep) (hinv : Inv base total ⟨s, live⟩)
    {size : ℕ} (hsize : size ≤ 2 ^ 64 - 8) (hget : s.getWorkPos size = some (s', some c))
    (hptr : s'.ptr c = s.ptr c) : Inv base total ⟨s', ⟨pos, size⟩ :: live⟩ := by
  have hstep : step ⟨s, live⟩ (.get size) = some ⟨s', ⟨s'.ptr c, size⟩ :: live⟩ := by
    simp only [step]
    rw [if_pos (by omega), hget]
    rfl
  rw [hptr, h.ptr] at hstep
  exact hinv.get hsize hstep

/-- The last segment is taken whole. -/
theorem Rest.getLast (h : Rest base total s used c pos keep) (hinv : Inv base total ⟨s, live⟩)
    (hkeep : 0 < keep) (hdvd : 8 ∣ keep) (hlt : keep < 2 ^ 64) :
    s.getWorkPos keep = some (s.take c, some c) ∧
      Inv base total ⟨s.take c, ⟨pos, keep⟩ :: live⟩ := by
  have hround := roundSize_of_dvd hdvd hlt
  have hget : s.getWorkPos keep = some (s.take c, some c) := by
    have hrest : ¬ 0 < keep - keep := by omega
    rw [h.getWorkPos hkeep, hround, if_pos le_rfl, if_neg hrest]
  exact ⟨hget, h.inv_get hinv (by omega) hget rfl⟩

/-- An element is cut off, and the rest is free. -/
theorem Rest.getElement (h : Rest base total s used c pos keep) (hinv : Inv base total ⟨s, live⟩)
    {size : ℕ} (hpos : 0 < size) (hdvd : 8 ∣ size) (hlt : size < keep) (hkeep : keep < 2 ^ 64) :
    s.getWorkPos size = some ((s.split c size).take c, some c) ∧
      Inv base total ⟨(s.split c size).take c, ⟨pos, size⟩ :: live⟩ ∧
      Rest base total ((s.split c size).take c) (used ++ [c]) s.brk (pos + size) (keep - size) := by
  have hround := roundSize_of_dvd hdvd (hlt.trans hkeep)
  have hget : s.getWorkPos size = some ((s.split c size).take c, some c) := by
    rw [h.getWorkPos hpos, hround, if_pos hlt.le, if_pos (Nat.sub_pos_of_lt hlt)]
  have hne : ∀ r ∈ used ++ [c], r ≠ s.brk := fun r hr => (h.segs.fresh r hr).ne
  have hcb : c ≠ s.brk := hne c (List.mem_append_right _ List.mem_cons_self)
  have htaken := h.segs.takeSplit h.isFree hpos (hlt.trans_eq h.size.symm)
  have hlist : used ++ c :: s.brk :: [] = (used ++ [c]) ++ [s.brk] := by
    rw [List.append_assoc]
    rfl
  refine ⟨hget, h.inv_get hinv (by omega) hget (Function.update_of_ne hcb _ _), ?_⟩
  constructor
  case segs =>
    have hsegs := htaken.inv
    rw [hlist] at hsegs
    exact hsegs
  case used =>
    intro r hr
    refine ((htaken.used r).mpr ?_).2
    rcases List.mem_append.mp hr with hmem | hmem
    · exact .inl ⟨List.mem_append_left _ hmem, h.used r hmem⟩
    · exact .inr (List.mem_singleton.mp hmem)
  case isFree =>
    exact (Function.update_of_ne hcb.symm _ _).trans (Function.update_self _ _ _)
  case ptr =>
    show Function.update s.ptr s.brk (s.ptr c + size) s.brk = _
    rw [Function.update_self, h.ptr]
  case size =>
    show Function.update (Function.update s.size s.brk (s.size c - size)) c size s.brk = _
    rw [Function.update_of_ne hcb.symm, Function.update_self, h.size]

/-- The addresses of the elements of a part of the buffer. -/
def elements (element pos keep : ℕ) : List ℕ :=
  (List.range (numTiles keep element)).map fun k => pos + element * k

theorem numTiles_of_le (hpos : 0 < element) (hkeep : 0 < keep) (hle : keep ≤ element) :
    numTiles keep element = 1 := by
  have hone := (lt_numTiles (n := keep) (k := 1) hpos).not.mpr (by omega)
  have hzero := numTiles_pos hpos hkeep
  omega

theorem numTiles_of_lt (hpos : 0 < element) (hlt : element < keep) :
    numTiles keep element = numTiles (keep - element) element + 1 := by
  unfold numTiles
  have hsum : keep + element - 1 = (keep - element + element - 1) + element := by omega
  rw [hsum, Nat.add_div_right _ hpos]

theorem elements_of_le (hpos : 0 < element) (hkeep : 0 < keep) (hle : keep ≤ element) :
    elements element pos keep = [pos] := by
  unfold elements
  rw [numTiles_of_le hpos hkeep hle]
  rfl

theorem elements_of_lt (hpos : 0 < element) (hlt : element < keep) :
    elements element pos keep = pos :: elements element (pos + element) (keep - element) := by
  unfold elements
  rw [numTiles_of_lt hpos hlt, List.range_succ_eq_map, List.map_cons, List.map_map]
  refine congrArg (List.cons pos) (List.map_congr_left fun k _ => ?_)
  show pos + element * (k + 1) = pos + element + element * k
  rw [Nat.mul_succ]
  omega

/-- The loop takes all elements of the rest when its size is a multiple of eight. -/
theorem Rest.takeAll (fuel : ℕ) (h : Rest base total s used c pos keep)
    (hinv : Inv base total ⟨s, live⟩) (hpos : 0 < element) (hunit : 8 ∣ element)
    (hkeep : 0 < keep) (hdvd : 8 ∣ keep) (hfin : pos + keep = fin) (hlt : fin < 2 ^ 64) :
    (numTiles keep element < fuel → (getAll element fin fuel s pos keep).isSome) ∧
      ∀ s', getAll element fin fuel s pos keep = some s' →
        ∃ live', Inv base total ⟨s', live'⟩ ∧
          (live'.map Block.ptr).Perm (elements element pos keep ++ live.map Block.ptr) := by
  induction fuel generalizing s used c pos keep live with
  | zero => exact ⟨fun hn => absurd hn (Nat.not_lt_zero _), nofun⟩
  | succ fuel ih =>
      have hbefore : pos < fin := by omega
      rw [getAll, if_pos hbefore]
      dsimp only
      by_cases hlast : keep ≤ element
      · -- the last request takes what is left
        have hmin : (if keep < element then keep else element) = keep := by
          split <;> omega
        obtain ⟨hget, hinv'⟩ := h.getLast hinv hkeep hdvd (by omega)
        rw [hmin, hget, elements_of_le hpos hkeep hlast, numTiles_of_le hpos hkeep hlast, hfin,
          Nat.mod_eq_of_lt hlt]
        show (1 < fuel + 1 → (getAll element fin fuel (s.take c) fin (keep - keep)).isSome) ∧
          ∀ s', getAll element fin fuel (s.take c) fin (keep - keep) = some s' → _
        cases fuel with
        | zero => exact ⟨fun hn => absurd hn (Nat.lt_irrefl 1), nofun⟩
        | succ fuel =>
            rw [getAll, if_neg (Nat.lt_irrefl fin)]
            refine ⟨fun _ => rfl, fun s' hs => ?_⟩
            obtain rfl := Option.some.inj hs
            exact ⟨_, hinv', List.Perm.refl _⟩
      · rw [not_le] at hlast
        obtain ⟨hget, hinv', hrest⟩ :=
          h.getElement hinv hpos hunit hlast (by omega)
        rw [if_neg (not_lt.mpr hlast.le), hget, elements_of_lt hpos hlast,
          numTiles_of_lt hpos hlast, Nat.mod_eq_of_lt (by omega)]
        obtain ⟨hsome, hall⟩ := ih hrest hinv' (Nat.sub_pos_of_lt hlast)
          (Nat.dvd_sub hdvd hunit) (by omega)
        refine ⟨fun hn => hsome (Nat.lt_of_succ_lt_succ hn), fun s' hs => ?_⟩
        obtain ⟨live', hlive', hperm⟩ := hall s' hs
        refine ⟨live', hlive', hperm.trans ?_⟩
        exact List.perm_middle

/-- Otherwise the last request exits or waits. -/
theorem Rest.takeAll_eq_none (fuel : ℕ) (h : Rest base total s used c pos keep)
    (hinv : Inv base total ⟨s, live⟩) (hpos : 0 < element) (hunit : 8 ∣ element)
    (hmax : element ≤ 2 ^ 64 - 8) (hdvd : ¬ 8 ∣ keep) (hfin : pos + keep = fin)
    (hlt : fin < 2 ^ 64) : getAll element fin fuel s pos keep = none := by
  induction fuel generalizing s used c pos keep live with
  | zero => rfl
  | succ fuel ih =>
      have hkeep : 0 < keep := Nat.pos_of_ne_zero fun hzero => hdvd (hzero ▸ Nat.dvd_zero 8)
      have hbefore : pos < fin := by omega
      rw [getAll, if_pos hbefore]
      dsimp only
      by_cases hlast : keep < element
      · have hround := lt_roundSize hdvd (by omega)
        rw [if_pos hlast, h.getWorkPos hkeep, if_neg (not_le.mpr hround)]
        rfl
      · have hne : element ≠ keep := fun heq => hdvd (heq ▸ hunit)
        have hmore : element < keep := lt_of_le_of_ne (not_lt.mp hlast) hne
        obtain ⟨hget, hinv', hrest⟩ :=
          h.getElement hinv hpos hunit hmore (by omega)
        rw [if_neg hlast, hget, Nat.mod_eq_of_lt (by omega)]
        refine ih hrest hinv' (fun hdvd' => hdvd ?_) (by omega)
        have hsum := Nat.dvd_add hdvd' hunit
        rw [Nat.sub_add_cancel hmore.le] at hsum
        exact hsum

/-! ## The thread -/

/-- Zeros in two neighbouring ranges. -/
theorem memset_memset (mem : Bytes) (pos n m : ℕ) :
    memset (memset mem pos n) (pos + n) m = memset mem pos (n + m) := by
  funext a
  unfold memset
  by_cases hfirst : pos ≤ a ∧ a < pos + n
  · rw [if_neg (by omega), if_pos hfirst, if_pos (by omega)]
  · rw [if_neg hfirst]
    by_cases hsecond : pos + n ≤ a ∧ a < pos + n + m
    · rw [if_pos hsecond, if_pos (by omega)]
    · rw [if_neg hsecond, if_neg (by omega)]

/-- No block of the whole buffer can be freed. -/
theorem Whole.freeWorkPos_eq_none (h : Whole base total s) (ptr : ℕ) :
    s.freeWorkPos ptr = none := by
  unfold Segments.freeWorkPos Segments.findSegment Segments.fuel
  rw [h.first, search]
  by_cases hptr : ptr ≤ s.ptr 0
  · rw [if_pos (decide_eq_true hptr)]
    by_cases heq : s.ptr 0 = ptr
    · show ((some 0).filter fun curr => decide (s.ptr curr = ptr)).bind _ = none
      rw [Option.filter_some, if_pos (decide_eq_true heq)]
      show (if s.isFree 0 = true then none else s.release 0) = none
      rw [if_pos h.isFree]
    · show ((some 0).filter fun curr => decide (s.ptr curr = ptr)).bind _ = none
      rw [Option.filter_some, if_neg (by simpa using heq)]
      rfl
  · rw [if_neg (by simpa using hptr), h.next]
    cases s.brk with
    | zero => rfl
    | succ n => rfl

/-- The free of a live block. -/
theorem Inv.freeWorkPos {ptr : ℕ} (h : Inv base total ⟨s, live⟩) (hptr : ptr ∈ live.map Block.ptr) :
    ∃ s', s.freeWorkPos ptr = some s' ∧
      Inv base total ⟨s', live.filter fun b => b.ptr ≠ ptr⟩ := by
  obtain ⟨t, hstep, hinv, hlive⟩ := h.free hptr
  simp only [WorkBuffer.step] at hstep
  rw [if_pos hptr] at hstep
  obtain ⟨segs, hfree, rfl⟩ := Option.map_eq_some_iff.mp hstep
  exact ⟨segs, hfree, hinv⟩

/-- What is live when one of the blocks is freed. -/
theorem perm_filter {ptr : ℕ} {ptrs : List ℕ} (h : (live.map Block.ptr).Perm (ptr :: ptrs))
    (hnodup : (ptr :: ptrs).Nodup) :
    ((live.filter fun b => b.ptr ≠ ptr).map Block.ptr).Perm ptrs := by
  have hfilter := h.filter fun q => decide (q ≠ ptr)
  have hself : ptrs.filter (fun q => decide (q ≠ ptr)) = ptrs := by
    refine List.filter_eq_self.mpr fun q hq => decide_eq_true ?_
    exact ne_of_mem_of_not_mem hq (List.nodup_cons.mp hnodup).1
  rw [List.filter_cons_of_neg (by simp), hself, List.filter_map] at hfilter
  exact hfilter

/-- The loop of the thread over the elements from `pos` on, which are live. When the address after
the last step does not overflow, it frees them all, and otherwise it does not end well. -/
theorem memsetAll_spec (mem : Bytes) (fuel : ℕ) (hinv : Inv base total ⟨s, live⟩)
    (hperm : (live.map Block.ptr).Perm (elements element pos keep)) (hpos : 0 < element)
    (hmax : element < 2 ^ 64) (hkeep : 0 < keep) (hfin : pos + keep = fin) (hlt : fin < 2 ^ 64) :
    (pos + numTiles keep element * element < 2 ^ 64 → numTiles keep element < fuel →
      ∃ s', memsetAll element fin fuel s mem pos keep = some (s', memset mem pos keep) ∧
        Inv base total ⟨s', []⟩) ∧
      (2 ^ 64 ≤ pos + numTiles keep element * element →
        memsetAll element fin fuel s mem pos keep = none) := by
  induction fuel generalizing s live mem pos keep with
  | zero => exact ⟨fun _ hn => absurd hn (Nat.not_lt_zero _), fun _ => rfl⟩
  | succ fuel ih =>
      have hbefore : pos < fin := by omega
      have hnodup : (elements element pos keep).Nodup := by
        obtain ⟨_, _, _, hheld⟩ := hinv
        exact hperm.nodup_iff.mp hheld.nodup
      rw [memsetAll, if_pos hbefore]
      dsimp only
      by_cases hlast : keep ≤ element
      · have hmin : (if keep < element then keep else element) = keep := by
          split <;> omega
        rw [elements_of_le hpos hkeep hlast] at hperm hnodup
        obtain ⟨s', hfree, hinv'⟩ := hinv.freeWorkPos (hperm.mem_iff.mpr List.mem_cons_self)
        have hnil := List.map_eq_nil_iff.mp (perm_filter hperm hnodup).eq_nil
        rw [hnil] at hinv'
        rw [hmin, hfree, numTiles_of_le hpos hkeep hlast, Nat.one_mul]
        show (_ → _ → ∃ s'', memsetAll element fin fuel s' _ _ _ = _ ∧ _) ∧
          (_ → memsetAll element fin fuel s' _ _ _ = none)
        constructor
        · intro hover hfuel
          cases fuel with
          | zero => exact absurd hfuel (Nat.lt_irrefl 1)
          | succ fuel =>
              rw [Nat.mod_eq_of_lt hover, memsetAll, if_neg (by omega)]
              exact ⟨s', rfl, hinv'⟩
        · -- the address overflows, and all segments are free
          intro hover
          cases fuel with
          | zero => rfl
          | succ fuel =>
              have hwhole := hinv'.whole rfl
              have hwrap : (pos + element) % 2 ^ 64 < fin := by
                omega
              rw [memsetAll, if_pos hwrap]
              dsimp only
              rw [hwhole.freeWorkPos_eq_none]
              rfl
      · rw [not_le] at hlast
        rw [elements_of_lt hpos hlast] at hperm hnodup
        obtain ⟨s', hfree, hinv'⟩ := hinv.freeWorkPos (hperm.mem_iff.mpr List.mem_cons_self)
        have hkeep' : (keep + 2 ^ 64 - element) % 2 ^ 64 = keep - element := by omega
        have hstep : (pos + element) % 2 ^ 64 = pos + element :=
          Nat.mod_eq_of_lt (by omega)
        have hsum : pos + (numTiles (keep - element) element + 1) * element =
            pos + element + numTiles (keep - element) element * element := by
          rw [Nat.succ_mul]
          omega
        rw [if_neg (not_lt.mpr hlast.le), hfree, numTiles_of_lt hpos hlast, hsum]
        show (_ → _ → ∃ s'', memsetAll element fin fuel s' _ _ _ = _ ∧ _) ∧
          (_ → memsetAll element fin fuel s' _ _ _ = none)
        rw [hkeep', hstep]
        obtain ⟨hsome, hnone⟩ := ih (memset mem pos element) hinv'
          (perm_filter hperm hnodup) (Nat.sub_pos_of_lt hlast) (by omega)
        refine ⟨fun hover hfuel => ?_, hnone⟩
        obtain ⟨s'', hall, hinv''⟩ := hsome hover (Nat.lt_of_succ_lt_succ hfuel)
        rw [memset_memset, Nat.add_sub_cancel' hlast.le] at hall
        exact ⟨s'', hall, hinv''⟩

/-! ## The registration -/

/-- The segment of the registration. -/
theorem rest_register (base total : ℕ) :
    Rest base total (.register base total) [] 0 base total := by
  obtain ⟨_, refs, hsegs, _⟩ := inv_register base total
  have hpath : IsPath (fun _ => none) (some 0) refs none := hsegs.layout.segs.forward
  obtain rfl : refs = [0] := hpath.unique ⟨rfl, rfl⟩
  exact ⟨hsegs, nofun, rfl, rfl, rfl⟩

/-- A request of a size up to that of the whole buffer succeeds. -/
theorem Inv.getWorkPos_whole (h : Inv base total ⟨s, []⟩) (hdvd : 8 ∣ total) (hlt : total < 2 ^ 64)
    {n : ℕ} (hpos : 0 < n) (hn : n ≤ total) : ∃ s' curr, s.getWorkPos n = some (s', some curr) := by
  have hwhole := h.whole rfl
  obtain ⟨_, refs, hsegs, _⟩ := h
  have hpath : IsPath s.next (some 0) refs none := hwhole.first ▸ hsegs.layout.segs.forward
  obtain rfl : refs = [0] := hpath.unique ⟨rfl, hwhole.next⟩
  have hrest : Rest base total s [] 0 base total :=
    ⟨hsegs, nofun, hwhole.isFree, hwhole.ptr, hwhole.size⟩
  have hround : roundSize n ≤ total := by
    unfold roundSize
    omega
  exact ⟨_, 0, (hrest.getWorkPos hpos).trans (if_pos hround)⟩

theorem elementSize_pos : 0 < elementSize := by
  decide

theorem dvd_elementSize : 8 ∣ elementSize := by
  decide

theorem elementSize_le : elementSize ≤ 2 ^ 64 - 8 := by
  decide

/-- For a buffer inside of the address space, the registration does what it is for if and only if
the size is a multiple of eight and the address behind the last element does not overflow. -/
theorem registers_iff {ptr size : ℕ} (hsize : 1 ≤ size) (hfin : ptr + size < 2 ^ 64) :
    Registers mem ptr size ↔
      8 ∣ size ∧ ptr + (size + elementSize - 1) / elementSize * elementSize < 2 ^ 64 := by
  have hrest := rest_register ptr size
  have hinv := inv_register ptr size
  have hmod : (ptr + size) % 2 ^ 64 = ptr + size := Nat.mod_eq_of_lt hfin
  have hmax : elementSize < 2 ^ 64 := elementSize_le.trans_lt (by decide)
  show _ ↔ 8 ∣ size ∧ ptr + numTiles size elementSize * elementSize < 2 ^ 64
  constructor
  · rintro ⟨fuel, s, mem', hreg, -⟩
    unfold registerWorkBuffer at hreg
    rw [hmod] at hreg
    obtain ⟨taken, hgot, hset⟩ := Option.bind_eq_some_iff.mp hreg
    have hdvd : 8 ∣ size := by
      by_contra hdvd
      have hnone := hrest.takeAll_eq_none fuel hinv elementSize_pos dvd_elementSize
        elementSize_le hdvd rfl hfin
      rw [hnone] at hgot
      cases hgot
    refine ⟨hdvd, not_le.mp fun hover => ?_⟩
    obtain ⟨_, hall⟩ := hrest.takeAll fuel hinv elementSize_pos dvd_elementSize hsize hdvd
      rfl hfin
    obtain ⟨live, hlive, hperm⟩ := hall taken hgot
    rw [List.map_nil, List.append_nil] at hperm
    rw [(memsetAll_spec mem fuel hlive hperm elementSize_pos hmax hsize rfl hfin).2 hover] at hset
    cases hset
  · rintro ⟨hdvd, hover⟩
    let fuel := numTiles size elementSize + 1
    obtain ⟨hsome, hall⟩ := hrest.takeAll fuel hinv elementSize_pos
      dvd_elementSize hsize hdvd rfl hfin
    obtain ⟨taken, hgot⟩ := Option.isSome_iff_exists.mp (hsome (Nat.lt_succ_self _))
    obtain ⟨live, hlive, hperm⟩ := hall taken hgot
    rw [List.map_nil, List.append_nil] at hperm
    obtain ⟨s, hset, hinv'⟩ := (memsetAll_spec mem fuel hlive hperm
      elementSize_pos hmax hsize rfl hfin).1 hover (Nat.lt_succ_self _)
    refine ⟨fuel, s, _, ?_, rfl, hinv'.whole rfl, fun n hpos hn => ?_⟩
    · unfold registerWorkBuffer
      rw [hmod]
      exact Option.bind_eq_some_iff.mpr ⟨taken, hgot, hset⟩
    · exact hinv'.getWorkPos_whole hdvd (by omega) hpos hn

/-- Three elements, of which the last one is smaller. -/
theorem registers_iff_threeElements : Registers (fun _ => 1) 4096 (2 * elementSize + 4096) :=
  (registers_iff (by decide) (by decide)).mpr (by decide)

/-- The only request for a buffer of five bytes is rounded up to eight, and exits. -/
theorem not_registers :
    ¬ ∀ (mem : Bytes) (ptr size : ℕ), 1 ≤ size → ptr + size < 2 ^ 64 →
      Registers mem ptr size := by
  intro hall
  obtain ⟨fuel, s, mem, hreg, -⟩ := hall (fun _ => 1) 4096 5 (by decide) (by decide)
  unfold registerWorkBuffer at hreg
  obtain ⟨taken, hgot, -⟩ := Option.bind_eq_some_iff.mp hreg
  cases fuel with
  | zero => cases hgot
  | succ fuel =>
      rw [getAll] at hgot
      have hnone : (Segments.register 4096 5).getWorkPos 5 = none := by decide
      have hmin : (if 5 < elementSize then 5 else elementSize) = 5 := by decide
      rw [if_pos (by decide)] at hgot
      dsimp only at hgot
      rw [hmin, hnone] at hgot
      cases hgot

end Xkblas.Memory.WorkBuffer
