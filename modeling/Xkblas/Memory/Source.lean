import Xkblas.Library.BitMask

/-!
# The source of a copy

`_kaapi_get_source_lid` chooses the replica from which a data is copied to a device. It prefers a
valid replica of a device, then one that is under transfer to a device, and the host is the last
choice. The device of the destination tells which one it prefers, by its affinity table. Without
concurrent changes the function ends at its first pass.
-/

namespace Xkblas.Memory.Source

open Library.BitMask

/-- `KAAPI_MEMORY_VALUE_TYPE`, a bit for each of the `KAAPI_MEMORY_MAX_NODES` locality domains. -/
abbrev Bits := BitVec 16

/-- The locality domain of the host. -/
def host : ℕ := 0

/-- The bits of a `kaapi_metadata_info_t`. -/
structure Metadata where
  valid : Bits
  xfer : Bits

/-- The generators behind `rand` and `rand_r`, with their state. -/
structure Random (σ : Type) where
  rand : σ → ℕ × σ
  rand_r : σ → ℕ × σ

/-- The two functions `f_get_source`. `affinity` has the devices of each rank. -/
inductive MemoryDevice where
  | host
  | cuda (affinity : List (BitVec 64))

/-- A locality domain from the result of `KAAPI_MEMORY_FFS`, and `(uint16_t)-1` from 0. -/
def lidOfFfs : ℕ → Option ℕ
  | 0 => none
  | index + 1 => some index

section

variable {σ : Type}

/-- `_kaapi_get_random_bit1`. -/
def getRandomBit1 (random : Random σ) (value : Bits) (seed : σ) : ℕ × σ :=
  if value = 0#16 then (0, seed)
  else
    let (rand, seed) := random.rand_r seed
    (nthOne (rand % popcount value) value, seed)

/-- The first rank that has one of the devices, and the device. -/
def rankSource (bits : Bits) : List (BitVec 64) → Option ℕ
  | [] => none
  | affinity :: rest =>
      let lid := ffs (bits &&& affinity.setWidth 16)
      if lid ≠ 0 then some (lid - 1) else rankSource bits rest

/-- `cuda_get_source`. -/
def cudaGetSource (random : Random σ) (affinity : List (BitVec 64)) (valid xfer : Bits) (seed : σ) :
    Option ℕ × σ :=
  match rankSource (if valid ≠ 0#16 then valid else xfer) affinity with
  | some lid => (some lid, seed)
  | none =>
      if valid ≠ 0#16 then
        let (index, seed) := getRandomBit1 random valid seed
        (lidOfFfs index, seed)
      else if xfer ≠ 0#16 then
        let (index, seed) := getRandomBit1 random xfer seed
        (lidOfFfs index, seed)
      else (none, seed)

/-- `host_get_source`. -/
def hostGetSource (valid xfer : Bits) : Option ℕ :=
  lidOfFfs (if valid ≠ 0#16 then ffs valid else ffs xfer)

/-- `memdev->f_get_source`. -/
def MemoryDevice.getSource (random : Random σ) (dev : MemoryDevice) (valid xfer : Bits) (seed : σ) :
    Option ℕ × σ :=
  match dev with
  | .host => (hostGetSource valid xfer, seed)
  | .cuda affinity => cudaGetSource random affinity valid xfer seed

/-- The loop over the valid replicas. It ends with a source, or without one. -/
def validLoop (random : Random σ) (dev : MemoryDevice) (mdi : Metadata) (xfer : Bits) :
    ℕ → Bits → σ → Option (Option ℕ × σ)
  | 0, _, _ => none
  | fuel + 1, valid, seed =>
      if valid = 0#16 then some (none, seed)
      else
        match dev.getSource random valid xfer seed with
        | (none, seed) => some (none, seed)
        | (some lid, seed) =>
            if mdi.valid.getLsbD lid then some (some lid, seed)
            else validLoop random dev mdi xfer fuel (clear valid lid) seed

/-- The loop over the replicas under transfer. It ends with a source, which is the host if no
replica is left, or it starts again. -/
def xferLoop (random : Random σ) (dev : MemoryDevice) (mdi : Metadata) :
    ℕ → Bits → σ → Option (Option ℕ × σ)
  | 0, _, _ => none
  | fuel + 1, xfer, seed =>
      if xfer = 0#16 then some (some host, seed)
      else
        match dev.getSource random 0#16 xfer seed with
        | (none, seed) => some (none, seed)
        | (some lid, seed) =>
            if mdi.xfer.getLsbD lid ∨ mdi.valid.getLsbD lid then some (some lid, seed)
            else xferLoop random dev mdi fuel (clear xfer lid) seed

/-- The first `rnd` bits are skipped. -/
def skip : ℕ → Bits → Bits
  | 0, valid => valid
  | rnd + 1, valid => skip rnd (clear valid (ffs valid - 1))

/-- The loop at `redo`. It ends with a source, or it starts again. -/
def redoLoop (mdi : Metadata) : ℕ → Bits → Option (Option ℕ)
  | 0, _ => none
  | fuel + 1, valid =>
      if ffs valid = 0 then some none
      else
        let lid := ffs valid - 1
        if mdi.valid.getLsbD lid then some (some lid) else redoLoop mdi fuel (clear valid lid)

/-- The end of a call: the source with the selected destination and the generator, a division by
zero, or not yet. -/
inductive Outcome (σ : Type) where
  | source (lid selDest : ℕ) (seed : σ)
  | divisionByZero
  | running
  deriving DecidableEq

/-- `_kaapi_get_source_lid`. The device of a node that is not registered is null. -/
def getSourceLid (random : Random σ) (nodes : ℕ → Option MemoryDevice) (mdi : Metadata)
    (lidDest : ℕ) : ℕ → σ → Outcome σ
  | 0, _ => .running
  | fuel + 1, seed =>
      let valid := clear mdi.valid host
      let xfer := clear mdi.xfer host
      if valid = 0#16 ∧ xfer = 0#16 then .source host lidDest seed
      else
        match nodes lidDest with
        | some dev =>
            match validLoop random dev mdi xfer (fuel + 1) valid seed with
            | none => .running
            | some (some lid, seed) => .source lid lidDest seed
            | some (none, seed) =>
                match xferLoop random dev mdi (fuel + 1) xfer seed with
                | none => .running
                | some (some lid, seed) => .source lid lidDest seed
                | some (none, seed) => getSourceLid random nodes mdi lidDest fuel seed
        | none =>
            if popcount valid = 0 then .divisionByZero
            else
              let (rnd, seed) := random.rand seed
              match redoLoop mdi (fuel + 1) (skip (rnd % popcount valid) valid) with
              | none => .running
              | some (some lid) => .source lid lidDest seed
              | some none => getSourceLid random nodes mdi lidDest fuel seed

end

/-! ## What the devices choose -/

variable {σ : Type} {random : Random σ} {bits : Bits} {lid : ℕ} {mdi : Metadata}

/-- The device of a rank is one of the bits. -/
theorem getLsbD_rankSource {affinity : List (BitVec 64)}
    (h : rankSource bits affinity = some lid) : bits.getLsbD lid = true := by
  induction affinity with
  | nil => cases h
  | cons rank rest ih =>
      simp only [rankSource] at h
      split at h
      case isTrue hne =>
        obtain rfl := Option.some.inj h
        have hbits : bits &&& rank.setWidth 16 ≠ 0#16 := fun hzero =>
          hne (ffs_eq_zero_iff.mpr hzero)
        have hlow := getLsbD_ffs hbits
        rw [BitVec.getLsbD_and, Bool.and_eq_true] at hlow
        exact hlow.1
      case isFalse => exact ih h

/-- A random bit of a word that is not 0. -/
theorem getRandomBit1_spec (random : Random σ) (h : bits ≠ 0#16) (seed : σ) :
    ∃ lid seed', getRandomBit1 random bits seed = (lid + 1, seed') ∧ bits.getLsbD lid = true := by
  have hlt : (random.rand_r seed).1 % popcount bits < popcount bits :=
    Nat.mod_lt _ (popcount_pos_iff.mpr h)
  obtain ⟨hone, hpos⟩ := getLsbD_nthOne hlt
  refine ⟨_, (random.rand_r seed).2, ?_, hone⟩
  unfold getRandomBit1
  rw [if_neg h, Nat.sub_add_cancel hpos]

/-- `f_get_source` gives one of the valid bits, or one of the others if there is none. -/
theorem getSource_spec (random : Random σ) (dev : MemoryDevice) (valid xfer : Bits) (seed : σ)
    (hbits : (if valid ≠ 0#16 then valid else xfer) = bits) (h : bits ≠ 0#16) :
    ∃ lid seed', dev.getSource random valid xfer seed = (some lid, seed') ∧
      bits.getLsbD lid = true := by
  cases dev with
  | host =>
      refine ⟨ffs bits - 1, seed, ?_, getLsbD_ffs h⟩
      have hffs : (if valid ≠ 0#16 then ffs valid else ffs xfer) = ffs bits := by
        rw [← hbits, apply_ite ffs]
      have hpos : ffs bits - 1 + 1 = ffs bits :=
        Nat.sub_add_cancel (Nat.pos_of_ne_zero fun hzero => h (ffs_eq_zero_iff.mp hzero))
      show (lidOfFfs (if valid ≠ 0#16 then ffs valid else ffs xfer), seed) = _
      rw [hffs, ← hpos]
      rfl
  | cuda affinity =>
      show ∃ lid seed', cudaGetSource random affinity valid xfer seed = (some lid, seed') ∧ _
      unfold cudaGetSource
      rw [hbits]
      cases hrank : rankSource bits affinity with
      | some lid => exact ⟨lid, seed, rfl, getLsbD_rankSource hrank⟩
      | none =>
          obtain ⟨lid, seed', hrandom, hlid⟩ := getRandomBit1_spec random h seed
          refine ⟨lid, seed', ?_, hlid⟩
          by_cases hvalid : valid ≠ 0#16
          · rw [if_pos hvalid] at hbits
            simp only [hbits, ne_eq, h, not_false_eq_true, if_true, hrandom]
            rfl
          · rw [if_neg hvalid] at hbits
            simp only [hvalid, hbits, ne_eq, h, not_false_eq_true, if_true, if_false, hrandom]
            rfl

/-! ## The choice -/

/-- The choice of a source: a replica that is valid or under transfer, a valid one of a device if
there is one, and the destination only if there is a reason for it. -/
structure Selected (mdi : Metadata) (lidDest lid : ℕ) : Prop where
  holds : mdi.valid.getLsbD lid = true ∨ mdi.xfer.getLsbD lid = true
  device : (∃ i, i ≠ host ∧ mdi.valid.getLsbD i = true) →
    lid ≠ host ∧ mdi.valid.getLsbD lid = true
  transit : mdi.valid.getLsbD lid = false → ∀ i, i ≠ host → mdi.valid.getLsbD i = false
  host : lid = host → ∀ i, i ≠ host → mdi.valid.getLsbD i = false ∧ mdi.xfer.getLsbD i = false
  dest : lid = lidDest → mdi.valid.getLsbD lidDest = true ∨
    mdi.xfer.getLsbD lidDest = true ∧ ∀ i, i ≠ Source.host → mdi.valid.getLsbD i = false

theorem clear_host_eq_zero_iff :
    clear bits host = 0#16 ↔ ∀ i, i ≠ host → bits.getLsbD i = false := by
  rw [← not_iff_not, ← ne_eq, ne_zero_iff]
  constructor
  · rintro ⟨i, hi⟩ hall
    obtain ⟨hone, hne⟩ := getLsbD_clear.mp hi
    rw [hall i hne] at hone
    cases hone
  · intro hsome
    obtain ⟨i, hi⟩ := not_forall.mp hsome
    obtain ⟨hne, hone⟩ := Classical.not_imp.mp hi
    exact ⟨i, getLsbD_clear.mpr ⟨Bool.eq_true_of_not_eq_false hone, hne⟩⟩

/-- A valid replica of a device is a choice. -/
theorem selected_of_valid {lidDest : ℕ} (h : (clear mdi.valid host).getLsbD lid = true) :
    Selected mdi lidDest lid := by
  obtain ⟨hvalid, hne⟩ := getLsbD_clear.mp h
  refine ⟨.inl hvalid, fun _ => ⟨hne, hvalid⟩, fun hnot => ?_, fun hhost => absurd hhost hne, ?_⟩
  · rw [hvalid] at hnot
    cases hnot
  · rintro rfl
    exact .inl hvalid

/-- A replica under transfer to a device is a choice when no device is valid. -/
theorem selected_of_xfer {lidDest : ℕ} (hvalid : clear mdi.valid host = 0#16)
    (h : (clear mdi.xfer host).getLsbD lid = true) : Selected mdi lidDest lid := by
  obtain ⟨hxfer, hne⟩ := getLsbD_clear.mp h
  have hnone := clear_host_eq_zero_iff.mp hvalid
  refine ⟨.inr hxfer, ?_, fun _ => hnone, fun hhost => absurd hhost hne, ?_⟩
  · rintro ⟨i, hi, hone⟩
    rw [hnone i hi] at hone
    cases hone
  · rintro rfl
    exact .inr ⟨hxfer, hnone⟩

/-- The host is a choice when the devices have neither valid replicas nor copies under way. -/
theorem selected_host {lidDest : ℕ} (hvalid : clear mdi.valid host = 0#16)
    (hxfer : clear mdi.xfer host = 0#16)
    (h : ∃ i, mdi.valid.getLsbD i = true ∨ mdi.xfer.getLsbD i = true) :
    Selected mdi lidDest host := by
  have hnone := clear_host_eq_zero_iff.mp hvalid
  have hno := clear_host_eq_zero_iff.mp hxfer
  have hhost : mdi.valid.getLsbD host = true ∨ mdi.xfer.getLsbD host = true := by
    obtain ⟨i, hi⟩ := h
    by_cases hne : i = host
    · rwa [hne] at hi
    · rw [hnone i hne, hno i hne] at hi
      rcases hi with hi | hi <;> cases hi
  refine ⟨hhost, ?_, fun _ => hnone, fun _ i hi => ⟨hnone i hi, hno i hi⟩, ?_⟩
  · rintro ⟨i, hi, hone⟩
    rw [hnone i hi] at hone
    cases hone
  · rintro rfl
    exact hhost.imp_right fun hx => ⟨hx, hnone⟩

/-- For every metadata with a replica that is valid or under transfer and every destination with
its device, any affinity table and any generators, the function ends with a source that is a
choice. -/
theorem getSourceLid_selected (random : Random σ) (nodes : ℕ → Option MemoryDevice)
    (mdi : Metadata) (lidDest : ℕ) (dev : MemoryDevice) (seed : σ) (hdev : nodes lidDest = some dev)
    (hmdi : ∃ i, mdi.valid.getLsbD i = true ∨ mdi.xfer.getLsbD i = true) :
    ∃ lid seed', Selected mdi lidDest lid ∧
      ∀ fuel, getSourceLid random nodes mdi lidDest (fuel + 1) seed =
        .source lid lidDest seed' := by
  by_cases hvalid : clear mdi.valid host = 0#16
  · by_cases hxfer : clear mdi.xfer host = 0#16
    · refine ⟨host, seed, selected_host hvalid hxfer hmdi, fun fuel => ?_⟩
      unfold getSourceLid
      exact if_pos ⟨hvalid, hxfer⟩
    · obtain ⟨lid, seed', hsource, hlid⟩ := getSource_spec random dev 0#16 _ seed
        (if_neg (not_not_intro rfl)) hxfer
      refine ⟨lid, seed', selected_of_xfer hvalid hlid, fun fuel => ?_⟩
      have hloop : xferLoop random dev mdi (fuel + 1) (clear mdi.xfer host) seed =
          some (some lid, seed') := by
        simp only [xferLoop, hxfer, hsource, (getLsbD_clear.mp hlid).1, true_or, if_true, if_false]
      simp only [getSourceLid, hvalid, hxfer, and_false, if_false, hdev, validLoop, if_true, hloop]
  · obtain ⟨lid, seed', hsource, hlid⟩ := getSource_spec random dev _ (clear mdi.xfer host) seed
      (if_pos hvalid) hvalid
    refine ⟨lid, seed', selected_of_valid hlid, fun fuel => ?_⟩
    have hloop : validLoop random dev mdi (clear mdi.xfer host) (fuel + 1)
        (clear mdi.valid host) seed = some (some lid, seed') := by
      simp only [validLoop, hvalid, hsource, (getLsbD_clear.mp hlid).1, if_true, if_false]
    simp only [getSourceLid, hvalid, false_and, if_false, hdev, hloop]

/-- A generator that always gives 0. -/
def zeros : Random Unit where
  rand := fun seed => (0, seed)
  rand_r := fun seed => (0, seed)

/-- The host and one device, which has itself at its first rank. -/
def twoNodes : ℕ → Option MemoryDevice
  | 0 => some .host
  | 1 => some (.cuda [2#64])
  | _ => none

theorem getSourceLid_selected_toHost :
    ∃ lid seed', Selected ⟨2#16, 0#16⟩ 0 lid ∧
      ∀ fuel, getSourceLid zeros twoNodes ⟨2#16, 0#16⟩ 0 (fuel + 1) () = .source lid 0 seed' :=
  getSourceLid_selected zeros twoNodes ⟨2#16, 0#16⟩ 0 .host () rfl ⟨1, .inl rfl⟩

/-- The host is valid and a copy to the device is under way. A second fetch for the device chooses
the device itself. -/
theorem destination_selected :
    ¬ ∀ (random : Random Unit) (nodes : ℕ → Option MemoryDevice) (mdi : Metadata) (lidDest : ℕ)
      (dev : MemoryDevice), nodes lidDest = some dev →
      (∃ i, mdi.valid.getLsbD i = true ∨ mdi.xfer.getLsbD i = true) →
      ∃ lid seed', Selected mdi lidDest lid ∧
        (lid = lidDest → ∀ i, i ≠ lidDest → mdi.valid.getLsbD i = false) ∧
        ∀ fuel, getSourceLid random nodes mdi lidDest (fuel + 1) () =
          .source lid lidDest seed' := by
  intro hall
  obtain ⟨lid, seed', _, hdest, hsource⟩ :=
    hall zeros twoNodes ⟨1#16, 2#16⟩ 1 (.cuda [2#64]) rfl ⟨0, .inl rfl⟩
  have hself : getSourceLid zeros twoNodes ⟨1#16, 2#16⟩ 1 1 () = .source 1 1 () := by decide
  have hlid : lid = 1 := by
    have heq := (hsource 0).symm.trans hself
    injection heq
  exact nomatch hdest hlid 0 (by decide)

end Xkblas.Memory.Source
