import Mathlib.Data.List.ProdSigma
import Mathlib.Data.Nat.Bitwise
import Xkblas.Library.BitMask
import Xkblas.Library.CheckedTable
import Xkblas.Library.ColumnMajor
import Xkblas.Library.MachineInt

/-!
# The topology of the devices

The plugin asks the driver once for the performance rank of every pair of devices
(`getGpuTopo`), and keeps for every device and every rank the mask of the devices with such a link.
When a selected device is committed (`deviceCommit`), it makes the affinity masks of its locality
domain from these, with the memory ids of the selected devices in place of their CUDA numbers.

Operations of the type `int`, shifts and accesses to the tables are `none` where they are
undefined. An assertion that fails is `none`, too.
-/

namespace Xkblas.Offload.Topology

open Library

/-- What the driver reports. -/
structure Driver where
  /-- `cudaGetDeviceCount` -/
  deviceCount : ℕ
  /-- `cudaDevP2PAttrAccessSupported` and `cudaDeviceCanAccessPeer` -/
  accessSupported : ℕ → ℕ → Bool
  /-- `cudaDevP2PAttrPerformanceRank` -/
  perfRank : ℕ → ℕ → ℕ
  /-- `cudaDeviceEnablePeerAccess` succeeds, or the access is enabled already. -/
  enablePeerAccess : ℕ → ℕ → Bool

/-- The tables of the plugin. -/
structure Topo where
  perfTopo : Table ℤ
  countPerfrank : ℤ
  perfDevice : Table ℕ

/-- The variables of the loops that ask for the links. -/
structure Scan where
  perfTopo : Table ℤ
  minPerf : ℤ
  maxPerf : ℤ

/-- `1UL << n` -/
def shiftLong (n : ℕ) : Option ℕ :=
  if n < 64 then some (2 ^ n) else none

/-- `1 << n` of the type `int`, as a mask of 64 bits. The sign is extended. -/
def shiftInt (n : ℕ) : Option ℕ :=
  if n < 31 then some (2 ^ n) else if n = 31 then some (2 ^ 64 - 2 ^ 31) else none

/-- The pairs of devices in the order of the loops. -/
def devicePairs (drv : Driver) : List (ℕ × ℕ) :=
  List.range drv.deviceCount ×ˢ List.range drv.deviceCount

/-- The link of two devices is asked for. -/
def enumerateLink (drv : Driver) (s : Scan) (p : ℕ × ℕ) : Option Scan :=
  let i : ℤ := (p.1 * drv.deviceCount + p.2 : ℕ)
  if p.1 = p.2 then
    (s.perfTopo.write i 0).map fun t => { s with perfTopo := t }
  else if drv.accessSupported p.1 p.2 = true then
    let perfRank : ℤ := drv.perfRank p.1 p.2
    (checkedInt (1 + perfRank)).bind fun value =>
      (s.perfTopo.write i value).map fun t =>
        { perfTopo := t
          minPerf := if s.minPerf < perfRank then perfRank else s.minPerf
          maxPerf := if perfRank < s.maxPerf then perfRank else s.maxPerf }
  else
    -- patched when the worst rank is known
    (s.perfTopo.write i (-1)).map fun t => { s with perfTopo := t }

/-- The entries without a link get the last rank. -/
def patchLink (minPerf : ℤ) (t : Table ℤ) (i : ℕ) : Option (Table ℤ) :=
  (t.read i).bind fun rank =>
    if rank = -1 then (checkedInt (minPerf + 1)).bind (t.write i) else some t

/-- The device `p.2` is added to its class of `p.1`. -/
def classify (drv : Driver) (perfTopo : Table ℤ) (countPerfrank : ℤ) (t : Table ℕ) (p : ℕ × ℕ) :
    Option (Table ℕ) :=
  (perfTopo.read (p.1 * drv.deviceCount + p.2 : ℕ)).bind fun rank =>
    let i := p.1 * countPerfrank + rank
    if 0 ≤ p.1 * drv.deviceCount + rank ∧ i ≤ drv.deviceCount * countPerfrank then
      (shiftLong p.2).bind (t.orCell i)
    else none

/-- The tables of `_kaapi_get_gpu_topo`. -/
def getGpuTopo (drv : Driver) : Option Topo :=
  let n := drv.deviceCount
  ((devicePairs drv).foldlM (enumerateLink drv) ⟨.malloc (n * n), 0, 0⟩).bind fun scan =>
  (checkedInt (scan.minPerf + 1)).bind fun minPerf =>
  (checkedInt (minPerf - scan.maxPerf)).bind fun perfs =>
  (checkedInt (perfs + 2)).bind fun countPerfrank =>
  ((List.range (n * n)).foldlM (patchLink minPerf) scan.perfTopo).bind fun perfTopo =>
  (checkedInt (n * countPerfrank)).bind fun size =>
  ((List.range size.toNat).foldlM Table.zeroCell (.malloc size.toNat)).bind fun zeros =>
  ((devicePairs drv).foldlM (classify drv perfTopo countPerfrank) zeros).map fun perfDevice =>
    ⟨perfTopo, countPerfrank, perfDevice⟩

/-- The CUDA numbers of the selected devices, `kaapi_device_ids`. -/
def deviceIds : ℕ → BitVec 32 → Option (List ℕ)
  | 0, _ => some []
  | ngpus + 1, gpuset =>
      if BitMask.ffs gpuset = 0 then none
      else
        let idx := BitMask.ffs gpuset - 1
        (deviceIds ngpus (BitMask.clear gpuset idx)).map (idx :: ·)

/-- The affinity masks of a device and of its locality domain. -/
structure Affinity where
  device : Table ℕ
  ld : Table ℕ

/-- The memory `lid` is added to a class of the device and of its domain. -/
def Affinity.add (a : Affinity) (i : ℤ) (lid : ℕ) : Option Affinity :=
  (shiftLong lid).bind fun bit =>
    (a.device.orCell i bit).bind fun device =>
      (a.ld.orCell i bit).map fun ld => ⟨device, ld⟩

/-- The body of the loop over the selected devices, for the device `self`. -/
def commitPeer (drv : Driver) (t : Topo) (ids : List ℕ) (lid : ℕ → ℕ) (self : ℕ) (a : Affinity)
    (j : ℕ) : Option Affinity :=
  if j ≠ self then
    ids[self]?.bind fun device1 =>
    ids[j]?.bind fun device2 =>
    if drv.accessSupported device1 device2 = true ∧ drv.enablePeerAccess device1 device2 = true then
      (t.perfTopo.read (device1 * drv.deviceCount + device2 : ℕ)).bind fun rank =>
      (t.perfDevice.read (device1 * t.countPerfrank + rank)).bind fun mask =>
      (shiftInt device2).bind fun bit =>
      if mask &&& bit ≠ 0 then a.add (rank - 1) (lid j) else some a
    else some a
  else a.add 0 (lid j)

/-- The two arrays of the commit, with zeros. -/
def zeroAffinity (a : Affinity) (i : ℕ) : Option Affinity :=
  (a.ld.zeroCell i).bind fun ld => (a.device.zeroCell i).map fun device => ⟨device, ld⟩

/-- The affinity of the selected device `self` after its commit. -/
def deviceCommit (drv : Driver) (t : Topo) (ids : List ℕ) (lid : ℕ → ℕ) (self : ℕ) :
    Option Affinity :=
  let perfrank := (t.countPerfrank - 1).toNat
  ((List.range perfrank).foldlM zeroAffinity ⟨.malloc perfrank, .malloc perfrank⟩).bind fun zeros =>
    (List.range ids.length).foldlM (commitPeer drv t ids lid self) zeros

end Xkblas.Offload.Topology
