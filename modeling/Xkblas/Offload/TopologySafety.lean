import Xkblas.Offload.Topology

/-!
# What the topology says

`Meets` is the statement about the plugin: `getGpuTopo` makes for each device a partition of all
devices into classes, and after the commit of a selected device its affinity masks hold itself and
the selected peers, each in the class of its performance rank. The loops are followed with one
invariant each (`ScanInv`, `Patched`, `ClassInv`, `AffinityInv`).

The operations of the type `int` overflow when a rank is too large, and a shift by a memory id from
64 on is undefined. `topology_iff` says that nothing else goes wrong.
-/

namespace Xkblas.Offload.Topology

open Library

variable {drv : Driver} {run : List (ℕ × ℕ)} {s s' : Scan} {p : ℕ × ℕ} {w d e : ℕ}

/-! ## The links -/

/-- The driver reports a link between two different devices. -/
def Driver.Linked (drv : Driver) (d e : ℕ) : Prop :=
  d ≠ e ∧ drv.accessSupported d e = true

instance (drv : Driver) (d e : ℕ) : Decidable (drv.Linked d e) :=
  inferInstanceAs (Decidable (_ ∧ _))

/-- What the loops over the devices store for a pair. -/
def Driver.entry (drv : Driver) (d e : ℕ) : ℤ :=
  if d = e then 0 else if drv.accessSupported d e = true then 1 + (drv.perfRank d e : ℤ) else -1

/-- The class of `e` for `d` when `w` is the worst rank. -/
def Driver.rank (drv : Driver) (w d e : ℕ) : ℕ :=
  if d = e then 0 else if drv.accessSupported d e = true then 1 + drv.perfRank d e else w + 2

/-- The worst rank of the links of some pairs, and 0 if there is none. -/
structure IsWorst (drv : Driver) (run : List (ℕ × ℕ)) (w : ℕ) : Prop where
  le : ∀ p ∈ run, drv.Linked p.1 p.2 → drv.perfRank p.1 p.2 ≤ w
  attained : w = 0 ∨ ∃ p ∈ run, drv.Linked p.1 p.2 ∧ drv.perfRank p.1 p.2 = w

theorem IsWorst.append_linked (h : IsWorst drv run w) (hlinked : drv.Linked p.1 p.2) :
    IsWorst drv (run ++ [p]) (max w (drv.perfRank p.1 p.2)) := by
  refine ⟨fun q hq hq' => ?_, ?_⟩
  · rcases List.mem_append.mp hq with hold | hnew
    · exact (h.le q hold hq').trans (le_max_left _ _)
    · rw [List.mem_singleton.mp hnew]
      exact le_max_right _ _
  · rcases Nat.le_total (drv.perfRank p.1 p.2) w with hle | hle
    · rw [max_eq_left hle]
      exact h.attained.imp_right fun ⟨q, hq, hq'⟩ => ⟨q, List.mem_append_left _ hq, hq'⟩
    · rw [max_eq_right hle]
      exact .inr ⟨p, List.mem_append_right _ (List.mem_singleton_self p), hlinked, rfl⟩

theorem IsWorst.append_other (h : IsWorst drv run w) (hother : ¬ drv.Linked p.1 p.2) :
    IsWorst drv (run ++ [p]) w := by
  refine ⟨fun q hq hq' => ?_, ?_⟩
  · rcases List.mem_append.mp hq with hold | hnew
    · exact h.le q hold hq'
    · rw [List.mem_singleton.mp hnew] at hq'
      exact absurd hq' hother
  · exact h.attained.imp_right fun ⟨q, hq, hq'⟩ => ⟨q, List.mem_append_left _ hq, hq'⟩

theorem mem_devicePairs :
    p ∈ devicePairs drv ↔ p.1 < drv.deviceCount ∧ p.2 < drv.deviceCount := by
  rw [← List.mem_range, ← List.mem_range]
  exact List.pair_mem_product

/-- Different pairs have different cells. -/
theorem pair_inj {q : ℕ × ℕ} (hp : p ∈ devicePairs drv) (hq : q ∈ devicePairs drv)
    (h : ((q.1 * drv.deviceCount + q.2 : ℕ) : ℤ) = (p.1 * drv.deviceCount + p.2 : ℕ)) :
    q = p := by
  obtain ⟨h1, h2⟩ := mul_add_inj (mem_devicePairs.mp hq).2 (mem_devicePairs.mp hp).2
    (Int.ofNat.inj h)
  exact Prod.ext h1 h2

/-- The cell `c` of the row `r` of a table with `n` rows of `m` cells. -/
theorem cell_lt {r c n m : ℕ} (hr : r < n) (hc : c < m) : r * m + c < n * m := by
  have hrows : (r + 1) * m ≤ n * m := Nat.mul_le_mul_right m hr
  rw [Nat.succ_mul] at hrows
  omega

theorem pair_lt (hp : p ∈ devicePairs drv) :
    0 ≤ ((p.1 * drv.deviceCount + p.2 : ℕ) : ℤ) ∧
      ((p.1 * drv.deviceCount + p.2 : ℕ) : ℤ) < (drv.deviceCount * drv.deviceCount : ℕ) := by
  obtain ⟨h1, h2⟩ := mem_devicePairs.mp hp
  have hlt := cell_lt h1 h2
  omega

/-! ## The loops that ask for the links -/

/-- The pairs of `run` are stored. -/
structure ScanInv (drv : Driver) (run : List (ℕ × ℕ)) (s : Scan) : Prop where
  mem : ∀ p ∈ run, p ∈ devicePairs drv
  size : s.perfTopo.size = drv.deviceCount * drv.deviceCount
  maxPerf : s.maxPerf = 0
  worst : ∃ w : ℕ, s.minPerf = w ∧ IsWorst drv run w
  entry : ∀ p ∈ run,
    s.perfTopo.read (p.1 * drv.deviceCount + p.2 : ℕ) = some (drv.entry p.1 p.2)

/-- What the loops do for one pair. -/
theorem enumerateLink_eq (drv : Driver) (s : Scan) (p : ℕ × ℕ) :
    enumerateLink drv s p =
      if drv.Linked p.1 p.2 ∧ 2 ^ 31 ≤ 1 + (drv.perfRank p.1 p.2 : ℤ) then none
      else
        (s.perfTopo.write (p.1 * drv.deviceCount + p.2 : ℕ) (drv.entry p.1 p.2)).map fun t =>
          if drv.Linked p.1 p.2 then
            { perfTopo := t
              minPerf := if s.minPerf < drv.perfRank p.1 p.2 then drv.perfRank p.1 p.2
                else s.minPerf
              maxPerf := if drv.perfRank p.1 p.2 < s.maxPerf then drv.perfRank p.1 p.2
                else s.maxPerf }
          else { s with perfTopo := t } := by
  unfold enumerateLink Driver.entry
  dsimp only
  by_cases hself : p.1 = p.2
  · have hno : ¬ drv.Linked p.1 p.2 := fun h => h.1 hself
    have hboth : ¬ (drv.Linked p.1 p.2 ∧ 2 ^ 31 ≤ 1 + (drv.perfRank p.1 p.2 : ℤ)) :=
      fun h => hno h.1
    rw [if_pos hself, if_pos hself, if_neg hboth]
    exact congrArg (fun f => Option.map f _) (funext fun t => (if_neg hno).symm)
  · rw [if_neg hself, if_neg hself]
    by_cases haccess : drv.accessSupported p.1 p.2 = true
    · have hlinked : drv.Linked p.1 p.2 := ⟨hself, haccess⟩
      rw [if_pos haccess, if_pos haccess]
      by_cases hover : 2 ^ 31 ≤ 1 + (drv.perfRank p.1 p.2 : ℤ)
      · have hboth : drv.Linked p.1 p.2 ∧ 2 ^ 31 ≤ 1 + (drv.perfRank p.1 p.2 : ℤ) :=
          ⟨hlinked, hover⟩
        have hnone : checkedInt (1 + (drv.perfRank p.1 p.2 : ℤ)) = none := if_neg (by omega)
        rw [if_pos hboth, hnone]
        rfl
      · have hboth : ¬ (drv.Linked p.1 p.2 ∧ 2 ^ 31 ≤ 1 + (drv.perfRank p.1 p.2 : ℤ)) :=
          fun h => hover h.2
        rw [if_neg hboth, checkedInt_of_lt (by omega) (by omega)]
        show Option.map _ _ = _
        exact congrArg (fun f => Option.map f _) (funext fun t => (if_pos hlinked).symm)
    · have hno : ¬ drv.Linked p.1 p.2 := fun h => haccess h.2
      have hboth : ¬ (drv.Linked p.1 p.2 ∧ 2 ^ 31 ≤ 1 + (drv.perfRank p.1 p.2 : ℤ)) :=
        fun h => hno h.1
      rw [if_neg haccess, if_neg haccess, if_neg hboth]
      exact congrArg (fun f => Option.map f _) (funext fun t => (if_neg hno).symm)

/-- One pair is stored. -/
theorem ScanInv.step (h : ScanInv drv run s) (hp : p ∈ devicePairs drv)
    (hstep : enumerateLink drv s p = some s') : ScanInv drv (run ++ [p]) s' := by
  rw [enumerateLink_eq] at hstep
  split at hstep
  · cases hstep
  obtain ⟨t, hwrite, rfl⟩ := Option.map_eq_some_iff.mp hstep
  have hmem : ∀ q ∈ run ++ [p], q ∈ devicePairs drv := by
    intro q hq
    rcases List.mem_append.mp hq with hold | hnew
    · exact h.mem q hold
    · rwa [List.mem_singleton.mp hnew]
  have hsize := (Table.size_write hwrite).trans h.size
  have hentry := Table.read_append_write (f := fun q : ℕ × ℕ => (q.1 * drv.deviceCount + q.2 : ℕ))
    (g := fun q : ℕ × ℕ => drv.entry q.1 q.2) hwrite
    (fun q hq heq => pair_inj hp (h.mem q hq) heq) h.entry
  obtain ⟨w, hmin, hworst⟩ := h.worst
  by_cases hlinked : drv.Linked p.1 p.2
  · rw [if_pos hlinked]
    refine ⟨hmem, hsize, ?_, ⟨_, ?_, hworst.append_linked hlinked⟩, hentry⟩
    · show (if _ then _ else _) = _
      rw [h.maxPerf, if_neg (by omega)]
    · show (if _ then _ else _) = _
      rw [hmin]
      split <;> omega
  · rw [if_neg hlinked]
    exact ⟨hmem, hsize, h.maxPerf, ⟨w, hmin, hworst.append_other hlinked⟩, hentry⟩

/-- The loops are defined when no rank overflows. -/
theorem exists_scan
    (hrank : ∀ p ∈ devicePairs drv, drv.Linked p.1 p.2 → drv.perfRank p.1 p.2 + 1 < 2 ^ 31) :
    ∃ s, (devicePairs drv).foldlM (enumerateLink drv)
      ⟨.malloc (drv.deviceCount * drv.deviceCount), 0, 0⟩ = some s := by
  refine foldlM_isSome (fun s => s.perfTopo.size = drv.deviceCount * drv.deviceCount) rfl
    fun p hp s hsize => ?_
  have hok : ¬ (drv.Linked p.1 p.2 ∧ 2 ^ 31 ≤ 1 + (drv.perfRank p.1 p.2 : ℤ)) := by
    intro ⟨hlinked, hover⟩
    have hlt := hrank p hp hlinked
    omega
  obtain ⟨t, ht⟩ := Table.exists_write (hsize.symm ▸ pair_lt hp) (drv.entry p.1 p.2)
  rw [enumerateLink_eq, if_neg hok, ht]
  refine ⟨_, rfl, ?_⟩
  split <;> exact (Table.size_write ht).trans hsize

/-- What holds after the loops. -/
theorem scanInv_of_scan (h : (devicePairs drv).foldlM (enumerateLink drv)
    ⟨.malloc (drv.deviceCount * drv.deviceCount), 0, 0⟩ = some s) :
    ScanInv drv (devicePairs drv) s :=
  foldlM_invariant (ScanInv drv) ⟨nofun, rfl, rfl, ⟨0, rfl, nofun, .inl rfl⟩, nofun⟩
    (fun _ _ _ _ hp hinv hstep => hinv.step hp hstep) h

/-! ## The missing links -/

/-- The cells of `run` are patched. -/
structure Patched (before : Table ℤ) (noLink : ℤ) (run : List ℕ) (t : Table ℤ) : Prop where
  size : t.size = before.size
  read : ∀ (i : ℕ) (x : ℤ), before.read i = some x →
    t.read i = some (if x = -1 ∧ i ∈ run then noLink else x)

/-- One cell is patched. -/
theorem Patched.step {before t : Table ℤ} {minPerf : ℤ} {run : List ℕ} {i : ℕ} {x : ℤ}
    (h : Patched before (minPerf + 1) run t) (hlo : 0 ≤ minPerf) (hhi : minPerf + 1 < 2 ^ 31)
    (hx : before.read i = some x) :
    ∃ t', patchLink minPerf t i = some t' ∧ Patched before (minPerf + 1) (run ++ [i]) t' := by
  unfold patchLink
  rw [h.read i x hx, Option.bind_some]
  by_cases hpatch : x = -1 ∧ i ∉ run
  · have hvalue : (if x = -1 ∧ i ∈ run then minPerf + 1 else x) = -1 := by
      rw [if_neg fun hrun : x = -1 ∧ i ∈ run => hpatch.2 hrun.2]
      exact hpatch.1
    rw [if_pos hvalue, checkedInt_of_lt (by omega) hhi, Option.bind_some]
    have hin : 0 ≤ (i : ℤ) ∧ (i : ℤ) < t.size := h.size ▸ Table.lt_of_read hx
    obtain ⟨t', ht'⟩ := Table.exists_write hin (minPerf + 1)
    refine ⟨t', ht', (Table.size_write ht').trans h.size, fun j y hy => ?_⟩
    by_cases hj : j = i
    · subst hj
      obtain rfl := Option.some.inj (hx.symm.trans hy)
      rw [Table.read_write ht', if_pos]
      exact ⟨hpatch.1, List.mem_append_right _ (List.mem_singleton_self j)⟩
    · rw [Table.read_write_ne ht' (by omega), h.read j y hy]
      simp [hj]
  · have hsame : (if x = -1 ∧ i ∈ run then minPerf + 1 else x) ≠ -1 := by
      split
      · omega
      next hrun => exact fun hx' => hpatch ⟨hx', fun hmem => hrun ⟨hx', hmem⟩⟩
    rw [if_neg hsame]
    refine ⟨t, rfl, h.size, fun j y hy => ?_⟩
    rw [h.read j y hy]
    by_cases hj : j = i
    · subst hj
      obtain rfl := Option.some.inj (hx.symm.trans hy)
      have hiff : x = -1 ∧ j ∈ run ++ [j] ↔ x = -1 ∧ j ∈ run := by
        simp only [List.mem_append, List.mem_singleton, or_true, and_true]
        exact ⟨fun hx' => ⟨hx', by_contra fun hmem => hpatch ⟨hx', hmem⟩⟩, And.left⟩
      simp only [hiff]
    · simp [hj]

/-- The ranks of all pairs, after both loops. -/
theorem exists_perfTopo (h : ScanInv drv (devicePairs drv) s) (hlt : w + 3 < 2 ^ 31) :
    ∃ t, (List.range (drv.deviceCount * drv.deviceCount)).foldlM (patchLink ((w : ℤ) + 1))
        s.perfTopo = some t ∧
      ∀ p ∈ devicePairs drv,
        t.read (p.1 * drv.deviceCount + p.2 : ℕ) = some (drv.rank w p.1 p.2 : ℤ) := by
  have hloop := foldlM_spec (l := List.range (drv.deviceCount * drv.deviceCount))
    (Patched s.perfTopo ((w : ℤ) + 1 + 1)) ⟨rfl, fun i x hx => by simpa using hx⟩
    fun run i t hi hrun => by
      have hi := List.mem_range.mp hi
      have hpos : 0 < drv.deviceCount := Nat.pos_of_mul_pos_right (Nat.zero_lt_of_lt hi)
      have hentry := h.entry (i / drv.deviceCount, i % drv.deviceCount)
        (mem_devicePairs.mpr ⟨Nat.div_lt_of_lt_mul hi, Nat.mod_lt i hpos⟩)
      dsimp only at hentry
      rw [Nat.mul_comm, Nat.div_add_mod] at hentry
      exact hrun.step (by omega) (by omega) hentry
  obtain ⟨t, ht, hpatched⟩ := hloop
  refine ⟨t, ht, fun p hp => ?_⟩
  rw [hpatched.read _ _ (h.entry p hp)]
  have hmem : p.1 * drv.deviceCount + p.2 ∈
      List.range (drv.deviceCount * drv.deviceCount) := by
    obtain ⟨h1, h2⟩ := mem_devicePairs.mp hp
    exact List.mem_range.mpr (cell_lt h1 h2)
  unfold Driver.entry Driver.rank
  by_cases hself : p.1 = p.2
  · simp [hself]
  · by_cases haccess : drv.accessSupported p.1 p.2 = true
    · have hne : ¬ (1 + (drv.perfRank p.1 p.2 : ℤ) = -1) := by omega
      simp [hself, haccess, hne]
    · rw [if_neg hself, if_neg hself, if_neg haccess, if_neg haccess, if_pos ⟨rfl, hmem⟩]
      exact congrArg some (by omega)

/-! ## The classes -/

/-- The devices of the pairs of `run` are in their classes. -/
def Classified (drv : Driver) (w : ℕ) (run : List (ℕ × ℕ)) (i e : ℕ) : Prop :=
  ∃ d, (d, e) ∈ run ∧ i = d * (w + 3) + drv.rank w d e

theorem IsWorst.rank_lt (h : IsWorst drv (devicePairs drv) w) (hp : p ∈ devicePairs drv) :
    drv.rank w p.1 p.2 < w + 3 := by
  unfold Driver.rank
  by_cases hself : p.1 = p.2
  · rw [if_pos hself]
    omega
  · rw [if_neg hself]
    split
    next haccess =>
      have hle := h.le p hp ⟨hself, haccess⟩
      omega
    next => omega

/-- One device is added to its class. -/
theorem exists_classify {perfTopo : Table ℤ} {t : Table ℕ}
    (hworst : IsWorst drv (devicePairs drv) w) (hcount : drv.deviceCount ≤ 64)
    (hp : p ∈ devicePairs drv)
    (hrank : perfTopo.read (p.1 * drv.deviceCount + p.2 : ℕ) = some (drv.rank w p.1 p.2 : ℤ))
    (ht : t.Masks (drv.deviceCount * (w + 3)) (Classified drv w run)) :
    ∃ t', classify drv perfTopo ((w : ℤ) + 3) t p = some t' ∧
      t'.Masks (drv.deviceCount * (w + 3)) (Classified drv w (run ++ [p])) := by
  obtain ⟨h1, h2⟩ := mem_devicePairs.mp hp
  have hlt := cell_lt h1 (hworst.rank_lt hp)
  have hcell : (p.1 : ℤ) * ((w : ℤ) + 3) + (drv.rank w p.1 p.2 : ℤ) =
      (p.1 * (w + 3) + drv.rank w p.1 p.2 : ℕ) := by
    push_cast
    rfl
  have hassert : 0 ≤ (p.1 : ℤ) * drv.deviceCount + (drv.rank w p.1 p.2 : ℤ) ∧
      (p.1 : ℤ) * ((w : ℤ) + 3) + (drv.rank w p.1 p.2 : ℤ) ≤
        (drv.deviceCount : ℤ) * ((w : ℤ) + 3) := by
    have hsize : (drv.deviceCount : ℤ) * ((w : ℤ) + 3) = (drv.deviceCount * (w + 3) : ℕ) := by
      push_cast
      rfl
    have hrow : (p.1 : ℤ) * drv.deviceCount = (p.1 * drv.deviceCount : ℕ) := by
      push_cast
      rfl
    rw [hcell, hsize, hrow]
    omega
  have hshift : shiftLong p.2 = some (2 ^ p.2) := if_pos (by omega)
  obtain ⟨t', hor, hmasks⟩ := ht.orCell hlt p.2
  refine ⟨t', ?_, hmasks.congr fun i _ e => ?_⟩
  · unfold classify
    rw [hrank, Option.bind_some]
    dsimp only
    rw [if_pos hassert, hshift, Option.bind_some, hcell]
    exact hor
  · constructor
    · rintro (⟨d, hd, hi⟩ | ⟨hi, he⟩)
      · exact ⟨d, List.mem_append_left _ hd, hi⟩
      · rw [he]
        exact ⟨p.1, List.mem_append_right _ (List.mem_singleton_self p), hi⟩
    · intro ⟨d, hd, hi⟩
      rcases List.mem_append.mp hd with hold | hnew
      · exact .inl ⟨d, hold, hi⟩
      · obtain rfl := List.mem_singleton.mp hnew
        exact .inr ⟨hi, rfl⟩

/-- The tables say the ranks of the driver, of which `w` is the worst. -/
structure Topo.Reflects (t : Topo) (drv : Driver) (w : ℕ) : Prop where
  worst : IsWorst drv (devicePairs drv) w
  countPerfrank : t.countPerfrank = (w : ℤ) + 3
  perfTopo : ∀ p ∈ devicePairs drv,
    t.perfTopo.read (p.1 * drv.deviceCount + p.2 : ℕ) = some (drv.rank w p.1 p.2 : ℤ)
  perfDevice : t.perfDevice.Masks (drv.deviceCount * (w + 3)) (Classified drv w (devicePairs drv))

/-- The ranks are small enough for the operations of the type `int`. -/
def Driver.Fits (drv : Driver) : Prop :=
  ∀ p ∈ devicePairs drv, drv.Linked p.1 p.2 →
    drv.deviceCount * (drv.perfRank p.1 p.2 + 3) < 2 ^ 31

/-- The size of the tables, which is a number of the type `int`, bounds the ranks. -/
theorem IsWorst.fits_iff (h : IsWorst drv (devicePairs drv) w) (hcount : drv.deviceCount ≤ 64) :
    drv.Fits ↔ drv.deviceCount * (w + 3) < 2 ^ 31 := by
  constructor
  · intro hfits
    rcases h.attained with rfl | ⟨p, hp, hlinked, rfl⟩
    · omega
    · exact hfits p hp hlinked
  · intro hlt p hp hlinked
    have hle := Nat.mul_le_mul_left drv.deviceCount (Nat.add_le_add_right (h.le p hp hlinked) 3)
    omega

/-- The tables are made when the ranks fit. -/
theorem exists_getGpuTopo (hpos : 1 ≤ drv.deviceCount) (hcount : drv.deviceCount ≤ 64)
    (hfits : drv.Fits) : ∃ t w, getGpuTopo drv = some t ∧ t.Reflects drv w := by
  have hrank : ∀ p ∈ devicePairs drv, drv.Linked p.1 p.2 →
      drv.perfRank p.1 p.2 + 1 < 2 ^ 31 := by
    intro p hp hlinked
    have hlt := hfits p hp hlinked
    have hle := Nat.mul_le_mul_right (drv.perfRank p.1 p.2 + 3) hpos
    omega
  obtain ⟨scan, hscan⟩ := exists_scan hrank
  have hinv := scanInv_of_scan hscan
  obtain ⟨w, hmin, hworst⟩ := hinv.worst
  have hsize := (hworst.fits_iff hcount).mp hfits
  have hlt : w + 3 < 2 ^ 31 := by
    have hle := Nat.mul_le_mul_right (w + 3) hpos
    omega
  obtain ⟨perfTopo, hpatch, hread⟩ := exists_perfTopo hinv hlt
  obtain ⟨zeros, hzeros, hmasks⟩ := Table.exists_zeros (drv.deviceCount * (w + 3))
  have hclasses : ∃ t, (devicePairs drv).foldlM (classify drv perfTopo ((w : ℤ) + 3)) zeros =
      some t ∧ t.Masks (drv.deviceCount * (w + 3)) (Classified drv w (devicePairs drv)) :=
    foldlM_spec (fun run (t : Table ℕ) =>
        t.Masks (drv.deviceCount * (w + 3)) (Classified drv w run))
      (hmasks.congr fun _ _ _ => iff_of_false id fun ⟨_, hd, _⟩ => nomatch hd)
      fun run p t hp ht => exists_classify hworst hcount hp (hread p hp) ht
  obtain ⟨perfDevice, hfill, hclassified⟩ := hclasses
  have hcast : (drv.deviceCount : ℤ) * ((w : ℤ) + 3) = (drv.deviceCount * (w + 3) : ℕ) := by
    push_cast
    rfl
  refine ⟨⟨perfTopo, (w : ℤ) + 3, perfDevice⟩, w, ?_, hworst, rfl, hread, hclassified⟩
  unfold getGpuTopo
  dsimp only
  rw [hscan, Option.bind_some, hmin, hinv.maxPerf, checkedInt_of_lt (by omega) (by omega),
    Option.bind_some, checkedInt_of_lt (by omega) (by omega), Option.bind_some,
    checkedInt_of_lt (by omega) (by omega), Option.bind_some, hpatch, Option.bind_some]
  have hperfs : (w : ℤ) + 1 - 0 + 2 = (w : ℤ) + 3 := by omega
  rw [hperfs, hcast, checkedInt_of_lt (by omega) (by omega), Option.bind_some, Int.toNat_natCast,
    hzeros, Option.bind_some, hfill]
  rfl

/-- The tables are not made otherwise. -/
theorem fits_of_getGpuTopo {t : Topo} (hcount : drv.deviceCount ≤ 64)
    (h : getGpuTopo drv = some t) : drv.Fits := by
  unfold getGpuTopo at h
  dsimp only at h
  obtain ⟨scan, hscan, h⟩ := Option.bind_eq_some_iff.mp h
  obtain ⟨minPerf, hminPerf, h⟩ := Option.bind_eq_some_iff.mp h
  obtain ⟨perfs, hperfs, h⟩ := Option.bind_eq_some_iff.mp h
  obtain ⟨count, hcountPerf, h⟩ := Option.bind_eq_some_iff.mp h
  obtain ⟨perfTopo, _, h⟩ := Option.bind_eq_some_iff.mp h
  obtain ⟨size, hsize, _⟩ := Option.bind_eq_some_iff.mp h
  have hinv := scanInv_of_scan hscan
  obtain ⟨w, hmin, hworst⟩ := hinv.worst
  rw [hmin] at hminPerf
  rw [hinv.maxPerf] at hperfs
  obtain ⟨rfl, _⟩ := checkedInt_eq_some hminPerf
  obtain ⟨rfl, _⟩ := checkedInt_eq_some hperfs
  obtain ⟨rfl, _⟩ := checkedInt_eq_some hcountPerf
  obtain ⟨rfl, _, hlt⟩ := checkedInt_eq_some hsize
  refine (hworst.fits_iff hcount).mpr ?_
  have hcast : (drv.deviceCount : ℤ) * ((w : ℤ) + 1 - 0 + 2) = (drv.deviceCount * (w + 3) : ℕ) := by
    rw [show (w : ℤ) + 1 - 0 + 2 = (w : ℤ) + 3 by omega]
    push_cast
    rfl
  rw [hcast] at hlt
  omega

/-- The device `e` is in the class `r` of the device `d`. -/
def Topo.InClass (t : Topo) (d r e : ℕ) : Prop :=
  ∃ mask, t.perfDevice.read (d * t.countPerfrank + r) = some mask ∧ mask.testBit e = true

/-- The classes of every device are a partition of all devices. It is in the first class itself,
and the devices without a link to it are in the last class. -/
structure Topo.Partitions (t : Topo) (drv : Driver) : Prop where
  device : ∀ d < drv.deviceCount, ∀ r : ℕ, r < t.countPerfrank → ∀ e, t.InClass d r e →
    e < drv.deviceCount
  unique : ∀ d < drv.deviceCount, ∀ e < drv.deviceCount,
    ∃ r : ℕ, r < t.countPerfrank ∧ ∀ r' : ℕ, r' < t.countPerfrank → (t.InClass d r' e ↔ r' = r)
  self : ∀ d < drv.deviceCount, t.InClass d 0 d
  noLink : ∀ d < drv.deviceCount, ∀ e < drv.deviceCount, d ≠ e →
    drv.accessSupported d e = false →
      ∀ r : ℕ, r < t.countPerfrank → (t.InClass d r e ↔ r + 1 = t.countPerfrank)

/-- The class of a device is its rank. -/
theorem Topo.Reflects.inClass_iff {t : Topo} {r : ℕ} (h : t.Reflects drv w)
    (hd : d < drv.deviceCount) (hr : r < w + 3) :
    t.InClass d r e ↔ e < drv.deviceCount ∧ drv.rank w d e = r := by
  have hcell : (d : ℤ) * t.countPerfrank + (r : ℤ) = (d * (w + 3) + r : ℕ) := by
    rw [h.countPerfrank]
    push_cast
    rfl
  obtain ⟨mask, hmask, hbits⟩ := h.perfDevice.read _ (cell_lt hd hr)
  unfold InClass
  rw [hcell, hmask]
  constructor
  · intro ⟨mask', hmask', hbit⟩
    obtain rfl := Option.some.inj hmask'
    obtain ⟨d', hmem, hd'⟩ := (hbits e).mp hbit
    obtain ⟨rfl, hrank⟩ := mul_add_inj hr (h.worst.rank_lt hmem) hd'
    exact ⟨(mem_devicePairs.mp hmem).2, hrank.symm⟩
  · rintro ⟨he, rfl⟩
    exact ⟨mask, rfl, (hbits e).mpr ⟨d, mem_devicePairs.mpr ⟨hd, he⟩, rfl⟩⟩

theorem Topo.Reflects.partitions {t : Topo} (h : t.Reflects drv w) : t.Partitions drv := by
  have hcount : ∀ {r : ℕ}, (r : ℤ) < t.countPerfrank → r < w + 3 := by
    intro r hr
    rw [h.countPerfrank] at hr
    omega
  refine ⟨fun d hd r hr e he => ?_, fun d hd e he => ?_, fun d hd => ?_,
    fun d hd e he hne haccess r hr => ?_⟩
  · exact ((h.inClass_iff hd (hcount hr)).mp he).1
  · have hlt := h.worst.rank_lt (p := (d, e)) (mem_devicePairs.mpr ⟨hd, he⟩)
    refine ⟨drv.rank w d e, ?_, fun r hr => ?_⟩
    · rw [h.countPerfrank]
      exact_mod_cast hlt
    · rw [h.inClass_iff hd (hcount hr)]
      exact ⟨fun hin => hin.2.symm, fun heq => ⟨he, heq.symm⟩⟩
  · refine (h.inClass_iff hd (Nat.succ_pos _)).mpr ⟨hd, ?_⟩
    exact if_pos rfl
  · have hrank : drv.rank w d e = w + 2 := by
      unfold Driver.rank
      rw [if_neg hne, if_neg (Bool.eq_false_iff.mp haccess)]
    rw [h.inClass_iff hd (hcount hr), hrank, h.countPerfrank]
    constructor <;> omega

/-! ## The selected devices -/

/-- The selected devices are different, and their numbers are below 32. -/
theorem deviceIds_spec {ngpus : ℕ} {gpuset : BitVec 32} {ids : List ℕ}
    (h : deviceIds ngpus gpuset = some ids) :
    (∀ id ∈ ids, gpuset.getLsbD id = true) ∧ ids.Nodup := by
  induction ngpus generalizing gpuset ids with
  | zero =>
      obtain rfl := Option.some.inj h
      exact ⟨nofun, List.nodup_nil⟩
  | succ ngpus ih =>
      unfold deviceIds at h
      split at h
      · cases h
      next hffs =>
        obtain ⟨rest, hrest, rfl⟩ := Option.map_eq_some_iff.mp h
        obtain ⟨hbits, hnodup⟩ := ih hrest
        have hset := BitMask.getLsbD_ffs fun hzero => hffs (BitMask.ffs_eq_zero_iff.mpr hzero)
        refine ⟨fun id hid => ?_, List.nodup_cons.mpr ⟨fun hmem => ?_, hnodup⟩⟩
        · rcases List.mem_cons.mp hid with rfl | hmem
          · exact hset
          · exact (BitMask.getLsbD_clear.mp (hbits id hmem)).1
        · exact (BitMask.getLsbD_clear.mp (hbits _ hmem)).2 rfl

/-- The device `d` has peer access to `e`. -/
def Driver.Peer (drv : Driver) (d e : ℕ) : Prop :=
  drv.accessSupported d e = true ∧ drv.enablePeerAccess d e = true

instance (drv : Driver) (d e : ℕ) : Decidable (drv.Peer d e) :=
  inferInstanceAs (Decidable (_ ∧ _))

/-- The selected device `j` belongs to the class `r` of the selected device `self`, which has the
number `d`. -/
def Joins (drv : Driver) (ids : List ℕ) (self d j r : ℕ) : Prop :=
  ∃ id, ids[j]? = some id ∧
    (j = self ∧ r = 0 ∨ j ≠ self ∧ drv.Peer d id ∧ r = drv.perfRank d id)

/-- The masks of the device and of its domain hold the memory ids of the devices `run`. -/
structure AffinityInv (drv : Driver) (ids : List ℕ) (lid : ℕ → ℕ) (dev d w : ℕ) (run : List ℕ)
    (a : Affinity) : Prop where
  ld : a.ld = a.device
  masks : a.device.Masks (w + 2) fun r l => ∃ j ∈ run, lid j = l ∧ Joins drv ids dev d j r

/-- A memory id is added to a class. -/
theorem Affinity.exists_add {a : Affinity} {P : ℕ → ℕ → Prop} {n r lid : ℕ} (hld : a.ld = a.device)
    (h : a.device.Masks n P) (hr : r < n) (hlid : lid < 64) :
    ∃ a', a.add r lid = some a' ∧ a'.ld = a'.device ∧
      a'.device.Masks n fun i l => P i l ∨ i = r ∧ l = lid := by
  obtain ⟨t, hor, hmasks⟩ := h.orCell hr lid
  have hshift : shiftLong lid = some (2 ^ lid) := if_pos hlid
  refine ⟨⟨t, t⟩, ?_, rfl, hmasks⟩
  unfold Affinity.add
  rw [hshift, Option.bind_some, hor, Option.bind_some, hld, hor]
  rfl

/-- The mask of a number below 32 has its bit. -/
theorem exists_shiftInt {n : ℕ} (h : n < 32) :
    ∃ bit, shiftInt n = some bit ∧ bit.testBit n = true := by
  unfold shiftInt
  by_cases hlt : n < 31
  · rw [if_pos hlt]
    exact ⟨_, rfl, Nat.testBit_two_pow_self⟩
  · obtain rfl : n = 31 := by omega
    rw [if_neg hlt, if_pos rfl]
    exact ⟨_, rfl, by decide⟩

variable {t : Topo} {ids : List ℕ} {lid : ℕ → ℕ} {self : ℕ} {a : Affinity} {devices : List ℕ}

/-- One more selected device. -/
theorem AffinityInv.of_masks {a' : Affinity} {j r : ℕ} (hld : a'.ld = a'.device)
    (hmasks : a'.device.Masks (w + 2) fun i l =>
      (∃ j ∈ devices, lid j = l ∧ Joins drv ids self d j i) ∨ i = r ∧ l = lid j)
    (hjoins : ∀ i, Joins drv ids self d j i ↔ i = r) :
    AffinityInv drv ids lid self d w (devices ++ [j]) a' := by
  refine ⟨hld, hmasks.congr fun i _ l => ?_⟩
  constructor
  · rintro (⟨k, hk, hl, hin⟩ | ⟨hi, hl⟩)
    · exact ⟨k, List.mem_append_left _ hk, hl, hin⟩
    · exact ⟨j, List.mem_append_right _ (List.mem_singleton_self j), hl.symm, (hjoins i).mpr hi⟩
  · intro ⟨k, hk, hl, hin⟩
    rcases List.mem_append.mp hk with hold | hnew
    · exact .inl ⟨k, hold, hl, hin⟩
    · obtain rfl := List.mem_singleton.mp hnew
      exact .inr ⟨(hjoins i).mp hin, hl.symm⟩

/-- The body of the loop over the selected devices. -/
theorem AffinityInv.step {j : ℕ} (h : AffinityInv drv ids lid self d w devices a)
    (htopo : t.Reflects drv w) (hnodup : ids.Nodup) (hlt : ∀ id ∈ ids, id < drv.deviceCount)
    (hint : ∀ id ∈ ids, id < 32) (hself : ids[self]? = some d) (hj : j < ids.length)
    (hlid : lid j < 64) :
    ∃ a', commitPeer drv t ids lid self a j = some a' ∧
      AffinityInv drv ids lid self d w (devices ++ [j]) a' := by
  obtain ⟨id, hid⟩ : ∃ id, ids[j]? = some id := ⟨_, List.getElem?_eq_getElem hj⟩
  have hmem := List.mem_of_getElem? hid
  unfold commitPeer
  by_cases hother : j ≠ self
  · have hne : d ≠ id := by
      rintro rfl
      exact hother ((List.getElem?_inj hj hnodup).mp (hid.trans hself.symm))
    have hpair : (d, id) ∈ devicePairs drv :=
      mem_devicePairs.mpr ⟨hlt d (List.mem_of_getElem? hself), hlt id hmem⟩
    rw [if_pos hother, hself, Option.bind_some, hid, Option.bind_some]
    by_cases hpeer : drv.accessSupported d id = true ∧ drv.enablePeerAccess d id = true
    · have hrank : drv.rank w d id = 1 + drv.perfRank d id := by
        unfold Driver.rank
        rw [if_neg hne, if_pos hpeer.1]
      have hclass := (htopo.inClass_iff (mem_devicePairs.mp hpair).1
        (htopo.worst.rank_lt hpair)).mpr ⟨(mem_devicePairs.mp hpair).2, rfl⟩
      obtain ⟨mask, hmask, hbit⟩ := hclass
      obtain ⟨bit, hshift, hbit'⟩ := exists_shiftInt (hint id hmem)
      have hset : mask &&& bit ≠ 0 := by
        intro hzero
        have hand := Nat.testBit_and mask bit id
        rw [hzero, hbit, hbit', Nat.zero_testBit] at hand
        cases hand
      have hindex : (drv.rank w d id : ℤ) - 1 = (drv.perfRank d id : ℕ) := by
        rw [hrank]
        omega
      have hle : drv.perfRank d id ≤ w := htopo.worst.le _ hpair ⟨hne, hpeer.1⟩
      obtain ⟨a', hadd, hld, hmasks⟩ := Affinity.exists_add h.ld h.masks
        (by omega : drv.perfRank d id < w + 2) hlid
      refine ⟨a', ?_, .of_masks hld hmasks fun i => ?_⟩
      · rw [if_pos hpeer, htopo.perfTopo _ hpair, Option.bind_some, hmask, Option.bind_some,
          hshift, Option.bind_some, if_pos hset, hindex]
        exact hadd
      · constructor
        · intro ⟨id', hid', hin⟩
          obtain rfl := Option.some.inj (hid.symm.trans hid')
          rcases hin with ⟨hj', _⟩ | ⟨_, _, hi⟩
          · exact absurd hj' hother
          · exact hi
        · exact fun hi => ⟨id, hid, .inr ⟨hother, hpeer, hi⟩⟩
    · refine ⟨a, if_neg hpeer, h.ld, h.masks.congr fun i _ l => ?_⟩
      constructor
      · exact fun ⟨k, hk, hin⟩ => ⟨k, List.mem_append_left _ hk, hin⟩
      · intro ⟨k, hk, hl, id', hid', hin⟩
        rcases List.mem_append.mp hk with hold | hnew
        · exact ⟨k, hold, hl, id', hid', hin⟩
        · obtain rfl := List.mem_singleton.mp hnew
          obtain rfl := Option.some.inj (hid.symm.trans hid')
          rcases hin with ⟨hk', _⟩ | ⟨_, hpeer', _⟩
          · exact absurd hk' hother
          · exact absurd hpeer' hpeer
  · rw [not_not] at hother
    subst hother
    obtain ⟨a', hadd, hld, hmasks⟩ := Affinity.exists_add h.ld h.masks
      (by omega : 0 < w + 2) hlid
    refine ⟨a', ?_, .of_masks hld hmasks fun i => ?_⟩
    · rw [if_neg fun hne => hne rfl]
      exact hadd
    · constructor
      · intro ⟨_, _, hin⟩
        rcases hin with ⟨_, hi⟩ | ⟨hne, _⟩
        · exact hi
        · exact absurd rfl hne
      · exact fun hi => ⟨id, hid, .inl ⟨rfl, hi⟩⟩

/-- The loop that sets the two arrays to zero. -/
theorem foldlM_zeroAffinity (l : List ℕ) (t : Table ℕ) :
    l.foldlM zeroAffinity ⟨t, t⟩ = (l.foldlM Table.zeroCell t).map fun t' => ⟨t', t'⟩ := by
  induction l generalizing t with
  | nil => rfl
  | cons i l ih =>
      rw [List.foldlM_cons, List.foldlM_cons]
      unfold zeroAffinity
      dsimp only
      cases hzero : t.zeroCell i with
      | none => rfl
      | some t' => exact ih t'

/-- The device of the memory `l` is in the class `r`. -/
def Affinity.InClass (a : Affinity) (r l : ℕ) : Prop :=
  ∃ mask, a.device.read r = some mask ∧ mask.testBit l = true

/-- What the masks are after the commit of the selected device `dev`, which has the number `d`. The
classes are in the order of the ranks, and the devices in any of them are the device itself and its
peers. -/
structure Committed (drv : Driver) (t : Topo) (ids : List ℕ) (lid : ℕ → ℕ) (dev d : ℕ)
    (a : Affinity) : Prop where
  ld : a.ld = a.device
  size : (a.device.size : ℤ) = t.countPerfrank - 1
  classes : ∀ r < a.device.size, ∀ l,
    a.InClass r l ↔ ∃ j, lid j = l ∧ Joins drv ids dev d j r
  union : ∀ l, (∃ r < a.device.size, a.InClass r l) ↔
    ∃ j id, ids[j]? = some id ∧ lid j = l ∧ (j = dev ∨ j ≠ dev ∧ drv.Peer d id)

/-- The commit of a selected device. -/
theorem exists_deviceCommit (htopo : t.Reflects drv w) (hnodup : ids.Nodup)
    (hlt : ∀ id ∈ ids, id < drv.deviceCount) (hint : ∀ id ∈ ids, id < 32)
    (hself : ids[self]? = some d) (hlid : ∀ j < ids.length, lid j < 64) :
    ∃ a, deviceCommit drv t ids lid self = some a ∧ Committed drv t ids lid self d a := by
  obtain ⟨zeros, hzeros, hmasks⟩ := Table.exists_zeros (w + 2)
  have hloop : ∃ a, (List.range ids.length).foldlM (commitPeer drv t ids lid self)
      ⟨zeros, zeros⟩ = some a ∧
        AffinityInv drv ids lid self d w (List.range ids.length) a :=
    foldlM_spec (AffinityInv drv ids lid self d w)
      ⟨rfl, hmasks.congr fun _ _ _ => iff_of_false id fun ⟨_, hj, _⟩ => nomatch hj⟩
      fun devices j a hj ha => ha.step htopo hnodup hlt hint hself (List.mem_range.mp hj)
        (hlid j (List.mem_range.mp hj))
  obtain ⟨a, hall, hinv⟩ := hloop
  have hperfrank : (t.countPerfrank - 1).toNat = w + 2 := by
    rw [htopo.countPerfrank]
    omega
  have hclasses : ∀ r < w + 2, ∀ l,
      a.InClass r l ↔ ∃ j, lid j = l ∧ Joins drv ids self d j r := by
    intro r hr l
    obtain ⟨mask, hmask, hbits⟩ := hinv.masks.read r hr
    unfold Affinity.InClass
    rw [hmask]
    constructor
    · intro ⟨mask', hmask', hbit⟩
      obtain rfl := Option.some.inj hmask'
      obtain ⟨j, _, hj⟩ := (hbits l).mp hbit
      exact ⟨j, hj⟩
    · intro ⟨j, hl, id, hid, hin⟩
      have hj := List.mem_range.mpr (List.getElem?_eq_some_iff.mp hid).1
      exact ⟨mask, rfl, (hbits l).mpr ⟨j, hj, hl, id, hid, hin⟩⟩
  refine ⟨a, ?_, hinv.ld, ?_, ?_, fun l => ?_⟩
  · unfold deviceCommit
    dsimp only
    rw [hperfrank, foldlM_zeroAffinity, hzeros]
    exact hall
  · rw [hinv.masks.size, htopo.countPerfrank]
    omega
  · rw [hinv.masks.size]
    exact hclasses
  · rw [hinv.masks.size]
    constructor
    · intro ⟨r, hr, hin⟩
      obtain ⟨j, hl, id, hid, hjoin⟩ := (hclasses r hr l).mp hin
      exact ⟨j, id, hid, hl, hjoin.imp (fun h => h.1) fun h => ⟨h.1, h.2.1⟩⟩
    · rintro ⟨j, id, hid, hl, rfl | ⟨hother, hpeer⟩⟩
      · exact ⟨0, Nat.succ_pos _, (hclasses 0 (Nat.succ_pos _) l).mpr
          ⟨j, hl, id, hid, .inl ⟨rfl, rfl⟩⟩⟩
      · have hne : d ≠ id := by
          rintro rfl
          have hj := (List.getElem?_eq_some_iff.mp hid).1
          exact hother ((List.getElem?_inj hj hnodup).mp (hid.trans hself.symm))
        have hpair : (d, id) ∈ devicePairs drv := mem_devicePairs.mpr
          ⟨hlt d (List.mem_of_getElem? hself), hlt id (List.mem_of_getElem? hid)⟩
        have hle : drv.perfRank d id ≤ w := htopo.worst.le _ hpair ⟨hne, hpeer.1⟩
        have hr : drv.perfRank d id < w + 2 := by omega
        exact ⟨_, hr, (hclasses _ hr l).mpr ⟨j, hl, id, hid, .inr ⟨hother, hpeer, rfl⟩⟩⟩

/-- The memory id of the device itself is shifted. -/
theorem lid_lt_of_deviceCommit (h : deviceCommit drv t ids lid self = some a)
    (hself : self < ids.length) : lid self < 64 := by
  obtain ⟨zeros, _, hall⟩ := Option.bind_eq_some_iff.mp h
  refine foldlM_invariant (fun run _ => self ∈ run → lid self < 64) nofun
    (fun run j a a' _ hrun hstep hmem => ?_) hall (List.mem_range.mpr hself)
  rcases List.mem_append.mp hmem with hold | hnew
  · exact hrun hold
  · obtain rfl := List.mem_singleton.mp hnew
    unfold commitPeer at hstep
    rw [if_neg fun hne => hne rfl] at hstep
    obtain ⟨_, hshift, _⟩ := Option.bind_eq_some_iff.mp hstep
    unfold shiftLong at hshift
    split at hshift
    · assumption
    · cases hshift

/-! ## The statement -/

/-- The plugin makes the tables, and every selected device is committed. -/
def Meets (drv : Driver) (ids : List ℕ) (lid : ℕ → ℕ) : Prop :=
  ∃ t, getGpuTopo drv = some t ∧ t.Partitions drv ∧
    ∀ (dev d : ℕ), ids[dev]? = some d →
      ∃ a, deviceCommit drv t ids lid dev = some a ∧ Committed drv t ids lid dev d a

/-- For at most 64 devices, of which `ngpus` are selected, the tables are what they are for if and
only if the size of the table of the classes does not overflow, and neither do the shifts by the
memory ids. -/
theorem topology_iff {ngpus : ℕ} {gpuset : BitVec 32} (hpos : 1 ≤ drv.deviceCount)
    (hcount : drv.deviceCount ≤ 64) (hids : deviceIds ngpus gpuset = some ids)
    (hvalid : ∀ id ∈ ids, id < drv.deviceCount) :
    Meets drv ids lid ↔
      (∀ d < drv.deviceCount, ∀ e < drv.deviceCount, d ≠ e → drv.accessSupported d e = true →
        drv.deviceCount * (drv.perfRank d e + 3) < 2 ^ 31) ∧
      ∀ j < ids.length, lid j < 64 := by
  obtain ⟨hbits, hnodup⟩ := deviceIds_spec hids
  have hint : ∀ id ∈ ids, id < 32 := fun id hid => BitMask.lt_of_getLsbD (hbits id hid)
  have hfits : drv.Fits ↔ ∀ d < drv.deviceCount, ∀ e < drv.deviceCount, d ≠ e →
      drv.accessSupported d e = true → drv.deviceCount * (drv.perfRank d e + 3) < 2 ^ 31 := by
    constructor
    · exact fun h d hd e he hne haccess =>
        h (d, e) (mem_devicePairs.mpr ⟨hd, he⟩) ⟨hne, haccess⟩
    · intro h p hp hlinked
      obtain ⟨h1, h2⟩ := mem_devicePairs.mp hp
      exact h p.1 h1 p.2 h2 hlinked.1 hlinked.2
  rw [← hfits]
  constructor
  · intro ⟨t, ht, _, hcommit⟩
    refine ⟨fits_of_getGpuTopo hcount ht, fun j hj => ?_⟩
    obtain ⟨a, ha, _⟩ := hcommit j _ (List.getElem?_eq_getElem hj)
    exact lid_lt_of_deviceCommit ha hj
  · intro ⟨hfit, hlid⟩
    obtain ⟨t, w, ht, htopo⟩ := exists_getGpuTopo hpos hcount hfit
    refine ⟨t, ht, htopo.partitions, fun dev d hdev => ?_⟩
    exact exists_deviceCommit htopo hnodup hvalid hint hdev hlid

set_option maxRecDepth 4000 in
/-- Two devices, which are both selected. -/
theorem deviceIds_two : deviceIds 2 3#32 = some [0, 1] := by
  decide

/-- Two devices with a link of the best rank. -/
theorem topology_iff_twoDevices :
    Meets ⟨2, fun _ _ => true, fun _ _ => 0, fun _ _ => true⟩ [0, 1] (fun j => j + 1) :=
  (topology_iff (by decide) (by decide) deviceIds_two (by decide)).mpr
    ⟨fun _ _ _ _ _ _ => (by decide : 2 * (0 + 3) < 2 ^ 31), fun j (hj : j < 2) => by omega⟩

/-- With the largest rank of the type `int` the tables are not made. -/
theorem not_topology :
    deviceIds 2 3#32 = some [0, 1] ∧
      ¬ Meets ⟨2, fun _ _ => true, fun _ _ => 2 ^ 31 - 1, fun _ _ => true⟩ [0, 1]
        (fun j => j + 1) := by
  refine ⟨deviceIds_two, fun ⟨t, ht, _⟩ => ?_⟩
  have hlt := fits_of_getGpuTopo (by decide) ht (0, 1) (mem_devicePairs.mpr ⟨by decide, by decide⟩)
    ⟨by decide, rfl⟩
  exact absurd hlt (by decide)

end Xkblas.Offload.Topology
