import Xkblas.Blas.BlockCyclic
import Xkblas.Library.ColumnMajor
import Xkblas.Sched.LocalityDomainSafety
import Xkblas.Library.FinLiteral

/-!
# Tile sizes and mappings are defined, and the mappings are balanced

`Meets` says for each of the functions what it is for: a tile size is at least 1, the grid of
`xkblas_auto_map` is the most square one, and the mappings give every tile that they assign an
existing domain, such that on a grid that is not larger than the number of domains the blocks of a
window of the grid have different domains (`Spread`). `blockCyclic_iff` says when this holds: the
divisions need a tile size or a number of GPUs that is not zero.
-/

namespace Xkblas.Blas.BlockCyclic

open Library
open scoped Library.FinLiteral
open Sched.LocalityDomain (LdType HasIndex HasId)

variable {M N K NB ngpus fact : ℕ} {ctx : Context} {kernel : Kernel}

/-! ## The tile size -/

theorem share_zero (M fact : ℕ) : share M fact 0 = none := by
  unfold share
  rw [Nat.mul_zero]
  rfl

theorem share_eq (hpos : 0 < ngpus) (hlt : ngpus < 2 ^ 8) (hfact : 0 < fact) (hle : fact ≤ 8) :
    share M fact ngpus = some (M / (fact * ngpus)) := by
  have hmul : fact * ngpus ≤ 8 * ngpus := Nat.mul_le_mul_right ngpus hle
  have hne : 0 < fact * ngpus := Nat.mul_pos hfact hpos
  unfold share
  rw [Nat.mod_eq_of_lt (by omega)]
  exact if_neg (by omega)

theorem le_round64 {x : ℕ} (h : x ≤ 2 ^ 63) : x ≤ round64 x := by
  unfold round64 clearLow
  omega

theorem exists_limit512 (hpos : 0 < ngpus) (hlt : ngpus < 2 ^ 8) (hfact : 0 < fact)
    (hle : fact ≤ 4) (NB : ℕ) : ∃ r, limit512 M fact ngpus NB = some r ∧ 1 ≤ r := by
  unfold limit512
  have hclamp : ∀ NB : ℕ, 1 ≤ if NB < 512 then 512 else NB := by
    intro NB
    split <;> omega
  by_cases hbig : 4096 < NB
  · rw [if_pos hbig, share_eq hpos hlt (by omega) (by omega)]
    exact ⟨_, rfl, hclamp _⟩
  · rw [if_neg hbig]
    exact ⟨_, rfl, hclamp _⟩

theorem exists_redoSyrk (hpos : 0 < ngpus) (hlt : ngpus < 2 ^ 8) (hfact : 0 < fact)
    (hle : fact ≤ 4) : ∃ r, redoSyrk M ngpus fact = some r ∧ 1 ≤ r := by
  induction fact with
  | zero => exact absurd hfact (Nat.lt_irrefl 0)
  | succ fact ih =>
      unfold redoSyrk
      rw [share_eq hpos hlt hfact (by omega), Option.bind_some]
      dsimp only
      generalize (if 2048 ≤ M / ((fact + 1) * ngpus) then clearLow (M / ((fact + 1) * ngpus)) 11
        else M / ((fact + 1) * ngpus)) = NB
      by_cases hagain : NB ≤ 1024 ∧ fact + 1 = 2
      · rw [if_pos hagain]
        exact ih (by omega) (by omega)
      · rw [if_neg hagain]
        exact exists_limit512 hpos hlt hfact hle _

theorem exists_redoSyr2k (hpos : 0 < ngpus) (hlt : ngpus < 2 ^ 8) (hfact : 0 < fact)
    (hle : fact ≤ 4) : ∃ r, redoSyr2k M ngpus fact = some r ∧ 1 ≤ r := by
  induction fact with
  | zero => exact absurd hfact (Nat.lt_irrefl 0)
  | succ fact ih =>
      unfold redoSyr2k
      rw [share_eq hpos hlt hfact (by omega), Option.bind_some]
      dsimp only
      by_cases hagain : round64 (M / ((fact + 1) * ngpus)) ≤ 2048 ∧ 2 < fact + 1
      · rw [if_pos hagain]
        exact ih (by omega) (by omega)
      · rw [if_neg hagain]
        exact exists_limit512 hpos hlt hfact hle _

theorem exists_gemmTilesize (hpos : 0 < ngpus) (hlt : ngpus < 2 ^ 8) (hM : M < 2 ^ 64) :
    ∃ r, gemmTilesize M ngpus = some r ∧ 1 ≤ r := by
  have hround : ∀ NB ≤ 2 ^ 63, 1 ≤ round64 (if NB < 512 then 512 else NB) := by
    intro NB hNB
    refine le_trans ?_ (le_round64 ?_) <;> split <;> omega
  have hhalf : M / (2 * ngpus) ≤ 2 ^ 63 := by
    have hdiv : M / (2 * ngpus) ≤ M / 2 :=
      Nat.div_le_div_left (Nat.le_mul_of_pos_right 2 hpos) Nat.two_pos
    omega
  unfold gemmTilesize
  rw [share_eq hpos hlt Nat.one_pos (by omega), Option.bind_some]
  dsimp only
  generalize (if ngpus < M ∧ 16384 < M ∧ M / (1 * ngpus) < 2048 then 2048
    else M / (1 * ngpus)) = NB
  by_cases hbig : 4096 < NB
  · rw [if_pos hbig, share_eq hpos hlt Nat.two_pos (by omega)]
    exact ⟨_, rfl, hround _ hhalf⟩
  · rw [if_neg hbig]
    exact ⟨_, rfl, hround _ (by omega)⟩

theorem exists_defaultTilesize (hpos : 0 < ngpus) (hlt : ngpus < 2 ^ 8) (hM : M < 2 ^ 64) :
    ∃ r, defaultTilesize M ngpus = some r ∧ 1 ≤ r := by
  have hround : ∀ NB ≤ 2 ^ 63, 1 ≤ round64 (if NB < 1024 then 1024 else NB) := by
    intro NB hNB
    refine le_trans ?_ (le_round64 ?_) <;> split <;> omega
  have hhalf : M / (2 * ngpus) ≤ 2 ^ 63 := by
    have hdiv : M / (2 * ngpus) ≤ M / 2 :=
      Nat.div_le_div_left (Nat.le_mul_of_pos_right 2 hpos) Nat.two_pos
    omega
  unfold defaultTilesize
  rw [share_eq hpos hlt Nat.one_pos (by omega), Option.bind_some]
  by_cases hbig : 4096 ≤ M / (1 * ngpus)
  · rw [if_pos hbig, share_eq hpos hlt Nat.two_pos (by omega)]
    exact ⟨_, rfl, hround _ hhalf⟩
  · rw [if_neg hbig]
    exact ⟨_, rfl, hround _ (by omega)⟩

/-- Without GPUs there is no tile size to choose. -/
theorem autoTilesize_zero (hNB : ctx.NB = 0) (hzero : ctx.ngpus = 0) :
    autoTilesize ctx kernel M N K = none := by
  unfold autoTilesize
  rw [if_neg (not_not.mpr hNB), hzero]
  cases kernel <;>
    simp only [redoSyrk, redoSyr2k, symmTilesize, trmmTilesize, gemmTilesize, defaultTilesize,
      share_zero, Option.bind_none, Option.map_none]

/-- The tile size is defined when the user has set one, or there are GPUs. -/
theorem autoTilesize_iff (hM : M < 2 ^ 64) (hN : N < 2 ^ 64) :
    (∃ r, autoTilesize ctx kernel M N K = some r ∧ 1 ≤ r) ↔ ctx.NB ≠ 0 ∨ ctx.ngpus ≠ 0 := by
  constructor
  · intro ⟨r, hr, _⟩
    by_contra hzero
    obtain ⟨hNB, hngpus⟩ := not_or.mp hzero
    rw [autoTilesize_zero (not_not.mp hNB) (not_not.mp hngpus)] at hr
    cases hr
  · intro h
    unfold autoTilesize
    by_cases hNB : ctx.NB ≠ 0
    · rw [if_pos hNB]
      exact ⟨_, rfl, Nat.pos_of_ne_zero hNB⟩
    · have hpos := Nat.pos_of_ne_zero (h.resolve_left hNB)
      have hlt := ctx.ngpus_lt
      have hmax : (if M < N then N else M) < 2 ^ 64 := by
        split <;> assumption
      rw [if_neg hNB]
      generalize (if M < N then N else M) = M' at hmax
      cases kernel with
      | herk | syrk => exact exists_redoSyrk hpos hlt (by omega) (by omega)
      | her2k | syr2k => exact exists_redoSyr2k hpos hlt (by omega) (by omega)
      | hemm | symm =>
          show ∃ r, symmTilesize M' ctx.ngpus = some r ∧ 1 ≤ r
          unfold symmTilesize
          rw [share_eq hpos hlt Nat.one_pos (by omega)]
          refine ⟨_, rfl, ?_⟩
          dsimp only
          split <;> split <;> omega
      | trmm | trsm =>
          show ∃ r, trmmTilesize M' ctx.ngpus = some r ∧ 1 ≤ r
          unfold trmmTilesize
          rw [share_eq hpos hlt Nat.two_pos (by omega)]
          refine ⟨_, rfl, ?_⟩
          dsimp only
          split <;> omega
      | gemmt | gemm => exact exists_gemmTilesize hpos hlt hmax
      | swap | copyscale | void => exact exists_defaultTilesize hpos hlt hmax

/-! ## The grid -/

/-- The loop finds the largest divisor from `k` down. -/
theorem largestDivisor_spec {n k : ℕ} (hk : 1 ≤ k) :
    1 ≤ largestDivisor n k ∧ largestDivisor n k ≤ k ∧ largestDivisor n k ∣ n ∧
      ∀ d ≤ k, d ∣ n → d ≤ largestDivisor n k := by
  induction k with
  | zero => exact absurd hk (Nat.lt_irrefl 0)
  | succ k ih =>
      unfold largestDivisor
      by_cases hdvd : n % (k + 1) = 0
      · rw [if_pos hdvd]
        exact ⟨hk, le_refl _, Nat.dvd_of_mod_eq_zero hdvd, fun d hd _ => hd⟩
      · have hpos : 1 ≤ k := by
          by_contra hzero
          obtain rfl : k = 0 := by omega
          exact hdvd (Nat.mod_one n)
        rw [if_neg hdvd]
        obtain ⟨h1, hle, hgcd, hmax⟩ := ih hpos
        refine ⟨h1, hle.trans (Nat.le_succ k), hgcd, fun d hd hd' => hmax d ?_ hd'⟩
        rcases Nat.lt_or_ge k d with hlast | hless
        · obtain rfl : d = k + 1 := by omega
          exact absurd (Nat.mod_eq_zero_of_dvd hd') hdvd
        · exact hless

/-- In two factorizations, the larger first factor has the smaller second factor. -/
theorem le_of_mul_eq {a b g h : ℕ} (hmul : a * b = g * h) (hpos : 0 < g * h) (hle : a ≤ g) :
    h ≤ b := by
  by_contra hlt
  have hg : 0 < g := Nat.pos_of_mul_pos_right hpos
  have hab : a * b ≤ g * b := Nat.mul_le_mul_right b hle
  have hgb : g * b < g * h := Nat.mul_lt_mul_of_pos_left (not_le.mp hlt) hg
  omega

/-- The divisor that is found below the successor of the root gives the most square grid. -/
theorem square_of_factors {n s g h a b : ℕ} (hn : 0 < n) (hroot : s * s ≤ n)
    (hroot' : n < (s + 1) * (s + 1)) (hgh : g * h = n) (hab : a * b = n) (hle : g ≤ s + 1)
    (hmax : ∀ d ≤ s + 1, d ∣ n → d ≤ g) (hle' : a ≤ b) :
    ((g : ℤ) - h).natAbs ≤ b - a := by
  have hpos : 0 < g * h := hgh ▸ hn
  have ha : a ≤ s := by
    by_contra hbig
    have hmul := Nat.mul_le_mul (by omega : s + 1 ≤ a) (by omega : s + 1 ≤ b)
    omega
  rcases Nat.lt_or_ge s g with hlast | hless
  · -- the successor of the root divides
    obtain rfl : g = s + 1 := by omega
    have hh : h ≤ s := by
      by_contra hbig
      have hmul := Nat.mul_le_mul_left (s + 1) (by omega : s + 1 ≤ h)
      omega
    have hah : a ≤ h := by
      -- otherwise both factors are the root, which its successor does not divide
      by_contra hbig
      have hlow : (s + 1) * h = s * h + h := Nat.succ_mul s h
      have hb : b ≤ s := by
        by_contra hbig'
        have hmul := Nat.mul_le_mul (by omega : h + 1 ≤ a) (by omega : s + 1 ≤ b)
        have hexpand : (h + 1) * (s + 1) = (s + 1) * h + (s + 1) := by
          rw [Nat.mul_comm, Nat.mul_succ]
        omega
      have hsquare := Nat.mul_le_mul ha hb
      rcases Nat.lt_or_ge h s with hsmall | hroot''
      · have hmul := Nat.mul_le_mul_left s (by omega : h + 1 ≤ s)
        have hexpand : s * (h + 1) = s * h + s := Nat.mul_succ s h
        omega
      · have hmul := Nat.mul_le_mul_left s hroot''
        omega
    have hgb : s + 1 ≤ b :=
      le_of_mul_eq (hab.trans (hgh.symm.trans (Nat.mul_comm _ h))) (Nat.mul_comm h _ ▸ hpos) hah
    omega
  · have hag := hmax a (by omega) (Dvd.intro b hab)
    have hhb := le_of_mul_eq (hab.trans hgh.symm) hpos hag
    have hgh' : g ≤ h := by
      by_contra hbig
      have h1 := Nat.mul_le_mul (by omega : h + 1 ≤ g) hless
      have h2 := Nat.mul_le_mul_left g (by omega : h + 1 ≤ s)
      have h3 : g * (h + 1) = g * h + g := Nat.mul_succ g h
      have h4 := Nat.mul_le_mul_right s hless
      omega
    omega

/-- The grid of all GPUs, with the least difference of its sides. -/
theorem autoGrid_spec {n : ℕ} (hn : 0 < n) :
    (autoGrid n).1 * (autoGrid n).2 = n ∧ ∀ a b : ℕ, a * b = n →
      (((autoGrid n).1 : ℤ) - (autoGrid n).2).natAbs ≤ ((a : ℤ) - b).natAbs := by
  obtain ⟨hpos, hle, ⟨h, hgh⟩, hmax⟩ :=
    largestDivisor_spec (n := n) (k := Nat.sqrt n + 1) (Nat.le_add_left 1 _)
  have hgrid : autoGrid n = (largestDivisor n (Nat.sqrt n + 1), h) := by
    unfold autoGrid
    have hroot : ¬ Nat.sqrt n = 0 := fun hzero => by
      rw [Nat.sqrt_eq_zero] at hzero
      omega
    dsimp only
    rw [if_neg hroot]
    cases hg : largestDivisor n (Nat.sqrt n + 1) with
    | zero => omega
    | succ g =>
        rw [hg] at hgh
        have hdiv : n / (g + 1) = h := Nat.div_eq_of_eq_mul_right (Nat.succ_pos g) hgh
        dsimp only
        rw [hdiv]
  rw [hgrid]
  refine ⟨hgh.symm, fun a b hab => ?_⟩
  have hsquare := fun {a b : ℕ} (hab : a * b = n) (hle' : a ≤ b) =>
    square_of_factors hn (Nat.sqrt_le n) (Nat.lt_succ_sqrt n) hgh.symm hab hle hmax hle'
  rcases Nat.le_total a b with hle' | hle'
  · have hmin := hsquare hab hle'
    dsimp only
    omega
  · have hmin := hsquare ((Nat.mul_comm b a).trans hab) hle'
    dsimp only
    omega

/-! ## The registry -/

section

variable {δ : Type*} {reg reg' : Sched.LocalityDomain.State δ} {type : LdType} {r : ℕ}

/-- Every index below the count of a type has its domain. -/
def Full (reg : Sched.LocalityDomain.State δ) : Prop :=
  ∀ (type : LdType) (r : ℕ), r < (reg.tables type.index).count → ∃ ld, HasIndex reg type r ld

/-- The calls before a mapping attach domains. -/
def Attaches (reg : Sched.LocalityDomain.State δ) : Sched.LocalityDomain.Action δ → Prop
  | .attach type parent ld fails => Sched.LocalityDomain.Proper reg (.attach type parent ld fails)
  | _ => False

instance [DecidableEq δ] (reg : Sched.LocalityDomain.State δ) : ∀ a, Decidable (Attaches reg a)
  | .attach type parent ld fails =>
      inferInstanceAs (Decidable (Sched.LocalityDomain.Proper reg (.attach type parent ld fails)))
  | .deattach _ _ => inferInstanceAs (Decidable False)
  | .finalize => inferInstanceAs (Decidable False)

theorem Attaches.proper {a : Sched.LocalityDomain.Action δ} (h : Attaches reg a) :
    Sched.LocalityDomain.Proper reg a := by
  cases a with
  | attach => exact h
  | deattach | finalize => exact absurd h id

theorem full_start : Full (Sched.LocalityDomain.start δ) :=
  fun _ _ hr => absurd hr (Nat.not_lt_zero _)

/-- An attach appends a domain to its type. -/
theorem Full.attach [DecidableEq δ] {parent : Option δ} {ld : δ}
    {fails : Option Sched.LocalityDomain.Realloc} {t : LdType} (h : Full reg)
    (hfresh : ld ∉ reg.attached) (hcount : (reg.tables t.index).count + 1 < 2 ^ 32)
    (henter : Sched.LocalityDomain.Entered reg reg' t parent ld fails) : Full reg' := by
  intro type r hr
  obtain ⟨cells, _, htables⟩ := henter.table
  rw [htables] at hr
  by_cases htype : type = t
  · subst htype
    rw [Function.update_self] at hr
    have hr' : r < (reg.tables type.index).count + 1 := by
      rwa [Nat.mod_eq_of_lt hcount] at hr
    rcases Nat.lt_succ_iff_lt_or_eq.mp hr' with hold | rfl
    · obtain ⟨ld', hld'⟩ := h type r hold
      exact ⟨ld', (henter.attached_iff hfresh).mpr (.inr hld')⟩
    · exact ⟨ld, (henter.attached_iff hfresh).mpr (.inl ⟨rfl, rfl, rfl⟩)⟩
  · have hindex : type.index ≠ t.index := fun heq => htype (LdType.index_injective heq)
    rw [Function.update_of_ne hindex] at hr
    obtain ⟨ld', hld'⟩ := h type r hr
    exact ⟨ld', (henter.attached_iff hfresh).mpr (.inr hld')⟩

/-- The registry after attaches whose identifiers are values of `uint16_t`. -/
structure Ready (reg : Sched.LocalityDomain.State δ) : Prop where
  inv : Sched.LocalityDomain.Inv reg
  full : Full reg
  ldid : reg.ldid ≤ unmapped

theorem ready_of_reachable [DecidableEq δ]
    (h : (Sched.LocalityDomain.system δ).ReachableWhen Attaches reg) (hldid : reg.ldid ≤ unmapped) :
    Ready reg := by
  refine ⟨Sched.LocalityDomain.inv_of_reachable (h.mono fun _ _ => Attaches.proper), ?_, hldid⟩
  refine h.invariant ?_ fun s a s' hfull hattach hstep => ?_
  · rintro s rfl
    exact full_start
  · cases a with
    | attach type parent ld fails =>
        have hproper : Sched.LocalityDomain.Proper s (.attach type parent ld fails) := hattach
        obtain ⟨t, rfl⟩ := Sched.LocalityDomain.known_iff.mp hproper.1
        obtain ⟨o, hcall, _, _, henter⟩ := Sched.LocalityDomain.Proper.entered hproper
        obtain ⟨_, hfresh, _, hcount, _⟩ := hproper
        rw [t.ffs_code, Nat.add_sub_cancel] at hcount
        obtain rfl : o.state = s' := by
          have hstate : (Sched.LocalityDomain.attach s t.code parent ld fails).map
            Sched.LocalityDomain.Outcome.state = some s' := hstep
          rw [hcall] at hstate
          exact Option.some.inj hstate
        exact hfull.attach hfresh hcount henter
    | deattach | finalize => exact absurd hattach id

namespace Ready

/-- A domain of an index has an identifier, which the lookups give. -/
theorem lookup (h : Ready reg) {ld : δ} (hld : HasIndex reg type r ld) :
    ∃ ldid < unmapped, HasId reg ldid ld ∧ ldidOf reg type r = some ldid ∧
      Sched.LocalityDomain.getNum reg type.code r = some ldid := by
  obtain ⟨hin, f, hf, htype, hidx⟩ := hld
  have hid : HasId reg f.ldid ld := ⟨hin, f, hf, rfl⟩
  obtain ⟨found, hget, hfound⟩ := h.inv.sound_getBytype type r
  obtain rfl := (hfound ld).mpr ⟨hin, f, hf, htype, hidx⟩
  refine ⟨f.ldid, (h.inv.map.lt hid).trans_le h.ldid, hid, ?_, ?_⟩
  · unfold ldidOf
    rw [hget, Option.bind_some, Option.bind_some, hf]
    rfl
  · unfold Sched.LocalityDomain.getNum
    rw [hget, Option.bind_some]
    dsimp only
    rw [hf]
    rfl

/-- Two domains with one identifier have one index. -/
theorem index_unique (h : Ready reg) {ldid r' : ℕ} {ld ld' : δ} (hr : HasIndex reg type r ld)
    (hr' : HasIndex reg type r' ld') (hid : HasId reg ldid ld) (hid' : HasId reg ldid ld') :
    r = r' := by
  obtain rfl := h.inv.map.unique hid hid'
  obtain ⟨_, f, hf, _, hidx⟩ := hr
  obtain ⟨_, f', hf', _, hidx'⟩ := hr'
  obtain rfl := Option.some.inj (hf.symm.trans hf')
  exact hidx.symm.trans hidx'

/-- A registry without tables has no domains. -/
theorem lddomains (h : Ready reg) {ld : δ} (hld : HasIndex reg type r ld) :
    reg.lddomains ≠ none := by
  intro hnone
  have hlt := (h.inv.table type).lt hld
  unfold Sched.LocalityDomain.State.tables at hlt
  rw [hnone] at hlt
  exact absurd hlt (Nat.not_lt_zero _)

/-- The count of a type, and the domains below it. -/
theorem domain (h : Ready reg) (hdomains : reg.lddomains ≠ none) {count : ℕ}
    (hcount : Sched.LocalityDomain.count reg type.code = some count) :
    count < 2 ^ 32 ∧ ∀ r < count, ∃ ld, HasIndex reg type r ld := by
  rw [Sched.LocalityDomain.count_code hdomains] at hcount
  obtain rfl := Option.some.inj hcount
  exact ⟨h.inv.count type, h.full type⟩

theorem count_lt (h : Ready reg) {count : ℕ}
    (hcount : Sched.LocalityDomain.count reg type.code = some count) : count < 2 ^ 32 := by
  by_cases hdomains : reg.lddomains = none
  · rw [Sched.LocalityDomain.count_none hdomains] at hcount
    obtain rfl := Option.some.inj hcount
    decide
  · exact (h.domain hdomains hcount).1

end Ready

/-! ## The loops over the tiles -/

variable {g : Grid} {count : ℕ} {lookup : ℕ → Option ℕ} {test : ℕ → Bool} {old new d d' : Descr}
  {run : List (ℕ × ℕ)} {p : ℕ × ℕ}

/-- No side of the grid or of its blocks is zero. -/
def Grid.Proper (g : Grid) : Prop :=
  g.Bp ≠ 0 ∧ g.Gp ≠ 0 ∧ g.Bq ≠ 0 ∧ g.Gq ≠ 0

/-- The index of a tile as the code computes it. -/
def Grid.slot (g : Grid) (count i j : ℕ) : ℕ :=
  (i / g.Bp % g.Gp * g.Gq + j / g.Bq % g.Gq) % 2 ^ 64 % count

/-- The place of a tile in the grid, row by row. -/
def Grid.place (g : Grid) (i j : ℕ) : ℕ :=
  i / g.Bp % g.Gp * g.Gq + j / g.Bq % g.Gq

theorem Grid.index_eq (hg : g.Proper) (hcount : count ≠ 0) (i j : ℕ) :
    g.index count i j = some (g.slot count i j) := by
  obtain ⟨hBp, hGp, hBq, hGq⟩ := hg
  unfold Grid.index divide modulo
  rw [if_neg hBp, Option.bind_some, if_neg hGp, Option.bind_some, if_neg hBq, Option.bind_some,
    if_neg hGq, Option.bind_some, if_neg hcount]
  rfl

theorem divide_eq_some {a b c : ℕ} (h : divide a b = some c) : b ≠ 0 := by
  rintro rfl
  cases h

theorem modulo_eq_some {a b c : ℕ} (h : modulo a b = some c) : b ≠ 0 := by
  rintro rfl
  cases h

theorem Grid.proper_of_index {i j r : ℕ} (h : g.index count i j = some r) : g.Proper := by
  obtain ⟨_, hBp, h⟩ := Option.bind_eq_some_iff.mp h
  obtain ⟨_, hGp, h⟩ := Option.bind_eq_some_iff.mp h
  obtain ⟨_, hBq, h⟩ := Option.bind_eq_some_iff.mp h
  obtain ⟨_, hGq, _⟩ := Option.bind_eq_some_iff.mp h
  exact ⟨divide_eq_some hBp, modulo_eq_some hGp, divide_eq_some hBq, modulo_eq_some hGq⟩

theorem Grid.place_lt (hg : g.Proper) (i j : ℕ) : g.place i j < g.Gp * g.Gq := by
  obtain ⟨_, hGp, _, hGq⟩ := hg
  have hp := Nat.mod_lt (i / g.Bp) (Nat.pos_of_ne_zero hGp)
  have hq := Nat.mod_lt (j / g.Bq) (Nat.pos_of_ne_zero hGq)
  have hrows := Nat.mul_le_mul_right g.Gq (by omega : i / g.Bp % g.Gp + 1 ≤ g.Gp)
  rw [Nat.succ_mul] at hrows
  unfold Grid.place
  omega

/-- On a grid that is not larger than the number of domains, the index is the place. -/
theorem Grid.slot_eq_place (hg : g.Proper) (hle : g.Gp * g.Gq ≤ count) (hcount : count < 2 ^ 32)
    (i j : ℕ) : g.slot count i j = g.place i j := by
  have hlt := g.place_lt hg i j
  unfold Grid.slot
  rw [← Grid.place, Nat.mod_eq_of_lt (by omega), Nat.mod_eq_of_lt (by omega)]

/-- Two tiles are in the same window of the grid. -/
def Grid.SameWindow (g : Grid) (i j i' j' : ℕ) : Prop :=
  i / g.Bp / g.Gp = i' / g.Bp / g.Gp ∧ j / g.Bq / g.Gq = j' / g.Bq / g.Gq

/-- In a window, different blocks have different places. -/
theorem Grid.place_inj (hg : g.Proper) {i j i' j' : ℕ} (hwindow : g.SameWindow i j i' j') :
    g.place i j = g.place i' j' ↔ i / g.Bp = i' / g.Bp ∧ j / g.Bq = j' / g.Bq := by
  obtain ⟨_, hGp, _, hGq⟩ := hg
  constructor
  · intro hplace
    obtain ⟨hp, hq⟩ := mul_add_inj (Nat.mod_lt _ (Nat.pos_of_ne_zero hGq))
      (Nat.mod_lt _ (Nat.pos_of_ne_zero hGq)) hplace
    have hi := Nat.div_add_mod (i / g.Bp) g.Gp
    have hj := Nat.div_add_mod (j / g.Bq) g.Gq
    rw [hwindow.1, hp, Nat.div_add_mod] at hi
    rw [hwindow.2, hq, Nat.div_add_mod] at hj
    exact ⟨hi.symm, hj.symm⟩
  · intro ⟨hi, hj⟩
    unfold Grid.place
    rw [hi, hj]

theorem mem_tiles : p ∈ d.tiles ↔ p.1 < d.mt ∧ p.2 < d.nt := by
  rw [← List.mem_range, ← List.mem_range]
  exact List.pair_mem_product

/-- The tiles of `run` are stored. -/
structure Stored (test : ℕ → Bool) (target : ℕ → ℕ → ℕ) (old : Descr) (run : List (ℕ × ℕ))
    (d : Descr) : Prop where
  isinit : d.isinit = old.isinit
  mt : d.mt = old.mt
  nt : d.nt = old.nt
  done : ∀ p ∈ old.tiles, p ∈ run → d.getLdid p.1 p.2 =
    if test (old.getLdid p.1 p.2) = true then target p.1 p.2 else old.getLdid p.1 p.2
  other : ∀ p ∈ old.tiles, p ∉ run → d.getLdid p.1 p.2 = old.getLdid p.1 p.2

/-- The tile that was stored, and the others. -/
theorem getLdid_setLdid {m n m' n' val : ℕ} (hn : n < d.nt) (hn' : n' < d.nt) :
    (d.setLdid m n val).getLdid m' n' =
      if m' = m ∧ n' = n then val % 2 ^ 16 else d.getLdid m' n' := by
  show Function.update d.ldid (m * d.nt + n) (val % 2 ^ 16) (m' * d.nt + n') = _
  by_cases hsame : m' = m ∧ n' = n
  · obtain ⟨rfl, rfl⟩ := hsame
    rw [Function.update_self, if_pos ⟨rfl, rfl⟩]
  · have hne : m' * d.nt + n' ≠ m * d.nt + n := fun heq => hsame (mul_add_inj hn' hn heq)
    rw [Function.update_of_ne hne, if_neg hsame]
    rfl

/-- One tile, when its index and its identifier are defined. -/
theorem Stored.step {target : ℕ → ℕ → ℕ} (h : Stored test target old run d) (hp : p ∈ old.tiles)
    (htarget : test (old.getLdid p.1 p.2) = true → ∃ r ldid, g.index count p.1 p.2 = some r ∧
      lookup r = some ldid ∧ target p.1 p.2 = ldid % 2 ^ 16) :
    ∃ d', storeTile lookup test g count d p = some d' ∧
      Stored test target old (run ++ [p]) d' := by
  have hvalue : d.getLdid p.1 p.2 = old.getLdid p.1 p.2 ∨
      test (old.getLdid p.1 p.2) = true ∧ d.getLdid p.1 p.2 = target p.1 p.2 := by
    by_cases hrun : p ∈ run
    · rw [h.done p hp hrun]
      split
      next htest => exact .inr ⟨htest, rfl⟩
      next => exact .inl rfl
    · exact .inl (h.other p hp hrun)
  unfold storeTile
  by_cases htest : test (d.getLdid p.1 p.2) = true
  · have hold : test (old.getLdid p.1 p.2) = true := by
      rcases hvalue with hsame | ⟨hold, _⟩
      · rwa [hsame] at htest
      · exact hold
    obtain ⟨r, ldid, hindex, hlookup, htarget⟩ := htarget hold
    rw [if_pos htest, hindex, Option.bind_some, hlookup]
    have hn : ∀ q ∈ old.tiles, q.2 < d.nt := fun q hq => h.nt.symm ▸ (mem_tiles.mp hq).2
    refine ⟨_, rfl, h.isinit, h.mt, h.nt, fun q hq hrun => ?_, fun q hq hrun => ?_⟩
    · rw [getLdid_setLdid (hn p hp) (hn q hq)]
      by_cases hqp : q.1 = p.1 ∧ q.2 = p.2
      · rw [if_pos hqp, hqp.1, hqp.2, if_pos hold, htarget]
      · rw [if_neg hqp]
        refine h.done q hq ((List.mem_append.mp hrun).resolve_right fun hnew => ?_)
        rw [List.mem_singleton.mp hnew] at hqp
        exact hqp ⟨rfl, rfl⟩
    · rw [getLdid_setLdid (hn p hp) (hn q hq), if_neg]
      · exact h.other q hq fun hold => hrun (List.mem_append_left _ hold)
      · intro hqp
        have heq : q = p := Prod.ext hqp.1 hqp.2
        exact hrun (List.mem_append_right _ (List.mem_singleton.mpr heq))
  · rw [if_neg htest]
    refine ⟨d, rfl, h.isinit, h.mt, h.nt, fun q hq hrun => ?_, fun q hq hrun => ?_⟩
    · rcases List.mem_append.mp hrun with hold | hnew
      · exact h.done q hq hold
      · obtain rfl := List.mem_singleton.mp hnew
        rcases hvalue with hsame | ⟨hold, hsame⟩
        · rw [hsame] at htest
          rw [if_neg htest, hsame]
        · rw [if_pos hold, hsame]
    · exact h.other q hq fun hold => hrun (List.mem_append_left _ hold)

/-- All tiles, when their indices and identifiers are defined. -/
theorem exists_stored {target : ℕ → ℕ → ℕ}
    (htarget : ∀ p ∈ old.tiles, test (old.getLdid p.1 p.2) = true →
      ∃ r ldid, g.index count p.1 p.2 = some r ∧ lookup r = some ldid ∧
        target p.1 p.2 = ldid % 2 ^ 16) :
    ∃ d, old.tiles.foldlM (storeTile lookup test g count) old = some d ∧
      Stored test target old old.tiles d :=
  foldlM_spec (Stored test target old) ⟨rfl, rfl, rfl, nofun, fun _ _ _ => rfl⟩
    fun _ p _ hp hd => hd.step hp (htarget p hp)

/-- The index of a tile that is stored was defined. -/
theorem proper_of_stored
    (h : old.tiles.foldlM (storeTile lookup test g count) old = some d) (hp : p ∈ old.tiles)
    (htest : test (old.getLdid p.1 p.2) = true) : g.Proper := by
  have hloop : g.Proper ∨ (∀ q ∈ old.tiles, ¬ test (old.getLdid q.1 q.2) = true) ∧
      ∀ q ∈ old.tiles, d.getLdid q.1 q.2 = old.getLdid q.1 q.2 := by
    refine foldlM_invariant (fun run (d : Descr) =>
      g.Proper ∨ (∀ q ∈ run, ¬ test (old.getLdid q.1 q.2) = true) ∧
        ∀ q ∈ old.tiles, d.getLdid q.1 q.2 = old.getLdid q.1 q.2)
      (.inr ⟨nofun, fun _ _ => rfl⟩) (fun run q d d' hq hrun hstep => ?_) h
    unfold storeTile at hstep
    split at hstep
    next hset =>
      obtain ⟨_, hindex, _⟩ := Option.bind_eq_some_iff.mp hstep
      exact .inl (Grid.proper_of_index hindex)
    next hkeep =>
      obtain rfl := Option.some.inj hstep
      refine hrun.imp_right fun ⟨hrun, hsame⟩ => ⟨fun q' hq' => ?_, hsame⟩
      rcases List.mem_append.mp hq' with hold | hnew
      · exact hrun q' hold
      · rw [List.mem_singleton.mp hnew, ← hsame q hq]
        exact hkeep
  exact hloop.resolve_right fun hnone => hnone.1 p hp htest

/-! ## What the mappings are for -/

/-- The tiles that are assigned have existing domains of the type, and the others keep theirs. On a
grid that is not larger than the number of domains, the place of a tile is the index of its domain,
and the blocks of a window have different domains. -/
structure Spread (reg : Sched.LocalityDomain.State δ) (type : LdType) (count : ℕ)
    (assigned : ℕ × ℕ → Prop) (g : Grid) (old new : Descr) : Prop where
  mt : new.mt = old.mt
  nt : new.nt = old.nt
  domain : ∀ p ∈ old.tiles, assigned p → new.getLdid p.1 p.2 ≠ unmapped ∧
    ∃ r < count, ∃ ld, HasIndex reg type r ld ∧ HasId reg (new.getLdid p.1 p.2) ld
  kept : ∀ p ∈ old.tiles, ¬ assigned p → new.getLdid p.1 p.2 = old.getLdid p.1 p.2
  place : g.Gp * g.Gq ≤ count → ∀ p ∈ old.tiles, assigned p →
    ∃ ld, HasIndex reg type (g.place p.1 p.2) ld ∧ HasId reg (new.getLdid p.1 p.2) ld
  window : g.Gp * g.Gq ≤ count → ∀ p ∈ old.tiles, assigned p → ∀ q ∈ old.tiles, assigned q →
    g.SameWindow p.1 p.2 q.1 q.2 →
      (new.getLdid p.1 p.2 = new.getLdid q.1 q.2 ↔
        p.1 / g.Bp = q.1 / g.Bp ∧ p.2 / g.Bq = q.2 / g.Bq)

/-- The mapping is refused when there is no domain of the level. -/
def Answers (reg : Sched.LocalityDomain.State δ) (hlevel : ℤ) (assigned : ℕ × ℕ → Prop) (g : Grid)
    (d : Descr) (o : Status × Descr) : Prop :=
  (∀ type count, levelType hlevel = some type →
    Sched.LocalityDomain.count reg type.code = some count → count ≠ 0 →
      o.1 = .ok ∧ Spread reg type count assigned g d o.2) ∧
  ((∀ type, levelType hlevel = some type →
    Sched.LocalityDomain.count reg type.code = some 0) → o = (.einval, d))

/-- When a tile is assigned, there are domains, and no division is by zero. -/
def Fits (reg : Sched.LocalityDomain.State δ) (hlevel : ℤ) (assigned : ℕ × ℕ → Prop) (g : Grid)
    (d : Descr) : Prop :=
  ∀ type count, levelType hlevel = some type →
    Sched.LocalityDomain.count reg type.code = some count → count ≠ 0 →
      (∃ p ∈ d.tiles, assigned p) → reg.lddomains ≠ none ∧ g.Proper

theorem exists_count (reg : Sched.LocalityDomain.State δ) (type : LdType) :
    ∃ count, Sched.LocalityDomain.count reg type.code = some count := by
  by_cases hdomains : reg.lddomains = none
  · exact ⟨_, Sched.LocalityDomain.count_none hdomains⟩
  · exact ⟨_, Sched.LocalityDomain.count_code hdomains⟩

variable {assigned : ℕ × ℕ → Prop} {hlevel : ℤ}

/-- The domains of the tiles that are assigned are as they are on the grid. -/
theorem Ready.spread (h : Ready reg) (hcount : count < 2 ^ 32)
    (hproper : (∃ p ∈ old.tiles, assigned p) → g.Proper ∧ count ≠ 0) (hmt : new.mt = old.mt)
    (hnt : new.nt = old.nt)
    (hdomain : ∀ p ∈ old.tiles, assigned p → new.getLdid p.1 p.2 < unmapped ∧
      ∃ ld, HasIndex reg type (g.slot count p.1 p.2) ld ∧ HasId reg (new.getLdid p.1 p.2) ld)
    (hkept : ∀ p ∈ old.tiles, ¬ assigned p → new.getLdid p.1 p.2 = old.getLdid p.1 p.2) :
    Spread reg type count assigned g old new := by
  refine ⟨hmt, hnt, fun p hp hassigned => ?_, hkept, fun hle p hp hassigned => ?_,
    fun hle p hp hassigned q hq hassigned' hwindow => ?_⟩
  · obtain ⟨hlt, ld, hindex, hid⟩ := hdomain p hp hassigned
    have hpos := Nat.pos_of_ne_zero (hproper ⟨p, hp, hassigned⟩).2
    exact ⟨hlt.ne, _, Nat.mod_lt _ hpos, ld, hindex, hid⟩
  · obtain ⟨_, ld, hindex, hid⟩ := hdomain p hp hassigned
    rw [Grid.slot_eq_place (hproper ⟨p, hp, hassigned⟩).1 hle hcount] at hindex
    exact ⟨ld, hindex, hid⟩
  · have hg := (hproper ⟨p, hp, hassigned⟩).1
    obtain ⟨_, ld, hindex, hid⟩ := hdomain p hp hassigned
    obtain ⟨_, ld', hindex', hid'⟩ := hdomain q hq hassigned'
    rw [Grid.slot_eq_place hg hle hcount] at hindex hindex'
    rw [← Grid.place_inj hg hwindow]
    constructor
    · intro heq
      rw [heq] at hid
      exact h.index_unique hindex hindex' hid hid'
    · intro heq
      rw [heq] at hindex
      obtain rfl := (h.inv.table type).unique hindex hindex'
      obtain ⟨_, f, hf, hldid⟩ := hid
      obtain ⟨_, f', hf', hldid'⟩ := hid'
      obtain rfl := Option.some.inj (hf.symm.trans hf')
      exact hldid.symm.trans hldid'

/-- The part that the mapping functions share does what it is for when it fits. -/
theorem mapTiles_iff {lookup : LdType → ℕ → Option ℕ} (h : Ready reg)
    (hlookup : ∀ type r ld, HasIndex reg type r ld →
      ∃ ldid < unmapped, HasId reg ldid ld ∧ lookup type r = some ldid)
    (hassigned : ∀ p, test (d.getLdid p.1 p.2) = true ↔ assigned p) :
    (∃ o, mapTiles reg lookup test hlevel g d = some o ∧ Answers reg hlevel assigned g d o) ↔
      Fits reg hlevel assigned g d := by
  constructor
  · intro ⟨o, ho, hmaps, _⟩ type count hlevel' hcount hne ⟨p, hp, hassigned'⟩
    obtain ⟨_, hspread⟩ := hmaps type count hlevel' hcount hne
    obtain ⟨_, _, _, ld, hindex, _⟩ := hspread.domain p hp hassigned'
    refine ⟨h.lddomains hindex, ?_⟩
    unfold mapTiles at ho
    rw [hlevel'] at ho
    dsimp only at ho
    rw [hcount, Option.bind_some, if_neg hne] at ho
    obtain ⟨d', hd', _⟩ := Option.map_eq_some_iff.mp ho
    exact proper_of_stored hd' hp ((hassigned p).mpr hassigned')
  · intro hfits
    unfold mapTiles
    cases hlevel' : levelType hlevel with
    | none =>
        refine ⟨_, rfl, fun type count htype => ?_, fun _ => rfl⟩
        rw [hlevel'] at htype
        cases htype
    | some type =>
        obtain ⟨count, hcount⟩ := exists_count reg type
        dsimp only
        rw [hcount, Option.bind_some]
        by_cases hzero : count = 0
        · rw [if_pos hzero]
          refine ⟨_, rfl, fun type' count' htype hcount' hne => ?_, fun _ => rfl⟩
          obtain rfl := Option.some.inj (hlevel'.symm.trans htype)
          exact absurd (Option.some.inj (hcount'.symm.trans hcount)) (hzero ▸ hne)
        · rw [if_neg hzero]
          -- the domain of a tile that is assigned
          have hfound : ∀ p ∈ d.tiles, assigned p → g.Proper ∧
              ∃ ld, ∃ ldid < unmapped, HasIndex reg type (g.slot count p.1 p.2) ld ∧
                HasId reg ldid ld ∧ lookup type (g.slot count p.1 p.2) = some ldid := by
            intro p hp hassigned'
            obtain ⟨hdomains, hproper⟩ := hfits type count hlevel' hcount hzero ⟨p, hp, hassigned'⟩
            obtain ⟨_, hdomain⟩ := h.domain hdomains hcount
            obtain ⟨ld, hld⟩ := hdomain _ (Nat.mod_lt _ (Nat.pos_of_ne_zero hzero))
            obtain ⟨ldid, hldid, hid, hlook⟩ := hlookup type _ ld hld
            exact ⟨hproper, ld, ldid, hldid, hld, hid, hlook⟩
          let target : ℕ → ℕ → ℕ := fun i j =>
            (lookup type (g.slot count i j)).getD 0 % 2 ^ 16
          obtain ⟨new, hnew, hstored⟩ : ∃ new,
              d.tiles.foldlM (storeTile (lookup type) test g count) d = some new ∧
                Stored test target d d.tiles new :=
            exists_stored fun p hp htest => by
              obtain ⟨hproper, _, ldid, _, _, _, hlook⟩ :=
                hfound p hp ((hassigned p).mp htest)
              refine ⟨_, ldid, Grid.index_eq hproper hzero _ _, hlook, ?_⟩
              show (lookup type _).getD 0 % 2 ^ 16 = _
              rw [hlook]
              rfl
          rw [hnew]
          refine ⟨_, rfl, fun type' count' htype hcount' _ => ⟨rfl, ?_⟩, fun hnone => ?_⟩
          · obtain rfl := Option.some.inj (hlevel'.symm.trans htype)
            obtain rfl := Option.some.inj (hcount.symm.trans hcount')
            refine h.spread (h.count_lt hcount) (fun hany => ?_) hstored.mt hstored.nt
              (fun p hp hassigned' => ?_) fun p hp hother => ?_
            · exact ⟨(hfits type count hlevel' hcount hzero hany).2, hzero⟩
            · obtain ⟨_, ld, ldid, hlt, hindex, hid, hlook⟩ := hfound p hp hassigned'
              have hvalue : new.getLdid p.1 p.2 = ldid := by
                rw [hstored.done p hp hp, if_pos ((hassigned p).mpr hassigned')]
                show (lookup type _).getD 0 % 2 ^ 16 = _
                rw [hlook]
                exact Nat.mod_eq_of_lt (hlt.trans (by decide))
              rw [hvalue]
              exact ⟨hlt, ld, hindex, hid⟩
            · rw [hstored.done p hp hp, if_neg fun htest => hother ((hassigned p).mp htest)]
          · exact absurd (Option.some.inj (hcount.symm.trans (hnone type hlevel'))) hzero

/-! ## The functions -/

/-- The number of tiles, where it is defined. -/
def tilesOf (M NB : ℕ) : ℕ :=
  (M + 2 ^ 64 + NB - 1) % 2 ^ 64 / NB

/-- The grid of a 1D mapping. -/
def grid1D (colrow : ℤ) (NB m n B G : ℕ) : Grid :=
  if colrow = 0 then ⟨tilesOf m NB, B, 1, G⟩ else ⟨B, tilesOf n NB, G, 1⟩

/-- A tile that is mapped only when it has no domain, unless it is forced. -/
def ToMap (d : Descr) (force : Bool) (p : ℕ × ℕ) : Prop :=
  d.getLdid p.1 p.2 = unmapped ∨ force = true

/-- What `xkblas_map_2Dblock_cyclic` is for. -/
def Maps (reg : Sched.LocalityDomain.State δ) (hlevel : ℤ) (g : Grid) (force : Bool) (d : Descr)
    (o : Status × Descr) : Prop :=
  (d.isinit = false → o = (.einval, d)) ∧
    (d.isinit = true → Answers reg hlevel (ToMap d force) g d o)

/-- The descriptor that is distributed, which is initialized when it is not yet. -/
def startDescr (d : Descr) (m n NB : ℕ) : Option Descr :=
  if d.isinit = false then initMatrixHandle d m n NB else some d

/-- What `xkblas_distribute_2Dblock_cyclic_async` is for. -/
def Distributes (reg : Sched.LocalityDomain.State δ) (hlevel : ℤ) (NB m n : ℕ) (g : Grid)
    (d : Descr) (o : Status × Descr) : Prop :=
  ∃ d₀, startDescr d m n NB = some d₀ ∧ Answers reg hlevel (fun _ => True) g d₀ o

/-- What `xkblas_auto_map` is for: the tiles of the result of a kernel are mapped on the most square
grid of all GPUs. -/
def AutoMaps (reg : Sched.LocalityDomain.State δ) (ctx : Context) (kernel : Kernel) (d : Descr)
    (o : Status × Descr) : Prop :=
  (ctx.ngpus = 0 → o = (.ebusy, d)) ∧
    (ctx.ngpus ≠ 0 → o.1 = .ok ∧ (kernel.mapped = false → o.2 = d) ∧
      (kernel.mapped = true → ∃ Gm Gn status, Gm * Gn = ctx.ngpus ∧
        (∀ a b : ℕ, a * b = ctx.ngpus → ((Gm : ℤ) - Gn).natAbs ≤ ((a : ℤ) - b).natAbs) ∧
          Maps reg 1 ⟨1, 1, Gm, Gn⟩ false d (status, o.2)))

/-- The calls of the functions. -/
inductive Call where
  | autoTilesize (kernel : Kernel) (M N K : Fin (2 ^ 64))
  | autoMap (kernel : Kernel)
  | map2D (hlevel : ℤ) (g : Grid) (force : Bool)
  | map1D (hlevel colrow : ℤ) (m n B G : ℕ) (force : Bool)
  | distribute2D (hlevel : ℤ) (NB m n : ℕ) (g : Grid)
  | distribute1D (hlevel colrow : ℤ) (NB m n B G : ℕ)

/-- A call ends, and its result is what the function is for. -/
def Meets (reg : Sched.LocalityDomain.State δ) (ctx : Context) (d : Descr) : Call → Prop
  | .autoTilesize kernel M N K => ∃ NB, autoTilesize ctx kernel M N K = some NB ∧ 1 ≤ NB
  | .autoMap kernel => ∃ o, autoMap reg ctx kernel d = some o ∧ AutoMaps reg ctx kernel d o
  | .map2D hlevel g force => ∃ o, map2D reg hlevel g force d = some o ∧ Maps reg hlevel g force d o
  | .map1D hlevel colrow m n B G force =>
      ∃ o, map1D reg ctx hlevel colrow m n B G force d = some o ∧
        Maps reg hlevel (grid1D colrow ctx.NB m n B G) force d o
  | .distribute2D hlevel NB m n g =>
      ∃ o, distribute2D reg hlevel NB m n g d = some o ∧ Distributes reg hlevel NB m n g d o
  | .distribute1D hlevel colrow NB m n B G =>
      ∃ o, distribute1D reg hlevel colrow NB m n B G d = some o ∧
        Distributes reg hlevel NB m n (grid1D colrow NB m n B G) d o

/-- The tile size that a call divides by is not zero, and neither is the number of GPUs. When a tile
is assigned, there are domains, and the sides of the grid and of its blocks are not zero. -/
def Condition (reg : Sched.LocalityDomain.State δ) (ctx : Context) (d : Descr) : Call → Prop
  | .autoTilesize _ _ _ _ => ctx.NB ≠ 0 ∨ ctx.ngpus ≠ 0
  | .autoMap kernel => ctx.ngpus ≠ 0 → kernel.mapped = true → d.isinit = true →
      ∀ count, Sched.LocalityDomain.count reg LdType.gpu.code = some count → count ≠ 0 →
        (∃ p ∈ d.tiles, d.getLdid p.1 p.2 = unmapped) → reg.lddomains ≠ none
  | .map2D hlevel g force => d.isinit = true → Fits reg hlevel (ToMap d force) g d
  | .map1D hlevel colrow m n B G force => ctx.NB ≠ 0 ∧
      (d.isinit = true → Fits reg hlevel (ToMap d force) (grid1D colrow ctx.NB m n B G) d)
  | .distribute2D hlevel NB m n g => (d.isinit = false → NB ≠ 0) ∧
      ∀ d₀, startDescr d m n NB = some d₀ → Fits reg hlevel (fun _ => True) g d₀
  | .distribute1D hlevel colrow NB m n B G => NB ≠ 0 ∧
      ∀ d₀, startDescr d m n NB = some d₀ →
        Fits reg hlevel (fun _ => True) (grid1D colrow NB m n B G) d₀

theorem numOfTiles_eq (hNB : NB ≠ 0) (M : ℕ) : numOfTiles M NB = some (tilesOf M NB) :=
  if_neg hNB

theorem numOfTiles_zero (M : ℕ) : numOfTiles M 0 = none :=
  rfl

theorem map2D_iff (h : Ready reg) {force : Bool} :
    (∃ o, map2D reg hlevel g force d = some o ∧ Maps reg hlevel g force d o) ↔
      (d.isinit = true → Fits reg hlevel (ToMap d force) g d) := by
  have htiles : (∃ o, mapTiles reg (ldidOf reg) (fun ldid => decide (ldid = unmapped) || force)
      hlevel g d = some o ∧ Answers reg hlevel (ToMap d force) g d o) ↔
        Fits reg hlevel (ToMap d force) g d := by
    refine mapTiles_iff h (fun type r ld hld => ?_) fun p => ?_
    · obtain ⟨ldid, hlt, hid, hlook, _⟩ := h.lookup hld
      exact ⟨ldid, hlt, hid, hlook⟩
    · rw [Bool.or_eq_true, decide_eq_true_iff]
      rfl
  unfold map2D
  by_cases hinit : d.isinit = false
  · rw [if_pos hinit]
    refine iff_of_true ⟨_, rfl, fun _ => rfl, fun h' => ?_⟩ fun h' => ?_ <;>
      · rw [hinit] at h'
        cases h'
  · have hinit' : d.isinit = true := Bool.eq_true_of_not_eq_false hinit
    rw [if_neg hinit]
    constructor
    · intro ⟨o, ho, hmaps⟩ _
      exact htiles.mp ⟨o, ho, hmaps.2 hinit'⟩
    · intro hfits
      obtain ⟨o, ho, hanswers⟩ := htiles.mpr (hfits hinit')
      exact ⟨o, ho, fun h' => absurd h' hinit, fun _ => hanswers⟩

theorem distribute2D_iff (h : Ready reg) {m n : ℕ} :
    (∃ o, distribute2D reg hlevel NB m n g d = some o ∧ Distributes reg hlevel NB m n g d o) ↔
      (d.isinit = false → NB ≠ 0) ∧
        ∀ d₀, startDescr d m n NB = some d₀ → Fits reg hlevel (fun _ => True) g d₀ := by
  have htiles : ∀ d₀, (∃ o, mapTiles reg
      (fun type => Sched.LocalityDomain.getNum reg type.code) (fun _ => true) hlevel g d₀ = some o ∧
        Answers reg hlevel (fun _ => True) g d₀ o) ↔ Fits reg hlevel (fun _ => True) g d₀ := by
    refine fun d₀ => mapTiles_iff h (fun type r ld hld => ?_) fun _ => iff_of_true rfl trivial
    obtain ⟨ldid, hlt, hid, _, hnum⟩ := h.lookup hld
    exact ⟨ldid, hlt, hid, hnum⟩
  have hsome : (∃ d₀, startDescr d m n NB = some d₀) ↔ (d.isinit = false → NB ≠ 0) := by
    unfold startDescr
    by_cases hinit : d.isinit = false
    · rw [if_pos hinit]
      unfold initMatrixHandle
      by_cases hNB : NB = 0
      · rw [hNB, numOfTiles_zero]
        exact iff_of_false nofun fun hne => hne hinit rfl
      · rw [numOfTiles_eq hNB, numOfTiles_eq hNB]
        exact iff_of_true ⟨_, rfl⟩ fun _ => hNB
    · rw [if_neg hinit]
      exact iff_of_true ⟨d, rfl⟩ fun hinit' => absurd hinit' hinit
  unfold distribute2D
  rw [← startDescr, ← hsome]
  constructor
  · intro ⟨o, ho, d₀, hd₀, hanswers⟩
    rw [hd₀, Option.bind_some] at ho
    refine ⟨⟨d₀, hd₀⟩, fun d₁ hd₁ => ?_⟩
    obtain rfl := Option.some.inj (hd₀.symm.trans hd₁)
    exact (htiles d₀).mp ⟨o, ho, hanswers⟩
  · intro ⟨⟨d₀, hd₀⟩, hfits⟩
    obtain ⟨o, ho, hanswers⟩ := (htiles d₀).mpr (hfits d₀ hd₀)
    refine ⟨o, ?_, d₀, hd₀, hanswers⟩
    rw [hd₀]
    exact ho

theorem map1D_iff (h : Ready reg) {colrow : ℤ} {m n B G : ℕ} {force : Bool} :
    (∃ o, map1D reg ctx hlevel colrow m n B G force d = some o ∧
        Maps reg hlevel (grid1D colrow ctx.NB m n B G) force d o) ↔
      ctx.NB ≠ 0 ∧
        (d.isinit = true → Fits reg hlevel (ToMap d force) (grid1D colrow ctx.NB m n B G) d) := by
  unfold map1D grid1D
  by_cases hNB : ctx.NB = 0
  · rw [hNB, numOfTiles_zero, numOfTiles_zero]
    refine iff_of_false (fun ⟨o, ho, _⟩ => ?_) fun hne => hne.1 rfl
    split at ho <;> cases ho
  · rw [numOfTiles_eq hNB, numOfTiles_eq hNB, and_iff_right hNB]
    by_cases hcol : colrow = 0
    · rw [if_pos hcol, if_pos hcol, Option.bind_some]
      exact map2D_iff h
    · rw [if_neg hcol, if_neg hcol, Option.bind_some]
      exact map2D_iff h

theorem distribute1D_iff (h : Ready reg) {colrow : ℤ} {m n B G : ℕ} :
    (∃ o, distribute1D reg hlevel colrow NB m n B G d = some o ∧
        Distributes reg hlevel NB m n (grid1D colrow NB m n B G) d o) ↔
      NB ≠ 0 ∧ ∀ d₀, startDescr d m n NB = some d₀ →
        Fits reg hlevel (fun _ => True) (grid1D colrow NB m n B G) d₀ := by
  unfold distribute1D grid1D
  by_cases hNB : NB = 0
  · rw [hNB, numOfTiles_zero, numOfTiles_zero]
    refine iff_of_false (fun ⟨o, ho, _⟩ => ?_) fun hne => hne.1 rfl
    split at ho <;> cases ho
  · rw [numOfTiles_eq hNB, numOfTiles_eq hNB, and_iff_right hNB]
    by_cases hcol : colrow = 0
    · rw [if_pos hcol, if_pos hcol, Option.bind_some]
      exact (distribute2D_iff h).trans (and_iff_right fun _ => hNB)
    · rw [if_neg hcol, if_neg hcol, Option.bind_some]
      exact (distribute2D_iff h).trans (and_iff_right fun _ => hNB)

theorem autoMap_iff (h : Ready reg) :
    (∃ o, autoMap reg ctx kernel d = some o ∧ AutoMaps reg ctx kernel d o) ↔
      (ctx.ngpus ≠ 0 → kernel.mapped = true → d.isinit = true →
        ∀ count, Sched.LocalityDomain.count reg LdType.gpu.code = some count → count ≠ 0 →
          (∃ p ∈ d.tiles, d.getLdid p.1 p.2 = unmapped) → reg.lddomains ≠ none) := by
  constructor
  · intro ⟨o, _, _, hmaps⟩ hngpus hmapped hinit count hcount hne ⟨p, hp, hunmapped⟩
    obtain ⟨_, _, hgrid⟩ := hmaps hngpus
    obtain ⟨Gm, Gn, status, _, _, _, hanswers⟩ := hgrid hmapped
    obtain ⟨_, hspread⟩ := (hanswers hinit).1 .gpu count rfl hcount hne
    obtain ⟨_, _, _, ld, hindex, _⟩ := hspread.domain p hp (.inl hunmapped)
    exact h.lddomains hindex
  · intro hdomains
    unfold autoMap
    by_cases hngpus : ctx.ngpus = 0
    · rw [if_pos hngpus]
      exact ⟨_, rfl, fun _ => rfl, fun hne => absurd hngpus hne⟩
    · rw [if_neg hngpus]
      by_cases hmapped : kernel.mapped = true
      · rw [if_pos hmapped]
        obtain ⟨hmul, hmin⟩ := autoGrid_spec (Nat.pos_of_ne_zero hngpus)
        have hproper : Grid.Proper ⟨1, 1, (autoGrid ctx.ngpus).1, (autoGrid ctx.ngpus).2⟩ := by
          refine ⟨Nat.one_ne_zero, ?_, Nat.one_ne_zero, ?_⟩ <;> intro hzero
          · change (autoGrid ctx.ngpus).1 = 0 at hzero
            rw [hzero, Nat.zero_mul] at hmul
            exact hngpus hmul.symm
          · change (autoGrid ctx.ngpus).2 = 0 at hzero
            rw [hzero, Nat.mul_zero] at hmul
            exact hngpus hmul.symm
        have hfits : d.isinit = true → Fits reg 1 (ToMap d false)
            ⟨1, 1, (autoGrid ctx.ngpus).1, (autoGrid ctx.ngpus).2⟩ d := by
          intro hinit type count hlevel hcount hne ⟨p, hp, hassigned⟩
          obtain rfl := Option.some.inj hlevel
          have hunmapped := hassigned.resolve_right Bool.false_ne_true
          exact ⟨hdomains hngpus hmapped hinit count hcount hne ⟨p, hp, hunmapped⟩, hproper⟩
        obtain ⟨o, ho, hmaps⟩ := (map2D_iff h).mpr hfits
        refine ⟨(.ok, o.2), ?_, fun hzero => absurd hzero hngpus, fun _ => ⟨rfl, fun hno => ?_,
          fun _ => ⟨_, _, o.1, hmul, hmin, hmaps⟩⟩⟩
        · dsimp only
          rw [ho]
          rfl
        · rw [hmapped] at hno
          cases hno
      · rw [if_neg hmapped]
        exact ⟨_, rfl, fun hzero => absurd hzero hngpus, fun _ =>
          ⟨rfl, fun _ => rfl, fun hmapped' => absurd hmapped' hmapped⟩⟩

/-- After attaches whose identifiers are values of `uint16_t`, the functions are what they are for
if and only if the tile sizes and numbers of GPUs that they divide by are not zero. -/
theorem blockCyclic_iff [DecidableEq δ]
    (hreg : (Sched.LocalityDomain.system δ).ReachableWhen Attaches reg)
    (hldid : reg.ldid ≤ unmapped) (ctx : Context) (d : Descr) (call : Call) :
    Meets reg ctx d call ↔ Condition reg ctx d call := by
  have h := ready_of_reachable hreg hldid
  cases call with
  | autoTilesize kernel M N K => exact autoTilesize_iff M.isLt N.isLt
  | autoMap kernel => exact autoMap_iff h
  | map2D hlevel g force => exact map2D_iff h
  | map1D hlevel colrow m n B G force => exact map1D_iff h
  | distribute2D hlevel NB m n g => exact distribute2D_iff h
  | distribute1D hlevel colrow NB m n B G => exact distribute1D_iff h

end

/-- The domain of the host and two domains of GPUs below it. -/
def hostAndTwoGpus : List (Sched.LocalityDomain.Action (Fin 3)) :=
  [.attach 0x02#32 none 0 none, .attach 0x10#32 (some 0) 1 none, .attach 0x10#32 (some 0) 2 none]

set_option maxRecDepth 20000 in
/-- A matrix of two by two tiles on a row of two GPUs. -/
theorem blockCyclic_iff_twoGpus :
    ∃ reg, (Sched.LocalityDomain.system (Fin 3)).replay Attaches
        (Sched.LocalityDomain.start (Fin 3)) hostAndTwoGpus = some reg ∧
      Meets reg (contextAlloc 0 2) ⟨true, 2, 2, fun _ => unmapped⟩
        (.map2D 1 ⟨1, 1, 1, 2⟩ false) := by
  let reg := ((Sched.LocalityDomain.system (Fin 3)).replay Attaches
    (Sched.LocalityDomain.start (Fin 3)) hostAndTwoGpus).get (by decide)
  have hrun : (Sched.LocalityDomain.system (Fin 3)).replay Attaches
      (Sched.LocalityDomain.start (Fin 3)) hostAndTwoGpus = some reg :=
    (Option.some_get _).symm
  have hdomains : reg.lddomains ≠ none := by decide
  have hproper : Grid.Proper ⟨1, 1, 1, 2⟩ := by
    unfold Grid.Proper
    decide
  exact ⟨reg, hrun, (blockCyclic_iff (.replay (.start rfl) hrun) (by decide) _ _ _).mpr
    fun _ _ _ _ _ _ _ => ⟨hdomains, hproper⟩⟩

/-- No GPUs are accepted, and then no tile size is chosen; a tile size of 0 is accepted, and then
the 1D mapping divides by it. -/
theorem not_blockCyclic :
    let ctx := (setNgpus 4 (contextAlloc 0 4) 0).2
    (setNgpus 4 (contextAlloc 0 4) 0).1 = .ok ∧
      ¬ Meets (Sched.LocalityDomain.start (Fin 1)) ctx ⟨true, 1, 1, fun _ => unmapped⟩
        (.autoTilesize .gemm 1024 1024 1024) ∧
      ¬ Meets (Sched.LocalityDomain.start (Fin 1)) (contextAlloc 0 4)
        ⟨true, 1, 1, fun _ => unmapped⟩ (.map1D 1 0 1024 1024 1 4 false) := by
  refine ⟨rfl, fun ⟨NB, hNB, _⟩ => ?_, fun ⟨o, ho, _⟩ => nomatch ho⟩
  rw [autoTilesize_zero rfl rfl] at hNB
  cases hNB

end Xkblas.Blas.BlockCyclic
