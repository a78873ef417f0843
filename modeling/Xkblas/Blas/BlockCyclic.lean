import Mathlib.Data.List.ProdSigma
import Mathlib.Data.Nat.Sqrt
import Xkblas.Library.CheckedTable
import Xkblas.Sched.LocalityDomain

/-!
# Tile sizes and block-cyclic mappings

`xkblas_auto_tilesize` chooses the tile size of a call from the number of GPUs when the user has
set none, and `xkblas_auto_map` maps the result of a call on a grid of all GPUs. The mapping
functions store for the tiles of a matrix the identifiers of locality domains: the block of the tile
gives a place of the grid, and the place the index of a domain.

The build has `XKBLAS_ADAPTATIVE` 0, with which every thread uses all GPUs. Operations of the type
`size_t` wrap, and a division by zero is `none`, as is an access through a null pointer.
-/

namespace Xkblas.Blas.BlockCyclic

open Library
open Sched.LocalityDomain (LdType)

/-- `xkblas_kernel_t` -/
inductive Kernel where
  | void
  | gemm
  | gemmt
  | trmm
  | trsm
  | symm
  | syrk
  | syr2k
  | hemm
  | herk
  | her2k
  | swap
  | copyscale
  deriving DecidableEq, Repr

/-- What a function returns. -/
inductive Status where
  | ok
  | einval
  | ebusy
  | edom
  deriving DecidableEq, Repr

/-- The fields of a `xkblas_context_t` that are used here. `ngpus` is an `int` that is only given
numbers of GPUs of the type `uint8_t`. -/
structure Context where
  NB : ℕ
  ngpus : ℕ
  ngpus_lt : ngpus < 2 ^ 8

/-- `xkblas_set_ngpus` -/
def setNgpus (sysNgpus : Fin (2 ^ 8)) (ctx : Context) (ngpus : ℤ) : Status × Context :=
  if ngpus < 0 then (.einval, ctx)
  else if h : (sysNgpus : ℕ) < ngpus then
    (.edom, { ctx with ngpus := sysNgpus, ngpus_lt := sysNgpus.isLt })
  else
    (.ok, { ctx with
      ngpus := ngpus.toNat
      ngpus_lt := by
        have hlt := sysNgpus.isLt
        omega })

/-- A new context with the `NB` of `xkblas_set_param`. -/
def contextAlloc (NB : ℕ) (ngpus : Fin (2 ^ 8)) : Context :=
  ⟨NB, ngpus, ngpus.isLt⟩

/-- `a / b` -/
def divide (a b : ℕ) : Option ℕ :=
  if b = 0 then none else some (a / b)

/-- `a % b` -/
def modulo (a b : ℕ) : Option ℕ :=
  if b = 0 then none else some (a % b)

/-- `x & ~(2^k - 1)` -/
def clearLow (x k : ℕ) : ℕ :=
  x / 2 ^ k * 2 ^ k

/-- `(x + 63) & ~63UL` -/
def round64 (x : ℕ) : ℕ :=
  clearLow ((x + 63) % 2 ^ 64) 6

/-- `M / (fact * ngpus)` -/
def share (M fact ngpus : ℕ) : Option ℕ :=
  divide M (fact * ngpus % 2 ^ 64)

/-! ## The tile size -/

/-- The ends of the cases `KERN_SYRK` and `KERN_SYR2K`. -/
def limit512 (M fact ngpus NB : ℕ) : Option ℕ :=
  (if 4096 < NB then share M (2 * fact) ngpus else some NB).map fun NB =>
    if NB < 512 then 512 else NB

/-- The code from `redo_syrk` on, which is run again with one less when `fact` is 2. -/
def redoSyrk (M ngpus : ℕ) : ℕ → Option ℕ
  | 0 => none
  | fact + 1 =>
      (share M (fact + 1) ngpus).bind fun NB =>
        let NB := if 2048 ≤ NB then clearLow NB 11 else NB
        if NB ≤ 1024 ∧ fact + 1 = 2 then redoSyrk M ngpus fact
        else limit512 M (fact + 1) ngpus NB

/-- The code from `redo_syr2k` on, which is run again with one less while `fact` is above 2. -/
def redoSyr2k (M ngpus : ℕ) : ℕ → Option ℕ
  | 0 => none
  | fact + 1 =>
      (share M (fact + 1) ngpus).bind fun NB =>
        let NB := round64 NB
        if NB ≤ 2048 ∧ 2 < fact + 1 then redoSyr2k M ngpus fact
        else limit512 M (fact + 1) ngpus NB

/-- The case `KERN_SYMM`. -/
def symmTilesize (M ngpus : ℕ) : Option ℕ :=
  (share M 1 ngpus).map fun NB =>
    let NB := clearLow NB 10
    let NB := if NB < 1024 then 1024 else NB
    if NB < 4096 then NB * 2 else NB

/-- The case `KERN_TRMM`. -/
def trmmTilesize (M ngpus : ℕ) : Option ℕ :=
  (share M 2 ngpus).map fun NB =>
    let NB := round64 NB
    if NB < 2048 then 2048 else NB

/-- The case `KERN_GEMM`. -/
def gemmTilesize (M ngpus : ℕ) : Option ℕ :=
  (share M 1 ngpus).bind fun NB =>
    let NB := if ngpus < M ∧ 16384 < M ∧ NB < 2048 then 2048 else NB
    (if 4096 < NB then share M 2 ngpus else some NB).map fun NB =>
      round64 (if NB < 512 then 512 else NB)

/-- The default case. -/
def defaultTilesize (M ngpus : ℕ) : Option ℕ :=
  (share M 1 ngpus).bind fun NB =>
    (if 4096 ≤ NB then share M 2 ngpus else some NB).map fun NB =>
      round64 (if NB < 1024 then 1024 else NB)

/-- `xkblas_auto_tilesize` -/
def autoTilesize (ctx : Context) (kernel : Kernel) (M N _K : ℕ) : Option ℕ :=
  if ctx.NB ≠ 0 then some ctx.NB
  else
    let M := if M < N then N else M
    match kernel with
    | .herk | .syrk => redoSyrk M ctx.ngpus 2
    | .her2k | .syr2k => redoSyr2k M ctx.ngpus 4
    | .hemm | .symm => symmTilesize M ctx.ngpus
    | .trmm | .trsm => trmmTilesize M ctx.ngpus
    | .gemmt | .gemm => gemmTilesize M ctx.ngpus
    | .swap | .copyscale | .void => defaultTilesize M ctx.ngpus

/-! ## The mappings -/

/-- The fields of a matrix descriptor. Without an address it is not initialized. -/
structure Descr where
  isinit : Bool
  mt : ℕ
  nt : ℕ
  ldid : ℕ → ℕ

/-- `(uint16_t)-1`, for a tile that is not mapped. -/
def unmapped : ℕ :=
  2 ^ 16 - 1

/-- `xkblas_get_ldid` -/
def Descr.getLdid (d : Descr) (m n : ℕ) : ℕ :=
  d.ldid (m * d.nt + n)

/-- `xkblas_set_ldid`, with a value that becomes a `uint16_t`. -/
def Descr.setLdid (d : Descr) (m n val : ℕ) : Descr :=
  { d with ldid := Function.update d.ldid (m * d.nt + n) (val % 2 ^ 16) }

/-- `xkblas_num_of_tiles` -/
def numOfTiles (M NB : ℕ) : Option ℕ :=
  divide ((M + 2 ^ 64 + NB - 1) % 2 ^ 64) NB

/-- `xkblas_init_matrix_handle` with square tiles. -/
def initMatrixHandle (d : Descr) (M N NB : ℕ) : Option Descr :=
  (numOfTiles M NB).bind fun mt => (numOfTiles N NB).map fun nt =>
    { isinit := true
      mt
      nt
      ldid := fun k => if k < mt * nt then unmapped else d.ldid k }

/-- The switch on `hlevel`. -/
def levelType : ℤ → Option LdType
  | 0 => some .board
  | 1 => some .gpu
  | 2 => some .core
  | _ => none

/-- Blocks of `Bp * Bq` tiles on a grid of `Gp * Gq` places. -/
structure Grid where
  Bp : ℕ
  Bq : ℕ
  Gp : ℕ
  Gq : ℕ

/-- `(((i/Bp)%Gp)*Gq + (j/Bq)%Gq) % count` -/
def Grid.index (g : Grid) (count i j : ℕ) : Option ℕ :=
  (divide i g.Bp).bind fun bi => (modulo bi g.Gp).bind fun p =>
  (divide j g.Bq).bind fun bj => (modulo bj g.Gq).bind fun q =>
    modulo ((p * g.Gq + q) % 2 ^ 64) count

/-- The tiles in the order of the loops. -/
def Descr.tiles (d : Descr) : List (ℕ × ℕ) :=
  List.range d.mt ×ˢ List.range d.nt

/-- The body of the loops over the tiles. A tile that satisfies `test` gets the identifier that
`lookup` finds for its index. -/
def storeTile (lookup : ℕ → Option ℕ) (test : ℕ → Bool) (g : Grid) (count : ℕ) (d : Descr)
    (p : ℕ × ℕ) : Option Descr :=
  if test (d.getLdid p.1 p.2) then
    (g.index count p.1 p.2).bind fun r => (lookup r).map (d.setLdid p.1 p.2)
  else some d

section

variable {δ : Type*} (reg : Sched.LocalityDomain.State δ)

/-- The part that the mapping functions share. -/
def mapTiles (lookup : LdType → ℕ → Option ℕ) (test : ℕ → Bool) (hlevel : ℤ) (g : Grid)
    (d : Descr) : Option (Status × Descr) :=
  match levelType hlevel with
  | none => some (.einval, d)
  | some type =>
      (Sched.LocalityDomain.count reg type.code).bind fun count =>
        if count = 0 then some (.einval, d)
        else (d.tiles.foldlM (storeTile (lookup type) test g count) d).map fun d => (.ok, d)

/-- `kaapi_localitydomain_get_bytype(type, r)->ldid` -/
def ldidOf (type : LdType) (r : ℕ) : Option ℕ :=
  (Sched.LocalityDomain.getBytype reg type.code r).bind fun ld =>
    ld.bind fun ld => (reg.fields ld).map Sched.LocalityDomain.Fields.ldid

/-- `xkblas_map_2Dblock_cyclic` -/
def map2D (hlevel : ℤ) (g : Grid) (force : Bool) (d : Descr) : Option (Status × Descr) :=
  if d.isinit = false then some (.einval, d)
  else mapTiles reg (ldidOf reg) (fun ldid => decide (ldid = unmapped) || force) hlevel g d

/-- `xkblas_map_1Dblock_cyclic` -/
def map1D (ctx : Context) (hlevel colrow : ℤ) (m n B G : ℕ) (force : Bool) (d : Descr) :
    Option (Status × Descr) :=
  if colrow = 0 then
    (numOfTiles m ctx.NB).bind fun Bp => map2D reg hlevel ⟨Bp, B, 1, G⟩ force d
  else
    (numOfTiles n ctx.NB).bind fun Bq => map2D reg hlevel ⟨B, Bq, G, 1⟩ force d

/-- `xkblas_distribute_2Dblock_cyclic_async`. The tasks that copy the tiles are left out. -/
def distribute2D (hlevel : ℤ) (NB m n : ℕ) (g : Grid) (d : Descr) : Option (Status × Descr) :=
  (if d.isinit = false then initMatrixHandle d m n NB else some d).bind
    (mapTiles reg (fun type => Sched.LocalityDomain.getNum reg type.code) (fun _ => true) hlevel g)

/-- `xkblas_distribute_1Dblock_cyclic_async` -/
def distribute1D (hlevel colrow : ℤ) (NB m n B G : ℕ) (d : Descr) : Option (Status × Descr) :=
  if colrow = 0 then
    (numOfTiles m NB).bind fun Bp => distribute2D reg hlevel NB m n ⟨Bp, B, 1, G⟩ d
  else
    (numOfTiles n NB).bind fun Bq => distribute2D reg hlevel NB m n ⟨B, Bq, G, 1⟩ d

/-- `for (; g>0; --g) if (ngpus % g == 0) break;` -/
def largestDivisor (ngpus : ℕ) : ℕ → ℕ
  | 0 => 0
  | g + 1 => if ngpus % (g + 1) = 0 then g + 1 else largestDivisor ngpus g

/-- The grid of `xkblas_auto_map`. -/
def autoGrid (ngpus : ℕ) : ℕ × ℕ :=
  let Gm := Nat.sqrt ngpus
  if Gm = 0 then (1, ngpus)
  else
    match largestDivisor ngpus (Gm + 1) with
    | 0 => (ngpus, 1)
    | g + 1 => (g + 1, ngpus / (g + 1))

/-- The kernels whose result `xkblas_auto_map` maps. -/
def Kernel.mapped : Kernel → Bool
  | .swap | .void => false
  | _ => true

/-- `xkblas_auto_map`, which does not look at what the mapping returns. -/
def autoMap (ctx : Context) (kernel : Kernel) (d : Descr) : Option (Status × Descr) :=
  if ctx.ngpus = 0 then some (.ebusy, d)
  else if kernel.mapped = true then
    let (Gm, Gn) := autoGrid ctx.ngpus
    (map2D reg 1 ⟨1, 1, Gm, Gn⟩ false d).map fun o => (.ok, o.2)
  else some (.ok, d)

end

end Xkblas.Blas.BlockCyclic
