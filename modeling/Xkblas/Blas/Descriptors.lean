import Xkblas.Blas.PassedTiles
import Xkblas.Library.TransitionSystem

/-!
# The table of descriptors

`xkblas_find` looks a descriptor up by the base address of a matrix, and a call initialises it when
`xkblas_matrix_descr_isinit` says that it is not. From then on every call that gives this address
gets this descriptor, with the sizes, the leading dimension and the tile size of the call that came
first. The loops of a routine take some sizes from the descriptor and some from the call.

The calls of an application are steps on the table. The model records the tiles that each call
passes to its tasks; `Insertion.Exact` says that they are those of the matrices of the call itself.
-/

namespace Xkblas.Blas

open Library

/-! ## Calls -/

/-- The calls of the routines that insert tasks in tile loops. -/
inductive Call (R : Type*) where
  | zgemm (transA transB : Trans) (M N K : ℤ) (alpha : R) (LDA LDB : ℤ) (beta : R) (LDC : ℤ)
  | zgemmt (uplo : Option Uplo) (transA transB : Trans) (N K : ℤ) (alpha : R) (LDA LDB : ℤ)
      (beta : R) (LDC : ℤ)
  | zsymm (side : Side) (uplo : Uplo) (M N : ℤ) (alpha : R) (LDA LDB : ℤ) (beta : R) (LDC : ℤ)
  | zhemm (side : Side) (uplo : Uplo) (M N : ℤ) (alpha : R) (LDA LDB : ℤ) (beta : R) (LDC : ℤ)
  | zsyrk (uplo : Uplo) (transA : Trans) (N K : ℤ) (alpha : R) (LDA : ℤ) (beta : R) (LDC : ℤ)
  | zherk (uplo : Uplo) (transA : Trans) (N K : ℤ) (alpha : R) (LDA : ℤ) (beta : R) (LDC : ℤ)
  | zsyr2k (uplo : Uplo) (transA : Trans) (N K : ℤ) (alpha : R) (LDA LDB : ℤ) (beta : R) (LDC : ℤ)
  | zher2k (uplo : Uplo) (transA : Trans) (N K : ℤ) (alpha : R) (LDA LDB : ℤ) (beta : R) (LDC : ℤ)
  | ztrmm (side : Side) (uplo : Uplo) (transA : Trans) (diag : Diag) (N NRHS : ℤ) (alpha : R)
      (LDA LDB : ℤ)
  | ztrsm (side : Side) (uplo : Uplo) (transA : Trans) (diag : Diag) (N NRHS : ℤ) (alpha : R)
      (LDA LDB : ℤ)
  | zswap (M N i j : ℤ) (LDC : ℤ)
  | zcopyscale (M N : ℕ) (ldd ldl ldu : ℕ)

section Checks

variable {R : Type*} [Zero R] [One R] [DecidableEq R]

/-- The checks of the arguments and the quick return of `xkblas_zgemm_async`: whether its loops
run, or the error code that it returns. -/
def zgemmRuns (transA transB : Trans) (M N K : ℤ) (alpha : R) (LDA LDB : ℤ) (beta : R) (LDC : ℤ) :
    Except ℤ Bool :=
  let Am := (transA.size M.toNat K.toNat).1
  let Bm := (transB.size K.toNat N.toNat).1
  if M < 0 then .error (-3)
  else if N < 0 then .error (-4)
  else if K < 0 then .error (-5)
  else if illegalLd LDA Am then .error (-8)
  else if illegalLd LDB Bm then .error (-10)
  else if illegalLd LDC M.toNat then .error (-13)
  else .ok (¬ (M = 0 ∨ N = 0 ∨ ((alpha = 0 ∨ K = 0) ∧ beta = 1)))

/-- Those of `xkblas_zgemmt_async`. -/
def zgemmtRuns (transA transB : Trans) (N K : ℤ) (alpha : R) (LDA LDB : ℤ) (beta : R) (LDC : ℤ) :
    Except ℤ Bool :=
  let Am := (transA.size N.toNat K.toNat).1
  let Bm := (transB.size K.toNat N.toNat).1
  if N < 0 then .error (-4)
  else if K < 0 then .error (-5)
  else if illegalLd LDA Am then .error (-8)
  else if illegalLd LDB Bm then .error (-10)
  else if illegalLd LDC N.toNat then .error (-13)
  else .ok (¬ (N = 0 ∨ ((alpha = 0 ∨ K = 0) ∧ beta = 1)))

/-- Those of `xkblas_zsymm_async` and `xkblas_zhemm_async`. -/
def zsymmRuns (side : Side) (M N : ℤ) (alpha : R) (LDA LDB : ℤ) (beta : R) (LDC : ℤ) :
    Except ℤ Bool :=
  let Am := side.rowDim M.toNat N.toNat
  if M < 0 then .error (-3)
  else if N < 0 then .error (-4)
  else if illegalLd LDA Am then .error (-7)
  else if illegalLd LDB M.toNat then .error (-9)
  else if illegalLd LDC M.toNat then .error (-12)
  else .ok (¬ (M = 0 ∨ N = 0 ∨ (alpha = 0 ∧ beta = 1)))

/-- Those of `xkblas_zsyrk_async` and `xkblas_zherk_async`. -/
def rankKRuns (transT transA : Trans) (N K : ℤ) (alpha : R) (LDA : ℤ) (beta : R) (LDC : ℤ) :
    Except ℤ Bool :=
  let Am := (transA.size N.toNat K.toNat).1
  if transA ≠ .noTrans ∧ transA ≠ transT then .error (-2)
  else if N < 0 then .error (-3)
  else if K < 0 then .error (-4)
  else if illegalLd LDA Am then .error (-7)
  else if illegalLd LDC N.toNat then .error (-10)
  else .ok (¬ (N = 0 ∨ ((alpha = 0 ∨ K = 0) ∧ beta = 1)))

/-- Those of `xkblas_zsyr2k_async` and `xkblas_zher2k_async`. -/
def rank2KRuns (transT transA : Trans) (N K : ℤ) (alpha : R) (LDA LDB : ℤ) (beta : R) (LDC : ℤ) :
    Except ℤ Bool :=
  let Am := (transA.size N.toNat K.toNat).1
  if transA ≠ .noTrans ∧ transA ≠ transT then .error (-2)
  else if N < 0 then .error (-3)
  else if K < 0 then .error (-4)
  else if illegalLd LDA Am then .error (-7)
  else if illegalLd LDB Am then .error (-9)
  else if illegalLd LDC N.toNat then .error (-12)
  else .ok (¬ (N = 0 ∨ ((alpha = 0 ∨ K = 0) ∧ beta = 1)))

/-- Those of `xkblas_ztrmm_async` and `xkblas_ztrsm_async`. -/
def panelRuns (side : Side) (N NRHS LDA LDB : ℤ) : Except ℤ Bool :=
  let NA := if side = .left then N else NRHS
  if N < 0 then .error (-5)
  else if NRHS < 0 then .error (-6)
  else if illegalLd LDA NA.toNat then .error (-8)
  else if illegalLd LDB N.toNat then .error (-10)
  else .ok (¬ (min N NRHS = 0))

/-- Those of `xkblas_zswap_async`. A column is rejected when its index is greater than `N`. -/
def zswapRuns (M N i j LDC : ℤ) : Except ℤ Bool :=
  if M < 0 then .error (-3)
  else if N < 0 then .error (-4)
  else if i < 0 ∨ i > N then .error (-5)
  else if j < 0 ∨ j > N then .error (-8)
  else if illegalLd LDC M.toNat then .error (-13)
  else .ok (¬ (M = 0 ∨ N = 0 ∨ i = j))

/-- Those of `xkblas_zcopyscale_async`, which has no quick return. -/
def zcopyscaleRuns (M N ldd ldl ldu : ℕ) : Except ℤ Bool :=
  if ldd < N then .error (-5)
  else if ldl < N then .error (-7)
  else if ldu < M then .error (-9)
  else .ok true

/-- Whether the loops of a call run, or its error code. -/
def Call.runs : Call R → Except ℤ Bool
  | .zgemm transA transB M N K alpha LDA LDB beta LDC =>
      zgemmRuns transA transB M N K alpha LDA LDB beta LDC
  | .zgemmt _ transA transB N K alpha LDA LDB beta LDC =>
      zgemmtRuns transA transB N K alpha LDA LDB beta LDC
  | .zsymm side _ M N alpha LDA LDB beta LDC => zsymmRuns side M N alpha LDA LDB beta LDC
  | .zhemm side _ M N alpha LDA LDB beta LDC => zsymmRuns side M N alpha LDA LDB beta LDC
  | .zsyrk _ transA N K alpha LDA beta LDC => rankKRuns .trans transA N K alpha LDA beta LDC
  | .zherk _ transA N K alpha LDA beta LDC => rankKRuns .conjTrans transA N K alpha LDA beta LDC
  | .zsyr2k _ transA N K alpha LDA LDB beta LDC =>
      rank2KRuns .trans transA N K alpha LDA LDB beta LDC
  | .zher2k _ transA N K alpha LDA LDB beta LDC =>
      rank2KRuns .conjTrans transA N K alpha LDA LDB beta LDC
  | .ztrmm side _ _ _ N NRHS _ LDA LDB => panelRuns side N NRHS LDA LDB
  | .ztrsm side _ _ _ N NRHS _ LDA LDB => panelRuns side N NRHS LDA LDB
  | .zswap M N i j LDC => zswapRuns M N i j LDC
  | .zcopyscale M N ldd ldl ldu => zcopyscaleRuns M N ldd ldl ldu

end Checks

/-! ## Tiles of a call -/

/-- The descriptor of the columns of `xkblas_zswap_async`. It has no `A` and no `B`. -/
def zswapDescr (NB M N : ℕ) (LDC : ℤ) : Operand → Descr
  | .C => initMatrixHandle M N (toSize LDC) NB NB
  | _ => initMatrixHandle 0 0 1 NB NB

/-- The descriptors of `D`, `L` and `U` in `xkblas_zcopyscale_async`. -/
def zcopyscaleDescr (m_block n_block M N ldd ldl ldu : ℕ) : Operand → Descr
  | .A => initMatrixHandle N N ldd n_block n_block
  | .B => initMatrixHandle N M ldl n_block m_block
  | .C => initMatrixHandle M N ldu m_block n_block

/-- The parameters of the tasks of `xkblas_zswap_async`: the tiles of the two columns. -/
def zswapParams (d : Operand → Descr) (M N i j : ℕ) (LDC : ℤ) : List Param :=
  let ib := i / (d .C).nb
  let jb := j / (d .C).nb
  let tempi := tempSize (d .C).nt N (d .C).nb ib
  let tempj := tempSize (d .C).nt N (d .C).nb jb
  forLoop 0 (d .C).mt fun m =>
    let tempmm := tempSize (d .C).mt M (d .C).mb m
    [⟨⟨.C, m, ib, LDC⟩, .rw, tempmm, tempi⟩, ⟨⟨.C, m, jb, LDC⟩, .rw, tempmm, tempj⟩]

/-- The parameters of the tasks of `xkblas_zcopyscale_async`: the tiles of `D`, `L` and `U`. -/
def zcopyscaleParams (d : Operand → Descr) (M N ldd ldl ldu : ℕ) : List Param :=
  forLoop 0 (d .B).nt fun blockIdx_m =>
    let m := min (sizeSub M (blockIdx_m * (d .B).nb)) (d .B).nb
    forLoop 0 (d .B).mt fun blockIdx_n =>
      let n := min (sizeSub N (blockIdx_n * (d .B).mb)) (d .B).mb
      [⟨⟨.A, blockIdx_n, blockIdx_n, ldd⟩, .r, n, n⟩, ⟨⟨.B, blockIdx_n, blockIdx_m, ldl⟩, .rw, n, m⟩,
        ⟨⟨.C, blockIdx_m, blockIdx_n, ldu⟩, .w, m, n⟩]

namespace Call

variable {R : Type*}

/-- The operands whose descriptors a call looks up, in this order. -/
def operands : Call R → List Operand
  | .zsyrk .. | .zherk .. => [.A, .C]
  | .ztrmm .. | .ztrsm .. => [.A, .B]
  | .zswap .. => [.C]
  | _ => [.A, .B, .C]

/-- The descriptors that a call initialises. Only `xkblas_zcopyscale_async` has two tile sizes. -/
def descr (MB NB : ℕ) : Call R → Operand → Descr
  | .zgemm transA transB M N K _ LDA LDB _ LDC =>
      zgemmDescr NB transA transB M.toNat N.toNat K.toNat LDA LDB LDC
  | .zgemmt _ transA transB N K _ LDA LDB _ LDC =>
      zgemmtDescr NB transA transB N.toNat K.toNat LDA LDB LDC
  | .zsymm side _ M N _ LDA LDB _ LDC => zsymmDescr NB side M.toNat N.toNat LDA LDB LDC
  | .zhemm side _ M N _ LDA LDB _ LDC => zsymmDescr NB side M.toNat N.toNat LDA LDB LDC
  | .zsyrk _ transA N K _ LDA _ LDC => rankKDescr NB transA N.toNat K.toNat LDA LDC
  | .zherk _ transA N K _ LDA _ LDC => rankKDescr NB transA N.toNat K.toNat LDA LDC
  | .zsyr2k _ transA N K _ LDA LDB _ LDC => rank2KDescr NB transA N.toNat K.toNat LDA LDB LDC
  | .zher2k _ transA N K _ LDA LDB _ LDC => rank2KDescr NB transA N.toNat K.toNat LDA LDB LDC
  | .ztrmm side _ _ _ N NRHS _ LDA LDB => panelDescr NB side N.toNat NRHS.toNat LDA LDB
  | .ztrsm side _ _ _ N NRHS _ LDA LDB => panelDescr NB side N.toNat NRHS.toNat LDA LDB
  | .zswap M N _ _ LDC => zswapDescr NB M.toNat N.toNat LDC
  | .zcopyscale M N ldd ldl ldu => zcopyscaleDescr MB NB M N ldd ldl ldu

/-- The tiles that a call passes to its tasks. -/
def params [Field R] [StarRing R] [DecidableEq R] (d : Operand → Descr) : Call R → List Param
  | .zgemm transA transB M N K alpha LDA LDB beta LDC =>
      (zgemmTasks d transA transB M.toNat N.toNat K.toNat alpha LDA LDB beta LDC).flatMap
        Task.params
  | .zgemmt uplo transA transB N K alpha LDA LDB beta LDC =>
      (zgemmtTasks d uplo transA transB N.toNat K.toNat alpha LDA LDB beta LDC).flatMap Task.params
  | .zsymm side uplo _ _ alpha LDA LDB beta LDC =>
      (zsymmTasks d side uplo alpha LDA LDB beta LDC).flatMap Task.params
  | .zhemm side uplo _ _ alpha LDA LDB beta LDC =>
      (zhemmTasks d side uplo alpha LDA LDB beta LDC).flatMap Task.params
  | .zsyrk uplo transA _ _ alpha LDA beta LDC =>
      (zsyrkTasks d uplo transA alpha LDA beta LDC).flatMap Task.params
  | .zherk uplo transA _ _ alpha LDA beta LDC =>
      (zherkTasks d uplo transA alpha LDA beta LDC).flatMap Task.params
  | .zsyr2k uplo transA _ _ alpha LDA LDB beta LDC =>
      (zsyr2kTasks d uplo transA alpha LDA LDB beta LDC).flatMap Task.params
  | .zher2k uplo transA _ _ alpha LDA LDB beta LDC =>
      (zher2kTasks d uplo transA alpha LDA LDB beta LDC).flatMap Task.params
  | .ztrmm side uplo transA diag _ _ alpha LDA LDB =>
      (ztrmmTasks d side uplo transA diag alpha LDA LDB).flatMap Task.params
  | .ztrsm side uplo transA diag _ _ alpha LDA LDB =>
      (ztrsmTasks d side uplo transA diag alpha LDA LDB).flatMap Task.params
  | .zswap M N i j LDC => zswapParams d M.toNat N.toNat i.toNat j.toNat LDC
  | .zcopyscale M N ldd ldl ldu => zcopyscaleParams d M N ldd ldl ldu

/-- The tile sizes `m_block` and `n_block` of the descriptors that a call initialises. `NB` is the
one that `xkblas_auto_tilesize` gives. -/
def blocks (find : Operand → Option Descr) (NB : ℕ) : Call R → ℕ × ℕ
  | .zcopyscale .. =>
      -- the sizes of the descriptors that exist, in the order `D`, `L`, `U`
      let nD := (find .A).elim 0 Descr.nb
      let nL := if nD = 0 then (find .B).elim 0 Descr.mb else nD
      let mL := (find .B).elim 0 Descr.nb
      let mU := if mL = 0 then (find .C).elim 0 Descr.mb else mL
      let nU := if nL = 0 then (find .C).elim 0 Descr.nb else nL
      (if mU = 0 then NB else mU, if nU = 0 then NB else nU)
  | .zswap .. => (1024, 1024)
  | _ => (NB, NB)

/-! ## The table -/

/-- The descriptors that `xkblas_find` has given, by base address. -/
abbrev Table := ℕ → Option Descr

/-- The descriptor of a base address, if `xkblas_matrix_descr_isinit` holds for it. It reads the
address in the descriptor, so that it never holds for the null pointer. -/
def find (table : Table) (addr : ℕ) : Option Descr :=
  if addr = 0 then none else table addr

/-- The lookups of a call. Each one initialises its descriptor, unless `isinit`. -/
def initialise (ptr : Operand → ℕ) (fresh : Operand → Descr) (isinit : Table → Operand → Bool) :
    List Operand → Table → Table
  | [], table => table
  | X :: rest, table =>
      initialise ptr fresh isinit rest
        (if isinit table X then table else Function.update table (ptr X) (some (fresh X)))

/-- The descriptors that a call initialises where it finds none. -/
def fresh (c : Call R) (NB : ℕ) (table : Table) (ptr : Operand → ℕ) : Operand → Descr :=
  let size := c.blocks (fun X => find table (ptr X)) NB
  c.descr size.1 size.2

/-- The table after the lookups of a call. `xkblas_zcopyscale_async` tests the three descriptors
before it initialises the first one. -/
def lookups (c : Call R) (NB : ℕ) (ptr : Operand → ℕ) (table : Table) : Table :=
  let isinit : Table → Operand → Bool := match c with
    | .zcopyscale .. => fun _ X => (find table (ptr X)).isSome
    | _ => fun now X => (find now (ptr X)).isSome
  initialise ptr (c.fresh NB table ptr) isinit c.operands table

end Call

/-- A call whose loops have run: the descriptors of its operands, and the tiles that it has
passed. -/
structure Insertion (R : Type*) where
  call : Call R
  descr : Operand → Descr
  params : List Param

/-- The state of the library. -/
structure Lib (R : Type*) where
  table : Call.Table
  inserted : List (Insertion R)

/-- A call of the application, with its pointers and the tile size that `xkblas_auto_tilesize`
gives. -/
structure Action (R : Type*) where
  call : Call R
  ptr : Operand → ℕ
  NB : ℕ

section System

variable {R : Type*} [Field R] [StarRing R] [DecidableEq R]

/-- A call. One that returns an error, or returns quickly, looks nothing up. -/
def Lib.step (s : Lib R) (a : Action R) : Option (Lib R) :=
  match a.call.runs with
  | .ok true =>
      let table := a.call.lookups a.NB a.ptr s.table
      let d := fun X =>
        if X ∈ a.call.operands then (table (a.ptr X)).getD (a.call.descr 1 1 X)
        else a.call.descr 1 1 X
      some ⟨table, s.inserted ++ [⟨a.call, d, a.call.params d⟩]⟩
  | _ => some s

/-- The calls of an application, in any order. -/
def lib (R : Type*) [Field R] [StarRing R] [DecidableEq R] : TransitionSystem (Lib R) (Action R)
    where
  initial := fun s => s = ⟨fun _ => none, []⟩
  step := Lib.step

end System

/-! ## The matrices of a call -/

namespace Call

variable {R : Type*}

/-- The leading dimension of an operand. -/
def ld : Call R → Operand → ℤ
  | .zgemm _ _ _ _ _ _ LDA LDB _ LDC | .zgemmt _ _ _ _ _ _ LDA LDB _ LDC
  | .zsymm _ _ _ _ _ LDA LDB _ LDC | .zhemm _ _ _ _ _ LDA LDB _ LDC
  | .zsyr2k _ _ _ _ _ LDA LDB _ LDC | .zher2k _ _ _ _ _ LDA LDB _ LDC => fun
      | .A => LDA
      | .B => LDB
      | .C => LDC
  | .zsyrk _ _ _ _ _ LDA _ LDC | .zherk _ _ _ _ _ LDA _ LDC => fun
      | .A => LDA
      | .B => 1
      | .C => LDC
  | .ztrmm _ _ _ _ _ _ _ LDA LDB | .ztrsm _ _ _ _ _ _ _ LDA LDB => fun
      | .A => LDA
      | .B => LDB
      | .C => 1
  | .zswap _ _ _ _ LDC => fun _ => LDC
  | .zcopyscale _ _ ldd ldl ldu => fun
      | .A => ldd
      | .B => ldl
      | .C => ldu

/-- The tiles of an operand that a call is about: those of a triangle, of two columns, of the
diagonal, or all. -/
def visits (NB : ℕ) : Call R → Operand → ℕ → ℕ → Bool
  | .zgemm .. => fun _ _ _ => true
  | .zgemmt none .. => fun _ _ _ => true
  | .zgemmt (some uplo) .. => visitsTriangle .C uplo
  | .zsymm _ uplo .. | .zhemm _ uplo .. => visitsTriangle .A uplo
  | .zsyrk uplo .. | .zherk uplo .. | .zsyr2k uplo .. | .zher2k uplo .. => visitsTriangle .C uplo
  | .ztrmm _ uplo .. | .ztrsm _ uplo .. => visitsTriangle .A uplo
  | .zswap _ _ i j _ => fun _ _ n => n = i.toNat / NB ∨ n = j.toNat / NB
  | .zcopyscale .. => fun X m n => X ≠ .A ∨ m = n

/-- The part of a matrix that an operand of a call is, with the sizes and the leading dimension of
the call. -/
def matrix (c : Call R) (NB : ℕ) (X : Operand) : SubMatrix where
  M := (c.descr 1 1 X).M
  N := (c.descr 1 1 X).N
  LD := c.ld X
  visits := c.visits NB X

end Call

/-- The tiles that a call has passed are those of its own matrices. -/
def Insertion.Exact {R : Type*} (i : Insertion R) : Prop :=
  ∀ X ∈ i.call.operands,
    Describes (i.descr X) (i.call.matrix (i.descr X).nb X) (i.params.filter fun p => p.mat = X)

/-! ## The checks of the drivers -/

section Drivers

variable {R : Type*} [CommRing R] [StarRing R] [DecidableEq R] {transA transB transT : Trans}
  {side : Side} {M N K : ℤ} {alpha beta : R} {LDA LDB LDC : ℤ} {NB : ℕ}

end Drivers

/-! ## The tiles that a call visits -/

section Visited

variable {R : Type*} [Field R] [StarRing R] [DecidableEq R] {transA transB transT : Trans}
  {side : Side} {uplo : Uplo} {diag : Diag} {M N K : ℤ} {alpha beta : R} {LDA LDB LDC : ℤ}
  {MB NB : ℕ}

omit [StarRing R] in
theorem zgemmRuns_ok (h : zgemmRuns transA transB M N K alpha LDA LDB beta LDC = .ok true) :
    1 ≤ M.toNat ∧ 1 ≤ N.toNat := by
  simp only [zgemmRuns] at h
  split_ifs at h
  simp only [Except.ok.injEq, decide_eq_true_eq] at h
  omega

omit [StarRing R] in
theorem zgemmtRuns_ok (h : zgemmtRuns transA transB N K alpha LDA LDB beta LDC = .ok true) :
    1 ≤ N.toNat := by
  simp only [zgemmtRuns] at h
  split_ifs at h
  simp only [Except.ok.injEq, decide_eq_true_eq] at h
  omega

omit [StarRing R] in
theorem zsymmRuns_ok (h : zsymmRuns side M N alpha LDA LDB beta LDC = .ok true) :
    1 ≤ M.toNat ∧ 1 ≤ N.toNat := by
  simp only [zsymmRuns] at h
  split_ifs at h
  simp only [Except.ok.injEq, decide_eq_true_eq] at h
  omega

omit [StarRing R] in
theorem rank2KRuns_ok
    (h : rank2KRuns transT transA N K alpha LDA LDB beta LDC = .ok true) :
    transA = .noTrans ∨ transA = transT := by
  simp only [rank2KRuns] at h
  split_ifs at h with htrans
  by_contra hne
  exact htrans (not_or.mp hne)

theorem panelRuns_ok (h : panelRuns side M N LDA LDB = .ok true) :
    1 ≤ M.toNat ∧ 1 ≤ N.toNat := by
  simp only [panelRuns] at h
  split_ifs at h
  all_goals
    simp only [Except.ok.injEq, decide_eq_true_eq] at h
    omega

theorem zswapRuns_ok {i j : ℤ} (h : zswapRuns M N i j LDC = .ok true) :
    0 ≤ i ∧ 0 ≤ j := by
  simp only [zswapRuns] at h
  split_ifs at h
  omega

/-- The loops of the full product of `xkblas_zgemmt_async` are those of `xkblas_zgemm_async`. -/
theorem zgemmtTasks_none (d : Operand → Descr) (N K : ℕ) :
    zgemmtTasks d none transA transB N K alpha LDA LDB beta LDC =
      zgemmTasks d transA transB N N K alpha LDA LDB beta LDC := by
  simp [zgemmtTasks, zgemmTasks, gemmtInsert]

/-- The order of the loops of `xkblas_zsymm_async` does not matter for the tasks. -/
theorem mem_zsymmTasks {M N : ℕ} (hNB : 0 < NB) (t : Task R) :
    t ∈ zsymmTasks (zsymmDescr NB side M N LDA LDB LDC) side uplo alpha LDA LDB beta LDC ↔
      ∃ m < numTiles M NB, ∃ n < numTiles N NB, ∃ k < numTiles (side.rowDim M N) NB,
        t = sideTask .trans side uplo NB M N alpha LDA LDB (if k = 0 then beta else 1) LDC
          m n k := by
  rw [zsymmTasks_eq hNB]
  cases side with
  | left =>
      simp only [mem_forLoop, List.mem_singleton]
      constructor
      · rintro ⟨k, ⟨_, hk⟩, n, ⟨_, hn⟩, m, ⟨_, hm⟩, rfl⟩
        exact ⟨m, hm, n, hn, k, hk, rfl⟩
      · rintro ⟨m, hm, n, hn, k, hk, rfl⟩
        exact ⟨k, ⟨Nat.zero_le k, hk⟩, n, ⟨Nat.zero_le n, hn⟩, m, ⟨Nat.zero_le m, hm⟩, rfl⟩
  | right =>
      simp only [mem_forLoop, List.mem_singleton]
      constructor
      · rintro ⟨k, ⟨_, hk⟩, m, ⟨_, hm⟩, n, ⟨_, hn⟩, rfl⟩
        exact ⟨m, hm, n, hn, k, hk, rfl⟩
      · rintro ⟨m, hm, n, hn, k, hk, rfl⟩
        exact ⟨k, ⟨Nat.zero_le k, hk⟩, m, ⟨Nat.zero_le m, hm⟩, n, ⟨Nat.zero_le n, hn⟩, rfl⟩

theorem mem_zhemmTasks {M N : ℕ} (hNB : 0 < NB) (t : Task R) :
    t ∈ zhemmTasks (zsymmDescr NB side M N LDA LDB LDC) side uplo alpha LDA LDB beta LDC ↔
      ∃ m < numTiles M NB, ∃ n < numTiles N NB, ∃ k < numTiles (side.rowDim M N) NB,
        t = sideTask .conjTrans side uplo NB M N alpha LDA LDB (if k = 0 then beta else 1) LDC
          m n k := by
  rw [zhemmTasks_eq hNB]
  simp only [mem_forLoop, List.mem_singleton]
  constructor
  · rintro ⟨m, ⟨_, hm⟩, n, ⟨_, hn⟩, k, ⟨_, hk⟩, rfl⟩
    exact ⟨m, hm, n, hn, k, hk, rfl⟩
  · rintro ⟨m, hm, n, hn, k, hk, rfl⟩
    exact ⟨m, ⟨Nat.zero_le m, hm⟩, n, ⟨Nat.zero_le n, hn⟩, k, ⟨Nat.zero_le k, hk⟩, rfl⟩

/-- The tiles of the two columns. -/
theorem zswapParams_passes {M N i j : ℕ} (hNB : 0 < NB) (hi : i < N) (hj : j < N)
    (hC : AdmissibleLd LDC M) :
    Passes (zswapDescr NB M N LDC) (fun _ _ n => decide (n = i / NB ∨ n = j / NB))
      (zswapParams (zswapDescr NB M N LDC) M N i j LDC) := by
  have hT : (zswapDescr NB M N LDC .C).Tiled NB M N LDC := hC.tiled hNB
  have hi := div_lt_numTiles hNB hi
  have hj := div_lt_numTiles hNB hj
  have hmem : ∀ p, p ∈ zswapParams (zswapDescr NB M N LDC) M N i j LDC ↔
      ∃ m < numTiles M NB, p = ⟨⟨.C, m, i / NB, LDC⟩, .rw, tileSize M NB m, tileSize N NB (i / NB)⟩ ∨
        p = ⟨⟨.C, m, j / NB, LDC⟩, .rw, tileSize M NB m, tileSize N NB (j / NB)⟩ := by
    intro p
    show p ∈ (forLoop 0 (numTiles M NB) fun m =>
      [⟨⟨.C, m, i / NB, LDC⟩, .rw, tempSize (numTiles M NB) M NB m,
          tempSize (numTiles N NB) N NB (i / NB)⟩,
        ⟨⟨.C, m, j / NB, LDC⟩, .rw, tempSize (numTiles M NB) M NB m,
          tempSize (numTiles N NB) N NB (j / NB)⟩]) ↔ _
    simp only [mem_forLoop, List.mem_cons, List.not_mem_nil, or_false, tempSize_eq hNB hi,
      tempSize_eq hNB hj]
    constructor
    · rintro ⟨m, ⟨_, hm⟩, hp⟩
      rw [tempSize_eq hNB hm] at hp
      exact ⟨m, hm, hp⟩
    · rintro ⟨m, hm, hp⟩
      rw [← tempSize_eq hNB hm] at hp
      exact ⟨m, ⟨Nat.zero_le m, hm⟩, hp⟩
  refine ⟨?_, ?_, ?_⟩
  · intro p hp
    obtain ⟨m, hm, rfl | rfl⟩ := (hmem p).mp hp
    · exact (Descr.Tiled.fits (d := zswapDescr NB M N LDC) hT hm hi .rw).names
    · exact (Descr.Tiled.fits (d := zswapDescr NB M N LDC) hT hm hj .rw).names
  · intro p hp
    obtain ⟨m, _, rfl | rfl⟩ := (hmem p).mp hp
    · exact decide_eq_true (.inl rfl)
    · exact decide_eq_true (.inr rfl)
  · intro X m hm n hn hvisits
    cases X with
    | A | B =>
        have hzero : m < numTiles 0 NB := hm
        rw [numTiles_zero hNB] at hzero
        exact absurd hzero (Nat.not_lt_zero m)
    | C =>
        rcases of_decide_eq_true hvisits with rfl | rfl
        · exact ⟨_, (hmem _).mpr ⟨m, hm, .inl rfl⟩, rfl, rfl, rfl⟩
        · exact ⟨_, (hmem _).mpr ⟨m, hm, .inr rfl⟩, rfl, rfl, rfl⟩

/-- The size of a tile, `MIN(M-m*mb, mb)`. -/
theorem min_sizeSub {M k : ℕ} (hNB : 0 < NB) (hk : k < numTiles M NB) :
    min (sizeSub M (k * NB)) NB = tileSize M NB k := by
  have hstart := (lt_numTiles hNB).mp hk
  have hpos := tileSize_pos hNB hk
  unfold sizeSub tileSize
  rw [if_pos hstart.le]
  split
  next hlast =>
    have hend := le_numTiles_mul (n := M) hNB
    have hsucc : numTiles M NB = k + 1 := by omega
    rw [hsucc, Nat.succ_mul] at hend
    omega
  next hlast =>
    have hend := succ_mul_le hNB (show k + 1 < numTiles M NB by omega)
    omega

/-- The tiles of `L` and `U`, and those of the diagonal of `D`. -/
theorem zcopyscaleParams_passes {M N ldd ldl ldu : ℕ} (hMB : 0 < MB) (hNB : 0 < NB)
    (hM : 1 ≤ M ∨ N = 0) :
    Passes (zcopyscaleDescr MB NB M N ldd ldl ldu) (fun X m n => decide (X ≠ .A ∨ m = n))
      (zcopyscaleParams (zcopyscaleDescr MB NB M N ldd ldl ldu) M N ldd ldl ldu) := by
  obtain ⟨d, hd⟩ : ∃ d, d = zcopyscaleDescr MB NB M N ldd ldl ldu := ⟨_, rfl⟩
  have hmem : ∀ p, p ∈ zcopyscaleParams d M N ldd ldl ldu ↔
      ∃ m < numTiles M MB, ∃ n < numTiles N NB,
        p = ⟨⟨.A, n, n, ldd⟩, .r, tileSize N NB n, tileSize N NB n⟩ ∨
        p = ⟨⟨.B, n, m, ldl⟩, .rw, tileSize N NB n, tileSize M MB m⟩ ∨
        p = ⟨⟨.C, m, n, ldu⟩, .w, tileSize M MB m, tileSize N NB n⟩ := by
    intro p
    subst hd
    show p ∈ (forLoop 0 (numTiles M MB) fun m => forLoop 0 (numTiles N NB) fun n =>
      [⟨⟨.A, n, n, ldd⟩, .r, min (sizeSub N (n * NB)) NB, min (sizeSub N (n * NB)) NB⟩,
        ⟨⟨.B, n, m, ldl⟩, .rw, min (sizeSub N (n * NB)) NB, min (sizeSub M (m * MB)) MB⟩,
        ⟨⟨.C, m, n, ldu⟩, .w, min (sizeSub M (m * MB)) MB, min (sizeSub N (n * NB)) NB⟩]) ↔ _
    simp only [mem_forLoop, List.mem_cons, List.not_mem_nil, or_false]
    constructor
    · rintro ⟨m, ⟨_, hm⟩, n, ⟨_, hn⟩, hp⟩
      rw [min_sizeSub hMB hm, min_sizeSub hNB hn] at hp
      exact ⟨m, hm, n, hn, hp⟩
    · rintro ⟨m, hm, n, hn, hp⟩
      rw [← min_sizeSub hMB hm, ← min_sizeSub hNB hn] at hp
      exact ⟨m, ⟨Nat.zero_le m, hm⟩, n, ⟨Nat.zero_le n, hn⟩, hp⟩
  rw [← hd]
  refine ⟨?_, ?_, ?_⟩
  · intro p hp
    obtain ⟨m, hm, n, hn, rfl | rfl | rfl⟩ := (hmem p).mp hp
    · exact ⟨hd ▸ hn, hd ▸ hn, hd ▸ rfl, hd ▸ rfl, .inl (hd ▸ rfl)⟩
    · exact ⟨hd ▸ hn, hd ▸ hm, hd ▸ rfl, hd ▸ rfl, .inl (hd ▸ rfl)⟩
    · exact ⟨hd ▸ hm, hd ▸ hn, hd ▸ rfl, hd ▸ rfl, .inl (hd ▸ rfl)⟩
  · intro p hp
    obtain ⟨m, _, n, _, rfl | rfl | rfl⟩ := (hmem p).mp hp
    · exact decide_eq_true (.inr rfl)
    · rfl
    · rfl
  · intro X a ha b hb hvisits
    subst hd
    cases X with
    | A =>
        have hab : a = b := (of_decide_eq_true hvisits).resolve_left fun h => h rfl
        subst hab
        have ha : a < numTiles N NB := ha
        have hpos : 0 < N := lt_of_le_of_lt (Nat.zero_le _) ((lt_numTiles hNB).mp ha)
        have hmt := numTiles_pos hMB (show 0 < M by omega)
        exact ⟨_, (hmem _).mpr ⟨0, hmt, a, ha, .inl rfl⟩, rfl, rfl, rfl⟩
    | B => exact ⟨_, (hmem _).mpr ⟨b, hb, a, ha, .inr (.inl rfl)⟩, rfl, rfl, rfl⟩
    | C => exact ⟨_, (hmem _).mpr ⟨a, ha, b, hb, .inr (.inr rfl)⟩, rfl, rfl, rfl⟩

namespace Call

/-- The leading dimensions are those that the documentation admits. `xkblas_zcopyscale_async` checks
them itself. -/
def AdmissibleLds : Call R → Prop
  | .zcopyscale .. => True
  | c => ∀ X ∈ c.operands, AdmissibleLd (c.ld X) (c.descr 1 1 X).M

/-- The loops of the call reach every tile: the inner dimension is not zero, the columns exist, and
`xkblas_zher2k_async` does not take a tile of `B` of several columns with the leading dimension of
`A`. -/
def Regular (NB : ℕ) : Call R → Prop
  | .zgemm _ _ _ _ K _ _ _ _ _ | .zgemmt _ _ _ _ K _ _ _ _ _ => 1 ≤ K.toNat
  | .zsyrk _ _ _ K _ _ _ _ | .zherk _ _ _ K _ _ _ _ | .zsyr2k _ _ _ K _ _ _ _ _ => 1 ≤ K.toNat
  | .zher2k uplo transA N K _ LDA LDB _ _ =>
      1 ≤ K.toNat ∧ (zher2kLd uplo transA LDA LDB = LDB ∨ N.toNat ≤ NB ∨
        (transA = .noTrans ∧ (NB = 1 ∨ K.toNat = 1)))
  | .zswap _ N i j _ => i < N ∧ j < N
  | .zcopyscale M N _ _ _ => 1 ≤ M ∨ N = 0
  | _ => True

/-- With the descriptors of its own matrices a call passes the tiles that it is about. -/
theorem passes (c : Call R) (hruns : c.runs = .ok true) (hld : c.AdmissibleLds)
    (hreg : c.Regular NB) (hMB : 0 < MB) (hNB : 0 < NB) :
    Passes (c.descr MB NB) (c.visits NB) (c.params (c.descr MB NB)) := by
  have hdummy : (initMatrixHandle 0 0 1 NB NB).Valid := valid_initMatrixHandle hNB hNB le_rfl
  have hempty : (initMatrixHandle 0 0 1 NB NB).mt = 0 := numTiles_zero hNB
  cases c with
  | zgemm transA transB M N K alpha LDA LDB beta LDC =>
      obtain ⟨hM, hN⟩ := zgemmRuns_ok hruns
      have hA : AdmissibleLd LDA (transA.size M.toNat K.toNat).1 := hld .A (by simp [operands])
      have hB : AdmissibleLd LDB (transB.size K.toNat N.toNat).1 := hld .B (by simp [operands])
      have hC : AdmissibleLd LDC M.toNat := hld .C (by simp [operands])
      simp only [params, descr]
      rw [zgemmTasks_eq hNB]
      exact gemmLoops_passes hM hN hreg (hA.tiled hNB) (hB.tiled hNB) (hC.tiled hNB)
  | zgemmt uplo transA transB N K alpha LDA LDB beta LDC =>
      have hN := zgemmtRuns_ok hruns
      have hA : AdmissibleLd LDA (transA.size N.toNat K.toNat).1 := hld .A (by simp [operands])
      have hB : AdmissibleLd LDB (transB.size K.toNat N.toNat).1 := hld .B (by simp [operands])
      have hC : AdmissibleLd LDC N.toNat := hld .C (by simp [operands])
      simp only [params, descr]
      cases uplo with
      | none =>
          rw [zgemmtTasks_none]
          show Passes (zgemmDescr NB transA transB N.toNat N.toNat K.toNat LDA LDB LDC) _
            ((zgemmTasks (zgemmDescr NB transA transB N.toNat N.toNat K.toNat LDA LDB LDC) _ _ _ _
              _ _ _ _ _ _).flatMap _)
          rw [zgemmTasks_eq hNB]
          exact gemmLoops_passes hN hN hreg (hA.tiled hNB) (hB.tiled hNB) (hC.tiled hNB)
      | some uplo =>
          rw [zgemmtTasks_params hNB]
          exact gemmtLoops_passes ⟨hA.tiled hNB, hB.tiled hNB, hC.tiled hNB⟩ hreg
  | zsymm side uplo M N alpha LDA LDB beta LDC =>
      obtain ⟨hM, hN⟩ := zsymmRuns_ok hruns
      exact sideLoops_passes (zsymmDescr_tiled hNB (hld .A (by simp [operands]))
        (hld .B (by simp [operands])) (hld .C (by simp [operands]))) (by decide) hM hN
        (mem_zsymmTasks hNB)
  | zhemm side uplo M N alpha LDA LDB beta LDC =>
      obtain ⟨hM, hN⟩ := zsymmRuns_ok hruns
      exact sideLoops_passes (zsymmDescr_tiled hNB (hld .A (by simp [operands]))
        (hld .B (by simp [operands])) (hld .C (by simp [operands]))) (by decide) hM hN
        (mem_zhemmTasks hNB)
  | zsyrk uplo transA N K alpha LDA beta LDC =>
      have hA : AdmissibleLd LDA (transA.size N.toNat K.toNat).1 := hld .A (by simp [operands])
      have hC : AdmissibleLd LDC N.toNat := hld .C (by simp [operands])
      have hTA := hA.tiled (N := (transA.size N.toNat K.toNat).2) hNB
      have hTC := hC.tiled (N := N.toNat) hNB
      simp only [params, descr]
      rw [zsyrkTasks_eq hNB]
      refine rankKLoops_passes (fun X => ?_) hTA hempty hTC (by decide) hreg
        uplo.belowOrRight_uplo
      cases X with
      | A => exact hTA.toValid
      | B => exact hdummy
      | C => exact hTC.toValid
  | zherk uplo transA N K alpha LDA beta LDC =>
      have hA : AdmissibleLd LDA (transA.size N.toNat K.toNat).1 := hld .A (by simp [operands])
      have hC : AdmissibleLd LDC N.toNat := hld .C (by simp [operands])
      have hTA := hA.tiled (N := (transA.size N.toNat K.toNat).2) hNB
      have hTC := hC.tiled (N := N.toNat) hNB
      simp only [params, descr]
      rw [zherkTasks_eq hNB]
      refine rankKLoops_passes (fun X => ?_) hTA hempty hTC (by decide) hreg
        uplo.belowOrRight_uplo
      cases X with
      | A => exact hTA.toValid
      | B => exact hdummy
      | C => exact hTC.toValid
  | zsyr2k uplo transA N K alpha LDA LDB beta LDC =>
      have hA : AdmissibleLd LDA (transA.size N.toNat K.toNat).1 := hld .A (by simp [operands])
      have hB : AdmissibleLd LDB (transA.size N.toNat K.toNat).1 := hld .B (by simp [operands])
      have hC : AdmissibleLd LDC N.toNat := hld .C (by simp [operands])
      have hTA := hA.tiled (N := (transA.size N.toNat K.toNat).2) hNB
      have hTB := hB.tiled (N := (transA.size N.toNat K.toNat).2) hNB
      have hTC := hC.tiled (N := N.toNat) hNB
      simp only [params, descr]
      rw [zsyr2kTasks_eq hNB (rank2KRuns_ok hruns)]
      refine rank2KLoops_passes (fun X => ?_) hTA hTB hTC (by decide) hreg (.inl rfl)
        uplo.belowOrAbove_uplo
      cases X with
      | A => exact hTA.toValid
      | B => exact hTB.toValid
      | C => exact hTC.toValid
  | zher2k uplo transA N K alpha LDA LDB beta LDC =>
      have hA : AdmissibleLd LDA (transA.size N.toNat K.toNat).1 := hld .A (by simp [operands])
      have hB : AdmissibleLd LDB (transA.size N.toNat K.toNat).1 := hld .B (by simp [operands])
      have hC : AdmissibleLd LDC N.toNat := hld .C (by simp [operands])
      have hTA := hA.tiled (N := (transA.size N.toNat K.toNat).2) hNB
      have hTB := hB.tiled (N := (transA.size N.toNat K.toNat).2) hNB
      have hTC := hC.tiled (N := N.toNat) hNB
      simp only [params, descr]
      rw [zher2kTasks_eq hNB]
      refine rank2KLoops_passes (fun X => ?_) hTA hTB hTC (by decide) hreg.1 hreg.2
        uplo.belowOrRight_uplo
      cases X with
      | A => exact hTA.toValid
      | B => exact hTB.toValid
      | C => exact hTC.toValid
  | ztrmm side uplo transA diag N NRHS alpha LDA LDB =>
      obtain ⟨hN, hNRHS⟩ := panelRuns_ok hruns
      have hcount : 1 ≤ side.count N.toNat NRHS.toNat := by cases side <;> assumption
      simp only [params, descr]
      rw [ztrmmTasks_eq hNB]
      exact trmmLoops_passes (panelDescr_tiled hNB (hld .A (by simp [operands]))
        (hld .B (by simp [operands]))) hcount hempty
  | ztrsm side uplo transA diag N NRHS alpha LDA LDB =>
      obtain ⟨hN, hNRHS⟩ := panelRuns_ok hruns
      have hcount : 1 ≤ side.count N.toNat NRHS.toNat := by cases side <;> assumption
      simp only [params, descr]
      rw [ztrsmTasks_eq hNB]
      exact trsmLoops_passes (panelDescr_tiled hNB (hld .A (by simp [operands]))
        (hld .B (by simp [operands]))) hcount hempty
  | zswap M N i j LDC =>
      obtain ⟨hi, hj⟩ := zswapRuns_ok hruns
      have hiN : i < N := hreg.1
      have hjN : j < N := hreg.2
      exact zswapParams_passes hNB (by omega) (by omega) (hld .C (by simp [operands]))
  | zcopyscale M N ldd ldl ldu => exact zcopyscaleParams_passes hMB hNB hreg

/-- The tiles that a call passes depend on the descriptors of its operands. -/
theorem params_congr (c : Call R) {d d' : Operand → Descr} (h : ∀ X ∈ c.operands, d X = d' X) :
    c.params d = c.params d' := by
  cases c with
  | zsyrk | zherk =>
      have hA := h .A (by simp [operands])
      have hC := h .C (by simp [operands])
      simp only [params, zsyrkTasks, zherkTasks, rankKTasks, hA, hC]
  | ztrmm | ztrsm =>
      have hA := h .A (by simp [operands])
      have hB := h .B (by simp [operands])
      simp only [params, ztrmmTasks, ztrsmTasks, ztrsmTasksWith, hA, hB]
  | zswap =>
      have hC := h .C (by simp [operands])
      simp only [params, zswapParams, hC]
  | _ =>
      have hd : d = d' := funext fun X => h X (by cases X <;> simp [operands])
      rw [hd]

end Call

end Visited

/-! ## Descriptors that are found -/

section Found

variable {ptr : Operand → ℕ} {D fresh : Operand → Descr} {ops : List Operand}
  {table now : Call.Table} {isinit : Call.Table → Operand → Bool} {X Y : Operand}

namespace Call

/-- During the lookups the descriptors of the operands in the table are those of `D`, and none of the
table before is lost. -/
structure Agrees (ptr : Operand → ℕ) (D : Operand → Descr) (ops : List Operand)
    (table now : Table) : Prop where
  kept : ∀ X ∈ ops, find table (ptr X) ≠ none → now (ptr X) = some (D X)
  found : ∀ X ∈ ops, ∀ d, find now (ptr X) = some d → d = D X

theorem find_of_some {d : Descr} {addr : ℕ} (h : find table addr = some d) :
    table addr = some d := by
  unfold find at h
  split at h
  · cases h
  · exact h

/-- Initialising one descriptor keeps the others. -/
theorem Agrees.update (h : Agrees ptr D ops table now)
    (halias : ∀ X ∈ ops, ∀ Y ∈ ops, ptr X = ptr Y → D X = D Y) (hX : X ∈ ops) :
    Agrees ptr D ops table (Function.update now (ptr X) (some (D X))) where
  kept := by
    intro Y hY hfound
    by_cases hYX : ptr Y = ptr X
    · rw [hYX, Function.update_self, halias X hX Y hY hYX.symm]
    · rw [Function.update_of_ne hYX]
      exact h.kept Y hY hfound
  found := by
    intro Y hY d hd
    by_cases hYX : ptr Y = ptr X
    · have hsome := find_of_some hd
      rw [hYX, Function.update_self] at hsome
      rw [← Option.some.inj hsome, halias X hX Y hY hYX.symm]
    · unfold find at hd
      rw [Function.update_of_ne hYX] at hd
      exact h.found Y hY d hd

/-- The lookups give every operand its descriptor. -/
theorem initialise_spec (halias : ∀ X ∈ ops, ∀ Y ∈ ops, ptr X = ptr Y → D X = D Y)
    (hinit : ∀ now, Agrees ptr D ops table now → ∀ X ∈ ops, isinit now X = true →
      now (ptr X) = some (D X))
    (hnew : ∀ now, Agrees ptr D ops table now → ∀ X ∈ ops, isinit now X = false → fresh X = D X)
    {rest : List Operand} (hrest : ∀ X ∈ rest, X ∈ ops) (h : Agrees ptr D ops table now) :
    (∀ X ∈ rest, initialise ptr fresh isinit rest now (ptr X) = some (D X)) ∧
      ∀ X ∈ ops, now (ptr X) = some (D X) →
        initialise ptr fresh isinit rest now (ptr X) = some (D X) := by
  induction rest generalizing now with
  | nil => exact ⟨fun X hX => absurd hX List.not_mem_nil, fun _ _ hX => hX⟩
  | cons Z rest ih =>
      have hZ := hrest Z List.mem_cons_self
      have hrest' : ∀ X ∈ rest, X ∈ ops := fun X hX => hrest X (List.mem_cons_of_mem Z hX)
      -- the table after the lookup of `Z`
      obtain ⟨now', hnow', hagrees, hself, hkeeps⟩ : ∃ now',
          now' = (if isinit now Z then now else Function.update now (ptr Z) (some (fresh Z))) ∧
            Agrees ptr D ops table now' ∧ now' (ptr Z) = some (D Z) ∧
            ∀ X ∈ ops, now (ptr X) = some (D X) → now' (ptr X) = some (D X) := by
        refine ⟨_, rfl, ?_⟩
        by_cases hi : isinit now Z = true
        · rw [if_pos hi]
          exact ⟨h, hinit now h Z hZ hi, fun X _ hX => hX⟩
        · rw [if_neg hi, hnew now h Z hZ (by simpa using hi)]
          refine ⟨h.update halias hZ, Function.update_self _ _ _, fun X hX hsome => ?_⟩
          by_cases hXZ : ptr X = ptr Z
          · rw [hXZ, Function.update_self, halias Z hZ X hX hXZ.symm]
          · rwa [Function.update_of_ne hXZ]
      show (∀ X ∈ Z :: rest, initialise ptr fresh isinit rest _ (ptr X) = some (D X)) ∧
        ∀ X ∈ ops, _ → initialise ptr fresh isinit rest _ (ptr X) = some (D X)
      rw [← hnow']
      obtain ⟨hall, hkept⟩ := ih hrest' hagrees
      refine ⟨fun X hX => ?_, fun X hX hsome => hkept X hX (hkeeps X hX hsome)⟩
      rcases List.mem_cons.mp hX with rfl | hX
      · exact hkept X hZ hself
      · exact hall X hX

variable {R : Type*} {c : Call R} {NB : ℕ}

/-- The descriptors that a call finds, or makes where there is none, are those that its own matrices
have with common tile sizes. -/
def Suits (c : Call R) (NB : ℕ) (ptr : Operand → ℕ) (table : Table) : Prop :=
  c.AdmissibleLds ∧ ∃ m_block n_block, (0 < m_block ∧ 0 < n_block ∧ c.Regular n_block) ∧
    (∀ X ∈ c.operands, (find table (ptr X)).getD (c.fresh NB table ptr X) =
      c.descr m_block n_block X) ∧
    ∀ X ∈ c.operands, ∀ Y ∈ c.operands, ptr X = ptr Y →
      c.descr m_block n_block X = c.descr m_block n_block Y

/-- After the lookups the operands have these descriptors. -/
theorem lookups_eq (halias : ∀ X ∈ c.operands, ∀ Y ∈ c.operands, ptr X = ptr Y → D X = D Y)
    (h : ∀ X ∈ c.operands, (find table (ptr X)).getD (c.fresh NB table ptr X) = D X)
    (hX : X ∈ c.operands) : c.lookups NB ptr table (ptr X) = some (D X) := by
  have hfound : ∀ Y ∈ c.operands, ∀ d, find table (ptr Y) = some d → d = D Y := by
    intro Y hY d hd
    have hY := h Y hY
    rwa [hd, Option.getD_some] at hY
  have hstart : Agrees ptr D c.operands table table := by
    refine ⟨fun Y hY hne => ?_, hfound⟩
    obtain ⟨d, hd⟩ := Option.ne_none_iff_exists'.mp hne
    rw [find_of_some hd, hfound Y hY d hd]
  have hmissing : ∀ Y ∈ c.operands, find table (ptr Y) = none → c.fresh NB table ptr Y = D Y := by
    intro Y hY hnone
    have hY := h Y hY
    rwa [hnone, Option.getD_none] at hY
  unfold lookups
  refine (initialise_spec halias ?_ ?_ (fun _ hY => hY) hstart).1 X hX
  · intro now hnow Y hY hinit
    split at hinit
    · exact hnow.kept Y hY (Option.isSome_iff_ne_none.mp hinit)
    · obtain ⟨d, hd⟩ := Option.isSome_iff_exists.mp hinit
      rw [find_of_some hd, hnow.found Y hY d hd]
  · intro now hnow Y hY hinit
    refine hmissing Y hY ?_
    split at hinit
    · exact Option.isSome_eq_false_iff.mp hinit |> Option.isNone_iff_eq_none.mp
    · by_contra hne
      have hsome := hnow.kept Y hY hne
      have haddr : ptr Y ≠ 0 := fun hzero => hne (by rw [hzero]; rfl)
      have hfind : find now (ptr Y) = some (D Y) := (if_neg haddr).trans hsome
      have hisSome : (find now (ptr Y)).isSome = false := hinit
      rw [hfind] at hisSome
      cases hisSome

end Call

end Found

/-! ## Runs -/

section Runs

variable {R : Type*} [Field R] [StarRing R] [DecidableEq R]

omit [StarRing R] [DecidableEq R] [Field R] in
/-- The sizes of a descriptor do not depend on those of the tiles. -/
theorem descr_sizes (c : Call R) (MB NB : ℕ) (X : Operand) :
    (c.descr MB NB X).M = (c.descr 1 1 X).M ∧ (c.descr MB NB X).N = (c.descr 1 1 X).N := by
  cases c <;> cases X <;> exact ⟨rfl, rfl⟩

omit [StarRing R] [DecidableEq R] [Field R] in
theorem descr_counts (c : Call R) {MB NB : ℕ} (hMB : 0 < MB) (hNB : 0 < NB) (X : Operand) :
    (c.descr MB NB X).Counts := by
  cases c with
  | zcopyscale =>
      cases X with
      | A => exact ⟨hNB, hNB, rfl, rfl⟩
      | B => exact ⟨hNB, hMB, rfl, rfl⟩
      | C => exact ⟨hMB, hNB, rfl, rfl⟩
  | _ => cases X <;> exact ⟨hNB, hNB, rfl, rfl⟩

omit [StarRing R] [DecidableEq R] [Field R] in
/-- The tiles that a call is about do not depend on the number of columns of `L`. -/
theorem visits_descr (c : Call R) (MB NB : ℕ) {X : Operand} (hX : X ∈ c.operands) :
    c.visits (c.descr MB NB X).nb X = c.visits NB X := by
  cases c with
  | zswap =>
      obtain rfl := List.mem_singleton.mp hX
      rfl
  | zgemmt uplo => cases uplo <;> rfl
  | _ => rfl

omit [StarRing R] [DecidableEq R] [Field R] in
theorem descr_ld (c : Call R) (MB NB : ℕ) {X : Operand} (hX : X ∈ c.operands)
    (h : c.AdmissibleLds) : c.ld X = (c.descr MB NB X).ld := by
  cases c with
  | zcopyscale => cases X <;> rfl
  | _ =>
      have hX' := h X hX
      have hsize := toSize_of_nonneg (by have := hX'.le; omega) hX'.int
      rw [← hsize]
      cases X <;> first | rfl | exact absurd hX (by simp [Call.operands])

/-- The tiles of a call that finds such descriptors are those of its own matrices. -/
theorem exact_of_passes {c : Call R} {d : Operand → Descr} {MB NB : ℕ} (hMB : 0 < MB)
    (hNB : 0 < NB) (hd : ∀ X ∈ c.operands, d X = c.descr MB NB X) (hld : c.AdmissibleLds)
    (hpasses : Passes (c.descr MB NB) (c.visits NB) (c.params (c.descr MB NB))) :
    Insertion.Exact ⟨c, d, c.params d⟩ := by
  intro X hX
  show Describes (d X) (c.matrix (d X).nb X) ((c.params d).filter _)
  rw [c.params_congr hd, hd X hX]
  obtain ⟨hM, hN⟩ := descr_sizes c MB NB X
  have hvisits := visits_descr c MB NB hX
  refine describes_of_passes (descr_counts c hMB hNB X) hM hN (descr_ld c MB NB hX hld)
    (fun p hp => ?_) fun m hm n hn hvisited => ?_
  · obtain ⟨hmem, hpX⟩ := List.mem_filter.mp hp
    obtain rfl : p.mat = X := of_decide_eq_true hpX
    refine ⟨hpasses.names p hmem, ?_⟩
    show c.visits _ _ _ _ = true
    rw [hvisits]
    exact hpasses.visited p hmem
  · have hvisited : c.visits (c.descr MB NB X).nb X m n = true := hvisited
    rw [hvisits] at hvisited
    obtain ⟨p, hp, hpX, hpm, hpn⟩ := hpasses.all X m hm n hn hvisited
    exact ⟨p, List.mem_filter.mpr ⟨hp, decide_eq_true hpX⟩, hpm, hpn⟩

/-- A call runs its loops on descriptors that are those of its own matrices. -/
def Action.Suits (s : Lib R) (a : Action R) : Prop :=
  a.call.runs = .ok true → a.call.Suits a.NB a.ptr s.table

/-- A call with suitable descriptors passes the tiles of its own matrices. -/
theorem step_exact {s t : Lib R} {a : Action R} (hinv : ∀ i ∈ s.inserted, i.Exact)
    (hok : a.Suits s) (hstep : (lib R).step s a = some t) : ∀ i ∈ t.inserted, i.Exact := by
  have hstep : s.step a = some t := hstep
  unfold Lib.step at hstep
  split at hstep
  next hruns =>
    obtain rfl := Option.some.inj hstep
    obtain ⟨hld, m_block, n_block, ⟨hMB, hNB, hreg⟩, hfound, halias⟩ := hok hruns
    intro i hi
    rcases List.mem_append.mp hi with hi | hi
    · exact hinv i hi
    · obtain rfl := List.mem_singleton.mp hi
      refine exact_of_passes hMB hNB (fun X hX => ?_) hld (a.call.passes hruns hld hreg hMB hNB)
      rw [if_pos hX, Call.lookups_eq halias hfound hX, Option.getD_some]
  next =>
    obtain rfl := Option.some.inj hstep
    exact hinv

/-- In a sequence of calls that find descriptors of their own matrices, every call passes tiles that
exist, have sizes between one and that of a tile, and cover its matrices. -/
theorem descriptors_exact {s : Lib R} (h : (lib R).ReachableWhen (fun s a => a.Suits s) s) :
    ∀ i ∈ s.inserted, i.Exact := by
  refine h.invariant (fun s hs => ?_) fun s a t hinv hok hstep => step_exact hinv hok hstep
  subst hs
  exact fun i hi => absurd hi List.not_mem_nil

/-- A product of matrices of order `n` with tiles of order two, in the arrays `1`, `2` and `3`. -/
def squareGemm (n : ℤ) : Action ℚ where
  call := .zgemm .noTrans .noTrans n n n 1 4 4 0 4
  ptr := fun
    | .A => 1
    | .B => 2
    | .C => 3
  NB := 2

/-- The state after the product of the matrices of order four, and after a second call. -/
def afterSquareGemm : Lib ℚ :=
  (Lib.step ⟨fun _ => none, []⟩ (squareGemm 4)).getD ⟨fun _ => none, []⟩

def afterTwoGemms (n : ℤ) : Lib ℚ :=
  (afterSquareGemm.step (squareGemm n)).getD ⟨fun _ => none, []⟩

/-- Two products on the same arrays with the same sizes. -/
theorem descriptors_exact_twoCalls :
    (squareGemm 4).Suits ⟨fun _ => none, []⟩ ∧ (squareGemm 4).Suits afterSquareGemm ∧
      ∀ i ∈ (afterTwoGemms 4).inserted, i.Exact := by
  have hld : (squareGemm 4).call.AdmissibleLds := by
    intro X _
    cases X <;> exact ⟨by decide, by decide⟩
  have hreg : (squareGemm 4).call.Regular 2 := show 1 ≤ (4 : ℤ).toNat by decide
  have hfirst : (squareGemm 4).Suits ⟨fun _ => none, []⟩ := by
    intro _
    refine ⟨hld, 2, 2, ⟨by decide, by decide, hreg⟩, ?_, ?_⟩
    · intro X _
      cases X <;> decide
    · intro X _ Y _
      cases X <;> cases Y <;> decide
  have hsecond : (squareGemm 4).Suits afterSquareGemm := by
    intro _
    refine ⟨hld, 2, 2, ⟨by decide, by decide, hreg⟩, ?_, ?_⟩
    · intro X _
      cases X <;> decide
    · intro X _ Y _
      cases X <;> cases Y <;> decide
  refine ⟨hfirst, hsecond, descriptors_exact (.next (a := squareGemm 4)
    (.next (a := squareGemm 4) (.start rfl) hfirst rfl) hsecond rfl)⟩

/-- A product of matrices of order one in the arrays of a product of matrices of order four. The
second row of tiles exists in the descriptor only, and its size wraps around. -/
theorem reused_descriptor_wraps :
    ∃ s, (lib ℚ).ReachableWhen (fun _ a => a.call.AdmissibleLds) s ∧
      ∃ i ∈ s.inserted, (∃ p ∈ i.params, p.rows = 2 ^ 64 - 1) ∧ ¬ i.Exact := by
  have hld : ∀ n, (n = 4 ∨ n = 1) → (squareGemm n).call.AdmissibleLds := by
    rintro n (rfl | rfl) X _
    · cases X <;> exact ⟨by decide, by decide⟩
    · cases X <;> exact ⟨by decide, by decide⟩
  refine ⟨afterTwoGemms 1, .next (a := squareGemm 1) (.next (a := squareGemm 4) (.start rfl)
    (hld 4 (.inl rfl)) rfl) (hld 1 (.inr rfl)) rfl, _, List.mem_append_right _
      (List.mem_singleton_self _), ⟨⟨⟨.C, 1, 0, 4⟩, .w, 2 ^ 64 - 1, 2⟩, by decide, rfl⟩, fun h => ?_⟩
  have hsize := (h .C (by decide)).size ⟨⟨.C, 1, 0, 4⟩, .w, 2 ^ 64 - 1, 2⟩ (by decide)
  exact absurd hsize.1.2 (by decide)

end Runs

end Xkblas.Blas
