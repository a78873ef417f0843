import Mathlib.Algebra.Group.Nat.Defs
import Mathlib.Data.Finset.Insert
import Xkblas.Library.BitMask
import Xkblas.Library.PointerTable
import Xkblas.Library.TransitionSystem

/-!
# The registry of the locality domains

The registry has a table of all domains by their identifier, and for each type of domain a table
by the index in the type. `kaapi_localitydomain_attach` appends a domain to both, and to the
children of its parent; `kaapi_localitydomain_deattach` clears the entries. The counters only grow.

The test on the type asks for two errors at once, the exit of a refused call unlocks a lock that the
call has not taken, an attach without memory leaves the counters incremented, and
`kaapi_localitydomain_finalize` starts the identifiers at 1 with no entry for 0.

The calls are made one after the other. A call is `none` when the program stops in it, and when it
is undefined: an access through a null pointer or beyond a table, or a read of what has not been
written.
-/

namespace Xkblas.Sched.LocalityDomain

open Library
open Library.BitMask

/-- The single types of `kaapi_ld_type_t`. -/
inductive LdType where
  | core
  | numa
  | socket
  | board
  | gpu
  deriving DecidableEq, Repr

/-- The value of a type. -/
def LdType.code : LdType → BitVec 32
  | .core => 0x01#32
  | .numa => 0x02#32
  | .socket => 0x04#32
  | .board => 0x08#32
  | .gpu => 0x10#32

/-- `KAAPI_LD_ALLTYPE`. -/
def allType : BitVec 32 := 0x1F#32

/-- The fields of a `kaapi_localitydomain_t` that an attach writes. -/
structure Fields (δ : Type*) where
  type : BitVec 32
  idx : ℕ
  ldid : ℕ
  parent : Option δ
  deriving DecidableEq, Repr

/-- A `kaapi_localitydomain_type_t`. -/
structure Table (δ : Type*) where
  count : ℕ
  ld : PointerTable δ

/-- The variables `kaapi_all_lddomains`, `map_ldid2ld` and `kaapi_ldid`, and the fields of the
domains. A domain that was never attached has no `fields`, and `subld` are its first `subldcount`
children. The `attached` domains are those of the successful calls. -/
structure State (δ : Type*) where
  lddomains : Option (ℕ → Table δ)
  map : PointerTable δ
  ldid : ℕ
  fields : δ → Option (Fields δ)
  subld : δ → List δ
  attached : Finset δ

/-- The registry when the program starts. -/
def start (δ : Type*) : State δ where
  lddomains := none
  map := none
  ldid := 0
  fields := fun _ => none
  subld := fun _ => []
  attached := ∅

/-- The calls of `realloc` in `kaapi_localitydomain_attach`. -/
inductive Realloc where
  | map
  | table
  | subld
  deriving DecidableEq, Repr

/-- A call. An attach has the `realloc` at which the memory is exhausted, if there is one. -/
inductive Action (δ : Type*) where
  | attach (type : BitVec 32) (parent : Option δ) (ld : δ) (fails : Option Realloc)
  | deattach (type : BitVec 32) (ld : δ)
  | finalize
  deriving DecidableEq, Repr

/-- What a call returns. -/
inductive Status where
  | ok
  | einval
  | enomem
  deriving DecidableEq, Repr

/-- The end of a call, and whether it has locked and unlocked `kaapi_ldlock`. -/
structure Outcome (δ : Type*) where
  status : Status
  took : Bool
  released : Bool
  state : State δ

/-- The test of the functions on the type. -/
def refused (type : BitVec 32) : Bool :=
  decide (popcount (type &&& allType) ≠ 1) && decide (type &&& ~~~allType ≠ 0#32)

section

variable {δ : Type*} [DecidableEq δ]

/-- The tables by type, with those of `calloc` when there are none. -/
def State.tables (s : State δ) : ℕ → Table δ :=
  s.lddomains.getD fun _ => ⟨0, none⟩

/-- `kaapi_localitydomain_attach`. -/
def attach (s : State δ) (type : BitVec 32) (parent : Option δ) (ld : δ) (fails : Option Realloc) :
    Option (Outcome δ) :=
  if refused type then some ⟨.einval, false, true, s⟩
  else if ffs type = 0 then none
  else
    let idx := ffs type - 1
    let table := s.tables idx
    let ldIdx := table.count
    let count := (table.count + 1) % 2 ^ 32
    let ldLdid := s.ldid
    let ldid := (s.ldid + 1) % 2 ^ 64
    let s :=
      { s with
        lddomains := some (Function.update s.tables idx { table with count })
        ldid
        fields := Function.update s.fields ld (some ⟨type, ldIdx, ldLdid, parent⟩) }
    match s.map.realloc ldid (decide (fails = some .map)) with
    | none => some ⟨.enomem, true, true, { s with map := none }⟩
    | some map =>
        let s := { s with map := some (map.set ldLdid (.pointer ld)) }
        match table.ld.realloc count (decide (fails = some .table)) with
        | none =>
            let lddomains := some (Function.update s.tables idx ⟨count, none⟩)
            some ⟨.enomem, true, true, { s with lddomains }⟩
        | some cells =>
            let cells := some (cells.set ldIdx (.pointer ld))
            let s :=
              { s with
                lddomains := some (Function.update s.tables idx ⟨count, cells⟩)
                attached := insert ld s.attached }
            match parent with
            | none => some ⟨.ok, true, true, s⟩
            | some parent =>
                if fails = some .subld then none
                else
                  let subld := Function.update s.subld parent (s.subld parent ++ [ld])
                  some ⟨.ok, true, true, { s with subld }⟩

/-- `kaapi_localitydomain_deattach`. -/
def deattach (s : State δ) (type : BitVec 32) (ld : δ) : Option (Outcome δ) :=
  if refused type then some ⟨.einval, false, true, s⟩
  else if ffs type = 0 then none
  else
    let idx := ffs type - 1
    s.lddomains.bind fun lddomains =>
      (s.fields ld).bind fun fields =>
        ((lddomains idx).ld.write fields.idx .null).bind fun cells =>
          (s.map.write fields.ldid .null).map fun map =>
            let subld :=
              match fields.parent with
              | none => s.subld
              | some parent => Function.update s.subld parent ((s.subld parent).erase ld)
            ⟨.ok, true, true,
              { s with
                lddomains := some (Function.update lddomains idx { lddomains idx with ld := cells })
                map
                fields := Function.update s.fields ld (some { fields with idx := 2 ^ 32 - 1 })
                subld
                attached := s.attached.erase ld }⟩

/-- `kaapi_localitydomain_finalize`. -/
def finalize (s : State δ) : Outcome δ :=
  ⟨.ok, false, false, { s with lddomains := none, map := none, ldid := 1, attached := ∅ }⟩

/-- A call of the registry. -/
def call (s : State δ) : Action δ → Option (Outcome δ)
  | .attach type parent ld fails => attach s type parent ld fails
  | .deattach type ld => deattach s type ld
  | .finalize => some (finalize s)

/-- The sequences of calls. -/
def system (δ : Type*) [DecidableEq δ] : TransitionSystem (State δ) (Action δ) where
  initial := fun s => s = start δ
  step := fun s a => (call s a).map Outcome.state

end

/-! ## Lookups -/

section

variable {δ : Type*}

/-- `kaapi_localitydomain_get`. -/
def get (s : State δ) (ldid : ℕ) : Option (Option δ) :=
  if s.ldid ≤ ldid then some none else s.map.read ldid

/-- `kaapi_localitydomain_count`. -/
def count (s : State δ) (type : BitVec 32) : Option ℕ :=
  match s.lddomains with
  | none => some (2 ^ 32 - 1)
  | some lddomains =>
      if refused type then some (2 ^ 32 - 1)
      else if ffs type = 0 then none
      else some (lddomains (ffs type - 1)).count

/-- `kaapi_localitydomain_get_bytype`. -/
def getBytype (s : State δ) (type : BitVec 32) (ith : ℕ) : Option (Option δ) :=
  match s.lddomains with
  | none => some none
  | some lddomains =>
      if refused type then some none
      else if ffs type = 0 then none
      else
        let table := lddomains (ffs type - 1)
        if table.count ≤ ith then some none else table.ld.read ith

/-- `kaapi_localitydomain_get_num`. -/
def getNum (s : State δ) (type : BitVec 32) (i : ℕ) : Option ℕ :=
  (getBytype s type i).bind fun ld =>
    match ld with
    | none => some (2 ^ 32 - 1)
    | some ld => (s.fields ld).map Fields.ldid

/-! ## What the registry is for -/

/-- A domain is attached under the identifier `ldid`. -/
def HasId (s : State δ) (ldid : ℕ) (ld : δ) : Prop :=
  ld ∈ s.attached ∧ ∃ f, s.fields ld = some f ∧ f.ldid = ldid

/-- A domain is attached under the index `idx` of its type. -/
def HasIndex (s : State δ) (type : LdType) (idx : ℕ) (ld : δ) : Prop :=
  ld ∈ s.attached ∧ ∃ f, s.fields ld = some f ∧ f.type = type.code ∧ f.idx = idx

/-- The lookups are defined and give exactly the attached domains, and the children of a domain are
the attached domains with this parent. -/
structure Sound (s : State δ) : Prop where
  get : ∀ ldid, ∃ r, get s ldid = some r ∧ ∀ ld, r = some ld ↔ HasId s ldid ld
  getBytype : ∀ type ith, ∃ r, getBytype s (LdType.code type) ith = some r ∧
    ∀ ld, r = some ld ↔ HasIndex s type ith ld
  getNum : ∀ type i, ∃ r, getNum s (LdType.code type) i = some r ∧
    (∀ ld, HasIndex s type i ld → HasId s r ld) ∧
      ((∀ ld, ¬ HasIndex s type i ld) → r = 2 ^ 32 - 1)
  children : ∀ parent, (s.subld parent).Nodup ∧ ∀ ld, ld ∈ s.subld parent ↔
    ld ∈ s.attached ∧ ∃ f, s.fields ld = some f ∧ f.parent = some parent

/-- The counts, the identifiers and the lookups are the same. -/
structure Same (s s' : State δ) : Prop where
  ldid : s'.ldid = s.ldid
  fields : s'.fields = s.fields
  count : ∀ type, count s' type = count s type
  get : ∀ ldid, get s' ldid = get s ldid
  getBytype : ∀ type ith, getBytype s' type ith = getBytype s type ith
  getNum : ∀ type i, getNum s' type i = getNum s type i

/-- The type is a single known one. -/
def Known (type : BitVec 32) : Prop :=
  type ∈ [LdType.core, .numa, .socket, .board, .gpu].map LdType.code

instance (type : BitVec 32) : Decidable (Known type) :=
  inferInstanceAs (Decidable (type ∈ _))

/-- The type that a call is made with. -/
def Action.type? : Action δ → Option (BitVec 32)
  | .attach type _ _ _ => some type
  | .deattach type _ => some type
  | .finalize => none

/-- What the registry promises about a call. -/
structure Correct (a : Action δ) (s : State δ) (o : Outcome δ) : Prop where
  lock : o.took = o.released
  error : o.status ≠ .ok → Same s o.state
  type : ∀ type, a.type? = some type → ¬ Known type → o.status = .einval
  sound : Sound o.state

/-- A domain that is not attached is attached with a single known type, memory and room in the
counters, or an attached domain is detached with its type. -/
def Proper (s : State δ) : Action δ → Prop
  | .attach type parent ld fails =>
      Known type ∧ ld ∉ s.attached ∧ (fails = none ∨ fails = some .subld ∧ parent = none) ∧
        (s.tables (ffs type - 1)).count + 1 < 2 ^ 32 ∧ s.ldid + 1 < 2 ^ 64
  | .deattach type ld => ld ∈ s.attached ∧ (s.fields ld).map Fields.type = some type
  | .finalize => False

instance [DecidableEq δ] (s : State δ) : ∀ a, Decidable (Proper s a)
  | .attach _ _ _ _ => inferInstanceAs (Decidable (_ ∧ _))
  | .deattach _ _ => inferInstanceAs (Decidable (_ ∧ _))
  | .finalize => inferInstanceAs (Decidable False)

end

end Xkblas.Sched.LocalityDomain
