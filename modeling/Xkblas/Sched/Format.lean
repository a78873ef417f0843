import Mathlib.Data.List.Find
import Mathlib.Data.List.Perm.Subperm
import Xkblas.Library.LinkedPath
import Xkblas.Memory.HashMap

/-!
# The format registry

The formats are objects in two hash tables: by their key and by their host body. Each table has
one link in the object. The link of the table of the bodies is set each time that a host body is
registered, so a second body takes the format out of the middle of a chain.

Beside the registry a run has what it stands for: the registrations, and the host body of each
format.
-/

namespace Xkblas.Sched.Format

open Library
open Memory.HashMap (hashUlong)

/-- A `kaapi_format_t*`: the number of the allocation. -/
abbrev Fmt := ℕ

abbrev Key := BitVec 64

/-- A `kaapi_task_bodyfnc_t`. -/
abbrev Body := BitVec 64

/-- `kaapi_format_id_t`. -/
abbrev FormatId := BitVec 8

/-- `KAAPI_FORMAT_MAX`. -/
def formatMax : ℕ :=
  255

/-- The processor types of `kaapi.h`. -/
inductive ProcType where
  | host
  | cuda
  | hip
  | internal
  deriving DecidableEq

/-- `KAAPI_PROC_TYPE_DEFAULT`. -/
def ProcType.default : ProcType :=
  .host

/-- The tables, and the fields of the formats. `brk` is the next object that
`kaapi_format_allocate` returns. -/
structure State where
  all_formats_count : ℕ
  all_formats : ℕ → Option Fmt
  all_formats_byfmtid : ℕ → Option Fmt
  all_formats_bybody : ℕ → Option Fmt
  fmtid : Fmt → FormatId
  key : Fmt → Key
  default_body : Fmt → Body
  entrypoint : Fmt → ProcType → Body
  next_byfmtid : Fmt → Option Fmt
  next_bybody : Fmt → Option Fmt
  brk : ℕ

/-- `(uint8_t)(kaapi_hash_ulong(key) % KAAPI_FORMAT_MAX)`. -/
def keyEntry (key : Key) : ℕ :=
  (hashUlong key).toNat % formatMax % 2 ^ 8

/-- `(uint8_t)kaapi_hash_ulong(body) % KAAPI_FORMAT_MAX`: the cast is first. -/
def bodyEntry (body : Body) : ℕ :=
  (hashUlong body).toNat % 2 ^ 8 % formatMax

namespace State

/-- The registry before the first registration. -/
def init : State where
  all_formats_count := 0
  all_formats := fun _ => none
  all_formats_byfmtid := fun _ => none
  all_formats_bybody := fun _ => none
  fmtid := fun _ => 0
  key := fun _ => 0
  default_body := fun _ => 0
  entrypoint := fun _ _ => 0
  next_byfmtid := fun _ => none
  next_bybody := fun _ => none
  brk := 0

/-- `kaapi_format_register` of an object of `kaapi_format_allocate`. It aborts when there are too
many formats. -/
def register (s : State) (key : Key) : Option (State × Fmt) :=
  let fmt := s.brk
  let count := s.all_formats_count + 1
  if count < formatMax then
    let entry := keyEntry key
    some
      ({ s with
          all_formats_count := count
          all_formats := Function.update s.all_formats count (some fmt)
          all_formats_byfmtid := Function.update s.all_formats_byfmtid entry (some fmt)
          fmtid := Function.update s.fmtid fmt (BitVec.ofNat 8 count)
          key := Function.update s.key fmt key
          default_body := Function.update s.default_body fmt 0
          entrypoint := Function.update s.entrypoint fmt fun _ => 0
          next_byfmtid := Function.update s.next_byfmtid fmt (s.all_formats_byfmtid entry)
          next_bybody := Function.update s.next_bybody fmt none
          brk := s.brk + 1 }, fmt)
  else none

/-- The part of `kaapi_format_taskregister_body` that links the format in the table. -/
def link (s : State) (fmt : Fmt) (body : Body) : State :=
  let entry := bodyEntry body
  { s with
    next_bybody := Function.update s.next_bybody fmt (s.all_formats_bybody entry)
    all_formats_bybody := Function.update s.all_formats_bybody entry (some fmt) }

/-- `kaapi_format_taskregister_body`. -/
def taskregisterBody (s : State) (fmt : Fmt) (body : Body) (archi : ProcType) : State :=
  if body = 0 then s
  else if s.entrypoint fmt archi = body then s
  else
    let entrypoint := Function.update (s.entrypoint fmt) archi body
    let s := { s with entrypoint := Function.update s.entrypoint fmt entrypoint }
    let s := if archi = .default then
      { s with default_body := Function.update s.default_body fmt body } else s
    if archi = .host then s.link fmt body else s

/-- One test more than there are objects. -/
def fuel (s : State) : ℕ :=
  s.brk + 1

/-- `kaapi_format_resolve_bykey`. The outer option is whether the loop ends. -/
def resolveBykey (s : State) (key : Key) : Option (Option Fmt) :=
  if key = 0 then some none
  else search s.next_byfmtid (fun head => s.key head = key) s.fuel
    (s.all_formats_byfmtid (keyEntry key))

/-- `kaapi_format_resolve_bybody`. -/
def resolveBybody (s : State) (body : Body) : Option (Option Fmt) :=
  search s.next_bybody (fun head => s.default_body head = body) s.fuel
    (s.all_formats_bybody (bodyEntry body))

/-- `kaapi_format_resolvebyfmit`. It has no defined result when it reads behind the table. -/
def resolvebyfmit (s : State) (key : FormatId) : Option (Option Fmt) :=
  let entry := (key &&& BitVec.ofNat 8 formatMax).toNat
  if entry < formatMax then
    search s.next_byfmtid (fun head => s.fmtid head = key) s.fuel (s.all_formats_byfmtid entry)
  else none

/-- The formats of the list of bodies that starts at `p`. -/
def chain (s : State) (p : Option Fmt) : List Fmt :=
  walk s.next_bybody s.brk p

/-- The formats in the entry of a body. -/
def bodyChain (s : State) (body : Body) : List Fmt :=
  s.chain (s.all_formats_bybody (bodyEntry body))

/-- The entry of the body of `g` leads to `g` through the link of `fmt`. -/
def Behind (s : State) (fmt g : Fmt) : Prop :=
  s.default_body g ≠ 0 ∧ fmt ∈ s.bodyChain (s.default_body g) ∧ g ∈ s.chain (s.next_bybody fmt)

instance (s : State) (fmt g : Fmt) : Decidable (s.Behind fmt g) :=
  inferInstanceAs (Decidable (_ ∧ _ ∧ _))

/-- The format can be linked in the entry of the body without a loss: it is not in that entry, and
the other formats behind it are. -/
def Linkable (s : State) (fmt : Fmt) (body : Body) : Prop :=
  fmt ∉ s.bodyChain body ∧ ∀ g < s.brk, g ≠ fmt → s.Behind fmt g → g ∈ s.bodyChain body

instance (s : State) (fmt : Fmt) (body : Body) : Decidable (s.Linkable fmt body) :=
  inferInstanceAs (Decidable (_ ∧ ∀ g < s.brk, _))

end State

/-! ## Runs -/

/-- A registration: the object, the identifier that was returned, and the key. -/
structure Registration where
  fmt : Fmt
  fmtid : FormatId
  key : Key

/-- The registry in a run, the registrations with the most recent first, and the host body that
was registered last for each format. -/
structure Run where
  reg : State
  log : List Registration
  body : Fmt → Option Body

/-- The calls. A body is registered for a format that was registered. -/
inductive Op where
  | register (key : Key)
  | body (fmt : Fmt) (body : Body) (archi : ProcType)

def step (s : Run) : Op → Option Run
  | .register key =>
      (s.reg.register key).map fun r =>
        { s with reg := r.1, log := ⟨r.2, r.1.fmtid r.2, key⟩ :: s.log }
  | .body fmt body archi =>
      if fmt ∈ s.log.map Registration.fmt then
        some { s with
          reg := s.reg.taskregisterBody fmt body archi
          body := if archi = .host ∧ body ≠ 0 then Function.update s.body fmt (some body)
            else s.body }
      else none

def system : TransitionSystem Run Op where
  initial := fun s => s = ⟨.init, [], fun _ => none⟩
  step := step

/-- The look-up by key returns the most recent format with the key, or nothing. -/
def BykeySound (s : Run) : Prop :=
  ∀ key, s.reg.resolveBykey key = some ((s.log.find? fun r => r.key = key).map Registration.fmt)

/-- The look-up by body returns a format with this host body, or nothing when there is none. -/
def BybodySound (s : Run) : Prop :=
  ∀ body, ∃ r, s.reg.resolveBybody body = some r ∧
    (∀ fmt, r = some fmt → s.body fmt = some body) ∧ (r = none → ∀ fmt, s.body fmt ≠ some body)

/-- The look-up by identifier returns the format with the identifier, or nothing. -/
def ByfmtidSound (s : Run) (id : FormatId) : Prop :=
  s.reg.resolvebyfmit id = some ((s.log.find? fun r => r.fmtid = id).map Registration.fmt)

/-- What the calls respect: a key is not null, and another host body for a format loses no
format. -/
def Respects (s : Run) : Op → Prop
  | .register key => key ≠ 0
  | .body fmt body archi =>
      archi = .host → body ≠ 0 → s.reg.entrypoint fmt archi ≠ body → s.reg.Linkable fmt body

instance (s : Run) (op : Op) : Decidable (Respects s op) :=
  match op with
  | .register key => inferInstanceAs (Decidable (key ≠ 0))
  | .body _ _ _ => inferInstanceAs (Decidable (_ = _ → _))

/-! ## The tables of the registrations -/

/-- The objects and the table of the keys are those of the registrations. -/
structure Logged (s : State) (log : List Registration) : Prop where
  count : s.all_formats_count = log.length
  brk : s.brk = log.length
  bound : log.length < formatMax
  entry : ∀ r ∈ log, r.fmt < s.brk ∧ s.key r.fmt = r.key ∧ s.fmtid r.fmt = r.fmtid ∧
    r.fmtid = BitVec.ofNat 8 (r.fmt + 1) ∧ r.key ≠ 0
  all : ∀ id : FormatId,
    s.all_formats id.toNat = (log.find? fun r => r.fmtid = id).map Registration.fmt
  keys : ∀ e, IsPath s.next_byfmtid (s.all_formats_byfmtid e)
    ((log.filter fun r => keyEntry r.key = e).map Registration.fmt) none

variable {s t : State} {log : List Registration} {body : Fmt → Option Body} {L : ℕ → List Fmt}

/-- Two registrations with one identifier are the same. -/
theorem Logged.fmtid_unique (h : Logged s log) {r r' : Registration} (hr : r ∈ log)
    (hr' : r' ∈ log) (hid : r.fmtid = r'.fmtid) : r = r' := by
  obtain ⟨hlt, hkey, hfmtid, heq, _⟩ := h.entry r hr
  obtain ⟨hlt', hkey', hfmtid', heq', _⟩ := h.entry r' hr'
  have hbound := h.bound
  rw [← h.brk] at hbound
  have hsmall : ∀ f < s.brk, f + 1 < 2 ^ 8 := fun f hf =>
    lt_of_le_of_lt hf (lt_trans hbound (by decide))
  have hfmt : r.fmt = r'.fmt := by
    have hnat : (r.fmt + 1) % 2 ^ 8 = (r'.fmt + 1) % 2 ^ 8 := by
      rw [← BitVec.toNat_ofNat, ← BitVec.toNat_ofNat, ← heq, ← heq', hid]
    rw [Nat.mod_eq_of_lt (hsmall _ hlt), Nat.mod_eq_of_lt (hsmall _ hlt')] at hnat
    exact Nat.succ_injective hnat
  have hkeys : r.key = r'.key := by
    rw [← hkey, ← hkey', hfmt]
  show (⟨r.fmt, r.fmtid, r.key⟩ : Registration) = ⟨r'.fmt, r'.fmtid, r'.key⟩
  rw [hfmt, hid, hkeys]

/-- A registration enters the tables. -/
theorem Logged.register {key : Key} {fmt : Fmt} (h : Logged s log) (hkey : key ≠ 0)
    (hreg : s.register key = some (t, fmt)) : Logged t (⟨fmt, t.fmtid fmt, key⟩ :: log) := by
  unfold State.register at hreg
  by_cases hlt : s.all_formats_count + 1 < formatMax
  case neg =>
    rw [if_neg hlt] at hreg
    cases hreg
  rw [if_pos hlt] at hreg
  cases hreg
  have hold : ∀ r ∈ log, r.fmt ≠ s.brk := fun r hr => (h.entry r hr).1.ne
  have hid : Function.update s.fmtid s.brk (BitVec.ofNat 8 (s.all_formats_count + 1)) s.brk =
      BitVec.ofNat 8 (s.all_formats_count + 1) := Function.update_self _ _ _
  have htoNat : (BitVec.ofNat 8 (s.all_formats_count + 1)).toNat = s.all_formats_count + 1 :=
    Nat.mod_eq_of_lt (lt_trans hlt (by decide))
  constructor
  case count => exact congrArg (· + 1) h.count
  case brk => exact congrArg (· + 1) h.brk
  case bound =>
    rw [h.count] at hlt
    exact hlt
  case entry =>
    intro r hr
    rcases List.mem_cons.mp hr with rfl | hr
    · refine ⟨Nat.lt_succ_self _, Function.update_self _ _ _, rfl, hid.trans ?_, hkey⟩
      rw [h.count, ← h.brk]
    · obtain ⟨hr', hk, hf, heq, hne⟩ := h.entry r hr
      exact ⟨Nat.lt_succ_of_lt hr', (Function.update_of_ne (hold r hr) _ _).trans hk,
        (Function.update_of_ne (hold r hr) _ _).trans hf, heq, hne⟩
  case all =>
    intro id
    show Function.update s.all_formats (s.all_formats_count + 1) (some s.brk) id.toNat = _
    by_cases hnew : id = BitVec.ofNat 8 (s.all_formats_count + 1)
    · rw [List.find?_cons_of_pos (by simpa [hid] using hnew.symm), hnew, htoNat,
        Function.update_self]
      rfl
    · have hne : id.toNat ≠ s.all_formats_count + 1 := fun heq =>
        hnew (BitVec.eq_of_toNat_eq (heq.trans htoNat.symm))
      rw [List.find?_cons_of_neg (by simpa [hid] using Ne.symm hnew),
        Function.update_of_ne hne]
      exact h.all id
  case keys =>
    intro e
    have hpath : IsPath
        (Function.update s.next_byfmtid s.brk (s.all_formats_byfmtid (keyEntry key)))
        (s.all_formats_byfmtid e)
        ((log.filter fun r => keyEntry r.key = e).map Registration.fmt) none := by
      refine (h.keys e).congr fun f hf => Function.update_of_ne ?_ _ _
      obtain ⟨r, hr, rfl⟩ := List.mem_map.mp hf
      exact hold r (List.mem_of_mem_filter hr)
    show IsPath (Function.update s.next_byfmtid s.brk (s.all_formats_byfmtid (keyEntry key)))
      (Function.update s.all_formats_byfmtid (keyEntry key) (some s.brk) e) _ _
    by_cases he : keyEntry key = e
    · subst he
      rw [Function.update_self, List.filter_cons_of_pos (by simp)]
      refine ⟨rfl, ?_⟩
      rw [Function.update_self]
      exact hpath
    · rw [Function.update_of_ne (Ne.symm he), List.filter_cons_of_neg (by simpa using he)]
      exact hpath

/-- A loop over a chain of the keys ends, with the most recent registration that passes the
test. -/
theorem Logged.search_eq (h : Logged s log) (e : ℕ) (test : Fmt → Bool) :
    search s.next_byfmtid test s.fuel (s.all_formats_byfmtid e) =
      some ((log.find? fun r => keyEntry r.key = e && test r.fmt).map Registration.fmt) := by
  have hlength : ((log.filter fun r => keyEntry r.key = e).map Registration.fmt).length <
      s.fuel := by
    rw [List.length_map]
    refine Nat.lt_succ_of_le ?_
    rw [h.brk]
    exact List.length_filter_le _ _
  rw [(h.keys e).search_eq hlength, List.find?_map, List.find?_filter]
  simp only [Function.comp_apply, Bool.decide_and, Bool.decide_eq_true, decide_eq_true_eq]

/-- The look-up by key. -/
theorem Logged.resolveBykey_eq (h : Logged s log) (key : Key) :
    s.resolveBykey key = some ((log.find? fun r => r.key = key).map Registration.fmt) := by
  unfold State.resolveBykey
  by_cases hkey : key = 0
  · rw [if_pos hkey, List.find?_eq_none.mpr]
    · rfl
    · intro r hr
      rw [hkey, decide_eq_true_eq]
      exact (h.entry r hr).2.2.2.2
  · rw [if_neg hkey, h.search_eq]
    refine congrArg (fun r => some (Option.map Registration.fmt r)) ?_
    refine List.find?_congr fun r hr => ?_
    obtain ⟨_, hk, _⟩ := h.entry r hr
    rw [hk]
    by_cases heq : r.key = key
    · simp [heq]
    · simp [heq]

/-- The look-up by identifier reads the entry of this number: it finds a format whose key has
it. -/
theorem Logged.resolvebyfmit_eq_iff (h : Logged s log) (id : FormatId) :
    s.resolvebyfmit id = some ((log.find? fun r => r.fmtid = id).map Registration.fmt) ↔
      id.toNat < formatMax ∧ ∀ r ∈ log, r.fmtid = id → keyEntry r.key = id.toNat := by
  have hentry : (id &&& BitVec.ofNat 8 formatMax).toNat = id.toNat := by
    have hones : BitVec.ofNat 8 formatMax = BitVec.allOnes 8 := rfl
    rw [hones, BitVec.and_allOnes]
  unfold State.resolvebyfmit
  simp only [hentry]
  by_cases hlt : id.toNat < formatMax
  case neg =>
    rw [if_neg hlt]
    exact ⟨nofun, fun hand => absurd hand.1 hlt⟩
  rw [if_pos hlt, h.search_eq]
  have htest : (log.find? fun r => keyEntry r.key = id.toNat && s.fmtid r.fmt = id) =
      log.find? fun r => keyEntry r.key = id.toNat && r.fmtid = id :=
    List.find?_congr fun r hr => by rw [(h.entry r hr).2.2.1]
  rw [htest]
  constructor
  · refine fun heq => ⟨hlt, fun r hr hid => ?_⟩
    have hsome : (log.find? fun r => r.fmtid = id).isSome :=
      List.find?_isSome.mpr ⟨r, hr, by simpa using hid⟩
    have hsome' : (log.find? fun r => keyEntry r.key = id.toNat && r.fmtid = id).isSome := by
      have hmap := congrArg Option.isSome (Option.some.inj heq)
      rw [Option.isSome_map, Option.isSome_map] at hmap
      exact hmap.trans hsome
    obtain ⟨r', hr', htest'⟩ := List.find?_isSome.mp hsome'
    obtain ⟨hkey, hid'⟩ : keyEntry r'.key = id.toNat ∧ r'.fmtid = id := by simpa using htest'
    rw [h.fmtid_unique hr hr' (hid.trans hid'.symm)]
    exact hkey
  · intro hand
    refine congrArg (fun r => some (Option.map Registration.fmt r)) ?_
    refine List.find?_congr fun r hr => ?_
    by_cases hid : r.fmtid = id
    · simp [hid, hand.2 r hr hid]
    · simp [hid]

/-! ## The table of the bodies -/

/-- The entry of a body leads to the formats that have it, over the formats of `L`. -/
structure Bodies (s : State) (body : Fmt → Option Body) (L : ℕ → List Fmt) : Prop where
  path : ∀ e, IsPath s.next_bybody (s.all_formats_bybody e) (L e) none
  inside : ∀ e, ∀ f ∈ L e, f < s.brk ∧ body f ≠ none
  known : ∀ f < s.brk, s.default_body f = (body f).getD 0 ∧ s.entrypoint f .host = (body f).getD 0
  found : ∀ f b, body f = some b → b ≠ 0 ∧ f < s.brk ∧ f ∈ L (bodyEntry b)

/-- A path through objects has at most as many cells as there are objects. -/
theorem length_le_brk {p : Option Fmt} {l : List Fmt} (hpath : IsPath s.next_bybody p l none)
    (hinside : ∀ f ∈ l, f < s.brk) : l.length ≤ s.brk := by
  have hsub := hpath.nodup.subperm fun f hf => List.mem_range.mpr (hinside f hf)
  have hle := hsub.length_le
  rwa [List.length_range] at hle

/-- The chain of an entry. -/
theorem Bodies.bodyChain_eq (h : Bodies s body L) (b : Body) :
    s.bodyChain b = L (bodyEntry b) :=
  (h.path _).walk_eq (length_le_brk (h.path _) fun f hf => (h.inside _ f hf).1)

/-- The new format is in no chain. -/
theorem Bodies.register {key : Key} {fmt : Fmt} (h : Bodies s body L)
    (hreg : s.register key = some (t, fmt)) : Bodies t body L := by
  unfold State.register at hreg
  by_cases hlt : s.all_formats_count + 1 < formatMax
  case neg =>
    rw [if_neg hlt] at hreg
    cases hreg
  rw [if_pos hlt] at hreg
  cases hreg
  have hnone : body s.brk = none := by
    cases hbody : body s.brk with
    | none => rfl
    | some b => exact absurd (h.found _ b hbody).2.1 (lt_irrefl _)
  constructor
  case path =>
    intro e
    exact (h.path e).congr fun f hf => Function.update_of_ne (h.inside e f hf).1.ne _ _
  case inside =>
    exact fun e f hf => ⟨Nat.lt_succ_of_lt (h.inside e f hf).1, (h.inside e f hf).2⟩
  case known =>
    intro f hf
    show Function.update s.default_body s.brk 0 f = _ ∧
      Function.update s.entrypoint s.brk (fun _ => 0) f .host = _
    by_cases hnew : f = s.brk
    · rw [hnew, hnone, Function.update_self, Function.update_self]
      exact ⟨rfl, rfl⟩
    · rw [Function.update_of_ne hnew, Function.update_of_ne hnew]
      exact h.known f (lt_of_le_of_ne (Nat.le_of_lt_succ hf) hnew)
  case found =>
    intro f b hfb
    obtain ⟨hb, hf, hmem⟩ := h.found f b hfb
    exact ⟨hb, Nat.lt_succ_of_lt hf, hmem⟩

/-- What a link does to the chain of one entry: the formats behind the linked one are replaced by
those of the entry of the body. -/
theorem Bodies.exists_linked {fmt : Fmt} {b : Body} (h : Bodies s body L)
    (hnot : fmt ∉ L (bodyEntry b)) (e : ℕ) :
    ∃ l, IsPath (s.link fmt b).next_bybody ((s.link fmt b).all_formats_bybody e) l none ∧
      (∀ f ∈ l, f = fmt ∨ ∃ e, f ∈ L e) ∧ (e = bodyEntry b → fmt ∈ l) ∧
      ∀ g ∈ L e, (fmt ∈ L e → g ≠ fmt → g ∈ s.chain (s.next_bybody fmt) → g ∈ L (bodyEntry b)) →
        g ∈ l := by
  have hnew : ∀ f ∈ fmt :: L (bodyEntry b), f = fmt ∨ ∃ e, f ∈ L e :=
    fun f hf => (List.mem_cons.mp hf).imp_right fun hmem => ⟨_, hmem⟩
  show ∃ l, IsPath (Function.update s.next_bybody fmt (s.all_formats_bybody (bodyEntry b)))
    (Function.update s.all_formats_bybody (bodyEntry b) (some fmt) e) l none ∧ _
  by_cases he : e = bodyEntry b
  · subst he
    rw [Function.update_self]
    refine ⟨fmt :: L (bodyEntry b), ⟨rfl, ?_⟩, hnew, fun _ => List.mem_cons_self, fun g hg _ =>
      List.mem_cons_of_mem _ hg⟩
    rw [Function.update_self]
    exact (h.path _).congr fun f hf => Function.update_of_ne (ne_of_mem_of_not_mem hf hnot) _ _
  rw [Function.update_of_ne he]
  by_cases hmem : fmt ∈ L e
  · -- the chain goes through the format, and on with the entry of the body
    obtain ⟨l₁, l₂, hL⟩ := List.append_of_mem hmem
    have hpath := h.path e
    rw [hL] at hpath
    have hbehind : s.chain (s.next_bybody fmt) = l₂ := by
      have hsuffix := (isPath_append_cons.mp hpath).2
      refine hsuffix.walk_eq (length_le_brk hsuffix fun f hf => (h.inside e f ?_).1)
      rw [hL]
      exact List.mem_append_right _ (List.mem_cons_of_mem _ hf)
    refine ⟨l₁ ++ fmt :: L (bodyEntry b), hpath.redirect (h.path _) hnot, ?_, fun heq =>
      absurd heq he, fun g hg hkeep => ?_⟩
    · intro f hf
      rcases List.mem_append.mp hf with hf | hf
      · refine .inr ⟨e, ?_⟩
        rw [hL]
        exact List.mem_append_left _ hf
      · exact hnew f hf
    · rw [hL] at hg
      by_cases hgf : g = fmt
      · rw [hgf]
        exact List.mem_append_right _ List.mem_cons_self
      · rcases List.mem_append.mp hg with hg | hg
        · exact List.mem_append_left _ hg
        · have hg₂ := (List.mem_cons.mp hg).resolve_left hgf
          rw [← hbehind] at hg₂
          exact List.mem_append_right _ (List.mem_cons_of_mem _ (hkeep hmem hgf hg₂))
  · refine ⟨L e, (h.path e).congr fun f hf => ?_, fun f hf => .inr ⟨e, hf⟩, fun heq =>
      absurd heq he, fun g hg _ => hg⟩
    exact Function.update_of_ne (ne_of_mem_of_not_mem hf hmem) _ _

/-- A host body of a format that can be linked is found, and no other one is lost. -/
theorem Bodies.link {fmt : Fmt} {b : Body} (h : Bodies s body L) (hfmt : fmt < s.brk)
    (hb : b ≠ 0) (hlink : s.Linkable fmt b)
    (hnext : t.next_bybody = (s.link fmt b).next_bybody)
    (hentry : t.all_formats_bybody = (s.link fmt b).all_formats_bybody) (hbrk : t.brk = s.brk)
    (hdefault : t.default_body = Function.update s.default_body fmt b)
    (hhost : ∀ f, t.entrypoint f .host = if f = fmt then b else s.entrypoint f .host) :
    ∃ L', Bodies t (Function.update body fmt (some b)) L' := by
  obtain ⟨hnot, hkeep⟩ := hlink
  rw [h.bodyChain_eq] at hnot
  choose L' hpath hinside hself hothers using h.exists_linked hnot
  refine ⟨L', ?_, ?_, ?_, ?_⟩
  · intro e
    rw [hnext, hentry]
    exact hpath e
  · intro e f hf
    rw [hbrk]
    by_cases heq : f = fmt
    · rw [heq, Function.update_self]
      exact ⟨hfmt, Option.some_ne_none b⟩
    · obtain ⟨e', hmem⟩ := (hinside e f hf).resolve_left heq
      rw [Function.update_of_ne heq]
      exact h.inside e' f hmem
  · intro f hf
    rw [hbrk] at hf
    rw [hdefault, hhost]
    by_cases heq : f = fmt
    · rw [heq, Function.update_self, Function.update_self, if_pos rfl]
      exact ⟨rfl, rfl⟩
    · rw [Function.update_of_ne heq, Function.update_of_ne heq, if_neg heq]
      exact h.known f hf
  · intro f c hfc
    rw [hbrk]
    by_cases heq : f = fmt
    · rw [heq, Function.update_self] at hfc
      cases hfc
      rw [heq]
      exact ⟨hb, hfmt, hself _ rfl⟩
    · rw [Function.update_of_ne heq] at hfc
      obtain ⟨hc, hf, hmem⟩ := h.found f c hfc
      refine ⟨hc, hf, hothers _ f hmem fun hthrough _ hbehind => ?_⟩
      have hdef : s.default_body f = c := by
        rw [(h.known f hf).1, hfc]
        rfl
      have hkept : f ∈ s.bodyChain b := by
        refine hkeep f hf heq ⟨?_, ?_, hbehind⟩
        · rw [hdef]
          exact hc
        · rw [hdef, h.bodyChain_eq]
          exact hthrough
      rwa [h.bodyChain_eq] at hkept

/-- A call of `kaapi_format_taskregister_body`. -/
theorem Bodies.taskregisterBody {fmt : Fmt} {b : Body} {archi : ProcType} (h : Bodies s body L)
    (hfmt : fmt < s.brk)
    (hok : archi = .host → b ≠ 0 → s.entrypoint fmt archi ≠ b → s.Linkable fmt b) :
    ∃ L', Bodies (s.taskregisterBody fmt b archi)
      (if archi = .host ∧ b ≠ 0 then Function.update body fmt (some b) else body) L' := by
  unfold State.taskregisterBody
  by_cases hb : b = 0
  · rw [if_pos hb, if_neg (fun hand => hand.2 hb)]
    exact ⟨L, h⟩
  rw [if_neg hb]
  by_cases hsame : s.entrypoint fmt archi = b
  · rw [if_pos hsame]
    by_cases hhost : archi = .host
    · -- the format has this body already
      have hbody : body fmt = some b := by
        have hknown := (h.known fmt hfmt).2
        rw [← hhost, hsame] at hknown
        cases hval : body fmt with
        | none =>
            rw [hval] at hknown
            exact absurd hknown hb
        | some c =>
            rw [hval] at hknown
            rw [hknown]
            rfl
      rw [if_pos ⟨hhost, hb⟩, ← hbody, Function.update_eq_self]
      exact ⟨L, h⟩
    · rw [if_neg fun hand => hhost hand.1]
      exact ⟨L, h⟩
  rw [if_neg hsame]
  by_cases hhost : archi = .host
  · subst hhost
    rw [if_pos (⟨rfl, hb⟩ : ProcType.host = .host ∧ b ≠ 0)]
    refine h.link hfmt hb (hok rfl hb hsame) rfl rfl rfl rfl fun f => ?_
    show Function.update s.entrypoint fmt (Function.update (s.entrypoint fmt) .host b) f .host = _
    by_cases heq : f = fmt
    · rw [heq, Function.update_self, Function.update_self, if_pos rfl]
    · rw [Function.update_of_ne heq, if_neg heq]
  · have hdefault : archi ≠ .default := hhost
    have hnew : ¬(archi = .host ∧ b ≠ 0) := fun hand => hhost hand.1
    simp only [if_neg hhost, if_neg hdefault, if_neg hnew]
    refine ⟨L, { h with known := fun f hf => ⟨(h.known f hf).1, ?_⟩ }⟩
    show Function.update s.entrypoint fmt (Function.update (s.entrypoint fmt) archi b) f .host = _
    by_cases heq : f = fmt
    · rw [heq, Function.update_self, Function.update_of_ne (Ne.symm hhost)]
      exact (h.known fmt hfmt).2
    · rw [Function.update_of_ne heq]
      exact (h.known f hf).2

/-- The look-up by body. -/
theorem Bodies.resolveBybody_sound (h : Bodies s body L) (b : Body) :
    ∃ r, s.resolveBybody b = some r ∧ (∀ fmt, r = some fmt → body fmt = some b) ∧
      (r = none → ∀ fmt, body fmt ≠ some b) := by
  have hpath := h.path (bodyEntry b)
  have hinside := h.inside (bodyEntry b)
  have hlength := length_le_brk hpath fun f hf => (hinside f hf).1
  refine ⟨_, hpath.search_eq (Nat.lt_succ_of_le hlength), ?_, ?_⟩
  · intro fmt hfind
    have hdefault : s.default_body fmt = b := by simpa using List.find?_some hfind
    obtain ⟨hlt, hsome⟩ := hinside fmt (List.mem_of_find?_eq_some hfind)
    obtain ⟨c, hc⟩ := Option.ne_none_iff_exists'.mp hsome
    rw [(h.known fmt hlt).1, hc] at hdefault
    rw [hc]
    exact congrArg some hdefault
  · intro hfind fmt hbody
    obtain ⟨_, hlt, hmem⟩ := h.found fmt b hbody
    refine List.find?_eq_none.mp hfind fmt hmem ?_
    rw [decide_eq_true_eq, (h.known fmt hlt).1, hbody]
    rfl

/-! ## Runs -/

/-- A body changes nothing that the registrations wrote. -/
theorem Logged.taskregisterBody {fmt : Fmt} {b : Body} {archi : ProcType} (h : Logged s log) :
    Logged (s.taskregisterBody fmt b archi) log := by
  unfold State.taskregisterBody
  split
  · exact h
  · split
    · exact h
    · dsimp only
      split <;> split <;> exact { h with }

/-- The invariant of a run. -/
def Inv (s : Run) : Prop :=
  Logged s.reg s.log ∧ ∃ L, Bodies s.reg s.body L

theorem Inv.initial : Inv ⟨.init, [], fun _ => none⟩ := by
  constructor
  · exact ⟨rfl, rfl, by decide, nofun, fun _ => rfl, fun _ => rfl⟩
  · exact ⟨fun _ => [], fun _ => rfl, nofun, fun f hf => absurd hf (Nat.not_lt_zero f), nofun⟩

/-- A call that meets the condition keeps the invariant. -/
theorem Inv.step {s t : Run} {op : Op} (h : Inv s) (hok : Respects s op)
    (hstep : step s op = some t) : Inv t := by
  obtain ⟨hlog, L, hbodies⟩ := h
  cases op with
  | register key =>
      obtain ⟨⟨reg, fmt⟩, hreg, rfl⟩ := Option.map_eq_some_iff.mp hstep
      exact ⟨hlog.register hok hreg, L, hbodies.register hreg⟩
  | body fmt b archi =>
      simp only [Format.step] at hstep
      split at hstep
      case isFalse => cases hstep
      case isTrue hmem =>
        cases hstep
        obtain ⟨r, hr, rfl⟩ := List.mem_map.mp hmem
        exact ⟨hlog.taskregisterBody, hbodies.taskregisterBody (hlog.entry r hr).1 hok⟩

/-- In a run whose calls meet the condition the look-ups by key and by body are right, and that by
identifier is right exactly where the key of the format has the identifier as its entry. -/
theorem registry_sound_iff {s : Run} (hs : system.ReachableWhen Respects s) :
    BykeySound s ∧ BybodySound s ∧ ∀ id, ByfmtidSound s id ↔
      id.toNat < formatMax ∧ ∀ r ∈ s.log, r.fmtid = id → keyEntry r.key = id.toNat := by
  have h : Inv s := by
    induction hs with
    | start hinit =>
        rw [hinit]
        exact .initial
    | next _ hok hstep ih => exact ih.step hok hstep
  obtain ⟨hlog, L, hbodies⟩ := h
  exact ⟨hlog.resolveBykey_eq, hbodies.resolveBybody_sound, hlog.resolvebyfmit_eq_iff⟩

/-- The initial run. -/
def emptyRun : Run :=
  ⟨.init, [], fun _ => none⟩

/-- Two formats in one entry, of which the last one is linked a second time. -/
theorem registry_sound_iff_relinked :
    let s := (system.replay Respects emptyRun
      [.register 1, .register 257, .body 0 1 .host, .body 0 7 .cuda, .body 1 256 .host,
        .body 0 2 .host]).get (by decide)
    BykeySound s ∧ BybodySound s ∧ ∀ id, ByfmtidSound s id ↔
      id.toNat < formatMax ∧ ∀ r ∈ s.log, r.fmtid = id → keyEntry r.key = id.toNat :=
  registry_sound_iff ((TransitionSystem.ReachableWhen.start rfl).replay (Option.some_get _).symm)

/-- A second body of the first format of an entry loses the format behind it. -/
theorem not_registry_sound :
    ¬ ∀ s, system.Reachable s →
      BykeySound s ∧ BybodySound s ∧ ∀ id, ByfmtidSound s id := by
  intro hall
  let s := (system.run emptyRun
    [.register 1, .register 2, .body 1 256 .host, .body 0 1 .host, .body 0 2 .host]).get (by decide)
  have hs : system.Reachable s :=
    (TransitionSystem.ReachableWhen.start rfl).replay (Option.some_get _).symm
  obtain ⟨r, hr, _, hnone⟩ := (hall s hs).2.1 256
  have hlost : s.reg.resolveBybody 256 = some none := by decide
  rw [hlost] at hr
  exact hnone (Option.some.inj hr).symm 1 (by decide)

/-- A second body in the entry of the first one makes the chain a cycle: the look-up of a body that
is not in it does not end. -/
example : ((system.run emptyRun [.register 1, .body 0 1 .host, .body 0 256 .host]).map
    fun s => s.reg.resolveBybody 1) = some none := by
  decide

end Xkblas.Sched.Format
