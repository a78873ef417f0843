import Xkblas.Memory.FindAccess
import Xkblas.Library.FinLiteral

/-!
# What a look-up leaves

The invariant says which blocks of the devices belong to the address: an allocated replica of a
device holds one block, at least as large as its view, and there is no other block. A look-up that
returns keeps it, whatever its view. The views are another matter: a replica that is still
allocated keeps the view of the look-up that created it.
-/

namespace Xkblas.Memory.FindAccess

open Library
open scoped Library.FinLiteral
open Dsm (Lid host)

variable {n address : Nat}

namespace View

variable {v : View} {l : Lid n}

@[simp] theorem size_reallocated : v.reallocated.size = v.size := by
  cases v with
  | mk offset size0 size1 ld wordsize type storage =>
      cases type with
      | view1D => rfl
      | view2D =>
          cases storage with
          | rowMajor => rfl
          | colMajor => rfl

@[simp] theorem size_onNode : (v.onNode l).size = v.size := by
  unfold onNode
  split
  · rfl
  · exact size_reallocated

end View

namespace Metadata

variable {m : Metadata n} {l l' : Lid n} {r : Replica}

@[simp] theorem replicas_setReplica_self : (m.setReplica l r).replicas l = some r :=
  Function.update_self _ _ _

theorem replicas_setReplica_of_ne (h : l' ≠ l) :
    (m.setReplica l r).replicas l' = m.replicas l' :=
  Function.update_of_ne h _ _

end Metadata

/-! ## The invariant -/

/-- The blocks of one device belong to its replica. -/
structure Owned (r : Option Replica) (allocated : Prop) (live : List Block) : Prop where
  block : allocated → ∃ r' b, r = some r' ∧ r'.ptr ≠ 0 ∧ live = [b] ∧ b.ptr = r'.ptr ∧
    r'.view.size ≤ b.size
  none : ¬ allocated → live = [] ∧ ∀ r', r = some r' → r'.ptr = 0

/-- The replicas of a known address. -/
structure Backed (address : Nat) (m : Metadata n) (live : Live n) : Prop where
  root : host ∈ m.alloc ∨ m.alloc = ∅
  memory : host ∈ m.alloc → ∃ r, m.replicas host = some r ∧ r.ptr = address
  absent : host ∉ m.alloc → ∀ r, m.replicas host = some r → r.ptr = 0
  device : ∀ l ≠ host, Owned (m.replicas l) (l ∈ m.alloc) (live l)

/-- The invariant of the runs. -/
structure Inv (address : Nat) (s : State n) : Prop where
  unknown : s.mdi = none → ∀ l, s.live l = []
  known : ∀ m, s.mdi = some m → Backed address m s.live
  hostLive : s.live host = []

namespace Backed

variable {m : Metadata n} {live : Live n} {l : Lid n} {r r' : Replica}

/-- The bits `valid` and `xfer` do not count. -/
theorem setBits (h : Backed address m live) (valid xfer : Finset (Lid n)) :
    Backed address { m with valid := valid, xfer := xfer } live :=
  ⟨h.root, h.memory, h.absent, h.device⟩

/-- A replica changes, but not its memory or its view. -/
theorem setReplica (h : Backed address m live) (hr : m.replicas l = some r)
    (hptr : r'.ptr = r.ptr) (hview : r'.view = r.view) :
    Backed address (m.setReplica l r') live := by
  constructor
  case root => exact h.root
  case memory =>
    intro hmem
    obtain ⟨r₀, hr₀, hr₀ptr⟩ := h.memory hmem
    by_cases hl : l = host
    · subst hl
      obtain rfl : r = r₀ := Option.some.inj (hr.symm.trans hr₀)
      exact ⟨r', Metadata.replicas_setReplica_self, hptr.trans hr₀ptr⟩
    · exact ⟨r₀, (Metadata.replicas_setReplica_of_ne fun heq => hl heq.symm).trans hr₀, hr₀ptr⟩
  case absent =>
    intro hmem r₀ hr₀
    by_cases hl : l = host
    · subst hl
      rw [Metadata.replicas_setReplica_self] at hr₀
      cases hr₀
      exact hptr.trans (h.absent hmem r hr)
    · rw [Metadata.replicas_setReplica_of_ne fun heq => hl heq.symm] at hr₀
      exact h.absent hmem r₀ hr₀
  case device =>
    intro l' hl'
    by_cases hl : l' = l
    · subst hl
      rw [Metadata.replicas_setReplica_self]
      constructor
      case block =>
        intro hmem
        obtain ⟨r₀, b, hr₀, hne, hlive, hb, hsize⟩ := (h.device l' hl').block hmem
        obtain rfl : r = r₀ := Option.some.inj (hr.symm.trans hr₀)
        exact ⟨r', b, rfl, hptr ▸ hne, hlive, hb.trans hptr.symm, hview ▸ hsize⟩
      case none =>
        intro hmem
        obtain ⟨hlive, hzero⟩ := (h.device l' hl').none hmem
        refine ⟨hlive, fun r₀ hr₀ => ?_⟩
        cases hr₀
        exact hptr.trans (hzero r hr)
    · rw [Metadata.replicas_setReplica_of_ne hl]
      exact h.device l' hl'

/-- The replica of a device gives its memory back. -/
theorem release (h : Backed address m live) (hl : l ≠ host) (hr : m.replicas l = some r) :
    Backed address ((m.unset l).setReplica l { r' with ptr := 0 }) (free live l r.ptr) := by
  have hhost : host ∈ (m.unset l).alloc ↔ host ∈ m.alloc :=
    Finset.mem_erase.trans (and_iff_right fun heq => hl heq.symm)
  have hother : ∀ l' ≠ l, ((m.unset l).setReplica l { r' with ptr := 0 }).replicas l' =
      m.replicas l' := fun l' hne => Metadata.replicas_setReplica_of_ne hne
  constructor
  case root =>
    rcases h.root with hmem | hempty
    · exact .inl (hhost.mpr hmem)
    · refine .inr ?_
      show m.alloc.erase l = ∅
      rw [hempty, Finset.erase_empty]
  case memory =>
    intro hmem
    rw [hother _ hl.symm]
    exact h.memory (hhost.mp hmem)
  case absent =>
    intro hmem
    rw [hother _ hl.symm]
    exact h.absent fun hin => hmem (hhost.mpr hin)
  case device =>
    intro l' hl'
    by_cases hll : l' = l
    · subst hll
      rw [Metadata.replicas_setReplica_self]
      refine ⟨fun hmem => absurd hmem (Finset.notMem_erase _ _), fun _ => ⟨?_, ?_⟩⟩
      · rw [free, Function.update_self]
        by_cases hmem : l' ∈ m.alloc
        · obtain ⟨r₀, b, hr₀, _, hlive, hb, _⟩ := (h.device l' hl').block hmem
          obtain rfl : r = r₀ := Option.some.inj (hr.symm.trans hr₀)
          rw [hlive]
          refine List.filter_eq_nil_iff.mpr fun x hx => ?_
          obtain rfl := List.mem_singleton.mp hx
          simpa using hb
        · rw [((h.device l' hl').none hmem).1]
          rfl
      · intro r₀ hr₀
        cases hr₀
        rfl
    · rw [hother l' hll, free, Function.update_of_ne hll]
      have hmem : (l' ∈ ((m.unset l).setReplica l { r' with ptr := 0 }).alloc) = (l' ∈ m.alloc) :=
        propext (Finset.mem_erase.trans (and_iff_right hll))
      rw [hmem]
      exact h.device l' hl'

/-- A replica of a known address gets a block that is large enough. -/
theorem allocate (h : Backed address m live) (hl : l ≠ host) (hmem : l ∉ m.alloc)
    (hhost : host ∈ m.alloc) (hr : m.replicas l = some r) {b : Block} (hb : b.ptr ≠ 0)
    (hsize : r.view.size ≤ b.size) :
    Backed address { m.setReplica l { r with ptr := b.ptr } with alloc := insert l m.alloc }
      (Function.update live l (b :: live l)) := by
  have hsub : host ∈ insert l m.alloc := Finset.mem_insert_of_mem hhost
  constructor
  case root => exact .inl hsub
  case memory =>
    intro _
    obtain ⟨r₀, hr₀, hptr⟩ := h.memory hhost
    exact ⟨r₀, (Metadata.replicas_setReplica_of_ne hl.symm).trans hr₀, hptr⟩
  case absent => exact fun hnot => absurd hsub hnot
  case device =>
    intro l' hl'
    by_cases hll : l' = l
    · subst hll
      refine ⟨fun _ => ⟨{ r with ptr := b.ptr }, b, Metadata.replicas_setReplica_self, hb, ?_, rfl,
        hsize⟩, fun hnot => absurd (Finset.mem_insert_self _ _) hnot⟩
      rw [Function.update_self, ((h.device l' hl').none hmem).1]
    · rw [Function.update_of_ne hll]
      have hsame : (l' ∈ insert l m.alloc) = (l' ∈ m.alloc) :=
        propext (Finset.mem_insert.trans (or_iff_right hll))
      show Owned ((m.setReplica l _).replicas l') (l' ∈ insert l m.alloc) (live l')
      rw [Metadata.replicas_setReplica_of_ne hll, hsame]
      exact h.device l' hl'

end Backed

/-! ## The look-up -/

/-- The metadata of an address that is not known. -/
def blank : Metadata n :=
  ⟨fun _ => none, ∅, ∅, ∅⟩

theorem backed_blank {live : Live n} (h : ∀ l, live l = []) : Backed address blank live where
  root := .inr rfl
  memory hmem := absurd hmem (Finset.notMem_empty _)
  absent _ _ hr := nomatch hr
  device l _ :=
    ⟨fun hmem => absurd hmem (Finset.notMem_empty _), fun _ => ⟨h l, fun _ hr => nomatch hr⟩⟩

/-- The metadata of the address, known or not. -/
def State.known (s : State n) : Metadata n :=
  s.mdi.getD blank

section Lookup

variable {m : Metadata n} {live : Live n} {l : Lid n} {view : View}

/-- A replica without memory is made new if it is unreserved and out of the cache. -/
theorem newReplica_of_fresh (hfresh : ∀ r ∈ m.replicas l, r.Fresh)
    (hzero : ∀ r, m.replicas l = some r → r.ptr = 0) :
    newReplica m live l view = some (m.setReplica l ⟨0, view.onNode l, 0, false⟩, live) := by
  unfold newReplica
  split
  case h_1 => rfl
  case h_2 r hr =>
    have hf := hfresh r hr
    rw [if_pos hf, if_pos (hzero r hr)]
    obtain ⟨hlinked, hpinned⟩ := hf
    rw [hlinked, hpinned, hzero r hr]

theorem newReplica_eq_none {r : Replica} (hr : m.replicas l = some r) (hfresh : ¬ r.Fresh) :
    newReplica m live l view = none := by
  unfold newReplica
  rw [hr]
  exact if_neg hfresh

/-- The metadata of an address whose host memory is the only replica. -/
def hosted (m : Metadata n) (address : Nat) (view : View) : Metadata n :=
  ⟨Function.update m.replicas host (some ⟨address, view, 1, false⟩), {host}, {host}, ∅⟩

@[simp] theorem replicas_hosted_self :
    (hosted m address view).replicas host = some ⟨address, view, 1, false⟩ := by
  simp [hosted]

theorem replicas_hosted_of_ne (hl : l ≠ host) :
    (hosted m address view).replicas l = m.replicas l := by
  simp [hosted, hl]

theorem newMdi_of_fresh (haddress : address ≠ 0) (hfresh : ∀ r ∈ m.replicas host, r.Fresh)
    (hzero : ∀ r, m.replicas host = some r → r.ptr = 0) :
    newMdi (some m) live address (some view) = some (hosted m address view, live) := by
  unfold newMdi
  rw [if_neg haddress, Option.getD_some, Option.bind_some,
    newReplica_of_fresh (m := { m with xfer := ∅ }) hfresh hzero, Option.bind_some]
  show Option.map _ ((Metadata.setReplica _ host _).replicas host) = _
  rw [Metadata.replicas_setReplica_self, Option.map_some]
  simp only [setHost, hosted, Metadata.setReplica, Function.update_idem, View.onNode, if_true]

theorem newMdi_eq_none (haddress : address ≠ 0) {r : Replica} (hr : m.replicas host = some r)
    (hfresh : ¬ r.Fresh) : newMdi (some m) live address (some view) = none := by
  unfold newMdi
  rw [if_neg haddress, Option.getD_some, Option.bind_some,
    newReplica_eq_none (m := { m with xfer := ∅ }) hr hfresh]
  rfl

/-- The look-up creates the metadata unless the host has a replica. -/
theorem findaccess_data (s : State n) :
    findaccess address s l .data (some view) =
      (if hostPtr s.known = 0 then newMdi (some s.known) s.live address (some view)
        else if hostPtr s.known = address then some (s.known, s.live) else none).bind
          fun (m, live) => returnValue m live l view := by
  unfold findaccess State.known
  cases s.mdi with
  | none => rfl
  | some m => rfl

end Lookup

namespace Backed

variable {m : Metadata n} {live : Live n} {l : Lid n} {view : View}

theorem hostPtr_eq (h : Backed address m live) (hhost : host ∈ m.alloc) :
    hostPtr m = address := by
  obtain ⟨r, hr, hptr⟩ := h.memory hhost
  unfold hostPtr
  rw [hr]
  exact hptr

theorem hostPtr_eq_zero (h : Backed address m live) (hhost : host ∉ m.alloc) :
    hostPtr m = 0 := by
  unfold hostPtr
  cases hr : m.replicas host with
  | none => rfl
  | some r => exact h.absent hhost r hr

/-- No block belongs to an address that the host has no replica of. -/
theorem hosted (h : Backed address m live) (hhost : host ∉ m.alloc) (view : View) :
    Backed address (hosted m address view) live := by
  have hempty : m.alloc = ∅ := h.root.resolve_left hhost
  constructor
  case root => exact .inl (Finset.mem_singleton_self _)
  case memory => exact fun _ => ⟨⟨address, view, 1, false⟩, replicas_hosted_self, rfl⟩
  case absent => exact fun hnot => absurd (Finset.mem_singleton_self _) hnot
  case device =>
    intro l hl
    have hnot : l ∉ m.alloc := by
      rw [hempty]
      exact Finset.notMem_empty l
    rw [replicas_hosted_of_ne hl]
    exact ⟨fun hmem => absurd (Finset.mem_singleton.mp hmem) hl,
      fun _ => (h.device l hl).none hnot⟩

/-- The replica of a device is made new. -/
theorem newReplica (h : Backed address m live) (hl : l ≠ host) (hmem : l ∉ m.alloc)
    (pinned : Int) : Backed address (m.setReplica l ⟨0, view, pinned, false⟩) live := by
  constructor
  case root => exact h.root
  case memory =>
    intro hhost
    rw [Metadata.replicas_setReplica_of_ne hl.symm]
    exact h.memory hhost
  case absent =>
    intro hhost
    rw [Metadata.replicas_setReplica_of_ne hl.symm]
    exact h.absent hhost
  case device =>
    intro l' hl'
    by_cases hll : l' = l
    · subst hll
      rw [Metadata.replicas_setReplica_self]
      refine ⟨fun hin => absurd hin hmem, fun _ => ⟨((h.device l' hl').none hmem).1, ?_⟩⟩
      intro r hr
      cases hr
      rfl
    · rw [Metadata.replicas_setReplica_of_ne hll]
      exact h.device l' hl'

/-- What the end of a look-up gives when the host has a replica. -/
theorem returnValue (h : Backed address m live) (hhost : host ∈ m.alloc) (view : View) :
    (l ∈ m.alloc → returnValue m live l view = some ⟨some m, live⟩) ∧
    (l ∉ m.alloc → (∀ r ∈ m.replicas l, r.Fresh) →
      FindAccess.returnValue m live l view =
        some ⟨some (m.setReplica l ⟨0, view.onNode l, 0, false⟩), live⟩ ∧
      Backed address (m.setReplica l ⟨0, view.onNode l, 0, false⟩) live) ∧
    (l ∉ m.alloc → ∀ r, m.replicas l = some r → ¬ r.Fresh →
      FindAccess.returnValue m live l view = none) := by
  refine ⟨fun hmem => if_pos hmem, fun hmem hfresh => ?_, fun hmem r hr hfresh => ?_⟩
  · have hl : l ≠ host := fun heq => hmem (heq ▸ hhost)
    have hzero := ((h.device l hl).none hmem).2
    unfold FindAccess.returnValue
    rw [if_neg hmem, newReplica_of_fresh hfresh hzero]
    exact ⟨rfl, h.newReplica hl hmem 0⟩
  · unfold FindAccess.returnValue
    rw [if_neg hmem, newReplica_eq_none hr hfresh]
    rfl

end Backed

/-- Every block of a device belongs to an allocated replica, and is as large as its view. -/
structure Accounted (m : Metadata n) (live : Live n) : Prop where
  block : ∀ l ≠ host, l ∈ m.alloc → ∃ r, m.replicas l = some r ∧
    ∃ b ∈ live l, b.ptr = r.ptr ∧ r.view.size ≤ b.size
  owner : ∀ l, ∀ b ∈ live l, l ∈ m.alloc ∧ ∃ r, m.replicas l = some r ∧ r.ptr = b.ptr

/-- The host replica points to the address, it and the replica of the node `l` have views of the
size of `view`, and no memory is lost or too small. -/
def Looked (address : Nat) (t : State n) (l : Lid n) (view : View) : Prop :=
  ∃ m, t.mdi = some m ∧
    (∃ r, m.replicas host = some r ∧ r.ptr = address ∧ r.view.size = view.size) ∧
    (∃ r, m.replicas l = some r ∧ r.view.size = view.size) ∧ Accounted m t.live

/-- A look-up with creation of the data on `l` returns, with the replicas it should leave. The host
is valid and allocated if its replica has been created. -/
def FindaccessSound (address : Nat) (s : State n) (l : Lid n) (view : View) : Prop :=
  ∃ t, findaccess address s l .data (some view) = some t ∧ Looked address t l view ∧
    (hostPtr s.known = 0 → ∀ m ∈ t.mdi, host ∈ m.valid ∧ host ∈ m.alloc)

/-- The replicas that stay have views of the size of `view`, and those that are made new are
unreserved and out of the caches. -/
def Accepts (s : State n) (l : Lid n) (view : View) : Prop :=
  let m := s.known
  if hostPtr m = 0 then
    (∀ r ∈ m.replicas host, r.Fresh) ∧ ∀ r ∈ m.replicas l, r.Fresh
  else
    (∀ r ∈ m.replicas host, r.view.size = view.size) ∧
      ∀ r ∈ m.replicas l, if l ∈ m.alloc then r.view.size = view.size else r.Fresh

namespace Backed

variable {m : Metadata n} {live : Live n} {l : Lid n} {view : View}

theorem accounted (h : Backed address m live) (hlive : live host = []) : Accounted m live := by
  constructor
  case block =>
    intro l hl hmem
    obtain ⟨r, b, hr, _, hblock, hptr, hsize⟩ := (h.device l hl).block hmem
    exact ⟨r, hr, b, hblock ▸ List.mem_singleton_self b, hptr, hsize⟩
  case owner =>
    intro l b hb
    have hl : l ≠ host := fun heq => by
      subst heq
      rw [hlive] at hb
      exact List.not_mem_nil hb
    by_cases hmem : l ∈ m.alloc
    · obtain ⟨r, b', hr, _, hblock, hptr, _⟩ := (h.device l hl).block hmem
      rw [hblock] at hb
      obtain rfl := List.mem_singleton.mp hb
      exact ⟨hmem, r, hr, hptr.symm⟩
    · rw [((h.device l hl).none hmem).1] at hb
      exact absurd hb List.not_mem_nil

/-- The end of a look-up keeps the bits. -/
theorem of_returnValue (h : Backed address m live) (hhost : host ∈ m.alloc) {t : State n}
    (hstep : FindAccess.returnValue m live l view = some t) :
    ∃ m', t = ⟨some m', live⟩ ∧ m'.alloc = m.alloc ∧ m'.valid = m.valid ∧
      Backed address m' live := by
  obtain ⟨halloc, hfresh, hnone⟩ := h.returnValue (l := l) hhost view
  by_cases hmem : l ∈ m.alloc
  · rw [halloc hmem] at hstep
    cases hstep
    exact ⟨m, rfl, rfl, rfl, h⟩
  · by_cases hf : ∀ r ∈ m.replicas l, r.Fresh
    · obtain ⟨heq, hbacked⟩ := hfresh hmem hf
      rw [heq] at hstep
      cases hstep
      exact ⟨_, rfl, rfl, rfl, hbacked⟩
    · obtain ⟨r, hr⟩ := not_forall.mp hf
      obtain ⟨hmem', hnot⟩ := Classical.not_imp.mp hr
      rw [hnone hmem r hmem' hnot] at hstep
      cases hstep

/-- When the end of a look-up leaves what it should. -/
theorem returnValue_looked (h : Backed address m live) (hhost : host ∈ m.alloc)
    (hlive : live host = []) (l : Lid n) (view : View) :
    (∃ t, FindAccess.returnValue m live l view = some t ∧ Looked address t l view) ↔
      (∀ r ∈ m.replicas host, r.view.size = view.size) ∧
        ∀ r ∈ m.replicas l, if l ∈ m.alloc then r.view.size = view.size else r.Fresh := by
  obtain ⟨halloc, hfresh, hnone⟩ := h.returnValue (l := l) hhost view
  obtain ⟨r₀, hr₀, hptr₀⟩ := h.memory hhost
  by_cases hmem : l ∈ m.alloc
  · -- the replica of `l` stays, and so does that of the host
    obtain ⟨rl, hrl⟩ : ∃ r, m.replicas l = some r := by
      by_cases hl : l = host
      · exact ⟨r₀, hl ▸ hr₀⟩
      · obtain ⟨r, b, hr, _⟩ := (h.device l hl).block hmem
        exact ⟨r, hr⟩
    rw [halloc hmem]
    constructor
    · rintro ⟨t, ht, m', hm', ⟨r, hr, _, hsize⟩, ⟨r', hr', hsize'⟩, _⟩
      cases ht
      cases hm'
      refine ⟨fun r₁ hr₁ => ?_, fun r₁ hr₁ => ?_⟩
      · obtain rfl : r₁ = r := Option.some.inj (hr₁.symm.trans hr)
        exact hsize
      · obtain rfl : r₁ = r' := Option.some.inj (hr₁.symm.trans hr')
        exact (if_pos hmem).symm ▸ hsize'
    · rintro ⟨hsize, hsize'⟩
      have hl' := hsize' rl hrl
      rw [if_pos hmem] at hl'
      exact ⟨_, rfl, m, rfl, ⟨r₀, hr₀, hptr₀, hsize r₀ hr₀⟩, ⟨rl, hrl, hl'⟩, h.accounted hlive⟩
  · have hl : l ≠ host := fun heq => hmem (heq ▸ hhost)
    simp only [if_neg hmem]
    constructor
    · rintro ⟨t, ht, m', hm', ⟨r, hr, _, hsize⟩, _, _⟩
      have hf : ∀ r ∈ m.replicas l, r.Fresh := by
        intro r' hr'
        by_contra hnot
        rw [hnone hmem r' hr' hnot] at ht
        cases ht
      rw [(hfresh hmem hf).1] at ht
      cases ht
      cases hm'
      rw [Metadata.replicas_setReplica_of_ne hl.symm] at hr
      refine ⟨fun r₁ hr₁ => ?_, hf⟩
      obtain rfl : r₁ = r := Option.some.inj (hr₁.symm.trans hr)
      exact hsize
    · rintro ⟨hsize, hf⟩
      obtain ⟨heq, hbacked⟩ := hfresh hmem hf
      refine ⟨_, heq, _, rfl, ⟨r₀, ?_, hptr₀, hsize r₀ hr₀⟩,
        ⟨_, Metadata.replicas_setReplica_self, View.size_onNode⟩, hbacked.accounted hlive⟩
      rw [Metadata.replicas_setReplica_of_ne hl.symm]
      exact hr₀

/-- The three ways of a look-up: the host has a replica, or a new one, or the assertion on the old
one fails. -/
theorem findaccess_eq {s : State n} (h : Backed address s.known s.live)
    (haddress : address ≠ 0) (view : View) :
    (host ∈ s.known.alloc → findaccess address s l .data (some view) =
      FindAccess.returnValue s.known s.live l view) ∧
    (host ∉ s.known.alloc → (∀ r ∈ s.known.replicas host, r.Fresh) →
      findaccess address s l .data (some view) =
        FindAccess.returnValue (FindAccess.hosted s.known address view) s.live l view) ∧
    (host ∉ s.known.alloc → ∀ r, s.known.replicas host = some r → ¬ r.Fresh →
      findaccess address s l .data (some view) = none) := by
  rw [findaccess_data]
  refine ⟨fun hhost => ?_, fun hhost hfresh => ?_, fun hhost r hr hfresh => ?_⟩
  · have hptr := h.hostPtr_eq hhost
    rw [if_neg (hptr.symm ▸ haddress), if_pos hptr]
    rfl
  · rw [if_pos (h.hostPtr_eq_zero hhost), newMdi_of_fresh haddress hfresh (h.absent hhost)]
    rfl
  · rw [if_pos (h.hostPtr_eq_zero hhost), newMdi_eq_none haddress hr hfresh]
    rfl

end Backed

/-! ## The runs -/

namespace Inv

variable {s t : State n} {l : Lid n}

theorem backed (h : Inv address s) : Backed address s.known s.live := by
  unfold State.known
  cases hm : s.mdi with
  | none => exact backed_blank (h.unknown hm)
  | some m => exact h.known m hm

theorem of_backed {m : Metadata n} {live : Live n} (h : Backed address m live)
    (hlive : live host = []) : Inv address ⟨some m, live⟩ where
  unknown hnone := nomatch hnone
  known _ hm := Option.some.inj hm ▸ h
  hostLive := hlive

/-- A look-up that returns keeps the invariant, whatever its view. -/
theorem findaccess {create : Create} {view : Option View} (haddress : address ≠ 0)
    (h : Inv address s) (hstep : findaccess address s l create view = some t) :
    Inv address t := by
  cases create with
  | noCreate =>
      cases hstep
      exact h
  | mdi =>
      cases hm : s.mdi with
      | none =>
          simp only [FindAccess.findaccess, hm] at hstep
          cases hstep
          exact of_backed (backed_blank (h.unknown hm)) h.hostLive
      | some m =>
          simp only [FindAccess.findaccess, hm] at hstep
          cases hstep
          exact h
  | data =>
      cases view with
      | none =>
          obtain ⟨_, _, hstep⟩ := Option.bind_eq_some_iff.mp hstep
          cases hstep
      | some view =>
          have hbacked := h.backed
          obtain ⟨hpresent, hnew, habort⟩ := hbacked.findaccess_eq (l := l) haddress view
          by_cases hhost : host ∈ s.known.alloc
          · rw [hpresent hhost] at hstep
            obtain ⟨m', rfl, _, _, hb⟩ := hbacked.of_returnValue hhost hstep
            exact of_backed hb h.hostLive
          · by_cases hf : ∀ r ∈ s.known.replicas host, r.Fresh
            · rw [hnew hhost hf] at hstep
              obtain ⟨m', rfl, _, _, hb⟩ := (hbacked.hosted hhost view).of_returnValue
                (Finset.mem_singleton_self _) hstep
              exact of_backed hb h.hostLive
            · obtain ⟨r, hr⟩ := not_forall.mp hf
              obtain ⟨hmem, hnot⟩ := Classical.not_imp.mp hr
              rw [habort hhost r hmem hnot] at hstep
              cases hstep

/-- The bits of the address change. -/
theorem setBits {valid xfer : Metadata n → Finset (Lid n)} (h : Inv address s)
    (hstep : s.setBits valid xfer = some t) : Inv address t := by
  obtain ⟨m, hm, rfl⟩ := Option.map_eq_some_iff.mp hstep
  exact of_backed ((h.known m hm).setBits _ _) h.hostLive

/-- A field of a replica changes. -/
theorem modify {f : Replica → Replica} (h : Inv address s) (hstep : s.modify l f = some t)
    (hptr : ∀ r, (f r).ptr = r.ptr) (hview : ∀ r, (f r).view = r.view) : Inv address t := by
  obtain ⟨m, hm, hstep⟩ := Option.bind_eq_some_iff.mp hstep
  obtain ⟨r, hr, rfl⟩ := Option.map_eq_some_iff.mp hstep
  exact of_backed ((h.known m hm).setReplica hr (hptr r) (hview r)) h.hostLive

/-- A device gives its block back. -/
theorem release {m : Metadata n} {r r' : Replica} (hm : Backed address m s.live)
    (hlive : s.live host = []) (hl : l ≠ host) (hr : m.replicas l = some r) :
    Inv address (s.release m l r r') := by
  refine of_backed (hm.release hl hr) ?_
  rw [free, Function.update_of_ne hl.symm]
  exact hlive

theorem invalidateBloc {linked : Replica → Bool} (h : Inv address s)
    (hstep : s.invalidateBloc l linked = some t) : Inv address t := by
  obtain ⟨m, hm, hstep⟩ := Option.bind_eq_some_iff.mp hstep
  obtain ⟨r, hr, hstep⟩ := Option.bind_eq_some_iff.mp hstep
  split_ifs at hstep with hl hhost
  · cases hstep
    exact h
  · cases hstep
    exact release ((h.known m hm).setBits {host} m.xfer) h.hostLive hl hr

/-- After the invalidation of the address no block belongs to it. -/
theorem invalidateData {m : Metadata n} (h : Inv address s) (hm : s.mdi = some m) :
    Inv address (s.invalidateData m) := by
  have hbacked := h.known m hm
  refine of_backed ⟨.inr rfl, fun hmem => absurd hmem (Finset.notMem_empty _), ?_, ?_⟩ ?_
  · intro _ r hr
    by_cases hhost : host ∈ m.alloc
    · simp only [if_pos hhost] at hr
      obtain ⟨r₀, _, rfl⟩ := Option.map_eq_some_iff.mp hr
      rfl
    · simp only [if_neg hhost] at hr
      exact hbacked.absent hhost r hr
  · intro l hl
    refine ⟨fun hmem => absurd hmem (Finset.notMem_empty _), fun _ => ?_⟩
    by_cases hmem : l ∈ m.alloc
    · obtain ⟨r₀, b, hr₀, _, hlive, hptr, _⟩ := (hbacked.device l hl).block hmem
      simp only [if_pos hmem, if_pos (And.intro hmem hl), hr₀, hlive]
      constructor
      · refine List.filter_eq_nil_iff.mpr fun x hx => ?_
        obtain rfl := List.mem_singleton.mp hx
        simpa using hptr
      · intro r hr
        cases hr
        rfl
    · simp only [if_neg hmem, if_neg fun hand : l ∈ m.alloc ∧ l ≠ host => hmem hand.1]
      exact (hbacked.device l hl).none hmem
  · rw [if_neg fun hand : host ∈ m.alloc ∧ host ≠ host => hand.2 rfl]
    exact h.hostLive

end Inv

/-- A device only gets memory for an address that the host has a replica of. -/
def KnownAllocation (s : State n) (a : Action n) : Prop :=
  match a with
  | .allocate _ _ => ∀ m ∈ s.mdi, host ∈ m.alloc
  | _ => True

instance (s : State n) (a : Action n) : Decidable (KnownAllocation s a) :=
  match a with
  | .allocate _ _ => inferInstanceAs (Decidable (∀ m ∈ s.mdi, host ∈ m.alloc))
  | .findaccess .. | .fetch .. | .complete .. | .mark .. | .touch .. | .pin .. | .unpin ..
  | .evict .. | .invalidateData | .invalidateBloc .. | .invalidateEntry .. =>
      inferInstanceAs (Decidable True)

/-- One step that meets the condition keeps the invariant. -/
theorem inv_step {s t : State n} {a : Action n} (haddress : address ≠ 0) (h : Inv address s)
    (hok : KnownAllocation s a) (hstep : step address s a = some t) : Inv address t := by
  cases a with
  | findaccess l create view => exact h.findaccess haddress hstep
  | allocate l block =>
      obtain ⟨m, hm, hstep⟩ := Option.bind_eq_some_iff.mp hstep
      obtain ⟨r, hr, hstep⟩ := Option.bind_eq_some_iff.mp hstep
      split_ifs at hstep with hguard
      cases hstep
      obtain ⟨hl, hmem, hptr, hsize, _⟩ := hguard
      refine .of_backed ((h.known m hm).allocate hl hmem (hok m hm) hr hptr hsize) ?_
      rw [Function.update_of_ne hl.symm]
      exact h.hostLive
  | fetch l => exact h.setBits hstep
  | complete l => exact h.setBits hstep
  | mark l => exact h.setBits hstep
  | touch l =>
      simp only [step] at hstep
      split_ifs at hstep with hl
      · cases hstep
        exact h
      · exact h.modify hstep (fun _ => rfl) fun _ => rfl
  | pin l => exact h.modify hstep (fun _ => rfl) fun _ => rfl
  | unpin l => exact h.modify hstep (fun _ => rfl) fun _ => rfl
  | evict l =>
      obtain ⟨m, hm, hstep⟩ := Option.bind_eq_some_iff.mp hstep
      obtain ⟨r, hr, hstep⟩ := Option.bind_eq_some_iff.mp hstep
      split_ifs at hstep with hguard
      cases hstep
      exact Inv.release (h.known m hm) h.hostLive hguard.1 hr
  | invalidateData =>
      obtain ⟨m, hm, rfl⟩ := Option.map_eq_some_iff.mp hstep
      exact h.invalidateData hm
  | invalidateBloc l => exact h.invalidateBloc hstep
  | invalidateEntry l => exact h.invalidateBloc hstep

theorem inv_of_reachableWhen {s : State n} (haddress : address ≠ 0)
    (hs : (system n address).ReachableWhen KnownAllocation s) : Inv address s := by
  refine hs.invariant (fun s hinit => ?_) fun _ _ _ h hok hstep => inv_step haddress h hok hstep
  refine ⟨fun _ => hinit.live, fun m hm => ?_, hinit.live host⟩
  rw [hinit.mdi] at hm
  cases hm

/-- In a run in which devices only get memory for an address that the host has a replica of, a
look-up with creation of the data leaves what it should exactly when the replicas that stay have
views of the size of its view, and those that it makes new are unreserved and out of the caches. -/
theorem findaccess_sound_iff {s : State n} (haddress : address ≠ 0)
    (hs : (system n address).ReachableWhen KnownAllocation s) (l : Lid n) (view : View) :
    FindaccessSound address s l view ↔ Accepts s l view := by
  have h := inv_of_reachableWhen haddress hs
  have hbacked := h.backed
  obtain ⟨hpresent, hnew, habort⟩ := hbacked.findaccess_eq (l := l) haddress view
  unfold FindaccessSound Accepts
  by_cases hhost : host ∈ s.known.alloc
  · have hptr : hostPtr s.known ≠ 0 := (hbacked.hostPtr_eq hhost).symm ▸ haddress
    rw [hpresent hhost, if_neg hptr, ← hbacked.returnValue_looked hhost h.hostLive]
    refine exists_congr fun t => and_congr_right fun _ => ?_
    exact and_iff_left fun hzero => absurd hzero hptr
  · rw [if_pos (hbacked.hostPtr_eq_zero hhost)]
    have hhosted := hbacked.hosted hhost view
    have hmem : host ∈ (hosted s.known address view).alloc := Finset.mem_singleton_self _
    by_cases hf : ∀ r ∈ s.known.replicas host, r.Fresh
    · rw [hnew hhost hf]
      have hlooked := hhosted.returnValue_looked hmem h.hostLive l view
      constructor
      · rintro ⟨t, ht, hlook, _⟩
        obtain ⟨_, hcond⟩ := hlooked.mp ⟨t, ht, hlook⟩
        refine ⟨hf, fun r hr => ?_⟩
        by_cases hl : l = host
        · exact hf r (hl ▸ hr)
        · have hnot : l ∉ (hosted s.known address view).alloc :=
            fun hin => hl (Finset.mem_singleton.mp hin)
          have hr' := hcond r (by rwa [replicas_hosted_of_ne hl])
          rwa [if_neg hnot] at hr'
      · rintro ⟨_, hfl⟩
        have hcond : (∀ r ∈ (hosted s.known address view).replicas host,
            r.view.size = view.size) ∧ ∀ r ∈ (hosted s.known address view).replicas l,
              if l ∈ (hosted s.known address view).alloc then r.view.size = view.size
              else r.Fresh := by
          refine ⟨fun r hr => ?_, fun r hr => ?_⟩
          · rw [replicas_hosted_self] at hr
            cases hr
            rfl
          · by_cases hl : l = host
            · subst hl
              rw [replicas_hosted_self] at hr
              cases hr
              rw [if_pos hmem]
            · rw [replicas_hosted_of_ne hl] at hr
              have hnot : l ∉ (hosted s.known address view).alloc :=
                fun hin => hl (Finset.mem_singleton.mp hin)
              rw [if_neg hnot]
              exact hfl r hr
        obtain ⟨t, ht, hlook⟩ := hlooked.mpr hcond
        refine ⟨t, ht, hlook, fun _ m hm => ?_⟩
        obtain ⟨m', rfl, halloc, hvalid, _⟩ := hhosted.of_returnValue hmem ht
        cases hm
        rw [halloc, hvalid]
        exact ⟨Finset.mem_singleton_self _, hmem⟩
    · refine iff_of_false ?_ fun hcond => hf hcond.1
      rintro ⟨t, ht, _⟩
      obtain ⟨r, hr⟩ := not_forall.mp hf
      obtain ⟨hmem', hnot⟩ := Classical.not_imp.mp hr
      rw [habort hhost r hmem' hnot] at ht
      cases ht

/-- A tile of 8 rows and 8 columns of doubles. -/
def tileView : View :=
  ⟨0, 8, 8, 8, 8, .view2D, .colMajor⟩

/-- A tile of 4 rows and 4 columns at the same address. -/
def smallView : View :=
  ⟨0, 4, 4, 8, 8, .view2D, .colMajor⟩

def unknownState : State 1 :=
  ⟨none, fun _ => []⟩

theorem initial_unknownState : Initial unknownState :=
  ⟨rfl, fun _ => rfl⟩

/-- The device gets memory for a tile, and the data is invalidated. -/
def invalidatedRun : List (Action 1) :=
  [.findaccess 1 .data (some tileView), .allocate 1 ⟨32, 512⟩, .fetch 1, .complete 1, .touch 1,
    .invalidateData]

theorem findaccess_sound_invalidatedRun :
    ∃ s, (system 1 16).replay KnownAllocation unknownState invalidatedRun = some s ∧
      FindaccessSound 16 s 1 smallView := by
  let s := ((system 1 16).replay KnownAllocation unknownState invalidatedRun).get (by decide)
  have hrun : (system 1 16).replay KnownAllocation unknownState invalidatedRun = some s :=
    (Option.some_get _).symm
  refine ⟨s, hrun, ?_⟩
  refine (findaccess_sound_iff (by decide) (.replay (.start initial_unknownState) hrun) 1
    smallView).mpr ?_
  unfold Accepts
  decide

/-- A look-up with another view leaves the replicas that it finds with their old views. -/
theorem not_findaccess_sound :
    ¬ ∀ s : State 1, (system 1 16).Reachable s → ∀ l view, FindaccessSound 16 s l view := by
  intro hall
  let s := ((system 1 16).run unknownState [.findaccess 1 .data (some tileView)]).get (by decide)
  have hrun : (system 1 16).run unknownState [.findaccess 1 .data (some tileView)] = some s :=
    (Option.some_get _).symm
  obtain ⟨t, ht, ⟨m, hm, ⟨r, hr, _, hsize⟩, _⟩, _⟩ :=
    hall s (.replay (.start initial_unknownState) hrun) 1 smallView
  have hold : (t.mdi.bind fun m => m.replicas host).map (fun r => r.view.size) = some 512 := by
    obtain rfl : (findaccess 16 s 1 .data (some smallView)).get (by decide) = t :=
      Option.get_of_eq_some _ ht
    decide
  rw [hm, Option.bind_some, hr, Option.map_some, hsize] at hold
  exact absurd hold (by decide)

end Xkblas.Memory.FindAccess
