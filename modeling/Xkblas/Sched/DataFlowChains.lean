import Mathlib.Algebra.Order.Ring.Nat
import Xkblas.Library.LinkedPath
import Xkblas.Library.ListUpdate
import Xkblas.Sched.DataFlow

/-!
# The chains of the handles

The accesses to the tile of a handle form groups: `group h k` hangs from the synchronisation point
`point h k`, and its accesses signal `point h (k + 1)`. This module says what the pointers of a
handle and its accesses are, and that `kaapi_update_dependencies` appends an access either to the
last group or as a group of its own.
-/

namespace Xkblas.Sched.DataFlow

open Library

variable {η V : Type}

/-! ## Modes -/

/-- The modes that `kaapi_update_dependencies` is called with: neither void, nor that of a value,
nor postponed. -/
def Orders (m : Mode) : Prop :=
  m ≠ modeVoid ∧ m &&& modeV = 0 ∧ m &&& modeP = 0

/-- Two accesses to a tile that must be ordered: not both read, and not both are cumulative
writes. -/
def Conflict (a b : Mode) : Prop :=
  ¬ (a = modeR ∧ b = modeR) ∧ ¬ (a = modeCW ∧ b = modeCW)

instance (m : Mode) : Decidable (Orders m) :=
  inferInstanceAs (Decidable (_ ∧ _))

instance (a b : Mode) : Decidable (Conflict a b) :=
  inferInstanceAs (Decidable (_ ∧ _))

theorem Conflict.symm {a b : Mode} (h : Conflict a b) : Conflict b a :=
  ⟨fun hr => h.1 hr.symm, fun hc => h.2 hc.symm⟩

theorem isConcurrent_accessSync (m : Mode) : IsConcurrent m accessSync := by
  refine .inr ?_
  revert m
  decide

/-- Without the bit of the postponed modes, the concurrent accesses are those without conflict. -/
theorem isConcurrent_iff {a b : Mode} (ha : Orders a) (hb : Orders b) :
    IsConcurrent a b ↔ ¬ Conflict a b := by
  have hp : (a ||| b) &&& modeP = 0 := by
    rw [BitVec.and_comm, BitVec.and_or_distrib_left, BitVec.and_comm, ha.2.2, BitVec.and_comm,
      hb.2.2]
    decide
  unfold IsConcurrent Conflict
  constructor
  · rintro (⟨rfl, rfl | rfl⟩ | hpost) hconflict
    · exact hconflict.1 ⟨rfl, rfl⟩
    · exact hconflict.2 ⟨rfl, rfl⟩
    · exact hpost hp
  · intro hconflict
    by_cases hr : a = modeR ∧ b = modeR
    · exact .inl ⟨hr.1.trans hr.2.symm, .inl hr.2⟩
    · have hc : a = modeCW ∧ b = modeCW := by
        by_contra hc
        exact hconflict ⟨hr, hc⟩
      exact .inl ⟨hc.1.trans hc.2.symm, .inr hc.2⟩

/-! ## The graph -/

/-- The synchronisation points of the handles, the accesses that hang from each, and the number of
groups of a handle. -/
structure Graph (η : Type) where
  point : η → ℕ → Ref η
  group : η → ℕ → List (Ref η)
  top : η → ℕ

/-- The parameter `i` of the task `t` is an access to the tile of `h`. -/
def IsParam (s : State η V) (t i : ℕ) (m : Mode) (h : η) : Prop :=
  ∃ task, s.tasks[t]? = some task ∧ task.params[i]? = some (.access m h)

/-- An access of a task to the tile of `h` that signals `p`. -/
structure Entry (s : State η V) (h : η) (m : Mode) (p a : Ref η) : Prop where
  param : ∃ t i, a = .access t i ∧ IsParam s t i m h ∧ s.task a = some t
  mode : s.mode a = m
  sync : s.sync a = some p

/-- The pointers of a handle and of its accesses. Two accesses of a group are not in conflict, those
of consecutive groups are, and the tasks of a group were submitted before those of the next ones. -/
structure Chain (g : Graph η) (s : State η V) (h : η) : Prop where
  zero : g.point h 0 = .sync0 h
  succ : ∀ k < g.top h, ∃ n < s.brk, g.point h (k + 1) = .sync n
  inj : ∀ j ≤ g.top h, ∀ k ≤ g.top h, g.point h j = g.point h k → j = k
  mode : ∀ k ≤ g.top h, s.mode (g.point h k) = accessSync
  nonempty : ∀ k < g.top h, g.group h k ≠ []
  path : ∀ k < g.top h, IsPath s.next (s.next (g.point h k)) (g.group h k) none
  last_next : s.next (g.point h (g.top h)) = none
  alike : ∀ k < g.top h, ∃ m, (m = modeR ∨ m = modeCW ∨ (g.group h k).length = 1) ∧
    ∀ a ∈ g.group h k, Entry s h m (g.point h (k + 1)) a
  ordered : ∀ j k, j < k → k < g.top h → ∀ t i t' i', .access t i ∈ g.group h j →
    .access t' i' ∈ g.group h k → t < t'
  adjacent : ∀ k, k + 1 < g.top h → ∀ a ∈ g.group h k, ∀ b ∈ g.group h (k + 1),
    Conflict (s.mode a) (s.mode b)
  hsync : s.hsync h = if g.top h = 0 then none else some (g.point h (g.top h))
  last : s.last h = if g.top h = 0 then some (.sync0 h) else (g.group h (g.top h - 1)).getLast?

/-- The handles that `xkblas_list_sync0` may hold have chains, and share no synchronisation
point. -/
structure Linked (g : Graph η) (s : State η V) : Prop where
  chain : ∀ h, s.live h = true → Chain g s h
  apart : ∀ h h', s.live h = true → s.live h' = true → h ≠ h' → ∀ k ≤ g.top h,
    ∀ k' ≤ g.top h', g.point h k ≠ g.point h' k'

variable {g g' : Graph η} {s s' : State η V} {h x : η} {k t i : ℕ} {m : Mode} {a p : Ref η}

theorem IsParam.unique {m' : Mode} {h' : η} (hp : IsParam s t i m h) (hp' : IsParam s t i m' h') :
    m = m' ∧ h = h' := by
  obtain ⟨task, htask, hparam⟩ := hp
  obtain ⟨task', htask', hparam'⟩ := hp'
  obtain rfl := Option.some.inj (htask.symm.trans htask')
  have heq := Option.some.inj (hparam.symm.trans hparam')
  injection heq with hm hh
  exact ⟨hm, hh⟩

/-- The tasks of a state are those of another one, and more. -/
def Extends (s s' : State η V) : Prop :=
  ∀ (t : ℕ) task, s.tasks[t]? = some task → s'.tasks[t]? = some task

theorem IsParam.mono (htasks : Extends s s') (hp : IsParam s t i m h) : IsParam s' t i m h := by
  obtain ⟨task, htask, hparam⟩ := hp
  exact ⟨task, htasks t task htask, hparam⟩

theorem Entry.not_sync (he : Entry s h m p a) (n : ℕ) : a ≠ .sync n := by
  obtain ⟨t, i, rfl, _⟩ := he.param
  simp

theorem Entry.not_sync0 (he : Entry s h m p a) (x : η) : a ≠ .sync0 x := by
  obtain ⟨t, i, rfl, _⟩ := he.param
  simp

namespace Chain

/-- A synchronisation point is no access. -/
theorem point_cases (hc : Chain g s h) (hk : k ≤ g.top h) :
    g.point h k = .sync0 h ∨ ∃ n < s.brk, g.point h k = .sync n := by
  cases k with
  | zero => exact .inl hc.zero
  | succ k => exact .inr (hc.succ k hk)

theorem point_ne_access (hc : Chain g s h) (hk : k ≤ g.top h) (t i : ℕ) :
    g.point h k ≠ .access t i := by
  rcases hc.point_cases hk with heq | ⟨n, _, heq⟩ <;>
  · rw [heq]
    simp

theorem point_ne_brk (hc : Chain g s h) (hk : k ≤ g.top h) : g.point h k ≠ .sync s.brk := by
  rcases hc.point_cases hk with heq | ⟨n, hn, heq⟩
  · rw [heq]
    simp
  · rw [heq]
    rintro ⟨⟩
    exact Nat.lt_irrefl _ hn

theorem entry (hc : Chain g s h) (hk : k < g.top h) (ha : a ∈ g.group h k) :
    ∃ m, Entry s h m (g.point h (k + 1)) a := by
  obtain ⟨m, _, hall⟩ := hc.alike k hk
  exact ⟨m, hall a ha⟩

/-- An access is in one group. -/
theorem group_unique (hc : Chain g s h) {j : ℕ} (hj : j < g.top h) (hk : k < g.top h)
    (ha : a ∈ g.group h j) (ha' : a ∈ g.group h k) : j = k := by
  obtain ⟨m, he⟩ := hc.entry hj ha
  obtain ⟨m', he'⟩ := hc.entry hk ha'
  have heq := Option.some.inj (he.sync.symm.trans he'.sync)
  exact Nat.succ.inj (hc.inj _ hj _ hk heq)

/-- A chain only depends on the fields of its points and accesses. -/
theorem frame (hc : Chain g s h) (hpoint : g'.point h = g.point h) (hgroup : g'.group h = g.group h)
    (htop : g'.top h = g.top h)
    (htasks : Extends s s') (hbrk : s.brk ≤ s'.brk)
    (hpoints : ∀ k ≤ g.top h, s'.next (g.point h k) = s.next (g.point h k) ∧
      s'.mode (g.point h k) = s.mode (g.point h k))
    (haccess : ∀ k < g.top h, ∀ a ∈ g.group h k, s'.next a = s.next a ∧ s'.mode a = s.mode a ∧
      s'.sync a = s.sync a ∧ s'.task a = s.task a)
    (hhsync : s'.hsync h = s.hsync h) (hlast : s'.last h = s.last h) : Chain g' s' h := by
  constructor
  case zero => rw [hpoint]; exact hc.zero
  case succ =>
    intro k hk
    rw [htop] at hk
    obtain ⟨n, hn, heq⟩ := hc.succ k hk
    exact ⟨n, hn.trans_le hbrk, by rw [hpoint, heq]⟩
  case inj => rw [htop, hpoint]; exact hc.inj
  case mode =>
    intro k hk
    rw [htop] at hk
    rw [hpoint, (hpoints k hk).2]
    exact hc.mode k hk
  case nonempty => rw [htop, hgroup]; exact hc.nonempty
  case path =>
    intro k hk
    rw [htop] at hk
    rw [hpoint, hgroup, (hpoints k hk.le).1]
    exact (hc.path k hk).congr fun a ha => (haccess k hk a ha).1
  case last_next => rw [hpoint, htop, (hpoints _ le_rfl).1]; exact hc.last_next
  case alike =>
    intro k hk
    rw [htop] at hk
    obtain ⟨m, hm, hall⟩ := hc.alike k hk
    rw [hgroup, hpoint]
    refine ⟨m, hm, fun a ha => ?_⟩
    obtain ⟨_, hmode, hsync, htask⟩ := haccess k hk a ha
    obtain ⟨⟨t, i, hti, hparam, hat⟩, ham, has⟩ := hall a ha
    exact ⟨⟨t, i, hti, hparam.mono htasks, htask.trans hat⟩, hmode.trans ham, hsync.trans has⟩
  case ordered => rw [htop, hgroup]; exact hc.ordered
  case adjacent =>
    intro k hk a ha b hb
    rw [htop] at hk
    rw [hgroup] at ha hb
    rw [(haccess k (Nat.lt_of_succ_lt hk) a ha).2.1, (haccess (k + 1) hk b hb).2.1]
    exact hc.adjacent k hk a ha b hb
  case hsync => rw [hhsync, htop, hpoint]; exact hc.hsync
  case last => rw [hlast, htop, hgroup]; exact hc.last

end Chain

/-- The groups of two handles have no access in common. -/
theorem Linked.group_apart (hl : Linked g s) {h' : η} {k' : ℕ} {b : Ref η}
    (hlive : s.live h = true) (hlive' : s.live h' = true) (hk : k < g.top h) (hk' : k' < g.top h')
    (hb : b ∈ g.group h k) (hb' : b ∈ g.group h' k') : h = h' := by
  obtain ⟨m, ⟨t, i, rfl, hparam, _⟩, _⟩ := (hl.chain h hlive).entry hk hb
  obtain ⟨m', ⟨t', i', heq, hparam', _⟩, _⟩ := (hl.chain h' hlive').entry hk' hb'
  cases heq
  exact (hparam.unique hparam').2

/-! ## An access that is linked -/

section Link

variable [DecidableEq η]

/-- The state after the access `i` of the task `t` has been linked behind `l`, to signal `p`. -/
def State.linked (s : State η V) (t i : ℕ) (m : Mode) (x : η) (l p : Ref η) : State η V :=
  { s with
    mode := Function.update s.mode (.access t i) m
    next := Function.update (Function.update s.next (.access t i) none) l (some (.access t i))
    sync := Function.update s.sync (.access t i) (some p)
    task := Function.update s.task (.access t i) (some t)
    ready := Function.update s.ready (.access t i) false
    wc := Function.update s.wc p (s.wc p + 1)
    last := Function.update s.last x (some (.access t i))
    taskWc := Function.update s.taskWc t (s.taskWc t + 1) }

/-- The last access of the handle is concurrent: the new one joins its group. -/
theorem updateDependencies_of_concurrent {l : Ref η} (hlast : s.last x = some l)
    (hsync : s.hsync x = some p) (hl : l ≠ .access t i) (hconc : IsConcurrent m (s.mode l)) :
    s.updateDependencies t i m x = s.linked t i m x l p := by
  have hswap : ¬ (s.declare t i m).Swaps m x := by
    rintro ⟨l', hl', _, hnot⟩
    cases hlast.symm.trans hl'
    refine hnot ?_
    show IsConcurrent m (Function.update s.mode (.access t i) m l)
    rw [Function.update_of_ne hl]
    exact hconc
  have hsome : ¬ (s.declare t i m).hsync x = none := by
    show ¬ s.hsync x = none
    simp [hsync]
  unfold State.updateDependencies
  dsimp only
  rw [if_neg hswap, if_neg hsome]
  unfold State.linkAccess State.linked State.declare
  simp only [hlast, hsync]

/-- A new synchronisation point is allocated: the new access is a group of its own, which hangs
from `p`. -/
theorem updateDependencies_of_new
    (hnew : (s.last x = some p ∧ s.hsync x = none ∧ s.mode p = accessSync) ∨
      ∃ l, s.last x = some l ∧ s.hsync x = some p ∧ s.mode l ≠ modeVoid ∧
        ¬ IsConcurrent m (s.mode l) ∧ l ≠ .access t i)
    (hp : p ≠ .access t i) :
    s.updateDependencies t i m x = (s.newSync x).linked t i m x p (.sync s.brk) := by
  have hne : (Ref.sync s.brk : Ref η) ≠ .access t i := by simp
  rcases hnew with ⟨hlast, hsync, hmode⟩ | ⟨l, hlast, hsync, hvoid, hnot, hl⟩
  · have hswap : ¬ (s.declare t i m).Swaps m x := by
      rintro ⟨l', hl', _, hnot⟩
      cases hlast.symm.trans hl'
      refine hnot ?_
      show IsConcurrent m (Function.update s.mode (.access t i) m p)
      rw [Function.update_of_ne hp, hmode]
      exact isConcurrent_accessSync m
    have hnone : (s.declare t i m).hsync x = none := hsync
    unfold State.updateDependencies
    dsimp only
    rw [if_neg hswap, if_pos hnone]
    unfold State.linkAccess State.linked State.newSync State.declare
    simp only [hlast, Function.update_self, Function.update_comm hne]
  · have hswap : (s.declare t i m).Swaps m x := by
      refine ⟨l, hlast, ?_, ?_⟩
      · show Function.update s.mode (.access t i) m l ≠ modeVoid
        rw [Function.update_of_ne hl]
        exact hvoid
      · show ¬ IsConcurrent m (Function.update s.mode (.access t i) m l)
        rw [Function.update_of_ne hl]
        exact hnot
    have hnone : ((s.declare t i m).swap x).hsync x = none := Function.update_self _ _ _
    unfold State.updateDependencies
    dsimp only
    rw [if_pos hswap, if_pos hnone]
    unfold State.linkAccess State.linked State.newSync State.swap State.declare
    simp only [hsync, Function.update_self, Function.update_comm hne, Function.update_idem]

/-- The access joins the last group of the handle. -/
def Graph.extend (g : Graph η) (x : η) (a : Ref η) : Graph η :=
  { g with
    group := Function.update g.group x
      (Function.update (g.group x) (g.top x - 1) (g.group x (g.top x - 1) ++ [a])) }

/-- The access is a new group of the handle, before a new synchronisation point. -/
def Graph.append (g : Graph η) (x : η) (a q : Ref η) : Graph η where
  point := Function.update g.point x (Function.update (g.point x) (g.top x + 1) q)
  group := Function.update g.group x (Function.update (g.group x) (g.top x) [a])
  top := Function.update g.top x (g.top x + 1)

/-- The access is in no group. -/
def Fresh (g : Graph η) (s : State η V) (a : Ref η) : Prop :=
  ∀ h, s.live h = true → ∀ k < g.top h, a ∉ g.group h k

theorem linked_next_of_ne {l b : Ref η} (hb : b ≠ .access t i) (hl : b ≠ l) :
    (s.linked t i m x l p).next b = s.next b := by
  unfold State.linked
  dsimp only
  rw [Function.update_of_ne hl, Function.update_of_ne hb]

theorem linked_of_ne {l b : Ref η} (hb : b ≠ .access t i) :
    (s.linked t i m x l p).mode b = s.mode b ∧ (s.linked t i m x l p).sync b = s.sync b ∧
      (s.linked t i m x l p).task b = s.task b :=
  ⟨Function.update_of_ne hb _ _, Function.update_of_ne hb _ _, Function.update_of_ne hb _ _⟩

/-- The access that has been linked. -/
theorem entry_linked {l : Ref η} (hparam : IsParam s t i m x) :
    Entry (s.linked t i m x l p) x m p (.access t i) :=
  ⟨⟨t, i, rfl, hparam, Function.update_self _ _ _⟩, Function.update_self _ _ _,
    Function.update_self _ _ _⟩

theorem Entry.linked {l b q : Ref η} {m' : Mode} {h : η} (he : Entry s h m' q b)
    (hb : b ≠ .access t i) : Entry (s.linked t i m x l p) h m' q b := by
  obtain ⟨⟨t', i', hti, hparam, htask⟩, hmode, hsync⟩ := he
  obtain ⟨heqm, heqs, heqt⟩ := linked_of_ne (s := s) (m := m) (x := x) (p := p) (l := l) hb
  exact ⟨⟨t', i', hti, hparam, heqt.trans htask⟩, heqm.trans hmode, heqs.trans hsync⟩

/-- The chains of the other handles are as before. -/
theorem Linked.chain_linked (hlinked : Linked g s) (hfresh : Fresh g s (.access t i)) {l : Ref η}
    (hne : h ≠ x) (hlive : s.live h = true) (hpoint : g'.point h = g.point h)
    (hgroup : g'.group h = g.group h) (htop : g'.top h = g.top h)
    (hl : ∀ k, (k ≤ g.top h → l ≠ g.point h k) ∧ (k < g.top h → l ∉ g.group h k)) :
    Chain g' (s.linked t i m x l p) h := by
  have hc := hlinked.chain h hlive
  refine hc.frame hpoint hgroup htop (fun _ _ htask => htask) le_rfl (fun k hk => ?_)
    (fun k hk a ha => ?_) rfl (Function.update_of_ne hne _ _)
  · have hpa := hc.point_ne_access hk t i
    exact ⟨linked_next_of_ne hpa ((hl k).1 hk).symm, (linked_of_ne hpa).1⟩
  · have hne : a ≠ .access t i := ne_of_mem_of_not_mem ha (hfresh h hlive k hk)
    exact ⟨linked_next_of_ne hne (ne_of_mem_of_not_mem ha ((hl k).2 hk)), linked_of_ne hne⟩

/-- The access joins the last group. -/
theorem Linked.extend (hlinked : Linked g s) (hlive : s.live x = true) {k : ℕ}
    (htop : g.top x = k + 1) {l : Ref η} (hlast : (g.group x k).getLast? = some l)
    (hfresh : Fresh g s (.access t i)) (hparam : IsParam s t i m x)
    (hmodes : (m = modeR ∨ m = modeCW) ∧ ∀ b ∈ g.group x k, s.mode b = m)
    (hearlier : ∀ j < k, ∀ t' i', .access t' i' ∈ g.group x j → t' < t) :
    Linked (g.extend x (.access t i)) (s.linked t i m x l (g.point x (k + 1))) := by
  have hc := hlinked.chain x hlive
  have hlk : l ∈ g.group x k := List.mem_of_getLast? hlast
  have hk : k < g.top x := htop ▸ Nat.lt_succ_self k
  obtain ⟨ml, hel⟩ := hc.entry hk hlk
  have hgroup : (g.extend x (.access t i)).group x =
      Function.update (g.group x) k (g.group x k ++ [.access t i]) := by
    unfold Graph.extend
    rw [htop]
    exact Function.update_self _ _ _
  have hnew : (g.extend x (.access t i)).group x k = g.group x k ++ [.access t i] := by
    rw [hgroup, Function.update_self]
  have hold : ∀ j, j ≠ k → (g.extend x (.access t i)).group x j = g.group x j := by
    intro j hj
    rw [hgroup, Function.update_of_ne hj]
  have hother : ∀ h, h ≠ x → (g.extend x (.access t i)).group h = g.group h := fun h hne =>
    Function.update_of_ne hne _ _
  have hpoint : ∀ h j, s.live h = true → j ≤ g.top h → l ≠ g.point h j := by
    intro h j hlive' hj heq
    obtain ⟨t', i', hti, _⟩ := hel.param
    exact (hlinked.chain h hlive').point_ne_access hj t' i' (heq.symm.trans hti)
  have hpa : ∀ j ≤ g.top x, g.point x j ≠ .access t i := fun j hj => hc.point_ne_access hj t i
  have hla : l ≠ .access t i := ne_of_mem_of_not_mem hlk (hfresh x hlive k hk)
  refine ⟨fun h hlive' => ?_, hlinked.apart⟩
  by_cases hne : h = x
  case neg =>
    refine hlinked.chain_linked hfresh hne hlive' rfl (hother h hne) rfl fun j => ⟨?_, ?_⟩
    · exact hpoint h j hlive'
    · exact fun hj hmem => hne (hlinked.group_apart hlive' hlive hj hk hmem hlk)
  case pos =>
  subst hne
  -- the fields at the old accesses of the other groups
  have hnext : ∀ j < g.top h, j ≠ k → ∀ b ∈ g.group h j,
      (s.linked t i m h l (g.point h (k + 1))).next b = s.next b := by
    intro j hj hjk b hb
    refine linked_next_of_ne (ne_of_mem_of_not_mem hb (hfresh h hlive j hj)) ?_
    rintro rfl
    exact hjk (hc.group_unique hj hk hb hlk)
  have hpnext : ∀ j ≤ g.top h,
      (s.linked t i m h l (g.point h (k + 1))).next (g.point h j) = s.next (g.point h j) :=
    fun j hj => linked_next_of_ne (hpa j hj) (hpoint h j hlive hj).symm
  constructor
  case zero => exact hc.zero
  case succ => exact hc.succ
  case inj => exact hc.inj
  case mode => exact fun j hj => (linked_of_ne (hpa j hj)).1.trans (hc.mode j hj)
  case nonempty =>
    intro j hj
    by_cases hjk : j = k
    · rw [hjk, hnew]
      simp
    · rw [hold j hjk]
      exact hc.nonempty j hj
  case path =>
    intro j hj
    have hstart := hpnext j (Nat.le_of_lt hj)
    by_cases hjk : j = k
    · subst hjk
      show IsPath _ ((s.linked t i m h l (g.point h (j + 1))).next (g.point h j)) _ none
      rw [hnew, hstart, isPath_append_cons]
      have hpath := (hc.path j hk).retarget (hc.path j hk).nodup (some (.access t i))
      rw [hlast, restart, if_neg (hc.nonempty j hk), assignAt_some] at hpath
      refine ⟨hpath.congr fun b hb => ?_, ?_⟩
      · show Function.update (Function.update s.next _ none) l _ b = Function.update s.next l _ b
        by_cases hbl : b = l
        · rw [hbl, Function.update_self, Function.update_self]
        · rw [Function.update_of_ne hbl, Function.update_of_ne hbl, Function.update_of_ne]
          exact ne_of_mem_of_not_mem hb (hfresh h hlive j hk)
      · show Function.update (Function.update s.next _ none) l _ (.access t i) = none
        rw [Function.update_of_ne hla.symm, Function.update_self]
    · show IsPath _ ((s.linked t i m h l (g.point h (k + 1))).next (g.point h j)) _ none
      rw [hold j hjk, hstart]
      exact (hc.path j hj).congr (hnext j hj hjk)
  case last_next => exact (hpnext _ (Nat.le_refl _)).trans hc.last_next
  case alike =>
    intro j hj
    by_cases hjk : j = k
    · subst hjk
      refine ⟨m, hmodes.1.imp_right .inl, ?_⟩
      rw [hnew]
      intro b hb
      rcases List.mem_append.mp hb with hb | hb
      · obtain ⟨mb, heb⟩ := hc.entry hj hb
        have hmb : mb = m := heb.mode.symm.trans (hmodes.2 b hb)
        exact (hmb ▸ heb).linked (ne_of_mem_of_not_mem hb (hfresh h hlive j hj))
      · obtain rfl := List.mem_singleton.mp hb
        exact entry_linked hparam
    · obtain ⟨mj, hmj, hall⟩ := hc.alike j hj
      rw [hold j hjk]
      exact ⟨mj, hmj, fun b hb =>
        (hall b hb).linked (ne_of_mem_of_not_mem hb (hfresh h hlive j hj))⟩
  case ordered =>
    intro j j' hjj hj' t₁ i₁ t₂ i₂ hmem hmem'
    have hj'k : j' ≤ k := by
      have hlt : j' < g.top h := hj'
      omega
    rw [hold j (Nat.ne_of_lt (Nat.lt_of_lt_of_le hjj hj'k))] at hmem
    by_cases hjk : j' = k
    · rw [hjk, hnew] at hmem'
      rcases List.mem_append.mp hmem' with hold' | hnew'
      · exact hc.ordered j k (hjk ▸ hjj) hk t₁ i₁ t₂ i₂ hmem hold'
      · cases List.mem_singleton.mp hnew'
        exact hearlier j (hjk ▸ hjj) t₁ i₁ hmem
    · rw [hold j' hjk] at hmem'
      exact hc.ordered j j' hjj hj' t₁ i₁ t₂ i₂ hmem hmem'
  case adjacent =>
    intro j hj a ha b hb
    have hj : j + 1 < g.top h := hj
    have hmode : ∀ j < g.top h, ∀ b ∈ g.group h j,
        (s.linked t i m h l (g.point h (k + 1))).mode b = s.mode b := fun j hj b hb =>
      (linked_of_ne (ne_of_mem_of_not_mem hb (hfresh h hlive j hj))).1
    rw [hold j (by omega)] at ha
    rw [hmode j (Nat.lt_of_succ_lt hj) a ha]
    by_cases hjk : j + 1 = k
    · rw [hjk, hnew] at hb
      rcases List.mem_append.mp hb with hb | hb
      · rw [hmode k hk b hb]
        exact hc.adjacent j hj a ha b (hjk ▸ hb)
      · -- the new access has the mode of the last one
        have hmode' : (s.linked t i m h l (g.point h (k + 1))).mode (.access t i) = m :=
          Function.update_self _ _ _
        rw [List.mem_singleton.mp hb, hmode', ← hmodes.2 l hlk]
        exact hc.adjacent j hj a ha l (hjk ▸ hlk)
    · rw [hold (j + 1) hjk] at hb
      rw [hmode (j + 1) hj b hb]
      exact hc.adjacent j hj a ha b hb
  case hsync => exact hc.hsync
  case last =>
    show Function.update s.last h (some (.access t i)) h = if g.top h = 0 then _ else
      ((g.extend h (.access t i)).group h (g.top h - 1)).getLast?
    rw [Function.update_self, htop, if_neg (Nat.succ_ne_zero k), Nat.add_sub_cancel, hnew,
      List.getLast?_concat]

theorem newSync_of_ne {b : Ref η} (hb : b ≠ .sync s.brk) :
    (s.newSync x).next b = s.next b ∧ (s.newSync x).mode b = s.mode b ∧
      (s.newSync x).sync b = s.sync b ∧ (s.newSync x).task b = s.task b :=
  ⟨Function.update_of_ne hb _ _, Function.update_of_ne hb _ _, Function.update_of_ne hb _ _,
    Function.update_of_ne hb _ _⟩

theorem Entry.newSync {q : Ref η} (he : Entry s h m q a) : Entry (s.newSync x) h m q a := by
  obtain ⟨_, hmode, hsync, htask⟩ := newSync_of_ne (s := s) (x := x) (he.not_sync s.brk)
  obtain ⟨⟨t, i, hti, hparam, heq⟩, hm, hs⟩ := he
  exact ⟨⟨t, i, hti, hparam, htask.trans heq⟩, hmode.trans hm, hsync.trans hs⟩

/-- The access is the first of a group that hangs from the last point of the handle. -/
theorem Linked.append (hlinked : Linked g s) (hlive : s.live x = true)
    (hfresh : Fresh g s (.access t i)) (hparam : IsParam s t i m x)
    (hearlier : ∀ j < g.top x, ∀ t' i', .access t' i' ∈ g.group x j → t' < t)
    (hconflict : ∀ k, g.top x = k + 1 → ∀ b ∈ g.group x k, Conflict (s.mode b) m) :
    Linked (g.append x (.access t i) (.sync s.brk))
      ((s.newSync x).linked t i m x (g.point x (g.top x)) (.sync s.brk)) := by
  have hc := hlinked.chain x hlive
  have hqa : (Ref.sync s.brk : Ref η) ≠ .access t i := by simp
  have htop : (g.append x (.access t i) (.sync s.brk)).top x = g.top x + 1 :=
    Function.update_self _ _ _
  have hgroup : (g.append x (.access t i) (.sync s.brk)).group x =
      Function.update (g.group x) (g.top x) [.access t i] := Function.update_self _ _ _
  have hpoint : (g.append x (.access t i) (.sync s.brk)).point x =
      Function.update (g.point x) (g.top x + 1) (.sync s.brk) := Function.update_self _ _ _
  have hoth : ∀ h, h ≠ x → (g.append x (.access t i) (.sync s.brk)).top h = g.top h ∧
      (g.append x (.access t i) (.sync s.brk)).group h = g.group h ∧
      (g.append x (.access t i) (.sync s.brk)).point h = g.point h := fun h hne =>
    ⟨Function.update_of_ne hne _ _, Function.update_of_ne hne _ _, Function.update_of_ne hne _ _⟩
  have holdg : ∀ j, j < g.top x →
      (g.append x (.access t i) (.sync s.brk)).group x j = g.group x j := by
    intro j hj
    rw [hgroup, Function.update_of_ne (Nat.ne_of_lt hj)]
  have hnewg : (g.append x (.access t i) (.sync s.brk)).group x (g.top x) = [.access t i] := by
    rw [hgroup, Function.update_self]
  have holdp : ∀ j, j ≤ g.top x →
      (g.append x (.access t i) (.sync s.brk)).point x j = g.point x j := by
    intro j hj
    rw [hpoint, Function.update_of_ne (Nat.ne_of_lt (Nat.lt_succ_of_le hj))]
  have hnewp : (g.append x (.access t i) (.sync s.brk)).point x (g.top x + 1) = .sync s.brk := by
    rw [hpoint, Function.update_self]
  -- the fields of the points and accesses that were there
  have hfieldp : ∀ h j, s.live h = true → j ≤ g.top h → g.point h j ≠ g.point x (g.top x) →
      ((s.newSync x).linked t i m x (g.point x (g.top x)) (.sync s.brk)).next (g.point h j) =
        s.next (g.point h j) := by
    intro h j hlive' hj hne
    have hch := hlinked.chain h hlive'
    rw [linked_next_of_ne (hch.point_ne_access hj t i) hne]
    exact (newSync_of_ne (hch.point_ne_brk hj)).1
  have hmodep : ∀ h j, s.live h = true → j ≤ g.top h →
      ((s.newSync x).linked t i m x (g.point x (g.top x)) (.sync s.brk)).mode (g.point h j) =
        s.mode (g.point h j) := by
    intro h j hlive' hj
    have hch := hlinked.chain h hlive'
    rw [(linked_of_ne (hch.point_ne_access hj t i)).1]
    exact (newSync_of_ne (hch.point_ne_brk hj)).2.1
  have hfielda : ∀ h j, s.live h = true → j < g.top h → ∀ b ∈ g.group h j,
      b ≠ .access t i ∧ b ≠ .sync s.brk ∧
      ((s.newSync x).linked t i m x (g.point x (g.top x)) (.sync s.brk)).next b = s.next b := by
    intro h j hlive' hj b hb
    obtain ⟨mb, heb⟩ := (hlinked.chain h hlive').entry hj hb
    have hba : b ≠ .access t i := ne_of_mem_of_not_mem hb (hfresh h hlive' j hj)
    have hbp : b ≠ g.point x (g.top x) := by
      obtain ⟨t', i', hti, _⟩ := heb.param
      rw [hti]
      exact (hc.point_ne_access (Nat.le_refl _) t' i').symm
    refine ⟨hba, heb.not_sync s.brk, ?_⟩
    rw [linked_next_of_ne hba hbp]
    exact (newSync_of_ne (heb.not_sync s.brk)).1
  constructor
  case apart =>
    intro h h' hlive₁ hlive₂ hne j hj j' hj'
    -- the new point is not one of another handle
    have hnew : ∀ h₀ j₀, s.live h₀ = true → h₀ ≠ x → j₀ ≤ g.top h₀ → ∀ j₁ ≤ g.top x + 1,
        g.point h₀ j₀ ≠ (g.append x (.access t i) (.sync s.brk)).point x j₁ := by
      intro h₀ j₀ hlive₀ hne₀ hj₀ j₁ hj₁
      by_cases heq : j₁ = g.top x + 1
      · rw [heq, hnewp]
        exact (hlinked.chain h₀ hlive₀).point_ne_brk hj₀
      · have hle : j₁ ≤ g.top x := by omega
        rw [holdp j₁ hle]
        exact hlinked.apart h₀ x hlive₀ hlive hne₀ j₀ hj₀ j₁ hle
    by_cases hx : h = x
    · subst hx
      have hne' : h' ≠ h := fun heq => hne heq.symm
      obtain ⟨ht, _, hp⟩ := hoth h' hne'
      rw [ht] at hj'
      rw [hp]
      exact (hnew h' j' hlive₂ hne' hj' j (htop ▸ hj)).symm
    · obtain ⟨ht, _, hp⟩ := hoth h hx
      rw [ht] at hj
      rw [hp]
      by_cases hx' : h' = x
      · subst hx'
        exact hnew h j hlive₁ hx hj j' (htop ▸ hj')
      · obtain ⟨ht', _, hp'⟩ := hoth h' hx'
        rw [ht'] at hj'
        rw [hp']
        exact hlinked.apart h h' hlive₁ hlive₂ hne j hj j' hj'
  case chain =>
  intro h hlive'
  by_cases hne : h = x
  case neg =>
    obtain ⟨ht, hg, hp⟩ := hoth h hne
    refine (hlinked.chain h hlive').frame hp hg ht (fun _ _ htask => htask) (Nat.le_succ _)
      (fun k hk => ⟨?_, hmodep h k hlive' hk⟩) (fun k hk b hb => ?_) ?_ ?_
    · exact hfieldp h k hlive' hk (hlinked.apart h x hlive' hlive hne k hk _ (Nat.le_refl _))
    · obtain ⟨hba, hbq, hnext⟩ := hfielda h k hlive' hk b hb
      obtain ⟨hm, hs, ht⟩ := linked_of_ne (s := s.newSync x) (m := m) (x := x)
        (l := g.point x (g.top x)) (p := (Ref.sync s.brk : Ref η)) hba
      obtain ⟨_, hm', hs', ht'⟩ := newSync_of_ne (s := s) (x := x) hbq
      exact ⟨hnext, hm.trans hm', hs.trans hs', ht.trans ht'⟩
    · exact Function.update_of_ne hne _ _
    · exact Function.update_of_ne hne _ _
  case pos =>
  subst hne
  have hpnext : ((s.newSync h).linked t i m h (g.point h (g.top h)) (.sync s.brk)).next
      (g.point h (g.top h)) = some (.access t i) := Function.update_self _ _ _
  have hanext : ((s.newSync h).linked t i m h (g.point h (g.top h)) (.sync s.brk)).next
      (.access t i) = none := by
    show Function.update (Function.update (s.newSync h).next (.access t i) none) _ _ _ = none
    rw [Function.update_of_ne (hc.point_ne_access (Nat.le_refl _) t i).symm, Function.update_self]
  constructor
  case zero => exact (holdp 0 (Nat.zero_le _)).trans hc.zero
  case succ =>
    intro j hj
    rw [htop] at hj
    by_cases hjt : j = g.top h
    · rw [hjt, hnewp]
      exact ⟨s.brk, Nat.lt_succ_self _, rfl⟩
    · have hlt : j < g.top h := by omega
      rw [holdp (j + 1) hlt]
      obtain ⟨n, hn, heq⟩ := hc.succ j hlt
      exact ⟨n, Nat.lt_succ_of_lt hn, heq⟩
  case inj =>
    intro j hj j' hj' heq
    rw [htop] at hj hj'
    by_cases hjt : j = g.top h + 1
    · by_cases hjt' : j' = g.top h + 1
      · exact hjt.trans hjt'.symm
      · have hle : j' ≤ g.top h := by omega
        rw [hjt, hnewp, holdp j' hle] at heq
        exact absurd heq.symm (hc.point_ne_brk hle)
    · have hle : j ≤ g.top h := by omega
      rw [holdp j hle] at heq
      by_cases hjt' : j' = g.top h + 1
      · rw [hjt', hnewp] at heq
        exact absurd heq (hc.point_ne_brk hle)
      · have hle' : j' ≤ g.top h := by omega
        rw [holdp j' hle'] at heq
        exact hc.inj j hle j' hle' heq
  case mode =>
    intro j hj
    rw [htop] at hj
    by_cases hjt : j = g.top h + 1
    · rw [hjt, hnewp, (linked_of_ne hqa).1]
      exact Function.update_self _ _ _
    · have hle : j ≤ g.top h := by omega
      rw [holdp j hle, hmodep h j hlive hle]
      exact hc.mode j hle
  case nonempty =>
    intro j hj
    rw [htop] at hj
    by_cases hjt : j = g.top h
    · rw [hjt, hnewg]
      simp
    · have hlt : j < g.top h := by omega
      rw [holdg j hlt]
      exact hc.nonempty j hlt
  case path =>
    intro j hj
    rw [htop] at hj
    by_cases hjt : j = g.top h
    · rw [hjt, hnewg, holdp _ (Nat.le_refl _), hpnext]
      exact ⟨rfl, hanext⟩
    · have hlt : j < g.top h := by omega
      have hpne : g.point h j ≠ g.point h (g.top h) := fun heq =>
        hjt (hc.inj j (Nat.le_of_lt hlt) _ (Nat.le_refl _) heq)
      rw [holdg j hlt, holdp j (Nat.le_of_lt hlt), hfieldp h j hlive (Nat.le_of_lt hlt) hpne]
      exact (hc.path j hlt).congr fun b hb => (hfielda h j hlive hlt b hb).2.2
  case last_next =>
    rw [htop, hnewp, linked_next_of_ne hqa (hc.point_ne_brk (Nat.le_refl _)).symm]
    exact Function.update_self _ _ _
  case alike =>
    intro j hj
    rw [htop] at hj
    by_cases hjt : j = g.top h
    · rw [hjt, hnewg, hnewp]
      refine ⟨m, .inr (.inr rfl), fun b hb => ?_⟩
      obtain rfl := List.mem_singleton.mp hb
      exact entry_linked hparam
    · have hlt : j < g.top h := by omega
      obtain ⟨mj, hmj, hall⟩ := hc.alike j hlt
      rw [holdg j hlt, holdp (j + 1) hlt]
      exact ⟨mj, hmj, fun b hb => ((hall b hb).newSync).linked (hfielda h j hlive hlt b hb).1⟩
  case ordered =>
    intro j j' hjj hj' t₁ i₁ t₂ i₂ hmem hmem'
    rw [htop] at hj'
    have hj : j < g.top h := by omega
    rw [holdg j hj] at hmem
    by_cases hjt : j' = g.top h
    · rw [hjt, hnewg] at hmem'
      cases List.mem_singleton.mp hmem'
      exact hearlier j hj t₁ i₁ hmem
    · have hlt : j' < g.top h := by omega
      rw [holdg j' hlt] at hmem'
      exact hc.ordered j j' hjj hlt t₁ i₁ t₂ i₂ hmem hmem'
  case adjacent =>
    intro j hj a ha b hb
    rw [htop] at hj
    have hmode : ∀ j < g.top h, ∀ b ∈ g.group h j, ((s.newSync h).linked t i m h
        (g.point h (g.top h)) (.sync s.brk)).mode b = s.mode b := by
      intro j hj b hb
      obtain ⟨hba, hbq, _⟩ := hfielda h j hlive hj b hb
      rw [(linked_of_ne hba).1]
      exact (newSync_of_ne hbq).2.1
    have hj' : j < g.top h := by omega
    rw [holdg j hj'] at ha
    rw [hmode j hj' a ha]
    by_cases hjt : j + 1 = g.top h
    · have hnew : ((s.newSync h).linked t i m h (g.point h (g.top h)) (.sync s.brk)).mode
          (.access t i) = m := Function.update_self _ _ _
      rw [hjt, hnewg] at hb
      rw [List.mem_singleton.mp hb, hnew]
      exact hconflict j hjt.symm a ha
    · have hlt : j + 1 < g.top h := by omega
      rw [holdg (j + 1) hlt] at hb
      rw [hmode (j + 1) hlt b hb]
      exact hc.adjacent j hlt a ha b hb
  case hsync =>
    rw [htop, if_neg (Nat.succ_ne_zero _), hnewp]
    exact Function.update_self _ _ _
  case last =>
    rw [htop, if_neg (Nat.succ_ne_zero _), Nat.add_sub_cancel, hnewg]
    exact Function.update_self _ _ _

end Link

/-! ## Submission -/

/-- The access is in a group of the handle. -/
def InGroup (g : Graph η) (h : η) (a : Ref η) : Prop :=
  ∃ k < g.top h, a ∈ g.group h k

/-- Nothing has been activated: the counters count all accesses. -/
structure Quiet (g : Graph η) (s : State η V) : Prop where
  zero : ∀ h, s.live h = true → s.wc (.sync0 h) = 1
  succ : ∀ h, s.live h = true → ∀ k < g.top h,
    s.wc (g.point h (k + 1)) = ((g.group h k).length : ℤ)
  ready : ∀ h, s.live h = true → ∀ a, InGroup g h a → s.ready a = false

theorem Linked.access_of_inGroup (hlinked : Linked g s) (hlive : s.live h = true)
    (ha : InGroup g h a) : ∃ t i m, a = .access t i ∧ IsParam s t i m h ∧ s.task a = some t := by
  obtain ⟨k, hk, hmem⟩ := ha
  obtain ⟨m, ⟨t, i, hti, hparam, htask⟩, _⟩ := (hlinked.chain h hlive).entry hk hmem
  exact ⟨t, i, m, hti, hparam, htask⟩

theorem Linked.sync0_ne_point (hlinked : Linked g s) {h' : η} (hlive : s.live h' = true)
    (hk : k < g.top h') : (Ref.sync0 h : Ref η) ≠ g.point h' (k + 1) := by
  obtain ⟨n, _, heq⟩ := (hlinked.chain h' hlive).succ k hk
  rw [heq]
  simp

/-- Two points of live handles that are the same. -/
theorem Linked.point_inj (hlinked : Linked g s) {h' : η} {k' : ℕ} (hlive : s.live h = true)
    (hlive' : s.live h' = true) (hk : k ≤ g.top h) (hk' : k' ≤ g.top h')
    (heq : g.point h k = g.point h' k') : h = h' ∧ k = k' := by
  by_cases hne : h = h'
  · subst hne
    exact ⟨rfl, (hlinked.chain h hlive).inj k hk k' hk' heq⟩
  · exact absurd heq (hlinked.apart h h' hlive hlive' hne k hk k' hk')

section Insert

variable [DecidableEq η]

theorem inGroup_extend (htop : g.top x = k + 1) {b : Ref η} :
    InGroup (g.extend x a) h b ↔ InGroup g h b ∨ (h = x ∧ b = a) := by
  unfold InGroup Graph.extend
  dsimp only
  by_cases hx : h = x
  · subst hx
    rw [Function.update_self, htop, Nat.add_sub_cancel]
    constructor
    · rintro ⟨j, hj, hmem⟩
      by_cases hjk : j = k
      · rw [hjk, Function.update_self] at hmem
        rcases List.mem_append.mp hmem with hold | hnew
        · exact .inl ⟨k, Nat.lt_succ_self k, hold⟩
        · exact .inr ⟨rfl, List.mem_singleton.mp hnew⟩
      · rw [Function.update_of_ne hjk] at hmem
        exact .inl ⟨j, hj, hmem⟩
    · rintro (⟨j, hj, hmem⟩ | ⟨_, rfl⟩)
      · refine ⟨j, hj, ?_⟩
        by_cases hjk : j = k
        · rw [hjk, Function.update_self]
          exact List.mem_append_left _ (hjk ▸ hmem)
        · rw [Function.update_of_ne hjk]
          exact hmem
      · refine ⟨k, Nat.lt_succ_self k, ?_⟩
        rw [Function.update_self]
        exact List.mem_append_right _ (List.mem_singleton_self b)
  · rw [Function.update_of_ne hx]
    exact (or_iff_left fun hnew => hx hnew.1).symm

theorem inGroup_append {b q : Ref η} :
    InGroup (g.append x a q) h b ↔ InGroup g h b ∨ (h = x ∧ b = a) := by
  unfold InGroup Graph.append
  dsimp only
  by_cases hx : h = x
  · subst hx
    rw [Function.update_self, Function.update_self]
    constructor
    · rintro ⟨j, hj, hmem⟩
      by_cases hjk : j = g.top h
      · rw [hjk, Function.update_self] at hmem
        exact .inr ⟨rfl, List.mem_singleton.mp hmem⟩
      · rw [Function.update_of_ne hjk] at hmem
        exact .inl ⟨j, by omega, hmem⟩
    · rintro (⟨j, hj, hmem⟩ | ⟨_, rfl⟩)
      · refine ⟨j, Nat.lt_succ_of_lt hj, ?_⟩
        rw [Function.update_of_ne (Nat.ne_of_lt hj)]
        exact hmem
      · refine ⟨g.top h, Nat.lt_succ_self _, ?_⟩
        rw [Function.update_self]
        exact List.mem_singleton_self b
  · rw [Function.update_of_ne hx, Function.update_of_ne hx]
    exact (or_iff_left fun hnew => hx hnew.1).symm

/-- What `kaapi_update_dependencies` needs of the parameter and of the accesses that are linked. -/
structure Insertable (g : Graph η) (s : State η V) (t i : ℕ) (m : Mode) (x : η) : Prop where
  live : s.live x = true
  param : IsParam s t i m x
  fresh : Fresh g s (.access t i)
  modes : ∀ t i m h, IsParam s t i m h → Orders m
  le : ∀ h, s.live h = true → ∀ t' i', InGroup g h (.access t' i') → t' ≤ t
  consistent : ∀ j m', j ≠ i → IsParam s t j m' x → ¬ Conflict m m'

/-- An access is linked, and the counters still count all accesses. -/
theorem updateDependencies_spec (hlinked : Linked g s) (hquiet : Quiet g s)
    (hins : Insertable g s t i m x) :
    ∃ g', Linked g' (s.updateDependencies t i m x) ∧ Quiet g' (s.updateDependencies t i m x) ∧
      ∀ h b, InGroup g' h b ↔ InGroup g h b ∨ (h = x ∧ b = .access t i) := by
  have hlive := hins.live
  have hc := hlinked.chain x hlive
  -- a new group: the counter of its point is 1
  have hnew : ∀ p, p = g.point x (g.top x) →
      s.updateDependencies t i m x = (s.newSync x).linked t i m x p (.sync s.brk) →
      (∀ j < g.top x, ∀ t' i', .access t' i' ∈ g.group x j → t' < t) →
      (∀ k, g.top x = k + 1 → ∀ b ∈ g.group x k, Conflict (s.mode b) m) →
      ∃ g', Linked g' (s.updateDependencies t i m x) ∧ Quiet g' (s.updateDependencies t i m x) ∧
        ∀ h b, InGroup g' h b ↔ InGroup g h b ∨ (h = x ∧ b = .access t i) := by
    rintro p rfl hstep hearlier hconflict
    rw [hstep]
    refine ⟨_, hlinked.append hlive hins.fresh hins.param hearlier hconflict, ?_,
      fun h b => inGroup_append⟩
    have hwc : ∀ r, r ≠ .sync s.brk → ((s.newSync x).linked t i m x (g.point x (g.top x))
        (.sync s.brk)).wc r = s.wc r := by
      intro r hr
      show Function.update (Function.update s.wc _ _) _ _ r = s.wc r
      rw [Function.update_of_ne hr, Function.update_of_ne hr]
    constructor
    case zero =>
      intro h hlive'
      rw [hwc _ (by simp)]
      exact hquiet.zero h hlive'
    case succ =>
      intro h hlive' j hj
      by_cases hx : h = x
      · subst hx
        have hj' : j < g.top h + 1 := by
          have htop : (g.append h (.access t i) (.sync s.brk)).top h = g.top h + 1 :=
            Function.update_self _ _ _
          exact htop ▸ hj
        show Function.update (Function.update s.wc _ _) _ _
          (Function.update g.point h _ h (j + 1)) =
          ((Function.update g.group h _ h j).length : ℤ)
        rw [Function.update_self, Function.update_self (f := g.group)]
        by_cases hjt : j = g.top h
        · subst hjt
          rw [Function.update_self, Function.update_self, Function.update_self]
          show Function.update s.wc _ 0 _ + 1 = _
          rw [Function.update_self]
          rfl
        · have hlt : j < g.top h := by omega
          have hne : j + 1 ≠ g.top h + 1 := by omega
          rw [Function.update_of_ne hne, Function.update_of_ne hjt]
          exact (hwc _ (hc.point_ne_brk hlt)).trans (hquiet.succ h hlive j hlt)
      · have htop : (g.append x (.access t i) (.sync s.brk)).top h = g.top h :=
          Function.update_of_ne hx _ _
        have hpoint : (g.append x (.access t i) (.sync s.brk)).point h = g.point h :=
          Function.update_of_ne hx _ _
        have hgroup : (g.append x (.access t i) (.sync s.brk)).group h = g.group h :=
          Function.update_of_ne hx _ _
        rw [htop] at hj
        rw [hpoint, hgroup, hwc _ ((hlinked.chain h hlive').point_ne_brk hj)]
        exact hquiet.succ h hlive' j hj
    case ready =>
      intro h hlive' b hb
      show Function.update (Function.update s.ready _ false) _ false b = false
      by_cases hba : b = .access t i
      · rw [hba, Function.update_self]
      · have hold : InGroup g h b := (inGroup_append.mp hb).resolve_right fun hn => hba hn.2
        obtain ⟨t', i', _, rfl, _⟩ := hlinked.access_of_inGroup hlive' hold
        rw [Function.update_of_ne hba, Function.update_of_ne (by simp)]
        exact hquiet.ready h hlive' _ hold
  have hpa : ∀ j ≤ g.top x, g.point x j ≠ .access t i := fun j hj => hc.point_ne_access hj t i
  cases htop : g.top x with
  | zero =>
      -- the first access of the handle
      have hlast := hc.last
      have hsync := hc.hsync
      rw [htop, if_pos rfl] at hlast hsync
      have hzero : g.point x (g.top x) = .sync0 x := by
        rw [htop]
        exact hc.zero
      refine hnew (.sync0 x) hzero.symm (updateDependencies_of_new (.inl ⟨hlast, hsync, ?_⟩)
        (by simp)) (fun j hj => absurd hj (by omega)) fun k hk => absurd hk (by omega)
      rw [← hzero]
      exact hc.mode _ (Nat.le_refl _)
  | succ k =>
      have hk : k < g.top x := by omega
      have hlast := hc.last
      have hsync := hc.hsync
      rw [htop, if_neg (Nat.succ_ne_zero k)] at hlast hsync
      rw [Nat.add_sub_cancel] at hlast
      obtain ⟨l, hl⟩ := Option.ne_none_iff_exists'.mp fun hnone =>
        hc.nonempty k hk (List.getLast?_eq_none_iff.mp hnone)
      rw [hl] at hlast
      have hlk : l ∈ g.group x k := List.mem_of_getLast? hl
      obtain ⟨mk, hmk, hall⟩ := hc.alike k hk
      have hla : l ≠ .access t i := ne_of_mem_of_not_mem hlk (hins.fresh x hlive k hk)
      obtain ⟨tl, il, hlil, hlparam, _⟩ := (hall l hlk).param
      have hmode : s.mode l = mk := (hall l hlk).mode
      have hearlier : ∀ j < k, ∀ t' i', .access t' i' ∈ g.group x j → t' < t := by
        intro j hj t' i' hmem
        have hlt := hc.ordered j k hj hk t' i' tl il hmem (hlil ▸ hlk)
        exact hlt.trans_le (hins.le x hlive tl il ⟨k, hk, hlil ▸ hlk⟩)
      have horders : Orders mk := hins.modes tl il mk x hlparam
      have hiff := isConcurrent_iff (hins.modes t i m x hins.param) horders
      by_cases hconc : IsConcurrent m mk
      · have hnot := hiff.mp hconc
        have hsame : m = mk ∧ (m = modeR ∨ m = modeCW) := by
          by_cases hr : m = modeR ∧ mk = modeR
          · exact ⟨hr.1.trans hr.2.symm, .inl hr.1⟩
          · have hcw : m = modeCW ∧ mk = modeCW := by
              by_contra hcw
              exact hnot ⟨hr, hcw⟩
            exact ⟨hcw.1.trans hcw.2.symm, .inr hcw.1⟩
        have hstep := updateDependencies_of_concurrent hlast hsync hla
          (show IsConcurrent m (s.mode l) by rw [hmode]; exact hconc)
        rw [hstep]
        refine ⟨_, hlinked.extend hlive htop hl hins.fresh hins.param ⟨hsame.2, fun b hb => ?_⟩
          hearlier, ?_, fun h b => inGroup_extend htop⟩
        · exact (hall b hb).mode.trans hsame.1.symm
        have hwc : ∀ r, r ≠ g.point x (k + 1) →
            (s.linked t i m x l (g.point x (k + 1))).wc r = s.wc r := fun r hr =>
          Function.update_of_ne hr _ _
        constructor
        case zero =>
          intro h hlive'
          rw [hwc _ (hlinked.sync0_ne_point hlive hk)]
          exact hquiet.zero h hlive'
        case succ =>
          intro h hlive' j hj
          have hj' : j < g.top h := hj
          by_cases hpoint : h = x ∧ j = k
          · obtain ⟨rfl, rfl⟩ := hpoint
            have hgroup : (g.extend h (.access t i)).group h j =
                g.group h j ++ [.access t i] := by
              unfold Graph.extend
              dsimp only
              rw [htop, Function.update_self, Nat.add_sub_cancel, Function.update_self]
            rw [hgroup, List.length_append]
            show Function.update s.wc _ _ (g.point h (j + 1)) = _
            rw [Function.update_self, hquiet.succ h hlive j hk]
            rfl
          · have hgroup : (g.extend x (.access t i)).group h j = g.group h j := by
              unfold Graph.extend
              dsimp only
              rw [htop, Nat.add_sub_cancel]
              by_cases hx : h = x
              · subst hx
                have hjk : j ≠ k := fun heq => hpoint ⟨rfl, heq⟩
                rw [Function.update_self, Function.update_of_ne hjk]
              · rw [Function.update_of_ne hx]
            have hne : g.point h (j + 1) ≠ g.point x (k + 1) := by
              intro heq
              obtain ⟨hx, hjk⟩ := hlinked.point_inj hlive' hlive hj' hk heq
              exact hpoint ⟨hx, Nat.succ.inj hjk⟩
            rw [hgroup]
            exact (hwc _ hne).trans (hquiet.succ h hlive' j hj')
        case ready =>
          intro h hlive' b hb
          show Function.update s.ready _ false b = false
          by_cases hba : b = .access t i
          · rw [hba, Function.update_self]
          · rw [Function.update_of_ne hba]
            exact hquiet.ready h hlive' b
              (((inGroup_extend htop).mp hb).resolve_right fun hn => hba hn.2)
      · refine hnew (g.point x (k + 1)) (by rw [htop]) (updateDependencies_of_new (.inr ⟨l, hlast,
          hsync, ?_, ?_, hla⟩) (hpa _ (by omega))) (fun j hj t' i' hmem => ?_)
          fun k' hk' b hb => ?_
        · rw [hmode]
          exact horders.1
        · rw [hmode]
          exact hconc
        · by_cases hjk : j = k
          · subst hjk
            refine Nat.lt_of_le_of_ne (hins.le x hlive t' i' ⟨j, hj, hmem⟩) ?_
            rintro rfl
            -- the task would have two accesses in conflict to the tile
            obtain ⟨t₀, i₀, heq, hparam, _⟩ := (hall _ hmem).param
            cases heq
            have hne : i' ≠ i := by
              rintro rfl
              exact hins.fresh x hlive j hj hmem
            exact hconc (hiff.mpr (hins.consistent i' mk hne hparam))
          · exact hearlier j (by omega) t' i' hmem
        · obtain rfl : k' = k := by omega
          rw [(hall b hb).mode]
          exact (not_not.mp fun hnot => hconc (hiff.mpr hnot)).symm

end Insert

/-! ## The parameters of a task -/

/-- Two parameters of one task that may both be linked: they are not in conflict on a tile. -/
def Param.Compatible : Param η → Param η → Prop
  | .access m h, .access m' h' => h = h' → ¬ Conflict m m'
  | _, _ => True

/-- The mode of an access is one that the chains order. -/
def Param.Ordered : Param η → Prop
  | .value => True
  | .access m _ => Orders m

/-- A task whose modes are ordered by the chains, and that has no two accesses in conflict to the
same tile. -/
structure Legal (task : Task η V) : Prop where
  orders : ∀ p ∈ task.params, p.Ordered
  compatible : task.params.Pairwise Param.Compatible

instance : DecidablePred (Param.Ordered : Param η → Prop)
  | .value => instDecidableTrue
  | .access m _ => inferInstanceAs (Decidable (Orders m))

instance [DecidableEq η] : DecidableRel (Param.Compatible : Param η → Param η → Prop)
  | .access m h, .access m' h' => inferInstanceAs (Decidable (h = h' → ¬ Conflict m m'))
  | .value, _ => instDecidableTrue
  | .access _ _, .value => instDecidableTrue

instance [DecidableEq η] (task : Task η V) : Decidable (Legal task) :=
  decidable_of_iff ((∀ p ∈ task.params, p.Ordered) ∧ task.params.Pairwise Param.Compatible)
    ⟨fun h => ⟨h.1, h.2⟩, fun h => ⟨h.orders, h.compatible⟩⟩

theorem Legal.consistent {task : Task η V} (hlegal : Legal task) {i j : ℕ} {m m' : Mode}
    (hij : i ≠ j) (hi : task.params[i]? = some (.access m h))
    (hj : task.params[j]? = some (.access m' h)) : ¬ Conflict m m' := by
  obtain ⟨hi', heqi⟩ := List.getElem?_eq_some_iff.mp hi
  obtain ⟨hj', heqj⟩ := List.getElem?_eq_some_iff.mp hj
  have hpair := List.pairwise_iff_getElem.mp hlegal.compatible
  rcases Nat.lt_or_gt_of_ne hij with hlt | hgt
  · have hcomp := hpair i j hi' hj' hlt
    rw [heqi, heqj] at hcomp
    exact hcomp rfl
  · have hcomp := hpair j i hj' hi' hgt
    rw [heqi, heqj] at hcomp
    exact fun hconflict => hcomp rfl hconflict.symm

/-- The accesses of a task. -/
theorem mem_accesses {i₀ : ℕ} {ps : List (Param η)} :
    a ∈ accesses t i₀ ps ↔ ∃ j m h, a = .access t (i₀ + j) ∧ ps[j]? = some (.access m h) := by
  induction ps generalizing i₀ with
  | nil => simp [accesses]
  | cons p ps ih =>
      have htail : (∃ j m h, a = .access t (i₀ + 1 + j) ∧ ps[j]? = some (.access m h)) ↔
          ∃ j m h, a = .access t (i₀ + (j + 1)) ∧ (p :: ps)[j + 1]? = some (.access m h) := by
        simp only [List.getElem?_cons_succ, Nat.add_assoc, Nat.add_comm 1]
      cases p with
      | value =>
          show a ∈ accesses t (i₀ + 1) ps ↔ _
          rw [ih, htail]
          constructor
          · rintro ⟨j, hj⟩
            exact ⟨j + 1, hj⟩
          · rintro ⟨j, m, h, hj, hp⟩
            cases j with
            | zero => cases hp
            | succ j => exact ⟨j, m, h, hj, hp⟩
      | access m₀ h₀ =>
          show a ∈ .access t i₀ :: accesses t (i₀ + 1) ps ↔ _
          rw [List.mem_cons, ih, htail]
          constructor
          · rintro (rfl | ⟨j, hj⟩)
            · exact ⟨0, m₀, h₀, rfl, rfl⟩
            · exact ⟨j + 1, hj⟩
          · rintro ⟨j, m, h, hj, hp⟩
            cases j with
            | zero => exact .inl hj
            | succ j => exact .inr ⟨j, m, h, hj, hp⟩

theorem nodup_accesses {i₀ : ℕ} {ps : List (Param η)} : (accesses t i₀ ps).Nodup := by
  induction ps generalizing i₀ with
  | nil => exact List.nodup_nil
  | cons p ps ih =>
      cases p with
      | value => exact ih
      | access m h =>
          refine List.nodup_cons.mpr ⟨fun hmem => ?_, ih⟩
          obtain ⟨j, _, _, heq, _⟩ := mem_accesses.mp hmem
          injection heq with _ hi
          omega

/-- Nothing but the pointers, and the counters of the task `t` and of the points, has changed. -/
structure SameRun (t : ℕ) (s s' : State η V) : Prop where
  live : s'.live = s.live
  listSync0 : s'.listSync0 = s.listSync0
  nextSync0 : s'.nextSync0 = s.nextSync0
  tasks : s'.tasks = s.tasks
  queue : s'.queue = s.queue
  pushed : s'.pushed = s.pushed
  pc : s'.pc = s.pc
  main : s'.main = s.main
  spawn : s'.spawn = s.spawn
  exec : s'.exec = s.exec
  mem : s'.mem = s.mem
  held : s'.held = s.held
  ready : ∀ t' i', t' ≠ t → s'.ready (.access t' i') = s.ready (.access t' i')
  taskWc : ∀ t', t' ≠ t → s'.taskWc t' = s.taskWc t'

theorem SameRun.refl (t : ℕ) (s : State η V) : SameRun t s s :=
  ⟨rfl, rfl, rfl, rfl, rfl, rfl, rfl, rfl, rfl, rfl, rfl, rfl, fun _ _ _ => rfl, fun _ _ => rfl⟩

theorem SameRun.trans {u : State η V} (h : SameRun t s s') (h' : SameRun t s' u) :
    SameRun t s u :=
  ⟨h'.live.trans h.live, h'.listSync0.trans h.listSync0, h'.nextSync0.trans h.nextSync0,
    h'.tasks.trans h.tasks, h'.queue.trans h.queue, h'.pushed.trans h.pushed, h'.pc.trans h.pc,
    h'.main.trans h.main, h'.spawn.trans h.spawn, h'.exec.trans h.exec, h'.mem.trans h.mem,
    h'.held.trans h.held, fun t' i' hne => (h'.ready t' i' hne).trans (h.ready t' i' hne),
    fun t' hne => (h'.taskWc t' hne).trans (h.taskWc t' hne)⟩

section Insert

variable [DecidableEq η]

theorem sameRun_newSync : SameRun t s (s.newSync x) := by
  refine ⟨rfl, rfl, rfl, rfl, rfl, rfl, rfl, rfl, rfl, rfl, rfl, rfl, fun t' i' _ => ?_,
    fun _ _ => rfl⟩
  show Function.update s.ready (.sync s.brk) false (.access t' i') = s.ready (.access t' i')
  rw [Function.update_of_ne (by simp)]

theorem sameRun_updateDependencies : SameRun t s (s.updateDependencies t i m x) := by
  have hdeclare : SameRun t s (s.declare t i m) :=
    ⟨rfl, rfl, rfl, rfl, rfl, rfl, rfl, rfl, rfl, rfl, rfl, rfl, fun _ _ _ => rfl, fun _ _ => rfl⟩
  have hswap : ∀ u : State η V, SameRun t u (u.swap x) := fun u =>
    ⟨rfl, rfl, rfl, rfl, rfl, rfl, rfl, rfl, rfl, rfl, rfl, rfl, fun _ _ _ => rfl, fun _ _ => rfl⟩
  have hlink : ∀ u : State η V, SameRun t u (u.linkAccess t (.access t i) x) := fun u =>
    ⟨rfl, rfl, rfl, rfl, rfl, rfl, rfl, rfl, rfl, rfl, rfl, rfl,
      fun t' i' hne => Function.update_of_ne (by simp [hne]) _ _,
      fun t' hne => Function.update_of_ne hne _ _⟩
  have hswaps : ∀ u : State η V, SameRun t u (if u.Swaps m x then u.swap x else u) := by
    intro u
    split
    · exact hswap u
    · exact .refl t u
  have hnew : ∀ u : State η V, SameRun t u (if u.hsync x = none then u.newSync x else u) := by
    intro u
    split
    · exact sameRun_newSync
    · exact .refl t u
  exact ((hdeclare.trans (hswaps _)).trans (hnew _)).trans (hlink _)

theorem updateDependencies_taskWc :
    (s.updateDependencies t i m x).taskWc t = s.taskWc t + 1 := by
  unfold State.updateDependencies State.linkAccess
  dsimp only
  rw [Function.update_self]
  split <;> split <;> rfl

/-- All parameters of a task are linked. -/
theorem insertParams_spec {task : Task η V} {ps : List (Param η)} (hlinked : Linked g s)
    (hquiet : Quiet g s) (htask : s.tasks[t]? = some task) (hlegal : ∀ task ∈ s.tasks, Legal task)
    (hps : task.params.drop i = ps) (hlive : ∀ h ∈ task.handles, s.live h = true)
    (hle : ∀ h, s.live h = true → ∀ t' i', InGroup g h (.access t' i') → t' ≤ t)
    (hfresh : ∀ h, s.live h = true → ∀ j, i ≤ j → ¬ InGroup g h (.access t j)) :
    ∃ g', Linked g' (s.insertParams t i ps) ∧ Quiet g' (s.insertParams t i ps) ∧
      SameRun t s (s.insertParams t i ps) ∧
      (s.insertParams t i ps).taskWc t = s.taskWc t + ((accesses t i ps).length : ℤ) ∧
      ∀ h b, InGroup g' h b ↔ InGroup g h b ∨
        ∃ j m, i ≤ j ∧ b = .access t j ∧ task.params[j]? = some (.access m h) := by
  induction ps generalizing s g i with
  | nil =>
      refine ⟨g, hlinked, hquiet, .refl t s, (Int.add_zero _).symm, fun h b => ?_⟩
      refine (or_iff_left ?_).symm
      rintro ⟨j, m, hj, _, hparam⟩
      have hlen := List.drop_eq_nil_iff.mp hps
      rw [List.getElem?_eq_none (by omega)] at hparam
      cases hparam
  | cons p ps ih =>
      have hget : task.params[i]? = some p := by
        have := congrArg (fun l => l[0]?) hps
        simpa using this
      have hps' : task.params.drop (i + 1) = ps := by
        rw [← List.drop_drop, hps, List.drop_one, List.tail_cons]
      cases p with
      | value =>
          obtain ⟨g', hl, hq, hsame, hwc, hin⟩ := ih hlinked hquiet htask hlegal hps' hlive hle
            fun h hh j hj => hfresh h hh j (by omega)
          refine ⟨g', hl, hq, hsame, hwc, fun h b => (hin h b).trans (or_congr_right ?_)⟩
          constructor
          · rintro ⟨j, m, hj, hb, hparam⟩
            exact ⟨j, m, by omega, hb, hparam⟩
          · rintro ⟨j, m, hj, hb, hparam⟩
            refine ⟨j, m, ?_, hb, hparam⟩
            refine Nat.lt_of_le_of_ne hj ?_
            rintro rfl
            cases hget.symm.trans hparam
      | access m₀ x =>
          have hparam : IsParam s t i m₀ x := ⟨task, htask, hget⟩
          have hmem : task ∈ s.tasks := List.mem_of_getElem? htask
          have hx : s.live x = true :=
            hlive x (List.mem_filterMap.mpr ⟨_, List.mem_of_getElem? hget, rfl⟩)
          have hins : Insertable g s t i m₀ x := by
            refine ⟨hx, hparam, fun h hh k hk hmem' => hfresh h hh i le_rfl ⟨k, hk, hmem'⟩, ?_, hle,
              ?_⟩
            · rintro t' i' m' h' ⟨task', htask', hget'⟩
              exact (hlegal task' (List.mem_of_getElem? htask')).orders _
                (List.mem_of_getElem? hget')
            · rintro j m' hj ⟨task', htask', hget'⟩
              obtain rfl := Option.some.inj (htask.symm.trans htask')
              exact (hlegal task hmem).consistent hj.symm hget hget'
          obtain ⟨g₁, hl₁, hq₁, hin₁⟩ := updateDependencies_spec hlinked hquiet hins
          have hsame₁ : SameRun t s (s.updateDependencies t i m₀ x) := sameRun_updateDependencies
          have hstep : s.insertParams t i (.access m₀ x :: ps) =
              (s.updateDependencies t i m₀ x).insertParams t (i + 1) ps := rfl
          have hle₁ : ∀ h, (s.updateDependencies t i m₀ x).live h = true → ∀ t' i',
              InGroup g₁ h (.access t' i') → t' ≤ t := by
            intro h hh t' i' hmem'
            rcases (hin₁ h _).mp hmem' with hold | ⟨_, heq⟩
            · exact hle h (hsame₁.live ▸ hh) t' i' hold
            · cases heq
              exact le_rfl
          have hfresh₁ : ∀ h, (s.updateDependencies t i m₀ x).live h = true → ∀ j, i + 1 ≤ j →
              ¬ InGroup g₁ h (.access t j) := by
            intro h hh j hj hmem'
            rcases (hin₁ h _).mp hmem' with hold | ⟨_, heq⟩
            · exact hfresh h (hsame₁.live ▸ hh) j (by omega) hold
            · injection heq with _ hji
              omega
          obtain ⟨g', hl, hq, hsame, hwc, hin⟩ := ih hl₁ hq₁ (hsame₁.tasks ▸ htask)
            (hsame₁.tasks ▸ hlegal) hps' (hsame₁.live ▸ hlive) hle₁ hfresh₁
          rw [hstep]
          refine ⟨g', hl, hq, hsame₁.trans hsame, ?_, fun h b => ?_⟩
          · rw [hwc, updateDependencies_taskWc]
            show _ = s.taskWc t + ((accesses t (i + 1) ps).length + 1 : ℕ)
            push_cast
            omega
          · rw [hin, hin₁, or_assoc]
            refine or_congr_right ⟨?_, ?_⟩
            · rintro (⟨rfl, rfl⟩ | ⟨j, m, hj, hb, hp⟩)
              · exact ⟨i, m₀, le_rfl, rfl, hget⟩
              · exact ⟨j, m, by omega, hb, hp⟩
            · rintro ⟨j, m, hj, hb, hp⟩
              by_cases hji : j = i
              · subst hji
                cases hget.symm.trans hp
                exact .inl ⟨rfl, hb⟩
              · exact .inr ⟨j, m, by omega, hb, hp⟩

end Insert

end Xkblas.Sched.DataFlow
