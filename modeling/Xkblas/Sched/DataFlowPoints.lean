import Xkblas.Sched.DataFlowChains

/-!
# The synchronisation points during an execution

A synchronisation point counts the accesses before it that have not signalled. While its counter is
not 0, no access of the group that hangs from it is ready. When it is 0, one thread walks along the
group, and the accesses it has passed are the ready ones. The two atomic steps of
`kaapi_sched_activate_syncpoint` keep these facts.
-/

namespace Xkblas.Sched.DataFlow

open Library

variable {η V : Type}

/-! ## The threads -/

/-- The thread of `xkblas_sync`, or the one that executes a task. -/
inductive Worker where
  | main
  | task (t : ℕ)
  deriving DecidableEq

/-- The pointer of a thread in the loop of `kaapi_sched_activate_syncpoint`. -/
def Pc.pointer : Pc η → Option (Ref η)
  | .notify a _ => a
  | _ => none

def MainPc.pointer : MainPc η → Option (Ref η)
  | .notify a _ => a
  | _ => none

def State.pointer (s : State η V) : Worker → Option (Ref η)
  | .main => s.main.pointer
  | .task t => (s.pc t).pointer

/-- The thread of the task has not signalled the access yet. -/
def Pc.Pending (a : Ref η) : Pc η → Prop
  | .idle | .running => True
  | .signal rest | .notify _ rest => a ∈ rest
  | .finished => False

/-- The access has not signalled its synchronisation point. -/
def Pending (s : State η V) : Ref η → Prop
  | .access t i => (s.pc t).Pending (.access t i)
  | _ => False

instance [DecidableEq η] (a : Ref η) : DecidablePred (Pc.Pending a)
  | .idle | .running => instDecidableTrue
  | .signal _ | .notify _ _ => inferInstanceAs (Decidable (_ ∈ _))
  | .finished => instDecidableFalse

instance [DecidableEq η] (s : State η V) : DecidablePred (Pending s)
  | .access t i => inferInstanceAs (Decidable ((s.pc t).Pending (.access t i)))
  | .sync0 _ | .sync _ => instDecidableFalse

variable {g g' : Graph η} {s s' : State η V} {h : η} {k t i : ℕ} {a p : Ref η} {w : Worker}

/-! ## The synchronisation points -/

/-- A thread walks along the group `k` of `h`: the accesses before its pointer are ready. -/
def Walks (g : Graph η) (s : State η V) (a : Ref η) (h : η) (k : ℕ) : Prop :=
  s.live h = true ∧ k < g.top h ∧ s.wc (g.point h k) = 0 ∧ ∃ pre suf,
    g.group h k = pre ++ a :: suf ∧ (∀ b ∈ pre, s.ready b = true) ∧
      ∀ b ∈ a :: suf, s.ready b = false

theorem Walks.mem (hw : Walks g s a h k) : a ∈ g.group h k := by
  obtain ⟨_, _, _, pre, suf, heq, _⟩ := hw
  rw [heq]
  exact List.mem_append_right _ List.mem_cons_self

theorem Walks.not_ready (hw : Walks g s a h k) : s.ready a = false := by
  obtain ⟨_, _, _, _, _, _, _, hsuf⟩ := hw
  exact hsuf a List.mem_cons_self

/-- The pointer of the walk is the first access that is not ready. -/
theorem Walks.find? (hw : Walks g s a h k) :
    (g.group h k).find? (fun b => !s.ready b) = some a := by
  obtain ⟨_, _, _, pre, suf, heq, hpre, hsuf⟩ := hw
  have hnone : pre.find? (fun b => !s.ready b) = none := by
    refine List.find?_eq_none.mpr fun b hb => ?_
    rw [hpre b hb]
    simp
  rw [heq, List.find?_append, hnone, Option.none_or, List.find?_cons_of_pos]
  rw [hsuf a List.mem_cons_self]
  rfl

/-- Two threads that walk along one group are at the same access. -/
theorem Walks.unique {b : Ref η} (ha : Walks g s a h k) (hb : Walks g s b h k) : a = b :=
  Option.some.inj (ha.find?.symm.trans hb.find?)

/-- The accesses of different groups are different. -/
theorem Linked.group_inj (hl : Linked g s) {h' : η} {k' : ℕ} (hlive : s.live h = true)
    (hlive' : s.live h' = true) (hk : k < g.top h) (hk' : k' < g.top h') (ha : a ∈ g.group h k)
    (ha' : a ∈ g.group h' k') : h = h' ∧ k = k' := by
  obtain rfl := hl.group_apart hlive hlive' hk hk' ha ha'
  exact ⟨rfl, (hl.chain h hlive).group_unique hk hk' ha ha'⟩

section Points

variable [DecidableEq η]

/-- What the counters of the synchronisation points say. -/
structure Points (g : Graph η) (s : State η V) : Prop where
  count : ∀ h, s.live h = true → ∀ k < g.top h,
    s.wc (g.point h (k + 1)) = ((g.group h k).countP (Pending s ·) : ℤ)
  closed : ∀ h, s.live h = true → ∀ k < g.top h, s.wc (g.point h k) ≠ 0 →
    ∀ a ∈ g.group h k, s.ready a = false
  walk : ∀ w a, s.pointer w = some a → ∃ h k, Walks g s a h k
  alone : ∀ w w' a, s.pointer w = some a → s.pointer w' = some a → w = w'
  opened : ∀ h, s.live h = true → ∀ k < g.top h, s.wc (g.point h k) = 0 →
    ∀ b ∈ g.group h k, s.ready b = false → ∃ w, ∃ a ∈ g.group h k, s.pointer w = some a

/-- A step that changes no counter, no ready access and no pointer of a walk. -/
theorem Points.congr (hp : Points g s) (hwc : s'.wc = s.wc) (hready : s'.ready = s.ready)
    (hlive : s'.live = s.live) (hpointer : ∀ w, s'.pointer w = s.pointer w)
    (hpending : ∀ h, s.live h = true → ∀ a, InGroup g h a → (Pending s' a ↔ Pending s a)) :
    Points g s' := by
  constructor
  case count =>
    intro h hh k hk
    rw [hlive] at hh
    rw [hwc, hp.count h hh k hk]
    congr 1
    exact List.countP_congr fun a ha => by simp [hpending h hh a ⟨k, hk, ha⟩]
  case closed => rw [hlive, hwc, hready]; exact hp.closed
  case walk =>
    intro w a hw
    rw [hpointer] at hw
    unfold Walks
    rw [hlive, hwc, hready]
    exact hp.walk w a hw
  case alone =>
    intro w w' a hw hw'
    rw [hpointer] at hw hw'
    exact hp.alone w w' a hw hw'
  case opened =>
    intro h hh k hk
    rw [hlive] at hh
    rw [hwc, hready]
    intro hzero b hb hb'
    obtain ⟨w, a, ha, hw⟩ := hp.opened h hh k hk hzero b hb hb'
    exact ⟨w, a, ha, (hpointer w).trans hw⟩

/-- The thread `w` passes the access `a`. -/
theorem Points.notify (hp : Points g s) (hl : Linked g s) (hw : s.pointer w = some a)
    (hwc : s'.wc = s.wc) (hlive : s'.live = s.live)
    (hready : s'.ready = Function.update s.ready a true)
    (hpending : ∀ b, Pending s' b ↔ Pending s b)
    (hother : ∀ w', w' ≠ w → s'.pointer w' = s.pointer w') (hnext : s'.pointer w = s.next a) :
    Points g s' := by
  obtain ⟨h, k, hwalk⟩ := hp.walk w a hw
  obtain ⟨hh, hk, hzero, pre, suf, hgroup, hpre, hsuf⟩ := hwalk
  have ha : a ∈ g.group h k := by
    rw [hgroup]
    exact List.mem_append_right _ List.mem_cons_self
  have hpath : IsPath s.next (s.next a) suf none := by
    have hpath := (hl.chain h hh).path k hk
    rw [hgroup] at hpath
    exact (isPath_append_cons.mp hpath).2
  have hnodup : (pre ++ a :: suf).Nodup := hgroup ▸ ((hl.chain h hh).path k hk).nodup
  have hasuf : a ∉ suf := (List.nodup_cons.mp (List.nodup_append.mp hnodup).2.1).1
  have hkept : ∀ b, b ≠ a → s'.ready b = s.ready b := fun b hb => by
    rw [hready, Function.update_of_ne hb]
  have hself : s'.ready a = true := by rw [hready, Function.update_self]
  constructor
  case count =>
    intro h' hh' k' hk'
    rw [hlive] at hh'
    rw [hwc, hp.count h' hh' k' hk']
    congr 1
    exact List.countP_congr fun b _ => by simp [hpending b]
  case closed =>
    intro h' hh' k' hk' hne b hb
    rw [hlive] at hh'
    rw [hwc] at hne
    have hba : b ≠ a := by
      rintro rfl
      obtain ⟨rfl, rfl⟩ := hl.group_inj hh hh' hk hk' ha hb
      exact hne hzero
    rw [hkept b hba]
    exact hp.closed h' hh' k' hk' hne b hb
  case walk =>
    intro w' b hb
    by_cases heq : w' = w
    · rw [heq, hnext, hpath.eq_head?] at hb
      obtain ⟨suf', rfl⟩ := List.head?_eq_some_iff.mp hb
      refine ⟨h, k, hlive ▸ hh, hk, hwc ▸ hzero, pre ++ [a], suf', by rw [hgroup]; simp, ?_, ?_⟩
      · intro c hc
        by_cases hca : c = a
        · rw [hca, hself]
        · rw [hkept c hca]
          refine hpre c ((List.mem_append.mp hc).resolve_right fun hmem => ?_)
          exact hca (List.mem_singleton.mp hmem)
      · intro c hc
        rw [hkept c (ne_of_mem_of_not_mem hc hasuf)]
        exact hsuf c (List.mem_cons_of_mem a hc)
    · rw [hother w' heq] at hb
      obtain ⟨h', k', hwalk'⟩ := hp.walk w' b hb
      have hnot : a ∉ g.group h' k' := by
        intro hmem
        obtain ⟨rfl, rfl⟩ := hl.group_inj hh hwalk'.1 hk hwalk'.2.1 ha hmem
        have hab : a = b := Walks.unique ⟨hh, hk, hzero, pre, suf, hgroup, hpre, hsuf⟩ hwalk'
        exact heq (hp.alone w' w b hb (hab ▸ hw))
      obtain ⟨hh', hk', hzero', pre', suf', hgroup', hpre', hsuf'⟩ := hwalk'
      have hne : ∀ c ∈ g.group h' k', c ≠ a := fun c hc => ne_of_mem_of_not_mem hc hnot
      rw [hgroup'] at hne
      refine ⟨h', k', hlive ▸ hh', hk', hwc ▸ hzero', pre', suf', hgroup', ?_, ?_⟩
      · intro c hc
        rw [hkept c (hne c (List.mem_append_left _ hc))]
        exact hpre' c hc
      · intro c hc
        rw [hkept c (hne c (List.mem_append_right _ hc))]
        exact hsuf' c hc
  case alone =>
    -- the pointer of `w` is now behind `a` in a group in which no other thread walks
    have hbehind : ∀ w' b, w' ≠ w → s'.pointer w = some b → s'.pointer w' ≠ some b := by
      intro w' b hne hb hb'
      rw [hnext, hpath.eq_head?] at hb
      rw [hother w' hne] at hb'
      obtain ⟨h', k', hwalk'⟩ := hp.walk w' b hb'
      have hbg : b ∈ g.group h k := by
        rw [hgroup]
        exact List.mem_append_right _ (List.mem_cons_of_mem a (List.mem_of_head? hb))
      obtain ⟨rfl, rfl⟩ := hl.group_inj hh hwalk'.1 hk hwalk'.2.1 hbg hwalk'.mem
      have hab : a = b := Walks.unique ⟨hh, hk, hzero, pre, suf, hgroup, hpre, hsuf⟩ hwalk'
      exact hasuf (hab ▸ List.mem_of_head? hb)
    intro w₁ w₂ b h₁ h₂
    by_cases heq₁ : w₁ = w
    · by_contra hne
      exact hbehind w₂ b (fun heq => hne (heq₁.trans heq.symm)) (heq₁ ▸ h₁) h₂
    · by_cases heq₂ : w₂ = w
      · exact absurd h₁ (hbehind w₁ b heq₁ (heq₂ ▸ h₂))
      · rw [hother w₁ heq₁] at h₁
        rw [hother w₂ heq₂] at h₂
        exact hp.alone w₁ w₂ b h₁ h₂
  case opened =>
    intro h' hh' k' hk' hzero' b hb hb'
    rw [hlive] at hh'
    rw [hwc] at hzero'
    have hba : b ≠ a := by
      rintro rfl
      rw [hself] at hb'
      cases hb'
    rw [hkept b hba] at hb'
    by_cases hsame : a ∈ g.group h' k'
    · obtain ⟨rfl, rfl⟩ := hl.group_inj hh hh' hk hk' ha hsame
      have hbsuf : b ∈ suf := by
        rw [hgroup] at hb
        rcases List.mem_append.mp hb with hmem | hmem
        · rw [hpre b hmem] at hb'
          cases hb'
        · exact (List.mem_cons.mp hmem).resolve_left hba
      obtain ⟨c, hc⟩ := Option.ne_none_iff_exists'.mp fun hnone =>
        List.ne_nil_of_mem hbsuf (List.head?_eq_none_iff.mp hnone)
      refine ⟨w, c, ?_, hnext.trans (hpath.eq_head?.trans hc)⟩
      rw [hgroup]
      exact List.mem_append_right _ (List.mem_cons_of_mem a (List.mem_of_head? hc))
    · obtain ⟨w', c, hc, hw'⟩ := hp.opened h' hh' k' hk' hzero' b hb hb'
      have hne : w' ≠ w := by
        rintro rfl
        cases hw'.symm.trans hw
        exact hsame hc
      exact ⟨w', c, hc, (hother w' hne).trans hw'⟩

/-- The thread `w` decrements the counter of a point; at 0 it goes to the group behind it. -/
theorem Points.signal (hp : Points g s) (hl : Linked g s) (hh : s.live h = true)
    (hk : k ≤ g.top h) (hpos : 0 < s.wc (g.point h k)) (hw : s.pointer w = none)
    (hwc : s'.wc = Function.update s.wc (g.point h k) (s.wc (g.point h k) - 1))
    (hlive : s'.live = s.live) (hready : s'.ready = s.ready)
    (hcount : ∀ h, s.live h = true → ∀ k < g.top h,
      s'.wc (g.point h (k + 1)) = ((g.group h k).countP (Pending s' ·) : ℤ))
    (hother : ∀ w', w' ≠ w → s'.pointer w' = s.pointer w')
    (hpointer : s'.pointer w =
      if s.wc (g.point h k) - 1 = 0 then s.next (g.point h k) else none) : Points g s' := by
  have hself : s'.wc (g.point h k) = s.wc (g.point h k) - 1 := by
    rw [hwc, Function.update_self]
  have hkept : ∀ h' k', s.live h' = true → k' ≤ g.top h' → ¬ (h = h' ∧ k = k') →
      s'.wc (g.point h' k') = s.wc (g.point h' k') := by
    intro h' k' hh' hk' hne
    rw [hwc, Function.update_of_ne]
    exact fun heq => hne (hl.point_inj hh hh' hk hk' heq.symm)
  -- a pointer of `w` is the first access of the group behind the point
  have hfirst : ∀ a, s'.pointer w = some a → s.wc (g.point h k) - 1 = 0 ∧ k < g.top h ∧
      ∃ suf, g.group h k = a :: suf := by
    intro a ha
    rw [hpointer] at ha
    split at ha
    case isFalse => cases ha
    case isTrue hzero =>
    refine ⟨hzero, ?_⟩
    by_cases htop : k = g.top h
    · rw [htop, (hl.chain h hh).last_next] at ha
      cases ha
    · have hlt : k < g.top h := Nat.lt_of_le_of_ne hk htop
      have hpath := (hl.chain h hh).path k hlt
      rw [hpath.eq_head?] at ha
      exact ⟨hlt, List.head?_eq_some_iff.mp ha⟩
  -- no thread walks behind the point before the step
  have hnobody : ∀ w' a, s.pointer w' = some a → k < g.top h → a ∉ g.group h k := by
    intro w' a hw' hlt hmem
    obtain ⟨h', k', hwalk⟩ := hp.walk w' a hw'
    obtain ⟨rfl, rfl⟩ := hl.group_inj hh hwalk.1 hlt hwalk.2.1 hmem hwalk.mem
    exact Int.ne_of_gt hpos hwalk.2.2.1
  constructor
  case count => rw [hlive]; exact hcount
  case closed =>
    intro h' hh' k' hk' hne b hb
    rw [hlive] at hh'
    rw [hready]
    by_cases hsame : h = h' ∧ k = k'
    · obtain ⟨rfl, rfl⟩ := hsame
      exact hp.closed h hh' k hk' (Int.ne_of_gt hpos) b hb
    · rw [hkept h' k' hh' (Nat.le_of_lt hk') hsame] at hne
      exact hp.closed h' hh' k' hk' hne b hb
  case walk =>
    intro w' a ha
    by_cases heq : w' = w
    · rw [heq] at ha
      obtain ⟨hzero, hlt, suf, hgroup⟩ := hfirst a ha
      refine ⟨h, k, hlive ▸ hh, hlt, hself.trans hzero, [], suf, hgroup, ?_, ?_⟩
      · intro b hb
        cases hb
      · intro b hb
        rw [hready]
        exact hp.closed h hh k hlt (Int.ne_of_gt hpos) b (hgroup ▸ hb)
    · rw [hother w' heq] at ha
      obtain ⟨h', k', hwalk⟩ := hp.walk w' a ha
      have hsame : ¬ (h = h' ∧ k = k') := by
        rintro ⟨rfl, rfl⟩
        exact hnobody w' a ha hwalk.2.1 hwalk.mem
      obtain ⟨hh', hk', hzero, hrest⟩ := hwalk
      refine ⟨h', k', hlive ▸ hh', hk', ?_, hready ▸ hrest⟩
      exact (hkept h' k' hh' (Nat.le_of_lt hk') hsame).trans hzero
  case alone =>
    have hnew : ∀ w' b, w' ≠ w → s'.pointer w = some b → s'.pointer w' ≠ some b := by
      intro w' b hne hb hb'
      obtain ⟨_, hlt, suf, hgroup⟩ := hfirst b hb
      rw [hother w' hne] at hb'
      refine hnobody w' b hb' hlt ?_
      rw [hgroup]
      exact List.mem_cons_self
    intro w₁ w₂ b h₁ h₂
    by_cases heq₁ : w₁ = w
    · by_contra hne
      exact hnew w₂ b (fun heq => hne (heq₁.trans heq.symm)) (heq₁ ▸ h₁) h₂
    · by_cases heq₂ : w₂ = w
      · exact absurd h₁ (hnew w₁ b heq₁ (heq₂ ▸ h₂))
      · rw [hother w₁ heq₁] at h₁
        rw [hother w₂ heq₂] at h₂
        exact hp.alone w₁ w₂ b h₁ h₂
  case opened =>
    intro h' hh' k' hk' hzero b hb hb'
    rw [hlive] at hh'
    rw [hready] at hb'
    by_cases hsame : h = h' ∧ k = k'
    · obtain ⟨rfl, rfl⟩ := hsame
      rw [hself] at hzero
      have hpath := (hl.chain h hh).path k hk'
      obtain ⟨c, hc⟩ := Option.ne_none_iff_exists'.mp fun hnone =>
        List.ne_nil_of_mem hb (List.head?_eq_none_iff.mp hnone)
      refine ⟨w, c, List.mem_of_head? hc, ?_⟩
      rw [hpointer, if_pos hzero, hpath.eq_head?, hc]
    · rw [hkept h' k' hh' (Nat.le_of_lt hk') hsame] at hzero
      obtain ⟨w', c, hc, hw'⟩ := hp.opened h' hh' k' hk' hzero b hb hb'
      have hne : w' ≠ w := by
        rintro rfl
        cases hw'.symm.trans hw
      exact ⟨w', c, hc, (hother w' hne).trans hw'⟩

end Points

end Xkblas.Sched.DataFlow
