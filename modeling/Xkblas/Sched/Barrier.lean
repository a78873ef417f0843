import Mathlib.Algebra.Order.BigOperators.Group.Finset
import Mathlib.Data.Fintype.Card
import Xkblas.Library.TransitionSystem

/-!
# The barrier of a team

`kaapi_team_barrier_wait` has three counters of arrivals, which the calls use in turn. A thread
reads the cycle and increments the counter of the cycle; the last one to arrive clears the counter
of the cycle after the next one and writes the next cycle, for which the others wait.

A thread takes one step of its call at a time, and each step has at most one access to the barrier.
The number of threads is the argument `count` of the calls, without the flag
`KAAPI_BARRIER_FLAG_WAITEXIT`. What a thread executes between its steps does not touch the barrier.
-/

namespace Xkblas.Sched.Barrier

open Library

/-- `KAAPI_BAR_CYCLES`. -/
def barCycles : ℕ :=
  3

/-- Where a thread is: not in a call, before the read of the cycle, before the increment, at the
write of the counter that it clears, at the write of the cycle, or in the loop. -/
inductive Pc where
  | outside
  | start
  | arrive (current_cycle : ℕ)
  | clear (current_cycle : ℕ)
  | advance (current_cycle : ℕ)
  | wait (next_cycle : ℕ)
  deriving DecidableEq, Repr

/-- The fields `cycle` and `count` of `kaapi_barrier_t`, the threads, and for each of them the
numbers of the calls that it has entered and of those that it has returned from. -/
structure State (τ : Type) where
  cycle : ℕ
  count : ℕ → ℕ
  pc : τ → Pc
  entered : τ → ℕ
  returned : τ → ℕ

/-- `next_cycle`. -/
def nextCycle (current_cycle : ℕ) : ℕ :=
  (current_cycle + 1) % barCycles

section Step

variable {τ : Type} [Fintype τ] [DecidableEq τ]

def State.setPc (s : State τ) (t : τ) (pc : Pc) : State τ :=
  { s with pc := Function.update s.pc t pc }

omit [Fintype τ] in
theorem setPc_pc_self (s : State τ) (t : τ) (pc : Pc) : (s.setPc t pc).pc t = pc :=
  Function.update_self _ _ _

omit [Fintype τ] in
theorem setPc_pc_of_ne (s : State τ) {t u : τ} (pc : Pc) (hut : u ≠ t) :
    (s.setPc t pc).pc u = s.pc u :=
  Function.update_of_ne hut _ _

/-- The thread returns from its call. -/
def State.ret (s : State τ) (t : τ) : State τ :=
  { s.setPc t .outside with returned := Function.update s.returned t (s.returned t + 1) }

/-- The next step of a thread. -/
def step (s : State τ) (t : τ) : Option (State τ) :=
  match s.pc t with
  | .outside =>
      some { s.setPc t .start with entered := Function.update s.entered t (s.entered t + 1) }
  | .start => some (s.setPc t (.arrive s.cycle))
  | .arrive current_cycle =>
      let nb_arrived := s.count current_cycle + 1
      let s := { s with count := Function.update s.count current_cycle nb_arrived }
      if nb_arrived = Fintype.card τ then some (s.setPc t (.clear current_cycle))
      else some (s.setPc t (.wait (nextCycle current_cycle)))
  | .clear current_cycle =>
      let cycle_to_clean := nextCycle (nextCycle current_cycle)
      some { s.setPc t (.advance current_cycle) with
        count := Function.update s.count cycle_to_clean 0 }
  | .advance current_cycle => some { s.ret t with cycle := nextCycle current_cycle }
  | .wait next_cycle => if s.cycle = next_cycle then some (s.ret t) else some s

/-- After `kaapi_barrier_init`, with no thread in a call. -/
structure Initial (s : State τ) : Prop where
  cycle : s.cycle = 0
  count : ∀ c, s.count c = 0
  outside : ∀ t, s.pc t = .outside
  entered : ∀ t, s.entered t = 0
  returned : ∀ t, s.returned t = 0

def system : TransitionSystem (State τ) τ where
  initial := Initial
  step := step

end Step

/-! ## The phases -/

section Phases

variable {τ : Type} {s s' : State τ} {P : ℕ} {t u : τ}

/-- The thread has incremented the counter in its call. -/
def Pc.arrived : Pc → Bool
  | .clear _ | .advance _ | .wait _ => true
  | _ => false

/-- The thread is the last one to arrive. -/
def Pc.last : Pc → Bool
  | .clear _ | .advance _ => true
  | _ => false

/-- Where a thread is that has returned from `r` calls, in the phase `P`: a thread that waits has
arrived in this phase, or it has not left the previous one yet. -/
def Pc.InPhase (P r : ℕ) : Pc → Prop
  | .outside | .start => r = P
  | .arrive current_cycle | .clear current_cycle | .advance current_cycle =>
      r = P ∧ current_cycle = P % barCycles
  | .wait next_cycle =>
      r = P ∧ next_cycle = (P + 1) % barCycles ∨ r + 1 = P ∧ next_cycle = P % barCycles

variable [Fintype τ]

/-- The threads that have arrived in the phase `P`. -/
def State.arrivals (s : State τ) (P : ℕ) : Finset τ :=
  Finset.univ.filter fun t => (s.pc t).arrived = true ∧ s.returned t = P

/-- The state in the phase `P`, after `P` writes of the cycle. The counter of the phase has its
arrivals, and the next counter is clear; one thread is the last one when all
have arrived. -/
structure Inv (s : State τ) (P : ℕ) : Prop where
  inPhase : ∀ t, (s.pc t).InPhase P (s.returned t)
  entered : ∀ t, s.entered t = s.returned t + if s.pc t = .outside then 0 else 1
  cycle : s.cycle = P % barCycles
  current : s.count (P % barCycles) = (s.arrivals P).card
  next : s.count ((P + 1) % barCycles) = 0
  all : ∀ t, (s.pc t).last = true → s.arrivals P = Finset.univ
  exists_last : τ → s.arrivals P = Finset.univ → ∃ t, (s.pc t).last = true
  unique : ∀ t u, (s.pc t).last = true → (s.pc u).last = true → t = u
  cleared : ∀ t c, s.pc t = .advance c → s.count ((P + 2) % barCycles) = 0

theorem mem_arrivals : t ∈ s.arrivals P ↔ (s.pc t).arrived = true ∧ s.returned t = P := by
  simp [State.arrivals]

theorem nextCycle_mod : nextCycle (P % barCycles) = (P + 1) % barCycles := by
  unfold nextCycle barCycles
  omega

theorem mod_ne_succ_mod : P % barCycles ≠ (P + 1) % barCycles := by
  unfold barCycles
  omega

theorem Inv.initial (h : Initial s) : Inv s 0 := by
  have hnone : s.arrivals 0 = ∅ := by
    refine Finset.filter_eq_empty_iff.mpr fun t _ => ?_
    rw [h.outside t]
    exact fun harrived => Bool.noConfusion harrived.1
  have hlast : ∀ t, (s.pc t).last ≠ true := by
    intro t
    rw [h.outside t]
    exact Bool.false_ne_true
  constructor
  case inPhase =>
    intro t
    rw [h.outside t]
    exact h.returned t
  case entered =>
    intro t
    rw [h.entered t, h.returned t, if_pos (h.outside t)]
  case cycle => exact h.cycle
  case current =>
    rw [hnone]
    exact h.count _
  case next => exact h.count _
  case all => exact fun t ht => absurd ht (hlast t)
  case exists_last =>
    intro t huniv
    rw [hnone] at huniv
    exact absurd (huniv.symm ▸ Finset.mem_univ t) (Finset.notMem_empty t)
  case unique => exact fun t _ ht => absurd ht (hlast t)
  case cleared =>
    intro t c hpc
    rw [h.outside t] at hpc
    cases hpc

/-- The other threads are where they were. -/
def SameOthers (s s' : State τ) (t : τ) : Prop :=
  ∀ u, u ≠ t → s'.pc u = s.pc u ∧ s'.returned u = s.returned u ∧ s'.entered u = s.entered u

theorem SameOthers.inPhase (hs : SameOthers s s' t) (h : Inv s P)
    (ht : (s'.pc t).InPhase P (s'.returned t)) (u : τ) : (s'.pc u).InPhase P (s'.returned u) := by
  by_cases hut : u = t
  · rwa [hut]
  · obtain ⟨hpc, hret, _⟩ := hs u hut
    rw [hpc, hret]
    exact h.inPhase u

theorem SameOthers.entered (hs : SameOthers s s' t) (h : Inv s P)
    (ht : s'.entered t = s'.returned t + if s'.pc t = .outside then 0 else 1) (u : τ) :
    s'.entered u = s'.returned u + if s'.pc u = .outside then 0 else 1 := by
  by_cases hut : u = t
  · rwa [hut]
  · obtain ⟨hpc, hret, hent⟩ := hs u hut
    rw [hpc, hret, hent]
    exact h.entered u

/-- The arrivals, when the thread that moves was or was not one of them. -/
theorem SameOthers.arrivals (hs : SameOthers s s' t)
    (ht : t ∈ s'.arrivals P ↔ t ∈ s.arrivals P) : s'.arrivals P = s.arrivals P := by
  ext u
  by_cases hut : u = t
  · rwa [hut]
  · obtain ⟨hpc, hret, _⟩ := hs u hut
    rw [mem_arrivals, mem_arrivals, hpc, hret]

/-- A step that neither writes the barrier nor is one of the last thread. -/
theorem Inv.move {pc : Pc} (h : Inv s P) (hs : SameOthers s s' t) (hpc : s'.pc t = pc)
    (hcycle : s'.cycle = s.cycle) (hcount : s'.count = s.count)
    (hphase : pc.InPhase P (s'.returned t))
    (hentered : s'.entered t = s'.returned t + if pc = .outside then 0 else 1)
    (hlast : pc.last = false) (hold : (s.pc t).last = false)
    (harr : pc.arrived = true ∧ s'.returned t = P ↔
      (s.pc t).arrived = true ∧ s.returned t = P) : Inv s' P := by
  have harr : t ∈ s'.arrivals P ↔ t ∈ s.arrivals P := by
    rw [mem_arrivals, mem_arrivals, hpc]
    exact harr
  have hlast' : ∀ u, (s'.pc u).last = true → (s.pc u).last = true := by
    intro u hu
    by_cases hut : u = t
    · rw [hut, hpc, hlast] at hu
      cases hu
    · rwa [← (hs u hut).1]
  constructor
  case inPhase =>
    refine hs.inPhase h ?_
    rwa [hpc]
  case entered =>
    refine hs.entered h ?_
    rwa [hpc]
  case cycle => rw [hcycle, h.cycle]
  case current => rw [hcount, hs.arrivals harr, h.current]
  case next => rw [hcount, h.next]
  case all => exact fun u hu => (hs.arrivals harr).trans (h.all u (hlast' u hu))
  case exists_last =>
    intro u huniv
    obtain ⟨v, hv⟩ := h.exists_last u ((hs.arrivals harr).symm.trans huniv)
    have hvt : v ≠ t := by
      rintro rfl
      rw [hold] at hv
      cases hv
    exact ⟨v, by rwa [(hs v hvt).1]⟩
  case unique => exact fun u v hu hv => h.unique u v (hlast' u hu) (hlast' v hv)
  case cleared =>
    intro u c hu
    by_cases hut : u = t
    · rw [hut, hpc] at hu
      rw [hu] at hlast
      cases hlast
    · rw [hcount]
      exact h.cleared u c ((hs u hut).1.symm.trans hu)

variable [DecidableEq τ]

omit [Fintype τ] in
theorem sameOthers_setPc (s : State τ) (t : τ) (pc : Pc) : SameOthers s (s.setPc t pc) t :=
  fun _ hut => ⟨setPc_pc_of_ne s pc hut, rfl, rfl⟩

/-- A thread enters a call. -/
theorem Inv.enter (h : Inv s P) (hpc : s.pc t = .outside) :
    Inv { s.setPc t .start with entered := Function.update s.entered t (s.entered t + 1) } P := by
  have hret := h.inPhase t
  have hent := h.entered t
  rw [hpc] at hret hent
  refine h.move (fun u hut => ?_) (setPc_pc_self s t _) rfl rfl hret ?_ rfl ?_ ?_
  · exact ⟨setPc_pc_of_ne s _ hut, rfl, Function.update_of_ne hut _ _⟩
  · show Function.update s.entered t (s.entered t + 1) t = s.returned t + 1
    rw [Function.update_self, hent]
    rfl
  · rw [hpc]
    rfl
  · rw [hpc]
    rfl

/-- A thread reads the cycle. -/
theorem Inv.readCycle (h : Inv s P) (hpc : s.pc t = .start) :
    Inv (s.setPc t (.arrive s.cycle)) P := by
  have hret := h.inPhase t
  have hent := h.entered t
  rw [hpc] at hret hent
  refine h.move (sameOthers_setPc s t _) (setPc_pc_self s t _) rfl rfl ⟨hret, h.cycle⟩ hent rfl
    ?_ ?_
  · rw [hpc]
    rfl
  · rw [hpc]
    rfl

/-- A thread finds the next cycle, and returns. It arrived in the phase before. -/
theorem Inv.leave {c : ℕ} (h : Inv s P) (hpc : s.pc t = .wait c) (hcycle : s.cycle = c) :
    Inv (s.ret t) P := by
  have hret := h.inPhase t
  have hent := h.entered t
  rw [hpc] at hret hent
  have hret : s.returned t + 1 = P := by
    rcases hret with ⟨_, hnext⟩ | ⟨hret, _⟩
    · exact absurd (h.cycle.symm.trans (hcycle.trans hnext)) mod_ne_succ_mod
    · exact hret
  have hself : (s.ret t).returned t = s.returned t + 1 := Function.update_self _ _ _
  refine h.move (fun u hut => ?_) (setPc_pc_self s t _) rfl rfl (hself.trans hret) ?_ rfl ?_ ?_
  · exact ⟨setPc_pc_of_ne s _ hut, Function.update_of_ne hut _ _, rfl⟩
  · rw [hself]
    exact hent
  · rw [hpc]
    rfl
  · rw [hpc]
    exact ⟨fun hout => Bool.noConfusion hout.1, fun hin => absurd hin.2 (by omega)⟩

/-- A thread increments the counter of the phase. It is the last one when the counter then has the
number of the threads. -/
theorem Inv.arrive {c : ℕ} (h : Inv s P) (hpc : s.pc t = .arrive c) {pc : Pc}
    (hphase : pc.InPhase P (s.returned t)) (harr : pc.arrived = true)
    (hadvance : ∀ c, pc ≠ .advance c)
    (hlast : pc.last = true ↔ s.count c + 1 = Fintype.card τ) :
    Inv { s.setPc t pc with count := Function.update s.count c (s.count c + 1) } P := by
  let s' : State τ := { s.setPc t pc with count := Function.update s.count c (s.count c + 1) }
  have hs : SameOthers s s' t := sameOthers_setPc s t pc
  have hself : s'.pc t = pc := setPc_pc_self s t pc
  have hret := h.inPhase t
  have hent := h.entered t
  rw [hpc] at hret hent
  obtain ⟨hret, rfl⟩ := hret
  have hnotMem : t ∉ s.arrivals P := by
    rw [mem_arrivals, hpc]
    exact fun harrived => Bool.noConfusion harrived.1
  have hinsert : s'.arrivals P = insert t (s.arrivals P) := by
    ext u
    rw [Finset.mem_insert]
    by_cases hut : u = t
    · rw [hut, mem_arrivals, hself]
      exact ⟨fun _ => .inl rfl, fun _ => ⟨harr, hret⟩⟩
    · rw [mem_arrivals, mem_arrivals, (hs u hut).1]
      exact ⟨.inr, fun hor => hor.resolve_left hut⟩
  have hcard : (s'.arrivals P).card = s.count (P % barCycles) + 1 := by
    rw [hinsert, Finset.card_insert_of_notMem hnotMem, h.current]
  -- no thread was the last one, since `t` had not arrived
  have hnone : ∀ u, (s.pc u).last ≠ true := by
    intro u hu
    rw [h.all u hu] at hnotMem
    exact hnotMem (Finset.mem_univ t)
  have honly : ∀ u, (s'.pc u).last = true → u = t := by
    intro u hu
    by_contra hut
    rw [(hs u hut).1] at hu
    exact hnone u hu
  constructor
  case inPhase =>
    refine hs.inPhase h ?_
    rwa [hself]
  case entered =>
    refine hs.entered h ?_
    rw [hself, if_neg (by rintro rfl; cases harr)]
    exact hent
  case cycle => exact h.cycle
  case current => exact (Function.update_self _ _ _).trans hcard.symm
  case next => exact (Function.update_of_ne mod_ne_succ_mod.symm _ _).trans h.next
  case all =>
    intro u hu
    obtain rfl := honly u hu
    rw [hself] at hu
    exact Finset.eq_univ_of_card _ (hcard.trans (hlast.mp hu))
  case exists_last =>
    intro _ huniv
    refine ⟨t, ?_⟩
    rw [hself, hlast, ← hcard, huniv, Finset.card_univ]
  case unique => exact fun u v hu hv => (honly u hu).trans (honly v hv).symm
  case cleared =>
    intro u c hu
    have hadv : (s'.pc u).last = true := by rw [hu]; rfl
    rw [honly u hadv, hself] at hu
    exact absurd hu (hadvance c)

/-- The last thread clears the counter of the cycle after the next one. -/
theorem Inv.clear {c : ℕ} (h : Inv s P) (hpc : s.pc t = .clear c) :
    Inv { s.setPc t (.advance c) with
      count := Function.update s.count (nextCycle (nextCycle c)) 0 } P := by
  let s' : State τ := { s.setPc t (.advance c) with
    count := Function.update s.count (nextCycle (nextCycle c)) 0 }
  have hs : SameOthers s s' t := sameOthers_setPc s t _
  have hself : s'.pc t = .advance c := setPc_pc_self s t _
  have hret := h.inPhase t
  have hent := h.entered t
  rw [hpc] at hret hent
  obtain ⟨hret, rfl⟩ := hret
  have harr : s'.arrivals P = s.arrivals P := by
    refine hs.arrivals ?_
    rw [mem_arrivals, mem_arrivals, hself, hpc]
    rfl
  have hlast : ∀ u, (s'.pc u).last = true → (s.pc u).last = true := by
    intro u hu
    by_cases hut : u = t
    · rw [hut, hpc]
      rfl
    · rwa [← (hs u hut).1]
  have hclean : nextCycle (nextCycle (P % barCycles)) = (P + 2) % barCycles := by
    rw [nextCycle_mod, nextCycle_mod]
  have hcount : ∀ c, c ≠ (P + 2) % barCycles → s'.count c = s.count c := by
    intro c hc
    exact Function.update_of_ne (by rwa [hclean]) _ _
  constructor
  case inPhase =>
    refine hs.inPhase h ?_
    rw [hself]
    exact ⟨hret, rfl⟩
  case entered =>
    refine hs.entered h ?_
    rw [hself]
    exact hent
  case cycle => exact h.cycle
  case current =>
    rw [hcount _ (by unfold barCycles; omega), harr, h.current]
  case next => exact (hcount _ (by unfold barCycles; omega)).trans h.next
  case all => exact fun u hu => harr.trans (h.all u (hlast u hu))
  case exists_last =>
    intro _ _
    refine ⟨t, ?_⟩
    rw [hself]
    rfl
  case unique => exact fun u v hu hv => h.unique u v (hlast u hu) (hlast v hv)
  case cleared =>
    intro _ _ _
    show Function.update s.count _ 0 _ = 0
    rw [hclean, Function.update_self]

/-- The last thread writes the next cycle, and a phase begins. -/
theorem Inv.advance {c : ℕ} (h : Inv s P) (hpc : s.pc t = .advance c) :
    Inv { s.ret t with cycle := nextCycle c } (P + 1) := by
  let s' : State τ := { s.ret t with cycle := nextCycle c }
  have hself : s'.pc t = .outside := setPc_pc_self s t _
  have hret : s'.returned t = s.returned t + 1 := Function.update_self _ _ _
  have hlast : (s.pc t).last = true := by rw [hpc]; rfl
  have hphase := h.inPhase t
  have hent := h.entered t
  rw [hpc] at hphase hent
  obtain ⟨hphase, rfl⟩ := hphase
  -- the other threads wait for this cycle
  have hothers : ∀ u, u ≠ t → s'.pc u = s.pc u ∧ s'.returned u = P ∧
      s.pc u = .wait ((P + 1) % barCycles) := by
    intro u hut
    have hu := mem_arrivals.mp ((h.all t hlast).symm ▸ Finset.mem_univ u)
    have hin := h.inPhase u
    refine ⟨setPc_pc_of_ne s _ hut, (Function.update_of_ne hut _ _).trans hu.2, ?_⟩
    cases hpcu : s.pc u with
    | outside | start | arrive => rw [hpcu] at hu; cases hu.1
    | clear c | advance c => exact absurd (h.unique u t (by rw [hpcu]; rfl) hlast) hut
    | wait c =>
        rw [hpcu] at hin
        rcases hin with ⟨_, rfl⟩ | ⟨hr, _⟩
        · rfl
        · exact absurd hu.2 (by omega)
  have hnone : s'.arrivals (P + 1) = ∅ := by
    refine Finset.filter_eq_empty_iff.mpr fun u _ hu => ?_
    by_cases hut : u = t
    · rw [hut, hself] at hu
      cases hu.1
    · have hr := (hothers u hut).2.1
      omega
  have hnolast : ∀ u, (s'.pc u).last ≠ true := by
    intro u hu
    by_cases hut : u = t
    · rw [hut, hself] at hu
      cases hu
    · obtain ⟨hpcu, _, hwait⟩ := hothers u hut
      rw [hpcu, hwait] at hu
      cases hu
  constructor
  case inPhase =>
    intro u
    by_cases hut : u = t
    · rw [hut, hself, hret]
      exact congrArg (· + 1) hphase
    · obtain ⟨hpcu, hr, hwait⟩ := hothers u hut
      rw [hpcu, hwait]
      exact .inr ⟨congrArg (· + 1) hr, rfl⟩
  case entered =>
    intro u
    by_cases hut : u = t
    · rw [hut, hself, hret]
      exact hent
    · obtain ⟨hpcu, hr, _⟩ := hothers u hut
      rw [hpcu, show s'.returned u = s.returned u from Function.update_of_ne hut _ _]
      exact h.entered u
  case cycle => exact nextCycle_mod
  case current =>
    rw [hnone]
    exact h.next
  case next => exact h.cleared t _ hpc
  case all => exact fun u hu => absurd hu (hnolast u)
  case exists_last =>
    intro u huniv
    rw [hnone] at huniv
    exact absurd (huniv.symm ▸ Finset.mem_univ u) (Finset.notMem_empty u)
  case unique => exact fun u _ hu => absurd hu (hnolast u)
  case cleared =>
    intro u c hu
    exact absurd (by rw [hu]; rfl) (hnolast u)

/-- A step of a thread keeps the phase, or begins the next one. -/
theorem Inv.step (h : Inv s P) (hstep : step s t = some s') : ∃ P', Inv s' P' := by
  unfold Barrier.step at hstep
  split at hstep
  case h_1 hpc => exact ⟨P, Option.some.inj hstep ▸ h.enter hpc⟩
  case h_2 hpc => exact ⟨P, Option.some.inj hstep ▸ h.readCycle hpc⟩
  case h_3 c hpc =>
    have hphase := h.inPhase t
    rw [hpc] at hphase
    dsimp only at hstep
    split at hstep
    case isTrue hcard =>
      refine ⟨P, Option.some.inj hstep ▸ h.arrive hpc hphase rfl (fun _ => Pc.noConfusion) ?_⟩
      exact iff_of_true rfl hcard
    case isFalse hcard =>
      refine ⟨P, Option.some.inj hstep ▸ h.arrive hpc (.inl ⟨hphase.1, ?_⟩) rfl
        (fun _ => Pc.noConfusion) (iff_of_false Bool.false_ne_true hcard)⟩
      rw [hphase.2, nextCycle_mod]
  case h_4 c hpc => exact ⟨P, Option.some.inj hstep ▸ h.clear hpc⟩
  case h_5 c hpc => exact ⟨P + 1, Option.some.inj hstep ▸ h.advance hpc⟩
  case h_6 c hpc =>
    split at hstep
    case isTrue hcycle => exact ⟨P, Option.some.inj hstep ▸ h.leave hpc hcycle⟩
    case isFalse => exact ⟨P, Option.some.inj hstep ▸ h⟩

theorem exists_inv {s : State τ} (hs : system.Reachable s) : ∃ P, Inv s P := by
  induction hs with
  | start hinit => exact ⟨0, .initial hinit⟩
  | next _ _ hstep ih =>
      obtain ⟨P, h⟩ := ih
      exact h.step hstep

end Phases

/-! ## The calls -/

section Calls

variable {τ : Type} [Fintype τ] {s s' : State τ} {P k : ℕ} {t : τ}

/-- The number of calls that a thread has entered is not less than that of the phases, and the
number of those it has returned from is not greater. -/
theorem Inv.returned_le (h : Inv s P) (t : τ) : s.returned t ≤ P ∧ P ≤ s.entered t := by
  have hphase := h.inPhase t
  have hent := h.entered t
  cases hpc : s.pc t with
  | outside | start =>
      rw [hpc] at hphase hent
      have hphase : s.returned t = P := hphase
      omega
  | arrive c | clear c | advance c =>
      rw [hpc] at hphase hent
      have hphase : s.returned t = P := hphase.1
      omega
  | wait c =>
      rw [hpc, if_neg Pc.noConfusion] at hent
      rw [hpc] at hphase
      rcases hphase with ⟨hr, _⟩ | ⟨hr, _⟩ <;> omega

/-- A thread that waits finds the cycle that it waits for, once another one has returned. -/
theorem Inv.cycle_of_wait {c : ℕ} (h : Inv s P) (hpc : s.pc t = .wait c) {u : τ}
    (hu : s.returned t < s.returned u) : s.cycle = c := by
  have hphase := h.inPhase t
  have hle := (h.returned_le u).1
  rw [hpc] at hphase
  rcases hphase with ⟨hr, _⟩ | ⟨_, rfl⟩
  · omega
  · exact h.cycle

/-- The number of steps that are left of a call. -/
def Pc.left : Pc → ℕ
  | .outside => 0
  | .start => 5
  | .arrive _ => 4
  | .clear _ => 3
  | .advance _ => 2
  | .wait _ => 1

/-- The same for the calls up to the one of number `k`. -/
def State.leftOf (s : State τ) (k : ℕ) (t : τ) : ℕ :=
  if k ≤ s.returned t then 0 else (s.pc t).left

theorem SameOthers.leftOf_sum_lt (hs : SameOthers s s' t) (hlt : s'.leftOf k t < s.leftOf k t) :
    ∑ u, s'.leftOf k u < ∑ u, s.leftOf k u := by
  refine Finset.sum_lt_sum (fun u _ => ?_) ⟨t, Finset.mem_univ t, hlt⟩
  by_cases hut : u = t
  · exact hut ▸ hlt.le
  · obtain ⟨hpc, hret, _⟩ := hs u hut
    unfold State.leftOf
    rw [hpc, hret]

/-- The next step of a thread in its call of number `k`, unless it waits for another cycle. -/
theorem exists_step_lt [DecidableEq τ] (hk : s.returned t + 1 = k) (hpc : s.pc t ≠ .outside)
    (hwait : ∀ c, s.pc t = .wait c → s.cycle = c) :
    ∃ s', step s t = some s' ∧ SameOthers s s' t ∧ s'.entered = s.entered ∧
      s'.leftOf k t < s.leftOf k t := by
  have hold : s.leftOf k t = (s.pc t).left := if_neg (by omega)
  have hset : ∀ pc, (s.setPc t pc).leftOf k t = pc.left := by
    intro pc
    have hnot : ¬ k ≤ (s.setPc t pc).returned t := by
      show ¬ k ≤ s.returned t
      omega
    unfold State.leftOf
    rw [if_neg hnot, setPc_pc_self]
  have hret : (s.ret t).leftOf k t = 0 := by
    refine if_pos ?_
    show k ≤ Function.update s.returned t _ t
    rw [Function.update_self, hk]
  have hsame : SameOthers s (s.ret t) t := fun u hut =>
    ⟨setPc_pc_of_ne s _ hut, Function.update_of_ne hut _ _, rfl⟩
  unfold Barrier.step
  rw [hold]
  cases h : s.pc t with
  | outside => exact absurd h hpc
  | start =>
      refine ⟨_, rfl, sameOthers_setPc s t _, rfl, ?_⟩
      exact (hset (.arrive s.cycle)).trans_lt (Nat.lt_succ_self 4)
  | arrive c =>
      dsimp only
      split
      · refine ⟨_, rfl, sameOthers_setPc s t (.clear c), rfl, ?_⟩
        exact (hset (.clear c)).trans_lt (Nat.lt_succ_self 3)
      · refine ⟨_, rfl, sameOthers_setPc s t (.wait (nextCycle c)), rfl, ?_⟩
        exact (hset (.wait (nextCycle c))).trans_lt (Nat.succ_lt_succ (Nat.succ_pos 2))
  | clear c =>
      refine ⟨_, rfl, sameOthers_setPc s t (.advance c), rfl, ?_⟩
      exact (hset (.advance c)).trans_lt (Nat.lt_succ_self 2)
  | advance c =>
      refine ⟨_, rfl, hsame, rfl, ?_⟩
      exact hret.trans_lt (Nat.succ_pos _)
  | wait c =>
      dsimp only
      rw [if_pos (hwait c h)]
      refine ⟨_, rfl, hsame, rfl, ?_⟩
      exact hret.trans_lt (Nat.succ_pos _)

/-- When all threads have entered their call of number `k`, one that has not returned from it can
take its next step: if they all wait, the last one has written the cycle. -/
theorem Inv.exists_progress (h : Inv s P) (hk : ∀ u, k ≤ s.entered u) (ht : s.returned t < k) :
    ∃ u, s.returned u + 1 = k ∧ s.pc u ≠ .outside ∧
      ∀ c, s.pc u = .wait c → s.cycle = c := by
  have hin : ∀ u, s.returned u < k → s.returned u + 1 = k ∧ s.pc u ≠ .outside := by
    intro u hu
    have hent := h.entered u
    have hku := hk u
    split at hent
    · omega
    · exact ⟨by omega, ‹_›⟩
  obtain ⟨hrt, hpct⟩ := hin t ht
  by_cases hgo : ∃ u, s.returned u < k ∧ ∀ c, s.pc u ≠ .wait c
  · obtain ⟨u, hu, hnowait⟩ := hgo
    obtain ⟨hr, hpcu⟩ := hin u hu
    exact ⟨u, hr, hpcu, fun c hc => absurd hc (hnowait c)⟩
  · have hallwait : ∀ u, s.returned u < k → ∃ c, s.pc u = .wait c := by
      intro u hu
      by_contra hno
      exact hgo ⟨u, hu, fun c hc => hno ⟨c, hc⟩⟩
    refine ⟨t, hrt, hpct, fun c hc => ?_⟩
    have hphase := h.inPhase t
    rw [hc] at hphase
    rcases hphase with ⟨hr, _⟩ | ⟨_, rfl⟩
    · -- all have arrived in the phase, and none of them is the last one
      have hall : s.arrivals P = Finset.univ := by
        refine Finset.eq_univ_of_forall fun u => ?_
        have hle := (h.returned_le u).1
        obtain ⟨c', hc'⟩ := hallwait u (by omega)
        have hru := (hin u (by omega)).1
        rw [mem_arrivals, hc']
        exact ⟨rfl, by omega⟩
      obtain ⟨u, hu⟩ := h.exists_last t hall
      have hle := (h.returned_le u).1
      obtain ⟨c', hc'⟩ := hallwait u (by omega)
      rw [hc'] at hu
      cases hu
    · exact h.cycle

/-- What the barrier guarantees in a state: no thread has returned from a call that another one has
not entered; a thread that waits while another one has returned from the same call finds the cycle
that it waits for; and when all have entered their call of number `k`, the steps of those that are
still in it lead out of it. -/
structure BarrierSound [DecidableEq τ] (s : State τ) : Prop where
  returned_le : ∀ t u, s.returned t ≤ s.entered u
  cycle_kept : ∀ t u c, s.pc t = .wait c → s.returned t < s.returned u → s.cycle = c
  all_leave : ∀ k, (∀ t, k ≤ s.entered t) →
    ∃ s', system.LeadsTo (fun s t => s.returned t < k) s s' ∧ ∀ t, k ≤ s'.returned t

/-- In every state that any number of threads reach, in any order of their steps, the barrier does
what it is for. -/
theorem barrier_sound [DecidableEq τ] {s : State τ} (h : system.Reachable s) : BarrierSound s := by
  obtain ⟨P, hinv⟩ := exists_inv h
  constructor
  case returned_le =>
    intro t u
    exact (hinv.returned_le t).1.trans (hinv.returned_le u).2
  case cycle_kept => exact fun t u c hpc hlt => hinv.cycle_of_wait hpc hlt
  case all_leave =>
    intro k hk
    have hstart : (∃ P, Inv s P) ∧ ∀ t, k ≤ s.entered t := ⟨⟨P, hinv⟩, hk⟩
    have hlead : ∃ s', system.LeadsTo (fun s t => s.returned t < k) s s' ∧
        ((∃ P, Inv s' P) ∧ ∀ t, k ≤ s'.entered t) ∧ ∀ t, k ≤ s'.returned t := by
      refine TransitionSystem.exists_leadsTo_of_measure (fun s => ∑ t, s.leftOf k t) ?_ hstart
      rintro s ⟨⟨P, hinv⟩, hk⟩ hgoal
      obtain ⟨t, ht⟩ := not_forall.mp hgoal
      obtain ⟨u, hu, hpc, hwait⟩ := hinv.exists_progress hk (Nat.lt_of_not_le ht)
      obtain ⟨s', hstep, hsame, hent, hlt⟩ := exists_step_lt hu hpc hwait
      refine ⟨s', .single (show s.returned u < k by omega) hstep, ⟨hinv.step hstep, ?_⟩,
        hsame.leftOf_sum_lt hlt⟩
      rw [hent]
      exact hk
    obtain ⟨s', hsteps, _, hgoal⟩ := hlead
    exact ⟨s', hsteps, hgoal⟩

/-- The barrier after `kaapi_barrier_init`. -/
def init (τ : Type) : State τ :=
  ⟨0, fun _ => 0, fun _ => .outside, fun _ => 0, fun _ => 0⟩

/-- A thread is in its second call while another one has not left the first one. -/
theorem barrier_sound_twoThreads :
    BarrierSound
      ((system.run (init (Fin 2)) [0, 0, 0, 0, 1, 1, 1, 1, 1, 1, 1, 1]).get (by decide)) :=
  barrier_sound ((TransitionSystem.ReachableWhen.start
    (⟨rfl, fun _ => rfl, fun _ => rfl, fun _ => rfl, fun _ => rfl⟩ : Initial (init (Fin 2)))).replay
      (Option.some_get _).symm)

end Calls

end Xkblas.Sched.Barrier
