import Xkblas.Offload.Wakeup

/-!
# No lost wake-up

The main theorem, `no_lost_wakeup`, says that no wake-up is lost in the runs where no
producer tests `issleeping` while the device is between its own test for that work and its
announcement. The invariant `Inv` carries it: a device committed to sleep without a further
test for some work that is present has a producer that has still to test the flag for it.
`lost_wakeup_reachable` is a run outside the condition that loses a wake-up.
-/

namespace Xkblas.Offload.Wakeup

open Library

variable {n : Nat}

/-! ## The invariant -/

/-- The program points of a producer that hold the lock of the device. -/
def ProducerPc.holdsLock : ProducerPc → Bool
  | .postLocked _ | .replyLocked | .testSleeping _ | .signal _ | .wakeupUnlock _ => true
  | _ => false

/-- The producer has published work of kind `k` and has still to test `issleeping` for it, or
to signal the device that it found asleep. -/
def ProducerPc.due (k : Work) : ProducerPc → Prop
  | .wakeupLock w | .testSleeping w | .signal w => w.work = some k
  | _ => False

/-- The caller of `kaapi_offload_device_stop` has passed its own wake-up. -/
def ProducerPc.stopSignalled : ProducerPc → Prop
  | .wakeupUnlock w => w = .stop
  | .stopWaiting => True
  | _ => False

/-- The device goes to sleep, or sleeps, without a further test for work of kind `k`. -/
def State.committed (s : State n) (k : Work) : Prop :=
  s.pc.unannounced k ∨ s.issleeping = true

/-- The invariant of the timely runs. -/
structure Inv (s : State n) : Prop where
  deviceLock : s.pc = .announce ∨ s.pc = .testSleeping → s.lock = some .device
  producerLock : ∀ p, (s.producers p).holdsLock = true → s.lock = some (.producer p)
  sleeping : s.issleeping = true → s.pc = .testSleeping ∨ s.pc = .blocked ∨ s.pc = .woken
  blocked : s.pc = .blocked → s.issleeping = true
  signalling : ∀ p w, s.producers p = .signal w → s.issleeping = true
  counts : s.pc ≠ .resetCounts → s.pushCount = s.popCount + s.queue
  resetting : s.pc = .resetCounts → s.popCount = 0
  asked : ∀ p, (s.producers p).due .stop → s.stopAsked = true
  stopped : ∀ p, (s.producers p).stopSignalled → s.stopAsked = true ∧ ¬ s.committed .stop
  due : ∀ k, s.present k → s.committed k → ∃ p, (s.producers p).due k

theorem inv_initial : Inv (initial : State n) := by
  constructor
  case due =>
    intro k hk
    cases k <;> simp [initial, State.present, DeviceOp.pending] at hk
  all_goals
    simp [initial, ProducerPc.holdsLock, ProducerPc.stopSignalled, ProducerPc.due,
      State.committed, DevicePc.unannounced, DevicePc.position]

/-- While the device is in the body of the idle loop it is committed to no sleep. -/
theorem not_committed_of_working {s : State n} (h : Inv s) (hpc : s.pc = .working) (k : Work) :
    ¬ s.committed k := by
  intro hk
  rcases hk with hk | hk
  · simp [hpc, DevicePc.unannounced, DevicePc.position] at hk
  · simpa [hpc] using h.sleeping hk

/-- A step that leaves the program points, the lock and the flag alone keeps the invariant if
new work is either harmless or announced by a producer. -/
theorem Inv.frame {s t : State n} (h : Inv s) (hpc : t.pc = s.pc) (hlock : t.lock = s.lock)
    (hsleep : t.issleeping = s.issleeping) (hproducers : t.producers = s.producers)
    (hstop : s.stopAsked = true → t.stopAsked = true)
    (hcounts : s.pc ≠ .resetCounts → t.pushCount = t.popCount + t.queue)
    (hreset : s.pc = .resetCounts → t.popCount = 0)
    (hpresent : ∀ k, t.present k →
      s.present k ∨ ¬ s.committed k ∨ ∃ p, (s.producers p).due k) : Inv t := by
  have hcommitted : ∀ k, t.committed k ↔ s.committed k := by
    intro k
    simp only [State.committed, hpc, hsleep]
  constructor
  case deviceLock => simpa only [hpc, hlock] using h.deviceLock
  case producerLock => simpa only [hproducers, hlock] using h.producerLock
  case sleeping => simpa only [hpc, hsleep] using h.sleeping
  case blocked => simpa only [hpc, hsleep] using h.blocked
  case signalling => simpa only [hproducers, hsleep] using h.signalling
  case counts => simpa only [hpc] using hcounts
  case resetting => simpa only [hpc] using hreset
  case asked =>
    intro p hp
    rw [hproducers] at hp
    exact hstop (h.asked p hp)
  case stopped =>
    intro p hp
    rw [hproducers] at hp
    obtain ⟨hasked, hnot⟩ := h.stopped p hp
    exact ⟨hstop hasked, by rwa [hcommitted]⟩
  case due =>
    intro k hk hc
    rw [hcommitted] at hc
    rw [hproducers]
    rcases hpresent k hk with hs | hs | hs
    · exact h.due k hs hc
    · exact absurd hc hs
    · exact hs

/-- The device moves between program points outside the sleep. -/
theorem Inv.setPc {s : State n} (h : Inv s) (q : DevicePc) (hawake : s.issleeping = false)
    (hreset : s.pc ≠ .resetCounts)
    (hq : q ≠ .testSleeping ∧ q ≠ .blocked ∧ q ≠ .resetCounts)
    (hlock : q = .announce → s.lock = some .device)
    (hpassed : ∀ k, q.unannounced k → s.pc.unannounced k ∨ ¬ s.present k) :
    Inv { s with pc := q } := by
  obtain ⟨htest, hblocked, hcounts⟩ := hq
  constructor
  case deviceLock =>
    rintro (hpc | hpc)
    · exact hlock hpc
    · exact absurd hpc htest
  case producerLock => exact h.producerLock
  case sleeping => intro hs; simp [hawake] at hs
  case blocked => intro hpc; exact absurd hpc hblocked
  case signalling => exact h.signalling
  case counts => intro _; exact h.counts hreset
  case resetting => intro hpc; exact absurd hpc hcounts
  case asked => exact h.asked
  case stopped =>
    intro p hp
    obtain ⟨hasked, hnot⟩ := h.stopped p hp
    refine ⟨hasked, ?_⟩
    rintro (hu | hs)
    · rcases hpassed .stop hu with hold | habsent
      · exact hnot (.inl hold)
      · exact habsent hasked
    · simp [hawake] at hs
  case due =>
    intro k hk hc
    rcases hc with hu | hs
    · rcases hpassed k hu with hold | habsent
      · exact h.due k hk (.inl hold)
      · exact absurd hk habsent
    · simp [hawake] at hs

/-- A producer moves. -/
theorem Inv.setProducer {s : State n} (h : Inv s) (p : Fin n) (pc : ProducerPc)
    (hlock : pc.holdsLock = true → s.lock = some (.producer p))
    (hsignal : ∀ w, pc = .signal w → s.issleeping = true)
    (hasked : pc.due .stop → s.stopAsked = true)
    (hstopped : pc.stopSignalled → s.stopAsked = true ∧ ¬ s.committed .stop)
    (hdue : ∀ k, s.present k → s.committed k → (s.producers p).due k → pc.due k) :
    Inv (s.setProducer p pc) := by
  constructor
  case deviceLock => exact h.deviceLock
  case sleeping => exact h.sleeping
  case blocked => exact h.blocked
  case counts => exact h.counts
  case resetting => exact h.resetting
  case producerLock =>
    exact (Function.forall_update_iff s.producers fun r pc =>
      pc.holdsLock = true → s.lock = some (.producer r)).mpr ⟨hlock, fun r _ => h.producerLock r⟩
  case signalling =>
    exact (Function.forall_update_iff s.producers fun _ pc =>
      ∀ w, pc = .signal w → s.issleeping = true).mpr ⟨hsignal, fun r _ => h.signalling r⟩
  case asked =>
    exact (Function.forall_update_iff s.producers fun _ pc =>
      pc.due .stop → s.stopAsked = true).mpr ⟨hasked, fun r _ => h.asked r⟩
  case stopped =>
    exact (Function.forall_update_iff s.producers fun _ pc =>
      pc.stopSignalled → s.stopAsked = true ∧ ¬ s.committed .stop).mpr
        ⟨hstopped, fun r _ => h.stopped r⟩
  case due =>
    intro k hk hc
    obtain ⟨r, hr⟩ := h.due k hk hc
    by_cases hrp : r = p
    · subst hrp
      exact ⟨r, by simpa [State.setProducer] using hdue k hk hc hr⟩
    · exact ⟨r, by simpa [State.setProducer, hrp] using hr⟩

/-- A producer publishes work and moves to a point where it has still to test `issleeping`
for it. -/
theorem Inv.publish {s t : State n} (h : Inv s) (p : Fin n) (pc : ProducerPc)
    (hpc : t.pc = s.pc) (hlock : t.lock = s.lock) (hsleep : t.issleeping = s.issleeping)
    (hproducers : t.producers = Function.update s.producers p pc)
    (hcounts : s.pc ≠ .resetCounts → t.pushCount = t.popCount + t.queue)
    (hreset : t.popCount = s.popCount)
    (hstop : s.stopAsked = true ∨ pc.due .stop → t.stopAsked = true)
    (hpresent : ∀ k, t.present k → s.present k ∨ pc.due k)
    (hold : ∀ k, ¬ (s.producers p).due k)
    (hholds : pc.holdsLock = true → s.lock = some (.producer p))
    (hsignal : ∀ w, pc ≠ .signal w) (hstopped : ¬ pc.stopSignalled) : Inv t := by
  have hcommitted : ∀ k, t.committed k ↔ s.committed k := by
    intro k
    simp only [State.committed, hpc, hsleep]
  have hself : t.producers p = pc := by simp [hproducers]
  have hother : ∀ r, r ≠ p → t.producers r = s.producers r := by
    intro r hr
    simp [hproducers, hr]
  constructor
  case deviceLock => simpa only [hpc, hlock] using h.deviceLock
  case producerLock =>
    intro r hr
    rw [hlock]
    by_cases hrp : r = p
    · subst hrp
      exact hholds (by rwa [hself] at hr)
    · exact h.producerLock r (by rwa [hother r hrp] at hr)
  case sleeping => simpa only [hpc, hsleep] using h.sleeping
  case blocked => simpa only [hpc, hsleep] using h.blocked
  case signalling =>
    intro r w hr
    rw [hsleep]
    by_cases hrp : r = p
    · subst hrp
      exact absurd (hself.symm.trans hr) (hsignal w)
    · exact h.signalling r w (by rwa [hother r hrp] at hr)
  case counts => simpa only [hpc] using hcounts
  case resetting => simpa only [hpc, hreset] using h.resetting
  case asked =>
    intro r hr
    by_cases hrp : r = p
    · subst hrp
      exact hstop (.inr (by rwa [hself] at hr))
    · exact hstop (.inl (h.asked r (by rwa [hother r hrp] at hr)))
  case stopped =>
    intro r hr
    rw [hcommitted]
    by_cases hrp : r = p
    · subst hrp
      exact absurd (by rwa [hself] at hr) hstopped
    · obtain ⟨hasked, hnot⟩ := h.stopped r (by rwa [hother r hrp] at hr)
      exact ⟨hstop (.inl hasked), hnot⟩
  case due =>
    intro k hk hc
    rw [hcommitted] at hc
    rcases hpresent k hk with hs | hs
    · obtain ⟨r, hr⟩ := h.due k hs hc
      have hrp : r ≠ p := by
        rintro rfl
        exact hold k hr
      exact ⟨r, by rwa [hother r hrp]⟩
    · exact ⟨p, by rwa [hself]⟩

/-- A thread takes the lock of the device. -/
theorem Inv.acquire {s : State n} (h : Inv s) (hfree : s.lock = none) (owner : Owner n) :
    Inv { s with lock := some owner } := by
  constructor
  case deviceLock => intro hpc; simpa [hfree] using h.deviceLock hpc
  case producerLock => intro p hp; simpa [hfree] using h.producerLock p hp
  case sleeping => exact h.sleeping
  case blocked => exact h.blocked
  case signalling => exact h.signalling
  case counts => exact h.counts
  case resetting => exact h.resetting
  case asked => exact h.asked
  case stopped => exact h.stopped
  case due => exact h.due

/-- The lock of the device is released once its owner has left the critical section. -/
theorem Inv.release {s : State n} (h : Inv s)
    (hdevice : s.pc ≠ .announce ∧ s.pc ≠ .testSleeping)
    (hproducers : ∀ p, (s.producers p).holdsLock = false) : Inv { s with lock := none } := by
  constructor
  case deviceLock => intro hpc; simp_all
  case producerLock => intro p hp; simp [hproducers p] at hp
  case sleeping => exact h.sleeping
  case blocked => exact h.blocked
  case signalling => exact h.signalling
  case counts => exact h.counts
  case resetting => exact h.resetting
  case asked => exact h.asked
  case stopped => exact h.stopped
  case due => exact h.due

/-- While the device holds the lock no producer does. -/
theorem Inv.producers_outside {s : State n} (h : Inv s) (hlock : s.lock = some .device)
    (p : Fin n) : (s.producers p).holdsLock = false := by
  by_contra hp
  have := h.producerLock p (by simpa using hp)
  simp [hlock] at this

/-- While a producer holds the lock the device is outside its critical section. -/
theorem Inv.device_outside {s : State n} (h : Inv s) {p : Fin n}
    (hp : (s.producers p).holdsLock = true) : s.pc ≠ .announce ∧ s.pc ≠ .testSleeping := by
  have hlock := h.producerLock p hp
  constructor <;> intro hpc
  · simpa [hlock] using h.deviceLock (.inl hpc)
  · simpa [hlock] using h.deviceLock (.inr hpc)

/-- A producer that holds the lock leaves its critical section and releases the lock. -/
theorem Inv.leave {s : State n} (h : Inv s) (p : Fin n) (pc : ProducerPc)
    (hholds : (s.producers p).holdsLock = true) (hleft : pc.holdsLock = false)
    (hsignal : ∀ w, pc ≠ .signal w) (hnotdue : ∀ k, ¬ pc.due k)
    (hstopped : pc.stopSignalled → s.stopAsked = true ∧ ¬ s.committed .stop)
    (hdue : ∀ k, s.present k → s.committed k → ¬ (s.producers p).due k) :
    Inv ({ s with lock := none }.setProducer p pc) := by
  have hmoved : Inv (s.setProducer p pc) :=
    h.setProducer p pc (by simp [hleft]) (fun w hw => absurd hw (hsignal w))
      (fun hd => absurd hd (hnotdue .stop)) hstopped
      (fun k hk hc hd => absurd hd (hdue k hk hc))
  refine hmoved.release (h.device_outside hholds) ?_
  intro r
  by_cases hrp : r = p
  · simpa [State.setProducer, hrp] using hleft
  · by_contra hr
    have hlock := h.producerLock r (by simpa [State.setProducer, hrp] using hr)
    rw [h.producerLock p hholds] at hlock
    simp only [Option.some.injEq, Owner.producer.injEq] at hlock
    exact hrp hlock.symm

/-! ## The steps keep the invariant -/

/-- In the tests that precede a sleep the flag is down. -/
theorem Inv.awake {s : State n} (h : Inv s) (hpc : 0 < s.pc.position) :
    s.issleeping = false := by
  by_contra hs
  rcases h.sleeping (by simpa using hs) with hs | hs | hs <;>
    simp [hs, DevicePc.position] at hpc

/-- Passing a test leaves only the work of the tests already passed unseen. -/
theorem Inv.pass {s : State n} (h : Inv s) (hpc : 0 < s.pc.position) (q : DevicePc)
    (hq : q.position = s.pc.position + 1) (hlast : q = .announce → s.lock = some .device)
    (hseen : ∀ k, k.testPosition = s.pc.position → ¬ s.present k) : Inv { s with pc := q } := by
  refine h.setPc q (h.awake hpc) ?_ ?_ hlast ?_
  · intro hs
    simp [hs, DevicePc.position] at hpc
  · refine ⟨?_, ?_, ?_⟩ <;> rintro rfl <;> simp [DevicePc.position] at hq
  · intro k hk
    simp only [DevicePc.unannounced, hq] at hk ⊢
    rcases Nat.lt_or_ge k.testPosition s.pc.position with hlt | hge
    · exact .inl hlt
    · exact .inr (hseen k (by omega))

/-- Going to the body of the loop, to its start or out of it forgets every test. -/
theorem Inv.restart {s : State n} (h : Inv s) (hawake : s.issleeping = false)
    (hpc : s.pc ≠ .resetCounts) (q : DevicePc)
    (hq : q = .working ∨ q = .testRequest ∨ q = .exited) : Inv { s with pc := q } := by
  refine h.setPc q hawake hpc ?_ ?_ ?_
  · rcases hq with rfl | rfl | rfl <;> simp
  · rcases hq with rfl | rfl | rfl <;> simp
  · intro k hk
    rcases hq with rfl | rfl | rfl <;> cases k <;>
      simp [DevicePc.unannounced, DevicePc.position, Work.testPosition] at hk

/-- One test of the loop: the device goes on to the next test, or to the body. -/
theorem Inv.test {s : State n} (h : Inv s) (c : Prop) [Decidable c] (q : DevicePc)
    (hpc : 0 < s.pc.position) (hq : q.position = s.pc.position + 1) (hlast : q ≠ .announce)
    (hseen : c → ∀ k, k.testPosition = s.pc.position → ¬ s.present k) :
    Inv { s with pc := if c then q else .working } := by
  split
  case isTrue hc => exact h.pass hpc q hq (fun hs => absurd hs hlast) (hseen hc)
  case isFalse =>
    refine h.restart (h.awake hpc) ?_ _ (.inl rfl)
    intro hs
    simp [hs, DevicePc.position] at hpc

/-- The announcement is made with every test passed, so it commits the device to nothing
new. -/
theorem Inv.announce {s : State n} (h : Inv s) (hpc : s.pc = .announce) :
    Inv { s with pc := .testSleeping, issleeping := true } := by
  have hcommitted : ∀ k, s.committed k := by
    intro k
    left
    cases k <;> simp [hpc, DevicePc.unannounced, DevicePc.position, Work.testPosition]
  constructor
  case deviceLock => intro _; exact h.deviceLock (.inl hpc)
  case producerLock => exact h.producerLock
  case sleeping => intro _; exact .inl rfl
  case blocked => intro _; rfl
  case signalling => intro _ _ _; rfl
  case counts => intro _; exact h.counts (by simp [hpc])
  case resetting => intro hs; simp at hs
  case asked => exact h.asked
  case stopped => intro p hp; exact absurd (hcommitted .stop) (h.stopped p hp).2
  case due => intro k hk _; exact h.due k hk (hcommitted k)

/-- Inside `pthread_cond_wait` and around it, the device moves with the flag up or down. -/
theorem Inv.wait {s : State n} (h : Inv s) (q : DevicePc)
    (hpc : s.pc = .testSleeping ∨ s.pc = .blocked ∨ s.pc = .woken)
    (hq : q = .testSleeping ∨ q = .blocked ∨ q = .woken)
    (hlock : q = .testSleeping → s.lock = some .device)
    (hblocked : q = .blocked → s.issleeping = true) : Inv { s with pc := q } := by
  have hcommitted : ∀ k, State.committed { s with pc := q } k ↔ s.committed k := by
    intro k
    rcases hpc with hs | hs | hs <;> rcases hq with rfl | rfl | rfl <;>
      simp [State.committed, hs, DevicePc.unannounced, DevicePc.position]
  constructor
  case deviceLock =>
    rintro (hs | hs)
    · rcases hq with rfl | rfl | rfl <;> simp at hs
    · exact hlock hs
  case producerLock => exact h.producerLock
  case sleeping => intro _; exact hq
  case blocked => exact hblocked
  case signalling => exact h.signalling
  case counts =>
    intro _
    exact h.counts (by rcases hpc with hs | hs | hs <;> simp [hs])
  case resetting => intro hs; rcases hq with rfl | rfl | rfl <;> simp at hs
  case asked => exact h.asked
  case stopped =>
    intro p hp
    rw [hcommitted]
    exact h.stopped p hp
  case due =>
    intro k hk hc
    exact h.due k hk ((hcommitted k).mp hc)

/-- The reset of the counters starts in the body of the loop. -/
theorem Inv.resetStart {s : State n} (h : Inv s) (hpc : s.pc = .working) :
    Inv { s with pc := .resetCounts, popCount := 0 } := by
  have hawake : s.issleeping = false := by
    by_contra hs
    exact not_committed_of_working h hpc .task (.inr (by simpa using hs))
  constructor
  case deviceLock => simp
  case producerLock => exact h.producerLock
  case sleeping => simp [hawake]
  case blocked => simp
  case signalling => exact h.signalling
  case counts => simp
  case resetting => simp
  case asked => exact h.asked
  case stopped =>
    intro p hp
    exact ⟨(h.stopped p hp).1, by
      simp [State.committed, hawake, DevicePc.unannounced, DevicePc.position]⟩
  case due =>
    intro k _ hc
    simp [State.committed, hawake, DevicePc.unannounced, DevicePc.position] at hc

/-- The reset ends with an empty queue. -/
theorem Inv.resetDone {s : State n} (h : Inv s) (hpc : s.pc = .resetCounts)
    (hempty : s.queue = 0) :
    Inv { s with pc := .working, pushCount := 0, spawnCount := 0, execCount := 0 } := by
  have hawake : s.issleeping = false := by
    by_contra hs
    simpa [hpc] using h.sleeping (by simpa using hs)
  constructor
  case deviceLock => simp
  case producerLock => exact h.producerLock
  case sleeping => simp [hawake]
  case blocked => simp
  case signalling => exact h.signalling
  case counts => simp [hempty, h.resetting hpc]
  case resetting => simp
  case asked => exact h.asked
  case stopped =>
    intro p hp
    exact ⟨(h.stopped p hp).1, by
      simp [State.committed, hawake, DevicePc.unannounced, DevicePc.position]⟩
  case due =>
    intro k _ hc
    simp [State.committed, hawake, DevicePc.unannounced, DevicePc.position] at hc

/-- Every step of the device thread in the tests and in the sleep keeps the invariant. -/
theorem inv_device {s t : State n} (h : Inv s) (hok : Timely s .device)
    (hstep : deviceStep s = some t) : Inv t := by
  unfold deviceStep at hstep
  split at hstep
  case h_1 hpc =>
    cases hstep
    refine h.test _ _ (by simp [hpc, DevicePc.position]) (by simp [hpc, DevicePc.position])
      (by simp) ?_
    intro hop k hk
    cases k <;> simp [hpc, DevicePc.position, Work.testPosition] at hk
    simp [State.present, hop, DeviceOp.pending]
  case h_2 hpc =>
    cases hstep
    refine h.test _ _ (by simp [hpc, DevicePc.position]) (by simp [hpc, DevicePc.position])
      (by simp) ?_
    intro _ k hk
    cases k <;> simp [hpc, DevicePc.position, Work.testPosition] at hk
  case h_3 hpc =>
    cases hstep
    refine h.test _ _ (by simp [hpc, DevicePc.position]) (by simp [hpc, DevicePc.position])
      (by simp) ?_
    intro _ k hk
    cases k <;> simp [hpc, DevicePc.position, Work.testPosition] at hk
  case h_4 hpc =>
    cases hstep
    refine h.test _ _ (by simp [hpc, DevicePc.position]) (by simp [hpc, DevicePc.position])
      (by simp) ?_
    intro heq k hk
    have hcounts := h.counts (by simp [hpc])
    cases k <;> simp [hpc, DevicePc.position, Work.testPosition] at hk
    simp only [State.present]
    omega
  case h_5 hpc =>
    cases hstep
    refine h.test _ _ (by simp [hpc, DevicePc.position]) (by simp [hpc, DevicePc.position])
      (by simp) ?_
    intro hempty k hk
    cases k <;> simp [hpc, DevicePc.position, Work.testPosition] at hk
    simp [State.present, hempty]
  case h_6 hpc =>
    cases hstep
    have hposition : 0 < s.pc.position := by simp [hpc, DevicePc.position]
    split
    case isTrue => exact h.restart (h.awake hposition) (by simp [hpc]) _ (.inr (.inr rfl))
    case isFalse hstop =>
      refine h.pass hposition _ (by simp [hpc, DevicePc.position]) (by simp) ?_
      intro k hk
      cases k <;> simp [hpc, DevicePc.position, Work.testPosition] at hk
      simpa [State.present] using hstop
  case h_7 hpc =>
    split at hstep <;> cases hstep
    rename_i hfree
    refine (h.acquire hfree .device).pass (by simp [hpc, DevicePc.position]) .announce
      (by simp [hpc, DevicePc.position]) (fun _ => rfl) ?_
    intro k hk
    cases k <;> simp [hpc, DevicePc.position, Work.testPosition] at hk
  case h_8 hpc =>
    cases hstep
    exact h.announce hpc
  case h_9 hpc =>
    cases hstep
    have houtside := h.producers_outside (h.deviceLock (.inr hpc))
    split
    case isTrue hs =>
      exact (h.wait .blocked (.inl hpc) (.inr (.inl rfl)) (by simp) (fun _ => hs)).release
        (by simp) houtside
    case isFalse hs =>
      exact (h.restart (by simpa using hs) (by simp [hpc]) _ (.inr (.inl rfl))).release
        (by simp) houtside
  case h_10 hpc =>
    split at hstep <;> cases hstep
    rename_i hfree
    exact (h.acquire hfree .device).wait .testSleeping (.inr (.inr hpc)) (.inl rfl)
      (fun _ => rfl) (by simp)
  case h_11 hpc =>
    cases hstep
    exact h.resetDone hpc (hok hpc)
  all_goals cases hstep

/-- Every step of the body of the loop keeps the invariant. -/
theorem inv_work {s t : State n} {capacity : Nat} {a : Action n} (h : Inv s)
    (hpc : s.pc = .working) (hok : Timely s a) (hstep : work s capacity a = some t) :
    Inv t := by
  have hnot := not_committed_of_working h hpc
  have hcounts := h.counts (by simp [hpc])
  have hawake : s.issleeping = false := by
    by_contra hs
    exact hnot .task (.inr (by simpa using hs))
  unfold work at hstep
  split at hstep
  case h_1 =>
    cases hstep
    split
    · exact h.restart hawake (by simp [hpc]) _ (.inr (.inr rfl))
    · exact h.restart hawake (by simp [hpc]) _ (.inr (.inl rfl))
  case h_10 =>
    split at hstep <;> cases hstep
    exact h.resetStart hpc
  all_goals
    try split at hstep
    all_goals cases hstep
    all_goals
      refine h.frame rfl rfl rfl rfl id ?_ (by simp [hpc]) (fun k _ => .inr (.inl (hnot k)))
      intro _
      simp only
      omega

/-- A producer that holds the lock either finds the device awake, which its timely test
allows, or goes on to signal it. -/
theorem Inv.testSleeping {s : State n} (h : Inv s) {p : Fin n} {w : Waker}
    (hp : s.producers p = .testSleeping w) (hok : (s.producers p).Timely s.pc) :
    Inv (s.setProducer p (if s.issleeping then .signal w else .wakeupUnlock w)) := by
  have hlock := h.producerLock p (by simp [hp, ProducerPc.holdsLock])
  have hasked := h.asked p
  rw [hp] at hok hasked
  split
  case isTrue hs =>
    refine h.setProducer p _ (fun _ => hlock) (fun _ _ => hs) hasked
      (by simp [ProducerPc.stopSignalled]) ?_
    intro k _ _ hdue
    simpa [hp, ProducerPc.due] using hdue
  case isFalse hs =>
    have hopen : ∀ k, w.work = some k → ¬ s.committed k := by
      rintro k hk (hu | hc)
      · exact hok k (by simp [hk]) hu
      · exact hs hc
    refine h.setProducer p _ (fun _ => hlock) (by simp) (by simp [ProducerPc.due]) ?_ ?_
    · rintro rfl
      exact ⟨hasked rfl, hopen .stop rfl⟩
    · intro k _ hc hdue
      exact absurd hc (hopen k (by simpa [hp, ProducerPc.due] using hdue))

/-- Every step of a producer inside the function it has called keeps the invariant. -/
theorem inv_producer {s t : State n} {p : Fin n} (h : Inv s) (hok : Timely s (.producer p))
    (hstep : producerStep s p = some t) : Inv t := by
  unfold producerStep at hstep
  split at hstep
  case h_1 op hp =>
    have hlock := h.producerLock p (by simp [hp, ProducerPc.holdsLock])
    split at hstep <;> cases hstep
    · refine h.publish p (.testSleeping .post) rfl rfl rfl rfl h.counts rfl ?_ ?_ ?_
        (fun _ => hlock) (by simp) (by simp [ProducerPc.stopSignalled])
      · simp [ProducerPc.due, Waker.work, State.setProducer]
      · intro k hk
        cases k <;> first | exact .inl hk | exact .inr rfl
      · simp [hp, ProducerPc.due]
    · refine h.setProducer p _ (fun _ => hlock) (by simp) (by simp [ProducerPc.due, Waker.work])
        (by simp [ProducerPc.stopSignalled]) ?_
      simp [hp, ProducerPc.due]
  case h_2 op hp =>
    split at hstep <;> cases hstep
    rename_i hfree
    refine (h.acquire hfree (.producer p)).setProducer p _ (fun _ => rfl) (by simp)
      (by simp [ProducerPc.due]) (by simp [ProducerPc.stopSignalled]) ?_
    simp [hp, ProducerPc.due]
  case h_3 hp =>
    split at hstep <;> cases hstep
    · have hconsumed : Inv { s with op := .nop } := by
        refine h.frame rfl rfl rfl rfl id h.counts h.resetting ?_
        intro k hk
        cases k <;> first | exact .inl hk | simp [State.present, DeviceOp.pending] at hk
      refine hconsumed.leave p .idle (by simp [hp, ProducerPc.holdsLock]) rfl (by simp)
        (by simp [ProducerPc.due]) (by simp [ProducerPc.stopSignalled]) ?_
      simp [hp, ProducerPc.due]
    · refine h.setProducer p _ (fun _ => ?_) (by simp) (by simp [ProducerPc.due, Waker.work])
        (by simp [ProducerPc.stopSignalled]) (by simp [hp, ProducerPc.due])
      exact h.producerLock p (by simp [hp, ProducerPc.holdsLock])
  case h_4 hp =>
    split at hstep <;> cases hstep
    rename_i hfree
    refine (h.acquire hfree (.producer p)).setProducer p _ (fun _ => rfl) (by simp)
      (by simp [ProducerPc.due]) (by simp [ProducerPc.stopSignalled]) ?_
    simp [hp, ProducerPc.due]
  case h_5 hp =>
    split at hstep <;> cases hstep
    refine h.setProducer p _ (by simp [ProducerPc.holdsLock]) (by simp)
      (by simp [ProducerPc.due]) (by simp [ProducerPc.stopSignalled]) ?_
    simp [hp, ProducerPc.due]
  case h_6 hp =>
    cases hstep
    have hreleased : Inv { s with queueLock := none } :=
      h.frame rfl rfl rfl rfl id h.counts h.resetting (fun _ hk => .inl hk)
    refine hreleased.setProducer p _ (by simp [ProducerPc.holdsLock]) (by simp)
      (by simp [ProducerPc.due]) (by simp [ProducerPc.stopSignalled]) ?_
    simp [hp, ProducerPc.due]
  case h_7 w hp =>
    split at hstep <;> cases hstep
    rename_i hfree
    have hasked := h.asked p
    rw [hp] at hasked
    refine (h.acquire hfree (.producer p)).setProducer p _ (fun _ => rfl) (by simp) hasked
      (by simp [ProducerPc.stopSignalled]) ?_
    simp [hp, ProducerPc.due]
  case h_8 w hp =>
    cases hstep
    exact h.testSleeping hp hok
  case h_9 w hp =>
    cases hstep
    have hstopped := h.stopped p
    rw [hp] at hstopped
    refine h.leave p _ (by simp [hp, ProducerPc.holdsLock]) ?_ ?_ ?_ ?_ ?_
    · cases w <;> rfl
    · cases w <;> simp [Waker.resume]
    · cases w <;> simp [Waker.resume, ProducerPc.due]
    · cases w <;> simp [Waker.resume, ProducerPc.stopSignalled]
      exact hstopped rfl
    · simp [hp, ProducerPc.due]
  all_goals cases hstep

/-- Clearing the flag and waking the device ends every commitment to sleep. -/
theorem Inv.signalled {s : State n} (h : Inv s) {p : Fin n} {w : Waker}
    (hp : s.producers p = .signal w) (q : DevicePc) (hblocked : q ≠ .blocked)
    (hq : q = s.pc ∨ q = .woken) :
    Inv ({ s with issleeping := false, pc := q }.setProducer p (.wakeupUnlock w)) := by
  have hlock := h.producerLock p (by simp [hp, ProducerPc.holdsLock])
  have houtside := h.device_outside (p := p) (by simp [hp, ProducerPc.holdsLock])
  have hpc : s.pc = .testSleeping ∨ s.pc = .blocked ∨ s.pc = .woken :=
    h.sleeping (h.signalling p w hp)
  have hwoken : q = .woken := by
    rcases hq with rfl | hq
    · rcases hpc with hs | hs | hs
      · exact absurd hs houtside.2
      · exact absurd hs hblocked
      · exact hs
    · exact hq
  have hopen : ∀ k, ¬ State.committed { s with issleeping := false, pc := q } k := by
    intro k
    simp [State.committed, hwoken, DevicePc.unannounced, DevicePc.position]
  have hother : ∀ r, r ≠ p → (s.producers r).holdsLock = false := by
    intro r hrp
    by_contra hr
    have hr := h.producerLock r (by simpa using hr)
    rw [hlock] at hr
    simp only [Option.some.injEq, Owner.producer.injEq] at hr
    exact hrp hr.symm
  constructor
  case deviceLock => simp [State.setProducer, hwoken]
  case producerLock =>
    intro r hr
    by_cases hrp : r = p
    · subst hrp
      exact hlock
    · simp [State.setProducer, hrp, hother r hrp] at hr
  case sleeping => simp [State.setProducer]
  case blocked => exact fun hs => absurd hs hblocked
  case signalling =>
    intro r v hr
    by_cases hrp : r = p
    · simp [State.setProducer, hrp] at hr
    · have hholds := hother r hrp
      simp only [State.setProducer, Function.update_of_ne hrp] at hr
      simp [hr, ProducerPc.holdsLock] at hholds
  case counts =>
    intro _
    exact h.counts (by rcases hpc with hs | hs | hs <;> simp [hs])
  case resetting => simp [State.setProducer, hwoken]
  case asked =>
    intro r hr
    by_cases hrp : r = p
    · simp [State.setProducer, hrp, ProducerPc.due] at hr
    · exact h.asked r (by simpa [State.setProducer, hrp] using hr)
  case stopped =>
    intro r hr
    refine ⟨?_, hopen .stop⟩
    by_cases hrp : r = p
    · subst hrp
      have hw : w = .stop := by simpa [State.setProducer, ProducerPc.stopSignalled] using hr
      exact h.asked r (by simp [hp, hw, ProducerPc.due, Waker.work])
    · exact (h.stopped r (by simpa [State.setProducer, hrp] using hr)).1
  case due => exact fun k _ hc => absurd hc (hopen k)

/-- Every signal keeps the invariant: the only thread that it can wake is the device, since a
caller of `kaapi_offload_device_stop` that waits has already ended the sleep. -/
theorem inv_signal {s t : State n} {p : Fin n} {target : Target n} (h : Inv s)
    (hstep : signalStep s p target = some t) : Inv t := by
  unfold signalStep at hstep
  split at hstep
  case h_2 => cases hstep
  case h_1 w hp =>
    cases target with
    | device =>
        simp only at hstep
        split at hstep <;> cases hstep
        exact h.signalled hp .woken (by simp) (.inr rfl)
    | stopper q =>
        simp only at hstep
        split at hstep <;> cases hstep
        rename_i hq
        have hnot := (h.stopped q (by simp [hq, ProducerPc.stopSignalled])).2
        exact absurd (.inr (h.signalling p w hp)) hnot
    | nobody =>
        simp only at hstep
        split at hstep <;> cases hstep
        rename_i hawake
        exact h.signalled hp s.pc hawake (.inl rfl)

/-- Every call of a producer keeps the invariant. -/
theorem inv_call {s t : State n} {capacity : Nat} {a : Action n} (h : Inv s)
    (hstep : call s capacity a = some t) : Inv t := by
  unfold call at hstep
  split at hstep
  case h_1 p =>
    split at hstep <;> cases hstep
    rename_i hidle
    refine h.publish p (.wakeupLock .push) rfl rfl rfl rfl ?_ rfl ?_ ?_ ?_
      (by simp [ProducerPc.holdsLock]) (by simp) (by simp [ProducerPc.stopSignalled])
    · intro hpc
      have hcounts := h.counts hpc
      simp only [State.setProducer]
      omega
    · simp [ProducerPc.due, Waker.work, State.setProducer]
    · intro k hk
      cases k <;> first | exact .inl hk | exact .inr rfl
    · simp [hidle.1, ProducerPc.due]
  case h_2 p =>
    split at hstep <;> cases hstep
    rename_i hidle
    refine h.publish p (.wakeupLock .commit) rfl rfl rfl rfl h.counts rfl ?_ ?_ ?_
      (by simp [ProducerPc.holdsLock]) (by simp) (by simp [ProducerPc.stopSignalled])
    · simp [ProducerPc.due, Waker.work, State.setProducer]
    · intro k hk
      cases k <;> first | exact .inl hk | exact .inr rfl
    · simp [hidle, ProducerPc.due]
  case h_3 p =>
    split at hstep <;> cases hstep
    rename_i hidle
    refine h.publish p (.wakeupLock .stop) rfl rfl rfl rfl h.counts rfl ?_ ?_ ?_
      (by simp [ProducerPc.holdsLock]) (by simp) (by simp [ProducerPc.stopSignalled])
    · simp [State.setProducer]
    · intro k hk
      cases k <;> first | exact .inl hk | exact .inr rfl
    · simp [hidle.1, ProducerPc.due]
  case h_4 p op =>
    split at hstep <;> cases hstep
    rename_i hidle
    refine (h.acquire hidle.2.1 (.producer p)).setProducer p _ (fun _ => rfl) (by simp)
      (by simp [ProducerPc.due]) (by simp [ProducerPc.stopSignalled]) ?_
    simp [hidle.1, ProducerPc.due]
  case h_5 p =>
    split at hstep <;> cases hstep
    rename_i hidle
    refine (h.acquire hidle.2 (.producer p)).setProducer p _ (fun _ => rfl) (by simp)
      (by simp [ProducerPc.due]) (by simp [ProducerPc.stopSignalled]) ?_
    simp [hidle.1, ProducerPc.due]
  case h_6 => cases hstep

theorem inv_step {s t : State n} {capacity : Nat} {a : Action n} (h : Inv s)
    (hok : Timely s a) (hstep : step capacity s a = some t) : Inv t := by
  unfold step at hstep
  split at hstep
  case h_1 => exact inv_device h hok hstep
  case h_2 =>
    split at hstep <;> cases hstep
    rename_i hpc
    exact h.wait .woken (.inr (.inl hpc)) (.inr (.inr rfl)) (by simp) (by simp)
  case h_3 =>
    split at hstep <;> cases hstep
    refine h.frame rfl rfl rfl rfl id h.counts h.resetting ?_
    intro k hk
    cases k <;> first | exact .inl hk | simp [State.present, DeviceOp.pending] at hk
  case h_4 p => exact inv_producer h hok hstep
  case h_5 p target => exact inv_signal h hstep
  case h_11 =>
    split at hstep
    case isTrue hpc => exact inv_work h hpc hok hstep
    case isFalse => cases hstep
  all_goals exact inv_call h hstep

/-! ## Main results -/

variable {capacity : Nat}

/-- In the runs whose steps are timely no wake-up is lost: a device that is blocked asleep
while it has a task in its queue, a pending request or a stop asked has a producer about to
signal it. -/
theorem no_lost_wakeup {s : State n} (h : (system n capacity).ReachableWhen Timely s) :
    ¬ LostWakeup s := by
  have hinv : Inv s := h.invariant (fun s hs => hs ▸ inv_initial)
    (fun _ _ _ hs hok hstep => inv_step hs hok hstep)
  rintro ⟨hpc, hwork, hnobody⟩
  have hcommitted : ∀ k, s.committed k := fun k => .inr (hinv.blocked hpc)
  have hdue : ∃ k p, (s.producers p).due k := by
    rcases hwork with hk | hk | hk
    · exact ⟨_, hinv.due .task hk (hcommitted _)⟩
    · exact ⟨_, hinv.due .request hk (hcommitted _)⟩
    · exact ⟨_, hinv.due .stop hk (hcommitted _)⟩
  obtain ⟨k, p, hp⟩ := hdue
  have hnot := hnobody p
  cases hs : s.producers p <;> simp [hs, ProducerPc.due, ProducerPc.aboutToSignal] at hp hnot

/-- The device finds nothing to do, the producer pushes a task and finds `issleeping` down,
and only then does the device announce that it sleeps. -/
def lostRun : List (Action 1) :=
  [.device, .device, .device, .device, .device, .device,
    .push 0, .producer 0, .producer 0, .producer 0, .producer 0,
    .device, .device, .device]

/-- The wake-up of a task pushed between the tests of the device and its announcement is
lost. -/
theorem lost_wakeup_reachable :
    ¬ ∀ (n capacity : Nat) (s : State n), (system n capacity).Reachable s → ¬ LostWakeup s := by
  intro hall
  refine hall 1 1 (((system 1 1).run initial lostRun).get (by decide)) ?_ (by decide)
  exact TransitionSystem.ReachableWhen.replay (.start rfl) (Option.some_get _).symm

/-- The device sleeps before the push, which signals it. -/
def timelyRun : List (Action 1) :=
  [.device, .device, .device, .device, .device, .device, .device, .device, .device,
    .push 0, .producer 0, .producer 0]

theorem no_lost_wakeup_timelyRun :
    ∃ s : State 1, (system 1 1).replay Timely initial timelyRun = some s ∧
      s.pc = .blocked ∧ s.present .task ∧ ¬ LostWakeup s := by
  refine ⟨((system 1 1).replay Timely initial timelyRun).get (by decide), by simp,
    by decide, by decide, ?_⟩
  exact @no_lost_wakeup 1 1 _ (.replay (.start rfl) (Option.some_get _).symm)

end Xkblas.Offload.Wakeup
