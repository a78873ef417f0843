import Xkblas.Trace.RecorderWriters

/-!
# The files of the trace recorder

In every run in which the writers write in order, the file of a kid is the header followed by the
events that the kid pushed once `kaapi_eventrecorder_fini` is done. When two writers have a buffer
of the same kid, the second one may be written first, and both may open the file.
-/

namespace Xkblas.Trace.Recorder

open Library

variable {κ ι ε β : Type} [DecidableEq κ] [DecidableEq ι] {cfg : Config κ ε β}
  {written : κ → List ε} {s t : State κ ι ε β} {w : Writer ι} {k : κ} {evb : Evb} {p : Pc κ β}

/-! ## The end -/

omit [DecidableEq ι] in
/-- At the end the file of a kid is the header and the events that it pushed. -/
theorem Inv.file_eq (h : Inv cfg written s) (hfinished : s.Finished)
    (hthread : s.thread k = .closed) : s.files k = cfg.header k ++ cfg.bytes (s.pushed k) := by
  have hclosed : s.Closed k := ⟨[], hfinished, List.not_mem_nil⟩
  obtain ⟨hnone, hfile⟩ := h.files.closed k hclosed
  obtain ⟨hempty, _⟩ := h.phase.drained [] hfinished
  have hsome : s.listfd_set k ≠ none := by
    rcases h.phase.visited k hthread with hfd | ⟨evb, hmem, hkid⟩
    · exact hfd
    · rw [hempty, List.append_nil] at hmem
      have hunwritten : evb ∈ s.unwritten k := List.mem_filter.mpr ⟨hmem, decide_eq_true hkid⟩
      rw [hnone] at hunwritten
      cases hunwritten
  have hqueued : s.eventsOf (s.taken ++ s.listevt) k = [] := by
    rw [hempty, List.append_nil]
    exact congrArg (fun l => l.flatMap fun evb => (s.buffers evb).events) hnone
  have hcurrent : s.current k = [] := by
    unfold State.current
    rw [hthread]
    rfl
  rw [hfile hsome, h.events k, hqueued, hcurrent, List.append_nil, List.append_nil]

/-- The steps that are left to the writer at a point of `_kaapi_write_evb`. -/
def Pc.stage : Pc κ β → ℕ
  | .test _ => 6
  | .openFile _ => 5
  | .dummy _ => 4
  | .write _ (_ :: _) => 3
  | .write _ [] => 2
  | _ => 0

/-- The steps that are left to the collector and to `kaapi_eventrecorder_fini`, for `n` kids. -/
def Pc.left (n : ℕ) : Pc κ β → ℕ
  | .close kids => kids.length
  | .loop => n + 1
  | .release _ | .asleep => n + 2
  | .test _ | .openFile _ | .dummy _ | .write _ _ => n + 3
  | .join => n + 4
  | .idle | .exited => 0

open Classical in
/-- The stage of the writer of a buffer. -/
noncomputable def State.stage (s : State κ ι ε β) (evb : Evb) : ℕ :=
  if h : ∃ w, (s.pc w).pending = some evb then (s.pc h.choose).stage else 0

/-- What is left to do. -/
noncomputable def State.left (cfg : Config κ ε β) (s : State κ ι ε β) : ℕ :=
  9 * s.listevt.length + (s.taken.map s.stage).sum + (s.pc .collector).left cfg.kids.length +
    (s.pc .fini).left cfg.kids.length

omit [DecidableEq κ] [DecidableEq ι] in
theorem BuffersInv.stage_eq (h : BuffersInv s) (hw : (s.pc w).pending = some evb) :
    s.stage evb = (s.pc w).stage := by
  have hex : ∃ w, (s.pc w).pending = some evb := ⟨w, hw⟩
  unfold State.stage
  rw [dif_pos hex, h.writer_unique hex.choose_spec hw]

omit [DecidableEq κ] in
/-- The other buffers are where they were when one writer makes a step. -/
theorem stage_congr (hs : BuffersInv s) (ht : BuffersInv t)
    (hpc : t.pc = Function.update s.pc w p) {evb' : Evb} (hevb' : evb' ∈ s.taken)
    (hne : (s.pc w).pending ≠ some evb') : t.stage evb' = s.stage evb' := by
  obtain ⟨w', hw'⟩ := (hs.taken evb').mp hevb'
  have hww : w' ≠ w := by
    rintro rfl
    exact hne hw'
  have hsame : t.pc w' = s.pc w' := by rw [hpc, Function.update_of_ne hww]
  rw [hs.stage_eq hw', ht.stage_eq (hsame ▸ hw'), hsame]

omit [DecidableEq κ] in
/-- The points of the collector and of `fini` count less or the same after such a step. -/
theorem left_update (hpc : t.pc = Function.update s.pc w p) {n : ℕ} (w' : Writer ι)
    (hle : p.left n ≤ (s.pc w).left n) : (t.pc w').left n ≤ (s.pc w').left n := by
  rw [hpc]
  by_cases hne : w' = w
  · rw [hne, Function.update_self]
    exact hle
  · rw [Function.update_of_ne hne]

omit [DecidableEq κ] [DecidableEq ι] in
/-- A buffer in the hands of a writer counts the same for all points. -/
theorem Pc.left_of_pending {n : ℕ} (hp : p.pending = some evb) : p.left n = n + 3 := by
  cases p <;> first | rfl | cases hp

/-- A step that the invariant allows, after which less is left. -/
def Advances (cfg : Config κ ε β) (s : State κ ι ε β) : Prop :=
  ∃ a t, InOrder s a ∧ Recorder.step cfg s a = some t ∧ t.pc .fini ≠ .idle ∧
    t.left cfg < s.left cfg

omit [DecidableEq κ] in
/-- The writer of the first buffer that is taken goes on with it, or is done with it. -/
theorem left_lt {rest : List Evb} (hs : BuffersInv s) (ht : BuffersInv t)
    (htaken : s.taken = evb :: rest) (hw : (s.pc w).pending = some evb)
    (hpc : t.pc = Function.update s.pc w p) (hlist : t.listevt = s.listevt)
    (hleft : p.left cfg.kids.length ≤ (s.pc w).left cfg.kids.length)
    (hstage : t.taken = s.taken ∧ p.pending = some evb ∧ p.stage < (s.pc w).stage ∨
      t.taken = rest ∧ 0 < (s.pc w).stage) : t.left cfg < s.left cfg := by
  have hnodup := hs.nodup
  rw [htaken] at hnodup
  have hrest : rest.map t.stage = rest.map s.stage := by
    refine List.map_congr_left fun evb' hevb' => stage_congr hs ht hpc ?_ ?_
    · rw [htaken]
      exact List.mem_cons_of_mem _ hevb'
    · rw [hw]
      intro heq
      obtain rfl := Option.some.inj heq
      exact (List.nodup_cons.mp hnodup).1 hevb'
  have hsum : (t.taken.map t.stage).sum < (s.taken.map s.stage).sum := by
    rw [htaken, List.map_cons, List.sum_cons, hs.stage_eq hw]
    rcases hstage with ⟨hsame, hp, hlt⟩ | ⟨hgone, hpos⟩
    · have hself : t.pc w = p := by rw [hpc, Function.update_self]
      have hpending : (t.pc w).pending = some evb := by rw [hself, hp]
      rw [hsame, htaken, List.map_cons, List.sum_cons, hrest, ht.stage_eq hpending, hself]
      exact Nat.add_lt_add_right hlt _
    · rw [hgone, hrest]
      exact Nat.lt_add_of_pos_left hpos
  have hcollector := left_update hpc .collector hleft
  have hfini := left_update hpc .fini hleft
  unfold State.left
  rw [hlist]
  omega

omit [DecidableEq ι] in
/-- The descriptor of a kid with a buffer that is not written is open. -/
theorem Inv.fd_open {fd : Fd} (h : Inv cfg written s) (hw : (s.pc w).pending = some evb)
    (hfd : s.listfd_set (s.kid evb) = some fd) : (s.fds fd).closed = false := by
  have hopen : ¬ s.Closed (s.kid evb) := by
    intro hclosed
    have hmem : evb ∈ s.unwritten (s.kid evb) :=
      List.mem_filter.mpr ⟨(h.buffers.taken evb).mpr ⟨w, hw⟩, decide_eq_true rfl⟩
    rw [(h.files.closed _ hclosed).1] at hmem
    cases hmem
  rw [(h.files.descr _ fd hopen hfd).2]

omit [DecidableEq ι] in
/-- A writer that has started goes on in any case. -/
theorem inOrder_of_started {n : ℕ} (hw : (s.pc w).started ≠ none) : InOrder s (.writer w n) := by
  show s.PointInOrder (s.pc w)
  cases hpc : s.pc w with
  | openFile evb => trivial
  | dummy evb => trivial
  | write evb towrite => trivial
  | _ =>
      rw [hpc] at hw
      exact absurd rfl hw

/-- While a buffer is taken, its writer can make a step. -/
theorem Inv.drain (h : Inv cfg written s) (hcalled : s.pc .fini ≠ .idle) (htaken : s.taken ≠ []) :
    Advances cfg s := by
  obtain ⟨evb, rest, hcons⟩ := List.exists_cons_of_ne_nil htaken
  obtain ⟨w, hw⟩ := (h.buffers.taken evb).mp (by rw [hcons]; exact List.mem_cons_self)
  have hfirst : (s.unwritten (s.kid evb)).head? = some evb := by
    unfold State.unwritten
    rw [hcons, List.filter_cons_of_pos (by simp)]
    rfl
  -- a step of the writer with the points before and after it
  have hgoal : ∀ {n t} {p : Pc κ β}, InOrder s (.writer w n) → s.writer cfg w n = some t →
      t.pc = Function.update s.pc w p → t.listevt = s.listevt → p.inner = true →
      p.left cfg.kids.length ≤ (s.pc w).left cfg.kids.length →
      (t.taken = s.taken ∧ p.pending = some evb ∧ p.stage < (s.pc w).stage ∨
        t.taken = rest ∧ 0 < (s.pc w).stage) → Advances cfg s := by
    intro n t p hok hstep hpc hlist hinner hleft hstage
    obtain ⟨written', ht⟩ := h.writer hok hstep
    refine ⟨.writer w n, t, hok, hstep, ?_, left_lt h.buffers ht.buffers hcons hw hpc hlist hleft
      hstage⟩
    rw [hpc]
    by_cases hfini : Writer.fini = w
    · rw [hfini, Function.update_self]
      rintro rfl
      cases hinner
    · rw [Function.update_of_ne hfini]
      exact hcalled
  have hleft : ∀ {q : Pc κ β}, q.pending = some evb →
      q.left cfg.kids.length ≤ (s.pc w).left cfg.kids.length := fun hq => by
    rw [Pc.left_of_pending hq, Pc.left_of_pending hw]
  cases hpc : s.pc w with
  | test evb' =>
      obtain rfl : evb' = evb := by
        rw [hpc] at hw
        exact Option.some.inj hw
      have horder : InOrder s (.writer w 0) := by
        show s.PointInOrder (s.pc w)
        rw [hpc]
        exact hfirst
      have hstep : s.writer cfg w 0 = some (s.atTest cfg w evb') := by
        unfold State.writer
        rw [hpc]
      unfold State.atTest at hstep
      split at hstep
      · exact hgoal horder hstep rfl rfl rfl (hleft rfl)
          (.inl ⟨rfl, rfl, by rw [hpc]; exact Nat.lt_succ_self _⟩)
      · refine hgoal horder hstep rfl rfl rfl (hleft rfl) (.inl ⟨rfl, rfl, ?_⟩)
        rw [hpc]
        cases cfg.bytes (s.buffers evb').events
        · show 2 < 6
          omega
        · show 3 < 6
          omega
  | openFile evb' =>
      obtain rfl : evb' = evb := by
        rw [hpc] at hw
        exact Option.some.inj hw
      have hstep : s.writer cfg w 0 = some (s.atOpen w evb') := by
        unfold State.writer
        rw [hpc]
      exact hgoal (inOrder_of_started (by rw [hpc]; nofun)) hstep rfl rfl rfl (hleft rfl)
        (.inl ⟨rfl, rfl, by rw [hpc]; exact Nat.lt_succ_self _⟩)
  | dummy evb' =>
      obtain rfl : evb' = evb := by
        rw [hpc] at hw
        exact Option.some.inj hw
      obtain ⟨hsome, _⟩ := h.files.dummy w evb' hpc
      obtain ⟨fd, hfd⟩ := Option.ne_none_iff_exists'.mp hsome
      have hopen := h.fd_open hw hfd
      have hstep : s.writer cfg w 0 = some ((s.writeFd cfg fd cfg.dummyHeader).setPc w
          (.write evb' (cfg.bytes (s.buffers evb').events))) := by
        unfold State.writer
        rw [hpc]
        dsimp only
        unfold State.atDummy
        rw [hfd, Option.bind_some, hopen]
        rfl
      refine hgoal (inOrder_of_started (by rw [hpc]; nofun)) hstep rfl rfl rfl (hleft rfl)
        (.inl ⟨rfl, rfl, ?_⟩)
      rw [hpc]
      cases cfg.bytes (s.buffers evb').events
      · show 2 < 4
        omega
      · exact Nat.lt_succ_self 3
  | write evb' towrite =>
      obtain rfl : evb' = evb := by
        rw [hpc] at hw
        exact Option.some.inj hw
      cases towrite with
      | nil =>
          have hstep : s.writer cfg w 0 = some (s.written w evb') := by
            unfold State.writer
            rw [hpc]
            rfl
          refine hgoal (inOrder_of_started (by rw [hpc]; nofun)) hstep rfl rfl rfl ?_
            (.inr ⟨?_, by rw [hpc]; exact Nat.two_pos⟩)
          · rw [hpc]
            exact Nat.le_succ _
          · show s.taken.erase evb' = rest
            rw [hcons, List.erase_cons_head]
      | cons b bytes =>
          obtain ⟨hsome, _⟩ := h.files.writing w evb' _ hpc
          obtain ⟨fd, hfd⟩ := Option.ne_none_iff_exists'.mp hsome
          have hopen := h.fd_open hw hfd
          -- the `write` takes all bytes
          have hstep : s.writer cfg w (b :: bytes).length =
              some ((s.writeFd cfg fd (b :: bytes)).setPc w (.write evb' [])) := by
            unfold State.writer
            rw [hpc]
            dsimp only
            unfold State.atWrite
            rw [hfd, Option.map_some, hopen, List.take_length, List.drop_length]
            rfl
          exact hgoal (inOrder_of_started (by rw [hpc]; nofun)) hstep rfl rfl rfl (hleft rfl)
            (.inl ⟨rfl, rfl, by rw [hpc]; exact Nat.lt_succ_self _⟩)
  | idle => rw [hpc] at hw; cases hw
  | asleep => rw [hpc] at hw; cases hw
  | join => rw [hpc] at hw; cases hw
  | loop => rw [hpc] at hw; cases hw
  | release evb' => rw [hpc] at hw; cases hw
  | exited => rw [hpc] at hw; cases hw
  | close kids => rw [hpc] at hw; cases hw

omit [DecidableEq κ] in
/-- The collector or `fini` makes a step while no buffer is taken. -/
theorem left_lt_of_point (hw : w = .collector ∨ w = .fini)
    (hpc : t.pc = Function.update s.pc w p) (hlist : t.listevt = s.listevt)
    (htaken : t.taken = []) (hleft : p.left cfg.kids.length < (s.pc w).left cfg.kids.length) :
    t.left cfg < s.left cfg := by
  have hne : (Writer.fini : Writer ι) ≠ .collector := nofun
  unfold State.left
  rw [hlist, htaken, hpc]
  rcases hw with rfl | rfl
  · rw [Function.update_self, Function.update_of_ne hne, List.map_nil, List.sum_nil]
    omega
  · rw [Function.update_self, Function.update_of_ne hne.symm, List.map_nil, List.sum_nil]
    omega

omit [DecidableEq κ] in
/-- The collector or `fini` takes a buffer while no other buffer is taken. -/
theorem left_lt_of_pop {listevt : List Evb} (ht : BuffersInv t) (hw : w = .collector ∨ w = .fini)
    (hloop : s.pc w = .loop) (hlist : s.listevt = evb :: listevt)
    (hpc : t.pc = Function.update s.pc w (.test evb)) (hrest : t.listevt = listevt)
    (htaken : t.taken = [evb]) : t.left cfg < s.left cfg := by
  have hne : (Writer.fini : Writer ι) ≠ .collector := nofun
  have hself : t.pc w = .test evb := by rw [hpc, Function.update_self]
  have hpending : (t.pc w).pending = some evb := by
    rw [hself]
    rfl
  have hstage : t.stage evb = 6 := by
    rw [ht.stage_eq hpending, hself]
    rfl
  have hafter : ∀ n, (t.pc w).left n = n + 3 := fun n => by
    rw [hself]
    rfl
  have hbefore : ∀ n, (s.pc w).left n = n + 1 := fun n => by
    rw [hloop]
    rfl
  unfold State.left
  rw [hlist, hrest, htaken, List.length_cons, List.map_singleton, List.sum_singleton, hstage]
  rcases hw with rfl | rfl
  · have hother : t.pc .fini = s.pc .fini := by rw [hpc, Function.update_of_ne hne]
    rw [hafter, hbefore, hother]
    omega
  · have hother : t.pc .collector = s.pc .collector := by
      rw [hpc, Function.update_of_ne hne.symm]
    rw [hafter, hbefore, hother]
    omega

/-- While no buffer is taken, the collector or `fini` can make a step. -/
theorem Inv.advance (h : Inv cfg written s) (hcalled : s.pc .fini ≠ .idle)
    (hfinished : ¬ s.Finished) (hnil : s.taken = []) : Advances cfg s := by
  have hpending : ∀ w evb, (s.pc w).pending ≠ some evb := by
    intro w evb hw
    have hmem := (h.buffers.taken evb).mpr ⟨w, hw⟩
    rw [hnil] at hmem
    cases hmem
  have hfinal : s.finalize_flushimator = true :=
    Bool.eq_true_of_not_eq_false fun hopen => hcalled (h.phase.called.mp hopen)
  -- a step to a point at which the writer has no buffer
  have hpoint : ∀ {w : Writer ι} {t} {p : Pc κ β}, w = .collector ∨ w = .fini →
      InOrder s (.writer w 0) → s.writer cfg w 0 = some t → t.pc = Function.update s.pc w p →
      t.listevt = s.listevt → t.taken = s.taken → p ≠ .idle →
      p.left cfg.kids.length < (s.pc w).left cfg.kids.length → Advances cfg s := by
    intro w t p hw hok hstep hpc hlist htaken hidle hleft
    refine ⟨.writer w 0, t, hok, hstep, ?_, left_lt_of_point hw hpc hlist (htaken.trans hnil)
      hleft⟩
    rw [hpc]
    by_cases hfini : Writer.fini = w
    · rw [hfini, Function.update_self]
      exact hidle
    · rw [Function.update_of_ne hfini]
      exact hcalled
  have hpop : ∀ {w : Writer ι} {evb listevt}, w = .collector ∨ w = .fini → s.pc w = .loop →
      s.canLock w = true → s.listevt = evb :: listevt → Advances cfg s := by
    intro w evb listevt hw hloop hlock hlist
    have hok : InOrder s (.writer w 0) := by
      show s.PointInOrder (s.pc w)
      rw [hloop]
      trivial
    have hstep : s.writer cfg w 0 = some { s.setPc w (.test evb) with
        listevt := listevt, taken := s.taken ++ [evb] } := by
      unfold State.writer
      rw [hloop]
      dsimp only
      unfold State.atLoop
      rw [if_pos hlock, hlist]
    obtain ⟨written', ht⟩ := h.writer hok hstep
    refine ⟨.writer w 0, _, hok, hstep, ?_, left_lt_of_pop ht.buffers hw hloop hlist rfl rfl ?_⟩
    · show Function.update s.pc w (.test evb) .fini ≠ .idle
      by_cases hfini : Writer.fini = w
      · rw [hfini, Function.update_self]
        nofun
      · rw [Function.update_of_ne hfini]
        exact hcalled
    · show s.taken ++ [evb] = [evb]
      rw [hnil, List.nil_append]
  have hok : ∀ {w : Writer ι}, s.pc w = .loop ∨ s.pc w = .join ∨ (∃ evb, s.pc w = .release evb) →
      InOrder s (.writer w 0) := by
    rintro w (hpc | hpc | ⟨evb, hpc⟩) <;>
    · show s.PointInOrder (s.pc w)
      rw [hpc]
      trivial
  have hcollector := h.phase.point .collector
  cases hc : s.pc .collector with
  | loop =>
      -- `fini` waits for the collector
      have hjoin : s.pc .fini = .join := by
        by_contra hjoin
        cases hc.symm.trans (h.phase.exited hcalled hjoin)
      have hlock : s.canLock .collector = true := by
        unfold State.canLock State.locked
        rw [hjoin]
        rfl
      cases hlist : s.listevt with
      | cons evb listevt => exact hpop (.inl rfl) hc hlock hlist
      | nil =>
          have hstep : s.writer cfg .collector 0 = some (s.setPc .collector .exited) := by
            unfold State.writer
            rw [hc]
            dsimp only
            unfold State.atLoop
            rw [if_pos hlock, hlist]
            dsimp only
            rw [if_pos hfinal]
          exact hpoint (.inl rfl) (hok (.inl hc)) hstep rfl rfl rfl nofun
            (by rw [hc]; exact Nat.succ_pos _)
  | release evb =>
      have hstep : s.writer cfg .collector 0 = some (s.atRelease .collector evb) := by
        unfold State.writer
        rw [hc]
      exact hpoint (.inl rfl) (hok (.inr (.inr ⟨evb, hc⟩))) hstep rfl rfl rfl nofun
        (by rw [hc]; exact Nat.lt_succ_self _)
  | exited =>
      have hfini := h.phase.point .fini
      cases hf : s.pc .fini with
      | join =>
          have hstep : s.writer cfg .fini 0 = some (s.setPc .fini .loop) := by
            unfold State.writer
            rw [hf]
            dsimp only
            rw [hc]
          refine hpoint (.inr rfl) (hok (.inr (.inl hf))) hstep rfl rfl rfl nofun ?_
          rw [hf]
          show cfg.kids.length + 1 < cfg.kids.length + 4
          omega
      | loop =>
          have hlock : s.canLock .fini = true := rfl
          cases hlist : s.listevt with
          | cons evb listevt => exact hpop (.inr rfl) hf hlock hlist
          | nil =>
              have hstep : s.writer cfg .fini 0 = some (s.setPc .fini (.close cfg.kids)) := by
                unfold State.writer
                rw [hf]
                dsimp only
                unfold State.atLoop
                rw [if_pos hlock, hlist]
              exact hpoint (.inr rfl) (hok (.inl hf)) hstep rfl rfl rfl nofun
                (by rw [hf]; exact Nat.lt_succ_self _)
      | release evb =>
          have hstep : s.writer cfg .fini 0 = some (s.atRelease .fini evb) := by
            unfold State.writer
            rw [hf]
          exact hpoint (.inr rfl) (hok (.inr (.inr ⟨evb, hf⟩))) hstep rfl rfl rfl nofun
            (by rw [hf]; exact Nat.lt_succ_self _)
      | close kids =>
          cases kids with
          | nil => exact absurd hf hfinished
          | cons k kids =>
              have hstep : s.writer cfg .fini 0 =
                  some ((s.closeKid cfg k).setPc .fini (.close kids)) := by
                unfold State.writer
                rw [hf]
              have horder : InOrder s (.writer .fini 0) := by
                show s.PointInOrder (s.pc .fini)
                rw [hf]
                show s.taken.filter (fun evb => decide (s.kid evb = k)) = []
                rw [hnil, List.filter_nil]
              have hsame : (s.closeKid cfg k).pc = s.pc ∧ (s.closeKid cfg k).listevt = s.listevt ∧
                  (s.closeKid cfg k).taken = s.taken := by
                unfold State.closeKid
                split <;> exact ⟨rfl, rfl, rfl⟩
              have hpc : ((s.closeKid cfg k).setPc .fini (.close kids)).pc =
                  Function.update s.pc .fini (.close kids) := by
                rw [← hsame.1]
                rfl
              exact hpoint (.inr rfl) horder hstep hpc hsame.2.1 hsame.2.2 nofun
                (by rw [hf]; exact Nat.lt_succ_self _)
      | idle => exact absurd hf hcalled
      | asleep => rw [hf] at hfini; exact absurd rfl hfini.1
      | exited => rw [hf] at hfini; exact absurd rfl hfini.2
      | test evb => exact absurd (by rw [hf]; rfl) (hpending .fini evb)
      | openFile evb => exact absurd (by rw [hf]; rfl) (hpending .fini evb)
      | dummy evb => exact absurd (by rw [hf]; rfl) (hpending .fini evb)
      | write evb towrite => exact absurd (by rw [hf]; rfl) (hpending .fini evb)
  | asleep =>
      obtain ⟨_, hopen⟩ := h.phase.asleep hc
      rw [hfinal] at hopen
      cases hopen
  | idle => rw [hc] at hcollector; exact absurd rfl (hcollector []).1
  | join => rw [hc] at hcollector; exact absurd rfl (hcollector []).2.1
  | close kids => rw [hc] at hcollector; exact absurd rfl (hcollector kids).2.2
  | test evb => exact absurd (by rw [hc]; rfl) (hpending .collector evb)
  | openFile evb => exact absurd (by rw [hc]; rfl) (hpending .collector evb)
  | dummy evb => exact absurd (by rw [hc]; rfl) (hpending .collector evb)
  | write evb towrite => exact absurd (by rw [hc]; rfl) (hpending .collector evb)

/-- Once `kaapi_eventrecorder_fini` is called, it can come to its end. -/
theorem Inv.leadsTo_finished (h : Inv cfg written s) (hcalled : s.pc .fini ≠ .idle) :
    ∃ t, (system cfg).LeadsTo InOrder s t ∧ t.Finished := by
  suffices hgood : ∃ t, (system cfg).LeadsTo InOrder s t ∧
      ((∃ written, Inv cfg written t) ∧ t.pc .fini ≠ .idle) ∧ t.Finished by
    obtain ⟨t, hleads, _, hfinished⟩ := hgood
    exact ⟨t, hleads, hfinished⟩
  refine TransitionSystem.exists_leadsTo_of_measure (State.left cfg) ?_ ⟨⟨written, h⟩, hcalled⟩
  rintro s ⟨⟨written, hinv⟩, hpc⟩ hgoal
  have hadvances : Advances cfg s := by
    by_cases hnil : s.taken = []
    · exact hinv.advance hpc hgoal hnil
    · exact hinv.drain hpc hnil
  obtain ⟨a, t, hok, hstep, hpc', hlt⟩ := hadvances
  exact ⟨t, .single hok hstep, ⟨hinv.step hok hstep, hpc'⟩, hlt⟩

/-- When `kaapi_eventrecorder_fini` is done, the file of each kid that has opened a buffer is its
header and the events that it pushed, and `kaapi_eventrecorder_fini` can always come to that. -/
structure Sound (cfg : Config κ ε β) (s : State κ ι ε β) : Prop where
  file : s.Finished → ∀ k, s.thread k ≠ .never →
    s.files k = cfg.header k ++ (s.pushed k).flatMap cfg.encode
  ends : s.pc .fini ≠ .idle → ∃ t, (system cfg).LeadsTo (fun _ _ => True) s t ∧ t.Finished

/-- In every run in which the writers write in order, the recorder is sound. -/
theorem recorder_sound (hs : (system cfg).ReachableWhen InOrder s) : Sound cfg s := by
  have hinv : ∃ written, Inv cfg written s := by
    induction hs with
    | start hinit => exact ⟨_, Inv.initial hinit⟩
    | next _ hok hstep ih =>
        obtain ⟨written, h⟩ := ih
        exact h.step hok hstep
  obtain ⟨written, h⟩ := hinv
  refine ⟨fun hfinished k hopened => ?_, fun hcalled => ?_⟩
  · refine h.file_eq hfinished ((h.phase.threads ?_ k).resolve_left hopened)
    by_contra hopen
    have hidle := h.phase.called.mp (Bool.eq_false_iff.mpr hopen)
    cases hfinished.symm.trans hidle
  · obtain ⟨t, hleads, hfinished⟩ := h.leadsTo_finished hcalled
    exact ⟨t, hleads.mono fun _ _ _ => trivial, hfinished⟩

/-- One kid, buffers of one event, and a header of one byte. -/
def smallConfig : Config Unit ℕ ℕ where
  bufferSize := 1
  kids := [()]
  kids_nodup := List.nodup_singleton ()
  mem_kids := fun _ => List.mem_singleton.mpr rfl
  encode := fun e => [e]
  zero := 0
  headerSize := 1
  header := fun _ => [7]
  header_length := fun _ => rfl

/-- After the initialization. -/
def start : State Unit Unit ℕ ℕ where
  buffers := fun _ => ⟨(), []⟩
  brk := 0
  thread := fun _ => .never
  listevt := []
  listevtfree := []
  listfd_set := fun _ => none
  fds := fun _ => ⟨(), 0, true⟩
  nextFd := 0
  files := fun _ => []
  pc := fun w => match w with
    | .collector => .loop
    | .fence _ => .idle
    | .fini => .idle
  finalize_flushimator := false
  pushed := fun _ => []
  taken := []

theorem initial_start : Initial start :=
  ⟨rfl, fun _ => rfl, rfl, rfl, fun _ => rfl, rfl, fun _ => rfl, rfl, rfl, fun _ => rfl, rfl⟩

/-- The thread pushes two events, each in a buffer of its own. -/
def twoBuffers : List (Action Unit Unit ℕ) :=
  [.openbuffer (), .push () 1, .flush (), .reopen (), .push () 2, .close ()]

/-- The end, with an empty fifo. -/
def ending : List (Action Unit Unit ℕ) :=
  [.fini, .writer .collector 0, .writer .fini 0, .writer .fini 0, .writer .fini 0]

/-- The collector writes the first buffer, then a fence the second one. -/
def inOrderRun : List (Action Unit Unit ℕ) :=
  twoBuffers ++ List.replicate 7 (.writer .collector 1) ++
    [.fencebuffers ()] ++ List.replicate 6 (.writer (.fence ()) 1) ++ ending

theorem recorder_sound_inOrderRun :
    ∃ s, (system smallConfig).replay InOrder start inOrderRun = some s ∧ s.Finished ∧
      s.files () = [7, 1, 2] ∧ Sound smallConfig s := by
  let s := ((system smallConfig).replay InOrder start inOrderRun).get (by decide)
  have hrun : (system smallConfig).replay InOrder start inOrderRun = some s :=
    (Option.some_get _).symm
  have hfinished : s.Finished := rfl
  exact ⟨s, hrun, hfinished, by decide, recorder_sound (.replay (.start initial_start) hrun)⟩

/-- The collector takes the first buffer and a fence the second one, which it writes first. -/
def overtakingRun : List (Action Unit Unit ℕ) :=
  twoBuffers ++ [.writer .collector 0, .fencebuffers ()] ++
    List.replicate 8 (.writer (.fence ()) 1) ++ List.replicate 4 (.writer .collector 1) ++ ending

theorem not_recorder_sound :
    ¬ ∀ (cfg : Config Unit ℕ ℕ) (s : State Unit Unit ℕ ℕ), (system cfg).Reachable s →
      Sound cfg s := by
  intro hall
  let s := ((system smallConfig).run start overtakingRun).get (by decide)
  have hs : (system smallConfig).Reachable s :=
    .replay (.start initial_start) (Option.some_get _).symm
  have hfile : s.files () = [7, 2, 1] := by decide
  have hpushed : s.pushed () = [1, 2] := by decide
  have hthread : s.thread () ≠ .never := by decide
  have hfinished : s.Finished := rfl
  rw [(hall smallConfig s hs).file hfinished () hthread, hpushed] at hfile
  exact absurd hfile (by decide)

end Xkblas.Trace.Recorder
