import Xkblas.Library.ListUpdate
import Xkblas.Trace.PerfCounters

/-!
# Counters on their way to the trace

`threadRead_eq_some_iff` has all that `kaapi_tracelib_thread_read` can do: its last loop asserts
that every counter of the set is a user counter, so it only returns for sets of user counters, and
then it stores their values from the first register on. `eventPushPerfctr_decode` is the round trip
of the events, which keeps the values of any set. `perfctr_iff` puts both together.
-/

namespace Xkblas.Trace.PerfCounters

open Library
open Library.BitMask

variable {ν : Type} {kproc : Kproc ν} {idset : BitVec 64} {dst : Dest} {m m' : Memory ν}
  {s s' : ℕ × Memory ν} {i k n idx : ℕ} {v : ν} {vs : List ν}

/-! ## The array -/

@[simp] theorem get_set_self (m : Memory ν) (dst : Dest) (k : ℕ) (v : ν) :
    (m.set dst k v).get dst = Function.update (m.get dst) k v := by
  cases dst <;> rfl

/-- The values are stored one after the other. -/
theorem foldl_store (dst : Dest) (vs : List ν) (s : ℕ × Memory ν) :
    (vs.foldl (store dst) s).1 = s.1 + vs.length ∧
      (List.range (s.1 + vs.length)).map ((vs.foldl (store dst) s).2.get dst) =
        (List.range s.1).map (s.2.get dst) ++ vs := by
  induction vs generalizing s with
  | nil => exact ⟨rfl, (List.append_nil _).symm⟩
  | cons v vs ih =>
      obtain ⟨hcount, hvalues⟩ := ih (store dst s v)
      have hsum : s.1 + (v :: vs).length = s.1 + 1 + vs.length := by
        rw [List.length_cons]
        omega
      rw [List.foldl_cons, hsum]
      refine ⟨hcount, hvalues.trans ?_⟩
      show (List.range (s.1 + 1)).map ((s.2.set dst s.1 v).get dst) ++ vs = _
      rw [get_set_self, map_range_update, List.append_assoc]
      rfl

/-- The registers from the end of the array on are not written. -/
theorem foldl_store_of_le (dst : Dest) (vs : List ν) (s : ℕ × Memory ν) (hi : s.1 + vs.length ≤ i) :
    (vs.foldl (store dst) s).2.perfRegs i = s.2.perfRegs i := by
  induction vs generalizing s with
  | nil => rfl
  | cons v vs ih =>
      rw [List.length_cons] at hi
      have hrest := ih (store dst s v) (by show s.1 + 1 + vs.length ≤ i; omega)
      rw [List.foldl_cons, hrest]
      cases dst with
      | regs => rfl
      | perfRegs =>
          have hne : i ≠ s.1 := by omega
          exact Function.update_of_ne hne v s.2.perfRegs

/-- The array of the collector is apart from the registers. -/
theorem foldl_store_regs (vs : List ν) (s : ℕ × Memory ν) :
    (vs.foldl (store .regs) s).2.perfRegs = s.2.perfRegs := by
  induction vs generalizing s with
  | nil => rfl
  | cons v vs ih => exact ih (store .regs s v)

/-! ## What a read can do -/

/-- The value of a user counter with a reader. -/
def Kproc.userValue (kproc : Kproc ν) (i : ℕ) : Option ν :=
  if (kproc.info i).kind = .user then (kproc.info i).reader else none

theorem readUser_eq (kproc : Kproc ν) (dst : Dest) (s : ℕ × Memory ν) (i : ℕ) :
    readUser kproc dst s i = (kproc.userValue i).map (store dst s) := by
  unfold readUser Kproc.userValue
  split <;> rfl

theorem foldlM_readUser {ids : List ℕ} : ids.foldlM (readUser kproc dst) s = some s' ↔
    ∃ vs : List ν, ids.map kproc.userValue = vs.map some ∧ s' = vs.foldl (store dst) s := by
  induction ids generalizing s with
  | nil =>
      constructor
      · intro h
        exact ⟨[], rfl, (Option.some.inj h).symm⟩
      · rintro ⟨vs, hvs, rfl⟩
        obtain rfl := List.map_eq_nil_iff.mp hvs.symm
        rfl
  | cons i ids ih =>
      rw [List.foldlM_cons, readUser_eq]
      cases hv : kproc.userValue i with
      | none =>
          refine iff_of_false (fun h => nomatch h) ?_
          rintro ⟨vs, hvs, _⟩
          rw [List.map_cons, hv] at hvs
          cases vs <;> cases hvs
      | some v =>
          show ids.foldlM (readUser kproc dst) (store dst s v) = some s' ↔ _
          rw [ih]
          constructor
          · rintro ⟨vs, hvs, rfl⟩
            refine ⟨v :: vs, ?_, rfl⟩
            rw [List.map_cons, List.map_cons, hv, hvs]
          · rintro ⟨vs, hvs, rfl⟩
            rw [List.map_cons, hv] at hvs
            cases vs with
            | nil => cases hvs
            | cons v' vs =>
                obtain ⟨hhead, htail⟩ := List.cons.inj hvs
                obtain rfl := Option.some.inj hhead
                exact ⟨vs, htail, rfl⟩

theorem user_of_userValue (h : kproc.userValue i ≠ none) : (kproc.info i).kind = .user := by
  unfold Kproc.userValue at h
  by_contra hkind
  exact h (if_neg hkind)

/-- In a set of user counters, a mask without user counters finds nothing. -/
theorem and_eq_zero {mask : BitVec 64} (hmask : ∀ i, mask.getLsbD i = true →
    (kproc.info i).kind ≠ .user) (h : ∀ i ∈ positions idset, (kproc.info i).kind = .user) :
    idset &&& mask = 0#64 := by
  by_contra hne
  obtain ⟨i, hi⟩ := ne_zero_iff.mp hne
  rw [BitVec.getLsbD_and, Bool.and_eq_true] at hi
  exact hmask i hi.2 (h i (mem_positions.mpr hi.1))

theorem softwareMask_lt (h : softwareMask.getLsbD i = true) : i < endSoftware := by
  unfold softwareMask at h
  rw [BitVec.getLsbD_ofNat, Bool.and_eq_true, Nat.testBit_two_pow_sub_one] at h
  exact of_decide_eq_true h.2

/-- A read returns only for sets of user counters with readers, and stores their values. -/
theorem threadRead_eq_some_iff : threadRead kproc idset dst m = some s' ↔
    ∃ vs : List ν, (positions idset).map kproc.userValue = vs.map some ∧
      s' = vs.foldl (store dst) (0, m) := by
  have huser : ∀ vs : List ν, (positions idset).map kproc.userValue = vs.map some →
      ∀ i ∈ positions idset, (kproc.info i).kind = .user := by
    intro vs hvs i hi
    have hmem : kproc.userValue i ∈ vs.map some := hvs ▸ List.mem_map_of_mem hi
    obtain ⟨v, _, hv⟩ := List.mem_map.mp hmem
    exact user_of_userValue (by rw [← hv]; exact Option.some_ne_none v)
  have hread : (∀ i ∈ positions idset, (kproc.info i).kind = .user) →
      threadRead kproc idset dst m = (positions idset).foldlM (readUser kproc dst) (0, m) := by
    intro hall
    have hsoftware : idset &&& softwareMask = 0#64 :=
      and_eq_zero (fun i hi => kproc.software_kind i (softwareMask_lt hi)) hall
    have hpapi : ¬ idset &&& kproc.papiEventMask ≠ 0#64 :=
      not_not.mpr (and_eq_zero kproc.papi_kind hall)
    unfold threadRead
    dsimp only
    rw [hsoftware, if_neg hpapi, Option.bind_some]
    rfl
  constructor
  · intro h
    obtain ⟨s, _, hloop⟩ := Option.bind_eq_some_iff.mp h
    obtain ⟨vs, hvs, _⟩ := foldlM_readUser.mp hloop
    rw [hread (huser vs hvs)] at h
    exact foldlM_readUser.mp h
  · rintro ⟨vs, hvs, rfl⟩
    rw [hread (huser vs hvs)]
    exact foldlM_readUser.mpr ⟨vs, hvs, rfl⟩

/-! ## Events -/

/-- A part of an event: its first counter is there, and the mark of the second says unused. -/
def Half (e : Event ν) (a : ℕ × ν) : Prop :=
  e.marks 0 = a.1 ∧ a.1 ≠ 255 ∧ e.marks 1 = 255 ∧ e.data 2 = a.2

theorem decode_eq (e : Event ν) : e.decode =
    if e.marks 0 = 255 then []
    else (e.marks 0, e.data 2) :: if e.marks 1 = 255 then [] else [(e.marks 1, e.data 3)] := by
  show ([0, 1].takeWhile fun i => e.marks i != 255).map _ = _
  by_cases hfirst : e.marks 0 = 255
  · simp [hfirst]
  · by_cases hsecond : e.marks 1 = 255 <;> simp [hfirst, hsecond]

theorem Half.decode {e : Event ν} {a : ℕ × ν} (h : Half e a) : e.decode = [a] := by
  obtain ⟨hmark, hne, hunused, hdata⟩ := h
  rw [decode_eq, hmark, if_neg hne, hunused, if_pos rfl, hdata]

theorem mark_eq (hidx : idx < 64) : idx % 2 ^ 8 = idx :=
  Nat.mod_eq_of_lt (by omega)

/-- The first counter of an event. -/
theorem half_put (e : Event ν) (hidx : idx < 64) (v : ν) : Half (e.put 0 idx v) (idx, v) := by
  have hzero : (e.put 0 idx v).marks 0 = idx := by
    show Function.update (Function.update e.marks 0 (idx % 2 ^ 8)) 1 255 0 = idx
    rw [Function.update_of_ne Nat.zero_ne_one, Function.update_self, mark_eq hidx]
  have hne : idx ≠ 255 := by omega
  refine ⟨hzero, hne, ?_, ?_⟩
  · show Function.update (Function.update e.marks 0 (idx % 2 ^ 8)) 1 255 1 = 255
    rw [Function.update_self]
  · show Function.update e.data 2 v 2 = v
    rw [Function.update_self]

theorem half_update {e : Event ν} {a : ℕ × ν} (buffer : ℕ → Event ν) (p : ℕ) (h : Half e a) :
    Half (Function.update buffer p e p) a := by
  rw [Function.update_self]
  exact h

/-- The second counter of an event. -/
theorem decode_put {e : Event ν} {a : ℕ × ν} (h : Half e a) (hidx : idx < 64) (v : ν) :
    (e.put 1 idx v).decode = [a, (idx, v)] := by
  obtain ⟨hmark, hne, _, hdata⟩ := h
  have hzero : (e.put 1 idx v).marks 0 = a.1 := by
    show Function.update (Function.update e.marks 1 (idx % 2 ^ 8)) 2 255 0 = a.1
    rw [Function.update_of_ne (by omega), Function.update_of_ne Nat.zero_ne_one, hmark]
  have hone : (e.put 1 idx v).marks 1 = idx := by
    show Function.update (Function.update e.marks 1 (idx % 2 ^ 8)) 2 255 1 = idx
    rw [Function.update_of_ne (by omega), Function.update_self, mark_eq hidx]
  have htwo : (e.put 1 idx v).data 2 = a.2 := by
    show Function.update e.data 3 v 2 = a.2
    rw [Function.update_of_ne (by omega), hdata]
  have hthree : (e.put 1 idx v).data 3 = v := by
    show Function.update e.data 3 v 3 = v
    rw [Function.update_self]
  have hne' : idx ≠ 255 := by omega
  rw [decode_eq, hzero, if_neg hne, hone, if_neg hne', htwo, hthree]

/-- The state of the loop after the counters `done`: the events before the current one hold all of
them, or all but the last, which is in the current event. -/
def Pushed (old : List (Event ν)) (done : List (ℕ × ν)) (s : PushState ν) : Prop :=
  s.evb.pos < bufferSize ∧ match s.evt with
    | none => s.cnt = 0 ∧ ∃ evs, s.evb.events = old ++ evs ∧ evs.flatMap Event.decode = done
    | some p => s.cnt = 1 ∧ s.evb.pos = p + 1 ∧ ∃ evs a,
        s.evb.flushed ++ (List.range p).map s.evb.buffer = old ++ evs ∧
          done = evs.flatMap Event.decode ++ [a] ∧ Half (s.evb.buffer p) a

theorem reserve_events (evb : Buffers ν) : evb.reserve.events = evb.events := by
  unfold Buffers.reserve
  split
  · exact List.append_nil _
  · rfl

theorem reserve_pos (evb : Buffers ν) : evb.reserve.pos + 1 < bufferSize := by
  unfold Buffers.reserve
  split
  case isTrue =>
    show 0 + 1 < 65520
    omega
  case isFalse h => exact not_le.mp h

/-- A turn of the loop puts one more counter into the events. -/
theorem Pushed.step {old : List (Event ν)} {done : List (ℕ × ν)} {s : PushState ν}
    (h : Pushed old done s) (header : Header) (perfctr : ℕ → ν) (hidx : idx < 64) :
    Pushed old (done ++ [(idx, perfctr s.i)]) (pushCounter header perfctr s idx) ∧
      (pushCounter header perfctr s idx).i = s.i + 1 := by
  obtain ⟨evb, evt, cnt, i⟩ := s
  obtain ⟨hpos, hshape⟩ := h
  cases evt with
  | none =>
      -- a new event, perhaps in a new buffer
      obtain ⟨rfl, evs, hevents, rfl⟩ := hshape
      have hold : evb.reserve.events = old ++ evs := (reserve_events evb).trans hevents
      refine ⟨⟨reserve_pos evb, rfl, rfl, evs, (idx, perfctr i), ?_, rfl, ?_⟩, rfl⟩
      · refine Eq.trans (congrArg (evb.reserve.flushed ++ ·) ?_) hold
        exact (map_range_update_of_le _ le_rfl _).trans (map_range_update_of_le _ le_rfl _)
      · exact half_update _ _ (half_put _ hidx (perfctr i))
  | some p =>
      obtain ⟨rfl, hp, evs, a, hevents, rfl, hhalf⟩ := hshape
      refine ⟨⟨hpos, rfl, evs ++ [(evb.buffer p).put 1 idx (perfctr i)], ?_, ?_⟩, rfl⟩
      · show evb.flushed ++ (List.range evb.pos).map (Function.update evb.buffer p _) = _
        rw [hp, map_range_update, ← List.append_assoc, hevents, List.append_assoc]
        rfl
      · rw [List.flatMap_append, List.flatMap_singleton, decode_put hhalf hidx, List.append_assoc]
        rfl

/-- The counters of a list. -/
theorem Pushed.run {old : List (Event ν)} {done : List (ℕ × ν)} {s : PushState ν} {ids : List ℕ}
    (h : Pushed old done s) (header : Header) (perfctr : ℕ → ν) (hids : ∀ idx ∈ ids, idx < 64) :
    Pushed old (done ++ ids.zip ((List.range' s.i ids.length).map perfctr))
      (ids.foldl (pushCounter header perfctr) s) := by
  induction ids generalizing s done with
  | nil =>
      rw [List.zip_nil_left, List.append_nil]
      exact h
  | cons idx ids ih =>
      obtain ⟨hstep, hi⟩ := h.step header perfctr (hids idx List.mem_cons_self)
      have hrest := ih hstep fun j hj => hids j (List.mem_cons_of_mem idx hj)
      rw [hi, List.append_assoc] at hrest
      rw [List.length_cons, List.range'_succ, List.map_cons, List.zip_cons_cons]
      exact hrest

/-- The loop ends with whole events. -/
theorem Pushed.done {old : List (Event ν)} {done : List (ℕ × ν)} {s : PushState ν}
    (h : Pushed old done s) :
    ∃ evs, s.evb.events = old ++ evs ∧ evs.flatMap Event.decode = done := by
  obtain ⟨evb, evt, cnt, i⟩ := s
  obtain ⟨_, hshape⟩ := h
  cases evt with
  | none => exact hshape.2
  | some p =>
      obtain ⟨_, hp, evs, a, hevents, rfl, hhalf⟩ := hshape
      refine ⟨evs ++ [evb.buffer p], ?_, ?_⟩
      · show evb.flushed ++ (List.range evb.pos).map evb.buffer = _
        rw [hp, List.range_succ, List.map_append, ← List.append_assoc, hevents, List.append_assoc]
        rfl
      · rw [List.flatMap_append, List.flatMap_singleton, hhalf.decode]

theorem lt_of_mem_positions (h : i ∈ positions idset) : i < 64 :=
  lt_of_getLsbD (mem_positions.mp h)

/-- The events of a set of counters are read back as the counters with their values. -/
theorem eventPushPerfctr_decode (header : Header) (idset : BitVec 64) (perfctr : ℕ → ν)
    {evb : Buffers ν} (hpos : evb.pos < bufferSize) :
    (eventPushPerfctr header idset perfctr evb).pos < bufferSize ∧
      ∃ evs, (eventPushPerfctr header idset perfctr evb).events = evb.events ++ evs ∧
        evs.flatMap Event.decode = (positions idset).zip
          ((List.range (positions idset).length).map perfctr) := by
  have hstart : Pushed evb.events [] ⟨evb, none, 0, 0⟩ :=
    ⟨hpos, rfl, [], (List.append_nil _).symm, rfl⟩
  have hrun := hstart.run header perfctr fun idx (hidx : idx ∈ positions idset) =>
    lt_of_mem_positions hidx
  rw [List.nil_append, ← List.range_eq_range'] at hrun
  exact ⟨hrun.1, hrun.done⟩

/-! ## The condition -/

/-- The counters of a set in increasing order. -/
def idsOf (idset : BitVec 64) : List ℕ :=
  (List.range 64).filter fun i => idset.getLsbD i

/-- The value of a counter: a software register of the thread, or what PAPI or the reader
returns. -/
def Kproc.value (kproc : Kproc ν) (m : Memory ν) (i : ℕ) : Option ν :=
  if i < endSoftware then some (m.perfRegs i)
  else if kproc.papiEventMask.getLsbD i = true then some (kproc.papiValue i)
  else (kproc.info i).reader

/-- The counters reach the trace: the read returns with the values of the set, in the order of the
counters, the software registers of the thread are unchanged, and the events that are pushed for the
set are read back as the counters with these values. -/
def Meets (kproc : Kproc ν) (dst : Dest) (idset : BitVec 64) (m : Memory ν) : Prop :=
  ∃ n m' vs, threadRead kproc idset dst m = some (n, m') ∧
    (idsOf idset).map (kproc.value m) = vs.map some ∧
      (List.range n).map (m'.get dst) = vs ∧
        (∀ i, i < endSoftware → m'.perfRegs i = m.perfRegs i) ∧
          ∀ (header : Header) (evb : Buffers ν), evb.pos < bufferSize → ∃ evs,
            (eventPushPerfctr header idset (m'.get dst) evb).events = evb.events ++ evs ∧
              evs.flatMap Event.decode = (idsOf idset).zip vs

/-- All counters of the set are user counters with a reader. If the values go to the register file
of the thread, they are already there. -/
def Condition (kproc : Kproc ν) (dst : Dest) (idset : BitVec 64) (m : Memory ν) : Prop :=
  (∀ i ∈ idsOf idset, (kproc.info i).kind = .user ∧ (kproc.info i).reader ≠ none) ∧
    (dst = .perfRegs → ∀ (k i : ℕ), (idsOf idset)[k]? = some i → k < endSoftware →
      (kproc.info i).reader = some (m.perfRegs k))

/-- A user counter is none of the others. -/
theorem value_of_user (m : Memory ν) (h : (kproc.info i).kind = .user) :
    kproc.value m i = (kproc.info i).reader ∧ kproc.userValue i = (kproc.info i).reader := by
  have hsoftware : ¬ i < endSoftware := fun hi => kproc.software_kind i hi h
  have hpapi : ¬ kproc.papiEventMask.getLsbD i = true := fun hi => kproc.papi_kind i hi h
  unfold Kproc.value Kproc.userValue
  rw [if_neg hsoftware, if_neg hpapi, if_pos h]
  exact ⟨rfl, rfl⟩

/-- Values that are there can be listed. -/
theorem exists_values {f : ℕ → Option ν} {ids : List ℕ} (h : ∀ i ∈ ids, f i ≠ none) :
    ∃ vs : List ν, ids.map f = vs.map some := by
  induction ids with
  | nil => exact ⟨[], rfl⟩
  | cons i ids ih =>
      obtain ⟨v, hv⟩ := Option.ne_none_iff_exists'.mp (h i List.mem_cons_self)
      obtain ⟨vs, hvs⟩ := ih fun j hj => h j (List.mem_cons_of_mem i hj)
      refine ⟨v :: vs, ?_⟩
      rw [List.map_cons, List.map_cons, hv, hvs]

/-- The entry of an array that is given by its list. -/
theorem get_of_map_range {f : ℕ → ν} (h : (List.range n).map f = vs) (hv : vs[k]? = some v) :
    f k = v := by
  rw [← h, List.getElem?_map] at hv
  obtain ⟨j, hj, hf⟩ := Option.map_eq_some_iff.mp hv
  obtain ⟨hlt, hj⟩ := List.getElem?_eq_some_iff.mp hj
  rw [List.getElem_range] at hj
  rw [hj]
  exact hf

/-- The value of the `k`th counter. -/
theorem getElem?_of_map {f : ℕ → Option ν} {ids : List ℕ} (h : ids.map f = vs.map some) (k : ℕ) :
    ids[k]?.map f = vs[k]?.map some := by
  rw [← List.getElem?_map, h, List.getElem?_map]

/-- The registers after a read are the old ones exactly if the values were there before. -/
theorem registers_unchanged_iff (vs : List ν) (m : Memory ν) :
    (∀ i, i < endSoftware → (vs.foldl (store dst) (0, m)).2.perfRegs i = m.perfRegs i) ↔
      (dst = .perfRegs → ∀ (k : ℕ) (v : ν), vs[k]? = some v → k < endSoftware →
        v = m.perfRegs k) := by
  cases dst with
  | regs =>
      rw [foldl_store_regs]
      exact iff_of_true (fun _ _ => rfl) nofun
  | perfRegs =>
      obtain ⟨_, hvalues⟩ := foldl_store .perfRegs vs (0, m)
      have hget : ∀ (k : ℕ) (v : ν), vs[k]? = some v →
          (vs.foldl (store .perfRegs) (0, m)).2.perfRegs k = v :=
        fun k v hv => get_of_map_range (f := (vs.foldl (store .perfRegs) (0, m)).2.perfRegs)
          hvalues hv
      constructor
      · intro h _ k v hv hk
        rw [← hget k v hv]
        exact h k hk
      · intro h i hi
        cases hv : vs[i]? with
        | some v => rw [hget i v hv, h rfl i v hv hi]
        | none =>
            refine foldl_store_of_le .perfRegs vs (0, m) ?_
            rw [Nat.zero_add]
            exact List.getElem?_eq_none_iff.mp hv

/-- The counters of a set reach the trace exactly under the condition. -/
theorem perfctr_iff (kproc : Kproc ν) (dst : Dest) (idset : BitVec 64) (m : Memory ν) :
    Meets kproc dst idset m ↔ Condition kproc dst idset m := by
  have hids : positions idset = idsOf idset := positions_eq idset
  constructor
  · rintro ⟨n, m', vs', hread, _, _, hkeep, _⟩
    obtain ⟨vs, hvs, hres⟩ := threadRead_eq_some_iff.mp hread
    obtain ⟨rfl, rfl⟩ := Prod.mk.inj (hres.trans Prod.mk.eta.symm)
    rw [hids] at hvs
    have huser : ∀ (k i : ℕ), (idsOf idset)[k]? = some i →
        ∃ v, vs[k]? = some v ∧ (kproc.info i).kind = .user ∧ (kproc.info i).reader = some v := by
      intro k i hi
      have hk := getElem?_of_map hvs k
      rw [hi] at hk
      obtain ⟨v, hv, hvalue⟩ := Option.map_eq_some_iff.mp hk.symm
      have hkind : (kproc.info i).kind = .user :=
        user_of_userValue (by rw [← hvalue]; exact Option.some_ne_none v)
      exact ⟨v, hv, hkind, (value_of_user m hkind).2.symm.trans hvalue.symm⟩
    refine ⟨fun i hi => ?_, fun hdst k i hi hk => ?_⟩
    · obtain ⟨k, hk⟩ := List.getElem?_of_mem hi
      obtain ⟨v, _, hkind, hreader⟩ := huser k i hk
      exact ⟨hkind, by rw [hreader]; exact Option.some_ne_none v⟩
    · obtain ⟨v, hv, _, hreader⟩ := huser k i hi
      rw [hreader, (registers_unchanged_iff vs m).mp hkeep hdst k v hv hk]
  · rintro ⟨huser, hkeep⟩
    have hreaders : ∀ i ∈ idsOf idset, kproc.userValue i ≠ none := fun i hi => by
      rw [(value_of_user m (huser i hi).1).2]
      exact (huser i hi).2
    obtain ⟨vs, hvs⟩ := exists_values hreaders
    have hread : threadRead kproc idset dst m = some (vs.foldl (store dst) (0, m)) :=
      threadRead_eq_some_iff.mpr ⟨vs, hids ▸ hvs, rfl⟩
    obtain ⟨hcount, hvalues⟩ := foldl_store dst vs (0, m)
    rw [Nat.zero_add] at hcount hvalues
    have hlength : (positions idset).length = vs.length := by
      have heq := congrArg List.length hvs
      rw [List.length_map, List.length_map] at heq
      rw [hids, heq]
    refine ⟨_, _, vs, hread, ?_, ?_, ?_, fun header evb hpos => ?_⟩
    · rw [← hvs]
      refine List.map_congr_left fun i hi => ?_
      rw [(value_of_user m (huser i hi).1).1, (value_of_user m (huser i hi).1).2]
    · rw [hcount]
      exact hvalues
    · refine (registers_unchanged_iff vs m).mpr fun hdst k v hv hk => ?_
      have hmap := getElem?_of_map hvs k
      rw [hv] at hmap
      obtain ⟨i, hi, hvalue⟩ := Option.map_eq_some_iff.mp hmap
      have hreader := hkeep hdst k i hi hk
      rw [← (value_of_user m (huser i (List.mem_of_getElem? hi)).1).2, hvalue] at hreader
      exact Option.some.inj hreader
    · obtain ⟨_, evs, hevents, hdecode⟩ := eventPushPerfctr_decode header idset
        ((vs.foldl (store dst) (0, m)).2.get dst) hpos
      refine ⟨evs, hevents, hdecode.trans ?_⟩
      rw [hlength, hvalues, hids]
      rfl

/-- A thread without PAPI and without user counters. -/
def plain : Kproc ℤ where
  info := fun _ => ⟨.unset, none⟩
  papiEventMask := 0#64
  papiIds := []
  papiOk := true
  papiValue := fun _ => 0
  software_kind := nofun
  papi_kind := nofun

/-- A software counter fails the assertion of the last loop. -/
theorem not_perfctr : ¬ ∀ (kproc : Kproc ℤ) (dst : Dest) (idset : BitVec 64) (m : Memory ℤ),
    Meets kproc dst idset m := by
  intro h
  obtain ⟨n, m', _, hread, _⟩ := h plain .perfRegs (BitVec.twoPow 64 4) ⟨fun _ => 0, fun _ => 0⟩
  obtain ⟨vs, hvs, _⟩ := threadRead_eq_some_iff.mp hread
  have hmem : 4 ∈ positions (BitVec.twoPow 64 4) := mem_positions.mpr (by decide)
  have hnone : none ∈ vs.map some := hvs ▸ List.mem_map_of_mem hmem
  obtain ⟨v, _, hv⟩ := List.mem_map.mp hnone
  cases hv

end Xkblas.Trace.PerfCounters
