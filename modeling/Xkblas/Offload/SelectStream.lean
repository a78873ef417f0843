import Mathlib.Data.Int.CardIntervalMod
import Mathlib.Data.Nat.Periodic
import Xkblas.Library.MachineInt

/-!
# The choice of a stream

`kaapi_offload_select_io_stream` takes the streams of a type in turn, by a counter of 32 bits. For
kernels a loop looks for the stream with the smallest number of pending instructions. The loop reads
the load of the stream `snext` that it has found so far and not of the stream `i`, so that it never
leaves the stream whose turn it is (`search_eq`). After `2 ^ 31` calls the counter is negative, and
so is its remainder.
-/

namespace Xkblas.Offload.SelectStream

open Library

/-- The positions of the pending instructions of a `kaapi_io_stream_t`. -/
structure IoStream where
  pos_rp : ℕ
  pos_wp : ℕ

/-- The number of pending instructions. -/
def IoStream.pending (ios : IoStream) : ℕ :=
  ios.pos_wp - ios.pos_rp

/-- `kaapi_io_stream_sizepending`. -/
def IoStream.sizepending (ios : IoStream) : ℤ :=
  int32 (ios.pos_wp - ios.pos_rp)

/-- The fields of a `kaapi_offload_stream_t` for one type of streams. -/
structure Streams where
  count : ℕ
  next : ℤ
  ios : ℤ → IoStream

/-- The variables of the search. -/
structure Search where
  snext : ℤ
  smin : ℤ
  smax : ℤ

/-- An iteration of the loop over the streams. -/
def Search.body (ios : ℤ → IoStream) (v : Search) (i : ℕ) : Search :=
  let load := (ios v.snext).sizepending
  if load < v.smin then { v with smin := load, snext := i }
  else if v.smax < load then { v with smax := load }
  else v

/-- The loop for kernels. -/
def search (ios : ℤ → IoStream) (count : ℕ) (snext : ℤ) : ℤ :=
  let smin := (ios snext).sizepending
  ((List.range' 1 (count - 1)).foldl (Search.body ios) ⟨snext, smin, smin⟩).snext

/-- `kaapi_offload_select_io_stream`: the index of the stream, and the streams after the call.
`kern` is set for the type `KAAPI_IO_STREAM_KERN`. -/
def selectIoStream (kern : Bool) (s : Streams) : ℤ × Streams :=
  if 1 < s.count then
    let snext := s.next.tmod s.count
    (if kern = true then search s.ios s.count snext else snext,
      { s with next := int32 (s.next + 1) })
  else (s.next, s)

section Calls

variable (kern : Bool) (count : ℕ) (ios : ℕ → ℤ → IoStream)

/-- The streams before the call number `n`; `ios n` are the pending instructions at this call. -/
def streams : ℕ → Streams
  | 0 => ⟨count, 0, ios 0⟩
  | n + 1 => { (selectIoStream kern (streams n)).2 with ios := ios (n + 1) }

/-- The index of the stream that the call number `n` returns. -/
def choice (n : ℕ) : ℤ :=
  (selectIoStream kern (streams kern count ios n)).1

/-- The call number `n` returns an existing stream. For kernels it has the smallest number of
pending instructions; for the other types, the calls from number `n` on use every stream as often
as the others, before the counter wraps. -/
structure Chooses (n : ℕ) : Prop where
  existing : 0 ≤ choice kern count ios n ∧ choice kern count ios n < count
  minimal : kern = true → ∀ j < count,
    (ios n (choice kern count ios n)).pending ≤ (ios n j).pending
  even : kern = false → ∀ k, n + k * count ≤ 2 ^ 31 → ∀ j < count,
    ((Finset.Ico n (n + k * count)).filter fun i => choice kern count ios i = j).card = k

end Calls

/-- The stream whose turn it is at the call number `n`. -/
def turn (count n : ℕ) : ℤ :=
  (int32 n).tmod count

section

variable {kern : Bool} {count n : ℕ} {ios : ℕ → ℤ → IoStream}

/-- The loop never leaves the stream where it starts: the load that it compares with the smallest
one is that of the same stream. -/
theorem search_eq (ios : ℤ → IoStream) (count : ℕ) (snext : ℤ) : search ios count snext = snext := by
  have hbody : ∀ (is : List ℕ) (v : Search), v.smin = (ios v.snext).sizepending →
      (is.foldl (Search.body ios) v).snext = v.snext := by
    intro is
    induction is with
    | nil => exact fun _ _ => rfl
    | cons i is ih =>
        intro v hmin
        have hstep : (v.body ios i).snext = v.snext ∧ (v.body ios i).smin = v.smin := by
          unfold Search.body
          rw [if_neg (by rw [hmin]; exact lt_irrefl _)]
          split <;> exact ⟨rfl, rfl⟩
        rw [List.foldl_cons, ih, hstep.1]
        rw [hstep.1, hstep.2, hmin]
  exact hbody _ ⟨snext, _, _⟩ rfl

theorem streams_eq (hcount : 1 < count) :
    streams kern count ios n = ⟨count, int32 n, ios n⟩ := by
  induction n with
  | zero => rfl
  | succ n ih =>
      rw [streams, ih, selectIoStream, if_pos hcount]
      have hnext : int32 (int32 n + 1) = int32 (n + 1 : ℕ) := by
        unfold int32
        omega
      rw [← hnext]

theorem streams_one (n : ℕ) : streams kern 1 ios n = ⟨1, 0, ios n⟩ := by
  induction n with
  | zero => rfl
  | succ n ih =>
      rw [streams, ih]
      rfl

/-- All types of streams are taken in turn. -/
theorem choice_eq (hcount : 1 < count) : choice kern count ios n = turn count n := by
  unfold choice
  rw [streams_eq hcount, selectIoStream, if_pos hcount]
  dsimp only
  rw [search_eq, ite_self]
  rfl

theorem choice_one (n : ℕ) : choice kern 1 ios n = 0 := by
  unfold choice
  rw [streams_one]
  rfl

/-- Before the counter wraps the turn is the number of the call modulo the count. -/
theorem turn_eq (hn : n < 2 ^ 31) : turn count n = (n % count : ℕ) := by
  unfold turn
  rw [int32_of_lt (by omega) (by omega), Int.tmod_eq_emod_of_nonneg (Int.natCast_nonneg n),
    Int.natCast_mod]

/-- `k * count` consecutive calls before the counter wraps. -/
theorem choice_even (hcount : 1 ≤ count) {k : ℕ} (hk : n + k * count ≤ 2 ^ 31) {j : ℕ}
    (hj : j < count) :
    ((Finset.Ico n (n + k * count)).filter fun i => choice kern count ios i = j).card = k := by
  have hturn : ∀ i ∈ Finset.Ico n (n + k * count),
      choice kern count ios i = j ↔ i ≡ j [MOD count] := by
    intro i hi
    have hlt := (Finset.mem_Ico.mp hi).2
    unfold Nat.ModEq
    rw [Nat.mod_eq_of_lt hj]
    rcases hcount.eq_or_lt with hone | hmany
    · subst hone
      rw [choice_one, Nat.mod_one]
      omega
    · rw [choice_eq hmany, turn_eq (by omega)]
      exact Int.natCast_inj
  rw [Finset.filter_congr hturn]
  have hperiodic : Function.Periodic (fun i => i ≡ j [MOD count]) (k * count) := by
    intro i
    show (i + k * count ≡ j [MOD count]) = (i ≡ j [MOD count])
    unfold Nat.ModEq
    rw [Nat.add_mul_mod_self_right]
  rw [Nat.filter_Ico_card_eq_of_periodic n (k * count) _ hperiodic, Nat.count_modEq_card _ hcount,
    Nat.mul_div_cancel k hcount, Nat.mul_mod_left, if_neg (Nat.not_lt_zero _), Nat.add_zero]

/-- The remainder of a negative counter is the index of a stream only if it is 0. -/
theorem turn_exists_iff (hcount : 1 ≤ count) :
    0 ≤ turn count n ∧ turn count n < count ↔ 0 ≤ int32 n ∨ (count : ℤ) ∣ int32 n := by
  unfold turn
  rcases le_or_gt 0 (int32 n) with hpos | hneg
  · rw [Int.tmod_eq_emod_of_nonneg hpos]
    exact iff_of_true ⟨Int.emod_nonneg _ (by omega), Int.emod_lt_of_pos _ (by omega)⟩ (.inl hpos)
  · have hle : (int32 n).tmod count ≤ 0 := by
      have hopp := Int.tmod_nonneg (count : ℤ) (Int.neg_nonneg.mpr hneg.le)
      rw [Int.neg_tmod] at hopp
      omega
    constructor
    · intro h
      exact .inr (Int.dvd_of_tmod_eq_zero (le_antisymm hle h.1))
    · intro h
      have hdvd := h.resolve_left (not_le.mpr hneg)
      rw [Int.tmod_eq_zero_of_dvd hdvd]
      omega

/-- The choice is as wanted exactly if there is one stream, or the counter is not negative or a
multiple of the count and, for kernels, it is the turn of a stream with the smallest number of
pending instructions. -/
theorem chooses_iff (kern : Bool) (ios : ℕ → ℤ → IoStream) (n : ℕ) (hcount : 1 ≤ count) :
    Chooses kern count ios n ↔ count = 1 ∨ (0 ≤ int32 n ∨ (count : ℤ) ∣ int32 n) ∧
      (kern = true → ∀ j < count, (ios n (turn count n)).pending ≤ (ios n j).pending) := by
  rcases hcount.eq_or_lt with hone | hmany
  · subst hone
    refine iff_of_true ⟨?_, fun _ j hj => ?_, fun _ k hk j hj => choice_even le_rfl hk hj⟩ (.inl rfl)
    · rw [choice_one]
      decide
    · rw [choice_one, Nat.lt_one_iff.mp hj]
      exact le_rfl
  · have hchoice : choice kern count ios n = turn count n := choice_eq hmany
    rw [← turn_exists_iff hcount, ← hchoice]
    constructor
    · intro h
      exact .inr ⟨h.existing, h.minimal⟩
    · intro h
      obtain ⟨hexisting, hminimal⟩ := h.resolve_left hmany.ne'
      exact ⟨hexisting, hminimal, fun _ k hk j hj => choice_even hcount hk hj⟩

/-- Two kernel streams, the first one of which has an instruction. -/
def busyStream (j : ℤ) : IoStream :=
  if j = 0 then ⟨0, 1⟩ else ⟨0, 0⟩

theorem chooses_second : Chooses true 2 (fun _ => busyStream) 1 := by
  refine (chooses_iff true (fun _ => busyStream) 1 (by decide)).mpr (.inr ⟨.inl (by decide), ?_⟩)
  exact fun _ j _ => Nat.zero_le _

/-- The first call takes the first stream. -/
theorem not_chooses : ¬ Chooses true 2 (fun _ => busyStream) 0 := by
  intro h
  have hle := h.minimal rfl 1 (by decide)
  rw [choice_eq (by decide)] at hle
  exact absurd hle (by decide)

end

end Xkblas.Offload.SelectStream
