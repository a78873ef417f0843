import Xkblas.Library.ListUpdate
import Xkblas.Trace.ParserSafety

/-!
# The lists of numbers

`ListOf` says what a list is: numbers that are separated by commas up to the end of the text. The
loop of the list parsers keeps `Sized`, which bounds the array. `parseListLoop_reads` follows the
loop on a list, and `parseListLoop_ok` has what its success says about the list. The list parsers
store their count in any case. `parser_iff` has the condition for all parsers.
-/

namespace Xkblas.Trace.Parser

open Library

variable {s t tail rest w : List Char} {n v : ℕ} {vs vs' : List ℕ} {limit width size count : ℕ}
  {p : NumberParser} {values : Values} {o : ListOutcome}

/-- The text is a list of numbers up to its end. -/
inductive ListOf (limit : ℕ) : List Char → List ℕ → Prop where
  | last {s : List Char} {n : ℕ} {tail : List Char} (hnumber : StartsWith s n tail)
      (hmax : n ≤ limit) (hend : ∀ c ∈ tail, isSpace c = true) : ListOf limit s [n]
  | cons {s : List Char} {n : ℕ} {tail w rest : List Char} {vs : List ℕ}
      (hnumber : StartsWith s n tail) (hmax : n ≤ limit) (hspace : Run isSpace tail w (',' :: rest))
      (hrest : ListOf limit rest vs) : ListOf limit s (n :: vs)

theorem eatSpace_of_end (hend : ∀ c ∈ tail, isSpace c = true) : eatSpace tail = [] :=
  (Run.whole hend).dropWhile

/-- A text is one list at most. -/
theorem ListOf.unique (h : ListOf limit s vs) (h' : ListOf limit s vs') : vs = vs' := by
  induction h generalizing vs' with
  | last hnumber _ hend =>
      cases h' with
      | last hnumber' _ _ =>
          obtain ⟨rfl, _⟩ := hnumber.unique hnumber'
          rfl
      | cons hnumber' _ hspace _ =>
          obtain ⟨_, rfl⟩ := hnumber.unique hnumber'
          have heat := eatSpace_of_end hend
          rw [show eatSpace _ = _ from hspace.dropWhile] at heat
          cases heat
  | cons hnumber _ hspace _ ih =>
      cases h' with
      | last hnumber' _ hend =>
          obtain ⟨_, rfl⟩ := hnumber.unique hnumber'
          have heat := eatSpace_of_end hend
          rw [show eatSpace _ = _ from hspace.dropWhile] at heat
          cases heat
      | cons hnumber' _ hspace' hrest' =>
          obtain ⟨rfl, rfl⟩ := hnumber.unique hnumber'
          obtain ⟨_, heq⟩ := hspace.unique hspace'
          obtain ⟨_, rfl⟩ := List.cons.inj heq
          rw [ih hrest']

theorem ListOf.mono {limit' : ℕ} (hle : limit ≤ limit') (h : ListOf limit s vs) :
    ListOf limit' s vs := by
  induction h with
  | last hnumber hmax hend => exact .last hnumber (hmax.trans hle) hend
  | cons hnumber hmax hspace _ ih => exact .cons hnumber (hmax.trans hle) hspace ih

theorem ListOf.le_max (h : ListOf limit s vs) : ∀ v ∈ vs, v ≤ limit := by
  induction h with
  | last _ hmax _ =>
      intro v hv
      rw [List.mem_singleton.mp hv]
      exact hmax
  | cons _ hmax _ _ ih =>
      intro v hv
      rcases List.mem_cons.mp hv with rfl | hv
      · exact hmax
      · exact ih v hv

/-! ## The elements -/

theorem ne_delay_of_units (hunits : p.units = []) : p ≠ .delay := by
  rintro rfl
  cases hunits

/-- An element in the range, other than the value that is taken for an error. -/
theorem element_read (hunits : p.units = []) (h : StartsWith s n tail) (hmax : n ≤ p.max)
    (hne : n ≠ 2 ^ 64 - 1) : p.run s = ⟨true, some n, tail⟩ := by
  have hcond : p.Condition s := (condition_of_startsWith h).mpr
    ⟨fun heq => absurd heq hne, fun hd => absurd hd (ne_delay_of_units hunits)⟩
  refine ((p.meets_iff s).mpr hcond).1 n tail ?_
  refine (reads_of_startsWith h).mpr ⟨1, ?_, (Nat.mul_one n).symm, hmax⟩
  exact if_pos hunits

/-- The greatest value is refused. -/
theorem element_refused (hunits : p.units = []) (h : StartsWith s (2 ^ 64 - 1) tail) :
    (p.run s).written = none := by
  have hagrees := run_agrees (ne_delay_of_units hunits) s
  have hnone : p.accepts s = none := by
    unfold NumberParser.accepts
    dsimp only
    rw [if_neg fun hb => h.ne_nil hb.1, if_pos ((fails_iff h).mpr le_rfl)]
  rw [hnone] at hagrees
  exact hagrees.2

/-! ## The array -/

/-- The array is empty, or its size is a power of two that an `int` can hold. -/
def Sized (size count : ℕ) : Prop :=
  size = 0 ∧ count = 0 ∨ ∃ k, k ≤ 28 ∧ size = 2 ^ (k + 2) ∧ count ≤ size

theorem Sized.count_le (h : Sized size count) : count ≤ 2 ^ 30 := by
  rcases h with ⟨_, rfl⟩ | ⟨k, hk, rfl, hle⟩
  · exact Nat.zero_le _
  · exact hle.trans (Nat.pow_le_pow_right Nat.two_pos (by omega))

/-- A step of the array that succeeds. -/
theorem Sized.grow {size' : ℕ} (h : Sized size count) (hgrow : growSize size count = some size') :
    Sized size' (count + 1) := by
  unfold growSize at hgrow
  rcases h with ⟨rfl, rfl⟩ | ⟨k, hk, rfl, hle⟩
  · obtain rfl := Option.some.inj hgrow
    exact .inr ⟨0, Nat.zero_le _, rfl, by decide⟩
  · have hfour : 4 ≤ 2 ^ (k + 2) := Nat.pow_le_pow_right Nat.two_pos (by omega : 2 ≤ k + 2)
    split at hgrow
    · split at hgrow
      · cases hgrow
      · next hfull hfits =>
        obtain rfl := Option.some.inj hgrow
        have hk' : k + 3 < 31 := by
          refine (Nat.pow_lt_pow_iff_right (by decide : 1 < 2)).mp ?_
          rw [Nat.pow_succ, Nat.mul_comm]
          exact not_le.mp hfits
        have hlarge : ¬ 2 * 2 ^ (k + 2) < count + 2 := by omega
        rw [if_neg hlarge]
        refine .inr ⟨k + 1, by omega, ?_, by omega⟩
        rw [Nat.mul_comm, ← Nat.pow_succ]
    · obtain rfl := Option.some.inj hgrow
      exact .inr ⟨k, hk, rfl, by omega⟩

/-- The array has room for 2^30 elements. -/
theorem Sized.grows (h : Sized size count) (hcount : count < 2 ^ 30) :
    ∃ size', growSize size count = some size' := by
  unfold growSize
  split
  · next hfull =>
    rw [if_neg ?_]
    · exact ⟨_, rfl⟩
    · rcases h with ⟨rfl, rfl⟩ | ⟨k, hk, rfl, hle⟩
      · decide
      · omega
  · exact ⟨size, rfl⟩

theorem Sized.wrap (h : Sized size count) (width : ℕ) : Sized size (count % 2 ^ width) := by
  rcases h with ⟨hsize, rfl⟩ | ⟨k, hk, hsize, hle⟩
  · exact .inl ⟨hsize, Nat.zero_mod _⟩
  · exact .inr ⟨k, hk, hsize, (Nat.mod_le _ _).trans hle⟩

/-! ## The loop -/

/-- The code after the store of an element. -/
def afterElement (parse : List Char → Outcome) (width fuel : ℕ) (values : Values)
    (tail : List Char) : Option ListOutcome :=
  match eatSpace tail with
  | [] => some ⟨true, some values.count, some ((List.range values.count).map values.list), []⟩
  | c :: str =>
      if c = ',' then parseListLoop parse width fuel values str
      else some ⟨false, some values.count, none, c :: str⟩

/-- The array with one more element, which may start again at 0. -/
def Values.push (values : Values) (width size v : ℕ) : Values :=
  ⟨(values.count + 1) % 2 ^ width, size, Function.update values.list values.count v⟩

/-- One turn of the loop, after an element. -/
theorem parseListLoop_element {parse : List Char → Outcome} (fuel : ℕ)
    (hparse : parse s = ⟨true, some n, tail⟩) :
    parseListLoop parse width (fuel + 1) values s =
      (growSize values.size values.count).bind fun size =>
        afterElement parse width fuel (values.push width size n) tail := by
  conv_lhs => unfold parseListLoop
  rw [hparse]
  rfl

theorem parseListLoop_refused {parse : List Char → Outcome} (fuel : ℕ)
    (hparse : (parse s).written = none) : parseListLoop parse width (fuel + 1) values s =
      some ⟨false, some values.count, none, (parse s).str⟩ := by
  conv_lhs => unfold parseListLoop
  dsimp only
  rw [hparse]

theorem afterElement_end {parse : List Char → Outcome} (fuel : ℕ)
    (hend : ∀ c ∈ tail, isSpace c = true) : afterElement parse width fuel values tail =
      some ⟨true, some values.count, some ((List.range values.count).map values.list), []⟩ := by
  unfold afterElement
  rw [eatSpace_of_end hend]

theorem afterElement_comma {parse : List Char → Outcome} (fuel : ℕ)
    (hspace : Run isSpace tail w (',' :: rest)) :
    afterElement parse width fuel values tail = parseListLoop parse width fuel values rest := by
  have heat : eatSpace tail = ',' :: rest := hspace.dropWhile
  unfold afterElement
  rw [heat]
  exact if_pos rfl

/-- The array with one more element. -/
theorem push_eq (hwidth : values.count + 1 < 2 ^ width) (size v : ℕ) :
    values.push width size v =
      ⟨values.count + 1, size, Function.update values.list values.count v⟩ := by
  unfold Values.push
  rw [Nat.mod_eq_of_lt hwidth]

/-- The loop reads a list that has room in the array. -/
theorem parseListLoop_reads (hunits : p.units = []) {fuel : ℕ} (h : ListOf p.max s vs)
    (hsized : Sized values.size values.count) (hne : ∀ v ∈ vs, v ≠ 2 ^ 64 - 1)
    (hroom : values.count + vs.length ≤ 2 ^ 30) (hwidth : values.count + vs.length < 2 ^ width)
    (hfuel : s.length < fuel) :
    parseListLoop p.run width fuel values s = some ⟨true, some (values.count + vs.length),
      some ((List.range values.count).map values.list ++ vs), []⟩ := by
  induction h generalizing values fuel with
  | last hnumber hmax hend =>
      obtain ⟨fuel, rfl⟩ : ∃ k, fuel = k + 1 := ⟨fuel - 1, by omega⟩
      rw [List.length_singleton] at hroom hwidth ⊢
      obtain ⟨size, hgrow⟩ := hsized.grows (by omega)
      have hread := element_read hunits hnumber hmax (hne _ List.mem_cons_self)
      rw [parseListLoop_element fuel hread, hgrow, Option.bind_some, push_eq hwidth,
        afterElement_end fuel hend, map_range_update]
  | @cons s n tail w rest vs hnumber hmax hspace hrest ih =>
      obtain ⟨fuel, rfl⟩ : ∃ k, fuel = k + 1 := ⟨fuel - 1, by omega⟩
      rw [List.length_cons] at hroom hwidth ⊢
      obtain ⟨size, hgrow⟩ := hsized.grows (by omega)
      have hread := element_read hunits hnumber hmax (hne n List.mem_cons_self)
      have hshort := hnumber.length_lt
      have hcomma := hspace.length_le
      rw [List.length_cons] at hcomma
      have hsum : values.count + 1 + vs.length = values.count + (vs.length + 1) := by omega
      have hgrown : Sized size (values.count + 1) := hsized.grow hgrow
      have hloop : parseListLoop p.run width fuel
          ⟨values.count + 1, size, Function.update values.list values.count n⟩ rest = _ :=
        ih hgrown (fun v hv => hne v (List.mem_cons_of_mem n hv)) (hsum ▸ hroom) (hsum ▸ hwidth)
          (by omega)
      rw [parseListLoop_element fuel hread, hgrow, Option.bind_some, push_eq (by omega),
        afterElement_comma fuel hspace, hloop, map_range_update, List.append_assoc, hsum]
      rfl

/-- A turn of a loop that succeeds: the element has not been refused, and the array has grown. -/
theorem parseListLoop_turn (hunits : p.units = []) {fuel : ℕ} (hnumber : StartsWith s n tail)
    (hmax : n ≤ p.max) (hloop : parseListLoop p.run width fuel values s = some o)
    (hok : o.ok = true) : n ≠ 2 ^ 64 - 1 ∧ ∃ size fuel',
      growSize values.size values.count = some size ∧
        afterElement p.run width fuel' (values.push width size n) tail = some o := by
  cases fuel with
  | zero => cases hloop
  | succ fuel =>
      by_cases hne : n = 2 ^ 64 - 1
      · subst hne
        rw [parseListLoop_refused fuel (element_refused hunits hnumber)] at hloop
        rw [← Option.some.inj hloop] at hok
        cases hok
      · rw [parseListLoop_element fuel (element_read hunits hnumber hmax hne)] at hloop
        obtain ⟨size, hgrow, hafter⟩ := Option.bind_eq_some_iff.mp hloop
        exact ⟨hne, size, fuel, hgrow, hafter⟩

/-- When the loop succeeds on a list, it has refused no element, and the array has had room. -/
theorem parseListLoop_ok (hunits : p.units = []) {fuel : ℕ} (h : ListOf p.max s vs)
    (hsized : Sized values.size values.count)
    (hloop : parseListLoop p.run width fuel values s = some o) (hok : o.ok = true) :
    (∀ v ∈ vs, v ≠ 2 ^ 64 - 1) ∧ o.count = some ((values.count + vs.length) % 2 ^ width) ∧
      (2 ^ 30 < 2 ^ width → values.count + vs.length ≤ 2 ^ 30) := by
  induction h generalizing values fuel with
  | @last s n tail hnumber hmax hend =>
      obtain ⟨hne, size, fuel', hgrow, hafter⟩ :=
        parseListLoop_turn hunits hnumber hmax hloop hok
      rw [afterElement_end fuel' hend] at hafter
      rw [← Option.some.inj hafter]
      refine ⟨fun v hv => ?_, rfl, fun _ => (hsized.grow hgrow).count_le⟩
      rw [List.mem_singleton.mp hv]
      exact hne
  | @cons s n tail w rest vs hnumber hmax hspace hrest ih =>
      obtain ⟨hne, size, fuel', hgrow, hafter⟩ :=
        parseListLoop_turn hunits hnumber hmax hloop hok
      rw [afterElement_comma fuel' hspace] at hafter
      have hgrown := hsized.grow hgrow
      obtain ⟨hall, hcount, hroom⟩ := ih (hgrown.wrap width) hafter
      have hsum : values.count + (vs.length + 1) = values.count + 1 + vs.length := by omega
      refine ⟨fun v hv => ?_, ?_, fun hwidth => ?_⟩
      · rcases List.mem_cons.mp hv with rfl | hv
        · exact hne
        · exact hall v hv
      · rw [hcount, List.length_cons, hsum]
        exact congrArg some (Nat.mod_add_mod _ _ _)
      · have hle := hgrown.count_le
        have hr := hroom hwidth
        change (values.count + 1) % 2 ^ width + vs.length ≤ 2 ^ 30 at hr
        rw [Nat.mod_eq_of_lt (hle.trans_lt hwidth)] at hr
        rw [List.length_cons, hsum]
        exact hr

/-- The loop stores its count, also where it fails. -/
theorem parseListLoop_count {parse : List Char → Outcome} {fuel : ℕ}
    (h : parseListLoop parse width fuel values s = some o) : o.count ≠ none := by
  induction fuel generalizing values s with
  | zero => cases h
  | succ fuel ih =>
      unfold parseListLoop at h
      dsimp only at h
      split at h
      · rw [← Option.some.inj h]
        exact nofun
      · obtain ⟨size, _, h⟩ := Option.bind_eq_some_iff.mp h
        split at h
        · rw [← Option.some.inj h]
          exact nofun
        · split at h
          · exact ih h
          · rw [← Option.some.inj h]
            exact nofun

/-! ## The list parsers -/

/-- The parsers of lists. -/
inductive ListParser where
  | unsignedInt64
  | unsignedInt
  | unsignedShort
  deriving DecidableEq, Repr

namespace ListParser

/-- The function of a parser. -/
def run : ListParser → List Char → Option ListOutcome
  | unsignedInt64 => parseListUnsignedInt64
  | unsignedInt => parseListUnsignedInt
  | unsignedShort => parseListUnsignedShort

/-- The greatest value of the type of the elements. -/
def max : ListParser → ℕ
  | unsignedInt64 => 2 ^ 64 - 1
  | unsignedInt => 2 ^ 32 - 1
  | unsignedShort => 2 ^ 16 - 1

/-- The number of elements that the array and its count can hold. -/
def bound : ListParser → ℕ
  | unsignedInt64 | unsignedInt => 2 ^ 30
  | unsignedShort => 2 ^ 16 - 1

/-- What a parser of lists is for. -/
def Meets (p : ListParser) (s : List Char) : Prop :=
  ∃ o, p.run s = some o ∧
    (∀ vs, ListOf p.max s vs → o = ⟨true, some vs.length, some vs, []⟩) ∧
      ((∀ vs, ¬ ListOf p.max s vs) → o.ok = false ∧ o.count = none ∧ o.list = none)

/-- When a parser of lists does what it is for. The text is a list, with no element that is taken
for an error and no more elements than the array holds. -/
def Condition (p : ListParser) (s : List Char) : Prop :=
  ∃ vs, ListOf p.max s vs ∧ (∀ v ∈ vs, v ≠ 2 ^ 64 - 1) ∧ vs.length ≤ p.bound

end ListParser

theorem sized_empty : Sized 0 0 :=
  .inl ⟨rfl, rfl⟩

/-- A parser of lists on a list. -/
theorem parseList_reads (hunits : p.units = []) (h : ListOf p.max s vs)
    (hne : ∀ v ∈ vs, v ≠ 2 ^ 64 - 1) (hroom : vs.length ≤ 2 ^ 30)
    (hwidth : vs.length < 2 ^ width) :
    parseList p.run width s = some ⟨true, some vs.length, some vs, []⟩ := by
  unfold parseList
  have hloop : parseListLoop p.run width (s.length + 1) ⟨0, 0, fun _ => 0⟩ s = _ :=
    parseListLoop_reads hunits h sized_empty hne ((Nat.zero_add _).trans_le hroom)
      ((Nat.zero_add _).trans_lt hwidth) (Nat.lt_succ_self _)
  rw [hloop, Nat.zero_add]
  rfl

theorem parseList_ok (hunits : p.units = []) (h : ListOf p.max s vs)
    (hrun : parseList p.run width s = some o) (hok : o.ok = true) :
    (∀ v ∈ vs, v ≠ 2 ^ 64 - 1) ∧ o.count = some (vs.length % 2 ^ width) ∧
      (2 ^ 30 < 2 ^ width → vs.length ≤ 2 ^ 30) := by
  have hloop := parseListLoop_ok hunits h sized_empty hrun hok
  rw [Nat.zero_add] at hloop
  exact hloop

/-- The result on a list, in the words of `Meets`. -/
theorem ListParser.meets_of_run {p : ListParser} (h : ListOf p.max s vs)
    (hrun : p.run s = some ⟨true, some vs.length, some vs, []⟩) : p.Meets s := by
  refine ⟨_, hrun, fun vs' h' => ?_, fun hno => absurd h (hno vs)⟩
  rw [h.unique h']

/-- The elements of a list of `unsigned int` are kept by the conversion. -/
theorem map_mod_of_le (h : ∀ v ∈ vs, v ≤ 2 ^ 32 - 1) : vs.map (· % 2 ^ 32) = vs := by
  conv_rhs => rw [← List.map_id vs]
  refine List.map_congr_left fun v hv => Nat.mod_eq_of_lt ?_
  have hle := h v hv
  omega

theorem ListParser.meets_of_condition {p : ListParser} (hcond : p.Condition s) : p.Meets s := by
  obtain ⟨vs, h, hne, hroom⟩ := hcond
  cases p with
  | unsignedInt64 =>
      have hwidth : vs.length < 2 ^ 32 := hroom.trans_lt (by decide)
      exact meets_of_run h (parseList_reads (p := .unsignedLonglong) rfl h hne hroom hwidth)
  | unsignedInt =>
      have hwidth : vs.length < 2 ^ 32 := hroom.trans_lt (by decide)
      have hwide : ListOf (2 ^ 64 - 1) s vs := h.mono (by decide)
      have hrun := parseList_reads (p := .unsignedLonglong) rfl hwide hne hroom hwidth
      refine meets_of_run h ?_
      show (parseListUnsignedInt64 s).map _ = _
      unfold parseListUnsignedInt64
      rw [show parseList parseUnsignedLonglong 32 s = _ from hrun, Option.map_some]
      dsimp only
      rw [Option.map_some, map_mod_of_le h.le_max]
  | unsignedShort =>
      have hroom' : vs.length ≤ 2 ^ 30 := hroom.trans (by decide)
      have hwidth : vs.length < 2 ^ 16 := hroom.trans_lt (by decide)
      exact meets_of_run h (parseList_reads (p := .unsignedShort) rfl h hne hroom' hwidth)

/-- What a list parser that succeeds on a list with the right count says about the list. -/
theorem ListParser.of_run {p : ListParser} (h : ListOf p.max s vs)
    (hrun : p.run s = some ⟨true, some vs.length, some vs, []⟩) :
    (∀ v ∈ vs, v ≠ 2 ^ 64 - 1) ∧ vs.length ≤ p.bound := by
  cases p with
  | unsignedInt64 =>
      obtain ⟨hne, _, hroom⟩ := parseList_ok (p := .unsignedLonglong) rfl h hrun rfl
      exact ⟨hne, hroom (by decide)⟩
  | unsignedInt =>
      have hwide : ListOf (2 ^ 64 - 1) s vs := h.mono (by decide)
      obtain ⟨o, hwiderun, heq⟩ := Option.map_eq_some_iff.mp hrun
      have hok : o.ok = true := congrArg ListOutcome.ok heq
      obtain ⟨hne, _, hroom⟩ := parseList_ok (p := .unsignedLonglong) rfl hwide hwiderun hok
      exact ⟨hne, hroom (by decide)⟩
  | unsignedShort =>
      obtain ⟨hne, hcount, _⟩ := parseList_ok (p := .unsignedShort) rfl h hrun rfl
      have heq : vs.length = vs.length % 2 ^ 16 := Option.some.inj hcount
      have hlt := Nat.mod_lt vs.length (Nat.two_pow_pos 16)
      exact ⟨hne, by show _ ≤ 2 ^ 16 - 1; omega⟩

/-- The count is stored in any case. -/
theorem ListParser.run_count {p : ListParser} (hrun : p.run s = some o) : o.count ≠ none := by
  cases p with
  | unsignedInt64 => exact parseListLoop_count hrun
  | unsignedInt =>
      obtain ⟨o', hwiderun, heq⟩ := Option.map_eq_some_iff.mp hrun
      have hcount : o'.count ≠ none := parseListLoop_count hwiderun
      rw [← heq]
      exact hcount
  | unsignedShort => exact parseListLoop_count hrun

/-- The parsers of lists do what they are for under their condition. -/
theorem ListParser.meets_iff (p : ListParser) (s : List Char) : p.Meets s ↔ p.Condition s := by
  refine ⟨fun hmeets => ?_, meets_of_condition⟩
  obtain ⟨o, hrun, hreads, hfails⟩ := hmeets
  by_cases hlist : ∃ vs, ListOf p.max s vs
  · obtain ⟨vs, h⟩ := hlist
    rw [hreads vs h] at hrun
    exact ⟨vs, h, of_run h hrun⟩
  · exact absurd (hfails fun vs h => hlist ⟨vs, h⟩).2.1 (run_count hrun)

/-! ## All parsers -/

/-- A parser of numbers or of lists. -/
inductive EnvParser where
  | number (p : NumberParser)
  | list (p : ListParser)
  deriving DecidableEq, Repr

/-- What a parser is for. -/
def EnvParser.Meets : EnvParser → List Char → Prop
  | number p, s => p.Meets s
  | list p, s => p.Meets s

/-- When a parser does it. -/
def EnvParser.Condition : EnvParser → List Char → Prop
  | number p, s => p.Condition s
  | list p, s => p.Condition s

/-- A parser reads what it is for, and fails without a result on any other text, exactly under its
condition. -/
theorem parser_iff (p : EnvParser) (s : List Char) : p.Meets s ↔ p.Condition s := by
  cases p with
  | number p => exact p.meets_iff s
  | list p => exact p.meets_iff s

/-- A delay without a unit is refused, after its value has been stored. -/
theorem not_all_parsed : ¬ ∀ (p : EnvParser) (s : List Char), p.Meets s := by
  intro h
  have hmeets : NumberParser.delay.Meets ['1', '2'] := h (.number .delay) ['1', '2']
  have hstart : StartsWith ['1', '2'] 12 [] := startsWith_iff.mpr ⟨nofun, rfl, rfl⟩
  have hreads : Reads .delay ['1', '2'] 12 [] :=
    (reads_of_startsWith hstart).mpr ⟨1, rfl, rfl, by decide⟩
  have hrun : (NumberParser.delay.run ['1', '2']).ok = false := by decide
  rw [hmeets.1 12 [] hreads] at hrun
  cases hrun

end Xkblas.Trace.Parser
