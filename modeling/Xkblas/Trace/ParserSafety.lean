import Mathlib.Data.List.DropRight
import Xkblas.Library.MaximalRun
import Xkblas.Trace.Parser

/-!
# What the parsers of numbers accept

`Reads` says what a parser of numbers is for: after white space the text starts with a number of at
least one digit, with the unit of the parser after it, and the product is in the range of the type.
`Meets` compares a parser with it, and `NumberParser.meets_iff` has the condition on the text:
`strtoul` also reads texts without digits and with a sign, the parsers take the greatest value for
an error, and delays need a unit and are not tested for overflow.
-/

namespace Xkblas.Trace.Parser

open Library

variable {s t tail rest w ds : List Char} {n n' v u : ℕ} {c : Char}

/-! ## Characters -/

theorem isSpace_of_isDigit (h : c.isDigit = true) : isSpace c = false := by
  unfold Char.isDigit at h
  rw [Bool.and_eq_true, decide_eq_true_iff, decide_eq_true_iff] at h
  have hlo : 48 ≤ c.toNat := UInt32.le_iff_toNat_le.mp h.1
  unfold isSpace
  rw [Bool.or_eq_false_iff, Bool.and_eq_false_iff]
  refine ⟨?_, .inr (decide_eq_false (by omega))⟩
  rw [beq_eq_false_iff_ne]
  rintro rfl
  exact absurd hlo (by decide)

theorem eatSpace_eatSpace (s : List Char) : eatSpace (eatSpace s) = eatSpace s :=
  List.dropWhile_idempotent isSpace s

/-- After white space, the text starts with a number of at least one digit. -/
def StartsWith (s : List Char) (n : ℕ) (tail : List Char) : Prop :=
  ∃ w t ds, Run isSpace s w t ∧ Run Char.isDigit t ds tail ∧ ds ≠ [] ∧ n = decimal ds

theorem startsWith_iff : StartsWith s n tail ↔ (eatSpace s).takeWhile Char.isDigit ≠ [] ∧
    n = decimal ((eatSpace s).takeWhile Char.isDigit) ∧
      tail = (eatSpace s).dropWhile Char.isDigit := by
  constructor
  · rintro ⟨w, t, ds, hspace, hdigits, hne, rfl⟩
    have heat : eatSpace s = t := hspace.dropWhile
    rw [heat, hdigits.takeWhile, hdigits.dropWhile]
    exact ⟨hne, rfl, rfl⟩
  · rintro ⟨hne, rfl, rfl⟩
    exact ⟨_, _, _, run_takeWhile isSpace s, run_takeWhile Char.isDigit _, hne, rfl⟩

theorem StartsWith.unique (h : StartsWith s n tail) (h' : StartsWith s n' t) :
    n = n' ∧ tail = t := by
  obtain ⟨_, rfl, rfl⟩ := startsWith_iff.mp h
  obtain ⟨_, rfl, rfl⟩ := startsWith_iff.mp h'
  exact ⟨rfl, rfl⟩

/-- The rest of a number is shorter. -/
theorem StartsWith.length_lt (h : StartsWith s n tail) : tail.length < s.length := by
  obtain ⟨w, t, ds, hspace, hdigits, hne, _⟩ := h
  exact (hdigits.length_lt hne).trans_le hspace.length_le

theorem StartsWith.ne_nil (h : StartsWith s n tail) : eatSpace s ≠ [] := by
  intro hnil
  have hne := (startsWith_iff.mp h).1
  rw [hnil] at hne
  exact hne rfl

/-- `strtoul` of a number. -/
theorem strtoul_of_startsWith (h : StartsWith s n tail) :
    strtoul (eatSpace s) =
      if 2 ^ 64 ≤ n then ⟨2 ^ 64 - 1, true, tail⟩ else ⟨n, false, tail⟩ := by
  obtain ⟨hne, hn, htail⟩ := startsWith_iff.mp h
  have hsign : readSign (eatSpace s) = (false, eatSpace s) := by
    cases heat : eatSpace s with
    | nil => rfl
    | cons c t =>
        have hdigit : c.isDigit = true := by
          by_contra hno
          rw [heat, List.takeWhile_cons_of_neg hno] at hne
          exact hne rfl
        unfold readSign
        split
        next heq =>
          obtain ⟨rfl, _⟩ := List.cons.inj heq
          exact absurd hdigit (by decide)
        next heq =>
          obtain ⟨rfl, _⟩ := List.cons.inj heq
          exact absurd hdigit (by decide)
        next => rfl
  unfold strtoul
  rw [eatSpace_eatSpace, hsign]
  dsimp only
  rw [if_neg hne, ← hn, ← htail, if_neg Bool.false_ne_true]

/-! ## The parsers of numbers -/

/-- The parsers of numbers. -/
inductive NumberParser where
  | size
  | unsignedLonglong
  | unsignedLong
  | unsignedInt
  | unsignedShort
  | int
  | short
  | delay
  deriving DecidableEq, Repr

namespace NumberParser

/-- The function of a parser. -/
def run : NumberParser → List Char → Outcome
  | size => parseSize
  | unsignedLonglong => parseUnsignedLonglong
  | unsignedLong => parseUnsignedLong
  | unsignedInt => parseUnsignedInt
  | unsignedShort => parseUnsignedShort
  | int => parseInt
  | short => parseShort
  | delay => parseDelay

/-- The greatest value of the type of the result. -/
def max : NumberParser → ℕ
  | size | unsignedLonglong | unsignedLong | delay => 2 ^ 64 - 1
  | unsignedInt => 2 ^ 32 - 1
  | unsignedShort => 2 ^ 16 - 1
  | int => 2 ^ 31 - 1
  | short => 2 ^ 15 - 1

/-- The units of a parser in lower case, with their factors. -/
def units : NumberParser → List (List Char × ℕ)
  | size => [(['b'], 1), (['k'], 2 ^ 10), (['m'], 2 ^ 20), (['g'], 2 ^ 30)]
  | delay => [(['s'], 1000000000), (['m', 's'], 1000000), (['u', 's'], 1000), (['n', 's'], 1)]
  | _ => []

/-- The factor without a unit. Sizes are in KiB. -/
def factor : NumberParser → ℕ
  | size => 2 ^ 10
  | _ => 1

/-- The unit at the start of a text, with its factor and what follows it. After the unit of a size,
white space is skipped. -/
def findUnit (p : NumberParser) (t : List Char) : Option (ℕ × List Char) :=
  (p.units.find? fun unit => hasPrefix t unit.1).map fun unit =>
    (unit.2, if p = size then eatSpace (t.drop unit.1.length) else t.drop unit.1.length)

/-- A letter follows. -/
def letter : List Char → Bool
  | c :: _ => c.isAlpha
  | [] => false

/-- The factor of what follows a number, and what is left after it. For the parsers with units, a
letter after white space must be a unit. -/
def readUnit (p : NumberParser) (tail : List Char) : Option (ℕ × List Char) :=
  if p.units = [] then some (1, tail)
  else if letter (eatSpace tail) = true then p.findUnit (eatSpace tail)
  else some (p.factor, eatSpace tail)

end NumberParser

variable {p : NumberParser}

/-- The text starts with a number and its unit, of the value `v`, and `rest` follows. -/
def Reads (p : NumberParser) (s : List Char) (v : ℕ) (rest : List Char) : Prop :=
  ∃ n tail u, StartsWith s n tail ∧ p.readUnit tail = some (u, rest) ∧ v = n * u ∧ v ≤ p.max

/-- What a parser of numbers is for. -/
def NumberParser.Meets (p : NumberParser) (s : List Char) : Prop :=
  (∀ v rest, Reads p s v rest → p.run s = ⟨true, some v, rest⟩) ∧
    ((∀ v rest, ¬ Reads p s v rest) → (p.run s).ok = false ∧ (p.run s).written = none)

/-- `strtoul` fails, or gives the value that the parsers take for an error. -/
def Strtoul.Fails (r : Strtoul) : Prop :=
  r.erange = true ∨ r.value = 2 ^ 64 - 1

instance (r : Strtoul) : Decidable r.Fails :=
  inferInstanceAs (Decidable (_ ∨ _))

/-- What the parsers other than that of delays accept. -/
def NumberParser.accepts (p : NumberParser) (s : List Char) : Option (ℕ × List Char) :=
  let r := strtoul (eatSpace s)
  if eatSpace s = [] ∧ p ≠ .size then none
  else if r.Fails then none
  else (p.readUnit r.rest).bind fun unit =>
    if r.value * unit.1 ≤ p.max then some (r.value * unit.1, unit.2) else none

/-- A parser that ends as `accepts` says, and otherwise without a result. -/
def Agrees (o : Outcome) (a : Option (ℕ × List Char)) : Prop :=
  match a with
  | some (v, rest) => o = ⟨true, some v, rest⟩
  | none => o.ok = false ∧ o.written = none

theorem toLower_isAlpha (hc : c.toLower.isLower = true) : c.isAlpha = true := by
  unfold Char.isAlpha
  unfold Char.toLower at hc
  split at hc
  next hupper =>
    have h : c.isUpper = true := decide_eq_true hupper
    rw [h, Bool.true_or]
  next => rw [hc, Bool.or_true]

theorem strtoul_lt (s : List Char) : (strtoul s).value < 2 ^ 64 := by
  unfold strtoul
  dsimp only
  split
  · exact Nat.two_pow_pos 64
  · split
    · exact Nat.sub_lt (Nat.two_pow_pos 64) Nat.one_pos
    · split
      · exact Nat.mod_lt _ (Nat.two_pow_pos 64)
      · exact Nat.lt_of_not_le ‹_›

/-- The shift of a size is tested exactly. -/
theorem shiftSize_eq (v shift : ℕ) (rest : List Char) :
    shiftSize v shift rest =
      if v * 2 ^ shift ≤ 2 ^ 64 - 1 then ⟨true, some (v * 2 ^ shift), rest⟩
      else ⟨false, none, rest⟩ := by
  have hpos : 0 < 2 ^ shift := Nat.two_pow_pos shift
  unfold shiftSize
  dsimp only
  by_cases hfits : v * 2 ^ shift ≤ 2 ^ 64 - 1
  · have hmod : v * 2 ^ shift % 2 ^ 64 = v * 2 ^ shift := Nat.mod_eq_of_lt (by omega)
    rw [if_pos hfits, hmod, Nat.mul_div_cancel v hpos, if_neg fun hne => hne rfl]
  · have hlost : v * 2 ^ shift % 2 ^ 64 / 2 ^ shift ≠ v := by
      intro heq
      have hlt := Nat.mod_lt (v * 2 ^ shift) (Nat.two_pow_pos 64)
      have hle := Nat.div_mul_le_self (v * 2 ^ shift % 2 ^ 64) (2 ^ shift)
      rw [heq] at hle
      omega
    rw [if_neg hfits, if_pos hlost]

/-! ## Units -/

theorem hasPrefix_singleton (c d : Char) (t : List Char) :
    hasPrefix (c :: t) [d] = (c.toLower == d) :=
  Bool.and_true _

/-- The unit of a size is the one of the switch. -/
theorem findUnit_size (c : Char) (t : List Char) : NumberParser.size.findUnit (c :: t) =
    (sizeShift c).map fun shift => (2 ^ shift, eatSpace t) := by
  unfold NumberParser.findUnit sizeShift
  simp only [NumberParser.units, List.find?_cons, List.find?_nil, hasPrefix_singleton, if_true]
  generalize c.toLower = lower
  by_cases hb : lower = 'b'
  · rw [hb]
    rfl
  by_cases hk : lower = 'k'
  · rw [hk]
    rfl
  by_cases hm : lower = 'm'
  · rw [hm]
    rfl
  by_cases hg : lower = 'g'
  · rw [hg]
    rfl
  rw [beq_eq_false_iff_ne.mpr hb, beq_eq_false_iff_ne.mpr hk, beq_eq_false_iff_ne.mpr hm,
    beq_eq_false_iff_ne.mpr hg]
  dsimp only
  split
  next => exact absurd rfl hb
  next => exact absurd rfl hk
  next => exact absurd rfl hm
  next => exact absurd rfl hg
  next => rfl

/-- A unit of a delay starts with a letter. -/
theorem letter_of_findUnit {unit : ℕ × List Char}
    (h : NumberParser.delay.findUnit t = some unit) : NumberParser.letter t = true := by
  unfold NumberParser.findUnit at h
  obtain ⟨found, hfound, _⟩ := Option.map_eq_some_iff.mp h
  have hprefix := List.find?_some hfound
  have hmem := List.mem_of_find?_eq_some hfound
  cases t with
  | nil =>
      simp only [NumberParser.units, List.mem_cons, List.not_mem_nil, or_false] at hmem
      rcases hmem with rfl | rfl | rfl | rfl <;> cases hprefix
  | cons c t =>
      apply toLower_isAlpha
      simp only [NumberParser.units, List.mem_cons, List.not_mem_nil, or_false] at hmem
      have hlower : ∀ name d, hasPrefix (c :: t) (d :: name) = true → c.toLower = d := by
        intro name d hname
        exact (List.cons.inj (beq_iff_eq.mp hname)).1
      rcases hmem with rfl | rfl | rfl | rfl <;> rw [hlower _ _ hprefix] <;> rfl

/-- A factor is positive. -/
theorem readUnit_pos (h : p.readUnit tail = some (u, rest)) : 0 < u := by
  unfold NumberParser.readUnit at h
  split at h
  · obtain ⟨rfl, _⟩ := Prod.mk.inj (Option.some.inj h)
    exact Nat.one_pos
  · split at h
    · obtain ⟨found, hfound, heq⟩ := Option.map_eq_some_iff.mp h
      obtain ⟨rfl, _⟩ := Prod.mk.inj heq
      have hmem := List.mem_of_find?_eq_some hfound
      cases p <;> simp only [NumberParser.units, List.mem_cons, List.not_mem_nil, or_false] at hmem
      all_goals rcases hmem with rfl | rfl | rfl | rfl <;> decide
    · obtain ⟨rfl, _⟩ := Prod.mk.inj (Option.some.inj h)
      cases p <;> decide

/-! ## The parsers other than that of delays -/

/-- `kaapi_parse_unsigned_longlong` fails. -/
theorem parseUnsignedLonglong_fails
    (h : eatSpace s = [] ∨ (strtoul (eatSpace s)).Fails) :
    parseUnsignedLonglong s = ⟨false, none, eatSpace s⟩ := by
  unfold parseUnsignedLonglong
  dsimp only
  by_cases hnil : eatSpace s = []
  · rw [if_pos hnil]
  · rw [if_neg hnil]
    exact if_pos (h.resolve_left hnil)

/-- `kaapi_parse_unsigned_longlong` stores what `strtoul` returns. -/
theorem parseUnsignedLonglong_reads (hnil : eatSpace s ≠ [])
    (hreads : ¬ (strtoul (eatSpace s)).Fails) : parseUnsignedLonglong s =
      ⟨true, some (strtoul (eatSpace s)).value, (strtoul (eatSpace s)).rest⟩ := by
  unfold parseUnsignedLonglong
  dsimp only
  rw [if_neg hnil]
  exact if_neg hreads

theorem agrees_failed (s : List Char) : Agrees ⟨false, none, s⟩ none :=
  ⟨rfl, rfl⟩

/-- A parser without units is `kaapi_parse_unsigned_longlong` with a test of the range. -/
theorem agrees_andThen {f : ℕ → List Char → Outcome} (hunits : p.units = []) (hp : p ≠ .size)
    (hf : ∀ v rest, v < 2 ^ 64 →
      Agrees (f v rest) (if v ≤ p.max then some (v, rest) else none)) :
    Agrees ((parseUnsignedLonglong s).andThen f) (p.accepts s) := by
  unfold NumberParser.accepts NumberParser.readUnit
  dsimp only
  by_cases hnil : eatSpace s = []
  · rw [parseUnsignedLonglong_fails (.inl hnil), if_pos ⟨hnil, hp⟩]
    exact agrees_failed _
  · rw [if_neg (fun h => hnil h.1)]
    by_cases hfails : (strtoul (eatSpace s)).Fails
    · rw [parseUnsignedLonglong_fails (.inr hfails), if_pos hfails]
      exact agrees_failed _
    · rw [parseUnsignedLonglong_reads hnil hfails, if_neg hfails, if_pos hunits,
        Option.bind_some, Nat.mul_one]
      exact hf _ _ (strtoul_lt _)

theorem agrees_narrow (max v : ℕ) (rest : List Char) :
    Agrees (narrow max v rest) (if v ≤ max then some (v, rest) else none) := by
  unfold narrow
  by_cases h : v ≤ max
  · rw [if_neg (not_lt.mpr h), if_pos h]
    rfl
  · rw [if_pos (not_le.mp h), if_neg h]
    exact agrees_failed _

/-- A value in the range is not negative as a `long`. -/
theorem agrees_narrowSigned {max : ℕ} (hmax : max < 2 ^ 63) (v : ℕ) (rest : List Char) :
    Agrees (narrowSigned max v rest) (if v ≤ max then some (v, rest) else none) := by
  unfold narrowSigned
  by_cases h : v ≤ max
  · have hlong : toLong v = v := if_pos (h.trans_lt hmax)
    have hno : ¬ (max < v ∨ toLong v < -(max : ℤ) - 1) := by
      rw [hlong]
      omega
    rw [if_neg hno, if_pos h]
    rfl
  · rw [if_pos (.inl (not_le.mp h)), if_neg h]
    exact agrees_failed _

/-- The value of an `unsigned long` is in its range. -/
theorem agrees_unsignedLong {v : ℕ} (hv : v < 2 ^ 64) (rest : List Char) :
    Agrees ⟨true, some v, rest⟩ (if v ≤ 2 ^ 64 - 1 then some (v, rest) else none) := by
  rw [if_pos (Nat.le_sub_one_of_lt hv)]
  rfl

/-- The test of `kaapi_parse_unsigned_long` does nothing. -/
theorem parseUnsignedLong_eq (s : List Char) : parseUnsignedLong s = parseUnsignedLonglong s := by
  unfold parseUnsignedLong
  by_cases hfails : eatSpace s = [] ∨ (strtoul (eatSpace s)).Fails
  · rw [parseUnsignedLonglong_fails hfails]
    rfl
  · obtain ⟨hnil, hreads⟩ := not_or.mp hfails
    rw [parseUnsignedLonglong_reads hnil hreads]
    exact if_neg (not_lt.mpr (Nat.le_sub_one_of_lt (strtoul_lt _)))

theorem parseUnsignedLonglong_agrees (s : List Char) :
    Agrees (parseUnsignedLonglong s) (NumberParser.unsignedLonglong.accepts s) := by
  have h : (parseUnsignedLonglong s).andThen (fun v rest => ⟨true, some v, rest⟩) =
      parseUnsignedLonglong s := by
    by_cases hfails : eatSpace s = [] ∨ (strtoul (eatSpace s)).Fails
    · rw [parseUnsignedLonglong_fails hfails]
      rfl
    · obtain ⟨hnil, hreads⟩ := not_or.mp hfails
      rw [parseUnsignedLonglong_reads hnil hreads]
      rfl
  rw [← h]
  exact agrees_andThen rfl nofun fun v rest hv => agrees_unsignedLong hv rest

theorem shiftSize_agrees (v shift : ℕ) (rest : List Char) : Agrees (shiftSize v shift rest)
    (if v * 2 ^ shift ≤ 2 ^ 64 - 1 then some (v * 2 ^ shift, rest) else none) := by
  rw [shiftSize_eq]
  by_cases h : v * 2 ^ shift ≤ 2 ^ 64 - 1
  · rw [if_pos h, if_pos h]
    rfl
  · rw [if_neg h, if_neg h]
    exact agrees_failed _

/-- The parser of sizes. -/
theorem parseSize_agrees (s : List Char) :
    Agrees (parseSize s) (NumberParser.size.accepts s) := by
  unfold NumberParser.accepts
  dsimp only
  rw [if_neg (fun h => h.2 rfl)]
  by_cases hfails : (strtoul (eatSpace s)).Fails
  · have hrun : parseSize s = ⟨false, none, eatSpace s⟩ := if_pos hfails
    rw [hrun, if_pos hfails]
    exact agrees_failed _
  · rw [if_neg hfails]
    unfold parseSize NumberParser.readUnit
    dsimp only
    have hunits : NumberParser.size.units ≠ [] := nofun
    rw [if_neg (show ¬ (_ ∨ _) from hfails), if_neg hunits]
    cases heat : eatSpace (strtoul (eatSpace s)).rest with
    | nil => exact shiftSize_agrees _ 10 []
    | cons c t =>
        by_cases halpha : c.isAlpha = true
        · have hletter : NumberParser.letter (c :: t) = true := halpha
          dsimp only
          rw [if_pos halpha, if_pos hletter, findUnit_size]
          cases sizeShift c with
          | none => exact agrees_failed _
          | some shift => exact shiftSize_agrees _ shift (eatSpace t)
        · have hletter : ¬ NumberParser.letter (c :: t) = true := halpha
          dsimp only
          rw [if_neg halpha, if_neg hletter]
          exact shiftSize_agrees _ 10 (c :: t)

/-- The parsers other than that of delays end as `accepts` says. -/
theorem run_agrees (hp : p ≠ .delay) (s : List Char) : Agrees (p.run s) (p.accepts s) := by
  cases p with
  | size => exact parseSize_agrees s
  | unsignedLonglong => exact parseUnsignedLonglong_agrees s
  | unsignedLong => exact agrees_andThen rfl nofun fun v rest _ => agrees_narrow _ v rest
  | unsignedInt => exact agrees_andThen rfl nofun fun v rest _ => agrees_narrow _ v rest
  | unsignedShort => exact agrees_andThen rfl nofun fun v rest _ => agrees_narrow _ v rest
  | int =>
      show Agrees (parseInt s) _
      unfold parseInt
      rw [parseUnsignedLong_eq]
      exact agrees_andThen rfl nofun fun v rest _ => agrees_narrowSigned (by decide) v rest
  | short =>
      show Agrees (parseShort s) _
      unfold parseShort
      rw [parseUnsignedLong_eq]
      exact agrees_andThen rfl nofun fun v rest _ => agrees_narrowSigned (by decide) v rest
  | delay => exact absurd rfl hp

/-! ## The condition for numbers -/

/-- When a parser of numbers does what it is for. A number is not the value that is taken for an
error, unless it is too large with its unit anyway. For delays the unit is there, and the product is
in the range. A text that does not start with a number is blank, or fails in `strtoul`, or what
`strtoul` reads there is not accepted, and the text is not that of a delay. -/
def NumberParser.Condition (p : NumberParser) (s : List Char) : Prop :=
  let r := strtoul (eatSpace s)
  (∀ n tail, StartsWith s n tail →
      (n = 2 ^ 64 - 1 → ∀ u rest, p.readUnit tail = some (u, rest) → p.max < n * u) ∧
        (p = .delay → n < 2 ^ 64 - 1 →
          ∃ u rest, p.findUnit (eatSpace tail) = some (u, rest) ∧ n * u ≤ p.max)) ∧
    ((∀ n tail, ¬ StartsWith s n tail) →
      eatSpace s = [] ∧ p ≠ .size ∨ r.Fails ∨
        (p ≠ .delay ∧ ∀ u rest, p.readUnit r.rest = some (u, rest) → p.max < r.value * u))

theorem max_lt (p : NumberParser) : p.max < 2 ^ 64 := by
  cases p <;> decide

theorem reads_of_startsWith (h : StartsWith s n tail) : Reads p s v rest ↔
    ∃ u, p.readUnit tail = some (u, rest) ∧ v = n * u ∧ v ≤ p.max := by
  constructor
  · rintro ⟨n', tail', u, h', hunit, hv, hmax⟩
    obtain ⟨rfl, rfl⟩ := h.unique h'
    exact ⟨u, hunit, hv, hmax⟩
  · rintro ⟨u, hunit, hv, hmax⟩
    exact ⟨n, tail, u, h, hunit, hv, hmax⟩

/-- A number that `strtoul` cannot return is too large for every parser. -/
theorem not_reads_of_large (h : StartsWith s n tail) (hn : 2 ^ 64 ≤ n) : ¬ Reads p s v rest := by
  intro hreads
  obtain ⟨u, hunit, rfl, hmax⟩ := (reads_of_startsWith h).mp hreads
  have hle : n ≤ n * u := Nat.le_mul_of_pos_right n (readUnit_pos hunit)
  have hlt := max_lt p
  omega

theorem condition_of_startsWith (h : StartsWith s n tail) : p.Condition s ↔
    (n = 2 ^ 64 - 1 → ∀ u rest, p.readUnit tail = some (u, rest) → p.max < n * u) ∧
      (p = .delay → n < 2 ^ 64 - 1 →
        ∃ u rest, p.findUnit (eatSpace tail) = some (u, rest) ∧ n * u ≤ p.max) := by
  constructor
  · exact fun hcond => hcond.1 n tail h
  · refine fun hcond => ⟨fun n' tail' h' => ?_, fun hno => absurd h (hno n tail)⟩
    obtain ⟨rfl, rfl⟩ := h.unique h'
    exact hcond

theorem condition_of_not_startsWith (hno : ∀ n tail, ¬ StartsWith s n tail) : p.Condition s ↔
    eatSpace s = [] ∧ p ≠ .size ∨ (strtoul (eatSpace s)).Fails ∨
      (p ≠ .delay ∧ ∀ u rest, p.readUnit (strtoul (eatSpace s)).rest = some (u, rest) →
        p.max < (strtoul (eatSpace s)).value * u) :=
  ⟨fun hcond => hcond.2 hno, fun hcond => ⟨fun n tail h => absurd h (hno n tail), fun _ => hcond⟩⟩

/-- `strtoul` fails on a number from the greatest value on. -/
theorem fails_iff (h : StartsWith s n tail) :
    (strtoul (eatSpace s)).Fails ↔ 2 ^ 64 - 1 ≤ n := by
  rw [strtoul_of_startsWith h]
  unfold Strtoul.Fails
  split
  next hlarge =>
    have hle : 2 ^ 64 - 1 ≤ n := by omega
    exact iff_of_true (.inl rfl) hle
  next hsmall =>
    constructor
    · rintro (herange | hvalue)
      · cases herange
      · exact Nat.le_of_eq hvalue.symm
    · intro hle
      have heq : n = 2 ^ 64 - 1 := by omega
      exact .inr heq

theorem strtoul_of_small (h : StartsWith s n tail) (hn : n < 2 ^ 64 - 1) :
    strtoul (eatSpace s) = ⟨n, false, tail⟩ := by
  have hlt : ¬ 2 ^ 64 ≤ n := by omega
  rw [strtoul_of_startsWith h, if_neg hlt]

/-- What a parser does in terms of what it accepts. -/
theorem meets_iff_of_agrees {a : Option (ℕ × List Char)} (h : Agrees (p.run s) a) :
    p.Meets s ↔ (∀ v rest, Reads p s v rest → a = some (v, rest)) ∧
      ((∀ v rest, ¬ Reads p s v rest) → a = none) := by
  unfold NumberParser.Meets
  cases a with
  | none =>
      obtain ⟨hok, hwritten⟩ := h
      constructor
      · rintro ⟨hreads, _⟩
        refine ⟨fun v rest hr => ?_, fun _ => rfl⟩
        rw [hreads v rest hr] at hok
        cases hok
      · rintro ⟨hreads, _⟩
        exact ⟨fun v rest hr => (nomatch hreads v rest hr), fun _ => ⟨hok, hwritten⟩⟩
  | some a =>
      have hrun : p.run s = ⟨true, some a.1, a.2⟩ := h
      rw [hrun]
      constructor
      · rintro ⟨hreads, hfails⟩
        refine ⟨fun v rest hr => ?_, fun hno => nomatch (hfails hno).1⟩
        have heq := hreads v rest hr
        injection heq with _ hv hrest
        rw [← Option.some.inj hv, ← hrest]
      · rintro ⟨hreads, hfails⟩
        refine ⟨fun v rest hr => ?_, fun hno => nomatch hfails hno⟩
        rw [Option.some.inj (hreads v rest hr)]

/-- The parsers other than that of delays. -/
theorem number_meets_iff (hp : p ≠ .delay) : p.Meets s ↔ p.Condition s := by
  rw [meets_iff_of_agrees (run_agrees hp s)]
  by_cases hstart : ∃ n tail, StartsWith s n tail
  · obtain ⟨n, tail, h⟩ := hstart
    rw [condition_of_startsWith h]
    have hblank : ¬ (eatSpace s = [] ∧ p ≠ .size) := fun hb => h.ne_nil hb.1
    unfold NumberParser.accepts
    dsimp only
    rw [if_neg hblank]
    rcases Nat.lt_trichotomy n (2 ^ 64 - 1) with hlt | heq | hgt
    · -- an ordinary number is read as it stands
      rw [if_neg (fun hf => absurd ((fails_iff h).mp hf) (not_le.mpr hlt)), strtoul_of_small h hlt]
      refine iff_of_true ⟨fun v rest hr => ?_, fun hno => ?_⟩
        ⟨fun heq => absurd heq (Nat.ne_of_lt hlt), fun hd => absurd hd hp⟩
      · obtain ⟨u, hunit, rfl, hmax⟩ := (reads_of_startsWith h).mp hr
        rw [hunit, Option.bind_some, if_pos hmax]
      · cases hunit : p.readUnit tail with
        | none => rfl
        | some unit =>
            refine if_neg fun hmax => hno (n * unit.1) unit.2 ?_
            exact (reads_of_startsWith h).mpr ⟨unit.1, hunit, rfl, hmax⟩
    · -- the greatest value is taken for an error
      rw [if_pos ((fails_iff h).mpr (Nat.le_of_eq heq.symm))]
      constructor
      · rintro ⟨hreads, _⟩
        refine ⟨fun _ u rest hunit => ?_, fun hd => absurd hd hp⟩
        by_contra hmax
        exact nomatch hreads _ rest
          ((reads_of_startsWith h).mpr ⟨u, hunit, rfl, not_lt.mp hmax⟩)
      · rintro ⟨hmax, _⟩
        refine ⟨fun v rest hr => ?_, fun _ => rfl⟩
        obtain ⟨u, hunit, rfl, hle⟩ := (reads_of_startsWith h).mp hr
        exact absurd hle (not_le.mpr (hmax heq u rest hunit))
    · rw [if_pos ((fails_iff h).mpr (Nat.le_of_lt hgt))]
      have hlarge : 2 ^ 64 ≤ n := by omega
      exact iff_of_true ⟨fun v rest hr => absurd hr (not_reads_of_large h hlarge), fun _ => rfl⟩
        ⟨fun heq => absurd heq (Nat.ne_of_gt hgt), fun hd => absurd hd hp⟩
  · have hno : ∀ n tail, ¬ StartsWith s n tail := fun n tail h => hstart ⟨n, tail, h⟩
    have hreads : ∀ v rest, ¬ Reads p s v rest := fun v rest hr => by
      obtain ⟨n, tail, _, h, _⟩ := hr
      exact hno n tail h
    rw [condition_of_not_startsWith hno]
    unfold NumberParser.accepts
    dsimp only
    constructor
    · rintro ⟨_, hnone⟩
      have haccepts := hnone hreads
      by_cases hblank : eatSpace s = [] ∧ p ≠ .size
      · exact .inl hblank
      rw [if_neg hblank] at haccepts
      by_cases hfails : (strtoul (eatSpace s)).Fails
      · exact .inr (.inl hfails)
      rw [if_neg hfails] at haccepts
      refine .inr (.inr ⟨hp, fun u rest hunit => ?_⟩)
      by_contra hmax
      rw [hunit, Option.bind_some, if_pos (not_lt.mp hmax)] at haccepts
      cases haccepts
    · intro hcond
      refine ⟨fun v rest hr => absurd hr (hreads v rest), fun _ => ?_⟩
      rcases hcond with hblank | hfails | ⟨_, hmax⟩
      · rw [if_pos hblank]
      · rw [if_pos hfails, ite_self]
      · cases hunit : p.readUnit (strtoul (eatSpace s)).rest with
        | none => rw [Option.bind_none, ite_self, ite_self]
        | some unit =>
            rw [Option.bind_some, if_neg (not_le.mpr (hmax unit.1 unit.2 hunit)), ite_self,
              ite_self]

/-! ## The parser of delays -/

theorem parseDelay_fails (h : eatSpace s = [] ∨ (strtoul (eatSpace s)).Fails) :
    parseDelay s = ⟨false, none, eatSpace s⟩ := by
  unfold parseDelay
  rw [parseUnsignedLonglong_fails h]
  rfl

/-- The value of a delay is stored before its unit is known. -/
theorem parseDelay_reads (hnil : eatSpace s ≠ []) (hreads : ¬ (strtoul (eatSpace s)).Fails) :
    parseDelay s =
      match NumberParser.delay.findUnit (eatSpace (strtoul (eatSpace s)).rest) with
      | some (u, rest) => ⟨true, some ((strtoul (eatSpace s)).value * u % 2 ^ 64), rest⟩
      | none => ⟨false, some (strtoul (eatSpace s)).value,
          eatSpace (strtoul (eatSpace s)).rest⟩ := by
  unfold parseDelay
  rw [parseUnsignedLonglong_reads hnil hreads]
  have hlt := strtoul_lt (eatSpace s)
  generalize strtoul (eatSpace s) = r at hlt ⊢
  unfold Outcome.andThen NumberParser.findUnit
  simp only [NumberParser.units, List.find?_cons, List.find?_nil]
  by_cases hs : hasPrefix (eatSpace r.rest) ['s'] = true
  · rw [if_pos hs, hs]
    rfl
  by_cases hms : hasPrefix (eatSpace r.rest) ['m', 's'] = true
  · rw [if_neg hs, if_pos hms, Bool.eq_false_iff.mpr hs, hms]
    rfl
  by_cases hus : hasPrefix (eatSpace r.rest) ['u', 's'] = true
  · rw [if_neg hs, if_neg hms, if_pos hus, Bool.eq_false_iff.mpr hs, Bool.eq_false_iff.mpr hms,
      hus]
    rfl
  by_cases hns : hasPrefix (eatSpace r.rest) ['n', 's'] = true
  · rw [if_neg hs, if_neg hms, if_neg hus, if_pos hns, Bool.eq_false_iff.mpr hs,
      Bool.eq_false_iff.mpr hms, Bool.eq_false_iff.mpr hus, hns]
    dsimp only
    rw [Option.map_some]
    dsimp only
    rw [Nat.mul_one, Nat.mod_eq_of_lt hlt]
    rfl
  · rw [if_neg hs, if_neg hms, if_neg hus, if_neg hns, Bool.eq_false_iff.mpr hs,
      Bool.eq_false_iff.mpr hms, Bool.eq_false_iff.mpr hus, Bool.eq_false_iff.mpr hns]
    rfl

/-- A unit is read where it is found. -/
theorem readUnit_of_findUnit {unit : ℕ × List Char}
    (h : NumberParser.delay.findUnit (eatSpace tail) = some unit) :
    NumberParser.delay.readUnit tail = some unit := by
  have hunits : NumberParser.delay.units ≠ [] := nofun
  unfold NumberParser.readUnit
  rw [if_neg hunits, if_pos (letter_of_findUnit h), h]

/-- A parser of delays that stops before the unit has stored nothing. -/
theorem delay_meets_of_fails (h : eatSpace s = [] ∨ (strtoul (eatSpace s)).Fails) :
    NumberParser.delay.Meets s ↔ ∀ v rest, ¬ Reads .delay s v rest := by
  have hagrees : Agrees (NumberParser.delay.run s) none := by
    show Agrees (parseDelay s) none
    rw [parseDelay_fails h]
    exact agrees_failed _
  rw [meets_iff_of_agrees hagrees]
  constructor
  · exact fun hmeets v rest hr => nomatch hmeets.1 v rest hr
  · exact fun hno => ⟨fun v rest hr => absurd hr (hno v rest), fun _ => rfl⟩

/-- The value of a delay stays when its unit is not found. -/
theorem not_delay_meets (hnil : eatSpace s ≠ []) (hreads : ¬ (strtoul (eatSpace s)).Fails)
    (hnone : NumberParser.delay.findUnit (eatSpace (strtoul (eatSpace s)).rest) = none) :
    ¬ NumberParser.delay.Meets s := by
  have hrun : NumberParser.delay.run s = ⟨false, some (strtoul (eatSpace s)).value,
      eatSpace (strtoul (eatSpace s)).rest⟩ := by
    show parseDelay s = _
    rw [parseDelay_reads hnil hreads, hnone]
  rintro ⟨hmeets, hfails⟩
  rw [hrun] at hmeets hfails
  by_cases hr : ∃ v rest, Reads .delay s v rest
  · obtain ⟨v, rest, hr⟩ := hr
    exact nomatch hmeets v rest hr
  · exact nomatch (hfails fun v rest h => hr ⟨v, rest, h⟩).2

theorem delay_meets_iff : NumberParser.delay.Meets s ↔ NumberParser.delay.Condition s := by
  by_cases hstart : ∃ n tail, StartsWith s n tail
  · obtain ⟨n, tail, h⟩ := hstart
    rw [condition_of_startsWith h]
    rcases Nat.lt_trichotomy n (2 ^ 64 - 1) with hlt | heq | hgt
    · have hreads : ¬ (strtoul (eatSpace s)).Fails :=
        fun hf => absurd ((fails_iff h).mp hf) (not_le.mpr hlt)
      have hstrtoul := strtoul_of_small h hlt
      cases hunit : NumberParser.delay.findUnit (eatSpace tail) with
      | none =>
          refine iff_of_false (not_delay_meets h.ne_nil hreads (by rw [hstrtoul]; exact hunit)) ?_
          rintro ⟨_, hcond⟩
          obtain ⟨_, _, hfound, _⟩ := hcond rfl hlt
          cases hfound
      | some unit =>
          obtain ⟨u, rest⟩ := unit
          have hrun : NumberParser.delay.run s = ⟨true, some (n * u % 2 ^ 64), rest⟩ := by
            show parseDelay s = _
            rw [parseDelay_reads h.ne_nil hreads, hstrtoul, hunit]
          have hread := readUnit_of_findUnit hunit
          unfold NumberParser.Meets
          rw [hrun]
          constructor
          · rintro ⟨_, hfails⟩
            refine ⟨fun heq => absurd heq (Nat.ne_of_lt hlt), fun _ _ => ⟨u, rest, rfl, ?_⟩⟩
            by_contra hmax
            refine nomatch (hfails fun v rest' hr => ?_).1
            obtain ⟨u', hread', rfl, hle⟩ := (reads_of_startsWith h).mp hr
            rw [hread] at hread'
            obtain ⟨rfl, _⟩ := Prod.mk.inj (Option.some.inj hread')
            exact hmax hle
          · rintro ⟨_, hcond⟩
            obtain ⟨u', rest', hfound, hle⟩ := hcond rfl hlt
            obtain ⟨rfl, rfl⟩ := Prod.mk.inj (Option.some.inj hfound)
            have hmod : n * u % 2 ^ 64 = n * u :=
              Nat.mod_eq_of_lt (hle.trans_lt (max_lt .delay))
            rw [hmod]
            constructor
            · intro v rest' hr
              obtain ⟨u', hread', rfl, _⟩ := (reads_of_startsWith h).mp hr
              rw [hread] at hread'
              obtain ⟨rfl, rfl⟩ := Prod.mk.inj (Option.some.inj hread')
              rfl
            · exact fun hno => absurd ((reads_of_startsWith h).mpr ⟨u, hread, rfl, hle⟩) (hno _ _)
    · -- the greatest value is taken for an error
      rw [delay_meets_of_fails (.inr ((fails_iff h).mpr (Nat.le_of_eq heq.symm)))]
      constructor
      · intro hno
        refine ⟨fun _ u rest hunit => ?_, fun _ hlt => absurd heq (Nat.ne_of_lt hlt)⟩
        by_contra hmax
        exact hno _ rest ((reads_of_startsWith h).mpr ⟨u, hunit, rfl, not_lt.mp hmax⟩)
      · rintro ⟨hmax, _⟩ v rest hr
        obtain ⟨u, hunit, rfl, hle⟩ := (reads_of_startsWith h).mp hr
        exact absurd hle (not_le.mpr (hmax heq u rest hunit))
    · rw [delay_meets_of_fails (.inr ((fails_iff h).mpr (Nat.le_of_lt hgt)))]
      have hlarge : 2 ^ 64 ≤ n := by omega
      exact iff_of_true (fun v rest hr => not_reads_of_large h hlarge hr)
        ⟨fun heq => absurd heq (Nat.ne_of_gt hgt), fun _ hlt => absurd hlt (Nat.lt_asymm hgt)⟩
  · have hno : ∀ n tail, ¬ StartsWith s n tail := fun n tail h => hstart ⟨n, tail, h⟩
    have hreads : ∀ v rest, ¬ Reads .delay s v rest := fun v rest hr => by
      obtain ⟨n, tail, _, h, _⟩ := hr
      exact hno n tail h
    rw [condition_of_not_startsWith hno]
    by_cases hfails : eatSpace s = [] ∨ (strtoul (eatSpace s)).Fails
    · rw [delay_meets_of_fails hfails]
      exact iff_of_true hreads (hfails.imp (fun hnil => ⟨hnil, nofun⟩) .inl)
    · obtain ⟨hnil, hf⟩ := not_or.mp hfails
      refine iff_of_false (fun hmeets => ?_) ?_
      · cases hunit : NumberParser.delay.findUnit (eatSpace (strtoul (eatSpace s)).rest) with
        | none => exact not_delay_meets hnil hf hunit hmeets
        | some unit =>
            have hfailed := (hmeets.2 hreads).1
            change (parseDelay s).ok = false at hfailed
            rw [parseDelay_reads hnil hf, hunit] at hfailed
            cases hfailed
      · rintro (hblank | hfail | ⟨hd, _⟩)
        · exact hnil hblank.1
        · exact hf hfail
        · exact hd rfl

/-- The parsers of numbers do what they are for under their condition. -/
theorem NumberParser.meets_iff (p : NumberParser) (s : List Char) : p.Meets s ↔ p.Condition s := by
  by_cases hp : p = .delay
  · subst hp
    exact delay_meets_iff
  · exact number_meets_iff hp

end Xkblas.Trace.Parser
