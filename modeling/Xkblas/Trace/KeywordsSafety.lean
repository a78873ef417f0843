import Xkblas.Trace.Keywords
import Xkblas.Trace.ParserSafety

/-!
# Lists of keywords

`Denotes` is the grammar of the lists: elements that are separated by `sep`, with white space around
each of them. An element is a name of the table or a bit number. `Tolerated` describes the texts
that the parser accepts. These also end with a separator, with a number above 63, or with white
space or an unreadable number after an element with a value above 63, and their names and numbers
are read by `readName` and `strtoul`. `parseLoop_ok_iff` has this, and `listkeywords_iff` has the
condition under which the parser accepts the grammar.
-/

namespace Xkblas.Trace.Keywords

open Library
open Trace.Parser

variable {table : List Constant} {sep c : Char} {s t tail rest w ds name : List Char}
  {mask value v m fuel : ℕ} {o : MaskOutcome}

/-! ## The grammar -/

/-- The text starts with an element of the value `v`. A name is a maximal run of letters that fits
the array for names. -/
inductive Item (table : List Constant) : List Char → ℕ → List Char → Prop where
  | name {t name rest : List Char} {v : ℕ} (hrun : Run Char.isAlpha t name rest) (hne : name ≠ [])
      (hlength : name.length ≤ 127) (hfound : lookup table name = some v) : Item table t v rest
  | number {t ds rest : List Char} (hrun : Run Char.isDigit t ds rest) (hne : ds ≠ [])
      (hmax : decimal ds ≤ 63) : Item table t (2 ^ decimal ds) rest

/-- The text is one element with white space around it. -/
def Single (table : List Constant) (s : List Char) (v : ℕ) : Prop :=
  ∃ w t tail, s = w ++ t ∧ (∀ c ∈ w, isSpace c = true) ∧ Item table t v tail ∧
    ∀ c ∈ tail, isSpace c = true

/-- The text is a list of elements, and the mask is the union of their values. -/
inductive Denotes (table : List Constant) (sep : Char) : List Char → ℕ → Prop where
  | last {s : List Char} {v : ℕ} (h : Single table s v) : Denotes table sep s v
  | cons {w t w' rest : List Char} {v m : ℕ} (hw : ∀ c ∈ w, isSpace c = true)
      (h : Item table t v (w' ++ sep :: rest)) (hw' : ∀ c ∈ w', isSpace c = true)
      (hrest : Denotes table sep rest m) : Denotes table sep (w ++ t) (v ||| m)

/-! ## What the parser accepts -/

/-- The text starts with an element as the parser reads it. A name ends after 127 letters, and a
number is what `strtoul` makes of a text that is not empty. -/
inductive Read (table : List Constant) : List Char → ℕ → List Char → Prop where
  | name {t : List Char} {v : ℕ} (hletter : startsAlpha t = true)
      (hfound : lookup table (readName t) = some v) : Read table t v (t.drop (readName t).length)
  | number {t : List Char} (hletter : startsAlpha t = false) (hne : t ≠ [])
      (hreads : ¬ (strtoul t).Fails) (hmax : (strtoul t).value ≤ 63) :
      Read table t (2 ^ (strtoul t).value) (strtoul t).rest

/-- The text ends the list without an element: nothing can be read after an element with a value
above 63, or there is a number above 63. -/
inductive Ends (value : ℕ) (t : List Char) : Prop where
  | unread (hletter : startsAlpha t = false) (h : t = [] ∨ (strtoul t).Fails) (hold : 63 < value)
  | large (hletter : startsAlpha t = false) (hne : t ≠ []) (hreads : ¬ (strtoul t).Fails)
      (hmax : 63 < (strtoul t).value)

/-- The texts that are accepted, after an element of the given value. -/
inductive Tolerated (table : List Constant) (sep : Char) : ℕ → List Char → Prop where
  | nil (value : ℕ) : Tolerated table sep value []
  | ends {value : ℕ} {s : List Char} (hne : s ≠ []) (h : Ends value (eatSpace s)) :
      Tolerated table sep value s
  | last {value v : ℕ} {s tail : List Char} (h : Read table (eatSpace s) v tail)
      (hend : ∀ c ∈ tail, isSpace c = true) : Tolerated table sep value s
  | cons {value v : ℕ} {s tail w rest : List Char} (h : Read table (eatSpace s) v tail)
      (hspace : Run isSpace tail w (sep :: rest)) (hrest : Tolerated table sep v rest) :
      Tolerated table sep value s

/-! ## Tokens -/

theorem ne_nil_of_startsAlpha (h : startsAlpha t = true) : t ≠ [] := by
  rintro rfl
  cases h

/-- A letter is not a digit and not white space. -/
theorem isAlpha_apart (h : c.isAlpha = true) : c.isDigit = false ∧ isSpace c = false := by
  have hlow : 65 ≤ c.toNat := by
    unfold Char.isAlpha Char.isUpper Char.isLower at h
    rw [Bool.or_eq_true, decide_eq_true_iff, Bool.and_eq_true, decide_eq_true_iff] at h
    rcases h with h | h
    · exact UInt32.le_iff_toNat_le.mp h.1
    · exact Nat.le_trans (by decide) (UInt32.le_iff_toNat_le.mp h.1)
  have hspace : c ≠ ' ' := by
    rintro rfl
    exact absurd hlow (by decide)
  have hdigit : ¬ c.isDigit = true := by
    intro hd
    unfold Char.isDigit at hd
    rw [Bool.and_eq_true, decide_eq_true_iff, decide_eq_true_iff] at hd
    have hhigh : c.toNat ≤ 57 := UInt32.le_iff_toNat_le.mp hd.2
    omega
  refine ⟨Bool.eq_false_iff.mpr hdigit, ?_⟩
  unfold isSpace
  rw [Bool.or_eq_false_iff, Bool.and_eq_false_iff]
  exact ⟨beq_eq_false_iff_ne.mpr hspace, .inr (decide_eq_false (by omega))⟩

/-- The token of a text that starts with a letter. -/
theorem parseKeyword_name (value : ℕ) (h : startsAlpha t = true) : parseKeyword table value t =
    ⟨(lookup table (readName t)).isSome, lookup table (readName t),
      t.drop (readName t).length⟩ := by
  cases t with
  | nil => cases h
  | cons c t =>
      have halpha : c.isAlpha = true := h
      unfold parseKeyword parseIdent
      rw [if_pos h]
      exact if_neg (by rw [(isAlpha_apart halpha).1]; exact Bool.false_ne_true)

/-- A number that cannot be read. -/
theorem parseKeyword_unread (ht : eatSpace t = t) (hletter : startsAlpha t = false)
    (h : t = [] ∨ (strtoul t).Fails) :
    parseKeyword table value t = ⟨decide (63 < value), none, t⟩ := by
  have hfails : parseUnsignedLonglong t = ⟨false, none, t⟩ := by
    rw [parseUnsignedLonglong_fails (by rw [ht]; exact h), ht]
  unfold parseKeyword
  rw [if_neg (by rw [hletter]; exact Bool.false_ne_true), hfails]
  by_cases hold : 63 < value
  · rw [decide_eq_true hold]
    exact if_pos hold
  · rw [decide_eq_false hold]
    exact (if_neg hold).trans (if_pos rfl)

/-- A number that is read. -/
theorem parseKeyword_number (ht : eatSpace t = t) (hletter : startsAlpha t = false) (hne : t ≠ [])
    (hreads : ¬ (strtoul t).Fails) : parseKeyword table value t =
      if 63 < (strtoul t).value then ⟨true, none, (strtoul t).rest⟩
      else ⟨true, some (2 ^ (strtoul t).value), (strtoul t).rest⟩ := by
  have hread := parseUnsignedLonglong_reads (s := t) (by rw [ht]; exact hne)
    (by rw [ht]; exact hreads)
  rw [ht] at hread
  unfold parseKeyword
  rw [if_neg (by rw [hletter]; exact Bool.false_ne_true), hread]
  rfl

theorem parseKeyword_read (ht : eatSpace t = t) (h : Read table t v rest) :
    parseKeyword table value t = ⟨true, some v, rest⟩ := by
  cases h with
  | name hletter hfound => rw [parseKeyword_name value hletter, hfound]; rfl
  | number hletter hne hreads hmax =>
      rw [parseKeyword_number ht hletter hne hreads, if_neg (not_lt.mpr hmax)]

theorem parseKeyword_ends (table : List Constant) (ht : eatSpace t = t) (h : Ends value t) :
    ∃ rest, parseKeyword table value t = ⟨true, none, rest⟩ := by
  cases h with
  | unread hletter h hold =>
      rw [parseKeyword_unread ht hletter h, decide_eq_true hold]
      exact ⟨t, rfl⟩
  | large hletter hne hreads hmax =>
      rw [parseKeyword_number ht hletter hne hreads, if_pos hmax]
      exact ⟨_, rfl⟩

/-- A token is read, ends the list, or makes the parser fail. -/
theorem parseKeyword_cases (table : List Constant) (value : ℕ) (ht : eatSpace t = t) :
    (∃ v rest, Read table t v rest) ∨ Ends value t ∨
      ∃ rest, parseKeyword table value t = ⟨false, none, rest⟩ := by
  cases hletter : startsAlpha t with
  | true =>
      cases hfound : lookup table (readName t) with
      | some v => exact .inl ⟨v, _, .name hletter hfound⟩
      | none =>
          rw [parseKeyword_name value hletter, hfound]
          exact .inr (.inr ⟨_, rfl⟩)
  | false =>
      by_cases hunread : t = [] ∨ (strtoul t).Fails
      · by_cases hold : 63 < value
        · exact .inr (.inl (.unread hletter hunread hold))
        · rw [parseKeyword_unread ht hletter hunread, decide_eq_false hold]
          exact .inr (.inr ⟨t, rfl⟩)
      · obtain ⟨hne, hreads⟩ := not_or.mp hunread
        by_cases hmax : (strtoul t).value ≤ 63
        · exact .inl ⟨_, _, .number hletter hne hreads hmax⟩
        · exact .inr (.inl (.large hletter hne hreads (not_le.mp hmax)))

/-! ## The loop -/

/-- One turn of the loop, after an element. -/
def afterKeyword (table : List Constant) (sep : Char) (fuel mask value : ℕ) (tail : List Char) :
    Option MaskOutcome :=
  match eatSpace tail with
  | [] => some ⟨true, mask ||| value, []⟩
  | c :: str =>
      if c = sep then parseLoop table sep fuel (mask ||| value) value str
      else some ⟨false, mask ||| value, c :: str⟩

theorem parseLoop_read (hne : s ≠ []) (h : Read table (eatSpace s) v tail) :
    parseLoop table sep (fuel + 1) mask value s = afterKeyword table sep fuel mask v tail := by
  conv_lhs => unfold parseLoop
  rw [if_neg hne, parseKeyword_read (eatSpace_eatSpace s) h]
  rfl

/-- A token without a value ends the loop. -/
theorem parseLoop_stop (hne : s ≠ []) {ok : Bool}
    (h : parseKeyword table value (eatSpace s) = ⟨ok, none, rest⟩) :
    parseLoop table sep (fuel + 1) mask value s = some ⟨ok, mask, rest⟩ := by
  conv_lhs => unfold parseLoop
  rw [if_neg hne, h]

theorem afterKeyword_end (hend : ∀ c ∈ tail, isSpace c = true) :
    afterKeyword table sep fuel mask v tail = some ⟨true, mask ||| v, []⟩ := by
  have heat : eatSpace tail = [] := (Run.whole hend).dropWhile
  unfold afterKeyword
  rw [heat]

theorem afterKeyword_sep (hspace : Run isSpace tail w (sep :: rest)) :
    afterKeyword table sep fuel mask v tail =
      parseLoop table sep fuel (mask ||| v) v rest := by
  have heat : eatSpace tail = sep :: rest := hspace.dropWhile
  unfold afterKeyword
  rw [heat]
  exact if_pos rfl

theorem readSign_length (t : List Char) : (readSign t).2.length ≤ t.length := by
  unfold readSign
  split
  · exact Nat.le_succ _
  · exact Nat.le_succ _
  · exact le_rfl

theorem eatSpace_length_le (s : List Char) : (eatSpace s).length ≤ s.length :=
  (run_takeWhile isSpace s).length_le

/-- `strtoul` does not go back. -/
theorem strtoul_rest_length (t : List Char) : (strtoul t).rest.length ≤ t.length := by
  have hrest : ((readSign (eatSpace t)).2.dropWhile Char.isDigit).length ≤ t.length :=
    (run_takeWhile Char.isDigit _).length_le.trans
      ((readSign_length _).trans (eatSpace_length_le t))
  unfold strtoul
  dsimp only
  split
  · exact le_rfl
  · split
    · exact hrest
    · split
      · exact hrest
      · exact hrest

theorem Read.ne_nil (h : Read table t v rest) : t ≠ [] := by
  cases h with
  | name hletter _ => exact ne_nil_of_startsAlpha hletter
  | number _ hne _ _ => exact hne

theorem Read.length_le (h : Read table t v rest) : rest.length ≤ t.length := by
  cases h with
  | name _ _ =>
      rw [List.length_drop]
      exact Nat.sub_le _ _
  | number _ _ _ _ => exact strtoul_rest_length t

/-- The rest of an element that is followed by a separator. -/
theorem Read.length_lt (h : Read table (eatSpace s) v tail)
    (hspace : Run isSpace tail w (sep :: rest)) : rest.length < s.length := by
  have hsep : rest.length + 1 ≤ tail.length := hspace.length_le
  have hread := h.length_le
  have heat := eatSpace_length_le s
  omega

/-- A text is read in one way. -/
theorem Read.unique {v' : ℕ} {tail' : List Char} (h : Read table (eatSpace s) v tail)
    (h' : Read table (eatSpace s) v' tail') : v = v' ∧ tail = tail' := by
  have hkey : parseKeyword table 0 (eatSpace s) = _ := parseKeyword_read (eatSpace_eatSpace s) h
  rw [parseKeyword_read (eatSpace_eatSpace s) h'] at hkey
  injection hkey with _ hv htail
  exact ⟨(Option.some.inj hv).symm, htail.symm⟩

/-- An element that is read does not end the list. -/
theorem Read.not_ends (h : Read table (eatSpace s) v tail) : ¬ Ends value (eatSpace s) := by
  intro hends
  obtain ⟨rest, hkey⟩ := parseKeyword_ends table (eatSpace_eatSpace s) hends
  rw [parseKeyword_read (eatSpace_eatSpace s) h] at hkey
  cases hkey

/-- The texts that are accepted from an element on. -/
theorem tolerated_of_read (h : Read table (eatSpace s) v tail) :
    Tolerated table sep value s ↔ (∀ c ∈ tail, isSpace c = true) ∨
      ∃ w rest, Run isSpace tail w (sep :: rest) ∧ Tolerated table sep v rest := by
  constructor
  · intro hs
    cases hs with
    | nil => exact absurd rfl h.ne_nil
    | ends _ hends => exact absurd hends h.not_ends
    | last h' hend =>
        obtain ⟨rfl, rfl⟩ := h.unique h'
        exact .inl hend
    | cons h' hspace hrest =>
        obtain ⟨rfl, rfl⟩ := h.unique h'
        exact .inr ⟨_, _, hspace, hrest⟩
  · rintro (hend | ⟨w, rest, hspace, hrest⟩)
    · exact .last h hend
    · exact .cons h hspace hrest

/-- A text whose first token fails is not accepted. -/
theorem not_tolerated_of_fails (hne : s ≠ [])
    (hfail : parseKeyword table value (eatSpace s) = ⟨false, none, rest⟩) :
    ¬ Tolerated table sep value s := by
  intro hs
  cases hs with
  | nil => exact hne rfl
  | ends _ hends =>
      obtain ⟨rest', hkey⟩ := parseKeyword_ends table (eatSpace_eatSpace s) hends
      rw [hkey] at hfail
      cases hfail
  | last h _ =>
      rw [parseKeyword_read (eatSpace_eatSpace s) h] at hfail
      cases hfail
  | cons h _ _ =>
      rw [parseKeyword_read (eatSpace_eatSpace s) h] at hfail
      cases hfail

/-- The loop ends, and it accepts the texts that are tolerated. -/
theorem parseLoop_ok_iff (hfuel : s.length < fuel) : ∃ o,
    parseLoop table sep fuel mask value s = some o ∧
      (o.ok = true ↔ Tolerated table sep value s) := by
  induction fuel generalizing mask value s with
  | zero => exact absurd hfuel (Nat.not_lt_zero _)
  | succ fuel ih =>
      by_cases hne : s = []
      · subst hne
        exact ⟨_, rfl, iff_of_true rfl (.nil value)⟩
      rcases parseKeyword_cases table value (eatSpace_eatSpace s) with
        ⟨v, tail, hread⟩ | hends | ⟨rest, hfail⟩
      · rw [parseLoop_read hne hread, tolerated_of_read hread]
        have hrun := run_takeWhile isSpace tail
        cases heat : tail.dropWhile isSpace with
        | nil =>
            rw [heat] at hrun
            have hend : ∀ c ∈ tail, isSpace c = true := by
              rw [hrun.eq, List.append_nil]
              exact hrun.all
            exact ⟨_, afterKeyword_end hend, iff_of_true rfl (.inl hend)⟩
        | cons c str =>
            rw [heat] at hrun
            have hlong : ¬ ∀ c ∈ tail, isSpace c = true := fun hend => by
              obtain ⟨_, hnil⟩ := hrun.unique (.whole hend)
              cases hnil
            by_cases hsep : c = sep
            · subst hsep
              have hshort : str.length < fuel :=
                (hread.length_lt hrun).trans_le (Nat.le_of_lt_succ hfuel)
              obtain ⟨o, ho, hiff⟩ : ∃ o, parseLoop table c fuel (mask ||| v) v str = some o ∧
                  (o.ok = true ↔ Tolerated table c v str) := ih hshort
              rw [afterKeyword_sep hrun]
              refine ⟨o, ho, hiff.trans ⟨fun hs => .inr ⟨_, str, hrun, hs⟩, ?_⟩⟩
              rintro (hend | ⟨w, rest, hspace, hs⟩)
              · exact absurd hend hlong
              · obtain ⟨_, heq⟩ := hrun.unique hspace
                obtain ⟨_, rfl⟩ := List.cons.inj heq
                exact hs
            · have hafter : afterKeyword table sep fuel mask v tail =
                  some ⟨false, mask ||| v, c :: str⟩ := by
                unfold afterKeyword
                rw [show eatSpace tail = c :: str from heat]
                exact if_neg hsep
              refine ⟨_, hafter, iff_of_false Bool.false_ne_true ?_⟩
              rintro (hend | ⟨w, rest, hspace, _⟩)
              · exact hlong hend
              · obtain ⟨_, heq⟩ := hrun.unique hspace
                exact hsep (List.cons.inj heq).1
      · obtain ⟨rest, hkey⟩ := parseKeyword_ends table (eatSpace_eatSpace s) hends
        exact ⟨_, parseLoop_stop hne hkey, iff_of_true rfl (.ends hne hends)⟩
      · exact ⟨_, parseLoop_stop hne hfail,
          iff_of_false Bool.false_ne_true (not_tolerated_of_fails hne hfail)⟩

/-! ## The grammar and the parser -/

theorem startsWith_of_number (hrun : Run Char.isDigit t ds rest) (hne : ds ≠ []) :
    StartsWith t (decimal ds) rest := by
  refine ⟨[], t, ds, .nil fun c hc => ?_, hrun, hne, rfl⟩
  obtain ⟨d, ds, rfl⟩ := List.exists_cons_of_ne_nil hne
  rw [hrun.eq] at hc
  rw [← Option.some.inj hc]
  exact isSpace_of_isDigit (hrun.all d List.mem_cons_self)

/-- An element does not start with white space. -/
theorem Item.head (h : Item table t v rest) (hc : t.head? = some c) : isSpace c = false := by
  cases h with
  | name hrun hne _ _ =>
      obtain ⟨d, name, rfl⟩ := List.exists_cons_of_ne_nil hne
      rw [hrun.eq] at hc
      rw [← Option.some.inj hc]
      exact (isAlpha_apart (hrun.all d List.mem_cons_self)).2
  | number hrun hne _ =>
      obtain ⟨d, ds, rfl⟩ := List.exists_cons_of_ne_nil hne
      rw [hrun.eq] at hc
      rw [← Option.some.inj hc]
      exact isSpace_of_isDigit (hrun.all d List.mem_cons_self)

/-- The elements of the grammar are read as they stand. -/
theorem Item.read (h : Item table t v rest) : Read table t v rest := by
  cases h with
  | @name name _ _ hrun hne hlength hfound =>
      have hname : readName t = name := by
        unfold readName
        rw [hrun.takeWhile, List.take_of_length_le hlength]
      have hdrop : t.drop (readName t).length = rest := by
        rw [hname, hrun.eq, List.drop_left]
      have hletter : startsAlpha t = true := by
        obtain ⟨d, name, rfl⟩ := List.exists_cons_of_ne_nil hne
        rw [hrun.eq]
        exact hrun.all d List.mem_cons_self
      rw [← hdrop]
      exact .name hletter (by rw [hname]; exact hfound)
  | @number ds _ hrun hne hmax =>
      have hstart := startsWith_of_number hrun hne
      have hitem : Item table t (2 ^ decimal ds) rest := .number hrun hne hmax
      have heat : eatSpace t = t := Run.dropWhile (.nil fun c hc => hitem.head hc)
      have hsmall : decimal ds < 2 ^ 64 - 1 := hmax.trans_lt (by decide)
      have hstrtoul := strtoul_of_small hstart hsmall
      have hfails := fails_iff hstart
      rw [heat] at hstrtoul hfails
      have hletter : startsAlpha t = false := by
        obtain ⟨d, ds, rfl⟩ := List.exists_cons_of_ne_nil hne
        rw [hrun.eq]
        refine Bool.eq_false_iff.mpr fun halpha => ?_
        have hdigit := hrun.all d List.mem_cons_self
        rw [(isAlpha_apart halpha).1] at hdigit
        cases hdigit
      have hread : Read table t (2 ^ (strtoul t).value) (strtoul t).rest := by
        refine .number hletter (heat ▸ hstart.ne_nil) (fun hf => ?_) ?_
        · exact absurd (hfails.mp hf) (not_le.mpr hsmall)
        · rw [hstrtoul]
          exact hmax
      rw [hstrtoul] at hread
      exact hread

theorem Item.eatSpace_eq (h : Item table t v rest) (hw : ∀ c ∈ w, isSpace c = true) :
    eatSpace (w ++ t) = t :=
  Run.dropWhile ⟨rfl, hw, fun _ => h.head⟩

theorem Item.ne_nil (h : Item table t v rest) (w : List Char) : w ++ t ≠ [] :=
  List.append_ne_nil_of_right_ne_nil w h.read.ne_nil

/-- A list in the grammar starts with an element. -/
theorem Denotes.item (h : Denotes table sep s m) :
    ∃ w t v rest, s = w ++ t ∧ (∀ c ∈ w, isSpace c = true) ∧ Item table t v rest := by
  cases h with
  | last h =>
      obtain ⟨w, t, tail, heq, hw, hitem, _⟩ := h
      exact ⟨w, t, m, tail, heq, hw, hitem⟩
  | cons hw hitem _ _ => exact ⟨_, _, _, _, rfl, hw, hitem⟩

/-- The loop on one element. -/
theorem parseLoop_single (h : Single table s v) :
    parseLoop table sep (fuel + 1) mask value s = some ⟨true, mask ||| v, []⟩ := by
  obtain ⟨w, t, tail, rfl, hw, hitem, htail⟩ := h
  have hread : Read table (eatSpace (w ++ t)) v tail := by
    rw [hitem.eatSpace_eq hw]
    exact hitem.read
  rw [parseLoop_read (hitem.ne_nil w) hread, afterKeyword_end htail]

/-- The loop on a list whose separator is not white space. -/
theorem parseLoop_denotes (hsep : isSpace sep = false) (h : Denotes table sep s m)
    (hfuel : s.length < fuel) :
    parseLoop table sep fuel mask value s = some ⟨true, mask ||| m, []⟩ := by
  induction h generalizing fuel mask value with
  | last h =>
      obtain ⟨fuel, rfl⟩ : ∃ k, fuel = k + 1 := ⟨fuel - 1, by omega⟩
      exact parseLoop_single h
  | @cons w t w' rest v m hw hitem hw' _ ih =>
      obtain ⟨fuel, rfl⟩ : ∃ k, fuel = k + 1 := ⟨fuel - 1, by omega⟩
      have hread : Read table (eatSpace (w ++ t)) v (w' ++ sep :: rest) := by
        rw [hitem.eatSpace_eq hw]
        exact hitem.read
      have hspace : Run isSpace (w' ++ sep :: rest) w' (sep :: rest) := by
        refine ⟨rfl, hw', fun c hc => ?_⟩
        rw [← Option.some.inj hc]
        exact hsep
      have hshort := hread.length_lt hspace
      rw [parseLoop_read (hitem.ne_nil w) hread, afterKeyword_sep hspace, ih (by omega),
        Nat.or_assoc]

/-- A separator that is white space is skipped with it. -/
theorem not_tolerated_of_isSpace (hsep : isSpace sep = true) {w' : List Char}
    (hw : ∀ c ∈ w, isSpace c = true) (hitem : Item table t v (w' ++ sep :: rest))
    (hrest : Denotes table sep rest m) : ¬ Tolerated table sep value (w ++ t) := by
  have hread : Read table (eatSpace (w ++ t)) v (w' ++ sep :: rest) := by
    rw [hitem.eatSpace_eq hw]
    exact hitem.read
  rw [tolerated_of_read hread]
  rintro (hend | ⟨w₂, rest₂, hspace, _⟩)
  · obtain ⟨w₂, t₂, v₂, rest₂, rfl, _, hitem₂⟩ := hrest.item
    obtain ⟨c, t₂, rfl⟩ := List.exists_cons_of_ne_nil hitem₂.read.ne_nil
    have hc : isSpace c = true := hend c (by simp)
    rw [hitem₂.head rfl] at hc
    cases hc
  · rw [hspace.ends sep rfl] at hsep
    cases hsep

/-! ## The condition -/

/-- What the parser is for: it accepts the lists of the grammar with their masks, up to the end of
the text, and no other text. -/
def Meets (table : List Constant) (sep : Char) (value : ℕ) (s : List Char) : Prop :=
  ∃ o, parseListkeywords table sep value s = some o ∧
    (∀ m, Denotes table sep s m → o = ⟨true, m, []⟩) ∧
      ((∀ m, ¬ Denotes table sep s m) → o.ok = false)

/-- A list of the grammar has one element if its separator is white space. Another text is not one
of those that are tolerated. -/
def Condition (table : List Constant) (sep : Char) (value : ℕ) (s : List Char) : Prop :=
  (∀ m, Denotes table sep s m → isSpace sep = false ∨ Single table s m) ∧
    ((∀ m, ¬ Denotes table sep s m) → ¬ Tolerated table sep value s)

/-- `kaapi_parse_listkeywords` accepts the grammar exactly under the condition. -/
theorem listkeywords_iff (table : List Constant) (sep : Char) (value : ℕ) (s : List Char) :
    Meets table sep value s ↔ Condition table sep value s := by
  obtain ⟨o, ho, hiff⟩ : ∃ o, parseListkeywords table sep value s = some o ∧
      (o.ok = true ↔ Tolerated table sep value s) := parseLoop_ok_iff (Nat.lt_succ_self _)
  constructor
  · rintro ⟨o', ho', hreads, hfails⟩
    obtain rfl := Option.some.inj (ho.symm.trans ho')
    refine ⟨fun m h => ?_, fun hno htol => ?_⟩
    · have htol := hiff.mp (congrArg MaskOutcome.ok (hreads m h))
      cases h with
      | last h => exact .inr h
      | cons hw hitem _ hrest =>
          refine .inl (Bool.eq_false_iff.mpr fun hsep => ?_)
          exact not_tolerated_of_isSpace hsep hw hitem hrest htol
    · have hok := hiff.mpr htol
      rw [hfails hno] at hok
      cases hok
  · rintro ⟨hreads, hfails⟩
    refine ⟨o, ho, fun m h => ?_, fun hno => ?_⟩
    · have hrun : parseListkeywords table sep value s = some ⟨true, 0 ||| m, []⟩ := by
        rcases hreads m h with hsep | hsingle
        · exact parseLoop_denotes hsep h (Nat.lt_succ_self _)
        · exact parseLoop_single hsingle
      rw [Nat.zero_or] at hrun
      exact Option.some.inj (ho.symm.trans hrun)
    · exact Bool.eq_false_iff.mpr fun hok => hfails hno (hiff.mp hok)

/-- The number 64 is accepted, with an empty mask. -/
theorem not_listkeywords : ¬ ∀ (table : List Constant) (sep : Char) (value : ℕ) (s : List Char),
    Meets table sep value s := by
  intro h
  obtain ⟨o, ho, _, hfails⟩ := h [] ',' 0 ['6', '4']
  have hrun : parseListkeywords [] ',' 0 ['6', '4'] = some ⟨true, 0, []⟩ := by decide
  obtain rfl := Option.some.inj (ho.symm.trans hrun)
  have hok : true = false := hfails fun m hm => by
    obtain ⟨w, t, v, rest, heq, hw, hitem⟩ := hm.item
    have ht : ['6', '4'] = t := by
      rw [← hitem.eatSpace_eq hw, ← heq]
      rfl
    subst ht
    cases hitem with
    | name hrun hne _ _ =>
        obtain ⟨rfl, _⟩ := hrun.unique (.of_head rfl)
        exact hne rfl
    | number hrun _ hmax =>
        rw [← hrun.takeWhile] at hmax
        exact absurd hmax (by decide)
  cases hok

end Xkblas.Trace.Keywords
