import Mathlib.Data.List.TakeWhile
import Mathlib.Logic.Function.Basic
import Mathlib.Tactic.SplitIfs

/-!
# Command-line flags

A set of flags with string values, parsed as Go's `flag` package does: a flag has one
dash or two, and its value behind an equals sign or in the next word, whatever
that is. The flags end at `--`, which is taken, or at the first word that is no
flag, which is not.

`parse_ok_iff` says what is accepted: settings of defined flags, written one
after another in any of the four ways, with each flag left at its last value.
-/

namespace Vespa

namespace Flags

def dash : UInt8 := 45

def equals : UInt8 := 61

/-- A call for help, or another error. -/
inductive Failure where
  | help
  | usage
deriving DecidableEq, Repr

/-- What a word is, where a flag may stand. -/
inductive Word where
  | operand
  | terminator
  | malformed
  | flag (name : List UInt8) (value : Option (List UInt8))
deriving DecidableEq, Repr

/-- A flag without its dashes; an equals sign cannot be first. -/
def ofBody : List UInt8 → Word
  | [] => .malformed
  | b :: rest =>
    if b = dash ∨ b = equals then .malformed
    else
      match (b :: rest).dropWhile (· != equals) with
      | [] => .flag (b :: rest) none
      | _ :: value => .flag ((b :: rest).takeWhile (· != equals)) (some value)

def classify : List UInt8 → Word
  | [] => .operand
  | [_] => .operand
  | b :: b' :: rest =>
    if b ≠ dash then .operand
    else if b' ≠ dash then ofBody (b' :: rest)
    else if rest = [] then .terminator
    else ofBody rest

abbrev Values := List UInt8 → List UInt8

def isHelp (name : List UInt8) : Bool := name == [104, 101, 108, 112] || name == [104]

/-- `FlagSet.Parse`: the values, and the words behind the flags. -/
def parse (defined : List UInt8 → Bool) :
    List (List UInt8) → Values → Except Failure (Values × List (List UInt8))
  | [], values => .ok (values, [])
  | word :: words, values =>
    match classify word with
    | .operand => .ok (values, word :: words)
    | .terminator => .ok (values, words)
    | .malformed => .error .usage
    | .flag name value =>
      if defined name then
        match value, words with
        | some v, words => parse defined words (Function.update values name v)
        | none, v :: words => parse defined words (Function.update values name v)
        | none, [] => .error .usage
      else if isHelp name then .error .help
      else .error .usage

/-! ## Words -/

/-- A name that a flag can have. -/
structure Nameable (name : List UInt8) : Prop where
  head : ∃ b rest, name = b :: rest ∧ b ≠ dash
  equals : equals ∉ name

theorem dropWhile_equals {name : List UInt8} (h : equals ∉ name) (rest : List UInt8) :
    (name ++ rest).dropWhile (· != equals) = rest.dropWhile (· != equals) := by
  refine List.dropWhile_append_of_pos fun b hb => ?_
  simpa using fun heq : b = equals => h (heq ▸ hb)

theorem takeWhile_equals {name : List UInt8} (h : equals ∉ name) (value : List UInt8) :
    (name ++ equals :: value).takeWhile (· != equals) = name := by
  rw [List.takeWhile_append_of_pos fun b hb => by simpa using fun heq : b = equals => h (heq ▸ hb),
    List.takeWhile_cons_of_neg (by simp), List.append_nil]

theorem ofBody_name {name : List UInt8} (h : Nameable name) : ofBody name = .flag name none := by
  obtain ⟨⟨b, rest, rfl, hb⟩, hequals⟩ := h
  have hne : ¬(b = dash ∨ b = equals) := by
    rintro (heq | rfl)
    · exact hb heq
    · exact hequals List.mem_cons_self
  have hdrop := dropWhile_equals hequals []
  rw [List.append_nil, List.dropWhile_nil] at hdrop
  rw [ofBody, if_neg hne, hdrop]

theorem ofBody_value {name : List UInt8} (h : Nameable name) (value : List UInt8) :
    ofBody (name ++ equals :: value) = .flag name (some value) := by
  obtain ⟨⟨b, rest, rfl, hb⟩, hequals⟩ := h
  have hne : ¬(b = dash ∨ b = equals) := by
    rintro (heq | rfl)
    · exact hb heq
    · exact hequals List.mem_cons_self
  have hdrop := dropWhile_equals hequals (equals :: value)
  have htake := takeWhile_equals hequals value
  rw [List.dropWhile_cons_of_neg (by simp)] at hdrop
  rw [List.cons_append] at hdrop htake ⊢
  rw [ofBody, if_neg hne, hdrop, htake]

/-- The text of a flag behind its dashes. -/
def body (name : List UInt8) (value : Option (List UInt8)) : List UInt8 :=
  name ++ value.elim [] (equals :: ·)

theorem ofBody_body {name : List UInt8} (h : Nameable name) (value : Option (List UInt8)) :
    ofBody (body name value) = .flag name value := by
  cases value with
  | none => rw [body, Option.elim_none, List.append_nil, ofBody_name h]
  | some value => exact ofBody_value h value

/-- **A flag is its name and its value**, and nothing else is a flag. -/
theorem of_ofBody {text name : List UInt8} {value : Option (List UInt8)}
    (h : ofBody text = .flag name value) : Nameable name ∧ text = body name value := by
  cases text with
  | nil => cases h
  | cons b rest =>
      rw [ofBody] at h
      split_ifs at h with hfirst
      obtain ⟨hdash, hequals⟩ := not_or.mp hfirst
      have hwhole := List.takeWhile_append_dropWhile (p := (· != equals)) (l := b :: rest)
      have hnone : ∀ x ∈ (b :: rest).takeWhile (· != equals), x ≠ equals := by
        intro x hx
        simpa using List.mem_takeWhile_imp hx
      have htake : (b :: rest).takeWhile (· != equals)
          = b :: rest.takeWhile (· != equals) :=
        List.takeWhile_cons_of_pos (by simpa using hequals)
      cases hdrop : (b :: rest).dropWhile (· != equals) with
      | nil =>
          rw [hdrop] at h hwhole
          obtain ⟨rfl, rfl⟩ := Word.flag.inj h
          rw [List.append_nil] at hwhole
          refine ⟨⟨⟨b, rest, rfl, hdash⟩, fun hmem => ?_⟩, (List.append_nil _).symm⟩
          rw [← hwhole] at hmem
          exact hnone _ hmem rfl
      | cons x value' =>
          rw [hdrop] at h hwhole
          obtain ⟨rfl, rfl⟩ := Word.flag.inj h
          have hx : x = equals := by
            have hhead := List.head?_dropWhile_not (· != equals) (b :: rest)
            rw [hdrop] at hhead
            simpa using hhead
          rw [hx] at hwhole
          refine ⟨⟨⟨b, _, htake, hdash⟩, fun hmem => hnone _ hmem rfl⟩, hwhole.symm⟩

theorem classify_flag {name : List UInt8} (h : Nameable name) (double : Bool)
    (value : Option (List UInt8)) :
    classify ((if double then [dash, dash] else [dash]) ++ body name value)
      = .flag name value := by
  have hbody := ofBody_body h value
  obtain ⟨⟨b, rest, rfl, hb⟩, -⟩ := h
  cases double with
  | false =>
      show classify (dash :: b :: (rest ++ value.elim [] (equals :: ·))) = _
      rw [classify, if_neg (not_not.mpr rfl), if_pos hb]
      exact hbody
  | true =>
      show classify (dash :: dash :: b :: (rest ++ value.elim [] (equals :: ·))) = _
      rw [classify, if_neg (not_not.mpr rfl), if_neg (not_not.mpr rfl),
        if_neg (List.cons_ne_nil _ _)]
      exact hbody

theorem of_classify_flag {word name : List UInt8} {value : Option (List UInt8)}
    (h : classify word = .flag name value) :
    Nameable name ∧ ∃ double : Bool,
      word = (if double then [dash, dash] else [dash]) ++ body name value := by
  unfold classify at h
  split at h
  · cases h
  · cases h
  · rename_i b b' rest
    split_ifs at h with hb hb' hrest
    · obtain rfl := not_not.mp hb
      obtain ⟨hname, hbody⟩ := of_ofBody h
      exact ⟨hname, false, congrArg (dash :: ·) hbody⟩
    · obtain rfl := not_not.mp hb
      obtain rfl := not_not.mp hb'
      obtain ⟨hname, hbody⟩ := of_ofBody h
      exact ⟨hname, true, congrArg (dash :: dash :: ·) hbody⟩

/-! ## Settings -/

/-- A flag with its value, as it is written: with two dashes or one, the value behind an
equals sign or in a word of its own. -/
structure Setting where
  name : List UInt8
  value : List UInt8
  double : Bool
  inline : Bool

namespace Setting

def words (s : Setting) : List (List UInt8) :=
  let dashes := if s.double then [dash, dash] else [dash]
  if s.inline then [dashes ++ body s.name (some s.value)]
  else [dashes ++ body s.name none, s.value]

def apply (values : Values) (s : Setting) : Values := Function.update values s.name s.value

/-- A setting of a flag that there is. -/
structure Of (defined : List UInt8 → Bool) (s : Setting) : Prop where
  defined : defined s.name = true
  nameable : Nameable s.name

end Setting

/-- Where flags end, and the words left then. -/
inductive Stops : List (List UInt8) → List (List UInt8) → Prop where
  | nil : Stops [] []
  | operand {word : List UInt8} (words : List (List UInt8)) (h : classify word = .operand) :
      Stops (word :: words) (word :: words)
  | terminator {word : List UInt8} (words : List (List UInt8))
      (h : classify word = .terminator) : Stops (word :: words) words

section
variable {defined : List UInt8 → Bool}

theorem parse_setting {s : Setting} (h : s.Of defined) (words : List (List UInt8))
    (values : Values) :
    parse defined (s.words ++ words) values = parse defined words (s.apply values) := by
  obtain ⟨name, value, double, inline⟩ := s
  cases inline with
  | true =>
      have hword := classify_flag h.nameable double (some value)
      show parse defined (_ :: words) values = _
      rw [parse, hword]
      exact if_pos h.defined
  | false =>
      have hword := classify_flag h.nameable double none
      show parse defined (_ :: value :: words) values = _
      rw [parse, hword]
      exact if_pos h.defined

/-- **Settings that are written are read.** -/
theorem parse_settings {ss : List Setting} (h : ∀ s ∈ ss, s.Of defined)
    (words : List (List UInt8)) (values : Values) :
    parse defined (ss.flatMap Setting.words ++ words) values
      = parse defined words (ss.foldl Setting.apply values) := by
  induction ss generalizing values with
  | nil => rfl
  | cons s ss ih =>
      rw [List.flatMap_cons, List.append_assoc, parse_setting (h s List.mem_cons_self),
        ih fun s hs => h s (List.mem_cons_of_mem _ hs)]
      rfl

theorem parse_of_stops {tail rest : List (List UInt8)} (h : Stops tail rest) (values : Values) :
    parse defined tail values = .ok (values, rest) := by
  cases h with
  | nil => rfl
  | operand words h => rw [parse, h]
  | terminator words h => rw [parse, h]

theorem parse_written {ss : List Setting} {tail rest : List (List UInt8)}
    (hss : ∀ s ∈ ss, s.Of defined) (hstops : Stops tail rest) (values : Values) :
    parse defined (ss.flatMap Setting.words ++ tail) values
      = .ok (ss.foldl Setting.apply values, rest) := by
  rw [parse_settings hss, parse_of_stops hstops]

/-- **Only settings that are written are read.** -/
theorem settings_of_parse {words rest : List (List UInt8)} {values values' : Values}
    (h : parse defined words values = .ok (values', rest)) :
    ∃ (ss : List Setting) (tail : List (List UInt8)), (∀ s ∈ ss, s.Of defined)
      ∧ words = ss.flatMap Setting.words ++ tail ∧ Stops tail rest
      ∧ values' = ss.foldl Setting.apply values := by
  induction words, values using parse.induct defined with
  | case1 values =>
      obtain ⟨rfl, rfl⟩ := Prod.mk.inj (Except.ok.inj h)
      exact ⟨[], [], fun s hs => (by cases hs), rfl, .nil, rfl⟩
  | case2 word words values hword =>
      rw [parse, hword] at h
      obtain ⟨rfl, rfl⟩ := Prod.mk.inj (Except.ok.inj h)
      exact ⟨[], word :: words, fun s hs => (by cases hs), rfl, .operand words hword, rfl⟩
  | case3 word words values hword =>
      rw [parse, hword] at h
      obtain ⟨rfl, rfl⟩ := Prod.mk.inj (Except.ok.inj h)
      exact ⟨[], word :: words, fun s hs => (by cases hs), rfl, .terminator words hword, rfl⟩
  | case5 word values name hdefined v words hword ih =>
      rw [parse, hword] at h
      simp only [hdefined, if_true] at h
      obtain ⟨ss, tail, hss, rfl, hstops, hvalues⟩ := ih h
      obtain ⟨hname, double, rfl⟩ := of_classify_flag hword
      exact ⟨⟨name, v, double, true⟩ :: ss, tail, List.forall_mem_cons.mpr ⟨⟨hdefined, hname⟩, hss⟩,
        rfl, hstops, hvalues⟩
  | case6 word values name hdefined v words hword ih =>
      rw [parse, hword] at h
      simp only [hdefined, if_true] at h
      obtain ⟨ss, tail, hss, rfl, hstops, hvalues⟩ := ih h
      obtain ⟨hname, double, rfl⟩ := of_classify_flag hword
      exact ⟨⟨name, v, double, false⟩ :: ss, tail,
        List.forall_mem_cons.mpr ⟨⟨hdefined, hname⟩, hss⟩, rfl, hstops, hvalues⟩
  | case4 word words values hword =>
      rw [parse, hword] at h
      cases h
  | case7 word values name hdefined hword =>
      rw [parse, hword] at h
      simp only [hdefined, if_true] at h
      cases h
  | case8 word words values name value hword hdefined hhelp =>
      rw [parse, hword] at h
      simp only [if_neg hdefined, if_pos hhelp] at h
      cases h
  | case9 word words values name value hword hdefined hhelp =>
      rw [parse, hword] at h
      simp only [if_neg hdefined, if_neg hhelp] at h
      cases h

/-- **What is accepted**: settings of defined flags, in order, up to where flags end; and
the last value of each. -/
theorem parse_ok_iff {words rest : List (List UInt8)} {values values' : Values} :
    parse defined words values = .ok (values', rest) ↔
      ∃ (ss : List Setting) (tail : List (List UInt8)), (∀ s ∈ ss, s.Of defined)
        ∧ words = ss.flatMap Setting.words ++ tail ∧ Stops tail rest
        ∧ values' = ss.foldl Setting.apply values := by
  constructor
  · exact settings_of_parse
  · rintro ⟨ss, tail, hss, rfl, hstops, rfl⟩
    exact parse_written hss hstops values

/-- The value of a flag after settings: the last it was given. -/
theorem foldl_apply (ss : List Setting) (values : Values) (name : List UInt8) :
    ss.foldl Setting.apply values name
      = (((ss.filter (·.name == name)).map Setting.value).getLast?).getD (values name) := by
  induction ss generalizing values with
  | nil => rfl
  | cons s ss ih =>
      rw [List.foldl_cons, ih]
      by_cases hname : s.name = name
      · rw [List.filter_cons_of_pos (by simpa using hname), List.map_cons, List.getLast?_cons,
          Setting.apply, hname, Function.update_self]
        rfl
      · rw [List.filter_cons_of_neg (by simpa using hname), Setting.apply,
          Function.update_of_ne fun h => hname h.symm]

end

end Flags

end Vespa
