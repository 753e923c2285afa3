import Forge.Common.Text
import Mathlib

/-!
# Durations and sizes as arguments

A duration or a size is a number, blanks and a unit. What is read as the unit is the last byte of the
text, which has to be there and has to be a character by itself. Of a size a `B` at the end is dropped
first, so that a second one is read as a unit and blanks in front of a single one are not allowed.
-/

namespace Forge.Cli.Arguments

open Forge.Common

/-! ## Numbers and units -/

/-- The value of decimal digits. -/
def decimalValue (digits : List Char) : ℕ := digits.foldl (fun n c => n * 10 + (c.toNat - 48)) 0

/-- What is read as digits. A plus may stand in front of them. -/
def digitsOf (s : List Char) : List Char := if s.head? = some '+' then s.tail else s

/-- A number of 64 bits. -/
def parseU64 (s : List Char) : Option ℕ :=
  if digitsOf s ≠ [] ∧ (digitsOf s).all Char.isDigit = true then
    if decimalValue (digitsOf s) < 2 ^ 64 then some (decimalValue (digitsOf s)) else none
  else none

/-- Multiply numbers of 64 bits. Where overflow is checked it panics, and else it wraps around. -/
def mulU64 (checked : Bool) (a b : ℕ) : Option ℕ :=
  if a * b < 2 ^ 64 then some (a * b) else if checked then none else some (a * b % 2 ^ 64)

/-- The units of durations, in seconds. -/
def durationFactor : List Char → Option ℕ
  | [] | ['s'] => some 1
  | ['m'] => some 60
  | ['h'] => some 3600
  | ['d'] => some 86400
  | _ => none

/-- The units of sizes, in bytes. -/
def sizeFactor : List Char → Option ℕ
  | ['B'] => some 1
  | ['K'] => some 1024
  | ['M'] => some (1024 * 1024)
  | ['G'] => some (1024 * 1024 * 1024)
  | _ => none

/-- Cut a text in front of its last byte, which panics if that is not a character. -/
def cutLastByte (text : List Char) : Option (List Char × List Char) :=
  match text.getLast? with
  | some c => if c.toNat < 128 then some (text.dropLast, [c]) else none
  | none => none

/-- The number and the unit of a text. Without a unit it is the given one. -/
def splitUnit (bare text : List Char) : Option (List Char × List Char) :=
  match text.getLast? with
  | some c => if c.isDigit then some (text, bare) else cutLastByte text
  | none => cutLastByte text

/-! ## Parsing -/

/-- How parsing ends. -/
inductive Outcome where
  | panicked
  | returned (result : Except String ℕ)

/-- A kind of arguments: what a number without a unit is read as, the units, and what the messages say. -/
structure Kind where
  name : String
  bare : List Char
  factor : List Char → Option ℕ
  expected : String
  units : String

/-- Parse a number with a unit. -/
def Kind.parse (kind : Kind) (checked : Bool) (text : List Char) : Outcome :=
  match splitUnit kind.bare text with
  | none => .panicked
  | some (num, unit) =>
    match parseU64 (trim num) with
    | none => .returned (.error ("invalid " ++ kind.name ++ " `" ++ String.ofList text ++ "` (expected e.g. " ++ kind.expected ++ ")"))
    | some value =>
      match kind.factor unit with
      | none => .returned (.error ("unknown " ++ kind.name ++ " unit `" ++ String.ofList unit ++ "` in `" ++
          String.ofList text ++ "` (expected " ++ kind.units ++ ")"))
      | some factor =>
        match mulU64 checked value factor with
        | none => .panicked
        | some product => .returned (.ok product)

/-- Durations. -/
def durationKind : Kind := ⟨"duration", [], durationFactor, "`7d`, `12h`, `30m`", "s, m, h, or d"⟩

/-- Parse a duration, in seconds. -/
def parseDuration (checked : Bool) (text : List Char) : Outcome := durationKind.parse checked (trim text)

/-- Upper case. Outside of ASCII white space stays as it is, and no other character becomes white space or
something that numbers and units are made of. -/
structure UpperCase where
  toUppercase : Char → List Char
  ascii : ∀ c, c.toNat < 128 → toUppercase c = [c.toUpper]
  whitespace : ∀ c, isWhitespace c = true → toUppercase c = [c]
  others : ∀ c, 128 ≤ c.toNat → isWhitespace c = false → toUppercase c ≠ [] ∧
    ∀ d ∈ toUppercase c, isWhitespace d = false ∧ d.isDigit = false ∧ d ∉ ['+', 'B', 'K', 'M', 'G']

/-- Drop a `B` at the end. -/
def popB (text : List Char) : List Char := if text.getLast? = some 'B' then text.dropLast else text

/-- Sizes. -/
def sizeKind : Kind := ⟨"size", ['B'], sizeFactor, "`10GB`, `500MB`", "B, KB, MB, or GB"⟩

/-- Parse a size, in bytes. -/
def parseSize (U : UpperCase) (checked : Bool) (text : List Char) : Outcome :=
  sizeKind.parse checked (popB ((trim text).flatMap U.toUppercase))

/-! ## Numbers -/

/-- Decimal numbers and their values. -/
inductive IsNumber : List Char → ℕ → Prop
  | plain {digits : List Char} (hne : digits ≠ []) (hdigits : ∀ c ∈ digits, c.isDigit = true) :
    IsNumber digits (decimalValue digits)
  | plus {digits : List Char} (hne : digits ≠ []) (hdigits : ∀ c ∈ digits, c.isDigit = true) :
    IsNumber ('+' :: digits) (decimalValue digits)

/-- The digits of a number are what is read as its digits. -/
theorem isNumber_iff {s : List Char} {n : ℕ} :
    IsNumber s n ↔ (digitsOf s ≠ [] ∧ ∀ c ∈ digitsOf s, c.isDigit = true) ∧ n = decimalValue (digitsOf s) := by
  constructor
  · intro h
    cases h with
    | plain hne hdigits =>
      have hself : digitsOf s = s :=
        if_neg fun hplus => absurd (hdigits '+' (List.mem_of_head? hplus)) (by decide)
      rw [hself]
      exact ⟨⟨hne, hdigits⟩, rfl⟩
    | plus hne hdigits => exact ⟨⟨hne, hdigits⟩, rfl⟩
  · rintro ⟨⟨hne, hdigits⟩, rfl⟩
    rw [digitsOf] at hne hdigits ⊢
    split_ifs at hne hdigits ⊢ with hplus
    · obtain ⟨digits, rfl⟩ := List.head?_eq_some_iff.mp hplus
      exact .plus hne hdigits
    · exact .plain hne hdigits

/-- What is parsed is a number of 64 bits. -/
theorem parseU64_eq_some_iff {s : List Char} {n : ℕ} : parseU64 s = some n ↔ IsNumber s n ∧ n < 2 ^ 64 := by
  rw [parseU64, isNumber_iff, ← List.all_eq_true]
  by_cases hdigits : digitsOf s ≠ [] ∧ (digitsOf s).all Char.isDigit = true
  · rw [if_pos hdigits, Option.ite_none_right_eq_some, Option.some.injEq]
    constructor
    · rintro ⟨hlt, rfl⟩
      exact ⟨⟨hdigits, rfl⟩, hlt⟩
    · rintro ⟨⟨-, rfl⟩, hlt⟩
      exact ⟨hlt, rfl⟩
  · rw [if_neg hdigits]
    exact iff_of_false nofun fun h => hdigits h.1.1

/-- Whether a character can be in a number. -/
def isNumeral (c : Char) : Bool := c.isDigit || c = '+'

/-- A number has only such characters. -/
theorem IsNumber.numeral {s : List Char} {n : ℕ} (h : IsNumber s n) {c : Char} (hc : c ∈ s) : isNumeral c = true := by
  cases h with
  | plain hne hdigits => simp [isNumeral, hdigits c hc]
  | plus hne hdigits =>
    obtain rfl | hc := List.mem_cons.mp hc
    · decide
    · simp [isNumeral, hdigits c hc]

/-- A number ends with a digit. -/
theorem IsNumber.last {s : List Char} {n : ℕ} (h : IsNumber s n) : ∃ c, s.getLast? = some c ∧ c.isDigit = true := by
  cases h with
  | plain hne hdigits => exact ⟨s.getLast hne, List.getLast?_eq_some_getLast hne, hdigits _ (List.getLast_mem hne)⟩
  | @plus digits hne hdigits =>
    refine ⟨digits.getLast hne, ?_, hdigits _ (List.getLast_mem hne)⟩
    rw [List.getLast?_cons_of_ne_nil hne, List.getLast?_eq_some_getLast hne]

/-- A number has one value. -/
theorem IsNumber.unique {s : List Char} {m n : ℕ} (hm : IsNumber s m) (hn : IsNumber s n) : m = n :=
  (isNumber_iff.mp hm).2.trans (isNumber_iff.mp hn).2.symm

/-- The characters of numbers are ASCII characters. -/
theorem toNat_of_isNumeral {c : Char} (h : isNumeral c = true) : c.toNat = 43 ∨ 48 ≤ c.toNat ∧ c.toNat ≤ 57 := by
  rw [isNumeral, Bool.or_eq_true, decide_eq_true_eq, Char.isDigit_iff_toNat] at h
  obtain hdigit | rfl := h
  · exact .inr hdigit
  · exact .inl rfl

/-- Such a character is no white space. -/
theorem isWhitespace_of_isNumeral {c : Char} (h : isNumeral c = true) : isWhitespace c = false := by
  have hvalue := toNat_of_isNumeral h
  simp only [isWhitespace, Bool.or_eq_false_iff, Bool.and_eq_false_iff, decide_eq_false_iff_not]
  omega

/-- A number is trimmed. -/
theorem IsNumber.trim_eq {s : List Char} {n : ℕ} (h : IsNumber s n) : trim s = s :=
  trimMatches_eq_self (fun _ hc => isWhitespace_of_isNumeral (h.numeral (List.mem_of_head? hc)))
    fun _ hc => isWhitespace_of_isNumeral (h.numeral (List.mem_of_getLast? hc))

/-! ## Quantities -/

/-- A number, blanks and the letters of a unit. -/
structure Quantity (text number blanks unit : List Char) (n : ℕ) : Prop where
  eq : text = number ++ (blanks ++ unit)
  number : IsNumber number n
  blanks : ∀ c ∈ blanks, isWhitespace c = true
  unit : ∀ c ∈ unit, c.isAlpha = true

/-- The codes of letters. -/
theorem isAlpha_iff {c : Char} :
    c.isAlpha = true ↔ 65 ≤ c.toNat ∧ c.toNat ≤ 90 ∨ 97 ≤ c.toNat ∧ c.toNat ≤ 122 := by
  simp only [Char.isAlpha, Char.isUpper, Char.isLower, Bool.or_eq_true, Bool.and_eq_true, decide_eq_true_eq, ge_iff_le,
    UInt32.le_iff_toNat_le]
  exact Iff.rfl

/-- A letter is no white space and not in a number. -/
theorem of_isAlpha {c : Char} (h : c.isAlpha = true) : isWhitespace c = false ∧ isNumeral c = false := by
  have hcode := isAlpha_iff.mp h
  constructor
  · simp only [isWhitespace, Bool.or_eq_false_iff, Bool.and_eq_false_iff, decide_eq_false_iff_not]
    omega
  · by_contra hnumeral
    have hnumber := toNat_of_isNumeral (Bool.not_eq_false _ ▸ hnumeral)
    omega

/-- Blanks end where the letters start. -/
theorem takeWhile_blanks {blanks unit : List Char} (hblanks : ∀ c ∈ blanks, isWhitespace c = true)
    (hunit : ∀ c ∈ unit, c.isAlpha = true) : (blanks ++ unit).takeWhile isWhitespace = blanks := by
  cases unit with
  | nil => rw [List.append_nil, List.takeWhile_eq_self_iff.mpr hblanks]
  | cons c unit =>
    rw [List.takeWhile_append_of_pos hblanks,
      List.takeWhile_cons_of_neg (by simp [(of_isAlpha (hunit c List.mem_cons_self)).1]), List.append_nil]

/-- A number ends where the blanks or the letters start. -/
theorem Quantity.takeNumber {text number blanks unit : List Char} {n : ℕ} (h : Quantity text number blanks unit n) :
    text.takeWhile isNumeral = number := by
  have hother : ∀ c ∈ blanks ++ unit, isNumeral c = false := by
    intro c hc
    obtain hblank | hletter := List.mem_append.mp hc
    · have hspace := h.blanks c hblank
      by_contra hnumeral
      rw [isWhitespace_of_isNumeral (Bool.not_eq_false _ ▸ hnumeral)] at hspace
      exact absurd hspace nofun
    · exact (of_isAlpha (h.unit c hletter)).2
  rw [h.eq, List.takeWhile_append_of_pos fun c hc => h.number.numeral hc]
  cases hrest : blanks ++ unit with
  | nil => simp
  | cons c rest => simp [hother c (hrest ▸ List.mem_cons_self)]

/-- A text is such in one way only. -/
theorem Quantity.unique {text number blanks unit number' blanks' unit' : List Char} {n n' : ℕ}
    (h : Quantity text number blanks unit n) (h' : Quantity text number' blanks' unit' n') :
    blanks = blanks' ∧ unit = unit' ∧ n = n' := by
  have hnumber : number = number' := h.takeNumber.symm.trans h'.takeNumber
  subst hnumber
  have hrest : blanks ++ unit = blanks' ++ unit' := List.append_cancel_left (h.eq.symm.trans h'.eq)
  have hblanks := congrArg (List.takeWhile isWhitespace) hrest
  rw [takeWhile_blanks h.blanks h.unit, takeWhile_blanks h'.blanks h'.unit] at hblanks
  subst hblanks
  exact ⟨rfl, List.append_cancel_left hrest, h.number.unique h'.number⟩

/-! ## Accepted texts -/

/-- A digit is an ASCII character. -/
theorem toNat_lt_of_isDigit {c : Char} (h : c.isDigit = true) : c.toNat < 128 := by
  have hcode := toNat_of_isNumeral (by rw [isNumeral, h, Bool.true_or] : isNumeral c = true)
  omega

/-- The last character of a text is a digit or is cut off as the unit. -/
theorem splitUnit_concat (bare before : List Char) (c : Char) :
    splitUnit bare (before ++ [c]) =
      if c.toNat < 128 then some (if c.isDigit then (before ++ [c], bare) else (before, [c])) else none := by
  rw [splitUnit, cutLastByte, List.getLast?_concat]
  by_cases hdigit : c.isDigit = true
  · simp [hdigit, toNat_lt_of_isDigit hdigit]
  · simp [hdigit]

/-- A text has no unit if its last byte is no character. -/
theorem splitUnit_ne_none_iff {bare text : List Char} :
    splitUnit bare text ≠ none ↔ ∃ c, text.getLast? = some c ∧ c.toNat < 128 := by
  cases text using List.reverseRecOn with
  | nil => simp [splitUnit, cutLastByte]
  | append_singleton before c =>
    rw [splitUnit_concat, List.getLast?_concat]
    by_cases hc : c.toNat < 128
    · simp [hc]
    · simp [hc]

/-- Whether a text is parsed as it is meant: without panicking, and to the product of the number and the unit if both
numbers have 64 bits. -/
structure Exact (outcome : Outcome) (spec : ℕ → ℕ → Prop) : Prop where
  returns : outcome ≠ .panicked
  ok : ∀ v, outcome = .returned (.ok v) ↔ ∃ n factor, spec n factor ∧ n < 2 ^ 64 ∧ n * factor < 2 ^ 64 ∧ v = n * factor

namespace Kind

variable {kind : Kind} {checked : Bool} {text : List Char}

/-- Whether a text is read as a number and the factor of a unit. -/
def Accepts (kind : Kind) (text : List Char) (n factor : ℕ) : Prop :=
  ∃ num unit, splitUnit kind.bare text = some (num, unit) ∧ parseU64 (trim num) = some n ∧ kind.factor unit = some factor

/-- What is read has 64 bits. -/
theorem Accepts.lt {n factor : ℕ} (h : kind.Accepts text n factor) : n < 2 ^ 64 := by
  obtain ⟨_, _, _, hnum, _⟩ := h
  exact (parseU64_eq_some_iff.mp hnum).2

/-- What is read is multiplied. -/
theorem Accepts.parse_eq {n factor : ℕ} (h : kind.Accepts text n factor) : kind.parse checked text =
    match mulU64 checked n factor with
    | none => .panicked
    | some product => .returned (.ok product) := by
  obtain ⟨num, unit, hsplit, hnum, hunit⟩ := h
  simp only [parse, hsplit, hnum, hunit]

/-- A text that is not read has no unit or is an error. -/
theorem parse_eq_of_not_accepts (h : ¬ ∃ n factor, kind.Accepts text n factor) :
    (splitUnit kind.bare text = none ∧ kind.parse checked text = .panicked) ∨
      splitUnit kind.bare text ≠ none ∧ ∃ message, kind.parse checked text = .returned (.error message) := by
  cases hsplit : splitUnit kind.bare text with
  | none => exact .inl ⟨rfl, by simp only [parse, hsplit]⟩
  | some split =>
    refine .inr ⟨nofun, ?_⟩
    cases hnum : parseU64 (trim split.1) with
    | none => exact ⟨_, by simp only [parse, hsplit, hnum]; rfl⟩
    | some n =>
      cases hunit : kind.factor split.2 with
      | none => exact ⟨_, by simp only [parse, hsplit, hnum, hunit]; rfl⟩
      | some factor => exact absurd ⟨n, factor, split.1, split.2, hsplit, hnum, hunit⟩ h

/-- A text is read as a number by itself, or as a number, blanks and a last character that is a unit. -/
theorem accepts_iff (hfirst : ∀ c, text.head? = some c → isWhitespace c = false) {n factor : ℕ} :
    kind.Accepts text n factor ↔ n < 2 ^ 64 ∧ ((IsNumber text n ∧ kind.factor kind.bare = some factor) ∨
      ∃ number blanks c, text = number ++ (blanks ++ [c]) ∧ IsNumber number n ∧ (∀ b ∈ blanks, isWhitespace b = true) ∧
        c.isDigit = false ∧ c.toNat < 128 ∧ kind.factor [c] = some factor) := by
  constructor
  · rintro ⟨num, unit, hsplit, hnum, hunit⟩
    obtain ⟨hnumber, hlt⟩ := parseU64_eq_some_iff.mp hnum
    refine ⟨hlt, ?_⟩
    cases text using List.reverseRecOn with
    | nil => simp [splitUnit, cutLastByte] at hsplit
    | append_singleton before c =>
      rw [splitUnit_concat] at hsplit
      split_ifs at hsplit with hascii hdigit
      · obtain ⟨rfl, rfl⟩ := Prod.mk.inj (Option.some.inj hsplit)
        have hlast : ∀ d, (before ++ [c]).getLast? = some d → isWhitespace d = false := by
          intro d hd
          rw [List.getLast?_concat] at hd
          rw [← Option.some.inj hd]
          exact isWhitespace_of_isNumeral (by rw [isNumeral, hdigit, Bool.true_or])
        rw [trim, trimMatches_eq_self hfirst hlast] at hnumber
        exact .inl ⟨hnumber, hunit⟩
      · obtain ⟨rfl, rfl⟩ := Prod.mk.inj (Option.some.inj hsplit)
        have hbefore : ∀ d, before.head? = some d → isWhitespace d = false := fun d hd =>
          hfirst d (by rw [List.head?_append, hd, Option.some_or])
        obtain ⟨blanks, hblanks, heq⟩ := exists_eq_trimEnd_append before
        rw [trim_eq_trimEnd hbefore] at hnumber
        refine .inr ⟨trimEnd before, blanks, c, ?_, hnumber, hblanks, Bool.not_eq_true _ ▸ hdigit, hascii, hunit⟩
        rw [← List.append_assoc, ← heq]
  · rintro ⟨hlt, ⟨hnumber, hunit⟩ | ⟨number, blanks, c, rfl, hnumber, hblanks, hdigit, hascii, hunit⟩⟩
    · obtain ⟨c, hlast, hdigit⟩ := hnumber.last
      obtain ⟨before, rfl⟩ := List.getLast?_eq_some_iff.mp hlast
      refine ⟨before ++ [c], kind.bare, ?_, ?_, hunit⟩
      · rw [splitUnit_concat, if_pos (toNat_lt_of_isDigit hdigit), if_pos hdigit]
      · rw [hnumber.trim_eq]
        exact parseU64_eq_some_iff.mpr ⟨hnumber, hlt⟩
    · refine ⟨number ++ blanks, [c], ?_, ?_, hunit⟩
      · rw [← List.append_assoc, splitUnit_concat, if_pos hascii, if_neg (by simp [hdigit])]
      · have htrim : trim (number ++ blanks) = number := (trimMatches_append_right hblanks).trans hnumber.trim_eq
        rw [htrim]
        exact parseU64_eq_some_iff.mpr ⟨hnumber, hlt⟩

/-- What is read has to be what is meant, and its product has to have 64 bits. -/
theorem exact_iff {spec : ℕ → ℕ → Prop}
    (hsame : ∀ {n factor n' factor'}, kind.Accepts text n factor → spec n' factor' → n = n' ∧ factor = factor') :
    Exact (kind.parse checked text) spec ↔ splitUnit kind.bare text ≠ none ∧
      (∀ n factor, kind.Accepts text n factor → spec n factor ∧ n * factor < 2 ^ 64) ∧
      ∀ n factor, spec n factor → n < 2 ^ 64 → n * factor < 2 ^ 64 → kind.Accepts text n factor := by
  constructor
  · intro h
    refine ⟨fun hnone => ?_, fun n factor haccepts => ?_, fun n factor hspec hn hproduct => ?_⟩
    · exact h.returns (by simp only [parse, hnone])
    · have hparse := @Accepts.parse_eq kind checked text n factor haccepts
      by_cases hproduct : n * factor < 2 ^ 64
      · rw [mulU64, if_pos hproduct] at hparse
        obtain ⟨n', factor', hspec, -⟩ := (h.ok _).mp hparse
        obtain ⟨rfl, rfl⟩ := hsame haccepts hspec
        exact ⟨hspec, hproduct⟩
      · rw [mulU64, if_neg hproduct] at hparse
        cases checked with
        | true => exact absurd hparse h.returns
        | false =>
          obtain ⟨n', factor', hspec, -, hlt, -⟩ := (h.ok _).mp hparse
          obtain ⟨rfl, rfl⟩ := hsame haccepts hspec
          exact absurd hlt hproduct
    · have hparse := (h.ok _).mpr ⟨n, factor, hspec, hn, hproduct, rfl⟩
      by_cases hread : ∃ n factor, kind.Accepts text n factor
      · obtain ⟨n', factor', haccepts⟩ := hread
        obtain ⟨rfl, rfl⟩ := hsame haccepts hspec
        exact haccepts
      · obtain ⟨-, hpanicked⟩ | ⟨-, message, herror⟩ := @parse_eq_of_not_accepts kind checked text hread
        · exact absurd (hparse.symm.trans hpanicked) nofun
        · exact absurd (hparse.symm.trans herror) nofun
  · rintro ⟨hsplit, hread, hmeant⟩
    by_cases haccepted : ∃ n factor, kind.Accepts text n factor
    · obtain ⟨n, factor, haccepts⟩ := haccepted
      obtain ⟨hspec, hproduct⟩ := hread n factor haccepts
      have hparse := @Accepts.parse_eq kind checked text n factor haccepts
      rw [mulU64, if_pos hproduct] at hparse
      refine ⟨by rw [hparse]; nofun, fun v => ?_⟩
      rw [hparse]
      constructor
      · intro hv
        exact ⟨n, factor, hspec, haccepts.lt, hproduct, by injection hv with hv; injection hv with hv; exact hv.symm⟩
      · rintro ⟨n', factor', hspec', -, -, rfl⟩
        obtain ⟨rfl, rfl⟩ := hsame haccepts hspec'
        rfl
    · obtain ⟨hnone, -⟩ | ⟨-, message, herror⟩ := @parse_eq_of_not_accepts kind checked text haccepted
      · exact absurd hnone hsplit
      · refine ⟨by rw [herror]; nofun, fun v => ?_⟩
        rw [herror]
        refine iff_of_false nofun ?_
        rintro ⟨n, factor, hspec, hn, hproduct, -⟩
        exact haccepted ⟨n, factor, hmeant n factor hspec hn hproduct⟩

end Kind

/-! ## Durations -/

/-- Whether a text is a number, blanks and at most one unit of durations. -/
def DurationText (text : List Char) (n factor : ℕ) : Prop :=
  ∃ number blanks unit, Quantity text number blanks unit n ∧ durationFactor unit = some factor

/-- The units of durations are letters. -/
theorem durationFactor_cases {unit : List Char} {factor : ℕ} (h : durationFactor unit = some factor) :
    unit = [] ∨ ∃ c, unit = [c] ∧ c.isAlpha = true ∧ c.isDigit = false ∧ c.toNat < 128 := by
  unfold durationFactor at h
  split at h
  · exact .inl rfl
  · exact .inr ⟨_, rfl, by decide⟩
  · exact .inr ⟨_, rfl, by decide⟩
  · exact .inr ⟨_, rfl, by decide⟩
  · exact .inr ⟨_, rfl, by decide⟩
  · exact absurd h nofun

/-- A trimmed text does not end with blanks. -/
theorem Quantity.blanks_eq_nil {text number blanks : List Char} {n : ℕ} (h : Quantity (trim text) number blanks [] n) :
    blanks = [] := by
  cases blanks using List.reverseRecOn with
  | nil => rfl
  | append_singleton blanks c =>
    have hlast : (trim text).getLast? = some c := by
      rw [h.eq, List.append_nil, ← List.append_assoc, List.getLast?_concat]
    have hspace := h.blanks c (List.mem_append_right blanks (List.mem_singleton_self c))
    rw [isWhitespace_of_getLast?_trim hlast] at hspace
    exact absurd hspace nofun

/-- Durations are read as they are meant. -/
theorem accepts_duration_iff (text : List Char) (n factor : ℕ) :
    durationKind.Accepts (trim text) n factor ↔ n < 2 ^ 64 ∧ DurationText (trim text) n factor := by
  rw [Kind.accepts_iff fun _ => isWhitespace_of_head?_trim]
  refine and_congr_right fun _ => ?_
  constructor
  · rintro (⟨hnumber, hunit⟩ | ⟨number, blanks, c, heq, hnumber, hblanks, -, -, hunit⟩)
    · exact ⟨trim text, [], [], ⟨by simp, hnumber, by simp, by simp⟩, hunit⟩
    · obtain hnil | ⟨d, hd, hletter, -⟩ := durationFactor_cases hunit
      · exact absurd hnil (List.cons_ne_nil _ _)
      · obtain rfl := List.singleton_inj.mp hd
        exact ⟨number, blanks, [c], ⟨heq, hnumber, hblanks, by simp [hletter]⟩, hunit⟩
  · rintro ⟨number, blanks, unit, hquantity, hunit⟩
    obtain rfl | ⟨c, rfl, -, hdigit, hascii⟩ := durationFactor_cases hunit
    · have heq := hquantity.eq
      rw [hquantity.blanks_eq_nil, List.append_nil, List.append_nil] at heq
      exact .inl ⟨heq ▸ hquantity.number, hunit⟩
    · exact .inr ⟨number, blanks, c, hquantity.eq, hquantity.number, hquantity.blanks, hdigit, hascii, hunit⟩

/-- A duration is parsed as it is meant if the last byte of its text is a character and its product has 64 bits. -/
theorem parseDuration_exact_iff (checked : Bool) (text : List Char) :
    Exact (parseDuration checked text) (DurationText (trim text)) ↔
      (∃ c, (trim text).getLast? = some c ∧ c.toNat < 128) ∧
        ∀ n factor, DurationText (trim text) n factor → n < 2 ^ 64 → n * factor < 2 ^ 64 := by
  have hsame : ∀ {n factor n' factor'}, durationKind.Accepts (trim text) n factor → DurationText (trim text) n' factor' →
      n = n' ∧ factor = factor' := by
    intro n factor n' factor' haccepts hspec
    obtain ⟨-, number, blanks, unit, hquantity, hunit⟩ := (accepts_duration_iff text n factor).mp haccepts
    obtain ⟨number', blanks', unit', hquantity', hunit'⟩ := hspec
    obtain ⟨-, rfl, rfl⟩ := hquantity.unique hquantity'
    exact ⟨rfl, Option.some.inj (hunit.symm.trans hunit')⟩
  have hexact := @Kind.exact_iff durationKind checked (trim text) _ hsame
  rw [splitUnit_ne_none_iff] at hexact
  refine hexact.trans (and_congr_right fun _ => ?_)
  simp only [accepts_duration_iff]
  constructor
  · rintro ⟨hread, -⟩ n factor hspec hn
    exact (hread n factor ⟨hn, hspec⟩).2
  · intro hproduct
    exact ⟨fun n factor h => ⟨h.2, hproduct n factor h.2 h.1⟩, fun n factor hspec hn _ => ⟨hn, hspec⟩⟩

/-! ## Sizes -/

/-- The units of sizes as they are meant, in upper case. -/
def sizeUnit : List Char → Option ℕ
  | [] | ['B'] => some 1
  | ['K'] | ['K', 'B'] => some 1024
  | ['M'] | ['M', 'B'] => some (1024 * 1024)
  | ['G'] | ['G', 'B'] => some (1024 * 1024 * 1024)
  | _ => none

/-- Whether a text is a number, blanks and at most one unit of sizes in any case of its letters. -/
def SizeText (text : List Char) (n factor : ℕ) : Prop :=
  ∃ number blanks unit, Quantity text number blanks unit n ∧ sizeUnit (unit.map Char.toUpper) = some factor

/-- The units as they are read. -/
def readUnit : List Char → Option ℕ
  | ['B', 'B'] => some 1
  | unit => sizeUnit unit

/-- Whether a character is in numbers or blanks. -/
def isPlain (c : Char) : Bool := isNumeral c || isWhitespace c

/-- The letters of units. -/
def isUnitLetter (c : Char) : Bool := c ∈ ['B', 'K', 'M', 'G']

namespace UpperCase

variable (U : UpperCase)

/-- Letters are no plain characters. -/
theorem isPlain_of_isAlpha {c : Char} (h : c.isAlpha = true) : isPlain c = false := by
  rw [isPlain, (of_isAlpha h).1, (of_isAlpha h).2, Bool.or_false]

/-- Upper case changes the code of small letters only. -/
theorem toUpper_cases (c : Char) :
    (97 ≤ c.toNat ∧ c.toNat ≤ 122 ∧ c.toUpper.toNat + 32 = c.toNat) ∨ ((c.toNat < 97 ∨ 122 < c.toNat) ∧ c.toUpper = c) := by
  rw [Char.toUpper]
  split
  · rename_i hsmall
    have hcode : 97 ≤ c.toNat ∧ c.toNat ≤ 122 := hsmall
    refine .inl ⟨hcode.1, hcode.2, ?_⟩
    change (c.val + ('A'.val - 'a'.val)).toNat + 32 = c.val.toNat
    have hsub : ('A'.val - 'a'.val).toNat = 4294967264 := by decide
    rw [UInt32.toNat_add, hsub]
    change (c.toNat + 4294967264) % 2 ^ 32 + 32 = c.toNat
    omega
  · rename_i hother
    have hcode : ¬(97 ≤ c.toNat ∧ c.toNat ≤ 122) := hother
    exact .inr ⟨by omega, rfl⟩

/-- The codes of white space are not those of letters. -/
theorem not_isWhitespace {c : Char} (h : 58 ≤ c.toNat ∧ c.toNat ≤ 122) : isWhitespace c = false := by
  simp only [isWhitespace, Bool.or_eq_false_iff, Bool.and_eq_false_iff, decide_eq_false_iff_not]
  omega

/-- A character that is plain in upper case is that character. -/
theorem toUpper_of_isPlain {c : Char} (h : isPlain c.toUpper = true) : c.toUpper = c := by
  obtain ⟨hlow, hhigh, hcode⟩ | ⟨-, hself⟩ := toUpper_cases c
  · rw [isPlain, not_isWhitespace (by omega), Bool.or_false] at h
    have hnumeral := toNat_of_isNumeral h
    omega
  · exact hself

/-- Numbers and blanks stay as they are. -/
theorem toUppercase_of_isPlain {c : Char} (h : isPlain c = true) : U.toUppercase c = [c] := by
  cases hspace : isWhitespace c with
  | true => exact U.whitespace c hspace
  | false =>
    rw [isPlain, hspace, Bool.or_false] at h
    have hcode := toNat_of_isNumeral h
    obtain ⟨hlow, -⟩ | ⟨-, hself⟩ := toUpper_cases c
    · omega
    · rw [U.ascii c (by omega), hself]

/-- A letter of a unit in upper case was a letter before. -/
theorem isAlpha_of_isUnitLetter {c : Char} (h : isUnitLetter c.toUpper = true) : c.isAlpha = true := by
  have hletters : (['B', 'K', 'M', 'G'].all Char.isAlpha) = true := rfl
  have hupper := List.all_eq_true.mp hletters _ (of_decide_eq_true h)
  obtain ⟨hlow, hhigh, -⟩ | ⟨-, hself⟩ := toUpper_cases c
  · exact isAlpha_iff.mpr (.inr ⟨hlow, hhigh⟩)
  · rwa [hself] at hupper

/-- Letters of units are no plain characters. -/
theorem isPlain_of_isUnitLetter {c : Char} (h : isUnitLetter c = true) : isPlain c = false := by
  have hletters : (['B', 'K', 'M', 'G'].any isPlain) = false := rfl
  exact Bool.eq_false_iff.mpr (List.any_eq_false.mp hletters _ (of_decide_eq_true h))

/-- A unit in any case becomes that unit. -/
theorem flatMap_letters {letters : List Char} (h : ∀ c ∈ letters.map Char.toUpper, isUnitLetter c = true) :
    letters.flatMap U.toUppercase = letters.map Char.toUpper := by
  induction letters with
  | nil => rfl
  | cons c letters ih =>
    rw [List.map_cons, List.forall_mem_cons] at h
    have hcode := isAlpha_iff.mp (isAlpha_of_isUnitLetter h.1)
    rw [List.flatMap_cons, U.ascii c (by omega), ih h.2, List.singleton_append, List.map_cons]

/-- What a character that is not ASCII and no white space becomes is neither plain nor a letter of units. -/
theorem others_ne {c : Char} (hc : 128 ≤ c.toNat) (hspace : isWhitespace c = false) {d : Char}
    (hd : d ∈ U.toUppercase c) : isPlain d = false ∧ isUnitLetter d = false := by
  obtain ⟨hspace, hdigit, hother⟩ := (U.others c hc hspace).2 d hd
  simp only [List.mem_cons, List.not_mem_nil, or_false, not_or] at hother
  simp [isPlain, isNumeral, isUnitLetter, hspace, hdigit, hother]

/-- A character is plain and stays, becomes a letter in upper case, or something that is neither plain nor a letter of
units. -/
theorem toUppercase_cases (c : Char) :
    (isPlain c = true ∧ U.toUppercase c = [c]) ∨ (isPlain c.toUpper = false ∧ U.toUppercase c = [c.toUpper]) ∨
      ∃ d rest, U.toUppercase c = d :: rest ∧ isPlain d = false ∧ isUnitLetter d = false := by
  cases hplain : isPlain c with
  | true => exact .inl ⟨rfl, U.toUppercase_of_isPlain hplain⟩
  | false =>
    by_cases hascii : c.toNat < 128
    · refine .inr (.inl ⟨Bool.eq_false_iff.mpr fun hupper => ?_, U.ascii c hascii⟩)
      rw [toUpper_of_isPlain hupper, hplain] at hupper
      exact absurd hupper nofun
    · have hspace := (Bool.or_eq_false_iff.mp hplain).2
      obtain ⟨d, rest, hupper⟩ := List.exists_cons_of_ne_nil (U.others c (by omega) hspace).1
      exact .inr (.inr ⟨d, rest, hupper, U.others_ne (by omega) hspace (hupper ▸ List.mem_cons_self)⟩)

/-- A text is numbers, blanks and a unit in upper case if it was that in any case. -/
theorem flatMap_eq_append_iff {text plain unit : List Char} (hplain : ∀ c ∈ plain, isPlain c = true)
    (hunit : ∀ c ∈ unit, isUnitLetter c = true) :
    text.flatMap U.toUppercase = plain ++ unit ↔ ∃ letters, text = plain ++ letters ∧ letters.map Char.toUpper = unit := by
  constructor
  · intro h
    induction text generalizing plain unit with
    | nil =>
      obtain ⟨rfl, rfl⟩ := List.append_eq_nil_iff.mp h.symm
      exact ⟨[], rfl, rfl⟩
    | cons c text ih =>
      rw [List.flatMap_cons] at h
      obtain ⟨hc, hupper⟩ | ⟨hc, hupper⟩ | ⟨d, rest, hupper, hd, hletter⟩ := U.toUppercase_cases c
      · rw [hupper, List.singleton_append] at h
        cases plain with
        | nil =>
          rw [List.nil_append] at h
          have hletter := isPlain_of_isUnitLetter (hunit c (h ▸ List.mem_cons_self))
          exact absurd (hc.symm.trans hletter) nofun
        | cons d plain =>
          obtain ⟨rfl, hrest⟩ := List.cons.inj h
          obtain ⟨letters, rfl, hletters⟩ := ih (List.forall_mem_cons.mp hplain).2 hunit hrest
          exact ⟨letters, rfl, hletters⟩
      · rw [hupper, List.singleton_append] at h
        cases plain with
        | nil =>
          rw [List.nil_append] at h
          subst h
          obtain ⟨letters, hrest, hletters⟩ := ih hplain (List.forall_mem_cons.mp hunit).2 (List.nil_append _).symm
          rw [List.nil_append] at hrest
          exact ⟨c :: letters, by rw [hrest, List.nil_append], by rw [List.map_cons, hletters]⟩
        | cons d plain =>
          obtain ⟨rfl, -⟩ := List.cons.inj h
          exact absurd ((hplain _ List.mem_cons_self).symm.trans hc) nofun
      · have hmem : d ∈ plain ++ unit := by
          rw [← h, hupper]
          exact List.mem_cons_self
        obtain hmem | hmem := List.mem_append.mp hmem
        · exact absurd (hd.symm.trans (hplain d hmem)) nofun
        · exact absurd (hletter.symm.trans (hunit d hmem)) nofun
  · rintro ⟨letters, rfl, rfl⟩
    have hself : plain.flatMap U.toUppercase = plain := by
      induction plain with
      | nil => rfl
      | cons c plain ih =>
        rw [List.forall_mem_cons] at hplain
        rw [List.flatMap_cons, U.toUppercase_of_isPlain hplain.1, ih hplain.2, List.singleton_append]
    rw [List.flatMap_append, hself, U.flatMap_letters hunit]

/-- What does not start with white space does not in upper case. -/
theorem isWhitespace_of_head?_flatMap {text : List Char} (hfirst : ∀ c, text.head? = some c → isWhitespace c = false)
    {d : Char} (hd : (text.flatMap U.toUppercase).head? = some d) : isWhitespace d = false := by
  cases text with
  | nil => exact absurd hd nofun
  | cons c text =>
    rw [List.flatMap_cons] at hd
    obtain ⟨-, hupper⟩ | ⟨hc, hupper⟩ | ⟨e, rest, hupper, he, -⟩ := U.toUppercase_cases c
    · rw [hupper] at hd
      exact Option.some.inj hd ▸ hfirst c rfl
    · rw [hupper] at hd
      exact Option.some.inj hd ▸ (Bool.or_eq_false_iff.mp hc).2
    · rw [hupper] at hd
      exact Option.some.inj hd ▸ (Bool.or_eq_false_iff.mp he).2

end UpperCase

/-- A text is a number, blanks and a unit in upper case if it was that in any case. -/
theorem flatMap_eq_iff (U : UpperCase) {text number blanks upper : List Char} {n : ℕ} (hnumber : IsNumber number n)
    (hblanks : ∀ c ∈ blanks, isWhitespace c = true) (hupper : ∀ c ∈ upper, isUnitLetter c = true) :
    text.flatMap U.toUppercase = number ++ (blanks ++ upper) ↔
      ∃ unit, Quantity text number blanks unit n ∧ unit.map Char.toUpper = upper := by
  have hplain : ∀ c ∈ number ++ blanks, isPlain c = true := by
    intro c hc
    obtain hc | hc := List.mem_append.mp hc
    · rw [isPlain, hnumber.numeral hc, Bool.true_or]
    · rw [isPlain, hblanks c hc, Bool.or_true]
  rw [← List.append_assoc, U.flatMap_eq_append_iff hplain hupper]
  constructor
  · rintro ⟨unit, rfl, rfl⟩
    refine ⟨unit, ⟨List.append_assoc _ _ _, hnumber, hblanks, fun c hc => ?_⟩, rfl⟩
    exact UpperCase.isAlpha_of_isUnitLetter (hupper _ (List.mem_map_of_mem hc))
  · rintro ⟨unit, hquantity, rfl⟩
    exact ⟨unit, by rw [hquantity.eq, List.append_assoc], rfl⟩

/-- A text without its `B` is what stands in front of it. -/
theorem popB_eq_iff {text rest : List Char} :
    popB text = rest ↔ text = rest ++ ['B'] ∨ text = rest ∧ rest.getLast? ≠ some 'B' := by
  rw [popB]
  split
  · rename_i hlast
    obtain ⟨before, rfl⟩ := List.getLast?_eq_some_iff.mp hlast
    rw [List.dropLast_concat]
    constructor
    · rintro rfl
      exact .inl rfl
    · rintro (h | ⟨rfl, hne⟩)
      · exact List.append_cancel_right h
      · exact absurd hlast hne
  · rename_i hlast
    constructor
    · rintro rfl
      exact .inr ⟨rfl, hlast⟩
    · rintro (rfl | ⟨rfl, -⟩)
      · exact absurd List.getLast?_concat hlast
      · rfl

/-- The letters of sizes. -/
theorem sizeFactor_singleton {c : Char} {factor : ℕ} (h : sizeFactor [c] = some factor) :
    (c = 'B' ∧ factor = 1) ∨ (c = 'K' ∧ factor = 1024) ∨ (c = 'M' ∧ factor = 1024 * 1024) ∨
      (c = 'G' ∧ factor = 1024 * 1024 * 1024) := by
  unfold sizeFactor at h
  split at h
  all_goals simp_all

/-- They are ASCII characters and no digits. -/
theorem isUnitLetter_of_sizeFactor {c : Char} {factor : ℕ} (h : sizeFactor [c] = some factor) :
    isUnitLetter c = true ∧ c.isDigit = false ∧ c.toNat < 128 := by
  obtain ⟨rfl, -⟩ | ⟨rfl, -⟩ | ⟨rfl, -⟩ | ⟨rfl, -⟩ := sizeFactor_singleton h
  all_goals decide

/-- Units are read as nothing or a single letter, with a `B` behind it or without. -/
theorem readUnit_eq_some_iff {unit : List Char} {factor : ℕ} : readUnit unit = some factor ↔
    ((unit = [] ∨ unit = ['B']) ∧ sizeFactor ['B'] = some factor) ∨
      ∃ c, sizeFactor [c] = some factor ∧ (unit = [c, 'B'] ∨ unit = [c] ∧ c ≠ 'B') := by
  constructor
  · intro h
    unfold readUnit at h
    split at h
    · exact .inr ⟨'B', h, .inl rfl⟩
    · unfold sizeUnit at h
      split at h
      · exact .inl ⟨.inl rfl, h⟩
      · exact .inl ⟨.inr rfl, h⟩
      · exact .inr ⟨'K', h, .inr ⟨rfl, by decide⟩⟩
      · exact .inr ⟨'K', h, .inl rfl⟩
      · exact .inr ⟨'M', h, .inr ⟨rfl, by decide⟩⟩
      · exact .inr ⟨'M', h, .inl rfl⟩
      · exact .inr ⟨'G', h, .inr ⟨rfl, by decide⟩⟩
      · exact .inr ⟨'G', h, .inl rfl⟩
      · exact absurd h nofun
  · rintro (⟨rfl | rfl, h⟩ | ⟨c, h, hunit⟩)
    · exact h
    · exact h
    · obtain ⟨rfl, rfl⟩ | ⟨rfl, rfl⟩ | ⟨rfl, rfl⟩ | ⟨rfl, rfl⟩ := sizeFactor_singleton h
      all_goals obtain rfl | ⟨rfl, -⟩ := hunit <;> rfl

/-- What is read as a unit is letters of units. -/
theorem isUnitLetter_of_readUnit {unit : List Char} {factor : ℕ} (h : readUnit unit = some factor) :
    ∀ c ∈ unit, isUnitLetter c = true := by
  have hletter : isUnitLetter 'B' = true := by decide
  obtain ⟨rfl | rfl, -⟩ | ⟨c, hfactor, rfl | ⟨rfl, -⟩⟩ := readUnit_eq_some_iff.mp h
  · simp
  · simp [hletter]
  · simp [hletter, (isUnitLetter_of_sizeFactor hfactor).1]
  · simp [(isUnitLetter_of_sizeFactor hfactor).1]

/-- Sizes are read as they are meant, but for a second `B` and for blanks in front of a single one. -/
theorem accepts_size_iff (U : UpperCase) (text : List Char) (n factor : ℕ) :
    sizeKind.Accepts (popB ((trim text).flatMap U.toUppercase)) n factor ↔ n < 2 ^ 64 ∧
      ∃ number blanks unit, Quantity (trim text) number blanks unit n ∧
        readUnit (unit.map Char.toUpper) = some factor ∧ (unit.map Char.toUpper = ['B'] → blanks = []) := by
  have hfirst : ∀ c, (popB ((trim text).flatMap U.toUppercase)).head? = some c → isWhitespace c = false := by
    intro c hc
    refine @UpperCase.isWhitespace_of_head?_flatMap U (trim text) (fun _ => isWhitespace_of_head?_trim) c ?_
    obtain hpop | ⟨hpop, -⟩ := popB_eq_iff.mp (rfl : popB ((trim text).flatMap U.toUppercase) = _)
    · rw [hpop, List.head?_append, hc, Option.some_or]
    · rw [hpop]
      exact hc
  have hletter : isUnitLetter 'B' = true := by decide
  rw [Kind.accepts_iff hfirst]
  refine and_congr_right fun _ => ?_
  constructor
  · have hread : ∀ number blanks upper, IsNumber number n → (∀ c ∈ blanks, isWhitespace c = true) →
        (∀ c ∈ upper, isUnitLetter c = true) → (trim text).flatMap U.toUppercase = number ++ (blanks ++ upper) →
        readUnit upper = some factor → (upper = ['B'] → blanks = []) →
        ∃ number blanks unit, Quantity (trim text) number blanks unit n ∧
          readUnit (unit.map Char.toUpper) = some factor ∧ (unit.map Char.toUpper = ['B'] → blanks = []) := by
      intro number blanks upper hnumber hblanks hupper heq hunit hbare
      obtain ⟨unit, hquantity, rfl⟩ := (flatMap_eq_iff U hnumber hblanks hupper).mp heq
      exact ⟨number, blanks, unit, hquantity, hunit, hbare⟩
    rintro (⟨hnumber, hunit⟩ | ⟨number, blanks, c, heq, hnumber, hblanks, -, -, hunit⟩)
    · obtain hpop | ⟨hpop, -⟩ := popB_eq_iff.mp (rfl : popB ((trim text).flatMap U.toUppercase) = _)
      · exact hread _ [] ['B'] hnumber nofun (List.forall_mem_singleton.mpr hletter) hpop
          (readUnit_eq_some_iff.mpr (.inl ⟨.inr rfl, hunit⟩)) fun _ => rfl
      · exact hread _ [] [] hnumber nofun nofun (by simpa using hpop)
          (readUnit_eq_some_iff.mpr (.inl ⟨.inl rfl, hunit⟩)) fun _ => rfl
    · have hc := (isUnitLetter_of_sizeFactor hunit).1
      obtain hpop | ⟨hpop, hlast⟩ := popB_eq_iff.mp heq
      · rw [List.append_assoc, List.append_assoc, List.singleton_append] at hpop
        exact hread _ _ _ hnumber hblanks (by simp [hc, hletter]) hpop
          (readUnit_eq_some_iff.mpr (.inr ⟨c, hunit, .inl rfl⟩)) fun h => absurd h (by simp)
      · have hne : c ≠ 'B' := by
          rintro rfl
          exact hlast (by rw [← List.append_assoc, List.getLast?_concat])
        exact hread _ _ _ hnumber hblanks (List.forall_mem_singleton.mpr hc) hpop
          (readUnit_eq_some_iff.mpr (.inr ⟨c, hunit, .inr ⟨rfl, hne⟩⟩)) fun h => absurd (List.singleton_inj.mp h) hne
  · rintro ⟨number, blanks, unit, hquantity, hunit, hbare⟩
    have heq := (flatMap_eq_iff U hquantity.number hquantity.blanks (isUnitLetter_of_readUnit hunit)).mpr
      ⟨unit, hquantity, rfl⟩
    obtain ⟨hmap | hmap, hfactor⟩ | ⟨c, hfactor, hmap⟩ := readUnit_eq_some_iff.mp hunit
    · obtain rfl := List.map_eq_nil_iff.mp hmap
      obtain ⟨c, hlast, hdigit⟩ := hquantity.number.last
      have hne : number.getLast? ≠ some 'B' := by
        rw [hlast]
        rintro h
        rw [Option.some.inj h] at hdigit
        exact absurd hdigit (by decide)
      rw [hquantity.blanks_eq_nil, List.map_nil, List.append_nil, List.append_nil] at heq
      rw [popB_eq_iff.mpr (.inr ⟨heq, hne⟩)]
      exact .inl ⟨hquantity.number, hfactor⟩
    · rw [hmap, hbare hmap] at heq
      rw [popB_eq_iff.mpr (.inl heq)]
      exact .inl ⟨hquantity.number, hfactor⟩
    · obtain ⟨-, hdigit, hascii⟩ := isUnitLetter_of_sizeFactor hfactor
      refine .inr ⟨number, blanks, c, popB_eq_iff.mpr ?_, hquantity.number, hquantity.blanks, hdigit, hascii, hfactor⟩
      obtain hmap | ⟨hmap, hne⟩ := hmap
      · exact .inl (by rw [heq, hmap]; simp)
      · refine .inr ⟨by rw [heq, hmap], ?_⟩
        rw [← List.append_assoc, List.getLast?_concat]
        exact fun h => hne (Option.some.inj h)

/-- A size is parsed as it is meant if the last byte of its text in upper case and without a `B` is a character, its
product has 64 bits, and it has neither two `B` nor blanks in front of a single one. -/
theorem parseSize_exact_iff (U : UpperCase) (checked : Bool) (text : List Char) :
    Exact (parseSize U checked text) (SizeText (trim text)) ↔
      (∃ c, (popB ((trim text).flatMap U.toUppercase)).getLast? = some c ∧ c.toNat < 128) ∧
        ∀ number blanks unit n, Quantity (trim text) number blanks unit n → n < 2 ^ 64 →
          (∀ factor, sizeUnit (unit.map Char.toUpper) = some factor → n * factor < 2 ^ 64) ∧
          (unit.map Char.toUpper = ['B'] → blanks = []) ∧ unit.map Char.toUpper ≠ ['B', 'B'] := by
  have hread : ∀ {unit factor}, sizeUnit unit = some factor → readUnit unit = some factor := by
    intro unit factor h
    unfold readUnit
    split
    · exact absurd h nofun
    · exact h
  have hmeant : ∀ {unit factor}, readUnit unit = some factor → unit ≠ ['B', 'B'] → sizeUnit unit = some factor := by
    intro unit factor h hne
    unfold readUnit at h
    split at h
    · exact absurd rfl hne
    · exact h
  have hsame : ∀ {n factor n' factor'}, sizeKind.Accepts (popB ((trim text).flatMap U.toUppercase)) n factor →
      SizeText (trim text) n' factor' → n = n' ∧ factor = factor' := by
    intro n factor n' factor' haccepts hspec
    obtain ⟨-, number, blanks, unit, hquantity, hunit, -⟩ := (accepts_size_iff U text n factor).mp haccepts
    obtain ⟨number', blanks', unit', hquantity', hunit'⟩ := hspec
    obtain ⟨-, rfl, rfl⟩ := hquantity.unique hquantity'
    exact ⟨rfl, Option.some.inj (hunit.symm.trans (hread hunit'))⟩
  have hexact := @Kind.exact_iff sizeKind checked (popB ((trim text).flatMap U.toUppercase)) _ hsame
  rw [splitUnit_ne_none_iff] at hexact
  refine hexact.trans (and_congr_right fun _ => ?_)
  simp only [accepts_size_iff]
  constructor
  · rintro ⟨haccepted, haccepts⟩ number blanks unit n hquantity hn
    have hblanks : unit.map Char.toUpper = ['B'] → blanks = [] := by
      intro hunit
      have hspec : SizeText (trim text) n 1 := ⟨number, blanks, unit, hquantity, by rw [hunit]; rfl⟩
      obtain ⟨-, number', blanks', unit', hquantity', -, hnil⟩ := haccepts n 1 hspec hn (by omega)
      obtain ⟨rfl, rfl, -⟩ := hquantity.unique hquantity'
      exact hnil hunit
    refine ⟨fun factor hunit => ?_, hblanks, fun hunit => ?_⟩
    · exact (haccepted n factor ⟨hn, number, blanks, unit, hquantity, hread hunit, hblanks⟩).2
    · have hnever : unit.map Char.toUpper = ['B'] → blanks = [] := by
        intro h
        rw [hunit] at h
        exact absurd h (by decide)
      obtain ⟨⟨number', blanks', unit', hquantity', hunit'⟩, -⟩ :=
        haccepted n 1 ⟨hn, number, blanks, unit, hquantity, by rw [hunit]; rfl, hnever⟩
      obtain ⟨-, rfl, -⟩ := hquantity.unique hquantity'
      rw [hunit] at hunit'
      exact absurd hunit' nofun
  · intro h
    refine ⟨?_, ?_⟩
    · rintro n factor ⟨hn, number, blanks, unit, hquantity, hunit, -⟩
      obtain ⟨hproduct, -, hne⟩ := h number blanks unit n hquantity hn
      have hsize := hmeant hunit hne
      exact ⟨⟨number, blanks, unit, hquantity, hsize⟩, hproduct factor hsize⟩
    · rintro n factor ⟨number, blanks, unit, hquantity, hunit⟩ hn -
      exact ⟨hn, number, blanks, unit, hquantity, hread hunit, (h number blanks unit n hquantity hn).2.1⟩

/-! ## Arguments -/

/-- When durations and sizes are parsed as they are meant. -/
theorem arguments_exact_iff (U : UpperCase) (checked : Bool) (text : List Char) :
    (Exact (parseDuration checked text) (DurationText (trim text)) ↔
      (∃ c, (trim text).getLast? = some c ∧ c.toNat < 128) ∧
        ∀ n factor, DurationText (trim text) n factor → n < 2 ^ 64 → n * factor < 2 ^ 64) ∧
    (Exact (parseSize U checked text) (SizeText (trim text)) ↔
      (∃ c, (popB ((trim text).flatMap U.toUppercase)).getLast? = some c ∧ c.toNat < 128) ∧
        ∀ number blanks unit n, Quantity (trim text) number blanks unit n → n < 2 ^ 64 →
          (∀ factor, sizeUnit (unit.map Char.toUpper) = some factor → n * factor < 2 ^ 64) ∧
          (unit.map Char.toUpper = ['B'] → blanks = []) ∧ unit.map Char.toUpper ≠ ['B', 'B']) :=
  ⟨parseDuration_exact_iff checked text, parseSize_exact_iff U checked text⟩

/-- Upper case for ASCII letters only. -/
def asciiUpperCase : UpperCase where
  toUppercase := fun c => [c.toUpper]
  ascii := fun _ _ => rfl
  whitespace := by
    intro c hc
    obtain ⟨hlow, hhigh, -⟩ | ⟨-, hself⟩ := UpperCase.toUpper_cases c
    · cases hc.symm.trans (UpperCase.not_isWhitespace ⟨by omega, hhigh⟩)
    · rw [hself]
  others := by
    intro c hc hspace
    obtain ⟨-, hhigh, -⟩ | ⟨-, hself⟩ := UpperCase.toUpper_cases c
    · omega
    · have hdigit : c.isDigit = false := Bool.eq_false_iff.mpr fun h => by
        have hascii := toNat_lt_of_isDigit h
        omega
      have hcodes : (['+', 'B', 'K', 'M', 'G'].all fun d => d.toNat < 128) = true := rfl
      rw [hself]
      refine ⟨List.cons_ne_nil _ _, List.forall_mem_singleton.mpr ⟨hspace, hdigit, fun hmem => ?_⟩⟩
      have hascii := of_decide_eq_true (List.all_eq_true.mp hcodes c hmem)
      omega

/-- No text at all panics, and a size may have two units but no blank in front of one of them. -/
theorem not_exact_arguments :
    ¬ Exact (parseDuration true []) (DurationText (trim [])) ∧
      ¬ Exact (parseSize asciiUpperCase true "5BB".toList) (SizeText (trim "5BB".toList)) ∧
      ¬ Exact (parseSize asciiUpperCase true "5 B".toList) (SizeText (trim "5 B".toList)) := by
  have hfive : IsNumber ['5'] 5 := .plain (List.cons_ne_nil _ _) (List.forall_mem_singleton.mpr (by decide))
  refine ⟨fun h => h.returns rfl, fun h => ?_, fun h => ?_⟩
  · obtain ⟨n, factor, ⟨number, blanks, unit, hquantity, hunit⟩, -⟩ := (h.ok 5).mp rfl
    have htwo : Quantity (trim "5BB".toList) ['5'] [] ['B', 'B'] 5 := ⟨rfl, hfive, List.forall_mem_nil _,
      List.forall_mem_cons.mpr ⟨rfl, List.forall_mem_singleton.mpr rfl⟩⟩
    obtain ⟨-, rfl, -⟩ := hquantity.unique htwo
    exact absurd hunit nofun
  · have hone : Quantity (trim "5 B".toList) ['5'] [' '] ['B'] 5 :=
      ⟨rfl, hfive, List.forall_mem_singleton.mpr rfl, List.forall_mem_singleton.mpr rfl⟩
    have hparse := (h.ok 5).mpr ⟨5, 1, ⟨_, _, _, hone, rfl⟩, by decide, by decide, rfl⟩
    exact absurd hparse nofun

end Forge.Cli.Arguments
