import Forge.Common.Text

/-!
# Dependency rules as compilers write them

A compiler writes the dependencies of its outputs as rules of a makefile: a target with a colon,
and the prerequisites. Spaces and number signs in a path stand behind a backslash, and dollar
signs are doubled. There are blanks between the words of a rule, or backslashes at the ends of
lines, which go on in the next one.

Whatever reads such a text line by line is fed with the words of each rule, and with a
backslash where a line is broken.
-/

namespace Forge.Common

/-- A path that a rule can name: no backslash, no colon, and no white space other than spaces. -/
structure RulePath where
  chars : List Char
  nonempty : chars ≠ []
  plain : ∀ c ∈ chars, c ≠ '\\' ∧ c ≠ ':' ∧ (isWhitespace c = true → c = ' ')

/-- The end of a line. -/
inductive LineEnd where
  | lf
  | crlf
deriving DecidableEq

/-- What can stand between two words. -/
inductive Break where
  | blank
  | wrap (ending : LineEnd)
deriving DecidableEq

/-- What stands between two words. There is at least one break. -/
structure Gap where
  first : Break
  others : List Break
deriving DecidableEq

/-- A rule, with the gaps in front of its prerequisites and the end of its last line. -/
structure LaidRule where
  target : RulePath
  words : List (Gap × RulePath)
  ending : LineEnd

/-- How a character is written. -/
def escapeChar (c : Char) : List Char :=
  if c = ' ' ∨ c = '#' then ['\\', c] else if c = '$' then ['$', '$'] else [c]

/-- How a path is written. -/
def escape (path : List Char) : List Char := path.flatMap escapeChar

/-- The characters at the end of a line. -/
def LineEnd.text : LineEnd → List Char
  | lf => ['\n']
  | crlf => ['\r', '\n']

/-- The characters of a break. -/
def Break.text : Break → List Char
  | blank => [' ']
  | wrap ending => '\\' :: ending.text

namespace Gap

/-- The breaks between two words. -/
def breaks (gap : Gap) : List Break := gap.first :: gap.others

/-- The characters between two words. -/
def text (gap : Gap) : List Char := gap.breaks.flatMap Break.text

end Gap

namespace LaidRule

/-- The prerequisites of a rule. -/
def prerequisites (rule : LaidRule) : List RulePath := rule.words.map Prod.snd

/-- What a rule starts with. -/
def lead (rule : LaidRule) : List Char := escape rule.target.chars ++ [':']

/-- The words behind the colon, with the gaps in front of them. -/
def wordsText (words : List (Gap × RulePath)) : List Char := words.flatMap fun word => word.1.text ++ escape word.2.chars

/-- The text of a rule. -/
def text (rule : LaidRule) : List Char := rule.lead ++ wordsText rule.words ++ rule.ending.text

end LaidRule

/-- The text of rules. -/
def rulesText (rules : List LaidRule) : List Char := rules.flatMap LaidRule.text

/-! ### Escaped paths -/

/-- The first character of an escaped path, and the others. -/
theorem escape_cons (c : Char) (path : List Char) : escape (c :: path) = escapeChar c ++ escape path := List.flatMap_cons

/-- The last character of an escaped path, and those in front of it. -/
theorem escape_concat (path : List Char) (c : Char) : escape (path ++ [c]) = escape path ++ escapeChar c := by
  simp [escape, List.flatMap_append]

/-- Escaping adds backslashes and dollar signs only. -/
theorem mem_escape {c : Char} {path : List Char} (h : c ∈ escape path) : c ∈ path ∨ c = '\\' := by
  obtain ⟨d, hd, hc⟩ := List.mem_flatMap.mp h
  unfold escapeChar at hc
  split at hc
  · obtain rfl | hc := List.mem_cons.mp hc
    · exact .inr rfl
    · exact .inl (List.mem_singleton.mp hc ▸ hd)
  · split at hc
    · rename_i hdollar
      simp only [List.mem_cons, List.not_mem_nil, or_false, or_self] at hc
      exact .inl (hc ▸ hdollar ▸ hd)
    · exact .inl (List.mem_singleton.mp hc ▸ hd)

/-- An escaped path starts with a character that is no white space. -/
theorem head?_escape (path : RulePath) : ∃ c, (escape path.chars).head? = some c ∧ isWhitespace c = false := by
  obtain ⟨c, chars, hchars⟩ := List.exists_cons_of_ne_nil path.nonempty
  rw [hchars, escape_cons]
  unfold escapeChar
  split
  · exact ⟨'\\', rfl, by decide⟩
  · split
    · exact ⟨'$', rfl, by decide⟩
    · rename_i hplain _
      refine ⟨c, rfl, Bool.not_eq_true _ ▸ fun hspace => hplain (.inl ?_)⟩
      exact (path.plain c (hchars ▸ List.mem_cons_self)).2.2 hspace

/-- An escaped path is not empty. -/
theorem escape_ne_nil (path : RulePath) : escape path.chars ≠ [] := by
  obtain ⟨c, hc, -⟩ := head?_escape path
  intro hnil
  rw [hnil] at hc
  cases hc

/-- A path without spaces, number signs and dollar signs is written as it is. -/
theorem escape_eq_self {path : List Char} (h : ∀ c ∈ path, c ≠ ' ' ∧ c ≠ '#' ∧ c ≠ '$') : escape path = path := by
  induction path with
  | nil => rfl
  | cons c path ih =>
    obtain ⟨⟨hspace, hnumber, hdollar⟩, hrest⟩ := List.forall_mem_cons.mp h
    rw [escape_cons, ih hrest, escapeChar, if_neg (not_or.mpr ⟨hspace, hnumber⟩), if_neg hdollar]
    rfl

/-! ### Texts without line ends -/

/-- No line ends in a text. -/
def Unbroken (s : List Char) : Prop := '\n' ∉ s ∧ '\r' ∉ s

/-- Two unbroken texts after each other. -/
theorem Unbroken.append {s t : List Char} (hs : Unbroken s) (ht : Unbroken t) : Unbroken (s ++ t) := by
  constructor
  · exact fun h => (List.mem_append.mp h).elim hs.1 ht.1
  · exact fun h => (List.mem_append.mp h).elim hs.2 ht.2

/-- An escaped path is unbroken. -/
theorem unbroken_escape (path : RulePath) : Unbroken (escape path.chars) := by
  have hplain : ∀ c, isWhitespace c = true → c ≠ ' ' → c ≠ '\\' → c ∉ escape path.chars := by
    intro c hspace hne hbackslash hc
    obtain hc | hc := mem_escape hc
    · exact hne ((path.plain c hc).2.2 hspace)
    · exact hbackslash hc
  exact ⟨hplain '\n' (by decide) (by decide) (by decide), hplain '\r' (by decide) (by decide) (by decide)⟩

/-- What a rule starts with is unbroken. -/
theorem LaidRule.unbroken_lead (rule : LaidRule) : Unbroken rule.lead :=
  (unbroken_escape rule.target).append ⟨by decide, by decide⟩

/-- The first line of a text, with either end. -/
theorem lines_append_text {line : List Char} (hline : Unbroken line) (ending : LineEnd) (rest : List Char) :
    lines (line ++ (ending.text ++ rest)) = line :: lines rest := by
  cases ending with
  | lf =>
    rw [LineEnd.text, List.singleton_append, lines_append_cons hline.1, dropReturn_eq_self_iff.mpr]
    exact fun hlast => hline.2 (List.mem_of_getLast? hlast)
  | crlf =>
    have hassoc : line ++ (LineEnd.crlf.text ++ rest) = (line ++ ['\r']) ++ '\n' :: rest := by
      rw [List.append_assoc]
      rfl
    have hfeed : '\n' ∉ line ++ ['\r'] := fun h => (List.mem_append.mp h).elim hline.1 (by decide)
    have hdropped : dropReturn (line ++ ['\r']) = line := by
      rw [dropReturn, stripSuffix_append]
      rfl
    rw [hassoc, lines_append_cons hfeed, hdropped]

/-! ### Reading line by line -/

variable {σ : Type*}

/-- A reader takes a break: it goes on with the line, or takes the line with the backslash at its end. -/
def feedBreak (f : σ → List Char → σ) (state : σ × List Char) : Break → σ × List Char
  | .blank => (state.1, state.2 ++ [' '])
  | .wrap _ => (f state.1 (state.2 ++ ['\\']), [])

/-- A reader takes the breaks between two words. -/
def feedGap (f : σ → List Char → σ) (state : σ × List Char) (gap : Gap) : σ × List Char :=
  gap.breaks.foldl (feedBreak f) state

/-- A reader takes a word with the gap in front of it. -/
def feedWord (f : σ → List Char → σ) (state : σ × List Char) (word : Gap × RulePath) : σ × List Char :=
  ((feedGap f state word.1).1, (feedGap f state word.1).2 ++ escape word.2.chars)

/-- A reader takes a rule. -/
def feedRule (f : σ → List Char → σ) (s : σ) (rule : LaidRule) : σ :=
  let state := rule.words.foldl (feedWord f) (s, rule.lead)
  f state.1 state.2

/-- Reading the rest of a line and the lines behind it, after some breaks. -/
theorem foldl_lines_breaks (f : σ → List Char → σ) (breaks : List Break) {state : σ × List Char}
    (hline : Unbroken state.2) (rest : List Char) :
    Unbroken (breaks.foldl (feedBreak f) state).2 ∧
      (lines (state.2 ++ (breaks.flatMap Break.text ++ rest))).foldl f state.1 =
        (lines ((breaks.foldl (feedBreak f) state).2 ++ rest)).foldl f (breaks.foldl (feedBreak f) state).1 := by
  induction breaks generalizing state with
  | nil => exact ⟨hline, rfl⟩
  | cons first breaks ih =>
    rw [List.flatMap_cons, List.foldl_cons, List.append_assoc]
    cases first with
    | blank =>
      have hnext := @ih (feedBreak f state .blank) (hline.append ⟨by decide, by decide⟩)
      refine ⟨hnext.1, ?_⟩
      rw [← hnext.2, feedBreak, List.append_assoc]
      rfl
    | wrap ending =>
      have hnext := @ih (feedBreak f state (.wrap ending)) ⟨List.not_mem_nil, List.not_mem_nil⟩
      refine ⟨hnext.1, ?_⟩
      have hbroken : Unbroken (state.2 ++ ['\\']) := hline.append ⟨by decide, by decide⟩
      have htext : state.2 ++ ((Break.wrap ending).text ++ (breaks.flatMap Break.text ++ rest)) =
          (state.2 ++ ['\\']) ++ (ending.text ++ (breaks.flatMap Break.text ++ rest)) := by
        rw [List.append_assoc]
        rfl
      rw [← hnext.2, htext, lines_append_text hbroken, List.foldl_cons]
      rfl

/-- Reading the rest of a line and the lines behind it, after some words. -/
theorem foldl_lines_words (f : σ → List Char → σ) (words : List (Gap × RulePath)) {state : σ × List Char}
    (hline : Unbroken state.2) (rest : List Char) :
    Unbroken (words.foldl (feedWord f) state).2 ∧
      (lines (state.2 ++ (LaidRule.wordsText words ++ rest))).foldl f state.1 =
        (lines ((words.foldl (feedWord f) state).2 ++ rest)).foldl f (words.foldl (feedWord f) state).1 := by
  induction words generalizing state with
  | nil => exact ⟨hline, rfl⟩
  | cons word words ih =>
    have hgap := foldl_lines_breaks f word.1.breaks hline
      (escape word.2.chars ++ (LaidRule.wordsText words ++ rest))
    have hnext := @ih (feedWord f state word) (hgap.1.append (unbroken_escape word.2))
    refine ⟨hnext.1, ?_⟩
    have htext : LaidRule.wordsText (word :: words) ++ rest =
        word.1.breaks.flatMap Break.text ++ (escape word.2.chars ++ (LaidRule.wordsText words ++ rest)) := by
      rw [LaidRule.wordsText, List.flatMap_cons, List.append_assoc, List.append_assoc]
      rfl
    rw [List.foldl_cons, ← hnext.2, htext, hgap.2, feedWord, List.append_assoc]
    rfl

/-- Reading rules line by line is taking one rule after another. -/
theorem foldl_lines_rulesText (f : σ → List Char → σ) (rules : List LaidRule) (s : σ) :
    (lines (rulesText rules)).foldl f s = rules.foldl (feedRule f) s := by
  induction rules generalizing s with
  | nil => rfl
  | cons rule rules ih =>
    have htext : rulesText (rule :: rules) =
        rule.lead ++ (LaidRule.wordsText rule.words ++ (rule.ending.text ++ rulesText rules)) := by
      rw [rulesText, List.flatMap_cons, LaidRule.text, List.append_assoc, List.append_assoc]
      rfl
    have hwords := @foldl_lines_words _ f rule.words (s, rule.lead) rule.unbroken_lead (rule.ending.text ++ rulesText rules)
    rw [htext, hwords.2, lines_append_text hwords.1, List.foldl_cons, List.foldl_cons, ih]
    rfl

end Forge.Common
