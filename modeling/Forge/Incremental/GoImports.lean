import Forge.Incremental.Inference
import Mathlib.Data.Finset.Dedup
import Mathlib.Data.Finset.Lattice.Lemmas

/-!
# The imports of a Go source

A Go source has a package clause and import declarations, single ones and blocks. A spec in
them may have a local name, and a comment may follow it. What is found are the paths of the
declarations that are laid out as the reader expects them, where every other declaration
leaves something that is no path, or is not read at all.
-/

namespace Forge.Incremental.Inference

open Forge.Common

/-! ## Sources -/

/-- The characters between words of a line. -/
def isBlank (c : Char) : Bool := c = ' ' || c = '\t' || c = '\r'

/-- Blanks in a line. -/
structure Blanks where
  chars : List Char
  blank : ∀ c ∈ chars, isBlank c = true

/-- The characters of import paths. -/
def isPathChar (c : Char) : Bool := !isWhitespace c && c ∉ "!\"#$%&'()*,:;<=>?[\\]^`{|}\uFFFD".toList

/-- The path of an import. -/
structure ImportPath where
  chars : List Char
  ne_nil : chars ≠ []
  valid : ∀ c ∈ chars, isPathChar c = true

/-- The characters of names. -/
def isIdentChar (c : Char) : Bool := c.isAlphanum || c = '_' || (128 ≤ c.toNat && !isWhitespace c)

/-- A name. -/
structure Identifier where
  chars : List Char
  ne_nil : chars ≠ []
  valid : ∀ c ∈ chars, isIdentChar c = true
  notImport : chars ≠ "import".toList

/-- What an import is called in the source: a name, which may be an underscore, or a point. -/
inductive LocalName where
  | dot
  | named (name : Identifier)

/-- The text of a local name. -/
def LocalName.text : LocalName → List Char
  | .dot => ['.']
  | .named name => name.chars

/-- An import, with a local name, if it has one, and in one of two kinds of quotes. -/
structure ImportSpec where
  localName : Option (LocalName × Blanks)
  raw : Bool
  path : ImportPath

/-- The text of a local name and the blanks behind it. -/
def ImportSpec.nameText (spec : ImportSpec) : List Char :=
  match spec.localName with
  | some (name, gap) => name.text ++ gap.chars
  | none => []

/-- The quote of an import. -/
def ImportSpec.quote (spec : ImportSpec) : Char := if spec.raw then '`' else '"'

/-- The text of an import. -/
def ImportSpec.text (spec : ImportSpec) : List Char :=
  spec.nameText ++ spec.quote :: (spec.path.chars ++ [spec.quote])

/-- A comment to the end of the line. -/
structure Comment where
  chars : List Char
  oneLine : '\n' ∉ chars

/-- What follows in a line: a semicolon and a comment, if there are any. -/
structure Trailer where
  before : Blanks
  semicolon : Bool
  after : Blanks
  comment : Option Comment

/-- The text of what follows. -/
def Trailer.text (trailer : Trailer) : List Char :=
  trailer.before.chars ++ ((if trailer.semicolon then [';'] else []) ++ (trailer.after.chars ++
    match trailer.comment with
    | some comment => '/' :: '/' :: comment.chars
    | none => []))

/-- A line of a block: blanks, or imports with semicolons between them. -/
inductive Row where
  | blank (indent : Blanks)
  | specs (indent : Blanks) (first : ImportSpec) (more : List (Blanks × Blanks × ImportSpec)) (trailer : Trailer)

/-- The text of further imports in a line. -/
def moreText (more : List (Blanks × Blanks × ImportSpec)) : List Char :=
  more.flatMap fun (before, after, spec) => before.chars ++ ';' :: (after.chars ++ spec.text)

/-- The text of a line of a block. -/
def Row.text : Row → List Char
  | .blank indent => indent.chars
  | .specs indent first more trailer => indent.chars ++ (first.text ++ (moreText more ++ trailer.text))

/-- The paths in a line of a block. -/
def Row.paths : Row → List (List Char)
  | .blank _ => []
  | .specs _ first more _ => first.path.chars :: more.map fun (_, _, spec) => spec.path.chars

/-- A line of a block behind which the block may be closed. -/
def Row.Open : Row → Prop
  | .blank _ => True
  | .specs _ _ _ trailer => trailer.comment = none

/-- An import by itself. A name is apart from the word in front of it. -/
structure SingleImport where
  indent : Blanks
  gap : Blanks
  spec : ImportSpec
  trailer : Trailer
  apart : ∀ name gap', spec.localName = some (.named name, gap') → gap.chars ≠ []

/-- A block of imports. Its last line is closed. -/
structure ImportBlock where
  indent : Blanks
  gap : Blanks
  rows : List Row
  last : Row
  lastOpen : last.Open
  closing : Trailer

/-- A part of a source behind its package clause. -/
inductive Decl where
  | blank (indent : Blanks)
  | single (decl : SingleImport)
  | block (decl : ImportBlock)

/-- The line of an import by itself. -/
def SingleImport.line (decl : SingleImport) : List Char :=
  decl.indent.chars ++ ("import".toList ++ (decl.gap.chars ++ (decl.spec.text ++ decl.trailer.text)))

/-- The start of a block. -/
def ImportBlock.header (decl : ImportBlock) (rest : List Char) : List Char :=
  decl.indent.chars ++ ("import".toList ++ (decl.gap.chars ++ '(' :: rest))

/-- The end of a block. -/
def ImportBlock.footer (decl : ImportBlock) : List Char := decl.last.text ++ ')' :: decl.closing.text

/-- The lines of a block. -/
def ImportBlock.lines (decl : ImportBlock) : List (List Char) :=
  match decl.rows with
  | [] => [decl.header decl.footer]
  | first :: middle => decl.header first.text :: (middle.map Row.text ++ [decl.footer])

/-- The lines of a part of a source. -/
def Decl.lines : Decl → List (List Char)
  | .blank indent => [indent.chars]
  | .single decl => [decl.line]
  | .block decl => decl.lines

/-- The imported paths of a part of a source. -/
def Decl.paths : Decl → List (List Char)
  | .blank _ => []
  | .single decl => [decl.spec.path.chars]
  | .block decl => decl.rows.flatMap Row.paths ++ decl.last.paths

/-- The package clause of a source. -/
structure PackageClause where
  indent : Blanks
  gap : Blanks
  name : Identifier
  apart : gap.chars ≠ []
  trailer : Trailer

/-- The line of a package clause. -/
def PackageClause.line (clause : PackageClause) : List Char :=
  clause.indent.chars ++ ("package".toList ++ (clause.gap.chars ++ (clause.name.chars ++ clause.trailer.text)))

/-- A package clause and imports. -/
structure GoSource where
  package : PackageClause
  decls : List Decl

/-- The text of a source. -/
def GoSource.text (source : GoSource) : List Char :=
  ['\n'].intercalate (source.package.line :: source.decls.flatMap Decl.lines)

/-- The imported paths of a source. -/
def GoSource.paths (source : GoSource) : Finset (List Char) := (source.decls.flatMap Decl.paths).toFinset

/-! ## Layouts -/

/-- Nothing follows in a line. -/
def Trailer.Plain (trailer : Trailer) : Prop := trailer.semicolon = false ∧ trailer.comment = none

/-- An import without a local name, in double quotes. -/
def ImportSpec.Plain (spec : ImportSpec) : Prop := spec.localName = none ∧ spec.raw = false

/-- A line with blanks only, or with one plain import. -/
def Row.Plain : Row → Prop
  | .blank _ => True
  | .specs _ first more trailer => first.Plain ∧ more = [] ∧ trailer.Plain

/-- A line with blanks only. -/
def Row.IsBlank : Row → Prop
  | .blank _ => True
  | .specs _ _ _ _ => False

/-- A declaration as it is expected: a space behind the first word, plain imports, and each in
a line by itself, in a block between the lines that open and close it. -/
def Decl.Plain : Decl → Prop
  | .blank _ => True
  | .single decl => decl.gap.chars.head? = some ' ' ∧ decl.spec.Plain ∧ decl.trailer.Plain
  | .block decl => decl.gap.chars = [' '] ∧
      (∃ first middle, decl.rows = first :: middle ∧ first.IsBlank ∧ ∀ row ∈ middle, row.Plain) ∧
      decl.last.IsBlank ∧ decl.closing.Plain

/-- A declaration without a space behind its first word. -/
def Decl.Tight : Decl → Prop
  | .blank _ => False
  | .single decl => decl.gap.chars.head? ≠ some ' '
  | .block decl => decl.gap.chars.head? ≠ some ' '

/-- Every declaration is as expected, or has no space behind its first word and imports nothing
that the others do not. -/
def GoSource.Expected (source : GoSource) : Prop :=
  (∀ decl ∈ source.decls, decl.Plain ∨ decl.Tight) ∧
    ∀ decl ∈ source.decls, decl.Tight → ∀ path ∈ decl.paths, ∃ other ∈ source.decls, other.Plain ∧ path ∈ other.paths

/-! ## Characters -/

/-- Blanks are white space. -/
theorem isWhitespace_of_isBlank {c : Char} (hc : isBlank c = true) : isWhitespace c = true := by
  rw [isBlank, Bool.or_eq_true, Bool.or_eq_true, decide_eq_true_eq, decide_eq_true_eq, decide_eq_true_eq] at hc
  rcases hc with (rfl | rfl) | rfl <;> decide

/-- A character that is trimmed nowhere. -/
def Solid (c : Char) : Prop := isWhitespace c = false ∧ c ≠ '"'

/-- The characters of paths are trimmed nowhere. -/
theorem solid_of_isPathChar {c : Char} (hc : isPathChar c = true) : Solid c := by
  rw [isPathChar, Bool.and_eq_true, Bool.not_eq_true', decide_eq_true_eq] at hc
  refine ⟨hc.1, ?_⟩
  rintro rfl
  exact hc.2 (by decide)

/-- The characters of names are trimmed nowhere. -/
theorem solid_of_isIdentChar {c : Char} (hc : isIdentChar c = true) : Solid c := by
  refine ⟨?_, ?_⟩
  · rw [isIdentChar, Bool.or_eq_true, Bool.or_eq_true, Bool.and_eq_true, Bool.not_eq_true'] at hc
    rcases hc with (halnum | hunderscore) | hother
    · have hval : (65 ≤ c.val ∧ c.val ≤ 90) ∨ (97 ≤ c.val ∧ c.val ≤ 122) ∨ (48 ≤ c.val ∧ c.val ≤ 57) := by
        have hranges : (decide (65 ≤ c.val ∧ c.val ≤ 90) || (decide (97 ≤ c.val) && decide (c.val ≤ 122)) ||
            (decide (48 ≤ c.val) && decide (c.val ≤ 57))) = true := halnum
        simpa [or_assoc] using hranges
      have hcode : (65 ≤ c.toNat ∧ c.toNat ≤ 90) ∨ (97 ≤ c.toNat ∧ c.toNat ≤ 122) ∨ (48 ≤ c.toNat ∧ c.toNat ≤ 57) := hval
      rw [isWhitespace]
      simp only [Bool.or_eq_false_iff, Bool.and_eq_false_iff, decide_eq_false_iff_not]
      omega
    · rw [of_decide_eq_true hunderscore]
      rfl
    · exact hother.2
  · rintro rfl
    exact absurd hc (by decide)

/-- White space is no solid character. -/
theorem Solid.not_whitespace (c : Char) (hc : Solid c) : isWhitespace c = false := hc.1

/-- A quote is no solid character. -/
theorem Solid.not_quote (c : Char) (hc : Solid c) : (c == '"') = false := beq_eq_false_iff_ne.mpr hc.2

/-- What survives trimming is left of a text. -/
theorem mem_clean {c : Char} {s : List Char} (h : Survives Solid c s) : c ∈ clean (trim s) :=
  ((h.trimMatches Solid.not_whitespace).trimMatches Solid.not_quote |>.trimMatches Solid.not_whitespace).mem

/-- Something was found that is no path. -/
def Spoiled (scan : Scan) : Prop := ∃ found ∈ scan.deps, ∃ c ∈ found, isPathChar c = false

/-- A text in which no character of a path survives is no path. -/
theorem spoiled_add (scan : Scan) {c : Char} {s : List Char} (h : Survives Solid c s) (hc : isPathChar c = false) :
    Spoiled (scan.add (trim s)) := by
  rw [Scan.add, if_neg (List.ne_nil_of_mem (mem_clean h))]
  exact ⟨clean (trim s), Finset.mem_insert_self _ _, c, mem_clean h, hc⟩

/-- What was found is kept. -/
theorem Spoiled.mono {scan scan' : Scan} (h : Spoiled scan) (hsub : scan.deps ⊆ scan'.deps) : Spoiled scan' := by
  obtain ⟨found, hfound, hc⟩ := h
  exact ⟨found, hsub hfound, hc⟩

/-! ## Imports -/

/-- A path has a solid character. -/
theorem ImportPath.exists_solid (path : ImportPath) : ∃ c ∈ path.chars, Solid c := by
  obtain ⟨c, hc⟩ := List.exists_mem_of_ne_nil path.chars path.ne_nil
  exact ⟨c, hc, solid_of_isPathChar (path.valid c hc)⟩

/-- A local name has a solid character. -/
theorem LocalName.exists_solid (name : LocalName) : ∃ c ∈ name.text, Solid c := by
  cases name with
  | dot => exact ⟨'.', List.mem_singleton_self _, by decide, by decide⟩
  | named name =>
    obtain ⟨c, hc⟩ := List.exists_mem_of_ne_nil name.chars name.ne_nil
    exact ⟨c, hc, solid_of_isIdentChar (name.valid c hc)⟩

/-- The text of an import has a solid character. -/
theorem ImportSpec.exists_solid (spec : ImportSpec) : ∃ c ∈ spec.text, Solid c := by
  obtain ⟨c, hc, hsolid⟩ := spec.path.exists_solid
  exact ⟨c, List.mem_append_right _ (List.mem_cons_of_mem _ (List.mem_append_left _ hc)), hsolid⟩

/-- A quote or a semicolon survives in a text, or another character that has no place in a path. -/
def Garbles (s : List Char) : Prop := ∃ c ∈ ['"', '`', ';'], Survives Solid c s

/-- It survives behind other text. -/
theorem Garbles.append_left {s : List Char} (h : Garbles s) (start : List Char) : Garbles (start ++ s) := by
  obtain ⟨c, hc, hs⟩ := h
  exact ⟨c, hc, hs.append_left start⟩

/-- It survives in front of other text. -/
theorem Garbles.append_right {s : List Char} (h : Garbles s) (finish : List Char) : Garbles (s ++ finish) := by
  obtain ⟨c, hc, hs⟩ := h
  exact ⟨c, hc, hs.append_right finish⟩

/-- It is in no path. -/
theorem Garbles.spoiled {s : List Char} (h : Garbles s) (scan : Scan) : Spoiled (scan.add (trim s)) := by
  obtain ⟨c, hc, hs⟩ := h
  have hnone : ∀ c ∈ ['"', '`', ';'], isPathChar c = false := List.forall_iff_forall_mem.mp (by decide)
  exact spoiled_add scan hs (hnone c hc)

/-- A semicolon garbles. -/
theorem garbles_semicolon {s : List Char} (hs : ';' ∈ s) : Garbles s :=
  ⟨';', by decide, .of_mem hs ⟨by decide, by decide⟩⟩

/-- An import that is not plain garbles. -/
theorem ImportSpec.garbles {spec : ImportSpec} (hspec : ¬ spec.Plain) : Garbles spec.text := by
  cases hraw : spec.raw with
  | true =>
    refine ⟨'`', by decide, .of_mem ?_ ⟨by decide, by decide⟩⟩
    rw [ImportSpec.text, ImportSpec.quote, hraw]
    exact List.mem_append_right _ List.mem_cons_self
  | false =>
    cases hname : spec.localName with
    | none => exact absurd ⟨hname, hraw⟩ hspec
    | some name =>
      obtain ⟨c, hc, hsolid⟩ := name.1.exists_solid
      obtain ⟨d, hd, hdsolid⟩ := spec.path.exists_solid
      refine ⟨'"', by decide, spec.nameText, spec.path.chars ++ [spec.quote], ?_, Or.inr ⟨⟨c, ?_, hsolid⟩, d, ?_, hdsolid⟩⟩
      · rw [ImportSpec.text, ImportSpec.quote, hraw]
        rfl
      · rw [ImportSpec.nameText, hname]
        exact List.mem_append_left _ hc
      · exact List.mem_append_left _ hd

/-- What follows, if it is not only blanks, has a semicolon or a slash. -/
theorem Trailer.mem_text {trailer : Trailer} (h : ¬ trailer.Plain) : ';' ∈ trailer.text ∨ '/' ∈ trailer.text := by
  rw [Trailer.text]
  cases hsemicolon : trailer.semicolon with
  | true => exact Or.inl (List.mem_append_right _ (List.mem_append_left _ (List.mem_singleton_self _)))
  | false =>
    cases hcomment : trailer.comment with
    | none => exact absurd ⟨hsemicolon, hcomment⟩ h
    | some comment =>
      exact Or.inr (List.mem_append_right _ (List.mem_append_right _ (List.mem_append_right _ List.mem_cons_self)))

/-- An import that is not plain, or is followed by something, garbles. -/
theorem garbles_of_not_plain {spec : ImportSpec} {trailer : Trailer} (h : ¬ (spec.Plain ∧ trailer.Plain)) :
    Garbles (spec.text ++ trailer.text) := by
  by_cases hspec : spec.Plain
  · rcases Trailer.mem_text fun htrailer => h ⟨hspec, htrailer⟩ with hsemicolon | hslash
    · exact garbles_semicolon (List.mem_append_right _ hsemicolon)
    · -- The quote behind the path is between the path and the slashes of the comment.
      obtain ⟨d, hd, hdsolid⟩ := spec.path.exists_solid
      refine ⟨'"', by decide, spec.nameText ++ spec.quote :: spec.path.chars, trailer.text, ?_,
        Or.inr ⟨⟨d, ?_, hdsolid⟩, '/', hslash, by decide, by decide⟩⟩
      · rw [ImportSpec.text, ImportSpec.quote, hspec.2]
        simp
      · exact List.mem_append_right _ (List.mem_cons_of_mem _ hd)
  · exact (ImportSpec.garbles hspec).append_right trailer.text

/-- A line of a block that is not plain garbles. -/
theorem Row.garbles {row : Row} (hrow : ¬ row.Plain) : Garbles row.text := by
  cases row with
  | blank indent => exact absurd trivial hrow
  | specs indent first more trailer =>
    rw [Row.text]
    refine Garbles.append_left ?_ _
    by_cases hmore : more = []
    · subst hmore
      exact garbles_of_not_plain fun h => hrow ⟨h.1, rfl, h.2⟩
    · obtain ⟨⟨before, after, spec⟩, rest, rfl⟩ := List.exists_cons_of_ne_nil hmore
      refine garbles_semicolon (List.mem_append_right _ (List.mem_append_left _ ?_))
      rw [moreText, List.flatMap_cons]
      exact List.mem_append_left _ (List.mem_append_right _ List.mem_cons_self)

/-! ## Lines -/

/-- Blanks are white space. -/
theorem Blanks.whitespace (blanks : Blanks) : ∀ c ∈ blanks.chars, isWhitespace c = true :=
  fun c hc => isWhitespace_of_isBlank (blanks.blank c hc)

/-- Blanks at the start of a line do not count. -/
theorem trim_indent (indent : Blanks) (s : List Char) : trim (indent.chars ++ s) = trim s :=
  trimMatches_append_left indent.whitespace

/-- What is left of a text when it is trimmed at its end is the start of it. -/
theorem trimEnd_isPrefix (s : List Char) : trimEnd s <+: s := by
  obtain ⟨blanks, -, hs⟩ := exists_eq_trimEnd_append s
  exact ⟨blanks, hs.symm⟩

/-- The word of an import stays at the start. -/
theorem trim_import (indent : Blanks) (s : List Char) :
    trim (indent.chars ++ ("import".toList ++ s)) = "import".toList ++ trimEnd s := by
  have hhead : ∀ c, ("import".toList ++ s).head? = some c → isWhitespace c = false := by
    intro c hc
    obtain rfl := Option.some.inj hc
    rfl
  have hword : trimEnd ("impor".toList ++ ['t'] ++ s) = "impor".toList ++ ['t'] ++ trimEnd s := trimEnd_append rfl s
  rw [trim_indent, trim_eq_trimEnd hhead]
  exact hword

/-- A line that is no import is skipped outside a block. -/
theorem scanLine_outside (deps : Finset (List Char)) {line : List Char} (h : ¬ "import ".toList <+: trim line) :
    scanLine ⟨deps, false⟩ line = ⟨deps, false⟩ := by
  have hheader : trim line ≠ "import (".toList := by
    intro heq
    rw [heq] at h
    exact h (by decide)
  rw [scanLine, if_neg hheader, stripPrefix, if_neg h]
  rfl

/-- An import without a space behind its word is skipped. -/
theorem scanLine_tight (deps : Finset (List Char)) (indent : Blanks) {s : List Char} (hhead : s.head? ≠ some ' ') :
    scanLine ⟨deps, false⟩ (indent.chars ++ ("import".toList ++ s)) = ⟨deps, false⟩ := by
  refine scanLine_outside deps fun hstarts => ?_
  rw [trim_import] at hstarts
  have hspace : [' '] <+: trimEnd s := (List.prefix_append_right_inj "import".toList).mp hstarts
  obtain ⟨rest, hrest⟩ := hspace.trans (trimEnd_isPrefix s)
  exact hhead (hrest ▸ rfl)

/-- An import with a space behind its word opens a block, or is read behind the word. -/
theorem scanLine_spaced (deps : Finset (List Char)) (indent : Blanks) {gap body : List Char}
    (hgap : ∀ c ∈ gap, isWhitespace c = true) (hbody : ∃ c ∈ body, isWhitespace c = false) :
    scanLine ⟨deps, false⟩ (indent.chars ++ ("import".toList ++ (' ' :: (gap ++ body)))) =
      if trimEnd (gap ++ body) = ['('] then ⟨deps, true⟩ else Scan.add ⟨deps, false⟩ (trim body) := by
  obtain ⟨c, hc, hsolid⟩ := hbody
  have htrim : trim (indent.chars ++ ("import".toList ++ (' ' :: (gap ++ body)))) =
      "import ".toList ++ trimEnd (gap ++ body) := by
    have hspace : trimEnd ([' '] ++ (gap ++ body)) = [' '] ++ trimEnd (gap ++ body) :=
      trimEnd_append_of_mem (List.mem_append_right gap hc) hsolid
    exact (trim_import indent _).trans (congrArg ("import".toList ++ ·) hspace)
  have hheader : "import ".toList ++ trimEnd (gap ++ body) = "import (".toList ↔ trimEnd (gap ++ body) = ['('] :=
    List.append_right_inj "import ".toList
  rw [scanLine, htrim]
  by_cases hopen : trimEnd (gap ++ body) = ['(']
  · rw [if_pos hopen, if_pos (hheader.mpr hopen)]
  · rw [if_neg hopen, if_neg fun h => hopen (hheader.mp h), stripPrefix_append, if_neg Bool.false_ne_true]
    dsimp only
    rw [trim_trimEnd, trim, trimMatches_append_left hgap, ← trim]

/-- A line in a block that neither opens nor closes one is read as a path. -/
theorem scanLine_inside (deps : Finset (List Char)) {line : List Char} (hheader : trim line ≠ "import (".toList)
    (hfooter : trim line ≠ [')']) : scanLine ⟨deps, true⟩ line = Scan.add ⟨deps, true⟩ (trim line) := by
  rw [scanLine, if_neg hheader, if_pos rfl, if_neg hfooter]

/-- Trimming at the end leaves what is no white space. -/
theorem mem_trimEnd {c : Char} {s : List Char} (hmem : c ∈ s) (hc : isWhitespace c = false) : c ∈ trimEnd s := by
  obtain ⟨blanks, hblanks, hs⟩ := exists_eq_trimEnd_append s
  rw [hs] at hmem
  rcases List.mem_append.mp hmem with hkept | hdropped
  · exact hkept
  · exact absurd (hblanks c hdropped) (ne_true_of_eq_false hc)

/-- Trimming leaves solid characters. -/
theorem mem_trim {c : Char} {s : List Char} (hmem : c ∈ s) (hc : Solid c) : c ∈ trim s :=
  ((Survives.of_mem hmem hc).trimMatches Solid.not_whitespace).mem

/-- A text that starts with another character than the word of an import is no import. -/
theorem not_import_of_cons (indent : Blanks) {c : Char} (hc : isWhitespace c = false) (hne : c ≠ 'i') (s : List Char) :
    ¬ "import ".toList <+: trim (indent.chars ++ c :: s) := by
  intro hstarts
  have hhead : ∀ d, (c :: s).head? = some d → isWhitespace d = false := by
    intro d hd
    obtain rfl := Option.some.inj hd
    exact hc
  rw [trim_indent, trim_eq_trimEnd hhead] at hstarts
  exact hne (List.cons_prefix_cons.mp (hstarts.trans (trimEnd_isPrefix _))).1.symm

/-- A blank is in no name. -/
theorem isIdentChar_of_isBlank {c : Char} (hc : isBlank c = true) : isIdentChar c = false := by
  rw [isBlank, Bool.or_eq_true, Bool.or_eq_true, decide_eq_true_eq, decide_eq_true_eq, decide_eq_true_eq] at hc
  rcases hc with (rfl | rfl) | rfl <;> decide

/-- A name is no import, whatever follows it, if it is not a part of a name. -/
theorem Identifier.not_import (name : Identifier) {s : List Char} (hs : ∀ c, s.head? = some c → isIdentChar c = false) :
    ¬ "import ".toList <+: name.chars ++ s := by
  rintro ⟨rest, hrest⟩
  have hword : ("import ".toList ++ rest).takeWhile isIdentChar = "import".toList := rfl
  have hstop : s.takeWhile isIdentChar = [] := by
    cases s with
    | nil => rfl
    | cons c s => exact List.takeWhile_cons_of_neg (ne_true_of_eq_false (hs c rfl))
  rw [hrest, List.takeWhile_append_of_pos name.valid, hstop, List.append_nil] at hword
  exact name.notImport hword

/-- A line that starts with an import spec is no import by itself. -/
theorem ImportSpec.not_import (spec : ImportSpec) (indent : Blanks) (rest : List Char) :
    ¬ "import ".toList <+: trim (indent.chars ++ (spec.text ++ rest)) := by
  have hquote : isWhitespace spec.quote = false ∧ spec.quote ≠ 'i' ∧ isIdentChar spec.quote = false := by
    rw [ImportSpec.quote]
    split <;> decide
  rw [ImportSpec.text, ImportSpec.nameText]
  split
  · rename_i name gap _
    cases name with
    | dot => exact not_import_of_cons indent (by decide) (by decide) _
    | named name =>
      intro hstarts
      obtain ⟨c, chars, hchars⟩ := List.exists_cons_of_ne_nil name.ne_nil
      have hhead : ∀ d, (name.chars ++ (gap.chars ++ spec.quote :: (spec.path.chars ++ [spec.quote]) ++ rest)).head? = some d →
          isWhitespace d = false := by
        intro d hd
        rw [hchars] at hd
        obtain rfl := Option.some.inj hd
        exact (solid_of_isIdentChar (name.valid c (hchars ▸ List.mem_cons_self))).1
      rw [LocalName.text, List.append_assoc, List.append_assoc, ← List.append_assoc gap.chars, trim_indent,
        trim_eq_trimEnd hhead] at hstarts
      refine name.not_import (fun d hd => ?_) (hstarts.trans (trimEnd_isPrefix _))
      cases hgap : gap.chars with
      | nil =>
        rw [hgap] at hd
        rw [← Option.some.inj hd]
        exact hquote.2.2
      | cons b blanks =>
        rw [hgap] at hd
        rw [← Option.some.inj hd]
        exact isIdentChar_of_isBlank (gap.blank b (hgap ▸ List.mem_cons_self))
  · exact not_import_of_cons indent hquote.1 hquote.2.1 _

/-- A line of a block is skipped outside of blocks. -/
theorem scanLine_row_outside (deps : Finset (List Char)) (row : Row) : scanLine ⟨deps, false⟩ row.text = ⟨deps, false⟩ := by
  refine scanLine_outside deps ?_
  cases row with
  | blank indent =>
    have hempty : trim indent.chars = [] := by
      rw [← List.append_nil indent.chars, trim_indent]
      rfl
    rw [Row.text, hempty]
    exact fun hstarts => absurd (List.prefix_nil.mp hstarts) (by decide)
  | specs indent first more trailer => exact first.not_import indent _

/-- The end of a block is skipped outside of blocks. -/
theorem scanLine_footer_outside (deps : Finset (List Char)) (decl : ImportBlock) :
    scanLine ⟨deps, false⟩ decl.footer = ⟨deps, false⟩ := by
  refine scanLine_outside deps ?_
  rw [ImportBlock.footer]
  cases decl.last with
  | blank indent => exact not_import_of_cons indent (by decide) (by decide) _
  | specs indent first more trailer =>
    rw [Row.text, List.append_assoc, List.append_assoc]
    exact first.not_import indent _

/-! ## Plain imports -/

/-- Nothing but blanks follows. -/
theorem Trailer.Plain.whitespace {trailer : Trailer} (h : trailer.Plain) : ∀ c ∈ trailer.text, isWhitespace c = true := by
  rw [Trailer.text, h.1, h.2]
  intro c hc
  rcases List.mem_append.mp hc with hbefore | hc
  · exact trailer.before.whitespace c hbefore
  · rcases List.mem_append.mp hc with hnone | hc
    · exact absurd hnone List.not_mem_nil
    · rcases List.mem_append.mp hc with hafter | hnone
      · exact trailer.after.whitespace c hafter
      · exact absurd hnone List.not_mem_nil

/-- What follows, if it is not only blanks, has a solid character. -/
theorem Trailer.exists_solid {trailer : Trailer} (h : ¬ trailer.Plain) : ∃ c ∈ trailer.text, Solid c ∧ c ≠ ')' := by
  rcases Trailer.mem_text h with hsemicolon | hslash
  · exact ⟨';', hsemicolon, ⟨by decide, by decide⟩, by decide⟩
  · exact ⟨'/', hslash, ⟨by decide, by decide⟩, by decide⟩

/-- A path is trimmed nowhere. -/
theorem ImportPath.trimMatches_eq (path : ImportPath) {p : Char → Bool} (hp : ∀ c, Solid c → p c = false) :
    trimMatches p path.chars = path.chars :=
  trimMatches_eq_self (fun c hc => hp c (solid_of_isPathChar (path.valid c (List.mem_of_mem_head? hc))))
    fun c hc => hp c (solid_of_isPathChar (path.valid c (List.mem_of_getLast? hc)))

/-- The text of a plain import is its path in double quotes. -/
theorem ImportSpec.Plain.text {spec : ImportSpec} (h : spec.Plain) : spec.text = '"' :: (spec.path.chars ++ ['"']) := by
  rw [ImportSpec.text, ImportSpec.nameText, ImportSpec.quote, h.1, h.2]
  rfl

/-- A plain import that nothing follows, without the blanks behind it. -/
theorem ImportSpec.Plain.trim {spec : ImportSpec} {trailer : Trailer} (h : spec.Plain) (htrailer : trailer.Plain) :
    trim (spec.text ++ trailer.text) = '"' :: (spec.path.chars ++ ['"']) := by
  rw [Common.trim, trimMatches_append_right htrailer.whitespace, h.text]
  refine trimMatches_eq_self (fun c hc => ?_) fun c hc => ?_
  · rw [← Option.some.inj hc]
    rfl
  · rw [← List.cons_append, List.getLast?_concat] at hc
    rw [← Option.some.inj hc]
    rfl

/-- The path of a plain import is found. -/
theorem ImportSpec.Plain.add {spec : ImportSpec} {trailer : Trailer} (h : spec.Plain) (htrailer : trailer.Plain) (scan : Scan) :
    scan.add (Common.trim (spec.text ++ trailer.text)) = { scan with deps := insert spec.path.chars scan.deps } := by
  have hquotes := spec.path.trimMatches_eq Solid.not_quote
  have hhead : spec.path.chars.dropWhile (· == '"') = spec.path.chars :=
    dropWhile_eq_self fun c hc => Solid.not_quote c (solid_of_isPathChar (spec.path.valid c (List.mem_of_mem_head? hc)))
  have hclean : clean (Common.trim (spec.text ++ trailer.text)) = spec.path.chars := by
    have hquoted : trimMatches (· == '"') ('"' :: (spec.path.chars ++ ['"'])) = spec.path.chars :=
      trimMatches_cons_append rfl rfl hquotes hhead
    rw [h.trim htrailer, clean, hquoted]
    exact spec.path.trimMatches_eq Solid.not_whitespace
  rw [Scan.add, hclean, if_neg spec.path.ne_nil]

/-- Imports behind the word of an import do not open a block. -/
theorem trimEnd_ne_paren {gap : List Char} {spec : ImportSpec} {rest : List Char} :
    trimEnd (gap ++ (spec.text ++ rest)) ≠ ['('] := by
  obtain ⟨c, hc⟩ := List.exists_mem_of_ne_nil spec.path.chars spec.path.ne_nil
  have hpath := spec.path.valid c hc
  have hmem : c ∈ trimEnd (gap ++ (spec.text ++ rest)) := by
    refine mem_trimEnd (List.mem_append_right gap (List.mem_append_left rest ?_)) (solid_of_isPathChar hpath).1
    exact List.mem_append_right _ (List.mem_cons_of_mem _ (List.mem_append_left _ hc))
  intro heq
  rw [heq] at hmem
  rw [List.mem_singleton.mp hmem] at hpath
  exact absurd hpath (by decide)

/-! ## Single imports -/

/-- A gap that starts with a space. -/
theorem Blanks.eq_cons {gap : Blanks} (hspace : gap.chars.head? = some ' ') :
    ∃ rest, gap.chars = ' ' :: rest ∧ ∀ c ∈ rest, isWhitespace c = true := by
  obtain ⟨rest, hrest⟩ := List.head?_eq_some_iff.mp hspace
  exact ⟨rest, hrest, fun c hc => gap.whitespace c (hrest ▸ List.mem_cons_of_mem _ hc)⟩

/-- An import with a space behind its word is read behind the word. -/
theorem SingleImport.scanLine_spaced (deps : Finset (List Char)) {decl : SingleImport} (hspace : decl.gap.chars.head? = some ' ') :
    scanLine ⟨deps, false⟩ decl.line = Scan.add ⟨deps, false⟩ (trim (decl.spec.text ++ decl.trailer.text)) := by
  obtain ⟨rest, hgap, hrest⟩ := Blanks.eq_cons hspace
  obtain ⟨c, hc, hsolid⟩ := decl.spec.exists_solid
  have hbody : ∃ c ∈ decl.spec.text ++ decl.trailer.text, isWhitespace c = false :=
    ⟨c, List.mem_append_left _ hc, hsolid.1⟩
  rw [SingleImport.line, hgap, List.cons_append, Inference.scanLine_spaced deps decl.indent hrest hbody,
    if_neg trimEnd_ne_paren]

/-- An import without a space behind its word is skipped. -/
theorem SingleImport.scanLine_tight (deps : Finset (List Char)) {decl : SingleImport} (hspace : decl.gap.chars.head? ≠ some ' ') :
    scanLine ⟨deps, false⟩ decl.line = ⟨deps, false⟩ := by
  refine Inference.scanLine_tight deps decl.indent ?_
  cases hgap : decl.gap.chars with
  | cons c rest =>
    rw [hgap] at hspace
    exact hspace
  | nil =>
    have hquote : decl.spec.quote ≠ ' ' := by
      rw [ImportSpec.quote]
      split <;> decide
    rw [List.nil_append, ImportSpec.text, ImportSpec.nameText]
    split
    · rename_i name gap hname
      cases name with
      | dot => exact fun h => absurd (Option.some.inj h) (by decide)
      | named name => exact absurd hgap (decl.apart name gap hname)
    · exact fun h => hquote (Option.some.inj h)

/-! ## Blocks -/

/-- A line that is open has nothing but blanks, or a solid character. -/
theorem Row.isBlank_or_solid (row : Row) : row.IsBlank ∨ ∃ c ∈ row.text, isPathChar c = true := by
  cases row with
  | blank indent => exact Or.inl trivial
  | specs indent first more trailer =>
    obtain ⟨c, hc⟩ := List.exists_mem_of_ne_nil first.path.chars first.path.ne_nil
    refine Or.inr ⟨c, ?_, first.path.valid c hc⟩
    refine List.mem_append_right _ (List.mem_append_left _ (List.mem_append_right _ ?_))
    exact List.mem_cons_of_mem _ (List.mem_append_left _ hc)

/-- A line with blanks only has no path. -/
theorem Row.IsBlank.paths {row : Row} (h : row.IsBlank) : row.paths = [] := by
  cases row with
  | blank indent => rfl
  | specs indent first more trailer => exact h.elim

/-- A line with blanks only. -/
theorem Row.IsBlank.whitespace {row : Row} (h : row.IsBlank) : ∀ c ∈ row.text, isWhitespace c = true := by
  cases row with
  | blank indent => exact indent.whitespace
  | specs indent first more trailer => exact h.elim

/-- A path in a plain line of a block is found. -/
theorem Row.Plain.scanLine_inside {row : Row} (h : row.Plain) (deps : Finset (List Char)) :
    scanLine ⟨deps, true⟩ row.text = ⟨deps ∪ row.paths.toFinset, true⟩ := by
  cases row with
  | blank indent =>
    have hempty : scanLine ⟨deps, true⟩ indent.chars = scanLine ⟨deps, true⟩ [] := by
      refine scanLine_congr _ ?_
      rw [← List.append_nil indent.chars, trim_indent]
    rw [Row.text, hempty, scanLine_nil, Row.paths, List.toFinset_nil, Finset.union_empty]
  | specs indent first more trailer =>
    obtain ⟨hfirst, rfl, htrailer⟩ := h
    have htrim : trim (Row.text (.specs indent first [] trailer)) = '"' :: (first.path.chars ++ ['"']) := by
      rw [Row.text, trim_indent]
      exact hfirst.trim htrailer
    have hfound := hfirst.add htrailer ⟨deps, true⟩
    rw [hfirst.trim htrailer] at hfound
    rw [Inference.scanLine_inside deps, htrim, hfound, Row.paths, List.map_nil, List.toFinset_cons, List.toFinset_nil,
      insert_empty_eq, Finset.union_comm, Finset.singleton_union]
    · rw [htrim]
      exact fun heq => absurd (List.cons.inj heq).1 (by decide)
    · rw [htrim]
      exact fun heq => absurd (List.cons.inj heq).1 (by decide)

/-- A line of a block that is not plain spoils what is found. -/
theorem Row.spoiled {row : Row} (h : ¬ row.Plain) (deps : Finset (List Char)) : Spoiled (scanLine ⟨deps, true⟩ row.text) := by
  have hgarbles := Row.garbles h
  have hother : ∀ line, (∀ c ∈ ['"', '`', ';'], c ∉ line) → trim row.text ≠ line := by
    rintro line hline rfl
    obtain ⟨c, hc, hs⟩ := hgarbles
    exact hline c hc (hs.trimMatches Solid.not_whitespace).mem
  have hopen : ∀ c ∈ ['"', '`', ';'], c ∉ "import (".toList := List.forall_iff_forall_mem.mp (by decide)
  have hclose : ∀ c ∈ ['"', '`', ';'], c ∉ [')'] := List.forall_iff_forall_mem.mp (by decide)
  rw [Inference.scanLine_inside deps (hother _ hopen) (hother _ hclose)]
  exact hgarbles.spoiled _

/-- The paths in plain lines of a block are found. -/
theorem rows_plain {rows : List Row} (h : ∀ row ∈ rows, row.Plain) (deps : Finset (List Char)) :
    (rows.map Row.text).foldl scanLine ⟨deps, true⟩ = ⟨deps ∪ (rows.flatMap Row.paths).toFinset, true⟩ := by
  induction rows generalizing deps with
  | nil => rw [List.flatMap_nil, List.toFinset_nil, Finset.union_empty]; rfl
  | cons row rows ih =>
    obtain ⟨hrow, hrows⟩ := List.forall_mem_cons.mp h
    rw [List.map_cons, List.foldl_cons, hrow.scanLine_inside, ih hrows, List.flatMap_cons, List.toFinset_append,
      Finset.union_assoc]

/-- A line that is not plain spoils what is found in a block. -/
theorem rows_spoiled {rows : List Row} (h : ¬ ∀ row ∈ rows, row.Plain) (deps : Finset (List Char)) :
    Spoiled ((rows.map Row.text).foldl scanLine ⟨deps, true⟩) := by
  induction rows generalizing deps with
  | nil => exact absurd (fun row hrow => absurd hrow List.not_mem_nil) h
  | cons row rows ih =>
    rw [List.map_cons, List.foldl_cons]
    by_cases hrow : row.Plain
    · rw [hrow.scanLine_inside]
      exact ih (fun hrows => h (List.forall_mem_cons.mpr ⟨hrow, hrows⟩)) _
    · exact (Row.spoiled hrow deps).mono (deps_subset_foldl _ _)

/-- A line with the parenthesis only closes a block. -/
theorem ImportBlock.footer_plain (deps : Finset (List Char)) {decl : ImportBlock} (hlast : decl.last.IsBlank)
    (hclosing : decl.closing.Plain) : scanLine ⟨deps, true⟩ decl.footer = ⟨deps, false⟩ := by
  have htrim : trim decl.footer = [')'] := by
    rw [ImportBlock.footer, trim, trimMatches_append_left hlast.whitespace, ← List.singleton_append,
      trimMatches_append_right hclosing.whitespace]
    rfl
  rw [scanLine, htrim, if_neg (by decide)]
  rfl

/-- Any other line that closes a block spoils what is found. -/
theorem ImportBlock.footer_spoiled (deps : Finset (List Char)) {decl : ImportBlock}
    (h : ¬ (decl.last.IsBlank ∧ decl.closing.Plain)) : Spoiled (scanLine ⟨deps, true⟩ decl.footer) := by
  have hparen : Survives Solid ')' decl.footer :=
    .of_mem (List.mem_append_right _ List.mem_cons_self) ⟨by decide, by decide⟩
  have hheader : trim decl.footer ≠ "import (".toList := by
    intro heq
    have hmem := (hparen.trimMatches Solid.not_whitespace).mem
    rw [← trim, heq] at hmem
    exact absurd hmem (by decide)
  have hfooter : trim decl.footer ≠ [')'] := by
    intro heq
    have hall : ∀ c ∈ decl.footer, Solid c → c = ')' := by
      intro c hc hsolid
      have hmem := mem_trim hc hsolid
      rw [heq] at hmem
      exact List.mem_singleton.mp hmem
    rcases decl.last.isBlank_or_solid with hlast | ⟨c, hc, hpath⟩
    · obtain ⟨c, hc, hsolid, hne⟩ := Trailer.exists_solid fun hclosing => h ⟨hlast, hclosing⟩
      exact hne (hall c (List.mem_append_right _ (List.mem_cons_of_mem _ hc)) hsolid)
    · rw [hall c (List.mem_append_left _ hc) (solid_of_isPathChar hpath)] at hpath
      exact absurd hpath (by decide)
  rw [Inference.scanLine_inside deps hheader hfooter]
  exact spoiled_add _ hparen (by decide)

/-- A block without a space behind its first word is skipped. -/
theorem ImportBlock.header_tight (deps : Finset (List Char)) {decl : ImportBlock} (hspace : decl.gap.chars.head? ≠ some ' ')
    (rest : List Char) : scanLine ⟨deps, false⟩ (decl.header rest) = ⟨deps, false⟩ := by
  refine scanLine_tight deps decl.indent ?_
  cases hgap : decl.gap.chars with
  | nil => exact fun h => absurd (Option.some.inj h) (by decide)
  | cons c blanks =>
    rw [hgap] at hspace
    exact hspace

/-- A block with a space behind its first word is opened when there is one only, and nothing
behind the parenthesis. Otherwise the parenthesis spoils what is found. -/
theorem ImportBlock.header_spaced (deps : Finset (List Char)) {decl : ImportBlock} (hspace : decl.gap.chars.head? = some ' ')
    (rest : List Char) :
    (decl.gap.chars = [' '] ∧ trimEnd rest = [] ∧ scanLine ⟨deps, false⟩ (decl.header rest) = ⟨deps, true⟩) ∨
      (¬ (decl.gap.chars = [' '] ∧ trimEnd rest = []) ∧ Spoiled (scanLine ⟨deps, false⟩ (decl.header rest))) := by
  obtain ⟨blanks, hgap, hblanks⟩ := Blanks.eq_cons hspace
  have hparen : isWhitespace '(' = false := by decide
  have hword : trimEnd ([] ++ ['('] ++ rest) = [] ++ ['('] ++ trimEnd rest := trimEnd_append hparen rest
  have hend : trimEnd (blanks ++ '(' :: rest) = blanks ++ '(' :: trimEnd rest := by
    rw [trimEnd_append_of_mem List.mem_cons_self hparen]
    exact congrArg (blanks ++ ·) hword
  have hsurvives : Survives Solid '(' ('(' :: rest) := .of_mem List.mem_cons_self ⟨hparen, by decide⟩
  rw [ImportBlock.header, hgap, List.cons_append,
    Inference.scanLine_spaced deps decl.indent hblanks ⟨'(', List.mem_cons_self, hparen⟩, hend]
  split
  · rename_i hopen
    cases blanks with
    | nil => exact Or.inl ⟨rfl, (List.cons.inj hopen).2, rfl⟩
    | cons b blanks => exact absurd (List.cons.inj hopen).2 (List.append_ne_nil_of_right_ne_nil _ (List.cons_ne_nil _ _))
  · rename_i hopen
    refine Or.inr ⟨?_, spoiled_add _ hsurvives (by decide)⟩
    rintro ⟨hone, hrest⟩
    rw [(List.cons.inj hone).2, hrest] at hopen
    exact hopen rfl

/-- Nothing but white space vanishes when it is trimmed at its end. -/
theorem trimEnd_eq_nil {s : List Char} (hs : ∀ c ∈ s, isWhitespace c = true) : trimEnd s = [] := by
  rw [trimEnd, List.dropWhile_eq_nil_iff.mpr fun c hc => hs c (List.mem_reverse.mp hc)]
  rfl

/-- What follows the parenthesis vanishes when there are blanks only. -/
theorem Row.trimEnd_eq_nil_iff {row : Row} : trimEnd row.text = [] ↔ row.IsBlank := by
  constructor
  · intro hnil
    rcases row.isBlank_or_solid with hblank | ⟨c, hc, hpath⟩
    · exact hblank
    · have hmem := mem_trimEnd hc (solid_of_isPathChar hpath).1
      rw [hnil] at hmem
      exact absurd hmem List.not_mem_nil
  · exact fun hblank => trimEnd_eq_nil hblank.whitespace

/-! ## Declarations -/

/-- The paths of a plain declaration are found. -/
theorem Decl.Plain.scan {decl : Decl} (h : decl.Plain) (deps : Finset (List Char)) :
    decl.lines.foldl scanLine ⟨deps, false⟩ = ⟨deps ∪ decl.paths.toFinset, false⟩ := by
  cases decl with
  | blank indent =>
    rw [Decl.paths, List.toFinset_nil, Finset.union_empty]
    exact scanLine_row_outside deps (.blank indent)
  | single decl =>
    obtain ⟨hspace, hspec, htrailer⟩ := h
    rw [Decl.lines, List.foldl_cons, List.foldl_nil, decl.scanLine_spaced deps hspace, hspec.add htrailer, Decl.paths,
      List.toFinset_cons, List.toFinset_nil, insert_empty_eq, Finset.union_comm, Finset.singleton_union]
  | block decl =>
    obtain ⟨hgap, ⟨first, middle, hrows, hfirst, hmiddle⟩, hlast, hclosing⟩ := h
    have hspace : decl.gap.chars.head? = some ' ' := by rw [hgap]; rfl
    have hheader : scanLine ⟨deps, false⟩ (decl.header first.text) = ⟨deps, true⟩ := by
      rcases decl.header_spaced deps hspace first.text with ⟨-, -, hopen⟩ | ⟨hnot, -⟩
      · exact hopen
      · exact absurd ⟨hgap, Row.trimEnd_eq_nil_iff.mpr hfirst⟩ hnot
    have hpaths : (Decl.block decl).paths = middle.flatMap Row.paths := by
      rw [Decl.paths, hrows, List.flatMap_cons, hfirst.paths, hlast.paths, List.nil_append, List.append_nil]
    rw [Decl.lines, ImportBlock.lines, hrows, hpaths]
    dsimp only
    rw [List.foldl_cons, hheader, List.foldl_append, rows_plain hmiddle, List.foldl_cons, List.foldl_nil,
      decl.footer_plain _ hlast hclosing]

/-- A declaration without a space behind its first word is skipped. -/
theorem Decl.Tight.scan {decl : Decl} (h : decl.Tight) (deps : Finset (List Char)) :
    decl.lines.foldl scanLine ⟨deps, false⟩ = ⟨deps, false⟩ := by
  cases decl with
  | blank indent => exact h.elim
  | single decl => exact decl.scanLine_tight deps h
  | block decl =>
    have hmiddle : ∀ rows : List Row, (rows.map Row.text).foldl scanLine ⟨deps, false⟩ = ⟨deps, false⟩ := by
      intro rows
      induction rows with
      | nil => rfl
      | cons row rows ih => rw [List.map_cons, List.foldl_cons, scanLine_row_outside, ih]
    rw [Decl.lines, ImportBlock.lines]
    cases decl.rows with
    | nil =>
      dsimp only
      rw [List.foldl_cons, decl.header_tight deps h, List.foldl_nil]
    | cons first middle =>
      dsimp only
      rw [List.foldl_cons, decl.header_tight deps h, List.foldl_append, hmiddle, List.foldl_cons, List.foldl_nil,
        scanLine_footer_outside]

/-- Any other declaration spoils what is found. -/
theorem Decl.spoiled {decl : Decl} (hplain : ¬ decl.Plain) (htight : ¬ decl.Tight) (deps : Finset (List Char)) :
    Spoiled (decl.lines.foldl scanLine ⟨deps, false⟩) := by
  cases decl with
  | blank indent => exact absurd trivial hplain
  | single decl =>
    have hspace : decl.gap.chars.head? = some ' ' := of_not_not htight
    rw [Decl.lines, List.foldl_cons, List.foldl_nil, decl.scanLine_spaced deps hspace]
    exact (garbles_of_not_plain fun h => hplain ⟨hspace, h⟩).spoiled _
  | block decl =>
    have hspace : decl.gap.chars.head? = some ' ' := of_not_not htight
    rw [Decl.lines, ImportBlock.lines]
    cases hrows : decl.rows with
    | nil =>
      dsimp only
      rw [List.foldl_cons, List.foldl_nil]
      rcases decl.header_spaced deps hspace decl.footer with ⟨-, hnil, -⟩ | ⟨-, hspoiled⟩
      · -- The block is closed in the same line.
        have hmem : ')' ∈ trimEnd decl.footer := mem_trimEnd (List.mem_append_right _ List.mem_cons_self) (by decide)
        rw [hnil] at hmem
        exact absurd hmem List.not_mem_nil
      · exact hspoiled
    | cons first middle =>
      dsimp only
      rw [List.foldl_cons, List.foldl_append, List.foldl_cons, List.foldl_nil]
      rcases decl.header_spaced deps hspace first.text with ⟨hgap, hnil, hopen⟩ | ⟨-, hspoiled⟩
      · rw [hopen]
        by_cases hmiddle : ∀ row ∈ middle, row.Plain
        · rw [rows_plain hmiddle]
          refine decl.footer_spoiled _ fun hfooter => hplain ⟨hgap, ⟨first, middle, hrows, ?_, hmiddle⟩, hfooter⟩
          exact Row.trimEnd_eq_nil_iff.mp hnil
        · exact (rows_spoiled hmiddle deps).mono (deps_subset_scanLine _ _)
      · exact (hspoiled.mono (deps_subset_foldl _ _)).mono (deps_subset_scanLine _ _)

/-- The paths of plain declarations are found, where the others are skipped. -/
theorem scan_decls {decls : List Decl} (hall : ∀ decl ∈ decls, decl.Plain ∨ decl.Tight) (deps : Finset (List Char)) :
    ∃ found, (decls.flatMap Decl.lines).foldl scanLine ⟨deps, false⟩ = ⟨found, false⟩ ∧
      ∀ path, path ∈ found ↔ path ∈ deps ∨ ∃ decl ∈ decls, decl.Plain ∧ path ∈ decl.paths := by
  induction decls generalizing deps with
  | nil =>
    refine ⟨deps, rfl, fun path => ?_⟩
    rw [or_iff_left]
    rintro ⟨decl, hdecl, -⟩
    exact absurd hdecl List.not_mem_nil
  | cons decl decls ih =>
    obtain ⟨hdecl, hall⟩ := List.forall_mem_cons.mp hall
    rw [List.flatMap_cons, List.foldl_append]
    by_cases hplain : decl.Plain
    · obtain ⟨found, hscan, hfound⟩ := ih hall (deps ∪ decl.paths.toFinset)
      rw [hplain.scan]
      refine ⟨found, hscan, fun path => ?_⟩
      rw [hfound, Finset.mem_union, List.mem_toFinset, List.exists_mem_cons_iff, or_assoc, and_iff_right hplain]
    · obtain ⟨found, hscan, hfound⟩ := ih hall deps
      rw [Decl.Tight.scan (hdecl.resolve_left hplain)]
      refine ⟨found, hscan, fun path => ?_⟩
      have hnot : ¬ (decl.Plain ∧ path ∈ decl.paths) := fun h => hplain h.1
      rw [hfound, List.exists_mem_cons_iff, or_iff_right hnot]

/-- Another declaration among them spoils what is found. -/
theorem spoiled_decls {decls : List Decl} (h : ¬ ∀ decl ∈ decls, decl.Plain ∨ decl.Tight) (deps : Finset (List Char)) :
    Spoiled ((decls.flatMap Decl.lines).foldl scanLine ⟨deps, false⟩) := by
  induction decls generalizing deps with
  | nil => exact absurd (fun decl hdecl => absurd hdecl List.not_mem_nil) h
  | cons decl decls ih =>
    rw [List.flatMap_cons, List.foldl_append]
    by_cases hplain : decl.Plain
    · rw [hplain.scan]
      exact ih (fun hall => h (List.forall_mem_cons.mpr ⟨Or.inl hplain, hall⟩)) _
    · by_cases htight : decl.Tight
      · rw [htight.scan]
        exact ih (fun hall => h (List.forall_mem_cons.mpr ⟨Or.inr htight, hall⟩)) _
      · exact (Decl.spoiled hplain htight deps).mono (deps_subset_foldl _ _)

/-! ## Sources -/

/-- Blanks have no line feed. -/
theorem Blanks.oneLine (blanks : Blanks) : '\n' ∉ blanks.chars :=
  fun h => absurd (blanks.blank _ h) (by decide)

/-- A name has no line feed. -/
theorem Identifier.oneLine (name : Identifier) : '\n' ∉ name.chars :=
  fun h => absurd (name.valid _ h) (by decide)

/-- An import has no line feed. -/
theorem ImportSpec.oneLine (spec : ImportSpec) : '\n' ∉ spec.text := by
  have hpath : '\n' ∉ spec.path.chars := fun h => absurd (spec.path.valid _ h) (by decide)
  have hquote : '\n' ≠ spec.quote := by
    rw [ImportSpec.quote]
    split <;> decide
  have hname : '\n' ∉ spec.nameText := by
    rw [ImportSpec.nameText]
    split
    · rename_i name gap _
      rw [List.mem_append, not_or]
      refine ⟨?_, gap.oneLine⟩
      cases name with
      | dot => exact (by decide : '\n' ∉ ['.'])
      | named name => exact name.oneLine
    · exact List.not_mem_nil
  simp only [ImportSpec.text, List.mem_append, List.mem_cons, List.not_mem_nil, or_false, not_or]
  exact ⟨hname, hquote, hpath, hquote⟩

/-- What follows in a line has no line feed. -/
theorem Trailer.oneLine (trailer : Trailer) : '\n' ∉ trailer.text := by
  rw [Trailer.text, List.mem_append, List.mem_append, List.mem_append, not_or, not_or, not_or]
  refine ⟨trailer.before.oneLine, ?_, trailer.after.oneLine, ?_⟩
  · split <;> decide
  · split
    · rename_i comment _
      simp only [List.mem_cons, not_or]
      exact ⟨by decide, by decide, comment.oneLine⟩
    · exact List.not_mem_nil

/-- A line of a block has no line feed. -/
theorem Row.oneLine (row : Row) : '\n' ∉ row.text := by
  cases row with
  | blank indent => exact indent.oneLine
  | specs indent first more trailer =>
    have hmore : '\n' ∉ moreText more := by
      rw [moreText, List.mem_flatMap]
      rintro ⟨⟨before, after, spec⟩, -, hmem⟩
      simp only [List.mem_append, List.mem_cons] at hmem
      rcases hmem with hbefore | hsemicolon | hafter | hspec
      · exact before.oneLine hbefore
      · exact absurd hsemicolon (by decide)
      · exact after.oneLine hafter
      · exact spec.oneLine hspec
    rw [Row.text, List.mem_append, List.mem_append, List.mem_append, not_or, not_or, not_or]
    exact ⟨indent.oneLine, first.oneLine, hmore, trailer.oneLine⟩

/-- The lines of a declaration are lines. -/
theorem Decl.oneLine (decl : Decl) : ∀ line ∈ decl.lines, '\n' ∉ line := by
  have hword : '\n' ∉ "import".toList := by decide
  cases decl with
  | blank indent => exact fun line hline => List.mem_singleton.mp hline ▸ indent.oneLine
  | single decl =>
    intro line hline
    rw [List.mem_singleton.mp hline, SingleImport.line]
    simp only [List.mem_append, not_or]
    exact ⟨decl.indent.oneLine, hword, decl.gap.oneLine, decl.spec.oneLine, decl.trailer.oneLine⟩
  | block decl =>
    have hheader : ∀ rest, '\n' ∉ rest → '\n' ∉ decl.header rest := by
      intro rest hrest
      rw [ImportBlock.header]
      simp only [List.mem_append, List.mem_cons, not_or]
      exact ⟨decl.indent.oneLine, hword, decl.gap.oneLine, by decide, hrest⟩
    have hfooter : '\n' ∉ decl.footer := by
      rw [ImportBlock.footer]
      simp only [List.mem_append, List.mem_cons, not_or]
      exact ⟨decl.last.oneLine, by decide, decl.closing.oneLine⟩
    intro line hline
    rw [Decl.lines, ImportBlock.lines] at hline
    cases hrows : decl.rows with
    | nil =>
      rw [hrows] at hline
      rw [List.mem_singleton.mp hline]
      exact hheader _ hfooter
    | cons first middle =>
      rw [hrows] at hline
      rcases List.mem_cons.mp hline with rfl | hline
      · exact hheader _ first.oneLine
      · rcases List.mem_append.mp hline with hmiddle | hlast
        · obtain ⟨row, -, rfl⟩ := List.mem_map.mp hmiddle
          exact row.oneLine
        · rw [List.mem_singleton.mp hlast]
          exact hfooter

/-- A package clause is one line. -/
theorem PackageClause.oneLine (clause : PackageClause) : '\n' ∉ clause.line := by
  rw [PackageClause.line]
  simp only [List.mem_append, not_or]
  exact ⟨clause.indent.oneLine, by decide, clause.gap.oneLine, clause.name.oneLine, clause.trailer.oneLine⟩

/-- A source is read declaration by declaration. -/
theorem inferGoImports_text (source : GoSource) :
    inferGoImports source.text = ((source.decls.flatMap Decl.lines).foldl scanLine ⟨∅, false⟩).deps := by
  have hsplit : source.text.splitOn '\n' = source.package.line :: source.decls.flatMap Decl.lines := by
    refine List.splitOn_intercalate '\n' (fun line hline => ?_) (List.cons_ne_nil _ _)
    rcases List.mem_cons.mp hline with rfl | hline
    · exact source.package.oneLine
    · obtain ⟨decl, -, hdecl⟩ := List.mem_flatMap.mp hline
      exact decl.oneLine line hdecl
  have hpackage : scanLine ⟨∅, false⟩ source.package.line = ⟨∅, false⟩ :=
    scanLine_outside ∅ (not_import_of_cons source.package.indent (by decide) (by decide) _)
  rw [inferGoImports_eq, hsplit, List.foldl_cons, hpackage]

/-- The characters of an imported path are those of paths. -/
theorem isPathChar_of_mem_paths {source : GoSource} {path : List Char} (hpath : path ∈ source.paths) {c : Char} (hc : c ∈ path) :
    isPathChar c = true := by
  have hrow : ∀ row : Row, path ∈ row.paths → isPathChar c = true := by
    intro row hrow
    cases row with
    | blank indent => exact absurd hrow List.not_mem_nil
    | specs indent first more trailer =>
      rcases List.mem_cons.mp hrow with rfl | hmore
      · exact first.path.valid c hc
      · obtain ⟨⟨before, after, spec⟩, -, rfl⟩ := List.mem_map.mp hmore
        exact spec.path.valid c hc
  obtain ⟨decl, -, hdecl⟩ := List.mem_flatMap.mp (List.mem_toFinset.mp hpath)
  cases decl with
  | blank indent => exact absurd hdecl List.not_mem_nil
  | single decl =>
    rw [List.mem_singleton.mp hdecl] at hc
    exact decl.spec.path.valid c hc
  | block decl =>
    rcases List.mem_append.mp hdecl with hrows | hlast
    · obtain ⟨row, -, hmem⟩ := List.mem_flatMap.mp hrows
      exact hrow row hmem
    · exact hrow decl.last hlast

/-- The imported paths of a source are found exactly when its declarations are laid out as expected. -/
theorem inferGoImports_eq_paths_iff (source : GoSource) : inferGoImports source.text = source.paths ↔ source.Expected := by
  have hpaths : ∀ path, path ∈ source.paths ↔ ∃ decl ∈ source.decls, path ∈ decl.paths := by
    intro path
    rw [GoSource.paths, List.mem_toFinset, List.mem_flatMap]
  rw [inferGoImports_text]
  by_cases hall : ∀ decl ∈ source.decls, decl.Plain ∨ decl.Tight
  · obtain ⟨found, hscan, hfound⟩ := scan_decls hall ∅
    rw [hscan, GoSource.Expected, and_iff_right hall]
    constructor
    · rintro rfl decl hdecl - path hpath
      exact ((hfound path).mp ((hpaths path).mpr ⟨decl, hdecl, hpath⟩)).resolve_left (Finset.notMem_empty path)
    · intro htight
      refine Finset.ext fun path => (hfound path).trans ?_
      rw [or_iff_right (Finset.notMem_empty path), hpaths]
      constructor
      · rintro ⟨decl, hdecl, -, hpath⟩
        exact ⟨decl, hdecl, hpath⟩
      · rintro ⟨decl, hdecl, hpath⟩
        rcases hall decl hdecl with hplain | hskipped
        · exact ⟨decl, hdecl, hplain, hpath⟩
        · exact htight decl hdecl hskipped path hpath
  · refine iff_of_false (fun heq => ?_) fun hexpected => hall hexpected.1
    obtain ⟨bad, hbad, c, hc, hchar⟩ := spoiled_decls hall ∅
    rw [heq] at hbad
    exact absurd (isPathChar_of_mem_paths hbad hc) (by rw [hchar]; exact Bool.false_ne_true)

/-- No blanks. -/
def noBlanks : Blanks := ⟨[], List.forall_mem_nil _⟩

/-- A single blank. -/
def oneBlank : Blanks := ⟨[' '], List.all_eq_true.mp (by decide)⟩

/-- A path in a source. -/
def fmtPath : ImportPath := ⟨"fmt".toList, by decide, List.all_eq_true.mp (by decide)⟩

/-- A source that imports a package under a name of its own. -/
def aliasSource : GoSource where
  package := ⟨noBlanks, oneBlank, ⟨"main".toList, by decide, List.all_eq_true.mp (by decide), by decide⟩, by decide,
    ⟨noBlanks, false, noBlanks, none⟩⟩
  decls := [.single ⟨noBlanks, oneBlank,
    ⟨some (.named ⟨"f".toList, by decide, List.all_eq_true.mp (by decide), by decide⟩, oneBlank), false, fmtPath⟩,
    ⟨noBlanks, false, noBlanks, none⟩, fun _ _ _ => by decide⟩]

/-- Its text. -/
example : aliasSource.text = "package main\nimport f \"fmt\"".toList := by decide

/-- The name and the quote in front of the path are found with it. -/
theorem inferGoImports_alias : ¬ ∀ source : GoSource, inferGoImports source.text = source.paths := by
  intro h
  have hfound := h aliasSource
  revert hfound
  decide

end Forge.Incremental.Inference
