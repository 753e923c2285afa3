import Forge.Cli.Semantic

/-!
# What normalisation keeps

For a source that is read as it is meant, the normalised text consists of the trimmed lines of
the source without its comments. These have the words of the source, so sources with the same
normalised text have the same tokens.
-/

namespace Forge.Cli

open Forge.Common

/-! ## Comments of C -/

/-- A character outside comments and strings that does not open a comment. -/
theorem dropComments_code {c : Char} {s : List Char} (h : c = '/' → ∀ d, s.head? = some d → d ≠ '/' ∧ d ≠ '*') :
    dropComments .code (c :: s) = c :: dropComments (if c ∈ stringChars then .string c else .code) s := by
  rw [dropComments]
  · rintro rest rfl rfl
    exact (h rfl '/' rfl).1 rfl
  · rintro rest rfl rfl
    exact (h rfl '*' rfl).2 rfl

/-- A line comment is dropped to the end of its line. -/
theorem dropComments_lineComment {body : List Char} (hbody : '\n' ∉ body) {rest : List Char}
    (hrest : ∀ c, rest.head? = some c → c = '\n') :
    dropComments .lineComment (body ++ rest) = dropComments .code rest := by
  induction body with
  | nil =>
    cases rest with
    | nil => rfl
    | cons c rest =>
      obtain rfl := hrest c rfl
      rw [List.nil_append, dropComments, dropComments_code fun h => absurd h (by decide), if_neg (by decide)]
  | cons c body ih =>
    obtain ⟨hc, hbody⟩ := List.ne_and_not_mem_of_not_mem_cons hbody
    rw [List.cons_append, dropComments, ih hbody]
    exact fun h => hc h.symm

/-- A block comment is dropped to its first end mark. -/
theorem dropComments_blockComment {body : List Char} (hbody : ¬ ['*', '/'] <:+: body ++ ['*']) (rest : List Char) :
    dropComments .blockComment (body ++ '*' :: '/' :: rest) = dropComments .code rest := by
  induction body with
  | nil => rw [List.nil_append, dropComments]
  | cons c body ih =>
    have hend : ¬ ['*', '/'] <:+: body ++ ['*'] := fun h => hbody (h.trans (List.suffix_cons c _).isInfix)
    rw [List.cons_append, dropComments, ih hend]
    rintro chars rfl hchars
    apply hbody
    rcases body with _ | ⟨d, body⟩
    · cases hchars
    · obtain ⟨rfl, -⟩ := List.cons.inj hchars
      exact ⟨[], body ++ ['*'], rfl⟩

/-- Take the comments out of what is behind a text with quotes. -/
def dropCommentsFrom : QuoteMode → List Char → List Char
  | .outside, s => dropComments .code s
  | .inside quote, s => dropComments (.string quote) s
  | .escaped _, [] => []
  | .escaped quote, c :: s => c :: dropComments (.string quote) s

/-- A character is kept, and the quotes are followed. -/
theorem dropCommentsFrom_cons {m : QuoteMode} {c : Char} {s : List Char}
    (h : m = .outside → c = '/' → ∀ d, s.head? = some d → d ≠ '/' ∧ d ≠ '*') :
    dropCommentsFrom m (c :: s) = c :: dropCommentsFrom (m.step stringChars c) s := by
  cases m with
  | outside =>
    rw [dropCommentsFrom, dropComments_code (h rfl), QuoteMode.step]
    split <;> rfl
  | escaped quote => rfl
  | inside quote =>
    rw [dropCommentsFrom, QuoteMode.step]
    by_cases hescape : c = '\\'
    · subst hescape
      rw [if_pos rfl]
      cases s with
      | nil =>
        rw [dropComments, dropCommentsFrom]
        · split <;> rfl
        · exact fun _ _ _ h => nomatch h
      | cons d s => rw [dropComments, dropCommentsFrom]
    · rw [if_neg hescape, dropComments]
      · split <;> rfl
      · exact fun _ _ h _ => hescape h

/-- A text without marks of comments outside quotes is kept. -/
theorem dropCommentsFrom_append {m : QuoteMode} {s rest : List Char}
    (h : ∀ before behind, s = before ++ '/' :: behind → m.after stringChars before = .outside →
      ∀ c, (behind ++ rest).head? = some c → c ≠ '/' ∧ c ≠ '*') :
    dropCommentsFrom m (s ++ rest) = s ++ dropCommentsFrom (m.after stringChars s) rest := by
  induction s generalizing m with
  | nil => rfl
  | cons c s ih =>
    rw [List.cons_append, dropCommentsFrom_cons, ih fun before behind hs hafter => ?_]
    · rfl
    · exact h (c :: before) behind (by rw [hs]; rfl) hafter
    · rintro rfl rfl
      exact h [] s rfl rfl

/-! ## The source without its comments -/

/-- The text of parts without their comments. -/
def deletedText (pieces : List Piece) : List Char :=
  (pieces.flatMap Piece.deleted).map Prod.fst

/-- The comments are left out. -/
theorem deletedText_cons (piece : Piece) (pieces : List Piece) :
    deletedText (piece :: pieces) = piece.deleted.map Prod.fst ++ deletedText pieces := by
  rw [deletedText, List.flatMap_cons, List.map_append]
  rfl

/-- A literal is kept. -/
theorem map_fst_literal (text : List Char) : (Piece.literal text).deleted.map Prod.fst = text := by
  rw [Piece.deleted, List.map_map]
  exact List.map_id text

/-- The scan leaves the source without its comments. -/
theorem dropCommentsFrom_textOf {m : QuoteMode} {pieces : List Piece} (hcomments : CComments m pieces) :
    dropCommentsFrom m (textOf pieces) = deletedText pieces := by
  induction pieces generalizing m with
  | nil => cases m <;> rfl
  | cons piece pieces ih =>
    have htext : textOf (piece :: pieces) = piece.text ++ textOf pieces := rfl
    rw [htext, deletedText_cons]
    cases piece with
    | code c =>
      obtain ⟨hcomment, hrest⟩ := hcomments
      rw [dropCommentsFrom_append hcomment, ih hrest]
      rfl
    | literal text =>
      obtain ⟨hcomment, hrest⟩ := hcomments
      rw [dropCommentsFrom_append hcomment, ih hrest, map_fst_literal]
      rfl
    | comment text =>
      obtain ⟨rfl, hcomment, hrest⟩ := hcomments
      rw [← ih hrest]
      obtain ⟨body, rfl, hbody, hbehind⟩ | ⟨body, rfl, hbody⟩ := hcomment
      · exact dropComments_lineComment hbody hbehind
      · have hblock := dropComments_blockComment hbody (textOf pieces)
        rw [Piece.text, List.append_assoc]
        exact hblock

/-! ## Normalised texts -/

/-- The trimmed lines of a text are not empty, and there is no line break in them. -/
theorem mem_trimmedLines {s line : List Char} (h : line ∈ trimmedLines s) : line ≠ [] ∧ '\n' ∉ line := by
  rw [trimmedLines_eq] at h
  obtain ⟨hmem, hne⟩ := List.mem_filter.mp h
  obtain ⟨piece, hpiece, rfl⟩ := List.mem_map.mp hmem
  obtain ⟨before, behind, heq, -⟩ := exists_eq_trim piece
  refine ⟨of_decide_eq_true hne, fun hbreak => notMem_of_mem_splitOn hpiece ?_⟩
  rw [heq]
  exact List.mem_append_left _ (List.mem_append_right _ hbreak)

/-- Lines can be told from their text. -/
theorem eq_of_intercalate {ls ls' : List (List Char)} (hls : ∀ line ∈ ls, line ≠ [] ∧ '\n' ∉ line)
    (hls' : ∀ line ∈ ls', line ≠ [] ∧ '\n' ∉ line) (h : ['\n'].intercalate ls = ['\n'].intercalate ls') : ls = ls' := by
  have hsplit {ls : List (List Char)} (hls : ∀ line ∈ ls, line ≠ [] ∧ '\n' ∉ line) :
      ls = ((['\n'].intercalate ls).splitOn '\n').filter (· ≠ []) := by
    by_cases hnil : ls = []
    · subst hnil
      decide
    · rw [List.splitOn_intercalate '\n' (fun line hline => (hls line hline).2) hnil]
      exact (List.filter_eq_self.mpr fun line hline => decide_eq_true (hls line hline).1).symm
  rw [hsplit hls, h, ← hsplit hls']

variable {σ : Type*} {lexis : Lexis} {reader : WordReader σ} {source source' : List Char}

/-- Sources whose literals are read as they are meant have the same words when their comments are gone, if
what is left has the same trimmed lines. -/
theorem PlainLiterals.wordLines_eq (h : PlainLiterals lexis reader source) (h' : PlainLiterals lexis reader source')
    (hsame : ['\n'].intercalate (trimmedLines (deletedText (lexis.pieces source))) =
      ['\n'].intercalate (trimmedLines (deletedText (lexis.pieces source')))) :
    wordLines (lexis.deleted source) = wordLines (lexis.deleted source') := by
  have hlines := eq_of_intercalate (fun _ hline => mem_trimmedLines hline) (fun _ hline => mem_trimmedLines hline) hsame
  rw [wordLines_trimmedLines h.told h.tight, wordLines_trimmedLines h'.told h'.tight]
  exact congrArg (fun ls => wordLines (reader.marked reader.start (unlines ls))) hlines

/-- Sources of a language with the comments of C that are read as they are meant have the same tokens if
they have the same normalised text. -/
theorem tokenSequence_eq_of_cStyle (h : CleanCStyle lexis reader source) (h' : CleanCStyle lexis reader source')
    (hsame : stripCStyle source = stripCStyle source') : lexis.tokenSequence source = lexis.tokenSequence source' := by
  have htext {source : List Char} (h : CleanCStyle lexis reader source) :
      stripCStyle source = ['\n'].intercalate (trimmedLines (deletedText (lexis.pieces source))) := by
    have hscan := dropCommentsFrom_textOf h.comments
    rw [lexis.lossless] at hscan
    exact congrArg (fun s => ['\n'].intercalate (trimmedLines s)) hscan
  rw [htext h, htext h'] at hsame
  rw [← h.apart, ← h'.apart, h.toPlainLiterals.wordLines_eq h'.toPlainLiterals hsame]

/-! ## Comments of Python -/

/-- Take out what is behind number signs. -/
def dropNumberSigns : Bool → List Char → List Char
  | _, [] => []
  | false, c :: s => if c = '#' then dropNumberSigns true s else c :: dropNumberSigns false s
  | true, c :: s => if c = '\n' then c :: dropNumberSigns false s else dropNumberSigns true s

/-- A text without number signs is kept. -/
theorem dropNumberSigns_append {s : List Char} (hs : '#' ∉ s) (rest : List Char) :
    dropNumberSigns false (s ++ rest) = s ++ dropNumberSigns false rest := by
  induction s with
  | nil => rfl
  | cons c s ih =>
    obtain ⟨hc, hs⟩ := List.ne_and_not_mem_of_not_mem_cons hs
    rw [List.cons_append, dropNumberSigns, if_neg fun h => hc h.symm, ih hs]
    rfl

/-- A comment is dropped to the end of its line. -/
theorem dropNumberSigns_comment {body : List Char} (hbody : '\n' ∉ body) {rest : List Char}
    (hrest : ∀ c, rest.head? = some c → c = '\n') :
    dropNumberSigns true (body ++ rest) = dropNumberSigns false rest := by
  induction body with
  | nil =>
    cases rest with
    | nil => rfl
    | cons c rest =>
      obtain rfl := hrest c rfl
      rfl
  | cons c body ih =>
    obtain ⟨hc, hbody⟩ := List.ne_and_not_mem_of_not_mem_cons hbody
    rw [List.cons_append, dropNumberSigns, if_neg fun h => hc h.symm, ih hbody]

/-- A comment of Python is in front of a line break, if there is anything behind it. -/
theorem head?_textOf {pieces : List Piece} (h : ∀ piece, pieces.head? = some piece → piece = .code '\n') :
    ∀ c, (textOf pieces).head? = some c → c = '\n' := by
  cases pieces with
  | nil => exact nofun
  | cons piece pieces =>
    rw [h piece rfl]
    rintro c ⟨⟩
    rfl

/-- What is left of a source of Python is the source without its comments. -/
theorem dropNumberSigns_textOf {pieces : List Piece} (hcomments : PythonComments pieces) :
    dropNumberSigns false (textOf pieces) = deletedText pieces := by
  induction pieces with
  | nil => rfl
  | cons piece pieces ih =>
    have htext : textOf (piece :: pieces) = piece.text ++ textOf pieces := rfl
    rw [htext, deletedText_cons]
    cases piece with
    | code c =>
      rw [dropNumberSigns_append hcomments.1, ih hcomments.2]
      rfl
    | literal text =>
      rw [dropNumberSigns_append hcomments.1, ih hcomments.2, map_fst_literal]
      rfl
    | comment text =>
      obtain ⟨⟨body, rfl, hbody⟩, hbehind, hrest⟩ := hcomments
      rw [← ih hrest]
      exact dropNumberSigns_comment hbody (head?_textOf hbehind)

/-- A line in front of its number sign. -/
def cutLine (line : List Char) : List Char := line.takeWhile (· ≠ '#')

/-- The lines of what is left are cut at their number signs. -/
theorem splitOn_dropNumberSigns (s : List Char) :
    (dropNumberSigns false s).splitOn '\n' = (s.splitOn '\n').map cutLine ∧
      (dropNumberSigns true s).splitOn '\n' = [] :: ((s.splitOn '\n').map cutLine).tail := by
  induction s with
  | nil => exact ⟨rfl, rfl⟩
  | cons c s ih =>
    obtain ⟨hcode, hcomment⟩ := ih
    obtain ⟨line, rest, hsplit⟩ := List.exists_cons_of_ne_nil (List.splitOn_ne_nil '\n' s)
    rw [hsplit] at hcode hcomment
    rw [dropNumberSigns, dropNumberSigns, List.splitOn_cons_eq_if_modifyHead, hsplit]
    by_cases hbreak : c = '\n'
    · subst hbreak
      have hmark : ¬ '\n' = '#' := by decide
      rw [if_neg hmark, if_pos rfl, List.splitOn_cons_eq_if_modifyHead, hcode]
      exact ⟨rfl, rfl⟩
    · have hne : ¬ (c == '\n') = true := fun h => hbreak (eq_of_beq h)
      rw [if_neg hne, if_neg hbreak, hcomment]
      by_cases hmark : c = '#'
      · subst hmark
        rw [if_pos rfl, hcomment]
        exact ⟨rfl, rfl⟩
      · rw [if_neg hmark, List.splitOn_cons_eq_if_modifyHead, if_neg hne, hcode]
        simp [cutLine, hmark]

/-- A line is cut at its first number sign. -/
theorem cutLine_append {before : List Char} (hbefore : '#' ∉ before) (rest : List Char) :
    cutLine (before ++ '#' :: rest) = before := by
  have hall : ∀ c ∈ before, decide (c ≠ '#') = true := fun c hc => decide_eq_true fun h => hbefore (h ▸ hc)
  rw [cutLine, List.takeWhile_append_of_pos hall, List.takeWhile_cons_of_neg (by simp), List.append_nil]

/-- A line of Python is normalised to what is in front of its number sign. -/
theorem stripPythonLine_eq (line : List Char) :
    stripPythonLine line = if trim (cutLine line) = [] then none else some (trim (cutLine line)) := by
  obtain ⟨before, behind, heq, hbefore, hbehind⟩ := exists_eq_trim line
  have hmark {s : List Char} (hs : ∀ c ∈ s, isWhitespace c = true) : '#' ∉ s :=
    fun h => absurd (hs _ h) (by decide)
  unfold stripPythonLine
  by_cases hnumber : '#' ∈ line
  · have hne : trim line ≠ [] := fun h => hmark (trim_eq_nil_iff.mp h) hnumber
    by_cases hstart : (trim line).head? = some '#'
    · -- The number sign is the first character that is no white space.
      obtain ⟨rest, hrest⟩ : ∃ rest, trim line = '#' :: rest := by
        obtain ⟨c, rest, hrest⟩ := List.exists_cons_of_ne_nil hne
        rw [hrest] at hstart
        exact ⟨rest, hrest.trans (by rw [Option.some.inj hstart])⟩
      have hcut : cutLine line = before := by
        rw [heq, hrest, List.append_assoc, List.cons_append]
        exact cutLine_append (hmark hbefore) _
      rw [if_pos (.inl hstart), hcut, if_pos (trim_eq_nil_iff.mpr hbefore)]
    · have hcut : trim (cutLine line) ≠ [] := by
        intro hblank
        obtain ⟨front, rest, hfirst, hline⟩ : ∃ front rest, '#' ∉ front ∧ line = front ++ '#' :: rest :=
          List.eq_append_cons_of_mem hnumber |>.imp fun _ h => h.imp fun _ h => ⟨h.2, h.1⟩
        rw [hline, cutLine_append hfirst, trim_eq_nil_iff] at hblank
        have htrim : trim line = trim ('#' :: rest) := by
          rw [hline]
          exact trimMatches_append_left hblank
        apply hstart
        rw [htrim, trim_eq_trimEnd fun c hc => by rw [← Option.some.inj hc]; rfl]
        exact congrArg List.head? (@trimEnd_append [] '#' (by decide) rest)
      rw [if_neg (not_or.mpr ⟨hstart, hne⟩), if_pos hnumber, if_neg hcut]
      rfl
  · have hcut : cutLine line = line := List.takeWhile_eq_self_iff.mpr fun c hc => decide_eq_true fun h => hnumber (h ▸ hc)
    have hstart : (trim line).head? ≠ some '#' := by
      intro hhead
      apply hnumber
      rw [heq]
      exact List.mem_append_left _ (List.mem_append_right _ (List.mem_of_mem_head? hhead))
    rw [hcut, if_neg hnumber]
    by_cases hempty : trim line = []
    · rw [if_pos (.inr hempty), if_pos hempty]
    · rw [if_neg (not_or.mpr ⟨hstart, hempty⟩), if_neg hempty]

/-- A carriage return at the end of a line does not count. -/
theorem trim_cutLine_dropReturn (line : List Char) : trim (cutLine (dropReturn line)) = trim (cutLine line) := by
  obtain heq | ⟨-, hself⟩ := dropReturn_cases line
  · generalize dropReturn line = text at heq
    subst heq
    by_cases hnumber : '#' ∈ text
    · obtain ⟨front, rest, rfl, hfirst⟩ := List.eq_append_cons_of_mem hnumber
      rw [List.append_assoc, List.cons_append, cutLine_append hfirst, cutLine_append hfirst]
    · have hkeep (s : List Char) (hs : '#' ∉ s) : cutLine s = s :=
        List.takeWhile_eq_self_iff.mpr fun c hc => decide_eq_true fun h => hs (h ▸ hc)
      have hreturn : '#' ∉ text ++ ['\r'] := by simpa using hnumber
      rw [hkeep _ hnumber, hkeep _ hreturn]
      exact (trimMatches_append_right (List.forall_mem_singleton.mpr (by decide))).symm
  · rw [hself]

/-- A source of Python is normalised to the trimmed lines of what is left without its comments. -/
theorem stripPythonStyle_eq (source : List Char) :
    stripPythonStyle source = ['\n'].intercalate (trimmedLines (dropNumberSigns false source)) := by
  have hlines : (lines source).filterMap stripPythonLine = (source.splitOn '\n').filterMap stripPythonLine :=
    filterMap_lines (fun line => by rw [stripPythonLine_eq, stripPythonLine_eq, trim_cutLine_dropReturn]) rfl source
  rw [stripPythonStyle, hlines, trimmedLines_eq, (splitOn_dropNumberSigns source).1, filter_map_trim, List.filterMap_map]
  exact congrArg (fun f => ['\n'].intercalate ((source.splitOn '\n').filterMap f)) (funext stripPythonLine_eq)

/-! ## Words of Python -/

/-- The comments of Python are at the ends of lines: the words are the same without them. -/
theorem wordLines_spaced (hcomments : PythonComments (lexis.pieces source)) :
    wordLines (lexis.spaced source) = wordLines (lexis.deleted source) := by
  have hcore (pieces : List Piece) (hcomments : PythonComments pieces) (l : Layout) :
      ((pieces.flatMap Piece.spaced).foldl Layout.step l).endLine.core =
        ((pieces.flatMap Piece.deleted).foldl Layout.step l).endLine.core := by
    induction pieces generalizing l with
    | nil => rfl
    | cons piece pieces ih =>
      rw [List.flatMap_cons, List.flatMap_cons, List.foldl_append, List.foldl_append]
      cases piece with
      | code c => exact ih hcomments.2 _
      | literal text => exact ih hcomments.2 _
      | comment text =>
        obtain ⟨⟨body, rfl, hbody⟩, hbehind, hrest⟩ := hcomments
        have hspace : (Piece.comment ('#' :: body)).spaced = [(' ', true)] := by
          have hbreak : '\n' ∉ '#' :: body := List.not_mem_cons_of_ne_of_not_mem (by decide) hbody
          rw [Piece.spaced, if_neg hbreak]
        rw [hspace, ih hrest]
        -- The space is at the end of the line.
        have hblank : (l.step (' ', true)).endLine.core = l.endLine.core :=
          @Layout.core_separators_endLine l [' '] (by decide)
        cases pieces with
        | nil => exact hblank
        | cons piece pieces =>
          rw [hbehind piece rfl]
          exact Layout.core_endLine (Layout.core_foldl hblank _)
  exact (Prod.mk.inj (hcore (lexis.pieces source) hcomments .start)).1

/-- Sources of Python that are read as they are meant and whose indentation does not count have the same
tokens and the same indentation if they have the same normalised text. -/
theorem same_of_python (h : CleanPython lexis reader source) (h' : CleanPython lexis reader source')
    (hsame : stripPythonStyle source = stripPythonStyle source') :
    lexis.tokenSequence source = lexis.tokenSequence source' ∧ lexis.indentation source = lexis.indentation source' := by
  have htext {source : List Char} (h : CleanPython lexis reader source) :
      stripPythonStyle source = ['\n'].intercalate (trimmedLines (deletedText (lexis.pieces source))) := by
    rw [stripPythonStyle_eq, ← dropNumberSigns_textOf h.comments, lexis.lossless]
  rw [htext h, htext h'] at hsame
  have hwords : wordLines (lexis.spaced source) = wordLines (lexis.spaced source') := by
    rw [wordLines_spaced h.comments, wordLines_spaced h'.comments,
      h.toPlainLiterals.wordLines_eq h'.toPlainLiterals hsame]
  refine ⟨congrArg lexis.tokens hwords, ?_⟩
  rw [h.unindented, h'.unindented, hwords]

/-! ## Sources with the same normalised text -/

/-- Sources that are read as they are meant have the same tokens if they have the same normalised text,
and sources of Python have the same indentation, too. -/
theorem kept_of_clean (lexis : Lexis) (reader : WordReader σ) {lang : SourceLanguage} (hlang : lang ≠ .unknown)
    {source source' : List Char} (h : Clean lexis reader source lang) (h' : Clean lexis reader source' lang) :
    Kept lexis lang source source' := by
  intro hsame
  cases lang with
  | unknown => exact absurd rfl hlang
  | python =>
    obtain ⟨htokens, hindentation⟩ := same_of_python h h' hsame
    exact ⟨htokens, fun _ => hindentation⟩
  | rust | c | cpp | go | typeScript | javaScript | zig => exact ⟨tokenSequence_eq_of_cStyle h h' hsame, nofun⟩

/-- A language for which the parts of some sources are listed. Its tokens have white space between them,
and the indentation of all its lines counts. -/
def Lexis.ofParts (listed : List (List Piece)) : Lexis where
  pieces source := (listed.find? fun pieces => textOf pieces = source).getD (source.map .code)
  lossless source := by
    cases hfound : listed.find? fun pieces => textOf pieces = source with
    | some pieces => exact of_decide_eq_true (@List.find?_some _ (fun pieces => decide (textOf pieces = source)) _ _ hfound)
    | none =>
      rw [Option.getD_none, textOf, List.flatMap_map]
      exact List.flatMap_singleton' source
  tokens := List.flatten
  indents := List.map Prod.fst

/-- The parts of an assignment of a string, with a comment behind it or without one. -/
def assignment (comments : List Piece) : List Piece :=
  "s = ".toList.map .code ++ .literal "\"a b\"".toList :: comments ++ [.code '\n']

/-- A comment behind an assignment. -/
def remark : Piece := .comment "// one".toList

/-- A language in which an assignment is read as it is meant. -/
def assignments : Lexis := .ofParts [assignment [], assignment [remark]]

/-- A reader of the strings of JavaScript. -/
def stringReader : WordReader QuoteMode := quoteReader stringChars (by simp [stringChars, isWhitespace])

/-- An assignment is read as it is meant. -/
theorem clean_assignment {comments : List Piece} (hcomments : comments = [] ∨ comments = [remark]) :
    Clean assignments stringReader (textOf (assignment comments)) .javaScript := by
  have hpieces : assignments.pieces (textOf (assignment comments)) = assignment comments := by
    rcases hcomments with rfl | rfl <;> decide
  have hnone {m : QuoteMode} {text rest : List Char} (h : '/' ∉ text) : NoCComment m text rest := by
    rintro before behind rfl
    exact absurd (List.mem_append_right _ List.mem_cons_self) h
  refine ⟨⟨?_, ?_⟩, ?_, ?_⟩
  · rcases hcomments with rfl | rfl
    all_goals
      unfold WordReader.Tells
      decide
  · rcases hcomments with rfl | rfl
    all_goals
      unfold Tight
      decide
  · rw [hpieces]
    rcases hcomments with rfl | rfl
    · refine ⟨hnone ?_, hnone ?_, hnone ?_, hnone ?_, hnone ?_, hnone ?_, trivial⟩ <;> decide
    · refine ⟨hnone ?_, hnone ?_, hnone ?_, hnone ?_, hnone ?_, ⟨rfl, .inl ⟨" one".toList, rfl, ?_, ?_⟩, hnone ?_, trivial⟩⟩
      case refine_7 => rintro c ⟨⟩; rfl
      all_goals decide
  · rcases hcomments with rfl | rfl <;> decide

/-- A comment behind an assignment does not change its tokens. -/
theorem kept_of_clean_remark :
    assignments.tokenSequence (textOf (assignment [remark])) = assignments.tokenSequence (textOf (assignment [])) :=
  (kept_of_clean assignments stringReader (by decide) (clean_assignment (.inr rfl)) (clean_assignment (.inl rfl))
    (by decide)).1

/-- An assignment of a string of Python with a number sign in it. -/
def numberSign (c : Char) : List Piece :=
  "s = ".toList.map .code ++ [.literal ['"', '#', c, '"']]

/-- Statements of Python can be moved into a block, what is behind a number sign in a string does not count,
and a comment of JavaScript can keep two words apart. -/
theorem not_kept :
    ¬ Kept (.ofParts []) .python "while a :\n  b\nc".toList "while a :\n  b\n  c".toList ∧
      ¬ Kept (.ofParts [numberSign 'a', numberSign 'b']) .python (textOf (numberSign 'a')) (textOf (numberSign 'b')) ∧
      ¬ Kept (.ofParts ["typeof".toList.map .code ++ [.comment "/**/".toList, .code 'x']]) .javaScript
        "typeof/**/x".toList "typeofx".toList := by
  refine ⟨fun hkept => ?_, fun hkept => ?_, fun hkept => ?_⟩
  · exact absurd ((hkept (by decide)).2 rfl) (by decide)
  · exact absurd (hkept (by decide)).1 (by decide)
  · exact absurd (hkept (by decide)).1 (by decide)

end Forge.Cli
