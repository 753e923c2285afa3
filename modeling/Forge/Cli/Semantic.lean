import Forge.Common.QuotedText

/-!
# The normalisation of sources

A source is normalised before it is hashed, so that comments and layout do not count. Comments
are taken out without leaving a space, every line is trimmed, also in a literal, and empty
lines are dropped. Quotes are matched in the same way for all languages that look like C, and
for Python a number sign starts a comment wherever it is.

What a language makes of a source is a parameter: which parts of it are comments and literals,
the tokens of its words, and the indentation that counts. A comment counts as white space.
-/

namespace Forge.Cli

open Forge.Common

/-- The language of a source. -/
inductive SourceLanguage where
  | rust
  | c
  | cpp
  | go
  | typeScript
  | javaScript
  | python
  | zig
  | unknown
deriving DecidableEq, Repr

/-! ## Normalisation -/

/-- Where the scan of a source is. -/
inductive ScanMode where
  | code
  | string (stringChar : Char)
  | lineComment
  | blockComment

/-- The characters that open and close strings. -/
def stringChars : List Char := ['"', '\'', '`']

/-- Take the comments out of a source. In a string, a backslash takes the next character along. -/
def dropComments : ScanMode → List Char → List Char
  | .lineComment, '\n' :: chars => '\n' :: dropComments .code chars
  | .lineComment, _ :: chars => dropComments .lineComment chars
  | .blockComment, '*' :: '/' :: chars => dropComments .code chars
  | .blockComment, _ :: chars => dropComments .blockComment chars
  | .string stringChar, '\\' :: next :: chars => '\\' :: next :: dropComments (.string stringChar) chars
  | .string stringChar, ch :: chars => ch :: dropComments (if ch = stringChar then .code else .string stringChar) chars
  | .code, '/' :: '/' :: chars => dropComments .lineComment chars
  | .code, '/' :: '*' :: chars => dropComments .blockComment chars
  | .code, ch :: chars => ch :: dropComments (if ch ∈ stringChars then .string ch else .code) chars
  | _, [] => []

/-- Normalise a source with the comments of C. -/
def stripCStyle (source : List Char) : List Char :=
  ['\n'].intercalate (trimmedLines (dropComments .code source))

/-- Normalise a line of Python, if there is something on it. -/
def stripPythonLine (line : List Char) : Option (List Char) :=
  if (trim line).head? = some '#' ∨ trim line = [] then none
  else if '#' ∈ line then some (trim (line.takeWhile (· ≠ '#')))
  else some (trim line)

/-- Normalise a source with the comments of Python. -/
def stripPythonStyle (source : List Char) : List Char :=
  ['\n'].intercalate ((lines source).filterMap stripPythonLine)

/-- Normalise a source. -/
def stripCommentsAndWhitespace (source : List Char) : SourceLanguage → List Char
  | .rust | .c | .cpp | .go | .typeScript | .javaScript | .zig => stripCStyle source
  | .python => stripPythonStyle source
  | .unknown => [' '].intercalate (splitWhitespace source)

/-! ## Languages -/

/-- A part of a source in a language: a comment, a literal, or a character of anything else. -/
inductive Piece where
  | code (c : Char)
  | literal (text : List Char)
  | comment (text : List Char)
deriving DecidableEq

/-- The text of a part. -/
def Piece.text : Piece → List Char
  | .code c => [c]
  | .literal text => text
  | .comment text => text

/-- The text of parts. -/
def textOf (pieces : List Piece) : List Char :=
  pieces.flatMap Piece.text

/-- A part with white space for a comment, which breaks the line if the comment does. White space separates
words where it is not in a literal. -/
def Piece.spaced : Piece → List (Char × Bool)
  | .code c => [(c, isWhitespace c)]
  | .literal text => text.map (·, false)
  | .comment text => [(if '\n' ∈ text then '\n' else ' ', true)]

/-- A part with nothing for a comment. -/
def Piece.deleted : Piece → List (Char × Bool)
  | .code c => [(c, isWhitespace c)]
  | .literal text => text.map (·, false)
  | .comment _ => []

/-- What a language makes of sources: the parts of a source, the tokens of the words in its lines, and the
indentation that counts of its lines. -/
structure Lexis where
  pieces : List Char → List Piece
  lossless : ∀ source, textOf (pieces source) = source
  tokens : List (List (List Char)) → List (List Char)
  indents : List (List Char × List (List Char)) → List (List Char)

namespace Lexis

variable (lexis : Lexis) (source : List Char)

/-- The source with white space for its comments. -/
def spaced : List (Char × Bool) := (lexis.pieces source).flatMap Piece.spaced

/-- The source with nothing for its comments. -/
def deleted : List (Char × Bool) := (lexis.pieces source).flatMap Piece.deleted

/-- The tokens of a source without its comments and empty lines. -/
def tokenSequence : List (List Char) := lexis.tokens (wordLines (lexis.spaced source))

/-- The indentation that counts of a source without its comments and empty lines. -/
def indentation : List (List Char) := lexis.indents (layout (lexis.spaced source))

end Lexis

/-- Two sources with the same normalised text have the same tokens, and for Python the same indentation. -/
def Kept (lexis : Lexis) (lang : SourceLanguage) (source source' : List Char) : Prop :=
  stripCommentsAndWhitespace source lang = stripCommentsAndWhitespace source' lang →
    lexis.tokenSequence source = lexis.tokenSequence source' ∧
      (lang = .python → lexis.indentation source = lexis.indentation source')

/-! ## Sources that are read as they are meant -/

/-- A comment of C with the text behind it: it goes to the end of the line, or to the first end mark. -/
def CComment (text rest : List Char) : Prop :=
  (∃ body, text = '/' :: '/' :: body ∧ '\n' ∉ body ∧ ∀ c, rest.head? = some c → c = '\n') ∨
    ∃ body, text = '/' :: '*' :: body ++ ['*', '/'] ∧ ¬ ['*', '/'] <:+: body ++ ['*']

/-- There is no mark of a comment of C in a text, unless it is between quotes for the scan. -/
def NoCComment (m : QuoteMode) (text rest : List Char) : Prop :=
  ∀ before behind, text = before ++ '/' :: behind → m.after stringChars before = .outside →
    ∀ c, (behind ++ rest).head? = some c → c ≠ '/' ∧ c ≠ '*'

/-- The comments of a source are those of C, and no quotes are open for the scan where they start. -/
def CComments : QuoteMode → List Piece → Prop
  | _, [] => True
  | m, .comment text :: pieces => m = .outside ∧ CComment text (textOf pieces) ∧ CComments .outside pieces
  | m, piece :: pieces =>
    NoCComment m piece.text (textOf pieces) ∧ CComments (m.after stringChars piece.text) pieces

/-- The comments of a source are those of Python, and there is no other number sign. -/
def PythonComments : List Piece → Prop
  | [] => True
  | .comment text :: pieces =>
    (∃ body, text = '#' :: body ∧ '\n' ∉ body) ∧ (∀ piece, pieces.head? = some piece → piece = .code '\n') ∧
      PythonComments pieces
  | piece :: pieces => '#' ∉ piece.text ∧ PythonComments pieces

variable {σ : Type*} (lexis : Lexis) (reader : WordReader σ) (source : List Char)

/-- A literal has no white space next to a line break, and a reader can tell the white space of literals
when the comments are gone. -/
structure PlainLiterals : Prop where
  told : reader.Tells (lexis.deleted source ++ [('\n', true)])
  tight : Tight (lexis.deleted source ++ [('\n', true)])

/-- A source with the comments of C is read as it is meant, and its tokens stay apart when its comments
are gone. -/
structure CleanCStyle : Prop extends PlainLiterals lexis reader source where
  comments : CComments .outside (lexis.pieces source)
  apart : lexis.tokens (wordLines (lexis.deleted source)) = lexis.tokenSequence source

/-- A source of Python is read as it is meant, and the indentation of its lines does not count. -/
structure CleanPython : Prop extends PlainLiterals lexis reader source where
  comments : PythonComments (lexis.pieces source)
  unindented : lexis.indentation source = lexis.indents ((wordLines (lexis.spaced source)).map ([], ·))

/-- A source is read as it is meant. -/
def Clean : SourceLanguage → Prop
  | .python => CleanPython lexis reader source
  | _ => CleanCStyle lexis reader source

end Forge.Cli
