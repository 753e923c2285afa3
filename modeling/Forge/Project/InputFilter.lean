import Forge.Common.Regex
import Forge.Common.Utf8

/-!
# Filters of inputs by patterns

A filter keeps the regular expressions into which its patterns are translated. A path is
accepted when an included expression is found in it, or none is included, and no excluded
one is. The translation keeps the meaning of a pattern, so a filter means what its patterns say.

Compiled expressions are those of a given library, which may refuse a text as too big.
-/

namespace Forge.Project.InputFilter

open Forge.Common Forge.Common.Regex

/-- A library of regular expressions: it compiles a text, if it can, and searches a text. -/
structure Library where
  Compiled : Type
  compile : List Char → Option Compiled
  isMatch : Compiled → List Char → Bool

/-- What the library says of itself: a compiled expression is found where it is, and an
expression whose text is not too big compiles. -/
structure Library.Documented (lib : Library) (tooBig : List Char → Prop) : Prop where
  found : ∀ (p : Pattern) regex, lib.compile p.text = some regex → ∀ s, lib.isMatch regex s = true ↔ p.Found s
  compiles : ∀ p : Pattern, ¬ tooBig p.text → (lib.compile p.text).isSome = true

/-- The expressions of a filter. -/
structure MicroInputFilter (lib : Library) where
  includeRegexes : List lib.Compiled
  excludeRegexes : List lib.Compiled

/-- The characters of a pattern that are escaped. -/
def isEscaped (c : Char) : Bool := c ∈ ['.', '(', ')', '+', '|', '^', '$', '[', ']', '{', '}', '\\']

/-- The translation of a pattern, between the anchors. -/
def regexStr : List Char → List Char
  | [] => []
  | '*' :: '*' :: '/' :: chars => ['(', '?', ':', '.', '*', '/', ')', '?'] ++ regexStr chars
  | '*' :: '*' :: chars => ['.', '*'] ++ regexStr chars
  | '*' :: chars => ['[', '^', '/', ']', '*'] ++ regexStr chars
  | '?' :: chars => ['[', '^', '/', ']'] ++ regexStr chars
  | c :: chars => (if isEscaped c then ['\\', c] else [c]) ++ regexStr chars

/-- The text that is compiled for a pattern. -/
def globText (glob : List Char) : List Char := ['^'] ++ regexStr glob ++ ['$']

variable {lib : Library}

/-- The expression of a pattern, unless it does not compile. -/
def globToRegex (lib : Library) (glob : List Char) : Option lib.Compiled := lib.compile (globText glob)

/-- A filter of patterns. -/
def MicroInputFilter.new (lib : Library) (includeGlobs excludeGlobs : List (List Char)) : MicroInputFilter lib where
  includeRegexes := includeGlobs.filterMap (globToRegex lib)
  excludeRegexes := excludeGlobs.filterMap (globToRegex lib)

/-- The text of a path, with slashes for backslashes. -/
def normalized (path : List UInt8) : List Char :=
  ((fromUtf8 (toStringLossy path)).getD "").toList.map fun c => if c = '\\' then '/' else c

/-- Whether a filter accepts a path. -/
def MicroInputFilter.matches (filter : MicroInputFilter lib) (path : List UInt8) : Bool :=
  if filter.excludeRegexes.any (lib.isMatch · (normalized path)) then false
  else if filter.includeRegexes.isEmpty then true
  else filter.includeRegexes.any (lib.isMatch · (normalized path))

/-- What a pattern says of a path, from left to right. -/
inductive Glob : List Char → List Char → Prop where
  | nil : Glob [] []
  | dirs {glob rest : List Char} (run : List Char) (hrun : run = [] ∨ run.getLast? = some '/') (h : Glob glob rest) :
    Glob ('*' :: '*' :: '/' :: glob) (run ++ rest)
  | any {glob rest : List Char} (run : List Char) (hglob : glob.head? ≠ some '/') (h : Glob glob rest) :
    Glob ('*' :: '*' :: glob) (run ++ rest)
  | star {glob rest : List Char} (run : List Char) (hrun : '/' ∉ run) (hglob : glob.head? ≠ some '*') (h : Glob glob rest) :
    Glob ('*' :: glob) (run ++ rest)
  | one {glob rest : List Char} (c : Char) (hc : c ≠ '/') (h : Glob glob rest) : Glob ('?' :: glob) (c :: rest)
  | literal {glob rest : List Char} (c : Char) (hstar : c ≠ '*') (hone : c ≠ '?') (h : Glob glob rest) :
    Glob (c :: glob) (c :: rest)

/-! ## The translation -/

/-- A pattern as parts of an expression. -/
def globItems : List Char → List Item
  | [] => []
  | '*' :: '*' :: '/' :: chars => .optional [.many .dot, .one (.literal '/')] :: globItems chars
  | '*' :: '*' :: chars => .single (.many .dot) :: globItems chars
  | '*' :: chars => .single (.many (.noneOf '/')) :: globItems chars
  | '?' :: chars => .single (.one (.noneOf '/')) :: globItems chars
  | c :: chars => .single (.one (.literal c)) :: globItems chars

/-- A pattern as an expression. -/
def globPattern (glob : List Char) : Pattern := ⟨true, globItems glob, true⟩

/-- The characters that have a meaning of their own in an expression are escaped, or mean something in a pattern. -/
theorem isMeta_eq_isEscaped {c : Char} (hstar : c ≠ '*') (hone : c ≠ '?') : isMeta c = isEscaped c := by
  rw [isMeta, isEscaped, decide_eq_decide]
  simp only [List.mem_cons, List.not_mem_nil, or_false]
  tauto

/-- A pattern is translated into the text of its expression. -/
theorem text_globPattern (glob : List Char) : (globPattern glob).text = globText glob := by
  have hbody : (globItems glob).flatMap Item.text = regexStr glob := by
    induction glob using regexStr.induct with
    | case1 => rfl
    | case2 chars ih => rw [globItems, regexStr, List.flatMap_cons, ih]; rfl
    | case3 chars hslash ih => rw [globItems, regexStr, List.flatMap_cons, ih] <;> first | rfl | exact hslash
    | case4 chars hstars hstar ih => rw [globItems, regexStr, List.flatMap_cons, ih] <;> first | rfl | assumption
    | case5 chars ih => rw [globItems, regexStr, List.flatMap_cons, ih]; rfl
    | case6 c chars hdirs hany hstar hone ih =>
      rw [globItems, regexStr, List.flatMap_cons, ih, Item.text, Piece.text, Atom.text, Regex.escape,
        isMeta_eq_isEscaped hstar hone] <;> assumption
  rw [Pattern.text, globPattern]
  dsimp only
  rw [hbody]
  rfl

example : globText "src/**/*.rs".toList = "^src/(?:.*/)?[^/]*\\.rs$".toList := by decide

/-! ## Its meaning -/

/-- What is in the language of the parts of an expression is a part of each in turn. -/
theorem mem_prod_cons_iff {item : Item} {items : List Item} {s : List Char} :
    s ∈ ((item :: items).map Item.language).prod ↔
      ∃ run rest, run ∈ item.language ∧ rest ∈ (items.map Item.language).prod ∧ run ++ rest = s := by
  rw [List.map_cons, List.prod_cons, Language.mem_mul]
  constructor
  · rintro ⟨run, hrun, rest, hrest, hs⟩
    exact ⟨run, rest, hrun, hrest, hs⟩
  · rintro ⟨run, rest, hrun, hrest, hs⟩
    exact ⟨run, hrun, rest, hrest, hs⟩

/-- Any characters but line feeds. -/
theorem mem_many_dot_iff {run : List Char} : run ∈ (Piece.many .dot).language ↔ '\n' ∉ run := by
  rw [Piece.language, Atom.mem_star_iff]
  constructor
  · exact fun hall hmem => absurd (hall '\n' hmem) (by decide)
  · intro hnone c hc
    exact decide_eq_true fun heq => hnone (heq ▸ hc)

/-- Any characters but slashes. -/
theorem mem_many_noneOf_iff {run : List Char} {c : Char} : run ∈ (Piece.many (.noneOf c)).language ↔ c ∉ run := by
  rw [Piece.language, Atom.mem_star_iff]
  constructor
  · intro hall hmem
    exact of_decide_eq_true (hall c hmem) rfl
  · intro hnone d hd
    exact decide_eq_true fun heq => hnone (heq ▸ hd)

/-- A character itself. -/
theorem mem_literal_iff {run : List Char} {c : Char} : run ∈ (Piece.one (.literal c)).language ↔ run = [c] := by
  constructor
  · rintro ⟨d, hd, rfl⟩
    rw [of_decide_eq_true hd]
  · rintro rfl
    exact ⟨c, decide_eq_true rfl, rfl⟩

/-- One character but a slash. -/
theorem mem_noneOf_iff {run : List Char} {c : Char} :
    run ∈ (Piece.one (.noneOf c)).language ↔ ∃ d, d ≠ c ∧ run = [d] := by
  constructor
  · rintro ⟨d, hd, rfl⟩
    exact ⟨d, of_decide_eq_true hd, rfl⟩
  · rintro ⟨d, hd, rfl⟩
    exact ⟨d, decide_eq_true hd, rfl⟩

/-- Nothing, or what ends with a slash. -/
theorem mem_dirs_iff {run : List Char} (hrun : '\n' ∉ run) :
    run ∈ (Item.optional [.many .dot, .one (.literal '/')]).language ↔ run = [] ∨ run.getLast? = some '/' := by
  have hgroup : run ∈ ([Piece.many .dot, .one (.literal '/')].map Piece.language).prod ↔ run.getLast? = some '/' := by
    rw [List.map_cons, List.map_singleton, List.prod_cons, List.prod_singleton, Language.mem_mul]
    constructor
    · rintro ⟨start, -, slash, hslash, rfl⟩
      rw [mem_literal_iff.mp hslash, List.getLast?_concat]
    · intro hlast
      obtain ⟨start, rfl⟩ := List.getLast?_eq_some_iff.mp hlast
      refine ⟨start, mem_many_dot_iff.mpr fun hmem => hrun (List.mem_append_left _ hmem), ['/'], ?_, rfl⟩
      exact mem_literal_iff.mpr rfl
  rw [Item.language, Language.mem_add, Language.mem_one, hgroup]

/-- A pattern that does not go on with a character. -/
theorem head?_ne_of_forall {glob : List Char} {c : Char} (h : ∀ chars, glob = c :: chars → False) : glob.head? ≠ some c := by
  intro hhead
  obtain ⟨chars, rfl⟩ := List.head?_eq_some_iff.mp hhead
  exact h chars rfl

/-- A text without line feeds is in the language of a pattern when the pattern says so of it. -/
theorem mem_language_iff {glob s : List Char} (hs : '\n' ∉ s) : s ∈ (globPattern glob).language ↔ Glob glob s := by
  rw [Pattern.language, globPattern]
  dsimp only
  induction glob using regexStr.induct generalizing s with
  | case1 =>
    constructor
    · intro h
      rw [(Language.mem_one s).mp h]
      exact .nil
    · rintro ⟨⟩
      exact Language.nil_mem_one
  | case2 chars ih =>
    rw [globItems, mem_prod_cons_iff]
    constructor
    · rintro ⟨run, rest, hrun, hrest, rfl⟩
      rw [List.mem_append, not_or] at hs
      exact .dirs run ((mem_dirs_iff hs.1).mp hrun) ((ih hs.2).mp hrest)
    · intro h
      cases h with
      | dirs run hrun h =>
        rw [List.mem_append, not_or] at hs
        exact ⟨run, _, (mem_dirs_iff hs.1).mpr hrun, (ih hs.2).mpr h, rfl⟩
      | any run hglob h => exact absurd rfl hglob
      | star run hrun hglob h => exact absurd rfl hglob
      | literal c hstar hone h => exact absurd rfl hstar
  | case3 chars hslash ih =>
    rw [globItems, mem_prod_cons_iff]
    · constructor
      · rintro ⟨run, rest, -, hrest, rfl⟩
        rw [List.mem_append, not_or] at hs
        exact .any run (head?_ne_of_forall hslash) ((ih hs.2).mp hrest)
      · intro h
        cases h with
        | dirs run hrun h => exact absurd rfl (hslash _)
        | any run hglob h =>
          rw [List.mem_append, not_or] at hs
          exact ⟨run, _, mem_many_dot_iff.mpr hs.1, (ih hs.2).mpr h, rfl⟩
        | star run hrun hglob h => exact absurd rfl hglob
        | literal c hstar hone h => exact absurd rfl hstar
    · exact hslash
  | case4 chars hdirs hany ih =>
    rw [globItems, mem_prod_cons_iff]
    · constructor
      · rintro ⟨run, rest, hrun, hrest, rfl⟩
        rw [List.mem_append, not_or] at hs
        exact .star run (mem_many_noneOf_iff.mp hrun) (head?_ne_of_forall hany) ((ih hs.2).mp hrest)
      · intro h
        cases h with
        | dirs run hrun h => exact absurd rfl (hany _)
        | any run hglob h => exact absurd rfl (hany _)
        | star run hrun hglob h =>
          rw [List.mem_append, not_or] at hs
          exact ⟨run, _, mem_many_noneOf_iff.mpr hrun, (ih hs.2).mpr h, rfl⟩
        | literal c hstar hone h => exact absurd rfl hstar
    · exact hdirs
    · exact hany
  | case5 chars ih =>
    rw [globItems, mem_prod_cons_iff]
    constructor
    · rintro ⟨run, rest, hrun, hrest, rfl⟩
      rw [List.mem_append, not_or] at hs
      obtain ⟨c, hc, rfl⟩ := mem_noneOf_iff.mp hrun
      exact .one c hc ((ih hs.2).mp hrest)
    · intro h
      cases h with
      | one c hc h =>
        rw [List.mem_cons, not_or] at hs
        exact ⟨[c], _, mem_noneOf_iff.mpr ⟨c, hc, rfl⟩, (ih hs.2).mpr h, rfl⟩
      | literal c hstar hone h => exact absurd rfl hone
  | case6 c chars hdirs hany hstar hone ih =>
    rw [globItems, mem_prod_cons_iff]
    · constructor
      · rintro ⟨run, rest, hrun, hrest, rfl⟩
        rw [List.mem_append, not_or] at hs
        rw [mem_literal_iff.mp hrun]
        exact .literal c hstar hone ((ih hs.2).mp hrest)
      · intro h
        cases h with
        | dirs run hrun h => exact absurd rfl hstar
        | any run hglob h => exact absurd rfl hstar
        | star run hrun hglob h => exact absurd rfl hstar
        | one c hc h => exact absurd rfl hone
        | literal c hstar hone h =>
          rw [List.mem_cons, not_or] at hs
          exact ⟨[c], _, mem_literal_iff.mpr rfl, (ih hs.2).mpr h, rfl⟩
    · exact hdirs
    · exact hany
    · exact hstar
    · exact hone

/-! ## Filters -/

/-- An expression that is found in a path without line feeds was compiled for a pattern that says so. -/
theorem isMatch_iff {tooBig : List Char → Prop} (h : lib.Documented tooBig) {glob s : List Char} {regex : lib.Compiled}
    (hregex : globToRegex lib glob = some regex) (hs : '\n' ∉ s) : lib.isMatch regex s = true ↔ Glob glob s := by
  rw [globToRegex, ← text_globPattern] at hregex
  rw [h.found (globPattern glob) regex hregex s, Pattern.found_iff rfl rfl]
  exact mem_language_iff hs

/-- Some expression is found in a path when one of the patterns that compile says so. -/
theorem any_isMatch_iff {tooBig : List Char → Prop} (h : lib.Documented tooBig) {globs : List (List Char)}
    {s : List Char} (hs : '\n' ∉ s) :
    (globs.filterMap (globToRegex lib)).any (lib.isMatch · s) = true ↔
      ∃ glob ∈ globs, (globToRegex lib glob).isSome = true ∧ Glob glob s := by
  rw [List.any_eq_true]
  constructor
  · rintro ⟨regex, hregex, hmatch⟩
    obtain ⟨glob, hglob, hcompiled⟩ := List.mem_filterMap.mp hregex
    exact ⟨glob, hglob, Option.isSome_of_eq_some hcompiled, (isMatch_iff h hcompiled hs).mp hmatch⟩
  · rintro ⟨glob, hglob, hsome, hmeans⟩
    obtain ⟨regex, hcompiled⟩ := Option.isSome_iff_exists.mp hsome
    exact ⟨regex, List.mem_filterMap.mpr ⟨glob, hglob, hcompiled⟩, (isMatch_iff h hcompiled hs).mpr hmeans⟩

/-- A filter accepts a path by those of its patterns that compile. -/
theorem matches_iff_compiled {tooBig : List Char → Prop} (h : lib.Documented tooBig)
    (includeGlobs excludeGlobs : List (List Char)) {path : List UInt8} (hpath : '\n' ∉ normalized path) :
    (MicroInputFilter.new lib includeGlobs excludeGlobs).matches path = true ↔
      ((∀ glob ∈ includeGlobs, globToRegex lib glob = none) ∨
        ∃ glob ∈ includeGlobs, (globToRegex lib glob).isSome = true ∧ Glob glob (normalized path)) ∧
      ¬ ∃ glob ∈ excludeGlobs, (globToRegex lib glob).isSome = true ∧ Glob glob (normalized path) := by
  have hempty : (includeGlobs.filterMap (globToRegex lib)).isEmpty = true ↔ ∀ glob ∈ includeGlobs, globToRegex lib glob = none := by
    rw [List.isEmpty_iff, List.filterMap_eq_nil_iff]
  rw [← any_isMatch_iff h hpath, ← any_isMatch_iff h hpath, ← hempty, MicroInputFilter.matches, MicroInputFilter.new]
  dsimp only
  split
  · rename_i hexcluded
    exact iff_of_false nofun fun hright => hright.2 hexcluded
  · rename_i hexcluded
    rw [and_iff_left hexcluded]
    split
    · rename_i hnone
      exact iff_of_true rfl (Or.inl hnone)
    · rename_i hsome
      rw [or_iff_right hsome]

/-- A filter accepts a path when an included pattern says so of it, or none is included, and no
excluded one says so. Its patterns are not too big for the library. -/
theorem matches_iff (lib : Library) (tooBig : List Char → Prop) (h : lib.Documented tooBig)
    (includeGlobs excludeGlobs : List (List Char)) (hsize : ∀ glob ∈ includeGlobs ++ excludeGlobs, ¬ tooBig (globText glob))
    (path : List UInt8) (hpath : '\n' ∉ normalized path) :
    (MicroInputFilter.new lib includeGlobs excludeGlobs).matches path = true ↔
      (includeGlobs = [] ∨ ∃ glob ∈ includeGlobs, Glob glob (normalized path)) ∧
        ¬ ∃ glob ∈ excludeGlobs, Glob glob (normalized path) := by
  have hcompiles : ∀ glob ∈ includeGlobs ++ excludeGlobs, (globToRegex lib glob).isSome = true := by
    intro glob hglob
    have hfits := h.compiles (globPattern glob)
    rw [text_globPattern] at hfits
    exact hfits (hsize glob hglob)
  have hdrop : ∀ globs, globs ⊆ includeGlobs ++ excludeGlobs →
      ((∃ glob ∈ globs, (globToRegex lib glob).isSome = true ∧ Glob glob (normalized path)) ↔
        ∃ glob ∈ globs, Glob glob (normalized path)) :=
    fun globs hglobs => exists_congr fun glob =>
      and_congr_right fun hglob => and_iff_right (hcompiles glob (hglobs hglob))
  have hnone : (∀ glob ∈ includeGlobs, globToRegex lib glob = none) ↔ includeGlobs = [] := by
    rw [List.eq_nil_iff_forall_not_mem]
    refine forall_congr' fun glob => imp_congr_right fun hglob => iff_of_false (fun hglobNone => ?_) fun hnot => hnot
    have hsome := hcompiles glob (List.mem_append_left _ hglob)
    rw [hglobNone] at hsome
    exact absurd hsome nofun
  rw [matches_iff_compiled h includeGlobs excludeGlobs hpath, hdrop _ (List.subset_append_left _ _),
    hdrop _ (List.subset_append_right _ _), hnone]

/-- Expressions that are read from their texts, and matched as they are. -/
def interpreted : Library := ⟨Pattern, readPattern, Pattern.isMatch⟩

/-- They are found where they are, and none is too big. -/
theorem interpreted_documented : interpreted.Documented fun _ => False where
  found := by
    intro p regex hregex s
    obtain rfl := Option.some.inj ((readPattern_text p).symm.trans hregex)
    exact p.isMatch_iff s
  compiles := fun p _ => Option.isSome_of_eq_some (readPattern_text p)

/-- The path of a source file has no line feed. -/
theorem normalized_source : normalized (utf8Bytes "src\\utils/math.rs") = "src/utils/math.rs".toList := by
  have hbytes : toStringLossy (utf8Bytes "src\\utils/math.rs") = utf8Bytes "src\\utils/math.rs" := by decide
  rw [normalized, hbytes, fromUtf8_utf8Bytes]
  decide

/-- A filter of sources accepts a source by its patterns. -/
theorem matches_iff_source :
    (MicroInputFilter.new interpreted ["src/**/*.rs".toList] ["src/legacy/**".toList]).matches
        (utf8Bytes "src\\utils/math.rs") = true ↔
      (["src/**/*.rs".toList] = [] ∨ ∃ glob ∈ ["src/**/*.rs".toList], Glob glob (normalized (utf8Bytes "src\\utils/math.rs"))) ∧
        ¬ ∃ glob ∈ ["src/legacy/**".toList], Glob glob (normalized (utf8Bytes "src\\utils/math.rs")) :=
  matches_iff interpreted (fun _ => False) interpreted_documented _ _ (fun _ _ => not_false) _
    (by rw [normalized_source]; decide)

end Forge.Project.InputFilter
