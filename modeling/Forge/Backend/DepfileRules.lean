import Forge.Backend.CcFingerprint
import Forge.Common.DependencyRules

/-!
# Dependency files as compilers write them

The reader of dependency files is fed with rules. It undoes the backslashes in front of spaces
and number signs, but it leaves dollar signs doubled. It trims the end of a line before it looks
for a backslash there, so a rule whose last path ends with a space seems to go on in the next
line, which then is taken for more paths of it, or is not there.
-/

namespace Forge.Backend.Cc

open Forge.Common

/-! ### The paths behind a colon -/

/-- The path that is read for an escaped one: dollar signs stay doubled. -/
def readPath (path : List Char) : List Char := path.flatMap fun c => if c = '$' then ['$', '$'] else [c]

/-- The path that is read for a path is not empty. -/
theorem readPath_ne_nil (path : RulePath) : readPath path.chars ≠ [] := by
  obtain ⟨c, chars, hchars⟩ := List.exists_cons_of_ne_nil path.nonempty
  rw [hchars, readPath, List.flatMap_cons]
  split <;> exact List.cons_ne_nil _ _

/-- The path that is complete at a blank, if there is one. -/
def completed (token : List Char) : List String := if token = [] then [] else [String.ofList token]

/-- A character that is neither a backslash nor white space is a part of a path. -/
theorem parseDeps_plain {c : Char} (hbackslash : c ≠ '\\') (hspace : isWhitespace c = false) (chars token : List Char) :
    parseDeps (c :: chars) token = parseDeps chars (token ++ [c]) := by
  rw [parseDeps, hspace, if_neg Bool.false_ne_true]
  · exact fun h _ => hbackslash h
  · exact fun _ _ h _ => hbackslash h

/-- White space completes a path. -/
theorem parseDeps_space {c : Char} (hspace : isWhitespace c = true) (chars token : List Char) :
    parseDeps (c :: chars) token = completed token ++ parseDeps chars [] := by
  have hbackslash : c ≠ '\\' := by
    rintro rfl
    exact absurd hspace (by decide)
  rw [parseDeps, hspace, if_pos rfl, completed]
  · split <;> rfl
  · exact fun h _ => hbackslash h
  · exact fun _ _ h _ => hbackslash h

/-- The end of the text completes a path. -/
theorem parseDeps_nil (token : List Char) : parseDeps [] token = completed token := by
  rw [parseDeps]
  rfl

/-- An escaped character is a part of a path. -/
theorem parseDeps_escapeChar {c : Char} (hc : c ≠ '\\' ∧ c ≠ ':' ∧ (isWhitespace c = true → c = ' '))
    (chars token : List Char) :
    parseDeps (escapeChar c ++ chars) token = parseDeps chars (token ++ if c = '$' then ['$', '$'] else [c]) := by
  unfold escapeChar
  by_cases hescaped : c = ' ' ∨ c = '#'
  · have hdollar : c ≠ '$' := by
      rintro rfl
      exact absurd hescaped (by decide)
    rw [if_pos hescaped, if_neg hdollar, List.cons_append, List.singleton_append, parseDeps]
  · rw [if_neg hescaped]
    split
    · rw [List.cons_append, List.singleton_append, parseDeps_plain (by decide) (by decide),
        parseDeps_plain (by decide) (by decide), List.append_assoc]
      rfl
    · refine parseDeps_plain hc.1 (Bool.not_eq_true _ ▸ fun hspace => hescaped (.inl (hc.2.2 hspace))) chars token

/-- An escaped path is read with its dollar signs doubled. -/
theorem parseDeps_escape {path : List Char}
    (hpath : ∀ c ∈ path, c ≠ '\\' ∧ c ≠ ':' ∧ (isWhitespace c = true → c = ' ')) (rest token : List Char) :
    parseDeps (escape path ++ rest) token = parseDeps rest (token ++ readPath path) := by
  induction path generalizing token with
  | nil => rw [escape, readPath, List.flatMap_nil, List.flatMap_nil, List.nil_append, List.append_nil]
  | cons c path ih =>
    obtain ⟨hc, hrest⟩ := List.forall_mem_cons.mp hpath
    have hread : readPath (c :: path) = (if c = '$' then ['$', '$'] else [c]) ++ readPath path := List.flatMap_cons
    rw [escape_cons, List.append_assoc, parseDeps_escapeChar hc, ih hrest, hread, List.append_assoc]

/-- A text without a loose end gives paths, and the start of one more path. -/
def Reads (s : List Char) (deps : List String) (token : List Char) : Prop :=
  ∀ rest, parseDeps (s ++ rest) [] = deps ++ parseDeps rest token

/-- There is nothing to read in no text. -/
theorem Reads.nil : Reads [] [] [] := fun _ => rfl

/-- A path goes on. -/
theorem Reads.escape {s : List Char} {deps : List String} {token : List Char} (h : Reads s deps token) {path : List Char}
    (hpath : ∀ c ∈ path, c ≠ '\\' ∧ c ≠ ':' ∧ (isWhitespace c = true → c = ' ')) :
    Reads (s ++ escape path) deps (token ++ readPath path) := fun rest => by
  rw [List.append_assoc, h, parseDeps_escape hpath]

/-- A colon is a part of a path. -/
theorem Reads.colon {s : List Char} {deps : List String} {token : List Char} (h : Reads s deps token) :
    Reads (s ++ [':']) deps (token ++ [':']) := fun rest => by
  rw [List.append_assoc, h]
  exact congrArg (deps ++ ·) (parseDeps_plain (by decide) (by decide) rest token)

/-- A blank completes a path. -/
theorem Reads.blank {s : List Char} {deps : List String} {token : List Char} (h : Reads s deps token) :
    Reads (s ++ [' ']) (deps ++ completed token) [] := fun rest => by
  rw [List.append_assoc, h, List.append_assoc]
  exact congrArg (deps ++ ·) (parseDeps_space (by decide) rest token)

/-- Two texts after each other, if no path goes on from the first. -/
theorem Reads.append {s t : List Char} {deps deps' : List String} {token : List Char} (hs : Reads s deps [])
    (ht : Reads t deps' token) : Reads (s ++ t) (deps ++ deps') token := fun rest => by
  rw [List.append_assoc, hs, ht, List.append_assoc]

/-- All paths of a text. -/
theorem Reads.parseDeps {s : List Char} {deps : List String} {token : List Char} (h : Reads s deps token) :
    parseDeps s [] = deps ++ completed token := by
  have hend := h []
  rwa [List.append_nil, parseDeps_nil] at hend

/-- There are no paths in blanks. -/
theorem parseDeps_blank {s : List Char} (h : ∀ c ∈ s, isWhitespace c = true) : Cc.parseDeps s [] = [] := by
  induction s with
  | nil => rfl
  | cons c s ih =>
    obtain ⟨hc, hrest⟩ := List.forall_mem_cons.mp h
    rw [parseDeps_space hc, ih hrest]
    rfl

/-! ### The lines of a rule -/

/-- A broken line is kept without its backslash, unless it is blank. -/
theorem DepfileState.line_broken (s : DepfileState) (cur : List Char) :
    s.line (cur ++ ['\\']) = { s with logical := if trim cur = [] then s.logical else s.logical ++ cur ++ [' '] } := by
  have htrimmed : trimEnd (cur ++ ['\\']) = cur ++ ['\\'] := trimEnd_concat (by decide) cur
  unfold DepfileState.line
  simp only [htrimmed, List.getLast?_concat, List.dropLast_concat, BEq.rfl, if_true,
    if_neg (List.append_ne_nil_of_right_ne_nil cur (List.cons_ne_nil '\\' []))]

/-- A line with an escaped space at its end is taken for a broken one. -/
theorem DepfileState.line_space (s : DepfileState) (cur : List Char) :
    s.line (cur ++ ['\\', ' ']) = s.line (cur ++ ['\\']) := by
  have htrimmed : trimEnd (cur ++ ['\\', ' ']) = trimEnd (cur ++ ['\\']) := by
    have h := @trimEnd_append cur '\\' (by decide) [' ']
    rwa [List.append_assoc, show trimEnd [' '] = [] from rfl, List.append_nil, ← trimEnd_concat (by decide) cur] at h
  unfold DepfileState.line
  rw [htrimmed]

/-- A line that ends with neither white space nor a backslash completes a rule. -/
theorem DepfileState.line_complete (s : DepfileState) {cur : List Char} {c : Char} (hbackslash : c ≠ '\\')
    (hspace : isWhitespace c = false) :
    s.line (cur ++ [c]) =
      let logical := s.logical ++ (cur ++ [c]) ++ [' ']
      let split := (splitOnce ':' logical).getD ([], logical)
      ⟨[], s.sawTarget || !(trim split.1).isEmpty, s.deps ++ parseDeps split.2 []⟩ := by
  have htrimmed : trimEnd (cur ++ [c]) = cur ++ [c] := trimEnd_concat hspace cur
  have hlast : (some c == some '\\') = false := by simpa using hbackslash
  have hsolid : trim (cur ++ [c]) ≠ [] := by
    intro hnil
    have hall := trim_eq_nil_iff.mp hnil c (List.mem_append_right _ (List.mem_singleton_self c))
    rw [hspace] at hall
    cases hall
  unfold DepfileState.line
  simp only [htrimmed, List.getLast?_concat, hlast, if_neg hsolid, Bool.false_eq_true, if_false,
    if_neg (List.append_ne_nil_of_right_ne_nil cur (List.cons_ne_nil c []))]

/-- What was read of a rule: behind what it starts with there are paths, and the start of one more
path. It starts in the line that is read, or started before. -/
def Feeding (target : RulePath) (deps : List String) (token : List Char) (state : DepfileState × List Char) : Prop :=
  (state.1.logical = [] ∧ ∃ d, state.2 = escape target.chars ++ ':' :: d ∧ Reads d deps token) ∨
    ∃ d before after, state.1.logical = escape target.chars ++ ':' :: d ∧ deps = before ++ after ∧
      Reads d before [] ∧ Reads state.2 after token

namespace Feeding

variable {target : RulePath} {deps : List String} {token : List Char} {state : DepfileState × List Char}

/-- A line goes on with a text. -/
theorem append (h : Feeding target deps token state) {t : List Char} {added : List String} {token' : List Char}
    (ht : ∀ s deps, Reads s deps token → Reads (s ++ t) (deps ++ added) token') :
    Feeding target (deps ++ added) token' (state.1, state.2 ++ t) := by
  obtain ⟨hnone, d, hcur, hreads⟩ | ⟨d, before, after, hlogical, rfl, hbefore, hafter⟩ := h
  · refine .inl ⟨hnone, d ++ t, ?_, ht d deps hreads⟩
    rw [hcur, List.append_assoc]
    rfl
  · exact .inr ⟨d, before, after ++ added, hlogical, List.append_assoc _ _ _, hbefore, ht _ after hafter⟩

/-- A line goes on with a path. -/
theorem escape (h : Feeding target deps token state) {path : List Char}
    (hpath : ∀ c ∈ path, c ≠ '\\' ∧ c ≠ ':' ∧ (isWhitespace c = true → c = ' ')) :
    Feeding target deps (token ++ readPath path) (state.1, state.2 ++ Common.escape path) := by
  have hpart : ∀ s deps, Reads s deps token → Reads (s ++ Common.escape path) (deps ++ []) (token ++ readPath path) := by
    intro s deps hs
    rw [List.append_nil]
    exact hs.escape hpath
  have hnext := h.append hpart
  rwa [List.append_nil] at hnext

/-- The line is not blank as long as it has the start of a rule. -/
theorem logical_of_blank (h : Feeding target deps token state) (hblank : trim state.2 = []) :
    ∃ d, state.1.logical = Common.escape target.chars ++ ':' :: d ∧ Reads d deps [] ∧ token = [] := by
  rw [trim_eq_nil_iff] at hblank
  obtain ⟨-, d, hcur, -⟩ | ⟨d, before, after, hlogical, rfl, hbefore, hafter⟩ := h
  · have hcolon := hblank ':' (hcur ▸ List.mem_append_right _ List.mem_cons_self)
    exact absurd hcolon (by decide)
  · have hnothing : after ++ completed token = [] := hafter.parseDeps.symm.trans (parseDeps_blank hblank)
    obtain ⟨rfl, htoken⟩ := List.append_eq_nil_iff.mp hnothing
    refine ⟨d, hlogical, by rwa [List.append_nil], ?_⟩
    unfold completed at htoken
    split at htoken
    · assumption
    · cases htoken

/-- What is kept of a line is read with it. -/
theorem logical_of_line (h : Feeding target deps token state) :
    ∃ d, state.1.logical ++ state.2 ++ [' '] = Common.escape target.chars ++ ':' :: d ∧
      Reads d (deps ++ completed token) [] := by
  obtain ⟨hnone, d, hcur, hreads⟩ | ⟨d, before, after, hlogical, rfl, hbefore, hafter⟩ := h
  · refine ⟨d ++ [' '], ?_, hreads.blank⟩
    rw [hnone, hcur, List.nil_append, List.append_assoc]
    rfl
  · refine ⟨d ++ (state.2 ++ [' ']), ?_, ?_⟩
    · rw [hlogical]
      simp
    · rw [List.append_assoc]
      exact hbefore.append hafter.blank

/-- A broken line completes a path. -/
theorem broken (h : Feeding target deps token state) :
    (∃ d, (state.1.line (state.2 ++ ['\\'])).logical = Common.escape target.chars ++ ':' :: d ∧
        Reads d (deps ++ completed token) []) ∧
      (state.1.line (state.2 ++ ['\\'])).sawTarget = state.1.sawTarget ∧
      (state.1.line (state.2 ++ ['\\'])).deps = state.1.deps := by
  rw [DepfileState.line_broken]
  refine ⟨?_, rfl, rfl⟩
  by_cases hblank : trim state.2 = []
  · obtain ⟨d, hlogical, hreads, rfl⟩ := h.logical_of_blank hblank
    refine ⟨d, by simpa [hblank] using hlogical, ?_⟩
    rwa [completed, if_pos rfl, List.append_nil]
  · simpa [hblank] using h.logical_of_line

/-- A break completes a path. -/
theorem feedBreak (h : Feeding target deps token state) (b : Break) :
    Feeding target (deps ++ completed token) [] (Common.feedBreak DepfileState.line state b) ∧
      (Common.feedBreak DepfileState.line state b).1.sawTarget = state.1.sawTarget ∧
      (Common.feedBreak DepfileState.line state b).1.deps = state.1.deps := by
  cases b with
  | blank => exact ⟨h.append fun _ _ hs => hs.blank, rfl, rfl⟩
  | wrap ending =>
    obtain ⟨⟨d, hlogical, hreads⟩, hkept⟩ := h.broken
    exact ⟨.inr ⟨d, _, [], hlogical, (List.append_nil _).symm, hreads, Reads.nil⟩, hkept⟩

/-- More breaks change nothing about what is read. -/
theorem feedBreaks (h : Feeding target deps [] state) (breaks : List Break) :
    Feeding target deps [] (breaks.foldl (Common.feedBreak DepfileState.line) state) ∧
      (breaks.foldl (Common.feedBreak DepfileState.line) state).1.sawTarget = state.1.sawTarget ∧
      (breaks.foldl (Common.feedBreak DepfileState.line) state).1.deps = state.1.deps := by
  induction breaks generalizing state with
  | nil => exact ⟨h, rfl, rfl⟩
  | cons b breaks ih =>
    obtain ⟨hnext, hsaw, hdeps⟩ := h.feedBreak b
    have hsame : deps ++ completed [] = deps := List.append_nil deps
    rw [hsame] at hnext
    obtain ⟨hend, hsaw', hdeps'⟩ := ih hnext
    exact ⟨hend, hsaw'.trans hsaw, hdeps'.trans hdeps⟩

/-- A gap completes a path. -/
theorem feedGap (h : Feeding target deps token state) (gap : Gap) :
    Feeding target (deps ++ completed token) [] (Common.feedGap DepfileState.line state gap) ∧
      (Common.feedGap DepfileState.line state gap).1.sawTarget = state.1.sawTarget ∧
      (Common.feedGap DepfileState.line state gap).1.deps = state.1.deps := by
  obtain ⟨hfirst, hsaw, hdeps⟩ := h.feedBreak gap.first
  obtain ⟨hend, hsaw', hdeps'⟩ := hfirst.feedBreaks gap.others
  exact ⟨hend, hsaw'.trans hsaw, hdeps'.trans hdeps⟩

/-- The paths of words, all but the last one of them completed. -/
theorem feedWords (h : Feeding target deps token state) (words : List (Gap × RulePath)) :
    ∃ deps' token', Feeding target deps' token' (words.foldl (feedWord DepfileState.line) state) ∧
      deps' ++ completed token' =
        deps ++ completed token ++ words.map (fun word => String.ofList (readPath word.2.chars)) ∧
      (words.foldl (feedWord DepfileState.line) state).1.sawTarget = state.1.sawTarget ∧
      (words.foldl (feedWord DepfileState.line) state).1.deps = state.1.deps := by
  induction words generalizing deps token state with
  | nil => exact ⟨deps, token, h, (List.append_nil _).symm, rfl, rfl⟩
  | cons word words ih =>
    obtain ⟨hgap, hsaw, hdeps⟩ := h.feedGap word.1
    have hword := hgap.escape word.2.plain
    rw [List.nil_append] at hword
    obtain ⟨deps', token', hend, hread, hsaw', hdeps'⟩ := ih hword
    refine ⟨deps', token', hend, ?_, hsaw'.trans hsaw, hdeps'.trans hdeps⟩
    have hcompleted : completed (readPath word.2.chars) = [String.ofList (readPath word.2.chars)] :=
      if_neg (readPath_ne_nil word.2)
    rw [hread, hcompleted, List.map_cons, List.append_assoc (deps ++ completed token)]
    rfl

/-- The end of a rule gives its paths. -/
theorem complete (h : Feeding target deps token state) {cur : List Char} {c : Char} (hcur : state.2 = cur ++ [c])
    (hbackslash : c ≠ '\\') (hspace : isWhitespace c = false) :
    state.1.line state.2 = ⟨[], true, state.1.deps ++ (deps ++ completed token)⟩ := by
  obtain ⟨d, hlogical, hreads⟩ := h.logical_of_line
  have hcolon : ':' ∉ Common.escape target.chars := fun hmem =>
    (mem_escape hmem).elim (fun hc => (target.plain ':' hc).2.1 rfl) (by decide)
  have htarget : trim (Common.escape target.chars) ≠ [] := by
    intro hnil
    obtain ⟨first, hfirst, hsolid⟩ := head?_escape target
    have hwhite := trim_eq_nil_iff.mp hnil first (List.mem_of_mem_head? hfirst)
    rw [hsolid] at hwhite
    cases hwhite
  rw [hcur] at hlogical ⊢
  rw [DepfileState.line_complete _ hbackslash hspace]
  simp only [hlogical, splitOnce_append hcolon, Option.getD_some, hreads.parseDeps]
  simp [completed, htarget]

end Feeding

/-! ### Whole rules -/

/-- Whether the last path of a rule ends with a space. -/
def EndsWithSpace (rule : LaidRule) : Prop := ∃ path ∈ rule.prerequisites.getLast?, path.chars.getLast? = some ' '

/-- A rule of which the start was read before. -/
def Held (s : DepfileState) : Prop :=
  ∃ (target : RulePath) (d : List Char) (deps : List String),
    s.logical = escape target.chars ++ ':' :: d ∧ Reads d deps []

/-- A rule is read from its start. -/
theorem feeding_start {s : DepfileState} (h : s.logical = []) (rule : LaidRule) :
    Feeding rule.target [] [] (s, rule.lead) := .inl ⟨h, [], rfl, Reads.nil⟩

/-- A rule is read as a part of a rule of which the start was read before. -/
theorem Held.feeding {s : DepfileState} (h : Held s) (rule : LaidRule) :
    ∃ target deps, Feeding target deps (readPath rule.target.chars ++ [':']) (s, rule.lead) := by
  obtain ⟨target, d, deps, hlogical, hreads⟩ := h
  refine ⟨target, deps, .inr ⟨d, deps, [], hlogical, (List.append_nil _).symm, hreads, ?_⟩⟩
  exact (Reads.nil.escape rule.target.plain).colon

/-- An escaped path ends with the last character of the path, if that is no space. -/
theorem escape_getLast {path : RulePath} (hspace : path.chars.getLast? ≠ some ' ') :
    ∃ start c, escape path.chars = start ++ [c] ∧ c ≠ '\\' ∧ isWhitespace c = false := by
  obtain hnil | ⟨init, c, hchars⟩ := List.eq_nil_or_concat' path.chars
  · exact absurd hnil path.nonempty
  · have hc := path.plain c (hchars ▸ List.mem_append_right _ (List.mem_singleton_self c))
    rw [hchars, List.getLast?_concat] at hspace
    have hsolid : isWhitespace c = false := Bool.not_eq_true _ ▸ fun hwhite => hspace (congrArg some (hc.2.2 hwhite))
    rw [hchars, escape_concat]
    unfold escapeChar
    split
    · exact ⟨escape init ++ ['\\'], c, by simp, hc.1, hsolid⟩
    · split
      · exact ⟨escape init ++ ['$'], '$', by simp, by decide, by decide⟩
      · exact ⟨escape init, c, rfl, hc.1, hsolid⟩

/-- An escaped path that ends with a space. -/
theorem escape_space {path : RulePath} (hspace : path.chars.getLast? = some ' ') :
    ∃ init, escape path.chars = escape init ++ ['\\', ' '] ∧ init ++ [' '] = path.chars := by
  obtain ⟨init, hchars⟩ := List.getLast?_eq_some_iff.mp hspace
  refine ⟨init, ?_, hchars.symm⟩
  rw [hchars, escape_concat]
  rfl

/-- A rule whose last path does not end with a space gives its paths. -/
theorem feedRule_complete {rule : LaidRule} (hend : ¬ EndsWithSpace rule) {s : DepfileState} {target : RulePath}
    {deps : List String} {token : List Char} (h : Feeding target deps token (s, rule.lead)) :
    feedRule DepfileState.line s rule = ⟨[], true, s.deps ++ (deps ++ completed token ++
      rule.prerequisites.map fun path => String.ofList (readPath path.chars))⟩ := by
  have hpaths : rule.prerequisites.map (fun path => String.ofList (readPath path.chars)) =
      rule.words.map fun word => String.ofList (readPath word.2.chars) := List.map_map
  obtain ⟨deps', token', hfed, hread, -, hdeps⟩ := h.feedWords rule.words
  have hlast : ∃ cur c, (rule.words.foldl (feedWord DepfileState.line) (s, rule.lead)).2 = cur ++ [c] ∧ c ≠ '\\' ∧
      isWhitespace c = false := by
    obtain hnil | ⟨init, word, hwords⟩ := List.eq_nil_or_concat' rule.words
    · rw [hnil]
      exact ⟨_, ':', rfl, by decide, by decide⟩
    · have hspace : word.2.chars.getLast? ≠ some ' ' := fun hspace => hend ⟨word.2, by
        rw [LaidRule.prerequisites, hwords, List.map_append]
        exact List.getLast?_concat, hspace⟩
      obtain ⟨start, c, hescaped, hc⟩ := escape_getLast hspace
      rw [hwords, List.foldl_concat, feedWord, hescaped, ← List.append_assoc]
      exact ⟨_, c, rfl, hc⟩
  obtain ⟨cur, c, hcur, hbackslash, hsolid⟩ := hlast
  rw [feedRule, hpaths, ← hread]
  exact (hfed.complete hcur hbackslash hsolid).trans (by rw [hdeps])

/-- A rule whose last path ends with a space is kept. -/
theorem feedRule_held {rule : LaidRule} (hend : EndsWithSpace rule) {s : DepfileState} {target : RulePath}
    {deps : List String} {token : List Char} (h : Feeding target deps token (s, rule.lead)) :
    Held (feedRule DepfileState.line s rule) ∧ (feedRule DepfileState.line s rule).deps = s.deps := by
  obtain ⟨path, hpath, hspace⟩ := hend
  obtain hnil | ⟨init, word, hwords⟩ := List.eq_nil_or_concat' rule.words
  · rw [LaidRule.prerequisites, hnil] at hpath
    cases hpath
  · rw [LaidRule.prerequisites, hwords, List.map_append] at hpath
    obtain rfl : word.2 = path := Option.some.inj (List.getLast?_concat.symm.trans hpath)
    obtain ⟨chars, hescaped, hchars⟩ := escape_space hspace
    obtain ⟨deps', token', hfed, -, -, hdeps⟩ := h.feedWords init
    obtain ⟨hgap, -, hdeps'⟩ := hfed.feedGap word.1
    have hplain : ∀ c ∈ chars, c ≠ '\\' ∧ c ≠ ':' ∧ (isWhitespace c = true → c = ' ') := fun c hc =>
      word.2.plain c (hchars ▸ List.mem_append_left _ hc)
    obtain ⟨⟨d, hlogical, hreads⟩, -, hdeps''⟩ := (hgap.escape hplain).broken
    have hline : feedRule DepfileState.line s rule =
        (Common.feedGap DepfileState.line (init.foldl (feedWord DepfileState.line) (s, rule.lead)) word.1).1.line
          ((Common.feedGap DepfileState.line (init.foldl (feedWord DepfileState.line) (s, rule.lead)) word.1).2 ++
            escape chars ++ ['\\']) := by
      rw [feedRule, hwords, List.foldl_concat, feedWord, hescaped, ← List.append_assoc, DepfileState.line_space]
    rw [hline]
    exact ⟨⟨_, d, _, hlogical, hreads⟩, hdeps''.trans (hdeps'.trans hdeps)⟩

/-! ### Whole files -/

/-- What is read of rules comes behind what was read before. -/
theorem prefix_deps_feedRules (rules : List LaidRule) (s : DepfileState) (h : s.logical = [] ∨ Held s) :
    ∃ added, (rules.foldl (feedRule DepfileState.line) s).deps = s.deps ++ added := by
  induction rules generalizing s with
  | nil => exact ⟨[], (List.append_nil _).symm⟩
  | cons rule rules ih =>
    obtain ⟨target, deps, token, hfeeding⟩ : ∃ target deps token, Feeding target deps token (s, rule.lead) := by
      obtain hfresh | hheld := h
      · exact ⟨_, _, _, feeding_start hfresh rule⟩
      · obtain ⟨target, deps, hfeeding⟩ := hheld.feeding rule
        exact ⟨target, deps, _, hfeeding⟩
    rw [List.foldl_cons]
    by_cases hend : EndsWithSpace rule
    · obtain ⟨hheld, hdeps⟩ := feedRule_held hend hfeeding
      obtain ⟨added, hadded⟩ := ih _ (.inr hheld)
      exact ⟨added, by rw [hadded, hdeps]⟩
    · rw [feedRule_complete hend hfeeding]
      obtain ⟨added, hadded⟩ := ih ⟨[], true, _⟩ (.inl rfl)
      exact ⟨_, hadded.trans (List.append_assoc _ _ _)⟩

/-- Behind a rule that is kept, no rule is read, or a target is read as a path. -/
theorem Held.feedRules {s : DepfileState} (h : Held s) (rules : List LaidRule) :
    ∃ added, (rules.foldl (feedRule DepfileState.line) s).deps = s.deps ++ added ∧
      (added = [] ∨ ∃ dep ∈ added, ':' ∈ dep.toList) := by
  induction rules generalizing s with
  | nil => exact ⟨[], (List.append_nil _).symm, .inl rfl⟩
  | cons rule rules ih =>
    obtain ⟨target, deps, hfeeding⟩ := h.feeding rule
    rw [List.foldl_cons]
    by_cases hend : EndsWithSpace rule
    · obtain ⟨hheld, hdeps⟩ := feedRule_held hend hfeeding
      obtain ⟨added, hadded, hcolon⟩ := ih hheld
      exact ⟨added, by rw [hadded, hdeps], hcolon⟩
    · rw [feedRule_complete hend hfeeding]
      obtain ⟨added, hadded⟩ := prefix_deps_feedRules rules ⟨[], true, _⟩ (.inl rfl)
      refine ⟨_, hadded.trans (List.append_assoc _ _ _), .inr ⟨String.ofList (readPath rule.target.chars ++ [':']), ?_, ?_⟩⟩
      · rw [completed, if_neg (by simp)]
        simp
      · simp

/-- The paths of rules, as they are. -/
def prerequisiteNames (rules : List LaidRule) : List String :=
  rules.flatMap fun rule => rule.prerequisites.map fun path => String.ofList path.chars

/-- The first character of a path that is read, and the others. -/
theorem readPath_cons (c : Char) (path : List Char) :
    readPath (c :: path) = (if c = '$' then ['$', '$'] else [c]) ++ readPath path := List.flatMap_cons

/-- A path is read with twice its dollar signs. -/
theorem count_readPath (path : List Char) : (readPath path).count '$' = 2 * path.count '$' := by
  induction path with
  | nil => rfl
  | cons c path ih =>
    rw [readPath_cons, List.count_append, ih]
    by_cases hdollar : c = '$'
    · subst hdollar
      rw [if_pos rfl]
      simp only [List.count_cons_self, List.count_nil]
      omega
    · rw [if_neg hdollar, List.count_cons_of_ne hdollar, List.count_nil, List.count_cons_of_ne hdollar, Nat.zero_add]

/-- A path is read as it is when it has no dollar sign. -/
theorem readPath_eq_self_iff {path : List Char} : readPath path = path ↔ '$' ∉ path := by
  constructor
  · intro hself
    have hcount := count_readPath path
    rw [hself] at hcount
    exact List.count_eq_zero.mp (by omega)
  · intro hfree
    induction path with
    | nil => rfl
    | cons c path ih =>
      obtain ⟨hc, hrest⟩ := not_or.mp (mt List.mem_cons.mpr hfree)
      rw [readPath_cons, if_neg (Ne.symm hc), ih hrest]
      rfl

/-- No path of a rule has a colon in it. -/
theorem colon_notMem_prerequisiteNames {rules : List LaidRule} {dep : String} (h : dep ∈ prerequisiteNames rules) :
    ':' ∉ dep.toList := by
  obtain ⟨rule, -, hdep⟩ := List.mem_flatMap.mp h
  obtain ⟨path, -, rfl⟩ := List.mem_map.mp hdep
  rw [String.toList_ofList]
  exact fun hcolon => (path.plain ':' hcolon).2.1 rfl

/-- Rules that read well: no path has a dollar sign in it, and no rule's last path ends with a space. -/
def ReadWell (rules : List LaidRule) : Prop :=
  ∀ rule ∈ rules, (∀ path ∈ rule.prerequisites, '$' ∉ path.chars) ∧ ¬ EndsWithSpace rule

/-- The paths of a rule are read as they are when none has a dollar sign in it. -/
theorem map_readPath_eq_iff (paths : List RulePath) :
    paths.map (fun path => String.ofList (readPath path.chars)) = paths.map (fun path => String.ofList path.chars) ↔
      ∀ path ∈ paths, '$' ∉ path.chars := by
  rw [List.map_inj_left]
  refine forall₂_congr fun path _ => ?_
  rw [String.ofList_inj, readPath_eq_self_iff]

/-- From the start of a line on, the paths of rules are read as they are exactly when the rules read well. -/
theorem deps_feedRules_iff (rules : List LaidRule) {s : DepfileState} (h : s.logical = []) :
    (rules.foldl (feedRule DepfileState.line) s).deps = s.deps ++ prerequisiteNames rules ↔ ReadWell rules := by
  induction rules generalizing s with
  | nil => exact iff_of_true (List.append_nil _).symm fun _ hrule => absurd hrule List.not_mem_nil
  | cons rule rules ih =>
    have hsplit : prerequisiteNames (rule :: rules) =
        rule.prerequisites.map (fun path => String.ofList path.chars) ++ prerequisiteNames rules := List.flatMap_cons
    rw [ReadWell, List.forall_mem_cons, List.foldl_cons]
    by_cases hend : EndsWithSpace rule
    · refine iff_of_false (fun hread => ?_) fun hwell => hwell.1.2 hend
      obtain ⟨hheld, hdeps⟩ := feedRule_held hend (feeding_start h rule)
      obtain ⟨added, hadded, hcolon⟩ := hheld.feedRules rules
      rw [hadded, hdeps] at hread
      obtain rfl := List.append_cancel_left hread
      obtain hnone | ⟨dep, hdep, hmem⟩ := hcolon
      · obtain ⟨path, hpath, -⟩ := hend
        have hmem : String.ofList path.chars ∈ prerequisiteNames (rule :: rules) := by
          rw [hsplit]
          exact List.mem_append_left _ (List.mem_map.mpr ⟨path, List.mem_of_getLast? hpath, rfl⟩)
        rw [hnone] at hmem
        cases hmem
      · exact colon_notMem_prerequisiteNames hdep hmem
    · rw [feedRule_complete hend (feeding_start h rule), and_iff_left hend, hsplit, ← map_readPath_eq_iff]
      obtain ⟨added, hadded⟩ := prefix_deps_feedRules rules ⟨[], true, s.deps ++ ([] ++ completed [] ++
        rule.prerequisites.map fun path => String.ofList (readPath path.chars))⟩ (.inl rfl)
      have hrest := @ih ⟨[], true, s.deps ++ ([] ++ completed [] ++
        rule.prerequisites.map fun path => String.ofList (readPath path.chars))⟩ rfl
      rw [hadded, List.append_cancel_left_eq] at hrest
      rw [hadded, List.append_assoc, List.append_cancel_left_eq]
      constructor
      · intro hread
        have hread : rule.prerequisites.map (fun path => String.ofList (readPath path.chars)) ++ added = _ := hread
        obtain ⟨hfirst, hlater⟩ := List.append_inj hread (by rw [List.length_map, List.length_map])
        exact ⟨hfirst, hrest.mp hlater⟩
      · rintro ⟨hfirst, hwell⟩
        rw [hrest.mpr hwell, hfirst]
        rfl

/-- After a rule that reads well there was a target. -/
theorem sawTarget_feedRules {rules : List LaidRule} (hwell : ReadWell rules) {s : DepfileState} (h : s.logical = [])
    (hsome : s.sawTarget = true ∨ rules ≠ []) : (rules.foldl (feedRule DepfileState.line) s).sawTarget = true := by
  induction rules generalizing s with
  | nil => exact hsome.resolve_right fun hne => hne rfl
  | cons rule rules ih =>
    obtain ⟨hfirst, hrest⟩ := List.forall_mem_cons.mp hwell
    rw [List.foldl_cons, feedRule_complete hfirst.2 (feeding_start h rule)]
    exact ih hrest rfl (.inl rfl)

/-- The paths of rules are read as they are exactly when the rules read well. -/
theorem parseDepfile_rulesText_iff {rules : List LaidRule} (hne : rules ≠ []) :
    parseDepfile (String.ofList (rulesText rules)) = some (prerequisiteNames rules) ↔ ReadWell rules := by
  have hdeps := deps_feedRules_iff rules (rfl : (⟨[], false, []⟩ : DepfileState).logical = [])
  rw [List.nil_append] at hdeps
  unfold parseDepfile
  rw [String.toList_ofList, foldl_lines_rulesText]
  simp only
  split
  · rw [Option.some.injEq, hdeps]
  · rename_i hnone
    refine iff_of_false nofun fun hwell => hnone ?_
    exact sawTarget_feedRules hwell rfl (.inr hne)

end Forge.Backend.Cc
