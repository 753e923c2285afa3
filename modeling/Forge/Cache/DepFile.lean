import Forge.Backend.DepfileRules
import Forge.Cache.FileLevel

/-!
# Dependency files in the graph of files

The graph of files reads a dependency file with the broken lines put together first, and takes
each line that has a colon for a rule. Names with spaces are not supported. For rules without
spaces, number signs and dollar signs it adds one dependency for each prerequisite, which are
the paths that the reader of the fingerprints gives.
-/

namespace Forge.Cache

open Forge.Common Forge.Backend.Cc

/-- Why a dependency file is not read. -/
inductive DepFileError where
  | io
deriving DecidableEq

/-- Replace each occurrence of a text, from the left. Some characters of an occurrence are still to be skipped. -/
def replaceText (old new : List Char) : ℕ → List Char → List Char
  | _, [] => []
  | skip + 1, _ :: s => replaceText old new skip s
  | 0, c :: s => if old <+: c :: s then new ++ replaceText old new (old.length - 1) s else c :: replaceText old new 0 s

namespace FileDependencyGraph

/-- Add the dependencies of a line. -/
def addLine (g : FileDependencyGraph) (raw : List Char) : FileDependencyGraph :=
  let line := trim raw
  if line = [] ∨ line.head? = some '#' then g
  else
    match splitOnce ':' line with
    | none => g
    | some (before, behind) =>
      let target := trim before
      let depsStr := trim behind
      if target = [] then g
      else
        let targetPath := utf8Bytes (String.ofList target)
        (splitWhitespace depsStr).foldl (fun g dep => g.addDependency targetPath (utf8Bytes (String.ofList dep))) g

/-- Add the dependencies of a file, given what is read of it. -/
def parseDepFile (g : FileDependencyGraph) (depFile : Option Bytes) : Except DepFileError Unit × FileDependencyGraph :=
  match depFile.bind fromUtf8 with
  | none => (.error .io, g)
  | some content =>
    let joined := replaceText ['\\', '\n'] [' '] 0 (replaceText ['\\', '\r', '\n'] [' '] 0 content.toList)
    (.ok (), (lines joined).foldl addLine g)

/-- Lines can be continued, and there can be comments and several targets. -/
example : (new.parseDepFile (some (utf8Bytes
      "out.o: src/a.c src/b.c \\\n src/c.c\n# a comment line\nutil.o: util.c\n"))).2.getDependents (utf8Bytes "src/c.c") =
    [utf8Bytes "out.o"] := by decide

end FileDependencyGraph

/-! ### Broken lines put together -/

/-- A text that is replaced by another one, whatever comes behind it. -/
def Turns (old new s t : List Char) : Prop :=
  ∀ rest, replaceText old new 0 (s ++ rest) = t ++ replaceText old new 0 rest

namespace Turns

variable {old new s t s' t' : List Char}

/-- No text stays. -/
theorem nil : Turns old new [] [] := fun _ => rfl

/-- Two texts after each other. -/
theorem append (h : Turns old new s t) (h' : Turns old new s' t') : Turns old new (s ++ s') (t ++ t') := fun rest => by
  rw [List.append_assoc, h, h', List.append_assoc]

/-- A text without the first character of what is replaced stays. -/
theorem of_notMem {c : Char} {old : List Char} (h : c ∉ s) : Turns (c :: old) new s s := fun rest => by
  induction s with
  | nil => rfl
  | cons d s ih =>
    obtain ⟨hd, hs⟩ := not_or.mp (mt List.mem_cons.mpr h)
    rw [List.cons_append, replaceText, if_neg fun hprefix => hd (List.cons_prefix_cons.mp hprefix).1, ih hs]
    rfl

/-- Parts of a text one after another. -/
theorem flatMap {α : Type*} {f f' : α → List Char} {l : List α} (h : ∀ a ∈ l, Turns old new (f a) (f' a)) :
    Turns old new (l.flatMap f) (l.flatMap f') := by
  induction l with
  | nil => exact nil
  | cons a l ih =>
    obtain ⟨hfirst, hrest⟩ := List.forall_mem_cons.mp h
    exact hfirst.append (ih hrest)

/-- A whole text. -/
theorem replaceText (h : Turns old new s t) : Cache.replaceText old new 0 s = t := by
  have hend := h []
  rwa [List.append_nil, Cache.replaceText, List.append_nil] at hend

end Turns

/-- No path of a rule has a space, a number sign or a dollar sign in it. -/
def Simple (rule : LaidRule) : Prop :=
  ∀ path ∈ rule.target :: rule.prerequisites, ∀ c ∈ path.chars, c ≠ ' ' ∧ c ≠ '#' ∧ c ≠ '$'

/-- The text of a rule, with other texts for the breaks in it. -/
def textOf (breakText : Break → List Char) (rule : LaidRule) : List Char :=
  rule.lead ++ (rule.words.flatMap fun word => word.1.breaks.flatMap breakText ++ escape word.2.chars) ++ rule.ending.text

/-- The breaks after the first replacement. -/
def halfJoined : Break → List Char
  | .wrap .crlf => [' ']
  | b => b.text

/-- The breaks after both replacements. -/
def blankBreak (_ : Break) : List Char := [' ']

/-- There is no backslash in a path without spaces, number signs and dollar signs. -/
theorem backslash_notMem_escape {path : RulePath} (h : ∀ c ∈ path.chars, c ≠ ' ' ∧ c ≠ '#' ∧ c ≠ '$') :
    '\\' ∉ escape path.chars := by
  rw [escape_eq_self h]
  exact fun hc => (path.plain '\\' hc).1 rfl

/-- A replacement that starts with a backslash changes only the breaks of simple rules. -/
theorem turns_textOf {old new : List Char} {breakText breakText' : Break → List Char}
    (hbreak : ∀ b, Turns ('\\' :: old) new (breakText b) (breakText' b)) {rule : LaidRule} (hsimple : Simple rule) :
    Turns ('\\' :: old) new (textOf breakText rule) (textOf breakText' rule) := by
  obtain ⟨htarget, hpaths⟩ := List.forall_mem_cons.mp hsimple
  refine (Turns.append (.of_notMem ?_) (.flatMap fun word hword => ?_)).append (.of_notMem ?_)
  · exact fun h => (List.mem_append.mp h).elim (backslash_notMem_escape htarget) (by decide)
  · refine Turns.append (.flatMap fun b _ => hbreak b) (.of_notMem ?_)
    exact backslash_notMem_escape (hpaths word.2 (List.mem_map.mpr ⟨word, hword, rfl⟩))
  · cases rule.ending <;> decide

/-- Putting broken lines together leaves blanks in the place of all breaks. -/
theorem replaceText_rulesText {rules : List LaidRule} (hsimple : ∀ rule ∈ rules, Simple rule) :
    replaceText ['\\', '\n'] [' '] 0 (replaceText ['\\', '\r', '\n'] [' '] 0 (rulesText rules)) =
      rules.flatMap (textOf blankBreak) := by
  have hfirst : Turns ['\\', '\r', '\n'] [' '] (rulesText rules) (rules.flatMap (textOf halfJoined)) := by
    refine Turns.flatMap fun rule hrule => turns_textOf (fun b => ?_) (hsimple rule hrule)
    cases b with
    | blank => exact .of_notMem (by decide)
    | wrap ending => cases ending <;> exact fun _ => rfl
  have hsecond : Turns ['\\', '\n'] [' '] (rules.flatMap (textOf halfJoined)) (rules.flatMap (textOf blankBreak)) := by
    refine Turns.flatMap fun rule hrule => turns_textOf (fun b => ?_) (hsimple rule hrule)
    cases b with
    | blank => exact .of_notMem (by decide)
    | wrap ending =>
      cases ending with
      | lf => exact fun _ => rfl
      | crlf => exact .of_notMem (by decide)
  rw [hfirst.replaceText, hsecond.replaceText]

/-! ### One line a rule -/

/-- A word is its own only word. -/
theorem splitWhitespace_word {word : List Char} (hne : word ≠ []) (hsolid : ∀ c ∈ word, isWhitespace c = false) :
    splitWhitespace word = [word] := by
  rw [splitWhitespace, List.splitOnP_eq_singleton hsolid, List.filter_singleton, List.isEmpty_eq_false_iff.mpr hne]
  rfl

/-- Blanks in front have no words. -/
theorem splitWhitespace_blanks_append {blanks : List Char} (hblank : ∀ c ∈ blanks, isWhitespace c = true) (rest : List Char) :
    splitWhitespace (blanks ++ rest) = splitWhitespace rest := by
  induction blanks with
  | nil => rfl
  | cons c blanks ih =>
    obtain ⟨hc, hrest⟩ := List.forall_mem_cons.mp hblank
    have hsplit := splitWhitespace_append_cons [] (blanks ++ rest) hc
    rw [List.nil_append] at hsplit
    rw [List.cons_append, hsplit, ih hrest]
    rfl

/-- Blanks at the end have no words. -/
theorem splitWhitespace_append_blanks {blanks : List Char} (hblank : ∀ c ∈ blanks, isWhitespace c = true) (s : List Char) :
    splitWhitespace (s ++ blanks) = splitWhitespace s := by
  cases blanks with
  | nil => rw [List.append_nil]
  | cons c blanks =>
    obtain ⟨hc, hrest⟩ := List.forall_mem_cons.mp hblank
    have hnone := splitWhitespace_blanks_append hrest []
    rw [List.append_nil] at hnone
    rw [splitWhitespace_append_cons s blanks hc, hnone]
    exact List.append_nil _

/-- Trimming keeps the words. -/
theorem splitWhitespace_trim (s : List Char) : splitWhitespace (trim s) = splitWhitespace s := by
  have hfront : splitWhitespace (s.dropWhile isWhitespace) = splitWhitespace s := by
    conv_rhs => rw [← List.takeWhile_append_dropWhile (p := isWhitespace) (l := s)]
    exact (splitWhitespace_blanks_append (fun c hc => List.mem_takeWhile_imp hc) _).symm
  have hback : splitWhitespace (trimEnd (s.dropWhile isWhitespace)) = splitWhitespace (s.dropWhile isWhitespace) := by
    obtain ⟨blanks, hblank, hsplit⟩ := exists_eq_trimEnd_append (s.dropWhile isWhitespace)
    conv_rhs => rw [hsplit]
    exact (splitWhitespace_append_blanks hblank _).symm
  exact hback.trans hfront

/-- The words of a rule behind its colon. -/
def joinedWords (words : List (Gap × RulePath)) : List Char :=
  words.flatMap fun word => word.1.breaks.flatMap blankBreak ++ word.2.chars

/-- No character of a path without spaces is white space. -/
theorem isWhitespace_of_simple {path : RulePath} (h : ∀ c ∈ path.chars, c ≠ ' ' ∧ c ≠ '#' ∧ c ≠ '$') :
    ∀ c ∈ path.chars, isWhitespace c = false := fun c hc =>
  Bool.not_eq_true _ ▸ fun hspace => (h c hc).1 ((path.plain c hc).2.2 hspace)

/-- The words behind a word are the prerequisites. -/
theorem splitWhitespace_append_joinedWords {words : List (Gap × RulePath)}
    (hwords : ∀ word ∈ words, ∀ c ∈ word.2.chars, isWhitespace c = false) {first : List Char} (hne : first ≠ [])
    (hfirst : ∀ c ∈ first, isWhitespace c = false) :
    splitWhitespace (first ++ joinedWords words) = first :: words.map fun word => word.2.chars := by
  induction words generalizing first with
  | nil => exact (congrArg splitWhitespace (List.append_nil first)).trans (splitWhitespace_word hne hfirst)
  | cons word words ih =>
    obtain ⟨hword, hrest⟩ := List.forall_mem_cons.mp hwords
    have hblanks : ∀ breaks : List Break, ∀ c ∈ breaks.flatMap blankBreak, isWhitespace c = true := by
      intro breaks c hc
      obtain ⟨b, -, hc⟩ := List.mem_flatMap.mp hc
      rw [List.mem_singleton.mp hc]
      decide
    have htext : first ++ joinedWords (word :: words) =
        first ++ ' ' :: (word.1.others.flatMap blankBreak ++ (word.2.chars ++ joinedWords words)) := by
      rw [joinedWords, List.flatMap_cons, List.append_assoc]
      rfl
    rw [htext, splitWhitespace_append_cons first _ (by decide), splitWhitespace_word hne hfirst,
      splitWhitespace_blanks_append (hblanks _), ih hrest word.2.nonempty hword]
    rfl

/-- The words behind a colon are the prerequisites. -/
theorem splitWhitespace_joinedWords {words : List (Gap × RulePath)}
    (hwords : ∀ word ∈ words, ∀ c ∈ word.2.chars, isWhitespace c = false) :
    splitWhitespace (joinedWords words) = words.map fun word => word.2.chars := by
  have hmark := splitWhitespace_append_joinedWords hwords (List.cons_ne_nil ':' [])
    (List.forall_mem_singleton.mpr (by decide))
  cases words with
  | nil => rfl
  | cons word words =>
    -- The colon in front is a word of its own, as there is a gap behind it.
    have hgap : [':'] ++ joinedWords (word :: words) = [':'] ++ ' ' :: (joinedWords (word :: words)).tail := rfl
    have hsame : joinedWords (word :: words) = [' '] ++ (joinedWords (word :: words)).tail := rfl
    rw [hgap, splitWhitespace_append_cons [':'] _ (by decide)] at hmark
    rw [hsame, splitWhitespace_blanks_append (List.forall_mem_singleton.mpr (by decide))]
    exact (List.cons.inj hmark).2

/-- The dependencies of rules: one for each prerequisite. -/
def ruleEdges (rules : List LaidRule) : List (PathBuf × PathBuf) :=
  rules.flatMap fun rule => rule.prerequisites.map fun path =>
    (utf8Bytes (String.ofList rule.target.chars), utf8Bytes (String.ofList path.chars))

/-- The line of a simple rule adds its dependencies. -/
theorem addLine_rule (g : FileDependencyGraph) {rule : LaidRule} (hsimple : Simple rule) :
    g.addLine (rule.target.chars ++ [':'] ++ joinedWords rule.words) = g.addDependencies (ruleEdges [rule]) := by
  obtain ⟨htarget, hpaths⟩ := List.forall_mem_cons.mp hsimple
  have hsolid := isWhitespace_of_simple htarget
  obtain ⟨c, chars, hchars⟩ := List.exists_cons_of_ne_nil rule.target.nonempty
  have hc : c ∈ rule.target.chars := hchars ▸ List.mem_cons_self
  have htrimmed : trim (rule.target.chars ++ [':'] ++ joinedWords rule.words) =
      rule.target.chars ++ ':' :: trimEnd (joinedWords rule.words) := by
    have hhead : ∀ d, (rule.target.chars ++ [':'] ++ joinedWords rule.words).head? = some d → isWhitespace d = false := by
      intro d hd
      rw [hchars] at hd
      exact Option.some.inj hd ▸ hsolid c hc
    rw [trim_eq_trimEnd hhead, trimEnd_append (by decide), List.append_assoc]
    rfl
  have hnot : ¬ (rule.target.chars ++ ':' :: trimEnd (joinedWords rule.words) = [] ∨
      (rule.target.chars ++ ':' :: trimEnd (joinedWords rule.words)).head? = some '#') := by
    rw [hchars]
    rintro (hnil | hnumber)
    · cases hnil
    · exact (htarget c hc).2.1 (Option.some.inj hnumber)
  have hcolon : ':' ∉ rule.target.chars := fun h => (rule.target.plain ':' h).2.1 rfl
  have hself : trim rule.target.chars = rule.target.chars := by
    refine trimMatches_eq_self (fun d hd => hsolid d (List.mem_of_mem_head? hd)) fun d hd => ?_
    exact hsolid d (List.mem_of_getLast? hd)
  have hwords : splitWhitespace (trim (trimEnd (joinedWords rule.words))) = rule.prerequisites.map RulePath.chars := by
    rw [trim_trimEnd, splitWhitespace_trim, splitWhitespace_joinedWords, LaidRule.prerequisites, List.map_map]
    · rfl
    · exact fun word hword => isWhitespace_of_simple (hpaths word.2 (List.mem_map.mpr ⟨word, hword, rfl⟩))
  unfold FileDependencyGraph.addLine
  simp only [htrimmed, if_neg hnot, splitOnce_append hcolon, hself, if_neg rule.target.nonempty, hwords]
  rw [FileDependencyGraph.addDependencies, ruleEdges, List.flatMap_singleton, List.foldl_map, List.foldl_map]

/-- A path is unbroken. -/
theorem unbroken_chars (path : RulePath) : Unbroken path.chars := by
  constructor
  · exact fun h => absurd ((path.plain '\n' h).2.2 (by decide)) (by decide)
  · exact fun h => absurd ((path.plain '\r' h).2.2 (by decide)) (by decide)

/-- The words of a rule are unbroken when its lines are put together. -/
theorem unbroken_joinedWords (words : List (Gap × RulePath)) : Unbroken (joinedWords words) := by
  have hword : ∀ word ∈ words, Unbroken (word.1.breaks.flatMap blankBreak ++ word.2.chars) := by
    intro word _
    refine Unbroken.append ⟨fun h => ?_, fun h => ?_⟩ (unbroken_chars word.2)
    · obtain ⟨b, -, hb⟩ := List.mem_flatMap.mp h
      exact absurd (List.mem_singleton.mp hb) (by decide)
    · obtain ⟨b, -, hb⟩ := List.mem_flatMap.mp h
      exact absurd (List.mem_singleton.mp hb) (by decide)
  constructor
  · intro h
    obtain ⟨word, hmem, hc⟩ := List.mem_flatMap.mp h
    exact (hword word hmem).1 hc
  · intro h
    obtain ⟨word, hmem, hc⟩ := List.mem_flatMap.mp h
    exact (hword word hmem).2 hc

/-- The file of simple rules adds one dependency for each prerequisite, and nothing else. -/
theorem parseDepFile_rulesText (g : FileDependencyGraph) {rules : List LaidRule} (hsimple : ∀ rule ∈ rules, Simple rule) :
    g.parseDepFile (some (utf8Bytes (String.ofList (rulesText rules)))) = (.ok (), g.addDependencies (ruleEdges rules)) := by
  unfold FileDependencyGraph.parseDepFile
  rw [Option.bind_some, fromUtf8_utf8Bytes]
  simp only [String.toList_ofList, replaceText_rulesText hsimple]
  congr 1
  induction rules generalizing g with
  | nil => rfl
  | cons rule rules ih =>
    obtain ⟨hfirst, hrest⟩ := List.forall_mem_cons.mp hsimple
    obtain ⟨htarget, hpaths⟩ := List.forall_mem_cons.mp hfirst
    have hline : textOf blankBreak rule = rule.target.chars ++ [':'] ++ joinedWords rule.words ++ rule.ending.text := by
      have hwords : rule.words.flatMap (fun word => word.1.breaks.flatMap blankBreak ++ escape word.2.chars) =
          joinedWords rule.words := by
        refine List.flatMap_congr fun word hword => ?_
        rw [escape_eq_self (hpaths word.2 (List.mem_map.mpr ⟨word, hword, rfl⟩))]
      rw [textOf, LaidRule.lead, escape_eq_self htarget, hwords]
    have hunbroken : Unbroken (rule.target.chars ++ [':'] ++ joinedWords rule.words) :=
      ((unbroken_chars rule.target).append ⟨by decide, by decide⟩).append (unbroken_joinedWords rule.words)
    have hedges : ruleEdges (rule :: rules) = ruleEdges [rule] ++ ruleEdges rules := by
      rw [ruleEdges, List.flatMap_cons, ruleEdges, List.flatMap_singleton]
      rfl
    rw [List.flatMap_cons, hline, List.append_assoc _ rule.ending.text, lines_append_text hunbroken, List.foldl_cons,
      addLine_rule g hfirst, ih _ hrest, hedges, FileDependencyGraph.addDependencies, FileDependencyGraph.addDependencies,
      FileDependencyGraph.addDependencies, List.foldl_append]

/-! ### Both readers -/

/-- For every file of rules as compilers write them: the reader of the fingerprints gives the
prerequisites of all rules and the graph adds one dependency for each of them, when the paths are
simple, if and only if no prerequisite has a dollar sign in it and no rule's last one ends with
a space. -/
theorem depfileReaders_exact_iff (rules : List LaidRule) (hne : rules ≠ []) (files : FileSystem) (path : String)
    (hfile : files.lookup (components path) = some (.file (utf8Bytes (String.ofList (rulesText rules)))))
    (g : FileDependencyGraph) :
    (readDepfile files path = some (prerequisiteNames rules) ∧
        ((∀ rule ∈ rules, Simple rule) →
          g.parseDepFile (some (utf8Bytes (String.ofList (rulesText rules)))) =
            (.ok (), g.addDependencies (ruleEdges rules)))) ↔
      ReadWell rules := by
  have hread : readDepfile files path = parseDepfile (String.ofList (rulesText rules)) := by
    unfold readDepfile
    rw [hfile]
    simp only [fromUtf8_utf8Bytes, Option.bind_some]
  rw [hread, parseDepfile_rulesText_iff hne]
  exact and_iff_left fun hsimple => parseDepFile_rulesText g hsimple

/-- A target with one prerequisite, which has a dollar sign in it. -/
def dollarRule : LaidRule where
  target := ⟨['o'], by decide, List.forall_iff_forall_mem.mp (by decide)⟩
  words := [(⟨.blank, []⟩, ⟨['a', '$', 'b'], by decide, List.forall_iff_forall_mem.mp (by decide)⟩)]
  ending := .lf

/-- The file system with its file. -/
def dollarFiles : FileSystem :=
  AList.singleton (components "o.d") (.file (utf8Bytes (String.ofList (rulesText [dollarRule]))))

/-- The file of the rule. -/
theorem depfileReaders_exact_iff_dollar :
    (readDepfile dollarFiles "o.d" = some (prerequisiteNames [dollarRule]) ∧
        ((∀ rule ∈ [dollarRule], Simple rule) →
          FileDependencyGraph.new.parseDepFile (some (utf8Bytes (String.ofList (rulesText [dollarRule])))) =
            (.ok (), FileDependencyGraph.new.addDependencies (ruleEdges [dollarRule])))) ↔
      ReadWell [dollarRule] :=
  depfileReaders_exact_iff [dollarRule] (List.cons_ne_nil _ _) dollarFiles "o.d" rfl FileDependencyGraph.new

/-- A dollar sign is read twice. -/
theorem not_depfileReaders_exact :
    ¬ ∀ (rules : List LaidRule), rules ≠ [] → ∀ (files : FileSystem) (path : String),
      files.lookup (components path) = some (.file (utf8Bytes (String.ofList (rulesText rules)))) →
        ∀ g : FileDependencyGraph, readDepfile files path = some (prerequisiteNames rules) ∧
          ((∀ rule ∈ rules, Simple rule) →
            g.parseDepFile (some (utf8Bytes (String.ofList (rulesText rules)))) =
              (.ok (), g.addDependencies (ruleEdges rules))) := by
  intro h
  have hread := (h [dollarRule] (List.cons_ne_nil _ _) dollarFiles "o.d" rfl FileDependencyGraph.new).1
  exact absurd hread (by decide)

end Forge.Cache
