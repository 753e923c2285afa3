import Forge.Common.Text
import Forge.Plugin.TaskGraph

/-!
# Reading rules back from their text

A file of rules has a line that opens a rule, a line for each of its fields, and a line that
closes it. The reader takes the lines by what they start with, and splits a list at its
commas before it takes the quotes away. So a name and a command are read back whatever is in
them, but an item of a list only when it is not empty and has no comma in it.
-/

namespace Forge.Plugin

open Forge.Common Forge.Backend

/-- A rule that is being read. -/
structure RuleBuilder where
  name : Option (List Char)
  command : Option (List Char)
  args : List (List Char)
  inputs : List (List Char)
  outputs : List (List Char)
  dependsOn : List (List Char)

/-- A rule of which nothing was read. -/
def RuleBuilder.new : RuleBuilder := ⟨none, none, [], [], [], []⟩

/-- Whether a text starts and ends with a character. -/
def isQuotedBy (quote : Char) (s : List Char) : Bool := s.head? = some quote && s.getLast? = some quote

/-- A value without blanks around it, and without quotes around it. -/
def cleanString (val : List Char) : List Char :=
  let trimmed := trim val
  if (isQuotedBy '"' trimmed || isQuotedBy '\'' trimmed) && 2 ≤ trimmed.length then (trimmed.drop 1).dropLast
  else trimmed

/-- The items of a list, with or without brackets around it. -/
def parseStringList (val : List Char) : List (List Char) :=
  let trimmed := trim val
  let inner :=
    if trimmed.head? = some '[' ∧ trimmed.getLast? = some ']' then (trimmed.drop 1).dropLast else trimmed
  ((inner.splitOn ',').map cleanString).filter (· ≠ [])

/-- The key and the value of a line, without a comma at its end. -/
def parseKeyValue (line : List Char) : Option (List Char × List Char) :=
  (splitOnce '=' line).map fun (key, val) =>
    let val := trim val
    (trim key, if val.getLast? = some ',' then trim val.dropLast else val)

namespace RuleBuilder

/-- Take the value of a key. Other keys are ignored. -/
def setField (builder : RuleBuilder) (key val : List Char) : RuleBuilder :=
  let key := String.ofList key
  if key = "name" then { builder with name := some (cleanString val) }
  else if key ∈ ["cmd", "command", "executable"] then { builder with command := some (cleanString val) }
  else if key ∈ ["args", "arguments"] then { builder with args := parseStringList val }
  else if key ∈ ["srcs", "inputs", "sources"] then { builder with inputs := parseStringList val }
  else if key ∈ ["outs", "outputs"] then { builder with outputs := parseStringList val }
  else if key ∈ ["deps", "depends_on"] then { builder with dependsOn := parseStringList val }
  else builder

/-- The rule that was read. -/
def build (builder : RuleBuilder) : Except PluginError RuleSpec :=
  match builder.name with
  | none => .error (.manifest "Missing required `name` in rule")
  | some name =>
    .ok
      { name := String.ofList name
        command := String.ofList (builder.command.getD "echo".toList)
        args := builder.args.map String.ofList
        inputs := builder.inputs.map String.ofList
        outputs := builder.outputs.map String.ofList
        dependsOn := builder.dependsOn.map String.ofList
        env := ⟨[], StringMap.sorted_nil⟩ }

end RuleBuilder

/-- What a line that opens a rule starts with. -/
def ruleStarts : List String := ["fish_rule(", "rule(", "genrule(", "cc_binary(", "rust_binary("]

/-- The rules that were read, with the one that is being read, if any, behind them. -/
def pushRule (rules : List RuleSpec) : Option RuleBuilder → Except PluginError (List RuleSpec)
  | none => .ok rules
  | some builder => builder.build.map fun rule => rules ++ [rule]

/-- Read a line. -/
def readLine (rules : List RuleSpec) (current : Option RuleBuilder) (line : List Char) :
    Except PluginError (List RuleSpec × Option RuleBuilder) :=
  let trimmed := trim line
  if trimmed = [] ∨ trimmed.head? = some '#' then .ok (rules, current)
  else if ruleStarts.any (·.toList <+: trimmed) then (pushRule rules current).map fun rules => (rules, some .new)
  else if trimmed = [')'] ∨ trimmed = [')', ','] then (pushRule rules current).map fun rules => (rules, none)
  else
    match current, parseKeyValue trimmed with
    | some builder, some (key, val) => .ok (rules, some (builder.setField key val))
    | _, _ => .ok (rules, current)

/-- Read lines. -/
def parseLines : List (List Char) → List RuleSpec → Option RuleBuilder → Except PluginError (List RuleSpec)
  | [], rules, current => pushRule rules current
  | line :: rest, rules, current =>
    match readLine rules current line with
    | .error e => .error e
    | .ok (rules, current) => parseLines rest rules current

/-- Read a file of rules. -/
def parseStr (content : List Char) : Except PluginError PluginRulesManifest :=
  (parseLines (lines content) [] none).map fun rules => ⟨"starlark-manifest", rules⟩

/-! ## The text of rules -/

/-- How the fields are written: how far they are indented, and whether commas stand behind them. -/
structure FieldStyle where
  indent : ℕ
  comma : Bool

/-- A text in quotes. -/
def quoted (s : List Char) : List Char := '"' :: (s ++ ['"'])

/-- A list of texts in quotes. -/
def quotedList (items : List (List Char)) : List Char :=
  '[' :: (", ".toList.intercalate (items.map quoted) ++ [']'])

/-- The line of a field. -/
def fieldLine (style : FieldStyle) (key : String) (value : List Char) : List Char :=
  List.replicate style.indent ' ' ++ (key.toList ++ " = ".toList ++ value ++ if style.comma then [','] else [])

/-- The lines of a rule. -/
def ruleLines (style : FieldStyle) (rule : RuleSpec) : List (List Char) :=
  ["fish_rule(".toList,
    fieldLine style "name" (quoted rule.name.toList),
    fieldLine style "command" (quoted rule.command.toList),
    fieldLine style "args" (quotedList (rule.args.map String.toList)),
    fieldLine style "inputs" (quotedList (rule.inputs.map String.toList)),
    fieldLine style "outputs" (quotedList (rule.outputs.map String.toList)),
    fieldLine style "deps" (quotedList (rule.dependsOn.map String.toList)),
    [')']]

/-- The text of rules. -/
def renderRules (style : FieldStyle) (rules : List RuleSpec) : List Char :=
  (rules.flatMap (ruleLines style)).flatMap (· ++ ['\n'])

/-- The texts of a rule, its items last. -/
def RuleSpec.items (rule : RuleSpec) : List String := rule.args ++ rule.inputs ++ rule.outputs ++ rule.dependsOn

/-- A rule without environment. -/
def RuleSpec.withoutEnv (rule : RuleSpec) : RuleSpec := { rule with env := ⟨[], StringMap.sorted_nil⟩ }

/-- There are no line breaks and no double quotes in the texts of a rule. -/
def RuleSpec.Plain (rule : RuleSpec) : Prop :=
  ∀ text ∈ rule.name :: rule.command :: rule.items, '\n' ∉ text.toList ∧ '"' ∉ text.toList

/-! ## Items -/

/-- The items as which an item is read. -/
def pieces (item : List Char) : List (List Char) :=
  (((quoted item).splitOn ',').map cleanString).filter (· ≠ [])

/-- Text between characters that are no blanks is trimmed already. -/
theorem trim_between {first last : Char} (hfirst : isWhitespace first = false) (hlast : isWhitespace last = false)
    (s : List Char) : trim (first :: (s ++ [last])) = first :: (s ++ [last]) := by
  refine trimMatches_eq_self (fun c hc => ?_) (fun c hc => ?_)
  · rw [← Option.some.inj hc]
    exact hfirst
  · rw [← List.cons_append, List.getLast?_concat, Option.some.injEq] at hc
    rw [← hc]
    exact hlast

/-- Quotes are taken away. -/
theorem cleanString_quoted (s : List Char) : cleanString (quoted s) = s := by
  have htrim : trim (quoted s) = quoted s := trim_between (by decide) (by decide) s
  have hlast : (quoted s).getLast? = some '"' := by rw [quoted, ← List.cons_append, List.getLast?_concat]
  have hquoted : isQuotedBy '"' (quoted s) = true := by
    rw [isQuotedBy, hlast]
    rfl
  have hlength : 2 ≤ (quoted s).length := by simp [quoted]
  rw [cleanString, htrim, hquoted, Bool.true_or, Bool.true_and, decide_eq_true hlength, if_pos rfl]
  exact List.dropLast_concat

/-- A blank in front is ignored. -/
theorem cleanString_blank (s : List Char) : cleanString (' ' :: s) = cleanString s := by
  have hblank : ∀ c ∈ [' '], isWhitespace c = true := List.forall_mem_singleton.mpr (by decide)
  have htrim : trim (' ' :: s) = trim s := trimMatches_append_left hblank
  rw [cleanString, htrim, ← cleanString]

/-- A quote in front that is not matched stays. -/
theorem quote_mem_cleanString {s : List Char} (hs : '"' ∉ s) : '"' ∈ cleanString ('"' :: s) := by
  have htrim : trim ('"' :: s) = '"' :: trimEnd s := by
    rw [trim_eq_trimEnd (by intro c hc; rw [← Option.some.inj hc]; decide)]
    exact @trimEnd_append [] '"' (by decide) s
  have hplain : '"' ∉ trimEnd s := by
    obtain ⟨blanks, -, heq⟩ := exists_eq_trimEnd_append s
    exact fun hmem => hs (heq ▸ List.mem_append_left blanks hmem)
  rw [cleanString, htrim]
  split
  · rename_i hquoted
    obtain ⟨hends, hlength⟩ := Bool.and_eq_true_iff.mp hquoted
    have hne : trimEnd s ≠ [] := by
      intro hnil
      rw [hnil] at hlength
      exact absurd hlength (by decide)
    -- There is no quote at its end, and it does not start with the other kind of quote.
    have hlast : ('"' :: trimEnd s).getLast? ≠ some '"' := by
      rw [List.getLast?_cons_of_ne_nil hne]
      exact fun hlast => hplain (List.mem_of_getLast? hlast)
    simp [isQuotedBy, hlast] at hends
  · exact List.mem_cons_self

/-- An item without commas is read back, unless it is empty. -/
theorem pieces_of_notMem {item : List Char} (hitem : ',' ∉ item) : pieces item = if item = [] then [] else [item] := by
  have hquoted : ',' ∉ quoted item := by
    simp [quoted, hitem]
  rw [pieces, List.splitOn_eq_singleton hquoted, List.map_singleton, cleanString_quoted]
  by_cases hnil : item = []
  · rw [if_pos hnil, List.filter_singleton, hnil]
    rfl
  · rw [if_neg hnil, List.filter_singleton, decide_eq_true hnil]
    rfl

/-- Of an item with a comma there remains a quote. -/
theorem exists_quote_of_mem {item : List Char} (hitem : ',' ∈ item) (hplain : '"' ∉ item) :
    ∃ piece ∈ pieces item, '"' ∈ piece := by
  obtain ⟨before, after, rfl, hbefore⟩ := List.eq_append_cons_of_mem hitem
  have hsplit : (quoted (before ++ ',' :: after)).splitOn ',' = ('"' :: before) :: (after ++ ['"']).splitOn ',' := by
    have hstart : ',' ∉ '"' :: before := by simp [hbefore]
    have happend : quoted (before ++ ',' :: after) = ('"' :: before) ++ ',' :: (after ++ ['"']) := by simp [quoted]
    rw [happend, List.splitOn_append_cons_self_of_not_mem hstart]
  have hquote := quote_mem_cleanString fun hmem => hplain (List.mem_append_left (',' :: after) hmem)
  refine ⟨cleanString ('"' :: before), ?_, hquote⟩
  rw [pieces, hsplit, List.map_cons, List.mem_filter]
  exact ⟨List.mem_cons_self, decide_eq_true (List.ne_nil_of_mem hquote)⟩

/-- A blank in front of the items of a list is ignored. -/
theorem map_cleanString_blank (s : List Char) :
    ((' ' :: s).splitOn ',').map cleanString = (s.splitOn ',').map cleanString := by
  rw [List.splitOn_cons_eq_if_modifyHead, if_neg (by decide)]
  cases hsplit : s.splitOn ',' with
  | nil => exact absurd hsplit (List.splitOn_ne_nil ',' s)
  | cons first rest => rw [List.modifyHead_cons, List.map_cons, cleanString_blank, List.map_cons]

/-- A list is read item by item. -/
theorem parseStringList_quotedList (items : List (List Char)) :
    parseStringList (quotedList items) = items.flatMap pieces := by
  have hinner : ∀ items : List (List Char),
      (((", ".toList.intercalate (items.map quoted)).splitOn ',').map cleanString).filter (· ≠ []) = items.flatMap pieces := by
    intro items
    induction items with
    | nil => decide
    | cons item items ih =>
      cases items with
      | nil => simp [pieces]
      | cons next items =>
        have hcomma : ", ".toList.intercalate ((item :: next :: items).map quoted) =
            quoted item ++ ',' :: (' ' :: ", ".toList.intercalate ((next :: items).map quoted)) := by
          rw [List.map_cons, List.map_cons, List.intercalate_cons_cons, List.append_assoc]
          rfl
        rw [hcomma, List.splitOn_append_cons_self, List.map_append, map_cleanString_blank, List.filter_append, ih]
        rfl
  have htrim : trim (quotedList items) = quotedList items := trim_between (by decide) (by decide) _
  have hlast : (quotedList items).getLast? = some ']' := by rw [quotedList, ← List.cons_append, List.getLast?_concat]
  rw [parseStringList, htrim, if_pos ⟨rfl, hlast⟩, ← hinner]
  exact congrArg (fun inner => ((List.splitOn ',' inner).map cleanString).filter (· ≠ [])) List.dropLast_concat

/-- Without quotes in the items, a list is read back exactly when no item is empty or has a comma in it. -/
theorem parseStringList_quotedList_eq_iff {items : List (List Char)} (hplain : ∀ item ∈ items, '"' ∉ item) :
    parseStringList (quotedList items) = items ↔ ∀ item ∈ items, item ≠ [] ∧ ',' ∉ item := by
  rw [parseStringList_quotedList]
  by_cases hcomma : ∃ item ∈ items, ',' ∈ item
  · obtain ⟨item, hitem, hmem⟩ := hcomma
    refine iff_of_false (fun heq => ?_) fun h => (h item hitem).2 hmem
    obtain ⟨piece, hpiece, hquote⟩ := exists_quote_of_mem hmem (hplain item hitem)
    exact hplain piece (heq ▸ List.mem_flatMap.mpr ⟨item, hitem, hpiece⟩) hquote
  · have hnone : ∀ item ∈ items, ',' ∉ item := fun item hitem hmem => hcomma ⟨item, hitem, hmem⟩
    have hpieces : items.flatMap pieces = items.filter (· ≠ []) := by
      rw [List.flatMap_congr fun item hitem => pieces_of_notMem (hnone item hitem)]
      clear hplain hcomma hnone
      induction items with
      | nil => rfl
      | cons item items ih =>
        rw [List.flatMap_cons, ih, List.filter_cons]
        by_cases hnil : item = [] <;> simp [hnil]
    rw [hpieces, List.filter_eq_self]
    exact ⟨fun h item hitem => ⟨of_decide_eq_true (h item hitem), hnone item hitem⟩,
      fun h item hitem => decide_eq_true (h item hitem).1⟩

/-! ## Lines -/

/-- Text starts and ends with characters that are no blanks, and ends with no comma. -/
structure Enclosed (value : List Char) : Prop where
  head : ∀ c, value.head? = some c → isWhitespace c = false
  last : ∃ c, value.getLast? = some c ∧ isWhitespace c = false ∧ c ≠ ','

/-- Text between brackets or quotes is enclosed. -/
theorem enclosed_between {first last : Char} (hfirst : isWhitespace first = false) (hlast : isWhitespace last = false)
    (hcomma : last ≠ ',') (s : List Char) : Enclosed (first :: (s ++ [last])) where
  head := by
    intro c hc
    rw [← Option.some.inj hc]
    exact hfirst
  last := ⟨last, by rw [← List.cons_append, List.getLast?_concat], hlast, hcomma⟩

/-- Enclosed text is trimmed already. -/
theorem Enclosed.trim_eq {value : List Char} (h : Enclosed value) : trim value = value := by
  obtain ⟨last, hlast, hspace, -⟩ := h.last
  refine trimMatches_eq_self h.head fun c hc => ?_
  rw [← Option.some.inj (hlast.symm.trans hc)]
  exact hspace

/-- A value with a comma behind it or without one. -/
def withComma (style : FieldStyle) (value : List Char) : List Char :=
  value ++ if style.comma then [','] else []

/-- With a comma behind it or without one, a value ends with a character that is no blank. -/
theorem Enclosed.withComma_last {value : List Char} (h : Enclosed value) (style : FieldStyle) :
    ∃ last, (withComma style value).getLast? = some last ∧ isWhitespace last = false := by
  unfold withComma
  cases style.comma with
  | false =>
    obtain ⟨last, hlast, hspace, -⟩ := h.last
    exact ⟨last, by rw [if_neg Bool.false_ne_true, List.append_nil, hlast], hspace⟩
  | true => exact ⟨',', by rw [if_pos rfl, List.getLast?_concat], by decide⟩

/-- The value is read back, without the comma. -/
theorem Enclosed.trim_withComma {value : List Char} (h : Enclosed value) (style : FieldStyle) :
    trim (withComma style value) = withComma style value ∧
      (if (withComma style value).getLast? = some ',' then trim (withComma style value).dropLast
        else withComma style value) = value := by
  obtain ⟨last, hlast, -, hcomma⟩ := h.last
  obtain ⟨end', hend, hspace⟩ := h.withComma_last style
  have hne : value ≠ [] := by
    rintro rfl
    exact absurd hlast nofun
  constructor
  · refine trimMatches_eq_self (fun c hc => ?_) (fun c hc => ?_)
    · rw [withComma, List.head?_append_of_ne_nil _ hne] at hc
      exact h.head c hc
    · rw [← Option.some.inj (hend.symm.trans hc)]
      exact hspace
  · unfold withComma
    cases style.comma with
    | false =>
      rw [if_neg Bool.false_ne_true, List.append_nil, hlast, if_neg fun heq => hcomma (Option.some.inj heq)]
    | true =>
      rw [if_pos rfl, List.getLast?_concat, if_pos rfl, List.dropLast_concat]
      exact h.trim_eq

/-- The keys of the fields that are written. -/
def fieldKeys : List String := ["name", "command", "args", "inputs", "outputs", "deps"]

/-- The keys are taken for nothing else. -/
theorem fieldKeys_plain : ∀ key ∈ fieldKeys, key.toList ≠ [] ∧ trim (key.toList ++ [' ']) = key.toList ∧ '=' ∉ key.toList ++ [' '] ∧
    (key.toList.head?.all fun c => !isWhitespace c && c != '#' && c != ')') = true ∧
      ∀ start ∈ ruleStarts, ' ' ∉ start.toList ∧ ¬ start.toList <+: key.toList := by
  decide

/-- The line of a field is that of its key and its value. -/
theorem readLine_fieldLine (style : FieldStyle) {key : String} (hkey : key ∈ fieldKeys) {value : List Char}
    (hvalue : Enclosed value) (rules : List RuleSpec) (builder : RuleBuilder) :
    readLine rules (some builder) (fieldLine style key value) = .ok (rules, some (builder.setField key.toList value)) := by
  obtain ⟨hne, hkeyTrim, hkeyPlain, hhead, hstarts⟩ := fieldKeys_plain key hkey
  obtain ⟨hvalueTrim, hvalueBack⟩ := hvalue.trim_withComma style
  have hbody : key.toList ++ " = ".toList ++ value ++ (if style.comma then [','] else []) =
      (key.toList ++ [' ']) ++ '=' :: (' ' :: withComma style value) := by
    simp [withComma]
  obtain ⟨c, chars, hkeyChars⟩ := List.exists_cons_of_ne_nil hne
  rw [hkeyChars, List.head?_cons, Option.all_some] at hhead
  simp only [Bool.and_eq_true, Bool.not_eq_true', bne_iff_ne] at hhead
  obtain ⟨⟨hspace, hhash⟩, hparen⟩ := hhead
  have htrim : trim (fieldLine style key value) = key.toList ++ [' '] ++ '=' :: (' ' :: withComma style value) := by
    have hblanks : ∀ c ∈ List.replicate style.indent ' ', isWhitespace c = true := by
      intro c hc
      rw [List.eq_of_mem_replicate hc]
      decide
    obtain ⟨last, hlast, hend⟩ := hvalue.withComma_last style
    rw [fieldLine, hbody, trim, trimMatches_append_left hblanks]
    refine trimMatches_eq_self (fun d hd => ?_) (fun d hd => ?_)
    · rw [hkeyChars] at hd
      rw [← Option.some.inj hd]
      exact hspace
    · have hne' : withComma style value ≠ [] := by
        intro hnil
        rw [hnil] at hlast
        cases hlast
      rw [List.getLast?_append_of_ne_nil _ (List.cons_ne_nil _ _), List.getLast?_cons_of_ne_nil (List.cons_ne_nil _ _),
        List.getLast?_cons_of_ne_nil hne', hlast] at hd
      rw [← Option.some.inj hd]
      exact hend
  have hparse : parseKeyValue (key.toList ++ [' '] ++ '=' :: (' ' :: withComma style value)) = some (key.toList, value) := by
    have hblank : ∀ c ∈ [' '], isWhitespace c = true := List.forall_mem_singleton.mpr (by decide)
    have hvalueBlank : trim (' ' :: withComma style value) = withComma style value :=
      (trimMatches_append_left hblank).trans hvalueTrim
    rw [parseKeyValue, splitOnce_append hkeyPlain, Option.map_some]
    dsimp only
    rw [hkeyTrim, hvalueBlank, hvalueBack]
  have hempty : ¬ (key.toList ++ [' '] ++ '=' :: (' ' :: withComma style value) = [] ∨
      (key.toList ++ [' '] ++ '=' :: (' ' :: withComma style value)).head? = some '#') := by
    simp [hkeyChars, hhash]
  have hstart : ¬ ruleStarts.any (·.toList <+: key.toList ++ [' '] ++ '=' :: (' ' :: withComma style value)) = true := by
    intro hany
    obtain ⟨start, hstart, hprefix⟩ := List.any_eq_true.mp hany
    obtain ⟨hblank, hnot⟩ := hstarts start hstart
    rw [decide_eq_true_iff, List.append_assoc, List.singleton_append, prefix_append_cons_iff hblank] at hprefix
    exact hnot hprefix
  have hclose : ¬ (key.toList ++ [' '] ++ '=' :: (' ' :: withComma style value) = [')'] ∨
      key.toList ++ [' '] ++ '=' :: (' ' :: withComma style value) = [')', ',']) := by
    simp [hkeyChars, hparen]
  unfold readLine
  rw [htrim, if_neg hempty, if_neg hstart, if_neg hclose, hparse]

/-- What the fields of a rule are read as. -/
def readBack (rule : RuleSpec) : RuleSpec :=
  let items := fun texts : List String => (parseStringList (quotedList (texts.map String.toList))).map String.ofList
  { name := rule.name
    command := rule.command
    args := items rule.args
    inputs := items rule.inputs
    outputs := items rule.outputs
    dependsOn := items rule.dependsOn
    env := ⟨[], StringMap.sorted_nil⟩ }

/-- The lines of a rule are read as a rule. -/
theorem parseLines_ruleLines (style : FieldStyle) (rule : RuleSpec) (rest : List (List Char)) (rules : List RuleSpec) :
    parseLines (ruleLines style rule ++ rest) rules none = parseLines rest (rules ++ [readBack rule]) none := by
  have hquoted : ∀ s, Enclosed (quoted s) := enclosed_between (by decide) (by decide) (by decide)
  have hlist : ∀ items, Enclosed (quotedList items) := fun items =>
    enclosed_between (by decide) (by decide) (by decide) _
  have hopen : readLine rules none "fish_rule(".toList = .ok (rules, some .new) := by
    unfold readLine
    rw [show trim "fish_rule(".toList = "fish_rule(".toList by decide, if_neg (by decide), if_pos (by decide)]
    rfl
  have hclose : ∀ builder, readLine rules (some builder) [')'] =
      (pushRule rules (some builder)).map fun rules => (rules, none) := by
    intro builder
    unfold readLine
    rw [show trim [')'] = [')'] by decide, if_neg (by decide), if_neg (by decide), if_pos (by decide)]
  have hfield : ∀ {key : String} {value : List Char} {builder : RuleBuilder} {rest : List (List Char)},
      key ∈ fieldKeys → Enclosed value → parseLines (fieldLine style key value :: rest) rules (some builder) =
        parseLines rest rules (some (builder.setField key.toList value)) := by
    intro key value builder rest hkey hvalue
    rw [parseLines, readLine_fieldLine style hkey hvalue]
  simp only [ruleLines, List.cons_append, List.nil_append]
  rw [parseLines, hopen]
  dsimp only
  rw [hfield (by decide) (hquoted _), hfield (by decide) (hquoted _), hfield (by decide) (hlist _),
    hfield (by decide) (hlist _), hfield (by decide) (hlist _), hfield (by decide) (hlist _), parseLines, hclose]
  simp [RuleBuilder.setField, pushRule, RuleBuilder.build, RuleBuilder.new, readBack, cleanString_quoted, Except.map]

/-- Rules are read one after the other. -/
theorem parseLines_rules (style : FieldStyle) (pending rules : List RuleSpec) :
    parseLines (pending.flatMap (ruleLines style)) rules none = .ok (rules ++ pending.map readBack) := by
  induction pending generalizing rules with
  | nil =>
    rw [List.map_nil, List.append_nil]
    rfl
  | cons rule pending ih =>
    rw [List.flatMap_cons, parseLines_ruleLines, ih, List.map_cons, List.append_assoc, List.singleton_append]

/-! ## The text of lines -/

/-- Lines without line breaks are the lines of their text. -/
theorem lines_flatMap {ls : List (List Char)} (hls : ∀ line ∈ ls, '\n' ∉ line ∧ line.getLast? ≠ some '\r') :
    lines (ls.flatMap (· ++ ['\n'])) = ls := by
  induction ls with
  | nil => rfl
  | cons line ls ih =>
    obtain ⟨hline, hrest⟩ := List.forall_mem_cons.mp hls
    rw [List.flatMap_cons, List.append_assoc, List.singleton_append, lines_append_cons hline.1,
      dropReturn_eq_self_iff.mpr hline.2, ih hrest]

/-- There is no line break in a list of texts without line breaks. -/
theorem newline_notMem_quotedList {items : List (List Char)} (hitems : ∀ item ∈ items, '\n' ∉ item) :
    '\n' ∉ quotedList items := by
  have hinner : '\n' ∉ ", ".toList.intercalate (items.map quoted) := by
    induction items with
    | nil => decide
    | cons item items ih =>
      obtain ⟨hitem, hrest⟩ := List.forall_mem_cons.mp hitems
      cases items with
      | nil => simp [quoted, hitem]
      | cons next items =>
        have hnext := ih hrest
        rw [List.map_cons] at hnext
        rw [List.map_cons, List.map_cons, List.intercalate_cons_cons]
        simp only [List.mem_append, not_or]
        exact ⟨⟨by simp [quoted, hitem], by decide⟩, hnext⟩
  simp only [quotedList, List.mem_cons, List.mem_append, not_or]
  exact ⟨by decide, hinner, by decide, List.not_mem_nil⟩

/-- The line of a field is one line. -/
theorem fieldLine_unbroken (style : FieldStyle) {key : String} (hkey : key ∈ fieldKeys) {value : List Char}
    (hvalue : Enclosed value) (hline : '\n' ∉ value) :
    '\n' ∉ fieldLine style key value ∧ (fieldLine style key value).getLast? ≠ some '\r' := by
  have hkeys : ∀ key ∈ fieldKeys, '\n' ∉ key.toList := by decide
  obtain ⟨last, hlast, hspace⟩ := hvalue.withComma_last style
  have hwritten : fieldLine style key value = List.replicate style.indent ' ' ++ key.toList ++ " = ".toList ++ withComma style value := by
    simp only [fieldLine, withComma, List.append_assoc]
  have hne : withComma style value ≠ [] := by
    intro hnil
    rw [hnil] at hlast
    exact absurd hlast nofun
  constructor
  · have hcomma : '\n' ∉ if style.comma then [','] else [] := by cases style.comma <;> decide
    simp only [hwritten, withComma, List.mem_append, not_or]
    refine ⟨⟨⟨fun hmem => absurd (List.eq_of_mem_replicate hmem) (by decide), hkeys key hkey⟩, by decide⟩, hline, hcomma⟩
  · rw [hwritten, List.getLast?_append_of_ne_nil _ hne, hlast]
    rintro heq
    rw [Option.some.inj heq] at hspace
    exact absurd hspace (by decide)

/-- The lines of a rule are lines. -/
theorem ruleLines_unbroken (style : FieldStyle) {rule : RuleSpec} (h : rule.Plain) :
    ∀ line ∈ ruleLines style rule, '\n' ∉ line ∧ line.getLast? ≠ some '\r' := by
  have hscalar : ∀ key ∈ fieldKeys, ∀ text : String, '\n' ∉ text.toList →
      '\n' ∉ fieldLine style key (quoted text.toList) ∧ (fieldLine style key (quoted text.toList)).getLast? ≠ some '\r' := by
    intro key hkey text htext
    refine fieldLine_unbroken style hkey (enclosed_between (by decide) (by decide) (by decide) _) ?_
    simp [quoted, htext]
  have hlist : ∀ key ∈ fieldKeys, ∀ texts : List String, texts ⊆ rule.items →
      '\n' ∉ fieldLine style key (quotedList (texts.map String.toList)) ∧
        (fieldLine style key (quotedList (texts.map String.toList))).getLast? ≠ some '\r' := by
    intro key hkey texts hsub
    refine fieldLine_unbroken style hkey (enclosed_between (by decide) (by decide) (by decide) _)
      (newline_notMem_quotedList fun item hitem => ?_)
    obtain ⟨text, htext, rfl⟩ := List.mem_map.mp hitem
    exact (h text (List.mem_cons_of_mem _ (List.mem_cons_of_mem _ (hsub htext)))).1
  have hname := (h rule.name List.mem_cons_self).1
  have hcommand := (h rule.command (List.mem_cons_of_mem _ List.mem_cons_self)).1
  simp only [ruleLines, List.forall_mem_cons]
  refine ⟨by decide, hscalar _ (by decide) _ hname, hscalar _ (by decide) _ hcommand, hlist _ (by decide) _ ?_,
    hlist _ (by decide) _ ?_, hlist _ (by decide) _ ?_, hlist _ (by decide) _ ?_, by decide, fun line hline => absurd hline List.not_mem_nil⟩ <;>
    · intro text htext
      simp [RuleSpec.items, htext]

/-- The text of rules is read as what their fields are read as. -/
theorem parseStr_renderRules (style : FieldStyle) {rules : List RuleSpec} (hplain : ∀ rule ∈ rules, rule.Plain) :
    parseStr (renderRules style rules) = .ok ⟨"starlark-manifest", rules.map readBack⟩ := by
  have hlines : lines (renderRules style rules) = rules.flatMap (ruleLines style) := by
    refine lines_flatMap fun line hline => ?_
    obtain ⟨rule, hrule, hmem⟩ := List.mem_flatMap.mp hline
    exact ruleLines_unbroken style (hplain rule hrule) line hmem
  rw [parseStr, hlines, parseLines_rules, List.nil_append]
  rfl

/-- Without quotes in its texts, a list is read back exactly when none of them is empty or has a comma in it. -/
theorem items_readBack_iff {texts : List String} (hplain : ∀ text ∈ texts, '"' ∉ text.toList) :
    (parseStringList (quotedList (texts.map String.toList))).map String.ofList = texts ↔
      ∀ text ∈ texts, text ≠ "" ∧ ',' ∉ text.toList := by
  have hchars : ∀ item ∈ texts.map String.toList, '"' ∉ item := by
    intro item hitem
    obtain ⟨text, htext, rfl⟩ := List.mem_map.mp hitem
    exact hplain text htext
  have hback : ∀ items : List (List Char), items.map String.ofList = texts ↔ items = texts.map String.toList := by
    intro items
    constructor
    · rintro rfl
      simp [Function.comp_def]
    · rintro rfl
      simp [Function.comp_def]
  rw [hback, parseStringList_quotedList_eq_iff hchars]
  simp only [List.forall_mem_map, ne_eq, String.toList_eq_nil_iff]

/-- The text of rules is read back exactly when no item of their lists is empty or has a comma in it. -/
theorem parseStr_renderRules_iff (style : FieldStyle) (rules : List RuleSpec) (hplain : ∀ rule ∈ rules, rule.Plain) :
    parseStr (renderRules style rules) = .ok ⟨"starlark-manifest", rules.map RuleSpec.withoutEnv⟩ ↔
      ∀ rule ∈ rules, ∀ item ∈ rule.items, item ≠ "" ∧ ',' ∉ item.toList := by
  rw [parseStr_renderRules style hplain, Except.ok.injEq, PluginRulesManifest.mk.injEq, and_iff_right rfl, List.map_inj_left]
  refine forall₂_congr fun rule hrule => ?_
  have hquote : ∀ item ∈ rule.items, '"' ∉ item.toList := fun item hitem =>
    (hplain rule hrule item (List.mem_cons_of_mem _ (List.mem_cons_of_mem _ hitem))).2
  simp only [RuleSpec.items, List.forall_mem_append] at hquote ⊢
  obtain ⟨⟨⟨hargs, hinputs⟩, houtputs⟩, hdeps⟩ := hquote
  rw [← items_readBack_iff hargs, ← items_readBack_iff hinputs, ← items_readBack_iff houtputs, ← items_readBack_iff hdeps]
  simp only [readBack, RuleSpec.withoutEnv, RuleSpec.mk.injEq, true_and, and_true, and_assoc]

/-- A rule with arguments. -/
def ruleWithArgs (args : List String) : RuleSpec :=
  ⟨"codegen", "python", args, ["tools/gen.py", "schema.json"], ["gen/code.rs"], [":init"], ⟨[], StringMap.sorted_nil⟩⟩

/-- A rule whose arguments have no commas is read back. -/
theorem parseStr_renderRules_plain :
    parseStr (renderRules ⟨4, true⟩ [ruleWithArgs ["tools/gen.py", "--out", "a = (b) # c"]]) =
      .ok ⟨"starlark-manifest", [ruleWithArgs ["tools/gen.py", "--out", "a = (b) # c"]]⟩ :=
  (parseStr_renderRules_iff ⟨4, true⟩ [ruleWithArgs ["tools/gen.py", "--out", "a = (b) # c"]]
    (List.forall_mem_singleton.mpr (by unfold RuleSpec.Plain; decide))).mpr (List.forall_mem_singleton.mpr (by decide))

/-- An argument with a comma is read as two. -/
theorem parseStr_renderRules_comma :
    (∀ rule ∈ [ruleWithArgs ["a,b"]], rule.Plain) ∧
      parseStr (renderRules ⟨4, true⟩ [ruleWithArgs ["a,b"]]) ≠
        .ok ⟨"starlark-manifest", [ruleWithArgs ["a,b"]].map RuleSpec.withoutEnv⟩ := by
  have hplain : ∀ rule ∈ [ruleWithArgs ["a,b"]], rule.Plain :=
    List.forall_mem_singleton.mpr (by unfold RuleSpec.Plain; decide)
  refine ⟨hplain, ?_⟩
  rw [parseStr_renderRules ⟨4, true⟩ hplain]
  decide

end Forge.Plugin
