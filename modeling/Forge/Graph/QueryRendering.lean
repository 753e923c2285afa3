import Forge.Common.Fallible
import Forge.Graph.Query

/-!
# Parsing what was rendered

The textual form of a query parses to that query as long as no argument of the two functions
with two queries has a comma. The parser does not look at parentheses when it splits the
arguments, so a query with two arguments inside another one makes it see three or more, and
the whole text becomes the name of a target.
-/

namespace Forge.Graph

open Forge.Common

/-- A function with its arguments. -/
def call (start : String) (args : List Char) : List Char := start.toList ++ (args ++ [')'])

namespace QueryExpr

/-- The textual form of a query. Unions and intersections do not have one. -/
def render : QueryExpr → List Char
  | target name => name.toList
  | all => "//...".toList
  | deps e => call "deps(" e.render
  | rdeps e => call "rdeps(" e.render
  | allPaths e₁ e₂ => call "allpaths(" (e₁.render ++ ", ".toList ++ e₂.render)
  | somePath e₁ e₂ => call "somepath(" (e₁.render ++ ", ".toList ++ e₂.render)
  | filter pattern e => call "filter(" ('\'' :: (pattern.toList ++ ['\'']) ++ ", ".toList ++ e.render)
  | union _ _ | intersect _ _ => []

/-- The names that are a query of their own. -/
def IsName (name : String) : Prop :=
  name.toList ≠ [] ∧
    (∀ c ∈ name.toList, isWhitespace c = false ∧ c ∉ [',', '(', ')', '\'', '"']) ∧
    ¬ "//".toList <+: name.toList ∧ ¬ "*".toList <+: name.toList

/-- A character can be a name. -/
theorem isName_of_toList {name : String} {c : Char} (hname : name.toList = [c])
    (hwhitespace : isWhitespace c = false) (hspecial : c ∉ [',', '(', ')', '\'', '"']) (hstar : c ≠ '*') :
    IsName name := by
  rw [IsName, hname]
  refine ⟨List.cons_ne_nil _ _, List.forall_mem_singleton.mpr ⟨hwhitespace, hspecial⟩, fun h => ?_,
    fun h => ?_⟩
  · have hlength : 2 ≤ 1 := h.length_le
    omega
  · exact hstar (List.cons_prefix_cons.mp h).1.symm

/-- The patterns that can be put in quotes. -/
def IsPattern (pattern : String) : Prop :=
  (∀ c ∈ pattern.toList, c ∉ [',', '\'', '"']) ∧ trim pattern.toList = pattern.toList

/-- The queries with a textual form. -/
def WellFormed : QueryExpr → Prop
  | target name => IsName name
  | all => True
  | deps e | rdeps e => e.WellFormed
  | allPaths e₁ e₂ | somePath e₁ e₂ => e₁.WellFormed ∧ e₂.WellFormed
  | filter pattern e => IsPattern pattern ∧ e.WellFormed
  | union _ _ | intersect _ _ => False

/-- No function of the query has two arguments. -/
def SingleArgument : QueryExpr → Prop
  | target _ | all => True
  | deps e | rdeps e => e.SingleArgument
  | allPaths _ _ | somePath _ _ | filter _ _ | union _ _ | intersect _ _ => False

/-- No function with two arguments is inside an argument of the functions with two queries. -/
def Splittable : QueryExpr → Prop
  | target _ | all => True
  | deps e | rdeps e | filter _ e => e.Splittable
  | allPaths e₁ e₂ | somePath e₁ e₂ => e₁.SingleArgument ∧ e₂.SingleArgument
  | union _ _ | intersect _ _ => False

/-- Without functions of two arguments there is nothing inside them. -/
theorem SingleArgument.splittable {e : QueryExpr} (he : e.SingleArgument) : e.Splittable := by
  induction e with
  | target name => trivial
  | all => trivial
  | deps e ih => exact ih he
  | rdeps e ih => exact ih he
  | allPaths e₁ e₂ => exact absurd he id
  | somePath e₁ e₂ => exact absurd he id
  | filter pattern e => exact absurd he id
  | union e₁ e₂ => exact absurd he id
  | intersect e₁ e₂ => exact absurd he id

end QueryExpr

/-! ## Functions -/

/-- The length of a function with its arguments. -/
theorem call_length (start : String) (args : List Char) :
    (call start args).length = start.toList.length + (args.length + 1) := by
  rw [call, List.length_append, List.length_append, List.length_singleton]

/-- A function with its arguments has no white space around it. -/
theorem trim_call {start : String} {c : Char} (hstart : start.toList.head? = some c)
    (hc : isWhitespace c = false) (args : List Char) : trim (call start args) = call start args := by
  refine trimMatches_eq_self ?_ ?_
  · intro c' hc'
    rw [call, List.head?_append, hstart, Option.some_or] at hc'
    cases hc'
    exact hc
  · intro c' hc'
    rw [call, ← List.append_assoc, List.getLast?_append, List.getLast?_singleton, Option.some_or] at hc'
    cases hc'
    rfl

/-- The arguments are between the parentheses. -/
theorem enclosed_call (start : String) (args : List Char) : enclosed start (call start args) = some args := by
  rw [enclosed, call, stripPrefix_append, Option.bind_some, stripSuffix_append]

/-- Text without an opening parenthesis is no function. -/
theorem enclosed_eq_none (start : String) {s : List Char} (hstart : '(' ∈ start.toList) (hs : '(' ∉ s) :
    enclosed start s = none := by
  rw [enclosed, stripPrefix, if_neg fun hinitial => hs (hinitial.subset hstart)]
  rfl

/-- The parser on a function with one query. -/
theorem parseWith_deps (fuel : ℕ) (args : List Char) :
    parseWith (fuel + 1) (call "deps(" args) = (do return .deps (← parseWith fuel args)) := by
  rw [parseWith, trim_call rfl rfl, if_neg (by rintro (h | h) <;> cases h), enclosed_call]

/-- The parser on a function with one query. -/
theorem parseWith_rdeps (fuel : ℕ) (args : List Char) :
    parseWith (fuel + 1) (call "rdeps(" args) = (do return .rdeps (← parseWith fuel args)) := by
  have hdeps : enclosed "deps(" (call "rdeps(" args) = none := rfl
  rw [parseWith, trim_call rfl rfl, if_neg (by rintro (h | h) <;> cases h), hdeps, enclosed_call]

/-- The parser on a function with two queries. -/
theorem parseWith_allPaths (fuel : ℕ) (args : List Char) :
    parseWith (fuel + 1) (call "allpaths(" args) = match splitPair args with
      | some (left, right) => (do
          let left ← parseWith fuel left
          let right ← parseWith fuel right
          return .allPaths left right)
      | none => .ok (.target (String.ofList (call "allpaths(" args))) := by
  have hdeps : enclosed "deps(" (call "allpaths(" args) = none := rfl
  have hrdeps : enclosed "rdeps(" (call "allpaths(" args) = none := rfl
  have hsomepath : enclosed "somepath(" (call "allpaths(" args) = none := rfl
  have hfilter : enclosed "filter(" (call "allpaths(" args) = none := rfl
  rw [parseWith, trim_call rfl rfl, if_neg (by rintro (h | h) <;> cases h), hdeps, hrdeps,
    enclosed_call, hsomepath, hfilter, Option.bind_some]
  cases splitPair args with
  | some parts => rfl
  | none => rfl

/-- The parser on a function with two queries. -/
theorem parseWith_somePath (fuel : ℕ) (args : List Char) :
    parseWith (fuel + 1) (call "somepath(" args) = match splitPair args with
      | some (left, right) => (do
          let left ← parseWith fuel left
          let right ← parseWith fuel right
          return .somePath left right)
      | none => .ok (.target (String.ofList (call "somepath(" args))) := by
  have hdeps : enclosed "deps(" (call "somepath(" args) = none := rfl
  have hrdeps : enclosed "rdeps(" (call "somepath(" args) = none := rfl
  have hallpaths : enclosed "allpaths(" (call "somepath(" args) = none := rfl
  have hfilter : enclosed "filter(" (call "somepath(" args) = none := rfl
  rw [parseWith, trim_call rfl rfl, if_neg (by rintro (h | h) <;> cases h), hdeps, hrdeps,
    hallpaths, enclosed_call, hfilter, Option.bind_some]
  cases splitPair args with
  | some parts => rfl
  | none => rfl

/-- The parser on a pattern and a query. -/
theorem parseWith_filter (fuel : ℕ) {args pattern inner : List Char}
    (hsplit : splitFirst args = some (pattern, inner)) :
    parseWith (fuel + 1) (call "filter(" args) =
      (do return .filter (unquote pattern) (← parseWith fuel inner)) := by
  have hdeps : enclosed "deps(" (call "filter(" args) = none := rfl
  have hrdeps : enclosed "rdeps(" (call "filter(" args) = none := rfl
  have hallpaths : enclosed "allpaths(" (call "filter(" args) = none := rfl
  have hsomepath : enclosed "somepath(" (call "filter(" args) = none := rfl
  rw [parseWith, trim_call rfl rfl, if_neg (by rintro (h | h) <;> cases h), hdeps, hrdeps,
    hallpaths, hsomepath, enclosed_call, Option.bind_some, hsplit]
  rfl

/-- The parser on a name. -/
theorem parseWith_name (fuel : ℕ) {name : String} (hname : QueryExpr.IsName name) :
    parseWith (fuel + 1) name.toList = .ok (.target name) := by
  obtain ⟨_, hchars, hslashes, hstar⟩ := hname
  have hspace : ∀ c ∈ name.toList, isWhitespace c = false := fun c hc => (hchars c hc).1
  have htrim : trim name.toList = name.toList :=
    trimMatches_eq_self (fun c hc => hspace c (List.mem_of_head? hc))
      (fun c hc => hspace c (List.mem_of_getLast? hc))
  have hparen : '(' ∉ name.toList := fun hc => (hchars _ hc).2 (by decide)
  have hall : ¬ (name.toList = "//...".toList ∨ name.toList = "*".toList) := by
    rintro (heq | heq)
    · rw [heq] at hslashes
      exact hslashes (by decide)
    · rw [heq] at hstar
      exact hstar List.prefix_rfl
  have hstart : trimStartSlashes name.toList = name.toList := by
    rw [trimStartSlashes.eq_def]
    split
    · rename_i rest heq
      rw [heq] at hslashes
      exact absurd (List.prefix_append ['/', '/'] rest) hslashes
    · rfl
  rw [parseWith, htrim, if_neg hall]
  simp only [enclosed_eq_none "deps(" (by decide) hparen,
    enclosed_eq_none "rdeps(" (by decide) hparen,
    enclosed_eq_none "allpaths(" (by decide) hparen,
    enclosed_eq_none "somepath(" (by decide) hparen,
    enclosed_eq_none "filter(" (by decide) hparen, Option.bind_none, hstart,
    String.ofList_toList]
  rfl

/-! ## Textual forms -/

namespace QueryExpr

/-- A textual form has no white space around it. -/
theorem WellFormed.trim_render {e : QueryExpr} (he : e.WellFormed) : trim e.render = e.render := by
  cases e with
  | target name =>
    obtain ⟨_, hchars, _⟩ := he
    exact trimMatches_eq_self (fun c hc => (hchars c (List.mem_of_head? hc)).1)
      (fun c hc => (hchars c (List.mem_of_getLast? hc)).1)
  | all => rfl
  | deps e => exact trim_call rfl rfl _
  | rdeps e => exact trim_call rfl rfl _
  | allPaths e₁ e₂ => exact trim_call rfl rfl _
  | somePath e₁ e₂ => exact trim_call rfl rfl _
  | filter pattern e => exact trim_call rfl rfl _
  | union e₁ e₂ => exact absurd he id
  | intersect e₁ e₂ => exact absurd he id

/-- A textual form has a comma when some function in it has two arguments. -/
theorem WellFormed.comma_notMem_render_iff {e : QueryExpr} (he : e.WellFormed) :
    ',' ∉ e.render ↔ e.SingleArgument := by
  induction e with
  | target name => exact iff_of_true (fun hc => (he.2.1 _ hc).2 (by decide)) trivial
  | all => exact iff_of_true (by decide) trivial
  | deps e ih =>
    rw [render, call, List.mem_append, List.mem_append, SingleArgument, ← ih he]
    simp
  | rdeps e ih =>
    rw [render, call, List.mem_append, List.mem_append, SingleArgument, ← ih he]
    simp
  | allPaths e₁ e₂ =>
    rw [render, call]
    exact iff_of_false (by simp) id
  | somePath e₁ e₂ =>
    rw [render, call]
    exact iff_of_false (by simp) id
  | filter pattern e =>
    rw [render, call]
    exact iff_of_false (by simp) id
  | union e₁ e₂ => exact absurd he id
  | intersect e₁ e₂ => exact absurd he id

/-- White space before a textual form is trimmed. -/
theorem WellFormed.trim_space_render {e : QueryExpr} (he : e.WellFormed) :
    trim (' ' :: e.render) = e.render := by
  have htrim := he.trim_render
  rw [trim, trimMatches] at htrim ⊢
  rw [List.dropWhile_cons_of_pos (by decide)]
  exact htrim

/-- Two textual forms with a comma between them are split into the two exactly when there is no
other comma. -/
theorem splitPair_render {e₁ e₂ : QueryExpr} (h₁ : e₁.WellFormed) (h₂ : e₂.WellFormed) :
    splitPair (e₁.render ++ ", ".toList ++ e₂.render) =
      if ',' ∈ e₁.render ∨ ',' ∈ e₂.render then none else some (e₁.render, e₂.render) := by
  have hargs : e₁.render ++ ", ".toList ++ e₂.render = e₁.render ++ ',' :: (' ' :: e₂.render) := by
    rw [List.append_assoc]
    rfl
  have hspace : ',' ∈ ' ' :: e₂.render ↔ ',' ∈ e₂.render := by simp
  rw [hargs, splitPair, List.splitOn_append_cons_self, List.map_append]
  have hone₁ := splitOn_length_eq_one_iff ',' e₁.render
  have hone₂ := splitOn_length_eq_one_iff ',' (' ' :: e₂.render)
  have hpos₁ := List.length_pos_iff.mpr (List.splitOn_ne_nil ',' e₁.render)
  have hpos₂ := List.length_pos_iff.mpr (List.splitOn_ne_nil ',' (' ' :: e₂.render))
  by_cases hcomma : ',' ∈ e₁.render ∨ ',' ∈ e₂.render
  · rw [if_pos hcomma]
    split
    · rename_i left right hparts
      have hlength := congrArg List.length hparts
      simp only [List.length_append, List.length_map, List.length_cons, List.length_nil] at hlength
      have hno₁ := hone₁.mp (by omega)
      have hno₂ := hone₂.mp (by omega)
      rw [hspace] at hno₂
      exact absurd hcomma (not_or.mpr ⟨hno₁, hno₂⟩)
    · rfl
  · rw [if_neg hcomma]
    obtain ⟨hno₁, hno₂⟩ := not_or.mp hcomma
    rw [List.splitOn_eq_singleton hno₁, List.splitOn_eq_singleton (hspace.not.mpr hno₂)]
    simp only [List.map_cons, List.map_nil, List.singleton_append, h₁.trim_render, h₂.trim_space_render]

/-- Quotes stay when something else is trimmed. -/
theorem trimMatches_quoted {p : Char → Bool} (hp : p '\'' = false) (s : List Char) :
    trimMatches p ('\'' :: (s ++ ['\''])) = '\'' :: (s ++ ['\'']) := by
  refine trimMatches_eq_self ?_ ?_
  · intro c hc
    cases hc
    exact hp
  · intro c hc
    rw [← List.cons_append, List.getLast?_append, List.getLast?_singleton, Option.some_or] at hc
    cases hc
    exact hp

/-- A pattern in quotes is what is between them. -/
theorem IsPattern.unquote {pattern : String} (hpattern : IsPattern pattern) :
    unquote ('\'' :: (pattern.toList ++ ['\''])) = pattern := by
  have hne : ∀ c ∈ pattern.toList, ∀ q ∈ ['\'', '"'], decide (c = q) = false := by
    intro c hc q hq
    refine decide_eq_false fun heq => ?_
    refine hpattern.1 c hc ?_
    rw [heq]
    exact List.mem_cons_of_mem _ hq
  have hhead : ∀ c, pattern.toList.head? = some c → decide (c = '\'') = false :=
    fun c hc => hne c (List.mem_of_head? hc) _ List.mem_cons_self
  have hlast : ∀ c, pattern.toList.getLast? = some c → decide (c = '\'') = false :=
    fun c hc => hne c (List.mem_of_getLast? hc) _ List.mem_cons_self
  rw [Graph.unquote, trimMatches_quoted (by decide), trimMatches_cons_append (by decide) (by decide)
    (trimMatches_eq_self hhead hlast) (dropWhile_eq_self hhead), String.ofList_toList]

/-- A pattern in quotes and a textual form are split at the comma between them. -/
theorem splitFirst_render {pattern : String} {e : QueryExpr} (hpattern : IsPattern pattern)
    (he : e.WellFormed) :
    splitFirst ('\'' :: (pattern.toList ++ ['\'']) ++ ", ".toList ++ e.render) =
      some ('\'' :: (pattern.toList ++ ['\'']), e.render) := by
  have hargs : '\'' :: (pattern.toList ++ ['\'']) ++ ", ".toList ++ e.render =
      '\'' :: (pattern.toList ++ ['\'']) ++ ',' :: (' ' :: e.render) := by
    rw [List.append_assoc]
    rfl
  have hcomma : ',' ∉ '\'' :: (pattern.toList ++ ['\'']) := by
    intro hc
    rcases List.mem_cons.mp hc with hc | hc
    · cases hc
    · rcases List.mem_append.mp hc with hc | hc
      · exact hpattern.1 _ hc List.mem_cons_self
      · simp at hc
  have htrim : trim ('\'' :: (pattern.toList ++ ['\''])) = '\'' :: (pattern.toList ++ ['\'']) :=
    trimMatches_quoted (by decide) pattern.toList
  rw [hargs, splitFirst, splitOnce_append hcomma, Option.map_some, htrim, he.trim_space_render]

/-- The parser on the textual forms of two queries, given what it does on each. -/
theorem pair_eq_ok_iff {fuel : ℕ} {e₁ e₂ : QueryExpr} {make : QueryExpr → QueryExpr → QueryExpr}
    {args : List Char} (htarget : ∀ name, target name ≠ make e₁ e₂) (h₁ : e₁.WellFormed) (h₂ : e₂.WellFormed)
    (ih₁ : parseWith fuel e₁.render = .ok e₁ ↔ e₁.Splittable)
    (ih₂ : parseWith fuel e₂.render = .ok e₂ ↔ e₂.Splittable) :
    (match splitPair (e₁.render ++ ", ".toList ++ e₂.render) with
      | some (left, right) => (do
          let left ← parseWith fuel left
          let right ← parseWith fuel right
          return make left right)
      | none => .ok (.target (String.ofList args))) = Except.ok (ε := String) (make e₁ e₂) ↔
      e₁.SingleArgument ∧ e₂.SingleArgument := by
  rw [splitPair_render h₁ h₂, ← h₁.comma_notMem_render_iff, ← h₂.comma_notMem_render_iff]
  by_cases hcomma : ',' ∈ e₁.render ∨ ',' ∈ e₂.render
  · rw [if_pos hcomma]
    refine iff_of_false (fun heq => htarget _ (Except.ok.inj heq)) fun h => ?_
    exact hcomma.elim h.1 h.2
  · rw [if_neg hcomma]
    obtain ⟨hno₁, hno₂⟩ := not_or.mp hcomma
    refine iff_of_true ?_ ⟨hno₁, hno₂⟩
    have hparse₁ := ih₁.mpr (h₁.comma_notMem_render_iff.mp hno₁).splittable
    have hparse₂ := ih₂.mpr (h₂.comma_notMem_render_iff.mp hno₂).splittable
    dsimp only
    rw [hparse₁, hparse₂]
    rfl

/-- With enough fuel, a textual form parses to its query exactly when it can be split. -/
theorem parseWith_render_iff {e : QueryExpr} (he : e.WellFormed) {fuel : ℕ}
    (hfuel : e.render.length < fuel) : parseWith fuel e.render = .ok e ↔ e.Splittable := by
  induction e generalizing fuel with
  | target name =>
    obtain ⟨fuel, rfl⟩ := Nat.exists_eq_succ_of_ne_zero (Nat.ne_zero_of_lt hfuel)
    exact iff_of_true (parseWith_name fuel he) trivial
  | all =>
    obtain ⟨fuel, rfl⟩ := Nat.exists_eq_succ_of_ne_zero (Nat.ne_zero_of_lt hfuel)
    exact iff_of_true rfl trivial
  | deps e ih =>
    obtain ⟨fuel, rfl⟩ := Nat.exists_eq_succ_of_ne_zero (Nat.ne_zero_of_lt hfuel)
    rw [render, call_length] at hfuel
    have hfuel' : e.render.length < fuel := by omega
    rw [render, parseWith_deps, Splittable, ← ih he hfuel']
    simp only [bind_eq_ok_iff, pure_eq_ok_iff, deps.injEq, exists_eq_right]
  | rdeps e ih =>
    obtain ⟨fuel, rfl⟩ := Nat.exists_eq_succ_of_ne_zero (Nat.ne_zero_of_lt hfuel)
    rw [render, call_length] at hfuel
    have hfuel' : e.render.length < fuel := by omega
    rw [render, parseWith_rdeps, Splittable, ← ih he hfuel']
    simp only [bind_eq_ok_iff, pure_eq_ok_iff, rdeps.injEq, exists_eq_right]
  | allPaths e₁ e₂ ih₁ ih₂ =>
    obtain ⟨fuel, rfl⟩ := Nat.exists_eq_succ_of_ne_zero (Nat.ne_zero_of_lt hfuel)
    rw [render, call_length, List.length_append, List.length_append] at hfuel
    rw [render, parseWith_allPaths]
    exact pair_eq_ok_iff (fun _ => nofun) he.1 he.2 (ih₁ he.1 (by omega)) (ih₂ he.2 (by omega))
  | somePath e₁ e₂ ih₁ ih₂ =>
    obtain ⟨fuel, rfl⟩ := Nat.exists_eq_succ_of_ne_zero (Nat.ne_zero_of_lt hfuel)
    rw [render, call_length, List.length_append, List.length_append] at hfuel
    rw [render, parseWith_somePath]
    exact pair_eq_ok_iff (fun _ => nofun) he.1 he.2 (ih₁ he.1 (by omega)) (ih₂ he.2 (by omega))
  | filter pattern e ih =>
    obtain ⟨fuel, rfl⟩ := Nat.exists_eq_succ_of_ne_zero (Nat.ne_zero_of_lt hfuel)
    rw [render, call_length, List.length_append] at hfuel
    have hfuel' : e.render.length < fuel := by omega
    rw [render, parseWith_filter fuel (splitFirst_render he.1 he.2), he.1.unquote, Splittable,
      ← ih he.2 hfuel']
    simp only [bind_eq_ok_iff, pure_eq_ok_iff, filter.injEq, true_and, exists_eq_right]
  | union e₁ e₂ => exact absurd he id
  | intersect e₁ e₂ => exact absurd he id

/-- A textual form parses to its query exactly when no function with two arguments is inside an
argument of the functions with two queries. -/
theorem parseQuery_render_iff (e : QueryExpr) (he : e.WellFormed) :
    parseQuery (String.ofList e.render) = .ok e ↔ e.Splittable := by
  rw [parseQuery, String.toList_ofList]
  exact parseWith_render_iff he (Nat.lt_succ_self _)

/-- The paths from the paths between two targets, to a third. -/
def nestedPaths : QueryExpr := allPaths (allPaths (target "a") (target "b")) (target "c")

/-- The nested query is parsed as a target with its whole text as name. -/
theorem not_parseQuery_render_nested :
    nestedPaths.WellFormed ∧ parseQuery (String.ofList nestedPaths.render) ≠ .ok nestedPaths := by
  refine ⟨⟨⟨?_, ?_⟩, ?_⟩, by decide +kernel⟩
  · exact isName_of_toList rfl (by decide) (by decide) (by decide)
  · exact isName_of_toList rfl (by decide) (by decide) (by decide)
  · exact isName_of_toList rfl (by decide) (by decide) (by decide)

/-- Whether a function of one query around the paths between two targets parses. -/
theorem parseQuery_render_iff_deps :
    parseQuery (String.ofList (deps (allPaths (target "a") all)).render) =
        .ok (deps (allPaths (target "a") all)) ↔ (deps (allPaths (target "a") all)).Splittable :=
  parseQuery_render_iff _ ⟨isName_of_toList rfl (by decide) (by decide) (by decide), trivial⟩

end QueryExpr

end Forge.Graph
