import Forge.Common.PathText
import Forge.Security.InputValidator

/-!
# Sanitized paths

A directory is the root or a named one in another directory. Walking the components of a
path from the root leads to a directory, where going up from the root stays there. The
sanitized path has the names on the way to it. So it is its own sanitized path, depends on
the parts of a path through their sanitized paths only, and stays below where it is put.
-/

namespace Forge.Security.InputValidator

open Forge.Common

/-! ## Directories -/

/-- The root, or a directory with a name in another one. -/
inductive Dir (N : Type*) where
  | root
  | child (parent : Dir N) (name : N)

variable {N : Type*}

/-- The directory above. There is none above the root. -/
def Dir.parent : Dir N → Dir N
  | .root => .root
  | .child parent _ => parent

/-- The names on the way to a directory. -/
def Dir.names : Dir N → List N
  | .root => []
  | .child parent name => parent.names ++ [name]

/-- The names on the way to the directory above. -/
theorem Dir.names_parent (dir : Dir N) : dir.parent.names = dir.names.dropLast := by
  cases dir with
  | root => rfl
  | child parent name => rw [Dir.parent, Dir.names, List.dropLast_concat]

/-- Go where a component of a path leads. -/
def Dir.move (dir : Dir (List Char)) (component : List Char) : Dir (List Char) :=
  if component = [] ∨ component = ['.'] then dir
  else if component = ['.', '.'] then dir.parent
  else .child dir component

/-- The directory to which the components of a path lead. -/
def Dir.walk (dir : Dir (List Char)) (path : String) : Dir (List Char) :=
  ((normalized path).splitOn '/').foldl Dir.move dir

/-- The path of a directory from the root. -/
def Dir.text (dir : Dir (List Char)) : String := String.ofList (['/'].intercalate dir.names)

/-- The components that are left are the names on the way. -/
theorem names_foldl_move (components : List (List Char)) (dir : Dir (List Char)) :
    (components.foldl Dir.move dir).names = components.foldl sanitizeStep dir.names := by
  induction components generalizing dir with
  | nil => rfl
  | cons component components ih =>
    have hmove : (dir.move component).names = sanitizeStep dir.names component := by
      rw [Dir.move, sanitizeStep]
      split
      · rfl
      · split
        · exact dir.names_parent
        · rfl
    rw [List.foldl_cons, List.foldl_cons, ih, hmove]

/-! ## Names -/

/-- A component that is a name: it is not empty, not points, and has no separator. -/
structure IsName (component : List Char) : Prop where
  ne_nil : component ≠ []
  ne_point : component ≠ ['.']
  ne_points : component ≠ ['.', '.']
  noSlash : '/' ∉ component
  noBackslash : '\\' ∉ component

/-- The components of a path, of which there is none in the empty one. -/
def componentsOf (path : String) : List (List Char) := if path = "" then [] else path.toList.splitOn '/'

/-- A name is put behind the others. -/
theorem IsName.step {component : List Char} (h : IsName component) (parts : List (List Char)) :
    sanitizeStep parts component = parts ++ [component] := by
  rw [sanitizeStep, if_neg (not_or_intro h.ne_nil h.ne_point), if_neg h.ne_points]

/-- Names are put behind the others. -/
theorem foldl_names {names : List (List Char)} (hnames : ∀ name ∈ names, IsName name) (parts : List (List Char)) :
    names.foldl sanitizeStep parts = parts ++ names := by
  induction names generalizing parts with
  | nil => rw [List.foldl_nil, List.append_nil]
  | cons name names ih =>
    obtain ⟨hname, hrest⟩ := List.forall_mem_cons.mp hnames
    rw [List.foldl_cons, hname.step, ih hrest, List.append_assoc, List.singleton_append]

/-- There is no backslash in a path with slashes for them. -/
theorem backslash_notMem_normalized (path : String) : '\\' ∉ normalized path := by
  intro hmem
  obtain ⟨c, -, hc⟩ := List.mem_map.mp hmem
  split at hc
  · exact absurd hc (by decide)
  · rename_i hne
    exact hne hc

/-- What is left of components of a path are names. -/
theorem foldl_step_names {components parts : List (List Char)} (hparts : ∀ part ∈ parts, IsName part)
    (hcomponents : ∀ component ∈ components, '/' ∉ component ∧ '\\' ∉ component) :
    ∀ part ∈ components.foldl sanitizeStep parts, IsName part := by
  induction components generalizing parts with
  | nil => exact hparts
  | cons component components ih =>
    obtain ⟨hcomponent, hrest⟩ := List.forall_mem_cons.mp hcomponents
    refine ih ?_ hrest
    intro part hpart
    rw [sanitizeStep] at hpart
    split at hpart
    · exact hparts part hpart
    · rename_i hcounts
      split at hpart
      · exact hparts part (List.dropLast_subset _ hpart)
      · rename_i hup
        rcases List.mem_append.mp hpart with hold | hnew
        · exact hparts part hold
        · rw [List.mem_singleton.mp hnew]
          exact ⟨fun h => hcounts (Or.inl h), fun h => hcounts (Or.inr h), hup, hcomponent.1, hcomponent.2⟩

/-- The components that are left of a path are names. -/
theorem sanitizedParts_names (path : String) : ∀ part ∈ sanitizedParts path, IsName part := by
  refine foldl_step_names (fun _ hpart => absurd hpart List.not_mem_nil) fun component hcomponent => ?_
  refine ⟨notMem_of_mem_splitOn hcomponent, fun hmem => backslash_notMem_normalized path ?_⟩
  exact (isInfix_of_mem_splitOn hcomponent).subset hmem

/-! ## The text of names -/

/-- The text of names is split at its slashes into these names. -/
theorem splitOn_text {name : List Char} {names : List (List Char)} (hnames : ∀ part ∈ name :: names, IsName part) :
    (['/'].intercalate (name :: names)).splitOn '/' = name :: names :=
  List.splitOn_intercalate '/' (fun part hpart => (hnames part hpart).noSlash) (List.cons_ne_nil _ _)

/-- The components of the text of names are these names. -/
theorem componentsOf_text {names : List (List Char)} (hnames : ∀ name ∈ names, IsName name) :
    componentsOf (String.ofList (['/'].intercalate names)) = names := by
  rw [componentsOf]
  cases names with
  | nil => rfl
  | cons name names =>
    have hsplit := splitOn_text hnames
    rw [if_neg, String.toList_ofList, hsplit]
    intro hempty
    have hnil : ['/'].intercalate (name :: names) = [] := by
      rw [← String.toList_ofList (l := ['/'].intercalate (name :: names)), hempty]
      rfl
    rw [hnil] at hsplit
    exact (hnames name List.mem_cons_self).ne_nil (List.cons.inj hsplit).1.symm

/-- There is no backslash in the text of names. -/
theorem backslash_notMem_text {names : List (List Char)} (hnames : ∀ name ∈ names, IsName name) :
    '\\' ∉ ['/'].intercalate names := by
  intro hmem
  rcases eq_or_mem_of_mem_intercalate hmem with hslash | ⟨name, hname, hc⟩
  · exact absurd hslash (by decide)
  · exact (hnames name hname).noBackslash hc

/-- A text without backslashes stays as it is. -/
theorem normalized_eq {path : String} (hpath : '\\' ∉ path.toList) : normalized path = path.toList := by
  rw [normalized]
  refine (List.map_congr_left fun c hc => if_neg ?_).trans (List.map_id' _)
  rintro rfl
  exact hpath hc

/-- Names are left of their text. -/
theorem sanitizedParts_text {names : List (List Char)} (hnames : ∀ name ∈ names, IsName name) :
    sanitizedParts (String.ofList (['/'].intercalate names)) = names := by
  rw [sanitizedParts, normalized_eq (by rw [String.toList_ofList]; exact backslash_notMem_text hnames), String.toList_ofList]
  cases names with
  | nil => rfl
  | cons name names =>
    rw [splitOn_text hnames, foldl_names hnames, List.nil_append]

/-- What is left of a path behind a slash is put behind what is left of the other. -/
theorem sanitizedParts_slash (a b : String) :
    sanitizedParts (a ++ "/" ++ b) = ((normalized b).splitOn '/').foldl sanitizeStep (sanitizedParts a) := by
  have hnormalized : normalized (a ++ "/" ++ b) = normalized a ++ '/' :: normalized b := by
    rw [normalized, String.toList_append, String.toList_append, List.map_append, List.map_append, List.append_assoc]
    rfl
  rw [sanitizedParts, hnormalized, List.splitOn_append_cons_self, List.foldl_append, sanitizedParts]

/-- A text of names does not start at the root, or with a point. -/
theorem startComponents_text {names : List (List Char)} (hnames : ∀ name ∈ names, IsName name) :
    startComponents (String.ofList (['/'].intercalate names)) = [] := by
  cases names with
  | nil => decide
  | cons name names =>
    have hname := hnames name List.mem_cons_self
    have hrelative : (name.head? == some '/') = false := by
      rw [beq_eq_false_iff_ne]
      exact fun hhead => hname.noSlash (List.mem_of_mem_head? hhead)
    rw [startComponents, isAbsolute, String.toList_ofList, head?_intercalate_cons '/' hname.ne_nil, hrelative,
      splitOn_text hnames, if_neg Bool.false_ne_true, List.head?_cons,
      if_neg fun hpoint => hname.ne_point (Option.some.inj hpoint)]

/-- The components of a text of names. -/
theorem components_text {names : List (List Char)} (hnames : ∀ name ∈ names, IsName name) :
    components (String.ofList (['/'].intercalate names)) = names.map fun name => .normal (String.ofList name) := by
  rw [components, startComponents_text hnames, List.nil_append, String.toList_ofList]
  cases names with
  | nil => rfl
  | cons name names =>
    rw [splitOn_text hnames, ← List.filterMap_eq_map]
    refine List.filterMap_congr fun part hpart => ?_
    have hpart := hnames part hpart
    rw [pieceComponent, if_neg (not_or_intro hpart.ne_nil hpart.ne_point), if_neg hpart.ne_points]
    rfl

/-- A sanitized path has no components but names, and no separator at its start. It stays
below where it is put, stays as it is, depends on its parts by their sanitized paths, and
names the directory to which the path leads. -/
theorem sanitizePath_normal_form :
    (∀ path, (∀ name ∈ componentsOf (sanitizePath path), name ≠ [] ∧ name ≠ ['.'] ∧ name ≠ ['.', '.']) ∧
      '\\' ∉ (sanitizePath path).toList ∧ (sanitizePath path).toList.head? ≠ some '/') ∧
    (∀ path root, ∃ names : List String,
      components (joinPath root (sanitizePath path)) = components root ++ names.map .normal) ∧
    (∀ path, sanitizePath (sanitizePath path) = sanitizePath path) ∧
    (∀ a b, sanitizePath (a ++ "/" ++ b) = sanitizePath (sanitizePath a ++ "/" ++ b)) ∧
    ∀ path, componentsOf (sanitizePath path) = (Dir.root.walk path).names ∧ sanitizePath path = (Dir.root.walk path).text := by
  have hcomponents : ∀ path, componentsOf (sanitizePath path) = sanitizedParts path :=
    fun path => componentsOf_text (sanitizedParts_names path)
  have hparts : ∀ path, sanitizedParts (sanitizePath path) = sanitizedParts path :=
    fun path => sanitizedParts_text (sanitizedParts_names path)
  have hstart : ∀ path, startComponents (sanitizePath path) = [] :=
    fun path => startComponents_text (sanitizedParts_names path)
  have hwalk : ∀ path, sanitizedParts path = (Dir.root.walk path).names :=
    fun path => (names_foldl_move ((normalized path).splitOn '/') .root).symm
  refine ⟨fun path => ⟨fun name hname => ?_, ?_, ?_⟩, fun path root => ?_, fun path => ?_, fun a b => ?_, fun path => ⟨?_, ?_⟩⟩
  · rw [hcomponents] at hname
    have hname := sanitizedParts_names path name hname
    exact ⟨hname.ne_nil, hname.ne_point, hname.ne_points⟩
  · rw [sanitizePath, String.toList_ofList]
    exact backslash_notMem_text (sanitizedParts_names path)
  · exact beq_eq_false_iff_ne.mp (not_absolute_of_startComponents (hstart path))
  · refine ⟨(sanitizedParts path).map String.ofList, ?_⟩
    rw [components_joinPath_of_start (hstart path), sanitizePath, components_text (sanitizedParts_names path), List.map_map]
    rfl
  · rw [sanitizePath, hparts, ← sanitizePath]
  · rw [sanitizePath, sanitizedParts_slash, sanitizePath, sanitizedParts_slash, hparts]
  · rw [hcomponents, hwalk]
  · rw [sanitizePath, hwalk, Dir.text]

end Forge.Security.InputValidator
