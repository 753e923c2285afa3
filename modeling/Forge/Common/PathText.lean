import Forge.Common.Text

/-!
# Paths that are kept as texts

A path may be relative, and may have points and repeated slashes in it. Two texts are the
same path when they have the same components: empty components do not count, and neither do
points, unless the path starts with one. Joining goes by the text.
-/

namespace Forge.Common

/-- A component of a path. -/
inductive Component where
  | rootDir
  | curDir
  | parentDir
  | normal (name : String)
deriving DecidableEq, Repr

/-- The component that a piece of a path between slashes is, if it counts as one. -/
def pieceComponent (piece : List Char) : Option Component :=
  if piece = [] ∨ piece = ['.'] then none
  else if piece = ['.', '.'] then some .parentDir
  else some (.normal (String.ofList piece))

/-- Whether a path starts at the root. -/
def isAbsolute (path : String) : Bool :=
  path.toList.head? == some '/'

/-- What a path starts with in front of its names. -/
def startComponents (path : String) : List Component :=
  if isAbsolute path then [.rootDir]
  else if (path.toList.splitOn '/').head? = some ['.'] then [.curDir] else []

/-- The components of a path. -/
def components (path : String) : List Component :=
  startComponents path ++ (path.toList.splitOn '/').filterMap pieceComponent

/-- Put a path behind another one. An absolute path stands for itself. -/
def joinPath (base path : String) : String :=
  if isAbsolute path then path
  else if base.toList.getLast?.getD '/' = '/' then base ++ path
  else base ++ "/" ++ path

/-- The text of a component. -/
def Component.asText : Component → String
  | .rootDir => ""
  | .curDir => "."
  | .parentDir => ".."
  | .normal name => name

/-- A text for components. -/
def componentsText (parts : List Component) : String :=
  if parts = [.rootDir] then "/" else "/".intercalate (parts.map (·.asText))

/-- The directory of a path. The root has none, and neither has the empty path. -/
def parentText (path : String) : Option String :=
  match (components path).getLast? with
  | none => none
  | some .rootDir => none
  | some _ => some (componentsText (components path).dropLast)

/-- The name at the end of a path, if there is one. -/
def fileName (path : String) : Option String :=
  match (components path).getLast? with
  | some (.normal name) => some name
  | _ => none

/-- The name at the end of a path without its extension. -/
def fileStem (path : String) : Option String :=
  (fileName path).map fun name => String.ofList (splitExtension name.toList).1

/-- Points and repeated slashes do not make another path, and a point at the start does. -/
example : components "/a/./b//c/" = components "/a/b/c" ∧ components "./a" ≠ components "a" := by decide

/-- The stem of a name ends before its last point. -/
example : fileStem "src/.x/a.tar.gz" = some "a.tar" ∧ fileStem "src/.x" = some ".x" ∧ fileStem "src/.." = none := by
  decide

/-- A name has no slash in it. -/
theorem slash_notMem_fileName {path name : String} (hname : fileName path = some name) : '/' ∉ name.toList := by
  have hlast : (components path).getLast? = some (.normal name) := by
    unfold fileName at hname
    split at hname
    · rename_i hlast
      rw [hlast, Option.some.inj hname]
    · exact absurd hname nofun
  have hmem := List.mem_of_getLast? hlast
  rcases List.mem_append.mp hmem with hstart | hpiece
  · unfold startComponents at hstart
    split at hstart
    · exact absurd (List.mem_singleton.mp hstart) nofun
    · split at hstart
      · exact absurd (List.mem_singleton.mp hstart) nofun
      · exact absurd hstart List.not_mem_nil
  · obtain ⟨piece, hsplit, hcomponent⟩ := List.mem_filterMap.mp hpiece
    unfold pieceComponent at hcomponent
    split at hcomponent
    · exact absurd hcomponent nofun
    · split at hcomponent
      · exact absurd (Option.some.inj hcomponent) nofun
      · obtain rfl := Component.normal.inj (Option.some.inj hcomponent)
        rw [String.toList_ofList]
        exact notMem_of_mem_splitOn hsplit

/-- A stem has no slash in it. -/
theorem slash_notMem_fileStem {path stem : String} (hstem : fileStem path = some stem) : '/' ∉ stem.toList := by
  obtain ⟨name, hname, rfl⟩ := Option.map_eq_some_iff.mp hstem
  rw [String.toList_ofList]
  exact fun hslash => slash_notMem_fileName hname (splitExtension_subset _ hslash)

/-! ## A name behind a path -/

/-- A text that is one component of a path. -/
structure Plain (name : String) : Prop where
  noSlash : '/' ∉ name.toList
  part : pieceComponent name.toList = some (.normal name)

/-- Whether a name is plain is decidable. -/
instance (name : String) : Decidable (Plain name) :=
  decidable_of_iff ('/' ∉ name.toList ∧ pieceComponent name.toList = some (.normal name))
    ⟨fun h => ⟨h.1, h.2⟩, fun h => ⟨h.noSlash, h.part⟩⟩

/-- A plain name is not absolute. -/
theorem Plain.not_absolute {name : String} (h : Plain name) : isAbsolute name = false := by
  have hslash := h.noSlash
  rw [isAbsolute]
  cases hchars : name.toList with
  | nil => rfl
  | cons c rest =>
    rw [hchars] at hslash
    rw [List.head?_cons]
    exact beq_eq_false_iff_ne.mpr fun hc => hslash (Option.some.inj hc ▸ List.mem_cons_self)

/-- A plain name is not empty. -/
theorem Plain.ne_nil {name : String} (h : Plain name) : name.toList ≠ [] := by
  intro hnil
  have hpart := h.part
  rw [hnil] at hpart
  exact absurd hpart nofun

/-- A plain name is one piece. -/
theorem Plain.splitOn {name : String} (h : Plain name) : name.toList.splitOn '/' = [name.toList] :=
  List.splitOn_eq_singleton h.noSlash

/-- A plain name starts with nothing else. -/
theorem Plain.startComponents {name : String} (h : Plain name) : startComponents name = [] := by
  have hpart := h.part
  rw [Common.startComponents, h.not_absolute, h.splitOn]
  by_cases hpoint : name.toList = ['.']
  · rw [hpoint] at hpart
    exact absurd hpart nofun
  · simp [hpoint]

/-- The components of a plain name. -/
theorem Plain.components {name : String} (h : Plain name) : components name = [.normal name] := by
  rw [Common.components, h.startComponents, h.splitOn, List.nil_append, List.filterMap_cons, h.part, List.filterMap_nil]

/-- What a path starts with does not depend on what comes behind a slash. -/
theorem startComponents_slash (s rest : List Char) :
    startComponents (String.ofList (s ++ '/' :: rest)) = startComponents (String.ofList (s ++ ['/'])) := by
  have habsolute : isAbsolute (String.ofList (s ++ '/' :: rest)) = isAbsolute (String.ofList (s ++ ['/'])) := by
    rw [isAbsolute, isAbsolute, String.toList_ofList, String.toList_ofList]
    cases s <;> rfl
  have hfirst : ((s ++ '/' :: rest).splitOn '/').head? = ((s ++ ['/']).splitOn '/').head? := by
    obtain ⟨first, others, hpieces⟩ := List.exists_cons_of_ne_nil (List.splitOn_ne_nil '/' s)
    rw [List.splitOn_append_cons_self, List.splitOn_append_cons_self, hpieces]
    rfl
  rw [startComponents, startComponents, habsolute, String.toList_ofList, String.toList_ofList, hfirst]

/-- The components of what stands behind a slash come behind the others. -/
theorem components_slash (s rest : List Char) :
    components (String.ofList (s ++ '/' :: rest)) =
      components (String.ofList (s ++ ['/'])) ++ (rest.splitOn '/').filterMap pieceComponent := by
  have hnone : ([[]] : List (List Char)).filterMap pieceComponent = [] := rfl
  rw [components, components, startComponents_slash, String.toList_ofList, String.toList_ofList,
    List.splitOn_append_cons_self, List.splitOn_append_cons_self, List.filterMap_append, List.filterMap_append,
    List.splitOn_nil, hnone, List.append_nil, List.append_assoc]

/-- A slash at the end of a path does not count. -/
theorem components_trailing {s : List Char} (hs : s ≠ []) :
    components (String.ofList (s ++ ['/'])) = components (String.ofList s) := by
  have hnone : ([[]] : List (List Char)).filterMap pieceComponent = [] := rfl
  have habsolute : isAbsolute (String.ofList (s ++ ['/'])) = isAbsolute (String.ofList s) := by
    rw [isAbsolute, isAbsolute, String.toList_ofList, String.toList_ofList, List.head?_append_of_ne_nil _ hs]
  have hfirst : ((s ++ ['/']).splitOn '/').head? = (s.splitOn '/').head? := by
    rw [List.splitOn_append_cons_self, List.head?_append_of_ne_nil _ (List.splitOn_ne_nil '/' s)]
  rw [components, components, startComponents, startComponents, habsolute, String.toList_ofList,
    String.toList_ofList, hfirst, List.splitOn_append_cons_self, List.filterMap_append, List.splitOn_nil, hnone,
    List.append_nil]

/-- A path without components in front of a slash. -/
theorem components_empty : components "" = [] := by decide

/-- The text of a name behind a path: a part that does not depend on the name, and the name. -/
theorem joinPath_plain {base name : String} (hname : Plain name) :
    joinPath base name =
      (if base.toList.getLast?.getD '/' = '/' then base else base ++ "/") ++ name := by
  rw [joinPath, hname.not_absolute, if_neg Bool.false_ne_true]
  split <;> rfl

/-- A path that starts with a name is not absolute. -/
theorem not_absolute_of_startComponents {path : String} (hstart : startComponents path = []) : isAbsolute path = false := by
  rw [startComponents] at hstart
  split at hstart
  · exact absurd hstart (List.cons_ne_nil _ _)
  · rename_i habsolute
    exact Bool.not_eq_true _ ▸ habsolute

/-- The names of a relative path come behind the components of the path in front of it. -/
theorem components_joinPath_relative {base path : String} (hrelative : isAbsolute path = false) (hbase : base ≠ "") :
    components (joinPath base path) = components base ++ (path.toList.splitOn '/').filterMap pieceComponent := by
  rw [joinPath, hrelative, if_neg Bool.false_ne_true]
  rcases List.eq_nil_or_concat base.toList with hnil | ⟨s, last, hconcat⟩
  · exact absurd (String.toList_injective hnil) hbase
  · obtain rfl : base = String.ofList (s ++ [last]) := by
      apply String.toList_injective
      rw [hconcat, String.toList_ofList, List.concat_eq_append]
    rw [String.toList_ofList, List.getLast?_append_cons, List.getLast?_singleton, Option.getD_some]
    by_cases hlast : last = '/'
    · subst hlast
      have htext : String.ofList (s ++ ['/']) ++ path = String.ofList (s ++ '/' :: path.toList) := by
        apply String.toList_injective
        simp
      rw [if_pos rfl, htext, components_slash]
    · have htext : String.ofList (s ++ [last]) ++ "/" ++ path = String.ofList (s ++ [last] ++ '/' :: path.toList) := by
        apply String.toList_injective
        simp
      have hne : s ++ [last] ≠ [] := List.append_ne_nil_of_right_ne_nil s (List.cons_ne_nil _ _)
      rw [if_neg hlast, htext, components_slash, components_trailing hne]

/-- Nothing comes in front of a path behind the empty path. -/
theorem joinPath_empty (path : String) : joinPath "" path = path := by
  rw [joinPath]
  split
  · rfl
  · exact String.empty_append

/-- The components of a path that starts with a name come behind those of the path in front of it. -/
theorem components_joinPath_of_start {path : String} (hstart : startComponents path = []) (base : String) :
    components (joinPath base path) = components base ++ components path := by
  by_cases hbase : base = ""
  · rw [hbase, joinPath_empty, components_empty, List.nil_append]
  · rw [components_joinPath_relative (not_absolute_of_startComponents hstart) hbase, components.eq_1 path, hstart,
      List.nil_append]

/-- A name behind a path is its last component. -/
theorem components_joinPath {name : String} (hname : Plain name) (base : String) :
    components (joinPath base name) = components base ++ [.normal name] := by
  rw [components_joinPath_of_start hname.startComponents, hname.components]

/-! ## The text of components -/

/-- A component that can stand behind the start of a path. -/
def Component.Part (c : Component) : Prop :=
  '/' ∉ c.asText.toList ∧ pieceComponent c.asText.toList = some c

/-- Components that a path can have. -/
inductive Proper : List Component → Prop where
  | mk {start body : List Component} (isStart : start = [] ∨ start = [.rootDir] ∨ start = [.curDir])
    (parts : ∀ c ∈ body, c.Part) : Proper (start ++ body)

/-- The component of a piece has the piece for its text. -/
theorem part_of_piece {piece : List Char} {c : Component} (hslash : '/' ∉ piece) (h : pieceComponent piece = some c) :
    c.Part := by
  have htext : c.asText.toList = piece := by
    unfold pieceComponent at h
    split at h
    · cases h
    · split at h
      · rename_i hpoints
        rw [← Option.some.inj h, hpoints]
        rfl
      · rw [← Option.some.inj h]
        exact String.toList_ofList
  exact ⟨htext ▸ hslash, htext ▸ h⟩

/-- A path has proper components. -/
theorem components_proper (path : String) : Proper (components path) := by
  refine .mk ?_ fun c hc => ?_
  · unfold startComponents
    split
    · exact .inr (.inl rfl)
    · split
      · exact .inr (.inr rfl)
      · exact .inl rfl
  · obtain ⟨piece, hpiece, hcomponent⟩ := List.mem_filterMap.mp hc
    exact part_of_piece (notMem_of_mem_splitOn hpiece) hcomponent

/-- The directory of proper components is proper. -/
theorem Proper.dropLast {parts : List Component} (h : Proper parts) : Proper parts.dropLast := by
  obtain ⟨isStart, hbody⟩ := h
  rename_i start body
  rcases List.eq_nil_or_concat body with rfl | ⟨init, last, rfl⟩
  · have hnone : (start ++ []).dropLast = [] ++ [] := by
      rcases isStart with rfl | rfl | rfl <;> rfl
    rw [hnone]
    exact .mk (.inl rfl) nofun
  · rw [List.concat_eq_append, ← List.append_assoc, List.dropLast_concat]
    exact .mk isStart fun c hc => hbody c (by simp [hc])

/-- The components of the texts of components. -/
theorem filterMap_asText {body : List Component} (h : ∀ c ∈ body, c.Part) :
    (body.map (·.asText.toList)).filterMap pieceComponent = body := by
  induction body with
  | nil => rfl
  | cons c body ih =>
    obtain ⟨hc, hbody⟩ := List.forall_mem_cons.mp h
    rw [List.map_cons, List.filterMap_cons, hc.2, ih hbody]

/-- The text of proper components has these components. -/
theorem Proper.components_text {parts : List Component} (h : Proper parts) : components (componentsText parts) = parts := by
  obtain ⟨isStart, hbody⟩ := h
  rename_i start body
  rcases eq_or_ne (start ++ body) [.rootDir] with hroot | hroot
  · rw [hroot]
    decide
  rcases eq_or_ne (start ++ body) [] with hnil | hnil
  · rw [hnil]
    decide
  have htext : (componentsText (start ++ body)).toList = ['/'].intercalate ((start ++ body).map (·.asText.toList)) := by
    rw [componentsText, if_neg hroot, String.toList_intercalate, List.map_map]
    rfl
  have hsplit : (componentsText (start ++ body)).toList.splitOn '/' = (start ++ body).map (·.asText.toList) := by
    rw [htext]
    refine List.splitOn_intercalate '/' (List.forall_mem_map.mpr fun c hc => ?_) fun h => hnil (List.map_eq_nil_iff.mp h)
    rcases List.mem_append.mp hc with hc | hc
    · rcases isStart with rfl | rfl | rfl
      · cases hc
      · rw [List.mem_singleton.mp hc]
        decide
      · rw [List.mem_singleton.mp hc]
        decide
    · exact (hbody c hc).1
  rw [components, startComponents, isAbsolute, hsplit, htext, List.map_append, List.filterMap_append,
    filterMap_asText hbody]
  rcases isStart with rfl | rfl | rfl
  · obtain ⟨c, rest, rfl⟩ := List.exists_cons_of_ne_nil hnil
    obtain ⟨hslash, hpiece⟩ := hbody c List.mem_cons_self
    have hne : c.asText.toList ≠ [] := by
      intro hempty
      rw [hempty] at hpiece
      cases hpiece
    have hstart : c.asText.toList.head? ≠ some '/' := fun hhead => hslash (List.mem_of_mem_head? hhead)
    have hpoint : c.asText.toList ≠ ['.'] := by
      intro hpoint
      have hnone : pieceComponent ['.'] = none := rfl
      rw [hpoint, hnone] at hpiece
      cases hpiece
    rw [List.map_nil, List.nil_append, List.map_cons, head?_intercalate_cons '/' hne, beq_eq_false_iff_ne.mpr hstart,
      if_neg Bool.false_ne_true, List.head?_cons, if_neg fun h => hpoint (Option.some.inj h)]
    rfl
  · obtain ⟨c, rest, rfl⟩ := List.exists_cons_of_ne_nil fun h : body = [] => hroot (by rw [h]; rfl)
    rfl
  · rcases body with _ | ⟨c, rest⟩ <;> rfl

end Forge.Common
