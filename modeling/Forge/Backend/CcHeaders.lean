import Forge.Backend.CcFingerprint
import Forge.Common.Scanning

/-!
# Headers in a tree of directories

The scan for headers tells files apart by the texts of their paths. In a tree of directories,
one file has many paths, as soon as a name goes up and down again. The scan reads a line as an
include line only if nothing stands behind the name, panics at a quote that stands alone, and
takes a directory for a header.
-/

namespace Forge.Backend.Cc

open Forge.Common Relation

/-! ## A tree of directories -/

/-- What is at a place in a tree. -/
inductive HostNode where
  | dir
  | file (bytes : Bytes)
deriving DecidableEq, Repr

/-- A tree of directories. A place is told by the names on the way to it. Relative paths start from
the current directory. The system does not accept every path: it may be too long. -/
structure HostTree where
  nodes : AList fun _ : List String => HostNode
  cwd : List String
  accepts : String → Bool
  parents : ∀ place ∈ nodes.keys, place ≠ [] → nodes.lookup place.dropLast = some .dir
  cwd_dir : nodes.lookup cwd = some .dir

namespace HostTree

variable (tree : HostTree)

/-- Follow the components of a path. Names and the way up can only be followed in directories. -/
def walk : List String → List Component → Option (List String)
  | place, [] => if (tree.nodes.lookup place).isSome then some place else none
  | _, .rootDir :: parts => walk [] parts
  | place, .curDir :: parts => walk place parts
  | place, .parentDir :: parts => if tree.nodes.lookup place = some .dir then walk place.dropLast parts else none
  | place, .normal name :: parts => if tree.nodes.lookup place = some .dir then walk (place ++ [name]) parts else none

/-- The place to which components lead. -/
def placeOf (parts : List Component) : Option (List String) :=
  tree.walk tree.cwd parts

/-- What can be read there. -/
def entryAt (parts : List Component) : Option Entry :=
  (tree.placeOf parts).bind fun place => (tree.nodes.lookup place).map fun
    | .dir => .unreadable
    | .file bytes => .file bytes

/-- A path that ends like this can only lead to a directory. -/
def endsAsDirectory (path : String) : Bool :=
  (path.toList.splitOn '/').getLast? == some [] || (path.toList.splitOn '/').getLast? == some ['.']

/-- What there is at a path. -/
def view (path : String) : Option Entry :=
  if path = "" ∨ tree.accepts path = false then none
  else
    match tree.entryAt (components path) with
    | some (.file bytes) => if endsAsDirectory path then none else some (.file bytes)
    | entry => entry

/-- What there is at a path is where its components lead to. -/
theorem entryAt_of_view {path : String} {entry : Entry} (h : tree.view path = some entry) :
    tree.entryAt (components path) = some entry := by
  unfold view at h
  split at h
  · cases h
  · split at h
    · rename_i bytes hentry
      split at h
      · cases h
      · rw [hentry, h]
    · exact h

end HostTree

/-! ## The scan -/

/-- Find a header next to the file that includes it, or else in the directories of headers. -/
def findHeader (view : String → Option Entry) (headerName : String) (sourceDir : Option String)
    (includes : List String) : Option String :=
  ((sourceDir.toList ++ includes).map (joinPath · headerName)).find? fun path => (view path).isSome

/-- There is something at the path of a header that is found. -/
theorem view_of_findHeader {view : String → Option Entry} {headerName path : String} {sourceDir : Option String}
    {includes : List String} (h : findHeader view headerName sourceDir includes = some path) :
    ∃ entry, view path = some entry := by
  unfold findHeader at h
  exact Option.isSome_iff_exists.mp (by simpa using List.find?_some h)

/-- Hash the headers that lines include, each path once and before the lines behind it. The paths that
are hashed are listed. The scan may have no end. -/
def hashHeaders (view : String → Option Entry) (includes : List String) :
    ℕ → List PendingLine → List (List Component) → Option (Except FingerprintError (List (List Component)))
  | _, [], _ => some (.ok [])
  | 0, _ :: _, _ => none
  | fuel + 1, ⟨sourceDir, line⟩ :: pending, visited =>
    match extractHeaderName (trim line) with
    | .error e => some (.error e)
    | .ok none => hashHeaders view includes fuel pending visited
    | .ok (some headerName) =>
      match findHeader view headerName sourceDir includes with
      | none => hashHeaders view includes fuel pending visited
      | some path =>
        if components path ∈ visited then hashHeaders view includes fuel pending visited
        else
          match view path with
          | some (.file content) =>
            (hashHeaders view includes fuel (pendingLines content (parentText path) ++ pending)
              (components path :: visited)).map (Except.map (components path :: ·))
          | _ => some (.error .io)

/-- The scan reads the first line, and then the lines behind it or those of the header. -/
theorem hashHeaders_cons (view : String → Option Entry) (includes : List String) (fuel : ℕ) (sourceDir : Option String)
    (line : List Char) (pending : List PendingLine) (visited : List (List Component)) :
    hashHeaders view includes (fuel + 1) (⟨sourceDir, line⟩ :: pending) visited =
      match extractHeaderName (trim line) with
      | .error e => some (.error e)
      | .ok none => hashHeaders view includes fuel pending visited
      | .ok (some headerName) =>
        match findHeader view headerName sourceDir includes with
        | none => hashHeaders view includes fuel pending visited
        | some path =>
          if components path ∈ visited then hashHeaders view includes fuel pending visited
          else
            match view path with
            | some (.file content) =>
              (hashHeaders view includes fuel (pendingLines content (parentText path) ++ pending)
                (components path :: visited)).map (Except.map (components path :: ·))
            | _ => some (.error .io) := rfl

/-- What is read at components. -/
def contentAt (files : FileSystem) (parts : List Component) : Bytes :=
  match files.lookup parts with
  | some (.file bytes) => bytes
  | _ => []

/-- In a file system that tells files apart by the texts of their paths, the scan ends, and what it
hashes is what is read at the paths that it lists. -/
theorem scanAndHashHeaders_eq (files : FileSystem) (includes : List String) (pending : List PendingLine)
    (visited : List (List Component)) :
    ∃ fuel result, hashHeaders (fun path => files.lookup (components path)) includes fuel pending visited = some result ∧
      scanAndHashHeaders files includes pending visited = result.map (List.flatMap (contentAt files)) := by
  have hresolve : resolveHeader files = findHeader fun path => files.lookup (components path) := rfl
  fun_induction scanAndHashHeaders files includes pending visited with
  | case1 => exact ⟨0, .ok [], rfl, rfl⟩
  | case2 sourceDir line pending visited e hname => exact ⟨1, .error e, by simp only [hashHeaders_cons, hname], rfl⟩
  | case3 sourceDir line pending visited hname ih =>
    obtain ⟨fuel, result, hscan, htext⟩ := ih
    exact ⟨fuel + 1, result, by simpa only [hashHeaders_cons, hname] using hscan, htext⟩
  | case4 sourceDir line pending visited name hname hfind ih =>
    obtain ⟨fuel, result, hscan, htext⟩ := ih
    rw [hresolve] at hfind
    exact ⟨fuel + 1, result, by simpa only [hashHeaders_cons, hname, hfind] using hscan, htext⟩
  | case5 sourceDir line pending visited name hname path hfind hvisited ih =>
    obtain ⟨fuel, result, hscan, htext⟩ := ih
    rw [hresolve] at hfind
    exact ⟨fuel + 1, result, by simpa only [hashHeaders_cons, hname, hfind, if_pos hvisited] using hscan, htext⟩
  | case6 sourceDir line pending visited name hname path hfind hnew hentry ih =>
    rw [hresolve] at hfind
    obtain ⟨entry, hfound⟩ := view_of_findHeader hfind
    rw [hentry] at hfound
    cases hfound
  | case7 sourceDir line pending visited name hname path hfind hnew hentry =>
    rw [hresolve] at hfind
    exact ⟨1, .error .io, by simp only [hashHeaders_cons, hname, hfind, if_neg hnew, hentry], rfl⟩
  | case8 sourceDir line pending visited name hname path hfind hnew content hentry ih =>
    obtain ⟨fuel, result, hscan, htext⟩ := ih
    rw [hresolve] at hfind
    refine ⟨fuel + 1, result.map (components path :: ·), ?_, ?_⟩
    · simp only [hashHeaders_cons, hname, hfind, if_neg hnew, hentry, hscan, Option.map_some]
    · rw [htext]
      cases result with
      | error e => rfl
      | ok hashed =>
        have hcontent : contentAt files (components path) = content := by rw [contentAt, hentry]
        simp only [Except.map, List.flatMap_cons, hcontent]

/-! ## Include lines -/

/-- The lines of a file. -/
def linesOf (content : Bytes) : List (List Char) :=
  lines (textLossy content).toList

/-- An include line with nothing but a quote. -/
def LoneQuote (line : List Char) : Prop :=
  ∃ rest, stripPrefix "#include".toList (trim line) = some rest ∧ trim rest = ['"']

/-- The scan panics at the lines with nothing but a quote. -/
theorem extractHeaderName_error_iff {line : List Char} :
    (∃ e, extractHeaderName (trim line) = .error e) ↔ LoneQuote line := by
  unfold extractHeaderName LoneQuote
  rcases hstrip : stripPrefix "#include".toList (trim line) with _ | rest
  · simp
  · simp only [Option.some.injEq, exists_eq_left']
    generalize trim rest = name
    split
    · rename_i hmarks
      split
      · rename_i hlength
        refine iff_of_true ⟨_, rfl⟩ ?_
        rcases name with _ | ⟨c, _ | ⟨d, name⟩⟩
        · simp at hmarks
        · simp only [List.head?_cons, List.getLast?_singleton, Bool.or_eq_true, Bool.and_eq_true, beq_iff_eq,
            Option.some.injEq] at hmarks
          rcases hmarks with ⟨rfl, -⟩ | ⟨rfl, hclose⟩
          · rfl
          · exact absurd hclose (by decide)
        · simp only [List.length_cons] at hlength
          omega
      · rename_i hlength
        refine iff_of_false (fun ⟨_, h⟩ => nomatch h) ?_
        rintro rfl
        exact hlength (by decide)
    · rename_i hmarks
      refine iff_of_false (fun ⟨_, h⟩ => nomatch h) ?_
      rintro rfl
      exact hmarks (by decide)

/-- Nothing but white space. -/
def Blank (s : List Char) : Prop := ∀ c ∈ s, isWhitespace c = true

/-- A comment to the end of a line. -/
inductive TrailingComment : List Char → Prop where
  | line (text : List Char) : TrailingComment ('/' :: '/' :: text)
  | block {text blanks : List Char} (closes : ¬ ['*', '/'] <:+: text) (blank : Blank blanks) :
    TrailingComment ('/' :: '*' :: text ++ '*' :: '/' :: blanks)

/-- The marks around the name of a header. -/
def nameMarks : List (Char × Char) := [('"', '"'), ('<', '>')]

/-- A line that includes a header: blanks and a comment may stand around the name. -/
inductive Directive : List Char → String → Prop where
  | mk {before between behind name comment : List Char} {marks : Char × Char} (blankBefore : Blank before)
    (blankBetween : Blank between) (blankBehind : Blank behind) (isMarks : marks ∈ nameMarks)
    (closes : marks.2 ∉ name) (isComment : comment = [] ∨ TrailingComment comment) :
    Directive (before ++ "#include".toList ++ between ++ marks.1 :: name ++ marks.2 :: behind ++ comment)
      (String.ofList name)

/-! ## What the scan reaches -/

/-- The directory of a path with the given components. -/
def parentOf (parts : List Component) : Option String :=
  match parts.getLast? with
  | none => none
  | some .rootDir => none
  | some _ => some (componentsText parts.dropLast)

namespace HostTree

variable (tree : HostTree) (includes : List String)

/-- The scan looks for a header in a line, and goes on with the lines of the header. -/
def headerScanner : Scanner PendingLine (List Component) FingerprintError where
  look pending := (extractHeaderName (trim pending.line)).map fun headerName =>
    (headerName.bind fun headerName => findHeader tree.view headerName pending.sourceDir includes).map components
  expand parts := match tree.entryAt parts with
    | some (.file content) => .ok (pendingLines content (parentOf parts))
    | _ => .error .io

/-- The scan in the words of the code is the scan for what can be reached. -/
theorem hashHeaders_eq_scan (fuel : ℕ) (pending : List PendingLine) (visited : List (List Component)) :
    hashHeaders tree.view includes fuel pending visited = (tree.headerScanner includes).scan fuel pending visited := by
  induction fuel generalizing pending visited with
  | zero => cases pending <;> rfl
  | succ fuel ih =>
    rcases pending with _ | ⟨⟨sourceDir, line⟩, pending⟩
    · rfl
    · rw [hashHeaders_cons, Scanner.scan]
      simp only [headerScanner]
      rcases hname : extractHeaderName (trim line) with e | (_ | headerName)
      · rfl
      · exact ih _ _
      · simp only [Except.map, Option.bind_some]
        rcases hfind : findHeader tree.view headerName sourceDir includes with _ | path
        · exact ih _ _
        · simp only [Option.map_some]
          split
          · exact ih _ _
          · obtain ⟨entry, hentry⟩ := view_of_findHeader hfind
            rw [hentry, tree.entryAt_of_view hentry]
            cases entry with
            | unreadable => rfl
            | file content =>
              simp only
              rw [ih]
              rfl

/-- The components that the scan reaches from a source. -/
def scanned (content : Bytes) (sourceDir : Option String) : Set (List Component) :=
  (tree.headerScanner includes).reached (pendingLines content sourceDir)

/-- The file to which a path leads from a directory. -/
def fileFrom (place : List String) (path : String) : Option (List String) :=
  (tree.walk place (components path)).filter fun target => match tree.nodes.lookup target with
    | some (.file _) => !endsAsDirectory path
    | _ => false

/-- The header with a name: next to the file that includes it, or else in the first directory that has it. -/
def headerOf (dir : Option (List String)) (name : String) : Option (List String) :=
  (dir.bind fun place => tree.fileFrom place name).orElse fun _ =>
    includes.findSome? fun inc => tree.fileFrom tree.cwd (joinPath inc name)

/-- A file in a directory includes the header at a place. -/
def Wants (content : Bytes) (dir : Option (List String)) (place : List String) : Prop :=
  ∃ line ∈ linesOf content, ∃ name, Directive line name ∧ tree.headerOf includes dir name = some place

/-- The headers that a source includes, directly or through other headers. -/
def wanted (content : Bytes) (sourceDir : Option String) : Set (List String) :=
  reachSet (fun place place' => ∃ bytes, tree.nodes.lookup place = some (.file bytes) ∧
      tree.Wants includes bytes (some place.dropLast) place')
    {place | tree.Wants includes content (sourceDir.bind fun dir => tree.placeOf (components dir)) place}

/-- The scan is total and complete on a source: it ends, and it has hashed no file twice, and all headers. -/
def ScansAll (content : Bytes) (sourceDir : Option String) : Prop :=
  ∃ fuel hashed, hashHeaders tree.view includes fuel (pendingLines content sourceDir) [] = some (.ok hashed) ∧
    (hashed.map tree.placeOf).Nodup ∧
    ∀ place ∈ tree.wanted includes content sourceDir, some place ∈ hashed.map tree.placeOf

/-- What a tree and a source must be like for the scan to be total and complete. -/
structure Scannable (content : Bytes) (sourceDir : Option String) : Prop where
  noLoneQuote : ∀ line ∈ linesOf content, ¬ LoneQuote line
  opens : ∀ parts ∈ tree.scanned includes content sourceDir, ∃ bytes, tree.entryAt parts = some (.file bytes) ∧
    ∀ line ∈ linesOf bytes, ¬ LoneQuote line
  oneSpelling : Set.InjOn tree.placeOf (tree.scanned includes content sourceDir)
  covers : ∀ place ∈ tree.wanted includes content sourceDir,
    ∃ parts ∈ tree.scanned includes content sourceDir, tree.placeOf parts = some place

/-- The lines of a file make the scan fail exactly when there is a lone quote. -/
theorem fine_pendingLines_iff {content : Bytes} {sourceDir : Option String} :
    (tree.headerScanner includes).Fine (pendingLines content sourceDir) ↔ ∀ line ∈ linesOf content, ¬ LoneQuote line := by
  rw [Scanner.Fine, pendingLines, List.forall_mem_map]
  refine forall₂_congr fun line _ => ?_
  rw [← extractHeaderName_error_iff]
  simp only [headerScanner]
  cases extractHeaderName (trim line) <;> simp [Except.map]

/-- Components can be opened when they lead to a file without a lone quote. -/
theorem opens_iff {parts : List Component} :
    (tree.headerScanner includes).Opens parts ↔
      ∃ bytes, tree.entryAt parts = some (.file bytes) ∧ ∀ line ∈ linesOf bytes, ¬ LoneQuote line := by
  have hexpand (bytes : Bytes) (h : tree.entryAt parts = some (.file bytes)) :
      (tree.headerScanner includes).expand parts = .ok (pendingLines bytes (parentOf parts)) := by
    simp only [headerScanner, h]
  constructor
  · rintro ⟨items, hitems, hfine⟩
    rcases hentry : tree.entryAt parts with _ | (bytes | _)
    · simp [headerScanner, hentry] at hitems
    · rw [hexpand bytes hentry] at hitems
      obtain rfl := Except.ok.inj hitems
      exact ⟨bytes, rfl, (tree.fine_pendingLines_iff includes).mp hfine⟩
    · simp [headerScanner, hentry] at hitems
  · rintro ⟨bytes, hentry, hlines⟩
    exact ⟨_, hexpand bytes hentry, (tree.fine_pendingLines_iff includes).mpr hlines⟩

/-- Components that lead to a file lead to a place in the tree. -/
theorem placeOf_mem_keys {parts : List Component} {entry : Entry} (h : tree.entryAt parts = some entry) :
    tree.placeOf parts ∈ some '' {place | place ∈ tree.nodes.keys} := by
  obtain ⟨place, hplace, hnode⟩ := Option.bind_eq_some_iff.mp h
  obtain ⟨node, hnode, -⟩ := Option.map_eq_some_iff.mp hnode
  refine ⟨place, AList.mem_keys.mp (AList.lookup_isSome.mp ?_), hplace.symm⟩
  rw [hnode]
  rfl

/-- The scan is total and complete exactly when no line with a lone quote is reached, no directory is
taken for a header, no header is reached by two spellings of its path, and every header that is
included is reached. -/
theorem scansAll_iff (content : Bytes) (sourceDir : Option String) :
    tree.ScansAll includes content sourceDir ↔ tree.Scannable includes content sourceDir := by
  have hends := @Scanner.exists_scan_iff _ _ _ _ (tree.headerScanner includes) (pendingLines content sourceDir)
  constructor
  · rintro ⟨fuel, hashed, hscan, hnodup, hall⟩
    rw [hashHeaders_eq_scan] at hscan
    obtain ⟨-, hfine, hopens⟩ := hends.mp ⟨fuel, hashed, hscan⟩
    obtain ⟨-, hmem⟩ := Scanner.scan_spec hscan
    refine ⟨(tree.fine_pendingLines_iff includes).mp hfine, fun parts hparts => ?_, ?_, fun place hplace => ?_⟩
    · exact (tree.opens_iff includes).mp (hopens parts hparts)
    · exact fun parts hparts parts' hparts' hsame =>
        List.inj_on_of_nodup_map hnodup ((hmem parts).mpr hparts) ((hmem parts').mpr hparts') hsame
    · obtain ⟨parts, hparts, hat⟩ := List.mem_map.mp (hall place hplace)
      exact ⟨parts, (hmem parts).mp hparts, hat⟩
  · intro h
    have hfinite : (tree.scanned includes content sourceDir).Finite := by
      refine Set.Finite.of_finite_image (Set.Finite.subset (List.finite_toSet tree.nodes.keys |>.image some) ?_) h.oneSpelling
      rintro _ ⟨parts, hparts, rfl⟩
      obtain ⟨bytes, hentry, -⟩ := h.opens parts hparts
      exact tree.placeOf_mem_keys hentry
    obtain ⟨fuel, hashed, hscan⟩ := hends.mpr ⟨hfinite, (tree.fine_pendingLines_iff includes).mpr h.noLoneQuote,
      fun parts hparts => (tree.opens_iff includes).mpr (h.opens parts hparts)⟩
    obtain ⟨hnodup, hmem⟩ := Scanner.scan_spec hscan
    refine ⟨fuel, hashed, (tree.hashHeaders_eq_scan includes _ _ _).trans hscan, ?_, fun place hplace => ?_⟩
    · exact hnodup.map_on fun parts hparts parts' hparts' hsame =>
        h.oneSpelling ((hmem parts).mp hparts) ((hmem parts').mp hparts') hsame
    · obtain ⟨parts, hparts, hat⟩ := h.covers place hplace
      exact List.mem_map.mpr ⟨parts, (hmem parts).mpr hparts, hat⟩

/-- A directory with a header. -/
def oneHeader : HostTree where
  nodes := ((AList.insert [] HostNode.dir ∅).insert ["p"] HostNode.dir).insert ["p", "a.h"] (.file (utf8Bytes "int a;\n"))
  cwd := []
  accepts path := decide (path.utf8ByteSize < 4096)
  parents := by decide
  cwd_dir := by decide

/-- A quote that stands alone makes the scan panic, and a comment makes it miss the header. -/
theorem not_scansAll :
    ¬ oneHeader.ScansAll [] (utf8Bytes "#include \"\n") (some "/p") ∧
      ¬ oneHeader.ScansAll [] (utf8Bytes "#include \"a.h\" // a\n") (some "/p") := by
  constructor
  · rintro ⟨fuel, hashed, hscan, -⟩
    have hpanic : hashHeaders oneHeader.view [] 1 (pendingLines (utf8Bytes "#include \"\n") (some "/p")) [] =
        some (.error .panic) := by rfl
    rw [hashHeaders_eq_scan] at hscan hpanic
    cases Scanner.scan_det hscan hpanic
  · rintro ⟨fuel, hashed, hscan, -, hall⟩
    have hnone : hashHeaders oneHeader.view [] 1 (pendingLines (utf8Bytes "#include \"a.h\" // a\n") (some "/p")) [] =
        some (.ok []) := by rfl
    rw [hashHeaders_eq_scan] at hscan hnone
    obtain rfl := Except.ok.inj (Scanner.scan_det hscan hnone)
    refine absurd (hall ["p", "a.h"] ⟨["p", "a.h"], ?_, .refl⟩) List.not_mem_nil
    refine ⟨"#include \"a.h\" // a".toList, by decide, "a.h", ?_, by decide⟩
    exact @Directive.mk [] [' '] [' '] "a.h".toList "// a".toList ('"', '"') nofun
      (List.forall_mem_singleton.mpr (by decide)) (List.forall_mem_singleton.mpr (by decide)) (by decide) (by decide) (.inr (.line " a".toList))

end HostTree

/-!
## Include lines that the scan reads as they are meant

The scan looks for a header by the texts of paths, and the include line means a file that is
found from the directory of the including file. Both lead to the same file as long as no
directory is taken for a header and the system accepts the paths. So the scan reaches all
headers if nothing but white space stands behind their names.
-/

/-! ### Lines -/

/-- White space around a text is taken off. -/
theorem trim_blanks {before s behind : List Char} (hbefore : Blank before) (hbehind : Blank behind)
    (hhead : ∀ c, s.head? = some c → isWhitespace c = false)
    (hlast : ∀ c, s.getLast? = some c → isWhitespace c = false) : trim (before ++ s ++ behind) = s :=
  (trimMatches_append_right hbehind).trans
    ((trimMatches_append_left hbefore).trans (trimMatches_eq_self hhead hlast))

/-- The scan reads the name in an include line without a comment. -/
theorem extractHeaderName_plain {before between behind name : List Char} {marks : Char × Char}
    (hbefore : Blank before) (hbetween : Blank between) (hbehind : Blank behind) (hmarks : marks ∈ nameMarks) :
    extractHeaderName (trim (before ++ "#include".toList ++ between ++ marks.1 :: name ++ marks.2 :: behind)) =
      .ok (some (String.ofList name)) := by
  obtain ⟨opening, closing⟩ := marks
  have hsolid : isWhitespace opening = false ∧ isWhitespace closing = false := by
    rcases List.mem_cons.mp hmarks with h | h
    · rw [(Prod.mk.inj h).1, (Prod.mk.inj h).2]
      decide
    · rw [(Prod.mk.inj (List.mem_singleton.mp h)).1, (Prod.mk.inj (List.mem_singleton.mp h)).2]
      decide
  have hline : before ++ "#include".toList ++ between ++ opening :: name ++ closing :: behind =
      before ++ ("#include".toList ++ (between ++ (opening :: name ++ [closing]))) ++ behind := by simp
  have hlast : (opening :: name ++ [closing]).getLast? = some closing := List.getLast?_concat
  have htrim : trim (before ++ ("#include".toList ++ (between ++ (opening :: name ++ [closing]))) ++ behind) =
      "#include".toList ++ (between ++ (opening :: name ++ [closing])) := by
    refine trim_blanks hbefore hbehind (fun c hc => ?_) fun c hc => ?_
    · obtain rfl : '#' = c := Option.some.inj hc
      decide
    · rw [← List.append_assoc, ← List.append_assoc, List.getLast?_concat] at hc
      rw [← Option.some.inj hc]
      exact hsolid.2
  have hname : trim (between ++ (opening :: name ++ [closing])) = opening :: name ++ [closing] := by
    have h := @trim_blanks between (opening :: name ++ [closing]) [] hbetween nofun
      (fun c hc => Option.some.inj hc ▸ hsolid.1) fun c hc => Option.some.inj (hlast.symm.trans hc) ▸ hsolid.2
    rwa [List.append_nil] at h
  have hread : (opening == '"' && closing == '"' || opening == '<' && closing == '>') = true := by
    rcases List.mem_cons.mp hmarks with h | h
    · rw [(Prod.mk.inj h).1, (Prod.mk.inj h).2]
      decide
    · rw [(Prod.mk.inj (List.mem_singleton.mp h)).1, (Prod.mk.inj (List.mem_singleton.mp h)).2]
      decide
  rw [hline, htrim, extractHeaderName, stripPrefix_append]
  simp only [hname, hlast]
  rw [List.cons_append, List.head?_cons]
  simp only [Option.some_beq_some, hread, if_true]
  simp

/-! ### Places -/

namespace HostTree

variable (tree : HostTree)

/-- The root is a directory. -/
theorem root_dir : tree.nodes.lookup [] = some .dir := by
  have hup (place : List String) (hplace : tree.nodes.lookup place = some .dir) : tree.nodes.lookup [] = some .dir := by
    induction place using List.reverseRecOn with
    | nil => exact hplace
    | append_singleton place name ih =>
      have hkey : place ++ [name] ∈ tree.nodes.keys :=
        AList.mem_keys.mp (AList.lookup_isSome.mp (by rw [hplace]; rfl))
      have hparent := tree.parents _ hkey (by simp)
      rw [List.dropLast_concat] at hparent
      exact ih hparent
  exact hup tree.cwd tree.cwd_dir

/-- The place above a directory is a directory. -/
theorem parent_dir {place : List String} (h : tree.nodes.lookup place = some .dir) :
    tree.nodes.lookup place.dropLast = some .dir := by
  by_cases hroot : place = []
  · rw [hroot]
    exact tree.root_dir
  · exact tree.parents place (AList.mem_keys.mp (AList.lookup_isSome.mp (by rw [h]; rfl))) hroot

/-- Nothing is found from a place that is not there. -/
theorem walk_missing {place : List String} (hplace : tree.nodes.lookup place = none) {parts : List Component}
    (hparts : .rootDir ∉ parts) : tree.walk place parts = none := by
  induction parts with
  | nil => simp [walk, hplace]
  | cons c parts ih =>
    obtain ⟨hc, hrest⟩ := List.ne_and_not_mem_of_not_mem_cons hparts
    cases c with
    | rootDir => exact absurd rfl hc
    | curDir => exact ih hrest
    | parentDir => simp [walk, hplace]
    | normal name => simp [walk, hplace]

/-- Follow components after others. -/
theorem walk_append (place : List String) (first : List Component) {parts : List Component} (hparts : .rootDir ∉ parts) :
    tree.walk place (first ++ parts) = (tree.walk place first).bind fun between => tree.walk between parts := by
  induction first generalizing place with
  | nil =>
    rw [List.nil_append, walk]
    split
    · rfl
    · rename_i hmissing
      exact tree.walk_missing (Option.not_isSome_iff_eq_none.mp hmissing) hparts
  | cons c first ih =>
    rw [List.cons_append]
    cases c with
    | rootDir => exact ih []
    | curDir => exact ih place
    | parentDir =>
      rw [walk, walk]
      split
      · exact ih _
      · rfl
    | normal name =>
      rw [walk, walk]
      split
      · exact ih _
      · rfl

/-- The names of a relative path do not lead to the root. -/
theorem rootDir_notMem_pieces (pieces : List (List Char)) : .rootDir ∉ pieces.filterMap pieceComponent := by
  intro h
  obtain ⟨piece, -, hpiece⟩ := List.mem_filterMap.mp h
  unfold pieceComponent at hpiece
  split at hpiece
  · cases hpiece
  · split at hpiece <;> cases hpiece

/-- A relative path is followed by its names. -/
theorem walk_relative {path : String} (hrelative : isAbsolute path = false) (place : List String) :
    tree.walk place (components path) = tree.walk place ((path.toList.splitOn '/').filterMap pieceComponent) := by
  rw [components, startComponents, hrelative, if_neg Bool.false_ne_true]
  split <;> rfl

/-- An absolute path leads to the same place from everywhere. -/
theorem walk_absolute {path : String} (habsolute : isAbsolute path = true) (place place' : List String) :
    tree.walk place (components path) = tree.walk place' (components path) := by
  rw [components, startComponents, if_pos habsolute]
  rfl

/-- A relative path behind another one is followed from the place of that one. -/
theorem placeOf_joinPath {path : String} (hrelative : isAbsolute path = false) (dir : String) :
    tree.placeOf (components (joinPath dir path)) =
      (tree.placeOf (components dir)).bind fun place => tree.walk place (components path) := by
  by_cases hdir : dir = ""
  · have hcwd : tree.placeOf (components "") = some tree.cwd := by
      rw [components_empty, placeOf, walk, tree.cwd_dir]
      rfl
    rw [hdir, joinPath_empty, hcwd]
    rfl
  · rw [placeOf, components_joinPath_relative hrelative hdir, tree.walk_append _ _ (rootDir_notMem_pieces _)]
    exact congrArg _ (funext fun place => (tree.walk_relative hrelative place).symm)

/-- The last name of a path is that of the path at its end. -/
theorem endsAsDirectory_joinPath (dir path : String) : endsAsDirectory (joinPath dir path) = endsAsDirectory path := by
  have hbehind (s : List Char) : endsAsDirectory (String.ofList (s ++ '/' :: path.toList)) = endsAsDirectory path := by
    obtain ⟨piece, pieces, hpieces⟩ := List.exists_cons_of_ne_nil (List.splitOn_ne_nil '/' path.toList)
    rw [endsAsDirectory, endsAsDirectory, String.toList_ofList, List.splitOn_append_cons_self, hpieces,
      List.getLast?_append_cons]
  rw [joinPath]
  split
  · rfl
  · split
    · rename_i hslash
      rcases List.eq_nil_or_concat dir.toList with hnil | ⟨s, last, hconcat⟩
      · obtain rfl : dir = "" := String.toList_injective hnil
        rw [String.empty_append]
      · rw [hconcat, List.concat_eq_append, List.getLast?_concat, Option.getD_some] at hslash
        have htext : dir ++ path = String.ofList (s ++ '/' :: path.toList) := by
          apply String.toList_injective
          rw [String.toList_append, hconcat, hslash, String.toList_ofList]
          simp
        rw [htext, hbehind]
    · have htext : dir ++ "/" ++ path = String.ofList (dir.toList ++ '/' :: path.toList) := by
        apply String.toList_injective
        simp
      rw [htext, hbehind]

/-- The file that is found from the place of a directory is the one at the path behind its path. -/
theorem fileFrom_joinPath {dir : String} {place : List String} (hdir : tree.placeOf (components dir) = some place)
    (name : String) : tree.fileFrom place name = tree.fileFrom tree.cwd (joinPath dir name) := by
  have hwalk : tree.walk place (components name) = tree.placeOf (components (joinPath dir name)) := by
    by_cases habsolute : isAbsolute name = true
    · rw [joinPath, if_pos habsolute]
      exact tree.walk_absolute habsolute place tree.cwd
    · rw [tree.placeOf_joinPath (Bool.not_eq_true _ ▸ habsolute), hdir, Option.bind_some]
  rw [fileFrom, hwalk, ← endsAsDirectory_joinPath dir name]
  rfl

/-- The header of an include line is the first one that is found at the paths at which the scan looks. -/
theorem headerOf_eq_findSome? {includes : List String} {sourceDir : Option String} {name : String} {place : List String}
    (h : tree.headerOf includes (sourceDir.bind fun dir => tree.placeOf (components dir)) name = some place) :
    ((sourceDir.toList ++ includes).map (joinPath · name)).findSome? (tree.fileFrom tree.cwd) = some place := by
  have hrest : includes.findSome? (fun inc => tree.fileFrom tree.cwd (joinPath inc name)) =
      (includes.map (joinPath · name)).findSome? (tree.fileFrom tree.cwd) := by
    rw [List.findSome?_map]
    rfl
  cases sourceDir with
  | none => rwa [headerOf, Option.bind_none, Option.bind_none, Option.orElse_none, hrest] at h
  | some dir =>
    rw [Option.toList_some, List.singleton_append, List.map_cons, List.findSome?_cons]
    rw [headerOf, Option.bind_some] at h
    rcases hdir : tree.placeOf (components dir) with _ | start
    · rw [hdir, Option.bind_none, Option.orElse_none] at h
      by_cases habsolute : isAbsolute name = true
      · -- An absolute name is the same path behind all directories.
        have hsame (base : String) : joinPath base name = name := by rw [joinPath, if_pos habsolute]
        simp only [hsame] at h ⊢
        obtain ⟨_, -, hname⟩ := List.exists_of_findSome?_eq_some h
        rw [hname]
      · have hnone : tree.fileFrom tree.cwd (joinPath dir name) = none := by
          have hplace := tree.placeOf_joinPath (Bool.not_eq_true _ ▸ habsolute) dir
          rw [hdir, Option.bind_none, placeOf] at hplace
          rw [fileFrom, hplace, Option.filter_none]
        rw [hnone, ← hrest]
        exact h
    · rw [hdir, Option.bind_some, tree.fileFrom_joinPath hdir] at h
      cases hfile : tree.fileFrom tree.cwd (joinPath dir name) with
      | some found => rwa [hfile, Option.orElse_some] at h
      | none => rwa [hfile, Option.orElse_none, hrest] at h

/-- There is a file at a path that leads to one. -/
theorem view_of_fileFrom (haccepts : ∀ path, tree.accepts path = true) {path : String} {place : List String}
    (h : tree.fileFrom tree.cwd path = some place) :
    ∃ bytes, tree.view path = some (.file bytes) ∧ tree.placeOf (components path) = some place := by
  obtain ⟨hplace, hfile⟩ := Option.filter_eq_some_iff.mp h
  split at hfile
  · rename_i bytes hnode
    have hends : endsAsDirectory path = false := by simpa using hfile
    have hne : path ≠ "" := by
      rintro rfl
      cases hends
    have hentry : tree.entryAt (components path) = some (.file bytes) := by
      rw [entryAt, placeOf, hplace, Option.bind_some, hnode]
      rfl
    refine ⟨bytes, ?_, hplace⟩
    rw [view, if_neg (by simp [hne, haccepts]), hentry]
    simp only [hends, Bool.false_eq_true, if_false]
  · cases hfile

/-- A path with a file leads to it. -/
theorem fileFrom_of_view {path : String} {bytes : Bytes} (h : tree.view path = some (.file bytes)) :
    ∃ place, tree.fileFrom tree.cwd path = some place ∧ tree.placeOf (components path) = some place := by
  have hentry := tree.entryAt_of_view h
  obtain ⟨place, hplace, hnode⟩ := Option.bind_eq_some_iff.mp hentry
  obtain ⟨node, hnode, hfile⟩ := Option.map_eq_some_iff.mp hnode
  have hends : endsAsDirectory path = false := by
    unfold view at h
    split at h
    · cases h
    · rw [hentry] at h
      simp only at h
      split at h
      · cases h
      · rename_i hends
        exact Bool.not_eq_true _ ▸ hends
  refine ⟨place, Option.filter_eq_some_iff.mpr ⟨hplace, ?_⟩, hplace⟩
  cases node with
  | dir => cases hfile
  | file content => rw [hnode, hends]; rfl

/-- The scan finds the header of an include line if it does not find a directory. -/
theorem exists_findHeader (haccepts : ∀ path, tree.accepts path = true) {includes : List String}
    {sourceDir : Option String} {name : String} {place : List String}
    (h : tree.headerOf includes (sourceDir.bind fun dir => tree.placeOf (components dir)) name = some place)
    (hfile : ∀ path, findHeader tree.view name sourceDir includes = some path →
      ∃ bytes, tree.entryAt (components path) = some (.file bytes)) :
    ∃ path, findHeader tree.view name sourceDir includes = some path ∧ tree.placeOf (components path) = some place := by
  have hfirst := tree.headerOf_eq_findSome? h
  unfold findHeader at hfile ⊢
  generalize (sourceDir.toList ++ includes).map (joinPath · name) = paths at hfirst hfile
  induction paths with
  | nil => cases hfirst
  | cons path paths ih =>
    rw [List.find?_cons] at hfile ⊢
    rw [List.findSome?_cons] at hfirst
    rcases hview : tree.view path with _ | entry
    · -- What is not there is not a file.
      have hnone : tree.fileFrom tree.cwd path = none := by
        rcases hsome : tree.fileFrom tree.cwd path with _ | found
        · rfl
        · obtain ⟨bytes, hbytes, -⟩ := tree.view_of_fileFrom haccepts hsome
          rw [hview] at hbytes
          cases hbytes
      rw [hnone] at hfirst
      rw [hview] at hfile
      exact ih hfirst hfile
    · rw [hview] at hfile
      obtain ⟨bytes, hbytes⟩ := hfile path rfl
      rw [tree.entryAt_of_view hview] at hbytes
      rw [Option.some.inj hbytes] at hview
      obtain ⟨found, hfound, hplace⟩ := tree.fileFrom_of_view hview
      rw [hfound] at hfirst
      exact ⟨path, rfl, hplace.trans hfirst⟩

/-- The directory of a path that leads to a file has the place above the file. -/
theorem placeOf_parent {parts : List Component} (hproper : Proper parts) {place : List String} {bytes : Bytes}
    (hplace : tree.placeOf parts = some place) (hfile : tree.nodes.lookup place = some (.file bytes)) :
    ∃ dir, parentOf parts = some dir ∧ tree.placeOf (components dir) = some place.dropLast := by
  have hnodir : tree.nodes.lookup place ≠ some .dir := by
    rw [hfile]
    nofun
  have hinit := hproper.dropLast.components_text
  obtain ⟨isStart, hbody⟩ := hproper
  rename_i start body
  rcases List.eq_nil_or_concat body with rfl | ⟨init, last, rfl⟩
  · -- The start of a path leads to a directory.
    rcases isStart with rfl | rfl | rfl
    · rw [List.append_nil, placeOf, walk, tree.cwd_dir] at hplace
      exact absurd (Option.some.inj hplace ▸ tree.cwd_dir) hnodir
    · rw [List.append_nil, placeOf, walk, walk, tree.root_dir] at hplace
      exact absurd (Option.some.inj hplace ▸ tree.root_dir) hnodir
    · rw [List.append_nil, placeOf, walk, walk, tree.cwd_dir] at hplace
      exact absurd (Option.some.inj hplace ▸ tree.cwd_dir) hnodir
  · rw [List.concat_eq_append, ← List.append_assoc] at hplace hinit ⊢
    rw [List.dropLast_concat] at hinit
    obtain ⟨-, hpart⟩ := hbody last (by simp)
    cases last with
    | rootDir => cases hpart
    | curDir => cases hpart
    | parentDir =>
      rw [placeOf, tree.walk_append _ _ (by simp)] at hplace
      obtain ⟨below, -, hup⟩ := Option.bind_eq_some_iff.mp hplace
      rw [walk] at hup
      split at hup
      · rename_i hbelow
        have habove := tree.parent_dir hbelow
        rw [walk, habove] at hup
        exact absurd (Option.some.inj hup ▸ habove) hnodir
      · cases hup
    | normal name =>
      rw [placeOf, tree.walk_append _ _ (by simp)] at hplace
      obtain ⟨above, habove, hdown⟩ := Option.bind_eq_some_iff.mp hplace
      rw [walk] at hdown
      split at hdown
      · rw [walk] at hdown
        split at hdown
        · refine ⟨componentsText (start ++ init), ?_, ?_⟩
          · rw [parentOf, List.getLast?_concat, List.dropLast_concat]
          · rw [hinit, ← Option.some.inj hdown, List.dropLast_concat]
            exact habove
        · cases hdown
      · cases hdown

/-! ### Headers -/

/-- The scan reads the name in every include line of a file. -/
def ReadsNames (content : Bytes) : Prop :=
  ∀ line ∈ linesOf content, ∀ name, Directive line name → extractHeaderName (trim line) = .ok (some name)

variable {includes : List String} {content : Bytes} {sourceDir : Option String}

/-- The scan goes from a line to the components of a path. -/
theorem look_eq_some_iff {pending : PendingLine} {parts : List Component} :
    (tree.headerScanner includes).look pending = .ok (some parts) ↔
      ∃ name path, extractHeaderName (trim pending.line) = .ok (some name) ∧
        findHeader tree.view name pending.sourceDir includes = some path ∧ components path = parts := by
  simp only [headerScanner]
  rcases extractHeaderName (trim pending.line) with e | (_ | name)
  · simp [Except.map]
  · simp [Except.map]
  · simp [Except.map]

/-- The components that the scan reaches are those of a path. -/
theorem proper_of_scanned {parts : List Component} (h : parts ∈ tree.scanned includes content sourceDir) :
    Proper parts := by
  have hlook (pending : PendingLine) (hpending : (tree.headerScanner includes).look pending = .ok (some parts)) :
      Proper parts := by
    obtain ⟨name, path, -, -, rfl⟩ := tree.look_eq_some_iff.mp hpending
    exact components_proper path
  obtain ⟨root, ⟨item, -, hitem⟩, hpath⟩ := h
  rcases ReflTransGen.cases_tail hpath with rfl | ⟨between, -, item, -, hitem⟩
  · exact hlook _ hitem
  · exact hlook _ hitem

/-- The header of an include line is reached if the lines of its file are looked at. -/
theorem exists_look (haccepts : ∀ path, tree.accepts path = true) (hreads : ReadsNames content) {place : List String}
    (hwants : tree.Wants includes content (sourceDir.bind fun dir => tree.placeOf (components dir)) place)
    (hfiles : ∀ parts, parts ∈ (tree.headerScanner includes).entries (pendingLines content sourceDir) →
      ∃ bytes, tree.entryAt parts = some (.file bytes)) :
    ∃ parts ∈ (tree.headerScanner includes).entries (pendingLines content sourceDir), tree.placeOf parts = some place := by
  obtain ⟨line, hline, name, hdirective, hheader⟩ := hwants
  have hname := hreads line hline name hdirective
  have hentry (path : String) (hpath : findHeader tree.view name sourceDir includes = some path) :
      components path ∈ (tree.headerScanner includes).entries (pendingLines content sourceDir) :=
    ⟨⟨sourceDir, line⟩, List.mem_map_of_mem hline, tree.look_eq_some_iff.mpr ⟨name, path, hname, hpath, rfl⟩⟩
  obtain ⟨path, hpath, hplace⟩ := tree.exists_findHeader haccepts hheader fun path hpath => hfiles _ (hentry path hpath)
  exact ⟨components path, hentry path hpath, hplace⟩

/-- The scan reaches every header that is included if it reads the names in all include lines and meets
nothing but files. -/
theorem covers_of_readsNames (haccepts : ∀ path, tree.accepts path = true) (hsource : ReadsNames content)
    (hheaders : ∀ parts ∈ tree.scanned includes content sourceDir,
      ∃ bytes, tree.entryAt parts = some (.file bytes) ∧ ReadsNames bytes) {place : List String}
    (hplace : place ∈ tree.wanted includes content sourceDir) :
    ∃ parts ∈ tree.scanned includes content sourceDir, tree.placeOf parts = some place := by
  obtain ⟨root, hroot, hpath⟩ := hplace
  induction hpath with
  | refl =>
    obtain ⟨parts, hparts, hat⟩ := tree.exists_look haccepts hsource hroot fun parts hparts => by
      obtain ⟨bytes, hbytes, -⟩ := hheaders parts ⟨parts, hparts, .refl⟩
      exact ⟨bytes, hbytes⟩
    exact ⟨parts, ⟨parts, hparts, .refl⟩, hat⟩
  | tail _ hstep ih =>
    obtain ⟨bytes, hfile, hwants⟩ := hstep
    obtain ⟨parts, hparts, hat⟩ := ih
    obtain ⟨dir, hdir, habove⟩ := tree.placeOf_parent (tree.proper_of_scanned hparts) hat hfile
    obtain ⟨content', hcontent, hreads⟩ := hheaders parts hparts
    have hentry : tree.entryAt parts = some (.file bytes) := by
      rw [entryAt, hat, Option.bind_some, hfile]
      rfl
    obtain rfl : content' = bytes := by
      rw [hentry] at hcontent
      exact (Entry.file.inj (Option.some.inj hcontent)).symm
    have hexpand : (tree.headerScanner includes).expand parts = .ok (pendingLines content' (some dir)) := by
      simp only [headerScanner, hentry, hdir]
    have hbehind : ∀ next ∈ (tree.headerScanner includes).entries (pendingLines content' (some dir)),
        next ∈ tree.scanned includes content sourceDir := by
      intro next hnext
      obtain ⟨start, hstart, hbefore⟩ := hparts
      exact ⟨start, hstart, hbefore.tail ((Scanner.leads_iff hexpand).mpr hnext)⟩
    obtain ⟨next, hnext, hplace⟩ := @exists_look tree includes content' (some dir) haccepts hreads _
      (by rwa [Option.bind_some, habove]) fun next hnext => by
        obtain ⟨other, hother, -⟩ := hheaders next (hbehind next hnext)
        exact ⟨other, hother⟩
    exact ⟨next, hbehind next hnext, hplace⟩

/-- A source and its headers can be scanned if their include lines are read as they are meant, no line
has a lone quote, no directory is met, and no header is met under two spellings of its path. -/
theorem scannable_of_readsNames (haccepts : ∀ path, tree.accepts path = true) (hsource : ReadsNames content)
    (hquotes : ∀ line ∈ linesOf content, ¬ LoneQuote line)
    (hheaders : ∀ parts ∈ tree.scanned includes content sourceDir, ∃ bytes, tree.entryAt parts = some (.file bytes) ∧
      ReadsNames bytes ∧ ∀ line ∈ linesOf bytes, ¬ LoneQuote line)
    (hspelling : Set.InjOn tree.placeOf (tree.scanned includes content sourceDir)) :
    tree.Scannable includes content sourceDir where
  noLoneQuote := hquotes
  opens parts hparts := by
    obtain ⟨bytes, hbytes, -, hlines⟩ := hheaders parts hparts
    exact ⟨bytes, hbytes, hlines⟩
  oneSpelling := hspelling
  covers place hplace := tree.covers_of_readsNames haccepts hsource (fun parts hparts => by
    obtain ⟨bytes, hbytes, hreads, -⟩ := hheaders parts hparts
    exact ⟨bytes, hbytes, hreads⟩) hplace

end HostTree

end Forge.Backend.Cc
