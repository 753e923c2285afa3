import Forge.Common.Histories
import Forge.Worker.VirtualFs

/-!
# Reading back what was written

The tree alone gives every file the contents of the last write to its location, until a
write to an ancestor puts a file in the way. The read cache is filled by reads and emptied
by `clearCache`, but a write does not touch it. So a client reads its own writes exactly as
long as it never overwrites a file with different contents while a path to that file is
cached.
-/

namespace Forge.Worker

open Forge.Common

section Tree

/-- The contents at a location of the tree. -/
def fileAt (node : VfsNode) (loc : List String) : Option Content := (traverseNode node loc).toOption

/-- A file has contents at its own place. -/
@[simp] theorem fileAt_file_nil (content : Content) (metadata : FileMetadata) :
    fileAt (.file content metadata) [] = some content := rfl

/-- Nothing lies below a file. -/
@[simp] theorem fileAt_file_cons (content : Content) (metadata : FileMetadata) (name : String)
    (rest : List String) : fileAt (.file content metadata) (name :: rest) = none := rfl

/-- A directory has no contents of its own. -/
@[simp] theorem fileAt_directory_nil (children : List (Σ _ : String, VfsNode)) (metadata : FileMetadata) :
    fileAt (.directory children metadata) [] = none := rfl

/-- Nothing lies in an empty directory. -/
@[simp] theorem fileAt_emptyDirectory (loc : List String) : fileAt emptyDirectory loc = none := by
  cases loc <;> rfl

/-- Below a directory the contents are those of the child, and a missing child is like an
empty directory. -/
theorem fileAt_directory_cons (children : List (Σ _ : String, VfsNode)) (metadata : FileMetadata)
    (name : String) (rest : List String) :
    fileAt (.directory children metadata) (name :: rest) =
      fileAt ((children.dlookup name).getD emptyDirectory) rest := by
  rw [fileAt, traverseNode]
  cases children.dlookup name with
  | none =>
    rw [Option.getD_none, fileAt_emptyDirectory]
    rfl
  | some child => rfl

/-- A location can be written when no file lies on the way to it. -/
def Writable (node : VfsNode) (loc : List String) : Prop :=
  loc ≠ [] ∧ ∀ ancestor, ancestor <+: loc → ancestor ≠ loc → fileAt node ancestor = none

/-- The tree after a write to a location: its contents are there, nothing lies below it any
more, and everything else is as before. -/
def WrittenAt (content : Content) (loc : List String) (node node' : VfsNode) : Prop :=
  ∀ other, fileAt node' other =
    if other = loc then some content else if loc <+: other then none else fileAt node other

/-- Writing to a location succeeds exactly when no file lies on the way to it. -/
theorem traverseAndWrite_ok_iff (content : Content) (metadata : FileMetadata) (node : VfsNode)
    (loc : List String) (hne : loc ≠ []) :
    (traverseAndWrite content metadata node loc).1 = .ok () ↔ Writable node loc := by
  induction loc generalizing node with
  | nil => contradiction
  | cons name rest ih =>
    cases node with
    | file old oldMetadata =>
      refine iff_of_false (by simp [traverseAndWrite]) ?_
      intro hwritable
      have hroot := hwritable.2 [] List.nil_prefix (by simp)
      simp at hroot
    | directory children dirMetadata =>
      cases rest with
      | nil =>
        refine iff_of_true rfl ⟨hne, fun ancestor hinitial hproper => ?_⟩
        cases ancestor with
        | nil => rfl
        | cons first ancestor =>
          obtain ⟨hfirst, hrest⟩ := List.cons_prefix_cons.mp hinitial
          rw [List.prefix_nil.mp hrest, hfirst] at hproper
          contradiction
      | cons next rest =>
        rw [traverseAndWrite]
        simp only
        rw [ih _ (by simp)]
        constructor
        · intro hchild
          refine ⟨hne, fun ancestor hinitial hproper => ?_⟩
          cases ancestor with
          | nil => rfl
          | cons first ancestor =>
            obtain ⟨hfirst, hrest⟩ := List.cons_prefix_cons.mp hinitial
            subst hfirst
            rw [fileAt_directory_cons]
            exact hchild.2 ancestor hrest fun heq => hproper (by rw [heq])
        · intro hparent
          refine ⟨by simp, fun ancestor hinitial hproper => ?_⟩
          rw [← fileAt_directory_cons children dirMetadata]
          exact hparent.2 (name :: ancestor) (List.cons_prefix_cons.mpr ⟨rfl, hinitial⟩)
            fun heq => hproper (List.cons.inj heq).2

/-- The contents at a location are those of the file there. -/
theorem fileAt_eq (node : VfsNode) (loc : List String) : fileAt node loc = (fileEntryAt node loc).map Prod.fst := by
  rw [fileAt]
  cases hread : traverseNode node loc with
  | ok content =>
    obtain ⟨metadata, hfile⟩ := (traverseNode_ok_iff node loc content).mp hread
    rw [hfile]
    rfl
  | error e =>
    cases hfile : fileEntryAt node loc with
    | none => rfl
    | some entry =>
      have hok := (traverseNode_ok_iff node loc entry.1).mpr ⟨entry.2, hfile⟩
      rw [hread] at hok
      cases hok

/-- A successful write puts its contents at its location and clears what was below. -/
theorem traverseAndWrite_ok (content : Content) (metadata : FileMetadata) (node : VfsNode)
    (loc : List String) (hok : (traverseAndWrite content metadata node loc).1 = .ok ()) :
    WrittenAt content loc node (traverseAndWrite content metadata node loc).2 := by
  intro other
  rw [fileAt_eq, fileAt_eq, traverseAndWrite_fileEntryAt content metadata hok]
  split
  · rfl
  · split <;> rfl

/-- A failed write leaves all contents as they were. -/
theorem traverseAndWrite_error (content : Content) (metadata : FileMetadata) (node : VfsNode) (loc : List String)
    (herror : (traverseAndWrite content metadata node loc).1 ≠ .ok ()) :
    fileAt (traverseAndWrite content metadata node loc).2 = fileAt node := by
  funext other
  rw [fileAt_eq, fileAt_eq, fileEntryAt, traverseAndWrite_entryAt content metadata herror, fileEntryAt]

end Tree

section Calls

/-- A path is read from the tree at its location. -/
theorem readFromNode_toOption (node : VfsNode) (hroot : fileAt node [] = none) (path : Path) :
    (VirtualFileSystem.readFromNode node path).toOption = fileAt node (location path) := by
  rw [VirtualFileSystem.readFromNode]
  split
  · rename_i hempty
    rw [hempty, hroot]
    rfl
  · rfl

/-- Writing a path succeeds exactly when its location can be written. -/
theorem writeToNode_ok_iff (node : VfsNode) (path : Path) (content : Content)
    (metadata : FileMetadata) :
    (VirtualFileSystem.writeToNode node path content metadata).1 = .ok () ↔
      Writable node (location path) := by
  rw [VirtualFileSystem.writeToNode]
  split
  · rename_i hempty
    rw [hempty]
    exact iff_of_false (by simp) fun hwritable => hwritable.1 rfl
  · rename_i hne
    exact traverseAndWrite_ok_iff content metadata node (location path) hne

/-- What writing a path does to the contents of the tree. -/
theorem writeToNode_cases (node : VfsNode) (path : Path) (content : Content)
    (metadata : FileMetadata) :
    (Writable node (location path) ∧
      WrittenAt content (location path) node
        (VirtualFileSystem.writeToNode node path content metadata).2) ∨
    (¬ Writable node (location path) ∧
      fileAt (VirtualFileSystem.writeToNode node path content metadata).2 = fileAt node) := by
  by_cases hwritable : Writable node (location path)
  · have hok := (writeToNode_ok_iff node path content metadata).mpr hwritable
    refine Or.inl ⟨hwritable, ?_⟩
    rw [VirtualFileSystem.writeToNode] at hok ⊢
    split
    · rename_i hempty
      exact absurd hempty hwritable.1
    · rename_i hne
      exact traverseAndWrite_ok content metadata node (location path)
        ((traverseAndWrite_ok_iff content metadata node _ hne).mpr hwritable)
  · refine Or.inr ⟨hwritable, ?_⟩
    rw [VirtualFileSystem.writeToNode]
    split
    · rfl
    · rename_i hne
      exact traverseAndWrite_error content metadata node (location path)
        (mt (traverseAndWrite_ok_iff content metadata node _ hne).mp hwritable)

end Calls

section History

/-- The contents last written to each location: a successful write sets its location and
takes away whatever was below it. -/
def remember (vfs : VirtualFileSystem) (written : List String → Option Content) :
    VfsCall → List String → Option Content
  | .writeFile path content metadata => fun loc =>
    match (vfs.writeFile path content metadata).1 with
    | .error _ => written loc
    | .ok () =>
      if loc = location path then some content
      else if location path <+: loc then none
      else written loc
  | .readFile _ => written
  | .clearCache => written

/-- The file system after a sequence of calls, with the contents last written. -/
def track (maxCacheBytes : ℕ) (calls : List VfsCall) :
    VirtualFileSystem × (List String → Option Content) :=
  calls.foldl (fun (vfs, written) call => (vfs.call call, remember vfs written call))
    (.new maxCacheBytes, fun _ => none)

/-- The contents of the last successful write to a location that nothing has replaced
since. -/
def lastWritten (maxCacheBytes : ℕ) (calls : List VfsCall) : List String → Option Content :=
  (track maxCacheBytes calls).2

/-- Tracking does not disturb the file system. -/
theorem track_fst (maxCacheBytes : ℕ) (calls : List VfsCall) :
    (track maxCacheBytes calls).1 = .after maxCacheBytes calls := by
  induction calls using List.reverseRecOn with
  | nil => rfl
  | append_singleton calls call ih =>
    rw [track, VirtualFileSystem.after, List.foldl_append, List.foldl_append]
    exact congrArg (fun vfs => VirtualFileSystem.call vfs call) ih

/-- The file system after one more call. -/
theorem after_snoc (maxCacheBytes : ℕ) (calls : List VfsCall) (call : VfsCall) :
    VirtualFileSystem.after maxCacheBytes (calls ++ [call]) =
      (VirtualFileSystem.after maxCacheBytes calls).call call := by
  rw [VirtualFileSystem.after, List.foldl_append]
  rfl

/-- The contents last written after one more call. -/
theorem lastWritten_snoc (maxCacheBytes : ℕ) (calls : List VfsCall) (call : VfsCall) :
    lastWritten maxCacheBytes (calls ++ [call]) =
      remember (.after maxCacheBytes calls) (lastWritten maxCacheBytes calls) call := by
  rw [lastWritten, track, List.foldl_append, ← track_fst]
  rfl

/-- Reading does not change the tree. -/
theorem readFile_root (vfs : VirtualFileSystem) (path : Path) : (vfs.readFile path).2.root = vfs.root := by
  rw [VirtualFileSystem.readFile]
  split
  · rfl
  · split
    · rfl
    · split <;> rfl

/-- The tree holds at every location what was last written there, and its root stays a
directory. -/
theorem fileAt_after (maxCacheBytes : ℕ) (calls : List VfsCall) :
    fileAt (VirtualFileSystem.after maxCacheBytes calls).root = lastWritten maxCacheBytes calls ∧
      fileAt (VirtualFileSystem.after maxCacheBytes calls).root [] = none := by
  induction calls using List.reverseRecOn with
  | nil =>
    refine ⟨?_, rfl⟩
    funext loc
    exact fileAt_emptyDirectory loc
  | append_singleton calls call ih =>
    rw [after_snoc, lastWritten_snoc]
    cases call with
    | clearCache => exact ih
    | readFile path =>
      rw [VirtualFileSystem.call, readFile_root]
      exact ih
    | writeFile path content metadata =>
      have hok := writeToNode_ok_iff (VirtualFileSystem.after maxCacheBytes calls).root path content metadata
      simp only [VirtualFileSystem.call, VirtualFileSystem.writeFile, remember]
      cases writeToNode_cases (VirtualFileSystem.after maxCacheBytes calls).root path content metadata with
      | inl hwritten =>
        obtain ⟨hwritable, hat⟩ := hwritten
        rw [hok.mpr hwritable]
        refine ⟨?_, ?_⟩
        · funext loc
          rw [hat loc, ih.1]
        · rw [hat [], if_neg (Ne.symm hwritable.1), if_neg (mt List.prefix_nil.mp hwritable.1), ih.2]
      | inr hfailed =>
        obtain ⟨hnot, hsame⟩ := hfailed
        cases hresult : (VirtualFileSystem.writeToNode (VirtualFileSystem.after maxCacheBytes calls).root
            path content metadata).1 with
        | ok => exact absurd (hok.mp hresult) hnot
        | error e =>
          rw [hsame]
          exact ih

/-- Reading any path gives the contents last written to its location. -/
def ReadsOwnWrites (maxCacheBytes : ℕ) (calls : List VfsCall) : Prop :=
  ∀ path content, lastWritten maxCacheBytes calls (location path) = some content →
    ((VirtualFileSystem.after maxCacheBytes calls).readFile path).1 = .ok content

/-- A call does not overwrite a cached file with different contents. -/
def KeepsCache (vfs : VirtualFileSystem) : VfsCall → Prop
  | .writeFile path content _ => Writable vfs.root (location path) → ∀ cached old,
      location cached = location path → vfs.cache.entries.lookup cached = some old → old = content
  | .readFile _ => True
  | .clearCache => True

/-- Every cached file that is still in the tree is cached with its contents. -/
def CacheCurrent (vfs : VirtualFileSystem) : Prop :=
  ∀ path old content, vfs.cache.entries.lookup path = some old →
    fileAt vfs.root (location path) = some content → old = content

/-- With a current cache a read answers with the contents of the tree. -/
theorem CacheCurrent.readFile {vfs : VirtualFileSystem} (h : CacheCurrent vfs)
    (hroot : fileAt vfs.root [] = none) {path : Path} {content : Content}
    (hfile : fileAt vfs.root (location path) = some content) : (vfs.readFile path).1 = .ok content := by
  rw [VirtualFileSystem.readFile]
  cases hcached : vfs.cache.entries.lookup path with
  | some old => rw [h path old content hcached hfile]
  | none =>
    rw [← readFromNode_toOption vfs.root hroot] at hfile
    cases hread : VirtualFileSystem.readFromNode vfs.root path with
    | error e => simp [hread, Except.toOption] at hfile
    | ok found =>
      have hcontent : found = content := by simpa [hread, Except.toOption] using hfile
      simp only [hcontent]
      split <;> rfl

/-- A call that overwrites no cached file with different contents keeps the cache
current. -/
theorem CacheCurrent.call {vfs : VirtualFileSystem} (h : CacheCurrent vfs)
    (hroot : fileAt vfs.root [] = none) {call : VfsCall} (hkeeps : KeepsCache vfs call) :
    CacheCurrent (vfs.call call) := by
  cases call with
  | clearCache =>
    intro path old content hcached
    simp [VirtualFileSystem.call, VirtualFileSystem.clearCache] at hcached
  | readFile path =>
    intro other old content hcached hfile
    rw [VirtualFileSystem.call, readFile_root] at hfile
    rw [VirtualFileSystem.call, VirtualFileSystem.readFile] at hcached
    split at hcached
    · exact h other old content hcached hfile
    · split at hcached
      · exact h other old content hcached hfile
      · rename_i found hread
        split at hcached
        · by_cases hother : other = path
          · subst hother
            rw [AList.lookup_insert, Option.some.injEq] at hcached
            rw [← readFromNode_toOption vfs.root hroot, hread] at hfile
            have hfound : found = content := by simpa [Except.toOption] using hfile
            rw [← hcached, hfound]
          · rw [AList.lookup_insert_ne hother] at hcached
            exact h other old content hcached hfile
        · exact h other old content hcached hfile
  | writeFile path content metadata =>
    intro other old found hcached hfile
    have hcached' : vfs.cache.entries.lookup other = some old := hcached
    cases writeToNode_cases vfs.root path content metadata with
    | inl hwritten =>
      obtain ⟨hwritable, hat⟩ := hwritten
      have hfound : fileAt (VirtualFileSystem.writeToNode vfs.root path content metadata).2
          (location other) = some found := hfile
      rw [hat] at hfound
      split at hfound
      · rename_i hsame
        rw [← Option.some.inj hfound]
        exact hkeeps hwritable other old hsame hcached'
      · split at hfound
        · contradiction
        · exact h other old found hcached' hfound
    | inr hfailed =>
      have hfound : fileAt (VirtualFileSystem.writeToNode vfs.root path content metadata).2
          (location other) = some found := hfile
      rw [hfailed.2] at hfound
      exact h other old found hcached' hfound

/-- A write over a cached file with different contents is not read back. -/
theorem ReadsOwnWrites.keepsCache {maxCacheBytes : ℕ} {calls : List VfsCall} {call : VfsCall}
    (h : ReadsOwnWrites maxCacheBytes (calls ++ [call])) :
    KeepsCache (.after maxCacheBytes calls) call := by
  cases call with
  | clearCache => trivial
  | readFile path => trivial
  | writeFile path content metadata =>
    intro hwritable cached old hlocation hcached
    have hok := (writeToNode_ok_iff (VirtualFileSystem.after maxCacheBytes calls).root path content
      metadata).mpr hwritable
    have hlast : lastWritten maxCacheBytes (calls ++ [.writeFile path content metadata])
        (location cached) = some content := by
      rw [lastWritten_snoc]
      simp only [remember, VirtualFileSystem.writeFile, hok, hlocation, if_true]
    have hread := h cached content hlast
    rw [after_snoc, VirtualFileSystem.readFile] at hread
    have hstill : ((VirtualFileSystem.after maxCacheBytes calls).call
        (.writeFile path content metadata)).cache.entries.lookup cached = some old := hcached
    rw [hstill] at hread
    exact Except.ok.inj hread

/-- Along a sequence of calls every read gives the contents last written exactly when no
call overwrites a cached file with different contents. -/
theorem readsOwnWrites_iff_keepsCache (maxCacheBytes : ℕ) (calls : List VfsCall) :
    (∀ history, history <+: calls → ReadsOwnWrites maxCacheBytes history) ↔
      ∀ history call, history ++ [call] <+: calls → KeepsCache (.after maxCacheBytes history) call := by
  refine forall_prefix_iff_steps (fun history => CacheCurrent (.after maxCacheBytes history))
    (ReadsOwnWrites maxCacheBytes) (fun history => KeepsCache (.after maxCacheBytes history))
    ?_ ?_ ?_ ?_ calls
  · intro path old content hcached
    simp [VirtualFileSystem.after, VirtualFileSystem.new] at hcached
  · intro history call hcurrent hkeeps
    rw [after_snoc]
    exact hcurrent.call (fileAt_after maxCacheBytes history).2 hkeeps
  · intro history hcurrent path content hlast
    rw [← (fileAt_after maxCacheBytes history).1] at hlast
    exact hcurrent.readFile (fileAt_after maxCacheBytes history).2 hlast
  · exact fun history call _ hreads => hreads.keepsCache

/-- A file that is read between two writes keeps its first contents for the reader. -/
theorem not_readsOwnWrites_after_read :
    ¬ ReadsOwnWrites 1024 [.writeFile [.text "a"] [1] ⟨1, 0, false⟩, .readFile [.text "a"],
      .writeFile [.text "a"] [2] ⟨1, 0, false⟩] := by
  intro h
  have hread := h [.text "a"] [2] rfl
  have hstale : (Except.ok [1] : Except VfsError Content) = .ok [2] := hread
  exact absurd (Except.ok.inj hstale) (by decide)

end History

/-!
## What a write leaves alone

A write goes down the tree to the last component of its path and puts a file there. Where the way is
blocked by a file it fails, and it has created nothing by then. Where it ends at a directory it does not
look: the walk has a case for that, but it stops one component before, and the file takes the place of the
directory with everything below.
-/

namespace VirtualFileSystem

/-- What is known about a node of the tree. -/
def getMetadataFromNode (node : VfsNode) (path : Path) : Except VfsError FileMetadata :=
  (traverseMetadata node (location path)).map Prod.snd

/-- What is known about a path. -/
def metadata (vfs : VirtualFileSystem) (path : Path) : Except VfsError FileMetadata :=
  getMetadataFromNode vfs.root path

end VirtualFileSystem

/-- A write does what it should: it fails and leaves every node as it is, or its path reads back what was
written, and every file at another place is still there. -/
structure Framed (vfs : VirtualFileSystem) (path : Path) (content : Content) (metadata : FileMetadata) : Prop where
  failed : (vfs.writeFile path content metadata).1 ≠ .ok () →
    entryAt (vfs.writeFile path content metadata).2.root = entryAt vfs.root
  stored : (vfs.writeFile path content metadata).1 = .ok () →
    VirtualFileSystem.readFromNode (vfs.writeFile path content metadata).2.root path = .ok content ∧
      (vfs.writeFile path content metadata).2.metadata path = .ok metadata
  kept : (vfs.writeFile path content metadata).1 = .ok () → ∀ other found known, location other ≠ location path →
    VirtualFileSystem.readFromNode vfs.root other = .ok found → vfs.metadata other = .ok known →
    VirtualFileSystem.readFromNode (vfs.writeFile path content metadata).2.root other = .ok found ∧
      (vfs.writeFile path content metadata).2.metadata other = .ok known

/-- A path that reads a file with what is known about it has this file at its location. -/
theorem readFromNode_iff (node : VfsNode) (path : Path) (content : Content) (metadata : FileMetadata) :
    (VirtualFileSystem.readFromNode node path = .ok content ∧
        VirtualFileSystem.getMetadataFromNode node path = .ok metadata) ↔
      location path ≠ [] ∧ fileEntryAt node (location path) = some (content, metadata) := by
  rw [VirtualFileSystem.readFromNode, VirtualFileSystem.getMetadataFromNode]
  cases hloc : location path with
  | nil => exact iff_of_false (fun h => by cases h.1) fun h => h.1 rfl
  | cons name rest =>
    constructor
    · rintro ⟨hread, hknown⟩
      obtain ⟨found, hfile⟩ := (traverseNode_ok_iff node (name :: rest) content).mp hread
      rw [traverseMetadata_of_file hfile] at hknown
      obtain rfl := Except.ok.inj hknown
      exact ⟨List.cons_ne_nil _ _, hfile⟩
    · rintro ⟨-, hfile⟩
      refine ⟨(traverseNode_ok_iff node (name :: rest) content).mpr ⟨metadata, hfile⟩, ?_⟩
      rw [traverseMetadata_of_file hfile]
      rfl

/-- What a write to a path does to the files and nodes of the tree. -/
theorem writeToNode_spec (node : VfsNode) (path : Path) (content : Content) (metadata : FileMetadata) :
    ((VirtualFileSystem.writeToNode node path content metadata).1 = .ok () → location path ≠ [] ∧ ∀ other,
      fileEntryAt (VirtualFileSystem.writeToNode node path content metadata).2 other =
        if other = location path then some (content, metadata)
        else if location path <+: other then none else fileEntryAt node other) ∧
    ((VirtualFileSystem.writeToNode node path content metadata).1 ≠ .ok () →
      entryAt (VirtualFileSystem.writeToNode node path content metadata).2 = entryAt node) := by
  rw [VirtualFileSystem.writeToNode]
  cases hloc : location path with
  | nil => exact ⟨fun hok => (by cases hok), fun _ => rfl⟩
  | cons name rest =>
    exact ⟨fun hok => ⟨List.cons_ne_nil _ _, traverseAndWrite_fileEntryAt content metadata hok⟩,
      traverseAndWrite_entryAt content metadata⟩

/-- Nothing lies below a file. -/
theorem fileEntryAt_below_file {node : VfsNode} {loc other : List String} {file : Content × FileMetadata}
    (hfile : fileEntryAt node loc = some file) (hbelow : loc <+: other) (hne : other ≠ loc) :
    fileEntryAt node other = none := by
  induction loc generalizing node other with
  | nil =>
    cases node with
    | directory children metadata => cases hfile
    | file content metadata =>
      cases other with
      | nil => exact absurd rfl hne
      | cons name rest => rfl
  | cons name rest ih =>
    cases node with
    | file content metadata => cases hfile
    | directory children metadata =>
      obtain ⟨rest', rfl⟩ := hbelow
      rw [List.cons_append] at hne ⊢
      rw [fileEntryAt_directory_cons] at hfile ⊢
      exact ih hfile (List.prefix_append rest rest') fun heq => hne (congrArg _ heq)

/-- Nothing lies below a location that a file keeps from being written. -/
theorem fileEntryAt_of_not_writable {node : VfsNode} {loc : List String} (hne : loc ≠ [])
    (hnot : ¬ Writable node loc) {other : List String} (hbelow : loc <+: other) : fileEntryAt node other = none := by
  rw [Writable, not_and] at hnot
  have hblocked := hnot hne
  push Not at hblocked
  obtain ⟨ancestor, hinitial, hproper, hcontent⟩ := hblocked
  rw [fileAt_eq, ne_eq, Option.map_eq_none_iff] at hcontent
  obtain ⟨file, hfile⟩ := Option.ne_none_iff_exists'.mp hcontent
  refine fileEntryAt_below_file hfile (hinitial.trans hbelow) fun heq => hproper ?_
  exact hinitial.eq_of_length_le (heq ▸ hbelow.length_le)

/-- A write does what it should exactly when no file lies below its path, which then leads to nothing, to a
file or to a directory without files. -/
theorem framed_iff (vfs : VirtualFileSystem) (path : Path) (content : Content) (metadata : FileMetadata) :
    Framed vfs path content metadata ↔
      (location path ≠ [] → ∀ other, location path <+: other → other ≠ location path →
        fileEntryAt vfs.root other = none) := by
  obtain ⟨hok, herror⟩ := writeToNode_spec vfs.root path content metadata
  constructor
  · intro h hne other hbelow hother
    by_cases hwritten : (vfs.writeFile path content metadata).1 = .ok ()
    · cases hfile : fileEntryAt vfs.root other with
      | none => rfl
      | some file =>
        have hlocation : location (other.map OsStr.text) = other := by
          rw [location, List.filterMap_map]
          exact List.filterMap_some
        obtain ⟨hread, hknown⟩ := (readFromNode_iff vfs.root (other.map .text) file.1 file.2).mpr
          ⟨by rw [hlocation]; exact fun hnil => hne (List.prefix_nil.mp (hnil ▸ hbelow)), by rw [hlocation, hfile]⟩
        have hkept := (readFromNode_iff _ _ _ _).mp
          (h.kept hwritten (other.map .text) file.1 file.2 (by rwa [hlocation]) hread hknown)
        have hafter := (hok hwritten).2 other
        rw [if_neg hother, if_pos hbelow] at hafter
        rw [hlocation] at hkept
        exact absurd (hafter.symm.trans hkept.2) (Option.some_ne_none file).symm
    · refine fileEntryAt_of_not_writable hne ?_ hbelow
      exact mt (writeToNode_ok_iff vfs.root path content metadata).mpr hwritten
  · intro hbelow
    refine ⟨herror, fun hwritten => ?_, fun hwritten other found known hother hread hknown => ?_⟩
    · obtain ⟨hne, hafter⟩ := hok hwritten
      refine (readFromNode_iff _ path content metadata).mpr ⟨hne, ?_⟩
      exact (hafter (location path)).trans (if_pos rfl)
    · obtain ⟨hne, hafter⟩ := hok hwritten
      obtain ⟨hother', hfile⟩ := (readFromNode_iff vfs.root other found known).mp ⟨hread, hknown⟩
      refine (readFromNode_iff _ other found known).mpr ⟨hother', ?_⟩
      have hnot : ¬ location path <+: location other := by
        intro hinside
        rw [hbelow hne (location other) hinside hother] at hfile
        cases hfile
      exact (hafter (location other)).trans ((if_neg hother).trans ((if_neg hnot).trans hfile))

/-- A file takes the place of a directory with another file in it. -/
theorem not_framed_over_directory :
    ¬ Framed ((VirtualFileSystem.new 0).writeFile [.text "a", .text "b"] [1] ⟨1, 0, false⟩).2 [.text "a"] [2]
      ⟨1, 0, false⟩ := by
  intro h
  have hkept := h.kept rfl [.text "a", .text "b"] [1] ⟨1, 0, false⟩ (by decide) rfl rfl
  cases hkept.1

end Forge.Worker
