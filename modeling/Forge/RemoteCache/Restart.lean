import Forge.RemoteCache.Server

/-!
# Servers that are stopped and started again

What a server answers is determined by its files, for the keys that can name a file and the
fingerprints without white space at their ends, and for all artifacts. This holds after every
access of a request to memory or files, apart from the key of that request.
-/

namespace Forge.RemoteCache

open Forge.Common

/-- What a request is about. -/
inductive StoredKey where
  | fingerprint (key : String)
  | artifact (hash : String)
  deriving DecidableEq, Repr

/-- What a request asks for or stores. -/
def CacheRequest.target : CacheRequest → Option StoredKey
  | getFingerprint key _ | putFingerprint key _ _ => some (.fingerprint key)
  | getArtifact hash _ | putArtifact hash _ _ => some (.artifact hash)
  | ping _ => none

/-- A request that asks for a fingerprint or an artifact. -/
def CacheRequest.IsGet : CacheRequest → Prop
  | getFingerprint _ _ | getArtifact _ _ => True
  | _ => False

/-- What is relied on in the libraries: hashes are 64 hexadecimal digits, and what is alphanumeric in
ASCII is so in Unicode. -/
structure Libraries.Documented (lib : Libraries) : Prop where
  hash_length : ∀ bytes, (lib.blobHash bytes).toList.length = 64
  hash_digits : ∀ bytes, ∀ c ∈ (lib.blobHash bytes).toList, c ∈ "0123456789abcdef".toList
  isAlphanumeric_of_ascii : ∀ c : Char, c.isAlphanum = true → lib.isAlphanumeric c = true

/-- Every file of a fingerprint is named by its key, and the two files that one key can have hold the
same. -/
structure Settled (lib : Libraries) (files : StorageFiles) : Prop where
  named : ∀ name, .fingerprint name ∈ files → ∃ key, safeKeyIdentifier lib.isAlphanumeric key = some key ∧
    (StoragePath.fingerprint name = fingerprintFile key ∨ StoragePath.fingerprint name = fingerprintTmp key)
  agree : ∀ name name', .fingerprint name ∈ files → .fingerprint name' ∈ files →
    fileStem name = fileStem name' → loadedFingerprint files name = loadedFingerprint files name'

/-- The artifacts in requests. -/
def payloads (lib : Libraries) (requests : List CacheRequest) : Set Bytes :=
  {bytes | ∃ hash data token, .putArtifact hash data token ∈ requests ∧ lib.decode data = .ok bytes}

/-- What the server has in memory is what it would load from its files, apart from one key. -/
structure Durable (lib : Libraries) (known : Set Bytes) (except : Option StoredKey) (s : ServerState) : Prop where
  named : ∀ name, .fingerprint name ∈ s.files → ∃ key, safeKeyIdentifier lib.isAlphanumeric key = some key ∧
    (StoragePath.fingerprint name = fingerprintFile key ∨ StoragePath.fingerprint name = fingerprintTmp key)
  loaded : ∀ name, except ≠ some (.fingerprint (fileStem name)) → .fingerprint name ∈ s.files →
    s.fingerprints.lookup (fileStem name) = loadedFingerprint s.files name
  unloaded : ∀ key, except ≠ some (.fingerprint key) →
    (∀ name, .fingerprint name ∈ s.files → fileStem name ≠ key) → s.fingerprints.lookup key = none
  indexed : ∀ hash, except ≠ some (.artifact hash) →
    (loadIndex lib.codec s.files).lookup hash = s.artifactIndex.lookup hash
  held : ∀ hash bytes, except ≠ some (.artifact hash) → s.artifacts.lookup hash = some bytes →
    bytes ∈ known ∧ s.artifactIndex.lookup hash = some (lib.blobHash bytes) ∧
      s.files.lookup (objectFile (lib.blobHash bytes)) = some bytes

namespace RemoteCacheServer

variable (lib : Libraries)

/-- A server that was stopped, started again on the same files. -/
def restart (readDir : ReadDir) (server : RemoteCacheServer) : RemoteCacheServer :=
  new lib readDir server.authToken server.storageDir server.state.files

/-- Answer requests one after another. -/
def handleAll (server : RemoteCacheServer) (requests : List CacheRequest) : RemoteCacheServer :=
  requests.foldl (fun server req => (server.handle lib req).2) server

/-- A server that is stopped within a request, after so many accesses to memory and files. -/
def stoppedIn (server : RemoteCacheServer) (req : CacheRequest) (accesses : ℕ) : RemoteCacheServer :=
  { server with state := ((server.program lib req).runFor (ServerOp.perform lib) accesses server.state).2 }

end RemoteCacheServer

/-- A request whose fingerprint, if it stores one, goes to a file as it is. -/
def CacheRequest.Storable (lib : Libraries) (expectedToken : Option String) : CacheRequest → Prop
  | putFingerprint key fingerprint token => checkAuth expectedToken token = true →
    (safeKeyIdentifier lib.isAlphanumeric key).isSome ∧ trim fingerprint.toList = fingerprint.toList
  | _ => True

/-! ## Names -/

section Names

variable {lib : Libraries}

/-- The stem of a name with an extension. -/
theorem fileStem_append {key : String} (hkey : key ≠ "") (extension : List Char) (hextension : '.' ∉ extension) :
    fileStem (key ++ String.ofList ('.' :: extension)) = key := by
  have hchars : key.toList ≠ [] := fun h => hkey (String.toList_inj.mp (h.trans String.toList_empty.symm))
  rw [fileStem, String.toList_append, String.toList_ofList, splitExtension_append hchars hextension,
    String.ofList_toList]

/-- The files of a key have the key as their stem. -/
theorem fileStem_of_file {key name : String} (hkey : key ≠ "")
    (hname : StoragePath.fingerprint name = fingerprintFile key ∨ StoragePath.fingerprint name = fingerprintTmp key) :
    fileStem name = key := by
  rcases hname with hname | hname
  · rw [StoragePath.fingerprint.inj hname]
    exact fileStem_append hkey ['j', 's', 'o', 'n'] (by decide)
  · rw [StoragePath.fingerprint.inj hname]
    exact fileStem_append hkey ['t', 'm', 'p'] (by decide)

namespace Libraries.Documented

/-- A hash has no point in it. -/
theorem point_notMem (hlib : lib.Documented) (bytes : Bytes) : '.' ∉ (lib.blobHash bytes).toList := by
  intro hpoint
  have hdigit := hlib.hash_digits bytes '.' hpoint
  revert hdigit
  decide

/-- A hash can be the name of a file. -/
theorem safe_blobHash (hlib : lib.Documented) (bytes : Bytes) :
    safeKeyIdentifier lib.isAlphanumeric (lib.blobHash bytes) = some (lib.blobHash bytes) := by
  have hnotMem : ∀ c, c ∉ "0123456789abcdef".toList → c ∉ (lib.blobHash bytes).toList :=
    fun c hc hmem => hc (hlib.hash_digits bytes c hmem)
  have hempty : lib.blobHash bytes ≠ "" := by
    intro h
    have hlength := hlib.hash_length bytes
    rw [h] at hlength
    cases hlength
  have hshort : ¬ 256 < (utf8Bytes (lib.blobHash bytes)).length := by
    have hle := utf8Bytes_length_le (lib.blobHash bytes)
    rw [hlib.hash_length bytes] at hle
    omega
  have hpoints : ¬ ['.', '.'] <:+: (lib.blobHash bytes).toList :=
    fun h => hlib.point_notMem bytes (h.subset List.mem_cons_self)
  have hall : (lib.blobHash bytes).toList.all
      (fun c => lib.isAlphanumeric c || c = '_' || c = '-' || c = '.') = true := by
    have hascii : ("0123456789abcdef".toList.all Char.isAlphanum) = true := by decide
    rw [List.all_eq_true] at hascii ⊢
    intro c hc
    rw [hlib.isAlphanumeric_of_ascii c (hascii c (hlib.hash_digits bytes c hc))]
    rfl
  rw [safeKeyIdentifier, if_neg (not_or.mpr ⟨hempty, hshort⟩), if_neg ?_, if_pos hall]
  rw [not_or, not_or, not_or]
  exact ⟨hpoints, hnotMem '/' (by decide), hnotMem '\\' (by decide), hnotMem '\x00' (by decide)⟩

/-- The temporary file of an object is no object. -/
theorem objectFile_ne_tmp (hlib : lib.Documented) (bytes : Bytes) (hash : String) :
    objectFile (lib.blobHash bytes) ≠ objectTmp hash := by
  intro heq
  refine hlib.point_notMem bytes ?_
  rw [StoragePath.object.inj heq, String.toList_append]
  exact List.mem_append_right _ (by decide)

end Libraries.Documented

end Names

/-! ## Loading -/

/-- What is loaded for a key, if all files of the key have the same to load. -/
theorem lookup_loadFingerprints {files : StorageFiles} {names : List String} {key : String}
    {value? : Option String}
    (hsame : ∀ name ∈ names, fileStem name = key → loadedFingerprint files name = value?)
    (hmissing : (∀ name ∈ names, fileStem name ≠ key) → value? = none) :
    (loadFingerprints files names).lookup key = value? := by
  have hload : loadFingerprints files names = names.foldl (fun guard name =>
      (loadedFingerprint files name).elim guard (guard.insert (fileStem name))) ∅ := by
    rw [loadFingerprints]
    congr
    funext guard name
    cases loadedFingerprint files name <;> rfl
  have hfold : ∀ guard : Table, (guard.lookup key = value? ∨
        guard.lookup key = none ∧ ∃ name ∈ names, fileStem name = key) →
      (names.foldl (fun guard name =>
        (loadedFingerprint files name).elim guard (guard.insert (fileStem name))) guard).lookup key =
          value? := by
    clear hmissing hload
    induction names with
    | nil =>
      intro guard hguard
      rcases hguard with hguard | ⟨_, name, hmem, _⟩
      · exact hguard
      · cases hmem
    | cons name names ih =>
      intro guard hguard
      rw [List.foldl_cons]
      refine ih (fun name hmem => hsame name (List.mem_cons_of_mem _ hmem)) _ ?_
      by_cases hstem : fileStem name = key
      · -- a file of the key is loaded, or there is nothing to load for the key
        refine Or.inl ?_
        rw [hsame name List.mem_cons_self hstem]
        cases value? with
        | some content => rw [Option.elim_some, hstem, AList.lookup_insert]
        | none => exact hguard.elim id And.left
      · have hkept : ((loadedFingerprint files name).elim guard (guard.insert (fileStem name))).lookup key =
            guard.lookup key := by
          cases loadedFingerprint files name with
          | some content => exact AList.lookup_insert_ne (Ne.symm hstem)
          | none => rfl
        rw [hkept]
        refine hguard.imp_right fun hunset => ?_
        obtain ⟨hnone, other, hmem, hother⟩ := hunset
        refine ⟨hnone, other, ?_, hother⟩
        rcases List.mem_cons.mp hmem with rfl | hmem
        · exact absurd hother hstem
        · exact hmem
  rw [hload]
  refine hfold ∅ ?_
  by_cases hmem : ∃ name ∈ names, fileStem name = key
  · exact Or.inr ⟨AList.lookup_empty key, hmem⟩
  · exact Or.inl ((AList.lookup_empty key).trans (hmissing fun name h hstem => hmem ⟨name, h, hstem⟩).symm)

/-- The index that is loaded is the one that was written. -/
theorem lookup_loadIndex_of_written {codec : TableCodec} {files : StorageFiles} {index : Table}
    (hfile : files.lookup indexFile = some (utf8Bytes (codec.toStr index))) (hash : String) :
    (loadIndex codec files).lookup hash = index.lookup hash := by
  obtain ⟨index', hread, hperm⟩ := codec.fromStr_toStr index
  rw [loadIndex, hfile, Option.bind_some, fromUtf8_utf8Bytes, Option.bind_some, hread, Option.getD_some]
  exact AList.perm_lookup hperm

namespace Durable

variable {lib : Libraries} {known : Set Bytes} {except : Option StoredKey} {s : ServerState}

/-- Loading the files again gives what is in memory. -/
theorem lookup_reloaded (hdurable : Durable lib known except s) (readDir : ReadDir) {key : String}
    (hkey : except ≠ some (.fingerprint key)) :
    (loadFingerprints s.files (readDir.entries s.files)).lookup key = s.fingerprints.lookup key := by
  refine lookup_loadFingerprints (fun name hmem hstem => ?_) fun hnone => ?_
  · subst hstem
    exact (hdurable.loaded name hkey ((readDir.mem_entries_iff _ _).mp hmem)).symm
  · exact hdurable.unloaded key hkey fun name hmem => hnone name ((readDir.mem_entries_iff _ _).mpr hmem)

/-- A server that was just started can be started again. -/
theorem new (known : Set Bytes) (readDir : ReadDir) (authToken : Option String) (dir : String)
    {files : StorageFiles} (hsettled : Settled lib files) :
    Durable lib known none (RemoteCacheServer.new lib readDir authToken (some dir) files).state where
  named := hsettled.named
  loaded name _ hmem := lookup_loadFingerprints
    (fun name' hmem' hstem => hsettled.agree name' name ((readDir.mem_entries_iff _ _).mp hmem') hmem hstem)
    (fun hnone => absurd rfl (hnone name ((readDir.mem_entries_iff _ _).mpr hmem)))
  unloaded key _ hnone := lookup_loadFingerprints
    (fun name hmem hstem => absurd hstem (hnone name ((readDir.mem_entries_iff _ _).mp hmem)))
    (fun _ => rfl)
  indexed _ _ := rfl
  held hash _ _ hfound := by cases (AList.lookup_empty hash).symm.trans hfound

/-- What holds for all keys holds for all but one. -/
theorem weaken (hdurable : Durable lib known none s) (except : Option StoredKey) : Durable lib known except s where
  named := hdurable.named
  loaded name _ := hdurable.loaded name nofun
  unloaded key _ := hdurable.unloaded key nofun
  indexed hash _ := hdurable.indexed hash nofun
  held hash bytes _ := hdurable.held hash bytes nofun

/-- Keeping a fingerprint in memory changes what is known for its key. -/
theorem insertFingerprint {key : String} (hdurable : Durable lib known (some (.fingerprint key)) s)
    (fingerprint : String) :
    Durable lib known (some (.fingerprint key))
      { s with fingerprints := s.fingerprints.insert key fingerprint } where
  named := hdurable.named
  loaded name hname hmem := by
    have hne : fileStem name ≠ key := fun h => hname (congrArg (some ∘ StoredKey.fingerprint) h.symm)
    exact (AList.lookup_insert_ne hne).trans (hdurable.loaded name hname hmem)
  unloaded other hother hnone := by
    have hne : other ≠ key := fun h => hother (congrArg (some ∘ StoredKey.fingerprint) h.symm)
    exact (AList.lookup_insert_ne hne).trans (hdurable.unloaded other hother hnone)
  indexed := hdurable.indexed
  held := hdurable.held

/-- Keeping an artifact in memory changes what is known for its hash. -/
theorem insertArtifact {hash : String} (hdurable : Durable lib known (some (.artifact hash)) s) (bytes : Bytes) :
    Durable lib known (some (.artifact hash)) { s with artifacts := s.artifacts.insert hash bytes } where
  named := hdurable.named
  loaded := hdurable.loaded
  unloaded := hdurable.unloaded
  indexed := hdurable.indexed
  held other bytes' hother hfound := by
    have hne : other ≠ hash := fun h => hother (congrArg (some ∘ StoredKey.artifact) h.symm)
    exact hdurable.held other bytes' hother ((AList.lookup_insert_ne hne).symm.trans hfound)

/-- Naming an object in the index changes what is known for its hash. -/
theorem insertIndex {hash : String} (hdurable : Durable lib known (some (.artifact hash)) s)
    (contentHash : String) :
    Durable lib known (some (.artifact hash))
      { s with artifactIndex := s.artifactIndex.insert hash contentHash } where
  named := hdurable.named
  loaded := hdurable.loaded
  unloaded := hdurable.unloaded
  indexed other hother := by
    have hne : other ≠ hash := fun h => hother (congrArg (some ∘ StoredKey.artifact) h.symm)
    exact (hdurable.indexed other hother).trans (AList.lookup_insert_ne hne).symm
  held other bytes hother hfound := by
    have hne : other ≠ hash := fun h => hother (congrArg (some ∘ StoredKey.artifact) h.symm)
    obtain ⟨hknown, hcontent, hfile⟩ := hdurable.held other bytes hother hfound
    exact ⟨hknown, (AList.lookup_insert_ne hne).trans hcontent, hfile⟩

/-- A change of the files that leaves the other fingerprints, the index and the objects. -/
theorem congr_files (hdurable : Durable lib known except s) {files : StorageFiles}
    (hnamed : ∀ name, .fingerprint name ∈ files → .fingerprint name ∈ s.files ∨
      ∃ key, safeKeyIdentifier lib.isAlphanumeric key = some key ∧
        (StoragePath.fingerprint name = fingerprintFile key ∨ StoragePath.fingerprint name = fingerprintTmp key))
    (hfingerprint : ∀ name, except ≠ some (.fingerprint (fileStem name)) →
      files.lookup (.fingerprint name) = s.files.lookup (.fingerprint name))
    (hindex : files.lookup indexFile = s.files.lookup indexFile)
    (hobject : ∀ bytes ∈ known, s.files.lookup (objectFile (lib.blobHash bytes)) = some bytes →
      files.lookup (objectFile (lib.blobHash bytes)) = some bytes) :
    Durable lib known except { s with files := files } := by
  have hmem : ∀ name, except ≠ some (.fingerprint (fileStem name)) →
      (StoragePath.fingerprint name ∈ files ↔ StoragePath.fingerprint name ∈ s.files) := fun name hname => by
    rw [← AList.lookup_isSome, ← AList.lookup_isSome, hfingerprint name hname]
  constructor
  · exact fun name h => (hnamed name h).elim (hdurable.named name) id
  · intro name hname h
    rw [loadedFingerprint, hfingerprint name hname]
    exact hdurable.loaded name hname ((hmem name hname).mp h)
  · intro key hkey hnone
    refine hdurable.unloaded key hkey fun name h hstem => ?_
    subst hstem
    exact hnone name ((hmem name hkey).mpr h) rfl
  · intro hash hhash
    rw [loadIndex, hindex]
    exact hdurable.indexed hash hhash
  · intro hash bytes hhash hfound
    obtain ⟨hknown, hcontent, hfile⟩ := hdurable.held hash bytes hhash hfound
    exact ⟨hknown, hcontent, hobject bytes hknown hfile⟩

end Durable

/-- A file that can be written while a request for a key is answered: it is not the index, no object,
and the fingerprint of no other key. -/
structure Free (lib : Libraries) (known : Set Bytes) (except : Option StoredKey) (path : StoragePath) : Prop where
  ne_index : indexFile ≠ path
  ne_object : ∀ bytes ∈ known, objectFile (lib.blobHash bytes) ≠ path
  of_fingerprint : ∀ name, path = .fingerprint name →
    except = some (.fingerprint (fileStem name)) ∧ ∃ key, safeKeyIdentifier lib.isAlphanumeric key = some key ∧
      (StoragePath.fingerprint name = fingerprintFile key ∨ StoragePath.fingerprint name = fingerprintTmp key)

section Free

variable {lib : Libraries} {known : Set Bytes} {except : Option StoredKey} {s : ServerState} {path : StoragePath}

/-- The files of a fingerprint can be written for its key. -/
theorem free_fingerprint {key : String} (hsafe : safeKeyIdentifier lib.isAlphanumeric key = some key)
    (hpath : path = fingerprintFile key ∨ path = fingerprintTmp key) :
    Free lib known (some (.fingerprint key)) path where
  ne_index := by rcases hpath with rfl | rfl <;> exact nofun
  ne_object _ _ := by rcases hpath with rfl | rfl <;> exact nofun
  of_fingerprint name hname := by
    rw [hname] at hpath
    have hstem := fileStem_of_file (ne_empty_of_safeKeyIdentifier hsafe) hpath
    exact ⟨by rw [hstem], key, hsafe, hpath⟩

/-- The temporary file of an object can be written. -/
theorem free_objectTmp (hlib : lib.Documented) (hash : String) : Free lib known except (objectTmp hash) where
  ne_index := nofun
  ne_object bytes _ := hlib.objectFile_ne_tmp bytes hash
  of_fingerprint _ := nofun

/-- The temporary file of the index can be written. -/
theorem free_indexTmp : Free lib known except indexTmp where
  ne_index h := absurd (StoragePath.artifact.inj h) (by decide)
  ne_object _ _ := nofun
  of_fingerprint _ := nofun

namespace Durable

/-- Writing such a file keeps the rest. -/
theorem write (hdurable : Durable lib known except s) (hfree : Free lib known except path) (bytes : Bytes) :
    Durable lib known except { s with files := s.files.insert path bytes } := by
  refine hdurable.congr_files (fun name hmem => ?_) (fun name hname => ?_) ?_ fun other hother hfile => ?_
  · rcases (AList.mem_insert _).mp hmem with heq | hmem
    · exact Or.inr (hfree.of_fingerprint name heq.symm).2
    · exact Or.inl hmem
  · exact AList.lookup_insert_ne fun h => hname (hfree.of_fingerprint name h.symm).1
  · exact AList.lookup_insert_ne hfree.ne_index
  · exact (AList.lookup_insert_ne (hfree.ne_object other hother)).trans hfile

/-- Removing such a file keeps the rest. -/
theorem erase (hdurable : Durable lib known except s) (hfree : Free lib known except path) :
    Durable lib known except { s with files := s.files.erase path } := by
  refine hdurable.congr_files (fun name hmem => ?_) (fun name hname => ?_) ?_ fun other hother hfile => ?_
  · exact Or.inl (AList.mem_erase.mp hmem).2
  · exact AList.lookup_erase_ne fun h => hname (hfree.of_fingerprint name h.symm).1
  · exact AList.lookup_erase_ne hfree.ne_index
  · exact (AList.lookup_erase_ne (hfree.ne_object other hother)).trans hfile

/-- An object is replaced by the same object. -/
theorem writeObject (hdurable : Durable lib known except s) (hinj : Set.InjOn lib.blobHash known) {bytes : Bytes}
    (hbytes : bytes ∈ known) :
    Durable lib known except { s with files := s.files.insert (objectFile (lib.blobHash bytes)) bytes } := by
  refine hdurable.congr_files (fun name hmem => ?_) (fun name _ => ?_) ?_ fun other hother hfile => ?_
  · exact Or.inl (((AList.mem_insert _).mp hmem).resolve_left nofun)
  · exact AList.lookup_insert_ne nofun
  · exact AList.lookup_insert_ne nofun
  · by_cases heq : lib.blobHash other = lib.blobHash bytes
    · rw [hinj hother hbytes heq, AList.lookup_insert]
    · exact (AList.lookup_insert_ne fun h => heq (StoragePath.object.inj h)).trans hfile

/-- When the index is written, the files agree with it for every hash. -/
theorem writeIndex {hash : String} (hdurable : Durable lib known (some (.artifact hash)) s)
    (hheld : ∀ bytes, s.artifacts.lookup hash = some bytes → bytes ∈ known ∧
      s.artifactIndex.lookup hash = some (lib.blobHash bytes) ∧
        s.files.lookup (objectFile (lib.blobHash bytes)) = some bytes) :
    Durable lib known none
      { s with files := s.files.insert indexFile (utf8Bytes (lib.codec.toStr s.artifactIndex)) } where
  named name hmem := hdurable.named name (((AList.mem_insert _).mp hmem).resolve_left nofun)
  loaded name _ hmem := by
    have hkept : (s.files.insert indexFile (utf8Bytes (lib.codec.toStr s.artifactIndex))).lookup
        (.fingerprint name) = s.files.lookup (.fingerprint name) := AList.lookup_insert_ne nofun
    rw [loadedFingerprint, hkept]
    exact hdurable.loaded name nofun (((AList.mem_insert _).mp hmem).resolve_left nofun)
  unloaded key _ hnone :=
    hdurable.unloaded key nofun fun name hmem => hnone name ((AList.mem_insert _).mpr (Or.inr hmem))
  indexed other _ := lookup_loadIndex_of_written (AList.lookup_insert _) other
  held other bytes _ hfound := by
    have hcase : bytes ∈ known ∧ s.artifactIndex.lookup other = some (lib.blobHash bytes) ∧
        s.files.lookup (objectFile (lib.blobHash bytes)) = some bytes := by
      by_cases hother : other = hash
      · subst hother
        exact hheld bytes hfound
      · exact hdurable.held other bytes (fun h => hother (StoredKey.artifact.inj (Option.some.inj h)).symm) hfound
    have hne : objectFile (lib.blobHash bytes) ≠ indexFile := nofun
    exact ⟨hcase.1, hcase.2.1, (AList.lookup_insert_ne hne).trans hcase.2.2⟩

/-- When a fingerprint is in its file and in no other, the files agree with memory for every key. -/
theorem of_stored {key fingerprint : String} (hdurable : Durable lib known (some (.fingerprint key)) s)
    (hsafe : safeKeyIdentifier lib.isAlphanumeric key = some key)
    (htrim : trim fingerprint.toList = fingerprint.toList)
    (hmemory : s.fingerprints.lookup key = some fingerprint)
    (hfile : s.files.lookup (fingerprintFile key) = some (utf8Bytes fingerprint))
    (htmp : fingerprintTmp key ∉ s.files) : Durable lib known none s where
  named := hdurable.named
  loaded name _ hmem := by
    by_cases hstem : fileStem name = key
    · -- the file is the one of the key, since the temporary file is gone
      obtain ⟨key', hsafe', hname⟩ := hdurable.named name hmem
      have hkey := fileStem_of_file (ne_empty_of_safeKeyIdentifier hsafe') hname
      rw [hstem] at hkey
      subst hkey
      rcases hname with hname | hname
      · rw [hstem, hmemory, loadedFingerprint, hname, hfile, Option.bind_some, fromUtf8_utf8Bytes,
          Option.map_some, htrim, String.ofList_toList]
      · rw [hname] at hmem
        exact absurd hmem htmp
    · exact hdurable.loaded name (fun h => hstem (StoredKey.fingerprint.inj (Option.some.inj h)).symm) hmem
  unloaded other _ hnone := by
    by_cases hother : other = key
    · subst hother
      have hmem : fingerprintFile other ∈ s.files := by
        rw [← AList.lookup_isSome, hfile]
        rfl
      exact absurd (fileStem_of_file (ne_empty_of_safeKeyIdentifier hsafe) (Or.inl rfl)) (hnone _ hmem)
    · exact hdurable.unloaded other (fun h => hother (StoredKey.fingerprint.inj (Option.some.inj h)).symm) hnone
  indexed hash _ := hdurable.indexed hash nofun
  held hash bytes _ := hdurable.held hash bytes nofun

end Durable

end Free

/-! ## Requests -/

section Requests

variable {lib : Libraries} {known : Set Bytes} {s : ServerState}

/-- While a fingerprint is stored, only its key is affected. -/
theorem throughout_putFingerprint (hdurable : Durable lib known none s) (dir : Option String)
    (key fingerprint : String) :
    (putFingerprint lib dir key fingerprint).Throughout (ServerOp.perform lib)
      (Durable lib known (some (.fingerprint key))) s := by
  have hstart := hdurable.weaken (some (.fingerprint key))
  have hinsert := hstart.insertFingerprint fingerprint
  rw [putFingerprint]
  cases dir with
  | none => exact ⟨hstart, hinsert⟩
  | some dir =>
    cases hsafe : safeKeyIdentifier lib.isAlphanumeric key with
    | none => exact ⟨hstart, hinsert⟩
    | some safeK =>
      obtain rfl := eq_of_safeKeyIdentifier hsafe
      have hwrite := hinsert.write (free_fingerprint hsafe (Or.inr rfl)) (utf8Bytes fingerprint)
      have herase := hwrite.erase (free_fingerprint hsafe (Or.inr rfl))
      have hrename := herase.write (free_fingerprint hsafe (Or.inl rfl)) (utf8Bytes fingerprint)
      exact ⟨hstart, throughout_placeFile_bind hinsert hwrite hrename⟩

/-- While an artifact is stored, only its hash is affected, and afterwards it can be loaded. -/
theorem durable_putArtifact (hlib : lib.Documented) (hinj : Set.InjOn lib.blobHash known)
    (hdurable : Durable lib known none s) (dir hash : String) {bytes : Bytes} (hbytes : bytes ∈ known) :
    (putArtifact lib (some dir) hash bytes).Throughout (ServerOp.perform lib)
        (Durable lib known (some (.artifact hash))) s ∧
      Durable lib known none ((putArtifact lib (some dir) hash bytes).run (ServerOp.perform lib) s).2 := by
  have hstart := hdurable.weaken (some (.artifact hash))
  have hinsert := hstart.insertArtifact bytes
  have hobjectTmp := hinsert.write (free_objectTmp hlib (lib.blobHash bytes)) bytes
  have hobject := (hobjectTmp.erase (free_objectTmp hlib (lib.blobHash bytes))).writeObject hinj hbytes
  have hindex := hobject.insertIndex (lib.blobHash bytes)
  have hindexTmp := hindex.write free_indexTmp
    (utf8Bytes (lib.codec.toStr (s.artifactIndex.insert hash (lib.blobHash bytes))))
  have hplaced := (hindexTmp.erase free_indexTmp).writeIndex (fun bytes' hfound => by
    rw [AList.lookup_insert] at hfound
    cases hfound
    refine ⟨hbytes, AList.lookup_insert _, ?_⟩
    have hne : objectFile (lib.blobHash bytes) ≠ indexTmp := nofun
    rw [AList.lookup_erase_ne hne, AList.lookup_insert_ne hne, AList.lookup_insert])
  rw [putArtifact, hlib.safe_blobHash]
  constructor
  · refine ⟨hstart, throughout_placeFile_bind hinsert hobjectTmp ?_⟩
    exact ⟨hobject, hindex, throughout_placeFile_bind hindex hindexTmp (hplaced.weaken _)⟩
  · have hlast := run_placeFile_bind lib
      { ServerState.place { s with artifacts := s.artifacts.insert hash bytes } (objectTmp (lib.blobHash bytes))
          (objectFile (lib.blobHash bytes)) bytes with
        artifactIndex := s.artifactIndex.insert hash (lib.blobHash bytes) }
      indexTmp indexFile (utf8Bytes (lib.codec.toStr (s.artifactIndex.insert hash (lib.blobHash bytes))))
      (fun _ => pure (CacheResponse.putArtifactResult hash true none))
    change Durable _ _ _ (Program.run _ (ServerM.placeFile _ _ _ >>= _) _).2
    rw [run_placeFile_bind]
    exact Eq.mpr (congrArg (fun result => Durable lib known none result.2) hlast) hplaced

/-- A fingerprint that goes to a file as it is can be loaded afterwards. -/
theorem durable_putFingerprint (hdurable : Durable lib known none s) (dir : String) {key fingerprint : String}
    (hsafe : (safeKeyIdentifier lib.isAlphanumeric key).isSome)
    (htrim : trim fingerprint.toList = fingerprint.toList) :
    Durable lib known none ((putFingerprint lib (some dir) key fingerprint).run (ServerOp.perform lib) s).2 := by
  have hkept := (throughout_putFingerprint hdurable (some dir) key fingerprint).run
  obtain ⟨safeK, hsafe⟩ := Option.isSome_iff_exists.mp hsafe
  obtain rfl := eq_of_safeKeyIdentifier hsafe
  have hrun : ((putFingerprint lib (some dir) key fingerprint).run (ServerOp.perform lib) s).2 =
      ServerState.place { s with fingerprints := s.fingerprints.insert key fingerprint }
        (fingerprintTmp key) (fingerprintFile key) (utf8Bytes fingerprint) := by
    rw [putFingerprint, hsafe]
    change (Program.run _ (ServerM.placeFile _ _ _ >>= _) _).2 = _
    rw [run_placeFile_bind]
    rfl
  rw [hrun] at hkept ⊢
  refine hkept.of_stored hsafe htrim (AList.lookup_insert _) (AList.lookup_insert _) fun hmem => ?_
  rcases (AList.mem_insert _).mp hmem with heq | hmem
  · have hstems := StoragePath.fingerprint.inj heq
    revert hstems
    simp [String.ext_iff]
  · exact (AList.mem_erase.mp hmem).1 rfl

/-- While a request is answered, only its key is affected. -/
theorem throughout_processRequest (hlib : lib.Documented) (hinj : Set.InjOn lib.blobHash known)
    (hdurable : Durable lib known none s) (dir : String) (expectedToken : Option String) {req : CacheRequest}
    (hpayloads : payloads lib [req] ⊆ known) :
    (processRequest lib (some dir) expectedToken req).Throughout (ServerOp.perform lib)
      (Durable lib known req.target) s := by
  cases req with
  | ping token =>
    rw [processRequest]
    split
    · exact hdurable
    · exact ⟨hdurable, hdurable⟩
  | getFingerprint key token =>
    rw [processRequest]
    split
    · exact hdurable.weaken _
    · exact throughout_getFingerprint (hdurable.weaken _) key
  | putFingerprint key fingerprint token =>
    rw [processRequest]
    split
    · exact hdurable.weaken _
    · exact throughout_putFingerprint hdurable (some dir) key fingerprint
  | getArtifact hash token =>
    rw [processRequest]
    split
    · exact hdurable.weaken _
    · exact throughout_getArtifact (hdurable.weaken _) (some dir) hash
  | putArtifact hash data token =>
    rw [processRequest]
    split
    · exact hdurable.weaken _
    · cases hdecode : lib.decode data with
      | error err => exact hdurable.weaken _
      | ok bytes =>
        have hbytes := hpayloads ⟨hash, data, token, List.mem_singleton_self _, hdecode⟩
        exact (durable_putArtifact hlib hinj hdurable dir hash hbytes).1

/-- After a request that can be stored, the files agree with memory for every key. -/
theorem durable_run (hlib : lib.Documented) (hinj : Set.InjOn lib.blobHash known)
    (hdurable : Durable lib known none s) (dir : String) (expectedToken : Option String) {req : CacheRequest}
    (hpayloads : payloads lib [req] ⊆ known) (hstorable : req.Storable lib expectedToken) :
    Durable lib known none
      ((processRequest lib (some dir) expectedToken req).run (ServerOp.perform lib) s).2 := by
  cases req with
  | ping token =>
    rw [processRequest]
    split
    · exact hdurable
    · exact hdurable
  | getFingerprint key token =>
    rw [processRequest]
    split
    · exact hdurable
    · exact (throughout_getFingerprint hdurable key).run
  | putFingerprint key fingerprint token =>
    rw [processRequest]
    split
    · exact hdurable
    · rename_i hauth
      obtain ⟨hsafe, htrim⟩ := hstorable (Bool.eq_true_of_not_eq_false hauth)
      exact durable_putFingerprint hdurable dir hsafe htrim
  | getArtifact hash token =>
    rw [processRequest]
    split
    · exact hdurable
    · exact (throughout_getArtifact hdurable (some dir) hash).run
  | putArtifact hash data token =>
    rw [processRequest]
    split
    · exact hdurable
    · cases hdecode : lib.decode data with
      | error err => exact hdurable
      | ok bytes =>
        have hbytes := hpayloads ⟨hash, data, token, List.mem_singleton_self _, hdecode⟩
        exact (durable_putArtifact hlib hinj hdurable dir hash hbytes).2

end Requests

/-! ## Restarts -/

namespace RemoteCacheServer

variable {lib : Libraries} {known : Set Bytes} {except : Option StoredKey} (server : RemoteCacheServer)

/-- A server that is started again answers as before, apart from one key. -/
theorem handle_restart {dir : String} (hdir : server.storageDir = some dir)
    (hdurable : Durable lib known except server.state) (hlib : lib.Documented) (readDir : ReadDir)
    {get : CacheRequest} (hget : get.IsGet) (hother : except ≠ get.target) :
    ((server.restart lib readDir).handle lib get).1 = (server.handle lib get).1 := by
  have hrestart : server.restart lib readDir = ⟨server.authToken, some dir,
      ⟨loadFingerprints server.state.files (readDir.entries server.state.files), ∅,
        loadIndex lib.codec server.state.files, server.state.files⟩⟩ := by
    rw [restart, hdir]
    rfl
  rw [hrestart]
  simp only [handle, program, hdir]
  cases get with
  | ping token => exact hget.elim
  | putFingerprint key fingerprint token => exact hget.elim
  | putArtifact hash data token => exact hget.elim
  | getFingerprint key token =>
    rw [processRequest]
    split
    · rfl
    · rw [run_getFingerprint, run_getFingerprint, hdurable.lookup_reloaded readDir hother]
  | getArtifact hash token =>
    rw [processRequest]
    split
    · rfl
    · rw [run_getArtifact, run_getArtifact]
      have hdata : ServerState.artifactData lib (some dir)
          ⟨loadFingerprints server.state.files (readDir.entries server.state.files), ∅,
            loadIndex lib.codec server.state.files, server.state.files⟩ hash =
          server.state.artifactData lib (some dir) hash := by
        unfold ServerState.artifactData
        simp only [AList.lookup_empty, hdurable.indexed hash hother]
        cases hfound : server.state.artifacts.lookup hash with
        | none => rfl
        | some bytes =>
          obtain ⟨_, hcontent, hfile⟩ := hdurable.held hash bytes hother hfound
          simp only [hcontent, Option.bind_some, hlib.safe_blobHash, hfile]
      rw [hdata]

/-- Answering requests changes neither the token nor the directory of a server, and keeps the files
in agreement with memory if the requests can be stored. -/
theorem durable_handleAll (hlib : lib.Documented) (hinj : Set.InjOn lib.blobHash known) {dir : String}
    (hdir : server.storageDir = some dir) (hdurable : Durable lib known none server.state)
    {requests : List CacheRequest} (hpayloads : payloads lib requests ⊆ known)
    (hstorable : ∀ req ∈ requests, req.Storable lib server.authToken) :
    (server.handleAll lib requests).storageDir = some dir ∧
      Durable lib known none (server.handleAll lib requests).state := by
  induction requests generalizing server with
  | nil => exact ⟨hdir, hdurable⟩
  | cons req requests ih =>
    have hfirst : payloads lib [req] ⊆ known := by
      rintro bytes ⟨hash, data, token, hmem, hdecode⟩
      exact hpayloads ⟨hash, data, token, List.mem_cons.mpr (Or.inl (List.mem_singleton.mp hmem)), hdecode⟩
    have hrest : payloads lib requests ⊆ known := by
      rintro bytes ⟨hash, data, token, hmem, hdecode⟩
      exact hpayloads ⟨hash, data, token, List.mem_cons_of_mem _ hmem, hdecode⟩
    have hnext := durable_run hlib hinj hdurable dir server.authToken hfirst
      (hstorable req List.mem_cons_self)
    refine ih (server.handle lib req).2 hdir ?_ hrest
      fun req hmem => hstorable req (List.mem_cons_of_mem _ hmem)
    rw [← hdir] at hnext
    exact hnext

/-- A server that was stopped between requests, or within a request, and started again answers as it
would have answered, apart from the key of that request: if its files were settled when it was first
started, its fingerprints go to files as they are, and no two of the artifacts have the same hash. -/
theorem restart_answers (hlib : lib.Documented) (readDir readDir' : ReadDir) (authToken : Option String)
    (dir : String) {files : StorageFiles} (hsettled : Settled lib files) (requests : List CacheRequest)
    (hstorable : ∀ req ∈ requests, req.Storable lib authToken) (last : CacheRequest)
    (hinj : Set.InjOn lib.blobHash (payloads lib (last :: requests))) :
    let server := (new lib readDir authToken (some dir) files).handleAll lib requests
    (∀ get : CacheRequest, get.IsGet →
      ((server.restart lib readDir').handle lib get).1 = (server.handle lib get).1) ∧
    ∀ (accesses : ℕ) (get : CacheRequest), get.IsGet → get.target ≠ last.target →
      (((server.stoppedIn lib last accesses).restart lib readDir').handle lib get).1 =
        ((server.stoppedIn lib last accesses).handle lib get).1 := by
  intro server
  have hstart := Durable.new (payloads lib (last :: requests)) readDir authToken dir hsettled
  have hpayloads : payloads lib requests ⊆ payloads lib (last :: requests) := by
    rintro bytes ⟨hash, data, token, hmem, hdecode⟩
    exact ⟨hash, data, token, List.mem_cons_of_mem _ hmem, hdecode⟩
  have hlast : payloads lib [last] ⊆ payloads lib (last :: requests) := by
    rintro bytes ⟨hash, data, token, hmem, hdecode⟩
    exact ⟨hash, data, token, List.mem_cons.mpr (Or.inl (List.mem_singleton.mp hmem)), hdecode⟩
  obtain ⟨hdir, hdurable⟩ := durable_handleAll (new lib readDir authToken (some dir) files) hlib hinj
    rfl hstart hpayloads hstorable
  constructor
  · intro get hget
    refine handle_restart server hdir hdurable hlib readDir' hget ?_
    cases get with
    | getFingerprint key token => exact nofun
    | getArtifact hash token => exact nofun
    | putFingerprint key fingerprint token => exact hget.elim
    | putArtifact hash data token => exact hget.elim
    | ping token => exact hget.elim
  · intro accesses get hget hother
    have hstopped : Durable lib (payloads lib (last :: requests)) last.target
        (server.stoppedIn lib last accesses).state := by
      rw [stoppedIn, program, hdir]
      exact (throughout_processRequest hlib hinj hdurable dir server.authToken hlast).runFor accesses
    exact handle_restart (server.stoppedIn lib last accesses) hdir hstopped hlib readDir' hget hother.symm

/-- The libraries of the examples do what is relied on. -/
theorem sampleLibraries_documented : sampleLibraries.Documented := by
  have hhash : ∀ bytes, sampleLibraries.blobHash bytes = sampleHash ∨ sampleLibraries.blobHash bytes = otherHash := by
    intro bytes
    by_cases hbytes : bytes = [1]
    · exact Or.inl (if_pos hbytes)
    · exact Or.inr (if_neg hbytes)
  have hdigits : sampleHash.toList.all (· ∈ "0123456789abcdef".toList) = true ∧
      otherHash.toList.all (· ∈ "0123456789abcdef".toList) = true := by decide
  simp only [List.all_eq_true, decide_eq_true_eq] at hdigits
  constructor
  · intro bytes
    rcases hhash bytes with h | h <;> rw [h] <;> decide
  · intro bytes
    rcases hhash bytes with h | h <;> rw [h]
    · exact hdigits.1
    · exact hdigits.2
  · exact fun _ hc => hc

/-- A server on an empty directory. -/
def emptyServer : RemoteCacheServer := new sampleLibraries namesInOrder none (some "cache") ∅

/-- A fingerprint whose key has a slash in it is gone after a restart, and one that ends with a line break
has lost it. -/
theorem not_restart_answers_slash :
    (let server := emptyServer.handleAll sampleLibraries [.putFingerprint "go/0a1b2c/build/app" "fp" none];
      ((server.restart sampleLibraries namesInOrder).handle sampleLibraries
          (.getFingerprint "go/0a1b2c/build/app" none)).1 ≠
        (server.handle sampleLibraries (.getFingerprint "go/0a1b2c/build/app" none)).1) ∧
    (let server := emptyServer.handleAll sampleLibraries [.putFingerprint "app" "fp\n" none];
      ((server.restart sampleLibraries namesInOrder).handle sampleLibraries (.getFingerprint "app" none)).1 ≠
        (server.handle sampleLibraries (.getFingerprint "app" none)).1) := by
  decide +kernel

/-- A server that stored a fingerprint and an artifact, and was stopped while it stored another. -/
theorem restart_answers_stored :
    let server := emptyServer.handleAll sampleLibraries
      [.putFingerprint "fp_key" "fp_val" none, .putArtifact "a" "AQ==" none];
    ((server.restart sampleLibraries namesInOrder).handle sampleLibraries (.getArtifact "a" none)).1 =
        (server.handle sampleLibraries (.getArtifact "a" none)).1 ∧
      (((server.stoppedIn sampleLibraries (.putArtifact "b" "Ag==" none) 5).restart sampleLibraries
          namesInOrder).handle sampleLibraries (.getFingerprint "fp_key" none)).1 =
        ((server.stoppedIn sampleLibraries (.putArtifact "b" "Ag==" none) 5).handle sampleLibraries
          (.getFingerprint "fp_key" none)).1 := by
  have hsettled : Settled sampleLibraries ∅ :=
    ⟨fun name hmem => absurd hmem (AList.notMem_empty _), fun name _ hmem => absurd hmem (AList.notMem_empty _)⟩
  have hstorable : ∀ req ∈ [CacheRequest.putFingerprint "fp_key" "fp_val" none, .putArtifact "a" "AQ==" none],
      req.Storable sampleLibraries none := by
    intro req hmem
    rcases List.mem_pair.mp hmem with rfl | rfl
    · exact fun _ => ⟨by decide +kernel, by decide +kernel⟩
    · trivial
  have hinj : Set.InjOn sampleLibraries.blobHash (payloads sampleLibraries
      [.putArtifact "b" "Ag==" none, .putFingerprint "fp_key" "fp_val" none, .putArtifact "a" "AQ==" none]) := by
    have hsub : ∀ bytes ∈ payloads sampleLibraries
        [.putArtifact "b" "Ag==" none, .putFingerprint "fp_key" "fp_val" none, .putArtifact "a" "AQ==" none],
        bytes = [1] ∨ bytes = [2] := by
      rintro bytes ⟨hash, data, token, hmem, hdecode⟩
      simp only [List.mem_cons, List.not_mem_nil, CacheRequest.putArtifact.injEq, reduceCtorEq, or_false,
        false_or] at hmem
      rcases hmem with ⟨_, rfl, _⟩ | ⟨_, rfl, _⟩
      · exact Or.inr (Except.ok.inj hdecode).symm
      · exact Or.inl (Except.ok.inj hdecode).symm
    intro bytes hmem bytes' hmem' heq
    rcases hsub bytes hmem with rfl | rfl <;> rcases hsub bytes' hmem' with rfl | rfl
    · rfl
    · exact absurd heq (by decide +kernel)
    · exact absurd heq (by decide +kernel)
    · rfl
  have hanswers := restart_answers sampleLibraries_documented namesInOrder namesInOrder none "cache" hsettled
    [.putFingerprint "fp_key" "fp_val" none, .putArtifact "a" "AQ==" none] hstorable
    (.putArtifact "b" "Ag==" none) hinj
  exact ⟨hanswers.1 _ trivial, hanswers.2 5 _ trivial (by decide)⟩

end RemoteCacheServer

end Forge.RemoteCache
