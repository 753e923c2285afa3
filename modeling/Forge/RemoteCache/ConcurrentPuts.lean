import Forge.Common.Histories
import Forge.Common.Interleaving
import Forge.RemoteCache.Restart

/-!
# Artifacts that are stored at the same time

Requests of several connections store artifacts at the same time. Each of them takes a snapshot of
the index and writes it to the file of the index, and the snapshot can be out of date by then. The
file has the whole index in the end if no request writes its snapshot after a request with a later
one. Objects are never lost, because all that write an object write the same hash.
-/

namespace Forge.RemoteCache

open Forge.Common

/-- An artifact and the hash it is stored for. -/
structure ArtifactPut where
  hash : String
  bytes : Bytes

/-- Requests on the state that they share. -/
abbrev ServerRun := Interleaved ServerOp ServerOp.Response CacheResponse ServerState

/-- What is left of a request that stores an artifact, by the number of its accesses so far. -/
inductive PutStage (lib : Libraries) (put : ArtifactPut) : ℕ → ServerM CacheResponse → Prop where
  | insertArtifact (rest) : PutStage lib put 0 (.next (.insertArtifact put.hash put.bytes) rest)
  | writeObject (rest) :
    PutStage lib put 1 (.next (.writeFile (objectTmp (lib.blobHash put.bytes)) put.bytes) rest)
  | renameObject (rest) : PutStage lib put 2
    (.next (.renameFile (objectTmp (lib.blobHash put.bytes)) (objectFile (lib.blobHash put.bytes))) rest)
  | insertIndex (rest) : PutStage lib put 3 (.next (.insertIndex put.hash (lib.blobHash put.bytes)) rest)
  | snapshotIndex (rest) (hwrites : ∀ snapshot, ∃ rest', rest snapshot = .next (.writeFile indexTmp snapshot) rest') :
    PutStage lib put 4 (.next .snapshotIndex rest)
  | writeIndex (snapshot rest) : PutStage lib put 5 (.next (.writeFile indexTmp snapshot) rest)
  | renameIndex (rest) : PutStage lib put 6 (.next (.renameFile indexTmp indexFile) rest)
  | done : PutStage lib put 7 (.done (.putArtifactResult put.hash true none))

/-- When the one request had taken its snapshot, the other had not taken its own. -/
def SnapshotLater (history : List ℕ) (i j : ℕ) : Prop :=
  ∃ earlier, earlier <+: history ∧ 5 ≤ earlier.count i ∧ earlier.count j < 5

/-- A request is about to write its snapshot, and one with a later snapshot has written that already. -/
def WritesStale (history : List ℕ) (i : ℕ) : Prop :=
  history.count i = 5 ∧ ∃ j, SnapshotLater history i j ∧ 6 ≤ history.count j

/-- No request writes its snapshot after one with a later snapshot has. -/
def NoStaleWrite (events : List ℕ) : Prop := ∀ history i, history ++ [i] <+: events → ¬ WritesStale history i

/-- An object is there and has the contents that its name says. -/
def ObjectStored (lib : Libraries) (files : StorageFiles) (contentHash : String) : Prop :=
  ∃ bytes, files.lookup (objectFile contentHash) = some bytes ∧ lib.blobHash bytes = contentHash

/-- The objects that an index names are there. -/
def Sound (lib : Libraries) (s : ServerState) : Prop :=
  ∀ hash contentHash, s.artifactIndex.lookup hash = some contentHash → ObjectStored lib s.files contentHash

/-- The file of the index can be read and has what the index in memory has. -/
def IndexSynced (lib : Libraries) (s : ServerState) : Prop :=
  ∃ index, ((s.files.lookup indexFile).bind fromUtf8).bind lib.codec.fromStr = some index ∧
    ∀ hash, index.lookup hash = s.artifactIndex.lookup hash

/-- The bytes of the index as it is in memory. -/
def indexBytes (lib : Libraries) (s : ServerState) : Bytes := utf8Bytes (lib.codec.toStr s.artifactIndex)

/-- Requests that have not done anything. -/
def startPuts (lib : Libraries) (dir : String) (s : ServerState) (puts : List ArtifactPut) : ServerRun :=
  ⟨s, puts.map fun put => putArtifact lib (some dir) put.hash put.bytes⟩

section Stages

variable {lib : Libraries}

/-- Storing an artifact, step by step. -/
theorem putArtifact_eq (hlib : lib.Documented) (dir : String) (put : ArtifactPut) :
    putArtifact lib (some dir) put.hash put.bytes =
      .next (.insertArtifact put.hash put.bytes) fun _ =>
        ServerM.placeFile (objectTmp (lib.blobHash put.bytes)) (objectFile (lib.blobHash put.bytes)) put.bytes >>=
          fun _ => .next (.insertIndex put.hash (lib.blobHash put.bytes)) fun _ => .next .snapshotIndex
            fun snapshot => ServerM.placeFile indexTmp indexFile snapshot >>=
              fun _ => .done (.putArtifactResult put.hash true none) := by
  rw [putArtifact, hlib.safe_blobHash]
  rfl

/-- What is left of a request that stores an artifact. -/
theorem putStage_of_remains (hlib : lib.Documented) {dir : String} {put : ArtifactPut} {n : ℕ}
    {q : ServerM CacheResponse}
    (hremains : (putArtifact lib (some dir) put.hash put.bytes).Remains (ServerOp.perform lib) n q) :
    PutStage lib put n q := by
  rw [putArtifact_eq hlib] at hremains
  rcases n with _ | n
  · cases hremains
    exact .insertArtifact _
  obtain ⟨_, hremains⟩ := hremains.of_next
  rcases n with _ | n
  · cases hremains
    exact .writeObject _
  obtain ⟨_, hremains⟩ := Program.Remains.of_next hremains
  rcases n with _ | n
  · cases hremains
    exact .renameObject _
  obtain ⟨_, hremains⟩ := Program.Remains.of_next hremains
  rcases n with _ | n
  · cases hremains
    exact .insertIndex _
  obtain ⟨_, hremains⟩ := Program.Remains.of_next hremains
  rcases n with _ | n
  · cases hremains
    exact .snapshotIndex _ fun snapshot => ⟨_, rfl⟩
  obtain ⟨_, hremains⟩ := Program.Remains.of_next hremains
  rcases n with _ | n
  · cases hremains
    exact .writeIndex _ _
  obtain ⟨_, hremains⟩ := Program.Remains.of_next hremains
  rcases n with _ | n
  · cases hremains
    exact .renameIndex _
  obtain ⟨_, hremains⟩ := Program.Remains.of_next hremains
  rcases n with _ | n
  · cases hremains
    exact .done
  obtain ⟨_, _, _, hended, _⟩ := hremains
  cases hended

/-- The request that goes on in a step, and what it does. -/
theorem putStage_of_step (hlib : lib.Documented) {dir : String} {puts : List ArtifactPut} {start : ServerState}
    {history : List ℕ} {s t : ServerRun} {i : ℕ}
    (hrun : (interleaving (ServerOp.perform lib)).exec (startPuts lib dir start puts) history = some s)
    (hstep : (interleaving (ServerOp.perform lib)).step s i = some t) :
    ∃ put op rest, puts[i]? = some put ∧ s.programs[i]? = some (.next op rest) ∧
      PutStage lib put (history.count i) (.next op rest) ∧
      t = ⟨(ServerOp.perform lib op s.shared).2, s.programs.set i (rest (ServerOp.perform lib op s.shared).1)⟩ := by
  obtain ⟨op, rest, hnext, ht⟩ := Interleaved.step_eq_some_iff.mp hstep
  have hlt := (List.getElem?_eq_some_iff.mp hnext).1
  rw [Interleaved.length_of_exec hrun, startPuts, List.length_map] at hlt
  have hput : puts[i]? = some puts[i] := List.getElem?_eq_getElem hlt
  have hstart : (startPuts lib dir start puts).programs[i]? =
      some (putArtifact lib (some dir) puts[i].hash puts[i].bytes) := by
    rw [startPuts, List.getElem?_map, hput]
    rfl
  obtain ⟨q, hq, hremains⟩ := Interleaved.remains_of_exec hstart hrun
  rw [hnext, Option.some.injEq] at hq
  subst hq
  exact ⟨puts[i], op, rest, hput, hnext, putStage_of_remains hlib hremains, ht⟩

end Stages

/-! ## Objects -/

/-- The objects that are named, and those of requests that have stored them, are there. A request that
has written a temporary file finds an object of the right hash in it, or in place. -/
structure ObjectsKept (lib : Libraries) (puts : List ArtifactPut) (history : List ℕ) (s : ServerState) : Prop where
  sound : Sound lib s
  written : ∀ (i : ℕ) put, puts[i]? = some put → 2 ≤ history.count i → ∀ bytes,
    s.files.lookup (objectTmp (lib.blobHash put.bytes)) = some bytes → lib.blobHash bytes = lib.blobHash put.bytes
  taken : ∀ (i : ℕ) put, puts[i]? = some put → 2 ≤ history.count i →
    s.files.lookup (objectTmp (lib.blobHash put.bytes)) = none → ObjectStored lib s.files (lib.blobHash put.bytes)
  stored : ∀ (i : ℕ) put, puts[i]? = some put → 3 ≤ history.count i →
    ObjectStored lib s.files (lib.blobHash put.bytes)

section Objects

variable {lib : Libraries} {puts : List ArtifactPut} {history : List ℕ} {s : ServerState} {i : ℕ}

/-- An access that is not to objects keeps them. -/
theorem ObjectsKept.frame (hkept : ObjectsKept lib puts history s) {s' : ServerState}
    (hstage : history.count i = 0 ∨ 3 ≤ history.count i) (hindex : s'.artifactIndex = s.artifactIndex)
    (hfiles : ∀ name, s'.files.lookup (.object name) = s.files.lookup (.object name)) :
    ObjectsKept lib puts (history ++ [i]) s' := by
  have hobject : ∀ contentHash, ObjectStored lib s.files contentHash → ObjectStored lib s'.files contentHash := by
    rintro contentHash ⟨bytes, hbytes, hhash⟩
    exact ⟨bytes, (hfiles _).trans hbytes, hhash⟩
  have hcount : ∀ k n, 2 ≤ n → n ≤ 3 → n ≤ (history ++ [i]).count k → n ≤ history.count k := by
    intro k n hlow hhigh hn
    rw [count_concat] at hn
    split at hn
    · subst k
      omega
    · exact hn
  constructor
  · intro hash contentHash hnamed
    rw [hindex] at hnamed
    exact hobject _ (hkept.sound hash contentHash hnamed)
  · intro k put hput hk bytes hbytes
    rw [objectTmp, hfiles] at hbytes
    exact hkept.written k put hput (hcount k 2 le_rfl (by omega) hk) bytes hbytes
  · intro k put hput hk hnone
    rw [objectTmp, hfiles] at hnone
    exact hobject _ (hkept.taken k put hput (hcount k 2 le_rfl (by omega) hk) hnone)
  · intro k put hput hk
    exact hobject _ (hkept.stored k put hput (hcount k 3 (by omega) le_rfl hk))

/-- Writing a temporary file of an object. -/
theorem ObjectsKept.writeObject (hlib : lib.Documented) (hkept : ObjectsKept lib puts history s)
    (hstage : history.count i = 1) {put : ArtifactPut} (hput : puts[i]? = some put) :
    ObjectsKept lib puts (history ++ [i])
      { s with files := s.files.insert (objectTmp (lib.blobHash put.bytes)) put.bytes } := by
  have hobject : ∀ contentHash, ObjectStored lib s.files contentHash →
      ObjectStored lib (s.files.insert (objectTmp (lib.blobHash put.bytes)) put.bytes) contentHash := by
    rintro _ ⟨bytes, hbytes, rfl⟩
    exact ⟨bytes, (AList.lookup_insert_ne (hlib.objectFile_ne_tmp bytes _)).trans hbytes, rfl⟩
  have hother : ∀ k put', puts[k]? = some put' → 2 ≤ (history ++ [i]).count k →
      2 ≤ history.count k ∨ put' = put := by
    intro k put' hput' hk
    rw [count_concat] at hk
    split at hk
    · subst k
      exact Or.inr (Option.some.inj (hput'.symm.trans hput))
    · exact Or.inl hk
  constructor
  · exact fun hash contentHash hnamed => hobject _ (hkept.sound hash contentHash hnamed)
  · intro k put' hput' hk bytes hbytes
    by_cases hsame : objectTmp (lib.blobHash put'.bytes) = objectTmp (lib.blobHash put.bytes)
    · have hhash : lib.blobHash put'.bytes = lib.blobHash put.bytes :=
        String.append_left_inj _ |>.mp (StoragePath.object.inj hsame)
      rw [hsame, AList.lookup_insert] at hbytes
      cases hbytes
      exact hhash.symm
    · rcases hother k put' hput' hk with hk | rfl
      · exact hkept.written k put' hput' hk bytes ((AList.lookup_insert_ne hsame).symm.trans hbytes)
      · exact absurd rfl hsame
  · intro k put' hput' hk hnone
    by_cases hsame : objectTmp (lib.blobHash put'.bytes) = objectTmp (lib.blobHash put.bytes)
    · rw [hsame, AList.lookup_insert] at hnone
      cases hnone
    · rcases hother k put' hput' hk with hk | rfl
      · exact hobject _ (hkept.taken k put' hput' hk ((AList.lookup_insert_ne hsame).symm.trans hnone))
      · exact absurd rfl hsame
  · intro k put' hput' hk
    rw [count_concat] at hk
    split at hk
    · omega
    · exact hobject _ (hkept.stored k put' hput' hk)

/-- Renaming the temporary file of an object, or finding that another request has done so. -/
theorem ObjectsKept.renameObject (hlib : lib.Documented) (hkept : ObjectsKept lib puts history s)
    (hstage : history.count i = 2) {put : ArtifactPut} (hput : puts[i]? = some put) :
    ObjectsKept lib puts (history ++ [i]) (ServerOp.perform lib
      (.renameFile (objectTmp (lib.blobHash put.bytes)) (objectFile (lib.blobHash put.bytes))) s).2 := by
  have hbefore : ∀ k, 2 ≤ (history ++ [i]).count k → 2 ≤ history.count k := by
    intro k hk
    rw [count_concat] at hk
    split at hk
    · subst k
      omega
    · exact hk
  have hstored : ∀ k put', puts[k]? = some put' → 3 ≤ (history ++ [i]).count k →
      3 ≤ history.count k ∨ put' = put := by
    intro k put' hput' hk
    rw [count_concat] at hk
    split at hk
    · subst k
      exact Or.inr (Option.some.inj (hput'.symm.trans hput))
    · exact Or.inl hk
  cases htmp : s.files.lookup (objectTmp (lib.blobHash put.bytes)) with
  | none =>
    have hown := hkept.taken i put hput (by omega) htmp
    simp only [ServerOp.perform, Files.rename, htmp, Option.map_none]
    constructor
    · exact hkept.sound
    · exact fun k put' hput' hk => hkept.written k put' hput' (hbefore k hk)
    · exact fun k put' hput' hk => hkept.taken k put' hput' (hbefore k hk)
    · intro k put' hput' hk
      rcases hstored k put' hput' hk with hk | rfl
      · exact hkept.stored k put' hput' hk
      · exact hown
  | some bytes =>
    have hhash := hkept.written i put hput (by omega) bytes htmp
    simp only [ServerOp.perform, Files.rename, htmp, Option.map_some]
    have hown : ObjectStored lib (AList.insert (objectFile (lib.blobHash put.bytes)) bytes
        (s.files.erase (objectTmp (lib.blobHash put.bytes)))) (lib.blobHash put.bytes) :=
      ⟨bytes, AList.lookup_insert _, hhash⟩
    have hobject : ∀ contentHash, ObjectStored lib s.files contentHash →
        ObjectStored lib (AList.insert (objectFile (lib.blobHash put.bytes)) bytes
          (s.files.erase (objectTmp (lib.blobHash put.bytes)))) contentHash := by
      rintro _ ⟨bytes', hbytes', rfl⟩
      by_cases hsame : lib.blobHash bytes' = lib.blobHash put.bytes
      · rw [hsame]
        exact hown
      · exact ⟨bytes', (Files.lookup_insert_erase s.files (hlib.objectFile_ne_tmp bytes' _)
          (fun h => hsame (StoragePath.object.inj h)) bytes).trans hbytes', rfl⟩
    have htmps : ∀ contentHash, contentHash ≠ lib.blobHash put.bytes →
        (AList.insert (objectFile (lib.blobHash put.bytes)) bytes
          (s.files.erase (objectTmp (lib.blobHash put.bytes)))).lookup (objectTmp contentHash) =
          s.files.lookup (objectTmp contentHash) := by
      intro contentHash hne
      exact Files.lookup_insert_erase s.files
        (fun h => hne (String.append_left_inj _ |>.mp (StoragePath.object.inj h)))
        (hlib.objectFile_ne_tmp put.bytes contentHash).symm bytes
    constructor
    · exact fun hash contentHash hnamed => hobject _ (hkept.sound hash contentHash hnamed)
    · intro k put' hput' hk bytes' hbytes'
      by_cases hsame : lib.blobHash put'.bytes = lib.blobHash put.bytes
      · -- the temporary file is gone
        rw [hsame, AList.lookup_insert_ne (hlib.objectFile_ne_tmp put.bytes _).symm, AList.lookup_erase] at hbytes'
        cases hbytes'
      · exact hkept.written k put' hput' (hbefore k hk) bytes' ((htmps _ hsame).symm.trans hbytes')
    · intro k put' hput' hk hnone
      by_cases hsame : lib.blobHash put'.bytes = lib.blobHash put.bytes
      · rw [hsame]
        exact hown
      · exact hobject _ (hkept.taken k put' hput' (hbefore k hk) ((htmps _ hsame).symm.trans hnone))
    · intro k put' hput' hk
      rcases hstored k put' hput' hk with hk | rfl
      · exact hobject _ (hkept.stored k put' hput' hk)
      · exact hown

/-- Naming an object in the index that is there. -/
theorem ObjectsKept.insertIndex (hkept : ObjectsKept lib puts history s) (hstage : history.count i = 3)
    {put : ArtifactPut} (hput : puts[i]? = some put) :
    ObjectsKept lib puts (history ++ [i])
      { s with artifactIndex := s.artifactIndex.insert put.hash (lib.blobHash put.bytes) } := by
  have hcount : ∀ k n, n ≤ 3 → n ≤ (history ++ [i]).count k → n ≤ history.count k := by
    intro k n hhigh hn
    rw [count_concat] at hn
    split at hn
    · subst k
      omega
    · exact hn
  constructor
  · intro hash contentHash hnamed
    by_cases hhash : hash = put.hash
    · rw [hhash, AList.lookup_insert, Option.some.injEq] at hnamed
      exact hnamed ▸ hkept.stored i put hput (by omega)
    · exact hkept.sound hash contentHash ((AList.lookup_insert_ne hhash).symm.trans hnamed)
  · exact fun k put' hput' hk => hkept.written k put' hput' (hcount k 2 (by omega) hk)
  · exact fun k put' hput' hk => hkept.taken k put' hput' (hcount k 2 (by omega) hk)
  · exact fun k put' hput' hk => hkept.stored k put' hput' (hcount k 3 le_rfl hk)

/-- Objects are kept in every step. -/
theorem ObjectsKept.step (hlib : lib.Documented) {dir : String} {start : ServerState} {r t : ServerRun}
    (hrun : (interleaving (ServerOp.perform lib)).exec (startPuts lib dir start puts) history = some r)
    (hkept : ObjectsKept lib puts history r.shared)
    (hstep : (interleaving (ServerOp.perform lib)).step r i = some t) :
    ObjectsKept lib puts (history ++ [i]) t.shared := by
  obtain ⟨put, op, rest, hput, _, hstage, rfl⟩ := putStage_of_step hlib hrun hstep
  dsimp only
  generalize hcount : history.count i = n at hstage
  cases hstage with
  | insertArtifact => exact hkept.frame (Or.inl hcount) rfl fun _ => rfl
  | writeObject => exact hkept.writeObject hlib hcount hput
  | renameObject => exact hkept.renameObject hlib hcount hput
  | insertIndex => exact hkept.insertIndex hcount hput
  | snapshotIndex => exact hkept.frame (Or.inr (by omega)) rfl fun _ => rfl
  | writeIndex snapshot =>
    exact hkept.frame (Or.inr (by omega)) rfl fun _ => AList.lookup_insert_ne (by simp [indexTmp])
  | renameIndex =>
    simp only [ServerOp.perform, Files.rename]
    cases r.shared.files.lookup indexTmp with
    | none => exact hkept.frame (Or.inr (by omega)) rfl fun _ => rfl
    | some bytes =>
      refine hkept.frame (Or.inr (by omega)) rfl fun name => ?_
      have hsrc : StoragePath.object name ≠ indexTmp := by simp [indexTmp]
      have hdst : StoragePath.object name ≠ indexFile := by simp [indexFile]
      exact Files.lookup_insert_erase r.shared.files hsrc hdst bytes

end Objects

/-! ## The index -/

/-- The request with the latest snapshot is about to write the index as it is, or has written it and
nobody has written another since. -/
structure LatestWritten (lib : Libraries) (history : List ℕ) (t : ServerRun) (z : ℕ) : Prop where
  took : 5 ≤ history.count z
  latest : ∀ i, i ≠ z → 5 ≤ history.count i → SnapshotLater history i z
  writes : history.count z = 5 →
    ∃ rest, t.programs[z]? = some (.next (.writeFile indexTmp (indexBytes lib t.shared)) rest)
  wrote : 6 ≤ history.count z → t.shared.files.lookup indexTmp = some (indexBytes lib t.shared) ∨
    (t.shared.files.lookup indexTmp = none ∧ t.shared.files.lookup indexFile = some (indexBytes lib t.shared))
  renamed : 7 ≤ history.count z → t.shared.files.lookup indexTmp = none

/-- A request has changed the index and is about to take a snapshot, or none has changed it, or the one
with the latest snapshot sees to it that the file of the index is as it should be. -/
def IndexKept (lib : Libraries) (history : List ℕ) (t : ServerRun) : Prop :=
  (∃ j, history.count j = 4) ∨ (∀ j, history.count j < 4) ∨ ∃ z, LatestWritten lib history t z

section Index

variable {lib : Libraries} {history : List ℕ} {r : ServerRun} {i z : ℕ}

/-- A later snapshot stays later. -/
theorem SnapshotLater.concat {j : ℕ} (hlater : SnapshotLater history i j) (e : ℕ) :
    SnapshotLater (history ++ [e]) i j := by
  obtain ⟨earlier, hinitial, hcounts⟩ := hlater
  exact ⟨earlier, hinitial.trans (List.prefix_append history [e]), hcounts⟩

/-- The latest snapshot stays the latest while no other is taken. -/
theorem LatestWritten.latest_concat (hlatest : LatestWritten lib history r z) (htakes : history.count i ≠ 4)
    (j : ℕ) (hj : j ≠ z) (hcount : 5 ≤ (history ++ [i]).count j) : SnapshotLater (history ++ [i]) j z := by
  refine (hlatest.latest j hj ?_).concat i
  rw [count_concat] at hcount
  split at hcount
  · subst j
    omega
  · exact hcount

/-- A step of another request that leaves the files of the index keeps what the latest snapshot is for. -/
theorem LatestWritten.frame (hlatest : LatestWritten lib history r z) {t : ServerRun} (hother : i ≠ z)
    (htakes : history.count i ≠ 4) (hprogram : t.programs[z]? = r.programs[z]?)
    (hindex : t.shared.artifactIndex = r.shared.artifactIndex)
    (htmp : 6 ≤ history.count z → t.shared.files.lookup indexTmp = r.shared.files.lookup indexTmp)
    (hfile : 6 ≤ history.count z → t.shared.files.lookup indexFile = r.shared.files.lookup indexFile) :
    LatestWritten lib (history ++ [i]) t z := by
  have hcount : (history ++ [i]).count z = history.count z := by
    rw [count_concat, if_neg hother.symm]
  have hbytes : indexBytes lib t.shared = indexBytes lib r.shared := by
    rw [indexBytes, indexBytes, hindex]
  refine ⟨hcount ▸ hlatest.took, hlatest.latest_concat htakes, ?_, ?_, ?_⟩
  · rw [hcount, hprogram, hbytes]
    exact hlatest.writes
  · rw [hcount, hbytes]
    intro hz
    rw [htmp hz, hfile hz]
    exact hlatest.wrote hz
  · rw [hcount]
    intro hz
    rw [htmp (by omega)]
    exact hlatest.renamed hz

/-- Renaming the temporary file of the index, or finding that another request has done so. -/
theorem perform_renameIndex (lib : Libraries) {s : ServerState} {bytes : Bytes}
    (hwrote : s.files.lookup indexTmp = some bytes ∨
      (s.files.lookup indexTmp = none ∧ s.files.lookup indexFile = some bytes)) :
    (ServerOp.perform lib (.renameFile indexTmp indexFile) s).2.files.lookup indexTmp = none ∧
      (ServerOp.perform lib (.renameFile indexTmp indexFile) s).2.files.lookup indexFile = some bytes := by
  have hne : indexTmp ≠ indexFile := fun h => absurd (StoragePath.artifact.inj h) (by decide)
  rcases hwrote with htmp | ⟨htmp, hfile⟩
  · simp only [ServerOp.perform, Files.rename, htmp, Option.map_some]
    exact ⟨(AList.lookup_insert_ne hne).trans (AList.lookup_erase _ _), AList.lookup_insert _⟩
  · simp only [ServerOp.perform, Files.rename, htmp, Option.map_none]
    exact ⟨trivial, hfile⟩

/-- Renaming leaves the index in memory. -/
theorem perform_renameFile_artifactIndex (src dst : StoragePath) (s : ServerState) :
    (ServerOp.perform lib (.renameFile src dst) s).2.artifactIndex = s.artifactIndex := by
  rw [ServerOp.perform]
  cases Files.rename s.files src dst with
  | some files => rfl
  | none => rfl

/-- Renaming an object leaves the files of the index. -/
theorem perform_renameFile_object (src dst name : String) (s : ServerState) :
    (ServerOp.perform lib (.renameFile (.object src) (.object dst)) s).2.files.lookup (.artifact name) =
      s.files.lookup (.artifact name) := by
  have hsrc : StoragePath.artifact name ≠ .object src := nofun
  have hdst : StoragePath.artifact name ≠ .object dst := nofun
  simp only [ServerOp.perform, Files.rename]
  cases s.files.lookup (.object src) with
  | some bytes => exact Files.lookup_insert_erase s.files hsrc hdst bytes
  | none => rfl

/-- The file of the index is seen to in every step in which no request writes an older snapshot than was
written before. -/
theorem IndexKept.step (hlib : lib.Documented) {dir : String} {puts : List ArtifactPut} {start : ServerState}
    {t : ServerRun}
    (hrun : (interleaving (ServerOp.perform lib)).exec (startPuts lib dir start puts) history = some r)
    (hfresh : ¬ WritesStale history i) (hkept : IndexKept lib history r)
    (hstep : (interleaving (ServerOp.perform lib)).step r i = some t) :
    IndexKept lib (history ++ [i]) t := by
  obtain ⟨put, op, rest, _, hnext, hstage, rfl⟩ := putStage_of_step hlib hrun hstep
  have hlt := (List.getElem?_eq_some_iff.mp hnext).1
  have hown : (history ++ [i]).count i = history.count i + 1 := by rw [count_concat, if_pos rfl]
  have hothers : ∀ j, j ≠ i → (history ++ [i]).count j = history.count j :=
    fun j hj => by rw [count_concat, if_neg hj]
  -- the steps that change the index or take a snapshot need nothing of what was before
  by_cases hinserts : history.count i = 3
  · exact Or.inl ⟨i, by omega⟩
  by_cases htakes : history.count i = 4
  · refine Or.inr (Or.inr ⟨i, by omega, fun j _ hcount => ?_, fun _ => ?_, fun h => absurd h (by omega),
      fun h => absurd h (by omega)⟩)
    · refine ⟨history, List.prefix_append history [i], ?_, by omega⟩
      have hj : j ≠ i := by
        rintro rfl
        contradiction
      rw [hothers j hj] at hcount
      exact hcount
    · rw [htakes] at hstage
      cases hstage with
      | snapshotIndex _ hwrites =>
        obtain ⟨rest', hrest⟩ := hwrites (indexBytes lib r.shared)
        exact ⟨rest', (List.getElem?_set_self hlt).trans (congrArg some hrest)⟩
  rcases hkept with ⟨j, hj⟩ | hnone | ⟨z, hlatest⟩
  · refine Or.inl ⟨j, ?_⟩
    rw [hothers j (by rintro rfl; contradiction)]
    exact hj
  · refine Or.inr (Or.inl fun j => ?_)
    have hi := hnone i
    have hj := hnone j
    rw [count_concat]
    split <;> omega
  · refine Or.inr (Or.inr ⟨z, ?_⟩)
    have hprogram : i ≠ z → (r.programs.set i (rest (ServerOp.perform lib op r.shared).1))[z]? = r.programs[z]? :=
      fun hi => List.getElem?_set_ne hi
    have hle : history.count z ≤ (history ++ [i]).count z := by
      rw [count_concat]
      split
      · subst z
        omega
      · exact le_rfl
    have htook := hlatest.took
    generalize hcount : history.count i = n at hstage
    cases hstage with
    | insertArtifact =>
      have hi : i ≠ z := by rintro rfl; omega
      exact hlatest.frame hi htakes (hprogram hi) rfl (fun _ => rfl) fun _ => rfl
    | writeObject =>
      have hi : i ≠ z := by rintro rfl; omega
      exact hlatest.frame hi htakes (hprogram hi) rfl (fun _ => AList.lookup_insert_ne nofun)
        fun _ => AList.lookup_insert_ne nofun
    | renameObject =>
      have hi : i ≠ z := by rintro rfl; omega
      exact hlatest.frame hi htakes (hprogram hi) (perform_renameFile_artifactIndex _ _ _)
        (fun _ => perform_renameFile_object _ _ _ _) fun _ => perform_renameFile_object _ _ _ _
    | insertIndex => exact absurd hcount hinserts
    | snapshotIndex => exact absurd hcount htakes
    | writeIndex snapshot =>
      by_cases hi : i = z
      · -- the latest snapshot is written
        subst hi
        obtain ⟨rest', hwrites⟩ := hlatest.writes hcount
        rw [hnext] at hwrites
        cases hwrites
        exact ⟨by omega, hlatest.latest_concat htakes, fun h => absurd h (by omega),
          fun _ => Or.inl (AList.lookup_insert _), fun h => absurd h (by omega)⟩
      · -- an older snapshot is written before the latest
        have hnot : ¬ 6 ≤ history.count z := fun hz =>
          hfresh ⟨hcount, z, hlatest.latest i hi (by omega), hz⟩
        exact hlatest.frame hi htakes (hprogram hi) rfl (fun h => absurd h hnot) fun h => absurd h hnot
    | renameIndex =>
      have hindex : indexBytes lib (ServerOp.perform lib (.renameFile indexTmp indexFile) r.shared).2 =
          indexBytes lib r.shared := by
        rw [indexBytes, perform_renameFile_artifactIndex, ← indexBytes]
      by_cases hwrote : 6 ≤ history.count z
      · obtain ⟨htmp, hfile⟩ := perform_renameIndex lib (hlatest.wrote hwrote)
        refine ⟨by omega, hlatest.latest_concat htakes, fun h => absurd h (by omega), fun _ => Or.inr ?_,
          fun _ => htmp⟩
        rw [hindex]
        exact ⟨htmp, hfile⟩
      · have hi : i ≠ z := by rintro rfl; omega
        exact hlatest.frame hi htakes (hprogram hi) (perform_renameFile_artifactIndex _ _ _)
          (fun h => absurd h hwrote) fun h => absurd h hwrote

end Index

/-! ## All requests -/

namespace RemoteCacheServer

variable {lib : Libraries}

/-- Requests of several connections that have not done anything. -/
def startAll (lib : Libraries) (server : RemoteCacheServer) (requests : List CacheRequest) : ServerRun :=
  ⟨server.state, requests.map (server.program lib)⟩

/-- A request that stores an artifact is refused, or stores the artifact. -/
theorem program_putArtifact_cases (server : RemoteCacheServer) (hash data : String) (token : Option String) :
    (∃ error, server.program lib (.putArtifact hash data token) =
        .done (.putArtifactResult hash false (some error))) ∨
      ∃ bytes, server.program lib (.putArtifact hash data token) = putArtifact lib server.storageDir hash bytes := by
  rw [program, processRequest]
  split
  · exact Or.inl ⟨_, rfl⟩
  · cases lib.decode data with
    | error err => exact Or.inl ⟨_, rfl⟩
    | ok bytes => exact Or.inr ⟨bytes, rfl⟩

/-- Requests that all succeed in the end have all stored artifacts. -/
theorem exists_puts {server : RemoteCacheServer} {requests : List CacheRequest}
    (hputs : ∀ req ∈ requests, ∃ hash data token, req = .putArtifact hash data token) {events : List ℕ}
    {t : ServerRun}
    (hrun : (interleaving (ServerOp.perform lib)).exec (server.startAll lib requests) events = some t)
    (hsuccess : ∀ p ∈ t.programs, ∃ hash, p = .done (.putArtifactResult hash true none)) :
    ∃ puts : List ArtifactPut, requests.map (server.program lib) =
      puts.map fun put => putArtifact lib server.storageDir put.hash put.bytes := by
  have hall : ∀ req ∈ requests, ∃ put : ArtifactPut,
      server.program lib req = putArtifact lib server.storageDir put.hash put.bytes := by
    intro req hmem
    obtain ⟨hash, data, token, rfl⟩ := hputs req hmem
    rcases server.program_putArtifact_cases hash data token with ⟨error, hrefused⟩ | ⟨bytes, hstores⟩
    · -- a request that was refused has not succeeded
      obtain ⟨i, hi⟩ := List.mem_iff_getElem?.mp hmem
      have hstart : (server.startAll lib requests).programs[i]? =
          some (.done (.putArtifactResult hash false (some error))) := by
        rw [startAll, List.getElem?_map, hi, Option.map_some, hrefused]
      obtain ⟨_, hvalue⟩ := hsuccess _ (List.mem_of_getElem? (Interleaved.done_of_exec hrun hstart))
      cases hvalue
    · exact ⟨⟨hash, bytes⟩, hstores⟩
  clear hputs hrun
  induction requests with
  | nil => exact ⟨[], rfl⟩
  | cons req requests ih =>
    obtain ⟨put, hput⟩ := hall req List.mem_cons_self
    obtain ⟨puts, hrest⟩ := ih fun req hmem => hall req (List.mem_cons_of_mem _ hmem)
    exact ⟨put :: puts, by rw [List.map_cons, List.map_cons, hput, hrest]⟩

/-- A history of one request. -/
theorem noStaleWrite_alone (n : ℕ) : NoStaleWrite (List.replicate n 0) := by
  rintro history i hinitial ⟨hcount, j, ⟨earlier, hearlier, hi, hj⟩, hwrote⟩
  have hzero : ∀ k, 0 < history.count k → k = 0 := by
    intro k hk
    have hmem := hinitial.subset (List.mem_append_left [i] (List.count_pos_iff.mp hk))
    exact List.eq_of_mem_replicate hmem
  have hsame := (hzero i (by omega)).trans (hzero j (by omega)).symm
  subst hsame
  omega

end RemoteCacheServer

end Forge.RemoteCache
