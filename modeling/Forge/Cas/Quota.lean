import Forge.Cas.StoredFiles
import Mathlib.Algebra.BigOperators.Group.Finset.Basic
import Mathlib.Algebra.Order.BigOperators.Group.Finset

/-!
# The quota of a storage

Storing an artifact is two steps for a storage with a quota: it asks the store how many bytes
there are, and then stores the artifact. Other calls can store artifacts in between. The quota
is kept as long as every artifact still fits when it is stored.
-/

namespace Forge.Cas

open Forge.Common

/-- A storage. A quota of zero is none. -/
structure CasStorage where
  backend : LocalCasBackend
  maxSizeBytes : UInt64
  deriving DecidableEq, Repr

/-- What a storage asks of its store. -/
inductive StorageOp where
  | stats
  | store (artifact : Artifact) (io : StoreIo)

/-- What it gets. -/
abbrev StorageOp.Response : StorageOp → Type
  | .stats => CasStats
  | .store _ _ => Except CasError Unit

/-- Programs that use a store and can fail. -/
abbrev StorageM := ExceptT CasError (Program StorageOp StorageOp.Response)

/-- The state of several calls and the store they share. -/
abbrev StorageRun := Interleaved StorageOp StorageOp.Response (Except CasError Unit) CasFiles

/-- A sum that stays at the largest number. -/
def saturatingAdd (a b : UInt64) : UInt64 :=
  if a.toNat + b.toNat < 2 ^ 64 then a + b else .ofNat (2 ^ 64 - 1)

namespace CasStorage

/-- There is room for an artifact in a store with so many bytes. -/
def Fits (storage : CasStorage) (stats : CasStats) (artifact : Artifact) : Prop :=
  saturatingAdd stats.totalBytes artifact.metadata.size ≤ storage.maxSizeBytes

instance (storage : CasStorage) (stats : CasStats) (artifact : Artifact) :
    Decidable (storage.Fits stats artifact) := inferInstanceAs (Decidable (_ ≤ _))

/-- Store an artifact if there is room for it. -/
def store (storage : CasStorage) (artifact : Artifact) (io : StoreIo) : StorageM Unit := do
  if 0 < storage.maxSizeBytes then
    let stats ← ExceptT.lift (Program.perform StorageOp.stats)
    if ¬ storage.Fits stats artifact then
      throw (.quotaExceeded ("Storage quota exceeded: " ++ toString stats.totalBytes.toNat ++ " + " ++
        toString artifact.metadata.size.toNat ++ " > " ++ toString storage.maxSizeBytes.toNat))
  ExceptT.mk (Program.perform (StorageOp.store artifact io))

/-- With a quota, a call asks first, and then stores the artifact or fails. -/
theorem store_eq {storage : CasStorage} (hquota : 0 < storage.maxSizeBytes) (artifact : Artifact)
    (io : StoreIo) :
    storage.store artifact io = Program.next StorageOp.stats fun stats =>
      if storage.Fits stats artifact then Program.perform (StorageOp.store artifact io)
      else Program.done (.error (.quotaExceeded ("Storage quota exceeded: " ++
        toString stats.totalBytes.toNat ++ " + " ++ toString artifact.metadata.size.toNat ++ " > " ++
          toString storage.maxSizeBytes.toNat))) := by
  rw [store, if_pos hquota]
  refine congrArg (Program.next StorageOp.stats) (funext fun stats => ?_)
  change (if ¬ storage.Fits stats artifact then _ else _) = _
  by_cases hfits : storage.Fits stats artifact
  · rw [if_pos hfits, if_neg (not_not_intro hfits)]
    rfl
  · rw [if_neg hfits, if_pos hfits]
    rfl

end CasStorage

/-! ## Bytes in the store -/

/-- A sum over a list that one element joined, or whose summand changed, while the others did not
grow. -/
theorem sum_map_le_add {α : Type*} [DecidableEq α] {l l' : List α} (hl : l.Nodup) (hl' : l'.Nodup)
    {f f' : α → ℕ} {a : α} {n : ℕ} (hother : ∀ x ∈ l', x ≠ a → x ∈ l ∧ f' x ≤ f x)
    (ha : f' a ≤ n ∨ (a ∈ l ∧ f' a ≤ f a)) : (l'.map f').sum ≤ (l.map f).sum + n := by
  rw [← List.sum_toFinset f' hl', ← List.sum_toFinset f hl]
  have hrest : (l'.toFinset.erase a).sum f' ≤ (l.toFinset.erase a).sum f := by
    refine (Finset.sum_le_sum fun x hx => ?_).trans (Finset.sum_le_sum_of_subset fun x hx => ?_)
    · exact (hother x (List.mem_toFinset.mp (Finset.mem_of_mem_erase hx)) (Finset.ne_of_mem_erase hx)).2
    · rw [Finset.mem_erase, List.mem_toFinset]
      exact ⟨Finset.ne_of_mem_erase hx,
        (hother x (List.mem_toFinset.mp (Finset.mem_of_mem_erase hx)) (Finset.ne_of_mem_erase hx)).1⟩
  have hsplit : l'.toFinset.sum f' ≤ (l'.toFinset.erase a).sum f' + f' a := by
    by_cases hmem : a ∈ l'.toFinset
    · rw [Finset.sum_erase_add _ _ hmem]
    · rw [Finset.erase_eq_of_notMem hmem]
      exact Nat.le_add_right _ _
  rcases ha with ha | ⟨hmem, ha⟩
  · have hsubset : (l.toFinset.erase a).sum f ≤ l.toFinset.sum f :=
      Finset.sum_le_sum_of_subset (Finset.erase_subset a l.toFinset)
    omega
  · have hwhole : (l.toFinset.erase a).sum f + f a = l.toFinset.sum f :=
      Finset.sum_erase_add l.toFinset f (List.mem_toFinset.mpr hmem)
    omega

namespace LocalCasBackend

variable (readDir : ReadDir) (blake3 : Bytes → ArtifactHash) (zstd : Zstd) (codec : MetadataCodec)

/-- The number of bytes in the store. -/
def totalSize (files : CasFiles) : ℕ := ((list readDir files).map (storedSize codec files)).sum

/-- Storing an artifact adds at most its size. -/
theorem totalSize_store_le {files : CasFiles} (hnamed : WellNamed files) (hpaired : Paired files)
    (b : LocalCasBackend) (artifact : Artifact) (io : StoreIo) :
    totalSize readDir codec (b.store blake3 zstd codec files artifact io).2 ≤
      totalSize readDir codec files + artifact.metadata.size.toNat := by
  cases hprepare : prepare blake3 zstd b artifact io.createDir with
  | error e =>
    rw [store_of_error blake3 zstd codec hprepare]
    exact Nat.le_add_right _ _
  | ok prepared =>
    obtain ⟨dataPath, metadataPath, dataToStore, metadata⟩ := prepared
    obtain ⟨_, hvalid, _, hencode, _⟩ := (prepare_ok_iff blake3 zstd _ _ _ _).mp hprepare
    have hnamed' := hnamed.store blake3 zstd codec b artifact io
    refine sum_map_le_add (a := artifact.hash) (list_nodup readDir hnamed) (list_nodup readDir hnamed') ?_ ?_
    · intro hash hmem hne
      obtain ⟨hvalid', hdata⟩ := (mem_list_iff readDir hnamed' hash).mp hmem
      have hsame : ∀ file : CasFile,
          (b.store blake3 zstd codec files artifact io).2.lookup (file.path hash) =
            files.lookup (file.path hash) := by
        intro file
        rw [store_lookup blake3 zstd codec hprepare files hvalid' file, if_neg fun h => hne h.1,
          if_neg fun h => hne h.1]
      refine ⟨(mem_list_iff readDir hnamed hash).mpr ⟨hvalid', ?_⟩, ?_⟩
      · rw [← AList.lookup_isSome] at hdata ⊢
        exact (congrArg Option.isSome (hsame .data)).symm.trans hdata
      · rw [storedSize, storedSize, healthy_congr codec hsame]
    · have hdata := store_lookup blake3 zstd codec hprepare files hvalid .data
      have hmetadata := store_lookup blake3 zstd codec hprepare files hvalid .metadata
      rw [if_neg (fun h => by cases h.2.2)] at hmetadata
      by_cases hdone : io.data = none ∧ io.metadata = none
      · rw [if_pos ⟨rfl, hdone.1, rfl, hdone.2⟩] at hmetadata
        left
        rw [← (encode_ok zstd hencode).2]
        exact storedSize_le codec hmetadata (codec.fromSlice_toVec metadata)
      · rw [if_neg fun h => hdone ⟨h.2.1, h.2.2.2⟩] at hmetadata
        cases hold : files.lookup (metadataFile artifact.hash) with
        | none =>
          left
          rw [storedSize_of_none codec (hmetadata.trans hold)]
          exact Nat.zero_le _
        | some json =>
          have hpresent := hpaired artifact.hash hvalid
            (AList.lookup_isSome.mp (Option.isSome_of_eq_some hold))
          obtain ⟨data, holdData⟩ := Option.isSome_iff_exists.mp (AList.lookup_isSome.mpr hpresent)
          obtain ⟨data', hdata'⟩ : ∃ data',
              (b.store blake3 zstd codec files artifact io).2.lookup (dataFile artifact.hash) =
                some data' := by
            refine ⟨if io.data = none then dataToStore else data, hdata.trans ?_⟩
            by_cases hfault : io.data = none
            · rw [if_pos ⟨rfl, hfault, rfl⟩, if_pos hfault]
            · rw [if_neg fun h => hfault h.2.1, if_neg fun h => hfault h.2.1, if_neg hfault]
              exact holdData
          right
          refine ⟨(mem_list_iff readDir hnamed _).mpr ⟨hvalid, hpresent⟩, ?_⟩
          rw [storedSize_of_lookup codec hdata' (hmetadata.trans hold),
            storedSize_of_lookup codec holdData hold]

/-- Storing an artifact whose data is not there yet adds its size. -/
theorem totalSize_store_of_new {files : CasFiles} (hnamed : WellNamed files) {b : LocalCasBackend}
    {artifact : Artifact} {io : StoreIo} (hok : (b.store blake3 zstd codec files artifact io).1 = .ok ())
    (hnew : dataFile artifact.hash ∉ files) :
    totalSize readDir codec (b.store blake3 zstd codec files artifact io).2 =
      totalSize readDir codec files + artifact.metadata.size.toNat := by
  obtain ⟨⟨hhash, hvalid, ⟨dataToStore, metadata⟩, hencode⟩, hdir, hdataFault, hmetadataFault⟩ :=
    (store_fst_ok_iff blake3 zstd codec b files artifact io).mp hok
  have hprepare := (prepare_ok_iff blake3 zstd b artifact io.createDir (dataFile artifact.hash,
    metadataFile artifact.hash, dataToStore, metadata)).mpr ⟨hhash, hvalid, hdir, hencode, rfl, rfl⟩
  have hnamed' := hnamed.store blake3 zstd codec b artifact io
  have hother : ∀ hash : ArtifactHash, validateHash hash.str = .ok () → hash ≠ artifact.hash →
      ∀ file : CasFile, (b.store blake3 zstd codec files artifact io).2.lookup (file.path hash) =
        files.lookup (file.path hash) := by
    intro hash hvalid' hne file
    rw [store_lookup blake3 zstd codec hprepare files hvalid' file, if_neg fun h => hne h.1,
      if_neg fun h => hne h.1]
  have hdata : (b.store blake3 zstd codec files artifact io).2.lookup (dataFile artifact.hash) =
      some dataToStore :=
    (store_lookup blake3 zstd codec hprepare files hvalid .data).trans (if_pos ⟨rfl, hdataFault, rfl⟩)
  have hmetadata : (b.store blake3 zstd codec files artifact io).2.lookup (metadataFile artifact.hash) =
      some (codec.toVec metadata) :=
    (store_lookup blake3 zstd codec hprepare files hvalid .metadata).trans
      ((if_neg fun h => by cases h.2.2).trans (if_pos ⟨rfl, hdataFault, rfl, hmetadataFault⟩))
  have hsize : storedSize codec (b.store blake3 zstd codec files artifact io).2 artifact.hash =
      artifact.metadata.size.toNat := by
    rw [storedSize_of_lookup codec hdata hmetadata, codec.fromSlice_toVec]
    dsimp only
    rw [if_pos (encode_ok zstd hencode).1, (encode_ok zstd hencode).2]
  have hmem : ∀ hash, hash ∈ list readDir (b.store blake3 zstd codec files artifact io).2 ↔
      hash ∈ artifact.hash :: list readDir files := by
    intro hash
    rw [List.mem_cons, mem_list_iff readDir hnamed', mem_list_iff readDir hnamed]
    by_cases heq : hash = artifact.hash
    · subst heq
      exact iff_of_true ⟨hvalid, AList.lookup_isSome.mp (Option.isSome_of_eq_some hdata)⟩ (Or.inl rfl)
    · rw [or_iff_right heq]
      refine and_congr_right fun hvalid' => ?_
      rw [← AList.lookup_isSome, ← AList.lookup_isSome]
      exact iff_of_eq (congrArg (·.isSome = true) (hother hash hvalid' heq .data))
  have hperm : (list readDir (b.store blake3 zstd codec files artifact io).2).Perm
      (artifact.hash :: list readDir files) :=
    (List.perm_ext_iff_of_nodup (list_nodup readDir hnamed') (List.nodup_cons.mpr
      ⟨fun h => hnew ((mem_list_iff readDir hnamed _).mp h).2, list_nodup readDir hnamed⟩)).mpr hmem
  have hsame : (list readDir files).map (storedSize codec (b.store blake3 zstd codec files artifact io).2) =
      (list readDir files).map (storedSize codec files) := by
    refine List.map_congr_left fun hash hlisted => ?_
    obtain ⟨hvalid', hpresent⟩ := (mem_list_iff readDir hnamed hash).mp hlisted
    have hne : hash ≠ artifact.hash := fun heq => hnew (heq ▸ hpresent)
    rw [storedSize, storedSize, healthy_congr codec (hother hash hvalid' hne)]
  rw [totalSize, (hperm.map _).sum_eq, List.map_cons, List.sum_cons, hsize, hsame, Nat.add_comm]
  rfl

end LocalCasBackend

/-! ## Calls of a storage -/

section Calls

variable (readDir : ReadDir) (blake3 : Bytes → ArtifactHash) (zstd : Zstd) (codec : MetadataCodec)
  (storage : CasStorage)

/-- What the store answers, and what that does to it. -/
def StorageOp.perform : (op : StorageOp) → CasFiles → op.Response × CasFiles
  | .stats, files => (LocalCasBackend.stats readDir codec files, files)
  | .store artifact io, files => storage.backend.store blake3 zstd codec files artifact io

/-- Calls that have not done anything. -/
def CasStorage.start (files : CasFiles) (calls : List (Artifact × StoreIo)) : StorageRun :=
  ⟨files, calls.map fun call => storage.store call.1 call.2⟩

/-- If a call is about to store an artifact, this still fits. -/
def StillFits (s : StorageRun) (i : ℕ) : Prop :=
  ∀ artifact io rest, s.programs[i]? = some (.next (.store artifact io) rest) →
    storage.Fits (LocalCasBackend.stats readDir codec s.shared) artifact

/-- The files are those of a store, and there are no more bytes than the quota allows. -/
structure WithinQuota (files : CasFiles) : Prop where
  named : WellNamed files
  paired : Paired files
  total : LocalCasBackend.totalSize readDir codec files ≤ storage.maxSizeBytes.toNat

variable {readDir blake3 zstd codec storage}

/-- Within the quota, the store knows how many bytes there are. -/
theorem WithinQuota.totalBytes {files : CasFiles} (hwithin : WithinQuota readDir codec storage files) :
    (LocalCasBackend.stats readDir codec files).totalBytes.toNat =
      LocalCasBackend.totalSize readDir codec files := by
  have htotal := hwithin.total
  have hmax := storage.maxSizeBytes.toNat_lt
  rw [LocalCasBackend.stats_totalBytes]
  exact Nat.mod_eq_of_lt (by rw [LocalCasBackend.totalSize] at htotal; omega)

/-- What fits does not exceed the quota, unless this is the largest number there is. -/
theorem CasStorage.Fits.le {stats : CasStats} {artifact : Artifact} (hfits : storage.Fits stats artifact)
    (hmax : storage.maxSizeBytes.toNat < 2 ^ 64 - 1) :
    stats.totalBytes.toNat + artifact.metadata.size.toNat ≤ storage.maxSizeBytes.toNat := by
  rw [CasStorage.Fits, UInt64.le_iff_toNat_le, saturatingAdd] at hfits
  split at hfits
  · rename_i hsmall
    rwa [UInt64.toNat_add, Nat.mod_eq_of_lt hsmall] at hfits
  · exact absurd hfits (Nat.not_le_of_lt hmax)

/-- Storing what still fits keeps the quota. -/
theorem WithinQuota.step {s t : StorageRun} {i : ℕ} (hmax : storage.maxSizeBytes.toNat < 2 ^ 64 - 1)
    (hwithin : WithinQuota readDir codec storage s.shared)
    (hstep : (interleaving (StorageOp.perform readDir blake3 zstd codec storage)).step s i = some t)
    (hfits : StillFits readDir codec storage s i) : WithinQuota readDir codec storage t.shared := by
  obtain ⟨op, rest, hnext, rfl⟩ := Interleaved.step_eq_some_iff.mp hstep
  cases op with
  | stats => exact hwithin
  | store artifact io =>
    have hroom := (hfits artifact io rest hnext).le hmax
    have hadded := LocalCasBackend.totalSize_store_le readDir blake3 zstd codec hwithin.named
      hwithin.paired storage.backend artifact io
    rw [hwithin.totalBytes] at hroom
    exact ⟨hwithin.named.store blake3 zstd codec storage.backend artifact io,
      hwithin.paired.store blake3 zstd codec storage.backend artifact io, hadded.trans hroom⟩

/-- A call that asked finds that the artifact fits, as long as no other call has stored one. -/
theorem stillFits_of_checked {s t : StorageRun} {i : ℕ} {artifact : Artifact} {io : StoreIo}
    (hquota : 0 < storage.maxSizeBytes) (hstart : s.programs[i]? = some (storage.store artifact io))
    (hstep : (interleaving (StorageOp.perform readDir blake3 zstd codec storage)).step s i = some t) :
    StillFits readDir codec storage t i := by
  obtain ⟨op, rest, hnext, rfl⟩ := Interleaved.step_eq_some_iff.mp hstep
  have hlt := (List.getElem?_eq_some_iff.mp hnext).1
  rw [hstart, CasStorage.store_eq hquota] at hnext
  cases hnext
  intro artifact' io' rest' hafter
  rw [List.getElem?_set_self hlt] at hafter
  dsimp only at hafter
  split at hafter
  · rename_i hfits
    cases hafter
    exact hfits
  · cases hafter

variable (readDir blake3 zstd codec storage)

end Calls

/-! ## A sample -/

/-- Other data. -/
def otherData : Bytes := utf8Bytes "contents"

/-- The hash of the other data. -/
def otherHash : ArtifactHash := ⟨"9a93003c179d7929c7b55c86ae35b8de95eac5690012cdefb7b063d95a625782"⟩

/-- A function with the right hashes of the sample data and of the other data. -/
def pairBlake3 (data : Bytes) : ArtifactHash := if data = otherData then otherHash else sampleBlake3 data

/-- The description of the other data. -/
def otherMetadata : ArtifactMetadata := ⟨otherHash, 8, none, none, 0, none, "binary", "test", []⟩

/-- The other data with its description. -/
def otherArtifact : Artifact := ⟨otherMetadata, otherData, none⟩

/-- The descriptions of both as they are written to files. -/
def pairDescriptions : JsonCodec.Table ArtifactMetadata where
  known :=
    [(sampleMetadata, "\x7b\"hash\":\"" ++ sampleHash.str ++ "\",\"size\":8,\"compressed_size\":null," ++
        "\"compression\":null,\"timestamp\":0,\"last_accessed\":null,\"artifact_type\":\"binary\"," ++
        "\"source\":\"test\",\"tags\":[]\x7d"),
      (otherMetadata, "\x7b\"hash\":\"" ++ otherHash.str ++ "\",\"size\":8,\"compressed_size\":null," ++
        "\"compression\":null,\"timestamp\":0,\"last_accessed\":null,\"artifact_type\":\"binary\"," ++
        "\"source\":\"test\",\"tags\":[]\x7d")]
  texts_nodup := by
    rw [List.map_cons, List.map_cons, List.map_nil, List.nodup_cons, List.mem_singleton]
    refine ⟨fun heq => ?_, List.nodup_singleton _⟩
    -- the texts differ where the hashes begin
    have hchars := congrArg (fun text => (text.toList.drop 9).head?) heq
    simp only [String.toList_append, List.append_assoc] at hchars
    rw [List.drop_append_of_le_length (by decide), List.drop_append_of_le_length (by decide)] at hchars
    revert hchars
    decide +kernel
  nonzero := by
    intro entry hmem
    rcases List.mem_pair.mp hmem with rfl | rfl
    · simp only [String.toList_append, List.append_assoc]
      decide
    · simp only [String.toList_append, List.append_assoc]
      decide

/-- A storage with a quota of twelve bytes. -/
def twelveBytes : CasStorage := ⟨⟨.none⟩, 12⟩

/-- Calls that store both. -/
def pairCalls : List (Artifact × StoreIo) :=
  [(sampleArtifact, ⟨1, none, none, none⟩), (otherArtifact, ⟨1, none, none, none⟩)]

end Forge.Cas
