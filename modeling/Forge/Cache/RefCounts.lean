import Forge.Cache.Pruned
import Mathlib.Data.List.TakeWhile

/-!
# Objects and the records that refer to them

A hash of digits is the name of one file of the objects. While every hash is one, removing a record
takes at most this file along, and no record; so the counts that pruning keeps are the numbers of records
that are there.
-/

namespace Forge.Cache

open Forge.Common

variable {host : Host}

/-! ## The objects of hashes -/

/-- A hash of 64 hexadecimal digits. -/
structure IsHexHash (hash : String) : Prop where
  length : hash.toList.length = 64
  digits : ∀ c ∈ hash.toList, c.isDigit = true ∨ 'a' ≤ c ∧ c ≤ 'f' ∨ 'A' ≤ c ∧ c ≤ 'F'

/-- Whether a hash has digits only is decidable. -/
instance (hash : String) : Decidable (IsHexHash hash) :=
  have : Decidable (∀ c ∈ hash.toList, c.isDigit = true ∨ 'a' ≤ c ∧ c ≤ 'f' ∨ 'A' ≤ c ∧ c ≤ 'F') :=
    List.decidableBAll _ _
  decidable_of_iff (hash.toList.length = 64 ∧
      ∀ c ∈ hash.toList, c.isDigit = true ∨ 'a' ≤ c ∧ c ≤ 'f' ∨ 'A' ≤ c ∧ c ≤ 'F')
    ⟨fun h => ⟨h.1, h.2⟩, fun h => ⟨h.length, h.digits⟩⟩

/-- The file of an object. -/
def Host.objectFile (host : Host) (hash : String) : HostPath := host.dirPath .objects ++ [hash]

namespace IsHexHash

variable {hash : String}

/-- Other characters are not in a hash. -/
theorem notMem (hhex : IsHexHash hash) {c : Char}
    (hc : ¬ (c.isDigit = true ∨ 'a' ≤ c ∧ c ≤ 'f' ∨ 'A' ≤ c ∧ c ≤ 'F')) : c ∉ hash.toList :=
  fun h => hc (hhex.digits c h)

/-- A hash is the name of a file. -/
theorem plain (hhex : IsHexHash hash) : Plain hash := by
  refine ⟨hhex.notMem (by decide), ?_⟩
  have hne : ∀ piece : List Char, piece.length ≠ 64 → hash.toList ≠ piece :=
    fun piece hlength h => hlength (h ▸ hhex.length)
  rw [pieceComponent, if_neg, if_neg (hne _ (by decide)), String.ofList_toList]
  intro h
  rcases h with h | h
  · exact hne _ (by decide) h
  · exact hne _ (by decide) h

/-- The name of an object is its hash. -/
theorem fileName_eq (hhex : IsHexHash hash) : fileName (objectPath hash).name = hash := by
  have hall : hash.toList.reverse.takeWhile (· ≠ '/') = hash.toList.reverse :=
    List.takeWhile_eq_self_iff.mpr fun c hc =>
      decide_eq_true fun h => hhex.plain.noSlash (h ▸ List.mem_reverse.mp hc)
  rw [objectPath, fileName, hall, List.reverse_reverse, String.ofList_toList]

/-- An object is not temporary. -/
theorem not_isTmp (hhex : IsHexHash hash) : isTmp (objectPath hash) = false := by
  have hnothing : hash.toList.reverse.dropWhile (· ≠ '.') = [] :=
    List.dropWhile_eq_nil_iff.mpr fun c hc =>
      decide_eq_true fun h => hhex.notMem (by decide) (h ▸ List.mem_reverse.mp hc)
  have hextension : extension (objectPath hash).name = none := by
    rw [extension, hhex.fileName_eq, hnothing]
    exact if_pos rfl
  rw [isTmp, hextension]
  exact decide_eq_false fun h => by cases h

end IsHexHash

/-- The text of one name is the name. -/
theorem Host.namesText_singleton (name : String) : Host.namesText [name] = name := by
  rw [Host.namesText, List.map_cons, List.map_nil, List.intercalate_singleton, String.ofList_toList]

/-- An object is listed under its path. -/
theorem below_objectFile (hash : String) : host.below .objects (host.objectFile hash) = some (objectPath hash) :=
  Host.below_eq_some_iff.mpr ⟨[hash], List.cons_ne_nil _ _, rfl, by rw [Host.namesText_singleton, objectPath]⟩

/-- Two objects are two files. -/
theorem objectFile_inj {hash other : String} : host.objectFile hash = host.objectFile other ↔ hash = other := by
  constructor
  · intro h
    exact (List.cons.inj (List.append_cancel_left h)).1
  · rintro rfl
    rfl

/-- No file is below both directories. -/
theorem below_fingerprints_of_objects {file : HostPath} {path : CachePath} (hbelow : host.below .objects file = some path) :
    host.below .fingerprints file = none := by
  obtain ⟨names, _, rfl, _⟩ := Host.below_eq_some_iff.mp hbelow
  rw [Option.eq_none_iff_forall_ne_some]
  intro other hother
  obtain ⟨names', _, hsame, _⟩ := Host.below_eq_some_iff.mp hother
  rw [Host.dirPath, Host.dirPath, List.append_assoc, List.append_assoc] at hsame
  exact absurd (List.cons.inj (List.append_cancel_left hsame)).1 (by decide)

/-- The path of a hash leads to its object. -/
theorem IsHexHash.fileAt_eq_some_iff {hash : String} (hhex : IsHexHash hash) {disk : HostDisk host} {file : HostPath} :
    disk.fileAt (objectPath hash) = some file ↔ file = host.objectFile hash ∧ file ∈ disk.files := by
  constructor
  · intro h
    obtain ⟨hresolve, hmem⟩ := HostDisk.fileAt_eq_some_iff.mp h
    refine ⟨?_, hmem⟩
    have hnul : '\x00' ∉ hash.toList := hhex.notMem (by decide)
    have hsplit : hash.toList.splitOn '/' = [hash.toList] := List.splitOn_eq_singleton hhex.plain.noSlash
    rw [Host.resolve, objectPath, if_neg hnul, hhex.plain.not_absolute, if_neg Bool.false_ne_true, hsplit,
      List.foldlM_cons, Host.enter] at hresolve
    split at hresolve
    · rw [hhex.plain.part] at hresolve
      exact (Option.some.inj hresolve).symm
    · cases hresolve
  · rintro ⟨rfl, hmem⟩
    exact HostDisk.fileAt_of_below hmem (below_objectFile hash)

/-! ## The records that refer to an object -/

/-- The record in a file. -/
def Host.recordIn (host : Host) (codec : RecordCodec) (file : HostPath) (bytes : Bytes) : Option CacheRecord :=
  (host.below .fingerprints file).bind fun path => recordOf codec path bytes

/-- The number of records that refer to an object. -/
def HostDisk.refs (codec : RecordCodec) (disk : HostDisk host) (hash : String) : ℕ :=
  disk.total fun file bytes =>
    (host.recordIn codec file bytes).elim 0 fun record => if record.artifactHash = some hash then 1 else 0

variable {codec : RecordCodec}

/-- A file that is a record has it. -/
theorem RecordAt.recordIn {disk : HostDisk host} {record : CacheRecord} {file : HostPath} {bytes : Bytes}
    (hrecord : RecordAt codec disk record file bytes) : host.recordIn codec file bytes = some record := by
  rw [Host.recordIn, hrecord.below, Option.bind_some, hrecord.read]

/-- An object is no record. -/
theorem recordIn_of_objects {file : HostPath} {path : CachePath} (hbelow : host.below .objects file = some path)
    (bytes : Bytes) : host.recordIn codec file bytes = none := by
  rw [Host.recordIn, below_fingerprints_of_objects hbelow, Option.bind_none]

/-- A sum over those that have a value. -/
theorem sum_map_filterMap {α β : Type} (l : List α) (g : α → Option β) (f : β → ℕ) :
    ((l.filterMap g).map f).sum = (l.map fun a => (g a).elim 0 f).sum := by
  induction l with
  | nil => rfl
  | cons a l ih =>
    cases ha : g a with
    | none => rw [List.filterMap_cons_none ha, List.map_cons, List.sum_cons, ha, Option.elim_none, Nat.zero_add, ih]
    | some b =>
      rw [List.filterMap_cons_some ha, List.map_cons, List.map_cons, List.sum_cons, List.sum_cons, ha,
        Option.elim_some, ih]

/-- A sum over the records is a sum over the files. -/
theorem HostDisk.sum_records (order : WalkOrder host) (disk : HostDisk host) (f : CacheRecord → ℕ) :
    (((disk.view order).records codec).map f).sum =
      disk.total fun file bytes => (host.recordIn codec file bytes).elim 0 f := by
  have hperm : ((disk.view order).records codec).Perm ((disk.listing .fingerprints).filterMap
      ((disk.view order).recordIn codec)) :=
    (order.perm disk .fingerprints).filterMap _
  rw [(hperm.map f).sum_eq, listing, List.filterMap_filterMap, sum_map_filterMap, total]
  refine congrArg List.sum (List.map_congr_left fun file hfile => ?_)
  obtain ⟨bytes, hbytes⟩ := Option.isSome_iff_exists.mp (AList.lookup_isSome.mpr (AList.mem_keys.mpr hfile))
  rw [hbytes, Option.elim_some, Host.recordIn]
  cases hbelow : host.below .fingerprints file with
  | none => rw [Option.bind_none, Option.bind_none]
  | some path =>
    have hcontents : (disk.view order).contents path = some bytes := by
      change disk.contents path = _
      rw [contents, fileAt_of_below (AList.mem_keys.mpr hfile) hbelow, Option.bind_some, hbytes]
    rw [Option.bind_some, Option.bind_some, DiskView.recordIn_eq, hcontents, Option.bind_some]

/-- The count of an object is the number of records that refer to it. -/
theorem HostDisk.lookup_countRefs_records (order : WalkOrder host) (disk : HostDisk host) (hash : String) :
    ((countRefs ((disk.view order).records codec)).lookup hash).getD 0 = disk.refs codec hash := by
  rw [lookup_countRefs, refs, ← sum_records order]
  induction (disk.view order).records codec with
  | nil => rfl
  | cons record found ih =>
    rw [List.countP_cons, ih, List.map_cons, List.sum_cons, Nat.add_comm]
    simp only [decide_eq_true_eq]

/-- The record in a file refers to an object. The file is listed as a record, or has the name of one. -/
structure Refers (codec : RecordCodec) (disk : HostDisk host) (path : CachePath) (hash : String) : Prop where
  kind : extension path.name = some "json" ∨ ∃ key, path = recordPath key
  reads : ∃ file bytes record, host.below .fingerprints file = some path ∧ disk.files.lookup file = some bytes ∧
    codec.fromSlice bytes = some record ∧ record.artifactHash = some hash

/-- All hashes in records have digits only. -/
def HexHashes (codec : RecordCodec) (disk : HostDisk host) : Prop :=
  ∀ path hash, Refers codec disk path hash → IsHexHash hash

/-- Only what is in files has to be looked at. -/
theorem hexHashes_of_files {disk : HostDisk host} (hfiles : ∀ file ∈ disk.files.keys, ∀ hash ∈ (disk.files.lookup file).bind
    fun bytes => (codec.fromSlice bytes).bind FingerprintRecord.artifactHash, IsHexHash hash) : HexHashes codec disk := by
  intro path hash hrefers
  obtain ⟨file, bytes, found, _, hbytes, hfound, hhash⟩ := hrefers.reads
  refine hfiles file (AList.mem_keys.mp (AList.lookup_isSome.mp (Option.isSome_of_eq_some hbytes))) hash ?_
  rw [hbytes, Option.bind_some, hfound, Option.bind_some]
  exact hhash

/-- A record that is listed refers to its object. -/
theorem RecordAt.refers {disk : HostDisk host} {record : CacheRecord} {file : HostPath} {bytes : Bytes} {hash : String}
    (hrecord : RecordAt codec disk record file bytes) (hhash : record.artifactHash = some hash) :
    Refers codec disk record.path hash := by
  have hread := hrecord.read
  rw [recordOf, if_pos (recordOf_eq_some hrecord.read).1] at hread
  obtain ⟨found, hfound, hsame⟩ := Option.map_eq_some_iff.mp hread
  exact ⟨Or.inl (recordOf_eq_some hrecord.read).1, file, bytes, found, hrecord.below, hrecord.holds, hfound,
    (congrArg CacheRecord.artifactHash hsame).trans hhash⟩

/-- The hash of a record that is listed has digits only. -/
theorem HexHashes.ofRecord {disk : HostDisk host} (hhex : HexHashes codec disk) {record : CacheRecord}
    (hrecord : ∃ file bytes, RecordAt codec disk record file bytes) :
    ∀ hash, record.artifactHash = some hash → IsHexHash hash := by
  intro hash hhash
  obtain ⟨file, bytes, hrecord⟩ := hrecord
  exact hhex _ _ (hrecord.refers hhash)

/-- Removing a record takes it off the numbers. -/
theorem RecordAt.refs_erase {disk : HostDisk host} {record : CacheRecord} {file : HostPath} {bytes : Bytes}
    (hrecord : RecordAt codec disk record file bytes) (hash : String) :
    (disk.erase file).refs codec hash + (if record.artifactHash = some hash then 1 else 0) = disk.refs codec hash := by
  have htotal := HostDisk.total_erase (fun file bytes => (host.recordIn codec file bytes).elim 0
    fun record => if record.artifactHash = some hash then 1 else 0) hrecord.holds
  rwa [hrecord.recordIn] at htotal

/-- Removing another file leaves the numbers. -/
theorem HostDisk.refs_erase_of_none {disk : HostDisk host} {file : HostPath} {bytes : Bytes}
    (hbytes : disk.files.lookup file = some bytes) (hnone : host.recordIn codec file bytes = none) (hash : String) :
    (disk.erase file).refs codec hash = disk.refs codec hash := by
  have htotal := HostDisk.total_erase (fun file bytes => (host.recordIn codec file bytes).elim 0
    fun record => if record.artifactHash = some hash then 1 else 0) hbytes
  rwa [hnone] at htotal

/-- A count is one less after a record was removed that refers to the object. -/
theorem PruneState.lookup_dropped (st : PruneState) (record : CacheRecord) (objects : ℕ) (hash : String) :
    ((st.dropped record objects).refCounts.lookup hash).getD 0 =
      (st.refCounts.lookup hash).getD 0 - (if record.artifactHash = some hash then 1 else 0) := by
  rw [PruneState.dropped]
  cases hrecord : record.artifactHash with
  | none => rw [if_neg (Option.some_ne_none hash).symm, Nat.sub_zero]
  | some other =>
    dsimp only
    by_cases hother : hash = other
    · subst hother
      rw [if_pos rfl]
      split
      · rw [AList.lookup_insert, Option.getD_some]
      · omega
    · rw [if_neg fun h => hother (Option.some.inj h).symm, Nat.sub_zero]
      split
      · rw [AList.lookup_insert_ne hother]
      · rfl

namespace PruneRun

/-- The counts are the numbers of records that are there. -/
def Exact (codec : RecordCodec) (s : PruneRun host) : Prop :=
  ∀ hash, (s.st.refCounts.lookup hash).getD 0 = s.disk.refs codec hash

/-- What is removed with a record is its object, and no other record is counted for it. -/
theorem cascadeFile_hex {disk : HostDisk host} {st : PruneState} {record : CacheRecord} {object : HostPath}
    (hhex : ∀ hash, record.artifactHash = some hash → IsHexHash hash)
    (hcascade : cascadeFile disk st record = some object) :
    ∃ hash, record.artifactHash = some hash ∧ (st.refCounts.lookup hash).getD 0 ≤ 1 ∧
      objectPath hash ∉ st.removed ∧ object = host.objectFile hash := by
  obtain ⟨hash, hhash, hcount, hremoved, hobject⟩ := cascadeFile_eq_some hcascade
  exact ⟨hash, hhash, hcount, hremoved, ((hhex hash hhash).fileAt_eq_some_iff.mp hobject).1⟩

/-- Removing a record keeps the counts exact. -/
theorem Dropped.exact {s t : PruneRun host} {record : CacheRecord} {disk : HostDisk host}
    (hwithin : s.disk.Within disk) (hmay : ∃ file bytes, RecordAt codec disk record file bytes)
    (hhex : ∀ hash, record.artifactHash = some hash → IsHexHash hash) (hexact : s.Exact codec)
    (hdropped : Dropped s record t) : t.Exact codec := by
  obtain ⟨listed, bytes, hrecord⟩ := hmay
  cases hdropped with
  | gone => exact hexact
  | alone hfile =>
    intro hash
    rw [PruneState.lookup_dropped, hexact, ← (hrecord.of_fileAt hwithin hfile).refs_erase hash, Nat.add_sub_cancel]
  | @cascaded file object bytes' hfile hcascade hbytes =>
    obtain ⟨other, _, _, _, rfl⟩ := cascadeFile_hex hhex hcascade
    intro hash
    rw [PruneState.lookup_dropped, hexact, ← (hrecord.of_fileAt hwithin hfile).refs_erase hash, Nat.add_sub_cancel,
      HostDisk.refs_erase_of_none hbytes (recordIn_of_objects (below_objectFile other) _)]

/-- Taking a file that is no record keeps the counts exact. -/
theorem Exact.take {s : PruneRun host} (hexact : s.Exact codec) {path : CachePath} {file : HostPath} {bytes : Bytes}
    (htakes : s.Takes path file bytes) (hnone : host.recordIn codec file bytes = none) (objects size : ℕ) :
    (s.take path file objects size).Exact codec := fun hash =>
  (hexact hash).trans (HostDisk.refs_erase_of_none htakes.holds hnone hash).symm

variable (order : WalkOrder host) (now ageSecs limit : ℕ)

/-- Counting makes the counts exact. -/
theorem exact_recount (s : PruneRun host) : (s.recount order codec).Exact codec :=
  fun hash => HostDisk.lookup_countRefs_records order s.disk hash

/-- A file that is swept, cleaned up or evicted is no record. -/
theorem recordIn_of_takes {s : PruneRun host} {disk : HostDisk host} (hwithin : s.disk.Within disk) {dir : CacheDir}
    {path : CachePath} {file : HostPath} {bytes : Bytes} (hlisted : ∃ listed ∈ disk.files, host.below dir listed = some path)
    (hkind : dir = .objects ∨ isTmp path = true) (htakes : s.Takes path file bytes) :
    host.recordIn codec file bytes = none := by
  obtain ⟨listed, hmem, hbelow⟩ := hlisted
  obtain rfl := hwithin.eq_of_below hmem hbelow htakes.found
  cases dir with
  | objects => exact recordIn_of_objects hbelow bytes
  | fingerprints =>
    have htmp := hkind.resolve_left fun h => by cases h
    have hextension : extension path.name = some "tmp" := of_decide_eq_true htmp
    rw [Host.recordIn, hbelow, Option.bind_some, recordOf, hextension, if_neg (by decide)]

/-- A step keeps the counts exact. -/
theorem step_exact {disk : HostDisk host} (hhex : HexHashes codec disk) {s : PruneRun host}
    (hwithin : s.disk.Within disk) {e : PruneStep} (hmay : May codec disk e) (hexact : s.Exact codec) :
    (s.step order codec now ageSecs limit e).Exact codec := by
  cases e with
  | drop record => exact (dropped_dropRecord order record s).exact hwithin hmay (hhex.ofRecord hmay) hexact
  | sweep path =>
    rcases sweepFile_cases order now ageSecs path s with ⟨_, hsame⟩ | ⟨file, bytes, htakes, _, htake⟩
    · rw [step, hsame]
      exact hexact
    · rw [step, htake]
      exact hexact.take htakes (recordIn_of_takes hwithin hmay (Or.inl rfl) htakes) _ _
  | cleanup path =>
    rcases cleanupFile_cases order now ageSecs path s with hsame | ⟨file, bytes, htakes, htmp, htake⟩
    · rw [step, hsame]
      exact hexact
    · rw [step, htake]
      exact hexact.take htakes (recordIn_of_takes hwithin hmay (Or.inr htmp) htakes) _ _
  | recount => exact exact_recount order s
  | shrink record =>
    rw [step]
    split
    · exact hexact
    · exact (dropped_dropRecord order record s).exact hwithin hmay (hhex.ofRecord hmay) hexact
  | evict path =>
    rw [step]
    split
    · exact hexact
    · rcases evictFile_cases path s with ⟨_, hsame⟩ | ⟨file, bytes, htakes, htake⟩
      · rw [hsame]
        exact hexact
      · rw [htake]
        exact hexact.take htakes (recordIn_of_takes hwithin hmay (Or.inl rfl) htakes) _ _

end PruneRun

end Forge.Cache
