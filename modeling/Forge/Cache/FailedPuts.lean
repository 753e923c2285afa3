import Forge.Cache.Objects

/-!
# Stores that fail

A store puts its record into memory before it writes a file, and leaves it there when it fails. As
long as the key has a file, lookups prefer what is in memory. So what a store failed to write is seen
afterwards, unless nothing was put into memory, or there is no file, or the record says what was
found before.
-/

namespace Forge.Cache

open Forge.Common

/-- What a cache is asked about a key. -/
inductive CacheQuery where
  | get
  | matchesFingerprint (fingerprint : String)
  | artifactHash
  deriving DecidableEq, Repr

/-- What it answers. -/
inductive CacheAnswer where
  | text (found : Option String)
  | verdict (same : Bool)
  deriving DecidableEq, Repr

/-- A question about a key, and where the file system fails meanwhile. -/
structure CacheRead where
  key : String
  query : CacheQuery
  fault : Option String
  deriving DecidableEq, Repr

/-- What answers use of a record. -/
def viewed (found : Except CacheError (Option FingerprintRecord)) : Option (String × Option String) :=
  found.toOption.join.map fun record => (record.fingerprint, record.artifactHash)

/-- The answer to a question. -/
def CacheQuery.answerOf (view : Option (String × Option String)) : CacheQuery → CacheAnswer
  | .get => .text (view.map Prod.fst)
  | .matchesFingerprint fingerprint => .verdict (decide (view.map Prod.fst = some fingerprint))
  | .artifactHash => .text (view.bind Prod.snd)

namespace LocalCache

section Reads

variable (codec : RecordCodec)

/-- Answer a question. -/
def answer (c : LocalCache) (read : CacheRead) : CacheAnswer × LocalCache :=
  match read.query with
  | .get => ((.text (c.get codec read.key read.fault).1), (c.get codec read.key read.fault).2)
  | .matchesFingerprint fingerprint =>
    (.verdict (c.matchesFingerprint codec read.key fingerprint read.fault).1,
      (c.matchesFingerprint codec read.key fingerprint read.fault).2)
  | .artifactHash => (.text (c.artifactHash codec read.key read.fault).1, (c.artifactHash codec read.key read.fault).2)

/-- Answer questions one after another. -/
def answers (c : LocalCache) : List CacheRead → List CacheAnswer
  | [] => []
  | read :: reads => (c.answer codec read).1 :: answers (c.answer codec read).2 reads

/-- All later questions are answered alike. Reading files may fail in these, or not. -/
def AnswerAlike (mayFail : Bool) (c c' : LocalCache) : Prop :=
  ∀ reads : List CacheRead, (∀ read ∈ reads, mayFail = false → read.fault = none) →
    c'.answers codec reads = c.answers codec reads

/-- A lookup finds a record of a key that has a file: in memory, or in the file if this is read. -/
def Finds (mayFail : Bool) (c : LocalCache) (key : String) (record : FingerprintRecord) : Prop :=
  c.memory.lookup key = some record ∨ (mayFail = false ∧ c.memory.lookup key = none ∧
    ∃ bytes, c.disk.lookup (fingerprintPath key) = some bytes ∧ codec.fromSlice bytes = some record)

/-- The memories hold the same for a key, or one holds what the other cache finds. -/
def FindAlike (mayFail : Bool) (c c' : LocalCache) (key : String) : Prop :=
  c'.memory.lookup key = c.memory.lookup key ∨ ∃ record record', c.Finds codec mayFail key record ∧
    c'.memory.lookup key = some record' ∧ record'.fingerprint = record.fingerprint ∧
    record'.artifactHash = record.artifactHash

/-- Two caches with the same files find the same for all keys that have one. -/
structure Alike (mayFail : Bool) (c c' : LocalCache) : Prop where
  files : ∀ key, c'.disk.lookup (fingerprintPath key) = c.disk.lookup (fingerprintPath key)
  records : ∀ key, (c.disk.lookup (fingerprintPath key)).isSome → FindAlike codec mayFail c c' key

variable {codec}

/-! ## Answers -/

/-- An answer comes from the record that is looked up, and the memory and the files are those after this. -/
theorem answer_eq (c : LocalCache) (read : CacheRead) :
    (c.answer codec read).1 = read.query.answerOf (viewed (c.readRecord codec read.key read.fault).1) ∧
      (c.answer codec read).2.memory = (c.readRecord codec read.key read.fault).2.memory ∧
      (c.answer codec read).2.disk = (c.readRecord codec read.key read.fault).2.disk := by
  have hget : c.get codec read.key read.fault =
      ((viewed (c.readRecord codec read.key read.fault).1).map Prod.fst,
        (c.readRecord codec read.key read.fault).2) := by
    rw [get]
    cases c.readRecord codec read.key read.fault with
    | mk result c' =>
      cases result with
      | error e => rfl
      | ok found => cases found <;> rfl
  rw [answer]
  cases hquery : read.query with
  | get =>
    dsimp only
    rw [hget]
    exact ⟨rfl, rfl, rfl⟩
  | matchesFingerprint fingerprint =>
    refine ⟨congrArg CacheAnswer.verdict ?_, matchesFingerprint_files codec c read.key fingerprint read.fault⟩
    rw [Bool.eq_iff_iff, matchesFingerprint_iff, hget, decide_eq_true_iff]
  | artifactHash =>
    dsimp only
    rw [artifactHash_eq]
    refine ⟨congrArg CacheAnswer.text ?_, rfl, rfl⟩
    rw [viewed]
    cases (c.readRecord codec read.key read.fault).1.toOption.join <;> rfl

/-- What two caches find for a key comes from their memories and the file of the key. -/
theorem FindAlike.congr {mayFail : Bool} {c c' d d' : LocalCache} {key : String}
    (halike : FindAlike codec mayFail c c' key) (hmemory : d.memory.lookup key = c.memory.lookup key)
    (hfile : d.disk.lookup (fingerprintPath key) = c.disk.lookup (fingerprintPath key))
    (hmemory' : d'.memory.lookup key = c'.memory.lookup key) : FindAlike codec mayFail d d' key := by
  rw [FindAlike, hmemory, hmemory']
  refine halike.imp_right fun h => ?_
  obtain ⟨record, record', hfinds, hheld⟩ := h
  refine ⟨record, record', ?_, hheld⟩
  rw [Finds, hmemory, hfile]
  exact hfinds

/-! ## Lookups -/

/-- Nothing is found without a file. -/
theorem readRecord_of_none {c : LocalCache} {key : String} (hfile : c.disk.lookup (fingerprintPath key) = none)
    (fault : Option String) :
    c.readRecord codec key fault = (.ok none, { c with memory := c.memory.erase key }) := by
  rw [readRecord, hfile]

/-- What is in memory is found when there is a file. -/
theorem readRecord_of_held {c : LocalCache} {key : String} {record : FingerprintRecord}
    (hfile : (c.disk.lookup (fingerprintPath key)).isSome) (hheld : c.memory.lookup key = some record)
    (fault : Option String) : c.readRecord codec key fault = (.ok (some record), c) := by
  obtain ⟨bytes, hbytes⟩ := Option.isSome_iff_exists.mp hfile
  rw [readRecord, hbytes, hheld]

/-- What is in the file is found when there is nothing in memory, and is in memory then. -/
theorem readRecord_of_file {c : LocalCache} {key : String} {record : FingerprintRecord} {bytes : Bytes}
    (hfile : c.disk.lookup (fingerprintPath key) = some bytes) (hmemory : c.memory.lookup key = none)
    (hread : codec.fromSlice bytes = some record) :
    c.readRecord codec key none = (.ok (some record), { c with memory := c.memory.insert key record }) := by
  rw [readRecord, hfile, hmemory]
  dsimp only
  rw [hread]

/-- A lookup leaves what is in memory for other keys. -/
theorem readRecord_memory_of_ne (c : LocalCache) {key other : String} (hother : other ≠ key) (fault : Option String) :
    (c.readRecord codec key fault).2.memory.lookup other = c.memory.lookup other := by
  fun_cases readRecord codec c key fault with
  | case1 => exact AList.lookup_erase_ne hother
  | case2 => rfl
  | case3 => rfl
  | case4 => exact AList.lookup_insert_ne hother
  | case5 => rfl

/-- When the memories hold the same for a key, so do they after a lookup, and the answers are the same. -/
theorem readRecord_congr {c c' : LocalCache} {key : String}
    (hfile : c'.disk.lookup (fingerprintPath key) = c.disk.lookup (fingerprintPath key))
    (hmemory : (c.disk.lookup (fingerprintPath key)).isSome → c'.memory.lookup key = c.memory.lookup key)
    (fault : Option String) :
    (c'.readRecord codec key fault).1 = (c.readRecord codec key fault).1 ∧
      ((c.disk.lookup (fingerprintPath key)).isSome →
        (c'.readRecord codec key fault).2.memory.lookup key = (c.readRecord codec key fault).2.memory.lookup key) := by
  cases hbytes : c.disk.lookup (fingerprintPath key) with
  | none =>
    rw [readRecord_of_none hbytes, readRecord_of_none (hfile.trans hbytes)]
    exact ⟨rfl, fun h => by cases h⟩
  | some bytes =>
    have hsame := hmemory (Option.isSome_of_eq_some hbytes)
    rw [readRecord, readRecord, hfile, hbytes, hsame]
    cases hheld : c.memory.lookup key with
    | some record => exact ⟨rfl, fun _ => hsame⟩
    | none =>
      cases fault with
      | some source => exact ⟨rfl, fun _ => hsame⟩
      | none =>
        dsimp only
        cases codec.fromSlice bytes with
        | none => exact ⟨rfl, fun _ => hsame⟩
        | some record =>
          refine ⟨rfl, fun _ => ?_⟩
          dsimp only
          rw [AList.lookup_insert, AList.lookup_insert]

/-- What is found for a key is the same for two caches that are alike, and what the one has in memory
for it is what the other finds, also afterwards. -/
theorem Alike.readRecord_key {mayFail : Bool} {c c' : LocalCache} (halike : Alike codec mayFail c c') (key : String)
    {fault : Option String} (hfault : mayFail = false → fault = none) :
    viewed (c'.readRecord codec key fault).1 = viewed (c.readRecord codec key fault).1 ∧
      ((c.disk.lookup (fingerprintPath key)).isSome →
        FindAlike codec mayFail (c.readRecord codec key fault).2 (c'.readRecord codec key fault).2 key) := by
  by_cases hsame : (c.disk.lookup (fingerprintPath key)).isSome → c'.memory.lookup key = c.memory.lookup key
  · obtain ⟨hfound, hmemory⟩ := readRecord_congr (halike.files key) hsame fault
    exact ⟨congrArg viewed hfound, fun hfile => Or.inl (hmemory hfile)⟩
  · obtain ⟨hfile, hdiffer⟩ := Classical.not_imp.mp hsame
    obtain ⟨record, record', hfinds, hheld, hfingerprint, hhash⟩ := (halike.records key hfile).resolve_left hdiffer
    have hfile' : (c'.disk.lookup (fingerprintPath key)).isSome := by
      rw [halike.files key]
      exact hfile
    have hview : viewed (.ok (some record')) = viewed (.ok (some record)) :=
      congrArg some (Prod.ext hfingerprint hhash)
    rw [readRecord_of_held hfile' hheld]
    rcases hfinds with hmemory | ⟨hreads, hmemory, bytes, hbytes, hread⟩
    · rw [readRecord_of_held hfile hmemory]
      exact ⟨hview, fun _ => Or.inr ⟨record, record', Or.inl hmemory, hheld, hfingerprint, hhash⟩⟩
    · rw [hfault hreads, readRecord_of_file hbytes hmemory hread]
      exact ⟨hview, fun _ => Or.inr
        ⟨record, record', Or.inl (AList.lookup_insert _), hheld, hfingerprint, hhash⟩⟩

/-- Two caches that are alike find the same, and stay alike. -/
theorem Alike.readRecord {mayFail : Bool} {c c' : LocalCache} (halike : Alike codec mayFail c c') (key : String)
    {fault : Option String} (hfault : mayFail = false → fault = none) :
    viewed (c'.readRecord codec key fault).1 = viewed (c.readRecord codec key fault).1 ∧
      Alike codec mayFail (c.readRecord codec key fault).2 (c'.readRecord codec key fault).2 := by
  obtain ⟨hview, hkey⟩ := halike.readRecord_key key hfault
  refine ⟨hview, fun other => ?_, fun other hfile => ?_⟩
  · rw [readRecord_disk, readRecord_disk]
    exact halike.files other
  · rw [readRecord_disk] at hfile
    by_cases hother : other = key
    · subst hother
      exact hkey hfile
    · exact (halike.records other hfile).congr (readRecord_memory_of_ne c hother fault)
        (by rw [readRecord_disk]) (readRecord_memory_of_ne c' hother fault)

/-- Two caches that are alike answer alike, whatever they are asked. -/
theorem Alike.answerAlike {mayFail : Bool} {c c' : LocalCache} (halike : Alike codec mayFail c c') :
    AnswerAlike codec mayFail c c' := by
  intro reads
  induction reads generalizing c c' with
  | nil => exact fun _ => rfl
  | cons read reads ih =>
    intro hfaults
    obtain ⟨hview, hafter⟩ := halike.readRecord read.key (hfaults read List.mem_cons_self)
    obtain ⟨hanswer, hmemory, hdisk⟩ := answer_eq c read
    obtain ⟨hanswer', hmemory', hdisk'⟩ := answer_eq c' read
    have hrest : Alike codec mayFail (c.answer codec read).2 (c'.answer codec read).2 := by
      refine ⟨fun key => ?_, fun key hfile => ?_⟩
      · rw [hdisk, hdisk']
        exact hafter.files key
      · rw [hdisk] at hfile
        exact (hafter.records key hfile).congr (by rw [hmemory]) (by rw [hdisk]) (by rw [hmemory'])
    rw [answers, answers, hanswer, hanswer', hview,
      ih hrest fun read hmem => hfaults read (List.mem_cons_of_mem _ hmem)]

/-- Two caches that answer alike find the same. -/
theorem AnswerAlike.viewed_eq {mayFail : Bool} {c c' : LocalCache} (halike : AnswerAlike codec mayFail c c')
    (key : String) {fault : Option String} (hfault : mayFail = false → fault = none) :
    viewed (c'.readRecord codec key fault).1 = viewed (c.readRecord codec key fault).1 := by
  have hquery : ∀ query : CacheQuery, query.answerOf (viewed (c'.readRecord codec key fault).1) =
      query.answerOf (viewed (c.readRecord codec key fault).1) := by
    intro query
    have hanswers : [(c'.answer codec ⟨key, query, fault⟩).1] = [(c.answer codec ⟨key, query, fault⟩).1] :=
      halike [⟨key, query, fault⟩] fun read hmem => by
        rw [List.mem_singleton.mp hmem]
        exact hfault
    rw [(answer_eq c _).1, (answer_eq c' _).1] at hanswers
    exact (List.cons.inj hanswers).1
  have hfingerprint := CacheAnswer.text.inj (hquery .get)
  have hhash := CacheAnswer.text.inj (hquery .artifactHash)
  cases hview : viewed (c.readRecord codec key fault).1 with
  | none =>
    rw [hview] at hfingerprint
    exact Option.map_eq_none_iff.mp hfingerprint
  | some view =>
    rw [hview] at hfingerprint hhash
    obtain ⟨view', hview', hfirst⟩ := Option.map_eq_some_iff.mp hfingerprint
    rw [hview'] at hhash ⊢
    exact congrArg some (Prod.ext hfirst hhash)

/-! ## A store that fails -/

variable (codec)

/-- What a store that fails does: nothing, when the directory cannot be made, or else it puts its record
into memory. All files of keys are as before. -/
theorem putWithArtifact_failed {c : LocalCache} {key fingerprint : String} {artifactHash : Option String}
    {now : UInt64} {fault : Option PutFault} {e : CacheError}
    (hfailed : (c.putWithArtifact codec key fingerprint artifactHash now fault).1 = .error e) :
    (∀ other, (c.putWithArtifact codec key fingerprint artifactHash now fault).2.disk.lookup (fingerprintPath other) =
        c.disk.lookup (fingerprintPath other)) ∧
      ((∃ source, fault = some (.createDir source)) ∧
          (c.putWithArtifact codec key fingerprint artifactHash now fault).2 = c ∨
        (¬ ∃ source, fault = some (.createDir source)) ∧
          (c.putWithArtifact codec key fingerprint artifactHash now fault).2.memory =
            c.memory.insert key ⟨fingerprint, now, artifactHash, some key⟩) := by
  have hne : ∀ other, fingerprintPath other ≠ uniqueTmpPath key c.process c.tmpCounter := fun other =>
    (uniqueTmpPath_ne_fingerprintPath key other c.process c.tmpCounter).symm
  cases fault with
  | none =>
    rw [(c.putWithArtifact_ok codec key fingerprint artifactHash now).1] at hfailed
    cases hfailed
  | some fault =>
    cases fault with
    | createDir source => exact ⟨fun _ => rfl, Or.inl ⟨⟨source, rfl⟩, rfl⟩⟩
    | write source left =>
      refine ⟨fun other => Files.leave_lookup _ (hne other) left, Or.inr ⟨fun h => ?_, rfl⟩⟩
      obtain ⟨source', hsource⟩ := h
      cases hsource
    | rename source =>
      refine ⟨fun other => ?_, Or.inr ⟨fun h => ?_, rfl⟩⟩
      · rw [putWithArtifact]
        dsimp only
        rw [AList.lookup_erase_ne (hne other), AList.lookup_insert_ne (hne other)]
      · obtain ⟨source', hsource⟩ := h
        cases hsource

/-- After a store that failed, all later questions are answered as before exactly when making the directory
failed, or the key has no file, or a lookup would have found the same fingerprint and the same hash. -/
theorem answerAlike_iff {c : LocalCache} {key fingerprint : String} {artifactHash : Option String}
    {now : UInt64} {fault : Option PutFault} {e : CacheError} (mayFail : Bool)
    (hfailed : (c.putWithArtifact codec key fingerprint artifactHash now fault).1 = .error e) :
    AnswerAlike codec mayFail c (c.putWithArtifact codec key fingerprint artifactHash now fault).2 ↔
      (∃ source, fault = some (.createDir source)) ∨ c.disk.lookup (fingerprintPath key) = none ∨
      ∃ record, c.Finds codec mayFail key record ∧ record.fingerprint = fingerprint ∧
        record.artifactHash = artifactHash := by
  obtain ⟨hfiles, hafter⟩ := putWithArtifact_failed codec hfailed
  rcases hafter with ⟨hcreate, hsame⟩ | ⟨hcreate, hmemory⟩
  · rw [hsame]
    exact iff_of_true (fun _ _ => rfl) (Or.inl hcreate)
  · rw [or_iff_right hcreate]
    have hheld : (c.putWithArtifact codec key fingerprint artifactHash now fault).2.memory.lookup key =
        some ⟨fingerprint, now, artifactHash, some key⟩ := by
      rw [hmemory, AList.lookup_insert]
    constructor
    · intro halike
      refine or_iff_not_imp_left.mpr fun hfile => ?_
      obtain ⟨bytes, hbytes⟩ := Option.ne_none_iff_exists'.mp hfile
      have hfound : ∀ fault' : Option String, (mayFail = false → fault' = none) →
          viewed (c.readRecord codec key fault').1 = some (fingerprint, artifactHash) := by
        intro fault' hfault'
        rw [← halike.viewed_eq key hfault',
          readRecord_of_held (by rw [hfiles key, hbytes]; rfl) hheld]
        rfl
      cases hmemory' : c.memory.lookup key with
      | some record =>
        have hview := hfound none fun _ => rfl
        rw [readRecord_of_held (Option.isSome_of_eq_some hbytes) hmemory'] at hview
        obtain ⟨hfingerprint, hhash⟩ := Prod.mk.inj (Option.some.inj hview)
        exact ⟨record, Or.inl hmemory', hfingerprint, hhash⟩
      | none =>
        cases mayFail with
        | true =>
          -- a read that fails finds nothing
          have hview := hfound (some "") fun h => by cases h
          rw [readRecord, hbytes, hmemory'] at hview
          cases hview
        | false =>
          have hview := hfound none fun _ => rfl
          rw [readRecord, hbytes, hmemory'] at hview
          dsimp only at hview
          cases hread : codec.fromSlice bytes with
          | none =>
            rw [hread] at hview
            cases hview
          | some record =>
            rw [hread] at hview
            obtain ⟨hfingerprint, hhash⟩ := Prod.mk.inj (Option.some.inj hview)
            exact ⟨record, Or.inr ⟨rfl, hmemory', bytes, hbytes, hread⟩, hfingerprint, hhash⟩
    · intro h
      refine Alike.answerAlike ⟨hfiles, fun other hfile => ?_⟩
      by_cases hother : other = key
      · subst hother
        rcases h with hnone | ⟨record, hfinds, hfingerprint, hhash⟩
        · rw [hnone] at hfile
          cases hfile
        · exact Or.inr ⟨record, _, hfinds, hheld, hfingerprint.symm, hhash.symm⟩
      · left
        rw [hmemory, AList.lookup_insert_ne hother]

end Reads

/-- A cache that stored a fingerprint. -/
def withFirst : LocalCache := ((new ∅ 1 0).put (.ofTable sampleRecords) "a" "v1" 0 none).2

/-- Another one for this key cannot be written, and is found from then on. -/
theorem not_answerAlike_withFirst :
    ∃ e, (withFirst.put (.ofTable sampleRecords) "a" "v2" 0 (some (.write "No space left on device" none))).1 =
        .error e ∧
      ¬ AnswerAlike (.ofTable sampleRecords) false withFirst
        (withFirst.put (.ofTable sampleRecords) "a" "v2" 0 (some (.write "No space left on device" none))).2 := by
  refine ⟨_, rfl, fun halike => ?_⟩
  have hanswers := halike [⟨"a", .get, none⟩] fun read hmem _ => by rw [List.mem_singleton.mp hmem]
  revert hanswers
  decide

/-- Nothing is found of a key whose first store fails. -/
theorem answerAlike_iff_first :
    AnswerAlike (.ofTable sampleRecords) false (new ∅ 1 0)
        ((new ∅ 1 0).putWithArtifact (.ofTable sampleRecords) "a" "v1" none 0 (some (.rename "Is a directory"))).2 ↔
      (∃ source, some (PutFault.rename "Is a directory") = some (.createDir source)) ∨
      (new ∅ 1 0).disk.lookup (fingerprintPath "a") = none ∨
      ∃ record, (new ∅ 1 0).Finds (.ofTable sampleRecords) false "a" record ∧ record.fingerprint = "v1" ∧
        record.artifactHash = none :=
  answerAlike_iff (.ofTable sampleRecords) false rfl

end LocalCache

end Forge.Cache
