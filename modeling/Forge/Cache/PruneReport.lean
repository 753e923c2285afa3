import Forge.Cache.RefCounts
import Mathlib.Algebra.Order.Group.Nat
import Mathlib.Order.OrderDual

/-!
# What pruning reports

Each step adds what it removed to the report, but for the file that is removed with a record: it is
counted as an object, whatever it is, and its size is not counted. Temporary files that are evicted to
make room are counted as objects as well. The report is right exactly when no step does one of these.
-/

namespace Forge.Cache

open Forge.Common

/-- A file below the objects that is not temporary. -/
def Host.isObject (host : Host) (file : HostPath) : Bool := (host.below .objects file).elim false fun path => !isTmp path

variable {host : Host}

/-- Every file that is gone has a number, and this is their sum. -/
def removedTotal (weight : HostPath → Bytes → ℕ) (before after : HostDisk host) : ℕ :=
  ((before.files.keys.filter fun file => decide (file ∉ after.files)).map fun file =>
    (before.files.lookup file).elim 0 (weight file)).sum

/-- A report gives the size of all files that are gone, and how many of them were records and objects. -/
structure Reported (codec : RecordCodec) (before after : HostDisk host) (report : PruneReport) : Prop where
  bytes : report.freedBytes = removedTotal (fun _ bytes => bytes.length) before after
  records : report.removedRecords =
    removedTotal (fun file bytes => if (host.recordIn codec file bytes).isSome then 1 else 0) before after
  objects : report.removedObjects = removedTotal (fun file _ => if host.isObject file then 1 else 0) before after

/-- What is gone and what is left are what was there. -/
theorem removedTotal_add_total (weight : HostPath → Bytes → ℕ) {before after : HostDisk host}
    (hwithin : after.Within before) : removedTotal weight before after + after.total weight = before.total weight := by
  have hperm : (before.files.keys.filter fun file => decide (file ∈ after.files)).Perm after.files.keys := by
    refine (List.perm_ext_iff_of_nodup (before.files.keys_nodup.filter _) after.files.keys_nodup).mpr fun file => ?_
    rw [List.mem_filter, decide_eq_true_iff, ← AList.mem_keys, ← AList.mem_keys]
    exact and_iff_right_of_imp hwithin.mem
  have hsame : after.total weight = ((before.files.keys.filter fun file => decide (file ∈ after.files)).map fun file =>
      (before.files.lookup file).elim 0 (weight file)).sum := by
    rw [HostDisk.total, ← (hperm.map _).sum_eq]
    refine congrArg List.sum (List.map_congr_left fun file hfile => ?_)
    obtain ⟨bytes, hbytes⟩ := Option.isSome_iff_exists.mp
      (AList.lookup_isSome.mpr (of_decide_eq_true (List.mem_filter.mp hfile).2))
    rw [hbytes, hwithin file bytes hbytes]
  rw [hsame, removedTotal, HostDisk.total]
  induction before.files.keys with
  | nil => rfl
  | cons file files ih =>
    by_cases hfile : file ∈ after.files
    · rw [List.filter_cons_of_neg (by simpa using hfile), List.filter_cons_of_pos (by simpa using hfile), List.map_cons,
        List.map_cons, List.sum_cons, List.sum_cons, Nat.add_left_comm, ih]
    · rw [List.filter_cons_of_pos (by simpa using hfile), List.filter_cons_of_neg (by simpa using hfile), List.map_cons,
        List.map_cons, List.sum_cons, List.sum_cons, Nat.add_assoc, ih]

/-- A file next to the records is no object. -/
theorem isObject_of_fingerprints {file : HostPath} {path : CachePath} (hbelow : host.below .fingerprints file = some path) :
    host.isObject file = false := by
  rw [Host.isObject]
  cases hobject : host.below .objects file with
  | none => rfl
  | some other => cases (below_fingerprints_of_objects hobject).symm.trans hbelow

/-- An object is no record. -/
theorem recordIn_of_isObject {file : HostPath} (hobject : host.isObject file = true) (codec : RecordCodec) (bytes : Bytes) :
    host.recordIn codec file bytes = none := by
  cases hbelow : host.below .fingerprints file with
  | none => rw [Host.recordIn, hbelow, Option.bind_none]
  | some path => cases (isObject_of_fingerprints hbelow).symm.trans hobject

namespace PruneRun

variable {codec : RecordCodec}

/-- What is there and what is reported: bytes, records, and objects. The last only grows. -/
def tally (codec : RecordCodec) (s : PruneRun host) : ℕ × ℕ × ℕᵒᵈ :=
  (s.disk.total (fun _ bytes => bytes.length) + s.st.report.freedBytes,
    s.disk.total (fun file bytes => if (host.recordIn codec file bytes).isSome then 1 else 0) +
      s.st.report.removedRecords,
    OrderDual.toDual (s.disk.total (fun file _ => if host.isObject file then 1 else 0) + s.st.report.removedObjects))

/-- The report is right when what is there and what is reported are as much as before. -/
theorem reported_iff_tally {s t : PruneRun host} (hwithin : t.disk.Within s.disk) (hstart : s.st.report = ⟨0, 0, 0⟩) :
    Reported codec s.disk t.disk t.st.report ↔ t.tally codec = s.tally codec := by
  have hbytes := removedTotal_add_total (fun _ bytes => bytes.length) hwithin
  have hrecords := removedTotal_add_total
    (fun file bytes => if (host.recordIn codec file bytes).isSome then 1 else 0) hwithin
  have hobjects := removedTotal_add_total (fun file _ => if host.isObject file then 1 else 0) hwithin
  rw [tally, tally, hstart, Prod.mk.injEq, Prod.mk.injEq, OrderDual.toDual_inj]
  dsimp only
  constructor
  · intro h
    rw [h.bytes, h.records, h.objects]
    omega
  · intro h
    exact ⟨by omega, by omega, by omega⟩

/-- The file that would be removed with a record is an object, and empty. -/
def CascadeCounted (s : PruneRun host) (record : CacheRecord) : Prop :=
  ∀ file object, s.disk.fileAt record.path = some file → cascadeFile (s.disk.erase file) s.st record = some object →
    host.isObject object = true ∧ (s.disk.erase file).files.lookup object = some []

/-- A step reports what it removes. -/
def Counts (limit : ℕ) (s : PruneRun host) : PruneStep → Prop
  | .drop record => s.CascadeCounted record
  | .shrink record => s.total ≤ limit ∨ s.CascadeCounted record
  | .evict path => s.total ≤ limit ∨ isTmp path = false ∨ ∀ file bytes, ¬ s.Takes path file bytes
  | _ => True

/-- Removing a record is reported, and what goes with it exactly when it is an object, and empty. -/
theorem Dropped.tally {disk : HostDisk host} {s t : PruneRun host} {record : CacheRecord}
    (hwithin : s.disk.Within disk) (hmay : ∃ file bytes, RecordAt codec disk record file bytes)
    (hdropped : Dropped s record t) :
    t.tally codec ≤ s.tally codec ∧ (t.tally codec = s.tally codec ↔ s.CascadeCounted record) := by
  obtain ⟨listed, bytes, hrecord⟩ := hmay
  have hrecordFile : ∀ {file} objects, s.disk.fileAt record.path = some file →
      (⟨s.disk.erase file, s.st.dropped record 0, objects⟩ : PruneRun host).tally codec = s.tally codec := by
    intro file objects hfile
    have hat := hrecord.of_fileAt hwithin hfile
    have hbytes := HostDisk.total_erase (fun _ bytes => bytes.length) hat.holds
    have hrecords := HostDisk.total_erase
      (fun file bytes => if (host.recordIn codec file bytes).isSome then 1 else 0) hat.holds
    have hobjects := HostDisk.total_erase (fun file _ => if host.isObject file then 1 else 0) hat.holds
    have hsize := (recordOf_eq_some hat.read).2.2
    rw [hat.recordIn, Option.isSome_some, if_pos rfl] at hrecords
    rw [isObject_of_fingerprints hat.below, if_neg Bool.false_ne_true] at hobjects
    rw [PruneRun.tally, PruneRun.tally, PruneState.dropped, Prod.mk.injEq, Prod.mk.injEq, OrderDual.toDual_inj]
    dsimp only
    omega
  cases hdropped with
  | gone hfile =>
    refine ⟨le_rfl, iff_of_true rfl fun file object hsome => ?_⟩
    cases hfile.symm.trans hsome
  | alone hfile hcascade =>
    have hsame := hrecordFile (s.total - record.size) hfile
    refine ⟨le_of_eq hsame, iff_of_true hsame fun file' object hfile' hsome => ?_⟩
    obtain rfl := Option.some.inj (hfile.symm.trans hfile')
    cases hcascade.symm.trans hsome
  | @cascaded file object bytes' hfile hcascade hobject =>
    have hsame := hrecordFile s.total hfile
    have hbytes := HostDisk.total_erase (fun _ bytes => bytes.length) hobject
    have hrecords := HostDisk.total_erase
      (fun file bytes => if (host.recordIn codec file bytes).isSome then 1 else 0) hobject
    have hobjects := HostDisk.total_erase (fun file _ => if host.isObject file then 1 else 0) hobject
    have hcounted : s.CascadeCounted record ↔ host.isObject object = true ∧ bytes' = [] := by
      constructor
      · intro h
        obtain ⟨hkind, hempty⟩ := h file object hfile hcascade
        exact ⟨hkind, Option.some.inj (hobject.symm.trans hempty)⟩
      · rintro ⟨hkind, rfl⟩ file' object' hfile' hcascade'
        obtain rfl := Option.some.inj (hfile.symm.trans hfile')
        obtain rfl := Option.some.inj (hcascade.symm.trans hcascade')
        exact ⟨hkind, hobject⟩
    rw [hcounted, ← hsame, PruneRun.tally, PruneRun.tally, PruneState.dropped, PruneState.dropped, Prod.mk_le_mk,
      Prod.mk_le_mk, OrderDual.toDual_le_toDual, Prod.mk.injEq, Prod.mk.injEq, OrderDual.toDual_inj,
      ← List.length_eq_zero_iff]
    dsimp only
    cases hkind : host.isObject object with
    | true =>
      rw [hkind, if_pos rfl] at hobjects
      rw [recordIn_of_isObject hkind, Option.isSome_none, if_neg Bool.false_ne_true] at hrecords
      exact ⟨by omega, ⟨fun h => ⟨rfl, by omega⟩, fun h => by omega⟩⟩
    | false =>
      rw [hkind, if_neg Bool.false_ne_true] at hobjects
      exact ⟨by omega, ⟨fun h => by omega, fun h => absurd h.1 Bool.false_ne_true⟩⟩

/-- Taking a file that is no record, with its size, is reported when it is counted as an object if it is one. -/
theorem Takes.tally {s : PruneRun host} {path : CachePath} {file : HostPath} {bytes : Bytes}
    (htakes : s.Takes path file bytes) (hnone : host.recordIn codec file bytes = none) (objects : ℕ) :
    ((if host.isObject file then 1 else 0) ≤ objects →
        (s.take path file objects bytes.length).tally codec ≤ s.tally codec) ∧
      ((s.take path file objects bytes.length).tally codec = s.tally codec ↔
        objects = if host.isObject file then 1 else 0) := by
  have hbytes := HostDisk.total_erase (fun _ bytes => bytes.length) htakes.holds
  have hrecords := HostDisk.total_erase
    (fun file bytes => if (host.recordIn codec file bytes).isSome then 1 else 0) htakes.holds
  have hobjects := HostDisk.total_erase (fun file _ => if host.isObject file then 1 else 0) htakes.holds
  rw [hnone, Option.isSome_none, if_neg Bool.false_ne_true] at hrecords
  rw [PruneRun.tally, PruneRun.tally, take, PruneState.took, Prod.mk_le_mk, Prod.mk_le_mk, OrderDual.toDual_le_toDual,
    Prod.mk.injEq, Prod.mk.injEq, OrderDual.toDual_inj]
  dsimp only
  exact ⟨fun h => by omega, ⟨fun h => by omega, fun h => by omega⟩⟩

/-- A file below the objects is an object unless it is temporary. -/
theorem isObject_eq {file : HostPath} {path : CachePath} (hbelow : host.below .objects file = some path) :
    host.isObject file = !isTmp path := by
  rw [Host.isObject, hbelow, Option.elim_some]

variable (order : WalkOrder host) (now ageSecs limit : ℕ)

/-- A step removes no more than it reports, and exactly what it reports when it counts. -/
theorem step_tally {disk : HostDisk host} {s : PruneRun host} (hwithin : s.disk.Within disk) {e : PruneStep}
    (hmay : May codec disk e) :
    (s.step order codec now ageSecs limit e).tally codec ≤ s.tally codec ∧
      ((s.step order codec now ageSecs limit e).tally codec = s.tally codec ↔ s.Counts limit e) := by
  have hsame : ∀ {t : PruneRun host} {P : Prop}, t.tally codec = s.tally codec → P →
      t.tally codec ≤ s.tally codec ∧ (t.tally codec = s.tally codec ↔ P) :=
    fun h hp => ⟨le_of_eq h, iff_of_true h hp⟩
  cases e with
  | drop record => exact (dropped_dropRecord order record s).tally hwithin hmay
  | sweep path =>
    refine hsame ?_ trivial
    rcases sweepFile_cases order now ageSecs path s with ⟨_, hnothing⟩ | ⟨file, bytes, htakes, _, htake⟩
    · rw [step, hnothing]
    · have hnone : host.recordIn codec file bytes = none :=
        recordIn_of_takes hwithin hmay (Or.inl rfl) htakes
      obtain ⟨listed, hmem, hbelow⟩ := hmay
      obtain rfl := hwithin.eq_of_below hmem hbelow htakes.found
      rw [step, htake]
      refine (htakes.tally hnone _).2.mpr ?_
      rw [isObject_eq hbelow]
      cases isTmp path with
      | true => rfl
      | false => rfl
  | cleanup path =>
    refine hsame ?_ trivial
    rcases cleanupFile_cases order now ageSecs path s with hnothing | ⟨file, bytes, htakes, htmp, htake⟩
    · rw [step, hnothing]
    · have hnone : host.recordIn codec file bytes = none :=
        recordIn_of_takes hwithin hmay (Or.inr htmp) htakes
      obtain ⟨listed, hmem, hbelow⟩ := hmay
      obtain rfl := hwithin.eq_of_below hmem hbelow htakes.found
      rw [step, htake]
      refine (htakes.tally hnone 0).2.mpr ?_
      rw [isObject_of_fingerprints hbelow]
      rfl
  | recount => exact hsame rfl trivial
  | shrink record =>
    rw [step, Counts]
    split
    · rename_i hle
      exact hsame rfl (Or.inl hle)
    · rename_i hgt
      rw [or_iff_right hgt]
      exact (dropped_dropRecord order record s).tally hwithin hmay
  | evict path =>
    rw [step, Counts]
    split
    · rename_i hle
      exact hsame rfl (Or.inl hle)
    · rename_i hgt
      rw [or_iff_right hgt]
      rcases evictFile_cases path s with ⟨hnone, hnothing⟩ | ⟨file, bytes, htakes, htake⟩
      · rw [hnothing]
        exact hsame rfl (Or.inr hnone)
      · have hnone : host.recordIn codec file bytes = none :=
        recordIn_of_takes hwithin hmay (Or.inl rfl) htakes
        obtain ⟨listed, hmem, hbelow⟩ := hmay
        obtain rfl := hwithin.eq_of_below hmem hbelow htakes.found
        obtain ⟨hle, hiff⟩ := htakes.tally hnone 1
        rw [isObject_eq hbelow] at hle hiff
        rw [htake]
        refine ⟨hle ?_, hiff.trans ?_⟩
        · split
          · exact le_rfl
          · exact Nat.zero_le 1
        · cases isTmp path with
          | true => exact iff_of_false (by decide) fun h => h.elim (by decide) fun h => h file bytes htakes
          | false => exact iff_of_true rfl (Or.inl rfl)

/-- What pruning alone reports is what it removed, exactly when every step counts: what goes with a record is an
empty object, and no temporary file is evicted. -/
theorem reported_iff (olderThan maxSize : Option ℕ) (disk : HostDisk host) :
    Reported codec disk ((prune codec now olderThan maxSize).run (HostDisk.perform order) disk).2
        ((prune codec now olderThan maxSize).run (HostDisk.perform order) disk).1 ↔
      (Machine.ofStep (step order codec now (olderThan.getD 0) (maxSize.getD (2 ^ 64 - 1)))).Along
        (Counts (maxSize.getD (2 ^ 64 - 1))) (start order codec olderThan disk)
        (pruneSteps order codec now olderThan maxSize disk) := by
  have hstart : (start order codec olderThan disk).disk.Within disk := .refl disk
  obtain ⟨hwithin, _, hiff⟩ := Machine.foldl_eq_iff_along (tally codec)
    (Counts (maxSize.getD (2 ^ 64 - 1))) (fun s => s.disk.Within disk) (May codec disk)
    (fun s e hwithin hmay =>
      ⟨(step_within order codec now (olderThan.getD 0) (maxSize.getD (2 ^ 64 - 1)) s e).trans hwithin,
        step_tally order now (olderThan.getD 0) (maxSize.getD (2 ^ 64 - 1)) hwithin hmay⟩)
    hstart (may_pruneSteps order codec now olderThan maxSize disk)
  rw [run_prune]
  exact (reported_iff_tally hwithin rfl).trans hiff

/-! ## A record with its object -/

/-- A record with an object. -/
def objectRecords : JsonCodec.Table FingerprintRecord where
  known :=
    [(⟨"v1", 0, some "blob", some "a"⟩,
      "\x7b\"fingerprint\":\"v1\",\"stored_at\":0,\"artifact_hash\":\"blob\",\"key\":\"a\"\x7d")]
  texts_nodup := List.nodup_singleton _
  nonzero := by decide +kernel

/-- The record and its object. -/
def objectDisk : HostDisk flatHost :=
  .ofFiles (AList.insert ["cache", "metadata", "fingerprints", "a.json"]
    ((JsonCodec.ofTable objectRecords).toVec ⟨"v1", 0, some "blob", some "a"⟩)
      (AList.insert ["cache", "objects", "blob"] (utf8Bytes "data") ∅)) (by decide +kernel)

/-- Making room removes the object with the record, and its size is not reported. -/
theorem not_reported_object :
    ¬ Reported (.ofTable objectRecords) objectDisk
      ((prune (.ofTable objectRecords) 3600 none (some 0)).run (HostDisk.perform (.kept flatHost)) objectDisk).2
      ((prune (.ofTable objectRecords) 3600 none (some 0)).run (HostDisk.perform (.kept flatHost)) objectDisk).1 := by
  intro hreported
  have hbytes := hreported.bytes
  revert hbytes
  decide +kernel

end PruneRun

end Forge.Cache
