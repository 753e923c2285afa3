import Forge.Cas.RoundTrip
import Forge.Cas.StoreSteps
import Forge.Common.Histories

/-!
# Concurrent stores of the same hash

The names of temporary files are made of the hash and the process, so all calls that store
the same hash in one process write to the same two. A call that renames such a file takes
away what another call wrote there in the meantime. All calls succeed exactly when none
writes a temporary file while another has written its own and has not renamed it.
-/

namespace Forge.Cas

open Forge.Common

/-- A call of the store. -/
structure StoreCall where
  backend : LocalCasBackend
  artifact : Artifact

/-- The state of several calls and the files they share. -/
abbrev StoreRun := Interleaved FileOp (fun _ => Except CasError Unit) (Except CasError Unit) CasFiles

/-- A call is about to write a file while another has written its own and has not renamed it. -/
def Overlaps (history : List ℕ) (i : ℕ) : Prop :=
  ∃ (file : CasFile) (j : ℕ), history.count i = file.first ∧ history.count j = file.first + 1

/-- No call writes a file while another has written its own and has not renamed it. -/
def NoOverlap (events : List ℕ) : Prop := ∀ history i, history ++ [i] <+: events → ¬ Overlaps history i

/-- The last event that comes after so many of the same, in a history from its end. -/
def lastAfter (n : ℕ) : List ℕ → Option ℕ
  | [] => none
  | i :: earlier => if earlier.count i = n then some i else lastAfter n earlier

/-- The call that was the last to rename a file. -/
def lastRename (file : CasFile) (events : List ℕ) : Option ℕ := lastAfter (file.first + 1) events.reverse

/-- One more event does not overlap. -/
theorem noOverlap_concat {history : List ℕ} {i : ℕ} :
    NoOverlap (history ++ [i]) ↔ NoOverlap history ∧ ¬ Overlaps history i :=
  forall_prefix_concat fun history i => ¬ Overlaps history i

/-- One more event is a rename of a file, or leaves the last one as it was. -/
theorem lastRename_concat (file : CasFile) (history : List ℕ) (i : ℕ) :
    lastRename file (history ++ [i]) =
      if history.count i = file.first + 1 then some i else lastRename file history := by
  rw [lastRename, List.reverse_append, List.reverse_singleton, List.singleton_append, lastAfter,
    List.count_reverse]
  rfl

section Calls

variable (blake3 : Bytes → ArtifactHash) (zstd : Zstd) (codec : MetadataCodec)

/-- What a call puts in a file, if it gets that far. -/
def StoreCall.bytes (call : StoreCall) (file : CasFile) : Option Bytes :=
  match LocalCasBackend.prepare blake3 zstd call.backend call.artifact none with
  | .error _ => none
  | .ok (_, _, dataToStore, metadata) =>
    match file with
    | .data => some dataToStore
    | .metadata => some (codec.toVec metadata)

/-- Calls that have not done anything. -/
def startStores (process : ℕ) (files : CasFiles) (calls : List StoreCall) : StoreRun :=
  ⟨files, calls.map fun call => call.backend.storeSteps blake3 zstd codec call.artifact process⟩

/-- What a file holds by the calls that renamed it: the bytes of the last of them. -/
def placed (files : CasFiles) (calls : List StoreCall) (hash : ArtifactHash) (events : List ℕ)
    (file : CasFile) : Option Bytes :=
  match lastRename file events with
  | some i => calls[i]?.bind fun call => call.bytes blake3 zstd codec file
  | none => files.lookup (file.path hash)

variable {blake3 zstd codec} {process : ℕ} {files : CasFiles} {calls : List StoreCall} {hash : ArtifactHash}

/-- What a call does in one step: it writes a temporary file, or renames it, or fails to, because
there is none. -/
theorem store_step_cases (hsame : ∀ call ∈ calls, call.artifact.hash = hash) {history : List ℕ}
    {s t : StoreRun} {i : ℕ}
    (hrun : (interleaving FileOp.perform).exec (startStores blake3 zstd codec process files calls) history =
      some s)
    (hstep : (interleaving FileOp.perform).step s i = some t) :
    validateHash hash.str = .ok () ∧ ∃ (file : CasFile) (bytes : Bytes),
      (calls[i]?.bind fun call => call.bytes blake3 zstd codec file) = some bytes ∧
      ((history.count i = file.first ∧
          t.shared = AList.insert (file.tmp hash process) bytes s.shared ∧
          ∃ ops, t.programs[i]? = some (.sequence ops)) ∨
        (history.count i = file.first + 1 ∧ (∃ ops, t.programs[i]? = some (.sequence ops)) ∧
          ∃ held, s.shared.lookup (file.tmp hash process) = some held ∧
            t.shared = AList.insert (file.path hash) held (s.shared.erase (file.tmp hash process))) ∨
        (history.count i = file.first + 1 ∧ s.shared.lookup (file.tmp hash process) = none ∧
          ∃ e, t.programs[i]? = some (.done (.error e)))) := by
  obtain ⟨op, rest, hnext, _⟩ := Interleaved.step_eq_some_iff.mp hstep
  have hlt := (List.getElem?_eq_some_iff.mp hnext).1
  rw [Interleaved.length_of_exec hrun, startStores, List.length_map] at hlt
  obtain ⟨call, hcall⟩ : ∃ call, calls[i]? = some call := ⟨_, List.getElem?_eq_getElem hlt⟩
  have hstart : (startStores blake3 zstd codec process files calls).programs[i]? =
      some (call.backend.storeSteps blake3 zstd codec call.artifact process) := by
    rw [startStores, List.getElem?_map, hcall]
    rfl
  cases hprepare : LocalCasBackend.prepare blake3 zstd call.backend call.artifact none with
  | error e =>
    rw [LocalCasBackend.storeSteps_of_error blake3 zstd codec hprepare] at hstart
    rw [Interleaved.done_of_exec hrun hstart] at hnext
    cases hnext
  | ok prepared =>
    obtain ⟨dataPath, metadataPath, dataToStore, metadata⟩ := prepared
    have hhash := hsame call (List.mem_of_getElem? hcall)
    obtain ⟨_, hvalid, _⟩ := (LocalCasBackend.prepare_ok_iff blake3 zstd _ _ none _).mp hprepare
    rw [hhash] at hvalid
    have hbytes : ∀ file, (calls[i]?.bind fun call => call.bytes blake3 zstd codec file) =
        some (match file with | .data => dataToStore | .metadata => codec.toVec metadata) := by
      intro file
      rw [hcall, Option.bind_some, StoreCall.bytes, hprepare]
      cases file <;> rfl
    refine ⟨hvalid, ?_⟩
    rw [LocalCasBackend.storeSteps_of_ok blake3 zstd codec hprepare, hhash] at hstart
    rcases Interleaved.sequence_of_exec hstart hrun with ⟨e, herror⟩ | ⟨hcount, hprogram⟩
    · rw [herror] at hnext
      cases hnext
    · obtain ⟨op, rest, hops, hshared, hresult⟩ := Interleaved.step_sequence hprogram hstep
      obtain ⟨file, ⟨hfirst, rfl⟩ | ⟨hsecond, rfl⟩⟩ := CasFile.ops_drop_cases (fun
        | .data => dataToStore
        | .metadata => codec.toVec metadata) hops
      · refine ⟨file, _, hbytes file, Or.inl ⟨hfirst, hshared, ?_⟩⟩
        rcases hresult with ⟨_, hprogram⟩ | ⟨e, herror, _⟩
        · exact ⟨_, hprogram⟩
        · cases herror
      · refine ⟨file, _, hbytes file, Or.inr ?_⟩
        rcases FileOp.perform_rename_cases (file.tmp hash process) (file.path hash) s.shared with
          ⟨held, hheld, hperform⟩ | ⟨hnone, e, hperform⟩
        · rw [hperform] at hshared hresult
          refine Or.inl ⟨hsecond, ?_, held, hheld, hshared⟩
          rcases hresult with ⟨_, hprogram⟩ | ⟨e, herror, _⟩
          · exact ⟨_, hprogram⟩
          · cases herror
        · rw [hperform] at hresult
          refine Or.inr ⟨hsecond, hnone, ?_⟩
          rcases hresult with ⟨hok, _⟩ | ⟨e, _, hprogram⟩
          · cases hok
          · exact ⟨e, hprogram⟩

/-- As long as calls do not overlap, none fails, and each temporary file is that of one call, with
what it wrote. -/
structure Orderly (blake3 : Bytes → ArtifactHash) (zstd : Zstd) (codec : MetadataCodec) (process : ℕ)
    (files : CasFiles) (calls : List StoreCall) (hash : ArtifactHash) (history : List ℕ) (s : StoreRun) :
    Prop where
  running : ∀ (i : ℕ) (e : CasError), s.programs[i]? ≠ some (.done (.error e))
  pending : ∀ (file : CasFile) (i j : ℕ), history.count i = file.first + 1 →
    history.count j = file.first + 1 → j = i
  written : ∀ (file : CasFile) (i : ℕ), history.count i = file.first + 1 →
    s.shared.lookup (file.tmp hash process) = calls[i]?.bind fun call => call.bytes blake3 zstd codec file
  renamed : ∀ file : CasFile,
    s.shared.lookup (file.path hash) = placed blake3 zstd codec files calls hash history file

/-- A step that does not overlap keeps the order. -/
theorem Orderly.step (hsame : ∀ call ∈ calls, call.artifact.hash = hash) {history : List ℕ}
    {s t : StoreRun} {i : ℕ} (horderly : Orderly blake3 zstd codec process files calls hash history s)
    (hrun : (interleaving FileOp.perform).exec (startStores blake3 zstd codec process files calls) history =
      some s)
    (hstep : (interleaving FileOp.perform).step s i = some t) (hno : ¬ Overlaps history i) :
    Orderly blake3 zstd codec process files calls hash (history ++ [i]) t := by
  obtain ⟨hvalid, file, bytes, hbytes, hcases⟩ := store_step_cases hsame hrun hstep
  have hrunning : (∃ ops, t.programs[i]? = some (.sequence ops)) →
      ∀ (k : ℕ) (e : CasError), t.programs[k]? ≠ some (.done (.error e)) := by
    intro hnext k e herror
    by_cases hk : k = i
    · subst hk
      obtain ⟨ops, hops⟩ := hnext
      rw [hops] at herror
      exact Program.sequence_ne_error ops e (Option.some.inj herror)
    · rw [Interleaved.step_other hstep hk] at herror
      exact horderly.running k e herror
  rcases hcases with ⟨hcount, hshared, hnext⟩ | ⟨hcount, hnext, held, hheld, hshared⟩ | ⟨hcount, hnone, _⟩
  · -- no other call waits for the file that is written
    have halone : ∀ k, history.count k ≠ file.first + 1 := fun k hk => hno ⟨file, k, hcount, hk⟩
    have hwaits : ∀ (file' : CasFile) (k : ℕ), (history ++ [i]).count k = file'.first + 1 →
        (file' = file ∧ k = i) ∨ (file' ≠ file ∧ k ≠ i ∧ history.count k = file'.first + 1) := by
      intro file' k hk
      rw [count_concat, hcount] at hk
      split at hk
      · rename_i hki
        exact Or.inl ⟨(CasFile.first_injective (Nat.succ.inj hk)).symm, hki⟩
      · rename_i hki
        refine Or.inr ⟨?_, hki, hk⟩
        rintro rfl
        exact halone k hk
    refine ⟨hrunning hnext, ?_, ?_, ?_⟩
    · intro file' k l hk hl
      rcases hwaits file' k hk with ⟨hfile, rfl⟩ | ⟨hfile, _, hk⟩
      · rcases hwaits file' l hl with ⟨_, rfl⟩ | ⟨hne, _⟩
        · rfl
        · exact absurd hfile hne
      · rcases hwaits file' l hl with ⟨heq, _⟩ | ⟨_, _, hl⟩
        · exact absurd heq hfile
        · exact horderly.pending file' k l hk hl
    · intro file' k hk
      rw [hshared]
      rcases hwaits file' k hk with ⟨rfl, rfl⟩ | ⟨hfile, _, hk⟩
      · rw [AList.lookup_insert, hbytes]
      · rw [AList.lookup_insert_ne fun heq => hfile (CasFile.tmp_injective hvalid process heq)]
        exact horderly.written file' k hk
    · intro file'
      rw [hshared, AList.lookup_insert_ne (CasFile.tmp_ne_path hvalid hvalid process file file').symm,
        horderly.renamed, placed, placed, lastRename_concat, if_neg]
      rw [hcount]
      exact CasFile.first_ne_succ file file'
  · have hwaits : ∀ (file' : CasFile) (k : ℕ), (history ++ [i]).count k = file'.first + 1 →
        k ≠ i ∧ history.count k = file'.first + 1 := by
      intro file' k hk
      rw [count_concat, hcount] at hk
      split at hk
      · exact absurd (Nat.succ.inj hk).symm (CasFile.first_ne_succ file' file)
      · rename_i hki
        exact ⟨hki, hk⟩
    refine ⟨hrunning hnext, ?_, ?_, ?_⟩
    · intro file' k l hk hl
      exact horderly.pending file' k l (hwaits file' k hk).2 (hwaits file' l hl).2
    · intro file' k hk
      obtain ⟨hki, hk⟩ := hwaits file' k hk
      have hfile : file' ≠ file := by
        rintro rfl
        exact hki (horderly.pending file' i k hcount hk)
      rw [hshared, Files.lookup_insert_erase _
        (fun heq => hfile (CasFile.tmp_injective hvalid process heq))
        (CasFile.tmp_ne_path hvalid hvalid process file' file)]
      exact horderly.written file' k hk
    · intro file'
      rw [hshared, placed, lastRename_concat, hcount]
      by_cases hfile : file' = file
      · subst hfile
        rw [if_pos rfl, AList.lookup_insert, ← hheld]
        exact horderly.written file' i hcount
      · rw [if_neg fun heq => hfile (CasFile.first_injective (Nat.succ.inj heq)).symm,
          Files.lookup_insert_erase _ (CasFile.tmp_ne_path hvalid hvalid process file file').symm
            (fun heq => hfile (CasFile.path_injective hvalid heq))]
        exact horderly.renamed file'
  · rw [horderly.written file i hcount, hbytes] at hnone
    cases hnone

/-- Calls that can be prepared start in order. -/
theorem orderly_start
    (hprepared : ∀ call ∈ calls, ∃ prepared,
      LocalCasBackend.prepare blake3 zstd call.backend call.artifact none = .ok prepared) :
    Orderly blake3 zstd codec process files calls hash []
      (startStores blake3 zstd codec process files calls) := by
  refine ⟨?_, ?_, ?_, fun file => rfl⟩
  · intro i e herror
    rw [startStores, List.getElem?_map, Option.map_eq_some_iff] at herror
    obtain ⟨call, hcall, hsteps⟩ := herror
    obtain ⟨⟨dataPath, metadataPath, dataToStore, metadata⟩, hprepare⟩ :=
      hprepared call (List.mem_of_getElem? hcall)
    rw [LocalCasBackend.storeSteps_of_ok blake3 zstd codec hprepare] at hsteps
    exact Program.sequence_ne_error _ e hsteps
  · intro file i j hi
    cases hi
  · intro file i hi
    cases hi

/-- Calls that do not overlap stay in order. -/
theorem orderly_of_noOverlap (hsame : ∀ call ∈ calls, call.artifact.hash = hash)
    (hprepared : ∀ call ∈ calls, ∃ prepared,
      LocalCasBackend.prepare blake3 zstd call.backend call.artifact none = .ok prepared)
    {events : List ℕ} {s : StoreRun} (hno : NoOverlap events)
    (hrun : (interleaving FileOp.perform).exec (startStores blake3 zstd codec process files calls) events =
      some s) :
    Orderly blake3 zstd codec process files calls hash events s := by
  induction events using List.reverseRecOn generalizing s with
  | nil =>
    cases hrun
    exact orderly_start hprepared
  | append_singleton history i ih =>
    obtain ⟨hbefore, hlast⟩ := noOverlap_concat.mp hno
    obtain ⟨s', hrun', hstep⟩ := (interleaving FileOp.perform).exec_snoc.mp hrun
    exact (ih hbefore hrun').step hsame hrun' hstep hlast

/-! ## Overlapping calls -/

/-- A rename has failed, or it will: more calls wait to rename a file than there are files to
rename. -/
def Doomed (process : ℕ) (hash : ArtifactHash) (file : CasFile) (history : List ℕ) (s : StoreRun) : Prop :=
  (∃ (i : ℕ) (e : CasError), s.programs[i]? = some (.done (.error e))) ∨
    (∃ i j, i ≠ j ∧ history.count i = file.first + 1 ∧ history.count j = file.first + 1) ∨
    (s.shared.lookup (file.tmp hash process) = none ∧ ∃ i, history.count i = file.first + 1)

/-- No step helps. -/
theorem Doomed.step (hsame : ∀ call ∈ calls, call.artifact.hash = hash) {history : List ℕ}
    {s t : StoreRun} {i : ℕ} {file : CasFile} (hdoomed : Doomed process hash file history s)
    (hrun : (interleaving FileOp.perform).exec (startStores blake3 zstd codec process files calls) history =
      some s)
    (hstep : (interleaving FileOp.perform).step s i = some t) :
    Doomed process hash file (history ++ [i]) t := by
  rcases hdoomed with ⟨k, e, herror⟩ | hwaiting
  · exact Or.inl ⟨k, e, Interleaved.done_of_step hstep herror⟩
  · obtain ⟨hvalid, file', bytes, hbytes, hcases⟩ := store_step_cases hsame hrun hstep
    -- whoever waits for the file goes on waiting, unless it renames the file in this step
    have hkept : ∀ k, history.count k = file.first + 1 →
        (history.count i = file.first + 1 → k ≠ i) → (history ++ [i]).count k = file.first + 1 := by
      intro k hk hki
      rw [count_concat, if_neg, hk]
      rintro rfl
      exact hki hk rfl
    rcases hcases with ⟨hcount, hshared, _⟩ | ⟨hcount, _, held, hheld, hshared⟩ | ⟨_, _, e, herror⟩
    · have hother : history.count i ≠ file.first + 1 := by
        rw [hcount]
        exact CasFile.first_ne_succ file' file
      rcases hwaiting with ⟨k, l, hne, hk, hl⟩ | ⟨hnone, k, hk⟩
      · exact Or.inr (Or.inl ⟨k, l, hne, hkept k hk fun h => absurd h hother,
          hkept l hl fun h => absurd h hother⟩)
      · by_cases hfile : file' = file
        · subst hfile
          have hki : k ≠ i := by
            rintro rfl
            exact hother hk
          refine Or.inr (Or.inl ⟨i, k, hki.symm, ?_, hkept k hk fun h => absurd h hother⟩)
          rw [count_concat, if_pos rfl, hcount]
        · refine Or.inr (Or.inr ⟨?_, k, hkept k hk fun h => absurd h hother⟩)
          rw [hshared, AList.lookup_insert_ne fun heq => hfile (CasFile.tmp_injective hvalid process heq).symm]
          exact hnone
    · by_cases hfile : file' = file
      · subst hfile
        have hgone : t.shared.lookup (file'.tmp hash process) = none := by
          rw [hshared, AList.lookup_insert_ne (CasFile.tmp_ne_path hvalid hvalid process file' file'),
            AList.lookup_erase]
        rcases hwaiting with ⟨k, l, hne, hk, hl⟩ | ⟨hnone, _⟩
        · by_cases hki : k = i
          · exact Or.inr (Or.inr ⟨hgone, l, hkept l hl fun _ hli => hne (hki.trans hli.symm)⟩)
          · exact Or.inr (Or.inr ⟨hgone, k, hkept k hk fun _ => hki⟩)
        · rw [hnone] at hheld
          cases hheld
      · have hother : history.count i ≠ file.first + 1 := by
          rw [hcount]
          exact fun heq => hfile (CasFile.first_injective (Nat.succ.inj heq))
        rcases hwaiting with ⟨k, l, hne, hk, hl⟩ | ⟨hnone, k, hk⟩
        · exact Or.inr (Or.inl ⟨k, l, hne, hkept k hk fun h => absurd h hother,
            hkept l hl fun h => absurd h hother⟩)
        · refine Or.inr (Or.inr ⟨?_, k, hkept k hk fun h => absurd h hother⟩)
          rw [hshared, Files.lookup_insert_erase _
            (fun heq => hfile (CasFile.tmp_injective hvalid process heq).symm)
            (CasFile.tmp_ne_path hvalid hvalid process file file')]
          exact hnone
    · exact Or.inl ⟨i, e, herror⟩

/-- A call that writes a file while another waits to rename it dooms them. -/
theorem doomed_of_overlaps {history : List ℕ} {i : ℕ} (hoverlaps : Overlaps history i) (process : ℕ)
    (hash : ArtifactHash) (t : StoreRun) : ∃ file, Doomed process hash file (history ++ [i]) t := by
  obtain ⟨file, j, hi, hj⟩ := hoverlaps
  have hne : j ≠ i := by
    rintro rfl
    rw [hi] at hj
    exact CasFile.first_ne_succ file file hj
  refine ⟨file, Or.inr (Or.inl ⟨i, j, hne.symm, ?_, ?_⟩)⟩
  · rw [count_concat, if_pos rfl, hi]
  · rw [count_concat, if_neg hne, hj]

/-- Overlapping calls are doomed for the rest of the run. -/
theorem doomed_of_overlap (hsame : ∀ call ∈ calls, call.artifact.hash = hash) {events : List ℕ}
    {s : StoreRun} (hoverlap : ¬ NoOverlap events)
    (hrun : (interleaving FileOp.perform).exec (startStores blake3 zstd codec process files calls) events =
      some s) :
    ∃ file, Doomed process hash file events s := by
  induction events using List.reverseRecOn generalizing s with
  | nil =>
    refine absurd (fun history i hinitial => ?_) hoverlap
    cases history <;> cases List.prefix_nil.mp hinitial
  | append_singleton history i ih =>
    obtain ⟨s', hrun', hstep⟩ := (interleaving FileOp.perform).exec_snoc.mp hrun
    by_cases hbefore : NoOverlap history
    · have hlast : Overlaps history i := by
        by_contra hno
        exact hoverlap (noOverlap_concat.mpr ⟨hbefore, hno⟩)
      exact doomed_of_overlaps hlast process hash s
    · obtain ⟨file, hdoomed⟩ := ih hbefore hrun'
      exact ⟨file, hdoomed.step hsame hrun' hstep⟩

/-- When doomed calls have finished, one has failed. -/
theorem Doomed.failed {events : List ℕ} {s : StoreRun} {file : CasFile}
    (hdoomed : Doomed process hash file events s)
    (hrun : (interleaving FileOp.perform).exec (startStores blake3 zstd codec process files calls) events =
      some s) (hfinished : s.Finished) :
    ∃ (i : ℕ) (e : CasError), s.programs[i]? = some (.done (.error e)) := by
  -- a call that waits to rename a file has not finished
  have hwaits : ∀ k, events.count k = file.first + 1 →
      ∃ e : CasError, s.programs[k]? = some (.done (.error e)) := by
    intro k hk
    have hlt : k < calls.length := by
      have hlt := Interleaved.lt_of_mem_history hrun
        (List.count_pos_iff.mp (by rw [hk]; exact Nat.succ_pos _))
      rwa [startStores, List.length_map] at hlt
    have hstart : (startStores blake3 zstd codec process files calls).programs[k]? =
        some (calls[k].backend.storeSteps blake3 zstd codec calls[k].artifact process) := by
      rw [startStores, List.getElem?_map, List.getElem?_eq_getElem hlt]
      rfl
    cases hprepare : LocalCasBackend.prepare blake3 zstd calls[k].backend calls[k].artifact none with
    | error e =>
      rw [LocalCasBackend.storeSteps_of_error blake3 zstd codec hprepare] at hstart
      exact ⟨e, Interleaved.done_of_exec hrun hstart⟩
    | ok prepared =>
      obtain ⟨dataPath, metadataPath, dataToStore, metadata⟩ := prepared
      rw [LocalCasBackend.storeSteps_of_ok blake3 zstd codec hprepare] at hstart
      rcases Interleaved.sequence_of_exec hstart hrun with herror | ⟨_, hprogram⟩
      · exact herror
      · have hended := hfinished _ (List.mem_of_getElem? hprogram)
        rw [hk] at hended
        cases file <;> cases hended
  rcases hdoomed with hfailed | ⟨k, _, _, hk, _⟩ | ⟨_, k, hk⟩
  · exact hfailed
  · exact ⟨k, hwaits k hk⟩
  · exact ⟨k, hwaits k hk⟩

/-! ## All calls -/

/-- Something that happened more than so many times has a last time after that. -/
theorem lastAfter_of_count {n i : ℕ} {l : List ℕ} (hi : n < l.count i) :
    ∃ j, lastAfter n l = some j ∧ n < l.count j := by
  induction l with
  | nil => cases hi
  | cons k earlier ih =>
    rw [lastAfter]
    by_cases hk : earlier.count k = n
    · exact ⟨k, if_pos hk, by rw [List.count_cons_self, hk]; exact Nat.lt_succ_self n⟩
    · have hearlier : n < earlier.count i := by
        by_cases hki : k = i
        · subst hki
          rw [List.count_cons_self] at hi
          omega
        · rwa [List.count_cons_of_ne hki] at hi
      obtain ⟨j, hlast, hj⟩ := ih hearlier
      exact ⟨j, (if_neg hk).trans hlast, hj.trans_le List.count_le_count_cons⟩

/-- Calls that have finished in order have renamed both files. -/
theorem lastRename_of_finished (file : CasFile) {events : List ℕ} {s : StoreRun} (hsome : calls ≠ [])
    (hprepared : ∀ call ∈ calls, ∃ prepared,
      LocalCasBackend.prepare blake3 zstd call.backend call.artifact none = .ok prepared)
    (horderly : Orderly blake3 zstd codec process files calls hash events s)
    (hrun : (interleaving FileOp.perform).exec (startStores blake3 zstd codec process files calls) events =
      some s) (hfinished : s.Finished) :
    ∃ i, lastRename file events = some i ∧ i < calls.length := by
  have hpos := List.length_pos_of_ne_nil hsome
  have hstart : (startStores blake3 zstd codec process files calls).programs[0]? =
      some (calls[0].backend.storeSteps blake3 zstd codec calls[0].artifact process) := by
    rw [startStores, List.getElem?_map, List.getElem?_eq_getElem hpos]
    rfl
  obtain ⟨⟨dataPath, metadataPath, dataToStore, metadata⟩, hprepare⟩ :=
    hprepared calls[0] (List.getElem_mem hpos)
  rw [LocalCasBackend.storeSteps_of_ok blake3 zstd codec hprepare] at hstart
  have hcount : file.first + 1 < events.count 0 := by
    rcases Interleaved.sequence_of_exec hstart hrun with ⟨e, herror⟩ | ⟨_, hprogram⟩
    · exact absurd herror (horderly.running 0 e)
    · have hended := hfinished _ (List.mem_of_getElem? hprogram)
      revert hended
      rcases events.count 0 with _ | _ | _ | _ | n
      · exact nofun
      · exact nofun
      · exact nofun
      · exact nofun
      · intro _
        cases file <;> simp only [CasFile.first] <;> omega
  obtain ⟨i, hlast, hi⟩ := lastAfter_of_count (l := events.reverse)
    (by rw [List.count_reverse]; exact hcount)
  refine ⟨i, hlast, ?_⟩
  have hlt := Interleaved.lt_of_mem_history hrun
    (List.count_pos_iff.mp (by rw [← List.count_reverse]; exact Nat.zero_lt_of_lt hi))
  rwa [startStores, List.length_map] at hlt

/-- Every call has returned without an error. -/
def AllOk (s : StoreRun) : Prop := ∀ p ∈ s.programs, p.value? = some (.ok ())

/-- Calls that all succeed could be prepared. -/
theorem AllOk.prepared {events : List ℕ} {s : StoreRun} (hok : AllOk s)
    (hrun : (interleaving FileOp.perform).exec (startStores blake3 zstd codec process files calls) events =
      some s) :
    ∀ call ∈ calls, ∃ prepared,
      LocalCasBackend.prepare blake3 zstd call.backend call.artifact none = .ok prepared := by
  intro call hmem
  cases hprepare : LocalCasBackend.prepare blake3 zstd call.backend call.artifact none with
  | ok prepared => exact ⟨prepared, rfl⟩
  | error e =>
    obtain ⟨i, hi⟩ := List.mem_iff_getElem?.mp hmem
    have hstart : (startStores blake3 zstd codec process files calls).programs[i]? =
        some (.done (.error e)) := by
      rw [startStores, List.getElem?_map, hi, Option.map_some,
        LocalCasBackend.storeSteps_of_error blake3 zstd codec hprepare]
    cases hok _ (List.mem_of_getElem? (Interleaved.done_of_exec hrun hstart))

/-- No call has failed when all have succeeded. -/
theorem AllOk.not_failed {s : StoreRun} (hok : AllOk s) :
    ¬ ∃ (i : ℕ) (e : CasError), s.programs[i]? = some (.done (.error e)) := by
  intro hfailed
  obtain ⟨i, e, herror⟩ := hfailed
  cases hok _ (List.mem_of_getElem? herror)

variable (blake3 zstd codec)

/-- All calls succeed and the artifact can be read at the end exactly when all can be prepared, none
writes a file while another has written its own and has not renamed it, and the data and the
description that are renamed last make data with the hash. -/
theorem stores_safe_iff_noOverlap (process : ℕ) (files : CasFiles) (calls : List StoreCall)
    (hash : ArtifactHash) (hsame : ∀ call ∈ calls, call.artifact.hash = hash) (events : List ℕ)
    (s : StoreRun)
    (hrun : (interleaving FileOp.perform).exec (startStores blake3 zstd codec process files calls) events =
      some s) (hfinished : s.Finished) :
    (AllOk s ∧ ∃ data, LocalCasBackend.Retrievable blake3 zstd codec s.shared hash data) ↔
      (∀ call ∈ calls, ∃ prepared,
        LocalCasBackend.prepare blake3 zstd call.backend call.artifact none = .ok prepared) ∧
      NoOverlap events ∧ validateHash hash.str = .ok () ∧ ∃ data,
        LocalCasBackend.FilesMake blake3 zstd codec hash
          (placed blake3 zstd codec files calls hash events .data)
          (placed blake3 zstd codec files calls hash events .metadata) data := by
  simp only [LocalCasBackend.retrievable_iff, exists_and_left]
  constructor
  · intro h
    obtain ⟨hok, hvalid, data, hmake⟩ := h
    have hprepared := hok.prepared hrun
    have hno : NoOverlap events := by
      by_contra hoverlap
      obtain ⟨file, hdoomed⟩ := doomed_of_overlap hsame hoverlap hrun
      exact hok.not_failed (hdoomed.failed hrun hfinished)
    have horderly := orderly_of_noOverlap hsame hprepared hno hrun
    refine ⟨hprepared, hno, hvalid, data, ?_⟩
    rw [← horderly.renamed .data, ← horderly.renamed .metadata]
    exact hmake
  · intro h
    obtain ⟨hprepared, hno, hvalid, data, hmake⟩ := h
    have horderly := orderly_of_noOverlap hsame hprepared hno hrun
    refine ⟨fun p hmem => ?_, hvalid, data, ?_⟩
    · obtain ⟨i, hi⟩ := List.mem_iff_getElem?.mp hmem
      obtain ⟨result, hresult⟩ := Option.isSome_iff_exists.mp (hfinished p hmem)
      cases result with
      | ok => exact hresult
      | error e =>
        rw [Program.value?_eq_some_iff.mp hresult] at hi
        exact absurd hi (horderly.running i e)
    · rw [← horderly.renamed .data, ← horderly.renamed .metadata] at hmake
      exact hmake

/-- When the descriptions of all calls name the same algorithm, or none, and each call alone would
read back, then whatever is renamed last makes data with the hash. -/
theorem placed_make_of_same_compression (process : ℕ) (files : CasFiles) (calls : List StoreCall)
    (hash : ArtifactHash) (hsome : calls ≠ []) (hsame : ∀ call ∈ calls, call.artifact.hash = hash)
    (hprepared : ∀ call ∈ calls, ∃ prepared,
      LocalCasBackend.prepare blake3 zstd call.backend call.artifact none = .ok prepared)
    (compression : Option String)
    (hcompression : ∀ call ∈ calls, ∀ encoded,
      LocalCasBackend.encode zstd call.backend call.artifact = .ok encoded →
        encoded.2.compression = compression)
    (hreadable : ∀ call ∈ calls, LocalCasBackend.KeepsReadable zstd call.backend call.artifact)
    {events : List ℕ} (hno : NoOverlap events) {s : StoreRun}
    (hrun : (interleaving FileOp.perform).exec (startStores blake3 zstd codec process files calls) events =
      some s) (hfinished : s.Finished) :
    validateHash hash.str = .ok () ∧ ∃ data, LocalCasBackend.FilesMake blake3 zstd codec hash
      (placed blake3 zstd codec files calls hash events .data)
      (placed blake3 zstd codec files calls hash events .metadata) data := by
  have horderly := orderly_of_noOverlap hsame hprepared hno hrun
  have hplaced : ∀ file, ∃ call ∈ calls, placed blake3 zstd codec files calls hash events file =
      call.bytes blake3 zstd codec file := by
    intro file
    obtain ⟨i, hlast, hi⟩ := lastRename_of_finished file hsome hprepared horderly hrun hfinished
    exact ⟨calls[i], List.getElem_mem hi, by
      rw [placed, hlast]
      simp only [List.getElem?_eq_getElem hi, Option.bind_some]⟩
  obtain ⟨call, hmem, hdata⟩ := hplaced .data
  obtain ⟨call', hmem', hmetadata⟩ := hplaced .metadata
  obtain ⟨⟨_, _, dataToStore, metadata⟩, hprepare⟩ := hprepared call hmem
  obtain ⟨⟨_, _, dataToStore', metadata'⟩, hprepare'⟩ := hprepared call' hmem'
  obtain ⟨hhash, hvalid, _, hencode, _⟩ :=
    (LocalCasBackend.prepare_ok_iff blake3 zstd _ _ none _).mp hprepare
  obtain ⟨_, _, _, hencode', _⟩ := (LocalCasBackend.prepare_ok_iff blake3 zstd _ _ none _).mp hprepare'
  rw [hsame call hmem] at hhash hvalid
  have hdecode := (LocalCasBackend.decodeStored_encode_iff zstd hencode).2.mpr (hreadable call hmem)
  have hsameTag : metadata'.compression = metadata.compression :=
    (hcompression call' hmem' _ hencode').trans (hcompression call hmem _ hencode).symm
  refine ⟨hvalid, call.artifact.data, dataToStore, codec.toVec metadata', metadata', ?_, ?_,
    codec.fromSlice_toVec metadata', ?_, ?_, hhash⟩
  · rw [hdata, StoreCall.bytes, hprepare]
  · rw [hmetadata, StoreCall.bytes, hprepare']
  · rw [(LocalCasBackend.decodeStored_encode_iff zstd hencode').1]
    exact hsame call' hmem'
  · rw [LocalCasBackend.decodeStored, hsameTag]
    exact hdecode

/-- A call of a store that does not compress, for the sample data. -/
def sampleCall : StoreCall := ⟨⟨.none⟩, sampleArtifact⟩

/-- Two calls write their data before one of them renames it: the other fails. -/
theorem not_stores_safe_overlap :
    ∃ s, (interleaving FileOp.perform).exec (startStores sampleBlake3 sampleZstd
        (.ofTable sampleDescriptions) 1 ∅ [sampleCall, sampleCall]) [0, 1, 0, 1, 0, 0] = some s ∧
      s.Finished ∧ ¬ (AllOk s ∧ ∃ data, LocalCasBackend.Retrievable sampleBlake3 sampleZstd
        (.ofTable sampleDescriptions) s.shared sampleHash data) := by
  have hresults : ((interleaving FileOp.perform).exec (startStores sampleBlake3 sampleZstd
      (.ofTable sampleDescriptions) 1 ∅ [sampleCall, sampleCall]) [0, 1, 0, 1, 0, 0]).map
        (fun s => s.programs.map Program.value?) =
      some ([.ok (), .error (.io "No such file or directory (os error 2)")].map some) := by
    decide +kernel
  obtain ⟨s, hrun, hvalues⟩ := Option.map_eq_some_iff.mp hresults
  refine ⟨s, hrun, Interleaved.finished_of_values
    hvalues, fun h => ?_⟩
  have hvalue : some (.error (.io "No such file or directory (os error 2)")) ∈
      s.programs.map Program.value? := by
    rw [hvalues]
    exact List.mem_pair.mpr (Or.inr rfl)
  obtain ⟨p, hmem, hvalue⟩ := List.mem_map.mp hvalue
  rw [h.1 p hmem] at hvalue
  cases hvalue

/-- Whether two calls one after the other are safe. -/
theorem stores_safe_iff_noOverlap_apart :
    ∃ s, (interleaving FileOp.perform).exec (startStores sampleBlake3 sampleZstd
        (.ofTable sampleDescriptions) 1 ∅ [sampleCall, sampleCall]) [0, 0, 0, 0, 1, 1, 1, 1] = some s ∧
      ((AllOk s ∧ ∃ data, LocalCasBackend.Retrievable sampleBlake3 sampleZstd
          (.ofTable sampleDescriptions) s.shared sampleHash data) ↔
        (∀ call ∈ [sampleCall, sampleCall], ∃ prepared,
          LocalCasBackend.prepare sampleBlake3 sampleZstd call.backend call.artifact none =
            .ok prepared) ∧
        NoOverlap [0, 0, 0, 0, 1, 1, 1, 1] ∧ validateHash sampleHash.str = .ok () ∧ ∃ data,
          LocalCasBackend.FilesMake sampleBlake3 sampleZstd (.ofTable sampleDescriptions) sampleHash
            (placed sampleBlake3 sampleZstd (.ofTable sampleDescriptions) ∅ [sampleCall, sampleCall]
              sampleHash [0, 0, 0, 0, 1, 1, 1, 1] .data)
            (placed sampleBlake3 sampleZstd (.ofTable sampleDescriptions) ∅ [sampleCall, sampleCall]
              sampleHash [0, 0, 0, 0, 1, 1, 1, 1] .metadata) data) := by
  have hresults : ((interleaving FileOp.perform).exec (startStores sampleBlake3 sampleZstd
      (.ofTable sampleDescriptions) 1 ∅ [sampleCall, sampleCall]) [0, 0, 0, 0, 1, 1, 1, 1]).map
        (fun s => s.programs.map Program.value?) =
      some ([.ok (), .ok ()].map some) := by
    decide +kernel
  obtain ⟨s, hrun, hvalues⟩ := Option.map_eq_some_iff.mp hresults
  refine ⟨s, hrun, stores_safe_iff_noOverlap sampleBlake3 sampleZstd (.ofTable sampleDescriptions) 1 ∅
    [sampleCall, sampleCall] sampleHash ?_ _ s hrun (Interleaved.finished_of_values hvalues)⟩
  intro call hmem
  rcases List.mem_pair.mp hmem with rfl | rfl <;> rfl

end Calls

end Forge.Cas
