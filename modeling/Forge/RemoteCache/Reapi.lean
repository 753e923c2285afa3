import Forge.Common.ContentStore
import Forge.Common.Files
import Forge.Common.Histories
import Forge.Common.Utf8
import Forge.Fingerprint.Combine

/-!
# The client of the remote execution API

A client keeps results of actions under the hashes of their digests, and blobs under the hashes
of theirs. Blobs are filed under the hash of what was written, but for those that are uploaded
with digests of the caller: nothing is checked there. The flag of an action that forbids to
cache it is not looked at.
-/

namespace Forge.RemoteCache.Reapi

open Forge.Common

/-- The digest of a blob: its hash and its size. -/
structure ReapiDigest where
  hash : String
  sizeBytes : ℤ
deriving DecidableEq, Repr

/-- A command with its outputs. -/
structure ReapiCommand where
  arguments : List String
  environmentVariables : AList fun _ : String => String
  outputFiles : List String
  outputDirectories : List String
  workingDirectory : String

/-- An action. -/
structure ReapiAction where
  commandDigest : Option ReapiDigest
  inputRootDigest : Option ReapiDigest
  timeoutSeconds : ℤ
  doNotCache : Bool
deriving DecidableEq, Repr

/-- An output of an action. -/
structure ReapiOutputFile where
  path : String
  digest : Option ReapiDigest
  isExecutable : Bool
deriving DecidableEq, Repr

/-- The result of an action. -/
structure ReapiActionResult where
  outputFiles : List ReapiOutputFile
  exitCode : ℤ
  stdoutRaw : Option Bytes
  stderrRaw : Option Bytes
  stdoutDigest : Option ReapiDigest
  stderrDigest : Option ReapiDigest
  executionMetadata : AList fun _ : String => String

/-- A client with its results and its blobs. -/
structure ReapiClient where
  actionCache : AList fun _ : String => ReapiActionResult
  casStorage : AList fun _ : String => Bytes

/-- A process that is started. -/
structure Invocation where
  program : String
  args : List String
  currentDir : Option String
  environment : AList fun _ : String => String

/-- What a process leaves. It has no code when a signal ended it. -/
structure ProcessOutput where
  code : Option ℤ
  stdout : Bytes
  stderr : Bytes

/-- What is at the path of an output after the command. -/
inductive OutputState where
  | missing
  | unreadable
  | content (data : Bytes)

/-- What a command meets: the directories there are, how a process ends, and the outputs after it. -/
structure Surroundings where
  dirExists : String → Bool
  spawn : Invocation → Except String ProcessOutput
  output : String → OutputState

namespace ReapiClient

/-- A new client. -/
def new : ReapiClient := ⟨∅, ∅⟩

section Operations

variable (hash : Bytes → String) (client : ReapiClient)

/-- The digest of data. -/
def fromBytes (data : Bytes) : ReapiDigest := ⟨hash data, data.length⟩

/-- The result of an action that is kept. -/
def getActionResult (actionDigest : ReapiDigest) : Option ReapiActionResult :=
  client.actionCache.lookup actionDigest.hash

/-- Keep the result of an action. -/
def updateActionResult (actionDigest : ReapiDigest) (result : ReapiActionResult) : ReapiClient :=
  { client with actionCache := client.actionCache.insert actionDigest.hash result }

/-- Read a blob. -/
def readBlob (digest : ReapiDigest) : Option Bytes :=
  client.casStorage.lookup digest.hash

/-- Write a blob. -/
def writeBlob (data : Bytes) : ReapiDigest × ReapiClient :=
  let digest := fromBytes hash data
  (digest, { client with casStorage := client.casStorage.insert digest.hash data })

/-- The digests whose blobs are missing. -/
def findMissingBlobs (digests : List ReapiDigest) : List ReapiDigest :=
  digests.filter fun digest => !(client.casStorage.lookup digest.hash).isSome

/-- Upload blobs with their digests. -/
def batchUpdateBlobs (blobs : List (ReapiDigest × Bytes)) : List ReapiDigest × ReapiClient :=
  blobs.foldl (fun (uploaded, client) (digest, data) =>
    (uploaded ++ [digest], { client with casStorage := client.casStorage.insert digest.hash data })) ([], client)

/-- Run a command: its exit code and what it printed. -/
def runCommand (around : Surroundings) (command : ReapiCommand) : ℤ × Option Bytes × Option Bytes :=
  match command.arguments with
  | program :: args =>
    let currentDir :=
      if command.workingDirectory ≠ "" ∧ around.dirExists command.workingDirectory = true then
        some command.workingDirectory
      else none
    match around.spawn ⟨program, args, currentDir, command.environmentVariables⟩ with
    | .ok out => (out.code.getD 1, some out.stdout, some out.stderr)
    | .error e => (1, none, some (utf8Bytes ("execution failed: " ++ e)))
  | [] => (0, none, none)

/-- What is hashed for an output. An output that cannot be read counts as its path. -/
def outputContent (around : Surroundings) (path : String) : Bytes :=
  match around.output path with
  | .content data => data
  | .missing => utf8Bytes path
  | .unreadable => utf8Bytes path

/-- Write the outputs of a command. -/
def storeOutputs (around : Surroundings) : List String → ReapiClient → List ReapiOutputFile × ReapiClient
  | [], client => ([], client)
  | path :: paths, client =>
    let (digest, client) := client.writeBlob hash (outputContent around path)
    let (files, client) := storeOutputs around paths client
    (⟨path, some digest, false⟩ :: files, client)

/-- Execute an action, or answer with the result that is kept for it. -/
def executeAction (around : Surroundings) (actionDigest : ReapiDigest) (_action : ReapiAction) (command : ReapiCommand) :
    ReapiActionResult × ReapiClient :=
  match client.getActionResult actionDigest with
  | some cached => (cached, client)
  | none =>
    let (exitCode, stdoutRaw, stderrRaw) := runCommand around command
    let (outputFiles, client) := storeOutputs hash around command.outputFiles client
    let result : ReapiActionResult := {
      outputFiles := outputFiles
      exitCode := exitCode
      stdoutRaw := stdoutRaw
      stderrRaw := stderrRaw
      stdoutDigest := none
      stderrDigest := none
      executionMetadata := (∅ : AList fun _ : String => String).insert "executor" "fish-reapi-native" }
    (result, client.updateActionResult actionDigest result)

end Operations

section Effects

variable {hash : Bytes → String} {client : ReapiClient}

/-- Uploading files all blobs under the hashes of their digests. -/
theorem batchUpdateBlobs_eq (client : ReapiClient) (blobs : List (ReapiDigest × Bytes)) :
    client.batchUpdateBlobs blobs = (blobs.map Prod.fst,
      { client with casStorage := insertAll (blobs.map fun blob => (blob.1.hash, blob.2)) client.casStorage }) := by
  have hgeneral : ∀ uploaded, blobs.foldl (fun (uploaded, client) (digest, data) =>
      (uploaded ++ [digest], { client with casStorage := client.casStorage.insert digest.hash data })) (uploaded, client) =
      (uploaded ++ blobs.map Prod.fst,
        { client with casStorage := insertAll (blobs.map fun blob => (blob.1.hash, blob.2)) client.casStorage }) := by
    induction blobs generalizing client with
    | nil =>
      intro uploaded
      rw [List.map_nil, List.append_nil]
      rfl
    | cons blob blobs ih =>
      intro uploaded
      rw [List.foldl_cons, ih, List.map_cons, List.append_assoc, List.singleton_append]
      rfl
  rw [batchUpdateBlobs, hgeneral, List.nil_append]

/-- Writing outputs files all contents under their hashes. -/
theorem storeOutputs_eq (around : Surroundings) (paths : List String) (client : ReapiClient) :
    storeOutputs hash around paths client =
      (paths.map fun path => ⟨path, some (fromBytes hash (outputContent around path)), false⟩,
        ⟨client.actionCache,
          insertAll ((paths.map (outputContent around)).map fun data => (hash data, data)) client.casStorage⟩) := by
  induction paths generalizing client with
  | nil => rfl
  | cons path paths ih =>
    rw [storeOutputs, writeBlob]
    dsimp only
    rw [ih]
    rfl

/-- A result that is kept is the answer. -/
theorem executeAction_of_cached {around : Surroundings} {actionDigest : ReapiDigest} {action : ReapiAction}
    {command : ReapiCommand} {cached : ReapiActionResult} (hcached : client.getActionResult actionDigest = some cached) :
    client.executeAction hash around actionDigest action command = (cached, client) := by
  rw [executeAction, hcached]

/-- Without a result the command is run, its outputs are written and the result is kept. -/
theorem executeAction_of_missing {around : Surroundings} {actionDigest : ReapiDigest} {action : ReapiAction}
    {command : ReapiCommand} (hmissing : client.getActionResult actionDigest = none) :
    ∃ result, client.executeAction hash around actionDigest action command = (result,
        ⟨client.actionCache.insert actionDigest.hash result,
          insertAll ((command.outputFiles.map (outputContent around)).map fun data => (hash data, data))
            client.casStorage⟩) ∧
      result.outputFiles = command.outputFiles.map (fun path =>
        ⟨path, some (fromBytes hash (outputContent around path)), false⟩) ∧
      result.stdoutDigest = none ∧ result.stderrDigest = none := by
  rw [executeAction, hmissing]
  dsimp only
  rw [storeOutputs_eq]
  exact ⟨_, rfl, rfl, rfl, rfl⟩

end Effects

end ReapiClient

/-- The digests in a result. -/
def ReapiActionResult.digests (result : ReapiActionResult) : List ReapiDigest :=
  result.outputFiles.filterMap (·.digest) ++ result.stdoutDigest.toList ++ result.stderrDigest.toList

/-! ## Runs -/

/-- A call of a client that changes it. -/
inductive Event where
  | writeBlob (data : Bytes)
  | batchUpdateBlobs (blobs : List (ReapiDigest × Bytes))
  | updateActionResult (actionDigest : ReapiDigest) (result : ReapiActionResult)
  | executeAction (around : Surroundings) (actionDigest : ReapiDigest) (action : ReapiAction) (command : ReapiCommand)

section Runs

variable (hash : Bytes → String)

/-- The client after a call. -/
def ReapiClient.step (client : ReapiClient) : Event → ReapiClient
  | .writeBlob data => (client.writeBlob hash data).2
  | .batchUpdateBlobs blobs => (client.batchUpdateBlobs blobs).2
  | .updateActionResult actionDigest result => client.updateActionResult actionDigest result
  | .executeAction around actionDigest action command =>
    (client.executeAction hash around actionDigest action command).2

/-- The client after calls. -/
def ReapiClient.after (client : ReapiClient) (events : List Event) : ReapiClient :=
  events.foldl (ReapiClient.step hash) client

/-- A digest has the size of the data with its hash, if there are any. -/
def Sized (digest : ReapiDigest) : Prop :=
  ∀ data, hash data = digest.hash → digest.sizeBytes = data.length

/-- The answer to an action is a result that was kept, whatever its command does. -/
def ReapiClient.AnswersFromCache (client : ReapiClient) (actionDigest : ReapiDigest) (action : ReapiAction)
    (command : ReapiCommand) : Prop :=
  ∃ cached, client.getActionResult actionDigest = some cached ∧
    ∀ around, (client.executeAction hash around actionDigest action command).1 = cached

/-- A call is honest: after it, blobs that are read have the hashes and sizes of their digests, and the missing blobs are
those that cannot be read; the digests of a result that was computed can be read with what was hashed; and an action that
must not be cached is neither kept nor answered with a result that was kept. -/
structure ReapiClient.StepHonest (client : ReapiClient) (event : Event) : Prop where
  reads : ∀ digest data, Sized hash digest → (client.step hash event).readBlob digest = some data →
    digest.hash = hash data ∧ digest.sizeBytes = data.length
  missing : ∀ digests, (client.step hash event).findMissingBlobs digests =
    digests.filter fun digest => (client.step hash event).readBlob digest = none
  outputs : ∀ around actionDigest action command, event = .executeAction around actionDigest action command →
    client.getActionResult actionDigest = none →
    ∀ digest ∈ (client.executeAction hash around actionDigest action command).1.digests,
      ∃ data, digest = ReapiClient.fromBytes hash data ∧ (client.step hash event).readBlob digest = some data
  uncached : ∀ around actionDigest action command, event = .executeAction around actionDigest action command →
    action.doNotCache = true → ¬ client.AnswersFromCache hash actionDigest action command ∧
      (client.step hash event).actionCache = client.actionCache

/-- A call that is allowed: the last data that are uploaded for a hash have it, and no action that must not be cached is
executed. -/
def Allowed : Event → Prop
  | .writeBlob _ => True
  | .batchUpdateBlobs blobs =>
    ∀ h data, lastValue (blobs.map fun blob => (blob.1.hash, blob.2)) h = some data → h = hash data
  | .updateActionResult _ _ => True
  | .executeAction _ _ action _ => action.doNotCache = false

variable {hash}

/-- The blobs of a client are filed under their hashes exactly when every digest of the right size reads a blob of its hash
and size. -/
theorem filed_iff_reads (hhash : Function.Injective hash) {client : ReapiClient} : Filed hash client.casStorage ↔
    ∀ digest data, Sized hash digest → client.readBlob digest = some data →
      digest.hash = hash data ∧ digest.sizeBytes = data.length := by
  constructor
  · intro hfiled digest data hsized hread
    have hkey := hfiled digest.hash data hread
    exact ⟨hkey, hsized data hkey.symm⟩
  · intro hreads h data hlookup
    -- A digest with the hash and the size of the data that have this hash, if there are any.
    by_cases hknown : ∃ data', hash data' = h
    · obtain ⟨data', rfl⟩ := hknown
      refine (hreads (ReapiClient.fromBytes hash data') data (fun other hother => ?_) hlookup).1
      rw [hhash hother]
      rfl
    · exact (hreads ⟨h, 0⟩ data (fun other hother => absurd ⟨other, hother⟩ hknown) hlookup).1

/-- The missing blobs are those that cannot be read. -/
theorem findMissingBlobs_eq (client : ReapiClient) (digests : List ReapiDigest) :
    client.findMissingBlobs digests = digests.filter fun digest => client.readBlob digest = none := by
  rw [ReapiClient.findMissingBlobs]
  congr 1
  funext digest
  rw [ReapiClient.readBlob]
  cases client.casStorage.lookup digest.hash <;> rfl

/-- The blobs that a call files, with the hashes. -/
def ReapiClient.filedBy (hash : Bytes → String) (client : ReapiClient) : Event → List (String × Bytes)
  | .writeBlob data => [data].map fun data => (hash data, data)
  | .batchUpdateBlobs blobs => blobs.map fun blob => (blob.1.hash, blob.2)
  | .updateActionResult _ _ => []
  | .executeAction around actionDigest _ command =>
    if (client.getActionResult actionDigest).isSome then []
    else (command.outputFiles.map (ReapiClient.outputContent around)).map fun data => (hash data, data)

/-- The blobs after a call. -/
theorem step_casStorage (client : ReapiClient) (event : Event) :
    (client.step hash event).casStorage = insertAll (client.filedBy hash event) client.casStorage := by
  cases event with
  | writeBlob data => rfl
  | batchUpdateBlobs blobs =>
    rw [ReapiClient.step, ReapiClient.batchUpdateBlobs_eq]
    rfl
  | updateActionResult actionDigest result => rfl
  | executeAction around actionDigest action command =>
    rw [ReapiClient.step, ReapiClient.filedBy]
    cases hresult : client.getActionResult actionDigest with
    | some cached =>
      rw [ReapiClient.executeAction_of_cached hresult]
      rfl
    | none =>
      obtain ⟨result, hexecute, -⟩ := @ReapiClient.executeAction_of_missing hash client around actionDigest action command
        hresult
      rw [hexecute]
      rfl

/-- After a call, digests read blobs of their hashes and sizes exactly when the last blobs of the call have the hashes under
which they are filed. -/
theorem reads_step_iff (hhash : Function.Injective hash) {client : ReapiClient} (hfiled : Filed hash client.casStorage)
    (event : Event) : (∀ digest data, Sized hash digest → (client.step hash event).readBlob digest = some data →
      digest.hash = hash data ∧ digest.sizeBytes = data.length) ↔
    ∀ h data, lastValue (client.filedBy hash event) h = some data → h = hash data := by
  rw [← filed_iff_reads hhash, step_casStorage]
  exact hfiled.insertAll_iff _

/-- A result that is computed has digests of what was filed. -/
theorem outputs_executeAction (hhash : Function.Injective hash) {client : ReapiClient} {around : Surroundings}
    {actionDigest : ReapiDigest} {action : ReapiAction} {command : ReapiCommand}
    (hmissing : client.getActionResult actionDigest = none) {digest : ReapiDigest}
    (hdigest : digest ∈ (client.executeAction hash around actionDigest action command).1.digests) :
    ∃ data, digest = ReapiClient.fromBytes hash data ∧
      (client.executeAction hash around actionDigest action command).2.readBlob digest = some data := by
  obtain ⟨result, hexecute, hfiles, hstdout, hstderr⟩ :=
    @ReapiClient.executeAction_of_missing hash client around actionDigest action command hmissing
  rw [hexecute] at hdigest ⊢
  dsimp only at hdigest
  rw [ReapiActionResult.digests, hfiles, hstdout, hstderr, Option.toList_none, List.append_nil, List.append_nil] at hdigest
  obtain ⟨file, hfile, hfileDigest⟩ := List.mem_filterMap.mp hdigest
  obtain ⟨path, hpath, rfl⟩ := List.mem_map.mp hfile
  obtain rfl := Option.some.inj hfileDigest
  exact ⟨_, rfl, lookup_insertAll_self hhash (List.mem_map_of_mem hpath) _⟩

/-- An action is answered from the cache exactly when a result is kept for it. -/
theorem answersFromCache_iff {client : ReapiClient} {actionDigest : ReapiDigest} {action : ReapiAction}
    {command : ReapiCommand} : client.AnswersFromCache hash actionDigest action command ↔
      (client.getActionResult actionDigest).isSome = true := by
  constructor
  · intro ⟨cached, hcached, _⟩
    rw [hcached]
    rfl
  · intro hsome
    obtain ⟨cached, hcached⟩ := Option.isSome_iff_exists.mp hsome
    exact ⟨cached, hcached, fun around => by rw [ReapiClient.executeAction_of_cached hcached]⟩

/-- An action is always kept or answered with a result that was kept. -/
theorem not_uncached (client : ReapiClient) (around : Surroundings) (actionDigest : ReapiDigest) (action : ReapiAction)
    (command : ReapiCommand) : ¬ (¬ client.AnswersFromCache hash actionDigest action command ∧
      (client.executeAction hash around actionDigest action command).2.actionCache = client.actionCache) := by
  rw [answersFromCache_iff]
  intro ⟨hmissing, hkept⟩
  have hnone := Option.not_isSome_iff_eq_none.mp hmissing
  obtain ⟨result, hexecute, -⟩ := @ReapiClient.executeAction_of_missing hash client around actionDigest action command hnone
  rw [hexecute] at hkept
  dsimp only at hkept
  rw [ReapiClient.getActionResult, ← hkept, AList.lookup_insert] at hnone
  exact absurd hnone nofun

/-- A call on filed blobs is honest exactly when it is allowed. -/
theorem stepHonest_iff (hhash : Function.Injective hash) {client : ReapiClient} (hfiled : Filed hash client.casStorage)
    (event : Event) : client.StepHonest hash event ↔ Allowed hash event := by
  have hreads := reads_step_iff hhash hfiled event
  constructor
  · intro h
    cases event with
    | writeBlob data => trivial
    | batchUpdateBlobs blobs => exact hreads.mp h.reads
    | updateActionResult actionDigest result => trivial
    | executeAction around actionDigest action command =>
      rw [Allowed, Bool.eq_false_iff]
      exact fun hflag => not_uncached client around actionDigest action command
        (h.uncached around actionDigest action command rfl hflag)
  · intro hallowed
    refine ⟨hreads.mpr ?_, findMissingBlobs_eq _, ?_, ?_⟩
    · intro h data hlast
      cases event with
      | writeBlob data' => exact lastValue_map_self hlast
      | batchUpdateBlobs blobs => exact hallowed h data hlast
      | updateActionResult actionDigest result => exact absurd hlast nofun
      | executeAction around actionDigest action command =>
        rw [ReapiClient.filedBy] at hlast
        split at hlast
        · exact absurd hlast nofun
        · exact lastValue_map_self hlast
    · rintro around actionDigest action command rfl hmissing digest hdigest
      exact outputs_executeAction hhash hmissing hdigest
    · rintro around actionDigest action command rfl hflag
      exact absurd (hallowed.symm.trans hflag) Bool.false_ne_true

/-- A call that is allowed keeps blobs filed. -/
theorem filed_step (hhash : Function.Injective hash) {client : ReapiClient} (hfiled : Filed hash client.casStorage)
    {event : Event} (hallowed : Allowed hash event) : Filed hash (client.step hash event).casStorage :=
  (filed_iff_reads hhash).mpr ((stepHonest_iff hhash hfiled event).mpr hallowed).reads

/-- All calls of a run are honest exactly when all of them are allowed. -/
theorem honest_iff_allowed (hhash : Function.Injective hash) (events : List Event) :
    (∀ history event, history ++ [event] <+: events → (ReapiClient.new.after hash history).StepHonest hash event) ↔
      ∀ event ∈ events, Allowed hash event := by
  rw [← forall_steps_iff_forall_mem]
  refine forall_steps_iff (fun history => Filed hash (ReapiClient.new.after hash history).casStorage)
    (fun history event => (ReapiClient.new.after hash history).StepHonest hash event) (fun _ event => Allowed hash event)
    (filed_empty hash) (fun history event hfiled => stepHonest_iff hhash hfiled event) (fun history event hfiled hallowed => ?_)
    events
  rw [ReapiClient.after, List.foldl_append]
  exact filed_step hhash hfiled hallowed

end Runs

/-! ## Runs of note -/

open Forge.Fingerprint

/-- The values of BLAKE3 for the blobs of the sample. -/
def sampleHashes : JsonCodec.Table Bytes where
  known :=
    [(utf8Bytes "data1", "f362faa031d3265e7457430a6907759557c8a983b6f2a31214df75273fe37472"),
      (utf8Bytes "data2", "4d31fc0885ca7fdc2d167eb402a745edaa6c4e2d7af0e427ff79e675fda7fdfa"),
      (utf8Bytes "out.txt", "5c20ecb59011d6f8f52a330544c57f894846c05af31ed1f2a3866fe97aed8d17")]
  texts_nodup := by decide +kernel
  nonzero := by decide +kernel

/-- The hash of the sample. -/
def sampleHash : Bytes → String := hashOf sampleHashes

/-- A command without arguments whose output is missing. -/
def sampleExecution (doNotCache : Bool) : Event :=
  .executeAction ⟨fun _ => false, fun _ => .error "No such file or directory (os error 2)", fun _ => .missing⟩
    ⟨"action_123", 64⟩ ⟨none, none, 0, doNotCache⟩ ⟨[], ∅, ["out.txt"], [], ""⟩

/-- Writing, uploading with the right digest and executing an action that may be cached. -/
def sampleEvents : List Event :=
  [.writeBlob (utf8Bytes "data1"),
    .batchUpdateBlobs [(ReapiClient.fromBytes sampleHash (utf8Bytes "data2"), utf8Bytes "data2")], sampleExecution false]

/-- The upload and the execution of the sample are honest. -/
theorem honest_sample :
    (ReapiClient.new.after sampleHash [.writeBlob (utf8Bytes "data1")]).StepHonest sampleHash
        (.batchUpdateBlobs [(ReapiClient.fromBytes sampleHash (utf8Bytes "data2"), utf8Bytes "data2")]) ∧
      (ReapiClient.new.after sampleHash sampleEvents.dropLast).StepHonest sampleHash (sampleExecution false) := by
  have hhonest := (honest_iff_allowed (hashOf_injective sampleHashes) sampleEvents).mpr fun event hmem => by
    rw [sampleEvents, List.mem_cons, List.mem_cons, List.mem_singleton] at hmem
    rcases hmem with rfl | rfl | rfl
    · trivial
    · intro h data hlast
      exact @lastValue_map_self _ _ _ sampleHash [utf8Bytes "data2"] h data hlast
    · rfl
  exact ⟨hhonest _ _ ⟨[sampleExecution false], rfl⟩, hhonest _ _ ⟨[], rfl⟩⟩

/-- Data are read under the digest of others, and with a digest of another size; and the result of an action that must
not be cached is kept. -/
theorem not_honest_samples :
    (∃ digest, digest = ReapiClient.fromBytes sampleHash (utf8Bytes "data1") ∧
      (ReapiClient.new.after sampleHash [.batchUpdateBlobs [(digest, utf8Bytes "data2")]]).readBlob digest =
        some (utf8Bytes "data2") ∧ digest.hash ≠ sampleHash (utf8Bytes "data2")) ∧
    (∃ digest : ReapiDigest, (ReapiClient.new.after sampleHash [.writeBlob (utf8Bytes "data1")]).readBlob digest =
      some (utf8Bytes "data1") ∧ digest.sizeBytes ≠ (utf8Bytes "data1").length) ∧
    ¬ ReapiClient.new.StepHonest sampleHash (sampleExecution true) := by
  refine ⟨⟨_, rfl, by decide +kernel, by decide +kernel⟩, ⟨⟨sampleHash (utf8Bytes "data1"), 0⟩, by decide +kernel,
    by decide +kernel⟩, fun hhonest => ?_⟩
  exact not_uncached ReapiClient.new _ _ _ _ (hhonest.uncached _ _ _ _ rfl rfl)

end Forge.RemoteCache.Reapi
