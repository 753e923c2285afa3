import Forge.Common.JsonCodec
import Forge.Signing.Signature

/-!
# The verifier of artifacts

A record is accepted for an artifact when its signature verifies, its key is trusted and its
hash is the one of the content. The metadata and the time are reported as verified in any
case, and are bound to nothing that was checked.
-/

namespace Forge.Signing

open Forge.Common

/-- The verdict on a record. -/
inductive VerificationStatus where
  | valid
  | invalid
  | formatError
  | artifactNotFound
deriving DecidableEq, Repr

/-- The verdict with its details. -/
structure VerificationResult where
  status : VerificationStatus
  hashMatch : Bool
  signatureValid : Bool
  metadataVerified : Bool
  message : String
deriving DecidableEq, Repr

/-- A verifier with the keys it trusts. -/
structure ArtifactVerifier where
  trustedKeys : List Bytes

section Verify

variable (lib : Libraries) (verifier : ArtifactVerifier)

/-- Whether the key of a record is trusted. -/
def ArtifactVerifier.signerTrusted (record : ArtifactSignature) : Bool :=
  verifier.trustedKeys.any fun key => key == ((lib.decode record.signerPublicKey).toOption.getD [])

/-- What is said of a record. -/
def verdictMessage (signatureValid signerTrusted hashMatch : Bool) : String :=
  if signatureValid && signerTrusted && hashMatch then "Artifact signature verified successfully"
  else
    let reasons := (if !signatureValid then ["signature invalid"] else []) ++
      (if !signerTrusted then ["signer not trusted"] else []) ++ (if !hashMatch then ["hash mismatch"] else [])
    "Verification failed: " ++ ", ".intercalate reasons

/-- Verify a record for an artifact. -/
def ArtifactVerifier.verify (artifact : Artifact) (record : ArtifactSignature) : Except SigningError VerificationResult :=
  match artifact with
  | .missing => .ok ⟨.artifactNotFound, false, false, false, "Artifact not found"⟩
  | _ => do
    let content ← artifact.read
    let signatureValid ← verifySignature lib content record
    let signerTrusted := verifier.signerTrusted lib record
    let hashMatch := lib.encode (lib.sha256 content) == record.artifactHash
    return {
      status := if signatureValid && signerTrusted && hashMatch then .valid else .invalid
      hashMatch := hashMatch
      signatureValid := signatureValid
      metadataVerified := true
      message := verdictMessage signatureValid signerTrusted hashMatch }

end Verify

/-! ## What was signed -/

/-- A call that signs an artifact. -/
structure SignCall where
  artifact : Artifact
  keypair : SigningKeyPair
  algorithm : SignatureAlgorithm
  metadata : SbomMetadata
  now : DateTime

section Histories

variable (lib : Libraries) (history : List SignCall)

/-- The record that a call returns. -/
def SignCall.issued (call : SignCall) : Option ArtifactSignature :=
  (signArtifact lib call.artifact call.keypair call.algorithm call.metadata call.now).toOption

/-- The secret and the content of a call that returns a record. -/
def SignCall.signed (call : SignCall) : Option (FixedBytes 32 × Bytes) :=
  match call.issued lib, toArray 32 call.keypair.secretKey, call.artifact with
  | some _, some secret, .file content => some (secret, content)
  | _, _, _ => none

/-- What was signed in a history. -/
def signedIn : List (FixedBytes 32 × Bytes) := history.filterMap (SignCall.signed lib)

/-- A record that can be assembled: its signature is one of the history, or verifies for nothing. All else is free. -/
def Assembled (record : ArtifactSignature) : Prop :=
  ∀ signature : FixedBytes 64, lib.decode record.signature = .ok signature.1 →
    lib.ed25519.Obtainable (signedIn lib history) signature

variable (verifier : ArtifactVerifier) (artifact : Artifact)

/-- The holder of a trusted key signed the artifact in a call. -/
def ArtifactVerifier.Vouched (call : SignCall) : Prop :=
  ∃ secret content, call.signed lib = some (secret, content) ∧ artifact = .file content ∧
    (lib.ed25519.publicKey secret).1 ∈ verifier.trustedKeys

/-- A verdict is authentic: what is valid was signed by the holder of a trusted key, and verified metadata and
time are those of such a call. -/
def ArtifactVerifier.Authentic (record : ArtifactSignature) (result : VerificationResult) : Prop :=
  result.status = .valid → (∃ call ∈ history, verifier.Vouched lib artifact call) ∧
    (result.metadataVerified = true → ∃ call ∈ history, verifier.Vouched lib artifact call ∧
      call.metadata = record.metadata ∧ call.now = record.timestamp)

/-- A record has a signature of the artifact by the holder of a trusted key, this key and the hash of the artifact. -/
def ArtifactVerifier.Genuine (record : ArtifactSignature) : Prop :=
  record.algorithm = .ed25519 ∧ ∃ content secret, artifact = .file content ∧
    lib.decode record.signature = .ok (lib.ed25519.sign secret content).1 ∧ (secret, content) ∈ signedIn lib history ∧
      lib.decode record.signerPublicKey = .ok (lib.ed25519.publicKey secret).1 ∧
        (lib.ed25519.publicKey secret).1 ∈ verifier.trustedKeys ∧ record.artifactHash = lib.encode (lib.sha256 content)

end Histories

variable {lib : Libraries} {history : List SignCall} {verifier : ArtifactVerifier} {artifact : Artifact}
  {record : ArtifactSignature}

/-- What is signed in a history is signed in a call. -/
theorem mem_signedIn {secret : FixedBytes 32} {content : Bytes} :
    (secret, content) ∈ signedIn lib history ↔ ∃ call ∈ history, call.signed lib = some (secret, content) :=
  List.mem_filterMap

/-- When a record is valid. -/
theorem verify_valid_iff : (∃ result, verifier.verify lib artifact record = .ok result ∧ result.status = .valid) ↔
    ∃ content, artifact = .file content ∧ verifySignature lib content record = .ok true ∧
      verifier.signerTrusted lib record = true ∧ lib.encode (lib.sha256 content) = record.artifactHash := by
  cases artifact with
  | missing =>
    constructor
    · rintro ⟨result, hok, hvalid⟩
      rw [← Except.ok.inj hok] at hvalid
      exact absurd hvalid nofun
    · rintro ⟨content, hfile, -⟩
      exact absurd hfile nofun
  | unreadable error =>
    constructor
    · rintro ⟨result, hok, -⟩
      exact absurd hok nofun
    · rintro ⟨content, hfile, -⟩
      exact absurd hfile nofun
  | file content =>
    simp only [Artifact.file.injEq, exists_eq_left']
    unfold ArtifactVerifier.verify
    simp only [Artifact.read, bind, Except.bind]
    cases verifySignature lib content record with
    | error e =>
      constructor
      · rintro ⟨result, hok, -⟩
        exact absurd hok nofun
      · rintro ⟨hok, -⟩
        exact absurd hok nofun
    | ok signatureValid =>
      simp only [pure, Except.pure, Except.ok.injEq, exists_eq_left', ite_eq_left_iff, reduceCtorEq, imp_false, not_not,
        Bool.and_eq_true, beq_iff_eq, and_assoc]

/-- The key of a record is trusted if it is one of the trusted keys. -/
theorem signerTrusted_iff {key : Bytes} (hkey : lib.decode record.signerPublicKey = .ok key) :
    verifier.signerTrusted lib record = true ↔ key ∈ verifier.trustedKeys := by
  rw [ArtifactVerifier.signerTrusted, hkey, List.any_eq_true]
  simp only [Except.toOption, Option.getD_some, beq_iff_eq, exists_eq_right]

/-- Of the records that can be assembled, the genuine ones are valid. -/
theorem valid_iff_genuine (hlib : lib.Lawful) (hbound : lib.ed25519.Bound (signedIn lib history))
    (hassembled : Assembled lib history record) :
    (∃ result, verifier.verify lib artifact record = .ok result ∧ result.status = .valid) ↔
      verifier.Genuine lib history artifact record := by
  rw [verify_valid_iff]
  constructor
  · intro ⟨content, hfile, hverify, htrusted, hhash⟩
    obtain ⟨halgorithm, signature, key, hsignature, hkey, -, hvalid⟩ := verifySignature_eq_ok.mp hverify
    obtain ⟨secret, hsigned, hpublic, hsign⟩ := (hbound.verify_iff (hassembled signature hsignature)).mp hvalid.symm
    rw [signerTrusted_iff hkey] at htrusted
    rw [← hsign] at hsignature
    rw [← hpublic] at hkey htrusted
    exact ⟨halgorithm, content, secret, hfile, hsignature, hsigned, hkey, htrusted, hhash.symm⟩
  · intro ⟨halgorithm, content, secret, hfile, hsignature, _, hkey, htrusted, hhash⟩
    refine ⟨content, hfile, ?_, (signerTrusted_iff hkey).mpr htrusted, hhash.symm⟩
    rw [verifySignature_eq_ok]
    exact ⟨halgorithm, _, _, hsignature, hkey, hlib.checkKey_publicKey secret, (lib.ed25519.verify_sign _ _).symm⟩

/-- A genuine record has a call by the holder of a trusted key. -/
theorem ArtifactVerifier.Genuine.vouched (h : verifier.Genuine lib history artifact record) :
    ∃ call ∈ history, verifier.Vouched lib artifact call := by
  obtain ⟨-, content, secret, hfile, -, hsigned, -, htrusted, -⟩ := h
  obtain ⟨call, hcall, hcontent⟩ := mem_signedIn.mp hsigned
  exact ⟨call, hcall, secret, content, hcontent, hfile, htrusted⟩

/-- Metadata and time are reported as verified for everything that is valid. -/
theorem metadataVerified_of_valid {result : VerificationResult} (hok : verifier.verify lib artifact record = .ok result)
    (hvalid : result.status = .valid) : result.metadataVerified = true := by
  cases artifact with
  | missing =>
    rw [← Except.ok.inj hok] at hvalid
    exact absurd hvalid nofun
  | unreadable error => exact absurd hok nofun
  | file content =>
    unfold ArtifactVerifier.verify at hok
    simp only [Artifact.read, bind, Except.bind] at hok
    cases hverify : verifySignature lib content record with
    | error e =>
      rw [hverify] at hok
      exact absurd hok nofun
    | ok signatureValid =>
      rw [hverify] at hok
      rw [← Except.ok.inj hok]

/-- The verdicts on a record that can be assembled are authentic exactly when it is not genuine, or has the metadata and
the time of a call by the holder of a trusted key. -/
theorem authentic_iff (hlib : lib.Lawful) (hbound : lib.ed25519.Bound (signedIn lib history))
    (hassembled : Assembled lib history record) :
    (∀ result, verifier.verify lib artifact record = .ok result →
      verifier.Authentic lib history artifact record result) ↔
    (verifier.Genuine lib history artifact record → ∃ call ∈ history, verifier.Vouched lib artifact call ∧
      call.metadata = record.metadata ∧ call.now = record.timestamp) := by
  have hgenuine := @valid_iff_genuine lib history verifier artifact record hlib hbound hassembled
  constructor
  · intro hauthentic h
    obtain ⟨result, hok, hvalid⟩ := hgenuine.mpr h
    exact (hauthentic result hok hvalid).2 (metadataVerified_of_valid hok hvalid)
  · intro hbelongs result hok hvalid
    have h := hgenuine.mp ⟨result, hok, hvalid⟩
    exact ⟨h.vouched, fun _ => hbelongs h⟩

/-! ## A record with other metadata -/

/-- A secret. -/
def sampleSecret : FixedBytes 32 :=
  ⟨[157, 97, 177, 157, 239, 253, 90, 96, 186, 132, 74, 244, 146, 236, 44, 196, 68, 73, 197, 105, 123, 50, 105, 25, 112, 59,
    172, 3, 28, 174, 127, 96], by decide⟩

/-- Its key. -/
def sampleKey : FixedBytes 32 :=
  ⟨[215, 90, 152, 1, 130, 177, 10, 183, 213, 75, 254, 211, 201, 100, 7, 58, 14, 225, 114, 243, 218, 166, 35, 37, 175, 2, 26,
    104, 247, 7, 81, 26], by decide⟩

/-- The signature of `app` with the secret. -/
def sampleSignature : FixedBytes 64 :=
  ⟨[206, 200, 96, 74, 140, 240, 183, 197, 120, 245, 121, 246, 240, 193, 151, 60, 63, 96, 141, 124, 160, 2, 128, 184, 171, 39,
    60, 75, 141, 10, 199, 30, 149, 203, 81, 79, 11, 73, 28, 159, 217, 165, 211, 155, 92, 211, 5, 189, 50, 131, 151, 207, 29,
    9, 227, 21, 126, 253, 155, 172, 129, 99, 122, 10], by decide⟩

/-- The hash of `app`. -/
def sampleHash : Bytes :=
  [161, 114, 206, 220, 174, 71, 71, 75, 97, 92, 84, 213, 16, 165, 216, 74, 141, 234, 48, 50, 233, 88, 88, 116, 48, 180, 19,
    83, 139, 227, 243, 51]

/-- The Base64 of the key, the signature and the hash. -/
def sampleTexts : JsonCodec.Table Bytes where
  known :=
    [(sampleKey.1, "11qYAYKxCrfVS/7TyWQHOg7hcvPapiMlrwIaaPcHURo="),
      (sampleSignature.1, "zshgSozwt8V49Xn28MGXPD9gjXygAoC4qyc8S40Kxx6Vy1FPC0kcn9ml05tc0wW9MoOXzx0J4xV+/ZusgWN6Cg=="),
      (sampleHash, "oXLO3K5HR0thXFTVEKXYSo3qMDLpWFh0MLQTU4vj8zM=")]
  texts_nodup := by decide +kernel
  nonzero := by decide +kernel

/-- Zeros in place of a signature. -/
def noSignature : FixedBytes 64 := ⟨List.replicate 64 0, by decide⟩

/-- The key of a secret. -/
def sampleKeyOf (secret : FixedBytes 32) : FixedBytes 32 :=
  if secret = sampleSecret then sampleKey else secret

/-- The signature of a message. Messages and keys outside the sample have none of note. -/
def sampleSignatureOf (key : FixedBytes 32) (message : Bytes) : FixedBytes 64 :=
  if key = sampleKey ∧ message = utf8Bytes "app" then sampleSignature else noSignature

/-- The libraries on the sample. -/
def sampleLibraries : Libraries where
  encode := (JsonCodec.ofTable sampleTexts).toStr
  decode := (JsonCodec.ofTable sampleTexts).fromStr
  sha256 content := if content = utf8Bytes "app" then sampleHash else content
  ed25519 := .unique sampleKeyOf sampleSignatureOf
  checkKey _ := .ok ()

/-- The libraries are lawful. -/
theorem sampleLibraries_lawful : sampleLibraries.Lawful where
  decode_encode := (JsonCodec.ofTable sampleTexts).fromStr_toStr
  checkKey_publicKey _ := rfl

/-- The metadata of the sample. -/
def sampleMetadata (version : String) : SbomMetadata := ⟨"app", version, "1", [], [], none, 0, ∅⟩

/-- The sample is signed once, as version 1. -/
def sampleCall : SignCall :=
  ⟨.file (utf8Bytes "app"), ⟨sampleKey.1, sampleSecret.1⟩, .ed25519, sampleMetadata "1", 1⟩

/-- The record of the call, with a version. -/
def sampleRecord (version : String) : ArtifactSignature :=
  ⟨.ed25519, "zshgSozwt8V49Xn28MGXPD9gjXygAoC4qyc8S40Kxx6Vy1FPC0kcn9ml05tc0wW9MoOXzx0J4xV+/ZusgWN6Cg==",
    "oXLO3K5HR0thXFTVEKXYSo3qMDLpWFh0MLQTU4vj8zM=", 1, sampleMetadata version,
    "11qYAYKxCrfVS/7TyWQHOg7hcvPapiMlrwIaaPcHURo="⟩

/-- The verifier trusts the key. -/
def sampleVerifier : ArtifactVerifier := ⟨[sampleKey.1]⟩

/-- What was signed. -/
theorem signedIn_sample : signedIn sampleLibraries [sampleCall] = [(sampleSecret, utf8Bytes "app")] := by
  decide +kernel

/-- The signature of the sample is bound. -/
theorem bound_sample : sampleLibraries.ed25519.Bound (signedIn sampleLibraries [sampleCall]) := by
  rw [signedIn_sample]
  refine @SignatureScheme.unique_bound _ _ _ _ _ _ sampleKeyOf sampleSignatureOf fun call hcall key message hsame => ?_
  obtain rfl := List.mem_singleton.mp hcall
  have hkey : sampleKeyOf sampleSecret = sampleKey := if_pos rfl
  dsimp only at hsame ⊢
  rw [hkey, sampleSignatureOf, if_pos ⟨rfl, rfl⟩, sampleSignatureOf] at hsame
  rw [hkey]
  split at hsame
  · rename_i hother
    exact hother
  · exact absurd hsame (by decide +kernel)

/-- The signature of the sample decodes to what was signed. -/
theorem decode_sample (version : String) :
    sampleLibraries.decode (sampleRecord version).signature = .ok sampleSignature.1 := by
  have hencode : (sampleRecord version).signature = sampleLibraries.encode sampleSignature.1 := by
    have hknown : sampleLibraries.encode sampleSignature.1 =
        "zshgSozwt8V49Xn28MGXPD9gjXygAoC4qyc8S40Kxx6Vy1FPC0kcn9ml05tc0wW9MoOXzx0J4xV+/ZusgWN6Cg==" := by
      decide +kernel
    exact hknown.symm
  rw [hencode]
  exact sampleLibraries_lawful.decode_encode _

/-- The records of the sample can be assembled. -/
theorem assembled_sample (version : String) : Assembled sampleLibraries [sampleCall] (sampleRecord version) := by
  intro signature hsignature
  rw [decode_sample] at hsignature
  left
  rw [signedIn_sample]
  refine ⟨_, List.mem_singleton_self _, ?_⟩
  exact (Subtype.ext (Except.ok.inj hsignature)).symm

/-- What is said of the records of the sample. -/
def sampleVerdict : VerificationResult :=
  ⟨.valid, true, true, true, "Artifact signature verified successfully"⟩

/-- The record of the call is valid, and its verdict is authentic. -/
theorem authentic_sample :
    sampleCall.issued sampleLibraries = some (sampleRecord "1") ∧
    sampleVerifier.verify sampleLibraries sampleCall.artifact (sampleRecord "1") = .ok sampleVerdict ∧
      ∀ result, sampleVerifier.verify sampleLibraries sampleCall.artifact (sampleRecord "1") = .ok result →
        sampleVerifier.Authentic sampleLibraries [sampleCall] sampleCall.artifact (sampleRecord "1") result := by
  refine ⟨by decide +kernel, by decide +kernel, ?_⟩
  refine (authentic_iff sampleLibraries_lawful bound_sample (assembled_sample "1")).mpr fun h => ?_
  obtain ⟨call, hcall, hvouched⟩ := h.vouched
  obtain rfl := List.mem_singleton.mp hcall
  exact ⟨_, hcall, hvouched, rfl, rfl⟩

/-- The record with another version is valid too, and its metadata are reported as verified. -/
theorem not_authentic_other_version :
    sampleLibraries.Lawful ∧ sampleLibraries.ed25519.Bound (signedIn sampleLibraries [sampleCall]) ∧
      Assembled sampleLibraries [sampleCall] (sampleRecord "2") ∧
      sampleVerifier.verify sampleLibraries sampleCall.artifact (sampleRecord "2") = .ok sampleVerdict ∧
      ¬ sampleVerifier.Authentic sampleLibraries [sampleCall] sampleCall.artifact (sampleRecord "2") sampleVerdict := by
  refine ⟨sampleLibraries_lawful, bound_sample, assembled_sample "2", by decide +kernel, fun hauthentic => ?_⟩
  obtain ⟨call, hcall, -, hmetadata, -⟩ := (hauthentic rfl).2 rfl
  obtain rfl := List.mem_singleton.mp hcall
  exact absurd (congrArg SbomMetadata.version hmetadata) (by decide)

end Forge.Signing
