import Forge.Common.Files
import Forge.Common.SignatureScheme
import Mathlib.Data.Finmap

/-!
# Signatures of artifacts

A record has the signature of the content of an artifact, and beside it the hash of the
content, the time, the metadata and the key. Only the content is signed.
-/

namespace Forge.Signing

open Forge.Common

/-- Bytes of a fixed number. -/
abbrev FixedBytes (length : ℕ) := {bytes : Bytes // bytes.length = length}

/-- Bytes that have the right number, if they do. -/
def toArray (length : ℕ) (bytes : Bytes) : Option (FixedBytes length) :=
  if h : bytes.length = length then some ⟨bytes, h⟩ else none

/-- Bytes of the right number are kept. -/
@[simp] theorem toArray_val {length : ℕ} (array : FixedBytes length) : toArray length array.1 = some array := by
  rw [toArray, dif_pos array.2]

/-- An array has the bytes it was made of. -/
theorem toArray_eq_some {length : ℕ} {bytes : Bytes} {array : FixedBytes length} :
    toArray length bytes = some array ↔ bytes = array.1 := by
  constructor
  · intro h
    rw [toArray] at h
    split at h
    · rw [← Option.some.inj h]
    · exact absurd h nofun
  · rintro rfl
    exact toArray_val array

/-- What is used of other libraries: Base64, SHA-256, Ed25519 and the check that bytes are a key of it. -/
structure Libraries where
  encode : Bytes → String
  decode : String → Except String Bytes
  sha256 : Bytes → Bytes
  ed25519 : SignatureScheme (FixedBytes 32) (FixedBytes 32) Bytes (FixedBytes 64)
  checkKey : FixedBytes 32 → Except String Unit

/-- What was encoded is decoded, and the key of a secret is a key. -/
structure Libraries.Lawful (lib : Libraries) : Prop where
  decode_encode : ∀ bytes, lib.decode (lib.encode bytes) = .ok bytes
  checkKey_publicKey : ∀ secret, lib.checkKey (lib.ed25519.publicKey secret) = .ok ()

/-- The errors of signing and verifying. -/
inductive SigningError where
  | invalidKeyFormat (message : String)
  | signatureVerificationFailed (message : String)
  | ioError (message : String)
  | cryptoError (message : String)
  | base64Error (message : String)
deriving DecidableEq, Repr

/-- A time, in nanoseconds since the epoch. -/
abbrev DateTime := ℤ

/-- A dependency of a package. -/
structure DependencyInfo where
  name : String
  version : String
  license : Option String
  repository : Option String
  hash : Option String
deriving DecidableEq

/-- The metadata of a package. -/
structure SbomMetadata where
  name : String
  version : String
  buildId : String
  dependencies : List DependencyInfo
  buildTools : List String
  sourceCommit : Option String
  buildTimestamp : DateTime
  custom : Finmap fun _ : String => String
deriving DecidableEq

/-- The algorithms. Only the first is implemented. -/
inductive SignatureAlgorithm where
  | ed25519
  | rsa2048
  | rsa4096
deriving DecidableEq, Repr

/-- A signature of an artifact, with what is said about it. -/
structure ArtifactSignature where
  algorithm : SignatureAlgorithm
  signature : String
  artifactHash : String
  timestamp : DateTime
  metadata : SbomMetadata
  signerPublicKey : String
deriving DecidableEq

/-- A key and the secret for it, as they are read from a file. -/
structure SigningKeyPair where
  publicKey : Bytes
  secretKey : Bytes

/-- The secret of a key pair. -/
def SigningKeyPair.toSigningKey (keypair : SigningKeyPair) : Except SigningError (FixedBytes 32) :=
  match toArray 32 keypair.secretKey with
  | some secret => .ok secret
  | none => .error (.invalidKeyFormat "Invalid secret key length")

/-- What is at the path of an artifact. -/
inductive Artifact where
  | missing
  | unreadable (error : String)
  | file (content : Bytes)
deriving DecidableEq

/-- Read an artifact. -/
def Artifact.read : Artifact → Except SigningError Bytes
  | .missing => .error (.ioError "No such file or directory (os error 2)")
  | .unreadable error => .error (.ioError error)
  | .file content => .ok content

variable (lib : Libraries)

/-- Sign an artifact. -/
def signArtifact (artifact : Artifact) (keypair : SigningKeyPair) (algorithm : SignatureAlgorithm)
    (metadata : SbomMetadata) (now : DateTime) : Except SigningError ArtifactSignature := do
  let content ← artifact.read
  let signature ←
    match algorithm with
    | .ed25519 => do
      let signingKey ← keypair.toSigningKey
      pure (lib.encode (lib.ed25519.sign signingKey content).1)
    | _ => .error (.cryptoError "Algorithm not yet implemented")
  return {
    algorithm := algorithm
    signature := signature
    artifactHash := lib.encode (lib.sha256 content)
    timestamp := now
    metadata := metadata
    signerPublicKey := lib.encode keypair.publicKey }

/-- Decode a field of a record. -/
def decodeField (text : String) : Except SigningError Bytes :=
  (lib.decode text).mapError .base64Error

/-- Verify the signature of a record. -/
def verifySignature (content : Bytes) (record : ArtifactSignature) : Except SigningError Bool :=
  match record.algorithm with
  | .ed25519 => do
    let sigBytes ← decodeField lib record.signature
    match toArray 64 sigBytes with
    | none => .error (.signatureVerificationFailed "Invalid signature length")
    | some signature => do
      let keyBytes ← decodeField lib record.signerPublicKey
      match toArray 32 keyBytes with
      | none => .error (.signatureVerificationFailed "Invalid public key length")
      | some key =>
        match lib.checkKey key with
        | .error error => .error (.signatureVerificationFailed error)
        | .ok () => .ok (lib.ed25519.verify key content signature)
  | _ => .error (.cryptoError "Algorithm not yet implemented")

variable {lib}

/-- What a record was made of. -/
theorem signArtifact_eq_ok {artifact : Artifact} {keypair : SigningKeyPair} {algorithm : SignatureAlgorithm}
    {metadata : SbomMetadata} {now : DateTime} {record : ArtifactSignature}
    (hok : signArtifact lib artifact keypair algorithm metadata now = .ok record) :
    ∃ content secret, artifact = .file content ∧ toArray 32 keypair.secretKey = some secret ∧
      record = ⟨.ed25519, lib.encode (lib.ed25519.sign secret content).1, lib.encode (lib.sha256 content), now, metadata,
        lib.encode keypair.publicKey⟩ := by
  cases artifact with
  | missing => exact absurd hok nofun
  | unreadable error => exact absurd hok nofun
  | file content =>
    cases algorithm with
    | rsa2048 => exact absurd hok nofun
    | rsa4096 => exact absurd hok nofun
    | ed25519 =>
      unfold signArtifact SigningKeyPair.toSigningKey at hok
      cases hsecret : toArray 32 keypair.secretKey with
      | none =>
        rw [hsecret] at hok
        exact absurd hok nofun
      | some secret =>
        rw [hsecret] at hok
        exact ⟨content, secret, rfl, rfl, (Except.ok.inj hok).symm⟩

/-- A signature verifies if it and the key are what Ed25519 accepts for the content. -/
theorem verifySignature_eq_ok {content : Bytes} {record : ArtifactSignature} {valid : Bool} :
    verifySignature lib content record = .ok valid ↔
      record.algorithm = .ed25519 ∧ ∃ signature key, lib.decode record.signature = .ok signature.1 ∧
        lib.decode record.signerPublicKey = .ok key.1 ∧ lib.checkKey key = .ok () ∧
          valid = lib.ed25519.verify key content signature := by
  unfold verifySignature decodeField
  cases record.algorithm with
  | rsa2048 => exact ⟨nofun, fun h => absurd h.1 nofun⟩
  | rsa4096 => exact ⟨nofun, fun h => absurd h.1 nofun⟩
  | ed25519 =>
    constructor
    · intro hok
      cases hsignature : lib.decode record.signature with
      | error e =>
        rw [hsignature] at hok
        exact absurd hok nofun
      | ok sigBytes =>
        cases hkey : lib.decode record.signerPublicKey with
        | error e =>
          rw [hsignature, hkey] at hok
          dsimp only [Except.mapError, bind, Except.bind] at hok
          split at hok <;> exact absurd hok nofun
        | ok keyBytes =>
          rw [hsignature, hkey] at hok
          dsimp only [Except.mapError, bind, Except.bind] at hok
          split at hok
          · exact absurd hok nofun
          · rename_i signature hsig
            split at hok
            · exact absurd hok nofun
            · rename_i key hkeys
              split at hok
              · exact absurd hok nofun
              · rename_i hcheck
                rw [toArray_eq_some] at hsig hkeys
                exact ⟨rfl, signature, key, by rw [hsig], by rw [hkeys], hcheck, (Except.ok.inj hok).symm⟩
    · rintro ⟨-, signature, key, hsignature, hkey, hcheck, rfl⟩
      rw [hsignature, hkey]
      dsimp only [Except.mapError, bind, Except.bind]
      rw [toArray_val]
      dsimp only
      rw [toArray_val]
      dsimp only
      rw [hcheck]

end Forge.Signing
