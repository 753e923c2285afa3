import Forge.Common.Utf8
import Mathlib.Data.List.Infix

/-!
# The protocol of the remote cache

Requests, responses, and which requests are answered. A server with a token compares it with
the token of the request in a time that does not depend on their contents. That comparison is
equality. A key becomes the name of a file only if it cannot leave the directory.
-/

namespace Forge.RemoteCache

open Forge.Common

/-- What a client asks for. -/
inductive CacheRequest where
  | getFingerprint (key : String) (authToken : Option String)
  | putFingerprint (key fingerprint : String) (authToken : Option String)
  | getArtifact (hash : String) (authToken : Option String)
  | putArtifact (hash dataBase64 : String) (authToken : Option String)
  | ping (authToken : Option String)
  deriving DecidableEq, Repr

/-- What the server answers. -/
inductive CacheResponse where
  | fingerprint (key : String) (found : Bool) (fingerprint error : Option String)
  | putFingerprintResult (key : String) (success : Bool) (error : Option String)
  | artifact (hash : String) (found : Bool) (dataBase64 error : Option String)
  | putArtifactResult (hash : String) (success : Bool) (error : Option String)
  | pong (status version : String) (storedEntries : ℕ) (error : Option String)
  deriving DecidableEq, Repr

/-- The token of a request. -/
def CacheRequest.authToken : CacheRequest → Option String
  | getFingerprint _ authToken | putFingerprint _ _ authToken | getArtifact _ authToken
  | putArtifact _ _ authToken | ping authToken => authToken

/-- Compare byte strings of one length without stopping at the first difference. -/
def constantTimeEq (a b : List UInt8) : Bool :=
  if a.length ≠ b.length then false
  else (a.zip b).foldl (fun diff (x, y) => diff ||| (x ^^^ y)) 0 == 0

/-- Whether a token is the one that is expected, if one is. -/
def checkAuth (expectedToken token : Option String) : Bool :=
  match expectedToken with
  | some expected =>
    match token with
    | some tok => constantTimeEq (utf8Bytes expected) (utf8Bytes tok)
    | none => false
  | none => true

/-- The name of a file for a key, if the key can be one. What is alphanumeric is up to Unicode. -/
def safeKeyIdentifier (isAlphanumeric : Char → Bool) (key : String) : Option String :=
  if key = "" ∨ 256 < (utf8Bytes key).length then none
  else if ['.', '.'] <:+: key.toList ∨ '/' ∈ key.toList ∨ '\\' ∈ key.toList ∨ '\x00' ∈ key.toList then none
  else if key.toList.all fun c => isAlphanumeric c || c = '_' || c = '-' || c = '.' then some key
  else none

/-- Differences are never forgotten. -/
theorem foldl_or_xor_eq_zero_iff (pairs : List (UInt8 × UInt8)) (diff : UInt8) :
    pairs.foldl (fun diff (x, y) => diff ||| (x ^^^ y)) diff = 0 ↔
      diff = 0 ∧ ∀ pair ∈ pairs, pair.1 = pair.2 := by
  induction pairs generalizing diff with
  | nil => simp
  | cons pair pairs ih =>
    rw [List.foldl_cons, ih, List.forall_mem_cons, UInt8.or_eq_zero_iff, UInt8.xor_eq_zero_iff, and_assoc]

/-- The comparison is equality. -/
theorem constantTimeEq_iff (a b : List UInt8) : constantTimeEq a b = true ↔ a = b := by
  rw [constantTimeEq]
  split
  · rename_i hlength
    exact iff_of_false Bool.false_ne_true fun h => hlength (congrArg List.length h)
  · rename_i hlength
    rw [not_not] at hlength
    rw [beq_iff_eq, foldl_or_xor_eq_zero_iff]
    constructor
    · intro h
      refine List.ext_getElem hlength fun i hi hi' => ?_
      have hzip : i < (a.zip b).length := by
        rw [List.length_zip]
        exact Nat.lt_min.mpr ⟨hi, hi'⟩
      exact h.2 (a[i], b[i]) (List.mem_iff_getElem.mpr ⟨i, hzip, List.getElem_zip⟩)
    · rintro rfl
      refine ⟨rfl, fun pair hpair => ?_⟩
      obtain ⟨i, hi, rfl⟩ := List.mem_iff_getElem.mp hpair
      rw [List.getElem_zip]

/-- A request is answered when it has the expected token, byte by byte. -/
theorem checkAuth_some_iff (expected : String) (token : Option String) :
    checkAuth (some expected) token = true ↔ token = some expected := by
  cases token with
  | none => exact iff_of_false Bool.false_ne_true nofun
  | some tok =>
    rw [checkAuth, constantTimeEq_iff, Option.some.injEq]
    exact utf8Bytes_injective.eq_iff.trans eq_comm

section Keys

variable {isAlphanumeric : Char → Bool} {key safe : String}

/-- A key that can be the name of a file is that name. -/
theorem eq_of_safeKeyIdentifier (hsafe : safeKeyIdentifier isAlphanumeric key = some safe) : key = safe := by
  rw [safeKeyIdentifier] at hsafe
  split at hsafe
  · cases hsafe
  · split at hsafe
    · cases hsafe
    · split at hsafe
      · exact Option.some.inj hsafe
      · cases hsafe

/-- A key that can be the name of a file is not empty. -/
theorem ne_empty_of_safeKeyIdentifier (hsafe : safeKeyIdentifier isAlphanumeric key = some safe) :
    key ≠ "" := by
  rintro rfl
  cases hsafe

end Keys

end Forge.RemoteCache
