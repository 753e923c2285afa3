import Mathlib.Logic.Basic
import Mathlib.Data.List.Basic

/-!
# Signature schemes

A scheme with keys, messages and signatures over arbitrary types. What is ideal about it is
said relative to what was signed: these signatures verify for nothing else, and nobody finds
a signature that verifies without one of them.
-/

namespace Forge.Common

variable {Secret Public Message Sig : Type*}

/-- A signature scheme: what was signed verifies. -/
structure SignatureScheme (Secret Public Message Sig : Type*) where
  publicKey : Secret → Public
  sign : Secret → Message → Sig
  verify : Public → Message → Sig → Bool
  verify_sign : ∀ secret message, verify (publicKey secret) message (sign secret message) = true

namespace SignatureScheme

variable (scheme : SignatureScheme Secret Public Message Sig) (signed : List (Secret × Message))

/-- The signatures that were made verify only for their keys and messages. -/
def Bound : Prop :=
  ∀ call ∈ signed, ∀ key message, scheme.verify key message (scheme.sign call.1 call.2) = true →
    key = scheme.publicKey call.1 ∧ message = call.2

/-- A signature that can be had: one that was made, or one that verifies for nothing. -/
def Obtainable (signature : Sig) : Prop :=
  (∃ call ∈ signed, signature = scheme.sign call.1 call.2) ∨ ∀ key message, scheme.verify key message signature = false

/-- A signature was made of a message, with the secret of a key. -/
def SignedBy (key : Public) (message : Message) (signature : Sig) : Prop :=
  ∃ secret, (secret, message) ∈ signed ∧ scheme.publicKey secret = key ∧ scheme.sign secret message = signature

variable {scheme signed}

/-- An obtainable signature verifies exactly when it was made of the message, with the secret of the key. -/
theorem Bound.verify_iff (hbound : scheme.Bound signed) {signature : Sig} (hobtainable : scheme.Obtainable signed signature)
    {key : Public} {message : Message} :
    scheme.verify key message signature = true ↔ scheme.SignedBy signed key message signature := by
  constructor
  · intro hverify
    rcases hobtainable with ⟨⟨secret, message'⟩, hmem, rfl⟩ | hnone
    · obtain ⟨rfl, rfl⟩ := hbound _ hmem key message hverify
      exact ⟨secret, hmem, rfl, rfl⟩
    · rw [hnone] at hverify
      exact absurd hverify Bool.false_ne_true
  · rintro ⟨secret, -, rfl, rfl⟩
    exact scheme.verify_sign secret message

/-- A scheme in which every message has one signature for every key. -/
def unique [DecidableEq Sig] (publicKey : Secret → Public) (signatureOf : Public → Message → Sig) :
    SignatureScheme Secret Public Message Sig where
  publicKey := publicKey
  sign secret message := signatureOf (publicKey secret) message
  verify key message signature := signature = signatureOf key message
  verify_sign _ _ := decide_eq_true rfl

/-- A signature that no other key and message has is bound. -/
theorem unique_bound [DecidableEq Sig] {publicKey : Secret → Public} {signatureOf : Public → Message → Sig}
    (hother : ∀ call ∈ signed, ∀ key message, signatureOf (publicKey call.1) call.2 = signatureOf key message →
      key = publicKey call.1 ∧ message = call.2) : (unique publicKey signatureOf).Bound signed :=
  fun call hcall key message hverify => hother call hcall key message (of_decide_eq_true hverify)

end SignatureScheme

end Forge.Common
