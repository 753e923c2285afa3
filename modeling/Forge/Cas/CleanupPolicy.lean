import Forge.Cas.Artifact
import Forge.Schedule.BinPacking

/-!
# Which artifacts a cleanup removes

Ages are compared in 64 bits with a sign, and so is the number of seconds of a duration, which
has no sign before. A duration of more than `i64::MAX` seconds becomes a negative number, so that
every artifact is older.
-/

namespace Forge.Cas

open Forge.Schedule (Duration)

/-- A time after the epoch, in seconds. -/
structure UnixTime where
  secs : ℕ
  lt_limit : secs < 2 ^ 63
  deriving DecidableEq

/-- A time as the code reads it off the clock. -/
def UnixTime.toInt64 (time : UnixTime) : Int64 := .ofNat time.secs

/-- The whole seconds of a duration. -/
def asSecs (duration : Duration) : UInt64 := .ofNat (duration.nanos / 10 ^ 9)

/-- When an artifact was stored. -/
def ArtifactMetadata.storedAt (metadata : ArtifactMetadata) : Int64 := .ofInt metadata.timestamp

/-- When an artifact was last read, or else when it was stored. -/
def ArtifactMetadata.lastUsed (metadata : ArtifactMetadata) : Int64 :=
  .ofInt (metadata.lastAccessed.getD metadata.timestamp)

/-- What to remove. -/
inductive CleanupPolicy where
  | olderThan (duration : Duration)
  | notAccessedIn (duration : Duration)
  | removeTags (tags : List String)
  | keepMostRecent (keep : ℕ)
  deriving DecidableEq

/-- Whether more time has passed than a duration. The difference wraps; it panics where overflows are
checked. -/
def elapsed (now : UnixTime) (since : Int64) (duration : Duration) : Bool :=
  (asSecs duration).toInt64 < now.toInt64 - since

/-- Whether an artifact is to be removed, by its description. -/
def CleanupPolicy.shouldRemoveMetadata (policy : CleanupPolicy) (now : UnixTime) (metadata : ArtifactMetadata) :
    Bool :=
  match policy with
  | .olderThan duration => elapsed now metadata.storedAt duration
  | .notAccessedIn duration => elapsed now metadata.lastUsed duration
  | .removeTags tags => tags.any metadata.tags.contains
  | .keepMostRecent _ => false

/-! ## Ages -/

/-- A policy that goes by an age: since an artifact was stored, or since it was last used. -/
inductive AgeRule where
  | stored
  | used
  deriving DecidableEq, Repr

namespace AgeRule

/-- The policy with a duration. -/
def policy : AgeRule → Duration → CleanupPolicy
  | stored => .olderThan
  | used => .notAccessedIn

/-- The time that the age is counted from. -/
def since : AgeRule → ArtifactMetadata → Int64
  | stored => ArtifactMetadata.storedAt
  | used => ArtifactMetadata.lastUsed

/-- The age of an artifact, without a limit. -/
def age (rule : AgeRule) (now : UnixTime) (metadata : ArtifactMetadata) : ℤ := now.secs - (rule.since metadata).toInt

end AgeRule

/-- A shorter duration removes what a longer one does, and the age of what is not from the future is
not too large. -/
structure Monotone (rule : AgeRule) (now : UnixTime) (metadata : ArtifactMetadata) (shorter longer : Duration) :
    Prop where
  removes : (rule.policy longer).shouldRemoveMetadata now metadata = true →
    (rule.policy shorter).shouldRemoveMetadata now metadata = true
  exact : (rule.since metadata).toInt ≤ now.toInt64.toInt →
    (now.toInt64 - rule.since metadata).toInt = now.toInt64.toInt - (rule.since metadata).toInt

/-- A policy that goes by an age compares this with its duration. -/
theorem AgeRule.shouldRemoveMetadata_eq (rule : AgeRule) (duration : Duration) (now : UnixTime)
    (metadata : ArtifactMetadata) :
    (rule.policy duration).shouldRemoveMetadata now metadata = elapsed now (rule.since metadata) duration := by
  cases rule <;> rfl

/-- A time keeps its value. -/
theorem UnixTime.toInt_toInt64 (time : UnixTime) : time.toInt64.toInt = time.secs :=
  Int64.toInt_ofNat_of_lt time.lt_limit

/-- The age keeps its value, or it is the smaller by a whole turn. -/
theorem AgeRule.toInt_sub (rule : AgeRule) (now : UnixTime) (metadata : ArtifactMetadata) :
    (now.toInt64 - rule.since metadata).toInt =
      if rule.age now metadata < 2 ^ 63 then rule.age now metadata else rule.age now metadata - 2 ^ 64 := by
  have hlow := (rule.since metadata).le_toInt
  have hhigh := (rule.since metadata).toInt_lt
  have hnow := now.lt_limit
  rw [Int64.toInt_sub, now.toInt_toInt64, ← AgeRule.age]
  have hage : -2 ^ 63 < rule.age now metadata ∧ rule.age now metadata < 2 ^ 64 := by
    rw [AgeRule.age]
    omega
  split
  · rename_i hsmall
    rw [Int.bmod_eq_of_le (by omega) (by omega)]
  · rename_i hlarge
    rw [← Int.sub_bmod_right, Int.bmod_eq_of_le (by omega) (by omega)]
    rfl

/-- The seconds of a duration keep their value, or they are the smaller by a whole turn. -/
theorem toInt_asSecs (duration : Duration) :
    (asSecs duration).toInt64.toInt =
      if duration.nanos / 10 ^ 9 < 2 ^ 63 then ((duration.nanos / 10 ^ 9 : ℕ) : ℤ)
      else ((duration.nanos / 10 ^ 9 : ℕ) : ℤ) - 2 ^ 64 := by
  have hlimit : duration.nanos / 10 ^ 9 < 2 ^ 64 :=
    (Nat.div_lt_iff_lt_mul (by decide)).mpr duration.lt_limit
  rw [asSecs, UInt64.toInt64_ofNat']
  split
  · rename_i hsmall
    exact Int64.toInt_ofNat_of_lt hsmall
  · rename_i hlarge
    rw [Int64.toInt_ofNat', ← Int.sub_bmod_right]
    exact Int.bmod_eq_of_le (by simp only [Int64.size]; omega) (by simp only [Int64.size]; omega)

/-- More time than a duration has passed when the one 64-bit number is less than the other. -/
theorem elapsed_iff (now : UnixTime) (since : Int64) (duration : Duration) :
    elapsed now since duration = true ↔ (asSecs duration).toInt64.toInt < (now.toInt64 - since).toInt := by
  rw [elapsed, decide_eq_true_iff, Int64.lt_iff_toInt_lt]

/-- A policy that goes by an age is monotone, and the age is right, exactly when the age is a number of
64 bits with a sign, and it is not the case that the longer duration alone is none and the age lies between
what this becomes and the shorter duration. -/
theorem monotone_iff (rule : AgeRule) (now : UnixTime) (metadata : ArtifactMetadata) {shorter longer : Duration}
    (hle : shorter.nanos ≤ longer.nanos) :
    Monotone rule now metadata shorter longer ↔ rule.age now metadata < 2 ^ 63 ∧
      ¬ (shorter.nanos / 10 ^ 9 < 2 ^ 63 ∧ 2 ^ 63 ≤ longer.nanos / 10 ^ 9 ∧
        ((longer.nanos / 10 ^ 9 : ℕ) : ℤ) - 2 ^ 64 < rule.age now metadata ∧
        rule.age now metadata ≤ ((shorter.nanos / 10 ^ 9 : ℕ) : ℤ)) := by
  have hsub := rule.toInt_sub now metadata
  have hshort := toInt_asSecs shorter
  have hlong := toInt_asSecs longer
  have hsecs : shorter.nanos / 10 ^ 9 ≤ longer.nanos / 10 ^ 9 := Nat.div_le_div_right hle
  have hlimit : longer.nanos / 10 ^ 9 < 2 ^ 64 := (Nat.div_lt_iff_lt_mul (by decide)).mpr longer.lt_limit
  have hage : rule.age now metadata = now.toInt64.toInt - (rule.since metadata).toInt := by
    rw [now.toInt_toInt64]
    rfl
  by_cases hsmall : rule.age now metadata < 2 ^ 63
  · rw [if_pos hsmall] at hsub
    rw [and_iff_right hsmall]
    have hexact : (now.toInt64 - rule.since metadata).toInt = now.toInt64.toInt - (rule.since metadata).toInt :=
      hsub.trans hage
    have hremoves : ∀ duration, (rule.policy duration).shouldRemoveMetadata now metadata = true ↔
        (asSecs duration).toInt64.toInt < rule.age now metadata := by
      intro duration
      rw [rule.shouldRemoveMetadata_eq, elapsed_iff, hsub]
    constructor
    · intro hmonotone hbetween
      have himplies := hmonotone.removes
      rw [hremoves, hremoves, hshort, hlong, if_pos hbetween.1, if_neg (by omega)] at himplies
      have hshorter := himplies hbetween.2.2.1
      omega
    · intro hbetween
      refine ⟨?_, fun _ => hexact⟩
      rw [hremoves, hremoves, hshort, hlong]
      intro hremoved
      split at hremoved <;> split <;> omega
  · refine iff_of_false (fun hmonotone => ?_) fun h => hsmall h.1
    have hexact := hmonotone.exact (by omega)
    rw [hsub, if_neg hsmall, ← hage] at hexact
    omega

/-- There is a longest duration. -/
theorem longestDuration_lt : Forge.Schedule.durationLimit - 1 < Forge.Schedule.durationLimit :=
  Nat.sub_lt (by decide) Nat.one_pos

/-- The longest duration. -/
def longestDuration : Duration := ⟨Forge.Schedule.durationLimit - 1, longestDuration_lt⟩

/-- The description of an artifact without data that was stored at a time. -/
def describedAt (timestamp : ℤ) : ArtifactMetadata :=
  ⟨⟨""⟩, 0, none, none, timestamp, none, "binary", "test", []⟩

/-- Two and three seconds are compared as they are. -/
theorem monotone_iff_seconds :
    Monotone .stored ⟨10, by decide⟩ (describedAt 5) ⟨2 * 10 ^ 9, by decide⟩ ⟨3 * 10 ^ 9, by decide⟩ ↔
      AgeRule.stored.age ⟨10, by decide⟩ (describedAt 5) < 2 ^ 63 ∧
      ¬ (2 * 10 ^ 9 / 10 ^ 9 < 2 ^ 63 ∧ 2 ^ 63 ≤ 3 * 10 ^ 9 / 10 ^ 9 ∧
        ((3 * 10 ^ 9 / 10 ^ 9 : ℕ) : ℤ) - 2 ^ 64 < AgeRule.stored.age ⟨10, by decide⟩ (describedAt 5) ∧
        AgeRule.stored.age ⟨10, by decide⟩ (describedAt 5) ≤ ((2 * 10 ^ 9 / 10 ^ 9 : ℕ) : ℤ)) :=
  monotone_iff .stored ⟨10, by decide⟩ (describedAt 5) (by decide)

/-- The longest duration removes what was just stored, and an hour does not. -/
theorem not_monotone_longest :
    ¬ ∀ (rule : AgeRule) (now : UnixTime) (metadata : ArtifactMetadata) (shorter longer : Duration),
      shorter.nanos ≤ longer.nanos → Monotone rule now metadata shorter longer := by
  intro h
  have hmonotone := h .stored ⟨10, by decide⟩ (describedAt 10) ⟨3600 * 10 ^ 9, by decide⟩ longestDuration (by decide)
  exact absurd (hmonotone.removes (by decide)) (by decide)

end Forge.Cas
