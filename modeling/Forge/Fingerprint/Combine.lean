import Mathlib.Tactic.IntervalCases
import Forge.Common.JsonCodec
import Forge.Fingerprint.DirectoryWalk

/-!
# Fingerprints of several parts

Fingerprints are combined by hashing them, sorted, with their lengths in front. With the
lengths the text can be read back, so that different parts have different texts. The hash
is a parameter.
-/

namespace Forge.Fingerprint

open Forge.Common

/-- A part with its length in front. -/
def partText (label value : String) : Bytes :=
  utf8Bytes label ++ 91 :: (utf8Bytes (toString (utf8Bytes value).length) ++ 93 :: 58 :: utf8Bytes value)

/-- Sort strings by their bytes. -/
def sortStrings (l : List String) : List String :=
  l.insertionSort fun a b => NameLe (utf8Bytes a) (utf8Bytes b)

/-- What is hashed for a first part, if it is not empty, and further fingerprints in any order. -/
def combineText (first : String) (fingerprints : List String) : Bytes :=
  (if first = "" then [] else partText "prefix" first) ++ (sortStrings fingerprints).flatMap (partText "fp")

/-- The fingerprint of a first part and further fingerprints. -/
def combineFingerprints (hash : Bytes → String) (first : String) (fingerprints : List String) : String :=
  hash (combineText first fingerprints)

/-- The text of an absolute path. -/
def absoluteText (path : Path) : Bytes :=
  47 :: pathText path

/-- The namespace of a project, twelve characters of the hash of its path. -/
def computeNamespace (hash : Bytes → String) (path : Path) : String :=
  String.ofList ((hash (absoluteText path)).toList.take 12)

/-- The key of a cache entry. -/
def formatCacheKey (backend spaceName mode identifier : String) : String :=
  backend ++ "/" ++ spaceName ++ "/" ++ mode ++ "/" ++ identifier

/-! ## Reading the parts back -/

/-- No number is written with a bracket. -/
theorem bracket_notMem_toString (n : ℕ) : (93 : UInt8) ∉ utf8Bytes (toString n) := by
  intro hmem
  rw [Nat.toString_eq_ofList_toDigits, utf8Bytes_ofList] at hmem
  obtain ⟨c, hc, hbyte⟩ := List.mem_flatMap.mp hmem
  have hdigit : c.isDigit = true := Nat.isDigit_of_mem_toDigits (by decide) (by decide) hc
  obtain ⟨hlow, hhigh⟩ := Char.isDigit_iff_toNat.mp hdigit
  change 48 ≤ c.toNat at hlow
  change c.toNat ≤ 57 at hhigh
  rw [← Char.ofNat_toNat c] at hbyte
  generalize c.toNat = n at hlow hhigh hbyte
  interval_cases n <;> exact absurd hbyte (by decide)

/-- Numbers are written differently. -/
theorem toString_injective : Function.Injective (toString : ℕ → String) := by
  intro n m h
  rw [Nat.toString_eq_ofList_toDigits, Nat.toString_eq_ofList_toDigits] at h
  rw [← Nat.ofDigitChars_ten_toDigits (n := n), ← Nat.ofDigitChars_ten_toDigits (n := m), String.ofList_injective h]

/-- A part is read back from a text that starts with it. -/
theorem partText_append_inj {label value value' : String} {rest rest' : Bytes}
    (h : partText label value ++ rest = partText label value' ++ rest') : value = value' ∧ rest = rest' := by
  simp only [partText, List.append_assoc, List.cons_append, List.append_cancel_left_eq, List.cons.injEq, true_and] at h
  have hsplit := congrArg (splitOnce (93 : UInt8)) h
  rw [splitOnce_append (bracket_notMem_toString _), splitOnce_append (bracket_notMem_toString _)] at hsplit
  obtain ⟨hnumber, htail⟩ := Prod.mk.inj (Option.some.inj hsplit)
  have hlength : (utf8Bytes value).length = (utf8Bytes value').length :=
    toString_injective (utf8Bytes_injective hnumber)
  obtain ⟨hvalue, hrest⟩ := List.append_inj (List.cons.inj htail).2 hlength
  exact ⟨utf8Bytes_injective hvalue, hrest⟩

/-- A part is not empty, and starts as its label. -/
theorem partText_head? {label value : String} (hlabel : label ≠ "") :
    (partText label value).head? = (utf8Bytes label).head? := by
  have hbytes : utf8Bytes label ≠ [] := fun h => hlabel (utf8Bytes_injective h)
  rw [partText, List.head?_append_of_ne_nil _ hbytes]

/-- Parts are read back from their text. -/
theorem flatMap_partText_injective {label : String} : Function.Injective (List.flatMap (partText label)) := by
  have hne : ∀ value, partText label value ≠ [] := fun value => by simp [partText]
  intro values values' h
  induction values generalizing values' with
  | nil =>
    cases values' with
    | nil => rfl
    | cons value' values' => exact absurd h.symm (by simp [hne])
  | cons value values ih =>
    cases values' with
    | nil => exact absurd h (by simp [hne])
    | cons value' values' =>
      rw [List.flatMap_cons, List.flatMap_cons] at h
      obtain ⟨rfl, hrest⟩ := partText_append_inj h
      rw [ih hrest]

/-! ## The order of the parts -/

/-- Strings are ordered totally by their bytes. -/
instance : Std.Total fun a b : String => NameLe (utf8Bytes a) (utf8Bytes b) :=
  ⟨fun a b => le_total ((utf8Bytes a).map UInt8.toNat) ((utf8Bytes b).map UInt8.toNat)⟩

/-- The order of strings is transitive. -/
instance : IsTrans String fun a b => NameLe (utf8Bytes a) (utf8Bytes b) :=
  ⟨fun _ _ _ hab hbc => le_trans hab hbc⟩

/-- Strings in each other's place in the order are the same. -/
instance : Std.Antisymm fun a b : String => NameLe (utf8Bytes a) (utf8Bytes b) :=
  ⟨fun _ _ hab hba => utf8Bytes_injective (nameKey_injective (le_antisymm hab hba))⟩

/-- Sorting changes nothing but the order. -/
theorem sortStrings_perm (l : List String) : (sortStrings l).Perm l :=
  List.perm_insertionSort _ l

/-- Strings are sorted alike exactly when they are the same in some order. -/
theorem sortStrings_eq_iff {l l' : List String} : sortStrings l = sortStrings l' ↔ l.Perm l' := by
  constructor
  · intro h
    exact (sortStrings_perm l).symm.trans (h ▸ sortStrings_perm l')
  · intro hperm
    have hsorted : (sortStrings l).Perm (sortStrings l') :=
      (sortStrings_perm l).trans (hperm.trans (sortStrings_perm l').symm)
    exact hsorted.eq_of_pairwise' (List.pairwise_insertionSort _ l) (List.pairwise_insertionSort _ l')

/-- Further fingerprints are not taken for a first part. -/
theorem flatMap_partText_ne (first : String) (fingerprints : List String) (rest : Bytes) :
    fingerprints.flatMap (partText "fp") ≠ partText "prefix" first ++ rest := by
  intro h
  have hprefix : (partText "prefix" first ++ rest).head? = some 112 := by
    have hne : partText "prefix" first ≠ [] := by simp [partText]
    rw [List.head?_append_of_ne_nil _ hne, partText_head? (by decide)]
    rfl
  rw [← h] at hprefix
  cases fingerprints with
  | nil => exact absurd hprefix nofun
  | cons fingerprint fingerprints =>
    have hne : partText "fp" fingerprint ≠ [] := by simp [partText]
    rw [List.flatMap_cons, List.head?_append_of_ne_nil _ hne, partText_head? (by decide)] at hprefix
    exact absurd hprefix (by decide)

/-- The text of combined fingerprints tells the first part, and the others up to their order. -/
theorem combineText_eq_iff {first first' : String} {fingerprints fingerprints' : List String} :
    combineText first fingerprints = combineText first' fingerprints' ↔
      first = first' ∧ fingerprints.Perm fingerprints' := by
  constructor
  · intro h
    unfold combineText at h
    by_cases hfirst : first = "" <;> by_cases hfirst' : first' = ""
    · rw [if_pos hfirst, if_pos hfirst'] at h
      exact ⟨hfirst.trans hfirst'.symm, sortStrings_eq_iff.mp (flatMap_partText_injective h)⟩
    · rw [if_pos hfirst, if_neg hfirst'] at h
      exact absurd h (flatMap_partText_ne _ _ _)
    · rw [if_neg hfirst, if_pos hfirst'] at h
      exact absurd h.symm (flatMap_partText_ne _ _ _)
    · rw [if_neg hfirst, if_neg hfirst'] at h
      obtain ⟨hsame, hrest⟩ := partText_append_inj h
      exact ⟨hsame, sortStrings_eq_iff.mp (flatMap_partText_injective hrest)⟩
  · rintro ⟨rfl, hperm⟩
    unfold combineText
    rw [sortStrings_eq_iff.mpr hperm]

/-- With a hash without collisions a combined fingerprint tells its parts. -/
theorem combineFingerprints_eq_iff {hash : Bytes → String} (hhash : Function.Injective hash) {first first' : String}
    {fingerprints fingerprints' : List String} :
    combineFingerprints hash first fingerprints = combineFingerprints hash first' fingerprints' ↔
      first = first' ∧ fingerprints.Perm fingerprints' := by
  rw [combineFingerprints, combineFingerprints, hhash.eq_iff, combineText_eq_iff]

/-! ## What the hasher is fed -/

/-- A hasher, by the bytes it was fed. -/
structure Hasher where
  fed : Bytes

/-- Feed further bytes. -/
def Hasher.update (hasher : Hasher) (bytes : Bytes) : Hasher := ⟨hasher.fed ++ bytes⟩

/-- Feed a part: its label and length, and then its bytes. -/
def Hasher.updatePart (hasher : Hasher) (label value : String) : Hasher :=
  (hasher.update (utf8Bytes (label ++ "[" ++ toString (utf8Bytes value).length ++ "]:"))).update (utf8Bytes value)

/-- The hasher when a first part, if it is not empty, and further fingerprints were fed to it. -/
def combineHasher (first : String) (fingerprints : List String) : Hasher :=
  let hasher : Hasher := ⟨[]⟩
  let hasher := if first = "" then hasher else hasher.updatePart "prefix" first
  (sortStrings fingerprints).foldl (fun hasher fingerprint => hasher.updatePart "fp" fingerprint) hasher

/-- A part is fed with its length in front. -/
theorem Hasher.fed_updatePart (hasher : Hasher) (label value : String) :
    (hasher.updatePart label value).fed = hasher.fed ++ partText label value := by
  have hopen : utf8Bytes "[" = [91] := rfl
  have hclose : utf8Bytes "]:" = [93, 58] := rfl
  simp only [updatePart, update, partText, utf8Bytes_append, hopen, hclose, List.append_assoc, List.cons_append,
    List.nil_append]

/-- Parts are fed one after the other. -/
theorem Hasher.fed_foldl_updatePart (label : String) (values : List String) (hasher : Hasher) :
    (values.foldl (fun hasher value => hasher.updatePart label value) hasher).fed =
      hasher.fed ++ values.flatMap (partText label) := by
  induction values generalizing hasher with
  | nil => exact (List.append_nil _).symm
  | cons value values ih =>
    rw [List.foldl_cons, ih, fed_updatePart, List.flatMap_cons, List.append_assoc]

/-- The hasher is fed the text of the combined parts. -/
theorem combineHasher_fed (first : String) (fingerprints : List String) :
    (combineHasher first fingerprints).fed = combineText first fingerprints := by
  rw [combineHasher, combineText, Hasher.fed_foldl_updatePart]
  split
  · rfl
  · rw [Hasher.fed_updatePart, List.nil_append]

/-- What the hasher is fed identifies the first part and, up to their order, the further fingerprints. -/
theorem combineHasher_fed_eq_iff (first first' : String) (fingerprints fingerprints' : List String) :
    (combineHasher first fingerprints).fed = (combineHasher first' fingerprints').fed ↔
      first = first' ∧ fingerprints.Perm fingerprints' := by
  rw [combineHasher_fed, combineHasher_fed, combineText_eq_iff]

/-! ## Hashes with known values -/

/-- A hash with the values of a table, and without collisions elsewhere. -/
def hashOf (table : JsonCodec.Table Bytes) : Bytes → String :=
  (JsonCodec.ofTable table).toStr

/-- The hash of a table has no collisions. -/
theorem hashOf_injective (table : JsonCodec.Table Bytes) : Function.Injective (hashOf table) := by
  intro text text' h
  have hread := (JsonCodec.ofTable table).fromStr_toStr text
  have hread' := (JsonCodec.ofTable table).fromStr_toStr text'
  unfold hashOf at h
  rw [h, hread'] at hread
  exact (Except.ok.inj hread).symm

/-- The hash of a table has no characters but those of the table and zeros. -/
theorem notMem_hashOf {table : JsonCodec.Table Bytes} {c : Char} (hc : c ≠ '\x00')
    (htable : ∀ entry ∈ table.known, c ∉ entry.2.toList) (text : Bytes) : c ∉ (hashOf table text).toList := by
  unfold hashOf JsonCodec.ofTable
  dsimp only
  split
  · rename_i hfound
    exact htable _ (List.mem_of_find?_eq_some hfound)
  · rw [JsonCodec.zeros, String.toList_ofList]
    exact fun hmem => hc (List.eq_of_mem_replicate hmem)

/-! ## Hashes that run together -/

/-- What is relied on about hashes that are hashed together again: none of them starts with another one, as it is
with values of one length and without collisions. -/
def PrefixFree (hash : Bytes → String) : Prop :=
  ∀ text text', utf8Bytes (hash text) <+: utf8Bytes (hash text') → text = text'

/-- Such a hash has no collisions. -/
theorem PrefixFree.injective {hash : Bytes → String} (h : PrefixFree hash) : Function.Injective hash := by
  intro text text' hsame
  refine h text text' ?_
  rw [hsame]

/-- Values of one length, and without zeros. -/
structure Digests where
  known : List (Bytes × String)
  values_nodup : (known.map (·.2)).Nodup
  length_eq : ∀ entry ∈ known, (utf8Bytes entry.2).length = 64
  nonzero : ∀ entry ∈ known, (0 : UInt8) ∉ utf8Bytes entry.2

/-- The value of a text outside of these: as many zeros as the number of the text, one more, and a point. -/
def zerosPoint (text : Bytes) : String := JsonCodec.zeros (Encodable.encode text) ++ "."

/-- A hash with known values. -/
def digestOf (digests : Digests) (text : Bytes) : String :=
  match digests.known.find? (·.1 = text) with
  | some entry => entry.2
  | none => zerosPoint text

/-- The bytes of the values of other texts. -/
theorem utf8Bytes_zerosPoint (text : Bytes) :
    utf8Bytes (zerosPoint text) = List.replicate (Encodable.encode text + 1) 0 ++ [46] := by
  have hzero : String.utf8EncodeChar '\x00' = [0] := by decide
  have hpoint : utf8Bytes "." = [46] := rfl
  rw [zerosPoint, utf8Bytes_append, hpoint, JsonCodec.zeros, utf8Bytes_ofList, List.flatMap_replicate, hzero,
    List.flatten_replicate_singleton]

/-- Zeros up to a point tell their number. -/
theorem length_eq_of_replicate_point {m n : ℕ}
    (h : List.replicate m (0 : UInt8) ++ [46] <+: List.replicate n 0 ++ [46]) : m = n := by
  obtain ⟨rest, hrest⟩ := h
  have hnone : ∀ k, (46 : UInt8) ∉ List.replicate k 0 := fun k hmem => absurd (List.eq_of_mem_replicate hmem) (by decide)
  have hsplit := congrArg (splitOnce (46 : UInt8)) hrest
  rw [List.append_assoc, List.singleton_append, splitOnce_append (hnone m), splitOnce_append (hnone n)] at hsplit
  have hlength := congrArg List.length (Prod.mk.inj (Option.some.inj hsplit)).1
  rwa [List.length_replicate, List.length_replicate] at hlength

/-- None of these values starts with another one. -/
theorem digestOf_prefixFree (digests : Digests) : PrefixFree (digestOf digests) := by
  intro text text' h
  unfold digestOf at h
  split at h
  · rename_i entry hentry
    have hknown := List.mem_of_find?_eq_some hentry
    split at h
    · rename_i entry' hentry'
      have hknown' := List.mem_of_find?_eq_some hentry'
      have hvalue := h.eq_of_length ((digests.length_eq entry hknown).trans (digests.length_eq entry' hknown').symm)
      have hsame := List.inj_on_of_nodup_map digests.values_nodup hknown hknown' (utf8Bytes_injective hvalue)
      have htext : entry.1 = text := by simpa using List.find?_some hentry
      have htext' : entry'.1 = text' := by simpa using List.find?_some hentry'
      rw [← htext, hsame, htext']
    · -- A known value is not empty, and the other one starts with a zero.
      rw [utf8Bytes_zerosPoint, List.replicate_succ] at h
      have hlength := digests.length_eq entry hknown
      have hzero := digests.nonzero entry hknown
      cases hbytes : utf8Bytes entry.2 with
      | nil =>
        rw [hbytes] at hlength
        exact absurd hlength nofun
      | cons byte bytes =>
        rw [hbytes, List.cons_append, List.cons_prefix_cons] at h
        rw [hbytes, h.1] at hzero
        exact absurd List.mem_cons_self hzero
  · split at h
    · rename_i entry' hentry'
      rw [utf8Bytes_zerosPoint, List.replicate_succ] at h
      exact absurd (h.subset List.mem_cons_self) (digests.nonzero entry' (List.mem_of_find?_eq_some hentry'))
    · rw [utf8Bytes_zerosPoint, utf8Bytes_zerosPoint] at h
      exact Encodable.encode_injective (Nat.succ.inj (length_eq_of_replicate_point h))

end Forge.Fingerprint
