import Mathlib.Data.List.Basic

/-!
# Strings as bytes

The bytes of a string and the reading of bytes as a string, over lists.
-/

namespace Forge.Common

/-- The bytes of a string. -/
def utf8Bytes (s : String) : List UInt8 := s.toByteArray.data.toList

/-- The string with the given bytes, if there is one. -/
def fromUtf8 (bytes : List UInt8) : Option String := String.fromUTF8? ⟨bytes.toArray⟩

/-- A string is determined by its bytes. -/
theorem utf8Bytes_injective : Function.Injective utf8Bytes := by
  intro s t hbytes
  rw [← String.toByteArray_inj, ByteArray.ext_iff]
  exact Array.toList_inj.mp hbytes

/-- The bytes of a string read back as that string. -/
@[simp] theorem fromUtf8_utf8Bytes (s : String) : fromUtf8 (utf8Bytes s) = some s := by
  rw [fromUtf8, utf8Bytes, Array.toArray_toList, String.fromUTF8?, dif_pos s.isValidUTF8]
  rfl

/-- What bytes read as has these bytes. -/
theorem fromUtf8_eq_some_iff {bytes : List UInt8} {s : String} : fromUtf8 bytes = some s ↔ bytes = utf8Bytes s := by
  constructor
  · intro h
    rw [fromUtf8, String.fromUTF8?] at h
    split at h
    · rw [← Option.some.inj h]
      rfl
    · exact absurd h nofun
  · rintro rfl
    exact fromUtf8_utf8Bytes s

/-- The bytes of two strings one after the other. -/
theorem utf8Bytes_append (s t : String) : utf8Bytes (s ++ t) = utf8Bytes s ++ utf8Bytes t := by
  rw [utf8Bytes, String.toByteArray_append, ByteArray.data_append, Array.toList_append, utf8Bytes, utf8Bytes]

/-- The bytes of a list of characters. -/
theorem utf8Bytes_ofList (chars : List Char) :
    utf8Bytes (String.ofList chars) = chars.flatMap String.utf8EncodeChar := by
  rw [utf8Bytes, String.toByteArray_ofList, List.utf8Encode, List.data_toByteArray]

/-- A character has at most four bytes. -/
theorem utf8Bytes_length_le (s : String) : (utf8Bytes s).length ≤ s.toList.length * 4 := by
  rw [← String.ofList_toList (s := s), utf8Bytes_ofList, String.toList_ofList]
  induction s.toList with
  | nil => exact Nat.zero_le _
  | cons c chars ih =>
    have hchar := Char.utf8Size_le_four c
    rw [List.flatMap_cons, List.length_append, String.length_utf8EncodeChar, List.length_cons]
    omega

/-! ## Reading with replacements -/

/-- Whether a byte continues a character. -/
def isContinuation (byte : UInt8) : Bool := 0x80 ≤ byte && byte ≤ 0xBF

/-- Whether a byte may follow the first byte of a character of three bytes. -/
def secondOfThree (byte next : UInt8) : Bool :=
  (byte == 0xE0 && 0xA0 ≤ next && next ≤ 0xBF) || (0xE1 ≤ byte && byte ≤ 0xEC && isContinuation next) ||
    (byte == 0xED && 0x80 ≤ next && next ≤ 0x9F) || (0xEE ≤ byte && byte ≤ 0xEF && isContinuation next)

/-- Whether a byte may follow the first byte of a character of four bytes. -/
def secondOfFour (byte next : UInt8) : Bool :=
  (byte == 0xF0 && 0x90 ≤ next && next ≤ 0xBF) || (0xF1 ≤ byte && byte ≤ 0xF3 && isContinuation next) ||
    (byte == 0xF4 && 0x80 ≤ next && next ≤ 0x8F)

/-- Whether bytes start with a character, and how many bytes it has or are skipped. -/
def nextChar (byte : UInt8) (rest : List UInt8) : Bool × ℕ :=
  let next := fun i => rest[i]?.getD 0
  if byte < 0x80 then (true, 1)
  else if 0xC2 ≤ byte && byte ≤ 0xDF then
    if isContinuation (next 0) then (true, 2) else (false, 1)
  else if 0xE0 ≤ byte && byte ≤ 0xEF then
    if !secondOfThree byte (next 0) then (false, 1)
    else if !isContinuation (next 1) then (false, 2) else (true, 3)
  else if 0xF0 ≤ byte && byte ≤ 0xF4 then
    if !secondOfFour byte (next 0) then (false, 1)
    else if !isContinuation (next 1) then (false, 2)
    else if !isContinuation (next 2) then (false, 3) else (true, 4)
  else (false, 1)

/-- Read characters and put a replacement for what is none. -/
def replaceInvalid : ℕ → List UInt8 → List UInt8
  | 0, _ => []
  | _ + 1, [] => []
  | fuel + 1, byte :: rest =>
    let (valid, width) := nextChar byte rest
    (if valid then (byte :: rest).take width else [0xEF, 0xBF, 0xBD]) ++
      replaceInvalid fuel ((byte :: rest).drop width)

/-- The bytes of the text that is read from bytes, with replacements for what is no text. -/
def toStringLossy (bytes : List UInt8) : List UInt8 := replaceInvalid bytes.length bytes

/-- A character cut off at the end is replaced once. -/
example : toStringLossy [0x61, 0xE2, 0x82, 0x2F, 0xE2, 0x82, 0xAC] =
    [0x61, 0xEF, 0xBF, 0xBD, 0x2F, 0xE2, 0x82, 0xAC] := by decide

/-! ## ASCII text among other bytes -/

/-- An ASCII byte continues no character. -/
theorem isContinuation_ascii {c : UInt8} (hc : c < 0x80) : isContinuation c = false := by
  rw [isContinuation, decide_eq_false (UInt8.not_le.mpr hc), Bool.false_and]

/-- Nor does it follow the first byte of one of three bytes. -/
theorem secondOfThree_ascii {c : UInt8} (hc : c < 0x80) (byte : UInt8) : secondOfThree byte c = false := by
  have hhigh : ¬(0xA0 : UInt8) ≤ c := UInt8.not_le.mpr (UInt8.lt_trans hc (by decide))
  simp only [secondOfThree, isContinuation_ascii hc, hhigh, UInt8.not_le.mpr hc, decide_false, Bool.and_false,
    Bool.false_and, Bool.or_false]

/-- Nor of one of four bytes. -/
theorem secondOfFour_ascii {c : UInt8} (hc : c < 0x80) (byte : UInt8) : secondOfFour byte c = false := by
  have hhigh : ¬(0x90 : UInt8) ≤ c := UInt8.not_le.mpr (UInt8.lt_trans hc (by decide))
  simp only [secondOfFour, isContinuation_ascii hc, hhigh, UInt8.not_le.mpr hc, decide_false, Bool.and_false,
    Bool.false_and, Bool.or_false]

/-- What a character is does not depend on what follows an ASCII byte. -/
theorem nextChar_append {c : UInt8} (hc : c < 0x80) (byte : UInt8) (before rest : List UInt8) :
    nextChar byte (before ++ c :: rest) = nextChar byte before := by
  have hzero : (0 : UInt8) < 0x80 := by decide
  match before with
  | [] => simp [nextChar, isContinuation_ascii, secondOfThree_ascii, secondOfFour_ascii, hc, hzero]
  | [x] => simp [nextChar, isContinuation_ascii, hc, hzero]
  | [x, y] => simp [nextChar, isContinuation_ascii, hc, hzero]
  | x :: y :: z :: before => simp [nextChar]

/-- A character has a byte and ends before an ASCII byte. -/
theorem nextChar_width (byte : UInt8) (rest : List UInt8) :
    0 < (nextChar byte rest).2 ∧ (nextChar byte rest).2 ≤ (byte :: rest).length := by
  have hzero : (0 : UInt8) < 0x80 := by decide
  match rest with
  | [] => grind [nextChar, isContinuation_ascii, secondOfThree_ascii, secondOfFour_ascii]
  | [x] => grind [nextChar, isContinuation_ascii]
  | [x, y] => grind [nextChar, isContinuation_ascii]
  | x :: y :: z :: rest => grind [nextChar]

/-- What follows the first character is shorter. -/
theorem length_drop_nextChar (byte : UInt8) (rest : List UInt8) :
    ((byte :: rest).drop (nextChar byte rest).2).length ≤ rest.length := by
  have hwidth := (nextChar_width byte rest).1
  rw [List.length_drop, List.length_cons]
  omega

/-- The first character is read by itself. -/
theorem replaceInvalid_cons (fuel : ℕ) (byte : UInt8) (rest : List UInt8) :
    replaceInvalid (fuel + 1) (byte :: rest) =
      (if (nextChar byte rest).1 then (byte :: rest).take (nextChar byte rest).2 else [0xEF, 0xBF, 0xBD]) ++
        replaceInvalid fuel ((byte :: rest).drop (nextChar byte rest).2) := rfl

/-- Reading does not depend on the fuel if there is one for each byte. -/
theorem replaceInvalid_fuel {fuel fuel' : ℕ} {bytes : List UInt8} (hfuel : bytes.length ≤ fuel)
    (hfuel' : bytes.length ≤ fuel') : replaceInvalid fuel bytes = replaceInvalid fuel' bytes := by
  induction fuel generalizing fuel' bytes with
  | zero =>
    obtain rfl := List.length_eq_zero_iff.mp (Nat.le_zero.mp hfuel)
    cases fuel' <;> rfl
  | succ fuel ih =>
    match bytes, fuel' with
    | [], 0 => rfl
    | [], fuel' + 1 => rfl
    | byte :: rest, fuel' + 1 =>
      have hdrop := length_drop_nextChar byte rest
      rw [replaceInvalid_cons, replaceInvalid_cons, ih (Nat.le_trans hdrop (Nat.le_of_succ_le_succ hfuel))
        (Nat.le_trans hdrop (Nat.le_of_succ_le_succ hfuel'))]

/-- The text of bytes is that of the first character and that of the others. -/
theorem toStringLossy_cons (byte : UInt8) (rest : List UInt8) :
    toStringLossy (byte :: rest) =
      (if (nextChar byte rest).1 then (byte :: rest).take (nextChar byte rest).2 else [0xEF, 0xBF, 0xBD]) ++
        toStringLossy ((byte :: rest).drop (nextChar byte rest).2) := by
  rw [toStringLossy, List.length_cons, replaceInvalid_cons,
    replaceInvalid_fuel (length_drop_nextChar byte rest) (Nat.le_refl _), toStringLossy]

/-- The text before an ASCII byte and the text after it are read by themselves. -/
theorem toStringLossy_append {c : UInt8} (hc : c < 0x80) (before rest : List UInt8) :
    toStringLossy (before ++ c :: rest) = toStringLossy before ++ c :: toStringLossy rest := by
  induction hlength : before.length using Nat.strongRecOn generalizing before with
  | ind n ih =>
    match before with
    | [] =>
      have hascii : nextChar c rest = (true, 1) := by rw [nextChar, if_pos hc]
      rw [List.nil_append, toStringLossy_cons, hascii]
      rfl
    | byte :: before =>
      obtain ⟨hpos, hle⟩ := nextChar_width byte before
      rw [List.cons_append, toStringLossy_cons, nextChar_append hc, toStringLossy_cons byte before,
        ← List.cons_append, List.take_append_of_le_length hle, List.drop_append_of_le_length hle,
        ih _ (by rw [← hlength, List.length_drop]; omega) _ rfl, List.append_assoc]

/-- ASCII text stays as it is. -/
theorem toStringLossy_ascii {word : List UInt8} (hword : ∀ byte ∈ word, byte < 0x80) (rest : List UInt8) :
    toStringLossy (word ++ rest) = word ++ toStringLossy rest := by
  induction word with
  | nil => rfl
  | cons c word ih =>
    obtain ⟨hc, hword⟩ := List.forall_mem_cons.mp hword
    have hread := toStringLossy_append hc [] (word ++ rest)
    rw [ih hword] at hread
    exact hread

/-- ASCII text in bytes is in the text that they are read as. -/
theorem infix_toStringLossy {word bytes : List UInt8} (hword : ∀ byte ∈ word, byte < 0x80) (h : word <:+: bytes) :
    word <:+: toStringLossy bytes := by
  obtain ⟨before, rest, rfl⟩ := h
  match word with
  | [] => exact List.nil_infix
  | c :: word =>
    obtain ⟨hc, hword⟩ := List.forall_mem_cons.mp hword
    refine ⟨toStringLossy before, toStringLossy rest, ?_⟩
    rw [List.append_assoc before, List.cons_append, toStringLossy_append hc, toStringLossy_ascii hword,
      List.append_assoc, List.cons_append]

end Forge.Common
