import Forge.Common.Utf8

/-!
# File names of cache keys

A key is stored under a file name in which every byte that is not plainly safe is written as
`%` and two hexadecimal digits. Reading the name back gives the key, so different keys have
different file names.
-/

namespace Forge.Cache

open Forge.Common

/-- Whether a byte may stand for itself in a file name. -/
def keyCharSafe (byte : UInt8) : Bool :=
  ('0'.val.toUInt8 ≤ byte && byte ≤ '9'.val.toUInt8) ||
    ('A'.val.toUInt8 ≤ byte && byte ≤ 'Z'.val.toUInt8) ||
    ('a'.val.toUInt8 ≤ byte && byte ≤ 'z'.val.toUInt8) ||
    byte == '-'.val.toUInt8 || byte == '.'.val.toUInt8 || byte == '_'.val.toUInt8 ||
    byte == '~'.val.toUInt8

/-- The value of an upper case hexadecimal digit. -/
def hexVal (byte : UInt8) : Option UInt8 :=
  if '0'.val.toUInt8 ≤ byte ∧ byte ≤ '9'.val.toUInt8 then some (byte - '0'.val.toUInt8)
  else if 'A'.val.toUInt8 ≤ byte ∧ byte ≤ 'F'.val.toUInt8 then some (byte - 'A'.val.toUInt8 + 10)
  else none

/-- The upper case hexadecimal digit of a value below 16. -/
def hexDigit (value : UInt8) : Char := (Nat.digitChar value.toNat).toUpper

/-- The characters a byte is written as. -/
def encodeByte (byte : UInt8) : List Char :=
  if keyCharSafe byte then [Char.ofNat byte.toNat]
  else ['%', hexDigit (byte >>> 4), hexDigit (byte &&& 15)]

/-- The file name of a key. -/
def encodeKey (key : String) : String := String.ofList ((utf8Bytes key).flatMap encodeByte)

/-- Undo the escapes of a file name. -/
def decodeBytes : List UInt8 → Option (List UInt8)
  | [] => some []
  | byte :: rest =>
    if byte = '%'.val.toUInt8 then
      match rest with
      | hi :: lo :: rest => do
        let hi ← hexVal hi
        let lo ← hexVal lo
        let decoded ← decodeBytes rest
        return (hi <<< 4 ||| lo) :: decoded
      | _ => none
    else do
      let decoded ← decodeBytes rest
      return byte :: decoded

/-- The key of a file name. -/
def decodeKey (encoded : String) : Option String := (decodeBytes (utf8Bytes encoded)).bind fromUtf8

/-- The bytes a byte is written as. -/
def encodedBytes (byte : UInt8) : List UInt8 := (encodeByte byte).flatMap String.utf8EncodeChar

/-- A safe byte stands for itself, and every other byte for its two hexadecimal digits. -/
theorem encodedBytes_cases (byte : UInt8) :
    (encodedBytes byte = [byte] ∧ byte ≠ '%'.val.toUInt8) ∨
      (∃ hi lo, encodedBytes byte = ['%'.val.toUInt8, hi, lo] ∧
        hexVal hi = some (byte >>> 4) ∧ hexVal lo = some (byte &&& 15)) := by
  have hall : ∀ n : Fin 256, ∀ byte : UInt8, byte = .ofNat n.val →
      (encodedBytes byte = [byte] ∧ byte ≠ '%'.val.toUInt8) ∨
        (encodedBytes byte =
            ['%'.val.toUInt8, (hexDigit (byte >>> 4)).val.toUInt8, (hexDigit (byte &&& 15)).val.toUInt8] ∧
          hexVal (hexDigit (byte >>> 4)).val.toUInt8 = some (byte >>> 4) ∧
          hexVal (hexDigit (byte &&& 15)).val.toUInt8 = some (byte &&& 15)) := by
    simp only [forall_eq]
    decide +kernel
  have hbyte := hall ⟨byte.toNat, byte.toNat_lt⟩ byte UInt8.ofNat_toNat.symm
  exact hbyte.imp_right fun hescaped => ⟨_, _, hescaped⟩

/-- A byte is put together from its two digits. -/
theorem shift_or_and (byte : UInt8) : (byte >>> 4) <<< 4 ||| (byte &&& 15) = byte := by
  have hall : ∀ n : Fin 256,
      (UInt8.ofNat n.val >>> 4) <<< 4 ||| (UInt8.ofNat n.val &&& 15) = .ofNat n.val := by
    decide +kernel
  have hbyte := hall ⟨byte.toNat, byte.toNat_lt⟩
  rwa [UInt8.ofNat_toNat] at hbyte

/-- Decoding reads back one written byte at a time. -/
theorem decodeBytes_encodedBytes (byte : UInt8) (rest : List UInt8) :
    decodeBytes (encodedBytes byte ++ rest) = (decodeBytes rest).map (byte :: ·) := by
  obtain ⟨hplain, hpercent⟩ | ⟨hi, lo, hescaped, hhi, hlo⟩ := encodedBytes_cases byte
  · rw [hplain, List.singleton_append, decodeBytes.eq_def]
    simp only [if_neg hpercent]
    cases decodeBytes rest <;> rfl
  · rw [hescaped, List.cons_append, List.cons_append, List.cons_append, List.nil_append,
      decodeBytes.eq_def]
    simp only [hhi, hlo, Option.bind_eq_bind, Option.bind_some, shift_or_and]
    cases decodeBytes rest <;> rfl

/-- The escapes of a list of bytes can be undone. -/
theorem decodeBytes_flatMap (bytes : List UInt8) :
    decodeBytes (bytes.flatMap encodedBytes) = some bytes := by
  induction bytes with
  | nil => rw [List.flatMap_nil, decodeBytes]
  | cons byte bytes ih => rw [List.flatMap_cons, decodeBytes_encodedBytes, ih, Option.map_some]

/-- The file name of a key reads back as the key. -/
theorem decodeKey_encodeKey (key : String) : decodeKey (encodeKey key) = some key := by
  rw [decodeKey, encodeKey, utf8Bytes_ofList, List.flatMap_assoc]
  have hdecoded : decodeBytes ((utf8Bytes key).flatMap fun byte =>
      (encodeByte byte).flatMap String.utf8EncodeChar) = some (utf8Bytes key) :=
    decodeBytes_flatMap (utf8Bytes key)
  rw [hdecoded, Option.bind_some, fromUtf8_utf8Bytes]

/-- Different keys have different file names. -/
theorem encodeKey_injective : Function.Injective encodeKey := by
  intro key other hname
  have hkey := decodeKey_encodeKey key
  rw [hname, decodeKey_encodeKey] at hkey
  exact (Option.some.inj hkey).symm

/-! ## Reading file names -/

/-- What a scan of bytes comes to. -/
inductive KeyScan where
  | running
  | pastEnd
  | done (decoded : Option (List UInt8))
  deriving DecidableEq

/-- Scan bytes from an index on, in at most some steps. -/
def scanFrom (bytes : List UInt8) : ℕ → ℕ → List UInt8 → KeyScan
  | 0, _, _ => .running
  | fuel + 1, i, out =>
    if i < bytes.length then
      match bytes[i]? with
      | none => .pastEnd
      | some byte =>
        if byte = '%'.val.toUInt8 then
          match bytes[i + 1]?.bind hexVal, bytes[i + 2]?.bind hexVal with
          | some hi, some lo => scanFrom bytes fuel (i + 3) (out ++ [hi <<< 4 ||| lo])
          | _, _ => .done none
        else scanFrom bytes fuel (i + 1) (out ++ [byte])
    else .done (some out)

/-- A byte that starts no escape stands for itself. -/
theorem decodeBytes_plain {byte : UInt8} (hplain : byte ≠ '%'.val.toUInt8) (rest : List UInt8) :
    decodeBytes (byte :: rest) = (decodeBytes rest).map (byte :: ·) := by
  rw [decodeBytes.eq_def]
  simp only [if_neg hplain]
  cases decodeBytes rest <;> rfl

/-- An escape stands for the byte of its two digits. -/
theorem decodeBytes_escape (rest : List UInt8) :
    decodeBytes ('%'.val.toUInt8 :: rest) =
      match rest[0]?.bind hexVal, rest[1]?.bind hexVal with
      | some hi, some lo => (decodeBytes (rest.drop 2)).map ((hi <<< 4 ||| lo) :: ·)
      | _, _ => none := by
  match rest with
  | [] => rfl
  | [hi] => cases hhi : hexVal hi <;> simp [decodeBytes, hhi]
  | hi :: lo :: rest =>
    rw [decodeBytes.eq_def]
    cases hhi : hexVal hi with
    | none => simp [hhi]
    | some high =>
      cases hlo : hexVal lo with
      | none => simp [hhi, hlo]
      | some low =>
        simp only [hhi, hlo, if_true, List.getElem?_cons_zero, List.getElem?_cons_succ, Option.bind_some,
          List.drop_succ_cons, List.drop_zero]
        cases decodeBytes rest <;> rfl

/-- A scan gives what the rest of the bytes decodes to, after what it has. -/
theorem scanFrom_eq (bytes : List UInt8) {fuel i : ℕ} (hi : i ≤ bytes.length) (hfuel : bytes.length < i + fuel)
    (out : List UInt8) : scanFrom bytes fuel i out = .done ((decodeBytes (bytes.drop i)).map (out ++ ·)) := by
  induction fuel generalizing i out with
  | zero => omega
  | succ fuel ih =>
    rw [scanFrom]
    obtain hlt | rfl := Nat.lt_or_eq_of_le hi
    · rw [if_pos hlt, List.getElem?_eq_getElem hlt, List.drop_eq_getElem_cons hlt]
      dsimp only
      by_cases hpercent : bytes[i] = '%'.val.toUInt8
      · rw [if_pos hpercent, hpercent, decodeBytes_escape, List.getElem?_drop, List.getElem?_drop, List.drop_drop]
        cases hhi : bytes[i + 1]?.bind hexVal with
        | none => simp
        | some hi =>
          cases hlo : bytes[i + 2]?.bind hexVal with
          | none => simp
          | some lo =>
            obtain ⟨byte, hbyte, -⟩ := Option.bind_eq_some_iff.mp hlo
            have hend := (List.getElem?_eq_some_iff.mp hbyte).1
            simp [ih (show i + 3 ≤ bytes.length by omega) (by omega), Function.comp_def]
      · rw [if_neg hpercent, decodeBytes_plain hpercent, ih hlt (by omega), Option.map_map]
        simp [Function.comp_def]
    · rw [if_neg (Nat.lt_irrefl _), List.drop_length, decodeBytes]
      simp

/-- The bytes that are digits of escapes. -/
def hexDigits : List UInt8 := utf8Bytes "0123456789ABCDEF"

/-- Only digits of escapes have values. -/
theorem hexVal_isSome_iff (byte : UInt8) : (hexVal byte).isSome ↔ byte ∈ hexDigits := by
  have hall : ∀ n : Fin 256, (hexVal (.ofNat n.val)).isSome ↔ UInt8.ofNat n.val ∈ hexDigits := by
    decide +kernel
  have hbyte := hall ⟨byte.toNat, byte.toNat_lt⟩
  rwa [UInt8.ofNat_toNat] at hbyte

/-- Bytes with escapes and the bytes that they stand for. -/
inductive Unescapes : List UInt8 → List UInt8 → Prop
  | nil : Unescapes [] []
  | plain {byte : UInt8} {bytes decoded : List UInt8} (hplain : byte ≠ '%'.val.toUInt8) (rest : Unescapes bytes decoded) :
    Unescapes (byte :: bytes) (byte :: decoded)
  | escaped {hi lo high low : UInt8} {bytes decoded : List UInt8} (hhi : hexVal hi = some high)
    (hlo : hexVal lo = some low) (rest : Unescapes bytes decoded) :
    Unescapes ('%'.val.toUInt8 :: hi :: lo :: bytes) ((high <<< 4 ||| low) :: decoded)

/-- Whether bytes start with two digits of an escape. -/
def TwoDigits (bytes : List UInt8) : Prop := ∃ hi ∈ hexDigits, ∃ lo ∈ hexDigits, [hi, lo] <+: bytes

/-- An escape is decoded with what follows its two digits. -/
theorem decodeBytes_digits {hi lo high low : UInt8} (hhi : hexVal hi = some high) (hlo : hexVal lo = some low)
    (rest : List UInt8) : decodeBytes ('%'.val.toUInt8 :: hi :: lo :: rest) =
      (decodeBytes rest).map ((high <<< 4 ||| low) :: ·) := by
  rw [decodeBytes_escape]
  simp [hhi, hlo]

/-- Bytes start with two digits if these have values. -/
theorem twoDigits_iff (bytes : List UInt8) :
    TwoDigits bytes ↔ ∃ hi lo high low rest, hexVal hi = some high ∧ hexVal lo = some low ∧ bytes = hi :: lo :: rest := by
  simp only [TwoDigits, ← hexVal_isSome_iff, Option.isSome_iff_exists]
  constructor
  · rintro ⟨hi, ⟨high, hhi⟩, lo, ⟨low, hlo⟩, rest, rfl⟩
    exact ⟨hi, lo, high, low, rest, hhi, hlo, rfl⟩
  · rintro ⟨hi, lo, high, low, rest, hhi, hlo, rfl⟩
    exact ⟨hi, ⟨high, hhi⟩, lo, ⟨low, hlo⟩, rest, rfl⟩

/-- An escape without two digits is not decoded. -/
theorem decodeBytes_malformed {rest : List UInt8} (h : ¬ TwoDigits rest) :
    decodeBytes ('%'.val.toUInt8 :: rest) = none := by
  rw [decodeBytes_escape]
  match rest with
  | [] => rfl
  | [hi] => cases hhi : hexVal hi <;> simp [hhi]
  | hi :: lo :: rest =>
    cases hhi : hexVal hi with
    | none => simp [hhi]
    | some high =>
      cases hlo : hexVal lo with
      | none => simp [hlo]
      | some low => exact absurd ((twoDigits_iff _).mpr ⟨hi, lo, high, low, rest, hhi, hlo, rfl⟩) h

/-- Bytes are none, start with a byte that stands for itself, with an escape or with a broken one. -/
theorem escapes_induction {motive : List UInt8 → Prop} (nil : motive [])
    (plain : ∀ byte rest, byte ≠ '%'.val.toUInt8 → motive rest → motive (byte :: rest))
    (digits : ∀ hi lo high low rest, hexVal hi = some high → hexVal lo = some low → motive rest →
      motive ('%'.val.toUInt8 :: hi :: lo :: rest))
    (malformed : ∀ rest, ¬ TwoDigits rest → motive ('%'.val.toUInt8 :: rest)) (bytes : List UInt8) : motive bytes := by
  induction hlength : bytes.length using Nat.strongRecOn generalizing bytes with
  | ind n ih =>
    match bytes with
    | [] => exact nil
    | byte :: rest =>
      rw [List.length_cons] at hlength
      by_cases hpercent : byte = '%'.val.toUInt8
      · rw [hpercent]
        by_cases hdigits : TwoDigits rest
        · obtain ⟨hi, lo, high, low, rest, hhi, hlo, rfl⟩ := (twoDigits_iff rest).mp hdigits
          rw [List.length_cons, List.length_cons] at hlength
          exact digits hi lo high low rest hhi hlo (ih rest.length (by omega) rest rfl)
        · exact malformed rest hdigits
      · exact plain byte rest hpercent (ih rest.length (by omega) rest rfl)

/-- Bytes are decoded to what they stand for. -/
theorem decodeBytes_eq_some_iff {bytes decoded : List UInt8} :
    decodeBytes bytes = some decoded ↔ Unescapes bytes decoded := by
  constructor
  · induction bytes using escapes_induction generalizing decoded with
    | nil =>
      intro h
      rw [decodeBytes] at h
      rw [← Option.some.inj h]
      exact .nil
    | plain byte rest hplain ih =>
      intro h
      rw [decodeBytes_plain hplain] at h
      obtain ⟨others, hothers, rfl⟩ := Option.map_eq_some_iff.mp h
      exact .plain hplain (ih hothers)
    | digits hi lo high low rest hhi hlo ih =>
      intro h
      rw [decodeBytes_digits hhi hlo] at h
      obtain ⟨others, hothers, rfl⟩ := Option.map_eq_some_iff.mp h
      exact .escaped hhi hlo (ih hothers)
    | malformed rest hdigits =>
      intro h
      rw [decodeBytes_malformed hdigits] at h
      exact absurd h nofun
  · intro h
    induction h with
    | nil => rw [decodeBytes]
    | plain hplain _ ih => rw [decodeBytes_plain hplain, ih, Option.map_some]
    | escaped hhi hlo _ ih => rw [decodeBytes_digits hhi hlo, ih, Option.map_some]

/-- Whether a `%` is not followed by two digits. -/
def Malformed (bytes : List UInt8) : Prop :=
  ∃ before after, bytes = before ++ '%'.val.toUInt8 :: after ∧ ¬ TwoDigits after

/-- The first byte is such a `%`, or there is one further on. -/
theorem malformed_cons (byte : UInt8) (rest : List UInt8) :
    Malformed (byte :: rest) ↔ (byte = '%'.val.toUInt8 ∧ ¬ TwoDigits rest) ∨ Malformed rest := by
  constructor
  · rintro ⟨before, after, hsplit, hdigits⟩
    match before with
    | [] =>
      obtain ⟨rfl, rfl⟩ := List.cons.inj hsplit
      exact .inl ⟨rfl, hdigits⟩
    | _ :: before => exact .inr ⟨before, after, (List.cons.inj hsplit).2, hdigits⟩
  · rintro (⟨rfl, hdigits⟩ | ⟨before, after, rfl, hdigits⟩)
    · exact ⟨[], rest, rfl, hdigits⟩
    · exact ⟨byte :: before, after, rfl, hdigits⟩

/-- Bytes are not decoded if a `%` is not followed by two digits. -/
theorem decodeBytes_eq_none_iff (bytes : List UInt8) : decodeBytes bytes = none ↔ Malformed bytes := by
  induction bytes using escapes_induction with
  | nil => simp [decodeBytes, Malformed]
  | plain byte rest hplain ih =>
    rw [decodeBytes_plain hplain, Option.map_eq_none_iff, ih, malformed_cons, or_iff_right fun h => hplain h.1]
  | digits hi lo high low rest hhi hlo ih =>
    have hvalue : hexVal '%'.val.toUInt8 = none := by decide
    have hne : ∀ {digit value}, hexVal digit = some value → digit ≠ '%'.val.toUInt8 := by
      rintro digit value hdigit rfl
      exact absurd (hvalue.symm.trans hdigit) nofun
    have hdigits := (twoDigits_iff _).mpr ⟨hi, lo, high, low, rest, hhi, hlo, rfl⟩
    rw [decodeBytes_digits hhi hlo, Option.map_eq_none_iff, ih, malformed_cons, or_iff_right fun h => h.2 hdigits,
      malformed_cons, or_iff_right fun h => hne hhi h.1, malformed_cons, or_iff_right fun h => hne hlo h.1]
  | malformed rest hdigits =>
    exact iff_of_true (decodeBytes_malformed hdigits) ((malformed_cons _ _).mpr (.inl ⟨rfl, hdigits⟩))

/-- The characters of a file name. -/
theorem mem_encodeKey {key : String} {c : Char} (hc : c ∈ (encodeKey key).toList) :
    c.isAlphanum = true ∨ c ∈ "-._~%".toList := by
  have hall : ∀ n : Fin 256,
      ((encodeByte (.ofNat n.val)).all fun c => c.isAlphanum || "-._~%".toList.contains c) = true := by
    decide +kernel
  rw [encodeKey, String.toList_ofList, List.mem_flatMap] at hc
  obtain ⟨byte, -, hc⟩ := hc
  have hbyte := hall ⟨byte.toNat, byte.toNat_lt⟩
  rw [UInt8.ofNat_toNat] at hbyte
  have hsafe := List.all_eq_true.mp hbyte c hc
  rwa [Bool.or_eq_true, List.contains_iff_mem] at hsafe

/-- A file name has no key if it is malformed or stands for bytes that are no text. -/
theorem decodeKey_eq_none_iff (encoded : String) :
    decodeKey encoded = none ↔ Malformed (utf8Bytes encoded) ∨
      ∃ decoded, Unescapes (utf8Bytes encoded) decoded ∧ ∀ key, utf8Bytes key ≠ decoded := by
  rw [decodeKey, Option.bind_eq_none_iff, ← decodeBytes_eq_none_iff]
  simp only [← decodeBytes_eq_some_iff]
  cases hdecoded : decodeBytes (utf8Bytes encoded) with
  | none => simp
  | some decoded =>
    have htext : fromUtf8 decoded = none ↔ ∀ key, utf8Bytes key ≠ decoded := by
      rw [Option.eq_none_iff_forall_ne_some]
      exact forall_congr' fun key => not_congr (fromUtf8_eq_some_iff.trans eq_comm)
    simp [htext]

/-- Keys are read back from their file names, which have safe characters only. Every name is scanned to
its end and not past it, and has no key exactly if it is malformed or stands for no text. -/
theorem keyCodec_sound :
    (∀ key, decodeKey (encodeKey key) = some key) ∧ Function.Injective encodeKey ∧
      (∀ key, ∀ c ∈ (encodeKey key).toList, c.isAlphanum = true ∨ c ∈ "-._~%".toList) ∧
      (∀ encoded more, scanFrom (utf8Bytes encoded) ((utf8Bytes encoded).length + 1 + more) 0 [] =
        .done (decodeBytes (utf8Bytes encoded))) ∧
      ∀ encoded, decodeKey encoded = none ↔ Malformed (utf8Bytes encoded) ∨
        ∃ decoded, Unescapes (utf8Bytes encoded) decoded ∧ ∀ key, utf8Bytes key ≠ decoded := by
  refine ⟨decodeKey_encodeKey, encodeKey_injective, fun key c => mem_encodeKey, fun encoded more => ?_,
    decodeKey_eq_none_iff⟩
  rw [scanFrom_eq _ (Nat.zero_le _) (by omega)]
  simp

end Forge.Cache
