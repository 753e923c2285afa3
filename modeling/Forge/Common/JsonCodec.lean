import Forge.Common.Utf8
import Mathlib.Data.List.Basic
import Mathlib.Data.List.Nodup
import Mathlib.Logic.Equiv.List

/-!
# Values in files

How values of a type are written as text and read back. Only that what was written reads
back is relied on. The texts of some values can be prescribed: a table of values and texts
extends to all values of an encodable type.
-/

namespace Forge.Common

/-- Strings have numbers, those of their bytes. -/
instance encodableString : Encodable String :=
  Encodable.ofLeftInjection (fun s => (utf8Bytes s).map UInt8.toNat)
    (fun numbers => fromUtf8 (numbers.map UInt8.ofNat))
    (fun s => by
      have hbyte : UInt8.ofNat ∘ UInt8.toNat = id := funext fun byte => UInt8.ofNat_toNat
      rw [List.map_map, hbyte, List.map_id, fromUtf8_utf8Bytes])

/-- A way to write values as text and to read them back. Reading can fail with a message. -/
structure JsonCodec (α : Type*) where
  toStr : α → String
  fromStr : String → Except String α
  fromStr_toStr : ∀ value, fromStr (toStr value) = .ok value

namespace JsonCodec

variable {α : Type*}

/-- Write a value as bytes. -/
def toVec (codec : JsonCodec α) (value : α) : List UInt8 := utf8Bytes (codec.toStr value)

/-- Read a value from bytes. -/
def tryFromSlice (codec : JsonCodec α) (bytes : List UInt8) : Except String α :=
  match fromUtf8 bytes with
  | some text => codec.fromStr text
  | none => .error "invalid unicode code point"

/-- Read a value from bytes and drop the message if that fails. -/
def fromSlice (codec : JsonCodec α) (bytes : List UInt8) : Option α := (codec.tryFromSlice bytes).toOption

/-- What was written reads back. -/
@[simp] theorem tryFromSlice_toVec (codec : JsonCodec α) (value : α) :
    codec.tryFromSlice (codec.toVec value) = .ok value := by
  rw [tryFromSlice, toVec, fromUtf8_utf8Bytes]
  exact codec.fromStr_toStr value

/-- What was written reads back. -/
@[simp] theorem fromSlice_toVec (codec : JsonCodec α) (value : α) :
    codec.fromSlice (codec.toVec value) = some value := by
  rw [fromSlice, tryFromSlice_toVec]
  rfl

/-- A table of values and their texts: different values have different texts, and none of
them starts with a zero character, as no value of the format does. -/
structure Table (α : Type*) where
  known : List (α × String)
  texts_nodup : (known.map Prod.snd).Nodup
  nonzero : ∀ entry ∈ known, entry.2.toList.head? ≠ some '\x00'

/-- The text of a value outside a table: as many zeros as the number of the value, and one. -/
def zeros (number : ℕ) : String := String.ofList (List.replicate (number + 1) '\x00')

/-- Write the values of a table as it says, and all others as zeros. -/
def ofTable [DecidableEq α] [Encodable α] (table : Table α) : JsonCodec α where
  toStr value := match table.known.find? (·.1 = value) with
    | some entry => entry.2
    | none => zeros (Encodable.encode value)
  fromStr text := match table.known.find? (·.2 = text) with
    | some entry => .ok entry.1
    | none =>
      match (Encodable.decode (text.toList.length - 1) : Option α) with
      | some value => if text = zeros (text.toList.length - 1) then .ok value else .error "expected value"
      | none => .error "expected value"
  fromStr_toStr value := by
    cases hknown : table.known.find? (·.1 = value) with
    | some entry =>
      have hmem := List.mem_of_find?_eq_some hknown
      have hvalue : entry.1 = value := by simpa using List.find?_some hknown
      simp only
      cases htext : table.known.find? (·.2 = entry.2) with
      | some found =>
        have hfound : found.2 = entry.2 := by simpa using List.find?_some htext
        have hsame := List.inj_on_of_nodup_map table.texts_nodup (List.mem_of_find?_eq_some htext) hmem hfound
        rw [hsame]
        exact congrArg Except.ok hvalue
      | none =>
        rw [List.find?_eq_none] at htext
        exact absurd (decide_eq_true rfl) (htext entry hmem)
    | none =>
      simp only
      cases htext : table.known.find? (·.2 = zeros (Encodable.encode value)) with
      | some found =>
        have hfound : found.2 = zeros (Encodable.encode value) := by simpa using List.find?_some htext
        have hhead : found.2.toList.head? = some '\x00' := by
          rw [hfound, zeros, String.toList_ofList, List.replicate_succ, List.head?_cons]
        exact absurd hhead (table.nonzero found (List.mem_of_find?_eq_some htext))
      | none =>
        have hlength : (zeros (Encodable.encode value)).toList.length - 1 = Encodable.encode value := by
          rw [zeros, String.toList_ofList, List.length_replicate, Nat.add_sub_cancel]
        simp only [hlength, Encodable.encodek, if_true]

end JsonCodec

/-- Bytes have numbers. -/
instance encodableUInt8 : Encodable UInt8 :=
  Encodable.ofLeftInjection UInt8.toNat (fun n => some (UInt8.ofNat n)) fun _ => by rw [UInt8.ofNat_toNat]

/-!
## JSON values

Values as they are read from a text. A number is kept as it is written. An object has its
entries in the order in which they are visited.
-/

/-- A JSON value. -/
inductive JsonValue where
  | null
  | bool (value : Bool)
  | number (literal : String)
  | string (text : String)
  | array (elements : List JsonValue)
  | object (entries : List (String × JsonValue))

namespace JsonValue

/-- The entries of an object. -/
def asObject : JsonValue → Option (List (String × JsonValue))
  | .object entries => some entries
  | _ => none

/-- The text of a string. -/
def asStr : JsonValue → Option String
  | .string text => some text
  | _ => none

/-- The value of a key of an object. -/
def get (value : JsonValue) (key : String) : Option JsonValue :=
  value.asObject.bind fun entries => (entries.find? fun entry => entry.1 == key).map Prod.snd

end JsonValue

end Forge.Common
