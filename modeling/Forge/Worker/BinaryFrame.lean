import Forge.Common.ByteOrder
import Forge.Common.Fallible
import Forge.Common.Files
import Forge.Common.Utf8

/-!
# Binary frames

A frame on the wire is a magic number, a type, flags, the length of the payload, and the
payload. Reading takes bytes from a stream. It can fail with an error, or with a panic: the
buffer for the payload is made before the payload is read, with the length that the header
gives, and there are no buffers of more than `isize::MAX` bytes.
-/

namespace Forge.Worker

open Forge.Common

/-- The kinds of errors. -/
inductive ErrorKind where
  | unexpectedEof
  | invalidData
  deriving DecidableEq, Repr

/-- An error. -/
structure IoError where
  kind : ErrorKind
  message : String
  deriving DecidableEq, Repr

/-- How reading fails. -/
inductive Failure where
  | err (e : IoError)
  | panic (message : String)
  deriving DecidableEq, Repr

/-- Computations that read from the bytes of a stream. -/
abbrev ReadM (α : Type) := ExceptT Failure (StateM Bytes) α

/-- The largest size of a buffer. -/
def isizeMax : ℕ := 2 ^ 63 - 1

/-- A buffer. -/
abbrev Vec := { bytes : Bytes // bytes.length ≤ isizeMax }

/-- Too few bytes are left in a stream. -/
def eof : Failure := .err ⟨.unexpectedEof, "failed to fill whole buffer"⟩

/-- Fill a small buffer. If there are too few bytes they are all lost. -/
def readExact (count : ℕ) : ReadM Bytes := fun s =>
  if count ≤ s.length then (.ok (s.take count), s.drop count) else (.error eof, [])

/-- Make a buffer and fill it. -/
def readPayload (count : ℕ) : ReadM Vec := fun s =>
  if h : count ≤ isizeMax then
    if count ≤ s.length then
      (.ok ⟨s.take count, (List.length_take_le count s).trans h⟩, s.drop count)
    else (.error eof, [])
  else (.error (.panic "capacity overflow"), s)

/-- The types of frames. -/
inductive FrameType where
  | taskRequest
  | taskResponse
  | vfsRequest
  | vfsResponse
  | ping
  | pong
  | rawPayload
  deriving DecidableEq, Repr

namespace FrameType

/-- The code of a type. -/
def code : FrameType → UInt16
  | taskRequest => 1
  | taskResponse => 2
  | vfsRequest => 3
  | vfsResponse => 4
  | ping => 5
  | pong => 6
  | rawPayload => 7

/-- The type of a code. -/
def tryFrom (val : UInt16) : Except Failure FrameType :=
  match val.toNat with
  | 1 => .ok taskRequest
  | 2 => .ok taskResponse
  | 3 => .ok vfsRequest
  | 4 => .ok vfsResponse
  | 5 => .ok ping
  | 6 => .ok pong
  | 7 => .ok rawPayload
  | other => .error (.err ⟨.invalidData, "unknown frame type " ++ toString other⟩)

end FrameType

/-- The bytes that a frame starts with. -/
def BINARY_MAGIC : Bytes := utf8Bytes "FORG"

/-- A frame. -/
structure BinaryFrame where
  frameType : FrameType
  flags : UInt16
  payload : Vec
  deriving DecidableEq

namespace BinaryFrame

/-- The bytes of a frame. -/
def encode (frame : BinaryFrame) : Bytes :=
  BINARY_MAGIC ++ (toBeBytes 2 frame.frameType.code.toNat ++ (toBeBytes 2 frame.flags.toNat ++
    (toBeBytes 8 frame.payload.1.length ++ frame.payload.1)))

/-- Go on only after the right bytes. -/
def checkMagic (magic : Bytes) : Except Failure Unit :=
  if magic = BINARY_MAGIC then .ok () else .error (.err ⟨.invalidData, "invalid binary magic header"⟩)

/-- Read a frame behind its first four bytes. -/
def decodeRest (magic : Bytes) : ReadM BinaryFrame := do
  checkMagic magic
  let typeBuf ← readExact 2
  let frameType ← FrameType.tryFrom (.ofNat (fromBeBytes typeBuf))
  let flagsBuf ← readExact 2
  let lenBuf ← readExact 8
  let payload ← readPayload (fromBeBytes lenBuf)
  return ⟨frameType, .ofNat (fromBeBytes flagsBuf), payload⟩

/-- Read a frame. If the stream ends within the first four bytes there is none. -/
def decode : ReadM (Option BinaryFrame) := fun s =>
  match readExact 4 s with
  | (.ok magic, s) =>
    match decodeRest magic s with
    | (.ok frame, s) => (.ok (some frame), s)
    | (.error e, s) => (.error e, s)
  | (.error (.err e), s) => if e.kind = .unexpectedEof then (.ok none, s) else (.error (.err e), s)
  | (.error (.panic message), s) => (.error (.panic message), s)

end BinaryFrame

/-! ## Reading -/

/-- A buffer is filled from the bytes that the stream starts with. -/
theorem readExact_eq_ok_iff {count : ℕ} {s t bytes : Bytes} :
    readExact count s = (.ok bytes, t) ↔ s = bytes ++ t ∧ bytes.length = count := by
  rw [readExact]
  constructor
  · intro hread
    split at hread
    · rename_i hcount
      cases hread
      exact ⟨(List.take_append_drop count s).symm, List.length_take_of_le hcount⟩
    · cases hread
  · rintro ⟨rfl, rfl⟩
    rw [if_pos (by rw [List.length_append]; omega), List.take_left, List.drop_left]

/-- A buffer is not filled from fewer bytes. -/
theorem readExact_eq_error_iff {count : ℕ} {s t : Bytes} {e : Failure} :
    readExact count s = (.error e, t) ↔ s.length < count ∧ e = eof ∧ t = [] := by
  rw [readExact]
  split
  · rename_i hcount
    exact iff_of_false nofun fun h => absurd h.1 (Nat.not_lt.mpr hcount)
  · rename_i hcount
    rw [and_iff_right (Nat.lt_of_not_le hcount)]
    constructor
    · intro h
      cases h
      exact ⟨rfl, rfl⟩
    · rintro ⟨rfl, rfl⟩
      rfl

/-- A payload is filled from the bytes that the stream starts with. -/
theorem readPayload_eq_ok_iff {count : ℕ} {s t : Bytes} {payload : Vec} :
    readPayload count s = (.ok payload, t) ↔ s = payload.1 ++ t ∧ payload.1.length = count := by
  rw [readPayload]
  constructor
  · intro hread
    split at hread
    · split at hread
      · rename_i hcount
        cases hread
        exact ⟨(List.take_append_drop count s).symm, List.length_take_of_le hcount⟩
      · cases hread
    · cases hread
  · rintro ⟨rfl, rfl⟩
    rw [dif_pos payload.2, if_pos (by rw [List.length_append]; omega), List.drop_left]
    refine congrArg (fun read : Vec => ((.ok read : Except Failure Vec), t)) (Subtype.ext ?_)
    exact List.take_left

/-- Only a buffer that is too large makes reading panic. -/
theorem readPayload_eq_panic_iff {count : ℕ} {s t : Bytes} {message : String} :
    readPayload count s = (.error (.panic message), t) ↔
      isizeMax < count ∧ message = "capacity overflow" ∧ t = s := by
  rw [readPayload]
  split
  · rename_i hcount
    refine iff_of_false ?_ fun h => absurd h.1 (Nat.not_lt.mpr hcount)
    split <;> exact nofun
  · rename_i hcount
    rw [and_iff_right (Nat.lt_of_not_le hcount)]
    constructor
    · intro h
      cases h
      exact ⟨rfl, rfl⟩
    · rintro ⟨rfl, rfl⟩
      rfl

/-- A type is read from its code and from no other. -/
theorem FrameType.tryFrom_eq_ok_iff {val : UInt16} {frameType : FrameType} :
    FrameType.tryFrom val = .ok frameType ↔ val = frameType.code := by
  constructor
  · intro h
    rw [tryFrom] at h
    refine UInt16.toNat_inj.mp ?_
    split at h <;> cases h <;> assumption
  · rintro rfl
    cases frameType <;> rfl

namespace BinaryFrame

/-- The first four bytes are checked. -/
theorem checkMagic_eq_ok_iff {magic : Bytes} {u : Unit} : checkMagic magic = .ok u ↔ magic = BINARY_MAGIC := by
  rw [checkMagic]
  split
  · rename_i hmagic
    exact iff_of_true rfl hmagic
  · rename_i hmagic
    exact iff_of_false nofun hmagic

/-- A frame is read behind its first four bytes from its bytes, whatever follows, and from no
others. -/
theorem decodeRest_eq_ok_iff {magic s t : Bytes} {frame : BinaryFrame} :
    decodeRest magic s = (.ok frame, t) ↔ magic ++ s = frame.encode ++ t ∧ magic.length = 4 := by
  rw [decodeRest, bind_run_eq_ok_iff]
  simp only [lift_run_eq_ok_iff, checkMagic_eq_ok_iff, bind_run_eq_ok_iff, readExact_eq_ok_iff,
    FrameType.tryFrom_eq_ok_iff, readPayload_eq_ok_iff]
  constructor
  · rintro ⟨_, _, ⟨rfl, rfl⟩, typeBuf, _, ⟨rfl, htype⟩, frameType, _, ⟨hcode, rfl⟩, flagsBuf, _,
      ⟨rfl, hflags⟩, lenBuf, _, ⟨rfl, hlen⟩, payload, _, ⟨rfl, hpayload⟩, hframe⟩
    cases hframe
    have hcodeBytes : toBeBytes 2 frameType.code.toNat = typeBuf := by
      have hfits := fromBeBytes_lt typeBuf
      rw [htype] at hfits
      rw [← hcode, UInt16.toNat_ofNat_of_lt' hfits, ← htype, toBeBytes_fromBeBytes]
    have hflagsBytes : toBeBytes 2 (UInt16.ofNat (fromBeBytes flagsBuf)).toNat = flagsBuf := by
      have hfits := fromBeBytes_lt flagsBuf
      rw [hflags] at hfits
      rw [UInt16.toNat_ofNat_of_lt' hfits, ← hflags, toBeBytes_fromBeBytes]
    have hlenBytes : toBeBytes 8 payload.1.length = lenBuf := by
      rw [hpayload, ← hlen, toBeBytes_fromBeBytes]
    refine ⟨?_, rfl⟩
    rw [encode]
    simp only [hcodeBytes, hflagsBytes, hlenBytes, List.append_assoc]
  · rintro ⟨heq, hlength⟩
    rw [encode] at heq
    simp only [List.append_assoc] at heq
    obtain ⟨rfl, rfl⟩ := List.append_inj heq hlength
    have hcode := frame.frameType.code.toNat_lt
    have hflags := frame.flags.toNat_lt
    have hpayload : frame.payload.1.length < 256 ^ 8 :=
      frame.payload.2.trans_lt (by decide)
    refine ⟨(), _, ⟨rfl, rfl⟩, toBeBytes 2 frame.frameType.code.toNat, _,
      ⟨rfl, toBeBytes_length _ _⟩, frame.frameType, _, ⟨?_, rfl⟩, toBeBytes 2 frame.flags.toNat, _,
      ⟨rfl, toBeBytes_length _ _⟩, toBeBytes 8 frame.payload.1.length, _,
      ⟨rfl, toBeBytes_length _ _⟩, frame.payload, t, ⟨rfl, ?_⟩, ?_⟩
    · rw [fromBeBytes_toBeBytes_of_lt hcode, UInt16.ofNat_toNat]
    · rw [fromBeBytes_toBeBytes_of_lt hpayload]
    · rw [fromBeBytes_toBeBytes_of_lt hflags, UInt16.ofNat_toNat]
      rfl

/-- A frame is read from its bytes, whatever follows, and from no others. -/
theorem decode_eq_some_iff {s t : Bytes} {frame : BinaryFrame} :
    decode s = (.ok (some frame), t) ↔ s = frame.encode ++ t := by
  rw [decode]
  cases hread : readExact 4 s with
  | mk result rest =>
    cases result with
    | ok magic =>
      obtain ⟨hs, hmagic⟩ := readExact_eq_ok_iff.mp hread
      have hrest : decodeRest magic rest = (.ok frame, t) ↔
          magic ++ rest = frame.encode ++ t ∧ magic.length = 4 := decodeRest_eq_ok_iff
      rw [and_iff_left hmagic, ← hs] at hrest
      rw [← hrest]
      dsimp only
      cases decodeRest magic rest with
      | mk result rest' =>
        cases result with
        | ok frame' =>
          constructor <;> intro h <;> cases h <;> rfl
        | error e => exact iff_of_false nofun nofun
    | error e =>
      obtain ⟨hlength, rfl, _⟩ := readExact_eq_error_iff.mp hread
      refine iff_of_false nofun ?_
      rintro rfl
      have hmagic : BINARY_MAGIC.length = 4 := by decide
      rw [encode, List.length_append, List.length_append, hmagic] at hlength
      omega

end BinaryFrame

/-!
## Streams of frames

Frames that were written one after another are read one after another. What is no frame is
refused with an error, except that a stream that ends within the first four bytes counts as
one that has ended, and that a header with a length beyond `isize::MAX` makes reading panic.
-/

namespace BinaryFrame

/-- The bytes of frames one after another. -/
def encodeAll (frames : List BinaryFrame) : Bytes := frames.flatMap encode

/-- What reading so many times gives, and what is left of the stream. -/
def decodeMany : ℕ → Bytes → List (Except Failure (Option BinaryFrame)) × Bytes
  | 0, s => ([], s)
  | count + 1, s =>
    let (result, s) := decode s
    let (results, s) := decodeMany count s
    (result :: results, s)

/-- Frames that were written one after another are read one after another, and what follows them
is left. Nothing is read from an empty stream. -/
theorem decodeMany_encodeAll (frames : List BinaryFrame) (trailing : Bytes) :
    decodeMany frames.length (encodeAll frames ++ trailing) =
        (frames.map fun frame => .ok (some frame), trailing) ∧
      decode [] = (.ok none, []) := by
  refine ⟨?_, rfl⟩
  induction frames with
  | nil => rfl
  | cons frame frames ih =>
    have hfirst : decode (encodeAll (frame :: frames) ++ trailing) =
        (.ok (some frame), encodeAll frames ++ trailing) := by
      refine decode_eq_some_iff.mpr ?_
      rw [encodeAll, List.flatMap_cons, List.append_assoc]
      rfl
    rw [List.length_cons, decodeMany, hfirst]
    dsimp only
    rw [ih, List.map_cons]

/-! ### Malformed streams -/

/-- A stream starts with the header of a frame that is too long for a buffer. -/
def Oversized (s : Bytes) : Prop :=
  ∃ (frameType : FrameType) (flags : UInt16) (length : UInt64) (rest : Bytes),
    s = BINARY_MAGIC ++ (toBeBytes 2 frameType.code.toNat ++ (toBeBytes 2 flags.toNat ++
      (toBeBytes 8 length.toNat ++ rest))) ∧ isizeMax < length.toNat

/-- A stream counts as ended when it ends within the first four bytes. -/
theorem decode_eq_none_iff {s : Bytes} : (decode s).1 = .ok none ↔ s.length < 4 := by
  rw [decode]
  cases hread : readExact 4 s with
  | mk result rest =>
    cases result with
    | error e =>
      obtain ⟨hlength, rfl, _⟩ := readExact_eq_error_iff.mp hread
      exact iff_of_true rfl hlength
    | ok magic =>
      obtain ⟨rfl, hmagic⟩ := readExact_eq_ok_iff.mp hread
      refine iff_of_false ?_ (by rw [List.length_append]; omega)
      dsimp only
      cases decodeRest magic rest with
      | mk result rest' => cases result <;> simp

/-- Reading behind the first four bytes panics when the header is of a frame that is too long. -/
theorem decodeRest_panics_iff {magic s : Bytes} (hmagic : magic.length = 4) :
    (∃ message t, decodeRest magic s = (.error (.panic message), t)) ↔ Oversized (magic ++ s) := by
  have hcheck : ∀ message, checkMagic magic ≠ .error (.panic message) := by
    intro message h
    rw [checkMagic] at h
    split at h <;> cases h
  have htype : ∀ val message, FrameType.tryFrom val ≠ .error (.panic message) := by
    intro val message h
    rw [FrameType.tryFrom] at h
    split at h <;> cases h
  have heof : ∀ message, Failure.panic message ≠ eof := fun _ h => by cases h
  simp only [decodeRest, bind_run_eq_error_iff, lift_run_eq_ok_iff, lift_run_eq_error_iff,
    checkMagic_eq_ok_iff, readExact_eq_ok_iff, readExact_eq_error_iff, FrameType.tryFrom_eq_ok_iff,
    readPayload_eq_panic_iff, hcheck, htype, heof, false_and, and_false, false_or]
  constructor
  · rintro ⟨message, t, _, _, ⟨rfl, rfl⟩, typeBuf, _, ⟨rfl, htypeLength⟩, frameType, _, ⟨hcode, rfl⟩,
      flagsBuf, _, ⟨rfl, hflags⟩, lenBuf, rest, ⟨rfl, hlen⟩, hpanic | ⟨payload, _, _, hframe⟩⟩
    · have hcodeBytes : toBeBytes 2 frameType.code.toNat = typeBuf := by
        have hfits := fromBeBytes_lt typeBuf
        rw [htypeLength] at hfits
        rw [← hcode, UInt16.toNat_ofNat_of_lt' hfits, ← htypeLength, toBeBytes_fromBeBytes]
      have hflagsBytes : toBeBytes 2 (UInt16.ofNat (fromBeBytes flagsBuf)).toNat = flagsBuf := by
        have hfits := fromBeBytes_lt flagsBuf
        rw [hflags] at hfits
        rw [UInt16.toNat_ofNat_of_lt' hfits, ← hflags, toBeBytes_fromBeBytes]
      have hlenFits := fromBeBytes_lt lenBuf
      rw [hlen] at hlenFits
      have hlength : (UInt64.ofNat (fromBeBytes lenBuf)).toNat = fromBeBytes lenBuf :=
        UInt64.toNat_ofNat_of_lt' hlenFits
      have hlenBytes : toBeBytes 8 (fromBeBytes lenBuf) = lenBuf := by
        rw [← hlen, toBeBytes_fromBeBytes]
      refine ⟨frameType, .ofNat (fromBeBytes flagsBuf), .ofNat (fromBeBytes lenBuf), rest, ?_, ?_⟩
      · rw [hcodeBytes, hflagsBytes, hlength, hlenBytes]
      · rw [hlength]
        exact hpanic.1
    · cases hframe
  · rintro ⟨frameType, flags, length, rest, heq, hlarge⟩
    obtain ⟨rfl, rfl⟩ := List.append_inj heq hmagic
    have hcode := frameType.code.toNat_lt
    have hflags := flags.toNat_lt
    have hlength := length.toNat_lt
    refine ⟨"capacity overflow", rest, (), _, ⟨rfl, rfl⟩, _, _, ⟨rfl, toBeBytes_length _ _⟩, frameType, _,
      ⟨?_, rfl⟩, _, _, ⟨rfl, toBeBytes_length _ _⟩, _, rest, ⟨rfl, toBeBytes_length _ _⟩, Or.inl ⟨?_, rfl, rfl⟩⟩
    · rw [fromBeBytes_toBeBytes_of_lt hcode, UInt16.ofNat_toNat]
    · rw [fromBeBytes_toBeBytes_of_lt hlength]
      exact hlarge

/-- Reading panics when the header is of a frame that is too long. -/
theorem decode_panics_iff {s : Bytes} :
    (∃ message, (decode s).1 = .error (.panic message)) ↔ Oversized s := by
  rw [decode]
  cases hread : readExact 4 s with
  | mk result rest =>
    cases result with
    | error e =>
      obtain ⟨hlength, rfl, _⟩ := readExact_eq_error_iff.mp hread
      refine iff_of_false (fun h => by obtain ⟨_, h⟩ := h; cases h) ?_
      rintro ⟨_, _, _, _, rfl, _⟩
      have hmagic : BINARY_MAGIC.length = 4 := by decide
      rw [List.length_append, hmagic] at hlength
      omega
    | ok magic =>
      obtain ⟨rfl, hmagic⟩ := readExact_eq_ok_iff.mp hread
      rw [← decodeRest_panics_iff hmagic]
      dsimp only
      cases decodeRest magic rest with
      | mk result rest' =>
        cases result with
        | ok frame =>
          constructor
          · rintro ⟨message, h⟩
            cases h
          · rintro ⟨message, t, h⟩
            cases h
        | error e =>
          constructor
          · rintro ⟨message, h⟩
            cases h
            exact ⟨message, rest', rfl⟩
          · rintro ⟨message, t, h⟩
            cases h
            exact ⟨message, rfl⟩

/-- A stream that does not start with a frame is refused with an error exactly when it does not
end within the first four bytes, and its header is not of a frame that is too long. -/
theorem decode_isErr_iff (s : Bytes) (hmalformed : ¬ ∃ frame rest, s = encode frame ++ rest) :
    (∃ e, (decode s).1 = .error (.err e)) ↔ 4 ≤ s.length ∧ ¬ Oversized s := by
  have hnone := decode_eq_none_iff (s := s)
  have hpanics := decode_panics_iff (s := s)
  cases hdecode : decode s with
  | mk result t =>
    rw [hdecode] at hnone hpanics
    cases result with
    | ok read =>
      cases read with
      | some frame => exact absurd ⟨frame, t, decode_eq_some_iff.mp hdecode⟩ hmalformed
      | none =>
        refine iff_of_false (fun h => by obtain ⟨_, h⟩ := h; cases h) fun h => ?_
        exact absurd (hnone.mp rfl) (Nat.not_lt.mpr h.1)
    | error e =>
      cases e with
      | panic message =>
        refine iff_of_false (fun h => by obtain ⟨_, h⟩ := h; cases h) fun h => ?_
        exact h.2 (hpanics.mp ⟨message, rfl⟩)
      | err e =>
        refine iff_of_true ⟨e, rfl⟩ ⟨?_, fun hlong => ?_⟩
        · exact Nat.not_lt.mp fun h => nomatch hnone.mpr h
        · obtain ⟨_, h⟩ := hpanics.mpr hlong
          cases h

/-- A stream that ends within the magic number counts as ended. -/
theorem not_isErr_partialMagic :
    BINARY_MAGIC.take 1 ≠ [] ∧ (¬ ∃ frame rest, BINARY_MAGIC.take 1 = encode frame ++ rest) ∧
      ¬ ∃ e, (decode (BINARY_MAGIC.take 1)).1 = .error (.err e) := by
  refine ⟨by decide, ?_, ?_⟩
  · rintro ⟨frame, rest, h⟩
    have hlength := congrArg List.length h
    have hmagic : BINARY_MAGIC.length = 4 := by decide
    rw [encode, List.length_append, List.length_append, hmagic, List.length_take, hmagic] at hlength
    omega
  · rintro ⟨e, h⟩
    cases h

/-- Whether a stream with another magic number is refused with an error. -/
theorem decode_isErr_iff_badMagic :
    (∃ e, (decode (utf8Bytes "BADM")).1 = .error (.err e)) ↔
      4 ≤ (utf8Bytes "BADM").length ∧ ¬ Oversized (utf8Bytes "BADM") := by
  refine decode_isErr_iff (utf8Bytes "BADM") ?_
  rintro ⟨frame, rest, h⟩
  have hread := decode_eq_some_iff.mpr h
  have hrefused : (decode (utf8Bytes "BADM")).1 =
      .error (.err ⟨.invalidData, "invalid binary magic header"⟩) := by decide
  rw [hread] at hrefused
  cases hrefused

end BinaryFrame

end Forge.Worker
