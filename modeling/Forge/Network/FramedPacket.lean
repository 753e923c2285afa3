import Mathlib.Data.List.Induction
import Forge.Common.ByteOrder
import Forge.Common.Files

/-!
# The packets of the transport

A packet is sent with its length and its checksum in front, four bytes each. The length is
narrowed to 32 bits when it is written, and the reader refuses lengths above 64 MiB. What
was written is read back exactly when no payload is longer than the reader allows.
-/

namespace Forge.Network

open Forge.Common

/-- The largest payload that is read. -/
def frameLimit : ℕ := 64 * 1024 * 1024

/-! ## The checksum -/

/-- One bit of the checksum, with the reflected IEEE polynomial. -/
def crcBit (crc : UInt32) : UInt32 :=
  if crc &&& 1 = 1 then (crc >>> 1) ^^^ 0xEDB88320 else crc >>> 1

/-- One byte of the checksum. -/
def crcByte (crc : UInt32) (byte : UInt8) : UInt32 :=
  (List.range 8).foldl (fun crc _ => crcBit crc) (crc ^^^ byte.toUInt32)

/-- The IEEE checksum of bytes. -/
def checksumIEEE (bytes : Bytes) : UInt32 :=
  bytes.foldl crcByte 0xFFFFFFFF ^^^ 0xFFFFFFFF

/-- The check value of the polynomial. -/
example : checksumIEEE [0x31, 0x32, 0x33, 0x34, 0x35, 0x36, 0x37, 0x38, 0x39] = 0xCBF43926 := by decide +kernel

/-! ## Writing -/

/-- A writer: what it has written, and the promise that a write without an error wrote everything. -/
structure Writer (σ : Type*) where
  write : Bytes → σ → Option String × σ
  stream : σ → Bytes
  complete : ∀ p s s', write p s = (none, s') → stream s' = stream s ++ p

/-- A buffer in memory, where nothing fails. -/
def buffer : Writer Bytes where
  write := fun p s => (none, s ++ p)
  stream := id
  complete := fun _ _ _ h => (congrArg Prod.snd h).symm

/-- What stands before a payload. -/
def header (payload : Bytes) : Bytes :=
  let length := payload.length % 2 ^ 32
  let checksum := checksumIEEE payload
  toBeBytes 4 length ++ toBeBytes 4 checksum.toNat

/-- The bytes of a packet. -/
def encode (payload : Bytes) : Bytes :=
  header payload ++ payload

/-- Write a packet. -/
def writeFramedPacket {σ : Type*} (w : Writer σ) (payload : Bytes) (s : σ) : Option String × σ :=
  match w.write (header payload) s with
  | (some err, s) => (some err, s)
  | (none, s) =>
    match w.write payload s with
    | (some err, s) => (some err, s)
    | (none, s) => (none, s)

/-- Write packets one after another, up to the first error. -/
def writeAll {σ : Type*} (w : Writer σ) : List Bytes → σ → Option String × σ
  | [], s => (none, s)
  | payload :: payloads, s =>
    match writeFramedPacket w payload s with
    | (some err, s) => (some err, s)
    | (none, s) => writeAll w payloads s

/-! ## Reading -/

/-- Why no packet was read. -/
inductive ReadError where
  | eof
  | unexpectedEof
  | frameTooLong
  | checksumMismatch (expected actual : ℕ)
deriving DecidableEq, Repr

/-- The text of an error. -/
def ReadError.message : ReadError → String
  | .eof => "EOF"
  | .unexpectedEof => "unexpected EOF"
  | .frameTooLong => "frame length exceeds 64MB limit"
  | .checksumMismatch expected actual =>
    "checksum mismatch: expected " ++ String.ofList (Nat.toDigits 16 expected) ++ ", got " ++
      String.ofList (Nat.toDigits 16 actual)

/-- Fill a buffer from what is left of a stream. If there are too few bytes they are all lost. -/
def readFull (count : ℕ) (s : Bytes) : Except ReadError Bytes × Bytes :=
  if count ≤ s.length then (.ok (s.take count), s.drop count)
  else (.error (if s = [] then .eof else .unexpectedEof), [])

/-- Read a packet. -/
def readFramedPacket (s : Bytes) : Except ReadError Bytes × Bytes :=
  match readFull 8 s with
  | (.error e, s) => (.error e, s)
  | (.ok header, s) =>
    let length := fromBeBytes (header.take 4)
    let checksum := fromBeBytes (header.drop 4)
    if length > frameLimit then (.error .frameTooLong, s)
    else
      match readFull length s with
      | (.error e, s) => (.error e, s)
      | (.ok payload, s) =>
        let actualChecksum := (checksumIEEE payload).toNat
        if actualChecksum ≠ checksum then (.error (.checksumMismatch checksum actualChecksum), s)
        else (.ok payload, s)

/-- What reading so many times gives, and what is left of the stream. -/
def readMany : ℕ → Bytes → List (Except ReadError Bytes) × Bytes
  | 0, s => ([], s)
  | count + 1, s =>
    let (result, s) := readFramedPacket s
    let (results, s) := readMany count s
    (result :: results, s)

/-! ## What is written -/

/-- A header has eight bytes. -/
@[simp] theorem header_length (payload : Bytes) : (header payload).length = 8 := by
  simp [header]

/-- A packet is written as its bytes. -/
theorem stream_writeFramedPacket {σ : Type*} (w : Writer σ) {payload : Bytes} {s s' : σ}
    (hwritten : writeFramedPacket w payload s = (none, s')) : w.stream s' = w.stream s ++ encode payload := by
  unfold writeFramedPacket at hwritten
  cases hheader : w.write (header payload) s with
  | mk err s₁ =>
    rw [hheader] at hwritten
    cases err with
    | some err => exact absurd (congrArg Prod.fst hwritten) nofun
    | none =>
      dsimp only at hwritten
      cases hpayload : w.write payload s₁ with
      | mk err s₂ =>
        rw [hpayload] at hwritten
        cases err with
        | some err => exact absurd (congrArg Prod.fst hwritten) nofun
        | none =>
          obtain rfl : s₂ = s' := congrArg Prod.snd hwritten
          rw [w.complete _ _ _ hpayload, w.complete _ _ _ hheader, List.append_assoc, encode]

/-- Packets are written as their bytes one after another. -/
theorem stream_writeAll {σ : Type*} (w : Writer σ) {payloads : List Bytes} {s s' : σ}
    (hwritten : writeAll w payloads s = (none, s')) :
    w.stream s' = w.stream s ++ payloads.flatMap encode := by
  induction payloads generalizing s with
  | nil =>
    obtain rfl : s = s' := congrArg Prod.snd hwritten
    exact (List.append_nil _).symm
  | cons payload payloads ih =>
    unfold writeAll at hwritten
    cases hfirst : writeFramedPacket w payload s with
    | mk err s₁ =>
      rw [hfirst] at hwritten
      cases err with
      | some err => exact absurd (congrArg Prod.fst hwritten) nofun
      | none =>
        rw [ih hwritten, stream_writeFramedPacket w hfirst, List.flatMap_cons, List.append_assoc]

/-! ## What is read -/

/-- A buffer is filled from the bytes that the stream starts with. -/
theorem readFull_append (bytes s : Bytes) : readFull bytes.length (bytes ++ s) = (.ok bytes, s) := by
  rw [readFull, if_pos (by rw [List.length_append]; omega), List.take_left, List.drop_left]

/-- A buffer is not filled from fewer bytes. -/
theorem readFull_short {count : ℕ} {s : Bytes} (hshort : s.length < count) :
    ∃ e, readFull count s = (.error e, []) := by
  rw [readFull, if_neg (Nat.not_le.mpr hshort)]
  exact ⟨_, rfl⟩

/-- What fills a buffer has its length. -/
theorem readFull_length {count : ℕ} {s t bytes : Bytes} (hread : readFull count s = (.ok bytes, t)) :
    bytes.length = count := by
  unfold readFull at hread
  split at hread
  · rename_i hcount
    obtain rfl := Except.ok.inj (congrArg Prod.fst hread)
    exact List.length_take_of_le hcount
  · exact absurd (congrArg Prod.fst hread) nofun

/-- Behind a written header the narrowed length decides what is read. -/
theorem readFramedPacket_header (payload s : Bytes) :
    readFramedPacket (header payload ++ s) =
      if payload.length % 2 ^ 32 > frameLimit then (.error .frameTooLong, s)
      else match readFull (payload.length % 2 ^ 32) s with
        | (.error e, s) => (.error e, s)
        | (.ok payload', s) =>
          if (checksumIEEE payload').toNat ≠ (checksumIEEE payload).toNat then
            (.error (.checksumMismatch (checksumIEEE payload).toNat (checksumIEEE payload').toNat), s)
          else (.ok payload', s) := by
  have hfill : readFull 8 (header payload ++ s) = (.ok (header payload), s) := by
    have h := readFull_append (header payload) s
    rwa [header_length] at h
  have htake : (header payload).take 4 = toBeBytes 4 (payload.length % 2 ^ 32) :=
    List.take_left' (toBeBytes_length 4 _)
  have hdrop : (header payload).drop 4 = toBeBytes 4 (checksumIEEE payload).toNat :=
    List.drop_left' (toBeBytes_length 4 _)
  have hlength : payload.length % 2 ^ 32 < 256 ^ 4 := Nat.mod_lt _ (by decide)
  have hchecksum : (checksumIEEE payload).toNat < 256 ^ 4 := UInt32.toNat_lt _
  unfold readFramedPacket
  rw [hfill]
  simp only [htake, hdrop, fromBeBytes_toBeBytes_of_lt hlength, fromBeBytes_toBeBytes_of_lt hchecksum]

/-- What is read is not above the limit. -/
theorem readFramedPacket_length {s t payload : Bytes} (hread : readFramedPacket s = (.ok payload, t)) :
    payload.length ≤ frameLimit := by
  unfold readFramedPacket at hread
  split at hread
  · exact absurd (congrArg Prod.fst hread) nofun
  · dsimp only at hread
    split at hread
    · exact absurd (congrArg Prod.fst hread) nofun
    · rename_i hlimit
      split at hread
      · exact absurd (congrArg Prod.fst hread) nofun
      · rename_i hfill
        split at hread
        · exact absurd (congrArg Prod.fst hread) nofun
        · obtain rfl := Except.ok.inj (congrArg Prod.fst hread)
          exact (readFull_length hfill).trans_le (Nat.not_lt.mp hlimit)

/-- A packet below the limit is read as it was written. -/
theorem readFramedPacket_encode {payload : Bytes} (hlimit : payload.length ≤ frameLimit) (s : Bytes) :
    readFramedPacket (encode payload ++ s) = (.ok payload, s) := by
  have hsmall : payload.length % 2 ^ 32 = payload.length :=
    Nat.mod_eq_of_lt (hlimit.trans_lt (by decide))
  rw [encode, List.append_assoc, readFramedPacket_header, hsmall, if_neg (Nat.not_lt.mpr hlimit),
    readFull_append]
  simp

/-- A packet below the limit is not read from a part of it. -/
theorem readFramedPacket_prefix {payload part : Bytes} (hlimit : payload.length ≤ frameLimit)
    (hpart : part <+: encode payload) (hstrict : part ≠ encode payload) :
    ∃ e, (readFramedPacket part).1 = .error e := by
  have hsmall : payload.length % 2 ^ 32 = payload.length :=
    Nat.mod_eq_of_lt (hlimit.trans_lt (by decide))
  have hshort : part.length < (encode payload).length :=
    lt_of_le_of_ne hpart.length_le fun h => hstrict (hpart.eq_of_length h)
  rw [encode, List.length_append, header_length] at hshort
  by_cases hheader : part.length < 8
  · obtain ⟨e, he⟩ := readFull_short hheader
    exact ⟨e, by rw [readFramedPacket, he]⟩
  · obtain ⟨rest, rfl⟩ : header payload <+: part :=
      List.prefix_of_prefix_length_le (List.prefix_append _ _) hpart (by rw [header_length]; omega)
    rw [List.length_append, header_length] at hshort
    obtain ⟨e, he⟩ := readFull_short (show rest.length < payload.length by omega)
    rw [readFramedPacket_header, hsmall, if_neg (Nat.not_lt.mpr hlimit), he]
    exact ⟨e, rfl⟩

/-- Packets that are read as they were written are below the limit. -/
theorem frameLimit_of_readMany {payloads : List Bytes} {s t : Bytes}
    (hread : readMany payloads.length s = (payloads.map .ok, t)) : ∀ payload ∈ payloads, payload.length ≤ frameLimit := by
  induction payloads generalizing s with
  | nil => exact fun _ h => absurd h List.not_mem_nil
  | cons payload payloads ih =>
    cases hfirst : readFramedPacket s with
    | mk result s₁ =>
      rw [List.length_cons, readMany, hfirst] at hread
      obtain ⟨hresults, hrest⟩ := Prod.mk.inj hread
      obtain ⟨rfl, htail⟩ := List.cons.inj hresults
      refine List.forall_mem_cons.mpr ⟨readFramedPacket_length hfirst, ?_⟩
      exact ih (Prod.ext htail hrest)

/-- Packets below the limit are read one after another, and what follows them is left. -/
theorem readMany_encode {payloads : List Bytes} (hlimit : ∀ payload ∈ payloads, payload.length ≤ frameLimit)
    (trailing : Bytes) :
    readMany payloads.length (payloads.flatMap encode ++ trailing) = (payloads.map .ok, trailing) := by
  induction payloads with
  | nil => rfl
  | cons payload payloads ih =>
    obtain ⟨hfirst, hrest⟩ := List.forall_mem_cons.mp hlimit
    rw [List.flatMap_cons, List.append_assoc, List.length_cons, readMany, readFramedPacket_encode hfirst]
    dsimp only
    rw [ih hrest, List.map_cons]

/-! ## Round trips -/

/-- The packets are read back from the bytes, whatever follows, and no packet is read from a strict part
of its own bytes. -/
def RoundTrips (payloads : List Bytes) (bytes : Bytes) : Prop :=
  (∀ trailing, readMany payloads.length (bytes ++ trailing) = (payloads.map .ok, trailing)) ∧
    ∀ payload ∈ payloads, ∀ part, part <+: encode payload → part ≠ encode payload →
      ∃ e, (readFramedPacket part).1 = .error e

/-- Packets that were written without an error round-trip exactly when none is longer than the reader
allows. -/
theorem roundTrips_iff {σ : Type*} (w : Writer σ) {payloads : List Bytes} {s s' : σ}
    (hwritten : writeAll w payloads s = (none, s')) :
    RoundTrips payloads ((w.stream s').drop (w.stream s).length) ↔
      ∀ payload ∈ payloads, payload.length ≤ 64 * 1024 * 1024 := by
  rw [stream_writeAll w hwritten, List.drop_left]
  constructor
  · intro hround
    exact frameLimit_of_readMany (hround.1 [])
  · intro hlimit
    exact ⟨readMany_encode hlimit, fun payload hmem _ => readFramedPacket_prefix (hlimit payload hmem)⟩

/-- Two packets in a buffer, one of them without a payload. -/
theorem roundTrips_two : RoundTrips [[], [1, 2, 3]] ((writeAll buffer [[], [1, 2, 3]] [7]).2.drop 1) :=
  have hwritten : writeAll buffer [[], [1, 2, 3]] [7] =
    (none, (writeAll buffer [[], [1, 2, 3]] [7]).2) := rfl
  (roundTrips_iff buffer hwritten).mpr (by decide)

/-- A buffer takes every packet. -/
theorem writeFramedPacket_buffer (payload s : Bytes) :
    writeFramedPacket buffer payload s = (none, s ++ encode payload) := by
  rw [encode, ← List.append_assoc]
  rfl

/-- A payload above the limit that is not too long for 32 bits is refused. -/
theorem readFramedPacket_oversized {payload : Bytes} (hlimit : payload.length % 2 ^ 32 > frameLimit) :
    (readFramedPacket (encode payload)).1 = .error .frameTooLong := by
  rw [encode, readFramedPacket_header, if_pos hlimit]

/-- A payload of one byte more than the reader allows is written without an error and not read back. -/
theorem not_roundTrips_oversized :
    ∃ payload : Bytes, payload = List.replicate (64 * 1024 * 1024 + 1) 0 ∧
      ∃ s, writeFramedPacket buffer payload [] = (none, s) ∧ (readFramedPacket s).1 = .error .frameTooLong ∧
        ¬ RoundTrips [payload] s := by
  obtain ⟨payload, hpayload⟩ : ∃ payload : Bytes, payload = List.replicate (64 * 1024 * 1024 + 1) 0 := ⟨_, rfl⟩
  have hlength : payload.length = 64 * 1024 * 1024 + 1 := by rw [hpayload, List.length_replicate]
  refine ⟨payload, hpayload, encode payload, writeFramedPacket_buffer payload [], ?_, fun hround => ?_⟩
  · exact readFramedPacket_oversized (by rw [hlength]; decide)
  · have hlimit := frameLimit_of_readMany (hround.1 []) payload List.mem_cons_self
    rw [hlength] at hlimit
    exact absurd hlimit (by decide)

end Forge.Network
