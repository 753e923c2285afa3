import Forge.Cas.Artifact

/-!
# Compression of artifacts

Three of the four algorithms are the same library at different levels, and one way to
decompress reads what any of them wrote.
-/

namespace Forge.Cas

open Forge.Common

/-- The compression library. Decompression inverts compression at every level. -/
structure Zstd where
  encodeAll : Bytes → ℤ → Except String Bytes
  decodeAll : Bytes → Except String Bytes
  decodeAll_encodeAll : ∀ data level compressed,
    encodeAll data level = .ok compressed → decodeAll compressed = .ok data

/-- The algorithms. -/
inductive CompressionAlgorithm where
  | none
  | zstd
  | zstdMax
  | zstdFast
  deriving DecidableEq, Repr

namespace CompressionAlgorithm

/-- The name of an algorithm. -/
def asStr : CompressionAlgorithm → String
  | .none => "none"
  | .zstd => "zstd"
  | .zstdMax => "zstd-max"
  | .zstdFast => "zstd-fast"

/-- A string in lower case, as far as it matters for the names of algorithms: they have no letter
that anything but an ASCII letter is the lower case of. -/
def toLowercase (s : String) : String := String.ofList (s.toList.map Char.toLower)

/-- The algorithm of a name. -/
def fromStr (s : String) : Except String CompressionAlgorithm :=
  if toLowercase s = "none" then .ok .none
  else if toLowercase s = "zstd" then .ok .zstd
  else if toLowercase s = "zstd-max" then .ok .zstdMax
  else if toLowercase s = "zstd-fast" then .ok .zstdFast
  else .error ("Unknown compression algorithm: " ++ s)

/-- The name of an algorithm is read as that algorithm. -/
theorem fromStr_asStr (algorithm : CompressionAlgorithm) : fromStr algorithm.asStr = .ok algorithm := by
  cases algorithm <;> decide

end CompressionAlgorithm

/-- The levels of the library. -/
inductive CompressionLevel where
  | fast
  | default
  | high
  | max
  deriving DecidableEq, Repr

/-- The number of a level. -/
def CompressionLevel.asI32 : CompressionLevel → ℤ
  | .fast => 1
  | .default => 3
  | .high => 10
  | .max => 22

variable (zstd : Zstd)

/-- Compress at a level. -/
def compressZstd (data : Bytes) (level : CompressionLevel) : Except CasError Bytes :=
  match zstd.encodeAll data level.asI32 with
  | .ok compressed => .ok compressed
  | .error e => .error (.compression ("Zstd compression failed: " ++ e))

/-- Decompress. -/
def decompressZstd (data : Bytes) : Except CasError Bytes :=
  match zstd.decodeAll data with
  | .ok decompressed => .ok decompressed
  | .error e => .error (.compression ("Zstd decompression failed: " ++ e))

/-- Compress with an algorithm. -/
def compress (data : Bytes) : CompressionAlgorithm → Except CasError Bytes
  | .none => .ok data
  | .zstd => compressZstd zstd data .default
  | .zstdMax => compressZstd zstd data .max
  | .zstdFast => compressZstd zstd data .fast

/-- Decompress with an algorithm. -/
def decompress (data : Bytes) : CompressionAlgorithm → Except CasError Bytes
  | .none => .ok data
  | .zstd | .zstdMax | .zstdFast => decompressZstd zstd data

/-- What was compressed at a level decompresses to the data. -/
theorem decompressZstd_compressZstd {data compressed : Bytes} {level : CompressionLevel}
    (hcompress : compressZstd zstd data level = .ok compressed) :
    decompressZstd zstd compressed = .ok data := by
  rw [compressZstd] at hcompress
  cases hencode : zstd.encodeAll data level.asI32 with
  | error e =>
    rw [hencode] at hcompress
    cases hcompress
  | ok encoded =>
    rw [hencode] at hcompress
    cases hcompress
    rw [decompressZstd, zstd.decodeAll_encodeAll data level.asI32 compressed hencode]

/-- What was compressed with an algorithm decompresses to the data. -/
theorem decompress_compress {data compressed : Bytes} {algorithm : CompressionAlgorithm}
    (hcompress : compress zstd data algorithm = .ok compressed) :
    decompress zstd compressed algorithm = .ok data := by
  cases algorithm with
  | none =>
    cases hcompress
    rfl
  | zstd => exact decompressZstd_compressZstd zstd hcompress
  | zstdMax => exact decompressZstd_compressZstd zstd hcompress
  | zstdFast => exact decompressZstd_compressZstd zstd hcompress

/-- Data decompresses to itself without an algorithm, and with one if the library says so. -/
theorem decompress_eq_self_iff (data : Bytes) (algorithm : CompressionAlgorithm) :
    decompress zstd data algorithm = .ok data ↔
      (algorithm ≠ .none → zstd.decodeAll data = .ok data) := by
  have hzstd : decompressZstd zstd data = .ok data ↔ zstd.decodeAll data = .ok data := by
    rw [decompressZstd]
    cases zstd.decodeAll data with
    | ok decompressed => rw [Except.ok.injEq, Except.ok.injEq]
    | error e => exact iff_of_false nofun nofun
  cases algorithm with
  | none => exact iff_of_true rfl fun hne => absurd rfl hne
  | zstd => exact hzstd.trans (imp_iff_right (by decide)).symm
  | zstdMax => exact hzstd.trans (imp_iff_right (by decide)).symm
  | zstdFast => exact hzstd.trans (imp_iff_right (by decide)).symm

/-- A library that writes data behind the magic number of a frame, and refuses data without it. -/
def sampleZstd : Zstd where
  encodeAll data _ := .ok (0x28 :: 0xB5 :: 0x2F :: 0xFD :: data)
  decodeAll
    | 0x28 :: 0xB5 :: 0x2F :: 0xFD :: data => .ok data
    | _ => .error "Unknown frame descriptor"
  decodeAll_encodeAll data _ compressed hencode := by
    cases hencode
    rfl

end Forge.Cas
