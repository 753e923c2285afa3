import Forge.Common.ContentStore
import Forge.Fingerprint.Combine

/-!
# Content-defined chunks

The data is cut where the hash of a small window is a multiple of the average size, between a
minimum and a maximum length. Whatever the three sizes are, the chunks tile the data and the
manifest puts them together again. A cut of length zero takes all that is left, so without a
minimum a chunk can be longer than the maximum.
-/

namespace Forge.Cas

open Forge.Common Forge.Fingerprint

/-- A stretch of the data with its hash. -/
structure Chunk where
  hash : String
  offset : ℕ
  length : ℕ
  data : Bytes
  deriving DecidableEq, Repr

/-- What puts the chunks of some data together. -/
structure ChunkManifest where
  totalSize : ℕ
  chunkHashes : List String
  chunkLengths : List ℕ
  deriving DecidableEq, Repr

/-- The sizes a chunker aims at. -/
structure FastCdcChunker where
  minSize : ℕ
  avgSize : ℕ
  maxSize : ℕ
  deriving DecidableEq, Repr

/-- The bytes between two positions. There are none for positions out of order or bounds: the
code panics. -/
def slice (data : Bytes) (start stop : ℕ) : Option Bytes :=
  if start ≤ stop ∧ stop ≤ data.length then some ((data.drop start).take (stop - start)) else none

/-- The hash of a window, with wrapping arithmetic. -/
def windowHash (window : Bytes) : UInt64 :=
  window.foldl (fun hashVal byte => hashVal * 0x5bd1e995 + byte.toUInt64) 0

/-- The chunks so far, with what the manifest says of them, and where the next one begins. -/
structure Chunking where
  chunks : List Chunk
  chunkHashes : List String
  chunkLengths : List ℕ
  offset : ℕ
  deriving DecidableEq, Repr

/-- Add a chunk. -/
def Chunking.push (blake3 : Bytes → String) (state : Chunking) (chunkLen : ℕ) (bytes : Bytes) : Chunking where
  chunks := state.chunks ++ [⟨blake3 bytes, state.offset, chunkLen, bytes⟩]
  chunkHashes := state.chunkHashes ++ [blake3 bytes]
  chunkLengths := state.chunkLengths ++ [chunkLen]
  offset := state.offset + chunkLen

namespace FastCdcChunker

/-- Whether a chunk may end at a position: the hash of the window of up to eight bytes there is a
multiple of the average size. -/
def isBoundary (chunker : FastCdcChunker) (data : Bytes) (position : ℕ) : Option Bool :=
  (slice data position (min (position + 8) data.length)).map fun window =>
    decide ((windowHash window).toNat % max chunker.avgSize 1 = 0)

/-- Search for a cut below a limit, in at most so many steps. -/
def findCut (chunker : FastCdcChunker) (data : Bytes) (offset limit : ℕ) : ℕ → ℕ → Option ℕ
  | 0, cut => if cut < limit then none else some cut
  | steps + 1, cut =>
    if cut < limit then do
      if ← chunker.isBoundary data (offset + cut) then some cut
      else findCut chunker data offset limit steps (cut + 1)
    else some cut

/-- Where the chunk that begins at an offset is cut. -/
def cutLength (chunker : FastCdcChunker) (data : Bytes) (offset : ℕ) : Option ℕ :=
  let remaining := data.length - offset
  let limit := min remaining chunker.maxSize
  if remaining ≤ chunker.minSize then some remaining
  else chunker.findCut data offset limit limit chunker.minSize

/-- The length of the chunk that begins at an offset. A cut of length zero takes the rest. -/
def chunkLength (chunker : FastCdcChunker) (data : Bytes) (offset : ℕ) : Option ℕ :=
  (chunker.cutLength data offset).map fun chunkLen => if chunkLen = 0 then data.length - offset else chunkLen

/-- One chunk more. -/
def nextChunk (chunker : FastCdcChunker) (blake3 : Bytes → String) (data : Bytes) (state : Chunking) :
    Option Chunking := do
  let chunkLen ← chunker.chunkLength data state.offset
  let bytes ← slice data state.offset (state.offset + chunkLen)
  some (state.push blake3 chunkLen bytes)

/-- Cut chunks up to the end of the data, in at most so many steps. -/
def chunkLoop (chunker : FastCdcChunker) (blake3 : Bytes → String) (data : Bytes) : ℕ → Chunking → Option Chunking
  | 0, state => if state.offset < data.length then none else some state
  | steps + 1, state =>
    if state.offset < data.length then do
      chunkLoop chunker blake3 data steps (← chunker.nextChunk blake3 data state)
    else some state

/-- The chunks of some data and their manifest. Every chunk takes at least a byte. -/
def chunkData (chunker : FastCdcChunker) (blake3 : Bytes → String) (data : Bytes) :
    Option (List Chunk × ChunkManifest) :=
  if data.length = 0 then some ([⟨blake3 [], 0, 0, []⟩], ⟨0, [blake3 []], [0]⟩)
  else do
    let state ← chunker.chunkLoop blake3 data data.length ⟨[], [], [], 0⟩
    some (state.chunks, ⟨data.length, state.chunkHashes, state.chunkLengths⟩)

/-- Put the chunks of a manifest together. -/
def reconstructFromChunks (manifest : ChunkManifest) (chunkMap : AList fun _ : String => Bytes) :
    Except String Bytes :=
  manifest.chunkHashes.foldlM (fun buffer hash =>
    match chunkMap.lookup hash with
    | some chunkBytes => .ok (buffer ++ chunkBytes)
    | none => .error ("Missing chunk with hash: " ++ hash)) []

end FastCdcChunker

/-- The map of the chunks by their hashes. -/
def chunkMap (chunks : List Chunk) : AList fun _ : String => Bytes :=
  insertAll (chunks.map fun chunk => (chunk.hash, chunk.data)) ∅

/-! ## One chunk -/

/-- The bytes between two positions in order and in bounds. -/
theorem slice_eq {data : Bytes} {start stop : ℕ} (hstart : start ≤ stop) (hstop : stop ≤ data.length) :
    slice data start stop = some ((data.drop start).take (stop - start)) := by
  rw [slice, if_pos ⟨hstart, hstop⟩]

namespace FastCdcChunker

variable (chunker : FastCdcChunker) {data : Bytes}

/-- The window of a position in the data is in bounds. -/
theorem exists_isBoundary {position : ℕ} (hposition : position ≤ data.length) :
    ∃ b, chunker.isBoundary data position = some b := by
  rw [isBoundary, slice_eq (by omega) (Nat.min_le_right _ _), Option.map_some]
  exact ⟨_, rfl⟩

/-- The search stops at the first boundary, or at the limit. -/
theorem findCut_spec {offset limit : ℕ} (hlimit : offset + limit ≤ data.length) {steps : ℕ} (cut : ℕ)
    (hsteps : limit ≤ cut + steps) :
    ∃ found, chunker.findCut data offset limit steps cut = some found ∧ cut ≤ found ∧ found ≤ max cut limit ∧
      (found < limit → chunker.isBoundary data (offset + found) = some true) ∧
      ∀ k, cut ≤ k → k < found → chunker.isBoundary data (offset + k) = some false := by
  induction steps generalizing cut with
  | zero =>
    refine ⟨cut, ?_, le_refl _, le_max_left _ _, fun hlt => absurd hlt (by omega), fun k hge hlt => by omega⟩
    rw [findCut, if_neg (by omega)]
  | succ steps ih =>
    rw [findCut]
    by_cases hcut : cut < limit
    · obtain ⟨stops, hstops⟩ := exists_isBoundary chunker (show offset + cut ≤ data.length by omega)
      rw [if_pos hcut, hstops, Option.bind_eq_bind, Option.bind_some]
      cases stops with
      | true =>
        exact ⟨cut, rfl, le_refl _, le_max_left _ _, fun _ => hstops, fun k hge hlt => by omega⟩
      | false =>
        obtain ⟨found, hfound, hge, hle, hend, hnone⟩ := ih (cut + 1) (by omega)
        refine ⟨found, hfound, by omega, by omega, hend, fun k hk hlt => ?_⟩
        rcases Nat.eq_or_lt_of_le hk with rfl | hk
        · exact hstops
        · exact hnone k hk hlt
    · refine ⟨cut, ?_, le_refl _, le_max_left _ _, fun hlt => absurd hlt hcut, fun k hge hlt => by omega⟩
      rw [if_neg hcut]

/-- How long the chunk at an offset may be. -/
inductive CutsAt (chunker : FastCdcChunker) (data : Bytes) (offset : ℕ) : ℕ → Prop
  | rest (hshort : data.length - offset ≤ chunker.minSize) : CutsAt chunker data offset (data.length - offset)
  | whole (hmin : chunker.minSize = 0)
      (hstops : chunker.maxSize = 0 ∨ chunker.isBoundary data offset = some true) :
      CutsAt chunker data offset (data.length - offset)
  | cut (chunkLen : ℕ) (hmin : chunker.minSize ≤ chunkLen) (hpos : 0 < chunkLen)
      (hmax : chunkLen ≤ max chunker.minSize chunker.maxSize) (hle : chunkLen ≤ data.length - offset)
      (hnone : ∀ k, chunker.minSize ≤ k → k < chunkLen → chunker.isBoundary data (offset + k) = some false) :
      CutsAt chunker data offset chunkLen

/-- A chunk takes at least a byte. -/
theorem CutsAt.pos {chunker : FastCdcChunker} {offset chunkLen : ℕ} (h : CutsAt chunker data offset chunkLen)
    (hoffset : offset < data.length) : 0 < chunkLen := by
  cases h with
  | rest => omega
  | whole => omega
  | cut _ _ hpos => exact hpos

/-- A chunk takes no more than there is. -/
theorem CutsAt.le {chunker : FastCdcChunker} {offset chunkLen : ℕ} (h : CutsAt chunker data offset chunkLen) :
    chunkLen ≤ data.length - offset := by
  cases h with
  | rest => exact le_refl _
  | whole => exact le_refl _
  | cut _ _ _ _ hle => exact hle

/-- The length of a chunk is always found. -/
theorem chunkLength_spec {offset : ℕ} (hoffset : offset < data.length) :
    ∃ chunkLen, chunker.chunkLength data offset = some chunkLen ∧ CutsAt chunker data offset chunkLen := by
  rw [chunkLength, cutLength]
  by_cases hshort : data.length - offset ≤ chunker.minSize
  · refine ⟨data.length - offset, ?_, .rest hshort⟩
    rw [if_pos hshort, Option.map_some, if_neg (by omega)]
  · obtain ⟨found, hfound, hge, hle, hend, hnone⟩ :=
      findCut_spec chunker (show offset + min (data.length - offset) chunker.maxSize ≤ data.length by omega)
        chunker.minSize (show min (data.length - offset) chunker.maxSize ≤
          chunker.minSize + min (data.length - offset) chunker.maxSize by omega)
    rw [if_neg hshort, hfound, Option.map_some]
    by_cases hzero : found = 0
    · refine ⟨data.length - offset, by rw [if_pos hzero], .whole (by omega) ?_⟩
      rw [hzero] at hend
      rcases Nat.eq_zero_or_pos chunker.maxSize with hmax | hmax
      · exact Or.inl hmax
      · exact Or.inr (hend (by omega))
    · exact ⟨found, by rw [if_neg hzero], .cut found hge (by omega) (by omega) (by omega) hnone⟩

variable (blake3 : Bytes → String)

/-- One chunk more is always cut. -/
theorem nextChunk_spec {state : Chunking} (hoffset : state.offset < data.length) :
    ∃ chunkLen, CutsAt chunker data state.offset chunkLen ∧
      chunker.nextChunk blake3 data state =
        some (state.push blake3 chunkLen ((data.drop state.offset).take chunkLen)) := by
  obtain ⟨chunkLen, hlength, hcuts⟩ := chunkLength_spec chunker hoffset
  refine ⟨chunkLen, hcuts, ?_⟩
  have hle := hcuts.le
  rw [nextChunk, hlength, Option.bind_eq_bind, Option.bind_some, slice_eq (by omega) (by omega),
    Option.bind_eq_bind, Option.bind_some, Nat.add_sub_cancel_left]

/-- What every chunk more keeps holds when the whole data is cut, and it always is. -/
theorem chunkLoop_spec (data : Bytes) (holds : Chunking → Prop)
    (hnext : ∀ state chunkLen, holds state → state.offset < data.length → CutsAt chunker data state.offset chunkLen →
      holds (state.push blake3 chunkLen ((data.drop state.offset).take chunkLen)))
    (steps : ℕ) (state : Chunking) (hsteps : data.length ≤ state.offset + steps) (h : holds state) :
    ∃ state', chunker.chunkLoop blake3 data steps state = some state' ∧ holds state' ∧
      data.length ≤ state'.offset := by
  induction steps generalizing state with
  | zero => exact ⟨state, by rw [chunkLoop, if_neg (by omega)], h, hsteps⟩
  | succ steps ih =>
    rw [chunkLoop]
    by_cases hoffset : state.offset < data.length
    · obtain ⟨chunkLen, hcuts, hstep⟩ := nextChunk_spec chunker blake3 hoffset
      have hpos := hcuts.pos hoffset
      rw [if_pos hoffset, hstep, Option.bind_eq_bind, Option.bind_some]
      exact ih _ (show data.length ≤ state.offset + chunkLen + steps by omega) (hnext state chunkLen h hoffset hcuts)
    · exact ⟨state, if_neg hoffset, h, by omega⟩

end FastCdcChunker

/-! ## The chunks tile the data -/

/-- Chunks that tile some data: each begins where those before it end, they hold the data, and
each has the length and the hash of what it holds. -/
structure Tiles (blake3 : Bytes → String) (data : Bytes) (chunks : List Chunk) : Prop where
  offsets : ∀ i chunk, chunks[i]? = some chunk → chunk.offset = ((chunks.take i).map Chunk.length).sum
  bytes : (chunks.map Chunk.data).flatten = data
  lengths : ∀ chunk ∈ chunks, chunk.length = chunk.data.length
  hashes : ∀ chunk ∈ chunks, chunk.hash = blake3 chunk.data

section Tiles

variable {blake3 : Bytes → String} {data : Bytes} {chunks : List Chunk}

/-- No chunks tile no data. -/
theorem tiles_nil : Tiles blake3 [] [] where
  offsets := nofun
  bytes := rfl
  lengths := nofun
  hashes := nofun

/-- The lengths of the chunks sum to that of the data. -/
theorem Tiles.sum_lengths (h : Tiles blake3 data chunks) : (chunks.map Chunk.length).sum = data.length := by
  rw [← h.bytes, List.length_flatten, List.map_map]
  exact congrArg List.sum (List.map_congr_left h.lengths)

/-- A chunk of the bytes that follow tiles more of the data. -/
theorem Tiles.snoc (h : Tiles blake3 data chunks) (bytes : Bytes) :
    Tiles blake3 (data ++ bytes) (chunks ++ [⟨blake3 bytes, data.length, bytes.length, bytes⟩]) where
  offsets := by
    intro i chunk hchunk
    rcases Nat.lt_or_ge i chunks.length with hi | hi
    · rw [List.getElem?_append_left hi] at hchunk
      rw [List.take_append_of_le_length hi.le, h.offsets i chunk hchunk]
    · rw [List.getElem?_append_right hi, List.getElem?_singleton] at hchunk
      obtain ⟨hzero, hnew⟩ := Option.ite_none_right_eq_some.mp hchunk
      have hi : i = chunks.length := by omega
      rw [← Option.some.inj hnew, hi, List.take_left, h.sum_lengths]
  bytes := by
    rw [List.map_append, List.flatten_append, h.bytes, List.map_singleton, List.flatten_singleton]
  lengths := by
    intro chunk hmem
    rcases List.mem_append.mp hmem with hmem | hmem
    · exact h.lengths chunk hmem
    · rw [List.mem_singleton.mp hmem]
  hashes := by
    intro chunk hmem
    rcases List.mem_append.mp hmem with hmem | hmem
    · exact h.hashes chunk hmem
    · rw [List.mem_singleton.mp hmem]

/-- With a hash without collisions every chunk is found under its hash. -/
theorem Tiles.lookup_chunkMap (h : Tiles blake3 data chunks) (hblake3 : Function.Injective blake3) {chunk : Chunk}
    (hmem : chunk ∈ chunks) : (chunkMap chunks).lookup chunk.hash = some chunk.data := by
  have hpairs : (chunks.map fun chunk => (chunk.hash, chunk.data)) =
      (chunks.map Chunk.data).map fun bytes => (blake3 bytes, bytes) := by
    rw [List.map_map]
    exact List.map_congr_left fun chunk hmem => Prod.ext (h.hashes chunk hmem) rfl
  rw [chunkMap, hpairs, h.hashes chunk hmem]
  exact lookup_insertAll_self hblake3 (List.mem_map_of_mem hmem) ∅

end Tiles

namespace FastCdcChunker

/-- Chunks that are all found under their hashes are put together in order. -/
theorem foldlM_lookup {map : AList fun _ : String => Bytes} {chunks : List Chunk}
    (h : ∀ chunk ∈ chunks, map.lookup chunk.hash = some chunk.data) (buffer : Bytes) :
    ((chunks.map Chunk.hash).foldlM (fun buffer hash =>
      match map.lookup hash with
      | some chunkBytes => (.ok (buffer ++ chunkBytes) : Except String Bytes)
      | none => .error ("Missing chunk with hash: " ++ hash)) buffer) =
      .ok (buffer ++ (chunks.map Chunk.data).flatten) := by
  induction chunks generalizing buffer with
  | nil => rw [List.map_nil, List.map_nil, List.flatten_nil, List.append_nil]; rfl
  | cons chunk chunks ih =>
    rw [List.map_cons, List.foldlM_cons, h chunk List.mem_cons_self, List.map_cons, List.flatten_cons,
      ← List.append_assoc]
    exact ih (fun chunk hmem => h chunk (List.mem_cons_of_mem _ hmem)) _

variable (chunker : FastCdcChunker) (blake3 : Bytes → String) {data : Bytes}

/-- What every chunk more keeps holds of the chunks of some data that is not empty, and the
chunks tile the data and are what the manifest says. -/
theorem chunkData_spec (holds : Chunking → Prop) (hdata : data ≠ [])
    (hnext : ∀ state chunkLen, holds state → state.offset < data.length → CutsAt chunker data state.offset chunkLen →
      holds (state.push blake3 chunkLen ((data.drop state.offset).take chunkLen))) (hstart : holds ⟨[], [], [], 0⟩) :
    ∃ state, chunker.chunkData blake3 data =
        some (state.chunks, ⟨data.length, state.chunks.map Chunk.hash, state.chunks.map Chunk.length⟩) ∧
      Tiles blake3 data state.chunks ∧ state.offset = data.length ∧ holds state := by
  obtain ⟨state, hloop, ⟨hholds, hle, htiles, hhashes, hlengths⟩, hend⟩ :=
    chunkLoop_spec chunker blake3 data
      (fun state => holds state ∧ state.offset ≤ data.length ∧
        Tiles blake3 (data.take state.offset) state.chunks ∧ state.chunkHashes = state.chunks.map Chunk.hash ∧
        state.chunkLengths = state.chunks.map Chunk.length)
      (by
        rintro state chunkLen ⟨hholds, hle, htiles, hhashes, hlengths⟩ hoffset hcuts
        have hfits := hcuts.le
        have hsize : ((data.drop state.offset).take chunkLen).length = chunkLen := by
          rw [List.length_take, List.length_drop]
          omega
        have hbefore : (data.take state.offset).length = state.offset := List.length_take_of_le hle
        refine ⟨hnext state chunkLen hholds hoffset hcuts, show state.offset + chunkLen ≤ _ by omega, ?_, ?_, ?_⟩
        · have hsnoc := htiles.snoc ((data.drop state.offset).take chunkLen)
          rw [hsize, hbefore, ← List.take_add] at hsnoc
          exact hsnoc
        · rw [Chunking.push, hhashes, List.map_append, List.map_singleton]
        · rw [Chunking.push, hlengths, List.map_append, List.map_singleton])
      data.length ⟨[], [], [], 0⟩ (by omega) ⟨hstart, Nat.zero_le _, tiles_nil, rfl, rfl⟩
  have hoffset : state.offset = data.length := by omega
  rw [hoffset, List.take_length] at htiles
  refine ⟨state, ?_, htiles, hoffset, hholds⟩
  rw [chunkData, if_neg (List.length_eq_zero_iff.not.mpr hdata), hloop, Option.bind_eq_bind, Option.bind_some, hhashes,
    hlengths]

/-- The chunks of no data. -/
theorem chunkData_nil : chunker.chunkData blake3 [] = some ([⟨blake3 [], 0, 0, []⟩], ⟨0, [blake3 []], [0]⟩) := rfl

/-- Whatever the sizes are, data is always cut into chunks that tile it, the manifest is that of
the chunks, and with a hash without collisions it puts the chunks together to the data. -/
theorem chunkData_reconstruct (chunker : FastCdcChunker) {blake3 : Bytes → String}
    (hblake3 : Function.Injective blake3) (data : Bytes) :
    ∃ chunks manifest, chunker.chunkData blake3 data = some (chunks, manifest) ∧ Tiles blake3 data chunks ∧
      manifest = ⟨data.length, chunks.map Chunk.hash, chunks.map Chunk.length⟩ ∧
      reconstructFromChunks manifest (chunkMap chunks) = .ok data := by
  obtain ⟨chunks, hchunks, htiles⟩ : ∃ chunks, chunker.chunkData blake3 data =
      some (chunks, ⟨data.length, chunks.map Chunk.hash, chunks.map Chunk.length⟩) ∧ Tiles blake3 data chunks := by
    by_cases hdata : data = []
    · rw [hdata]
      exact ⟨_, chunkData_nil chunker blake3, tiles_nil.snoc []⟩
    · obtain ⟨state, hstate, htiles, -⟩ :=
        chunkData_spec chunker blake3 (fun _ => True) hdata (fun _ _ _ _ _ => trivial) trivial
      exact ⟨state.chunks, hstate, htiles⟩
  refine ⟨chunks, _, hchunks, htiles, rfl, ?_⟩
  rw [reconstructFromChunks, foldlM_lookup (fun chunk hmem => htiles.lookup_chunkMap hblake3 hmem) [], htiles.bytes,
    List.nil_append]

/-- Hash values of some chunks. -/
def sampleHashes : JsonCodec.Table Bytes where
  known := [
    ([1, 2, 3], "b177ec1bf26dfb3b7010d473e6d44713b29b765b99c6e60ecbfae742de496543"),
    ([4, 5, 6, 7, 8], "78391b57ca00dc3fa2ade10b5923340055dd3ea9eb28474ed4370321196ad5fb"),
    ([9, 10, 11], "6eee9ed37aacf824004802a2cdd57732976158722d020fb10ef94b711ecce667"),
    ([12], "b76ffa778026e1884a6b1d105d37a8722b9310227094886f86f8c983e6614796"),
    ([0, 0, 0, 0, 0], "cdc96eca844d7912acdbb3dca677757d0db5747a1df61166339cfc7156d4880f")]
  texts_nodup := by decide +kernel
  nonzero := by decide +kernel

/-- Twelve bytes are cut into four chunks that tile them. -/
theorem chunkData_reconstruct_twelve :
    ∃ chunks manifest,
      (⟨2, 3, 5⟩ : FastCdcChunker).chunkData (hashOf sampleHashes) [1, 2, 3, 4, 5, 6, 7, 8, 9, 10, 11, 12] =
        some (chunks, manifest) ∧
      Tiles (hashOf sampleHashes) [1, 2, 3, 4, 5, 6, 7, 8, 9, 10, 11, 12] chunks ∧
      manifest = ⟨12, chunks.map Chunk.hash, chunks.map Chunk.length⟩ ∧
      reconstructFromChunks manifest (chunkMap chunks) = .ok [1, 2, 3, 4, 5, 6, 7, 8, 9, 10, 11, 12] :=
  chunkData_reconstruct ⟨2, 3, 5⟩ (hashOf_injective sampleHashes) [1, 2, 3, 4, 5, 6, 7, 8, 9, 10, 11, 12]

/-! ## The sizes of the chunks -/

/-- Chunks as long as the sizes ask: none is longer than the maximum, and all but the last are as
long as the minimum. -/
structure SizesRespected (chunker : FastCdcChunker) (chunks : List Chunk) : Prop where
  le_maxSize : ∀ chunk ∈ chunks, chunk.length ≤ chunker.maxSize
  minSize_le : ∀ chunk ∈ chunks.dropLast, chunker.minSize ≤ chunk.length

variable {chunker}

/-- A chunk more respects the sizes, when a chunk that takes the rest is not too long. -/
theorem SizesRespected.push {state : Chunking} {chunkLen : ℕ} (hsizes : chunker.minSize ≤ chunker.maxSize)
    (hwhole : chunker.minSize = 0 → chunker.isBoundary data state.offset = some true →
      data.length - state.offset ≤ chunker.maxSize) (hmax : 1 ≤ chunker.maxSize)
    (hcuts : CutsAt chunker data state.offset chunkLen) (hle : state.offset < data.length)
    (hchunks : SizesRespected chunker state.chunks ∧
      (state.offset < data.length → ∀ chunk ∈ state.chunks, chunker.minSize ≤ chunk.length)) (bytes : Bytes) :
    SizesRespected chunker (state.push blake3 chunkLen bytes).chunks ∧
      ((state.push blake3 chunkLen bytes).offset < data.length →
        ∀ chunk ∈ (state.push blake3 chunkLen bytes).chunks, chunker.minSize ≤ chunk.length) := by
  obtain ⟨hrespected, hmin⟩ := hchunks
  have hlong : chunkLen ≤ chunker.maxSize := by
    cases hcuts with
    | rest hshort => omega
    | whole hzero hstops =>
      rcases hstops with hnone | hstops
      · omega
      · exact hwhole hzero hstops
    | cut _ _ _ hlong => omega
  refine ⟨⟨?_, ?_⟩, ?_⟩
  · intro chunk hmem
    rcases List.mem_append.mp hmem with hmem | hmem
    · exact hrespected.le_maxSize chunk hmem
    · rw [List.mem_singleton.mp hmem]
      exact hlong
  · rw [Chunking.push, List.dropLast_concat]
    exact hmin hle
  · intro hmore chunk hmem
    have hrest : state.offset + chunkLen < data.length := hmore
    rcases List.mem_append.mp hmem with hmem | hmem
    · exact hmin hle chunk hmem
    · rw [List.mem_singleton.mp hmem]
      cases hcuts with
      | rest => omega
      | whole => omega
      | cut _ hge => exact hge

/-- Until a boundary without which the rest would fit is passed, no chunk passes it, unless one
is too long. -/
theorem push_boundary {state : Chunking} {chunkLen position : ℕ} (hmin : chunker.minSize = 0)
    (hposition : position + chunker.maxSize < data.length)
    (hboundary : chunker.isBoundary data position = some true) (hcuts : CutsAt chunker data state.offset chunkLen)
    (h : state.offset ≤ position ∨ ∃ chunk ∈ state.chunks, chunker.maxSize < chunk.length) (bytes : Bytes) :
    (state.push blake3 chunkLen bytes).offset ≤ position ∨
      ∃ chunk ∈ (state.push blake3 chunkLen bytes).chunks, chunker.maxSize < chunk.length := by
  rcases h with hbefore | ⟨chunk, hmem, hlong⟩
  · have hnew (hlong : chunker.maxSize < chunkLen) :
        ∃ chunk ∈ (state.push blake3 chunkLen bytes).chunks, chunker.maxSize < chunk.length :=
      ⟨_, List.mem_append_right _ (List.mem_singleton_self _), hlong⟩
    cases hcuts with
    | rest => exact Or.inr (hnew (by omega))
    | whole => exact Or.inr (hnew (by omega))
    | cut _ _ _ _ _ hnone =>
      by_cases hpassed : state.offset + chunkLen ≤ position
      · exact Or.inl hpassed
      · have hstops := hnone (position - state.offset) (by omega) (by omega)
        rw [Nat.add_sub_cancel' hbefore, hboundary] at hstops
        exact absurd (Option.some.inj hstops) nofun
  · exact Or.inr ⟨chunk, List.mem_append_left _ hmem, hlong⟩

/-- The chunks are as long as the sizes ask exactly when there is a minimum, or no boundary is
further from the end than the maximum. -/
theorem chunkData_sizes_iff (chunker : FastCdcChunker) (blake3 : Bytes → String) (data : Bytes)
    (hsizes : chunker.minSize ≤ chunker.maxSize) (hmax : 1 ≤ chunker.maxSize) :
    ∃ chunks manifest, chunker.chunkData blake3 data = some (chunks, manifest) ∧
      (SizesRespected chunker chunks ↔
        1 ≤ chunker.minSize ∨
          ∀ position, position + chunker.maxSize < data.length → chunker.isBoundary data position = some false) := by
  by_cases hdata : data = []
  · rw [hdata]
    refine ⟨_, _, chunkData_nil chunker blake3, fun _ => Or.inr nofun, fun _ => ⟨?_, nofun⟩⟩
    intro chunk hmem
    rw [List.mem_singleton.mp hmem]
    exact Nat.zero_le _
  by_cases hcondition : 1 ≤ chunker.minSize ∨
      ∀ position, position + chunker.maxSize < data.length → chunker.isBoundary data position = some false
  · obtain ⟨state, hstate, -, -, hrespected, -⟩ :=
      chunkData_spec chunker blake3
        (fun state => SizesRespected chunker state.chunks ∧
          (state.offset < data.length → ∀ chunk ∈ state.chunks, chunker.minSize ≤ chunk.length)) hdata
        (by
          intro state chunkLen h hoffset hcuts
          refine SizesRespected.push blake3 hsizes (fun hzero hstops => ?_) hmax hcuts hoffset h _
          by_contra hlong
          have hnone := (hcondition.resolve_left (by omega)) state.offset (by omega)
          rw [hstops] at hnone
          exact absurd (Option.some.inj hnone) nofun)
        ⟨⟨nofun, nofun⟩, fun _ => nofun⟩
    exact ⟨state.chunks, _, hstate, iff_of_true hrespected hcondition⟩
  · obtain ⟨hmin, hfar⟩ := not_or.mp hcondition
    obtain ⟨position, hfar⟩ := not_forall.mp hfar
    obtain ⟨hposition, hboundary⟩ := Classical.not_imp.mp hfar
    obtain ⟨stops, hstops⟩ := exists_isBoundary chunker (show position ≤ data.length by omega)
    have hstops : chunker.isBoundary data position = some true := by
      cases stops with
      | true => exact hstops
      | false => exact absurd hstops hboundary
    obtain ⟨state, hstate, -, hend, hpassed⟩ :=
      chunkData_spec chunker blake3
        (fun state => state.offset ≤ position ∨ ∃ chunk ∈ state.chunks, chunker.maxSize < chunk.length) hdata
        (fun state chunkLen h _ hcuts => push_boundary blake3 (by omega) hposition hstops hcuts h _)
        (Or.inl (Nat.zero_le _))
    obtain ⟨chunk, hmem, hlong⟩ := hpassed.resolve_left (by omega)
    exact ⟨state.chunks, _, hstate, iff_of_false
      (fun hrespected => absurd (hrespected.le_maxSize chunk hmem) (by omega)) hcondition⟩

/-- With a minimum the chunks of some data are as long as the sizes ask. -/
theorem chunkData_sizes_iff_twelve :
    ∃ chunks manifest,
      (⟨2, 3, 5⟩ : FastCdcChunker).chunkData (hashOf sampleHashes) [1, 2, 3, 4, 5, 6, 7, 8, 9, 10, 11, 12] =
        some (chunks, manifest) ∧
      (SizesRespected ⟨2, 3, 5⟩ chunks ↔
        1 ≤ 2 ∨ ∀ position, position + 5 < 12 →
          (⟨2, 3, 5⟩ : FastCdcChunker).isBoundary [1, 2, 3, 4, 5, 6, 7, 8, 9, 10, 11, 12] position = some false) :=
  chunkData_sizes_iff ⟨2, 3, 5⟩ (hashOf sampleHashes) [1, 2, 3, 4, 5, 6, 7, 8, 9, 10, 11, 12] (by decide) (by decide)

/-- Without a minimum, five zeros are one chunk that is longer than the maximum. -/
theorem not_sizesRespected_zeros :
    ¬ ∀ (chunker : FastCdcChunker) (data : Bytes) (chunks : List Chunk) (manifest : ChunkManifest),
      chunker.minSize ≤ chunker.maxSize → 1 ≤ chunker.maxSize →
      chunker.chunkData (hashOf sampleHashes) data = some (chunks, manifest) → SizesRespected chunker chunks := by
  intro h
  have hcut : (⟨0, 64, 4⟩ : FastCdcChunker).chunkData (hashOf sampleHashes) [0, 0, 0, 0, 0] =
      some ([⟨"cdc96eca844d7912acdbb3dca677757d0db5747a1df61166339cfc7156d4880f", 0, 5, [0, 0, 0, 0, 0]⟩],
        ⟨5, ["cdc96eca844d7912acdbb3dca677757d0db5747a1df61166339cfc7156d4880f"], [5]⟩) := by decide +kernel
  exact absurd ((h ⟨0, 64, 4⟩ [0, 0, 0, 0, 0] _ _ (by decide) (by decide) hcut).le_maxSize _
    (List.mem_singleton_self _)) (by decide)

end FastCdcChunker

end Forge.Cas
