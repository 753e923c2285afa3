import Forge.Cas.Chunking

/-!
# How far a cut sees

Where a chunk ends depends on the bytes from where it begins up to eight bytes behind its end,
and on whether there are as many. So data that goes on in the same way is cut in the same way
from a common cut on, and what is added to the end of some data moves only cuts near the old end.
-/

namespace Forge.Cas

open Forge.Common Forge.Fingerprint

/-- Where a chunk ends. -/
def Chunk.stop (chunk : Chunk) : ℕ := chunk.offset + chunk.length

/-- A chunk of data that comes after so many other bytes. -/
def Chunk.shift (chunk : Chunk) (n : ℕ) : Chunk := { chunk with offset := n + chunk.offset }

/-- A chunk begins or ends at a position. -/
def IsCut (chunks : List Chunk) (position : ℕ) : Prop :=
  ∃ chunk ∈ chunks, chunk.offset = position ∨ chunk.stop = position

/-- The chunks that hold what comes after a position. -/
def chunksFrom (chunks : List Chunk) (position : ℕ) : List Chunk :=
  chunks.filter fun chunk => position < chunk.stop

namespace FastCdcChunker

variable (chunker : FastCdcChunker) (blake3 : Bytes → String) {data : Bytes}

/-- The window of a position depends on what follows it. -/
theorem isBoundary_shift (before data : Bytes) (position : ℕ) :
    chunker.isBoundary (before ++ data) (before.length + position) = chunker.isBoundary data position := by
  have hslice : slice (before ++ data) (before.length + position)
      (min (before.length + position + 8) (before ++ data).length) =
        slice data position (min (position + 8) data.length) := by
    rw [slice, slice, List.length_append]
    by_cases hin : position ≤ data.length
    · rw [if_pos (by omega), if_pos (by omega), List.drop_append, List.drop_eq_nil_of_le (by omega),
        List.nil_append, Nat.add_sub_cancel_left]
      congr 2
      omega
    · rw [if_neg (by omega), if_neg (by omega)]
  rw [isBoundary, isBoundary, hslice]

/-- The search for a cut depends on what follows the offset. -/
theorem findCut_shift (before data : Bytes) (offset limit steps cut : ℕ) :
    chunker.findCut (before ++ data) (before.length + offset) limit steps cut =
      chunker.findCut data offset limit steps cut := by
  induction steps generalizing cut with
  | zero => rfl
  | succ steps ih => rw [findCut, findCut, Nat.add_assoc, isBoundary_shift, ih]

/-- The length of a chunk depends on what follows its offset. -/
theorem chunkLength_shift (before data : Bytes) (offset : ℕ) :
    chunker.chunkLength (before ++ data) (before.length + offset) = chunker.chunkLength data offset := by
  have hremaining : (before ++ data).length - (before.length + offset) = data.length - offset := by
    rw [List.length_append]
    omega
  rw [chunkLength, chunkLength, cutLength, cutLength, hremaining, findCut_shift]

/-- The window of a position is the same when more data follows its eight bytes. -/
theorem isBoundary_append {position : ℕ} (hwindow : position + 8 ≤ data.length) (more : Bytes) :
    chunker.isBoundary (data ++ more) position = chunker.isBoundary data position := by
  have hmin : min (position + 8) data.length = position + 8 := Nat.min_eq_left hwindow
  have hmin' : min (position + 8) (data ++ more).length = position + 8 := by
    rw [List.length_append]
    omega
  rw [isBoundary, isBoundary, hmin, hmin', slice_eq (by omega) hwindow,
    slice_eq (by omega) (by rw [List.length_append]; omega), List.drop_append_of_le_length (by omega),
    List.take_append_of_le_length (by rw [List.length_drop]; omega)]

/-- A chunk that ends eight bytes before the end is cut at the same place when more data follows. -/
theorem chunkLength_append {offset chunkLen : ℕ} (hlength : chunker.chunkLength data offset = some chunkLen)
    (hend : offset + chunkLen + 8 ≤ data.length) (more : Bytes) :
    chunker.chunkLength (data ++ more) offset = some chunkLen := by
  have hsize : (data ++ more).length = data.length + more.length := List.length_append
  rw [chunkLength, cutLength] at hlength ⊢
  by_cases hshort : data.length - offset ≤ chunker.minSize
  · rw [if_pos hshort, Option.map_some, if_neg (by omega)] at hlength
    cases hlength
    omega
  rw [if_neg hshort] at hlength
  rw [if_neg (by omega)]
  obtain ⟨found, hfound, hge, hle, hstops, hnone⟩ :=
    findCut_spec chunker (show offset + min (data.length - offset) chunker.maxSize ≤ data.length by omega)
      chunker.minSize (show min (data.length - offset) chunker.maxSize ≤
        chunker.minSize + min (data.length - offset) chunker.maxSize by omega)
  obtain ⟨found', hfound', hge', hle', hstops', hnone'⟩ :=
    findCut_spec chunker
      (show offset + min ((data ++ more).length - offset) chunker.maxSize ≤ (data ++ more).length by omega)
      chunker.minSize (show min ((data ++ more).length - offset) chunker.maxSize ≤
        chunker.minSize + min ((data ++ more).length - offset) chunker.maxSize by omega)
  rw [hfound, Option.map_some] at hlength
  rw [hfound', Option.map_some]
  have hfoundLen : found = chunkLen := by
    by_cases hzero : found = 0
    · rw [if_pos hzero] at hlength
      cases hlength
      omega
    · rw [if_neg hzero] at hlength
      exact Option.some.inj hlength
  have hpos : chunkLen ≠ 0 := by
    intro hzero
    rw [if_pos (hfoundLen.trans hzero)] at hlength
    cases hlength
    omega
  -- up to the cut both searches see the same windows
  have hsame : ∀ k, k ≤ found → chunker.isBoundary (data ++ more) (offset + k) = chunker.isBoundary data (offset + k) :=
    fun k hk => isBoundary_append chunker (by omega) more
  have heq : found' = found := by
    rcases Nat.lt_trichotomy found' found with hlt | heq | hgt
    · have hstop := hstops' (by omega)
      rw [hsame found' hlt.le, hnone found' hge' hlt] at hstop
      cases hstop
    · exact heq
    · have hgoes := hnone' found hge hgt
      rw [hsame found (le_refl _)] at hgoes
      have hlimit : ¬ found < min (data.length - offset) chunker.maxSize := by
        intro hlt
        rw [hstops hlt] at hgoes
        cases hgoes
      omega
  rw [heq, hfoundLen, if_neg hpos]

/-- The chunks of the data from an offset on. -/
inductive Cuts (chunker : FastCdcChunker) (blake3 : Bytes → String) (data : Bytes) : ℕ → List Chunk → Prop
  | done (offset : ℕ) (hend : data.length ≤ offset) : Cuts chunker blake3 data offset []
  | chunk (offset chunkLen : ℕ) (rest : List Chunk) (hoffset : offset < data.length)
      (hlength : chunker.chunkLength data offset = some chunkLen)
      (hrest : Cuts chunker blake3 data (offset + chunkLen) rest) :
      Cuts chunker blake3 data offset
        (⟨blake3 ((data.drop offset).take chunkLen), offset, chunkLen, (data.drop offset).take chunkLen⟩ :: rest)

variable {chunker blake3}

/-- There is one way to cut the data from an offset on. -/
theorem Cuts.unique {offset : ℕ} {chunks chunks' : List Chunk} (h : Cuts chunker blake3 data offset chunks)
    (h' : Cuts chunker blake3 data offset chunks') : chunks = chunks' := by
  induction h generalizing chunks' with
  | done offset hend =>
    cases h' with
    | done => rfl
    | chunk _ _ _ hoffset => omega
  | chunk offset chunkLen rest hoffset hlength hrest ih =>
    cases h' with
    | done _ hend => omega
    | chunk _ _ rest' _ hlength' hrest' =>
      rw [hlength] at hlength'
      cases hlength'
      rw [ih hrest']

/-- The chunks after other bytes are those of the data, further on. -/
theorem Cuts.shift {offset : ℕ} {chunks : List Chunk} (h : Cuts chunker blake3 data offset chunks) (before : Bytes) :
    Cuts chunker blake3 (before ++ data) (before.length + offset)
      (chunks.map fun chunk => chunk.shift before.length) := by
  induction h with
  | done offset hend => exact .done _ (by rw [List.length_append]; omega)
  | chunk offset chunkLen rest hoffset hlength hrest ih =>
    have hbytes : ((before ++ data).drop (before.length + offset)).take chunkLen = (data.drop offset).take chunkLen := by
      rw [List.drop_append, List.drop_eq_nil_of_le (by omega), List.nil_append, Nat.add_sub_cancel_left]
    have hchunk := Cuts.chunk (before.length + offset) chunkLen _ (by rw [List.length_append]; omega)
      ((chunkLength_shift chunker before data offset).trans hlength) (by rw [Nat.add_assoc]; exact ih)
    rw [hbytes] at hchunk
    exact hchunk

/-- Chunks from an offset on begin there or later, and hold at least a byte. -/
theorem Cuts.bounds {offset : ℕ} {chunks : List Chunk} (h : Cuts chunker blake3 data offset chunks) :
    ∀ chunk ∈ chunks, offset ≤ chunk.offset ∧ chunk.offset < chunk.stop := by
  induction h with
  | done => exact nofun
  | chunk offset chunkLen rest hoffset hlength hrest ih =>
    obtain ⟨chunkLen', hlength', hcuts⟩ := chunkLength_spec chunker hoffset
    rw [hlength] at hlength'
    cases hlength'
    have hpos := hcuts.pos hoffset
    intro chunk hmem
    rcases List.mem_cons.mp hmem with rfl | hmem
    · exact ⟨le_refl _, show offset < offset + chunkLen by omega⟩
    · obtain ⟨hge, hlt⟩ := ih chunk hmem
      exact ⟨by omega, hlt⟩

/-- From a cut on, the chunks are those that hold what comes after it. -/
theorem Cuts.chunksFrom {offset position : ℕ} {chunks : List Chunk} (h : Cuts chunker blake3 data offset chunks)
    (hposition : offset ≤ position) (hcut : IsCut chunks position ∨ offset = position) :
    Cuts chunker blake3 data position (chunksFrom chunks position) := by
  induction h with
  | done offset hend => exact .done _ (by omega)
  | chunk offset chunkLen rest hoffset hlength hrest ih =>
    have hall := (Cuts.chunk offset chunkLen rest hoffset hlength hrest).bounds
    rcases Nat.eq_or_lt_of_le hposition with rfl | hlt
    · rw [Cas.chunksFrom, List.filter_eq_self.mpr fun chunk hmem => decide_eq_true (by
        obtain ⟨hge, hstop⟩ := hall chunk hmem
        omega)]
      exact .chunk offset chunkLen rest hoffset hlength hrest
    · obtain ⟨cut, hmem, hcut⟩ := hcut.resolve_right (by omega)
      -- the first chunk does not hold the position, so it ends before
      have hstop : offset + chunkLen ≤ position ∧ (IsCut rest position ∨ offset + chunkLen = position) := by
        rcases List.mem_cons.mp hmem with rfl | hmem
        · have hend : offset + chunkLen = position := hcut.resolve_left fun heq => by
            have hsame : offset = position := heq
            omega
          exact ⟨hend.le, Or.inr hend⟩
        · obtain ⟨hge, hpos⟩ := hrest.bounds cut hmem
          exact ⟨by omega, Or.inl ⟨cut, hmem, hcut⟩⟩
      rw [Cas.chunksFrom, List.filter_cons_of_neg (by
        rw [decide_eq_true_eq]
        exact Nat.not_lt.mpr hstop.1)]
      exact ih hstop.1 hstop.2

/-- A chunk that ends eight bytes before the end stays where it is when more data follows. -/
theorem Cuts.append {offset : ℕ} {chunks chunks' : List Chunk} {more : Bytes}
    (h : Cuts chunker blake3 data offset chunks) (h' : Cuts chunker blake3 (data ++ more) offset chunks') :
    ∀ chunk ∈ chunks, chunk.stop + 8 ≤ data.length → chunk ∈ chunks' := by
  induction h generalizing chunks' with
  | done => exact nofun
  | chunk offset chunkLen rest hoffset hlength hrest ih =>
    intro chunk hmem hend
    have hfirst : offset + chunkLen + 8 ≤ data.length := by
      rcases List.mem_cons.mp hmem with rfl | hmem
      · exact hend
      · obtain ⟨hge, hpos⟩ := hrest.bounds chunk hmem
        omega
    cases h' with
    | done _ hend' =>
      rw [List.length_append] at hend'
      omega
    | chunk _ chunkLen' rest' _ hlength' hrest' =>
      rw [chunkLength_append chunker hlength hfirst] at hlength'
      cases hlength'
      have hbytes : ((data ++ more).drop offset).take chunkLen = (data.drop offset).take chunkLen := by
        rw [List.drop_append_of_le_length (by omega), List.take_append_of_le_length (by rw [List.length_drop]; omega)]
      rw [hbytes]
      rcases List.mem_cons.mp hmem with rfl | hmem
      · exact List.mem_cons_self
      · exact List.mem_cons_of_mem _ (ih hrest' chunk hmem hend)

variable (chunker blake3)

/-- The loop cuts the data from where it starts. -/
theorem chunkLoop_cuts {steps : ℕ} {state state' : Chunking}
    (hloop : chunker.chunkLoop blake3 data steps state = some state') :
    ∃ chunks, state'.chunks = state.chunks ++ chunks ∧ Cuts chunker blake3 data state.offset chunks := by
  induction steps generalizing state with
  | zero =>
    rw [chunkLoop] at hloop
    by_cases hoffset : state.offset < data.length
    · rw [if_pos hoffset] at hloop
      cases hloop
    · rw [if_neg hoffset] at hloop
      cases hloop
      exact ⟨[], (List.append_nil _).symm, .done _ (by omega)⟩
  | succ steps ih =>
    rw [chunkLoop] at hloop
    by_cases hoffset : state.offset < data.length
    · obtain ⟨chunkLen, hlength, hcuts⟩ := chunkLength_spec chunker hoffset
      have hle := hcuts.le
      have hnext : chunker.nextChunk blake3 data state =
          some (state.push blake3 chunkLen ((data.drop state.offset).take chunkLen)) := by
        rw [nextChunk, hlength, Option.bind_eq_bind, Option.bind_some, slice_eq (by omega) (by omega),
          Option.bind_eq_bind, Option.bind_some, Nat.add_sub_cancel_left]
      rw [if_pos hoffset, hnext, Option.bind_eq_bind, Option.bind_some] at hloop
      obtain ⟨chunks, hchunks, hrest⟩ := ih hloop
      refine ⟨_, hchunks.trans ?_, .chunk state.offset chunkLen chunks hoffset hlength hrest⟩
      rw [Chunking.push, List.append_assoc, List.singleton_append]
    · rw [if_neg hoffset] at hloop
      cases hloop
      exact ⟨[], (List.append_nil _).symm, .done _ (by omega)⟩

/-- All data is cut. -/
theorem exists_chunkData (data : Bytes) :
    ∃ chunks manifest, chunker.chunkData blake3 data = some (chunks, manifest) := by
  by_cases hdata : data = []
  · exact ⟨_, _, hdata ▸ chunkData_nil chunker blake3⟩
  · obtain ⟨state, hstate, -⟩ := chunkData_spec chunker blake3 (fun _ => True) hdata (fun _ _ _ _ _ => trivial) trivial
    exact ⟨_, _, hstate⟩

variable {chunker blake3} {chunks : List Chunk} {manifest : ChunkManifest}

/-- The chunks of some data cut it from its beginning on. -/
theorem cuts_of_chunkData (hdata : data ≠ []) (hchunks : chunker.chunkData blake3 data = some (chunks, manifest)) :
    Cuts chunker blake3 data 0 chunks := by
  rw [chunkData, if_neg (List.length_eq_zero_iff.not.mpr hdata)] at hchunks
  obtain ⟨state, hloop, hstate⟩ := Option.bind_eq_some_iff.mp hchunks
  cases hstate
  obtain ⟨chunks, hchunks, hcuts⟩ := chunkLoop_cuts chunker blake3 hloop
  rw [hchunks]
  exact hcuts

/-- From a cut on, the chunks of some data cut what is left. The chunk of no data holds nothing. -/
theorem cuts_chunksFrom (hchunks : chunker.chunkData blake3 data = some (chunks, manifest)) {position : ℕ}
    (hcut : IsCut chunks position) : Cuts chunker blake3 data position (Cas.chunksFrom chunks position) := by
  by_cases hdata : data = []
  · rw [hdata, chunkData_nil] at hchunks
    cases hchunks
    rw [hdata]
    exact .done position (Nat.zero_le _)
  · exact (cuts_of_chunkData hdata hchunks).chunksFrom (Nat.zero_le _) (Or.inl hcut)

/-- From a cut on, data is cut as if it had begun there. -/
theorem chunksFrom_eq {before : Bytes} {whole : List Chunk}
    (hchunks : chunker.chunkData blake3 (before ++ data) = some (chunks, manifest))
    (hcut : IsCut chunks before.length) (hwhole : Cuts chunker blake3 data 0 whole) :
    Cas.chunksFrom chunks before.length = whole.map fun chunk => chunk.shift before.length :=
  (cuts_chunksFrom hchunks hcut).unique (hwhole.shift before)

/-- Chunks are cut locally. Two inputs that go on in the same way from a cut of each are cut in the
same way from there on. What is added behind the end of an input changes no chunk that ends at least
eight bytes before the end. -/
theorem chunkData_local (chunker : FastCdcChunker) (blake3 : Bytes → String) :
    (∀ p q s : Bytes, ∃ chunks manifest chunks' manifest',
      chunker.chunkData blake3 (p ++ s) = some (chunks, manifest) ∧
      chunker.chunkData blake3 (q ++ s) = some (chunks', manifest') ∧
      (IsCut chunks p.length → IsCut chunks' q.length →
        (Cas.chunksFrom chunks p.length).map (fun chunk => (chunk.hash, chunk.length)) =
          (Cas.chunksFrom chunks' q.length).map fun chunk => (chunk.hash, chunk.length))) ∧
    ∀ x y : Bytes, ∃ chunks manifest chunks' manifest',
      chunker.chunkData blake3 x = some (chunks, manifest) ∧
      chunker.chunkData blake3 (x ++ y) = some (chunks', manifest') ∧
      ∀ chunk ∈ chunks, chunk.stop + 8 ≤ x.length → chunk ∈ chunks' := by
  constructor
  · intro p q s
    obtain ⟨chunks, manifest, hchunks⟩ := exists_chunkData chunker blake3 (p ++ s)
    obtain ⟨chunks', manifest', hchunks'⟩ := exists_chunkData chunker blake3 (q ++ s)
    refine ⟨chunks, manifest, chunks', manifest', hchunks, hchunks', fun hcut hcut' => ?_⟩
    obtain ⟨whole, hwhole⟩ : ∃ whole, Cuts chunker blake3 s 0 whole := by
      by_cases hs : s = []
      · exact ⟨[], .done 0 (hs ▸ Nat.zero_le _)⟩
      · obtain ⟨whole, _, hwhole⟩ := exists_chunkData chunker blake3 s
        exact ⟨whole, cuts_of_chunkData hs hwhole⟩
    rw [chunksFrom_eq hchunks hcut hwhole, chunksFrom_eq hchunks' hcut' hwhole, List.map_map, List.map_map]
    rfl
  · intro x y
    obtain ⟨chunks, manifest, hchunks⟩ := exists_chunkData chunker blake3 x
    obtain ⟨chunks', manifest', hchunks'⟩ := exists_chunkData chunker blake3 (x ++ y)
    refine ⟨chunks, manifest, chunks', manifest', hchunks, hchunks', fun chunk hmem hend => ?_⟩
    have hx : x ≠ [] := fun hnil => by
      rw [hnil, List.length_nil] at hend
      omega
    exact (cuts_of_chunkData hx hchunks).append
      (cuts_of_chunkData (List.append_ne_nil_of_left_ne_nil hx y) hchunks') chunk hmem hend

end FastCdcChunker

end Forge.Cas
