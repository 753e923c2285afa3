import Forge.Common.QuotedText
import Forge.Common.Utf8
import Mathlib.Data.Char
import Mathlib.Data.Finset.Sort
import Mathlib.Order.Lex

/-!
# The public interface of a Rust source

The interface of a Rust source is what stands in front of the first brace of every line that starts
with one of seven words. A public item that starts with other words or goes on behind the brace or on
the next line is not read, or not in full, and a line in the body of a function may be read.
-/

namespace Forge.Incremental.Abi

open Forge.Common

/-! ## Extraction -/

/-- The starts of the lines that are read. -/
def signatureStarts : List String :=
  ["pub fn ", "pub struct ", "pub enum ", "pub trait ", "pub type ", "pub mod ", "pub const "]

/-- What is read of a line. -/
def readHeader (line : List Char) : Option (List Char) :=
  let trimmed := trim line
  if signatureStarts.any fun start => start.toList.isPrefixOf trimmed then
    some (trim (trimmed.takeWhile (· ≠ '{')))
  else none

/-- What is read of a source. -/
def readHeaders (source : List Char) : Finset (List Char) := ((lines source).filterMap readHeader).toFinset

/-- The public interface of a source: what is read, in its order. -/
def extractRustPublicInterface (source : List Char) : List Char :=
  ['\n'].intercalate ((readHeaders source).sort (· ≤ ·))

/-- The hash of the interface. -/
def computeInterfaceHash (hash : List UInt8 → String) (source : List Char) : String :=
  hash (utf8Bytes (String.ofList (extractRustPublicInterface source)))

/-! ## What is read of a line -/

/-- Nothing is read of an empty line. -/
theorem readHeader_nil : readHeader [] = none := by decide

/-- A line is read without its carriage return. -/
theorem readHeader_dropReturn (line : List Char) : readHeader (dropReturn line) = readHeader line := by
  rw [readHeader, readHeader, trim_dropReturn]

/-- A line with a brace is trimmed on both sides of it. -/
theorem trim_brace (before behind : List Char) :
    trim (before ++ '{' :: behind) = before.dropWhile isWhitespace ++ '{' :: trimEnd behind := by
  have hbrace : isWhitespace '{' = false := by decide
  have hstart : (before ++ '{' :: behind).dropWhile isWhitespace = before.dropWhile isWhitespace ++ ['{'] ++ behind := by
    rw [List.append_assoc, List.singleton_append, List.dropWhile_append]
    split
    · rename_i hempty
      rw [List.isEmpty_iff.mp hempty, List.dropWhile_cons_of_neg (by simp [hbrace]), List.nil_append]
    · rfl
  have htrim : trim (before ++ '{' :: behind) = trimEnd ((before ++ '{' :: behind).dropWhile isWhitespace) := rfl
  rw [htrim, hstart, trimEnd_append hbrace, List.append_assoc, List.singleton_append]

/-- What stands behind a brace is not read. -/
theorem readHeader_brace (before behind : List Char) :
    readHeader (before ++ '{' :: behind) = readHeader (before ++ ['{']) := by
  have hstarts : ∀ start ∈ signatureStarts, '{' ∉ start.toList := by decide
  have hany : ∀ behind : List Char, (signatureStarts.any fun start =>
      start.toList.isPrefixOf (before.dropWhile isWhitespace ++ '{' :: trimEnd behind)) =
      signatureStarts.any fun start => start.toList.isPrefixOf (before.dropWhile isWhitespace) := by
    intro behind
    rw [Bool.eq_iff_iff, List.any_eq_true, List.any_eq_true]
    refine exists_congr fun start => and_congr_right fun hstart => ?_
    rw [List.isPrefixOf_iff_prefix, List.isPrefixOf_iff_prefix, prefix_append_cons_iff (hstarts start hstart)]
  have htake : ∀ behind : List Char, (before.dropWhile isWhitespace ++ '{' :: trimEnd behind).takeWhile (· ≠ '{') =
      (before.dropWhile isWhitespace).takeWhile (· ≠ '{') := by
    intro behind
    rw [List.takeWhile_append]
    split
    · rename_i hall
      rw [List.takeWhile_cons_of_neg (by simp), List.append_nil, (List.takeWhile_prefix _).eq_of_length hall]
    · rfl
  rw [readHeader, readHeader, trim_brace, trim_brace]
  simp only [hany, htake]

/-- What is read is not empty and on one line. -/
theorem readHeader_line {line header : List Char} (h : readHeader line = some header) (hline : '\n' ∉ line) :
    header ≠ [] ∧ '\n' ∉ header := by
  have hstarts : ∀ start ∈ signatureStarts, start.toList.head? = some 'p' := by decide
  rw [readHeader, Option.ite_none_right_eq_some] at h
  obtain ⟨hread, hheader⟩ := h
  obtain ⟨start, hstart, hmatch⟩ := List.any_eq_true.mp hread
  obtain ⟨rest, hp⟩ := List.head?_eq_some_iff.mp (hstarts start hstart)
  obtain ⟨behind, htrim⟩ := List.isPrefixOf_iff_prefix.mp hmatch
  rw [hp, List.cons_append] at htrim
  rw [← Option.some.inj hheader]
  constructor
  · rw [← htrim, List.takeWhile_cons_of_pos (by decide), Ne, trim_eq_nil_iff]
    intro hblank
    exact absurd (hblank 'p' List.mem_cons_self) (by decide)
  · intro hmem
    exact hline (mem_of_mem_trim ((List.takeWhile_subset _) (mem_of_mem_trim hmem)))

/-! ## What is read of a source -/

/-- What is read of a source is on one line. -/
theorem readHeaders_line {source header : List Char} (h : header ∈ readHeaders source) : header ≠ [] ∧ '\n' ∉ header := by
  rw [readHeaders, List.mem_toFinset, filterMap_lines readHeader_dropReturn readHeader_nil, List.mem_filterMap] at h
  obtain ⟨piece, hpiece, hheader⟩ := h
  exact readHeader_line hheader (notMem_of_mem_splitOn hpiece)

/-- Two sources have the same interface if the same is read of them. -/
theorem extract_eq_iff (source source' : List Char) :
    extractRustPublicInterface source = extractRustPublicInterface source' ↔ readHeaders source = readHeaders source' := by
  constructor
  · intro h
    have hsort := intercalate_injective '\n' (fun line hline => readHeaders_line ((Finset.mem_sort (· ≤ ·)).mp hline))
      (fun line hline => readHeaders_line ((Finset.mem_sort (· ≤ ·)).mp hline)) h
    rw [← Finset.sort_toFinset (readHeaders source) (· ≤ ·), hsort, Finset.sort_toFinset]
  · intro h
    rw [extractRustPublicInterface, h, extractRustPublicInterface]

/-- The lines of a text are read one by one. -/
theorem mem_readHeaders_unlines {ls : List (List Char)} (hls : ∀ line ∈ ls, '\n' ∉ line) {header : List Char} :
    header ∈ readHeaders (unlines ls) ↔ ∃ line ∈ ls, readHeader line = some header := by
  rw [readHeaders, List.mem_toFinset]
  induction ls with
  | nil => simp [unlines, lines]
  | cons line ls ih =>
    obtain ⟨hline, hls⟩ := List.forall_mem_cons.mp hls
    have hcons : unlines (line :: ls) = line ++ '\n' :: unlines ls := by simp [unlines]
    rw [hcons, lines_append_cons hline, List.filterMap_cons, readHeader_dropReturn]
    cases hread : readHeader line with
    | none => simp [hread, ih hls]
    | some found => simp [hread, ih hls, eq_comm]

/-! ## Items -/

/-- The body of a function: what follows its brace on the same line, and further lines. -/
structure Body where
  first : List Char
  rest : List (List Char)
  first_line : '\n' ∉ first
  rest_line : ∀ line ∈ rest, '\n' ∉ line

/-- An item with its signature on lines as it is laid out. The signature of a function has a body behind it, that of
another item is all of it. What is not public, such as comments, attributes and what encloses other items, is an item
as well. -/
structure Item where
  isPublic : Bool
  start : List (List Char)
  last : List Char
  body : Option Body
  start_line : ∀ line ∈ start, '\n' ∉ line
  last_line : '\n' ∉ last

/-- The items of a source. -/
abbrev Source := List Item

namespace Item

/-- The words of the signature, whatever lines they are on. -/
def signature (item : Item) : List (List Char) := (item.start ++ [item.last]).flatMap splitWhitespace

/-- The last line of the signature. -/
def lastLine (item : Item) : List Char :=
  match item.body with
  | none => item.last
  | some body => item.last ++ '{' :: body.first

/-- The lines of the body behind the first. -/
def bodyLines (item : Item) : List (List Char) :=
  match item.body with
  | none => []
  | some body => body.rest

/-- The lines of an item. -/
def lines (item : Item) : List (List Char) := item.start ++ [item.lastLine] ++ item.bodyLines

/-- The lines of an item are single lines. -/
theorem notMem_lines (item : Item) : ∀ line ∈ item.lines, '\n' ∉ line := by
  intro line hline
  rw [lines, List.mem_append, List.mem_append, List.mem_singleton] at hline
  obtain (hstart | rfl) | hbody := hline
  · exact item.start_line line hstart
  · rw [lastLine]
    cases hbody : item.body with
    | none => exact item.last_line
    | some body => simp [item.last_line, body.first_line]
  · rw [bodyLines] at hbody
    cases hsome : item.body with
    | none => simp [hsome] at hbody
    | some body =>
      rw [hsome] at hbody
      exact body.rest_line line hbody

/-- What is read of the signature. -/
def readSignature (item : Item) : List (List Char) := (item.start ++ [item.lastLine]).filterMap readHeader

/-- What is read of the body. -/
def readBody (item : Item) : List (List Char) := item.bodyLines.filterMap readHeader

/-- Whether something that is read of an item is its signature. -/
def ReadInFull (item : Item) (header : List Char) : Prop :=
  header ∈ item.readSignature ∧ splitWhitespace header = item.signature

end Item

/-- The text of a source. -/
def sourceText (s : Source) : List Char := unlines (s.flatMap Item.lines)

/-- Whether something is read of a source. -/
def Reads (s : Source) (header : List Char) : Prop := ∃ item ∈ s, header ∈ item.readSignature ∨ header ∈ item.readBody

/-- What is read of a text is what is read of its items. -/
theorem mem_readHeaders_sourceText (s : Source) (header : List Char) :
    header ∈ readHeaders (sourceText s) ↔ Reads s header := by
  have hlines : ∀ line ∈ s.flatMap Item.lines, '\n' ∉ line := by
    intro line hline
    obtain ⟨item, -, hmem⟩ := List.mem_flatMap.mp hline
    exact item.notMem_lines line hmem
  rw [sourceText, mem_readHeaders_unlines hlines, Reads]
  simp only [List.mem_flatMap, Item.readSignature, Item.readBody, Item.lines, List.mem_filterMap, List.mem_append]
  constructor
  · rintro ⟨line, ⟨item, hitem, hline | hline⟩, hheader⟩
    · exact ⟨item, hitem, .inl ⟨line, hline, hheader⟩⟩
    · exact ⟨item, hitem, .inr ⟨line, hline, hheader⟩⟩
  · rintro ⟨item, hitem, ⟨line, hline, hheader⟩ | ⟨line, hline, hheader⟩⟩
    · exact ⟨line, ⟨item, hitem, .inl hline⟩, hheader⟩
    · exact ⟨line, ⟨item, hitem, .inr hline⟩, hheader⟩

/-! ## What the interface tells -/

/-- Whether every public signature of a source is one of the other. -/
def PublicIn (s s' : Source) : Prop :=
  ∀ item ∈ s, item.isPublic = true → ∃ item' ∈ s', item'.isPublic = true ∧ item'.signature = item.signature

/-- Whether two sources differ in the bodies of functions only. -/
def SameButBodies (s s' : Source) : Prop :=
  List.Forall₂ (fun item item' => item.isPublic = item'.isPublic ∧ item.start = item'.start ∧ item.last = item'.last ∧
    item.body.isSome = item'.body.isSome) s s'

/-- Whether the interface tells two sources apart if they differ in a public signature, and does not if they differ in
bodies only. -/
structure SeesInterface (s s' : Source) : Prop where
  signatures : extractRustPublicInterface (sourceText s) = extractRustPublicInterface (sourceText s') →
    PublicIn s s' ∧ PublicIn s' s
  bodies : SameButBodies s s' →
    extractRustPublicInterface (sourceText s) = extractRustPublicInterface (sourceText s')

/-- Whether the same is read of two sources. -/
def ReadAlike (s s' : Source) : Prop := ∀ header, Reads s header ↔ Reads s' header

/-- Whether the public signatures that are not read in full in both sources are in the other source. -/
def MissedIn (s s' : Source) : Prop :=
  ∀ item ∈ s, item.isPublic = true →
    (∀ header, item.ReadInFull header → ∀ item' ∈ s', item'.isPublic = true → ¬ item'.ReadInFull header) →
    ∃ item' ∈ s', item'.isPublic = true ∧ item'.signature = item.signature

/-- Whether what is read of the bodies of a source is read of the other as well. -/
def BodiesIn (s s' : Source) : Prop := ∀ item ∈ s, ∀ header ∈ item.readBody, Reads s' header

/-- Two sources have the same interface if the same is read of their items. -/
theorem extract_sourceText_iff (s s' : Source) :
    extractRustPublicInterface (sourceText s) = extractRustPublicInterface (sourceText s') ↔ ReadAlike s s' := by
  rw [extract_eq_iff, Finset.ext_iff]
  exact forall_congr' fun header => iff_congr (mem_readHeaders_sourceText s header) (mem_readHeaders_sourceText s' header)

/-- What is read in full in both sources is the signature in both. -/
theorem publicIn_iff (s s' : Source) : PublicIn s s' ↔ MissedIn s s' := by
  constructor
  · exact fun h item hitem hpublic _ => h item hitem hpublic
  · intro h item hitem hpublic
    by_cases hfull : ∃ header, item.ReadInFull header ∧ ∃ item' ∈ s', item'.isPublic = true ∧ item'.ReadInFull header
    · obtain ⟨header, hread, item', hitem', hpublic', hread'⟩ := hfull
      exact ⟨item', hitem', hpublic', hread'.2.symm.trans hread.2⟩
    · exact h item hitem hpublic fun header hread item' hitem' hpublic' hread' =>
        hfull ⟨header, hread, item', hitem', hpublic', hread'⟩

/-- What is read of the signatures does not depend on the bodies. -/
theorem readSignature_eq {item item' : Item} (hstart : item.start = item'.start) (hlast : item.last = item'.last)
    (hbody : item.body.isSome = item'.body.isSome) : item.readSignature = item'.readSignature := by
  have hread : readHeader item.lastLine = readHeader item'.lastLine := by
    rw [Item.lastLine, Item.lastLine, hlast]
    cases hfirst : item.body with
    | none =>
      rw [hfirst, eq_comm, Option.isSome_none, Option.isSome_eq_false_iff, Option.isNone_iff_eq_none] at hbody
      simp only [hbody]
    | some body =>
      rw [hfirst, eq_comm, Option.isSome_some, Option.isSome_iff_exists] at hbody
      obtain ⟨body', hbody'⟩ := hbody
      simp only [hbody']
      rw [readHeader_brace, readHeader_brace item'.last body'.first]
  rw [Item.readSignature, Item.readSignature, List.filterMap_append, List.filterMap_append, hstart]
  simp only [List.filterMap_cons, hread, List.filterMap_nil]

/-- What is read of the signatures stays when bodies change. -/
theorem SameButBodies.readSignature {s s' : Source} (h : SameButBodies s s') :
    s.map Item.readSignature = s'.map Item.readSignature := by
  induction h with
  | nil => rfl
  | cons hitem _ ih =>
    obtain ⟨-, hstart, hlast, hbody⟩ := hitem
    rw [List.map_cons, List.map_cons, ih, readSignature_eq hstart hlast hbody]

/-- So it is read of both sources. -/
theorem SameButBodies.reads {s s' : Source} (h : SameButBodies s s') {item : Item} (hitem : item ∈ s)
    {header : List Char} (hheader : header ∈ item.readSignature) : Reads s' header := by
  have hmem := List.mem_map_of_mem (f := Item.readSignature) hitem
  rw [h.readSignature] at hmem
  obtain ⟨item', hitem', heq⟩ := List.mem_map.mp hmem
  exact ⟨item', hitem', .inl (heq ▸ hheader)⟩

/-- Sources that differ in bodies differ in bodies the other way round. -/
theorem SameButBodies.symm {s s' : Source} (h : SameButBodies s s') : SameButBodies s' s :=
  List.Forall₂.flip (h.imp fun _ _ hitem => ⟨hitem.1.symm, hitem.2.1.symm, hitem.2.2.1.symm, hitem.2.2.2.symm⟩)

/-- Sources that differ in bodies only are read alike if what is read of the bodies is. -/
theorem readAlike_iff {s s' : Source} (h : SameButBodies s s') : ReadAlike s s' ↔ BodiesIn s s' ∧ BodiesIn s' s := by
  constructor
  · intro halike
    exact ⟨fun item hitem header hheader => (halike header).mp ⟨item, hitem, .inr hheader⟩,
      fun item hitem header hheader => (halike header).mpr ⟨item, hitem, .inr hheader⟩⟩
  · rintro ⟨hbodies, hbodies'⟩ header
    constructor
    · rintro ⟨item, hitem, hheader | hheader⟩
      · exact h.reads hitem hheader
      · exact hbodies item hitem header hheader
    · rintro ⟨item, hitem, hheader | hheader⟩
      · exact h.symm.reads hitem hheader
      · exact hbodies' item hitem header hheader

/-- What the interface has to tell is what is not read in full where the same is read, and what is read of bodies. -/
theorem seesInterface_iff_missed (s s' : Source) : SeesInterface s s' ↔
    (ReadAlike s s' → MissedIn s s' ∧ MissedIn s' s) ∧ (SameButBodies s s' → BodiesIn s s' ∧ BodiesIn s' s) := by
  constructor
  · intro h
    refine ⟨fun halike => ?_, fun hsame => ?_⟩
    · rw [← publicIn_iff, ← publicIn_iff]
      exact h.signatures ((extract_sourceText_iff s s').mpr halike)
    · exact (readAlike_iff hsame).mp ((extract_sourceText_iff s s').mp (h.bodies hsame))
  · rintro ⟨hmissed, hbodies⟩
    refine ⟨fun hextract => ?_, fun hsame => ?_⟩
    · rw [publicIn_iff, publicIn_iff]
      exact hmissed ((extract_sourceText_iff s s').mp hextract)
    · exact (extract_sourceText_iff s s').mpr ((readAlike_iff hsame).mpr (hbodies hsame))

/-- Whether of a source nothing is read but the signatures of public items, each of them in full. -/
structure Plain (s : Source) : Prop where
  read : ∀ item ∈ s, ∀ header, header ∈ item.readSignature ∨ header ∈ item.readBody →
    item.isPublic = true ∧ item.ReadInFull header
  full : ∀ item ∈ s, item.isPublic = true → ∃ header, item.ReadInFull header

/-- The public signatures of such a source are in every such source that is read alike. -/
theorem Plain.publicIn {s s' : Source} (h : Plain s) (h' : Plain s') (halike : ReadAlike s s') : PublicIn s s' := by
  intro item hitem hpublic
  obtain ⟨header, hread⟩ := h.full item hitem hpublic
  obtain ⟨item', hitem', hread'⟩ := (halike header).mp ⟨item, hitem, .inl hread.1⟩
  obtain ⟨hpublic', hfull'⟩ := h'.read item' hitem' header hread'
  exact ⟨item', hitem', hpublic', hfull'.2.symm.trans hread.2⟩

/-- Nothing is read of the bodies of such a source but what is read of its signatures. -/
theorem Plain.bodiesIn {s s' : Source} (h : Plain s) (hsame : SameButBodies s s') : BodiesIn s s' :=
  fun item hitem header hheader => hsame.reads hitem (h.read item hitem header (.inr hheader)).2.1

/-- The interface tells what it should of such sources. -/
theorem Plain.seesInterface {s s' : Source} (h : Plain s) (h' : Plain s') : SeesInterface s s' := by
  refine ⟨fun hextract => ?_, fun hsame => ?_⟩
  · have halike := (extract_sourceText_iff s s').mp hextract
    exact ⟨h.publicIn h' halike, h'.publicIn h fun header => (halike header).symm⟩
  · exact (extract_sourceText_iff s s').mpr ((readAlike_iff hsame).mpr ⟨h.bodiesIn hsame, h'.bodiesIn hsame.symm⟩)

/-- The interface tells what it should exactly if the public signatures that are not read in full do not differ where the
same is read, and no changed body has a line that is read and is not read anyway. So it does of all sources of which
nothing is read but the signatures of public items, each of them in full. -/
theorem seesInterface_iff (s s' : Source) :
    (SeesInterface s s' ↔
      (ReadAlike s s' → MissedIn s s' ∧ MissedIn s' s) ∧ (SameButBodies s s' → BodiesIn s s' ∧ BodiesIn s' s)) ∧
    (Plain s → Plain s' → SeesInterface s s') :=
  ⟨seesInterface_iff_missed s s', Plain.seesInterface⟩

/-! ## Functions that are missed and lines that are read -/

/-- An asynchronous function. -/
def asyncFn : Item where
  isPublic := true
  start := []
  last := "pub async fn run() ".toList
  body := some ⟨"\x7d".toList, [], by decide, nofun⟩
  start_line := nofun
  last_line := by decide

/-- A function with a body of further lines. -/
def mainFn (rest : List (List Char)) (hrest : ∀ line ∈ rest, '\n' ∉ line) : Item where
  isPublic := false
  start := []
  last := "fn main() ".toList
  body := some ⟨[], rest, List.not_mem_nil, hrest⟩
  start_line := nofun
  last_line := by decide

/-- An asynchronous function is missed, and a function in the body of another one is read. -/
theorem not_seesInterface_asyncFn :
    ¬ SeesInterface [asyncFn] [] ∧
      ¬ SeesInterface [mainFn ["\x7d".toList] (by decide)]
        [mainFn ["    pub fn inner() \x7b\x7d".toList, "\x7d".toList] (by decide)] := by
  constructor
  · intro h
    have hnone : asyncFn.readSignature = [] ∧ asyncFn.readBody = [] := by decide
    have halike : ReadAlike [asyncFn] [] := by
      intro header
      simp [Reads, hnone]
    obtain ⟨item, hitem, -⟩ :=
      (h.signatures ((extract_sourceText_iff _ _).mpr halike)).1 asyncFn (List.mem_singleton_self _) rfl
    exact absurd hitem List.not_mem_nil
  · intro h
    have hsame : SameButBodies [mainFn ["\x7d".toList] (by decide)]
        [mainFn ["    pub fn inner() \x7b\x7d".toList, "\x7d".toList] (by decide)] := .cons ⟨rfl, rfl, rfl, rfl⟩ .nil
    have halike := (extract_sourceText_iff _ _).mp (h.bodies hsame) "pub fn inner()".toList
    obtain ⟨item, hitem, hread⟩ := halike.mpr ⟨_, List.mem_singleton_self _, .inr (by decide)⟩
    rw [List.mem_singleton.mp hitem] at hread
    revert hread
    decide

end Forge.Incremental.Abi
