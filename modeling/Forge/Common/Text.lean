import Mathlib.Data.List.Infix
import Mathlib.Data.List.TakeWhile

/-!
# Taking text apart

Trimming at both ends, stripping what text starts or ends with, and splitting at a character.
Text that does not start and end with what is trimmed stays as it is.
-/

namespace Forge.Common

/-- The characters that are white space in Unicode. -/
def isWhitespace (c : Char) : Bool :=
  (0x9 ≤ c.toNat && c.toNat ≤ 0xD) || c.toNat = 0x20 || c.toNat = 0x85 || c.toNat = 0xA0 ||
    c.toNat = 0x1680 || (0x2000 ≤ c.toNat && c.toNat ≤ 0x200A) || c.toNat = 0x2028 ||
    c.toNat = 0x2029 || c.toNat = 0x202F || c.toNat = 0x205F || c.toNat = 0x3000

variable {α : Type*}

/-- Drop what matches at both ends. -/
def trimMatches (p : α → Bool) (s : List α) : List α := ((s.dropWhile p).reverse.dropWhile p).reverse

/-- Text without white space at its ends. -/
def trim (s : List Char) : List Char := trimMatches isWhitespace s

/-- What follows what the text starts with. -/
def stripPrefix [DecidableEq α] (start s : List α) : Option (List α) :=
  if start <+: s then some (s.drop start.length) else none

/-- Drop at most some copies of what the text starts with. -/
def dropStarts [DecidableEq α] (start : List α) : ℕ → List α → List α
  | 0, s => s
  | limit + 1, s =>
    match stripPrefix start s with
    | some rest => dropStarts start limit rest
    | none => s

/-- Drop all copies of what the text starts with. Each has a character at least. -/
def trimStartMatches [DecidableEq α] (start s : List α) : List α := dropStarts start s.length s

/-- What precedes what the text ends with. -/
def stripSuffix [DecidableEq α] (finish s : List α) : Option (List α) :=
  if finish <:+ s then some (s.take (s.length - finish.length)) else none

/-- Split at the first of a character, if there is one. -/
def splitOnce [DecidableEq α] (c : α) (s : List α) : Option (List α × List α) :=
  if c ∈ s then some (s.takeWhile (· ≠ c), (s.dropWhile (· ≠ c)).tail) else none

/-- Split at the last of a character, if there is one. -/
def rsplitOnce [DecidableEq α] (c : α) (s : List α) : Option (List α × List α) :=
  (splitOnce c s.reverse).map fun split => (split.2.reverse, split.1.reverse)

/-- Split at the first occurrence of a text, if there is one. -/
def splitOnceText [DecidableEq α] (sep : List α) : List α → Option (List α × List α)
  | [] => none
  | c :: s =>
    match stripPrefix sep (c :: s) with
    | some rest => some ([], rest)
    | none => (splitOnceText sep s).map fun (before, rest) => (c :: before, rest)

/-- The words of a text between its white space. -/
def splitWhitespace (s : List Char) : List (List Char) := (s.splitOnP isWhitespace).filter fun word => !word.isEmpty

/-- Text without white space at its end. -/
def trimEnd (s : List Char) : List Char := (s.reverse.dropWhile isWhitespace).reverse

/-- A line without the carriage return at its end. -/
def dropReturn (line : List Char) : List Char := (stripSuffix ['\r'] line).getD line

/-- The lines of a text. There is none behind a line feed at its end. -/
def lines (s : List Char) : List (List Char) :=
  let pieces := s.splitOn '\n'
  pieces.dropLast.map dropReturn ++ match pieces.getLast? with
    | some (c :: line) => [c :: line]
    | _ => []

/-- The name of a file before its last point, and what comes behind it. A point at the start of a name
does not count. -/
def splitExtension (name : List Char) : List Char × Option (List Char) :=
  match rsplitOnce '.' name with
  | some (stem, extension) => if stem = [] then (name, none) else (stem, some extension)
  | none => (name, none)

/-- Text without matches at its start starts as before. -/
theorem dropWhile_eq_self {p : α → Bool} {s : List α} (hhead : ∀ c, s.head? = some c → p c = false) :
    s.dropWhile p = s := by
  cases s with
  | nil => rfl
  | cons c s => exact List.dropWhile_cons_of_neg (ne_true_of_eq_false (hhead c rfl))

/-- Text without matches at its ends is trimmed already. -/
theorem trimMatches_eq_self {p : α → Bool} {s : List α} (hhead : ∀ c, s.head? = some c → p c = false)
    (hlast : ∀ c, s.getLast? = some c → p c = false) : trimMatches p s = s := by
  rw [trimMatches, dropWhile_eq_self hhead, dropWhile_eq_self, List.reverse_reverse]
  intro c hc
  rw [List.head?_reverse] at hc
  exact hlast c hc

/-- Trimming drops matches around text without matches at its ends. -/
theorem trimMatches_cons_append {p : α → Bool} {first last : α} {s : List α} (hfirst : p first = true)
    (hlast : p last = true) (hs : trimMatches p s = s) (hhead : s.dropWhile p = s) :
    trimMatches p (first :: (s ++ [last])) = s := by
  rw [trimMatches, List.dropWhile_cons_of_pos hfirst]
  cases s with
  | nil =>
    rw [List.nil_append, List.dropWhile_cons_of_pos hlast]
    rfl
  | cons c s =>
    have hc : p c ≠ true := by
      intro hc
      rw [List.dropWhile_cons_of_pos hc] at hhead
      have hlength := congrArg List.length hhead
      have hle := (List.dropWhile_sublist p (l := s)).length_le
      rw [List.length_cons] at hlength
      omega
    rw [List.cons_append, List.dropWhile_cons_of_neg hc, ← List.cons_append, List.reverse_append,
      List.reverse_singleton, List.singleton_append, List.dropWhile_cons_of_pos hlast]
    rw [trimMatches, hhead] at hs
    exact hs

/-- Matches in front of text are trimmed. -/
theorem trimMatches_append_left {p : α → Bool} {start s : List α} (hstart : ∀ c ∈ start, p c = true) :
    trimMatches p (start ++ s) = trimMatches p s := by
  rw [trimMatches, List.dropWhile_append_of_pos hstart, trimMatches]

/-- Matches behind text are trimmed. -/
theorem trimMatches_append_right {p : α → Bool} {s finish : List α} (hfinish : ∀ c ∈ finish, p c = true) :
    trimMatches p (s ++ finish) = trimMatches p s := by
  rw [trimMatches, trimMatches, List.dropWhile_append]
  split
  · rename_i hempty
    rw [List.isEmpty_iff.mp hempty, List.dropWhile_eq_nil_iff.mpr hfinish]
  · rw [List.reverse_append, List.dropWhile_append_of_pos fun c hc => hfinish c (List.mem_reverse.mp hc)]

/-- Text that does not start with white space is trimmed at its end only. -/
theorem trim_eq_trimEnd {s : List Char} (hhead : ∀ c, s.head? = some c → isWhitespace c = false) : trim s = trimEnd s := by
  rw [trim, trimMatches, dropWhile_eq_self hhead, trimEnd]

/-- White space was trimmed at the end. -/
theorem exists_eq_trimEnd_append (s : List Char) :
    ∃ blanks, (∀ c ∈ blanks, isWhitespace c = true) ∧ s = trimEnd s ++ blanks := by
  refine ⟨(s.reverse.takeWhile isWhitespace).reverse, fun c hc => List.mem_takeWhile_imp (List.mem_reverse.mp hc), ?_⟩
  rw [trimEnd, ← List.reverse_append, List.takeWhile_append_dropWhile, List.reverse_reverse]

/-- Trimming at the end is a part of trimming. -/
theorem trim_trimEnd (s : List Char) : trim (trimEnd s) = trim s := by
  obtain ⟨blanks, hblanks, hs⟩ := exists_eq_trimEnd_append s
  rw [trim, trim]
  conv_rhs => rw [hs]
  rw [trimMatches_append_right hblanks]

/-- What does not end with white space stays in front of text that is trimmed at its end. -/
theorem trimEnd_append {start : List Char} {c : Char} (hc : isWhitespace c = false) (s : List Char) :
    trimEnd (start ++ [c] ++ s) = start ++ [c] ++ trimEnd s := by
  rw [trimEnd, List.reverse_append, List.dropWhile_append]
  split
  · rename_i hempty
    rw [trimEnd, List.isEmpty_iff.mp hempty, List.reverse_append, List.reverse_singleton, List.singleton_append,
      List.dropWhile_cons_of_neg (ne_true_of_eq_false hc), List.reverse_cons, List.reverse_reverse, List.reverse_nil,
      List.append_nil]
  · rw [List.reverse_append, List.reverse_reverse, trimEnd]

/-- Text that is not all white space does not vanish when it is trimmed at its end. -/
theorem trimEnd_append_of_mem {start s : List Char} {c : Char} (hmem : c ∈ s) (hc : isWhitespace c = false) :
    trimEnd (start ++ s) = start ++ trimEnd s := by
  have hkept : ¬ (s.reverse.dropWhile isWhitespace).isEmpty = true := by
    intro hempty
    have hall := List.dropWhile_eq_nil_iff.mp (List.isEmpty_iff.mp hempty) c (List.mem_reverse.mpr hmem)
    exact absurd hall (ne_true_of_eq_false hc)
  rw [trimEnd, List.reverse_append, List.dropWhile_append, if_neg hkept, List.reverse_append, List.reverse_reverse, trimEnd]

/-- A text is white space around its trimmed text. -/
theorem exists_eq_trim (s : List Char) :
    ∃ before behind, s = before ++ trim s ++ behind ∧ (∀ c ∈ before, isWhitespace c = true) ∧
      ∀ c ∈ behind, isWhitespace c = true := by
  obtain ⟨behind, hbehind, hrest⟩ := exists_eq_trimEnd_append (s.dropWhile isWhitespace)
  refine ⟨s.takeWhile isWhitespace, behind, ?_, fun c hc => List.mem_takeWhile_imp hc, hbehind⟩
  have htrim : trim s = trimEnd (s.dropWhile isWhitespace) := rfl
  rw [htrim, List.append_assoc, ← hrest, List.takeWhile_append_dropWhile]

/-- What is trimmed was there. -/
theorem mem_of_mem_trim {s : List Char} {c : Char} (hc : c ∈ trim s) : c ∈ s := by
  obtain ⟨before, behind, heq, -⟩ := exists_eq_trim s
  rw [heq]
  exact List.mem_append_left behind (List.mem_append_right before hc)

/-- A trimmed text does not end with white space. -/
theorem isWhitespace_of_getLast?_trim {s : List Char} {c : Char} (hlast : (trim s).getLast? = some c) :
    isWhitespace c = false := by
  have hhead := List.head?_dropWhile_not isWhitespace (s.dropWhile isWhitespace).reverse
  rw [trim, trimMatches, List.getLast?_reverse] at hlast
  rw [hlast] at hhead
  exact hhead

/-- Nor does it start with white space. -/
theorem isWhitespace_of_head?_trim {s : List Char} {c : Char} (hfirst : (trim s).head? = some c) :
    isWhitespace c = false := by
  obtain ⟨behind, -, hrest⟩ := exists_eq_trimEnd_append (s.dropWhile isWhitespace)
  have hhead := List.head?_dropWhile_not isWhitespace s
  have htrim : trimEnd (s.dropWhile isWhitespace) = trim s := rfl
  rw [hrest, htrim, List.head?_append, hfirst] at hhead
  exact hhead

/-- Trimming leaves nothing of white space only. -/
theorem trim_eq_nil_iff {s : List Char} : trim s = [] ↔ ∀ c ∈ s, isWhitespace c = true := by
  rw [trim, trimMatches, List.reverse_eq_nil_iff, List.dropWhile_eq_nil_iff]
  constructor
  · intro h c hc
    by_contra hsolid
    rw [Bool.not_eq_true] at hsolid
    have hsurvives : c ∈ s.dropWhile isWhitespace := by
      rw [← List.takeWhile_append_dropWhile (p := isWhitespace) (l := s)] at hc
      refine (List.mem_append.mp hc).resolve_left fun htake => ?_
      rw [List.mem_takeWhile_imp htake] at hsolid
      cases hsolid
    rw [h c (List.mem_reverse.mpr hsurvives)] at hsolid
    cases hsolid
  · exact fun h c hc => h c ((List.dropWhile_suffix isWhitespace).subset (List.mem_reverse.mp hc))

/-- A text that does not end with white space stays. -/
theorem trimEnd_concat {c : Char} (hspace : isWhitespace c = false) (s : List Char) : trimEnd (s ++ [c]) = s ++ [c] := by
  have h := @trimEnd_append s c hspace []
  rwa [List.append_nil, show trimEnd [] = [] from rfl, List.append_nil] at h

/-- A line is trimmed alike with the carriage return at its end. -/
theorem trim_dropReturn (line : List Char) : trim (dropReturn line) = trim line := by
  rw [dropReturn, stripSuffix]
  split
  · rename_i hsuffix
    obtain ⟨start, rfl⟩ := hsuffix
    rw [List.length_append, List.length_singleton, Nat.add_sub_cancel, List.take_left, Option.getD_some, trim, trim,
      trimMatches_append_right]
    intro c hc
    rw [List.mem_singleton.mp hc]
    rfl
  · rfl

/-! ## What trimming leaves -/

/-- A character that is solid, or between solid ones. -/
def Survives (solid : α → Prop) (c : α) (s : List α) : Prop :=
  ∃ before after, s = before ++ c :: after ∧ (solid c ∨ ((∃ d ∈ before, solid d) ∧ ∃ d ∈ after, solid d))

namespace Survives

variable {solid : α → Prop} {c : α} {s : List α}

/-- It is there. -/
theorem mem (h : Survives solid c s) : c ∈ s := by
  obtain ⟨before, after, rfl, -⟩ := h
  exact List.mem_append_right before List.mem_cons_self

/-- A solid character survives. -/
theorem of_mem (hmem : c ∈ s) (hc : solid c) : Survives solid c s := by
  obtain ⟨before, after, rfl⟩ := List.append_of_mem hmem
  exact ⟨before, after, rfl, Or.inl hc⟩

/-- It survives behind other text. -/
theorem append_left (h : Survives solid c s) (start : List α) : Survives solid c (start ++ s) := by
  obtain ⟨before, after, rfl, hc⟩ := h
  refine ⟨start ++ before, after, (List.append_assoc _ _ _).symm, hc.imp_right fun ⟨hbefore, hafter⟩ => ⟨?_, hafter⟩⟩
  obtain ⟨d, hd, hsolid⟩ := hbefore
  exact ⟨d, List.mem_append_right start hd, hsolid⟩

/-- It survives in the reversed text. -/
theorem reverse (h : Survives solid c s) : Survives solid c s.reverse := by
  obtain ⟨before, after, rfl, hc⟩ := h
  refine ⟨after.reverse, before.reverse, by simp, hc.imp_right fun ⟨hbefore, hafter⟩ => ⟨?_, ?_⟩⟩
  · obtain ⟨d, hd, hsolid⟩ := hafter
    exact ⟨d, List.mem_reverse.mpr hd, hsolid⟩
  · obtain ⟨d, hd, hsolid⟩ := hbefore
    exact ⟨d, List.mem_reverse.mpr hd, hsolid⟩

/-- It survives in front of other text. -/
theorem append_right (h : Survives solid c s) (finish : List α) : Survives solid c (s ++ finish) := by
  have hreverse := (h.reverse.append_left finish.reverse).reverse
  rwa [List.reverse_append, List.reverse_reverse, List.reverse_reverse] at hreverse

/-- It survives when matches are dropped at the start, where no solid character matches. -/
theorem dropWhile (h : Survives solid c s) {p : α → Bool} (hp : ∀ d, solid d → p d = false) :
    Survives solid c (s.dropWhile p) := by
  obtain ⟨before, after, rfl, hc⟩ := h
  rw [List.dropWhile_append]
  split
  · rename_i hempty
    rcases hc with hc | ⟨⟨d, hd, hsolid⟩, -⟩
    · rw [List.dropWhile_cons_of_neg (ne_true_of_eq_false (hp c hc))]
      exact ⟨[], after, rfl, Or.inl hc⟩
    · have hmatch := List.dropWhile_eq_nil_iff.mp (List.isEmpty_iff.mp hempty) d hd
      exact absurd hmatch (ne_true_of_eq_false (hp d hsolid))
  · refine ⟨_, after, rfl, hc.imp_right fun ⟨⟨d, hd, hsolid⟩, hafter⟩ => ⟨⟨d, ?_, hsolid⟩, hafter⟩⟩
    rw [← List.takeWhile_append_dropWhile (p := p) (l := before)] at hd
    rcases List.mem_append.mp hd with hdropped | hkept
    · exact absurd (List.mem_takeWhile_imp hdropped) (ne_true_of_eq_false (hp d hsolid))
    · exact hkept

/-- It survives trimming. -/
theorem trimMatches (h : Survives solid c s) {p : α → Bool} (hp : ∀ d, solid d → p d = false) :
    Survives solid c (Common.trimMatches p s) :=
  ((h.dropWhile hp).reverse.dropWhile hp).reverse

end Survives

/-! ## Taking parts off -/

/-- Text is stripped of what it was put behind. -/
@[simp] theorem stripPrefix_append [DecidableEq α] (start s : List α) :
    stripPrefix start (start ++ s) = some s := by
  rw [stripPrefix, if_pos (List.prefix_append start s), List.drop_left]

/-- Text is stripped of what was put behind it. -/
@[simp] theorem stripSuffix_append [DecidableEq α] (s finish : List α) :
    stripSuffix finish (s ++ finish) = some s := by
  rw [stripSuffix, if_pos (List.suffix_append s finish), List.length_append, Nat.add_sub_cancel,
    List.take_left]

/-- What follows what the text starts with is the rest of it. -/
theorem stripPrefix_eq [DecidableEq α] {start s rest : List α} (hstrip : stripPrefix start s = some rest) :
    s = start ++ rest := by
  rw [stripPrefix] at hstrip
  split at hstrip
  · rename_i hprefix
    rw [← Option.some.inj hstrip, ← List.prefix_iff_eq_append.mp hprefix, List.drop_left]
  · exact absurd hstrip nofun

/-- Stripping makes text shorter by as much. -/
theorem stripPrefix_length [DecidableEq α] {start s rest : List α} (hstrip : stripPrefix start s = some rest) :
    rest.length + start.length = s.length := by
  rw [stripPrefix] at hstrip
  split at hstrip
  · rename_i hinitial
    cases hstrip
    have hle := hinitial.length_le
    rw [List.length_drop]
    omega
  · cases hstrip

/-- Stripping does not make text longer. -/
theorem stripSuffix_length_le [DecidableEq α] {finish s rest : List α}
    (hstrip : stripSuffix finish s = some rest) : rest.length ≤ s.length := by
  rw [stripSuffix] at hstrip
  split at hstrip
  · cases hstrip
    exact List.length_take_le' _ _
  · cases hstrip

/-- Trimming does not make text longer. -/
theorem trimMatches_length_le (p : α → Bool) (s : List α) : (trimMatches p s).length ≤ s.length := by
  rw [trimMatches, List.length_reverse]
  have hfirst := (List.dropWhile_sublist p (l := s)).length_le
  have hlast := (List.dropWhile_sublist p (l := (s.dropWhile p).reverse)).length_le
  rw [List.length_reverse] at hlast
  omega

/-- Text is split at a character that was not in its first part before. -/
theorem splitOnce_append [DecidableEq α] {c : α} {s : List α} (hc : c ∉ s) (rest : List α) :
    splitOnce c (s ++ c :: rest) = some (s, rest) := by
  have hne : ∀ x ∈ s, decide (x ≠ c) = true := fun x hx => decide_eq_true fun h => hc (h ▸ hx)
  rw [splitOnce, if_pos (List.mem_append_right s List.mem_cons_self),
    List.takeWhile_append_of_pos hne, List.dropWhile_append_of_pos hne,
    List.takeWhile_cons_of_neg (by simp), List.dropWhile_cons_of_neg (by simp), List.append_nil,
    List.tail_cons]

/-- Text is split at a character that is not in its last part any more. -/
theorem rsplitOnce_append [DecidableEq α] {c : α} {rest : List α} (hc : c ∉ rest) (s : List α) :
    rsplitOnce c (s ++ c :: rest) = some (s, rest) := by
  rw [rsplitOnce, List.reverse_append, List.reverse_cons, List.append_assoc, List.singleton_append,
    splitOnce_append (fun h => hc (List.mem_reverse.mp h)), Option.map_some, List.reverse_reverse,
    List.reverse_reverse]

/-- What is split at a character is that character between the parts. -/
theorem splitOnce_eq [DecidableEq α] {c : α} {s before rest : List α} (hsplit : splitOnce c s = some (before, rest)) :
    s = before ++ c :: rest ∧ c ∉ before := by
  by_cases hc : c ∈ s
  · obtain ⟨start, finish, rfl, hstart⟩ := List.eq_append_cons_of_mem hc
    rw [splitOnce_append hstart] at hsplit
    obtain ⟨rfl, rfl⟩ := Prod.mk.inj (Option.some.inj hsplit)
    exact ⟨rfl, hstart⟩
  · rw [splitOnce, if_neg hc] at hsplit
    exact absurd hsplit nofun

/-- The same at the last of a character. -/
theorem rsplitOnce_eq [DecidableEq α] {c : α} {s before rest : List α} (hsplit : rsplitOnce c s = some (before, rest)) :
    s = before ++ c :: rest ∧ c ∉ rest := by
  rw [rsplitOnce, Option.map_eq_some_iff] at hsplit
  obtain ⟨⟨start, finish⟩, hreverse, heq⟩ := hsplit
  obtain ⟨rfl, rfl⟩ := Prod.mk.inj heq
  obtain ⟨hs, hstart⟩ := splitOnce_eq hreverse
  rw [← List.reverse_reverse s, hs, List.reverse_append, List.reverse_cons, List.append_assoc]
  exact ⟨rfl, fun h => hstart (List.mem_reverse.mp h)⟩

/-- What is split at a text is that text between the parts. -/
theorem splitOnceText_eq [DecidableEq α] {sep s before rest : List α} (hsplit : splitOnceText sep s = some (before, rest)) :
    s = before ++ sep ++ rest := by
  induction s generalizing before with
  | nil => exact absurd hsplit nofun
  | cons c s ih =>
    rw [splitOnceText, stripPrefix] at hsplit
    split at hsplit
    · rename_i hstrip
      split at hstrip
      · rename_i hprefix
        obtain ⟨rfl, rfl⟩ := Prod.mk.inj (Option.some.inj hsplit)
        rw [← Option.some.inj hstrip, List.nil_append, List.prefix_iff_eq_append.mp hprefix]
      · exact absurd hstrip nofun
    · rw [Option.map_eq_some_iff] at hsplit
      obtain ⟨⟨start, finish⟩, htail, heq⟩ := hsplit
      obtain ⟨rfl, rfl⟩ := Prod.mk.inj heq
      rw [ih htail, List.cons_append, List.cons_append]

/-- Text without a character goes on to a place before the first of them. -/
theorem prefix_append_cons_iff {c : α} {start s rest : List α} (hc : c ∉ start) :
    start <+: s ++ c :: rest ↔ start <+: s := by
  refine ⟨fun hstart => ?_, fun hstart => hstart.trans (List.prefix_append s (c :: rest))⟩
  rcases List.prefix_or_prefix_of_prefix hstart (List.prefix_append s (c :: rest)) with hshort | ⟨more, rfl⟩
  · exact hshort
  · rw [List.prefix_append_right_inj] at hstart
    cases more with
    | nil => rw [List.append_nil]
    | cons d more =>
      obtain ⟨rfl, -⟩ := List.cons_prefix_cons.mp hstart
      exact absurd (List.mem_append_right s List.mem_cons_self) hc

/-- Text whose characters are all kept starts what is kept. -/
theorem prefix_takeWhile_iff {p : α → Bool} {start s : List α} (hstart : ∀ c ∈ start, p c = true) :
    start <+: s.takeWhile p ↔ start <+: s := by
  refine ⟨fun h => h.trans (List.takeWhile_prefix p), ?_⟩
  rintro ⟨rest, rfl⟩
  rw [List.takeWhile_append_of_pos hstart]
  exact List.prefix_append start _

/-- The extension of a name is what follows its last point. -/
theorem splitExtension_append {stem extension : List Char} (hstem : stem ≠ []) (hextension : '.' ∉ extension) :
    splitExtension (stem ++ '.' :: extension) = (stem, some extension) := by
  rw [splitExtension, rsplitOnce_append hextension]
  exact if_neg hstem

/-- A name without a point has no extension. -/
theorem splitExtension_of_notMem {name : List Char} (hname : '.' ∉ name) :
    splitExtension name = (name, none) := by
  rw [splitExtension, rsplitOnce, splitOnce, if_neg fun h => hname (List.mem_reverse.mp h)]
  rfl

/-- The name before an extension has only characters of the name. -/
theorem splitExtension_subset (name : List Char) : (splitExtension name).1 ⊆ name := by
  rw [splitExtension, rsplitOnce]
  cases hsplit : splitOnce '.' name.reverse with
  | none => exact List.Subset.refl name
  | some split =>
    obtain ⟨extension, stem⟩ := split
    rw [splitOnce] at hsplit
    split at hsplit
    · obtain ⟨-, rfl⟩ := Prod.mk.inj (Option.some.inj hsplit)
      rw [Option.map_some]
      dsimp only
      split
      · exact List.Subset.refl name
      · intro c hc
        have hdropped : c ∈ name.reverse.dropWhile (· ≠ '.') := List.mem_of_mem_tail (List.mem_reverse.mp hc)
        exact List.mem_reverse.mp ((List.dropWhile_sublist _).subset hdropped)
    · exact absurd hsplit nofun

/-- Text that is split at every occurrence of a character stays in one piece exactly when the
character does not occur. -/
theorem splitOn_length_eq_one_iff [DecidableEq α] (c : α) (s : List α) :
    (s.splitOn c).length = 1 ↔ c ∉ s := by
  constructor
  · intro hlength hc
    obtain ⟨before, rest, rfl⟩ := List.append_of_mem hc
    rw [List.splitOn_append_cons_self, List.length_append] at hlength
    have hbefore := List.length_pos_iff.mpr (List.splitOn_ne_nil c before)
    have hrest := List.length_pos_iff.mpr (List.splitOn_ne_nil c rest)
    omega
  · intro hc
    rw [List.splitOn_eq_singleton hc, List.length_singleton]

/-- The words of two texts with white space between them. -/
theorem splitWhitespace_append_cons (s rest : List Char) {c : Char} (hc : isWhitespace c = true) :
    splitWhitespace (s ++ c :: rest) = splitWhitespace s ++ splitWhitespace rest := by
  rw [splitWhitespace, List.splitOnP_append_cons s rest hc, List.filter_append]
  rfl

/-- Pieces do not have what the text was split at. -/
theorem notMem_of_mem_splitOn [DecidableEq α] {c : α} {s piece : List α} (hpiece : piece ∈ s.splitOn c) : c ∉ piece := by
  induction s generalizing piece with
  | nil =>
    rw [List.splitOn_nil, List.mem_singleton] at hpiece
    rw [hpiece]
    exact List.not_mem_nil
  | cons x s ih =>
    rw [List.splitOn_cons_eq_if_modifyHead] at hpiece
    obtain ⟨first, others, hsplit⟩ := List.exists_cons_of_ne_nil (List.splitOn_ne_nil c s)
    rw [hsplit] at ih hpiece
    split at hpiece
    · rcases List.mem_cons.mp hpiece with rfl | hpiece
      · exact List.not_mem_nil
      · exact ih hpiece
    · rename_i hx
      rw [List.modifyHead_cons] at hpiece
      rcases List.mem_cons.mp hpiece with rfl | hpiece
      · intro hc
        rcases List.mem_cons.mp hc with rfl | hc
        · exact hx BEq.rfl
        · exact ih List.mem_cons_self hc
      · exact ih (List.mem_cons_of_mem _ hpiece)

/-- A piece is a part of the pieces with a separator between them. -/
theorem isInfix_intercalate {sep piece : List α} {pieces : List (List α)} (hpiece : piece ∈ pieces) :
    piece <:+: sep.intercalate pieces := by
  induction pieces with
  | nil => cases hpiece
  | cons first pieces ih =>
    by_cases hnil : pieces = []
    · rw [hnil, List.mem_singleton] at hpiece
      rw [hnil, List.intercalate_singleton, hpiece]
    · rw [List.intercalate_cons_of_ne_nil hnil]
      rcases List.mem_cons.mp hpiece with rfl | hrest
      · rw [List.append_assoc]
        exact (List.prefix_append _ _).isInfix
      · exact (ih hrest).trans (List.suffix_append _ _).isInfix

/-- A piece is a part of the text. -/
theorem isInfix_of_mem_splitOn [DecidableEq α] {c : α} {s piece : List α} (hpiece : piece ∈ s.splitOn c) : piece <:+: s := by
  have hinfix : piece <:+: [c].intercalate (s.splitOn c) := isInfix_intercalate hpiece
  rwa [List.intercalate_splitOn] at hinfix

/-- Pieces are not longer than the text. -/
theorem length_le_of_mem_splitOn [DecidableEq α] {c : α} {s piece : List α} (hpiece : piece ∈ s.splitOn c) :
    piece.length ≤ s.length :=
  (isInfix_of_mem_splitOn hpiece).length_le

/-- What is in pieces with a separator between them is the separator or in a piece. -/
theorem eq_or_mem_of_mem_intercalate {c x : α} {pieces : List (List α)} (hc : c ∈ [x].intercalate pieces) :
    c = x ∨ ∃ piece ∈ pieces, c ∈ piece := by
  induction pieces with
  | nil =>
    rw [List.intercalate_nil] at hc
    cases hc
  | cons first pieces ih =>
    by_cases hnil : pieces = []
    · rw [hnil, List.intercalate_singleton] at hc
      exact Or.inr ⟨first, List.mem_cons_self, hc⟩
    · rw [List.intercalate_cons_of_ne_nil hnil, List.mem_append, List.mem_append, List.mem_singleton] at hc
      rcases hc with (hfirst | hsep) | hrest
      · exact Or.inr ⟨first, List.mem_cons_self, hfirst⟩
      · exact Or.inl hsep
      · exact (ih hrest).imp_right fun h => h.imp fun _ hpiece => ⟨List.mem_cons_of_mem _ hpiece.1, hpiece.2⟩

/-- Pieces with a separator between them start as the first piece does. -/
theorem head?_intercalate_cons (x : α) {first : List α} (hfirst : first ≠ []) (pieces : List (List α)) :
    ([x].intercalate (first :: pieces)).head? = first.head? := by
  by_cases hnil : pieces = []
  · rw [hnil, List.intercalate_singleton]
  · rw [List.intercalate_cons_of_ne_nil hnil, List.append_assoc, List.head?_append_of_ne_nil _ hfirst]

/-! ## Lines -/

/-- Pieces that are not empty are told apart when they are put together with a separator. -/
theorem intercalate_injective [DecidableEq α] (x : α) {pieces pieces' : List (List α)}
    (hpieces : ∀ piece ∈ pieces, piece ≠ [] ∧ x ∉ piece) (hpieces' : ∀ piece ∈ pieces', piece ≠ [] ∧ x ∉ piece)
    (h : [x].intercalate pieces = [x].intercalate pieces') : pieces = pieces' := by
  have hnil : ∀ {pieces : List (List α)}, (∀ piece ∈ pieces, piece ≠ [] ∧ x ∉ piece) →
      [x].intercalate pieces = [] → pieces = [] := by
    intro pieces hpieces hempty
    cases pieces with
    | nil => rfl
    | cons first pieces =>
      have hne := (hpieces first List.mem_cons_self).1
      have hhead := head?_intercalate_cons x hne pieces
      rw [hempty, List.head?_nil, eq_comm, List.head?_eq_none_iff] at hhead
      exact absurd hhead hne
  by_cases hempty : pieces = []
  · subst hempty
    exact (hnil hpieces' h.symm).symm
  · have hempty' : pieces' ≠ [] := fun hempty' => hempty (hnil hpieces (by rw [h, hempty']; rfl))
    rw [← List.splitOn_intercalate x (fun piece hpiece => (hpieces piece hpiece).2) hempty, h,
      List.splitOn_intercalate x (fun piece hpiece => (hpieces' piece hpiece).2) hempty']

/-- What does not depend on carriage returns, and is nothing for an empty line, is found in the pieces
between line breaks as in the lines. -/
theorem filterMap_lines {β : Type*} {f : List Char → Option β} (hreturn : ∀ line, f (dropReturn line) = f line)
    (hempty : f [] = none) (s : List Char) : (lines s).filterMap f = (s.splitOn '\n').filterMap f := by
  obtain ⟨init, last, hpieces⟩ : ∃ init last, s.splitOn '\n' = init ++ [last] := by
    obtain hnil | ⟨init, last, hconcat⟩ := List.eq_nil_or_concat (s.splitOn '\n')
    · exact absurd hnil (List.splitOn_ne_nil _ _)
    · exact ⟨init, last, by rw [hconcat, List.concat_eq_append]⟩
  have hinit : (init.map dropReturn).filterMap f = init.filterMap f := by
    rw [List.filterMap_map]
    exact congrArg (init.filterMap ·) (funext hreturn)
  unfold lines
  simp only [hpieces, List.dropLast_concat, List.getLast?_concat, List.filterMap_append, hinit]
  cases last with
  | nil => simp [hempty]
  | cons c last => rfl

/-- A line ends with a carriage return, which is dropped, or it does not and stays. -/
theorem dropReturn_cases (line : List Char) :
    line = dropReturn line ++ ['\r'] ∨ line.getLast? ≠ some '\r' ∧ dropReturn line = line := by
  unfold dropReturn stripSuffix
  by_cases hsuffix : ['\r'] <:+ line
  · obtain ⟨start, rfl⟩ := hsuffix
    simp
  · rw [if_neg hsuffix]
    refine .inr ⟨fun hlast => hsuffix ?_, rfl⟩
    exact List.singleton_suffix_iff_getLast?_eq_some.mpr hlast

/-- A line without a carriage return at its end stays. -/
theorem dropReturn_eq_self_iff {line : List Char} : dropReturn line = line ↔ line.getLast? ≠ some '\r' := by
  obtain heq | ⟨hlast, hself⟩ := dropReturn_cases line
  · refine iff_of_false (fun hself => ?_) (fun hlast => hlast ?_)
    · rw [hself] at heq
      simpa using congrArg List.length heq
    · rw [heq]
      exact List.getLast?_concat
  · exact iff_of_true hself hlast

/-- A line without the carriage return is the start of the line. -/
theorem dropReturn_isPrefix (line : List Char) : dropReturn line <+: line := by
  obtain heq | ⟨-, hself⟩ := dropReturn_cases line
  · exact ⟨['\r'], heq.symm⟩
  · rw [hself]

/-- The lines of a text with one more line behind it. -/
theorem lines_append_line {line : List Char} (hline : '\n' ∉ line) (s : List Char) :
    lines (s ++ '\n' :: (line ++ ['\n'])) = (s.splitOn '\n').map dropReturn ++ [dropReturn line] := by
  have hpieces : (s ++ '\n' :: (line ++ ['\n'])).splitOn '\n' = (s.splitOn '\n' ++ [line]) ++ [[]] := by
    rw [List.splitOn_append_cons_self, List.splitOn_append_cons_self, List.splitOn_eq_singleton hline, List.splitOn_nil,
      List.append_assoc]
  unfold lines
  simp only [hpieces, List.dropLast_concat, List.getLast?_concat, List.append_nil, List.map_append, List.map_cons,
    List.map_nil]

/-- The first line of a text. -/
theorem lines_append_cons {line : List Char} (hline : '\n' ∉ line) (rest : List Char) :
    lines (line ++ '\n' :: rest) = dropReturn line :: lines rest := by
  have hsplit : (line ++ '\n' :: rest).splitOn '\n' = line :: rest.splitOn '\n' := by
    rw [List.splitOn_append_cons_self, List.splitOn_eq_singleton hline, List.singleton_append]
  unfold lines
  simp only [hsplit, List.dropLast_cons_of_ne_nil (List.splitOn_ne_nil '\n' rest), List.map_cons, List.cons_append,
    List.getLast?_cons_of_ne_nil (List.splitOn_ne_nil '\n' rest)]

end Forge.Common
