import Forge.Common.Files
import Forge.Common.PathText
import Forge.Common.Utf8
import Forge.Executor.Task
import Mathlib.Algebra.GroupWithZero.Nat

/-!
# Response files

The arguments of a long command are put in a file, one behind the other, each with a line
feed behind it. An argument with blanks or quotes in it is quoted, and another one stands as
it is. So a line feed in an argument without blanks and quotes looks like the end of it.
-/

namespace Forge.Executor.ResponseFile

open Forge.Common

/-- The longest command line. -/
def maxCmdLen (windows : Bool) : ℕ := if windows then 4096 else 32768

/-- Whether the arguments are too long, or too many, for a command line. -/
def shouldUseResponseFile (windows : Bool) (args : List String) : Bool :=
  (args.map fun arg => (utf8Bytes arg).length + 1).sum > maxCmdLen windows || args.length > 100

/-- Whether an argument is quoted. -/
def isQuoted (arg : List Char) : Bool := arg.contains ' ' || arg.contains '\t' || arg.contains '"'

/-- Put a text for every one of a character. -/
def replace (c : Char) (text s : List Char) : List Char := s.flatMap fun d => if d = c then text else [d]

/-- An argument as it stands in the file. -/
def argText (arg : List Char) : List Char :=
  if isQuoted arg then ['"'] ++ replace '"' ['\\', '"'] (replace '\\' ['\\', '\\'] arg) ++ ['"'] else arg

/-- What is in the file. -/
def content (args : List String) : String := String.ofList (args.flatMap fun arg => argText arg.toList ++ ['\n'])

/-- A number as sixteen digits. -/
def hex16 (hash : UInt64) : String :=
  let digits := Nat.toDigits 16 hash.toNat
  String.ofList (List.replicate (16 - digits.length) '0' ++ digits)

/-- Write the file, under a name with a random number. Its directory is made, or the file is not written. -/
def writeResponseFile (io : Except String Unit) (files : Files String) (dir : String) (hash : UInt64) (args : List String) :
    Files String × Except String String :=
  match io with
  | .error message => (files, .error message)
  | .ok () =>
    let path := joinPath dir ("fish_args_" ++ hex16 hash ++ ".rsp")
    (files.insert path (utf8Bytes (content args)), .ok path)

/-- Put a file in the place of the arguments, when they are too long. -/
def adaptCommandForResponseFile (windows : Bool) (io : Except String Unit) (files : Files String) (spec : CommandSpec)
    (tempDir : String) (hash : UInt64) : Files String × CommandSpec × Except String (Option String) :=
  if !shouldUseResponseFile windows spec.args then (files, spec, .ok none)
  else
    match writeResponseFile io files tempDir hash spec.args with
    | (files, .error message) => (files, spec, .error message)
    | (files, .ok path) => (files, { spec with args := ["@" ++ path] }, .ok (some path))

example : content ["-o", "a b", "c\\d", "say \"\\\""] = "-o\n\"a b\"\nc\\d\n\"say \\\"\\\\\\\"\"\n" := by decide

/-! ## What the file says -/

/-- The arguments, where those that are not quoted are split at their line feeds. -/
def fileLines (args : List String) : List (List Char) :=
  args.flatMap fun arg => if isQuoted arg.toList then [arg.toList] else arg.toList.splitOn '\n'

/-- Read up to the quote at the end. -/
def readQuoted : List Char → Option (List Char × List Char)
  | [] => none
  | '"' :: rest => some ([], rest)
  | '\\' :: c :: rest => (readQuoted rest).map fun (arg, rest) => (c :: arg, rest)
  | c :: rest => (readQuoted rest).map fun (arg, rest) => (c :: arg, rest)

/-- A character in quotes. -/
theorem replace_cons (c : Char) (s : List Char) :
    replace '"' ['\\', '"'] (replace '\\' ['\\', '\\'] (c :: s)) =
      (if c = '\\' ∨ c = '"' then ['\\', c] else [c]) ++ replace '"' ['\\', '"'] (replace '\\' ['\\', '\\'] s) := by
  have hfirst : ∀ text, replace '\\' text (c :: s) = (if c = '\\' then text else [c]) ++ replace '\\' text s :=
    fun text => List.flatMap_cons
  rw [hfirst, replace, List.flatMap_append, ← replace, ← replace]
  congr 1
  by_cases hbackslash : c = '\\'
  · subst hbackslash
    rfl
  · rw [if_neg hbackslash]
    by_cases hquote : c = '"'
    · subst hquote
      rfl
    · rw [if_neg (not_or_intro hbackslash hquote), replace, List.flatMap_singleton, if_neg hquote]

/-- A quoted argument is read back. -/
theorem readQuoted_replace (arg rest : List Char) :
    readQuoted (replace '"' ['\\', '"'] (replace '\\' ['\\', '\\'] arg) ++ '"' :: rest) = some (arg, rest) := by
  induction arg with
  | nil => rfl
  | cons c arg ih =>
    rw [replace_cons, List.append_assoc]
    by_cases hescaped : c = '\\' ∨ c = '"'
    · rw [if_pos hescaped, List.cons_append, List.singleton_append, readQuoted, ih]
      rfl
    · rw [not_or] at hescaped
      rw [if_neg (not_or.mpr hescaped), List.singleton_append, readQuoted, ih]
      · rfl
      · exact hescaped.2
      · exact fun _ _ hbackslash _ => hescaped.1 hbackslash

/-- A line that is not quoted has no quote, and no line feed. -/
structure IsLine (line : List Char) : Prop where
  noQuote : isQuoted line = false
  noFeed : '\n' ∉ line

/-- What stands for an argument, or for a line of one, and what is behind it. -/
theorem argText_append_inj {arg arg' rest rest' : List Char} (harg : isQuoted arg = true ∨ IsLine arg)
    (harg' : isQuoted arg' = true ∨ IsLine arg') (h : argText arg ++ '\n' :: rest = argText arg' ++ '\n' :: rest') :
    arg = arg' ∧ rest = rest' := by
  have hmixed : ∀ {arg arg' rest rest' : List Char}, isQuoted arg = true → IsLine arg' →
      argText arg ++ '\n' :: rest ≠ argText arg' ++ '\n' :: rest' := by
    intro arg arg' rest rest' hquoted hline heq
    rw [argText, argText, if_pos hquoted, hline.noQuote, if_neg Bool.false_ne_true] at heq
    cases arg' with
    | nil => exact absurd (List.cons.inj heq).1 (by decide)
    | cons c arg' =>
      have hnone := hline.noQuote
      obtain rfl : '"' = c := (List.cons.inj heq).1
      rw [isQuoted, Bool.or_eq_false_iff] at hnone
      exact absurd (List.contains_iff_mem.mpr List.mem_cons_self) (ne_true_of_eq_false hnone.2)
  rcases harg with hquoted | hline
  · rcases harg' with hquoted' | hline'
    · rw [argText, argText, if_pos hquoted, if_pos hquoted'] at h
      simp only [List.cons_append, List.append_assoc, List.nil_append, List.cons.injEq, true_and] at h
      have hread := congrArg readQuoted h
      rw [readQuoted_replace, readQuoted_replace] at hread
      obtain ⟨rfl, hrest⟩ := Prod.mk.inj (Option.some.inj hread)
      exact ⟨rfl, (List.cons.inj hrest).2⟩
    · exact absurd h (hmixed hquoted hline')
  · rcases harg' with hquoted' | hline'
    · exact absurd h.symm (hmixed hquoted' hline)
    · rw [argText, argText, hline.noQuote, hline'.noQuote, if_neg Bool.false_ne_true, if_neg Bool.false_ne_true] at h
      have hsplit := splitOnce_append hline.noFeed rest
      rw [h, splitOnce_append hline'.noFeed] at hsplit
      obtain ⟨rfl, rfl⟩ := Prod.mk.inj (Option.some.inj hsplit)
      exact ⟨rfl, rfl⟩

/-- What stands for arguments, or for lines of them. -/
theorem flatMap_argText_inj {args args' : List (List Char)} (hargs : ∀ arg ∈ args, isQuoted arg = true ∨ IsLine arg)
    (hargs' : ∀ arg ∈ args', isQuoted arg = true ∨ IsLine arg)
    (h : (args.flatMap fun arg => argText arg ++ ['\n']) = args'.flatMap fun arg => argText arg ++ ['\n']) : args = args' := by
  induction args generalizing args' with
  | nil =>
    cases args' with
    | nil => rfl
    | cons arg' args' =>
      rw [List.flatMap_nil, List.flatMap_cons, List.append_assoc] at h
      exact absurd h.symm (List.append_ne_nil_of_right_ne_nil _ (List.cons_ne_nil _ _))
  | cons arg args ih =>
    cases args' with
    | nil =>
      rw [List.flatMap_nil, List.flatMap_cons, List.append_assoc] at h
      exact absurd h (List.append_ne_nil_of_right_ne_nil _ (List.cons_ne_nil _ _))
    | cons arg' args' =>
      obtain ⟨harg, htail⟩ := List.forall_mem_cons.mp hargs
      obtain ⟨harg', htail'⟩ := List.forall_mem_cons.mp hargs'
      rw [List.flatMap_cons, List.flatMap_cons, List.append_assoc, List.append_assoc] at h
      obtain ⟨rfl, hrest⟩ := argText_append_inj harg harg' h
      exact congrArg (List.cons arg) (ih htail htail' hrest)

/-- The lines of an argument that is not quoted are not quoted. -/
theorem isQuoted_of_mem_splitOn {arg line : List Char} (harg : ¬ isQuoted arg = true) (hline : line ∈ arg.splitOn '\n') :
    isQuoted line = false := by
  have hsub := (isInfix_of_mem_splitOn hline).subset
  by_contra hquoted
  rw [Bool.not_eq_false] at hquoted
  refine harg ?_
  simp only [isQuoted, Bool.or_eq_true, List.contains_iff_mem] at hquoted ⊢
  exact hquoted.imp (Or.imp (fun h => hsub h) fun h => hsub h) fun h => hsub h

/-- The lines of the file are quoted arguments and lines. -/
theorem fileLines_cases (args : List String) : ∀ line ∈ fileLines args, isQuoted line = true ∨ IsLine line := by
  intro line hline
  obtain ⟨arg, -, hmem⟩ := List.mem_flatMap.mp hline
  split at hmem
  · rename_i hquoted
    rw [List.mem_singleton.mp hmem]
    exact Or.inl hquoted
  · rename_i hplain
    exact Or.inr ⟨isQuoted_of_mem_splitOn hplain hmem, notMem_of_mem_splitOn hmem⟩

/-- Pieces with a line feed behind each of them. -/
theorem intercalate_append_feed {pieces : List (List Char)} (hpieces : pieces ≠ []) :
    ['\n'].intercalate pieces ++ ['\n'] = pieces.flatMap (· ++ ['\n']) := by
  induction pieces with
  | nil => exact absurd rfl hpieces
  | cons piece pieces ih =>
    by_cases hnil : pieces = []
    · subst hnil
      rw [List.intercalate_singleton, List.flatMap_cons, List.flatMap_nil, List.append_nil]
    · rw [List.intercalate_cons_of_ne_nil hnil, List.append_assoc, ih hnil, List.flatMap_cons]

/-- The file has the same text for the arguments and for its lines. -/
theorem content_eq (args : List String) :
    content args = String.ofList ((fileLines args).flatMap fun line => argText line ++ ['\n']) := by
  rw [content, fileLines, List.flatMap_assoc]
  refine congrArg String.ofList (List.flatMap_congr fun arg _ => ?_)
  by_cases hquoted : isQuoted arg.toList = true
  · rw [if_pos hquoted, List.flatMap_singleton]
  · have hlines : ∀ line ∈ arg.toList.splitOn '\n', argText line ++ ['\n'] = line ++ ['\n'] := by
      intro line hline
      rw [argText, isQuoted_of_mem_splitOn hquoted hline, if_neg Bool.false_ne_true]
    rw [if_neg hquoted, List.flatMap_congr hlines, argText, if_neg hquoted,
      ← intercalate_append_feed (List.splitOn_ne_nil '\n' arg.toList), List.intercalate_splitOn]

/-- Two lists of arguments make one file exactly when they have the same lines in it. -/
theorem content_eq_iff (args args' : List String) : content args = content args' ↔ fileLines args = fileLines args' := by
  rw [content_eq, content_eq]
  constructor
  · exact fun h => flatMap_argText_inj (fileLines_cases args) (fileLines_cases args') (String.ofList_injective h)
  · exact fun h => by rw [h]

/-- The bytes of the file that is written for arguments. -/
def writtenBytes (files : Files String) (dir : String) (hash : UInt64) (args : List String) : Option Bytes :=
  let (files, result) := writeResponseFile (.ok ()) files dir hash args
  match result with
  | .ok path => files.lookup path
  | .error _ => none

/-- The file has the arguments in it. -/
theorem writtenBytes_eq (files : Files String) (dir : String) (hash : UInt64) (args : List String) :
    writtenBytes files dir hash args = some (utf8Bytes (content args)) :=
  AList.lookup_insert _

/-- A command whose arguments are too long is given the name of the file with them. -/
theorem adaptCommandForResponseFile_file {windows : Bool} {files : Files String} {spec : CommandSpec} {tempDir : String}
    {hash : UInt64} (hlong : shouldUseResponseFile windows spec.args = true) :
    ∃ path, (adaptCommandForResponseFile windows (.ok ()) files spec tempDir hash).2 =
        ({ spec with args := ["@" ++ path] }, .ok (some path)) ∧
      (adaptCommandForResponseFile windows (.ok ()) files spec tempDir hash).1.lookup path =
        some (utf8Bytes (content spec.args)) := by
  refine ⟨joinPath tempDir ("fish_args_" ++ hex16 hash ++ ".rsp"), ?_, ?_⟩
  · rw [adaptCommandForResponseFile, hlong]
    rfl
  · rw [adaptCommandForResponseFile, hlong]
    exact AList.lookup_insert _

/-- The files of two lists of arguments are different exactly when the lists still are, where
arguments that are not quoted are split at their line feeds. -/
theorem writtenBytes_apart_iff (files files' : Files String) (dir dir' : String) (hash hash' : UInt64) (args args' : List String) :
    (args ≠ args' → writtenBytes files dir hash args ≠ writtenBytes files' dir' hash' args') ↔
      (args ≠ args' → fileLines args ≠ fileLines args') := by
  have hbytes : writtenBytes files dir hash args = writtenBytes files' dir' hash' args' ↔ fileLines args = fileLines args' := by
    rw [writtenBytes_eq, writtenBytes_eq, Option.some.injEq, utf8Bytes_injective.eq_iff, content_eq_iff]
  rw [Ne, Ne, Ne, hbytes]

/-- Two arguments, and one argument of two lines, make the same file. -/
theorem not_writtenBytes_apart :
    ¬ ∀ args args' : List String, args ≠ args' → writtenBytes ∅ "tmp" 0 args ≠ writtenBytes ∅ "tmp" 0 args' := by
  intro h
  refine h ["a\nb"] ["a", "b"] (by decide) ?_
  rw [writtenBytes_eq, writtenBytes_eq]
  decide

/-- Arguments without line feeds, if they are not quoted, are the lines of their file. -/
theorem fileLines_eq_map {args : List String} (hargs : ∀ arg ∈ args, isQuoted arg.toList = true ∨ '\n' ∉ arg.toList) :
    fileLines args = args.map String.toList := by
  rw [fileLines, List.map_eq_flatMap]
  refine List.flatMap_congr fun arg harg => ?_
  split
  · rfl
  · rename_i hplain
    exact List.splitOn_eq_singleton ((hargs arg harg).resolve_left hplain)

/-- Different lists of such arguments make different files. -/
theorem content_inj_of_lines {args args' : List String} (hargs : ∀ arg ∈ args, isQuoted arg.toList = true ∨ '\n' ∉ arg.toList)
    (hargs' : ∀ arg ∈ args', isQuoted arg.toList = true ∨ '\n' ∉ arg.toList) (h : content args = content args') :
    args = args' := by
  rw [content_eq_iff, fileLines_eq_map hargs, fileLines_eq_map hargs'] at h
  exact List.map_injective_iff.mpr (fun _ _ h => String.toList_injective h) h

end Forge.Executor.ResponseFile
