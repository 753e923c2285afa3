import Forge.Common.PathText
import Forge.Common.Utf8

/-!
# C and C++ projects and the commands for them

The configuration of a project names its sources and the directories of its headers
relative to the directory of the project. Each source is compiled to an object, and the
objects are linked or put into an archive. The arguments differ with the family of the
compiler and with what is made.
-/

namespace Forge.Backend.Cc

open Forge.Common

/-- The languages. -/
inductive CcLanguage where
  | c
  | cpp
deriving DecidableEq, Repr

/-- What is made of the objects. -/
inductive CcOutputType where
  | executable
  | staticLib
  | sharedLib
deriving DecidableEq, Repr

/-- The configuration of a project. -/
structure CcProjectConfig where
  name : String
  language : CcLanguage
  sources : List String
  includes : List String
  cflags : List String
  cxxflags : List String
  ldflags : List String
  outputType : CcOutputType
deriving DecidableEq, Repr

namespace CcProjectConfig

/-- The paths of the sources. -/
def resolveSources (config : CcProjectConfig) (baseDir : String) : List String :=
  config.sources.map (joinPath baseDir)

/-- The paths of the directories of headers. -/
def resolveIncludes (config : CcProjectConfig) (baseDir : String) : List String :=
  config.includes.map (joinPath baseDir)

end CcProjectConfig

/-- The families of compilers. -/
inductive CompilerFamily where
  | gcc
  | clang
  | msvc
  | generic
deriving DecidableEq, Repr

/-- The compiler that was found. -/
structure CcCompiler where
  executable : String
  family : CompilerFamily
  version : String
  language : CcLanguage
deriving DecidableEq, Repr

/-- A path without what marks long paths on Windows. -/
def cleanPath (path : String) : String :=
  match stripPrefix "\\\\?\\".toList path.toList with
  | some rest => String.ofList rest
  | none =>
    match stripPrefix "//?/".toList path.toList with
    | some rest => String.ofList rest
    | none => path

/-- The extension of objects. -/
def objectExtension (isMsvc : Bool) : String :=
  if isMsvc then "obj" else "o"

namespace CcCompiler

variable (compiler : CcCompiler)

/-- The command that compiles a source. -/
def compileObjectArgs (source outputObject : String) (includes flags : List String) (depfile : Option String) :
    String × List String :=
  let srcClean := cleanPath source
  let outClean := cleanPath outputObject
  match compiler.family with
  | .msvc =>
    (compiler.executable,
      ["/c", srcClean, "/Fo" ++ outClean] ++ (includes.map fun inc => "/I" ++ cleanPath inc) ++ flags)
  | _ =>
    (compiler.executable,
      ["-c", srcClean, "-o", outClean] ++ (includes.flatMap fun inc => ["-I", cleanPath inc]) ++
        (match depfile with
          | some depfile => ["-MMD", "-MF", cleanPath depfile]
          | none => []) ++ flags)

/-- The command that links objects, or puts them into an archive. -/
def linkArgs (objects : List String) (outputPath : String) (ldflags : List String) (outputType : CcOutputType) :
    String × List String :=
  let outClean := cleanPath outputPath
  match outputType with
  | .executable =>
    match compiler.family with
    | .msvc => (compiler.executable, ["/Fe" ++ outClean] ++ objects.map cleanPath ++ ldflags)
    | _ => (compiler.executable, ["-o", outClean] ++ objects.map cleanPath ++ ldflags)
  | .staticLib =>
    match compiler.family with
    | .msvc => ("lib", ["/OUT:" ++ outClean] ++ objects.map cleanPath)
    | _ => ("ar", ["rcs", outClean] ++ objects.map cleanPath)
  | .sharedLib =>
    match compiler.family with
    | .msvc => (compiler.executable, ["/LD", "/Fe" ++ outClean] ++ objects.map cleanPath ++ ldflags)
    | _ => (compiler.executable, ["-shared", "-o", outClean] ++ objects.map cleanPath ++ ldflags)

/-- The argument of a link command that names what is made. -/
def outputArg (outputPath : String) (outputType : CcOutputType) : String :=
  match outputType, compiler.family with
  | .staticLib, .msvc => "/OUT:" ++ cleanPath outputPath
  | _, .msvc => "/Fe" ++ cleanPath outputPath
  | _, _ => cleanPath outputPath

/-- The flags of a project that reach its link command. Archives take none. -/
def usedFlags (ldflags : List String) : CcOutputType → List String
  | .staticLib => []
  | _ => ldflags

/-- The fixed words of link commands. -/
def linkWords : List String := ["-o", "rcs", "/LD", "-shared"]

/-- A link command has some fixed words, what is made, all objects in their order, and the flags. -/
theorem linkArgs_eq (objects : List String) (outputPath : String) (ldflags : List String) (outputType : CcOutputType) :
    ∃ words, words ⊆ linkWords ∧
      (compiler.linkArgs objects outputPath ldflags outputType).2 =
        words ++ [compiler.outputArg outputPath outputType] ++ objects.map cleanPath ++ usedFlags ldflags outputType := by
  unfold linkArgs outputArg usedFlags
  cases outputType <;> cases compiler.family
  case executable.msvc => exact ⟨[], by decide, rfl⟩
  case staticLib.msvc => exact ⟨[], by decide, by simp⟩
  case sharedLib.msvc => exact ⟨["/LD"], by decide, rfl⟩
  case executable.gcc => exact ⟨["-o"], by decide, rfl⟩
  case executable.clang => exact ⟨["-o"], by decide, rfl⟩
  case executable.generic => exact ⟨["-o"], by decide, rfl⟩
  case staticLib.gcc => exact ⟨["rcs"], by decide, by simp⟩
  case staticLib.clang => exact ⟨["rcs"], by decide, by simp⟩
  case staticLib.generic => exact ⟨["rcs"], by decide, by simp⟩
  case sharedLib.gcc => exact ⟨["-shared", "-o"], by decide, rfl⟩
  case sharedLib.clang => exact ⟨["-shared", "-o"], by decide, rfl⟩
  case sharedLib.generic => exact ⟨["-shared", "-o"], by decide, rfl⟩

end CcCompiler

/-! ## Clean paths -/

/-- What is stripped from the start of a text is stripped from longer texts as well. -/
theorem stripPrefix_append_right {start s : List Char} (hlength : start.length ≤ s.length) (rest : List Char) :
    stripPrefix start (s ++ rest) = (stripPrefix start s).map (· ++ rest) := by
  unfold stripPrefix
  by_cases hstart : start <+: s
  · have hlonger : start <+: s ++ rest := hstart.trans (List.prefix_append s rest)
    rw [if_pos hlonger, if_pos hstart, Option.map_some, List.drop_append_of_le_length hlength]
  · have hlonger : ¬ start <+: s ++ rest := by
      intro hprefix
      exact hstart (List.prefix_of_prefix_length_le hprefix (List.prefix_append s rest) hlength)
    rw [if_neg hlonger, if_neg hstart, Option.map_none]

/-- The start of a path decides what is stripped from it. -/
theorem cleanPath_append {s : String} (hlength : 4 ≤ s.toList.length) (rest : String) :
    cleanPath (s ++ rest) = cleanPath s ++ rest := by
  have hbackslashes : "\\\\?\\".toList.length ≤ s.toList.length := hlength
  have hslashes : "//?/".toList.length ≤ s.toList.length := hlength
  unfold cleanPath
  rw [String.toList_append, stripPrefix_append_right hbackslashes, stripPrefix_append_right hslashes]
  cases stripPrefix "\\\\?\\".toList s.toList with
  | some stripped =>
    apply String.toList_injective
    simp
  | none =>
    cases stripPrefix "//?/".toList s.toList with
    | some stripped =>
      apply String.toList_injective
      simp
    | none => rfl

end Forge.Backend.Cc
