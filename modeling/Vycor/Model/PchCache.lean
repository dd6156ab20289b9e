/-
Precompiled headers in compile commands.

`isPchSourceInclude` finds the headers that are compiled ahead, `extractPchCompileFlags` makes
the command that compiles one of a command that uses it, and two argument adjusters change the
commands themselves: one puts the compiled header in, the other takes it out.  Each of them goes
over the arguments by itself, with its own idea of what such an include looks like.

Compiling, the file system and the names of the cached files are not modelled: a cache is the
map that compiling has filled.
-/
import Vycor.Lib.ArgScan
import Vycor.Lib.UMap
import Vycor.Model.Json

namespace Vycor

open ArgScan

def startsWith (s start : Str) : Bool := start.isPrefixOf s

def endsWith (s ending : Str) : Bool := ending.isSuffixOf s

/-! ### Detection -/

/-- The header included at the front of the arguments, and how many further arguments belong
to it.  The path follows `-include` at once or as the next argument. -/
def includedPch (arg : Str) (rest : List Str) (skip : Nat) : Option (Str × Nat) :=
  if startsWith arg (str "-include-pch") then none
  else if startsWith arg (str "-include") && 8 < arg.length then
    if strContains (arg.drop 8) (str "pch") then some (arg.drop 8, skip) else none
  else if arg = str "-include" then
    match rest with
    | path :: _ => if strContains path (str "pch") then some (path, skip + 1) else none
    | [] => none
  else none

/-- An `-Xarch_*` in front is passed over. -/
def isPchSourceInclude : List Str → Option (Str × Nat)
  | [] => none
  | [arg] => includedPch arg [] 0
  | arg :: next :: rest =>
    if startsWith arg (str "-Xarch_") then includedPch next rest 1
    else includedPch arg (next :: rest) 0

/-! ### The command for the header -/

/-- The endings of source files. -/
def sourceEndings : List Str :=
  [str ".cpp", str ".cc", str ".c", str ".cxx", str ".o", str ".obj"]

/-- A source or object file, by its name. -/
def isFileName (arg : Str) : Bool :=
  sourceEndings.any (endsWith arg) && !startsWith arg (str "-")

/-- Flags about outputs, which the header's command does without. -/
def skipFlags : List Str :=
  [str "-c", str "-o", str "-MT", str "-MF", str "-MQ", str "-MD", str "-MMD", str "-MP"]

/-- Flags meant to take their operand along. -/
def skipWithNext : List Str := [str "-o", str "-MT", str "-MF", str "-MQ"]

/-- `-include` and something with `pch` in it, in one argument. -/
def mentionsPch (arg : Str) : Bool :=
  startsWith arg (str "-include") && strContains arg (str "pch")

/-- What becomes of an argument in the command for the header. -/
def extractStep : List Str → Option (List Str × Nat)
  | [] => none
  | arg :: rest =>
    if isFileName arg then some ([], 0)
    else if arg ∈ skipFlags then some ([], 0)
    else if arg ∈ skipWithNext then some ([], 1)
    else if mentionsPch arg then some ([], if arg = str "-include" then 1 else 0)
    else if startsWith arg (str "-Xarch_") && rest.head?.any mentionsPch then some ([], 1)
    else if arg = str "-Winvalid-pch" then some ([], 0)
    else none

/-- What of a TU's arguments its PCH is compiled with. -/
def extractPchCompileFlags (tuArgs : List Str) : List Str := scan extractStep 0 tuArgs

/-! ### The adjusters

An adjuster is a filter over the arguments, said argument by argument: what
takes its place, and how many behind it are dealt with.
-/

/-- The source headers and what they are compiled to. -/
structure PchCache where
  cache : UMap Str Str := ∅

/-- The compiled header, empty where there is none. -/
def PchCache.getCompiledPch (cache : PchCache) (pchSourceHeader : Str) : Str :=
  cache.cache.getD pchSourceHeader []

/-- The compiled header in place of an include: the path is the rest of the argument or, for
the bare flag, the next argument. -/
def replaceInclude (cache : PchCache) (arg : Str) (rest : List Str) (skip : Nat) :
    Option (List Str × Nat) :=
  if startsWith arg (str "-include") && !startsWith arg (str "-include-pch")
      && strContains arg (str "pch") then
    let pchSrc := if 8 < arg.length then arg.drop 8 else rest.head?.getD []
    let compiled := cache.getCompiledPch pchSrc
    if compiled ≠ [] then
      some ([str "-include-pch", compiled], if arg = str "-include" then skip + 1 else skip)
    else none
  else none

/-- What the cache's adjuster makes of an argument. -/
def pchCacheStep (cache : PchCache) : List Str → Option (List Str × Nat)
  | [] => none
  | [arg] => replaceInclude cache arg [] 0
  | arg :: next :: rest =>
    (if startsWith arg (str "-Xarch_") then replaceInclude cache next rest 1 else none).or
      (replaceInclude cache arg (next :: rest) 0)

/-- The arguments as they are parsed with a PCH at hand. -/
def getPchCacheAdjuster (cache : PchCache) (args : List Str) : List Str :=
  scan (pchCacheStep cache) 0 args

/-- The flags that go. -/
def stripFlags : List Str := [str "-gmodules", str "-fmodules", str "-fcxx-modules", str "-Werror"]

/-- Those that take their operand with them. -/
def stripWithNext : List Str := [str "-fmodule-file", str "-fmodules-cache-path"]

/-- What the strip adjuster makes of an argument. -/
def stripStep (stripPch : Bool) : List Str → Option (List Str × Nat)
  | [] => none
  | arg :: rest =>
    if arg ∈ stripFlags then some ([], 0)
    else if arg ∈ stripWithNext then some ([], 1)
    else if stripPch && arg = str "-include-pch" then some ([], 1)
    else if stripPch && (arg = str "-Xarch_arm64" || arg = str "-Xarch_x86_64")
        && rest.head?.any mentionsPch then some ([], 1)
    else if stripPch && mentionsPch arg then some ([], if arg = str "-include" then 1 else 0)
    else none

/-- The arguments without what the tool does not take. -/
def getStripIncompatibleFlagsAdjuster (stripPch : Bool) (args : List Str) : List Str :=
  scan (stripStep stripPch) 0 args

end Vycor
