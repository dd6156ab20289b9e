/-
Strings.

`std::string` is a sequence of bytes, which the indexes and the binary formats keep
verbatim.  So a string here is a list of bytes, compared byte by byte, and `str` spells
the few literals the source contains.  Only JSON reads bytes as text: a string that goes
into a value is repaired where it is not UTF-8, and the models of the tools say so where
that shows.
-/
import Mathlib.Data.List.Basic

namespace Vycor

/-- `std::string`: a byte sequence, ordered by unsigned bytes. -/
abbrev Str := List UInt8

/-- One way to compare strings, so that counting and membership agree on it. -/
instance (priority := 2000) : BEq Str := instBEqOfDecidableEq

instance (priority := 2000) : LawfulBEq Str := inferInstance

instance (priority := 2000) : LawfulBEq (Str × Str) := inferInstance

/-- A string literal of the source. -/
def str (s : String) : Str := s.toUTF8.data.toList

end Vycor
