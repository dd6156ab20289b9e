/-
Types as strings.

The index has the types of parameters as the printer spells them, and the checks compare
spellings: qualifiers, trailing references and whitespace are taken out first.  What is left is
looked up in a list of arithmetic types, and a pointer is told by its last character.
-/
import Mathlib.Data.List.DropRight
import Vycor.Model.Str

namespace Vycor

/-- `std::isalnum` or an underscore. -/
def isIdent (c : UInt8) : Bool :=
  (48 ≤ c && c ≤ 57) || (65 ≤ c && c ≤ 90) || (97 ≤ c && c ≤ 122) || c = 95

/-- A space, tab, line feed or carriage return. -/
def isTypeBlank (c : UInt8) : Bool := c = 32 || c = 9 || c = 10 || c = 13

/-- No identifier goes on here. -/
def isBoundary : Option UInt8 → Bool
  | none => true
  | some c => !isIdent c

/-- Erase a keyword where it stands alone; `before` is the character that is left before the
text.  What follows an erased keyword is looked at where the keyword stood. -/
def stripKeyword (kw : Str) (before : Option UInt8) : Str → Str
  | [] => []
  | c :: rest =>
    if kw.isPrefixOf (c :: rest) then
      let tail := rest.drop (kw.length - 1)
      if isBoundary before && isBoundary tail.head? then stripKeyword kw before tail
      else kw ++ stripKeyword kw kw.getLast? tail
    else c :: stripKeyword kw (some c) rest
termination_by s => s.length
decreasing_by
  all_goals simp only [List.length_cons, List.length_drop]
  all_goals omega

/-- The type without qualifiers, references and blanks. -/
def normalizeTypeForMatching (type : Str) : Str :=
  let s := stripKeyword (str "volatile") none (stripKeyword (str "const") none type)
  (s.rdropWhile (· = 38)).filter (!isTypeBlank ·)

def normalizeAll (raw : List Str) : List Str := raw.map normalizeTypeForMatching

/-- The names of the arithmetic types, after normalization. -/
def arithmeticTypeNames : List Str :=
  [str "bool", str "char", str "signedchar", str "unsignedchar", str "wchar_t", str "char8_t",
    str "char16_t", str "char32_t", str "short", str "shortint", str "unsignedshort",
    str "unsignedshortint", str "int", str "unsigned", str "unsignedint", str "long",
    str "longint", str "unsignedlong", str "unsignedlongint", str "longlong", str "longlongint",
    str "unsignedlonglong", str "unsignedlonglongint", str "float", str "double",
    str "longdouble"]

/-- The spelling is a built-in arithmetic type's. -/
def isArithmeticTypeName (normalized : Str) : Bool := normalized ∈ arithmeticTypeNames

/-- Without one trailing `*`. -/
def stripPointer (s : Str) : Str := if s.getLast? = some 42 then s.dropLast else s

end Vycor
