/-
JSON values, as the tools take and return them.

A JSON string is UTF-8: a byte string that is not goes through `fixUTF8` on its way in, which is
LLVM's and a parameter.

A number is a 64-bit integer or a double, so a rational; a tool that asks for an integer gets
a number that is one.  An object is the list of its members.  The tools assign each member
once, so an assignment is an appended member here.
-/
import Mathlib.Algebra.Group.Int.Defs
import Mathlib.Algebra.Group.Nat.Defs
import Mathlib.Data.List.Infix
import Mathlib.Data.List.Sort
import Mathlib.Data.Rat.Defs
import Vycor.Lib.Dedup
import Vycor.Model.Str

namespace Vycor

/-! ### Strings -/

/-- `llvm::StringRef::contains`. -/
def strContains (s sub : Str) : Bool := decide (sub <:+: s)

/-- `llvm::StringRef::lower`: ASCII letters only. -/
def lower (s : Str) : Str := s.map fun b => if 65 ≤ b ∧ b ≤ 90 then b + 32 else b

/-- `std::sort` of strings. -/
def sortStrs (l : List Str) : List Str := l.mergeSort fun a b => !decide (b < a)

/-- The elements of a `std::set` of strings. -/
def strSet (l : List Str) : List Str := sortStrs (l.foldl Dedup.pushUnique [])

def decimalInt (n : Int) : Str := str (toString n)

/-! ### Values

Members are a list in the order they were set. A string that becomes a JSON
value is repaired where it is not UTF-8.
-/

/-- `llvm::json::Value`. A number is its value, be it an integer or a double. -/
inductive Json
  | null
  | bool (b : Bool)
  | number (value : Rat)
  | string (s : Str)
  | array (elems : List Json)
  | object (members : List (Str × Json))

/-- `llvm::json::Object`. -/
abbrev JsonObject := List (Str × Json)

namespace Json

def ofNat (n : Nat) : Json := number n

def ofInt (n : Int) : Json := number n

def strings (l : List Str) : Json := array (l.map string)

def asString : Json → Option Str
  | string s => some s
  | _ => none

end Json

namespace JsonObject

/-- The member under a key. -/
def get (obj : JsonObject) (key : Str) : Option Json := (obj.find? (·.1 = key)).map (·.2)

@[simp] theorem get_cons_self (key : Str) (value : Json) (rest : JsonObject) :
    get ((key, value) :: rest) key = some value := by
  simp [get]

theorem get_cons_of_ne {key key' : Str} (h : key' ≠ key) (value : Json) (rest : JsonObject) :
    get ((key', value) :: rest) key = get rest key := by
  simp [get, h]

def getString (obj : JsonObject) (key : Str) : Option Str :=
  match obj.get key with
  | some (.string s) => some s
  | _ => none

def getBoolean (obj : JsonObject) (key : Str) : Option Bool :=
  match obj.get key with
  | some (.bool b) => some b
  | _ => none

/-- An integer, or a double that is one. -/
def getInteger (obj : JsonObject) (key : Str) : Option Int :=
  match obj.get key with
  | some (.number value) =>
    if value.den = 1 ∧ -2 ^ 63 ≤ value.num ∧ value.num < 2 ^ 63 then some value.num else none
  | _ => none

def getArray (obj : JsonObject) (key : Str) : Option (List Json) :=
  match obj.get key with
  | some (.array elems) => some elems
  | _ => none

/-- The strings of an array; none when there is no array. -/
def getStrings (obj : JsonObject) (key : Str) : List Str :=
  ((obj.getArray key).getD []).filterMap Json.asString

end JsonObject

/-- `llvm::json::isUTF8`. -/
def isUTF8 (s : Str) : Bool := (ByteArray.mk s.toArray).validateUTF8

theorem isUTF8_str (s : String) : isUTF8 (str s) = true := by
  unfold isUTF8 str
  rw [Array.toArray_toList]
  exact ByteArray.validateUTF8_eq_true_iff.mpr s.isValidUTF8

/-- What a JSON value has of a string. -/
def utf8Text (fixUTF8 : Str → Str) (s : Str) : Str := if isUTF8 s then s else fixUTF8 s

/-- A string made a JSON value. -/
def jsonString (fixUTF8 : Str → Str) (s : Str) : Json := .string (utf8Text fixUTF8 s)

theorem utf8Text_of_utf8 {s : Str} (h : isUTF8 s = true) (fixUTF8 : Str → Str) :
    utf8Text fixUTF8 s = s :=
  if_pos h

/-- An array of strings made JSON values. -/
def jsonStrings (fixUTF8 : Str → Str) (l : List Str) : Json := .array (l.map (jsonString fixUTF8))

/-- A member under a key of the source. -/
def field (key : String) (value : Json) : Str × Json := (str key, value)

/-- A member that is there only under a condition. -/
def fieldIf (c : Prop) [Decidable c] (key : String) (value : Json) : JsonObject :=
  if c then [field key value] else []

/-- The response of a tool that went wrong. -/
def errorResult (message : Str) : Json := .object [field "error" (.string message)]

end Vycor
