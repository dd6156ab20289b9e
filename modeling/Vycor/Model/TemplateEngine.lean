/-
Replacement templates: text with expressions, each a bound node and a chain of pipes.

A template is parsed once and evaluated for each match.  The parser cuts it at the marks of
its expressions, an expression at its pipes, and a pipe at its parentheses.  Of a match the
evaluation asks for the nodes bound in it, and of a node for its source text, its name where it
is a declaration, and the operands of its operators where it is an expression.
-/
import Vycor.Lib.Scan
import Vycor.Model.Json

namespace Vycor

/-! ### Templates -/

/-- A pipe with its argument, empty where there is none. -/
structure PipeOp where
  name : Str
  arg : Str
deriving DecidableEq

/-- A node id and the pipes its text goes through. -/
structure TemplateExpr where
  nodeId : Str
  pipes : List PipeOp := []
deriving DecidableEq

/-- The text around the expressions, and the expressions. -/
structure ParsedTemplate where
  literals : List Str := []
  exprs : List TemplateExpr := []
deriving DecidableEq

namespace TemplateEngine

def quote : UInt8 := 34
def openParen : UInt8 := 40
def closeParen : UInt8 := 41
def bar : UInt8 := 124
def openBrace : UInt8 := 123
def closeBrace : UInt8 := 125

/-- What `llvm::StringRef::trim` takes away: blank, tab, and the line and page breaks. -/
def isSpace (b : UInt8) : Bool := b ∈ [32, 9, 10, 11, 12, 13]

def trim (s : Str) : Str := Scan.trim isSpace s

/-! ### Parsing

An expression is what stands between two opening and two closing braces, split
at the bars outside quotes.
-/

/-- The argument without the quotes around it. -/
def unquote (argRaw : Str) : Str :=
  if 2 ≤ argRaw.length ∧ argRaw.head? = some quote ∧ argRaw.getLast? = some quote then
    (argRaw.drop 1).take (argRaw.length - 2)
  else argRaw

/-- One pipe: a name, or a name and an argument up to the last parenthesis. -/
def parsePipeOp (raw : Str) : Except Str PipeOp :=
  let raw := trim raw
  if raw = [] then .error (str "empty pipe operation")
  else
    match raw.findIdx? (· = openParen) with
    | none => .ok { name := raw, arg := [] }
    | some parenPos =>
      let name := trim (raw.take parenPos)
      let rest := raw.drop (parenPos + 1)
      match Scan.rfind closeParen rest with
      | none => .error (str "unclosed parenthesis in pipe: " ++ name)
      | some closePos => .ok { name, arg := unquote (trim (rest.take closePos)) }

/-- Split an expression at the bars outside quotes. -/
def splitPipes (body : Str) : List Str := Scan.splitOutside quote bar false [] body

/-- What stands between the marks: a node id, then pipes. -/
def parseExpr (exprBody : Str) : Except Str TemplateExpr :=
  match splitPipes exprBody with
  | [] => .error (str "empty expression in template")
  | first :: pipes =>
    let nodeId := trim first
    if nodeId = [] then .error (str "empty node ID in template expression")
    else
      match pipes.mapM parsePipeOp with
      | .error message => .error message
      | .ok pipes => .ok { nodeId, pipes }

/-- Read literals and expressions in turn until nothing remains. -/
def parseRemaining (remaining : Str) (result : ParsedTemplate) : Except Str ParsedTemplate :=
  if remaining = [] then .ok result
  else
    match Scan.find [openBrace, openBrace] remaining with
    | none => .ok { result with literals := result.literals ++ [remaining] }
    | some openPos =>
      let rest := remaining.drop (openPos + 2)
      match Scan.find [closeBrace, closeBrace] rest with
      | none => .error (str "unclosed \x7b\x7b in template")
      | some closePos =>
        match parseExpr (rest.take closePos) with
        | .error message => .error message
        | .ok expr =>
          parseRemaining (rest.drop (closePos + 2))
            { literals := result.literals ++ [remaining.take openPos]
              exprs := result.exprs ++ [expr] }
termination_by remaining.length
decreasing_by
  have hpos := List.length_pos_of_ne_nil ‹_›
  simp only [List.length_drop]
  omega

/-- A template that ends in an expression ends in an empty literal. -/
def parseTemplate (templateStr : Str) : Except Str ParsedTemplate :=
  match parseRemaining templateStr {} with
  | .error message => .error message
  | .ok result =>
    if result.literals.length = result.exprs.length then
      .ok { result with literals := result.literals ++ [[]] }
    else .ok result

/-! ### Evaluation

The value of an expression is a text or a list of texts, and a pipe that does
not fit the value it is given is an error.
-/

/-- An expression without its implicit casts: a binary operator, or anything else. -/
inductive MatchedExpr
  | binary (opcode : Str) (lhs rhs : MatchedExpr) (text : Str)
  | other (text : Str)

namespace MatchedExpr

def text : MatchedExpr → Str
  | binary _ _ _ text => text
  | other text => text

/-- The operands of a chain of one operator, from left to right. -/
def flattenBinOp (op : Str) : MatchedExpr → List Str
  | binary opcode lhs rhs text =>
    if opcode = op then lhs.flattenBinOp op ++ rhs.flattenBinOp op else [text]
  | other text => [text]

end MatchedExpr

/-- A node bound in a match. -/
structure BoundNode where
  sourceText : Str
  /-- The qualified name of a `NamedDecl`. -/
  qualifiedName : Option Str := none
  /-- The node as an `Expr`. -/
  expr : Option MatchedExpr := none

/-- The nodes bound in a match, by id. -/
abbrev MatchResult := Str → Option BoundNode

/-- The value of a chain so far. -/
inductive PipeValue
  | none
  | text (value : Str)
  | list (values : List Str)

/-- `llvm::join`. -/
def join (values : List Str) (separator : Str) : Str := separator.intercalate values

/-- One pipe. -/
def applyPipe (nodeId : Str) (node : BoundNode) (value : PipeValue) (pipe : PipeOp) :
    Except Str PipeValue :=
  if pipe.name = str "text" then
    match value with
    | .none => .ok (.text node.sourceText)
    | _ => .error (str "'text' must be first in pipe chain")
  else if pipe.name = str "name" then
    match value, node.qualifiedName with
    | .none, some name => .ok (.text name)
    | .none, none => .error (str "node '" ++ nodeId ++ str "' is not a NamedDecl for 'name' pipe")
    | _, _ => .error (str "'name' must be first in pipe chain")
  else if pipe.name = str "flatten" then
    match value, node.expr with
    | .none, some expr => .ok (.list (expr.flattenBinOp pipe.arg))
    | .none, none => .error (str "node '" ++ nodeId ++ str "' is not an Expr for 'flatten' pipe")
    | _, _ => .error (str "'flatten' must be first in pipe chain")
  else if pipe.name = str "join" then
    match value with
    | .list values => .ok (.text (join values pipe.arg))
    | _ => .error (str "'join' requires a preceding list-producing pipe")
  else .error (str "unknown pipe operation: " ++ pipe.name)

/-- The text of an expression: a node's source text where there is no pipe. -/
def evaluateExpr (texpr : TemplateExpr) (result : MatchResult) : Except Str Str :=
  match result texpr.nodeId with
  | none => .error (str "bound node not found: " ++ texpr.nodeId)
  | some node =>
    if texpr.pipes = [] then .ok node.sourceText
    else
      match texpr.pipes.foldlM (applyPipe texpr.nodeId node) .none with
      | .error message => .error message
      | .ok .none => .ok []
      | .ok (.text value) => .ok value
      | .ok (.list values) => .ok (join values [])

/-- The expressions from one on, each with the literal behind it; none when it reads past the
literals. -/
def evaluateFrom (tmpl : ParsedTemplate) (result : MatchResult) :
    Nat → List TemplateExpr → Str → Option (Except Str Str)
  | _, [], output => some (.ok output)
  | i, expr :: rest, output =>
    match evaluateExpr expr result with
    | .error message => some (.error message)
    | .ok value =>
      match tmpl.literals[i + 1]? with
      | none => none
      | some literal => evaluateFrom tmpl result (i + 1) rest (output ++ value ++ literal)

/-- Literals and expressions in turn, up to the first error. -/
def evaluateTemplate (tmpl : ParsedTemplate) (result : MatchResult) : Option (Except Str Str) :=
  match tmpl.literals[0]? with
  | none => none
  | some literal => evaluateFrom tmpl result 0 tmpl.exprs literal

end TemplateEngine

end Vycor
