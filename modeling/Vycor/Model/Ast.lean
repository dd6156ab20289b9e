/-
The syntax trees the visitors walk.

A tree has what the two visitors of a bake look at: calls, constructions, blocks, if and
try statements, lambdas, functions and variable declarations.  Every other statement,
expression or declaration is `other`, which a recursive visitor walks through.  Children
stand in the order the default traversal visits them: the head of an if statement is its
init statement, condition variable and condition; a lambda's children are its captures and
its body.

What Clang computes about a node stands in the node: formatted spelling locations, source
texts, direct callees, whether a location is in user code.  A function's file is `none`
where the source manager has no entry for it.
-/
import Mathlib.Data.List.Infix
import Vycor.Model.CallGraph
import Vycor.Model.ControlFlowIndex

namespace Vycor

/-! ### Declarations and expressions

What the two visitors ask of a declaration or an expression, and nothing else.
What clang computes (a usr, a canonical type, a conversion) stands in the record
as a value.
-/

/-- Canonical identity and display name. -/
structure Ident where
  usr : Str := []
  display : Str := []
deriving DecidableEq

/-- A function declaration: its identity, where it is, and whether it is the call operator
of a lambda. -/
structure FunctionDecl where
  /-- What `UsrCache::identFor` answers; the display name is the qualified name. -/
  ident : Ident
  file : Option Str := none
  noexceptSpec : NoexceptSpec := .none
  /-- Where the closure class begins, when this is the call operator of a lambda. -/
  lambdaLoc : Option Str := none
deriving DecidableEq

/-- The call operator of a lambda expression. -/
def FunctionDecl.isLambda (decl : FunctionDecl) : Bool := decl.lambdaLoc.isSome

/-- An argument under its parentheses, implicit casts and address-of. -/
inductive ArgShape
  | lambda (beginLoc : Str)
  | function (decl : FunctionDecl)
  | variable (decl : Nat)
  | other
deriving DecidableEq

/-- An argument as written and what is under its wrappers. -/
structure Arg where
  text : Str := []
  shape : ArgShape := .other
deriving DecidableEq

/-- A constructor of a class and how it came about. -/
structure CtorDecl where
  decl : FunctionDecl
  isImplicit : Bool := false
  isCopyOrMove : Bool := false
deriving DecidableEq

/-- A class, as far as a construction of it is looked at. -/
structure RecordDecl where
  qualifiedName : Str
  name : Str
  ctors : List CtorDecl := []
deriving DecidableEq

/-- A call; without a direct callee it goes through a pointer or an expression. -/
structure CallExpr where
  beginLoc : Str
  inUserCode : Bool := true
  directCallee : Option FunctionDecl := none
  /-- The method of a member call, when it is virtual. -/
  virtualMethod : Option FunctionDecl := none
  isOperatorCall : Bool := false
  /-- The first template argument of the callee, when it is a class defined here. -/
  templateRecord : Option RecordDecl := none
  args : List Arg := []
deriving DecidableEq

/-- A construction and the constructor it runs. -/
structure CXXConstructExpr where
  beginLoc : Str
  inUserCode : Bool := true
  ctor : Option CtorDecl := none
  args : List Arg := []
deriving DecidableEq

/-- The class of a variable as far as lock and RAII tracking look at it. -/
structure RaiiClass where
  qualifiedName : Str
  hasCapabilityAttr : Bool := false
  hasNonTrivialDtor : Bool := false
deriving DecidableEq

/-- A local variable. -/
structure VarDecl where
  decl : Nat
  isLocal : Bool := true
  typeName : Str := []
  name : Str := []
  location : Str := []
  raiiClass : Option RaiiClass := none
  /-- The callee of the initializer, when that is a direct call and the type is callable. -/
  initCallee : Option FunctionDecl := none
  /-- Where the initializer begins, when that is a lambda. -/
  initLambda : Option Str := none
deriving DecidableEq

/-- A lambda expression and the call operator of its closure. -/
structure LambdaExpr where
  beginLoc : Str
  op : FunctionDecl
deriving DecidableEq

/-- The call operator of the closure, which begins where the expression does. -/
def LambdaExpr.callOperator (expr : LambdaExpr) : FunctionDecl :=
  { expr.op with lambdaLoc := some expr.beginLoc }

/-- The condition of an if statement, as text and place. -/
structure IfStmt where
  conditionText : Str := []
  location : Str := []
deriving DecidableEq

/-- A try statement without its blocks. -/
structure CXXTryStmt where
  location : Str := []
deriving DecidableEq

/-! ### Trees

A body as a tree of the nodes that the visitors handle; other statements are
only what they contain. The clauses of a try statement stand apart, since their
order counts.
-/

mutual

/-- What a traversal meets, with what lies beneath it. -/
inductive Node
  | call (expr : CallExpr) (children : Nodes)
  | construct (expr : CXXConstructExpr) (children : Nodes)
  | compound (body : Nodes)
  /-- An if statement without else has no nodes there. -/
  | ifStmt (stmt : IfStmt) (head : Nodes) (thenStmt elseStmt : Nodes)
  | tryStmt (stmt : CXXTryStmt) (block : Node) (handlers : Handlers)
  | lambda (expr : LambdaExpr) (children : Nodes)
  | function (decl : FunctionDecl) (children : Nodes)
  | varDecl (decl : VarDecl) (children : Nodes)
  | other (children : Nodes)

/-- A sequence of nodes in the order in which they are written. -/
inductive Nodes
  | nil
  | cons (node : Node) (rest : Nodes)

/-- `clause` is what `analyzeCatchClause` makes of a handler. -/
inductive Handlers
  | nil
  | cons (clause : CatchHandlerInfo) (exceptionDecl : Nodes) (block : Node) (rest : Handlers)

end

/-- What each handler catches, in order. -/
def Handlers.clauses : Handlers → List CatchHandlerInfo
  | .nil => []
  | .cons clause _ _ rest => clause :: rest.clauses

/-! ### What both visitors ask -/

/-- `needle` stands somewhere in `s`. -/
def contains (s needle : Str) : Bool := decide (needle <:+: s)

/-- Normalized patterns of collapsed paths. -/
structure CollapseFilter where
  patterns : List Str := []
deriving DecidableEq

namespace CollapseFilter

/-- `/pattern/`; the empty pattern stays empty. -/
def normalize (p : Str) : Str :=
  let slash := str "/"
  let normalized := if p ≠ [] ∧ p.head? ≠ slash.head? then slash ++ p else p
  if normalized ≠ [] ∧ normalized.getLast? ≠ slash.head? then normalized ++ slash else normalized

/-- The filter of some patterns, normalized as the files are. -/
def ofPatterns (patterns : List Str) : CollapseFilter := ⟨patterns.map normalize⟩

/-- A file is collapsed when one of the patterns stands somewhere in its path. -/
def isCollapsed (filter : CollapseFilter) (filePath : Str) : Bool :=
  filter.patterns.any fun pattern => contains filePath pattern

end CollapseFilter

/-- The allowlists of lock types. -/
structure LockTypeConfig where
  userAllowlist : List Str := []
  useBuiltins : Bool := true
deriving DecidableEq

/-- What a bake passes to the visitors of a TU. -/
structure VisitorConfig where
  tuPath : Str := []
  collapsePaths : List Str := []
  lockCfg : LockTypeConfig := {}
deriving DecidableEq

/-- The filter of the configured paths. -/
def VisitorConfig.collapse (cfg : VisitorConfig) : CollapseFilter :=
  CollapseFilter.ofPatterns cfg.collapsePaths

/-- `lambda#site#parent`, the parent of a lambda at namespace scope being `<tu>`. -/
def lambdaQualifiedName (site enclosing : Str) : Str :=
  let parent := if enclosing = [] then str "<tu>" else enclosing
  str "lambda#" ++ site ++ str "#" ++ parent

/-- A lambda's name is its usr too, under a prefix. -/
def lambdaIdent (name : Str) : Ident := { usr := str "vycor-lambda:" ++ name, display := name }

end Vycor
