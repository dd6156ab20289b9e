/-
The context visitor of a bake.

It walks a tree with stacks of the functions, blocks, try statements and if branches it is
in, and stores a context for every call and construction in user code.  Only the `Traverse`
methods it overrides push and pop.  The one for if statements walks the branches and not the
head; the one for try statements walks the block and the handlers' blocks, and keeps in one
flag whether it is in a handler.  There is none for lambdas.

Channel sites are left out.
-/
import Vycor.Model.CallGraphBuilder

namespace Vycor

/-! ### RAII locals -/

/-- The classes that are locks without being listed. -/
def builtinLockTypes : List Str :=
  [str "std::lock_guard", str "std::unique_lock", str "std::shared_lock", str "std::scoped_lock",
    str "absl::MutexLock", str "absl::ReaderMutexLock", str "absl::WriterMutexLock"]

/-- The kind of an RAII local by its class, none for another class. -/
def classifyRaiiType (raiiClass : Option RaiiClass) (cfg : LockTypeConfig) : Option RaiiKind :=
  match raiiClass with
  | none => none
  | some rd =>
    if cfg.useBuiltins && builtinLockTypes.contains rd.qualifiedName then some .lock
    else if cfg.userAllowlist.contains rd.qualifiedName then some .lock
    else if rd.hasCapabilityAttr then some .lock
    else if rd.qualifiedName = str "std::unique_ptr" ∨ rd.qualifiedName = str "std::shared_ptr" then
      some .smartPtr
    else if rd.hasNonTrivialDtor then some .other
    else none

/-! ### The visitor

The context of a call is read off the visitor's stacks where the call is met:
functions, try scopes, guards, RAII locals by block, and whether this is a catch
block.
-/

/-- All stacks have the innermost entry first. -/
structure ControlFlowContextVisitor where
  funcStack : List FunctionDecl := []
  /-- RAII locals declared so far in each open block. -/
  scopeStack : List (List RaiiLocal) := []
  tryScopeStack : List TryCatchScope := []
  guardStack : List ConditionalGuard := []
  assertionGuards : List ConditionalGuard := []
  insideCatchBlock : Bool := false
  /-- The contexts added to the index. -/
  contexts : List CallSiteContext := []
deriving DecidableEq

namespace ControlFlowContextVisitor

/-- The function around the call. -/
def currentFunction : List FunctionDecl → Ident
  | [] => {}
  | top :: _ => top.ident

def filePath (decl : FunctionDecl) : Str := decl.file.getD []

/-- Both ends are in collapsed files. -/
def isCollapsedEdge (cfg : VisitorConfig) (caller callee : FunctionDecl) : Bool :=
  cfg.collapse.isCollapsed (filePath caller) && cfg.collapse.isCollapsed (filePath callee)

/-- The call is left out for its two ends. -/
def collapsed (cfg : VisitorConfig) (funcStack : List FunctionDecl) (callee : FunctionDecl) :
    Bool :=
  match funcStack with
  | [] => false
  | top :: _ => isCollapsedEdge cfg top callee

/-- Match common assertion functions. -/
def isAssertionCall (name : Str) : Bool :=
  name == str "__assert_fail" || name == str "__assert_rtn" || name == str "__assert" ||
  contains name (str "DCHECK") || contains name (str "CHECK") || contains name (str "ASSERT")

/-- Very long conditions are cut. -/
def sourceText (text : Str) : Str :=
  if text.length > 200 then text.take 197 ++ str "..." else text

/-- Enclosing if branches, then the assertions met so far. -/
def snapshotGuards (v : ControlFlowContextVisitor) : List ConditionalGuard :=
  v.guardStack ++
    v.assertionGuards.map fun guard => { guard with inTrueBranch := true, isAssertion := true }

/-- What is around a call at the moment the visitor comes to it. -/
def buildContext (cfg : VisitorConfig) (v : ControlFlowContextVisitor) (caller callee : Ident)
    (callSite : Str) : CallSiteContext where
  callerName := caller.display
  calleeName := callee.display
  callSite := callSite
  callerUsr := caller.usr
  calleeUsr := callee.usr
  tuPath := cfg.tuPath
  enclosingTryCatches := v.tryScopeStack
  enclosingGuards := v.snapshotGuards
  callerNoexcept := match v.funcStack with
    | [] => .none
    | top :: _ => top.noexceptSpec
  insideCatchBlock := v.insideCatchBlock
  liveRaiiLocals := v.scopeStack.reverse.flatten

/-! ### Visiting -/

/-- A context goes on the log. -/
def addContext (v : ControlFlowContextVisitor) (ctx : CallSiteContext) :
    ControlFlowContextVisitor :=
  { v with contexts := v.contexts ++ [ctx] }

/-- An assertion guards what is visited after it. -/
def addAssertion (v : ControlFlowContextVisitor) (expr : CallExpr) : ControlFlowContextVisitor :=
  match expr.args with
  | [] => v
  | arg :: _ =>
    { v with assertionGuards := v.assertionGuards ++
        [{ conditionText := sourceText arg.text, location := expr.beginLoc
           inTrueBranch := true, isAssertion := true }] }

/-- No declaration backs the callee of an indirect call. -/
def indirectCallee : Ident := { usr := str "vycor-synth:<indirect>", display := str "<indirect>" }

/-- A call is an assertion or gets a context. -/
def visitCallExpr (cfg : VisitorConfig) (v : ControlFlowContextVisitor) (expr : CallExpr) :
    ControlFlowContextVisitor :=
  let caller := currentFunction v.funcStack
  if caller.display = [] then v
  else if !expr.inUserCode then v
  else
    match expr.directCallee with
    | none => v.addContext (v.buildContext cfg caller indirectCallee expr.beginLoc)
    | some callee =>
      if collapsed cfg v.funcStack callee then v
      else if isAssertionCall callee.ident.display then v.addAssertion expr
      else v.addContext (v.buildContext cfg caller callee.ident expr.beginLoc)

/-- A constructor call gets a context. -/
def visitCXXConstructExpr (cfg : VisitorConfig) (v : ControlFlowContextVisitor)
    (expr : CXXConstructExpr) : ControlFlowContextVisitor :=
  let caller := currentFunction v.funcStack
  if caller.display = [] then v
  else if !expr.inUserCode then v
  else
    match expr.ctor with
    | none => v
    | some ctor =>
      if ctor.isImplicit then v
      else if collapsed cfg v.funcStack ctor.decl then v
      else v.addContext (v.buildContext cfg caller ctor.decl.ident expr.beginLoc)

/-- A local of an RAII class is live for what follows in its block. -/
def visitVarDecl (cfg : VisitorConfig) (v : ControlFlowContextVisitor) (decl : VarDecl) :
    ControlFlowContextVisitor :=
  match v.scopeStack with
  | [] => v
  | frame :: frames =>
    if !decl.isLocal then v
    else
      match classifyRaiiType decl.raiiClass cfg.lockCfg with
      | none => v
      | some kind =>
        let raiiLocal : RaiiLocal :=
          { typeName := decl.typeName, varName := decl.name, declLocation := decl.location, kind }
        { v with scopeStack := (frame ++ [raiiLocal]) :: frames }

/-! ### Traversal

A push before a child is visited and a pop behind it. Where the push and the pop
stand is what the claims about contexts turn on, so they are modelled one by
one.
-/

/-- Into a function. -/
def pushFunction (v : ControlFlowContextVisitor) (decl : FunctionDecl) :
    ControlFlowContextVisitor :=
  { v with funcStack := decl :: v.funcStack }

/-- Out of it. -/
def popFunction (v : ControlFlowContextVisitor) : ControlFlowContextVisitor :=
  { v with funcStack := v.funcStack.tail }

/-- Into a block. -/
def pushScope (v : ControlFlowContextVisitor) : ControlFlowContextVisitor :=
  { v with scopeStack := [] :: v.scopeStack }

/-- Out of it, with the locals of its frame. -/
def popScope (v : ControlFlowContextVisitor) : ControlFlowContextVisitor :=
  { v with scopeStack := v.scopeStack.tail }

/-- Into a branch of an if statement. -/
def pushGuard (v : ControlFlowContextVisitor) (stmt : IfStmt) (inTrueBranch : Bool) :
    ControlFlowContextVisitor :=
  { v with guardStack :=
      { conditionText := sourceText stmt.conditionText, location := stmt.location, inTrueBranch }
        :: v.guardStack }

/-- Out of it. -/
def popGuard (v : ControlFlowContextVisitor) : ControlFlowContextVisitor :=
  { v with guardStack := v.guardStack.tail }

/-- Into a try statement. -/
def pushTry (v : ControlFlowContextVisitor) (stmt : CXXTryStmt) (handlers : Handlers) :
    ControlFlowContextVisitor :=
  { v with tryScopeStack :=
      { tryLocation := stmt.location
        enclosingFunction := (currentFunction v.funcStack).display
        handlers := handlers.clauses
        nestingDepth := UInt32.ofNat v.tryScopeStack.length } :: v.tryScopeStack }

/-- Out of it. -/
def popTry (v : ControlFlowContextVisitor) : ControlFlowContextVisitor :=
  { v with tryScopeStack := v.tryScopeStack.tail }

/-- Into the block of a handler, or out of it. -/
def setInsideCatchBlock (v : ControlFlowContextVisitor) (inside : Bool) :
    ControlFlowContextVisitor :=
  { v with insideCatchBlock := inside }

mutual

def traverse (cfg : VisitorConfig) :
    Node → ControlFlowContextVisitor → ControlFlowContextVisitor
  | .call expr children, v => traverseAll cfg children (v.visitCallExpr cfg expr)
  | .construct expr children, v => traverseAll cfg children (v.visitCXXConstructExpr cfg expr)
  | .compound body, v => (traverseAll cfg body v.pushScope).popScope
  | .ifStmt stmt _ thenStmt elseStmt, v =>
    let v := (traverseAll cfg thenStmt (v.pushGuard stmt true)).popGuard
    (traverseAll cfg elseStmt (v.pushGuard stmt false)).popGuard
  | .tryStmt stmt block handlers, v =>
    (traverseHandlers cfg handlers (traverse cfg block (v.pushTry stmt handlers))).popTry
  | .lambda _ children, v => traverseAll cfg children v
  | .function decl children, v => (traverseAll cfg children (v.pushFunction decl)).popFunction
  | .varDecl decl children, v => traverseAll cfg children (v.visitVarDecl cfg decl)
  | .other children, v => traverseAll cfg children v

def traverseAll (cfg : VisitorConfig) :
    Nodes → ControlFlowContextVisitor → ControlFlowContextVisitor
  | .nil, v => v
  | .cons node rest, v => traverseAll cfg rest (traverse cfg node v)

/-- The handlers' blocks; the exception declarations are not walked. -/
def traverseHandlers (cfg : VisitorConfig) :
    Handlers → ControlFlowContextVisitor → ControlFlowContextVisitor
  | .nil, v => v
  | .cons _ _ block rest, v =>
    traverseHandlers cfg rest
      ((traverse cfg block (v.setInsideCatchBlock true)).setInsideCatchBlock false)

end

/-- The contexts of a translation unit. -/
def contextsOf (cfg : VisitorConfig) (tu : Nodes) : List CallSiteContext :=
  (traverseAll cfg tu {}).contexts

end ControlFlowContextVisitor

end Vycor
