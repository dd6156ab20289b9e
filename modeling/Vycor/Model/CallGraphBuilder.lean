/-
The edge visitor of a bake.

It walks a tree with the stack of functions it is in, lambdas' call operators among them,
and adds an edge for every call and construction in user code.  All edges of one expression
carry the current function and the expression's location; each is kept together with the
expression it was added for.

The nodes that the visitor registers on the way, the edges for address-taken functions and
those for the virtual methods of a local's class are left out: they do not stand for a call
expression.
-/
import Vycor.Model.Ast

namespace Vycor

/-- The execution context of a well-known spawner; synchronous for any other function. -/
def spawnerContextFor (qualifiedName : Str) : ExecutionContext :=
  if qualifiedName = str "std::thread::thread" ∨ qualifiedName = str "std::jthread::jthread" then
    .threadSpawn
  else if qualifiedName = str "std::async" then .asyncTask
  else if qualifiedName = str "std::packaged_task::packaged_task" then .packagedTask
  else if qualifiedName = str "std::invoke" ∨ qualifiedName = str "std::bind" then .invoke
  else .synchronous

/-- An expression that calls something. -/
inductive CallSiteExpr
  | call (expr : CallExpr)
  | construct (expr : CXXConstructExpr)
deriving DecidableEq

def CallSiteExpr.beginLoc : CallSiteExpr → Str
  | call expr => expr.beginLoc
  | construct expr => expr.beginLoc

/-- An edge with the expression it comes from. -/
structure EdgeRecord where
  expr : CallSiteExpr
  edge : CallGraphEdge
deriving DecidableEq

/-- The state of the edge visitor: the functions around the place it is at, where callable
locals come from, and the edges so far. -/
structure CallGraphEdgeVisitor where
  /-- Innermost first. -/
  funcStack : List FunctionDecl := []
  /-- Callable locals initialized from a call, with the function called. -/
  varCallSources : UMap Nat Str := ∅
  /-- Locals initialized from a lambda, with the lambda's usr. -/
  varLambdaSources : UMap Nat Str := ∅
  edges : List EdgeRecord := []
deriving DecidableEq

namespace CallGraphEdgeVisitor

/-- The name of the innermost function of a stack that is not a lambda. -/
def enclosingNonLambdaName (funcStack : List FunctionDecl) : Str :=
  match funcStack.find? (! ·.isLambda) with
  | some fd => fd.ident.display
  | none => []

/-- The function around the call, a lambda under its synthetic name. -/
def currentFunction : List FunctionDecl → Ident
  | [] => {}
  | top :: rest =>
    match top.lambdaLoc with
    | some loc => lambdaIdent (lambdaQualifiedName loc (enclosingNonLambdaName rest))
    | none => top.ident

def filePath (decl : FunctionDecl) : Str := decl.file.getD (str "<unknown>")

/-- Both ends are in collapsed files. -/
def isCollapsedEdge (cfg : VisitorConfig) (caller callee : FunctionDecl) : Bool :=
  cfg.collapse.isCollapsed (filePath caller) && cfg.collapse.isCollapsed (filePath callee)

/-- The edge from the current function is internal to the collapsed paths. -/
def collapsed (cfg : VisitorConfig) (funcStack : List FunctionDecl) (callee : FunctionDecl) :
    Bool :=
  match funcStack with
  | [] => false
  | top :: _ => isCollapsedEdge cfg top callee

/-! ### Visiting

Each call expression adds the edges of its callable arguments first and its own
after them.
-/

/-- An edge of an expression of `callerUsr` at `site`. -/
def edgeTo (callerUsr site calleeUsr : Str) (kind : EdgeKind) (confidence : Confidence)
    (indirectionDepth : UInt32 := 0) (execContext : ExecutionContext := .synchronous) :
    CallGraphEdge :=
  { callerName := callerUsr, calleeName := calleeUsr, kind, confidence, callSite := site,
    indirectionDepth, execContext }

/-- An argument that can be called becomes an edge to what it calls. -/
def processCallableArg (v : CallGraphEdgeVisitor) (callerUsr site : Str)
    (spawnerCtx : ExecutionContext) (arg : Arg) : List CallGraphEdge :=
  let isSpawner := spawnerCtx ≠ .synchronous
  let ptrEdgeKind : EdgeKind := if isSpawner then .threadEntry else .functionPointer
  let lambdaEdgeKind : EdgeKind := if isSpawner then .threadEntry else .lambdaCall
  match arg.shape with
  | .lambda beginLoc =>
    let lambda := lambdaIdent (lambdaQualifiedName beginLoc (enclosingNonLambdaName v.funcStack))
    [edgeTo callerUsr site lambda.usr lambdaEdgeKind .Proven 1 spawnerCtx]
  | .function decl => [edgeTo callerUsr site decl.ident.usr ptrEdgeKind .Proven 1 spawnerCtx]
  | .variable decl =>
    ((v.varCallSources.lookup decl).toList.map fun usr =>
      edgeTo callerUsr site usr .functionPointerReturn .Proven 2 spawnerCtx) ++
    (v.varLambdaSources.lookup decl).toList.map fun usr =>
      edgeTo callerUsr site usr lambdaEdgeKind .Proven 1 spawnerCtx
  | .other => []

def processCallableArgs (v : CallGraphEdgeVisitor) (args : List Arg) (callerUsr site : Str)
    (spawnerCtx : ExecutionContext) : List CallGraphEdge :=
  args.flatMap (v.processCallableArg callerUsr site spawnerCtx)

/-- `make_unique` and `make_shared` construct their template argument: an edge to each
implicit constructor that neither copies nor moves, and one to a synthesized constructor. -/
def madeEdges (callerUsr site : Str) (callee : FunctionDecl) (record : Option RecordDecl) :
    List CallGraphEdge :=
  match record with
  | none => []
  | some record =>
    if contains callee.ident.display (str "make_unique") ||
        contains callee.ident.display (str "make_shared") then
      let ctors := record.ctors.filter fun ctor => !(!ctor.isImplicit || ctor.isCopyOrMove)
      (ctors.map fun ctor => edgeTo callerUsr site ctor.decl.ident.usr .constructorCall .Proven) ++
        [edgeTo callerUsr site
          (str "vycor-synth:" ++ (record.qualifiedName ++ str "::" ++ record.name))
          .constructorCall .Proven]
    else []

/-- The edges of a direct call after those of its arguments. -/
def directEdges (callerUsr : Str) (expr : CallExpr) (callee : FunctionDecl) :
    List CallGraphEdge :=
  let site := expr.beginLoc
  match expr.virtualMethod with
  | some method => [edgeTo callerUsr site method.ident.usr .virtualDispatch .Plausible]
  | none =>
    if expr.isOperatorCall then [edgeTo callerUsr site callee.ident.usr .operatorCall .Proven]
    else
      madeEdges callerUsr site callee expr.templateRecord ++
        [edgeTo callerUsr site callee.ident.usr .directCall .Proven]

/-- The edges of a call go on the log, with the call. -/
def addEdges (v : CallGraphEdgeVisitor) (expr : CallSiteExpr) (edges : List CallGraphEdge) :
    CallGraphEdgeVisitor :=
  { v with edges := v.edges ++ edges.map fun edge => { expr, edge } }

/-- Outside a named function, and outside user code, a call adds nothing. -/
def visitCallExpr (cfg : VisitorConfig) (v : CallGraphEdgeVisitor) (expr : CallExpr) :
    CallGraphEdgeVisitor :=
  let caller := currentFunction v.funcStack
  if caller.display = [] then v
  else if !expr.inUserCode then v
  else
    match expr.directCallee with
    | none =>
      v.addEdges (.call expr)
        (v.processCallableArgs expr.args caller.usr expr.beginLoc .synchronous)
    | some callee =>
      if collapsed cfg v.funcStack callee then v
      else
        v.addEdges (.call expr)
          (v.processCallableArgs expr.args caller.usr expr.beginLoc
              (spawnerContextFor callee.ident.display)
            ++ directEdges caller.usr expr callee)

/-- An implicit constructor adds nothing. The arguments of one that starts a thread are
edges too. -/
def visitCXXConstructExpr (cfg : VisitorConfig) (v : CallGraphEdgeVisitor)
    (expr : CXXConstructExpr) : CallGraphEdgeVisitor :=
  let caller := currentFunction v.funcStack
  if caller.display = [] then v
  else if !expr.inUserCode then v
  else
    match expr.ctor with
    | none => v
    | some ctor =>
      if ctor.isImplicit then v
      else if collapsed cfg v.funcStack ctor.decl then v
      else
        let spawnerCtx := spawnerContextFor ctor.decl.ident.display
        let spawned :=
          if spawnerCtx ≠ .synchronous then
            v.processCallableArgs expr.args caller.usr expr.beginLoc spawnerCtx
          else []
        v.addEdges (.construct expr)
          (spawned ++
            [edgeTo caller.usr expr.beginLoc ctor.decl.ident.usr .constructorCall .Proven])

/-- Remember where a callable local comes from. -/
def visitVarDecl (v : CallGraphEdgeVisitor) (decl : VarDecl) : CallGraphEdgeVisitor :=
  if !decl.isLocal then v
  else if (currentFunction v.funcStack).display = [] then v
  else
    let v :=
      match decl.initCallee with
      | some callee => { v with varCallSources := v.varCallSources.insert decl.decl callee.ident.usr }
      | none => v
    match decl.initLambda with
    | some beginLoc =>
      let lambda := lambdaIdent (lambdaQualifiedName beginLoc (enclosingNonLambdaName v.funcStack))
      { v with varLambdaSources := v.varLambdaSources.insert decl.decl lambda.usr }
    | none => v

/-! ### Traversal -/

/-- Into a function. -/
def push (v : CallGraphEdgeVisitor) (decl : FunctionDecl) : CallGraphEdgeVisitor :=
  { v with funcStack := decl :: v.funcStack }

/-- Out of it. -/
def pop (v : CallGraphEdgeVisitor) : CallGraphEdgeVisitor :=
  { v with funcStack := v.funcStack.tail }

mutual

/-- The default traversal, with functions and lambdas on the stack. -/
def traverse (cfg : VisitorConfig) : Node → CallGraphEdgeVisitor → CallGraphEdgeVisitor
  | .call expr children, v => traverseAll cfg children (v.visitCallExpr cfg expr)
  | .construct expr children, v => traverseAll cfg children (v.visitCXXConstructExpr cfg expr)
  | .compound body, v => traverseAll cfg body v
  | .ifStmt _ head thenStmt elseStmt, v =>
    traverseAll cfg elseStmt (traverseAll cfg thenStmt (traverseAll cfg head v))
  | .tryStmt _ block handlers, v => traverseHandlers cfg handlers (traverse cfg block v)
  | .lambda expr children, v => (traverseAll cfg children (v.push expr.callOperator)).pop
  | .function decl children, v => (traverseAll cfg children (v.push decl)).pop
  | .varDecl decl children, v => traverseAll cfg children (v.visitVarDecl decl)
  | .other children, v => traverseAll cfg children v

def traverseAll (cfg : VisitorConfig) : Nodes → CallGraphEdgeVisitor → CallGraphEdgeVisitor
  | .nil, v => v
  | .cons node rest, v => traverseAll cfg rest (traverse cfg node v)

def traverseHandlers (cfg : VisitorConfig) :
    Handlers → CallGraphEdgeVisitor → CallGraphEdgeVisitor
  | .nil, v => v
  | .cons _ exceptionDecl block rest, v =>
    traverseHandlers cfg rest (traverse cfg block (traverseAll cfg exceptionDecl v))

end

/-- The edges of a translation unit. -/
def edgesOf (cfg : VisitorConfig) (tu : Nodes) : List EdgeRecord := (traverseAll cfg tu {}).edges

end CallGraphEdgeVisitor

end Vycor
