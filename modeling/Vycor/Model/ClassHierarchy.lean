/-
Which method of which class a virtual call runs.

The indexer notes it for every concrete class, and the edge visitor for the class of every
polymorphic local.  Both walk the class and then its bases, breadth first, and take a virtual
method when it is the first of its unqualified name that is not pure.  What is written down is
kept together with the method it is written down for.

A class has the bases whose type is a class with its definition at hand, which every base of
a defined class is; a dependent base of a template has none to walk.  `params` is what Clang
compares overriders by apart from the name: the parameter types, and the qualifiers of the
method itself.  The nodes that the edge visitor registers on the way are left out, as in its
other methods.
-/
import Vycor.Lib.LevelOrder
import Vycor.Model.CallGraphBuilder

namespace Vycor

/-! ### Classes

A class stands with its bases as a tree, so a base that is inherited along two
ways is in it twice, as it is for the walk.
-/

/-- A method as the walk looks at it. -/
structure CXXMethodDecl where
  decl : FunctionDecl
  /-- The unqualified name as it is printed; `~` and the name of the class for a destructor. -/
  name : Str
  params : Str := []
  /-- Written as virtual, or an overrider of a virtual method. -/
  isVirtual : Bool := false
  isPureVirtual : Bool := false
  isImplicit : Bool := false
  isDestructor : Bool := false
deriving DecidableEq

mutual

/-- A class with its methods and its bases. -/
inductive CXXRecordDecl
  | mk (qualifiedName : Str) (methods : List CXXMethodDecl) (bases : CXXBaseSpecifiers)

/-- The bases of a class, in order. -/
inductive CXXBaseSpecifiers
  | nil
  | cons (isVirtual : Bool) (base : CXXRecordDecl) (rest : CXXBaseSpecifiers)

end

/-- A base, inherited virtually or not. -/
structure CXXBaseSpecifier where
  isVirtual : Bool
  type : CXXRecordDecl

def CXXBaseSpecifiers.toList : CXXBaseSpecifiers → List CXXBaseSpecifier
  | .nil => []
  | .cons isVirtual base rest => ⟨isVirtual, base⟩ :: rest.toList

namespace CXXRecordDecl

def qualifiedName : CXXRecordDecl → Str
  | .mk qualifiedName _ _ => qualifiedName

def methods : CXXRecordDecl → List CXXMethodDecl
  | .mk _ methods _ => methods

def bases : CXXRecordDecl → List CXXBaseSpecifier
  | .mk _ _ bases => bases.toList

/-- The classes derived from. -/
def baseDecls (cls : CXXRecordDecl) : List CXXRecordDecl := cls.bases.map (·.type)

/-- The destructor, if one is declared. -/
def getDestructor (cls : CXXRecordDecl) : Option CXXMethodDecl := cls.methods.find? (·.isDestructor)

end CXXRecordDecl

mutual

/-- The classes of a hierarchy, one for each way to it. -/
def CXXRecordDecl.size : CXXRecordDecl → Nat
  | .mk _ _ bases => bases.size + 1

def CXXBaseSpecifiers.size : CXXBaseSpecifiers → Nat
  | .nil => 0
  | .cons _ base rest => base.size + rest.size

end

/-! ### The walk

Most derived first, a method being met by its name: what is met first overrides.
-/

/-- `ρ` is what is written down for a method. -/
structure MethodWalk (ρ : Type) where
  handledMethodNames : List Str := []
  records : List ρ := []

namespace MethodWalk

variable {ρ : Type} (record : CXXMethodDecl → ρ) (leave : CXXRecordDecl → List Str → List ρ)

/-- Virtual methods that are not pure are written down, the first of each name. -/
def visitMethod (w : MethodWalk ρ) (method : CXXMethodDecl) : MethodWalk ρ :=
  if !method.isVirtual || method.isImplicit then w
  else if method.name ∈ w.handledMethodNames then w
  else if !method.isPureVirtual then
    { handledMethodNames := method.name :: w.handledMethodNames
      records := w.records ++ [record method] }
  else w

/-- The methods of a class, and then what the walk writes down on leaving it. -/
def visitClass (w : MethodWalk ρ) (current : CXXRecordDecl) : MethodWalk ρ :=
  let w := current.methods.foldl (visitMethod record) w
  { w with records := w.records ++ leave current w.handledMethodNames }

/-- Walk the class and its bases, most derived first. -/
def ofClass (cls : CXXRecordDecl) : MethodWalk ρ :=
  LevelOrder.walk CXXRecordDecl.baseDecls (visitClass record leave) cls.size [cls] {}

end MethodWalk

/-! ### What is written down -/

/-- An effective implementation, and the method it is. -/
structure ImplRecord where
  method : CXXMethodDecl
  concreteClass : Str
  implMethod : Str
deriving DecidableEq

/-- The class is kept by its display name, the method by its usr. -/
def implRecord (cls : CXXRecordDecl) (method : CXXMethodDecl) : ImplRecord :=
  { method, concreteClass := cls.qualifiedName, implMethod := method.decl.ident.usr }

/-- The methods a class effectively has, met from the class up through its bases. -/
def computeEffectiveImpls (cls : CXXRecordDecl) : List ImplRecord :=
  (MethodWalk.ofClass (implRecord cls) (fun _ _ => []) cls).records

/-- What the indexer's graph is told. -/
def addEffectiveImpls (graph : CallGraph) (tuPath : Str) (impls : List ImplRecord) : CallGraph :=
  impls.foldl (fun graph impl => graph.addEffectiveImpl impl.concreteClass impl.implMethod tuPath) graph

/-- An edge of a polymorphic local, and the method it goes to. -/
structure ConcreteTypeRecord where
  method : CXXMethodDecl
  edge : CallGraphEdge
deriving DecidableEq

open CallGraphEdgeVisitor (edgeTo) in
def dispatchRecord (callerUsr site : Str) (method : CXXMethodDecl) : ConcreteTypeRecord :=
  { method, edge := edgeTo callerUsr site method.decl.ident.usr .virtualDispatch .Proven }

open CallGraphEdgeVisitor (edgeTo) in
/-- The destructor of a class on the way, unless a method is called `~`. -/
def destructorRecords (callerUsr site : Str) (current : CXXRecordDecl)
    (handledMethodNames : List Str) : List ConcreteTypeRecord :=
  match current.getDestructor with
  | none => []
  | some dtor =>
    if str "~" ∈ handledMethodNames then []
    else [{ method := dtor, edge := edgeTo callerUsr site dtor.decl.ident.usr .destructorCall .Proven }]

/-- "Concrete type knowledge" of a local of class `cls` declared at `site`. -/
def addConcreteTypeEdges (callerUsr site : Str) (cls : CXXRecordDecl) : List ConcreteTypeRecord :=
  (MethodWalk.ofClass (dispatchRecord callerUsr site) (destructorRecords callerUsr site) cls).records

end Vycor
