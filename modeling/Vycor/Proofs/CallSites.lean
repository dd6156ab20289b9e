/-
What the two visitors of a bake make of the call sites of a tree.

`sites` lists the calls and constructions of a tree, each with its place: the functions
around it, the try statements whose block it is in, whether it is in a handler, and whether
it is hidden, that is, in the head of an if statement or in the exception declaration of a
handler.  It says nothing about visitors.  `traverse_walked` and `traverse_edges` say what
each visitor records of the sites of a tree; both go by induction on the tree.

The edge visitor records every site.  The context visitor skips hidden ones and knows no
lambdas, so the two agree on the caller of a site that is neither hidden nor directly in a
lambda; `visitors_agree_iff` has what that leaves.  The context visitor keeps a try
statement on its stack while it is in the handlers, so the try statements it records are
the ones around the site exactly when the site is in no handler (`try_scopes_exact_iff`).
-/
import Vycor.Model.ControlFlowContextVisitor

namespace Vycor

/-! ### Places

Where a call stands, said by the tree alone: the functions and lambdas around
it, the try blocks, and whether it is in a handler.
-/

/-- Where a node of the AST stands. -/
structure Place where
  /-- The functions and lambdas around the place, innermost first. -/
  funcs : List FunctionDecl := []
  /-- Those among them that are no lambda expression. -/
  named : List FunctionDecl := []
  /-- In the head of an if statement or in an exception declaration. -/
  hidden : Bool := false
  /-- The try statements whose block the place is in, innermost first. -/
  tries : List TryCatchScope := []
  /-- The try statements the place is in, by block or by handler. -/
  opened : List TryCatchScope := []
  /-- In the block of some handler. -/
  inHandler : Bool := false

/-- A call expression and where it stands. -/
structure Site where
  place : Place
  expr : CallSiteExpr

namespace Place

/-- In the head of an if statement or in an exception declaration. -/
def hide (p : Place) : Place := { p with hidden := true }

/-- In the body of a lambda expression. -/
def inLambda (p : Place) (expr : LambdaExpr) : Place :=
  { p with funcs := expr.callOperator :: p.funcs }

/-- In the body of a function declaration. -/
def inFunction (p : Place) (decl : FunctionDecl) : Place :=
  { p with funcs := decl :: p.funcs, named := decl :: p.named }

/-- The record of a try statement that is `depth` deep. -/
def scope (p : Place) (stmt : CXXTryStmt) (handlers : Handlers) (depth : Nat) : TryCatchScope where
  tryLocation := stmt.location
  enclosingFunction := (ControlFlowContextVisitor.currentFunction p.named).display
  handlers := handlers.clauses
  nestingDepth := UInt32.ofNat depth

/-- In the block of a try statement. -/
def inTryBlock (p : Place) (stmt : CXXTryStmt) (handlers : Handlers) : Place :=
  { p with
    tries := p.scope stmt handlers p.tries.length :: p.tries
    opened := p.scope stmt handlers p.opened.length :: p.opened }

/-- In a handler of the try statement that was opened as `scope`. -/
def inHandlerOf (p : Place) (scope : TryCatchScope) : Place :=
  { p with opened := scope :: p.opened, inHandler := true }

end Place

mutual

/-- The calls and constructions of a tree at a place. -/
def Node.sites : Node → Place → List Site
  | .call expr children, p => ⟨p, .call expr⟩ :: children.sites p
  | .construct expr children, p => ⟨p, .construct expr⟩ :: children.sites p
  | .compound body, p => body.sites p
  | .ifStmt _ head thenStmt elseStmt, p =>
    head.sites p.hide ++ (thenStmt.sites p ++ elseStmt.sites p)
  | .tryStmt stmt block handlers, p =>
    block.sites (p.inTryBlock stmt handlers) ++
      handlers.sites p (p.scope stmt handlers p.opened.length)
  | .lambda expr children, p => children.sites (p.inLambda expr)
  | .function decl children, p => children.sites (p.inFunction decl)
  | .varDecl _ children, p => children.sites p
  | .other children, p => children.sites p

/-- The call expressions below the nodes, in source order. -/
def Nodes.sites : Nodes → Place → List Site
  | .nil, _ => []
  | .cons node rest, p => node.sites p ++ rest.sites p

/-- The sites of the handlers of a try statement that is at `p` and opened as `scope`. -/
def Handlers.sites : Handlers → Place → TryCatchScope → List Site
  | .nil, _, _ => []
  | .cons _ exceptionDecl block rest, p, scope =>
    exceptionDecl.sites p.hide ++ (block.sites (p.inHandlerOf scope) ++ rest.sites p scope)

end

/-- The sites of a translation unit. -/
def sitesOf (tu : Nodes) : List Site := tu.sites {}

/-- A property of places that every step into a tree keeps holds at every site. -/
structure Place.Kept (P : Place → Prop) : Prop where
  hide : ∀ p, P p → P p.hide
  inLambda : ∀ p expr, P p → P (p.inLambda expr)
  inFunction : ∀ p decl, P p → P (p.inFunction decl)
  inTryBlock : ∀ p stmt handlers, P p → P (p.inTryBlock stmt handlers)
  inHandlerOf : ∀ p stmt handlers, P p →
    P (p.inHandlerOf (p.scope stmt handlers p.opened.length))

section Kept

variable {P : Place → Prop}

mutual

theorem Place.Kept.node (h : Place.Kept P) (n : Node) (p : Place) (hp : P p) :
    ∀ s ∈ n.sites p, P s.place := by
  intro s hs
  cases n with
  | call expr children =>
      rcases List.mem_cons.mp hs with rfl | hs
      · exact hp
      · exact h.nodes children p hp s hs
  | construct expr children =>
      rcases List.mem_cons.mp hs with rfl | hs
      · exact hp
      · exact h.nodes children p hp s hs
  | compound body => exact h.nodes body p hp s hs
  | ifStmt stmt head thenStmt elseStmt =>
      rcases List.mem_append.mp hs with hs | hs
      · exact h.nodes head _ (h.hide p hp) s hs
      · rcases List.mem_append.mp hs with hs | hs
        · exact h.nodes thenStmt p hp s hs
        · exact h.nodes elseStmt p hp s hs
  | tryStmt stmt block handlers =>
      rcases List.mem_append.mp hs with hs | hs
      · exact h.node block _ (h.inTryBlock p stmt handlers hp) s hs
      · exact h.handlers handlers p _ hp (h.inHandlerOf p stmt handlers hp) s hs
  | lambda expr children => exact h.nodes children _ (h.inLambda p expr hp) s hs
  | function decl children => exact h.nodes children _ (h.inFunction p decl hp) s hs
  | varDecl decl children => exact h.nodes children p hp s hs
  | other children => exact h.nodes children p hp s hs

theorem Place.Kept.nodes (h : Place.Kept P) (ns : Nodes) (p : Place) (hp : P p) :
    ∀ s ∈ ns.sites p, P s.place := by
  intro s hs
  cases ns with
  | nil => exact absurd hs List.not_mem_nil
  | cons node rest =>
      rcases List.mem_append.mp hs with hs | hs
      · exact h.node node p hp s hs
      · exact h.nodes rest p hp s hs

theorem Place.Kept.handlers (h : Place.Kept P) (hs : Handlers) (p : Place) (scope : TryCatchScope)
    (hp : P p) (hscope : P (p.inHandlerOf scope)) : ∀ s ∈ hs.sites p scope, P s.place := by
  intro s hmem
  cases hs with
  | nil => exact absurd hmem List.not_mem_nil
  | cons clause exceptionDecl block rest =>
      rcases List.mem_append.mp hmem with hmem | hmem
      · exact h.nodes exceptionDecl _ (h.hide p hp) s hmem
      · rcases List.mem_append.mp hmem with hmem | hmem
        · exact h.node block _ hscope s hmem
        · exact h.handlers rest p scope hp hscope s hmem

end

end Kept

/-! ### The context visitor

One lemma for each kind of node: it stores what its sites call for and comes
back to the place it started from. The run lemma is by mutual induction over the
tree.
-/

section Contexts

open ControlFlowContextVisitor

variable (cfg : VisitorConfig)

/-- The caller that the context visitor names. -/
def Site.contextCaller (s : Site) : Ident := currentFunction s.place.named

/-- The context visitor stores a context at the site. -/
def Site.contextRecorded (s : Site) : Bool :=
  !s.place.hidden && (s.contextCaller.display != [] &&
    match s.expr with
    | .call expr => expr.inUserCode &&
      match expr.directCallee with
      | none => true
      | some callee =>
        !collapsed cfg s.place.named callee && !isAssertionCall callee.ident.display
    | .construct expr => expr.inUserCode &&
      match expr.ctor with
      | none => false
      | some ctor => !ctor.isImplicit && !collapsed cfg s.place.named ctor.decl)

/-- What a context says of the site it was stored at. -/
structure SnapshotAt (s : Site) (ctx : CallSiteContext) : Prop where
  callerUsr : ctx.callerUsr = s.contextCaller.usr
  callSite : ctx.callSite = s.expr.beginLoc
  tries : ctx.enclosingTryCatches = s.place.opened
  inside : s.place.inHandler = false → ctx.insideCatchBlock = false

/-- The visitor stands at a place.  Inside a handler nothing is said of the flag: a nested
try statement clears it. -/
structure StandsAt (v : ControlFlowContextVisitor) (p : Place) : Prop where
  funcs : v.funcStack = p.named
  tries : v.tryScopeStack = p.opened
  inside : p.inHandler = false → v.insideCatchBlock = false

/-- From `v` to `v'` the visitor stored one context for each recorded site, in order. -/
def Walked (sites : List Site) (v v' : ControlFlowContextVisitor) : Prop :=
  ∃ news, v'.contexts = v.contexts ++ news ∧
    List.Forall₂ SnapshotAt (sites.filter (·.contextRecorded cfg)) news

variable {cfg} {v v' v'' : ControlFlowContextVisitor} {p : Place}

theorem Walked.refl (h : v'.contexts = v.contexts) : Walked cfg [] v v' :=
  ⟨[], by rw [h, List.append_nil], .nil⟩

theorem Walked.trans {sites sites' : List Site} (h : Walked cfg sites v v')
    (h' : Walked cfg sites' v' v'') : Walked cfg (sites ++ sites') v v'' := by
  obtain ⟨news, hnews, hall⟩ := h
  obtain ⟨news', hnews', hall'⟩ := h'
  refine ⟨news ++ news', by rw [hnews', hnews, List.append_assoc], ?_⟩
  rw [List.filter_append]
  exact List.rel_append hall hall'

/-- Pushing before and popping after stores nothing. -/
theorem Walked.around {sites : List Site} {w w' : ControlFlowContextVisitor}
    (h : Walked cfg sites w w') (hin : w.contexts = v.contexts) (hout : v'.contexts = w'.contexts) :
    Walked cfg sites v v' := by
  obtain ⟨news, hnews, hall⟩ := h
  exact ⟨news, by rw [hout, hnews, hin], hall⟩

/-- What is not recorded is passed by. -/
theorem Walked.skip {sites rest : List Site} (hskip : ∀ s ∈ sites, s.contextRecorded cfg = false)
    (h : Walked cfg rest v v') : Walked cfg (sites ++ rest) v v' := by
  obtain ⟨news, hnews, hall⟩ := h
  refine ⟨news, hnews, ?_⟩
  have hnone : sites.filter (·.contextRecorded cfg) = [] :=
    List.filter_eq_nil_iff.mpr fun s hs => by rw [hskip s hs]; simp
  rw [List.filter_append, hnone]
  exact hall

theorem hidden_kept : Place.Kept fun p => p.hidden = true :=
  ⟨fun _ _ => rfl, fun _ _ h => h, fun _ _ h => h, fun _ _ _ h => h, fun _ _ _ h => h⟩

theorem not_recorded_of_hidden {s : Site} (h : s.place.hidden = true) :
    s.contextRecorded cfg = false := by
  simp [Site.contextRecorded, h]

theorem head_not_recorded (ns : Nodes) (p : Place) :
    ∀ s ∈ ns.sites p.hide, s.contextRecorded cfg = false :=
  fun s hs => not_recorded_of_hidden (hidden_kept.nodes ns p.hide rfl s hs)

theorem snapshot_buildContext (h : StandsAt v p) (expr : CallSiteExpr) (callee : Ident) :
    SnapshotAt ⟨p, expr⟩
      (v.buildContext cfg (currentFunction v.funcStack) callee expr.beginLoc) := by
  refine ⟨?_, rfl, h.tries, h.inside⟩
  show (currentFunction v.funcStack).usr = (currentFunction p.named).usr
  rw [h.funcs]

/-- A recorded site gets its context. -/
theorem Walked.one (h : StandsAt v p) (expr : CallSiteExpr)
    (hrec : (Site.mk p expr).contextRecorded cfg = true) (callee : Ident) :
    Walked cfg [⟨p, expr⟩] v
      (v.addContext (v.buildContext cfg (currentFunction v.funcStack) callee expr.beginLoc)) := by
  refine ⟨[_], rfl, ?_⟩
  rw [List.filter_singleton, hrec]
  exact .cons (snapshot_buildContext h expr callee) .nil

theorem Walked.none {expr : CallSiteExpr} (hv : v'.contexts = v.contexts)
    (hrec : (Site.mk p expr).contextRecorded cfg = false) : Walked cfg [⟨p, expr⟩] v v' := by
  refine ⟨[], by rw [hv, List.append_nil], ?_⟩
  rw [List.filter_singleton, hrec]
  exact .nil

/-- Visiting a call stores its context, or nothing when it is not recorded. -/
theorem visitCallExpr_walked (cfg : VisitorConfig) (h : StandsAt v p) (hp : p.hidden = false)
    (expr : CallExpr) :
    StandsAt (v.visitCallExpr cfg expr) p ∧
      Walked cfg [⟨p, .call expr⟩] v (v.visitCallExpr cfg expr) := by
  have hfuncs := h.funcs
  unfold ControlFlowContextVisitor.visitCallExpr
  by_cases hcaller : (currentFunction v.funcStack).display = []
  · rw [if_pos hcaller]
    rw [hfuncs] at hcaller
    exact ⟨h, Walked.none rfl (by simp [Site.contextRecorded, Site.contextCaller, hcaller])⟩
  · rw [if_neg hcaller]
    by_cases huser : expr.inUserCode = true
    · simp only [huser, Bool.not_true, Bool.false_eq_true, if_false]
      have hcaller' : (currentFunction p.named).display ≠ [] := hfuncs ▸ hcaller
      cases hdirect : expr.directCallee with
      | none =>
          refine ⟨⟨h.funcs, h.tries, h.inside⟩, Walked.one h (.call expr) ?_ _⟩
          simp [Site.contextRecorded, Site.contextCaller, hp, huser, hdirect, hcaller']
      | some callee =>
          simp only
          by_cases hcol : collapsed cfg v.funcStack callee = true
          · rw [if_pos hcol]
            rw [hfuncs] at hcol
            exact ⟨h, Walked.none rfl (by simp [Site.contextRecorded, hdirect, hcol])⟩
          · rw [if_neg hcol]
            rw [hfuncs] at hcol
            by_cases hassert : isAssertionCall callee.ident.display = true
            · rw [if_pos hassert]
              have hkeep : (v.addAssertion expr).contexts = v.contexts ∧
                  StandsAt (v.addAssertion expr) p := by
                unfold addAssertion
                cases expr.args with
                | nil => exact ⟨rfl, h⟩
                | cons arg rest => exact ⟨rfl, h.funcs, h.tries, h.inside⟩
              exact ⟨hkeep.2, Walked.none hkeep.1 (by simp [Site.contextRecorded, hdirect, hassert])⟩
            · rw [if_neg hassert]
              refine ⟨⟨h.funcs, h.tries, h.inside⟩, Walked.one h (.call expr) ?_ _⟩
              simp [Site.contextRecorded, Site.contextCaller, hp, huser, hdirect, hcaller', hcol,
                hassert]
    · have huser : expr.inUserCode = false := by simpa using huser
      simp only [huser, Bool.not_false, if_true]
      exact ⟨h, Walked.none rfl (by simp [Site.contextRecorded, huser])⟩

theorem visitCXXConstructExpr_walked (cfg : VisitorConfig) (h : StandsAt v p) (hp : p.hidden = false)
    (expr : CXXConstructExpr) :
    StandsAt (v.visitCXXConstructExpr cfg expr) p ∧
      Walked cfg [⟨p, .construct expr⟩] v (v.visitCXXConstructExpr cfg expr) := by
  have hfuncs := h.funcs
  unfold visitCXXConstructExpr
  by_cases hcaller : (currentFunction v.funcStack).display = []
  · rw [if_pos hcaller]
    rw [hfuncs] at hcaller
    exact ⟨h, Walked.none rfl (by simp [Site.contextRecorded, Site.contextCaller, hcaller])⟩
  · rw [if_neg hcaller]
    by_cases huser : expr.inUserCode = true
    · simp only [huser, Bool.not_true, Bool.false_eq_true, if_false]
      have hcaller' : (currentFunction p.named).display ≠ [] := hfuncs ▸ hcaller
      cases hctor : expr.ctor with
      | none => exact ⟨h, Walked.none rfl (by simp [Site.contextRecorded, hctor])⟩
      | some ctor =>
          simp only
          by_cases himplicit : ctor.isImplicit = true
          · rw [if_pos himplicit]
            exact ⟨h, Walked.none rfl (by simp [Site.contextRecorded, hctor, himplicit])⟩
          · rw [if_neg himplicit]
            by_cases hcol : collapsed cfg v.funcStack ctor.decl = true
            · rw [if_pos hcol]
              rw [hfuncs] at hcol
              exact ⟨h, Walked.none rfl (by simp [Site.contextRecorded, hctor, hcol])⟩
            · rw [if_neg hcol]
              rw [hfuncs] at hcol
              refine ⟨⟨h.funcs, h.tries, h.inside⟩, Walked.one h (.construct expr) ?_ _⟩
              simp [Site.contextRecorded, Site.contextCaller, hp, huser, hctor, hcaller',
                himplicit, hcol]
    · have huser : expr.inUserCode = false := by simpa using huser
      simp only [huser, Bool.not_false, if_true]
      exact ⟨h, Walked.none rfl (by simp [Site.contextRecorded, huser])⟩

theorem visitVarDecl_keeps (cfg : VisitorConfig) (h : StandsAt v p) (decl : VarDecl) :
    StandsAt (v.visitVarDecl cfg decl) p ∧ (v.visitVarDecl cfg decl).contexts = v.contexts := by
  unfold ControlFlowContextVisitor.visitVarDecl
  cases v.scopeStack with
  | nil => exact ⟨h, rfl⟩
  | cons frame frames =>
      simp only
      cases decl.isLocal with
      | false => exact ⟨h, rfl⟩
      | true =>
          simp only [Bool.not_true, Bool.false_eq_true, if_false]
          cases classifyRaiiType decl.raiiClass cfg.lockCfg with
          | none => exact ⟨h, rfl⟩
          | some kind => exact ⟨⟨h.funcs, h.tries, h.inside⟩, rfl⟩

mutual

/-- **Walking a tree stores one context for each recorded site, in order, and leaves the
visitor at the place where it was.** -/
theorem traverse_walked (cfg : VisitorConfig) (n : Node) {v : ControlFlowContextVisitor}
    {p : Place} (h : StandsAt v p) (hp : p.hidden = false) :
    StandsAt (traverse cfg n v) p ∧ Walked cfg (n.sites p) v (traverse cfg n v) := by
  cases n with
  | call expr children =>
      obtain ⟨hat, hwalk⟩ := visitCallExpr_walked cfg h hp expr
      obtain ⟨hat', hwalk'⟩ := traverseAll_walked cfg children hat hp
      exact ⟨hat', hwalk.trans hwalk'⟩
  | construct expr children =>
      obtain ⟨hat, hwalk⟩ := visitCXXConstructExpr_walked cfg h hp expr
      obtain ⟨hat', hwalk'⟩ := traverseAll_walked cfg children hat hp
      exact ⟨hat', hwalk.trans hwalk'⟩
  | compound body =>
      have hin : StandsAt v.pushScope p := ⟨h.funcs, h.tries, h.inside⟩
      obtain ⟨hat, hwalk⟩ := traverseAll_walked cfg body hin hp
      exact ⟨⟨hat.funcs, hat.tries, hat.inside⟩, hwalk.around rfl rfl⟩
  | ifStmt stmt head thenStmt elseStmt =>
      have hthen : StandsAt (v.pushGuard stmt true) p := ⟨h.funcs, h.tries, h.inside⟩
      obtain ⟨hat, hwalk⟩ := traverseAll_walked cfg thenStmt hthen hp
      have helse : StandsAt ((traverseAll cfg thenStmt (v.pushGuard stmt true)).popGuard.pushGuard
          stmt false) p := ⟨hat.funcs, hat.tries, hat.inside⟩
      obtain ⟨hat', hwalk'⟩ := traverseAll_walked cfg elseStmt helse hp
      refine ⟨⟨hat'.funcs, hat'.tries, hat'.inside⟩, Walked.skip (head_not_recorded head p) ?_⟩
      exact (hwalk.around rfl rfl).trans (hwalk'.around rfl rfl)
  | tryStmt stmt block handlers =>
      have hin : StandsAt (v.pushTry stmt handlers) (p.inTryBlock stmt handlers) := by
        refine ⟨h.funcs, ?_, h.inside⟩
        show _ :: _ = _ :: _
        rw [h.funcs, h.tries]
        rfl
      obtain ⟨hat, hwalk⟩ := traverse_walked cfg block hin hp
      obtain ⟨hat', hwalk'⟩ := traverseHandlers_walked cfg handlers hat hp
      refine ⟨⟨hat'.funcs, ?_, hat'.inside⟩, (hwalk.around rfl rfl).trans (hwalk'.around rfl rfl)⟩
      show List.tail _ = _
      rw [hat'.tries]
      rfl
  | lambda expr children =>
      have hin : StandsAt v (p.inLambda expr) := ⟨h.funcs, h.tries, h.inside⟩
      obtain ⟨hat, hwalk⟩ := traverseAll_walked cfg children hin hp
      exact ⟨⟨hat.funcs, hat.tries, hat.inside⟩, hwalk⟩
  | function decl children =>
      have hin : StandsAt (v.pushFunction decl) (p.inFunction decl) := by
        refine ⟨?_, h.tries, h.inside⟩
        show decl :: _ = decl :: _
        rw [h.funcs]
      obtain ⟨hat, hwalk⟩ := traverseAll_walked cfg children hin hp
      refine ⟨⟨?_, hat.tries, hat.inside⟩, hwalk.around rfl rfl⟩
      show List.tail _ = _
      rw [hat.funcs]
      rfl
  | varDecl decl children =>
      obtain ⟨hat, hkeep⟩ := visitVarDecl_keeps cfg h decl
      obtain ⟨hat', hwalk⟩ := traverseAll_walked cfg children hat hp
      exact ⟨hat', hwalk.around hkeep rfl⟩
  | other children => exact traverseAll_walked cfg children h hp

theorem traverseAll_walked (cfg : VisitorConfig) (ns : Nodes) {v : ControlFlowContextVisitor}
    {p : Place} (h : StandsAt v p) (hp : p.hidden = false) :
    StandsAt (traverseAll cfg ns v) p ∧ Walked cfg (ns.sites p) v (traverseAll cfg ns v) := by
  cases ns with
  | nil => exact ⟨h, Walked.refl rfl⟩
  | cons node rest =>
      obtain ⟨hat, hwalk⟩ := traverse_walked cfg node h hp
      obtain ⟨hat', hwalk'⟩ := traverseAll_walked cfg rest hat hp
      exact ⟨hat', hwalk.trans hwalk'⟩

/-- The visitor walks the handlers with the try statement on its stack. -/
theorem traverseHandlers_walked (cfg : VisitorConfig) (hs : Handlers)
    {v : ControlFlowContextVisitor} {p : Place} {stmt : CXXTryStmt} {handlers : Handlers}
    (h : StandsAt v (p.inTryBlock stmt handlers)) (hp : p.hidden = false) :
    StandsAt (traverseHandlers cfg hs v) (p.inTryBlock stmt handlers) ∧
      Walked cfg (hs.sites p (p.scope stmt handlers p.opened.length)) v
        (traverseHandlers cfg hs v) := by
  cases hs with
  | nil => exact ⟨h, Walked.refl rfl⟩
  | cons clause exceptionDecl block rest =>
      have hin : StandsAt (v.setInsideCatchBlock true)
          (p.inHandlerOf (p.scope stmt handlers p.opened.length)) :=
        ⟨h.funcs, h.tries, fun hc => absurd hc (by simp [Place.inHandlerOf])⟩
      obtain ⟨hat, hwalk⟩ := traverse_walked cfg block hin hp
      have hout : StandsAt ((traverse cfg block (v.setInsideCatchBlock true)).setInsideCatchBlock
          false) (p.inTryBlock stmt handlers) := ⟨hat.funcs, hat.tries, fun _ => rfl⟩
      obtain ⟨hat', hwalk'⟩ := traverseHandlers_walked cfg rest hout hp
      refine ⟨hat', Walked.skip (head_not_recorded exceptionDecl p) ?_⟩
      exact (hwalk.around rfl rfl).trans hwalk'

end

/-- The contexts of a translation unit are those of its recorded sites, in order. -/
theorem contextsOf_snapshots (cfg : VisitorConfig) (tu : Nodes) :
    List.Forall₂ SnapshotAt ((sitesOf tu).filter (·.contextRecorded cfg)) (contextsOf cfg tu) := by
  have hstart : StandsAt {} {} := ⟨rfl, rfl, fun _ => rfl⟩
  obtain ⟨-, news, hnews, hall⟩ := traverseAll_walked cfg tu hstart rfl
  rw [List.nil_append] at hnews
  show List.Forall₂ _ _ (traverseAll cfg tu {}).contexts
  rw [hnews]
  exact hall

end Contexts

/-! ### The edge visitor -/

section Edges

open CallGraphEdgeVisitor

/-- The caller that the edge visitor names. -/
def Site.edgeCaller (s : Site) : Ident := currentFunction s.place.funcs

/-- A direct call that is no assertion, or a construction. -/
def CallSiteExpr.Direct : CallSiteExpr → Prop
  | .call expr => ∃ callee, expr.directCallee = some callee ∧
      ControlFlowContextVisitor.isAssertionCall callee.ident.display = false
  | .construct _ => True

/-- The edge visitor adds an edge for the direct call or the construction at the site. -/
def Site.edgeRecorded (cfg : VisitorConfig) (s : Site) : Bool :=
  s.edgeCaller.display != [] &&
    match s.expr with
    | .call expr => expr.inUserCode &&
      match expr.directCallee with
      | none => false
      | some callee => !collapsed cfg s.place.funcs callee
    | .construct expr => expr.inUserCode &&
      match expr.ctor with
      | none => false
      | some ctor => !ctor.isImplicit && !collapsed cfg s.place.funcs ctor.decl

/-- An edge that was added at a site. -/
structure AddedAt (cfg : VisitorConfig) (s : Site) (r : EdgeRecord) : Prop where
  expr : r.expr = s.expr
  caller : r.edge.callerName = s.edgeCaller.usr
  callSite : r.edge.callSite = s.expr.beginLoc
  recorded : r.expr.Direct → s.edgeRecorded cfg = true

variable {cfg : VisitorConfig} {v v' v'' : CallGraphEdgeVisitor} {p : Place}

/-- From `v` to `v'` the visitor added edges at the sites, and one at least at every site
whose direct call or construction is recorded; it stands where it stood. -/
structure Edged (cfg : VisitorConfig) (sites : List Site) (v v' : CallGraphEdgeVisitor) : Prop where
  funcs : v'.funcStack = v.funcStack
  added : ∃ news, v'.edges = v.edges ++ news ∧
    (∀ r ∈ news, ∃ s ∈ sites, AddedAt cfg s r) ∧
    ∀ s ∈ sites, s.expr.Direct → s.edgeRecorded cfg = true → ∃ r ∈ news, AddedAt cfg s r

theorem Edged.refl (hfuncs : v'.funcStack = v.funcStack) (hedges : v'.edges = v.edges) :
    Edged cfg [] v v' :=
  ⟨hfuncs, [], by rw [hedges, List.append_nil], by simp, by simp⟩

theorem Edged.trans {sites sites' : List Site} (h : Edged cfg sites v v')
    (h' : Edged cfg sites' v' v'') : Edged cfg (sites ++ sites') v v'' := by
  obtain ⟨hfuncs, news, hnews, hsound, hall⟩ := h
  obtain ⟨hfuncs', news', hnews', hsound', hall'⟩ := h'
  refine ⟨hfuncs'.trans hfuncs, news ++ news', by rw [hnews', hnews, List.append_assoc], ?_, ?_⟩
  · intro r hr
    rcases List.mem_append.mp hr with hr | hr
    · obtain ⟨s, hs, hat⟩ := hsound r hr
      exact ⟨s, List.mem_append_left _ hs, hat⟩
    · obtain ⟨s, hs, hat⟩ := hsound' r hr
      exact ⟨s, List.mem_append_right _ hs, hat⟩
  · intro s hs hdirect hrec
    rcases List.mem_append.mp hs with hs | hs
    · obtain ⟨r, hr, hat⟩ := hall s hs hdirect hrec
      exact ⟨r, List.mem_append_left _ hr, hat⟩
    · obtain ⟨r, hr, hat⟩ := hall' s hs hdirect hrec
      exact ⟨r, List.mem_append_right _ hr, hat⟩

theorem Edged.around {sites : List Site} (decl : FunctionDecl)
    (h : Edged cfg sites (v.push decl) v') : Edged cfg sites v v'.pop := by
  obtain ⟨hfuncs, hadded⟩ := h
  refine ⟨?_, hadded⟩
  show List.tail _ = _
  rw [hfuncs]
  rfl

/-- Adding edges of one expression, all with its caller and location. -/
theorem Edged.one {s : Site} (edges : List CallGraphEdge)
    (hedges : ∀ e ∈ edges, e.callerName = s.edgeCaller.usr ∧ e.callSite = s.expr.beginLoc)
    (hrec : s.expr.Direct → (s.edgeRecorded cfg = true ∧ edges ≠ [])) :
    Edged cfg [s] v (v.addEdges s.expr edges) := by
  have hat : ∀ e ∈ edges, AddedAt cfg s ⟨s.expr, e⟩ := fun e he =>
    ⟨rfl, (hedges e he).1, (hedges e he).2, fun hdirect => (hrec hdirect).1⟩
  refine ⟨rfl, _, rfl, ?_, ?_⟩
  · intro r hr
    obtain ⟨e, he, rfl⟩ := List.mem_map.mp hr
    exact ⟨s, List.mem_singleton_self s, hat e he⟩
  · intro s' hs' hdirect _
    rw [List.mem_singleton.mp hs'] at hdirect ⊢
    obtain ⟨e, he⟩ := List.exists_mem_of_ne_nil _ (hrec hdirect).2
    exact ⟨_, List.mem_map.mpr ⟨e, he, rfl⟩, hat e he⟩

theorem Edged.none {s : Site} (hrec : s.expr.Direct → s.edgeRecorded cfg = false) :
    Edged cfg [s] v v := by
  refine ⟨rfl, [], by rw [List.append_nil], by simp, ?_⟩
  intro s' hs' hdirect hyes
  rw [List.mem_singleton.mp hs'] at hdirect hyes
  rw [hrec hdirect] at hyes
  exact absurd hyes (by simp)

/-- All edges of an expression carry its caller and its location. -/
def OfSite (callerUsr site : Str) (edges : List CallGraphEdge) : Prop :=
  ∀ e ∈ edges, e.callerName = callerUsr ∧ e.callSite = site

theorem OfSite.append {usr site : Str} {a b : List CallGraphEdge} (ha : OfSite usr site a)
    (hb : OfSite usr site b) : OfSite usr site (a ++ b) := by
  intro e he
  rcases List.mem_append.mp he with he | he
  · exact ha e he
  · exact hb e he

theorem OfSite.edgeTo (usr site calleeUsr : Str) (kind : EdgeKind) (confidence : Confidence)
    (depth : UInt32) (ctx : ExecutionContext) :
    OfSite usr site [edgeTo usr site calleeUsr kind confidence depth ctx] := by
  intro e he
  rw [List.mem_singleton.mp he]
  exact ⟨rfl, rfl⟩

theorem processCallableArgs_ofSite (v : CallGraphEdgeVisitor) (args : List Arg) (usr site : Str)
    (ctx : ExecutionContext) : OfSite usr site (v.processCallableArgs args usr site ctx) := by
  intro e he
  obtain ⟨arg, -, he⟩ := List.mem_flatMap.mp he
  unfold processCallableArg at he
  cases hshape : arg.shape with
  | lambda beginLoc =>
      rw [hshape] at he
      exact OfSite.edgeTo _ _ _ _ _ _ _ e he
  | function decl =>
      rw [hshape] at he
      exact OfSite.edgeTo _ _ _ _ _ _ _ e he
  | «variable» decl =>
      rw [hshape] at he
      rcases List.mem_append.mp he with he | he
      · obtain ⟨_, -, rfl⟩ := List.mem_map.mp he
        exact ⟨rfl, rfl⟩
      · obtain ⟨_, -, rfl⟩ := List.mem_map.mp he
        exact ⟨rfl, rfl⟩
  | other =>
      rw [hshape] at he
      exact absurd he List.not_mem_nil

theorem directEdges_ofSite (usr : Str) (expr : CallExpr) (callee : FunctionDecl) :
    OfSite usr expr.beginLoc (directEdges usr expr callee) := by
  unfold directEdges
  cases expr.virtualMethod with
  | some method => exact OfSite.edgeTo _ _ _ _ _ _ _
  | none =>
      by_cases hop : expr.isOperatorCall = true
      · simp only [hop, if_true]
        exact OfSite.edgeTo _ _ _ _ _ _ _
      · simp only [hop]
        refine OfSite.append ?_ (OfSite.edgeTo _ _ _ _ _ _ _)
        unfold madeEdges
        cases expr.templateRecord with
        | none => exact fun e he => absurd he List.not_mem_nil
        | some record =>
            simp only
            split
            · refine OfSite.append ?_ (OfSite.edgeTo _ _ _ _ _ _ _)
              intro e he
              obtain ⟨_, -, rfl⟩ := List.mem_map.mp he
              exact ⟨rfl, rfl⟩
            · exact fun e he => absurd he List.not_mem_nil

theorem directEdges_ne_nil (usr : Str) (expr : CallExpr) (callee : FunctionDecl) :
    directEdges usr expr callee ≠ [] := by
  unfold directEdges
  cases expr.virtualMethod with
  | some method => simp
  | none =>
      by_cases hop : expr.isOperatorCall = true
      · simp [hop]
      · simp [hop]

theorem visitCallExpr_edged (cfg : VisitorConfig) (h : v.funcStack = p.funcs) (expr : CallExpr) :
    Edged cfg [⟨p, .call expr⟩] v (v.visitCallExpr cfg expr) := by
  unfold CallGraphEdgeVisitor.visitCallExpr
  rw [h]
  by_cases hcaller : (currentFunction p.funcs).display = []
  · rw [if_pos hcaller]
    exact Edged.none fun _ => by simp [Site.edgeRecorded, Site.edgeCaller, hcaller]
  · rw [if_neg hcaller]
    by_cases huser : expr.inUserCode = true
    · simp only [huser, Bool.not_true, Bool.false_eq_true, if_false]
      cases hdirect : expr.directCallee with
      | none =>
          refine Edged.one (s := ⟨p, .call expr⟩) _ (processCallableArgs_ofSite _ _ _ _ _) ?_
          rintro ⟨callee, hcallee, -⟩
          rw [hdirect] at hcallee
          exact absurd hcallee (by simp)
      | some callee =>
          simp only
          by_cases hcol : collapsed cfg p.funcs callee = true
          · rw [if_pos hcol]
            exact Edged.none fun _ => by simp [Site.edgeRecorded, hdirect, hcol]
          · rw [if_neg hcol]
            refine Edged.one (s := ⟨p, .call expr⟩) _
              ((processCallableArgs_ofSite _ _ _ _ _).append (directEdges_ofSite _ _ _)) fun _ => ⟨?_, ?_⟩
            · simp [Site.edgeRecorded, Site.edgeCaller, hcaller, huser, hdirect, hcol]
            · exact List.append_ne_nil_of_right_ne_nil _ (directEdges_ne_nil _ _ _)
    · have huser : expr.inUserCode = false := by simpa using huser
      simp only [huser, Bool.not_false, if_true]
      exact Edged.none fun _ => by simp [Site.edgeRecorded, huser]

theorem visitCXXConstructExpr_edged (cfg : VisitorConfig) (h : v.funcStack = p.funcs)
    (expr : CXXConstructExpr) :
    Edged cfg [⟨p, .construct expr⟩] v (v.visitCXXConstructExpr cfg expr) := by
  unfold visitCXXConstructExpr
  rw [h]
  by_cases hcaller : (currentFunction p.funcs).display = []
  · rw [if_pos hcaller]
    exact Edged.none fun _ => by simp [Site.edgeRecorded, Site.edgeCaller, hcaller]
  · rw [if_neg hcaller]
    by_cases huser : expr.inUserCode = true
    · simp only [huser, Bool.not_true, Bool.false_eq_true, if_false]
      cases hctor : expr.ctor with
      | none => exact Edged.none fun _ => by simp [Site.edgeRecorded, hctor]
      | some ctor =>
          simp only
          by_cases himplicit : ctor.isImplicit = true
          · rw [if_pos himplicit]
            exact Edged.none fun _ => by simp [Site.edgeRecorded, hctor, himplicit]
          · rw [if_neg himplicit]
            by_cases hcol : collapsed cfg p.funcs ctor.decl = true
            · rw [if_pos hcol]
              exact Edged.none fun _ => by simp [Site.edgeRecorded, hctor, hcol]
            · rw [if_neg hcol]
              refine Edged.one (s := ⟨p, .construct expr⟩) _ (OfSite.append ?_
                (OfSite.edgeTo _ _ _ _ _ _ _)) fun _ => ⟨?_, ?_⟩
              · split
                · exact processCallableArgs_ofSite _ _ _ _ _
                · exact fun e he => absurd he List.not_mem_nil
              · simp [Site.edgeRecorded, Site.edgeCaller, hcaller, huser, hctor, himplicit, hcol]
              · simp
    · have huser : expr.inUserCode = false := by simpa using huser
      simp only [huser, Bool.not_false, if_true]
      exact Edged.none fun _ => by simp [Site.edgeRecorded, huser]

theorem visitVarDecl_edged (cfg : VisitorConfig) (v : CallGraphEdgeVisitor) (decl : VarDecl) :
    Edged cfg [] v (v.visitVarDecl decl) := by
  unfold CallGraphEdgeVisitor.visitVarDecl
  split
  · exact Edged.refl rfl rfl
  · split
    · exact Edged.refl rfl rfl
    · cases decl.initCallee with
      | none => cases decl.initLambda <;> exact Edged.refl rfl rfl
      | some callee => cases decl.initLambda <;> exact Edged.refl rfl rfl

mutual

/-- **Walking a tree adds edges at its sites and nowhere else, and at every site whose
direct call or construction is recorded.** -/
theorem traverse_edged (cfg : VisitorConfig) (n : Node) {v : CallGraphEdgeVisitor} {p : Place}
    (h : v.funcStack = p.funcs) : Edged cfg (n.sites p) v (traverse cfg n v) := by
  cases n with
  | call expr children =>
      have hvisit := visitCallExpr_edged cfg h expr
      exact hvisit.trans (traverseAll_edged cfg children (hvisit.funcs.trans h))
  | construct expr children =>
      have hvisit := visitCXXConstructExpr_edged cfg h expr
      exact hvisit.trans (traverseAll_edged cfg children (hvisit.funcs.trans h))
  | compound body => exact traverseAll_edged cfg body h
  | ifStmt stmt head thenStmt elseStmt =>
      have hhead := traverseAll_edged cfg head (p := p.hide) h
      have hthen := traverseAll_edged cfg thenStmt (hhead.funcs.trans h)
      have helse := traverseAll_edged cfg elseStmt (hthen.funcs.trans (hhead.funcs.trans h))
      exact hhead.trans (hthen.trans helse)
  | tryStmt stmt block handlers =>
      have hblock := traverse_edged cfg block (p := p.inTryBlock stmt handlers) h
      exact hblock.trans (traverseHandlers_edged cfg handlers _ (hblock.funcs.trans h))
  | lambda expr children =>
      refine Edged.around expr.callOperator
        (traverseAll_edged cfg children (p := p.inLambda expr) ?_)
      show _ :: _ = _ :: _
      rw [h]
  | function decl children =>
      refine Edged.around decl
        (traverseAll_edged cfg children (p := p.inFunction decl) ?_)
      show _ :: _ = _ :: _
      rw [h]
  | varDecl decl children =>
      have hvisit := visitVarDecl_edged cfg v decl
      exact hvisit.trans (traverseAll_edged cfg children (hvisit.funcs.trans h))
  | other children => exact traverseAll_edged cfg children h

theorem traverseAll_edged (cfg : VisitorConfig) (ns : Nodes) {v : CallGraphEdgeVisitor}
    {p : Place} (h : v.funcStack = p.funcs) :
    Edged cfg (ns.sites p) v (traverseAll cfg ns v) := by
  cases ns with
  | nil => exact Edged.refl rfl rfl
  | cons node rest =>
      have hnode := traverse_edged cfg node h
      exact hnode.trans (traverseAll_edged cfg rest (hnode.funcs.trans h))

theorem traverseHandlers_edged (cfg : VisitorConfig) (hs : Handlers) {v : CallGraphEdgeVisitor}
    {p : Place} (scope : TryCatchScope) (h : v.funcStack = p.funcs) :
    Edged cfg (hs.sites p scope) v (traverseHandlers cfg hs v) := by
  cases hs with
  | nil => exact Edged.refl rfl rfl
  | cons clause exceptionDecl block rest =>
      have hdecl := traverseAll_edged cfg exceptionDecl (p := p.hide) h
      have hblock := traverse_edged cfg block (p := p.inHandlerOf scope) (hdecl.funcs.trans h)
      have hrest := traverseHandlers_edged cfg rest scope
        (hblock.funcs.trans (hdecl.funcs.trans h))
      exact hdecl.trans (hblock.trans hrest)

end

/-- The edges of a translation unit stand at its sites, and at every site whose direct call
or construction is recorded there is one. -/
theorem edgesOf_sites (cfg : VisitorConfig) (tu : Nodes) :
    (∀ r ∈ edgesOf cfg tu, ∃ s ∈ sitesOf tu, AddedAt cfg s r) ∧
      ∀ s ∈ sitesOf tu, s.expr.Direct → s.edgeRecorded cfg = true →
        ∃ r ∈ edgesOf cfg tu, AddedAt cfg s r := by
  obtain ⟨-, news, hnews, hsound, hall⟩ := traverseAll_edged cfg tu (v := {}) (p := {}) rfl
  rw [List.nil_append] at hnews
  show (∀ r ∈ (traverseAll cfg tu {}).edges, _) ∧ ∀ s ∈ sitesOf tu, _
  unfold edgesOf
  rw [hnews]
  exact ⟨hsound, hall⟩

end Edges

/-! ### Try statements -/

/-- What is opened around a place: its try blocks, and more in a handler. -/
structure Place.Opened (p : Place) : Prop where
  outside : p.inHandler = false → p.opened = p.tries
  shorter : p.tries.length ≤ p.opened.length
  inside : p.inHandler = true → p.tries.length < p.opened.length

theorem opened_kept : Place.Kept Place.Opened := by
  refine ⟨fun p h => ⟨h.outside, h.shorter, h.inside⟩, fun p _ h => ⟨h.outside, h.shorter, h.inside⟩,
    fun p _ h => ⟨h.outside, h.shorter, h.inside⟩, fun p stmt handlers h => ⟨?_, ?_, ?_⟩,
    fun p stmt handlers h => ⟨?_, ?_, ?_⟩⟩
  · intro hout
    show _ :: _ = _ :: _
    rw [h.outside hout]
  · exact Nat.succ_le_succ h.shorter
  · intro hin
    exact Nat.succ_lt_succ (h.inside hin)
  · intro hout
    exact absurd hout (by simp [Place.inHandlerOf])
  · exact Nat.le_succ_of_le h.shorter
  · intro _
    exact Nat.lt_succ_of_le h.shorter

/-- A context whose try statements are those whose block the site is in, and whose flag
says whether the site is in a handler. -/
structure Exact (s : Site) (ctx : CallSiteContext) : Prop where
  callSite : ctx.callSite = s.expr.beginLoc
  tries : ctx.enclosingTryCatches = s.place.tries
  inside : ctx.insideCatchBlock = s.place.inHandler

theorem SnapshotAt.exact_iff {s : Site} {ctx : CallSiteContext} (h : SnapshotAt s ctx)
    (hopened : s.place.Opened) : Exact s ctx ↔ s.place.inHandler = false := by
  constructor
  · intro hexact
    by_contra hin
    have hlt := hopened.inside (by simpa using hin)
    rw [← h.tries, hexact.tries] at hlt
    exact Nat.lt_irrefl _ hlt
  · intro hout
    exact ⟨h.callSite, by rw [h.tries, hopened.outside hout], by rw [h.inside hout, hout]⟩

theorem forall₂_exact_iff {sites : List Site} {ctxs : List CallSiteContext}
    (h : List.Forall₂ SnapshotAt sites ctxs) (hopened : ∀ s ∈ sites, s.place.Opened) :
    List.Forall₂ Exact sites ctxs ↔ ∀ s ∈ sites, s.place.inHandler = false := by
  induction h with
  | nil => simp
  | cons hsnap _ ih =>
      have hone := hsnap.exact_iff (hopened _ List.mem_cons_self)
      have hrest := ih fun s hs => hopened s (List.mem_cons_of_mem _ hs)
      rw [List.forall₂_cons, hone, hrest, List.forall_mem_cons]

/-- **Every recorded context has exactly the try statements around its call, and the flag
of its place, when and only when no recorded call is in a handler.** -/
theorem try_scopes_exact_iff (cfg : VisitorConfig) (tu : Nodes) :
    List.Forall₂ Exact ((sitesOf tu).filter (·.contextRecorded cfg))
        (ControlFlowContextVisitor.contextsOf cfg tu)
      ↔ ∀ s ∈ sitesOf tu, s.contextRecorded cfg = true → s.place.inHandler = false := by
  have hplaces : ∀ s ∈ sitesOf tu, s.place.Opened :=
    opened_kept.nodes tu {} ⟨fun _ => rfl, Nat.le_refl _, fun h => absurd h (by simp)⟩
  rw [forall₂_exact_iff (contextsOf_snapshots cfg tu)
    fun s hs => hplaces s (List.mem_filter.mp hs).1]
  simp only [List.mem_filter, and_imp]

/-! ### Callers

The visitors name the caller of a call by different stacks and skip different
nodes, so they agree but for the places where one of them does not look.
-/

/-- A site where the visitors look differently: hidden, or directly in a lambda. -/
def Place.Blind (p : Place) : Prop :=
  p.hidden = true ∨ ∃ top rest, p.funcs = top :: rest ∧ top.isLambda = true

/-- The innermost function, unless a lambda, is on both stacks. -/
def Place.Named (p : Place) : Prop :=
  ∀ top rest, p.funcs = top :: rest → top.isLambda = false → ∃ rest', p.named = top :: rest'

theorem named_kept : Place.Kept Place.Named := by
  refine ⟨fun _ h => h, fun p expr _ top rest heq hnot => ?_, fun p decl _ top rest heq _ => ?_,
    fun _ _ _ h => h, fun _ _ _ h => h⟩
  · injection heq with htop
    rw [← htop] at hnot
    exact absurd hnot (by simp [LambdaExpr.callOperator, FunctionDecl.isLambda])
  · injection heq with htop
    exact ⟨p.named, by rw [← htop]; rfl⟩

/-- A normalized pattern is empty or has a slash. -/
theorem normalize_slash (p : Str) :
    CollapseFilter.normalize p = [] ∨ 47 ∈ CollapseFilter.normalize p := by
  by_cases hp : p = []
  · exact Or.inl (by rw [hp]; decide)
  · refine Or.inr ?_
    have hslash : (str "/").head? = some 47 := by decide
    have hhead : 47 ∈ (if p ≠ [] ∧ p.head? ≠ (str "/").head? then str "/" ++ p else p) := by
      split
      · exact List.mem_append_left _ (by decide)
      · rename_i h
        have hh : p.head? = some 47 := by
          by_contra hne
          exact h ⟨hp, by rw [hslash]; exact hne⟩
        exact List.mem_of_mem_head? (by rw [hh]; rfl)
    have htail : ∀ n : Str, 47 ∈ n →
        47 ∈ (if n ≠ [] ∧ n.getLast? ≠ (str "/").head? then n ++ str "/" else n) := by
      intro n hn
      split
      · exact List.mem_append_left _ hn
      · exact hn
    exact htail _ hhead

/-- No pattern tells the two spellings of a missing file apart. -/
theorem isCollapsed_filePath (cfg : VisitorConfig) (decl : FunctionDecl) :
    cfg.collapse.isCollapsed (CallGraphEdgeVisitor.filePath decl)
      = cfg.collapse.isCollapsed (ControlFlowContextVisitor.filePath decl) := by
  unfold CallGraphEdgeVisitor.filePath ControlFlowContextVisitor.filePath
  cases decl.file with
  | some file => rfl
  | none =>
      show List.any (cfg.collapsePaths.map CollapseFilter.normalize) _
        = List.any (cfg.collapsePaths.map CollapseFilter.normalize) _
      rw [List.any_map, List.any_map]
      congr 1
      funext p
      rcases normalize_slash p with hempty | hslash
      · simp [contains, hempty]
      · have hunknown : ¬ CollapseFilter.normalize p <:+: str "<unknown>" :=
          fun hc => absurd (hc.subset hslash) (by decide)
        have hnil : ¬ CollapseFilter.normalize p <:+: [] :=
          fun hc => absurd (hc.subset hslash) List.not_mem_nil
        show decide (_ <:+: str "<unknown>") = decide (_ <:+: [])
        rw [decide_eq_false hunknown, decide_eq_false hnil]

/-- Where the visitors look alike, what the edge visitor records the context visitor
records under the same caller. -/
theorem Site.contextRecorded_of_edge {cfg : VisitorConfig} {s : Site} (hnamed : s.place.Named)
    (hblind : ¬ s.place.Blind) (hdirect : s.expr.Direct) (hrec : s.edgeRecorded cfg = true) :
    s.contextRecorded cfg = true ∧ s.contextCaller = s.edgeCaller := by
  obtain ⟨hhidden, hlambda⟩ := not_or.mp hblind
  have hhidden : s.place.hidden = false := by simpa using hhidden
  cases hfuncs : s.place.funcs with
  | nil => simp [Site.edgeRecorded, Site.edgeCaller, hfuncs, CallGraphEdgeVisitor.currentFunction]
      at hrec
  | cons top rest =>
      have htop : top.isLambda = false := by
        by_contra hc
        exact hlambda ⟨top, rest, hfuncs, by simpa using hc⟩
      obtain ⟨rest', hstack⟩ := hnamed top rest hfuncs htop
      have hloc : top.lambdaLoc = none := by simpa [FunctionDecl.isLambda] using htop
      have hcaller : s.contextCaller = s.edgeCaller := by
        show ControlFlowContextVisitor.currentFunction _ = CallGraphEdgeVisitor.currentFunction _
        rw [hstack, hfuncs, CallGraphEdgeVisitor.currentFunction, hloc]
        rfl
      have hcol : ∀ callee, ControlFlowContextVisitor.collapsed cfg s.place.named callee
          = CallGraphEdgeVisitor.collapsed cfg s.place.funcs callee := by
        intro callee
        rw [hstack, hfuncs]
        show (_ && _) = (_ && _)
        rw [isCollapsed_filePath, isCollapsed_filePath]
      refine ⟨?_, hcaller⟩
      cases hexpr : s.expr with
      | call expr =>
          rw [hexpr] at hdirect
          obtain ⟨callee, hcallee, hassert⟩ := hdirect
          simp [Site.edgeRecorded, hexpr, hcallee] at hrec
          simp [Site.contextRecorded, hexpr, hcallee, hassert, hcaller, hcol, hhidden, hrec]
      | construct expr =>
          simp [Site.edgeRecorded, hexpr] at hrec
          cases hctor : expr.ctor with
          | none => simp [hctor] at hrec
          | some ctor =>
              simp [hctor] at hrec
              simp [Site.contextRecorded, hexpr, hctor, hcaller, hcol, hhidden, hrec]

theorem exists_iff_of_forall₂ {α β : Type} {R : α → β → Prop} {P : α → Prop} {Q : β → Prop}
    (hPQ : ∀ a b, R a b → (P a ↔ Q b)) {l : List α} {l' : List β} (h : List.Forall₂ R l l') :
    (∃ a ∈ l, P a) ↔ ∃ b ∈ l', Q b := by
  induction h with
  | nil => simp
  | cons hab _ ih => simp only [List.mem_cons, exists_eq_or_imp, hPQ _ _ hab, ih]

/-- A context for a caller and a location is stored exactly where a site is recorded. -/
theorem exists_context_iff (cfg : VisitorConfig) (tu : Nodes) (usr loc : Str) :
    (∃ ctx ∈ ControlFlowContextVisitor.contextsOf cfg tu, ctx.callerUsr = usr ∧ ctx.callSite = loc)
      ↔ ∃ s ∈ sitesOf tu, s.contextRecorded cfg = true ∧ s.contextCaller.usr = usr ∧
        s.expr.beginLoc = loc := by
  rw [← exists_iff_of_forall₂ (P := fun s => s.contextCaller.usr = usr ∧ s.expr.beginLoc = loc)
    (fun s ctx h => by rw [h.callerUsr, h.callSite]) (contextsOf_snapshots cfg tu)]
  simp only [List.mem_filter, and_assoc]

/-- **The edge visitor's calls and constructions all have a context of their caller and
location exactly when those it records in the head of an if statement, in an exception
declaration or directly in a lambda share them with a site of the context visitor.** -/
theorem visitors_agree_iff (cfg : VisitorConfig) (tu : Nodes) :
    (∀ r ∈ CallGraphEdgeVisitor.edgesOf cfg tu, r.expr.Direct →
        ∃ ctx ∈ ControlFlowContextVisitor.contextsOf cfg tu,
          ctx.callerUsr = r.edge.callerName ∧ ctx.callSite = r.edge.callSite)
      ↔ ∀ s ∈ sitesOf tu, s.place.Blind → s.expr.Direct → s.edgeRecorded cfg = true →
        ∃ s' ∈ sitesOf tu, s'.contextRecorded cfg = true ∧
          s'.contextCaller.usr = s.edgeCaller.usr ∧ s'.expr.beginLoc = s.expr.beginLoc := by
  obtain ⟨hsound, hall⟩ := edgesOf_sites cfg tu
  simp only [exists_context_iff]
  constructor
  · intro h s hs _ hdirect hrec
    obtain ⟨r, hr, hat⟩ := hall s hs hdirect hrec
    rw [← hat.caller, ← hat.callSite]
    exact h r hr (by rw [hat.expr]; exact hdirect)
  · intro h r hr hdirect
    obtain ⟨s, hs, hat⟩ := hsound r hr
    have hrec := hat.recorded hdirect
    rw [hat.expr] at hdirect
    rw [hat.caller, hat.callSite]
    by_cases hblind : s.place.Blind
    · exact h s hs hblind hdirect hrec
    · have hnamed : s.place.Named :=
        named_kept.nodes tu {} (fun _ _ heq => absurd heq (by simp)) s hs
      obtain ⟨hctx, hcaller⟩ := s.contextRecorded_of_edge hnamed hblind hdirect hrec
      exact ⟨s, hs, hctx, by rw [hcaller], rfl⟩

/-! ### Where they fail -/

/-- `f`, called at `loc` from `main`. -/
def callOf (loc : String) : Node :=
  .call { beginLoc := str loc, directCallee := some { ident := ⟨str "f", str "f"⟩ } } .nil

/-- A TU with nothing but `main`, of the given body. -/
def mainOf (body : Node) : Nodes :=
  .cons (.function { ident := ⟨str "main", str "main"⟩ } (.cons body .nil)) .nil

/-- `catch (...)`. -/
def catchAll : CatchHandlerInfo := { caughtType := [], isCatchAll := true }

/-- A call in a handler, after a nested try statement: it is recorded inside the try
statement whose handler it is in, and as outside any handler. -/
theorem handler_call_in_try :
    let nested := Node.tryStmt {} (.compound .nil) (.cons catchAll .nil (.compound .nil) .nil)
    let block := Node.compound (.cons nested (.cons (callOf "a.cpp:4:3") .nil))
    let tu := mainOf (.tryStmt {} (.compound .nil) (.cons catchAll .nil block .nil))
    ((sitesOf tu).map fun s => (s.place.tries.length, s.place.inHandler)) = [(0, true)] ∧
      ((ControlFlowContextVisitor.contextsOf {} tu).map fun ctx =>
        (ctx.enclosingTryCatches.length, ctx.insideCatchBlock)) = [(1, false)] := by
  decide

/-- A call in the condition of an if statement has an edge and no context. -/
theorem condition_call_no_context :
    let tu := mainOf (.ifStmt {} (.cons (callOf "a.cpp:1:7") .nil) .nil .nil)
    ((CallGraphEdgeVisitor.edgesOf {} tu).map fun r => (r.edge.callerName, r.edge.callSite))
        = [(str "main", str "a.cpp:1:7")] ∧
      ControlFlowContextVisitor.contextsOf {} tu = [] := by
  decide

end Vycor
