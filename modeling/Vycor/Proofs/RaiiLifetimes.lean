/-
RAII locals at a call, and those that are alive there.

A body is blocks, if statements, for statements with a head, variables with initializers, and
calls.  `live` has the calls of a body with the locals alive at each, by the scopes of C++: a
local is alive from the end of its declaration to the end of the block, or of the statement in
whose head or as whose branch it stands.  `seen` has what the visitor's stack holds there.  A
frame is pushed for braces only, and a local goes on it before its initializer is walked; a local
in the head of an if statement never does.

`Scoped` says of a body that no call is where the two differ.  What blocks around the function
left on the stack is seen at every call as well, so that a method of a local class also needs the
stack to be empty where it starts; both together are `Clear`.  Where a body is not clear the two
differ at some call, unless two locals look alike: records are all that is compared, and a local
that should be missing may then stand for one that should be there.
-/
import Vycor.Proofs.CallSites

namespace Vycor

namespace Body

/-! ### Bodies -/

mutual

/-- An expression, of which only calls and constructions matter. -/
inductive Expr
  | call (expr : CallExpr) (args : Exprs)
  | construct (expr : CXXConstructExpr) (args : Exprs)
  | other (operands : Exprs)

/-- Expressions side by side. -/
inductive Exprs
  | nil
  | cons (expr : Expr) (rest : Exprs)

end

/-- An expression, or a variable with its initializer. -/
inductive Item
  | expr (expr : Expr)
  | decl (decl : VarDecl) (init : Exprs)

mutual

/-- A missing else is a null statement: a visitor finds nothing in either. -/
inductive Stmt
  | item (item : Item)
  | block (body : Stmts)
  | ifStmt (stmt : IfStmt) (head : List Item) (thenStmt elseStmt : Stmt)
  | forStmt (head : List Item) (body : Stmt)
  | null

/-- The statements of a block. -/
inductive Stmts
  | nil
  | cons (stmt : Stmt) (rest : Stmts)

end

/-! ### The trees of bodies -/

mutual

/-- The expression as a node of the AST. -/
def Expr.node : Expr → Node
  | .call expr args => .call expr args.nodes
  | .construct expr args => .construct expr args.nodes
  | .other operands => .other operands.nodes

/-- The expressions as nodes. -/
def Exprs.nodes : Exprs → Nodes
  | .nil => .nil
  | .cons expr rest => .cons expr.node rest.nodes

end

/-- A variable stands in a declaration statement. -/
def Item.node : Item → Node
  | .expr e => e.node
  | .decl d init => .other (.cons (.varDecl d init.nodes) .nil)

/-- The items as nodes, before the rest. -/
def itemNodes : List Item → Nodes → Nodes
  | [], rest => rest
  | item :: items, rest => .cons item.node (itemNodes items rest)

mutual

/-- The statement as a node. -/
def Stmt.node : Stmt → Node
  | .item i => i.node
  | .block body => .compound body.nodes
  | .ifStmt stmt head thenStmt elseStmt =>
    .ifStmt stmt (itemNodes head .nil) (.cons thenStmt.node .nil) (.cons elseStmt.node .nil)
  | .forStmt head body => .other (itemNodes head (.cons body.node .nil))
  | .null => .other .nil

/-- The statements as nodes. -/
def Stmts.nodes : Stmts → Nodes
  | .nil => .nil
  | .cons stmt rest => .cons stmt.node rest.nodes

end

/-- A function with its body. -/
def functionNode (fn : FunctionDecl) (body : Stmts) : Node :=
  .function fn (.cons (.compound body.nodes) .nil)

/-! ### The calls of a body -/

mutual

/-- The calls in the expression, in source order. -/
def Expr.calls : Expr → List CallSiteExpr
  | .call expr args => .call expr :: args.calls
  | .construct expr args => .construct expr :: args.calls
  | .other operands => operands.calls

/-- The calls in the expressions. -/
def Exprs.calls : Exprs → List CallSiteExpr
  | .nil => []
  | .cons expr rest => expr.calls ++ rest.calls

end

/-- The calls in the item. -/
def Item.calls : Item → List CallSiteExpr
  | .expr e => e.calls
  | .decl _ init => init.calls

mutual

/-- The calls the visitor walks, which leaves the heads of if statements out. -/
def Stmt.calls : Stmt → List CallSiteExpr
  | .item i => i.calls
  | .block body => body.calls
  | .ifStmt _ _ thenStmt elseStmt => thenStmt.calls ++ elseStmt.calls
  | .forStmt head body => head.flatMap Item.calls ++ body.calls
  | .null => []

/-- The calls in the statements. -/
def Stmts.calls : Stmts → List CallSiteExpr
  | .nil => []
  | .cons stmt rest => stmt.calls ++ rest.calls

end

/-- A call, and the RAII locals it has around it. -/
structure LiveCall where
  expr : CallSiteExpr
  locals : List RaiiLocal
deriving DecidableEq

section Scopes

variable (cfg : VisitorConfig) (fn : FunctionDecl)

/-- The visitor stores a context for a call directly in `fn`. -/
def recorded (expr : CallSiteExpr) : Bool := (Site.mk { named := [fn] } expr).contextRecorded cfg

/-- The visitor stores no context for any of the calls. -/
def Silent (calls : List CallSiteExpr) : Prop := ∀ expr ∈ calls, recorded cfg fn expr = false

/-- The recorded ones among the calls, with the same locals around them. -/
def callsAt (calls : List CallSiteExpr) (locals : List RaiiLocal) : List LiveCall :=
  (calls.filter (recorded cfg fn)).map fun expr => { expr, locals }

/-- The RAII local that a declaration makes, if any. -/
def raiiLocals (decl : VarDecl) : List RaiiLocal :=
  if decl.isLocal then
    match classifyRaiiType decl.raiiClass cfg.lockCfg with
    | none => []
    | some kind =>
      [{ typeName := decl.typeName, varName := decl.name, declLocation := decl.location, kind }]
  else []

/-- The RAII local the item declares, if any. -/
def Item.declares : Item → List RaiiLocal
  | .expr _ => []
  | .decl d _ => raiiLocals cfg d

/-! ### Scopes

Lifetimes as the language has them: a local lives from the end of its
declaration to the end of its block, or of the statement whose head declares it.
-/

/-- An initializer is evaluated before the declaration is complete. -/
def Item.live (locals : List RaiiLocal) (item : Item) : List LiveCall :=
  callsAt cfg fn item.calls locals

/-- The recorded calls of the items with the locals alive at them: an item's local is
alive after it. -/
def itemsLive : List Item → List RaiiLocal → List LiveCall
  | [], _ => []
  | item :: items, locals =>
    item.live cfg fn locals ++ itemsLive items (locals ++ item.declares cfg)

/-- What a statement declares for those after it. -/
def Stmt.declares : Stmt → List RaiiLocal
  | .item i => i.declares cfg
  | _ => []

mutual

/-- The recorded calls of a statement with the locals alive at them. -/
def Stmt.live : Stmt → List RaiiLocal → List LiveCall
  | .item i, locals => i.live cfg fn locals
  | .block body, locals => body.live locals
  | .ifStmt _ head thenStmt elseStmt, locals =>
    let locals := locals ++ head.flatMap (Item.declares cfg)
    thenStmt.live locals ++ elseStmt.live locals
  | .forStmt head body, locals =>
    itemsLive cfg fn head locals ++ body.live (locals ++ head.flatMap (Item.declares cfg))
  | .null, _ => []

/-- The recorded calls of the statements with the locals alive at them. -/
def Stmts.live : Stmts → List RaiiLocal → List LiveCall
  | .nil, _ => []
  | .cons stmt rest, locals => stmt.live locals ++ rest.live (locals ++ stmt.declares cfg)

end

/-! ### The visitor's stack

The visitor has a frame for each block and none for a head or a bare branch, and
it enters a local before it walks the initializer.
-/

/-- A local is on the stack when its initializer is walked. -/
def Item.seen (locals : List RaiiLocal) (item : Item) : List LiveCall :=
  callsAt cfg fn item.calls (locals ++ item.declares cfg)

/-- The recorded calls of the items with the locals the visitor has. -/
def itemsSeen : List Item → List RaiiLocal → List LiveCall
  | [], _ => []
  | item :: items, locals =>
    item.seen cfg fn locals ++ itemsSeen items (locals ++ item.declares cfg)

/-- What walking a statement leaves in the frame it stands in. -/
def Stmt.leaves : Stmt → List RaiiLocal
  | .item i => i.declares cfg
  | .block _ => []
  | .ifStmt _ _ thenStmt elseStmt => thenStmt.leaves ++ elseStmt.leaves
  | .forStmt head body => head.flatMap (Item.declares cfg) ++ body.leaves
  | .null => []

/-- What walking the statements leaves in their frame. -/
def Stmts.leaves : Stmts → List RaiiLocal
  | .nil => []
  | .cons stmt rest => stmt.leaves cfg ++ rest.leaves

mutual

/-- The recorded calls of a statement with the locals on the stack at them. -/
def Stmt.seen : Stmt → List RaiiLocal → List LiveCall
  | .item i, locals => i.seen cfg fn locals
  | .block body, locals => body.seen locals
  | .ifStmt _ _ thenStmt elseStmt, locals =>
    thenStmt.seen locals ++ elseStmt.seen (locals ++ thenStmt.leaves cfg)
  | .forStmt head body, locals =>
    itemsSeen cfg fn head locals ++ body.seen (locals ++ head.flatMap (Item.declares cfg))
  | .null, _ => []

/-- The recorded calls of the statements with the locals the visitor has. -/
def Stmts.seen : Stmts → List RaiiLocal → List LiveCall
  | .nil, _ => []
  | .cons stmt rest, locals => stmt.seen locals ++ rest.seen (locals ++ stmt.leaves cfg)

end

/-! ### When the two agree -/

/-- No call in the initializer of an RAII local. -/
def Item.Scoped (item : Item) : Prop := item.declares cfg = [] ∨ Silent cfg fn item.calls

/-- What a statement leaves behind and does not declare for those after it. -/
def Stmt.leaks : Stmt → List RaiiLocal
  | .item _ => []
  | stmt => stmt.leaves cfg

mutual

/-- No call in the initializer of an RAII local, in a branch of an if statement whose head
declares one, or in what follows a statement in the same frame that leaves one behind. -/
def Stmt.Scoped : Stmt → Prop
  | .item i => i.Scoped cfg fn
  | .block body => body.Scoped
  | .ifStmt _ head thenStmt elseStmt =>
    (head.flatMap (Item.declares cfg) = [] ∨ Silent cfg fn (thenStmt.calls ++ elseStmt.calls)) ∧
      (thenStmt.leaves cfg = [] ∨ Silent cfg fn elseStmt.calls) ∧ thenStmt.Scoped ∧ elseStmt.Scoped
  | .forStmt head body => (∀ item ∈ head, item.Scoped cfg fn) ∧ body.Scoped
  | .null => True

/-- Each statement is so, and no call follows one that leaves a local behind. -/
def Stmts.Scoped : Stmts → Prop
  | .nil => True
  | .cons stmt rest =>
    (stmt.leaks cfg = [] ∨ Silent cfg fn rest.calls) ∧ stmt.Scoped ∧ rest.Scoped

end

mutual

/-- The RAII locals in the heads of if statements, which no frame gets. -/
def Stmt.headLocals : Stmt → List RaiiLocal
  | .item _ => []
  | .block body => body.headLocals
  | .ifStmt _ head thenStmt elseStmt =>
    head.flatMap (Item.declares cfg) ++ (thenStmt.headLocals ++ elseStmt.headLocals)
  | .forStmt _ body => body.headLocals
  | .null => []

/-- Those of the statements. -/
def Stmts.headLocals : Stmts → List RaiiLocal
  | .nil => []
  | .cons stmt rest => stmt.headLocals ++ rest.headLocals

end

mutual

/-- The other RAII locals. -/
def Stmt.frameLocals : Stmt → List RaiiLocal
  | .item i => i.declares cfg
  | .block body => body.frameLocals
  | .ifStmt _ _ thenStmt elseStmt => thenStmt.frameLocals ++ elseStmt.frameLocals
  | .forStmt head body => head.flatMap (Item.declares cfg) ++ body.frameLocals
  | .null => []

/-- Those of the statements. -/
def Stmts.frameLocals : Stmts → List RaiiLocal
  | .nil => []
  | .cons stmt rest => stmt.frameLocals ++ rest.frameLocals

end

end Scopes

/-! ### Calls in order -/

section Order

variable {cfg : VisitorConfig} {fn : FunctionDecl}

theorem silent_append {a b : List CallSiteExpr} :
    Silent cfg fn (a ++ b) ↔ Silent cfg fn a ∧ Silent cfg fn b := by
  unfold Silent
  simp only [List.mem_append, or_imp, forall_and]

/-- The recorded ones among the calls, in order, whatever is around them. -/
def Lists (cfg : VisitorConfig) (fn : FunctionDecl) (calls : List CallSiteExpr)
    (l : List LiveCall) : Prop :=
  l.map (·.expr) = calls.filter (recorded cfg fn)

theorem lists_callsAt (calls : List CallSiteExpr) (locals : List RaiiLocal) :
    Lists cfg fn calls (callsAt cfg fn calls locals) := by
  unfold Lists callsAt
  rw [List.map_map]
  exact List.map_id _

theorem Lists.append {a b : List CallSiteExpr} {l m : List LiveCall} (h : Lists cfg fn a l)
    (h' : Lists cfg fn b m) : Lists cfg fn (a ++ b) (l ++ m) := by
  unfold Lists at h h' ⊢
  rw [List.map_append, List.filter_append, h, h']

theorem Lists.length_eq {calls : List CallSiteExpr} {l m : List LiveCall} (h : Lists cfg fn calls l)
    (h' : Lists cfg fn calls m) : l.length = m.length := by
  have := congrArg List.length (h.trans h'.symm)
  rwa [List.length_map, List.length_map] at this

theorem Lists.eq_nil_iff {calls : List CallSiteExpr} {l : List LiveCall} (h : Lists cfg fn calls l) :
    l = [] ↔ Silent cfg fn calls := by
  rw [← List.map_eq_nil_iff (f := LiveCall.expr), show l.map LiveCall.expr = _ from h,
    List.filter_eq_nil_iff]
  simp only [Bool.not_eq_true]
  rfl

/-- Two lists of silent calls are one list. -/
theorem Lists.eq_of_silent {calls : List CallSiteExpr} {l m : List LiveCall}
    (h : Lists cfg fn calls l) (h' : Lists cfg fn calls m) (hsilent : Silent cfg fn calls) : l = m := by
  rw [h.eq_nil_iff.mpr hsilent, h'.eq_nil_iff.mpr hsilent]

/-- With different locals around them only silent calls are listed alike. -/
theorem silent_of_callsAt_eq {calls : List CallSiteExpr} {a b : List RaiiLocal}
    (h : callsAt cfg fn calls a = callsAt cfg fn calls b) (hne : a ≠ b) : Silent cfg fn calls := by
  refine ((lists_callsAt calls a).eq_nil_iff).mp ?_
  unfold callsAt at h ⊢
  cases hfilter : calls.filter (recorded cfg fn) with
  | nil => rfl
  | cons expr rest =>
      rw [hfilter, List.map_cons, List.map_cons] at h
      injection h with hhead _
      injection hhead with _ hlocals
      exact absurd hlocals hne

theorem Item.lists_seen (item : Item) (locals : List RaiiLocal) :
    Lists cfg fn item.calls (item.seen cfg fn locals) := lists_callsAt _ _

theorem Item.lists_live (item : Item) (locals : List RaiiLocal) :
    Lists cfg fn item.calls (item.live cfg fn locals) := lists_callsAt _ _

theorem lists_itemsSeen (items : List Item) (locals : List RaiiLocal) :
    Lists cfg fn (items.flatMap Item.calls) (itemsSeen cfg fn items locals) := by
  induction items generalizing locals with
  | nil => rfl
  | cons item items ih => exact (item.lists_seen locals).append (ih _)

theorem lists_itemsLive (items : List Item) (locals : List RaiiLocal) :
    Lists cfg fn (items.flatMap Item.calls) (itemsLive cfg fn items locals) := by
  induction items generalizing locals with
  | nil => rfl
  | cons item items ih => exact (item.lists_live locals).append (ih _)

mutual

theorem Stmt.lists_seen (stmt : Stmt) (locals : List RaiiLocal) :
    Lists cfg fn stmt.calls (stmt.seen cfg fn locals) := by
  cases stmt with
  | item i => exact i.lists_seen locals
  | block body => exact body.lists_seen locals
  | ifStmt stmt head thenStmt elseStmt =>
      exact (thenStmt.lists_seen locals).append (elseStmt.lists_seen _)
  | forStmt head body => exact (lists_itemsSeen head locals).append (body.lists_seen _)
  | null => rfl

theorem Stmts.lists_seen (stmts : Stmts) (locals : List RaiiLocal) :
    Lists cfg fn stmts.calls (stmts.seen cfg fn locals) := by
  cases stmts with
  | nil => rfl
  | cons stmt rest => exact (stmt.lists_seen locals).append (rest.lists_seen _)

end

mutual

theorem Stmt.lists_live (stmt : Stmt) (locals : List RaiiLocal) :
    Lists cfg fn stmt.calls (stmt.live cfg fn locals) := by
  cases stmt with
  | item i => exact i.lists_live locals
  | block body => exact body.lists_live locals
  | ifStmt stmt head thenStmt elseStmt =>
      exact (thenStmt.lists_live _).append (elseStmt.lists_live _)
  | forStmt head body => exact (lists_itemsLive head locals).append (body.lists_live _)
  | null => rfl

theorem Stmts.lists_live (stmts : Stmts) (locals : List RaiiLocal) :
    Lists cfg fn stmts.calls (stmts.live cfg fn locals) := by
  cases stmts with
  | nil => rfl
  | cons stmt rest => exact (stmt.lists_live locals).append (rest.lists_live _)

end

theorem Stmt.leaves_eq (stmt : Stmt) : stmt.leaves cfg = stmt.declares cfg ++ stmt.leaks cfg := by
  cases stmt with
  | item i => exact (List.append_nil _).symm
  | _ => rfl

/-! ### Scoped bodies -/

theorem Item.seen_eq_live {item : Item} (h : item.Scoped cfg fn) (locals : List RaiiLocal) :
    item.seen cfg fn locals = item.live cfg fn locals := by
  rcases h with hnone | hsilent
  · unfold Item.seen Item.live
    rw [hnone, List.append_nil]
  · exact (item.lists_seen locals).eq_of_silent (item.lists_live locals) hsilent

theorem itemsSeen_eq_itemsLive {items : List Item} (h : ∀ item ∈ items, item.Scoped cfg fn)
    (locals : List RaiiLocal) : itemsSeen cfg fn items locals = itemsLive cfg fn items locals := by
  induction items generalizing locals with
  | nil => rfl
  | cons item items ih =>
      unfold itemsSeen itemsLive
      rw [Item.seen_eq_live (h item List.mem_cons_self) locals,
        ih fun item' hitem' => h item' (List.mem_cons_of_mem _ hitem')]

mutual

/-- In a scoped body the stack holds the locals that are alive. -/
theorem Stmt.seen_eq_live (stmt : Stmt) (h : stmt.Scoped cfg fn) (locals : List RaiiLocal) :
    stmt.seen cfg fn locals = stmt.live cfg fn locals := by
  cases stmt with
  | item i => exact Item.seen_eq_live h locals
  | block body => exact body.seen_eq_live h locals
  | ifStmt stmt head thenStmt elseStmt =>
      obtain ⟨hhead, hthen, hscoped, hscoped'⟩ := h
      rcases hhead with hnone | hsilent
      · unfold Stmt.seen Stmt.live
        simp only [hnone, List.append_nil]
        rw [thenStmt.seen_eq_live hscoped locals]
        refine congrArg (_ ++ ·) ?_
        rcases hthen with hnothing | hsilent
        · rw [hnothing, List.append_nil]
          exact elseStmt.seen_eq_live hscoped' locals
        · exact (elseStmt.lists_seen _).eq_of_silent (elseStmt.lists_live _) hsilent
      · exact (Stmt.lists_seen (.ifStmt stmt head thenStmt elseStmt) locals).eq_of_silent
          (Stmt.lists_live _ locals) hsilent
  | forStmt head body =>
      unfold Stmt.seen Stmt.live
      rw [itemsSeen_eq_itemsLive h.1, body.seen_eq_live h.2]
  | null => rfl

theorem Stmts.seen_eq_live (stmts : Stmts) (h : stmts.Scoped cfg fn) (locals : List RaiiLocal) :
    stmts.seen cfg fn locals = stmts.live cfg fn locals := by
  cases stmts with
  | nil => rfl
  | cons stmt rest =>
      obtain ⟨hleaks, hscoped, hscoped'⟩ := h
      unfold Stmts.seen Stmts.live
      rw [stmt.seen_eq_live hscoped]
      refine congrArg (_ ++ ·) ?_
      rcases hleaks with hnone | hsilent
      · rw [stmt.leaves_eq, hnone, List.append_nil]
        exact rest.seen_eq_live hscoped' _
      · exact (rest.lists_seen _).eq_of_silent (rest.lists_live _) hsilent

end

/-! ### Bodies that are not scoped

From the first difference on, the stack and the living locals differ at every
call. So a body that is recorded rightly has no recorded call after one.
-/

/-- The stack has too much on it, or a local of a head in `heads` is alive and not on it. -/
structure Differs (heads stack alive : List RaiiLocal) : Prop where
  framed : ∀ x ∈ stack, x ∉ heads
  apart : (∃ x ∈ alive, x ∈ heads) ∨ alive.length < stack.length

theorem Differs.ne {heads stack alive : List RaiiLocal} (h : Differs heads stack alive) :
    stack ≠ alive := by
  rintro rfl
  rcases h.apart with ⟨x, hx, hin⟩ | hlt
  · exact h.framed x hx hin
  · exact Nat.lt_irrefl _ hlt

/-- What goes on the stack and what comes alive after that does not make up for it. -/
theorem Differs.append {heads stack alive onto new : List RaiiLocal} (h : Differs heads stack alive)
    (honto : ∀ x ∈ onto, x ∉ heads) (hnew : (∃ x ∈ new, x ∈ heads) ∨ new.length ≤ onto.length) :
    Differs heads (stack ++ onto) (alive ++ new) where
  framed x hx := (List.mem_append.mp hx).elim (h.framed x) (honto x)
  apart := by
    rcases h.apart with ⟨x, hx, hin⟩ | hlt
    · exact Or.inl ⟨x, List.mem_append_left _ hx, hin⟩
    · rcases hnew with ⟨x, hx, hin⟩ | hle
      · exact Or.inl ⟨x, List.mem_append_right _ hx, hin⟩
      · refine Or.inr ?_
        rw [List.length_append, List.length_append]
        omega

theorem Item.silent_of_differs {item : Item} {heads stack alive : List RaiiLocal}
    (hd : Differs heads stack alive) (hframe : ∀ x ∈ item.declares cfg, x ∉ heads)
    (h : item.seen cfg fn stack = item.live cfg fn alive) : Silent cfg fn item.calls := by
  refine silent_of_callsAt_eq h ?_
  rw [← List.append_nil alive]
  exact (hd.append hframe (Or.inr (Nat.zero_le _))).ne

theorem silent_of_items_differs {items : List Item} {heads stack alive : List RaiiLocal}
    (hd : Differs heads stack alive)
    (hframe : ∀ x ∈ items.flatMap (Item.declares cfg), x ∉ heads)
    (h : itemsSeen cfg fn items stack = itemsLive cfg fn items alive) :
    Silent cfg fn (items.flatMap Item.calls) := by
  induction items generalizing stack alive with
  | nil => exact fun _ hexpr => absurd hexpr List.not_mem_nil
  | cons item items ih =>
      rw [List.flatMap_cons] at hframe
      have hitem := fun x hx => hframe x (List.mem_append_left _ hx)
      have hitems := fun x hx => hframe x (List.mem_append_right _ hx)
      obtain ⟨heq, heq'⟩ :=
        List.append_inj h ((item.lists_seen stack).length_eq (item.lists_live alive))
      exact silent_append.mpr ⟨Item.silent_of_differs hd hitem heq,
        ih (hd.append hitem (Or.inr (Nat.le_refl _))) hitems heq'⟩

theorem Stmt.leaves_subset (stmt : Stmt) : stmt.leaves cfg ⊆ stmt.frameLocals cfg := by
  induction stmt using Stmt.leaves.induct with
  | case1 i => exact List.Subset.refl _
  | case2 body => exact List.nil_subset _
  | case3 stmt head thenStmt elseStmt ihthen ihelse =>
      exact List.append_subset.mpr ⟨fun x hx => List.mem_append_left _ (ihthen hx),
        fun x hx => List.mem_append_right _ (ihelse hx)⟩
  | case4 head body ih =>
      exact List.append_subset.mpr
        ⟨List.subset_append_left _ _, fun x hx => List.mem_append_right _ (ih hx)⟩
  | case5 => exact List.Subset.refl _

theorem Stmt.length_declares_le (stmt : Stmt) :
    (stmt.declares cfg).length ≤ (stmt.leaves cfg).length := by
  rw [stmt.leaves_eq, List.length_append]
  exact Nat.le_add_right _ _

/-- The locals of the if heads are in `heads`, and no other local is. -/
structure Heads (heads headLocals frameLocals : List RaiiLocal) : Prop where
  head : ∀ x ∈ headLocals, x ∈ heads
  frame : ∀ x ∈ frameLocals, x ∉ heads

theorem Heads.left {heads a b c d : List RaiiLocal} (h : Heads heads (a ++ b) (c ++ d)) :
    Heads heads a c :=
  ⟨fun x hx => h.head x (List.mem_append_left _ hx), fun x hx => h.frame x (List.mem_append_left _ hx)⟩

theorem Heads.right {heads a b c d : List RaiiLocal} (h : Heads heads (a ++ b) (c ++ d)) :
    Heads heads b d :=
  ⟨fun x hx => h.head x (List.mem_append_right _ hx), fun x hx => h.frame x (List.mem_append_right _ hx)⟩

/-- The head of an if statement brings nothing to life, or what no frame gets. -/
theorem Heads.new {heads a b c onto : List RaiiLocal} (h : Heads heads (a ++ b) c) :
    (∃ x ∈ a, x ∈ heads) ∨ a.length ≤ onto.length := by
  cases a with
  | nil => exact Or.inr (Nat.zero_le _)
  | cons x rest =>
      exact Or.inl
        ⟨x, List.mem_cons_self, h.head x (List.mem_append_left _ List.mem_cons_self)⟩

theorem Heads.leaves {stmt : Stmt} {heads a : List RaiiLocal}
    (h : Heads heads a (stmt.frameLocals cfg)) : ∀ x ∈ stmt.leaves cfg, x ∉ heads :=
  fun x hx => h.frame x (stmt.leaves_subset hx)

theorem Heads.branches {stmt : IfStmt} {head : List Item} {thenStmt elseStmt : Stmt}
    {heads : List RaiiLocal}
    (h : Heads heads ((Stmt.ifStmt stmt head thenStmt elseStmt).headLocals cfg)
      ((Stmt.ifStmt stmt head thenStmt elseStmt).frameLocals cfg)) :
    Heads heads (thenStmt.headLocals cfg) (thenStmt.frameLocals cfg) ∧
      Heads heads (elseStmt.headLocals cfg) (elseStmt.frameLocals cfg) := by
  have hboth : Heads heads (thenStmt.headLocals cfg ++ elseStmt.headLocals cfg)
      (thenStmt.frameLocals cfg ++ elseStmt.frameLocals cfg) :=
    ⟨fun x hx => h.head x (List.mem_append_right _ hx), h.frame⟩
  exact ⟨hboth.left, hboth.right⟩

theorem Heads.loop {head : List Item} {body : Stmt} {heads : List RaiiLocal}
    (h : Heads heads ((Stmt.forStmt head body).headLocals cfg)
      ((Stmt.forStmt head body).frameLocals cfg)) :
    (∀ x ∈ head.flatMap (Item.declares cfg), x ∉ heads) ∧
      Heads heads (body.headLocals cfg) (body.frameLocals cfg) :=
  ⟨fun x hx => h.frame x (List.mem_append_left _ hx),
    h.head, fun x hx => h.frame x (List.mem_append_right _ hx)⟩

mutual

/-- Where the stack differs from what is alive, it does at every call that follows. -/
theorem Stmt.silent_of_differs (stmt : Stmt) {heads stack alive : List RaiiLocal}
    (hd : Differs heads stack alive) (hh : Heads heads (stmt.headLocals cfg) (stmt.frameLocals cfg))
    (h : stmt.seen cfg fn stack = stmt.live cfg fn alive) : Silent cfg fn stmt.calls := by
  cases stmt with
  | item i => exact Item.silent_of_differs hd hh.frame h
  | block body => exact body.silent_of_differs hd hh h
  | ifStmt stmt head thenStmt elseStmt =>
      obtain ⟨hthen, helse⟩ := hh.branches
      obtain ⟨heq, heq'⟩ := List.append_inj h
        ((thenStmt.lists_seen stack).length_eq (thenStmt.lists_live _))
      refine silent_append.mpr
        ⟨thenStmt.silent_of_differs ?_ hthen heq, elseStmt.silent_of_differs ?_ helse heq'⟩
      · rw [← List.append_nil stack]
        exact hd.append (fun _ hx => absurd hx List.not_mem_nil) hh.new
      · exact hd.append hthen.leaves hh.new
  | forStmt head body =>
      obtain ⟨hhead, hbody⟩ := hh.loop
      obtain ⟨heq, heq'⟩ := List.append_inj h
        ((lists_itemsSeen head stack).length_eq (lists_itemsLive head alive))
      exact silent_append.mpr ⟨silent_of_items_differs hd hhead heq,
        body.silent_of_differs (hd.append hhead (Or.inr (Nat.le_refl _))) hbody heq'⟩
  | null => exact fun _ hexpr => absurd hexpr List.not_mem_nil

theorem Stmts.silent_of_differs (stmts : Stmts) {heads stack alive : List RaiiLocal}
    (hd : Differs heads stack alive)
    (hh : Heads heads (stmts.headLocals cfg) (stmts.frameLocals cfg))
    (h : stmts.seen cfg fn stack = stmts.live cfg fn alive) : Silent cfg fn stmts.calls := by
  cases stmts with
  | nil => exact fun _ hexpr => absurd hexpr List.not_mem_nil
  | cons stmt rest =>
      obtain ⟨heq, heq'⟩ := List.append_inj h ((stmt.lists_seen stack).length_eq (stmt.lists_live alive))
      refine silent_append.mpr
        ⟨stmt.silent_of_differs hd hh.left heq, rest.silent_of_differs ?_ hh.right heq'⟩
      exact hd.append hh.left.leaves (Or.inr stmt.length_declares_le)

end

theorem Item.scoped_of_eq {item : Item} {locals : List RaiiLocal}
    (h : item.seen cfg fn locals = item.live cfg fn locals) : item.Scoped cfg fn := by
  by_cases hnone : item.declares cfg = []
  · exact Or.inl hnone
  · refine Or.inr (silent_of_callsAt_eq h fun heq => hnone ?_)
    exact List.append_right_eq_self.mp heq

theorem scoped_of_items_eq {items : List Item} {locals : List RaiiLocal}
    (h : itemsSeen cfg fn items locals = itemsLive cfg fn items locals) :
    ∀ item ∈ items, item.Scoped cfg fn := by
  induction items generalizing locals with
  | nil => exact fun _ hitem => absurd hitem List.not_mem_nil
  | cons item items ih =>
      obtain ⟨hitem, hitems⟩ :=
        List.append_inj h ((item.lists_seen locals).length_eq (item.lists_live locals))
      intro item' hitem'
      rcases List.mem_cons.mp hitem' with rfl | hitem'
      · exact Item.scoped_of_eq hitem
      · exact ih hitems item' hitem'

mutual

theorem Stmt.scoped_of_silent (stmt : Stmt) (h : Silent cfg fn stmt.calls) : stmt.Scoped cfg fn := by
  cases stmt with
  | item i => exact Or.inr h
  | block body => exact body.scoped_of_silent h
  | ifStmt stmt head thenStmt elseStmt =>
      obtain ⟨hthen, helse⟩ := silent_append.mp h
      exact ⟨Or.inr h, Or.inr helse, thenStmt.scoped_of_silent hthen, elseStmt.scoped_of_silent helse⟩
  | forStmt head body =>
      obtain ⟨hhead, hbody⟩ := silent_append.mp h
      refine ⟨fun item hitem => Or.inr fun expr hexpr => ?_, body.scoped_of_silent hbody⟩
      exact hhead expr (List.mem_flatMap.mpr ⟨item, hitem, hexpr⟩)
  | null => trivial

theorem Stmts.scoped_of_silent (stmts : Stmts) (h : Silent cfg fn stmts.calls) :
    stmts.Scoped cfg fn := by
  cases stmts with
  | nil => trivial
  | cons stmt rest =>
      obtain ⟨hstmt, hrest⟩ := silent_append.mp h
      exact ⟨Or.inr hrest, stmt.scoped_of_silent hstmt, rest.scoped_of_silent hrest⟩

end

mutual

/-- The stack holds what is alive only in a scoped body. -/
theorem Stmt.scoped_of_eq (stmt : Stmt) {heads locals : List RaiiLocal}
    (hlocals : ∀ x ∈ locals, x ∉ heads)
    (hh : Heads heads (stmt.headLocals cfg) (stmt.frameLocals cfg))
    (h : stmt.seen cfg fn locals = stmt.live cfg fn locals) : stmt.Scoped cfg fn := by
  cases stmt with
  | item i => exact Item.scoped_of_eq h
  | block body => exact body.scoped_of_eq hlocals hh h
  | ifStmt stmt head thenStmt elseStmt =>
      obtain ⟨hthen, helse⟩ := hh.branches
      obtain ⟨heq, heq'⟩ := List.append_inj h
        ((thenStmt.lists_seen locals).length_eq (thenStmt.lists_live _))
      cases hdeclares : head.flatMap (Item.declares cfg) with
      | cons x xs =>
          -- a local of the head is alive in both branches and on no stack
          have hmem : x ∈ head.flatMap (Item.declares cfg) := hdeclares ▸ List.mem_cons_self
          have hx : ∃ y ∈ locals ++ head.flatMap (Item.declares cfg), y ∈ heads :=
            ⟨x, List.mem_append_right _ hmem, hh.head x (List.mem_append_left _ hmem)⟩
          have hsilent := thenStmt.silent_of_differs ⟨hlocals, Or.inl hx⟩ hthen heq
          have hsilent' := elseStmt.silent_of_differs ⟨?_, Or.inl hx⟩ helse heq'
          · exact ⟨Or.inr (silent_append.mpr ⟨hsilent, hsilent'⟩), Or.inr hsilent',
              thenStmt.scoped_of_silent hsilent, elseStmt.scoped_of_silent hsilent'⟩
          · exact fun y hy => (List.mem_append.mp hy).elim (hlocals y) (hthen.leaves y)
      | nil =>
          simp only [hdeclares, List.append_nil] at heq heq'
          have hscoped := thenStmt.scoped_of_eq hlocals hthen heq
          cases hleaves : thenStmt.leaves cfg with
          | nil =>
              rw [hleaves, List.append_nil] at heq'
              exact ⟨Or.inl hdeclares, Or.inl hleaves, hscoped, elseStmt.scoped_of_eq hlocals helse heq'⟩
          | cons x xs =>
              -- what the first branch leaves is on the stack in the second
              have hsilent := elseStmt.silent_of_differs ⟨?_, Or.inr ?_⟩ helse heq'
              · exact ⟨Or.inl hdeclares, Or.inr hsilent, hscoped, elseStmt.scoped_of_silent hsilent⟩
              · exact fun y hy => (List.mem_append.mp hy).elim (hlocals y) (hthen.leaves y)
              · simp [hleaves]
  | forStmt head body =>
      obtain ⟨hhead, hbody⟩ := hh.loop
      obtain ⟨heq, heq'⟩ := List.append_inj h
        ((lists_itemsSeen head locals).length_eq (lists_itemsLive head locals))
      refine ⟨scoped_of_items_eq heq, body.scoped_of_eq ?_ hbody heq'⟩
      exact fun x hx => (List.mem_append.mp hx).elim (hlocals x) (hhead x)
  | null => trivial

theorem Stmts.scoped_of_eq (stmts : Stmts) {heads locals : List RaiiLocal}
    (hlocals : ∀ x ∈ locals, x ∉ heads)
    (hh : Heads heads (stmts.headLocals cfg) (stmts.frameLocals cfg))
    (h : stmts.seen cfg fn locals = stmts.live cfg fn locals) : stmts.Scoped cfg fn := by
  cases stmts with
  | nil => trivial
  | cons stmt rest =>
      obtain ⟨heq, heq'⟩ := List.append_inj h
        ((stmt.lists_seen locals).length_eq (stmt.lists_live locals))
      have hscoped := stmt.scoped_of_eq hlocals hh.left heq
      have hstack : ∀ x ∈ locals ++ stmt.leaves cfg, x ∉ heads :=
        fun x hx => (List.mem_append.mp hx).elim (hlocals x) (hh.left.leaves x)
      cases hleaks : stmt.leaks cfg with
      | nil =>
          rw [stmt.leaves_eq, hleaks, List.append_nil] at heq' hstack
          exact ⟨Or.inl hleaks, hscoped, rest.scoped_of_eq hstack hh.right heq'⟩
      | cons x xs =>
          -- what leaks is on the stack and not alive
          have hsilent := rest.silent_of_differs ⟨hstack, Or.inr ?_⟩ hh.right heq'
          · exact ⟨Or.inr hsilent, hscoped, rest.scoped_of_silent hsilent⟩
          · simp [stmt.leaves_eq, hleaks]

end

end Order

/-! ### Walking a body -/

open ControlFlowContextVisitor

variable {cfg : VisitorConfig} {fn : FunctionDecl} {v v' v'' : ControlFlowContextVisitor}

/-- The locals on the stack, outermost first. -/
def onStack (v : ControlFlowContextVisitor) : List RaiiLocal := v.scopeStack.reverse.flatten

/-- Where a context was stored and with which locals. -/
def observed (ctx : CallSiteContext) : Str × List RaiiLocal := (ctx.callSite, ctx.liveRaiiLocals)

/-- What an observer has of the call: where it starts, and its locals. -/
def LiveCall.observed (call : LiveCall) : Str × List RaiiLocal := (call.expr.beginLoc, call.locals)

/-- The visitor is in the body of `fn`, with a frame open. -/
structure InBody (fn : FunctionDecl) (v : ControlFlowContextVisitor) : Prop where
  funcs : ∃ outer, v.funcStack = fn :: outer
  frames : ∃ frame outer, v.scopeStack = frame :: outer

/-- From `v` to `v'` the visitor stored the calls and left the locals in its frame. -/
structure Walks (calls : List LiveCall) (leaves : List RaiiLocal)
    (v v' : ControlFlowContextVisitor) : Prop where
  funcs : v'.funcStack = v.funcStack
  frames : ∀ frame outer, v.scopeStack = frame :: outer → v'.scopeStack = (frame ++ leaves) :: outer
  stored : ∃ news, v'.contexts = v.contexts ++ news ∧
    news.map observed = calls.map LiveCall.observed

theorem Walks.refl (v : ControlFlowContextVisitor) : Walks [] [] v v where
  funcs := rfl
  frames frame outer h := by rw [h, List.append_nil]
  stored := ⟨[], (List.append_nil _).symm, rfl⟩

theorem Walks.trans {calls calls' : List LiveCall} {leaves leaves' : List RaiiLocal}
    (h : Walks calls leaves v v') (h' : Walks calls' leaves' v' v'') :
    Walks (calls ++ calls') (leaves ++ leaves') v v'' where
  funcs := h'.funcs.trans h.funcs
  frames frame outer hv := by rw [h'.frames _ _ (h.frames frame outer hv), List.append_assoc]
  stored := by
    obtain ⟨news, hnews, hcalls⟩ := h.stored
    obtain ⟨news', hnews', hcalls'⟩ := h'.stored
    refine ⟨news ++ news', by rw [hnews', hnews, List.append_assoc], ?_⟩
    rw [List.map_append, List.map_append, hcalls, hcalls']

theorem Walks.inBody {calls : List LiveCall} {leaves : List RaiiLocal} (h : Walks calls leaves v v')
    (hv : InBody fn v) : InBody fn v' := by
  obtain ⟨frame, outer, hframes⟩ := hv.frames
  refine ⟨?_, _, outer, h.frames frame outer hframes⟩
  rw [h.funcs]
  exact hv.funcs

theorem Walks.onStack {calls : List LiveCall} {leaves : List RaiiLocal} (h : Walks calls leaves v v')
    (hv : InBody fn v) : onStack v' = onStack v ++ leaves := by
  obtain ⟨frame, outer, hframes⟩ := hv.frames
  unfold Body.onStack
  rw [h.frames frame outer hframes, hframes]
  simp

/-- What visiting a call does: nothing that shows, or to store one context. -/
structure Visits (loc : Str) (v v' : ControlFlowContextVisitor) : Prop where
  funcs : v'.funcStack = v.funcStack
  scopes : v'.scopeStack = v.scopeStack
  stored : v'.contexts = v.contexts ∨
    ∃ ctx, v'.contexts = v.contexts ++ [ctx] ∧ observed ctx = (loc, onStack v)

theorem visits_addAssertion (v : ControlFlowContextVisitor) (expr : CallExpr) (loc : Str) :
    Visits loc v (v.addAssertion expr) := by
  unfold addAssertion
  cases expr.args <;> exact ⟨rfl, rfl, Or.inl rfl⟩

theorem visits_visitCallExpr (cfg : VisitorConfig) (v : ControlFlowContextVisitor) (expr : CallExpr) :
    Visits expr.beginLoc v (v.visitCallExpr cfg expr) := by
  have hsame : Visits expr.beginLoc v v := ⟨rfl, rfl, Or.inl rfl⟩
  have hadd : ∀ caller callee,
      Visits expr.beginLoc v (v.addContext (v.buildContext cfg caller callee expr.beginLoc)) :=
    fun _ _ => ⟨rfl, rfl, Or.inr ⟨_, rfl, rfl⟩⟩
  unfold ControlFlowContextVisitor.visitCallExpr
  by_cases hcaller : (currentFunction v.funcStack).display = []
  · rw [if_pos hcaller]
    exact hsame
  · rw [if_neg hcaller]
    split
    · exact hsame
    · split
      · exact hadd _ _
      · split
        · exact hsame
        · split
          · exact visits_addAssertion v expr _
          · exact hadd _ _

theorem visits_visitCXXConstructExpr (cfg : VisitorConfig) (v : ControlFlowContextVisitor)
    (expr : CXXConstructExpr) : Visits expr.beginLoc v (v.visitCXXConstructExpr cfg expr) := by
  have hsame : Visits expr.beginLoc v v := ⟨rfl, rfl, Or.inl rfl⟩
  unfold visitCXXConstructExpr
  by_cases hcaller : (currentFunction v.funcStack).display = []
  · rw [if_pos hcaller]
    exact hsame
  · rw [if_neg hcaller]
    split
    · exact hsame
    · split
      · exact hsame
      · split
        · exact hsame
        · split
          · exact hsame
          · exact ⟨rfl, rfl, Or.inr ⟨_, rfl, rfl⟩⟩

/-- The place the visitor is at, as far as contexts are concerned. -/
def placeOf (v : ControlFlowContextVisitor) : Place where
  named := v.funcStack
  opened := v.tryScopeStack
  inHandler := true

theorem standsAt_placeOf (v : ControlFlowContextVisitor) : StandsAt v (placeOf v) :=
  ⟨rfl, rfl, fun h => by cases h⟩

theorem recorded_placeOf (hv : InBody fn v) (expr : CallSiteExpr) :
    (Site.mk (placeOf v) expr).contextRecorded cfg = recorded cfg fn expr := by
  obtain ⟨outer, hfuncs⟩ := hv.funcs
  unfold recorded placeOf
  rw [hfuncs]
  cases expr <;> rfl

/-- A recorded call is stored with what is on the stack, and no other call is stored. -/
theorem Visits.walks (expr : CallSiteExpr) (h : Visits expr.beginLoc v v') (hv : InBody fn v)
    (hwalked : Walked cfg [⟨placeOf v, expr⟩] v v') :
    Walks (callsAt cfg fn [expr] (onStack v)) [] v v' where
  funcs := h.funcs
  frames frame outer hframes := by rw [h.scopes, hframes, List.append_nil]
  stored := by
    obtain ⟨news, hnews, hall⟩ := hwalked
    have hlen := hall.length_eq
    refine ⟨news, hnews, ?_⟩
    unfold callsAt
    rw [List.filter_singleton, recorded_placeOf hv] at hlen
    rw [List.filter_singleton]
    cases hrecorded : recorded cfg fn expr with
    | false =>
        rw [hrecorded] at hlen
        rw [List.eq_nil_of_length_eq_zero hlen.symm]
        rfl
    | true =>
        rw [hrecorded] at hlen
        rcases h.stored with hsame | ⟨ctx, hctx, hobserved⟩
        · rw [hsame] at hnews
          rw [List.self_eq_append_right.mp hnews] at hlen
          cases hlen
        · rw [hctx] at hnews
          rw [← List.append_cancel_left hnews]
          exact congrArg ([·]) hobserved

theorem visitCallExpr_walks (cfg : VisitorConfig) (hv : InBody fn v) (expr : CallExpr) :
    Walks (callsAt cfg fn [.call expr] (onStack v)) [] v (v.visitCallExpr cfg expr) :=
  Visits.walks (.call expr) (visits_visitCallExpr cfg v expr) hv
    (visitCallExpr_walked cfg (standsAt_placeOf v) rfl expr).2

theorem visitCXXConstructExpr_walks (cfg : VisitorConfig) (hv : InBody fn v)
    (expr : CXXConstructExpr) :
    Walks (callsAt cfg fn [.construct expr] (onStack v)) [] v (v.visitCXXConstructExpr cfg expr) :=
  Visits.walks (.construct expr) (visits_visitCXXConstructExpr cfg v expr) hv
    (visitCXXConstructExpr_walked cfg (standsAt_placeOf v) rfl expr).2

theorem visitVarDecl_walks (cfg : VisitorConfig) (hv : InBody fn v) (decl : VarDecl) :
    Walks [] (raiiLocals cfg decl) v (v.visitVarDecl cfg decl) := by
  obtain ⟨frame, outer, hframes⟩ := hv.frames
  unfold ControlFlowContextVisitor.visitVarDecl raiiLocals
  rw [hframes]
  simp only
  cases decl.isLocal with
  | false => exact Walks.refl v
  | true =>
      simp only [Bool.not_true, Bool.false_eq_true, if_false, if_true]
      cases classifyRaiiType decl.raiiClass cfg.lockCfg with
      | none => exact Walks.refl v
      | some kind =>
          refine ⟨rfl, fun frame' outer' h => ?_, [], (List.append_nil _).symm, rfl⟩
          rw [hframes] at h
          injection h with hframe houter
          rw [← hframe, ← houter]

theorem callsAt_append (a b : List CallSiteExpr) (locals : List RaiiLocal) :
    callsAt cfg fn (a ++ b) locals = callsAt cfg fn a locals ++ callsAt cfg fn b locals := by
  unfold callsAt
  rw [List.filter_append, List.map_append]

mutual

theorem Expr.walks (cfg : VisitorConfig) (expr : Expr) {v : ControlFlowContextVisitor}
    (hv : InBody fn v) :
    Walks (callsAt cfg fn expr.calls (onStack v)) [] v (traverse cfg expr.node v) := by
  cases expr with
  | call e args =>
      have hvisit := visitCallExpr_walks cfg hv e
      have hargs := args.walks cfg (hvisit.inBody hv)
      rw [hvisit.onStack hv, List.append_nil] at hargs
      exact (callsAt_append [.call e] args.calls (onStack v)) ▸ hvisit.trans hargs
  | construct e args =>
      have hvisit := visitCXXConstructExpr_walks cfg hv e
      have hargs := args.walks cfg (hvisit.inBody hv)
      rw [hvisit.onStack hv, List.append_nil] at hargs
      exact (callsAt_append [.construct e] args.calls (onStack v)) ▸ hvisit.trans hargs
  | other operands => exact operands.walks cfg hv

theorem Exprs.walks (cfg : VisitorConfig) (exprs : Exprs) {v : ControlFlowContextVisitor}
    (hv : InBody fn v) :
    Walks (callsAt cfg fn exprs.calls (onStack v)) [] v (traverseAll cfg exprs.nodes v) := by
  cases exprs with
  | nil => exact Walks.refl v
  | cons expr rest =>
      have hexpr := expr.walks cfg hv
      have hrest := rest.walks cfg (hexpr.inBody hv)
      rw [hexpr.onStack hv, List.append_nil] at hrest
      exact (callsAt_append expr.calls rest.calls (onStack v)) ▸ hexpr.trans hrest

end

theorem Item.walks (cfg : VisitorConfig) (item : Item) (hv : InBody fn v) :
    Walks (item.seen cfg fn (onStack v)) (item.declares cfg) v (traverse cfg item.node v) := by
  cases item with
  | expr e =>
      have hexpr := e.walks cfg hv
      rw [← List.append_nil (onStack v)] at hexpr
      exact hexpr
  | decl d init =>
      have hdecl := visitVarDecl_walks cfg hv d
      have hinit := init.walks cfg (hdecl.inBody hv)
      rw [hdecl.onStack hv] at hinit
      have hboth := hdecl.trans hinit
      rw [List.append_nil] at hboth
      exact hboth

theorem itemNodes_walks (cfg : VisitorConfig) (items : List Item) (rest : Nodes)
    {v : ControlFlowContextVisitor} (hv : InBody fn v) :
    ∃ v', Walks (itemsSeen cfg fn items (onStack v)) (items.flatMap (Item.declares cfg)) v v' ∧
      traverseAll cfg (itemNodes items rest) v = traverseAll cfg rest v' := by
  induction items generalizing v with
  | nil => exact ⟨v, Walks.refl v, rfl⟩
  | cons item items ih =>
      have hitem := item.walks cfg hv
      obtain ⟨v', hitems, heq⟩ := ih (hitem.inBody hv)
      rw [hitem.onStack hv] at hitems
      exact ⟨v', hitem.trans hitems, heq⟩

mutual

/-- Walking a statement stores its calls with what the stack holds. -/
theorem Stmt.walks (cfg : VisitorConfig) (stmt : Stmt) {v : ControlFlowContextVisitor}
    (hv : InBody fn v) :
    Walks (stmt.seen cfg fn (onStack v)) (stmt.leaves cfg) v (traverse cfg stmt.node v) := by
  cases stmt with
  | item i => exact i.walks cfg hv
  | block body =>
      have hin : InBody fn v.pushScope := ⟨hv.funcs, _, _, rfl⟩
      have hbody := body.walks cfg hin
      rw [show onStack v.pushScope = onStack v by simp [onStack, pushScope]] at hbody
      refine ⟨hbody.funcs, fun frame outer hframes => ?_, hbody.stored⟩
      change (traverseAll cfg body.nodes v.pushScope).scopeStack.tail = _
      rw [hbody.frames [] v.scopeStack rfl, List.tail_cons, hframes]
      exact congrArg (· :: outer) (List.append_nil frame).symm
  | ifStmt stmt head thenStmt elseStmt =>
      have hthen := thenStmt.walks cfg (v := v.pushGuard stmt true) ⟨hv.funcs, hv.frames⟩
      have hthen' : Walks (thenStmt.seen cfg fn (onStack v)) (thenStmt.leaves cfg) v
          (traverse cfg thenStmt.node (v.pushGuard stmt true)).popGuard :=
        ⟨hthen.funcs, hthen.frames, hthen.stored⟩
      have hmid := hthen'.inBody hv
      have helse := elseStmt.walks cfg (v := (traverse cfg thenStmt.node
        (v.pushGuard stmt true)).popGuard.pushGuard stmt false) ⟨hmid.funcs, hmid.frames⟩
      have helse' : Walks (elseStmt.seen cfg fn (onStack v ++ thenStmt.leaves cfg))
          (elseStmt.leaves cfg) (traverse cfg thenStmt.node (v.pushGuard stmt true)).popGuard
          (traverse cfg (Stmt.ifStmt stmt head thenStmt elseStmt).node v) := by
        rw [← hthen'.onStack hv]
        exact ⟨helse.funcs, helse.frames, helse.stored⟩
      exact hthen'.trans helse'
  | forStmt head body =>
      obtain ⟨v', hhead, heq⟩ := itemNodes_walks cfg head (.cons body.node .nil) hv
      have hbody := body.walks cfg (hhead.inBody hv)
      rw [hhead.onStack hv] at hbody
      change Walks _ _ v (traverseAll cfg (itemNodes head (.cons body.node .nil)) v)
      rw [heq]
      exact hhead.trans hbody
  | null => exact Walks.refl v

theorem Stmts.walks (cfg : VisitorConfig) (stmts : Stmts) {v : ControlFlowContextVisitor}
    (hv : InBody fn v) :
    Walks (stmts.seen cfg fn (onStack v)) (stmts.leaves cfg) v (traverseAll cfg stmts.nodes v) := by
  cases stmts with
  | nil => exact Walks.refl v
  | cons stmt rest =>
      have hstmt := stmt.walks cfg hv
      have hrest := rest.walks cfg (hstmt.inBody hv)
      rw [hstmt.onStack hv] at hrest
      exact hstmt.trans hrest

end

/-- The contexts that walking a function adds to `v`, which may stand in a block of another. -/
def newContexts (cfg : VisitorConfig) (v : ControlFlowContextVisitor) (fn : FunctionDecl)
    (body : Stmts) : List CallSiteContext :=
  (traverse cfg (functionNode fn body) v).contexts.drop v.contexts.length

/-- The contexts have the locals that are alive, call by call. -/
def RecordsLive (cfg : VisitorConfig) (v : ControlFlowContextVisitor) (fn : FunctionDecl)
    (body : Stmts) : Prop :=
  (newContexts cfg v fn body).map observed = (body.live cfg fn []).map LiveCall.observed

/-- A scoped body, and no local of a function around it is on the stack at a call. -/
structure Clear (cfg : VisitorConfig) (v : ControlFlowContextVisitor) (fn : FunctionDecl)
    (body : Stmts) : Prop where
  within : body.Scoped cfg fn
  alone : onStack v = [] ∨ Silent cfg fn body.calls

/-- The new frame is empty, and those below it are in view. -/
theorem newContexts_eq (cfg : VisitorConfig) (v : ControlFlowContextVisitor) (fn : FunctionDecl)
    (body : Stmts) :
    (newContexts cfg v fn body).map observed =
      (body.seen cfg fn (onStack v)).map LiveCall.observed := by
  have hin : InBody fn (v.pushFunction fn).pushScope := ⟨⟨_, rfl⟩, _, _, rfl⟩
  have hbody := body.walks cfg hin
  rw [show onStack (v.pushFunction fn).pushScope = onStack v by
    simp [onStack, pushScope, pushFunction]] at hbody
  obtain ⟨news, hnews, hcalls⟩ := hbody.stored
  rw [← hcalls]
  refine congrArg (List.map observed) ?_
  change (traverseAll cfg body.nodes (v.pushFunction fn).pushScope).contexts.drop _ = _
  rw [hnews]
  exact List.drop_left

theorem eq_of_observed {l m : List LiveCall} (hexprs : l.map (·.expr) = m.map (·.expr))
    (h : l.map LiveCall.observed = m.map LiveCall.observed) : l = m := by
  induction l generalizing m with
  | nil => exact (List.map_eq_nil_iff.mp hexprs.symm).symm
  | cons call rest ih =>
      cases m with
      | nil => cases hexprs
      | cons call' rest' =>
          simp only [List.map_cons, List.cons.injEq] at hexprs h
          have hcall : call = call' := by
            cases call
            cases call'
            exact LiveCall.mk.injEq .. ▸ ⟨hexprs.1, congrArg Prod.snd h.1⟩
          rw [hcall, ih hexprs.2 h.2]

theorem Clear.seen_eq_live {body : Stmts} (h : Clear cfg v fn body) :
    body.seen cfg fn (onStack v) = body.live cfg fn [] := by
  rcases h.alone with hnone | hsilent
  · rw [hnone]
    exact body.seen_eq_live h.within []
  · exact (body.lists_seen _).eq_of_silent (body.lists_live []) hsilent

/-- With a local of another function on the stack no call sees what is alive. -/
theorem clear_of_eq {body : Stmts}
    (hheads : Heads (body.headLocals cfg) (body.headLocals cfg) (body.frameLocals cfg))
    (hstack : ∀ x ∈ onStack v, x ∉ body.headLocals cfg)
    (h : body.seen cfg fn (onStack v) = body.live cfg fn []) : Clear cfg v fn body := by
  cases hnone : onStack v with
  | nil =>
      rw [hnone] at h
      exact ⟨body.scoped_of_eq (fun _ hx => absurd hx List.not_mem_nil) hheads h, Or.inl hnone⟩
  | cons x xs =>
      have hdiffers : Differs (body.headLocals cfg) (onStack v) [] := by
        refine ⟨hstack, Or.inr ?_⟩
        rw [hnone]
        exact Nat.succ_pos _
      have hsilent := body.silent_of_differs hdiffers hheads h
      exact ⟨body.scoped_of_silent hsilent, Or.inr hsilent⟩

end Body

open Body in
/-- **In a clear body the RAII locals recorded at a call are those alive there; and in no other,
unless a local in the head of an if statement looks like one that is elsewhere.** -/
theorem raii_locals_live_iff (cfg : VisitorConfig) (v : ControlFlowContextVisitor)
    (fn : FunctionDecl) (body : Stmts) :
    (Clear cfg v fn body → RecordsLive cfg v fn body) ∧
      ((∀ x ∈ body.headLocals cfg, x ∉ onStack v ∧ x ∉ body.frameLocals cfg) →
        RecordsLive cfg v fn body → Clear cfg v fn body) := by
  unfold RecordsLive
  rw [newContexts_eq cfg v]
  refine ⟨fun h => congrArg _ h.seen_eq_live, fun hapart heq => ?_⟩
  have hheads : Heads (body.headLocals cfg) (body.headLocals cfg) (body.frameLocals cfg) :=
    ⟨fun _ hx => hx, fun x hx hhead => (hapart x hhead).2 hx⟩
  refine clear_of_eq hheads (fun x hx hhead => (hapart x hhead).1 hx) ?_
  exact eq_of_observed ((body.lists_seen _).trans (body.lists_live []).symm) heq

/-! ### A guard and a call

The constructor of `std::lock_guard` is not implicit, so that its own call is stored with the
lock; a class with nothing but a destructor is constructed by a call that no context is stored for. -/

/-- A `std::lock_guard`. -/
def lockOf (name loc : String) : VarDecl where
  decl := 1
  typeName := str "std::lock_guard<std::mutex>"
  name := str name
  location := str loc
  raiiClass := some { qualifiedName := str "std::lock_guard" }

/-- A guard that is no lock. -/
def guardOf (name loc : String) : VarDecl where
  decl := 1
  typeName := str "Guard"
  name := str name
  location := str loc
  raiiClass := some { qualifiedName := str "Guard", hasNonTrivialDtor := true }

/-- A constructor call. -/
def constructAt (ctor loc : String) (isImplicit : Bool) (args : Body.Exprs) : Body.Expr :=
  .construct { beginLoc := str loc
               ctor := some {
                 decl := { ident := { usr := str ("c:@F@" ++ ctor ++ "#"), display := str ctor } }
                 isImplicit } }
    args

/-- A call of a named function. -/
def callAt (callee loc : String) : Body.Expr :=
  .call { beginLoc := str loc
          directCallee := some
            { ident := { usr := str ("c:@F@" ++ callee ++ "#"), display := str callee } } }
    .nil

/-- The function `run`. -/
def runFn : FunctionDecl := { ident := { usr := str "c:@F@run#", display := str "run" } }

/-- `{ Guard g; work(); } after();` with `struct Guard { ~Guard(); };` -/
def guardedBlock : Body.Stmts :=
  .cons (.block (.cons (.item (.decl (guardOf "g" "a.cpp:4:9")
      (.cons (constructAt "Guard::Guard" "a.cpp:4:9" true .nil) .nil)))
    (.cons (.item (.expr (callAt "work" "a.cpp:5:5"))) .nil)))
    (.cons (.item (.expr (callAt "after" "a.cpp:7:3"))) .nil)

/-- `std::lock_guard g(make());` -/
def lockedByCall : Body.Stmts :=
  .cons (.item (.decl (lockOf "g" "a.cpp:4:32")
    (.cons (constructAt "std::lock_guard::lock_guard" "a.cpp:4:32" false
      (.cons (callAt "make" "a.cpp:4:34") .nil)) .nil))) .nil

/-- The guard is recorded in its block and not after it. -/
theorem guarded_block_live :
    (guardedBlock.live {} runFn []).map (·.locals.map (·.varName)) = [[str "g"], []] ∧
      Body.RecordsLive {} {} runFn guardedBlock ∧ Body.Clear {} {} runFn guardedBlock := by
  have hiff := raii_locals_live_iff {} {} runFn guardedBlock
  have hlive : Body.RecordsLive {} {} runFn guardedBlock := by
    refine hiff.1 ⟨⟨Or.inl rfl, ⟨Or.inl rfl, Or.inr ?_, Or.inl rfl, Or.inl rfl, trivial⟩,
      Or.inl rfl, Or.inl rfl, trivial⟩, Or.inl rfl⟩
    unfold Body.Silent
    decide
  exact ⟨by decide, hlive, hiff.2 (by decide) hlive⟩

/-- The constructor and the call that makes the mutex are recorded with the lock held. -/
theorem initializer_sees_local :
    (Body.newContexts {} {} runFn lockedByCall).map (·.liveRaiiLocals.map (·.varName)) =
      [[str "g"], [str "g"]] ∧
    (lockedByCall.live {} runFn []).map (·.locals) = [[], []] ∧
    ¬ Body.RecordsLive {} {} runFn lockedByCall := by
  unfold Body.RecordsLive
  decide

end Vycor
