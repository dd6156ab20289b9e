/-
Guards recorded for a call, and those that guard it.

A translation unit is functions whose bodies are blocks, if statements and expressions.  `guarded`
has its calls with what guards each: the branches of if statements around it in its function,
innermost first, then the assertions before it in a block of its function that is still open.
`seen` has what the visitor holds there.  Its branches are a stack, but its assertions are one list
for the whole unit, which nothing empties, and an assertion goes on it before its arguments are
walked.

What guards a call is among what the visitor holds, so the two differ exactly where the visitor
holds more.  `Kept` says of a unit that no call is at such a place.
-/
import Vycor.Proofs.RaiiLifetimes

namespace Vycor

open ControlFlowContextVisitor

/-! ### Units

A unit has the statements that open guards: branches, blocks, assertions and
functions. The calls of a statement are listed twice, with the guards that hold
and with those that the visitor has on its stacks.
-/

namespace Guards

mutual

/-- A branch is a scope, with braces or without.  The calls of a condition are not walked, and an
assertion there is in no block. -/
inductive Stmt
  | expr (expr : Body.Expr)
  | block (body : Stmts)
  | ifStmt (stmt : IfStmt) (cond : Body.Expr) (thenStmt elseStmt : Stmt)
  | null

/-- The statements of a block. -/
inductive Stmts
  | nil
  | cons (stmt : Stmt) (rest : Stmts)

end

/-- A function with its body. -/
structure Function where
  decl : FunctionDecl
  body : Stmts

mutual

/-- The statement as a node of the AST. -/
def Stmt.node : Stmt → Node
  | .expr e => e.node
  | .block body => .compound body.nodes
  | .ifStmt stmt cond thenStmt elseStmt =>
    .ifStmt stmt (.cons cond.node .nil) (.cons thenStmt.node .nil) (.cons elseStmt.node .nil)
  | .null => .other .nil

/-- The statements as nodes. -/
def Stmts.nodes : Stmts → Nodes
  | .nil => .nil
  | .cons stmt rest => .cons stmt.node rest.nodes

end

/-- The function as a node, its body a compound statement. -/
def Function.node (f : Function) : Node :=
  .function f.decl (.cons (.compound f.body.nodes) .nil)

/-- The functions of a TU as nodes. -/
def unitNodes : List Function → Nodes
  | [] => .nil
  | f :: rest => .cons f.node (unitNodes rest)

mutual

/-- The calls the visitor walks. -/
def Stmt.calls : Stmt → List CallSiteExpr
  | .expr e => e.calls
  | .block body => body.calls
  | .ifStmt _ _ thenStmt elseStmt => thenStmt.calls ++ elseStmt.calls
  | .null => []

/-- The calls in the statements, in source order. -/
def Stmts.calls : Stmts → List CallSiteExpr
  | .nil => []
  | .cons stmt rest => stmt.calls ++ rest.calls

end

/-- A call, and the guards it has around it. -/
structure GuardedCall where
  expr : CallSiteExpr
  guards : List ConditionalGuard
deriving DecidableEq

/-- The guard a branch of an if statement puts on the calls in it. -/
def branchGuard (stmt : IfStmt) (inTrueBranch : Bool) : ConditionalGuard where
  conditionText := sourceText stmt.conditionText
  location := stmt.location
  inTrueBranch := inTrueBranch

section Scopes

variable (cfg : VisitorConfig) (fn : FunctionDecl)

/-- What a call asserts in `fn`, if it is an assertion with a condition that is not skipped. -/
def asserted : CallSiteExpr → List ConditionalGuard
  | .construct _ => []
  | .call expr =>
    match expr.directCallee, expr.args with
    | some callee, arg :: _ =>
      if fn.ident.display ≠ [] ∧ expr.inUserCode = true ∧ collapsed cfg [fn] callee = false ∧
          isAssertionCall callee.ident.display = true then
        [{ conditionText := sourceText arg.text, location := expr.beginLoc
           inTrueBranch := true, isAssertion := true }]
      else []
    | _, _ => []

/-- A call with its guards, if it is recorded. -/
def recordedAt (expr : CallSiteExpr) (guards : List ConditionalGuard) : List GuardedCall :=
  if Body.recorded cfg fn expr then [{ expr, guards }] else []

end Scopes

end Guards

open Guards

namespace Body

variable (cfg : VisitorConfig) (fn : FunctionDecl)

mutual

/-- The assertions in an expression, in the order they begin. -/
def Expr.asserts : Expr → List ConditionalGuard
  | .call expr args => asserted cfg fn (.call expr) ++ args.asserts
  | .construct _ args => args.asserts
  | .other operands => operands.asserts

/-- What the assertions in the expressions establish. -/
def Exprs.asserts : Exprs → List ConditionalGuard
  | .nil => []
  | .cons expr rest => expr.asserts ++ rest.asserts

end

mutual

/-- The calls of an expression in the branches `ifs` and after the assertions `held`.  The
arguments of an assertion come before it. -/
def Expr.guarded (ifs : List ConditionalGuard) :
    Expr → List ConditionalGuard → List GuardedCall
  | .call expr args, held => recordedAt cfg fn (.call expr) (ifs ++ held) ++ args.guarded ifs held
  | .construct expr args, held =>
    recordedAt cfg fn (.construct expr) (ifs ++ held) ++ args.guarded ifs held
  | .other operands, held => operands.guarded ifs held

/-- The calls in the expressions, each with the guards that hold there. -/
def Exprs.guarded (ifs : List ConditionalGuard) :
    Exprs → List ConditionalGuard → List GuardedCall
  | .nil, _ => []
  | .cons expr rest, held =>
    expr.guarded ifs held ++ rest.guarded ifs (held ++ expr.asserts cfg fn)

end

mutual

/-- The same calls with what the visitor holds.  An assertion is held from where it begins. -/
def Expr.seenGuarded (ifs : List ConditionalGuard) :
    Expr → List ConditionalGuard → List GuardedCall
  | .call expr args, held =>
    recordedAt cfg fn (.call expr) (ifs ++ held) ++
      args.seenGuarded ifs (held ++ asserted cfg fn (.call expr))
  | .construct expr args, held =>
    recordedAt cfg fn (.construct expr) (ifs ++ held) ++ args.seenGuarded ifs held
  | .other operands, held => operands.seenGuarded ifs held

/-- The calls in the expressions, each with the guards the visitor records. -/
def Exprs.seenGuarded (ifs : List ConditionalGuard) :
    Exprs → List ConditionalGuard → List GuardedCall
  | .nil, _ => []
  | .cons expr rest, held =>
    expr.seenGuarded ifs held ++ rest.seenGuarded ifs (held ++ expr.asserts cfg fn)

end

mutual

/-- No recorded call in the arguments of an assertion. -/
def Expr.Kept : Expr → Prop
  | .call expr args =>
    (asserted cfg fn (.call expr) = [] ∨ Silent cfg fn args.calls) ∧ args.Kept
  | .construct _ args => args.Kept
  | .other operands => operands.Kept

/-- Each of the expressions is so. -/
def Exprs.Kept : Exprs → Prop
  | .nil => True
  | .cons expr rest => expr.Kept ∧ rest.Kept

end

end Body

namespace Guards

section Scopes

variable (cfg : VisitorConfig) (fn : FunctionDecl)

/-! ### What guards a call

An assertion guards what follows it in its block, and nothing outside.
-/

/-- What a statement asserts for those after it in its block. -/
def Stmt.asserts : Stmt → List ConditionalGuard
  | .expr e => e.asserts cfg fn
  | _ => []

mutual

/-- The recorded calls of a statement in the branches `ifs` and after the assertions `held`. -/
def Stmt.guarded : Stmt → List ConditionalGuard → List ConditionalGuard → List GuardedCall
  | .expr e, ifs, held => e.guarded cfg fn ifs held
  | .block body, ifs, held => body.guarded ifs held
  | .ifStmt stmt _ thenStmt elseStmt, ifs, held =>
    thenStmt.guarded (branchGuard stmt true :: ifs) held ++
      elseStmt.guarded (branchGuard stmt false :: ifs) held
  | .null, _, _ => []

/-- The calls in the statements with the guards that hold there: an assertion holds for
the statements after it. -/
def Stmts.guarded : Stmts → List ConditionalGuard → List ConditionalGuard → List GuardedCall
  | .nil, _, _ => []
  | .cons stmt rest, ifs, held =>
    stmt.guarded ifs held ++ rest.guarded ifs (held ++ stmt.asserts cfg fn)

end

/-! ### What the visitor holds

The visitor keeps an assertion from where it begins and never gives it up.
-/

mutual

/-- What walking a statement adds to the visitor's assertions. -/
def Stmt.adds : Stmt → List ConditionalGuard
  | .expr e => e.asserts cfg fn
  | .block body => body.adds
  | .ifStmt _ _ thenStmt elseStmt => thenStmt.adds ++ elseStmt.adds
  | .null => []

/-- The guards the statements leave with the visitor. -/
def Stmts.adds : Stmts → List ConditionalGuard
  | .nil => []
  | .cons stmt rest => stmt.adds ++ rest.adds

end

mutual

/-- The recorded calls of a statement with the branches and assertions the visitor holds. -/
def Stmt.seen : Stmt → List ConditionalGuard → List ConditionalGuard → List GuardedCall
  | .expr e, ifs, held => e.seenGuarded cfg fn ifs held
  | .block body, ifs, held => body.seen ifs held
  | .ifStmt stmt _ thenStmt elseStmt, ifs, held =>
    thenStmt.seen (branchGuard stmt true :: ifs) held ++
      elseStmt.seen (branchGuard stmt false :: ifs) (held ++ thenStmt.adds cfg fn)
  | .null, _, _ => []

/-- The calls in the statements with the guards the visitor records. -/
def Stmts.seen : Stmts → List ConditionalGuard → List ConditionalGuard → List GuardedCall
  | .nil, _, _ => []
  | .cons stmt rest, ifs, held =>
    stmt.seen ifs held ++ rest.seen ifs (held ++ stmt.adds cfg fn)

end

/-! ### When the two agree

The condition under which nothing is recorded while the visitor holds too much.
-/

/-- What a statement asserts in a scope of its own. -/
def Stmt.closes : Stmt → List ConditionalGuard
  | .expr _ => []
  | stmt => stmt.adds cfg fn

mutual

/-- No recorded call in the arguments of an assertion, in an else after an assertion of its if, or
in what follows a statement in its block that asserts in a scope of its own. -/
def Stmt.Kept : Stmt → Prop
  | .expr e => e.Kept cfg fn
  | .block body => body.Kept
  | .ifStmt _ _ thenStmt elseStmt =>
    (thenStmt.adds cfg fn = [] ∨ Body.Silent cfg fn elseStmt.calls) ∧ thenStmt.Kept ∧ elseStmt.Kept
  | .null => True

/-- No recorded call after a statement that asserts in a scope of its own. -/
def Stmts.Kept : Stmts → Prop
  | .nil => True
  | .cons stmt rest =>
    (stmt.closes cfg fn = [] ∨ Body.Silent cfg fn rest.calls) ∧ stmt.Kept ∧ rest.Kept

end

end Scopes

section Units

variable (cfg : VisitorConfig)

/-- A function starts in no branch and after no assertion. -/
def guardedCalls (fns : List Function) : List GuardedCall :=
  fns.flatMap fun f => f.body.guarded cfg f.decl [] []

/-- The calls of the functions with the guards the visitor records, which come from one
function into the next. -/
def seenCalls : List Function → List ConditionalGuard → List GuardedCall
  | [], _ => []
  | f :: rest, held =>
    f.body.seen cfg f.decl [] held ++ seenCalls rest (held ++ f.body.adds cfg f.decl)

/-- No call of the TU is one the visitor records. -/
def SilentUnit (fns : List Function) : Prop := ∀ f ∈ fns, Body.Silent cfg f.decl f.body.calls

/-- Every function is kept, and no call is recorded after a function that asserts. -/
def Kept : List Function → Prop
  | [] => True
  | f :: rest =>
    (f.body.adds cfg f.decl = [] ∨ SilentUnit cfg rest) ∧ f.body.Kept cfg f.decl ∧ Kept rest

end Units

/-! ### Calls in order

Both listings have the same calls in the same order, so they differ in guards
only, and the visitor's list of guards is never the shorter one. Where the
lengths agree, the guards do.
-/

/-- The same calls, each with at least `d` more guards. -/
def Lags (d : Nat) : List GuardedCall → List GuardedCall → Prop :=
  List.Forall₂ fun call call' => call.expr = call'.expr ∧ call.guards.length + d ≤ call'.guards.length

theorem Lags.append {d : Nat} {l m l' m' : List GuardedCall} (h : Lags d l m) (h' : Lags d l' m') :
    Lags d (l ++ l') (m ++ m') := List.rel_append h h'

/-- The guards alone, which is all that is compared. -/
def Agree (l m : List GuardedCall) : Prop := l.map (·.guards) = m.map (·.guards)

theorem Agree.split {d : Nat} {l m l' m' : List GuardedCall} (h : Agree (l ++ l') (m ++ m'))
    (hlags : Lags d l m) : Agree l m ∧ Agree l' m' := by
  unfold Agree at h ⊢
  rw [List.map_append, List.map_append] at h
  refine List.append_inj h ?_
  rw [List.length_map, List.length_map]
  exact hlags.length_eq

/-- Calls that lag behind and have the same guards are no calls. -/
theorem Lags.eq_nil_of_agree {d : Nat} {l m : List GuardedCall} (h : Lags d l m) (hd : 0 < d)
    (hagree : Agree l m) : l = [] := by
  cases h with
  | nil => rfl
  | cons hcall _ =>
      simp only [Agree, List.map_cons, List.cons.injEq] at hagree
      have hlength := hcall.2
      rw [hagree.1] at hlength
      omega

variable {cfg : VisitorConfig} {fn : FunctionDecl}

/-- The recorded ones among the calls, in order, whatever is around them. -/
def Lists (cfg : VisitorConfig) (fn : FunctionDecl) (calls : List CallSiteExpr)
    (l : List GuardedCall) : Prop :=
  l.map (·.expr) = calls.filter (Body.recorded cfg fn)

theorem lists_recordedAt (expr : CallSiteExpr) (guards : List ConditionalGuard) :
    Lists cfg fn [expr] (recordedAt cfg fn expr guards) := by
  unfold Lists recordedAt
  rw [List.filter_singleton]
  cases Body.recorded cfg fn expr <;> rfl

theorem Lists.append {a b : List CallSiteExpr} {l m : List GuardedCall} (h : Lists cfg fn a l)
    (h' : Lists cfg fn b m) : Lists cfg fn (a ++ b) (l ++ m) := by
  unfold Lists at h h' ⊢
  rw [List.map_append, List.filter_append, h, h']

theorem Lists.eq_nil_iff {calls : List CallSiteExpr} {l : List GuardedCall}
    (h : Lists cfg fn calls l) : l = [] ↔ Body.Silent cfg fn calls := by
  rw [← List.map_eq_nil_iff (f := GuardedCall.expr), show l.map GuardedCall.expr = _ from h,
    List.filter_eq_nil_iff]
  simp only [Bool.not_eq_true]
  rfl

theorem lags_recordedAt (expr : CallSiteExpr) (ifs : List ConditionalGuard)
    {held held' : List ConditionalGuard} {d : Nat} (hd : held.length + d ≤ held'.length) :
    Lags d (recordedAt cfg fn expr (ifs ++ held)) (recordedAt cfg fn expr (ifs ++ held')) := by
  unfold recordedAt
  cases Body.recorded cfg fn expr with
  | false => exact .nil
  | true =>
      refine .cons ⟨rfl, ?_⟩ .nil
      simp only [List.length_append]
      omega

end Guards

namespace Body

variable {cfg : VisitorConfig} {fn : FunctionDecl}

mutual

theorem Expr.lists_guarded (e : Expr) (ifs held : List ConditionalGuard) :
    Guards.Lists cfg fn e.calls (e.guarded cfg fn ifs held) := by
  cases e with
  | call expr args => exact (lists_recordedAt _ _).append (args.lists_guarded ifs held)
  | construct expr args => exact (lists_recordedAt _ _).append (args.lists_guarded ifs held)
  | other operands => exact operands.lists_guarded ifs held

theorem Exprs.lists_guarded (es : Exprs) (ifs held : List ConditionalGuard) :
    Guards.Lists cfg fn es.calls (es.guarded cfg fn ifs held) := by
  cases es with
  | nil => rfl
  | cons e rest => exact (e.lists_guarded ifs held).append (rest.lists_guarded ifs _)

end

mutual

theorem Expr.lags (e : Expr) (ifs : List ConditionalGuard) {held held' : List ConditionalGuard}
    {d : Nat} (hd : held.length + d ≤ held'.length) :
    Lags d (e.guarded cfg fn ifs held) (e.seenGuarded cfg fn ifs held') := by
  cases e with
  | call expr args =>
      refine (lags_recordedAt _ ifs hd).append (args.lags ifs ?_)
      rw [List.length_append]
      omega
  | construct expr args => exact (lags_recordedAt _ ifs hd).append (args.lags ifs hd)
  | other operands => exact operands.lags ifs hd

theorem Exprs.lags (es : Exprs) (ifs : List ConditionalGuard) {held held' : List ConditionalGuard}
    {d : Nat} (hd : held.length + d ≤ held'.length) :
    Lags d (es.guarded cfg fn ifs held) (es.seenGuarded cfg fn ifs held') := by
  cases es with
  | nil => exact .nil
  | cons e rest =>
      refine (e.lags ifs hd).append (rest.lags ifs ?_)
      simp only [List.length_append]
      omega

end

/-- Without a recorded call there is nothing to differ in. -/
theorem Exprs.seen_eq_of_silent {es : Exprs} (h : Silent cfg fn es.calls)
    (ifs held held' : List ConditionalGuard) (hle : held.length ≤ held'.length) :
    es.seenGuarded cfg fn ifs held' = es.guarded cfg fn ifs held := by
  have hnil := (es.lists_guarded ifs held).eq_nil_iff.mpr h
  have hlags : Lags 0 (es.guarded cfg fn ifs held) (es.seenGuarded cfg fn ifs held') :=
    es.lags ifs hle
  rw [hnil] at hlags ⊢
  exact List.forall₂_nil_left_iff.mp hlags

mutual

theorem Expr.seen_eq_guarded (e : Expr) (h : e.Kept cfg fn) (ifs held : List ConditionalGuard) :
    e.seenGuarded cfg fn ifs held = e.guarded cfg fn ifs held := by
  cases e with
  | call expr args =>
      refine congrArg (recordedAt cfg fn (.call expr) (ifs ++ held) ++ ·) ?_
      rcases h.1 with hnone | hsilent
      · rw [hnone, List.append_nil]
        exact args.seen_eq_guarded h.2 ifs held
      · refine Exprs.seen_eq_of_silent hsilent ifs held _ ?_
        simp
  | construct expr args =>
      exact congrArg (recordedAt cfg fn (.construct expr) (ifs ++ held) ++ ·)
        (args.seen_eq_guarded h ifs held)
  | other operands => exact operands.seen_eq_guarded h ifs held

theorem Exprs.seen_eq_guarded (es : Exprs) (h : es.Kept cfg fn) (ifs held : List ConditionalGuard) :
    es.seenGuarded cfg fn ifs held = es.guarded cfg fn ifs held := by
  cases es with
  | nil => rfl
  | cons e rest =>
      exact congrArg₂ (· ++ ·) (e.seen_eq_guarded h.1 ifs held) (rest.seen_eq_guarded h.2 ifs _)

end

mutual

theorem Expr.kept_of_agree (e : Expr) (ifs : List ConditionalGuard)
    {held held' : List ConditionalGuard} (hle : held.length ≤ held'.length)
    (h : Agree (e.guarded cfg fn ifs held) (e.seenGuarded cfg fn ifs held')) : e.Kept cfg fn := by
  cases e with
  | call expr args =>
      obtain ⟨_, hargs⟩ := h.split (lags_recordedAt (d := 0) _ ifs hle)
      have hle' : held.length + (asserted cfg fn (.call expr)).length ≤
          (held' ++ asserted cfg fn (.call expr)).length := by
        rw [List.length_append]
        omega
      refine ⟨?_, args.kept_of_agree ifs (by omega) hargs⟩
      by_cases hnone : asserted cfg fn (.call expr) = []
      · exact Or.inl hnone
      · have hnil := (args.lags ifs hle').eq_nil_of_agree (List.length_pos_iff.mpr hnone) hargs
        exact Or.inr ((args.lists_guarded ifs held).eq_nil_iff.mp hnil)
  | construct expr args =>
      obtain ⟨_, hargs⟩ := h.split (lags_recordedAt (d := 0) _ ifs hle)
      exact args.kept_of_agree ifs hle hargs
  | other operands => exact operands.kept_of_agree ifs hle h

theorem Exprs.kept_of_agree (es : Exprs) (ifs : List ConditionalGuard)
    {held held' : List ConditionalGuard} (hle : held.length ≤ held'.length)
    (h : Agree (es.guarded cfg fn ifs held) (es.seenGuarded cfg fn ifs held')) :
    es.Kept cfg fn := by
  cases es with
  | nil => trivial
  | cons e rest =>
      obtain ⟨he, hrest⟩ := h.split (e.lags (d := 0) ifs hle)
      refine ⟨e.kept_of_agree ifs hle he, rest.kept_of_agree ifs ?_ hrest⟩
      simp only [List.length_append]
      omega

end

end Body

namespace Guards

variable {cfg : VisitorConfig} {fn : FunctionDecl}

theorem Stmt.adds_eq (stmt : Stmt) :
    stmt.adds cfg fn = stmt.asserts cfg fn ++ stmt.closes cfg fn := by
  cases stmt with
  | expr e => exact (List.append_nil _).symm
  | _ => rfl

/-- What is held after a statement, against what guards there. -/
theorem Stmt.held_le (cfg : VisitorConfig) (fn : FunctionDecl) (stmt : Stmt)
    {held held' : List ConditionalGuard} {d : Nat} (hd : held.length + d ≤ held'.length) :
    (held ++ stmt.asserts cfg fn).length + (d + (stmt.closes cfg fn).length) ≤
      (held' ++ stmt.adds cfg fn).length := by
  simp only [stmt.adds_eq, List.length_append]
  omega

mutual

theorem Stmt.lists_guarded (stmt : Stmt) (ifs held : List ConditionalGuard) :
    Lists cfg fn stmt.calls (stmt.guarded cfg fn ifs held) := by
  cases stmt with
  | expr e => exact e.lists_guarded ifs held
  | block body => exact body.lists_guarded ifs held
  | ifStmt stmt cond thenStmt elseStmt =>
      exact (thenStmt.lists_guarded _ held).append (elseStmt.lists_guarded _ held)
  | null => rfl

theorem Stmts.lists_guarded (stmts : Stmts) (ifs held : List ConditionalGuard) :
    Lists cfg fn stmts.calls (stmts.guarded cfg fn ifs held) := by
  cases stmts with
  | nil => rfl
  | cons stmt rest => exact (stmt.lists_guarded ifs held).append (rest.lists_guarded ifs _)

end

mutual

/-- The visitor holds all that guards a call, and keeps holding what it held too much. -/
theorem Stmt.lags (stmt : Stmt) (ifs : List ConditionalGuard) {held held' : List ConditionalGuard}
    {d : Nat} (hd : held.length + d ≤ held'.length) :
    Lags d (stmt.guarded cfg fn ifs held) (stmt.seen cfg fn ifs held') := by
  cases stmt with
  | expr e => exact e.lags ifs hd
  | block body => exact body.lags ifs hd
  | ifStmt stmt cond thenStmt elseStmt =>
      refine (thenStmt.lags _ hd).append (elseStmt.lags _ ?_)
      rw [List.length_append]
      omega
  | null => exact .nil

theorem Stmts.lags (stmts : Stmts) (ifs : List ConditionalGuard)
    {held held' : List ConditionalGuard} {d : Nat} (hd : held.length + d ≤ held'.length) :
    Lags d (stmts.guarded cfg fn ifs held) (stmts.seen cfg fn ifs held') := by
  cases stmts with
  | nil => exact .nil
  | cons stmt rest =>
      have hrest := stmt.held_le cfg fn hd
      exact (stmt.lags ifs hd).append (rest.lags ifs (by omega))

end

theorem Stmt.seen_eq_of_silent {stmt : Stmt} (h : Body.Silent cfg fn stmt.calls)
    (ifs held held' : List ConditionalGuard) (hle : held.length ≤ held'.length) :
    stmt.seen cfg fn ifs held' = stmt.guarded cfg fn ifs held := by
  have hnil := (stmt.lists_guarded ifs held).eq_nil_iff.mpr h
  have hlags : Lags 0 (stmt.guarded cfg fn ifs held) (stmt.seen cfg fn ifs held') :=
    stmt.lags ifs hle
  rw [hnil] at hlags ⊢
  exact List.forall₂_nil_left_iff.mp hlags

theorem Stmts.seen_eq_of_silent {stmts : Stmts} (h : Body.Silent cfg fn stmts.calls)
    (ifs held held' : List ConditionalGuard) (hle : held.length ≤ held'.length) :
    stmts.seen cfg fn ifs held' = stmts.guarded cfg fn ifs held := by
  have hnil := (stmts.lists_guarded ifs held).eq_nil_iff.mpr h
  have hlags : Lags 0 (stmts.guarded cfg fn ifs held) (stmts.seen cfg fn ifs held') :=
    stmts.lags ifs hle
  rw [hnil] at hlags ⊢
  exact List.forall₂_nil_left_iff.mp hlags

/-! ### Kept bodies -/

mutual

theorem Stmt.seen_eq_guarded (stmt : Stmt) (h : stmt.Kept cfg fn)
    (ifs held : List ConditionalGuard) :
    stmt.seen cfg fn ifs held = stmt.guarded cfg fn ifs held := by
  cases stmt with
  | expr e => exact e.seen_eq_guarded h ifs held
  | block body => exact body.seen_eq_guarded h ifs held
  | ifStmt stmt cond thenStmt elseStmt =>
      obtain ⟨hnone | hsilent, hthen, helse⟩ := h
      · refine congrArg₂ (· ++ ·) (thenStmt.seen_eq_guarded hthen _ held) ?_
        rw [hnone, List.append_nil]
        exact elseStmt.seen_eq_guarded helse _ held
      · refine congrArg₂ (· ++ ·) (thenStmt.seen_eq_guarded hthen _ held) ?_
        exact Stmt.seen_eq_of_silent hsilent _ held _ (by simp)
  | null => rfl

theorem Stmts.seen_eq_guarded (stmts : Stmts) (h : stmts.Kept cfg fn)
    (ifs held : List ConditionalGuard) :
    stmts.seen cfg fn ifs held = stmts.guarded cfg fn ifs held := by
  cases stmts with
  | nil => rfl
  | cons stmt rest =>
      obtain ⟨hnone | hsilent, hstmt, hrest⟩ := h
      · refine congrArg₂ (· ++ ·) (stmt.seen_eq_guarded hstmt ifs held) ?_
        rw [stmt.adds_eq, hnone, List.append_nil]
        exact rest.seen_eq_guarded hrest ifs _
      · refine congrArg₂ (· ++ ·) (stmt.seen_eq_guarded hstmt ifs held) ?_
        refine Stmts.seen_eq_of_silent hsilent ifs _ _ ?_
        have hheld := stmt.held_le cfg fn (Nat.le_refl (held.length + 0))
        omega

end

mutual

theorem Stmt.kept_of_agree (stmt : Stmt) (ifs : List ConditionalGuard)
    {held held' : List ConditionalGuard} (hle : held.length ≤ held'.length)
    (h : Agree (stmt.guarded cfg fn ifs held) (stmt.seen cfg fn ifs held')) :
    stmt.Kept cfg fn := by
  cases stmt with
  | expr e => exact e.kept_of_agree ifs hle h
  | block body => exact body.kept_of_agree ifs hle h
  | ifStmt stmt cond thenStmt elseStmt =>
      obtain ⟨hthen, helse⟩ := h.split (thenStmt.lags (d := 0) _ hle)
      have hle' : held.length + (thenStmt.adds cfg fn).length ≤
          (held' ++ thenStmt.adds cfg fn).length := by
        rw [List.length_append]
        omega
      refine ⟨?_, thenStmt.kept_of_agree _ hle hthen, elseStmt.kept_of_agree _ (by omega) helse⟩
      by_cases hnone : thenStmt.adds cfg fn = []
      · exact Or.inl hnone
      · -- the assertions of the first branch are held in the second
        have hnil := (elseStmt.lags _ hle').eq_nil_of_agree (List.length_pos_iff.mpr hnone) helse
        exact Or.inr ((elseStmt.lists_guarded _ held).eq_nil_iff.mp hnil)
  | null => trivial

theorem Stmts.kept_of_agree (stmts : Stmts) (ifs : List ConditionalGuard)
    {held held' : List ConditionalGuard} (hle : held.length ≤ held'.length)
    (h : Agree (stmts.guarded cfg fn ifs held) (stmts.seen cfg fn ifs held')) :
    stmts.Kept cfg fn := by
  cases stmts with
  | nil => trivial
  | cons stmt rest =>
      obtain ⟨hstmt, hrest⟩ := h.split (stmt.lags (d := 0) ifs hle)
      have hle' := stmt.held_le cfg fn (d := 0) hle
      refine ⟨?_, stmt.kept_of_agree ifs hle hstmt, rest.kept_of_agree ifs (by omega) hrest⟩
      by_cases hnone : stmt.closes cfg fn = []
      · exact Or.inl hnone
      · -- what a closed scope asserted is held after it
        have hpos : 0 < 0 + (stmt.closes cfg fn).length := by
          have := List.length_pos_iff.mpr hnone
          omega
        have hnil := (rest.lags ifs hle').eq_nil_of_agree hpos hrest
        exact Or.inr ((rest.lists_guarded ifs _).eq_nil_iff.mp hnil)

end

/-! ### Kept units -/

theorem guardedCalls_eq_nil_iff (fns : List Function) :
    guardedCalls cfg fns = [] ↔ SilentUnit cfg fns := by
  unfold guardedCalls SilentUnit
  rw [List.flatMap_eq_nil_iff]
  exact forall₂_congr fun f _ => (f.body.lists_guarded [] []).eq_nil_iff

theorem lags_unit (fns : List Function) {held : List ConditionalGuard} {d : Nat}
    (hd : d ≤ held.length) : Lags d (guardedCalls cfg fns) (seenCalls cfg fns held) := by
  induction fns generalizing held with
  | nil => exact .nil
  | cons f rest ih =>
      refine (f.body.lags [] ?_).append (ih ?_)
      · simpa using hd
      · rw [List.length_append]
        omega

theorem seenCalls_eq_guardedCalls {fns : List Function} (h : Kept cfg fns) :
    seenCalls cfg fns [] = guardedCalls cfg fns := by
  induction fns with
  | nil => rfl
  | cons f rest ih =>
      obtain ⟨hnone | hsilent, hbody, hrest⟩ := h
      · refine congrArg₂ (· ++ ·) (f.body.seen_eq_guarded hbody [] []) ?_
        rw [hnone, List.append_nil]
        exact ih hrest
      · refine congrArg₂ (· ++ ·) (f.body.seen_eq_guarded hbody [] []) ?_
        have hnil := (guardedCalls_eq_nil_iff rest).mpr hsilent
        have hlags : Lags 0 (guardedCalls cfg rest)
            (seenCalls cfg rest ([] ++ f.body.adds cfg f.decl)) :=
          lags_unit rest (Nat.zero_le _)
        change seenCalls cfg rest _ = guardedCalls cfg rest
        rw [hnil] at hlags ⊢
        exact List.forall₂_nil_left_iff.mp hlags

theorem kept_of_agree {fns : List Function} {held : List ConditionalGuard}
    (h : Agree (guardedCalls cfg fns) (seenCalls cfg fns held)) : Kept cfg fns := by
  induction fns generalizing held with
  | nil => trivial
  | cons f rest ih =>
      have hzero : ([] : List ConditionalGuard).length + 0 ≤ held.length := Nat.zero_le _
      obtain ⟨hbody, hrest⟩ := h.split (f.body.lags [] hzero)
      refine ⟨?_, f.body.kept_of_agree [] hzero hbody, ih hrest⟩
      by_cases hnone : f.body.adds cfg f.decl = []
      · exact Or.inl hnone
      · have hle : (f.body.adds cfg f.decl).length ≤ (held ++ f.body.adds cfg f.decl).length := by
          rw [List.length_append]
          omega
        have hnil := (lags_unit rest hle).eq_nil_of_agree (List.length_pos_iff.mpr hnone) hrest
        exact Or.inr ((guardedCalls_eq_nil_iff rest).mp hnil)

end Guards

/-! ### Walking a unit

The visitor stores what the listing says. By mutual induction over statements; a
branch pushes its guard and pops it behind.
-/

namespace Guards

variable {cfg : VisitorConfig} {fn : FunctionDecl} {v v' v'' : ControlFlowContextVisitor}

/-- The assertions the visitor holds, as it records them. -/
def held (v : ControlFlowContextVisitor) : List ConditionalGuard :=
  v.assertionGuards.map fun guard => { guard with inTrueBranch := true, isAssertion := true }

/-- Where a context was stored and with which guards. -/
def observed (ctx : CallSiteContext) : Str × List ConditionalGuard :=
  (ctx.callSite, ctx.enclosingGuards)

/-- What an observer has of the call: where it starts, and its guards. -/
def GuardedCall.observed (call : GuardedCall) : Str × List ConditionalGuard :=
  (call.expr.beginLoc, call.guards)

/-- From `v` to `v'` the visitor stored the calls and came to hold the assertions too. -/
structure Walks (calls : List GuardedCall) (adds : List ConditionalGuard)
    (v v' : ControlFlowContextVisitor) : Prop where
  funcs : v'.funcStack = v.funcStack
  ifs : v'.guardStack = v.guardStack
  holds : held v' = held v ++ adds
  stored : ∃ news, v'.contexts = v.contexts ++ news ∧
    news.map observed = calls.map GuardedCall.observed

theorem Walks.refl (v : ControlFlowContextVisitor) : Walks [] [] v v :=
  ⟨rfl, rfl, (List.append_nil _).symm, [], (List.append_nil _).symm, rfl⟩

theorem Walks.trans {calls calls' : List GuardedCall} {adds adds' : List ConditionalGuard}
    (h : Walks calls adds v v') (h' : Walks calls' adds' v' v'') :
    Walks (calls ++ calls') (adds ++ adds') v v'' where
  funcs := h'.funcs.trans h.funcs
  ifs := h'.ifs.trans h.ifs
  holds := by rw [h'.holds, h.holds, List.append_assoc]
  stored := by
    obtain ⟨news, hnews, hcalls⟩ := h.stored
    obtain ⟨news', hnews', hcalls'⟩ := h'.stored
    refine ⟨news ++ news', by rw [hnews', hnews, List.append_assoc], ?_⟩
    rw [List.map_append, List.map_append, hcalls, hcalls']

/-- The innermost function around the visitor is `fn`. -/
def InFunction (fn : FunctionDecl) (v : ControlFlowContextVisitor) : Prop :=
  ∃ outer, v.funcStack = fn :: outer

theorem Walks.inFunction {calls : List GuardedCall} {adds : List ConditionalGuard}
    (h : Walks calls adds v v') (hv : InFunction fn v) : InFunction fn v' := by
  unfold InFunction
  rw [h.funcs]
  exact hv

theorem Walks.skip {expr : CallSiteExpr} (hrecorded : Body.recorded cfg fn expr = false)
    (hasserted : asserted cfg fn expr = []) (guards : List ConditionalGuard) :
    Walks (recordedAt cfg fn expr guards) (asserted cfg fn expr) v v := by
  unfold recordedAt
  rw [hrecorded, hasserted]
  exact Walks.refl v

theorem Walks.store {expr : CallSiteExpr} (hrecorded : Body.recorded cfg fn expr = true)
    (hasserted : asserted cfg fn expr = []) (caller callee : Ident) :
    Walks (recordedAt cfg fn expr (v.guardStack ++ held v)) (asserted cfg fn expr) v
      (v.addContext (v.buildContext cfg caller callee expr.beginLoc)) := by
  unfold recordedAt
  rw [hrecorded, hasserted]
  exact ⟨rfl, rfl, (List.append_nil _).symm, [_], rfl, rfl⟩

theorem Walks.addAssertion {expr : CallExpr} (hrecorded : Body.recorded cfg fn (.call expr) = false)
    (guards : List ConditionalGuard)
    (hasserted : asserted cfg fn (.call expr) = match expr.args with
      | [] => []
      | arg :: _ => [{ conditionText := sourceText arg.text, location := expr.beginLoc
                       inTrueBranch := true, isAssertion := true }]) :
    Walks (recordedAt cfg fn (.call expr) guards) (asserted cfg fn (.call expr)) v
      (v.addAssertion expr) := by
  unfold recordedAt ControlFlowContextVisitor.addAssertion
  rw [hrecorded, hasserted]
  cases expr.args with
  | nil => exact Walks.refl v
  | cons arg rest =>
      refine ⟨rfl, rfl, ?_, [], (List.append_nil _).symm, rfl⟩
      unfold held
      rw [List.map_append]
      rfl

theorem recorded_call (cfg : VisitorConfig) (fn : FunctionDecl) (expr : CallExpr) :
    Body.recorded cfg fn (.call expr) =
      (fn.ident.display != [] && (expr.inUserCode && match expr.directCallee with
        | none => true
        | some callee =>
          !collapsed cfg [fn] callee && !isAssertionCall callee.ident.display)) := rfl

theorem recorded_construct (cfg : VisitorConfig) (fn : FunctionDecl) (expr : CXXConstructExpr) :
    Body.recorded cfg fn (.construct expr) =
      (fn.ident.display != [] && (expr.inUserCode && match expr.ctor with
        | none => false
        | some ctor => !ctor.isImplicit && !collapsed cfg [fn] ctor.decl)) := rfl

/-- A call is stored, held as an assertion, or skipped. -/
theorem visitCallExpr_walks (cfg : VisitorConfig) (hv : InFunction fn v) (expr : CallExpr) :
    Walks (recordedAt cfg fn (.call expr) (v.guardStack ++ held v)) (asserted cfg fn (.call expr))
      v (v.visitCallExpr cfg expr) := by
  obtain ⟨outer, hfuncs⟩ := hv
  have hcollapsed : ∀ callee, collapsed cfg v.funcStack callee = collapsed cfg [fn] callee :=
    fun callee => by rw [hfuncs]; rfl
  have hcaller : (currentFunction v.funcStack).display = fn.ident.display := by rw [hfuncs]; rfl
  have hrecorded := recorded_call cfg fn expr
  unfold ControlFlowContextVisitor.visitCallExpr
  simp only [hcaller]
  by_cases hdisplay : fn.ident.display = []
  · rw [if_pos hdisplay]
    refine Walks.skip (by simp [hrecorded, hdisplay]) ?_ _
    simp only [asserted, hdisplay]
    cases expr.directCallee <;> cases expr.args <;> simp
  rw [if_neg hdisplay]
  cases huser : expr.inUserCode with
  | false =>
      refine Walks.skip (by simp [hrecorded, huser]) ?_ _
      simp only [asserted, huser]
      cases expr.directCallee <;> cases expr.args <;> simp
  | true =>
      cases hdirect : expr.directCallee with
      | none =>
          refine Walks.store (by simp [hrecorded, hdisplay, huser, hdirect]) ?_ _ _
          simp only [asserted, hdirect]
      | some callee =>
          simp only [hcollapsed, Bool.not_true, Bool.false_eq_true, if_false]
          cases hcol : collapsed cfg [fn] callee with
          | true =>
              refine Walks.skip (by simp [hrecorded, hdirect, hcol]) ?_ _
              simp only [asserted, hdirect]
              cases expr.args <;> simp [hcol]
          | false =>
              cases hassert : isAssertionCall callee.ident.display with
              | true =>
                  refine Walks.addAssertion (by simp [hrecorded, hdirect, hassert]) _ ?_
                  simp only [asserted, hdirect]
                  cases expr.args <;> simp [hdisplay, huser, hcol, hassert]
              | false =>
                  refine Walks.store ?_ ?_ _ _
                  · simp [hrecorded, hdisplay, huser, hdirect, hcol, hassert]
                  · simp only [asserted, hdirect]
                    cases expr.args <;> simp [hassert]

theorem visitCXXConstructExpr_walks (cfg : VisitorConfig) (hv : InFunction fn v)
    (expr : CXXConstructExpr) :
    Walks (recordedAt cfg fn (.construct expr) (v.guardStack ++ held v)) [] v
      (v.visitCXXConstructExpr cfg expr) := by
  obtain ⟨outer, hfuncs⟩ := hv
  have hcollapsed : ∀ callee, collapsed cfg v.funcStack callee = collapsed cfg [fn] callee :=
    fun callee => by rw [hfuncs]; rfl
  have hcaller : (currentFunction v.funcStack).display = fn.ident.display := by rw [hfuncs]; rfl
  have hrecorded := recorded_construct cfg fn expr
  have hskip : Body.recorded cfg fn (.construct expr) = false →
      Walks (recordedAt cfg fn (.construct expr) (v.guardStack ++ held v)) [] v v :=
    fun h => Walks.skip h rfl _
  unfold visitCXXConstructExpr
  simp only [hcaller]
  by_cases hdisplay : fn.ident.display = []
  · rw [if_pos hdisplay]
    exact hskip (by simp [hrecorded, hdisplay])
  rw [if_neg hdisplay]
  cases huser : expr.inUserCode with
  | false => exact hskip (by simp [hrecorded, huser])
  | true =>
      cases hctor : expr.ctor with
      | none => exact hskip (by simp [hrecorded, hctor])
      | some ctor =>
          simp only [hcollapsed, Bool.not_true, Bool.false_eq_true, if_false]
          cases himplicit : ctor.isImplicit with
          | true => exact hskip (by simp [hrecorded, hctor, himplicit])
          | false =>
              cases hcol : collapsed cfg [fn] ctor.decl with
              | true => exact hskip (by simp [hrecorded, hctor, hcol])
              | false =>
                  have hstore : Body.recorded cfg fn (.construct expr) = true := by
                    simp [hrecorded, hdisplay, huser, hctor, himplicit, hcol]
                  exact Walks.store hstore rfl _ _

end Guards

namespace Body

variable {cfg : VisitorConfig} {fn : FunctionDecl}

mutual

theorem Expr.walksGuarded (e : Expr) {v : ControlFlowContextVisitor} (hv : InFunction fn v) :
    Guards.Walks (e.seenGuarded cfg fn v.guardStack (held v)) (e.asserts cfg fn) v
      (traverse cfg e.node v) := by
  cases e with
  | call expr args =>
      have hvisit := Guards.visitCallExpr_walks cfg hv expr
      have hargs := args.walksGuarded (hvisit.inFunction hv)
      rw [hvisit.ifs, hvisit.holds] at hargs
      exact hvisit.trans hargs
  | construct expr args =>
      have hvisit := Guards.visitCXXConstructExpr_walks cfg hv expr
      have hargs := args.walksGuarded (hvisit.inFunction hv)
      rw [hvisit.ifs, hvisit.holds, List.append_nil] at hargs
      exact hvisit.trans hargs
  | other operands => exact operands.walksGuarded hv

theorem Exprs.walksGuarded (es : Exprs) {v : ControlFlowContextVisitor} (hv : InFunction fn v) :
    Guards.Walks (es.seenGuarded cfg fn v.guardStack (held v)) (es.asserts cfg fn) v
      (traverseAll cfg es.nodes v) := by
  cases es with
  | nil => exact Guards.Walks.refl v
  | cons e rest =>
      have he := e.walksGuarded hv
      have hrest := rest.walksGuarded (he.inFunction hv)
      rw [he.ifs, he.holds] at hrest
      exact he.trans hrest

end

end Body

namespace Guards

variable {cfg : VisitorConfig} {fn : FunctionDecl}

/-- Walking in a branch, from where its guard is pushed to where it is popped. -/
theorem Walks.branch {v w : ControlFlowContextVisitor} {stmt : IfStmt} {inTrueBranch : Bool}
    {calls : List GuardedCall} {adds : List ConditionalGuard}
    (h : Walks calls adds (v.pushGuard stmt inTrueBranch) w) : Walks calls adds v w.popGuard where
  funcs := h.funcs
  ifs := by
    change w.guardStack.tail = v.guardStack
    rw [h.ifs]
    rfl
  holds := h.holds
  stored := h.stored

mutual

/-- Walking a statement stores its calls with the branches and assertions that are held. -/
theorem Stmt.walks (cfg : VisitorConfig) (stmt : Stmt) {v : ControlFlowContextVisitor}
    (hv : InFunction fn v) :
    Walks (stmt.seen cfg fn v.guardStack (held v)) (stmt.adds cfg fn) v
      (traverse cfg stmt.node v) := by
  cases stmt with
  | expr e => exact e.walksGuarded hv
  | block body =>
      have hbody := body.walks cfg (v := v.pushScope) hv
      exact ⟨hbody.funcs, hbody.ifs, hbody.holds, hbody.stored⟩
  | ifStmt stmt cond thenStmt elseStmt =>
      have hthen := (thenStmt.walks cfg (v := v.pushGuard stmt true) hv).branch
      have helse := (elseStmt.walks cfg (v := (traverse cfg thenStmt.node
        (v.pushGuard stmt true)).popGuard.pushGuard stmt false) (hthen.inFunction hv)).branch
      have hifs : ((traverse cfg thenStmt.node (v.pushGuard stmt true)).popGuard.pushGuard stmt
          false).guardStack = branchGuard stmt false :: v.guardStack :=
        congrArg (branchGuard stmt false :: ·) hthen.ifs
      have hheld : held ((traverse cfg thenStmt.node (v.pushGuard stmt true)).popGuard.pushGuard
          stmt false) = held v ++ thenStmt.adds cfg fn := hthen.holds
      rw [hifs, hheld] at helse
      exact hthen.trans helse
  | null => exact Walks.refl v

theorem Stmts.walks (cfg : VisitorConfig) (stmts : Stmts) {v : ControlFlowContextVisitor}
    (hv : InFunction fn v) :
    Walks (stmts.seen cfg fn v.guardStack (held v)) (stmts.adds cfg fn) v
      (traverseAll cfg stmts.nodes v) := by
  cases stmts with
  | nil => exact Walks.refl v
  | cons stmt rest =>
      have hstmt := stmt.walks cfg hv
      have hrest := rest.walks cfg (hstmt.inFunction hv)
      rw [hstmt.ifs, hstmt.holds] at hrest
      exact hstmt.trans hrest

end

theorem Function.walks (cfg : VisitorConfig) (f : Function) {v : ControlFlowContextVisitor}
    (hv : v.guardStack = []) :
    Walks (f.body.seen cfg f.decl [] (held v)) (f.body.adds cfg f.decl) v
      (traverse cfg f.node v) := by
  have hscope : InFunction f.decl (v.pushFunction f.decl).pushScope := ⟨_, rfl⟩
  have hbody := f.body.walks cfg hscope
  rw [show (v.pushFunction f.decl).pushScope.guardStack = [] from hv] at hbody
  refine ⟨?_, hbody.ifs, hbody.holds, hbody.stored⟩
  change (traverseAll cfg f.body.nodes (v.pushFunction f.decl).pushScope).funcStack.tail = _
  rw [hbody.funcs]
  rfl

theorem unit_walks (cfg : VisitorConfig) (fns : List Function) {v : ControlFlowContextVisitor}
    (hv : v.guardStack = []) :
    ∃ adds, Walks (seenCalls cfg fns (held v)) adds v (traverseAll cfg (unitNodes fns) v) := by
  induction fns generalizing v with
  | nil => exact ⟨[], Walks.refl v⟩
  | cons f rest ih =>
      have hf := f.walks cfg hv
      obtain ⟨adds, hrest⟩ := ih (hf.ifs.trans hv)
      rw [hf.holds] at hrest
      exact ⟨_, hf.trans hrest⟩

/-- The contexts of the unit have the guards that hold, call by call. -/
def RecordsGuards (cfg : VisitorConfig) (fns : List Function) : Prop :=
  (contextsOf cfg (unitNodes fns)).map observed = (guardedCalls cfg fns).map GuardedCall.observed

theorem contexts_seen (cfg : VisitorConfig) (fns : List Function) :
    (contextsOf cfg (unitNodes fns)).map observed =
      (seenCalls cfg fns []).map GuardedCall.observed := by
  obtain ⟨_, hwalks⟩ := unit_walks cfg fns (v := {}) rfl
  obtain ⟨news, hnews, hcalls⟩ := hwalks.stored
  unfold contextsOf
  rw [hnews]
  exact hcalls

theorem agree_of_observed {l m : List GuardedCall}
    (h : l.map GuardedCall.observed = m.map GuardedCall.observed) : Agree l m := by
  have hguards := congrArg (List.map Prod.snd) h
  rw [List.map_map, List.map_map] at hguards
  exact hguards

end Guards

/-- A call of a named function that takes `p != nullptr`. -/
def callTo (callee loc : String) : Body.Expr :=
  .call { beginLoc := str loc
          directCallee := some
            { ident := { usr := str ("c:@F@" ++ callee ++ "#"), display := str callee } }
          args := [{ text := str "p != nullptr" }] }
    .nil

/-- `void open() { CHECK(p != nullptr); }` -/
def checkedFn : Guards.Function where
  decl := { ident := { usr := str "c:@F@open#", display := str "open" } }
  body := .cons (.expr (callTo "CHECK_impl" "a.cpp:2:3")) .nil

/-- `void run() { work(); }` -/
def uncheckedFn : Guards.Function where
  decl := runFn
  body := .cons (.expr (callTo "work" "a.cpp:5:3")) .nil

end Vycor
