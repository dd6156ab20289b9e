/-
Parsing a printed template.

A written template is what an author writes: identifiers, quoted arguments without a quote in
them, and literals that do not run into the mark behind them.  The three levels of the parser
undo the three levels of the print, by what each scans for: a literal is clear of opening
marks, an expression is clear of closing marks, a pipe is quiet about bars, and the last
parenthesis of a pipe is its own.

The level that looks for the closing mark comes first and knows nothing of quotes.  So it is
the braces in an argument, and only they, that break the round trip: the first argument with
a closing mark in it is cut there, and what is left of its pipe keeps the opening quote.
-/
import Vycor.Model.TemplateEngine

namespace Vycor

namespace TemplateEngine

open Scan

/-! ### Written templates -/

/-- A letter, a digit or an underscore. -/
def identifierByte (b : UInt8) : Bool :=
  (97 ≤ b && b ≤ 122) || (65 ≤ b && b ≤ 90) || (48 ≤ b && b ≤ 57) || b == 95

/-- One such byte or more. -/
abbrev Identifier := { s : Str // s ≠ [] ∧ ∀ b ∈ s, identifierByte b = true }

/-- Any string without a quote. -/
abbrev Argument := { s : Str // quote ∉ s }

/-- No opening mark in it, and none that begins at its end. -/
abbrev Literal := { s : Str // ¬ [openBrace, openBrace] <:+: s ∧ s.getLast? ≠ some openBrace }

/-- An operation after a `|`, with an argument or without. -/
inductive WrittenPipe
  | bare (name : Identifier)
  | call (name : Identifier) (arg : Argument)

/-- What stands between the braces. -/
structure WrittenExpr where
  nodeId : Identifier
  pipes : List WrittenPipe

/-- A literal, then expressions with a literal behind each. -/
structure WrittenTemplate where
  literal : Literal
  rest : List (WrittenExpr × Literal)

namespace WrittenPipe

/-- The operation as it is typed. -/
def print : WrittenPipe → Str
  | bare name => name.1
  | call name arg => name.1 ++ str "(\"" ++ arg.1 ++ str "\")"

/-- What the operation should be read as. -/
def value : WrittenPipe → PipeOp
  | bare name => { name := name.1, arg := [] }
  | call name arg => { name := name.1, arg := arg.1 }

/-- Its argument holds no closing mark. -/
def Plain : WrittenPipe → Prop
  | bare _ => True
  | call _ arg => ¬ [closeBrace, closeBrace] <:+: arg.1

end WrittenPipe

namespace WrittenExpr

/-- The operations as they are typed, each after its `|`. -/
def printPipes (pipes : List WrittenPipe) : Str := pipes.flatMap fun p => str " | " ++ p.print

/-- The expression as it is typed. -/
def print (e : WrittenExpr) : Str := e.nodeId.1 ++ printPipes e.pipes

/-- What the expression should be read as. -/
def value (e : WrittenExpr) : TemplateExpr :=
  { nodeId := e.nodeId.1, pipes := e.pipes.map (·.value) }

end WrittenExpr

namespace WrittenTemplate

/-- The expressions in their braces, each with the text after it. -/
def printRest (rest : List (WrittenExpr × Literal)) : Str :=
  rest.flatMap fun r => str "\x7b\x7b" ++ r.1.print ++ str "\x7d\x7d" ++ r.2.1

/-- The template as it is typed. -/
def print (t : WrittenTemplate) : Str := t.literal.1 ++ printRest t.rest

/-- What the template should be read as. -/
def value (t : WrittenTemplate) : ParsedTemplate :=
  { literals := t.literal.1 :: t.rest.map (·.2.1), exprs := t.rest.map (·.1.value) }

/-- No argument holds a closing mark. -/
def Plain (t : WrittenTemplate) : Prop := ∀ r ∈ t.rest, ∀ p ∈ r.1.pipes, p.Plain

end WrittenTemplate

/-! ### What identifiers and pipes are made of -/

theorem not_mem_identifier {c : UInt8} (hc : identifierByte c = false) (s : Identifier) :
    c ∉ s.1 := by
  intro h
  rw [s.2.2 c h] at hc
  cases hc

theorem isSpace_identifier {b : UInt8} (h : identifierByte b = true) : isSpace b = false := by
  have hspaces : ([32, 9, 10, 11, 12, 13] : Str).all (fun b => !identifierByte b) = true := rfl
  refine Bool.eq_false_iff.mpr fun hspace => ?_
  have hb := List.all_eq_true.mp hspaces b (of_decide_eq_true hspace)
  rw [h] at hb
  cases hb

theorem isSpace_blank : ∀ b ∈ ([32] : Str), isSpace b = true := List.forall_mem_singleton.mpr rfl

/-- An identifier begins and ends with no space. -/
theorem identifier_ends (s : Identifier) :
    (∃ b ∈ s.1.head?, isSpace b = false) ∧ ∃ b ∈ s.1.getLast?, isSpace b = false := by
  obtain ⟨s, hne, hbytes⟩ := s
  refine ⟨⟨s.head hne, List.head?_eq_some_head hne, ?_⟩,
    ⟨s.getLast hne, List.getLast?_eq_some_getLast hne, ?_⟩⟩
  · exact isSpace_identifier (hbytes _ (List.head_mem hne))
  · exact isSpace_identifier (hbytes _ (List.getLast_mem hne))

namespace WrittenPipe

theorem print_call (name : Identifier) (arg : Argument) : (call name arg).print
    = name.1 ++ openParen :: quote :: (arg.1 ++ [quote, closeParen]) := by
  have hopen : str "(\"" = [openParen, quote] := rfl
  have hclose : str "\")" = [quote, closeParen] := rfl
  show name.1 ++ str "(\"" ++ arg.1 ++ str "\")" = _
  rw [hopen, hclose]
  simp

/-- A pipe begins and ends with no space. -/
theorem print_ends (p : WrittenPipe) :
    (∃ b ∈ p.print.head?, isSpace b = false) ∧ ∃ b ∈ p.print.getLast?, isSpace b = false := by
  cases p with
  | bare name => exact identifier_ends name
  | call name arg =>
      obtain ⟨⟨b, hb, hspace⟩, -⟩ := identifier_ends name
      rw [print_call]
      refine ⟨⟨b, ?_, hspace⟩, closeParen, ?_, by decide⟩
      · rw [List.head?_append, hb]
        rfl
      · have hend : name.1 ++ openParen :: quote :: (arg.1 ++ [quote, closeParen])
            = (name.1 ++ openParen :: quote :: (arg.1 ++ [quote])) ++ [closeParen] := by simp
        rw [hend, List.getLast?_concat]
        rfl

/-- The split passes over a pipe. -/
theorem quiet_print (p : WrittenPipe) : Quiet quote bar p.print := by
  have hname : ∀ name : Identifier, Quiet quote bar name.1 := fun name =>
    quiet_plain (not_mem_identifier rfl name) (not_mem_identifier rfl name)
  cases p with
  | bare name => exact hname name
  | call name arg =>
      have hprint : (call name arg).print
          = name.1 ++ [openParen] ++ (quote :: (arg.1 ++ [quote])) ++ [closeParen] := by
        rw [print_call]
        simp
      rw [hprint]
      exact (((hname name).append (quiet_plain (by decide) (by decide))).append
        (quiet_quoted (by decide) arg.2)).append (quiet_plain (by decide) (by decide))

/-- A plain pipe is clear of closing marks. -/
theorem clear_print {p : WrittenPipe} (h : p.Plain) : Clear closeBrace p.print := by
  have hname : ∀ name : Identifier, Clear closeBrace name.1 := fun name =>
    clear_of_not_mem (not_mem_identifier rfl name)
  cases p with
  | bare name => exact hname name
  | call name arg =>
      have harg : Clear closeBrace (arg.1 ++ [quote, closeParen]) :=
        (apart_iff.mpr h).append (by decide) (by decide)
      have hopen : Clear closeBrace [openParen, quote] := clear_of_not_mem (by decide)
      rw [print_call]
      exact (hname name).append (hopen.append harg)

end WrittenPipe

/-! ### One pipe -/

/-- Trimming keeps a text with no space at its ends. -/
theorem trim_kept {s : Str} (front t : Str) (hfront : ∀ b ∈ front, isSpace b = true)
    (hhead : ∃ b ∈ s.head?, isSpace b = false) (hlast : ∃ b ∈ s.getLast?, isSpace b = false) :
    trim (front ++ (s ++ t)) = s ++ t.rdropWhile isSpace :=
  trim_append front t hfront hhead hlast

theorem trim_identifier (s : Identifier) : trim s.1 = s.1 := by
  have htrim := trim_kept [] [] (by simp) (identifier_ends s).1 (identifier_ends s).2
  simpa using htrim

/-- The name of a call ends at its opening parenthesis. -/
theorem findIdx?_name (name : Identifier) (t : Str) :
    (name.1 ++ openParen :: t).findIdx? (· = openParen) = some name.1.length := by
  have hname : name.1.findIdx? (· = openParen) = none := by
    refine List.findIdx?_eq_none_iff.mpr fun b hb => decide_eq_false ?_
    rintro rfl
    exact not_mem_identifier rfl name hb
  rw [List.findIdx?_append, hname, List.findIdx?_cons]
  simp

theorem unquote_quoted (arg : Str) : unquote (quote :: (arg ++ [quote])) = arg := by
  have hlast : (quote :: (arg ++ [quote])).getLast? = some quote := by
    rw [← List.cons_append, List.getLast?_concat]
  unfold unquote
  rw [if_pos ⟨by simp, rfl, hlast⟩]
  simp

/-- An argument with one quote keeps it. -/
theorem unquote_open {s : Str} (h : quote ∉ s) : unquote (quote :: s) = quote :: s := by
  refine if_neg ?_
  rintro ⟨hlen, -, hlast⟩
  cases s with
  | nil => cases hlen with
    | step hlen => cases hlen
  | cons b rest =>
      rw [List.getLast?_cons_cons] at hlast
      exact h (List.mem_of_getLast? hlast)

/-- **A printed pipe is read as its value**, with blanks around it. -/
theorem parsePipeOp_print (p : WrittenPipe) {t : Str} (ht : ∀ b ∈ t, isSpace b = true) :
    parsePipeOp (32 :: (p.print ++ t)) = .ok p.value := by
  have htrim : trim (32 :: (p.print ++ t)) = p.print := by
    have hends := p.print_ends
    have h := trim_kept [32] t isSpace_blank hends.1 hends.2
    rw [List.rdropWhile_eq_nil_iff.mpr ht, List.append_nil] at h
    exact h
  have hne : p.print ≠ [] := by
    intro hnil
    obtain ⟨⟨b, hb, -⟩, -⟩ := p.print_ends
    rw [hnil] at hb
    cases hb
  unfold parsePipeOp
  rw [htrim]
  dsimp only
  rw [if_neg hne]
  cases p with
  | bare name =>
      have hname : (WrittenPipe.bare name).print.findIdx? (· = openParen) = none := by
        refine List.findIdx?_eq_none_iff.mpr fun b hb => decide_eq_false ?_
        rintro rfl
        exact not_mem_identifier rfl name hb
      rw [hname]
      rfl
  | call name arg =>
      have hrest : (name.1 ++ openParen :: quote :: (arg.1 ++ [quote, closeParen])).drop
          (name.1.length + 1) = (quote :: (arg.1 ++ [quote])) ++ [closeParen] := by
        rw [List.drop_append]
        simp
      have hquoted : trim (quote :: (arg.1 ++ [quote])) = quote :: (arg.1 ++ [quote]) := by
        have hlast : (quote :: (arg.1 ++ [quote])).getLast? = some quote := by
          rw [← List.cons_append, List.getLast?_concat]
        have h := trim_kept [] [] (by simp) ⟨quote, rfl, by decide⟩ ⟨quote, hlast, by decide⟩
        simpa using h
      rw [WrittenPipe.print_call, findIdx?_name]
      dsimp only
      rw [List.take_left, trim_identifier, hrest, rfind_append_self]
      dsimp only
      rw [List.take_left, hquoted, unquote_quoted]
      rfl

/-- A pipe that is cut within its argument is no pipe, or keeps the quote that opened it. -/
theorem parsePipeOp_cut (name : Identifier) {a : Str} (ha : quote ∉ a) {op : PipeOp}
    (h : parsePipeOp (32 :: (name.1 ++ openParen :: quote :: a)) = .ok op) : quote ∈ op.arg := by
  obtain ⟨a', ha', htrim⟩ : ∃ a', quote ∉ a' ∧
      trim (32 :: (name.1 ++ openParen :: quote :: a)) = name.1 ++ openParen :: quote :: a' := by
    refine ⟨a.rdropWhile isSpace, fun hmem => ha ((List.rdropWhile_prefix isSpace a).subset hmem), ?_⟩
    obtain ⟨⟨b, hb, hspace⟩, -⟩ := identifier_ends name
    have hcut := trim_kept (s := name.1 ++ [openParen, quote]) [32] a isSpace_blank
      ⟨b, by rw [List.head?_append, hb]; rfl, hspace⟩ ⟨quote, by simp, by decide⟩
    simpa using hcut
  unfold parsePipeOp at h
  rw [htrim] at h
  dsimp only at h
  rw [if_neg (by simp), findIdx?_name] at h
  dsimp only at h
  have hrest : (name.1 ++ openParen :: quote :: a').drop (name.1.length + 1) = quote :: a' := by
    rw [List.drop_append]
    simp
  rw [hrest] at h
  cases hclose : rfind closeParen (quote :: a') with
  | none =>
      rw [hclose] at h
      cases h
  | some k =>
      rw [hclose] at h
      -- The parenthesis stands behind the quote, so the argument begins with it.
      cases k with
      | zero => exact absurd (Option.some_inj.mp (getElem?_rfind hclose)) (by decide)
      | succ k =>
          obtain rfl := Except.ok.inj h
          have hcut : trim (quote :: a'.take k) = quote :: (a'.take k).rdropWhile isSpace :=
            trim_kept (s := [quote]) [] (a'.take k) (by simp) ⟨quote, rfl, by decide⟩
              ⟨quote, rfl, by decide⟩
          have hno : quote ∉ (a'.take k).rdropWhile isSpace := fun hmem =>
            ha' (List.mem_of_mem_take ((List.rdropWhile_prefix isSpace _).subset hmem))
          show quote ∈ unquote (trim (quote :: a'.take k))
          rw [hcut, unquote_open hno]
          exact List.mem_cons_self

/-! ### One expression -/

/-- **A printed pipe ends the part before it** and begins one. -/
theorem splitOutside_pipe (part : Str) (p : WrittenPipe) (tail : Str) :
    splitOutside quote bar false part (str " | " ++ p.print ++ tail)
      = (part ++ [32]) :: splitOutside quote bar false (32 :: p.print) tail := by
  have hblank : Quiet quote bar [32] := quiet_plain (by decide) (by decide)
  have hprint : str " | " ++ p.print ++ tail = [32] ++ bar :: ([32] ++ p.print ++ tail) := by
    rw [show str " | " = [32, bar, 32] from rfl]
    simp
  rw [hprint, hblank, splitOutside_sep (by decide), (hblank.append p.quiet_print)]
  rfl

theorem mapM_cons_ok {α β : Type} {f : α → Except Str β} {a : α} {b : β} {l : List α}
    {bs : List β} (ha : f a = .ok b) (hl : l.mapM f = .ok bs) :
    (a :: l).mapM f = .ok (b :: bs) := by
  rw [List.mapM_cons, ha, hl]
  rfl

/-- **The parts of printed pipes are read one by one.** -/
theorem mapM_parts (pipes : List WrittenPipe) (p : WrittenPipe) :
    (splitOutside quote bar false (32 :: p.print) (WrittenExpr.printPipes pipes)).mapM parsePipeOp
      = .ok (p.value :: pipes.map (·.value)) := by
  induction pipes generalizing p with
  | nil =>
      have hlast := parsePipeOp_print p (t := []) (by simp)
      rw [List.append_nil] at hlast
      exact mapM_cons_ok hlast rfl
  | cons p' rest ih =>
      rw [WrittenExpr.printPipes, List.flatMap_cons, splitOutside_pipe]
      exact mapM_cons_ok (parsePipeOp_print p isSpace_blank) (ih p')

/-- The first part of an expression gives its node id. -/
theorem trim_nodeId (name : Identifier) {t : Str} (ht : ∀ b ∈ t, isSpace b = true) :
    trim (name.1 ++ t) = name.1 := by
  have h := trim_kept [] t (by simp) (identifier_ends name).1 (identifier_ends name).2
  rwa [List.rdropWhile_eq_nil_iff.mpr ht, List.append_nil] at h

theorem parseExpr_print (e : WrittenExpr) : parseExpr e.print = .ok e.value := by
  obtain ⟨nodeId, pipes⟩ := e
  have hquiet : Quiet quote bar nodeId.1 :=
    quiet_plain (not_mem_identifier rfl nodeId) (not_mem_identifier rfl nodeId)
  have hne : nodeId.1 ≠ [] := nodeId.2.1
  unfold parseExpr splitPipes WrittenExpr.print
  dsimp only
  rw [hquiet, List.nil_append]
  cases pipes with
  | nil =>
      have hid := trim_nodeId nodeId (t := []) (by simp)
      rw [List.append_nil] at hid
      rw [WrittenExpr.printPipes, List.flatMap_nil, splitOutside]
      dsimp only
      rw [hid, if_neg hne]
      rfl
  | cons p rest =>
      rw [WrittenExpr.printPipes, List.flatMap_cons, splitOutside_pipe]
      dsimp only
      rw [trim_nodeId nodeId isSpace_blank, if_neg hne]
      have hparts := mapM_parts rest p
      rw [WrittenExpr.printPipes] at hparts
      rw [hparts]
      rfl

theorem clear_identifier (s : Identifier) : Clear closeBrace s.1 :=
  clear_of_not_mem (not_mem_identifier rfl s)

theorem clear_printPipes {pipes : List WrittenPipe} (h : ∀ p ∈ pipes, p.Plain) :
    Clear closeBrace (WrittenExpr.printPipes pipes) :=
  Clear.flatMap fun p hp => (clear_of_not_mem (by decide)).append (WrittenPipe.clear_print (h p hp))

/-- An expression of plain pipes is clear of closing marks. -/
theorem clear_expr {e : WrittenExpr} (h : ∀ p ∈ e.pipes, p.Plain) : Clear closeBrace e.print :=
  (clear_identifier e.nodeId).append (clear_printPipes h)

/-! ### An expression cut in an argument

The parser looks for the first closing mark and does not know about quotes. If
an argument holds one the expression is cut there, and what is left of it has an
unpaired quote.
-/

/-- What is left of a pipe that is cut in its argument. -/
def cutPipe (name : Identifier) (a : Str) : Str := name.1 ++ openParen :: quote :: a

/-- The pipe that is cut is the last part. -/
theorem cut_mem_parts (name : Identifier) {a : Str} (ha : quote ∉ a) (pipes : List WrittenPipe)
    (part : Str) :
    32 :: cutPipe name a ∈ (splitOutside quote bar false part
      (WrittenExpr.printPipes pipes ++ (str " | " ++ cutPipe name a))).tail := by
  induction pipes generalizing part with
  | nil =>
      have hblank : Quiet quote bar [32] := quiet_plain (by decide) (by decide)
      have hname : Quiet quote bar (name.1 ++ [openParen]) :=
        (quiet_plain (not_mem_identifier rfl name) (not_mem_identifier rfl name)).append
          (quiet_plain (by decide) (by decide))
      have hprint : WrittenExpr.printPipes [] ++ (str " | " ++ cutPipe name a)
          = [32] ++ bar :: ([32] ++ (name.1 ++ [openParen]) ++ quote :: a) := by
        rw [show str " | " = [32, bar, 32] from rfl, cutPipe, WrittenExpr.printPipes]
        simp
      rw [hprint, hblank, splitOutside_sep (by decide), (hblank.append hname),
        splitOutside_unclosed (by decide) ha]
      simp [cutPipe]
  | cons p rest ih =>
      have hprint : WrittenExpr.printPipes (p :: rest) ++ (str " | " ++ cutPipe name a)
          = str " | " ++ p.print ++ (WrittenExpr.printPipes rest ++ (str " | " ++ cutPipe name a)) := by
        simp [WrittenExpr.printPipes]
      rw [hprint, splitOutside_pipe]
      exact List.mem_of_mem_tail (ih _)

theorem exists_of_mapM_ok {α β : Type} {f : α → Except Str β} {l : List α} {bs : List β}
    (h : l.mapM f = .ok bs) {a : α} (ha : a ∈ l) : ∃ b ∈ bs, f a = .ok b := by
  induction l generalizing bs with
  | nil => cases ha
  | cons x rest ih =>
      rw [List.mapM_cons] at h
      cases hx : f x with
      | error message =>
          rw [hx] at h
          cases h
      | ok y =>
          rw [hx] at h
          cases hrest : rest.mapM f with
          | error message =>
              rw [hrest] at h
              cases h
          | ok ys =>
              rw [hrest] at h
              obtain rfl := Except.ok.inj h
              rcases List.mem_cons.mp ha with rfl | ha
              · exact ⟨y, List.mem_cons_self, hx⟩
              · obtain ⟨b, hb, hab⟩ := ih hrest ha
                exact ⟨b, List.mem_cons_of_mem _ hb, hab⟩

/-- Some pipe of the expression has an argument that no template writes. -/
def Quoted (e : TemplateExpr) : Prop := ∃ op ∈ e.pipes, quote ∈ op.arg

/-- **An expression cut in an argument is not read, or read with the quote in it.** -/
theorem parseExpr_cut (nodeId name : Identifier) {a : Str} (ha : quote ∉ a)
    (pipes : List WrittenPipe) {e : TemplateExpr}
    (h : parseExpr (nodeId.1 ++ (WrittenExpr.printPipes pipes ++ (str " | " ++ cutPipe name a)))
      = .ok e) : Quoted e := by
  have hquiet : Quiet quote bar nodeId.1 :=
    quiet_plain (not_mem_identifier rfl nodeId) (not_mem_identifier rfl nodeId)
  have hpart := cut_mem_parts name ha pipes nodeId.1
  unfold parseExpr splitPipes at h
  rw [hquiet, List.nil_append] at h
  cases hparts : splitOutside quote bar false nodeId.1
      (WrittenExpr.printPipes pipes ++ (str " | " ++ cutPipe name a)) with
  | nil =>
      rw [hparts] at hpart
      cases hpart
  | cons first others =>
      rw [hparts] at h hpart
      dsimp only at h
      split at h
      · cases h
      · split at h
        · cases h
        · rename_i ops hops
          obtain rfl := Except.ok.inj h
          obtain ⟨op, hop, hread⟩ := exists_of_mapM_ok hops hpart
          exact ⟨op, hop, parsePipeOp_cut name ha hread⟩

/-! ### The template -/

theorem clear_literal (l : Literal) : Clear openBrace l.1 := ⟨apart_iff.mpr l.2.1, l.2.2⟩

/-- **One turn of the parser**: the literal, the body up to the first closing mark, and the
rest. -/
theorem parseRemaining_turn (l : Literal) {body : Str} (hbody : Clear closeBrace body)
    (tail : Str) (acc : ParsedTemplate) :
    parseRemaining (l.1 ++ openBrace :: openBrace :: (body ++ closeBrace :: closeBrace :: tail)) acc
      = match parseExpr body with
        | .error message => .error message
        | .ok expr =>
          parseRemaining tail { literals := acc.literals ++ [l.1], exprs := acc.exprs ++ [expr] } := by
  rw [parseRemaining, if_neg (by simp), find_of_clear (clear_literal l)]
  dsimp only
  have hrest : (l.1 ++ openBrace :: openBrace :: (body ++ closeBrace :: closeBrace :: tail)).drop
      (l.1.length + 2) = body ++ closeBrace :: closeBrace :: tail := by
    rw [List.drop_append]
    simp
  have htail : (body ++ closeBrace :: closeBrace :: tail).drop (body.length + 2) = tail := by
    rw [List.drop_append]
    simp
  rw [hrest, find_of_clear hbody]
  dsimp only
  rw [List.take_left, List.take_left]
  cases parseExpr body with
  | error message => rfl
  | ok expr => exact congrArg (parseRemaining · _) htail

/-- The last literal. -/
theorem parseRemaining_literal (l : Literal) (acc : ParsedTemplate) :
    parseRemaining l.1 acc
      = .ok (if l.1 = [] then acc else { acc with literals := acc.literals ++ [l.1] }) := by
  rw [parseRemaining]
  split
  · rfl
  · rw [find_of_apart (apart_iff.mpr l.2.1)]

/-- **What a turn keeps holds of what is read**, up to the last literal. -/
theorem parseRemaining_inv {I : ParsedTemplate → Prop}
    (hturn : ∀ acc literal expr, I acc →
      I { literals := acc.literals ++ [literal], exprs := acc.exprs ++ [expr] })
    {s : Str} {acc r : ParsedTemplate} (hacc : I acc) (h : parseRemaining s acc = .ok r) :
    I r ∨ ∃ before literal, I before ∧
      r = { before with literals := before.literals ++ [literal] } := by
  induction s, acc using parseRemaining.induct with
  | case1 acc =>
      rw [parseRemaining, if_pos rfl] at h
      exact Or.inl (Except.ok.inj h ▸ hacc)
  | case2 s acc hs hopen =>
      rw [parseRemaining, if_neg hs, hopen] at h
      exact Or.inr ⟨acc, s, hacc, (Except.ok.inj h).symm⟩
  | case3 s acc hs openPos hopen rest hclose =>
      rw [parseRemaining, if_neg hs, hopen] at h
      simp only [rest] at hclose
      simp only [hclose] at h
      cases h
  | case4 s acc hs openPos hopen rest closePos hclose message hexpr =>
      rw [parseRemaining, if_neg hs, hopen] at h
      simp only [rest] at hclose hexpr
      simp only [hclose, hexpr] at h
      cases h
  | case5 s acc hs openPos hopen rest closePos hclose expr hexpr ih =>
      rw [parseRemaining, if_neg hs, hopen] at h
      simp only [rest] at hclose hexpr ih
      simp only [hclose, hexpr] at h
      exact ih (hturn acc _ expr hacc) h

/-- Expressions that were read stay. -/
theorem exprs_subset {s : Str} {acc r : ParsedTemplate} (h : parseRemaining s acc = .ok r) :
    acc.exprs ⊆ r.exprs := by
  have hturn : ∀ (x : ParsedTemplate) (literal : Str) (expr : TemplateExpr),
      acc.exprs ⊆ x.exprs → acc.exprs ⊆ x.exprs ++ [expr] :=
    fun x _ expr hx => List.subset_append_of_subset_left [expr] hx
  rcases parseRemaining_inv hturn (List.Subset.refl acc.exprs) h with hr | ⟨before, literal, hb, rfl⟩
  · exact hr
  · exact hb

/-- The literal an expression at the end is followed by. -/
def closed (r : ParsedTemplate) : ParsedTemplate :=
  if r.literals.length = r.exprs.length then { r with literals := r.literals ++ [[]] } else r

theorem parseTemplate_eq (s : Str) : parseTemplate s = (parseRemaining s {}).map closed := by
  unfold parseTemplate closed
  cases parseRemaining s {} with
  | error message => rfl
  | ok r =>
      dsimp only [Except.map]
      split <;> rfl

/-- **A parsed template has one literal more than expressions.** -/
theorem lengths_of_parse {s : Str} {r : ParsedTemplate} (h : parseTemplate s = .ok r) :
    r.literals.length = r.exprs.length + 1 := by
  rw [parseTemplate_eq] at h
  cases hread : parseRemaining s {} with
  | error message =>
      rw [hread] at h
      cases h
  | ok read =>
      rw [hread] at h
      obtain rfl := Except.ok.inj h
      have hinv := parseRemaining_inv (I := fun x => x.literals.length = x.exprs.length)
        (fun acc literal expr hacc => by simp [hacc]) rfl hread
      unfold closed
      rcases hinv with heq | ⟨before, literal, heq, rfl⟩
      · rw [if_pos heq, List.length_append, heq]
        rfl
      · have hmore : (before.literals ++ [literal]).length = before.exprs.length + 1 := by
          rw [List.length_append, heq]
          rfl
        have hne : (before.literals ++ [literal]).length ≠ before.exprs.length := by omega
        rw [if_neg hne]
        exact hmore

/-! ### Evaluation -/

theorem evaluateFrom_isSome {tmpl : ParsedTemplate} (result : MatchResult)
    (exprs : List TemplateExpr) {i : Nat} (h : i + exprs.length < tmpl.literals.length)
    (output : Str) : (evaluateFrom tmpl result i exprs output).isSome := by
  induction exprs generalizing i output with
  | nil => rfl
  | cons expr rest ih =>
      rw [List.length_cons] at h
      rw [evaluateFrom]
      cases evaluateExpr expr result with
      | error message => rfl
      | ok value =>
          dsimp only
          rw [List.getElem?_eq_getElem (by omega : i + 1 < tmpl.literals.length)]
          exact ih (by omega) _

/-- **The evaluation of a parsed template stays within its literals.** -/
theorem evaluateTemplate_isSome {s : Str} {tmpl : ParsedTemplate} (h : parseTemplate s = .ok tmpl)
    (result : MatchResult) : (evaluateTemplate tmpl result).isSome := by
  have hlen := lengths_of_parse h
  unfold evaluateTemplate
  rw [List.getElem?_eq_getElem (by omega : 0 < tmpl.literals.length)]
  exact evaluateFrom_isSome result tmpl.exprs (by omega) _

/-! ### The round trip -/

theorem print_cons (l : Literal) (e : WrittenExpr) (l' : Literal)
    (rest : List (WrittenExpr × Literal)) :
    l.1 ++ WrittenTemplate.printRest ((e, l') :: rest)
      = l.1 ++ openBrace :: openBrace :: (e.print ++ closeBrace :: closeBrace ::
        (l'.1 ++ WrittenTemplate.printRest rest)) := by
  have hopen : str "\x7b\x7b" = [openBrace, openBrace] := rfl
  have hclose : str "\x7d\x7d" = [closeBrace, closeBrace] := rfl
  simp [WrittenTemplate.printRest, hopen, hclose]

/-- **Plain expressions are read back in turn.** -/
theorem parseRemaining_print (rest : List (WrittenExpr × Literal))
    (hplain : ∀ r ∈ rest, ∀ p ∈ r.1.pipes, p.Plain) (l : Literal) (acc : ParsedTemplate)
    (hacc : acc.literals.length = acc.exprs.length) :
    (parseRemaining (l.1 ++ WrittenTemplate.printRest rest) acc).map closed
      = .ok { literals := acc.literals ++ l.1 :: rest.map (·.2.1)
              exprs := acc.exprs ++ rest.map (·.1.value) } := by
  induction rest generalizing l acc with
  | nil =>
      rw [WrittenTemplate.printRest, List.flatMap_nil, List.append_nil, parseRemaining_literal]
      refine congrArg Except.ok ?_
      unfold closed
      by_cases hl : l.1 = []
      · rw [if_pos hl, if_pos hacc, hl]
        simp
      · have hne : (acc.literals ++ [l.1]).length ≠ acc.exprs.length := by simp [hacc]
        rw [if_neg hl, if_neg hne]
        simp
  | cons r rest ih =>
      obtain ⟨e, l'⟩ := r
      have hbody : Clear closeBrace e.print := clear_expr (hplain (e, l') List.mem_cons_self)
      rw [print_cons, parseRemaining_turn l hbody, parseExpr_print]
      dsimp only
      rw [ih (fun r hr => hplain r (List.mem_cons_of_mem _ hr)) l' _ (by simp [hacc])]
      simp

/-- The first pipe whose argument holds a closing mark. -/
theorem exists_cut {pipes : List WrittenPipe} (h : ¬ ∀ p ∈ pipes, p.Plain) :
    ∃ good name arg more, pipes = good ++ .call name arg :: more ∧ (∀ p ∈ good, p.Plain) ∧
      ¬ Apart closeBrace arg.1 := by
  induction pipes with
  | nil => exact absurd (fun _ hp => absurd hp List.not_mem_nil) h
  | cons p rest ih =>
      by_cases hp : p.Plain
      · have hrest : ¬ ∀ p ∈ rest, p.Plain := by
          intro hall
          exact h (List.forall_mem_cons.mpr ⟨hp, hall⟩)
        obtain ⟨good, name, arg, more, rfl, hgood, harg⟩ := ih hrest
        exact ⟨p :: good, name, arg, more, rfl, List.forall_mem_cons.mpr ⟨hp, hgood⟩, harg⟩
      · cases p with
        | bare name => exact absurd trivial hp
        | call name arg =>
            refine ⟨[], name, arg, rest, rfl, by simp, fun hapart => hp ?_⟩
            exact apart_iff.mp hapart

/-- What stands before the closing mark is clear of others. -/
theorem clear_cut (nodeId name : Identifier) {good : List WrittenPipe}
    (hgood : ∀ p ∈ good, p.Plain) {a : Str} (ha : Clear closeBrace a) :
    Clear closeBrace
      (nodeId.1 ++ (WrittenExpr.printPipes good ++ (str " | " ++ cutPipe name a))) := by
  have hbar : Clear closeBrace (str " | ") := clear_of_not_mem (by decide)
  have hopen : Clear closeBrace [openParen, quote] := clear_of_not_mem (by decide)
  have hpipe : Clear closeBrace (cutPipe name a) := (clear_identifier name).append (hopen.append ha)
  exact (clear_identifier nodeId).append ((clear_printPipes hgood).append (hbar.append hpipe))

theorem print_cut (nodeId name : Identifier) (good more : List WrittenPipe) {arg : Argument}
    {a q : Str} (hsplit : arg.1 = a ++ closeBrace :: closeBrace :: q) :
    (WrittenExpr.mk nodeId (good ++ .call name arg :: more)).print
      = nodeId.1 ++ (WrittenExpr.printPipes good ++ (str " | " ++ cutPipe name a))
        ++ closeBrace :: closeBrace ::
          (q ++ [quote, closeParen] ++ WrittenExpr.printPipes more) := by
  unfold WrittenExpr.print WrittenExpr.printPipes cutPipe
  rw [List.flatMap_append, List.flatMap_cons, WrittenPipe.print_call, hsplit]
  simp

/-- **A closing mark in an argument leaves a quote in what is read.** -/
theorem quoted_of_cut (rest : List (WrittenExpr × Literal))
    (hcut : ¬ ∀ r ∈ rest, ∀ p ∈ r.1.pipes, p.Plain) (l : Literal) {acc r : ParsedTemplate}
    (h : parseRemaining (l.1 ++ WrittenTemplate.printRest rest) acc = .ok r) :
    ∃ e ∈ r.exprs, Quoted e := by
  induction rest generalizing l acc with
  | nil => exact absurd (fun _ hr => absurd hr List.not_mem_nil) hcut
  | cons x rest ih =>
      obtain ⟨e, l'⟩ := x
      rw [print_cons] at h
      by_cases hplain : ∀ p ∈ e.pipes, p.Plain
      · rw [parseRemaining_turn l (clear_expr hplain), parseExpr_print] at h
        exact ih (fun hall => hcut (List.forall_mem_cons.mpr ⟨hplain, hall⟩)) l' h
      · obtain ⟨nodeId, pipes⟩ := e
        obtain ⟨good, name, arg, more, rfl, hgood, harg⟩ := exists_cut hplain
        obtain ⟨a, q, hsplit, ha⟩ := exists_clear harg
        have hquote : quote ∉ a := by
          intro hmem
          refine arg.2 ?_
          rw [hsplit]
          exact List.mem_append_left _ hmem
        rw [print_cut nodeId name good more hsplit, List.append_assoc, List.cons_append,
          List.cons_append, parseRemaining_turn l (clear_cut nodeId name hgood ha)] at h
        split at h
        · cases h
        · rename_i expr hexpr
          exact ⟨expr, exprs_subset h (by simp), parseExpr_cut nodeId name hquote good hexpr⟩

/-- No template writes an argument with a quote. -/
theorem not_quoted_value (e : WrittenExpr) : ¬ Quoted e.value := by
  rintro ⟨op, hop, hquote⟩
  obtain ⟨p, -, rfl⟩ := List.mem_map.mp hop
  cases p with
  | bare name => cases hquote
  | call name arg => exact arg.2 hquote

theorem parse_print_iff (t : WrittenTemplate) :
    parseTemplate t.print = .ok t.value ↔ t.Plain := by
  rw [parseTemplate_eq]
  constructor
  · intro h
    by_contra hcut
    cases hread : parseRemaining t.print {} with
    | error message =>
        rw [hread] at h
        cases h
    | ok r =>
        rw [hread] at h
        have hvalue : closed r = t.value := Except.ok.inj h
        obtain ⟨e, he, hquoted⟩ := quoted_of_cut t.rest hcut t.literal hread
        have hexprs : (closed r).exprs = r.exprs := by
          unfold closed
          split <;> rfl
        rw [← hexprs, hvalue] at he
        obtain ⟨x, -, rfl⟩ := List.mem_map.mp he
        exact not_quoted_value x.1 hquoted
  · intro hplain
    have h := parseRemaining_print t.rest hplain t.literal {} rfl
    exact h

end TemplateEngine

open TemplateEngine in
/-- **A printed template parses back exactly when no argument holds a closing mark**; and
whatever parses has one literal more than expressions, which the evaluation never runs past. -/
theorem template_round_trip_iff (t : WrittenTemplate) (s : Str) :
    (parseTemplate t.print = .ok t.value ↔ t.Plain) ∧
    ∀ tmpl : ParsedTemplate, parseTemplate s = .ok tmpl →
      tmpl.literals.length = tmpl.exprs.length + 1 ∧
        ∀ result, (evaluateTemplate tmpl result).isSome :=
  ⟨parse_print_iff t, fun _ h => ⟨lengths_of_parse h, evaluateTemplate_isSome h⟩⟩

open TemplateEngine in
/-- One expression that joins with two closing braces. -/
def bracesTemplate : WrittenTemplate where
  literal := ⟨[], by decide⟩
  rest :=
    [({ nodeId := ⟨str "x", by decide, List.all_eq_true.mp rfl⟩
        pipes := [.call ⟨str "join", by decide, List.all_eq_true.mp rfl⟩
          ⟨str "\x7d\x7d", by decide⟩] },
      ⟨[], by decide⟩)]

open TemplateEngine in
/-- The braces end the expression inside the quotes, and the pipe has no parenthesis left. -/
theorem braces_argument_cut :
    bracesTemplate.print = str "\x7b\x7bx | join(\"\x7d\x7d\")\x7d\x7d" ∧
      parseTemplate bracesTemplate.print
        = .error (str "unclosed parenthesis in pipe: join") ∧
      parseTemplate bracesTemplate.print ≠ .ok bracesTemplate.value := by
  have hread : parseTemplate bracesTemplate.print
      = .error (str "unclosed parenthesis in pipe: join") := by
    have hexpr : parseExpr (str "x | join(\"") = .error (str "unclosed parenthesis in pipe: join") := by
      decide +kernel
    have hbody : Scan.Clear closeBrace (str "x | join(\"") := Scan.clear_of_not_mem (by decide)
    have hprint : bracesTemplate.print = [] ++ openBrace :: openBrace ::
        (str "x | join(\"" ++ closeBrace :: closeBrace :: str "\")\x7d\x7d") := by decide +kernel
    rw [parseTemplate_eq, hprint, parseRemaining_turn ⟨[], by decide⟩ hbody, hexpr]
    rfl
  refine ⟨by decide +kernel, hread, ?_⟩
  rw [hread]
  exact nofun

end Vycor
