/-
When a call-site spelling is reported as ambiguous.

`query_call_site_context` and `query_raii_scopes_at_callsite` answer for the one context at a
spelling and ask for a caller when there are several.  Several functions at one spelling is
what a macro leads to, and the response says so.  But the index keeps one context for each TU
that walked the call, and one for each call of a caller that a line spells alike, so several
contexts may be those of one caller: there is nothing to choose and the tools ask all the
same.  A re-run names its caller by the listed usr, which is UTF-8 whatever the index holds, and
the index takes the first context whose caller has this usr or this display name.

`site_ambiguity_exact_iff` says when neither of the two shows.
-/
import Vycor.Model.ExceptionTools
import Vycor.Proofs.ContextHistory
import Vycor.Proofs.ContextQueries

namespace Vycor

open ControlFlowIndex (History)

/-! ### The contexts at a spelling -/

namespace ControlFlowIndex

variable {cf : ControlFlowIndex}

/-- The live contexts at a spelling, by what the index shows. -/
def liveAtSite (cf : ControlFlowIndex) (site : Str) : List CallSiteContext :=
  cf.allContexts.filter (·.callSite = site)

theorem WF.storedAtSite_eq (h : cf.WF) (site : Str) :
    cf.storedAtSite site = (cf.contexts.filter (·.live)).filter fun se =>
      (cf.materialize se).callSite = site := by
  have hsite : ∀ se ∈ cf.contexts, ((cf.materialize se).callSite = site
      ↔ cf.interner.find site = some se.site) := fun se hse =>
    (StringInterner.find_eq_some_iff_resolve h.nodup (h.inRange.ids se hse).site).symm
  unfold ControlFlowIndex.storedAtSite
  rw [List.filter_filter]
  cases hfind : cf.interner.find site with
  | none =>
      refine (List.filter_eq_nil_iff.mpr ?_).symm
      intro se hse
      simp [hsite se hse, hfind]
  | some id =>
      dsimp only
      rw [h.bySite id]
      unfold atSite
      rw [liveAt_positions]
      refine List.filter_congr ?_
      intro se hse
      have hiff : se.site = id ↔ (cf.materialize se).callSite = site := by
        rw [hsite se hse, hfind]
        exact ⟨fun heq => by rw [heq], fun heq => (Option.some_inj.mp heq).symm⟩
      simp [held, hiff, Bool.and_comm]

/-- **The site map lists the live contexts of a spelling, in their order.** -/
theorem WF.contextsAtSite_eq (h : cf.WF) (site : Str) :
    cf.contextsAtSite site = cf.liveAtSite site := by
  unfold ControlFlowIndex.contextsAtSite liveAtSite ControlFlowIndex.allContexts
  rw [h.storedAtSite_eq, List.filter_map]
  rfl

/-- **A caller is matched by its usr or its display name.** -/
theorem WF.contextAtSiteOf_eq (h : cf.WF) (site caller : Str) :
    cf.contextAtSiteOf site caller
      = (cf.liveAtSite site).find? fun c => c.callerUsr = caller || c.callerName = caller := by
  have hstored : ∀ se ∈ cf.storedAtSite site, se ∈ cf.contexts := by
    intro se hse
    rw [h.storedAtSite_eq] at hse
    exact List.mem_of_mem_filter (List.mem_of_mem_filter hse)
  rw [← h.contextsAtSite_eq]
  unfold ControlFlowIndex.contextAtSiteOf ControlFlowIndex.contextsAtSite
  rw [List.find?_map]
  have hkey : ∀ se ∈ cf.storedAtSite site,
      ((cf.materialize se).callerUsr = caller ↔ cf.interner.find caller = some se.caller) ∧
      ((cf.materialize se).callerName = caller
        ↔ cf.interner.find caller = some se.callerDisplay) := by
    intro se hse
    have hids := h.inRange.ids se (hstored se hse)
    exact ⟨(StringInterner.find_eq_some_iff_resolve h.nodup hids.caller).symm,
      (StringInterner.find_eq_some_iff_resolve h.nodup hids.callerDisplay).symm⟩
  cases hfind : cf.interner.find caller with
  | none =>
      have hnone : (cf.storedAtSite site).find?
          ((fun c => c.callerUsr = caller || c.callerName = caller) ∘ cf.materialize) = none := by
        refine List.find?_eq_none.mpr ?_
        intro se hse
        simp [hkey se hse, hfind]
      rw [hnone]
      rfl
  | some id =>
      show ((cf.storedAtSite site).find? _).map cf.materialize = _
      rw [← List.head?_filter, ← List.head?_filter]
      congr 2
      refine List.filter_congr ?_
      intro se hse
      obtain ⟨husr, hname⟩ := hkey se hse
      rw [hfind, Option.some_inj, eq_comm (a := id)] at husr hname
      simp only [Function.comp_apply, husr, hname]

end ControlFlowIndex

/-! ### Responses -/

/-- A disambiguation response. -/
def IsAmbiguity (out : Json) : Prop :=
  ∃ fields : JsonObject, out = .object fields ∧ fields.getBoolean (str "ambiguous") = some true

/-- A member of an object that is a string. -/
def stringOf (key : Str) : Json → Option Str
  | .object fields => JsonObject.getString fields key
  | _ => none

/-- The strings the candidates of a response have under a key. -/
def listed (key : Str) : Json → List Str
  | .object fields =>
    ((JsonObject.getArray fields (str "candidates")).getD []).filterMap (stringOf key)
  | _ => []

/-- The caller a response is about. -/
def shownCaller : Json → Option Str := stringOf (str "callerUsr")

theorem not_isAmbiguity {fields : JsonObject} (h : fields.get (str "ambiguous") = none) :
    ¬ IsAmbiguity (.object fields) := by
  rintro ⟨fields', hout, hambiguous⟩
  obtain rfl := Json.object.inj hout
  rw [JsonObject.getBoolean, h] at hambiguous
  cases hambiguous

theorem not_isAmbiguity_error (message : Str) : ¬ IsAmbiguity (errorResult message) :=
  not_isAmbiguity (JsonObject.get_cons_of_ne (by decide) _ _)

theorem isAmbiguity_site (fixUTF8 : Str → Str) (site : Str) (contexts : List CallSiteContext) :
    IsAmbiguity (makeAmbiguousSiteResult fixUTF8 site contexts) :=
  ⟨_, rfl, by rw [field, JsonObject.getBoolean, JsonObject.get_cons_self]⟩

theorem listed_site (fixUTF8 : Str → Str) (site : Str) (contexts : List CallSiteContext)
    (usr : Str) :
    usr ∈ listed (str "callerUsr") (makeAmbiguousSiteResult fixUTF8 site contexts)
      ↔ ∃ c ∈ contexts, utf8Text fixUTF8 c.callerUsr = usr := by
  have hcandidate : ∀ c, stringOf (str "callerUsr") (siteCandidateToJson fixUTF8 c)
      = some (utf8Text fixUTF8 c.callerUsr) := by
    intro c
    unfold siteCandidateToJson stringOf jsonString
    dsimp only
    rw [JsonObject.getString, field, JsonObject.get_cons_of_ne (by decide), field,
      JsonObject.get_cons_self]
  unfold makeAmbiguousSiteResult listed
  dsimp only
  rw [JsonObject.getArray, field, JsonObject.get_cons_of_ne (by decide), field,
    JsonObject.get_cons_of_ne (by decide), field, JsonObject.get_cons_of_ne (by decide), field,
    JsonObject.get_cons_self]
  simp [hcandidate]

/-! ### The two tools -/

/-- The tools that answer by call site. -/
inductive SiteTool
  | callSiteContext
  | raiiScopesAtCallsite

namespace SiteTool

/-- The tool's handler. -/
def handle : SiteTool → JsonObject → ToolContext → Json
  | callSiteContext => handleQueryCallSiteContext
  | raiiScopesAtCallsite => handleQueryRaiiScopesAtCallsite

/-- The check each makes before it looks for the site. -/
def Accepts (args : JsonObject) (site : Str) : SiteTool → Prop
  | callSiteContext => validSite site = true
  | raiiScopesAtCallsite =>
    ∃ allowed, (args.getStrings (str "kinds")).mapM parseRaiiKind = .ok allowed

variable {tool : SiteTool} {args : JsonObject} {ctx : ToolContext} {site : Str}

/-- A refused request gets an error. -/
theorem handle_refused (hsite : args.getString (str "call_site") = some site)
    (h : ¬ tool.Accepts args site) : ¬ IsAmbiguity (tool.handle args ctx) := by
  cases tool with
  | callSiteContext =>
      have hinvalid : (!validSite site) = true := by simpa [Accepts] using h
      show ¬ IsAmbiguity (handleQueryCallSiteContext args ctx)
      unfold handleQueryCallSiteContext
      rw [hsite]
      dsimp only
      rw [if_pos hinvalid]
      exact not_isAmbiguity_error _
  | raiiScopesAtCallsite =>
      show ¬ IsAmbiguity (handleQueryRaiiScopesAtCallsite args ctx)
      unfold handleQueryRaiiScopesAtCallsite
      rw [hsite]
      dsimp only
      cases hkinds : (args.getStrings (str "kinds")).mapM parseRaiiKind with
      | ok allowed => exact absurd ⟨allowed, hkinds⟩ h
      | error err => exact not_isAmbiguity_error _

/-- What a tool makes of the resolved context. -/
def Shows (fixUTF8 : Str → Str) (out : Json) : Except Json CallSiteContext → Prop
  | .error response => out = response
  | .ok found =>
    ¬ IsAmbiguity out ∧ shownCaller out = some (utf8Text fixUTF8 found.callerUsr)

/-- **An accepted request shows what its site resolves to.** -/
theorem handle_accepted (hsite : args.getString (str "call_site") = some site)
    (h : tool.Accepts args site) :
    Shows ctx.fixUTF8 (tool.handle args ctx) (resolveCallSiteContext args ctx site) := by
  cases tool with
  | callSiteContext =>
      have hvalid : validSite site = true := h
      show Shows _ (handleQueryCallSiteContext args ctx) _
      unfold handleQueryCallSiteContext
      rw [hsite]
      dsimp only
      rw [if_neg (by simp [hvalid])]
      cases resolveCallSiteContext args ctx site with
      | error out => rfl
      | ok found =>
          refine ⟨not_isAmbiguity ?_, ?_⟩
          · simp (disch := decide) only [field, JsonObject.get_cons_of_ne]
            rfl
          · simp (disch := decide) only [shownCaller, stringOf, field, JsonObject.getString,
              JsonObject.get_cons_of_ne, JsonObject.get_cons_self, ToolContext.string, jsonString]
  | raiiScopesAtCallsite =>
      obtain ⟨allowed, hkinds⟩ := h
      show Shows _ (handleQueryRaiiScopesAtCallsite args ctx) _
      unfold handleQueryRaiiScopesAtCallsite
      rw [hsite]
      dsimp only
      rw [hkinds]
      dsimp only
      cases resolveCallSiteContext args ctx site with
      | error out => rfl
      | ok found =>
          refine ⟨not_isAmbiguity ?_, ?_⟩
          · simp (disch := decide) only [field, JsonObject.get_cons_of_ne]
            rfl
          · simp (disch := decide) only [shownCaller, stringOf, field, JsonObject.getString,
              JsonObject.get_cons_of_ne, JsonObject.get_cons_self, ToolContext.string, jsonString]

/-! ### When the response is exact

The tools count contexts, the response is about callers. Where two contexts of a
spelling have one caller, or a listed caller is not found again, the two come
apart.
-/

/-- Two of these contexts have different callers. -/
def CallersDiffer (live : List CallSiteContext) : Prop :=
  ∃ c ∈ live, ∃ c' ∈ live, c.callerUsr ≠ c'.callerUsr

/-- The text is the context's caller, by usr or by display name. -/
def answers (caller : Str) (d : CallSiteContext) : Bool :=
  d.callerUsr = caller || d.callerName = caller

/-- The usrs that are listed lead to their callers. -/
structure LeadBack (fixUTF8 : Str → Str) (live : List CallSiteContext) : Prop where
  /-- A usr is UTF-8, or what it is listed as is met with in another way. -/
  spelled : ∀ c ∈ live, isUTF8 c.callerUsr = true ∨
    ∃ d ∈ live, d.callerUsr = c.callerUsr ∧ answers (fixUTF8 c.callerUsr) d = true
  /-- A context of another caller that answers to it stands behind one of the caller. -/
  behind : ∀ before d after, live = before ++ d :: after →
    ∀ c ∈ live, answers (utf8Text fixUTF8 c.callerUsr) d = true → d.callerUsr ≠ c.callerUsr →
      ∃ b ∈ before, b.callerUsr = c.callerUsr ∧ answers (utf8Text fixUTF8 c.callerUsr) b = true

/-- The request again, with a caller. -/
def withCaller (args : JsonObject) (caller : Str) : JsonObject :=
  (str "caller", .string caller) :: args

/-- The request resolves to a context of the caller, and the response is about it. -/
def ResolvesTo (tool : SiteTool) (args : JsonObject) (ctx : ToolContext) (site usr : Str) :
    Prop :=
  ∃ found ∈ ctx.cfIndex.liveAtSite site, found.callerUsr = usr ∧
    resolveCallSiteContext args ctx site = .ok found ∧
    ¬ IsAmbiguity (tool.handle args ctx) ∧
    shownCaller (tool.handle args ctx) = some (utf8Text ctx.fixUTF8 usr)

/-- The response asks for a caller exactly when there are several, and naming one as it is
listed settles it. -/
structure Exact (tool : SiteTool) (args : JsonObject) (ctx : ToolContext) (site : Str) :
    Prop where
  ambiguous : IsAmbiguity (tool.handle args ctx) ↔ CallersDiffer (ctx.cfIndex.liveAtSite site)
  rerun : IsAmbiguity (tool.handle args ctx) →
    ∀ usr ∈ listed (str "callerUsr") (tool.handle args ctx),
      (∃ c ∈ ctx.cfIndex.liveAtSite site, utf8Text ctx.fixUTF8 c.callerUsr = usr) ∧
      ∀ c ∈ ctx.cfIndex.liveAtSite site, utf8Text ctx.fixUTF8 c.callerUsr = usr →
        tool.ResolvesTo (withCaller args usr) ctx site c.callerUsr

theorem CallersDiffer.two_le {live : List CallSiteContext} (h : CallersDiffer live) :
    2 ≤ live.length := by
  obtain ⟨c, hc, c', hc', hne⟩ := h
  match live with
  | [] => cases hc
  | [only] =>
      obtain rfl := List.mem_singleton.mp hc
      obtain rfl := List.mem_singleton.mp hc'
      exact absurd rfl hne
  | _ :: _ :: rest => exact Nat.le_add_left 2 rest.length

/-- **Taking the first match by usr or display name finds the caller.** -/
theorem leadBack_iff (fixUTF8 : Str → Str) (live : List CallSiteContext) :
    LeadBack fixUTF8 live ↔ ∀ c ∈ live, ∃ found,
      live.find? (answers (utf8Text fixUTF8 c.callerUsr)) = some found ∧
        found.callerUsr = c.callerUsr := by
  constructor
  · intro h c hc
    cases hfind : live.find? (answers (utf8Text fixUTF8 c.callerUsr)) with
    | none =>
        have hnone := List.find?_eq_none.mp hfind
        by_cases hutf8 : isUTF8 c.callerUsr = true
        · refine absurd ?_ (hnone c hc)
          simp [answers, utf8Text_of_utf8 hutf8]
        · obtain ⟨d, hd, -, hanswers⟩ := (h.spelled c hc).resolve_left hutf8
          refine absurd ?_ (hnone d hd)
          rwa [utf8Text, if_neg hutf8]
    | some found =>
        obtain ⟨hfound, before, after, hlive, hbefore⟩ := List.find?_eq_some_iff_append.mp hfind
        refine ⟨found, rfl, by_contra fun hne => ?_⟩
        obtain ⟨b, hb, -, hanswers⟩ :=
          h.behind before found after hlive c hc hfound hne
        simpa [hanswers] using hbefore b hb
  · intro h
    refine ⟨fun c hc => ?_, fun before d after hlive c hc hanswers hne => ?_⟩
    · obtain ⟨found, hfind, husr⟩ := h c hc
      refine or_iff_not_imp_left.mpr fun hutf8 =>
        ⟨found, List.mem_of_find?_eq_some hfind, husr, ?_⟩
      have hfound := List.find?_some hfind
      rw [utf8Text, if_neg hutf8] at hfound
      exact hfound
    · obtain ⟨found, hfind, husr⟩ := h c hc
      rw [hlive, List.find?_append] at hfind
      cases hbefore : before.find? (answers (utf8Text fixUTF8 c.callerUsr)) with
      | some b =>
          rw [hbefore, Option.some_or] at hfind
          obtain rfl := Option.some_inj.mp hfind
          exact ⟨b, List.mem_of_find?_eq_some hbefore, husr, List.find?_some hbefore⟩
      | none =>
          -- the context of the other caller is met first
          rw [hbefore, Option.none_or, List.find?_cons_of_pos hanswers] at hfind
          exact absurd (Option.some_inj.mp hfind ▸ husr) hne

theorem getString_withCaller {key : Str} (h : str "caller" ≠ key) (caller : Str) :
    JsonObject.getString (withCaller args caller) key = args.getString key := by
  rw [withCaller, JsonObject.getString, JsonObject.get_cons_of_ne h]
  rfl

theorem accepts_withCaller (caller : Str) :
    tool.Accepts (withCaller args caller) site ↔ tool.Accepts args site := by
  cases tool with
  | callSiteContext => exact Iff.rfl
  | raiiScopesAtCallsite =>
      have hkinds : JsonObject.getStrings (withCaller args caller) (str "kinds")
          = args.getStrings (str "kinds") := by
        rw [withCaller, JsonObject.getStrings, JsonObject.getArray,
          JsonObject.get_cons_of_ne (by decide)]
        rfl
      show (∃ allowed, _) ↔ (∃ allowed, _)
      rw [hkinds]

/-- Without a caller, the live contexts of the spelling decide. -/
theorem resolve_unnamed (hwf : ctx.cfIndex.WF) (hcaller : args.getString (str "caller") = none) :
    resolveCallSiteContext args ctx site
      = match ctx.cfIndex.liveAtSite site with
        | [] => .error (callSiteNotIndexed site)
        | [found] => .ok found
        | contexts => .error (makeAmbiguousSiteResult ctx.fixUTF8 site contexts) := by
  unfold resolveCallSiteContext
  rewrite [hcaller, ← hwf.contextsAtSite_eq]
  rfl

/-- **The response asks for a caller when the spelling has two contexts.** -/
theorem handle_several (hwf : ctx.cfIndex.WF)
    (hsite : args.getString (str "call_site") = some site)
    (hcaller : args.getString (str "caller") = none) (haccepts : tool.Accepts args site)
    (htwo : 2 ≤ (ctx.cfIndex.liveAtSite site).length) :
    tool.handle args ctx
      = makeAmbiguousSiteResult ctx.fixUTF8 site (ctx.cfIndex.liveAtSite site) := by
  have hshows : Shows ctx.fixUTF8 (tool.handle args ctx) _ := handle_accepted hsite haccepts
  rw [resolve_unnamed hwf hcaller] at hshows
  match hlive : ctx.cfIndex.liveAtSite site with
  | [] => simp [hlive] at htwo
  | [only] => simp [hlive] at htwo
  | first :: second :: rest =>
      rw [hlive] at hshows
      exact hshows

theorem isAmbiguity_iff (hwf : ctx.cfIndex.WF)
    (hsite : args.getString (str "call_site") = some site)
    (hcaller : args.getString (str "caller") = none) :
    IsAmbiguity (tool.handle args ctx)
      ↔ tool.Accepts args site ∧ 2 ≤ (ctx.cfIndex.liveAtSite site).length := by
  constructor
  · intro h
    have haccepts : tool.Accepts args site := by_contra fun hno => handle_refused hsite hno h
    refine ⟨haccepts, by_contra fun hfew => ?_⟩
    have hshows : Shows ctx.fixUTF8 (tool.handle args ctx) _ := handle_accepted hsite haccepts
    rw [resolve_unnamed hwf hcaller] at hshows
    match hlive : ctx.cfIndex.liveAtSite site with
    | [] =>
        rw [hlive] at hshows
        have hout : tool.handle args ctx = callSiteNotIndexed site := hshows
        rw [hout] at h
        exact not_isAmbiguity_error _ h
    | [only] =>
        rw [hlive] at hshows
        exact hshows.1 h
    | _ :: _ :: rest =>
        rw [hlive] at hfew
        exact hfew (Nat.le_add_left 2 rest.length)
  · rintro ⟨haccepts, htwo⟩
    rw [handle_several hwf hsite hcaller haccepts htwo]
    exact isAmbiguity_site _ _ _

/-- A re-run resolves to the first context that matches the caller. -/
theorem resolvesTo_iff (hwf : ctx.cfIndex.WF)
    (hsite : args.getString (str "call_site") = some site) (haccepts : tool.Accepts args site)
    (caller usr : Str) :
    tool.ResolvesTo (withCaller args caller) ctx site usr ↔ ∃ found,
      (ctx.cfIndex.liveAtSite site).find? (answers caller) = some found ∧
        found.callerUsr = usr := by
  have hresolve : resolveCallSiteContext (withCaller args caller) ctx site
      = ((ctx.cfIndex.liveAtSite site).find? (answers caller)).elim
        (.error (callSiteNotIndexed site)) .ok := by
    have hat : ctx.cfIndex.contextAtSiteOf site caller
        = (ctx.cfIndex.liveAtSite site).find? (answers caller) := hwf.contextAtSiteOf_eq site caller
    unfold resolveCallSiteContext
    rw [withCaller, JsonObject.getString, JsonObject.get_cons_self]
    dsimp only
    rw [hat]
    cases (ctx.cfIndex.liveAtSite site).find? (answers caller) <;> rfl
  constructor
  · rintro ⟨found, -, husr, hfound, -⟩
    rw [hresolve] at hfound
    cases hfind : (ctx.cfIndex.liveAtSite site).find? _ with
    | some other =>
        rw [hfind] at hfound
        exact ⟨other, rfl, Except.ok.inj hfound ▸ husr⟩
    | none =>
        rw [hfind] at hfound
        cases hfound
  · rintro ⟨found, hfind, husr⟩
    rw [hfind] at hresolve
    have hagain : JsonObject.getString (withCaller args caller) (str "call_site") = some site :=
      (getString_withCaller (by decide) caller).trans hsite
    have hshows : Shows ctx.fixUTF8 (tool.handle (withCaller args caller) ctx) _ :=
      handle_accepted hagain ((accepts_withCaller caller).mpr haccepts)
    rw [hresolve] at hshows
    exact ⟨found, List.mem_of_find?_eq_some hfind, husr, hresolve, hshows.1, husr ▸ hshows.2⟩

/-- The contexts at the spelling are few or of several callers whose usrs lead to them; to a
request that is refused no ambiguity may be hidden. -/
structure CallersTold (tool : SiteTool) (fixUTF8 : Str → Str) (args : JsonObject) (site : Str)
    (live : List CallSiteContext) : Prop where
  accepted : tool.Accepts args site → 2 ≤ live.length →
    CallersDiffer live ∧ LeadBack fixUTF8 live
  refused : ¬ tool.Accepts args site → ¬ CallersDiffer live

end SiteTool

/-- **The tools ask for a caller exactly for different callers, and a re-run finds the caller,
when a spelling with two contexts is one of different callers, their usrs are UTF-8, and no
context is shown under the usr of another caller before one of that caller.** -/
theorem site_ambiguity_exact_iff (tool : SiteTool) (h : History) (tools : ToolContext)
    (args : JsonObject) (site : Str) (hsite : args.getString (str "call_site") = some site)
    (hcaller : args.getString (str "caller") = none) :
    tool.Exact args { tools with cfIndex := h.index } site
      ↔ tool.CallersTold tools.fixUTF8 args site (h.index.liveAtSite site) := by
  have hwf : ({ tools with cfIndex := h.index } : ToolContext).cfIndex.WF := h.wf
  have hasked : IsAmbiguity (tool.handle args { tools with cfIndex := h.index }) ↔ _ :=
    SiteTool.isAmbiguity_iff hwf hsite hcaller
  constructor
  · rintro ⟨hambiguous, hrerun⟩
    refine ⟨?_, ?_⟩
    · intro haccepts htwo
      have hamb := hasked.mpr ⟨haccepts, htwo⟩
      refine ⟨hambiguous.mp hamb, (SiteTool.leadBack_iff _ _).mpr ?_⟩
      intro c hc
      refine (SiteTool.resolvesTo_iff hwf hsite haccepts _ _).mp ((hrerun hamb _ ?_).2 c hc rfl)
      rw [SiteTool.handle_several hwf hsite hcaller haccepts htwo]
      exact (listed_site _ _ _ _).mpr ⟨c, hc, rfl⟩
    · intro hrefused hdiffer
      exact hrefused (hasked.mp (hambiguous.mpr hdiffer)).1
  · rintro ⟨haccepted, hrefused⟩
    refine ⟨⟨?_, ?_⟩, ?_⟩
    · intro hamb
      obtain ⟨haccepts, htwo⟩ := hasked.mp hamb
      exact (haccepted haccepts htwo).1
    · intro hdiffer
      exact hasked.mpr ⟨by_contra fun hno => hrefused hno hdiffer, hdiffer.two_le⟩
    · intro hamb usr husr
      obtain ⟨haccepts, htwo⟩ := hasked.mp hamb
      rw [SiteTool.handle_several hwf hsite hcaller haccepts htwo] at husr
      refine ⟨(listed_site _ _ _ _).mp husr, ?_⟩
      rintro c hc rfl
      exact (SiteTool.resolvesTo_iff hwf hsite haccepts _ _).mpr
        ((SiteTool.leadBack_iff _ _).mp (haccepted haccepts htwo).2 c hc)

/-! ### One caller, two TUs -/

/-- A request that names the site only. -/
def siteRequest (site : Str) : JsonObject := [field "call_site" (.string site)]

theorem accepts_siteRequest (tool : SiteTool) {site : Str} (h : validSite site = true) :
    tool.Accepts (siteRequest site) site := by
  cases tool with
  | callSiteContext => exact h
  | raiiScopesAtCallsite => exact ⟨[], rfl⟩

/-- A session over an index that has nothing else loaded. -/
def siteSession : ToolContext where
  graph := {}
  cfIndex := {}
  entryPoints := []
  fixUTF8 := id

/-- The call in an inline function of a header, as one including TU records it. -/
def headerCall (tuPath : Str) : CallSiteContext where
  callerName := str "inl"
  calleeName := str "g"
  callSite := str "h.h:3:5"
  callerUsr := str "c:@F@inl#"
  calleeUsr := str "c:@F@g#"
  tuPath := tuPath

/-- A call that a macro makes. -/
def macroCall (callerName callerUsr : Str) : CallSiteContext where
  callerName := callerName
  calleeName := str "g"
  callSite := str "m.h:2:9"
  callerUsr := callerUsr
  calleeUsr := str "c:@F@g#"

/-- Two functions that expand a macro with a call in it. -/
def macroCallers : History :=
  .add (.add .empty (macroCall (str "one") (str "c:@F@one#")))
    (macroCall (str "two") (str "c:@F@two#"))

theorem site_ambiguity_exact_macro :
    SiteTool.callSiteContext.Exact (siteRequest (str "m.h:2:9"))
      { siteSession with cfIndex := macroCallers.index } (str "m.h:2:9") := by
  have hlive : macroCallers.index.liveAtSite (str "m.h:2:9")
      = [macroCall (str "one") (str "c:@F@one#"), macroCall (str "two") (str "c:@F@two#")] := by
    decide +kernel
  refine (site_ambiguity_exact_iff .callSiteContext macroCallers siteSession _ _ rfl rfl).mpr
    ⟨?_, ?_⟩
  · intro _ _
    rw [hlive]
    refine ⟨⟨_, List.mem_cons_self, _, List.mem_cons_of_mem _ List.mem_cons_self, by decide⟩,
      (SiteTool.leadBack_iff _ _).mpr ?_⟩
    intro c hc
    rcases List.mem_pair.mp hc with rfl | rfl
    · rw [macroCall, utf8Text_of_utf8 (isUTF8_str _)]
      exact ⟨_, rfl, rfl⟩
    · rw [macroCall, macroCall, utf8Text_of_utf8 (isUTF8_str _)]
      exact ⟨_, rfl, rfl⟩
  · intro hrefused
    exact absurd (accepts_siteRequest _ (by decide +kernel)) hrefused

/-- An inline function with a call in it, in a header that two TUs include. -/
def headerTwice : History :=
  .absorb (.add .empty (headerCall (str "a.cpp"))) (.add .empty (headerCall (str "b.cpp")))

/-- Two overloads that expand the macro, one of them recorded without its usr. -/
def overloads : History :=
  .add (.add .empty (macroCall (str "one") (str "c:@F@one#"))) (macroCall (str "one") [])

/-- Both contexts of the header's call are of one caller. -/
theorem headerTwice_not_exact (tool : SiteTool) :
    ¬ tool.Exact (siteRequest (str "h.h:3:5"))
      { siteSession with cfIndex := headerTwice.index } (str "h.h:3:5") := by
  have hlive : headerTwice.index.liveAtSite (str "h.h:3:5")
      = [headerCall (str "a.cpp"), headerCall (str "b.cpp")] := by
    decide +kernel
  intro hexact
  have haccepts := accepts_siteRequest tool (by decide +kernel : validSite (str "h.h:3:5") = true)
  have htwo : 2 ≤ (headerTwice.index.liveAtSite (str "h.h:3:5")).length := by simp [hlive]
  have hwf : ({ siteSession with cfIndex := headerTwice.index } : ToolContext).cfIndex.WF :=
    headerTwice.wf
  have hamb := (SiteTool.isAmbiguity_iff hwf rfl rfl).mpr ⟨haccepts, htwo⟩
  obtain ⟨c, hc, c', hc', hne⟩ := hexact.ambiguous.mp hamb
  have hcaller : ∀ c ∈ headerTwice.index.liveAtSite (str "h.h:3:5"),
      c.callerUsr = str "c:@F@inl#" := by
    simp [hlive, headerCall]
  exact hne ((hcaller c hc).trans (hcaller c' hc').symm)

/-- The overload without a usr is answered by the other one. -/
theorem overloads_not_exact (tool : SiteTool) :
    ¬ tool.Exact (siteRequest (str "m.h:2:9"))
      { siteSession with cfIndex := overloads.index } (str "m.h:2:9") := by
  have hlive : overloads.index.liveAtSite (str "m.h:2:9")
      = [macroCall (str "one") (str "c:@F@one#"), macroCall (str "one") (str "one")] := by
    decide +kernel
  intro hexact
  have haccepts := accepts_siteRequest tool (by decide +kernel : validSite (str "m.h:2:9") = true)
  have htwo : 2 ≤ (overloads.index.liveAtSite (str "m.h:2:9")).length := by simp [hlive]
  have hwf : ({ siteSession with cfIndex := overloads.index } : ToolContext).cfIndex.WF :=
    overloads.wf
  have hamb := (SiteTool.isAmbiguity_iff hwf rfl rfl).mpr ⟨haccepts, htwo⟩
  have htext : utf8Text siteSession.fixUTF8 (str "one") = str "one" :=
    utf8Text_of_utf8 (isUTF8_str "one") _
  have hmem : macroCall (str "one") (str "one") ∈ overloads.index.liveAtSite (str "m.h:2:9") := by
    simp [hlive]
  have hlisted : str "one" ∈ listed (str "callerUsr") (tool.handle (siteRequest (str "m.h:2:9"))
      { siteSession with cfIndex := overloads.index }) := by
    rw [SiteTool.handle_several hwf rfl rfl haccepts htwo]
    exact (listed_site _ _ _ _).mpr ⟨_, hmem, htext⟩
  obtain ⟨found, hfind, husr⟩ := (SiteTool.resolvesTo_iff hwf rfl haccepts _ _).mp
    ((hexact.rerun hamb _ hlisted).2 _ hmem htext)
  -- The overload with the usr is met first, by its display name.
  have hfirst : (overloads.index.liveAtSite (str "m.h:2:9")).find?
      (SiteTool.answers (str "one"))
      = some (macroCall (str "one") (str "c:@F@one#")) := by
    rw [hlive]
    rfl
  rw [← Option.some_inj.mp (hfirst.symm.trans hfind)] at husr
  exact absurd husr (by decide)

/-- The tools ask for the caller of a header's call though there is one, and naming a listed
caller can lead to another. -/
theorem one_caller_ambiguous :
    (headerTwice.index.liveAtSite (str "h.h:3:5") ≠ [] ∧
      ¬ SiteTool.callSiteContext.Exact (siteRequest (str "h.h:3:5"))
        { siteSession with cfIndex := headerTwice.index } (str "h.h:3:5") ∧
      ¬ SiteTool.raiiScopesAtCallsite.Exact (siteRequest (str "h.h:3:5"))
        { siteSession with cfIndex := headerTwice.index } (str "h.h:3:5")) ∧
    (overloads.index.liveAtSite (str "m.h:2:9") ≠ [] ∧
      ¬ SiteTool.callSiteContext.Exact (siteRequest (str "m.h:2:9"))
        { siteSession with cfIndex := overloads.index } (str "m.h:2:9")) :=
  ⟨⟨by decide +kernel, headerTwice_not_exact _, headerTwice_not_exact _⟩,
    by decide +kernel, overloads_not_exact _⟩

end Vycor
