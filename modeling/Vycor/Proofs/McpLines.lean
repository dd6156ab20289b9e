/-
Which lines the reader survives.

On a stream of lines the reader takes each line that opens with a brace, blanks aside, as a
message of its own, good or bad, and passes over blank lines.  Any other line opens a header
block, and that block takes whole lines, requests among them, up to the next empty one; when
it ends without a length the reader gives up.  So the requests are all read when none comes
after such a line.  The only other way is a real length header: then what follows is a counted
body, and the reader may find its way back.
-/
import Vycor.Proofs.McpFraming

namespace Vycor

namespace Mcp

variable {json : JsonText} {s : Stdio}

/-! ### Streams of lines -/

/-- What the text layer makes of blanks: none before a value counts, nor does a carriage
return after it, and the text of an object opens with its brace. -/
structure IgnoresBlanks (json : JsonText) : Prop where
  before : ∀ ch, isBlank ch = true → ∀ text v,
    json.parse (ch :: text) = .ok v ↔ json.parse text = .ok v
  after : ∀ text v, json.parse (text ++ [13]) = .ok v ↔ json.parse text = .ok v
  opens : ∀ text obj, json.parse text = .ok (.object obj) →
    (text.dropWhile isBlank).head? = some 123

/-- Every line with its newline. -/
def stream (lines : List Str) : Str := lines.flatMap fun line => line ++ [10]

/-- The request that a line is. -/
def requestLine (json : JsonText) (line : Str) : Option McpRequest :=
  match judge json line with
  | .request req => some req
  | .malformed _ _ _ _ => none

/-- **Every request line is returned, in order, before the end is reported**, from any state. -/
def Keeps (json : JsonText) (lines : List Str) : Prop :=
  ∀ s : Stdio, (lines.filterMap (requestLine json)).Sublist
    ((readAll json { s with input := stream lines }).map Prod.fst)

/-- The line, blanks aside, opens with something other than a brace. -/
def opensHeader (line : Str) : Bool :=
  match line.dropWhile isBlank with
  | [] => false
  | ch :: _ => ch ≠ 123

/-- No request line comes after a line that opens a header block. -/
def Untouched (json : JsonText) (lines : List Str) : Prop :=
  ∀ line ∈ lines.dropWhile (!opensHeader ·), requestLine json line = none

/-- The line is a `Content-Length` header that gives a length, blanks before it aside. -/
def givesLength (line : Str) : Prop :=
  0 ≤ parseContentLength (stripCr (line.dropWhile isBlank))

theorem stream_cons (line : Str) (lines : List Str) :
    stream (line :: lines) = line ++ 10 :: stream lines := by
  simp [stream]

theorem stream_append (lines lines' : List Str) :
    stream (lines ++ lines') = stream lines ++ stream lines' := List.flatMap_append

/-! ### Blanks do not change what a line is -/

theorem requestLine_congr {a b : Str}
    (h : ∀ v, json.parse a = .ok v ↔ json.parse b = .ok v) :
    requestLine json a = requestLine json b := by
  cases ha : json.parse a with
  | ok v =>
      have hb := (h v).mp ha
      unfold requestLine judge
      rw [ha, hb]
  | error e =>
      cases hb : json.parse b with
      | ok v => exact absurd ((h v).mpr hb) (by simp [ha])
      | error e' =>
          unfold requestLine judge
          rw [ha, hb]

/-- What the reader takes of a line: no blanks in front, no carriage returns at the end. -/
def trimmed (line : Str) : Str := (line.dropWhile isBlank).rdropWhile (· = 13)

theorem requestLine_trimmed (hjson : IgnoresBlanks json) (line : Str) :
    requestLine json (trimmed line) = requestLine json line := by
  have hfront : ∀ line : Str, requestLine json (line.dropWhile isBlank) = requestLine json line := by
    intro line
    induction line with
    | nil => rfl
    | cons ch rest ih =>
        by_cases hch : isBlank ch = true
        · rw [List.dropWhile_cons_of_pos hch, ih]
          exact (requestLine_congr (hjson.before ch hch rest)).symm
        · rw [List.dropWhile_cons_of_neg hch]
  have hback : ∀ line : Str, requestLine json (line.rdropWhile (· = 13)) = requestLine json line := by
    intro line
    induction line using List.reverseRecOn with
    | nil => rfl
    | append_singleton rest ch ih =>
        by_cases hch : ch = 13
        · rw [hch, List.rdropWhile_concat_pos _ _ _ (by simp), ih]
          exact (requestLine_congr (hjson.after rest)).symm
        · rw [List.rdropWhile_concat_neg _ _ _ (by simpa using hch)]
  exact (hback _).trans (hfront line)

/-- A request line opens with a brace. -/
theorem requestLine_brace (hjson : IgnoresBlanks json) {line : Str} {req : McpRequest}
    (h : requestLine json line = some req) : ∃ tail, line.dropWhile isBlank = 123 :: tail := by
  unfold requestLine judge at h
  cases hparse : json.parse line with
  | error e => simp [hparse] at h
  | ok v =>
      cases v with
      | object obj => exact List.head?_eq_some_iff.mp (hjson.opens line obj hparse)
      | null => simp [hparse] at h
      | bool b => simp [hparse] at h
      | number n => simp [hparse] at h
      | string t => simp [hparse] at h
      | array elems => simp [hparse] at h

/-! ### One line -/

theorem dropWhile_append_line (line rest : Str) (h : line.dropWhile isBlank ≠ []) :
    (line ++ 10 :: rest).dropWhile isBlank = line.dropWhile isBlank ++ 10 :: rest := by
  induction line with
  | nil => exact absurd rfl h
  | cons ch tail ih =>
      by_cases hch : isBlank ch = true
      · rw [List.dropWhile_cons_of_pos hch] at h ⊢
        rw [List.cons_append, List.dropWhile_cons_of_pos hch]
        exact ih h
      · rw [List.dropWhile_cons_of_neg hch, List.cons_append, List.dropWhile_cons_of_neg hch]

/-- A blank line is passed over. -/
theorem readRequest_blank {line rest : Str} (h : line.dropWhile isBlank = []) :
    readRequest json { s with input := line ++ 10 :: rest }
      = readRequest json { s with input := rest } := by
  have hall : ∀ ch ∈ line, isBlank ch = true := List.dropWhile_eq_nil_iff.mp h
  have hskip : (line ++ 10 :: rest).dropWhile isBlank = rest.dropWhile isBlank := by
    rw [List.dropWhile_append_of_pos hall, List.dropWhile_cons_of_pos (by decide)]
  have hbody : readMessageBody { s with input := line ++ 10 :: rest }
      = readMessageBody { s with input := rest } := by
    unfold readMessageBody
    rw [hskip]
  rw [readRequest.eq_def, readRequest.eq_def, hbody]

/-- A line that opens with a brace is read on its own. -/
theorem readMessageBody_brace {line rest tail : Str} (hbrace : line.dropWhile isBlank = 123 :: tail)
    (h : 10 ∉ line) :
    readMessageBody { s with input := line ++ 10 :: rest }
      = (some (trimmed line), { s with framing := .newline, input := rest }) := by
  have htail : 10 ∉ tail := by
    intro hmem
    have hsuffix := List.dropWhile_suffix isBlank (l := line)
    rw [hbrace] at hsuffix
    exact h (hsuffix.subset (List.mem_cons_of_mem _ hmem))
  have hinput : (line ++ 10 :: rest).dropWhile isBlank = 123 :: (tail ++ 10 :: rest) := by
    rw [dropWhile_append_line line rest (by simp [hbrace]), hbrace]
    rfl
  have hread := readMessageBody_line (s := { s with input := line ++ 10 :: rest }) hinput htail
  unfold trimmed
  rw [hread, hbrace]

/-- **A line that opens no header block costs no request.** -/
theorem readAll_line (hjson : IgnoresBlanks json) (s : Stdio) {line : Str} (h : 10 ∉ line)
    (hopens : opensHeader line = false) (rest : Str) :
    ∃ s' : Stdio, (readAll json { s with input := line ++ 10 :: rest }).map Prod.fst
      = (requestLine json line).toList
        ++ (readAll json { s' with input := rest }).map Prod.fst := by
  cases hdrop : line.dropWhile isBlank with
  | nil =>
      have hnone : requestLine json line = none := by
        cases hreq : requestLine json line with
        | none => rfl
        | some req =>
            obtain ⟨tail, htail⟩ := requestLine_brace hjson hreq
            exact absurd (hdrop.symm.trans htail) (by simp)
      refine ⟨s, ?_⟩
      rw [hnone, readAll_congr (readRequest_blank hdrop)]
      rfl
  | cons ch tail =>
      have hch : ch = 123 := by
        unfold opensHeader at hopens
        rw [hdrop] at hopens
        simpa using hopens
      subst hch
      have hbody : readMessageBody { s with input := line ++ 10 :: rest }
          = (some (trimmed line), { s with framing := .newline, input := rest }) :=
        readMessageBody_brace hdrop h
      cases hjudge : judge json (trimmed line) with
      | request req =>
          have hreq : requestLine json line = some req := by
            rw [← requestLine_trimmed hjson]
            unfold requestLine
            rw [hjudge]
          refine ⟨{ s with framing := .newline }, ?_⟩
          rw [readAll_request (readRequest_request hbody hjudge), hreq]
          rfl
      | malformed logLine id code message =>
          have hreq : requestLine json line = none := by
            rw [← requestLine_trimmed hjson]
            unfold requestLine
            rw [hjudge]
          obtain ⟨s', hs'⟩ : ∃ s' : Stdio, s' = reject json
              { s with framing := .newline, input := rest } logLine id code message := ⟨_, rfl⟩
          have hinput : s'.input = rest := by
            rw [hs', reject_input]
          refine ⟨s', ?_⟩
          rw [readAll_congr (readRequest_malformed hbody hjudge), hreq, ← hs', ← hinput]
          rfl

theorem readAll_lines (hjson : IgnoresBlanks json) (lines : List Str) (s : Stdio)
    (h : ∀ line ∈ lines, 10 ∉ line) (hopens : ∀ line ∈ lines, opensHeader line = false)
    (rest : Str) :
    ∃ s' : Stdio, (readAll json { s with input := stream lines ++ rest }).map Prod.fst
      = lines.filterMap (requestLine json)
        ++ (readAll json { s' with input := rest }).map Prod.fst := by
  induction lines generalizing s with
  | nil => exact ⟨s, rfl⟩
  | cons line lines ih =>
      obtain ⟨s₁, hone⟩ := readAll_line hjson s (h line List.mem_cons_self)
        (hopens line List.mem_cons_self) (stream lines ++ rest)
      obtain ⟨s₂, hrest⟩ := ih s₁ (fun l hl => h l (List.mem_cons_of_mem _ hl))
        (fun l hl => hopens l (List.mem_cons_of_mem _ hl))
      refine ⟨s₂, ?_⟩
      rw [stream_cons, List.append_assoc, List.cons_append, hone, hrest, ← List.append_assoc]
      congr 1
      cases hreq : requestLine json line with
      | none => simp [hreq]
      | some req => simp [hreq]

/-! ### A header block

A line that does not open with a brace opens a header block, and whatever
follows belongs to it up to an empty line. The request behind such a line is
lost.
-/

/-- A header block that gives no length ends the reading. -/
theorem readAll_headers {first : UInt8} {tail input : Str}
    (hinput : input.dropWhile isBlank = first :: tail) (hfirst : first ≠ 123)
    (hheaders : ∀ n rest, readHeaders (-1) (first :: tail) = some (n, rest) → n < 0) :
    readAll json { s with input := input } = [] := by
  have hbody : ∃ s', readMessageBody { s with input := input } = (none, s') := by
    unfold readMessageBody
    dsimp only
    rw [hinput]
    split
    · exact ⟨_, rfl⟩
    · rename_i hbrace
      injection hbrace with hbrace
      exact absurd hbrace hfirst
    · rename_i hcons
      injection hcons with hf ht
      subst hf ht
      split
      · exact ⟨_, rfl⟩
      · rename_i n rest hread
        rw [if_pos (hheaders n rest hread)]
        exact ⟨_, rfl⟩
  obtain ⟨s', hs'⟩ := hbody
  exact readAll_end (readRequest_end hs')

theorem stripCr_prefix (line : Str) : stripCr line <+: line := by
  unfold stripCr
  split
  · exact List.dropLast_prefix line
  · exact List.prefix_rfl

/-- A header is not a header when blanks stand before it. -/
theorem parseContentLength_blank {ch : UInt8} {rest : Str} (hch : isBlank ch = true) :
    parseContentLength (stripCr (ch :: rest)) = -1 := by
  unfold parseContentLength
  dsimp only
  split
  · rfl
  · rename_i hlen
    rw [if_pos]
    intro hname
    have hlong : 0 < (stripCr (ch :: rest)).length := by
      have h15 : (str "Content-Length:").length = 15 := by decide
      omega
    obtain ⟨x, tail, hx⟩ := List.exists_cons_of_length_pos hlong
    have hhead : x = ch := by
      obtain ⟨t, ht⟩ := stripCr_prefix (ch :: rest)
      rw [hx] at ht
      injection ht
    rw [hx, hhead] at hname
    have hfirst := congrArg List.head? hname
    have h15 : (str "Content-Length:").length = 14 + 1 := by decide
    have hlower : (lower (str "Content-Length:")).head? = some 99 := by decide
    rw [h15, List.take_succ_cons, hlower] at hfirst
    simp only [lower, List.map_cons, List.head?_cons, Option.some.injEq] at hfirst
    simp only [isBlank, Bool.or_eq_true, decide_eq_true_eq] at hch
    rcases hch with ((rfl | rfl) | rfl) | rfl <;> exact absurd hfirst (by decide)

theorem parseContentLength_line {line : Str} (h : ¬ givesLength line) :
    parseContentLength (stripCr line) < 0 := by
  unfold givesLength at h
  cases line with
  | nil => decide
  | cons ch rest =>
      by_cases hch : isBlank ch = true
      · rw [parseContentLength_blank hch]
        decide
      · rw [List.dropWhile_cons_of_neg hch] at h
        exact Int.not_le.mp h

theorem readHeaders_lines (lines : List Str) (h : ∀ line ∈ lines, 10 ∉ line)
    (hlength : ∀ line ∈ lines, ¬ givesLength line) {n : Int} {rest : Str}
    (hread : readHeaders (-1) (stream lines) = some (n, rest)) : n < 0 := by
  induction lines with
  | nil =>
      have hnil : readHeaders (-1) (stream []) = none := readHeaders_nil _
      exact absurd (hnil.symm.trans hread) (by simp)
  | cons line lines ih =>
      have hneg := parseContentLength_line (hlength line List.mem_cons_self)
      rw [stream_cons, readHeaders_line (h line List.mem_cons_self),
        if_neg (Int.not_le.mpr hneg)] at hread
      split at hread
      · obtain ⟨rfl, -⟩ := Prod.mk.inj (Option.some.inj hread)
        decide
      · exact ih (fun l hl => h l (List.mem_cons_of_mem _ hl))
          (fun l hl => hlength l (List.mem_cons_of_mem _ hl)) hread

/-- The line that opens a block, without the blanks before it. -/
theorem opensHeader_cons {line : Str} (h : opensHeader line = true) :
    ∃ first tail, line.dropWhile isBlank = first :: tail ∧ first ≠ 123 ∧ isBlank first = false := by
  unfold opensHeader at h
  cases hdrop : line.dropWhile isBlank with
  | nil => simp [hdrop] at h
  | cons first tail =>
      have hblank := List.head?_dropWhile_not isBlank line
      rw [hdrop] at hblank h
      exact ⟨first, tail, rfl, by simpa using h, by simpa using hblank⟩

theorem not_mem_dropWhile {line : Str} (h : 10 ∉ line) : 10 ∉ line.dropWhile isBlank :=
  fun hmem => h ((List.dropWhile_suffix isBlank).subset hmem)

/-- **Without a length, a header block is the end**: nothing after its first line is read. -/
theorem readAll_opener {line : Str} {lines : List Str} (hopens : opensHeader line = true)
    (h : ∀ l ∈ line :: lines, 10 ∉ l) (hlength : ∀ l ∈ line :: lines, ¬ givesLength l) :
    readAll json { s with input := stream (line :: lines) } = [] := by
  obtain ⟨first, tail, hdrop, hfirst, hblank⟩ := opensHeader_cons hopens
  have hline : 10 ∉ line := h line List.mem_cons_self
  have hinput : (stream (line :: lines)).dropWhile isBlank = first :: (tail ++ 10 :: stream lines) := by
    rw [stream_cons, dropWhile_append_line _ _ (by simp [hdrop]), hdrop]
    rfl
  have hself : line.dropWhile isBlank = (first :: tail).dropWhile isBlank := by
    rw [hdrop, List.dropWhile_cons_of_neg (by simp [hblank])]
  refine readAll_headers hinput hfirst ?_
  intro n rest hread
  have hcut : first :: (tail ++ 10 :: stream lines) = stream ((first :: tail) :: lines) := by
    rw [stream_cons]
    rfl
  rw [hcut] at hread
  refine readHeaders_lines _ ?_ ?_ hread
  · intro l hl
    rcases List.mem_cons.mp hl with rfl | hl
    · rw [← hdrop]
      exact not_mem_dropWhile hline
    · exact h l (List.mem_cons_of_mem _ hl)
  · intro l hl
    rcases List.mem_cons.mp hl with rfl | hl
    · have hfirst := hlength line List.mem_cons_self
      unfold givesLength at hfirst ⊢
      rwa [← hself]
    · exact hlength l (List.mem_cons_of_mem _ hl)

/-- Whatever it says, a line that opens a block takes the request line after it along. -/
theorem readAll_swallowed (hjson : IgnoresBlanks json) {line next : Str} {req : McpRequest}
    (hopens : opensHeader line = true) (h : 10 ∉ line) (hnext : 10 ∉ next)
    (hreq : requestLine json next = some req) :
    readAll json { s with input := stream [line, next] } = [] := by
  obtain ⟨first, tail, hdrop, hfirst, hblank⟩ := opensHeader_cons hopens
  have hinput : (stream [line, next]).dropWhile isBlank = first :: (tail ++ 10 :: stream [next]) := by
    rw [stream_cons, dropWhile_append_line _ _ (by simp [hdrop]), hdrop]
    rfl
  refine readAll_headers hinput hfirst ?_
  intro n rest hread
  have hnl : 10 ∉ first :: tail := hdrop ▸ not_mem_dropWhile h
  have hfull : stripCr (first :: tail) ≠ [] := by
    intro hnil
    unfold stripCr at hnil
    split at hnil
    · rename_i hlast
      have htail : tail = [] := by
        cases tail with
        | nil => rfl
        | cons x rest => simp at hnil
      subst htail
      obtain rfl : first = 13 := by simpa using hlast
      simp [isBlank] at hblank
    · exact absurd hnil (List.cons_ne_nil _ _)
  have hbrace : stripCr next ≠ [] := by
    obtain ⟨rest', hrest'⟩ := requestLine_brace hjson hreq
    have hmem : (123 : UInt8) ∈ next := by
      have hsuffix := List.dropWhile_suffix isBlank (l := next)
      rw [hrest'] at hsuffix
      exact hsuffix.subset List.mem_cons_self
    intro hnil
    unfold stripCr at hnil
    split at hnil
    · rename_i hlast
      rw [← List.dropLast_append_getLast? 13 hlast, hnil] at hmem
      exact absurd hmem (by decide)
    · rw [hnil] at hmem
      exact absurd hmem List.not_mem_nil
  have hcut : first :: (tail ++ 10 :: stream [next]) = (first :: tail) ++ 10 :: (next ++ 10 :: []) := by
    simp [stream]
  rw [hcut, readHeaders_line hnl, if_neg hfull, readHeaders_line hnext, if_neg hbrace,
    readHeaders_nil] at hread
  exact absurd hread (by simp)

/-! ### When the requests are kept -/

/-- **Exactly the header lines cost requests.**  All requests are read when none comes after a
line that opens a header block, and, unless a real length header is among those lines, only
then; and every line that opens a block takes a request line right after it along. -/
theorem keeps_iff (json : JsonText) (hjson : IgnoresBlanks json) (lines : List Str)
    (h : ∀ line ∈ lines, 10 ∉ line) :
    (Untouched json lines → Keeps json lines) ∧
    (Keeps json lines →
      Untouched json lines ∨ ∃ line ∈ lines.dropWhile (!opensHeader ·), givesLength line) ∧
    ∀ line next : Str, 10 ∉ line → 10 ∉ next → opensHeader line = true →
      (requestLine json next).isSome → ¬ Keeps json [line, next] := by
  have hsplit := List.takeWhile_append_dropWhile (p := (!opensHeader ·)) (l := lines)
  have hpre : ∀ line ∈ lines.takeWhile (!opensHeader ·), opensHeader line = false := by
    intro line hline
    simpa using List.mem_takeWhile_imp hline
  have hread (s : Stdio) := readAll_lines hjson (lines.takeWhile (!opensHeader ·)) s
    (fun line hline => h line (List.takeWhile_subset _ hline)) hpre
    (stream (lines.dropWhile (!opensHeader ·)))
  rw [← stream_append, hsplit] at hread
  refine ⟨?_, ?_, ?_⟩
  · intro huntouched s
    obtain ⟨s', hs'⟩ := hread s
    have hnone : (lines.dropWhile (!opensHeader ·)).filterMap (requestLine json) = [] :=
      List.filterMap_eq_nil_iff.mpr huntouched
    rw [hs', ← hsplit, List.filterMap_append, hnone, List.append_nil, hsplit]
    exact List.sublist_append_left _ _
  · intro hkeeps
    by_cases hlength : ∃ line ∈ lines.dropWhile (!opensHeader ·), givesLength line
    · exact Or.inr hlength
    · refine Or.inl ?_
      obtain ⟨s', hs'⟩ := hread { input := [] }
      have hend : readAll json { s' with input := stream (lines.dropWhile (!opensHeader ·)) } = [] := by
        cases hdrop : lines.dropWhile (!opensHeader ·) with
        | nil => exact readAll_end (readRequest_end rfl)
        | cons line rest =>
            have hhead := List.head?_dropWhile_not (!opensHeader ·) lines
            rw [hdrop] at hhead
            have hsub : ∀ l ∈ line :: rest, l ∈ lines := by
              intro l hl
              rw [← hdrop] at hl
              exact (List.dropWhile_suffix _).subset hl
            refine readAll_opener (by simpa using hhead) (fun l hl => h l (hsub l hl)) ?_
            intro l hl hgives
            exact hlength ⟨l, hdrop ▸ hl, hgives⟩
      have hall := hkeeps { input := [] }
      rw [hs', hend, List.map_nil, List.append_nil] at hall
      -- what is after the first such line cannot be among what was read before it
      have hlen := hall.length_le
      rw [← hsplit, List.filterMap_append, List.length_append, hsplit] at hlen
      exact List.filterMap_eq_nil_iff.mp (List.eq_nil_of_length_eq_zero (by omega))
  · intro line next hline hnext hopens hreq hkeeps
    obtain ⟨req, hreq⟩ := Option.isSome_iff_exists.mp hreq
    have hall := hkeeps { input := [] }
    rw [readAll_swallowed hjson hopens hline hnext hreq] at hall
    simp [hreq] at hall

theorem ignoresBlanks_textLayer : IgnoresBlanks textLayer where
  before ch hch text v := by
    unfold textLayer
    simp only [List.filter_cons_of_neg, hch, Bool.not_true, Bool.false_eq_true, not_false_eq_true]
  after text v := by
    have hcr : ([13] : Str).filter (!isBlank ·) = [] := by decide
    unfold textLayer
    simp only [List.filter_append, hcr, List.append_nil]
  opens text obj h := by
    unfold textLayer at h
    dsimp only at h
    split at h
    · rename_i htext
      have hfirst : (text.filter (!isBlank ·)).head? = some 123 := by
        rw [htext]
        decide
      rw [List.head?_filter, List.find?_eq_head?_dropWhile_not] at hfirst
      simpa using hfirst
    · exact absurd h (by simp)

/-- A bad message opening with a brace costs nothing. -/
theorem keeps_bad_brace : Keeps textLayer [str "\x7b,,", textOfA, str " "] := by
  refine (keeps_iff textLayer ignoresBlanks_textLayer _ ?_).1 ?_
  · decide
  · have hnone : [str "\x7b,,", textOfA, str " "].dropWhile (!opensHeader ·) = [] := by decide
    intro line hline
    rw [hnone] at hline
    exact absurd hline List.not_mem_nil

/-- A number on a line of its own: the request on the next line is never returned. -/
theorem number_swallows_request : ¬ Keeps textLayer [str "1", textOfA] := by
  intro hkeeps
  have hreq : requestLine textLayer textOfA = some callOfA.request := rfl
  have hall := hkeeps { input := [] }
  rw [readAll_swallowed ignoresBlanks_textLayer (by decide) (by decide) (by decide) hreq] at hall
  simp [hreq] at hall

end Mcp

end Vycor
