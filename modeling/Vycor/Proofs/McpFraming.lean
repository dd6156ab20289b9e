/-
Messages that go out come back in.

Both framings share one stream, so what has to be shown of each reader is that it stops at
exactly the byte where the next message starts, whatever that byte is: after the newline for
a line, after the counted bytes for a body under a header.  The header needs the printed size
to be read back, which `atoi` does below `2 ^ 31`.
-/
import Vycor.Proofs.Digits

namespace Vycor

namespace Mcp

/-! ### Repeated calls -/

/-- The requests of repeated calls until one reports the end, each with the framing that is
active after it. -/
def readAll (json : JsonText) (s : Stdio) : List (McpRequest × McpFraming) :=
  match _h : readRequest json s with
  | (none, _) => []
  | (some req, s') => (req, s'.framing) :: readAll json s'
termination_by s.input.length
decreasing_by exact readRequest_lt _h

variable {json : JsonText} {s s' : Stdio} {body : Str}

/-! ### What one message does -/

theorem readRequest_end (h : readMessageBody s = (none, s')) : readRequest json s = (none, s') := by
  rw [readRequest.eq_def]
  split
  · rename_i hread
    rw [h] at hread
    obtain ⟨-, rfl⟩ := Prod.mk.inj hread
    rfl
  · rename_i hread
    rw [h] at hread
    exact absurd hread (by simp)

theorem readRequest_request {req : McpRequest} (h : readMessageBody s = (some body, s'))
    (hjudge : judge json body = .request req) : readRequest json s = (some req, s') := by
  rw [readRequest.eq_def]
  split
  · rename_i hread
    rw [h] at hread
    exact absurd hread (by simp)
  · rename_i hread
    rw [h] at hread
    obtain ⟨hb, rfl⟩ := Prod.mk.inj hread
    cases hb
    rw [hjudge]

theorem readRequest_malformed {logLine : Str} {id : Json} {code : Int} {message : String}
    (h : readMessageBody s = (some body, s'))
    (hjudge : judge json body = .malformed logLine id code message) :
    readRequest json s = readRequest json (reject json s' logLine id code message) := by
  rw [readRequest.eq_def]
  split
  · rename_i hread
    rw [h] at hread
    exact absurd hread (by simp)
  · rename_i hread
    rw [h] at hread
    obtain ⟨hb, rfl⟩ := Prod.mk.inj hread
    cases hb
    rw [hjudge]

theorem readAll_end {s₁ : Stdio} (h : readRequest json s = (none, s₁)) : readAll json s = [] := by
  rw [readAll.eq_def]
  split
  · rfl
  · rename_i hread
    rw [h] at hread
    exact absurd hread (by simp)

theorem readAll_request {req : McpRequest} (h : readRequest json s = (some req, s')) :
    readAll json s = (req, s'.framing) :: readAll json s' := by
  rw [readAll.eq_def]
  split
  · rename_i hread
    rw [h] at hread
    exact absurd hread (by simp)
  · rename_i hread
    rw [h] at hread
    obtain ⟨hr, rfl⟩ := Prod.mk.inj hread
    cases hr
    rfl

/-- Two states that read their first request alike read everything alike. -/
theorem readAll_congr {s₁ s₂ : Stdio} (h : readRequest json s₁ = readRequest json s₂) :
    readAll json s₁ = readAll json s₂ := by
  cases h₂ : readRequest json s₂ with
  | mk req s' =>
      cases req with
      | none => rw [readAll_end h₂, readAll_end (h.trans h₂)]
      | some req => rw [readAll_request h₂, readAll_request (h.trans h₂)]

/-! ### Lines -/

theorem takeWhile_line {line rest : Str} (h : 10 ∉ line) :
    (line ++ 10 :: rest).takeWhile (· ≠ 10) = line := by
  have hline : ∀ ch ∈ line, decide (ch ≠ 10) = true := by
    intro ch hch
    exact decide_eq_true fun hc => h (hc ▸ hch)
  rw [List.takeWhile_append_of_pos hline]
  simp

theorem dropWhile_line {line rest : Str} (h : 10 ∉ line) :
    (line ++ 10 :: rest).dropWhile (· ≠ 10) = 10 :: rest := by
  have hline : ∀ ch ∈ line, decide (ch ≠ 10) = true := by
    intro ch hch
    exact decide_eq_true fun hc => h (hc ▸ hch)
  rw [List.dropWhile_append_of_pos hline]
  simp

/-- A line that opens with a brace is a body, without the carriage returns at its end. -/
theorem readMessageBody_line {tail rest : Str} (hinput : s.input.dropWhile isBlank
    = 123 :: (tail ++ 10 :: rest)) (h : 10 ∉ tail) :
    readMessageBody s = (some ((123 :: tail).rdropWhile (· = 13)),
      { s with framing := .newline, input := rest }) := by
  have hbrace : readMessageBody s
      = (some ((123 :: (tail ++ 10 :: rest).takeWhile (· ≠ 10)).rdropWhile (· = 13)),
        { s with
          framing := .newline
          input := ((tail ++ 10 :: rest).dropWhile (· ≠ 10)).drop 1 }) := by
    unfold readMessageBody
    rw [hinput]
    rfl
  rw [hbrace, takeWhile_line h, dropWhile_line h]
  rfl

/-- A header line as it is read: one carriage return before the newline is not part of it. -/
def stripCr (line : Str) : Str := if line.getLast? = some 13 then line.dropLast else line

theorem stripCr_cons (ch : UInt8) {line : Str} (h : line ≠ []) :
    stripCr (ch :: line) = ch :: stripCr line := by
  obtain ⟨x, rest, rfl⟩ := List.exists_cons_of_ne_nil h
  unfold stripCr
  rw [List.getLast?_cons_cons]
  split
  · rfl
  · rfl

theorem readHeaderLine_line {line : Str} (rest : Str) (h : 10 ∉ line) :
    readHeaderLine (line ++ 10 :: rest) = some (stripCr line, rest) := by
  induction line with
  | nil => simp [readHeaderLine, stripCr]
  | cons ch tail ih =>
      have hch : ch ≠ 10 := fun hc => h (hc ▸ List.mem_cons_self)
      have htail : 10 ∉ tail := fun ht => h (List.mem_cons_of_mem _ ht)
      by_cases hlast : ch = 13 ∧ tail = []
      · obtain ⟨rfl, rfl⟩ := hlast
        simp [readHeaderLine, stripCr]
      · rw [List.cons_append, readHeaderLine.eq_4 ch (tail ++ 10 :: rest)
          (fun tail' hcr heq => hlast ⟨hcr, ?_⟩) hch, ih htail]
        · by_cases hnil : tail = []
          · subst hnil
            have hch13 : ch ≠ 13 := fun hc => hlast ⟨hc, rfl⟩
            simp [stripCr, hch13]
          · rw [stripCr_cons ch hnil]
            rfl
        · cases tail with
          | nil => rfl
          | cons x rest' =>
              injection heq with hx
              exact absurd (hx ▸ List.mem_cons_self) htail

/-! ### Sizes -/

theorem atoi_sizeText {n : Nat} (h : n < 2 ^ 31) : atoi (sizeText n) = n := by
  obtain ⟨ch, rest, hcons⟩ := List.exists_cons_of_ne_nil (sizeText_ne_nil n)
  obtain ⟨hlo, hhi⟩ := isDigit_sizeText (n := n) (hcons ▸ List.mem_cons_self)
  have hspace : isSpace ch = false := by
    unfold isSpace
    have h32 : ch ≠ 32 := by
      rintro rfl
      exact absurd hlo (by decide)
    have h13 : ¬ ch ≤ 13 := by
      intro hle
      have := UInt8.le_iff_toNat_le.mp hle
      have h13 : (13 : UInt8).toNat = 13 := rfl
      omega
    simp [h32, h13]
  have hdrop : (sizeText n).dropWhile isSpace = sizeText n := by
    rw [hcons, List.dropWhile_cons_of_neg (by simp [hspace])]
  have hvalue : strtol (sizeText n) = n := by
    unfold strtol
    rw [hdrop]
    split
    · rename_i rest' hminus
      rw [hcons] at hminus
      injection hminus with hminus
      rw [hminus] at hlo
      exact absurd hlo (by decide)
    · rename_i rest' hplus
      rw [hcons] at hplus
      injection hplus with hplus
      rw [hplus] at hlo
      exact absurd hlo (by decide)
    · rw [leadingDigits_sizeText]
      omega
  unfold atoi
  rw [hvalue]
  exact Int.bmod_eq_of_le (by omega) (by omega)

/-- **The header that a body goes out under gives its length.** -/
theorem parseContentLength_header {n : Nat} (h : n < 2 ^ 31) :
    parseContentLength (str "Content-Length: " ++ sizeText n) = n := by
  have hname : str "Content-Length: " = str "Content-Length:" ++ [32] := by decide
  have hvalue : (32 :: sizeText n).dropWhile (· = (32 : UInt8)) = sizeText n := by
    obtain ⟨ch, rest, hcons⟩ := List.exists_cons_of_ne_nil (sizeText_ne_nil n)
    obtain ⟨hlo, -⟩ := isDigit_sizeText (n := n) (hcons ▸ List.mem_cons_self)
    have h32 : ch ≠ 32 := by
      rintro rfl
      exact absurd hlo (by decide)
    rw [hcons, List.dropWhile_cons_of_pos (by simp), List.dropWhile_cons_of_neg (by simpa using h32)]
  unfold parseContentLength
  rw [hname, List.append_assoc, List.singleton_append]
  dsimp only
  rw [if_neg (by simp), List.take_left, List.drop_left, if_neg (by simp), hvalue,
    if_neg (sizeText_ne_nil n), atoi_sizeText h]

/-! ### Headers -/

theorem readHeaders_nil (n : Int) : readHeaders n [] = none := by
  rw [readHeaders.eq_def]
  rfl

theorem readHeaders_line {n : Int} {line rest : Str} (h : 10 ∉ line) :
    readHeaders n (line ++ 10 :: rest)
      = if stripCr line = [] then some (n, rest)
        else readHeaders (if 0 ≤ parseContentLength (stripCr line)
          then parseContentLength (stripCr line) else n) rest := by
  rw [readHeaders.eq_def]
  split
  · rename_i hread
    rw [readHeaderLine_line rest h] at hread
    exact absurd hread (by simp)
  · rename_i line' rest' hread
    rw [readHeaderLine_line rest h] at hread
    obtain ⟨rfl, rfl⟩ := Prod.mk.inj (Option.some.inj hread)
    rfl

theorem stripCr_concat (line : Str) : stripCr (line ++ [13]) = line := by
  simp [stripCr]

/-- A body under its header, and the bytes after it. -/
theorem readMessageBody_header {rest : Str} (hshort : body.length < 2 ^ 31)
    (hinput : s.input = str "Content-Length: " ++ sizeText body.length ++ [13, 10, 13, 10] ++ body
      ++ rest) :
    readMessageBody s = (some body, { s with framing := .contentLength, input := rest }) := by
  obtain ⟨line, hline⟩ : ∃ line, line = str "Content-Length: " ++ sizeText body.length := ⟨_, rfl⟩
  have hopens : ∃ tail, line = 67 :: tail := by
    rw [hline]
    exact ⟨_, rfl⟩
  have hnl : 10 ∉ line ++ [13] := by
    rw [hline]
    simp only [List.mem_append, not_or]
    refine ⟨⟨by decide, ?_⟩, by decide⟩
    intro hmem
    exact absurd (isDigit_sizeText hmem).1 (by decide)
  have hne : line ≠ [] := by
    obtain ⟨tail, htail⟩ := hopens
    rw [htail]
    exact List.cons_ne_nil _ _
  have hstream : s.input = (line ++ [13]) ++ 10 :: ([13] ++ 10 :: (body ++ rest)) := by
    rw [hinput, hline]
    simp
  have hheaders : readHeaders (-1) s.input = some ((body.length : Int), body ++ rest) := by
    have hcount : parseContentLength line = body.length := by
      rw [hline]
      exact parseContentLength_header hshort
    rw [hstream, readHeaders_line hnl, stripCr_concat, if_neg hne, hcount,
      if_pos (Int.natCast_nonneg _), readHeaders_line (by decide), if_pos (by decide)]
  have hskip : s.input.dropWhile isBlank = s.input := by
    obtain ⟨tail, htail⟩ := hopens
    rw [hstream, htail]
    rfl
  unfold readMessageBody
  rw [hskip]
  split
  · rename_i hnil
    rw [hnil, readHeaders_nil] at hheaders
    exact absurd hheaders (by simp)
  · rename_i rest' hbrace
    obtain ⟨tail, htail⟩ := hopens
    rw [hstream, htail] at hbrace
    exact absurd hbrace (by simp)
  · rename_i first rest' _ hfirst
    rw [← hfirst, hheaders]
    dsimp only
    rw [if_neg (by omega), Int.toNat_natCast, if_neg (by simp), List.take_left, List.drop_left]

/-! ### The round trip

What is written under a framing is read under it, to its last byte. So the
framings of a stream need not agree with each other.
-/

/-- An object with a method. -/
structure RequestObject where
  obj : JsonObject
  method : Str
  hasMethod : JsonObject.getString obj (str "method") = some method

/-- What the server reads from it. -/
def RequestObject.request (r : RequestObject) : McpRequest := Mcp.request r.obj r.method

/-- The compact text of an object is one line between its braces and is read back. -/
structure Compact (json : JsonText) (obj : JsonObject) : Prop where
  braces : ∃ inner, json.print (.object obj) = 123 :: (inner ++ [125])
  line : 10 ∉ json.print (.object obj)
  parse : json.parse (json.print (.object obj)) = .ok (.object obj)

/-- The bytes that go out for messages, each under its framing. -/
def emitted (json : JsonText) (msgs : List (McpFraming × RequestObject)) : Str :=
  (msgs.foldl (fun s m => writeRaw json { s with framing := m.1 } (.object m.2.obj))
    { input := [] }).out

/-- The bytes of one message. -/
def framed (json : JsonText) (m : McpFraming × RequestObject) : Str :=
  let body := json.print (.object m.2.obj)
  match m.1 with
  | .newline => body ++ [10]
  | .contentLength => str "Content-Length: " ++ sizeText body.length ++ [13, 10, 13, 10] ++ body

theorem emitted_eq (json : JsonText) (msgs : List (McpFraming × RequestObject)) :
    emitted json msgs = msgs.flatMap (framed json) := by
  have hrun : ∀ (msgs : List (McpFraming × RequestObject)) (s : Stdio),
      (msgs.foldl (fun s m => writeRaw json { s with framing := m.1 } (.object m.2.obj)) s).out
        = s.out ++ msgs.flatMap (framed json) := by
    intro msgs
    induction msgs with
    | nil => intro s; simp
    | cons m rest ih =>
        intro s
        rw [List.foldl_cons, ih, List.flatMap_cons, ← List.append_assoc]
        congr 1
        obtain ⟨framing, r⟩ := m
        cases framing <;> rfl
  exact (hrun msgs _).trans (List.nil_append _)

/-- **One message is read to its last byte**, and its framing is the active one. -/
theorem readRequest_framed {m : McpFraming × RequestObject} (hcompact : Compact json m.2.obj)
    (hshort : m.1 = .contentLength → (json.print (.object m.2.obj)).length < 2 ^ 31) {rest : Str}
    (hinput : s.input = framed json m ++ rest) :
    readRequest json s = (some m.2.request, { s with framing := m.1, input := rest }) := by
  obtain ⟨framing, r⟩ := m
  have hjudge : judge json (json.print (.object r.obj)) = .request r.request := by
    unfold judge
    rw [hcompact.parse]
    dsimp only
    rw [r.hasMethod]
    rfl
  refine readRequest_request ?_ hjudge
  cases framing with
  | newline =>
      obtain ⟨inner, hinner⟩ := hcompact.braces
      have hline : 10 ∉ inner ++ [125] := by
        have hwhole := hcompact.line
        rw [hinner] at hwhole
        exact fun hmem => hwhole (List.mem_cons_of_mem _ hmem)
      have hstream : s.input.dropWhile isBlank = 123 :: ((inner ++ [125]) ++ 10 :: rest) := by
        rw [hinput]
        show ((json.print (.object r.obj) ++ [10]) ++ rest).dropWhile isBlank = _
        rw [hinner, List.append_assoc, List.singleton_append]
        rfl
      rw [readMessageBody_line hstream hline, hinner, ← List.cons_append,
        List.rdropWhile_concat_neg _ _ _ (by decide)]
  | contentLength => exact readMessageBody_header (hshort rfl) hinput

/-- **The round trip**: messages written each under a framing of its own are read back as they
were, in order and to the end, and after each its framing is the active one. -/
theorem readAll_emitted (json : JsonText) (msgs : List (McpFraming × RequestObject))
    (hcompact : ∀ m ∈ msgs, Compact json m.2.obj)
    (hshort : ∀ m ∈ msgs, m.1 = .contentLength →
      (json.print (.object m.2.obj)).length < 2 ^ 31) (s : Stdio) :
    readAll json { s with input := emitted json msgs }
      = msgs.map fun m => (m.2.request, m.1) := by
  rw [emitted_eq]
  induction msgs generalizing s with
  | nil => exact readAll_end (readRequest_end rfl)
  | cons m rest ih =>
      have hone := readRequest_framed (s := { s with input := (m :: rest).flatMap (framed json) })
        (hcompact m List.mem_cons_self) (hshort m List.mem_cons_self) List.flatMap_cons
      rw [readAll_request hone, List.map_cons]
      exact congrArg _ (ih (fun m' hm' => hcompact m' (List.mem_cons_of_mem _ hm'))
        (fun m' hm' => hshort m' (List.mem_cons_of_mem _ hm')) { s with framing := m.1 })

/-- `{"method":"a"}`. -/
def callOfA : RequestObject where
  obj := [field "method" (.string (str "a"))]
  method := str "a"
  hasMethod := rfl

/-- A request for the method `a`. -/
def textOfA : Str := str "\x7b\"method\":\"a\"\x7d"

/-- A text layer that knows one object, with blanks anywhere. -/
def textLayer : JsonText where
  parse text :=
    if text.filter (!isBlank ·) = textOfA then .ok (.object callOfA.obj) else .error (str "no")
  print
    | .object [(_, .string _)] => textOfA
    | _ => str "null"

/-- The request in one framing, the other, and the first again. -/
def callsBothWays : List (McpFraming × RequestObject) :=
  [(.contentLength, callOfA), (.newline, callOfA), (.contentLength, callOfA)]

theorem readAll_emitted_both :
    readAll textLayer { input := emitted textLayer callsBothWays }
      = [(callOfA.request, .contentLength), (callOfA.request, .newline),
        (callOfA.request, .contentLength)] := by
  have hcompact : Compact textLayer callOfA.obj :=
    ⟨⟨str "\"method\":\"a\"", by decide⟩, by decide, rfl⟩
  refine readAll_emitted textLayer callsBothWays ?_ ?_ { input := [] }
  · intro m hm
    simp only [callsBothWays, List.mem_cons, List.not_mem_nil, or_false] at hm
    rcases hm with rfl | rfl | rfl <;> exact hcompact
  · intro m hm _
    simp only [callsBothWays, List.mem_cons, List.not_mem_nil, or_false] at hm
    rcases hm with rfl | rfl | rfl <;> decide

end Mcp

end Vycor
