/-
The stdio transport of the server.

A message is either a line of JSON or a body under a `Content-Length` header; the reader tells
the two apart by the first byte that is not blank, for each message anew, and replies go out
the way the last message came in.  The streams and the file-scope framing are explicit here.
The JSON text itself is the library's business, so reading and printing it are parameters.
-/
import Mathlib.Data.List.DropRight
import Vycor.Model.Json

namespace Vycor

/-! ### JSON text -/

/-- `llvm::json::parse`, with the text of its error, and the compact printing of `<<`. -/
structure JsonText where
  parse : Str → Except Str Json
  print : Json → Str

def kParseError : Int := -32700

def kInvalidRequest : Int := -32600

/-- A JSON-RPC request; the id is null for a notification. -/
structure McpRequest where
  id : Json := .null
  method : Str
  params : JsonObject := []

/-- How messages are told apart on the stream. -/
inductive McpFraming
  | newline
  | contentLength
deriving DecidableEq

/-- The framing in use, what is left of the input, and what has gone to stdout and stderr. -/
structure Stdio where
  input : Str
  framing : McpFraming := .newline
  out : Str := []
  errLog : Str := []

namespace Mcp

/-! ### Header lines

The C library's functions, as far as the header reader calls them.
-/

/-- One header line without its end, and what follows it; none at the end of the input.  A
carriage return that no newline follows belongs to the line. -/
def readHeaderLine : Str → Option (Str × Str)
  | [] => none
  | 13 :: 10 :: rest => some ([], rest)
  | 10 :: rest => some ([], rest)
  | ch :: rest => (readHeaderLine rest).map fun r => (ch :: r.1, r.2)

/-- `std::isspace` in the C locale. -/
def isSpace (ch : UInt8) : Bool := ch = 32 || (9 ≤ ch && ch ≤ 13)

def isDigit (ch : UInt8) : Bool := 48 ≤ ch && ch ≤ 57

/-- The number that the leading digits spell. -/
def leadingDigits (s : Str) : Nat :=
  (s.takeWhile isDigit).foldl (fun n ch => 10 * n + (ch.toNat - 48)) 0

/-- `std::strtol` in base ten, clamped to 64 bits. -/
def strtol (s : Str) : Int :=
  match s.dropWhile isSpace with
  | 45 :: rest => max (-2 ^ 63) (-(leadingDigits rest : Int))
  | 43 :: rest => min (2 ^ 63 - 1) (leadingDigits rest)
  | rest => min (2 ^ 63 - 1) (leadingDigits rest)

/-- `std::atoi`: the same, cut to 32 bits. -/
def atoi (s : Str) : Int := (strtol s).bmod (2 ^ 32)

/-- The length a header line gives; -1 when it is another header or gives none. -/
def parseContentLength (line : Str) : Int :=
  let name := str "Content-Length:"
  if line.length < name.length then -1
  else if lower (line.take name.length) ≠ lower name then -1
  else
    let value := (line.drop name.length).dropWhile (· = 32)
    if value = [] then -1 else atoi value

theorem readHeaderLine_lt {input line rest : Str} (h : readHeaderLine input = some (line, rest)) :
    rest.length < input.length := by
  induction input using readHeaderLine.induct generalizing line rest with
  | case1 => exact absurd h (by simp [readHeaderLine])
  | case2 tail =>
      obtain ⟨-, rfl⟩ : [] = line ∧ tail = rest := by simpa [readHeaderLine] using h
      simp only [List.length_cons]
      omega
  | case3 tail =>
      obtain ⟨-, rfl⟩ : [] = line ∧ tail = rest := by simpa [readHeaderLine] using h
      simp
  | case4 ch tail hcr hlf ih =>
      rw [readHeaderLine.eq_4 ch tail hcr hlf] at h
      obtain ⟨⟨line', rest'⟩, hread, hpair⟩ := Option.map_eq_some_iff.mp h
      obtain ⟨-, rfl⟩ := Prod.mk.inj hpair
      exact Nat.lt_succ_of_lt (ih hread)

/-- The headers up to the empty line: the last length given, and what follows. -/
def readHeaders (contentLength : Int) (input : Str) : Option (Int × Str) :=
  match _h : readHeaderLine input with
  | none => none
  | some (line, rest) =>
    if line = [] then some (contentLength, rest)
    else
      let len := parseContentLength line
      readHeaders (if 0 ≤ len then len else contentLength) rest
termination_by input.length
decreasing_by exact readHeaderLine_lt _h

/-! ### Messages

A message is a line with an object or a body behind headers. Which of the two it
is, is read off its first byte, and the answer goes out the same way.
-/

/-- What may stand between messages. -/
def isBlank (ch : UInt8) : Bool := ch = 10 || ch = 13 || ch = 32 || ch = 9

/-- A size as `%zu` prints it. -/
def sizeText (n : Nat) : Str := (Nat.toDigits 10 n).map fun c => UInt8.ofNat c.toNat

/-- The body of the next message; none at the end of the input or on a framing error that the
reader does not recover from. -/
def readMessageBody (s : Stdio) : Option Str × Stdio :=
  match s.input.dropWhile isBlank with
  | [] => (none, { s with input := [] })
  | 123 :: rest =>
    (some ((123 :: rest.takeWhile (· ≠ 10)).rdropWhile (· = 13)),
      { s with framing := .newline, input := (rest.dropWhile (· ≠ 10)).drop 1 })
  | first :: rest =>
    let s := { s with framing := .contentLength }
    match readHeaders (-1) (first :: rest) with
    | none => (none, { s with input := [] })
    | some (contentLength, body) =>
      if contentLength < 0 then
        (none, { s with
          input := body
          errLog := s.errLog ++ str "megascope: missing Content-Length header\n" })
      else if body.length < contentLength.toNat then
        (none, { s with
          input := []
          errLog := s.errLog ++ str "megascope: truncated message body (expected "
            ++ sizeText contentLength.toNat ++ str ", got " ++ sizeText body.length ++ str ")\n" })
      else
        (some (body.take contentLength.toNat),
          { s with input := body.drop contentLength.toNat })

/-- Write a message the way the last one came in. -/
def writeRaw (json : JsonText) (s : Stdio) (msg : Json) : Stdio :=
  let body := json.print msg
  match s.framing with
  | .contentLength =>
    { s with out := s.out ++ (str "Content-Length: " ++ sizeText body.length
        ++ [13, 10, 13, 10] ++ body) }
  | .newline => { s with out := s.out ++ (body ++ [10]) }

def writeError (json : JsonText) (s : Stdio) (id : Json) (code : Int) (message : String) : Stdio :=
  let error := [field "code" (.ofInt code), field "message" (.string (str message))]
  writeRaw json s
    (.object [field "jsonrpc" (.string (str "2.0")), field "id" id, field "error" (.object error)])

@[simp] theorem writeRaw_input (json : JsonText) (s : Stdio) (msg : Json) :
    (writeRaw json s msg).input = s.input := by
  unfold writeRaw
  cases s.framing <;> rfl

@[simp] theorem writeRaw_framing (json : JsonText) (s : Stdio) (msg : Json) :
    (writeRaw json s msg).framing = s.framing := by
  cases h : s.framing <;> simp [writeRaw, h]

/-- The request in an object that has a method. -/
def request (obj : JsonObject) (method : Str) : McpRequest where
  id := (obj.get (str "id")).getD .null
  method := method
  params :=
    match obj.get (str "params") with
    | some (.object params) => params
    | _ => []

/-- What a body asks for: a request, or the reply to a malformed message and a line in the log. -/
inductive Verdict
  | request (req : McpRequest)
  | malformed (logLine : Str) (id : Json) (code : Int) (message : String)

/-- Whether a body is a request, and what is wrong with it otherwise. -/
def judge (json : JsonText) (body : Str) : Verdict :=
  match json.parse body with
  | .error e =>
    .malformed (str "megascope: JSON parse error: " ++ e ++ str "\n") .null kParseError
      "JSON parse error"
  | .ok (.object obj) =>
    match JsonObject.getString obj (str "method") with
    | some method => .request (request obj method)
    | none =>
      .malformed [] ((JsonObject.get obj (str "id")).getD .null) kInvalidRequest "Missing 'method' field"
  | .ok _ =>
    .malformed (str "megascope: request is not a JSON object\n") .null kInvalidRequest
      "Request must be a JSON object"

/-- The reply to a malformed message. -/
def reject (json : JsonText) (s : Stdio) (logLine : Str) (id : Json) (code : Int)
    (message : String) : Stdio :=
  writeError json { s with errLog := s.errLog ++ logLine } id code message

@[simp] theorem reject_input (json : JsonText) (s : Stdio) (logLine : Str) (id : Json) (code : Int)
    (message : String) : (reject json s logLine id code message).input = s.input :=
  writeRaw_input _ _ _

theorem dropWhile_length_le {p : UInt8 → Bool} (s : Str) : (s.dropWhile p).length ≤ s.length :=
  (List.dropWhile_suffix p).length_le

theorem readHeaders_lt {contentLength n : Int} {input rest : Str}
    (h : readHeaders contentLength input = some (n, rest)) : rest.length < input.length := by
  induction contentLength, input using readHeaders.induct with
  | case1 contentLength input hline =>
      unfold readHeaders at h
      split at h
      · exact absurd h (by simp)
      · rename_i hread
        rw [hline] at hread
        exact absurd hread (by simp)
  | case2 contentLength input rest' hline =>
      unfold readHeaders at h
      split at h
      · exact absurd h (by simp)
      · rename_i line rest₂ hread
        rw [hline] at hread
        obtain ⟨rfl, rfl⟩ := Prod.mk.inj (Option.some.inj hread)
        rw [if_pos rfl] at h
        obtain ⟨-, rfl⟩ := Prod.mk.inj (Option.some.inj h)
        exact readHeaderLine_lt hline
  | case3 contentLength input line rest' hline hne len ih =>
      unfold readHeaders at h
      split at h
      · exact absurd h (by simp)
      · rename_i line₂ rest₂ hread
        rw [hline] at hread
        obtain ⟨rfl, rfl⟩ := Prod.mk.inj (Option.some.inj hread)
        rw [if_neg hne] at h
        exact Nat.lt_trans (ih h) (readHeaderLine_lt hline)

/-- Every message takes at least a byte. -/
theorem readMessageBody_lt {s s' : Stdio} {body : Str} (h : readMessageBody s = (some body, s')) :
    s'.input.length < s.input.length := by
  have hskip := dropWhile_length_le (p := isBlank) s.input
  unfold readMessageBody at h
  split at h
  · exact absurd h (by simp)
  · rename_i rest hrest
    rw [hrest, List.length_cons] at hskip
    obtain ⟨-, rfl⟩ := Prod.mk.inj h
    have hline := dropWhile_length_le (p := (· ≠ 10)) rest
    simp only [List.length_drop]
    omega
  · rename_i first rest _ hrest
    rw [hrest] at hskip
    dsimp only at h
    split at h
    · exact absurd h (by simp)
    · rename_i n body' hheaders
      have hlt := readHeaders_lt hheaders
      split at h
      · exact absurd h (by simp)
      · split at h
        · exact absurd h (by simp)
        · obtain ⟨-, rfl⟩ := Prod.mk.inj h
          simp only [List.length_drop]
          omega

/-- The next request; malformed messages before it are answered with an error each. -/
def readRequest (json : JsonText) (s : Stdio) : Option McpRequest × Stdio :=
  match _h : readMessageBody s with
  | (none, s') => (none, s')
  | (some body, s') =>
    match judge json body with
    | .request req => (some req, s')
    | .malformed logLine id code message =>
      readRequest json (reject json s' logLine id code message)
termination_by s.input.length
decreasing_by
  rw [reject_input]
  exact readMessageBody_lt _h

/-- A request takes at least a byte, however many malformed messages stood before it. -/
theorem readRequest_lt {json : JsonText} {s s' : Stdio} {req : McpRequest}
    (h : readRequest json s = (some req, s')) : s'.input.length < s.input.length := by
  induction s using readRequest.induct json with
  | case1 s s₁ hbody =>
      unfold readRequest at h
      split at h
      · exact absurd h (by simp)
      · rename_i hread
        rw [hbody] at hread
        exact absurd hread (by simp)
  | case2 s body s₁ hbody req' hjudge =>
      unfold readRequest at h
      split at h
      · exact absurd h (by simp)
      · rename_i hread
        rw [hbody] at hread
        obtain ⟨hb, rfl⟩ := Prod.mk.inj hread
        cases hb
        rw [hjudge] at h
        obtain ⟨-, rfl⟩ := Prod.mk.inj h
        exact readMessageBody_lt hbody
  | case3 s body s₁ hbody logLine id code message hjudge ih =>
      unfold readRequest at h
      split at h
      · exact absurd h (by simp)
      · rename_i hread
        rw [hbody] at hread
        obtain ⟨hb, rfl⟩ := Prod.mk.inj hread
        cases hb
        rw [hjudge] at h
        have hlt := ih h
        rw [reject_input] at hlt
        exact Nat.lt_trans hlt (readMessageBody_lt hbody)

end Mcp

end Vycor
