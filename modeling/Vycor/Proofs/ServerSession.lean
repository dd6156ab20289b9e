/-
A session over the wire.

Whatever bytes its messages are made of, as long as each is framed, the server writes one reply
for each message that is not a notification, in the order of the messages, under the id of its
message and framed as it was.  So a client that reads the replies back with the same reader finds
the answer to each of its requests, and the server ends in the state that the messages, taken one
by one, lead to.
-/
import Vycor.Model.McpServer
import Vycor.Proofs.McpFraming

namespace Vycor

namespace Mcp

/-! ### Framed bodies -/

/-- The bytes of a body under a framing. -/
def frame : McpFraming × Str → Str
  | (.newline, body) => body ++ [10]
  | (.contentLength, body) =>
    str "Content-Length: " ++ sizeText body.length ++ [13, 10, 13, 10] ++ body

/-- A line opens with a brace and has its end where the body ends; a counted body has a length
that the header line can give. -/
def Framable : McpFraming × Str → Prop
  | (.newline, body) =>
    (∃ tail, body = 123 :: tail) ∧ 10 ∉ body ∧ body.rdropWhile (· = 13) = body
  | (.contentLength, body) => body.length < 2 ^ 31

theorem readMessageBody_framed {m : McpFraming × Str} (h : Framable m) {s : Stdio} {rest : Str}
    (hinput : s.input = frame m ++ rest) :
    readMessageBody s = (some m.2, { s with framing := m.1, input := rest }) := by
  obtain ⟨framing, body⟩ := m
  cases framing with
  | newline =>
      obtain ⟨⟨tail, rfl⟩, hline, hend⟩ := h
      have htail : 10 ∉ tail := fun hmem => hline (List.mem_cons_of_mem _ hmem)
      have hstream : s.input.dropWhile isBlank = 123 :: (tail ++ 10 :: rest) := by
        rw [hinput, frame, List.append_assoc]
        rfl
      rw [readMessageBody_line hstream htail, hend]
  | contentLength => exact readMessageBody_header h hinput

/-- The bodies in a stream, each with its framing. -/
def readBodies (s : Stdio) : List (McpFraming × Str) :=
  match _h : readMessageBody s with
  | (none, _) => []
  | (some body, s') => (s'.framing, body) :: readBodies s'
termination_by s.input.length
decreasing_by exact readMessageBody_lt _h

theorem readBodies_some {s s' : Stdio} {body : Str} (h : readMessageBody s = (some body, s')) :
    readBodies s = (s'.framing, body) :: readBodies s' := by
  rw [readBodies.eq_def]
  split
  · rename_i hread
    rw [h] at hread
    exact absurd (Prod.mk.inj hread).1 (Option.some_ne_none body)
  · rename_i body' s₁ hread
    rw [h] at hread
    obtain ⟨hbody, rfl⟩ := Prod.mk.inj hread
    rw [Option.some.inj hbody]

/-- Framed bodies are read back as they were. -/
theorem readBodies_framed (msgs : List (McpFraming × Str)) (h : ∀ m ∈ msgs, Framable m)
    (s : Stdio) : readBodies { s with input := msgs.flatMap frame } = msgs := by
  induction msgs generalizing s with
  | nil =>
      rw [readBodies.eq_def]
      rfl
  | cons m rest ih =>
      have hone := readMessageBody_framed (s := { s with input := (m :: rest).flatMap frame })
        (h m List.mem_cons_self) List.flatMap_cons
      rw [readBodies_some hone]
      exact congrArg _ (ih (fun m' hm' => h m' (List.mem_cons_of_mem _ hm'))
        { s with framing := m.1 })

theorem writeRaw_out (json : JsonText) (s : Stdio) (msg : Json) :
    (writeRaw json s msg).out = s.out ++ frame (s.framing, json.print msg) := by
  unfold writeRaw frame
  cases hframing : s.framing <;> rfl

end Mcp

namespace McpServer

open Mcp

/-! ### What a message does -/

/-- The message that answers a request, and the server after it. -/
def response (p : McpParams) (server : McpServer) (req : McpRequest) : Json × McpServer :=
  if req.method = str "initialize" then
    (resultMessage req.id (handleInitialize p req.params), server)
  else if req.method = str "tools/list" then (resultMessage req.id handleToolsList, server)
  else if req.method = str "tools/call" then
    let (result, server) := server.handleToolsCall p req.params
    (resultMessage req.id result, server)
  else (Mcp.errorMessage req.id kMethodNotFound (str "Unknown method: " ++ req.method), server)

theorem dispatch_eq (p : McpParams) (server : McpServer) (io : Stdio) (req : McpRequest) :
    server.dispatch p io req
      = ((server.response p req).2, writeRaw p.json io (server.response p req).1) := by
  unfold dispatch response writeResult
  by_cases hinit : req.method = str "initialize"
  · rw [if_pos hinit, if_pos hinit]
  · rw [if_neg hinit, if_neg hinit]
    by_cases hlist : req.method = str "tools/list"
    · rw [if_pos hlist, if_pos hlist]
    · rw [if_neg hlist, if_neg hlist]
      by_cases hcall : req.method = str "tools/call"
      · rw [if_pos hcall, if_pos hcall]
      · rw [if_neg hcall, if_neg hcall]

/-- The reply that a request gets, and the server after it. -/
def answer (p : McpParams) (server : McpServer) (req : McpRequest) : Option Json × McpServer :=
  if req.isNotification then
    (none,
      if req.method = str "notifications/initialized" then { server with initialized := true }
      else server)
  else (some (server.response p req).1, (server.response p req).2)

/-- The same of a body, which need not be a request. -/
def reply (p : McpParams) (server : McpServer) (body : Str) : Option Json × McpServer :=
  match judge p.json body with
  | .request req => server.answer p req
  | .malformed _ id code message => (some (Mcp.errorMessage id code (str message)), server)

/-- What is written for messages, each reply under the framing of its message. -/
def sent (p : McpParams) : McpServer → List (McpFraming × Str) → List (McpFraming × Json)
  | _, [] => []
  | server, (framing, body) :: rest =>
    ((server.reply p body).1.map fun msg => (framing, msg)).toList
      ++ sent p (server.reply p body).2 rest

/-- The server after messages. -/
def after (p : McpParams) (server : McpServer) (msgs : List (McpFraming × Str)) : McpServer :=
  msgs.foldl (fun server m => (server.reply p m.2).2) server

/-! ### The loop over a stream -/

@[simp] theorem logged_framing (io : Stdio) (verbose : Bool) (line : Str) :
    (logged io verbose line).framing = io.framing := by
  unfold logged
  split <;> rfl

@[simp] theorem logged_out (io : Stdio) (verbose : Bool) (line : Str) :
    (logged io verbose line).out = io.out := by
  unfold logged
  split <;> rfl

theorem serve_end {p : McpParams} {server : McpServer} {io io' : Stdio}
    (h : readRequest p.json io = (none, io')) : server.serve p io = (server, io') := by
  rw [serve.eq_def]
  split
  · rename_i hread
    rw [h] at hread
    rw [(Prod.mk.inj hread).2]
  · rename_i hread
    rw [h] at hread
    exact absurd (Prod.mk.inj hread).1.symm (Option.some_ne_none _)

theorem serve_request {p : McpParams} {server : McpServer} {io io' : Stdio} {req : McpRequest}
    (h : readRequest p.json io = (some req, io')) :
    server.serve p io = serve p (server.turn p io' req).1 (server.turn p io' req).2 := by
  rw [serve.eq_def]
  split
  · rename_i hread
    rw [h] at hread
    exact absurd (Prod.mk.inj hread).1 (Option.some_ne_none _)
  · rename_i req' io₁ hread
    rw [h] at hread
    obtain ⟨hreq, rfl⟩ := Prod.mk.inj hread
    rw [Option.some.inj hreq]

/-- What is read next decides what is served. -/
theorem serve_congr {p : McpParams} {server : McpServer} {io io' : Stdio}
    (h : readRequest p.json io = readRequest p.json io') :
    server.serve p io = server.serve p io' := by
  cases hread : readRequest p.json io' with
  | mk next s =>
      rw [hread] at h
      cases next with
      | none => rw [serve_end h, serve_end hread]
      | some req => rw [serve_request h, serve_request hread]

/-- A turn writes the reply to its request and nothing else. -/
theorem turn_spec (p : McpParams) (server : McpServer) (io : Stdio) (req : McpRequest) :
    (server.turn p io req).1 = (server.answer p req).2 ∧
      (server.turn p io req).2.framing = io.framing ∧
      (server.turn p io req).2.out
        = io.out ++ ((server.answer p req).1.map fun msg =>
            (io.framing, msg)).toList.flatMap fun r => frame (r.1, p.json.print r.2) := by
  unfold turn answer
  dsimp only
  by_cases hnote : req.isNotification = true
  · rw [if_pos hnote, if_pos hnote]
    unfold notified
    by_cases hdone : req.method = str "notifications/initialized"
    · rw [if_pos hdone, if_pos hdone]
      simp
    · rw [if_neg hdone, if_neg hdone]
      simp
  · rw [if_neg hnote, if_neg hnote, dispatch_eq]
    refine ⟨rfl, ?_, ?_⟩
    · rw [writeRaw_framing, logged_framing]
    · rw [writeRaw_out, logged_framing, logged_out]
      simp

/-- **One message is served**: its reply goes out under its framing, and the loop goes on behind
it. -/
theorem serve_framed {p : McpParams} {server : McpServer} {m : McpFraming × Str} (h : Framable m)
    {io : Stdio} {rest : Str} (hinput : io.input = frame m ++ rest) :
    ∃ io', server.serve p io = serve p (server.reply p m.2).2 io' ∧ io'.input = rest ∧
      io'.out = io.out ++ ((server.reply p m.2).1.map fun msg => (m.1, msg)).toList.flatMap
        fun r => frame (r.1, p.json.print r.2) := by
  have hbody := readMessageBody_framed h hinput
  unfold reply
  cases hjudge : judge p.json m.2 with
  | request req =>
      obtain ⟨hserver, -, hout⟩ := turn_spec p server { io with framing := m.1, input := rest } req
      refine ⟨(server.turn p { io with framing := m.1, input := rest } req).2, ?_, ?_, hout⟩
      · rw [serve_request (readRequest_request hbody hjudge), hserver]
      · rw [turn_input]
  | malformed logLine id code message =>
      refine ⟨reject p.json { io with framing := m.1, input := rest } logLine id code message,
        serve_congr (readRequest_malformed hbody hjudge), reject_input _ _ _ _ _ _, ?_⟩
      refine (writeRaw_out _ _ _).trans ?_
      simp only [Option.map_some, Option.toList_some, List.flatMap_cons, List.flatMap_nil,
        List.append_nil]
      rfl

theorem serve_session (p : McpParams) (msgs : List (McpFraming × Str))
    (h : ∀ m ∈ msgs, Framable m) :
    ∀ (server : McpServer) (io : Stdio), io.input = msgs.flatMap frame →
      (server.serve p io).1 = server.after p msgs ∧
      (server.serve p io).2.out
        = io.out ++ (server.sent p msgs).flatMap fun r => frame (r.1, p.json.print r.2) := by
  induction msgs with
  | nil =>
      intro server io hinput
      have hend : readRequest p.json io = (none, { io with input := [] }) := by
        refine readRequest_end ?_
        unfold readMessageBody
        rw [hinput]
        rfl
      rw [serve_end hend]
      simp [after, sent]
  | cons m rest ih =>
      intro server io hinput
      obtain ⟨io', hserve, hrest, hout⟩ := @serve_framed p server m
        (h m List.mem_cons_self) io _ (hinput.trans List.flatMap_cons)
      obtain ⟨hstate, htail⟩ := ih (fun m' hm' => h m' (List.mem_cons_of_mem _ hm'))
        (server.reply p m.2).2 io' hrest
      rw [hserve]
      refine ⟨hstate, ?_⟩
      rw [htail, hout, List.append_assoc]
      congr 1
      obtain ⟨framing, body⟩ := m
      rw [sent, List.flatMap_append]

/-! ### Who is answered

Whether a message is answered, and under which id, is read off its body alone.
-/

/-- The id that the reply to a body has to carry; none for a notification. -/
def owed (json : JsonText) (body : Str) : Option Json :=
  match judge json body with
  | .request req => if req.isNotification then none else some req.id
  | .malformed _ id _ _ => some id

/-- A reply to an id: a result or an error, and not both. -/
structure RepliesTo (id : Json) (msg : Json) : Prop where
  reply : ∃ obj, msg = .object obj ∧ JsonObject.get obj (str "id") = some id ∧
    ((JsonObject.get obj (str "result")).isSome ≠ (JsonObject.get obj (str "error")).isSome)

theorem repliesTo_result (id result : Json) : RepliesTo id (resultMessage id result) := by
  refine ⟨_, rfl, ?_, ?_⟩
  · simp [field, JsonObject.get, show str "jsonrpc" ≠ str "id" by decide]
  · simp [field, JsonObject.get, show str "jsonrpc" ≠ str "result" by decide,
      show str "id" ≠ str "result" by decide, show str "jsonrpc" ≠ str "error" by decide,
      show str "id" ≠ str "error" by decide, show str "result" ≠ str "error" by decide]

theorem repliesTo_error (id : Json) (code : Int) (message : Str) :
    RepliesTo id (Mcp.errorMessage id code message) := by
  refine ⟨_, rfl, ?_, ?_⟩
  · simp [field, JsonObject.get, show str "jsonrpc" ≠ str "id" by decide]
  · simp [field, JsonObject.get, show str "jsonrpc" ≠ str "result" by decide,
      show str "id" ≠ str "result" by decide, show str "jsonrpc" ≠ str "error" by decide,
      show str "id" ≠ str "error" by decide, show str "error" ≠ str "result" by decide]

theorem repliesTo_response (p : McpParams) (server : McpServer) (req : McpRequest) :
    RepliesTo req.id (server.response p req).1 := by
  unfold response
  split
  · exact repliesTo_result _ _
  · split
    · exact repliesTo_result _ _
    · split
      · exact repliesTo_result _ _
      · exact repliesTo_error _ _ _

/-- Whether and to whom a body is answered does not depend on the server. -/
theorem reply_owed (p : McpParams) (server : McpServer) (body : Str) :
    Option.Rel RepliesTo (owed p.json body) (server.reply p body).1 := by
  unfold owed reply
  cases judge p.json body with
  | request req =>
      dsimp only
      unfold answer
      by_cases hnote : req.isNotification = true
      · rw [if_pos hnote, if_pos hnote]
        exact .none
      · rw [if_neg hnote, if_neg hnote]
        exact .some (repliesTo_response p server req)
  | malformed logLine id code message => exact .some (repliesTo_error id code (str message))

/-- The framing and the id of every reply that messages are owed. -/
def owedTo (json : JsonText) (msgs : List (McpFraming × Str)) : List (McpFraming × Json) :=
  msgs.filterMap fun m => (owed json m.2).map fun id => (m.1, id)

theorem sent_owed (p : McpParams) (msgs : List (McpFraming × Str)) (server : McpServer) :
    List.Forall₂ (fun due r => r.1 = due.1 ∧ RepliesTo due.2 r.2) (owedTo p.json msgs)
      (server.sent p msgs) := by
  induction msgs generalizing server with
  | nil => exact .nil
  | cons m rest ih =>
      obtain ⟨framing, body⟩ := m
      have hrest := ih (server.reply p body).2
      have hone := reply_owed p server body
      unfold owedTo
      rw [List.filterMap_cons, sent]
      cases hdue : owed p.json body with
      | none =>
          rw [hdue] at hone
          cases hreply : (server.reply p body).1 with
          | none => exact hrest
          | some msg =>
              rw [hreply] at hone
              cases hone
      | some id =>
          rw [hdue] at hone
          cases hreply : (server.reply p body).1 with
          | none =>
              rw [hreply] at hone
              cases hone
          | some msg =>
              rw [hreply] at hone
              cases hone with
              | some hreplies => exact .cons ⟨rfl, hreplies⟩ hrest

/-! ### The session -/

/-- **Every message of a session is answered**: a client that reads the output back finds one
reply for each message that is not a notification, in order, each framed as its message and
carrying its id, and the server is left as the messages leave it one by one. -/
theorem session_answered (p : McpParams) (server : McpServer) (msgs : List (McpFraming × Str))
    (hmsgs : ∀ m ∈ msgs, Framable m)
    (hreplies : ∀ r ∈ server.sent p msgs, Framable (r.1, p.json.print r.2)) :
    (server.run p { input := msgs.flatMap frame }).1 = server.after p msgs ∧
    readBodies { input := (server.run p { input := msgs.flatMap frame }).2.out }
      = (server.sent p msgs).map (fun r => (r.1, p.json.print r.2)) ∧
    List.Forall₂ (fun due r => r.1 = due.1 ∧ RepliesTo due.2 r.2) (owedTo p.json msgs)
      (server.sent p msgs) := by
  have hserve := serve_session p msgs hmsgs server
    (logged { input := msgs.flatMap frame } true
      (str "megascope: server started, waiting for requests...\n")) (logged_input _ _ _)
  obtain ⟨hstate, hout⟩ := hserve
  refine ⟨hstate, ?_, sent_owed p msgs server⟩
  have hrun : (server.run p { input := msgs.flatMap frame }).2.out
      = ((server.sent p msgs).map fun r => (r.1, p.json.print r.2)).flatMap frame := by
    refine (logged_out _ _ _).trans (hout.trans ?_)
    rw [logged_out, List.flatMap_map]
    rfl
  rw [hrun]
  refine readBodies_framed _ ?_ { input := [] }
  intro m hm
  obtain ⟨r, hr, rfl⟩ := List.mem_map.mp hm
  exact hreplies r hr

/-- `{"id":1,"method":"a"}`. -/
def askText : Str := str "\x7b\"id\":1,\"method\":\"a\"\x7d"

/-- `{"method":"b"}`. -/
def noteText : Str := str "\x7b\"method\":\"b\"\x7d"

/-- A text layer that knows a request, a notification, and the replies to the request and to a
text that it cannot parse. -/
def askLayer : JsonText where
  parse text :=
    if text = askText then
      .ok (.object [field "id" (.ofNat 1), field "method" (.string (str "a"))])
    else if text = noteText then .ok (.object [field "method" (.string (str "b"))])
    else .error (str "no")
  print
    | .object [_, (_, .number _), _] =>
      str "\x7b\"error\":\x7b\"code\":-32601,\"message\":\"Unknown method: a\"\x7d,"
        ++ str "\"id\":1,\"jsonrpc\":\"2.0\"\x7d"
    | .object [_, (_, .null), _] =>
      str "\x7b\"error\":\x7b\"code\":-32700,\"message\":\"JSON parse error\"\x7d,"
        ++ str "\"id\":null,\"jsonrpc\":\"2.0\"\x7d"
    | _ => str "null"

/-- A server with no compilation database. -/
def askParams : McpParams where
  json := askLayer
  fixUTF8 := id
  version := str "0.2.0"

/-- A request, a notification, a line that is no JSON, and the request under a header. -/
def askMessages : List (McpFraming × Str) :=
  [(.newline, askText), (.newline, noteText), (.newline, str "\x7b,"), (.contentLength, askText)]

/-- The replies to the session. -/
def askReplies : List (McpFraming × Json) :=
  let unknown := Mcp.errorMessage (.ofNat 1) kMethodNotFound (str "Unknown method: a")
  [(.newline, unknown),
    (.newline, Mcp.errorMessage .null kParseError (str "JSON parse error")),
    (.contentLength, unknown)]

theorem session_answered_ask :
    (run askParams {} { input := askMessages.flatMap frame }).1 = after askParams {} askMessages ∧
    readBodies { input := (run askParams {} { input := askMessages.flatMap frame }).2.out }
      = askReplies.map (fun r => (r.1, askLayer.print r.2)) ∧
    List.Forall₂ (fun due r => r.1 = due.1 ∧ RepliesTo due.2 r.2) (owedTo askLayer askMessages)
      askReplies := by
  have hsent : sent askParams {} askMessages = askReplies := rfl
  have hmsgs : ∀ m ∈ askMessages, Framable m := by
    intro m hm
    simp only [askMessages, List.mem_cons, List.not_mem_nil, or_false] at hm
    rcases hm with rfl | rfl | rfl | rfl
    · exact ⟨⟨_, rfl⟩, by decide, by decide⟩
    · exact ⟨⟨_, rfl⟩, by decide, by decide⟩
    · exact ⟨⟨_, rfl⟩, by decide, by decide⟩
    · show askText.length < 2 ^ 31
      decide
  have hreplies : ∀ r ∈ sent askParams {} askMessages,
      Framable (r.1, askParams.json.print r.2) := by
    rw [hsent]
    intro r hr
    simp only [askReplies, List.mem_cons, List.not_mem_nil, or_false] at hr
    rcases hr with rfl | rfl | rfl
    · exact ⟨⟨_, rfl⟩, by decide, by decide⟩
    · exact ⟨⟨_, rfl⟩, by decide, by decide⟩
    · show (askParams.json.print (Mcp.errorMessage (.ofNat 1) kMethodNotFound
          (str "Unknown method: a"))).length < 2 ^ 31
      decide
  have hsession := session_answered askParams {} askMessages hmsgs hreplies
  rw [hsent] at hsession
  exact hsession

/-! ### What a message amounts to -/

/-- What a message has the server do, which does not depend on the server. -/
inductive Deed
  /-- The indexes and the cache are not looked at. -/
  | fixed (msg : Option Json) (initializes : Bool)
  | reindex (id : Json) (filePath : Str)
  | query (id : Json) (tool : ToolEntry) (handler : ToolHandler) (args : JsonObject)

/-- The deed of a `tools/call`. -/
def callDeed (p : McpParams) (id : Json) (params : JsonObject) : Deed :=
  let refused (text : Str) : Deed :=
    .fixed (some (resultMessage id (mcpTextResult text true))) false
  match params.getString (str "name") with
  | none => refused (str "Missing 'name' field in tools/call request")
  | some toolName =>
    match getRegisteredTools.find? (·.name = toolName) with
    | none => refused (str "Unknown tool: " ++ toolName)
    | some tool =>
      let args := callArguments params
      if toolName = str "reindex_tu" then
        match args.getString (str "file") with
        | none => refused (str "Missing required 'file' argument")
        | some filePath =>
          if p.compDb.isNone then
            refused (str "reindex_tu unavailable: no compilation database")
          else .reindex id filePath
      else
        match tool.handler with
        | some handler => .query id tool handler args
        | none => .fixed (some (resultMessage id .null)) false

/-- What a request is to the server. -/
def requestDeed (p : McpParams) (req : McpRequest) : Deed :=
  if req.isNotification then .fixed none (req.method = str "notifications/initialized")
  else if req.method = str "initialize" then
    .fixed (some (resultMessage req.id (handleInitialize p req.params))) false
  else if req.method = str "tools/list" then
    .fixed (some (resultMessage req.id handleToolsList)) false
  else if req.method = str "tools/call" then callDeed p req.id req.params
  else .fixed (some (Mcp.errorMessage req.id kMethodNotFound
    (str "Unknown method: " ++ req.method))) false

/-- What a body is to the server. -/
def deed (p : McpParams) (body : Str) : Deed :=
  match judge p.json body with
  | .request req => requestDeed p req
  | .malformed _ id code message => .fixed (some (Mcp.errorMessage id code (str message))) false

/-- The reply to it, and the server after it. -/
def Deed.run (p : McpParams) (server : McpServer) : Deed → Option Json × McpServer
  | fixed msg initializes =>
    (msg, if initializes then { server with initialized := true } else server)
  | reindex id filePath =>
    let (r, server) := server.reindexTU p filePath
    (some (resultMessage id (mcpTextResult (reindexText filePath r))), server)
  | query id _ handler args =>
    let (result, server) := server.callTool p handler args
    (some (resultMessage id result), server)

theorem callDeed_run (p : McpParams) (server : McpServer) (id : Json) (params : JsonObject) :
    (callDeed p id params).run p server
      = (some (resultMessage id (server.handleToolsCall p params).1),
        (server.handleToolsCall p params).2) := by
  unfold callDeed handleToolsCall
  dsimp only
  cases params.getString (str "name") with
  | none => rfl
  | some toolName =>
      dsimp only
      cases getRegisteredTools.find? (·.name = toolName) with
      | none => rfl
      | some tool =>
          dsimp only
          by_cases hreindex : toolName = str "reindex_tu"
          · rw [if_pos hreindex, if_pos hreindex]
            cases (callArguments params).getString (str "file") with
            | none => rfl
            | some filePath =>
                dsimp only
                by_cases hdb : p.compDb.isNone = true
                · rw [if_pos hdb, if_pos hdb]
                  rfl
                · rw [if_neg hdb, if_neg hdb]
                  rfl
          · rw [if_neg hreindex, if_neg hreindex]
            cases tool.handler with
            | none => rfl
            | some handler => rfl

/-- **A message is its deed.** -/
theorem reply_eq (p : McpParams) (server : McpServer) (body : Str) :
    server.reply p body = (deed p body).run p server := by
  unfold reply deed
  cases judge p.json body with
  | malformed logLine id code message => rfl
  | request req =>
      dsimp only
      unfold answer requestDeed response
      by_cases hnote : req.isNotification = true
      · rw [if_pos hnote, if_pos hnote]
        simp only [Deed.run, decide_eq_true_eq]
      · rw [if_neg hnote, if_neg hnote]
        by_cases hinit : req.method = str "initialize"
        · rw [if_pos hinit, if_pos hinit]
          rfl
        · rw [if_neg hinit, if_neg hinit]
          by_cases hlist : req.method = str "tools/list"
          · rw [if_pos hlist, if_pos hlist]
            rfl
          · rw [if_neg hlist, if_neg hlist]
            by_cases hcall : req.method = str "tools/call"
            · rw [if_pos hcall, if_pos hcall]
              exact (callDeed_run p server req.id req.params).symm
            · rw [if_neg hcall, if_neg hcall]
              rfl

/-- A query is one of a registered tool. -/
theorem deed_query {p : McpParams} {body : Str} {id : Json} {tool : ToolEntry}
    {handler : ToolHandler} {args : JsonObject} (h : deed p body = .query id tool handler args) :
    tool ∈ getRegisteredTools ∧ tool.handler = some handler := by
  unfold deed requestDeed callDeed at h
  dsimp only at h
  repeat' split at h
  all_goals first
    | exact Deed.noConfusion h
    | skip
  rename_i hfind _ _ _ hhandler
  injection h with _ htool hsame _
  subst htool
  subst hsame
  exact ⟨List.mem_of_find?_eq_some hfind, hhandler⟩

end McpServer

end Vycor
