import Mathlib.Data.Int.ConditionallyCompleteOrder
import Mathlib.Order.ConditionallyCompleteLattice.Basic
import Gol.LibraryExchanges
import Gol.LibraryFallible
import Gol.LibraryPanics

/-! The tools of an MCP server (`crates/harness/src/catalog.rs`): the frames a server sends, a session's requests, and
the calls that share one session. What the JSON parser and printer do is a parameter, and so is all that a server
does. -/

namespace Gol

/-- A JSON value. A number that is no integer of 64 bits is its text. -/
inductive Json where
  | null
  | bool (value : Bool)
  | integer (value : Int)
  | float (text : String)
  | string (text : String)
  | array (items : List Json)
  | object (fields : List (String × Json))

namespace Json

def get (key : String) : Json → Option Json
  | object fields => fields.lookup key
  | _ => none

def asI64 : Json → Option Int64
  | integer value => (Library.I64.ofInt value).toOption
  | _ => none

def asStr : Json → Option String
  | string text => some text
  | _ => none

def asBool : Json → Option Bool
  | bool value => some value
  | _ => none

def asArray : Json → Option (List Json)
  | array items => some items
  | _ => none

/-- The place in an array that a part of a pointer names. -/
def parseIndex (token : String) : Option Nat :=
  let digits := token.toList
  if digits.isEmpty || !digits.all Char.isDigit || (digits.head? = some '0' && digits.length ≠ 1) then none
  else some (digits.foldl (fun value digit => 10 * value + (digit.toNat - '0'.toNat)) 0)

def pointer : List String → Json → Option Json
  | [], value => some value
  | token :: rest, object fields => (fields.lookup token).bind (pointer rest)
  | token :: rest, array items => (parseIndex token).bind fun place => items[place]?.bind (pointer rest)
  | _ :: _, _ => none

end Json

/-- `serde_json`: the value that a line holds, and the text of a value. -/
structure JsonCodec where
  parse : List UInt8 → Except String Json
  print : Json → String

namespace Mcp
open Library Fallible

/-! ### Frames -/

/-- One line from a server, as the client that waits for the response `id` reads it. -/
inductive Frame where
  | response (value : Json)
  | skip
  | invalid (message : String)

def isAsciiWhitespace (byte : UInt8) : Bool := byte ∈ [9, 10, 12, 13, 32]

def parseFrame (codec : JsonCodec) (line : List UInt8) (id : Int64) : Frame :=
  if line.all isAsciiWhitespace then .skip else
  match codec.parse line with
  | .error error => .invalid error
  | .ok (.object fields) =>
      if (fields.lookup "method").isSome then .skip
      else if (fields.lookup "id").bind Json.asI64 = some id then .response (.object fields) else .skip
  | .ok _ => .invalid "not a JSON object"

/-- What one pass of the wait for a response meets, at its clock and then at the channel of the server's lines. -/
inductive Pass where
  | late
  | timeout
  | line (bytes : List UInt8)
  | failed (message : String)
  | disconnected

/-- Where the response `id` stood and what it holds, or the transport's failure, with the passes that are left.
Nothing left is a wait until the deadline. -/
def awaitPass (codec : JsonCodec) (id : Int64) (timeoutMs : Nat) :
    Nat → List Pass → Except String (Nat × Json) × Nat × List Pass
  | position, [] => (.error ("timed out after " ++ toString timeoutMs ++ " ms"), position, [])
  | position, .late :: feed => (.error ("timed out after " ++ toString timeoutMs ++ " ms"), position + 1, feed)
  | position, .timeout :: feed => awaitPass codec id timeoutMs (position + 1) feed
  | position, .failed message :: feed => (.error message, position + 1, feed)
  | position, .disconnected :: feed => (.error "server closed stdout", position + 1, feed)
  | position, .line bytes :: feed =>
      match parseFrame codec bytes id with
      | .response value => (.ok (position, value), position + 1, feed)
      | .skip => awaitPass codec id timeoutMs (position + 1) feed
      | .invalid message => (.error ("malformed message: " ++ message), position + 1, feed)

/-! ### A session -/

/-- Why a call failed: the server answered so, or there is no answer to use. -/
inductive McpFailure where
  | answered (message : String)
  | transport (message : String)

namespace McpFailure

def message : McpFailure → String
  | answered message => message
  | transport message => message

/-- The same failure, with the request it came from. -/
def within (request : String) : McpFailure → McpFailure
  | answered message => answered (request ++ ": " ++ message)
  | transport message => transport (request ++ ": " ++ message)

end McpFailure

inductive Fault where
  | failed (failure : McpFailure)
  | panicked (panic : Panic)

/-- What a request or a notification says. -/
structure Message where
  method : String
  params : Json

/-- The session of the server's start `number`. The passes it has met so far are `position`, those to come `feed`, and
`writes` is how its next writes fail, if they do. -/
structure McpSession where
  number : Nat
  position : Nat
  feed : List Pass
  writes : List (Option String)
  nextId : Int64
  timeoutMs : Nat
  listed : List String

/-- A session in use, with what passed since the call began. -/
structure Wire where
  session : McpSession
  traffic : List (Traffic Int Message Json)

abbrev Talk (α : Type) : Type := Fallible Wire Fault α

def note (event : Traffic Int Message Json) : Talk PUnit :=
  modify fun wire => { wire with traffic := wire.traffic ++ [event] }

/-- A failure of the transport, after which nothing of the session is used. -/
def transport {α : Type} (message : String) : Talk α := do
  let wire ← get
  note (.broke wire.session.number)
  throw (.failed (.transport message))

def answered {α : Type} (message : String) : Talk α := throw (.failed (.answered message))

def send : Talk PUnit := do
  let wire ← get
  set { wire with session := { wire.session with writes := wire.session.writes.tail } }
  match wire.session.writes.head? with
  | some (some error) => transport error
  | _ => pure ⟨⟩

def awaitResponse (codec : JsonCodec) (id : Int64) : Talk Json := do
  let wire ← get
  let (outcome, position, feed) := awaitPass codec id wire.session.timeoutMs wire.session.position wire.session.feed
  set { wire with session := { wire.session with position := position, feed := feed } }
  match outcome with
  | .error message => transport message
  | .ok (place, value) => do
      note (.answered wire.session.number place id.toInt value)
      pure value

/-- The error that a response reports. -/
def errorText (codec : JsonCodec) (error : Json) : String :=
  let message := ((error.get "message").bind Json.asStr).getD (codec.print error)
  match error.get "code" with
  | some code => message ++ " (code " ++ codec.print code ++ ")"
  | none => message

/-- The result that a response holds. -/
def resultOf (codec : JsonCodec) (value : Json) : Except String Json :=
  match value.get "error" with
  | some error => .error (errorText codec error)
  | none =>
      match value.get "result" with
      | some result => .ok result
      | none => .error "response missing result"

def request (codec : JsonCodec) (message : Message) : Talk Json := do
  let wire ← get
  let id := wire.session.nextId
  match I64.add id 1 with
  | .error panic => throw (.panicked panic)
  | .ok next => do
      set { wire with session := { wire.session with nextId := next } }
      note (.asked wire.session.number id.toInt message)
      send
      let value ← awaitResponse codec id
      match resultOf codec value with
      | .error text => answered text
      | .ok result => pure result

def notify (message : Message) : Talk PUnit := do
  let wire ← get
  note (.told wire.session.number message)
  send

/-- A failure of `talk` names the request it came from. -/
def within {α : Type} (request : String) (talk : Talk α) : Talk α :=
  tryCatch talk fun fault => match fault with
    | .failed failure => throw (.failed (failure.within request))
    | .panicked panic => throw (.panicked panic)

/-- The names a page of `tools/list` gives. -/
def pageNames (page : Json) : Option (List String) :=
  ((page.get "tools").bind Json.asArray).bind fun tools => tools.mapM fun tool => (tool.get "name").bind Json.asStr

def listMessage (cursor : Option String) : Message :=
  ⟨"tools/list", .object (match cursor with
    | some cursor => [("cursor", .string cursor)]
    | none => [])⟩

def maxToolPages : Nat := 16

/-- Every tool name on at most `pages` pages from `cursor` on, after `names`. -/
def listPages (codec : JsonCodec) : Nat → Option String → List String → Talk (List String)
  | 0, _, _ => transport ("tools/list: more than " ++ toString maxToolPages ++ " pages")
  | pages + 1, cursor, names => do
      let page ← within "tools/list" (request codec (listMessage cursor))
      match pageNames page with
      | none => transport "tools/list: malformed result"
      | some listed =>
          match (page.get "nextCursor").bind Json.asStr with
          | some next => listPages codec pages (some next) (names ++ listed)
          | none => pure (names ++ listed)

def listTools (codec : JsonCodec) : Talk (List String) := listPages codec maxToolPages none []

def initializeMessage : Message :=
  ⟨"initialize", .object [("protocolVersion", .string "2024-11-05"), ("capabilities", .object []),
    ("clientInfo", .object [("name", .string "gol"), ("version", .string "0.1.0")])]⟩

def initializedMessage : Message := ⟨"notifications/initialized", .object []⟩

/-- What the start of a session says once the server runs. -/
def start (codec : JsonCodec) : Talk PUnit := do
  let _ ← request codec initializeMessage
  notify initializedMessage
  let listed ← listTools codec
  modify fun wire => { wire with session := { wire.session with listed := listed } }

def callMessage (name input : String) : Message :=
  ⟨"tools/call", .object [("name", .string name), ("arguments", .object [("input", .string input)])]⟩

/-- The text of a tool's result. A failed tool is a result with `isError`. -/
def textOf (result : Json) : Except String String :=
  match (result.pointer ["content", "0", "text"]).bind Json.asStr with
  | none => .error "tools/call missing text"
  | some text => if (result.get "isError").bind Json.asBool = some true then .error text else .ok text

def McpSession.call (codec : JsonCodec) (name input : String) : Talk String := do
  let result ← request codec (callMessage name input)
  match textOf result with
  | .error text => answered text
  | .ok text => pure text

/-! ### Calls -/

/-- How a server's process starts: not at all, without its pipes, or with what its session's passes meet and how its
writes fail. -/
inductive Launch where
  | refused (error : String)
  | noStdio
  | process (feed : List Pass) (writes : List (Option String))

/-- A server of the catalog, and how each of its starts goes. -/
structure McpServer where
  name : String
  command : String
  timeoutMs : Nat
  launch : Nat → Launch

/-- The session in use, after `starts` starts of the server. -/
structure PendingMcp where
  live : Option McpSession
  starts : Nat

/-- How a call ended, what it left, and what passed. -/
abbrev CallEnd : Type := Panics (Except String String) × PendingMcp × List (Traffic Int Message Json)

def PendingMcp.callOn (codec : JsonCodec) (pending : PendingMcp) (wire : Wire) (name input : String) : CallEnd :=
  if name ∉ wire.session.listed then
    (.ok (.error "not listed by the server"), { pending with live := some wire.session }, wire.traffic)
  else
    match (McpSession.call codec name input).run.run wire with
    | (.ok text, wire) => (.ok (.ok text), { pending with live := some wire.session }, wire.traffic)
    | (.error (.failed (.answered message)), wire) =>
        (.ok (.error message), { pending with live := some wire.session }, wire.traffic)
    | (.error (.failed (.transport message)), wire) =>
        (.ok (.error message), { pending with live := none }, wire.traffic)
    | (.error (.panicked panic), wire) => (.error panic, { pending with live := some wire.session }, wire.traffic)

def PendingMcp.call (codec : JsonCodec) (server : McpServer) (pending : PendingMcp) (name input : String) : CallEnd :=
  match pending.live with
  | some session => pending.callOn codec ⟨session, []⟩ name input
  | none =>
      let started : PendingMcp := ⟨none, pending.starts + 1⟩
      match server.launch pending.starts with
      | .refused error =>
          (.ok (.error ("spawn " ++ server.command ++ " for " ++ server.name ++ ": " ++ error)), started, [])
      | .noStdio => (.ok (.error "no stdio"), started, [])
      | .process feed writes =>
          let session : McpSession := ⟨pending.starts, 0, feed, writes, 1, server.timeoutMs, []⟩
          match (start codec).run.run ⟨session, [.opened pending.starts]⟩ with
          | (.ok _, wire) => started.callOn codec wire name input
          | (.error (.failed failure), wire) => (.ok (.error failure.message), started, wire.traffic)
          | (.error (.panicked panic), wire) => (.error panic, started, wire.traffic)

/-- What the tools of a server share, behind a lock that a panic poisons. -/
structure SharedMcp where
  pending : PendingMcp
  poisoned : Bool

def SharedMcp.new : SharedMcp := ⟨⟨none, 0⟩, false⟩

/-- One call as it went. -/
structure Called where
  name : String
  input : String
  before : SharedMcp
  after : SharedMcp
  result : Panics (Except String String)
  traffic : List (Traffic Int Message Json)

def McpTool.call (codec : JsonCodec) (server : McpServer) (shared : SharedMcp) (name input : String) : Called :=
  let failed (error : String) := "mcp " ++ server.name ++ "." ++ name ++ ": " ++ error
  if shared.poisoned then ⟨name, input, shared, shared, .ok (.error (failed "session lock poisoned")), []⟩
  else
    match shared.pending.call codec server name input with
    | (.error panic, pending, traffic) => ⟨name, input, shared, ⟨pending, true⟩, .error panic, traffic⟩
    | (.ok result, pending, traffic) => ⟨name, input, shared, ⟨pending, false⟩, .ok (result.mapError failed), traffic⟩

/-- Calls of a server's tools, each by its name and input, one after another. -/
def McpServer.calls (codec : JsonCodec) (server : McpServer) : SharedMcp → List (String × String) → List Called
  | _, [] => []
  | shared, (name, input) :: rest =>
      let called := McpTool.call codec server shared name input
      called :: McpServer.calls codec server called.after rest

/-! ### What passes -/

/-- What the passes of the server's start `number` meet. -/
def McpServer.feed (server : McpServer) (number : Nat) : List Pass :=
  match server.launch number with
  | .process feed _ => feed
  | _ => []

/-- The response `id`: an object without a method whose `id` is that number. -/
def IsResponse (id : Int) (value : Json) : Prop :=
  ∃ fields word, value = .object fields ∧ fields.lookup "method" = none ∧
    (fields.lookup "id").bind Json.asI64 = some word ∧ word.toInt = id

/-- A tool's call needs a page of the session's tools that names it. -/
def terms (codec : JsonCodec) (server : McpServer) : Terms Int Message Json where
  answers number position id value := IsResponse id value ∧
    ∃ bytes, (server.feed number)[position]? = some (.line bytes) ∧ codec.parse bytes = .ok value
  free message := message.method ≠ "tools/call"
  opens listing answer message := listing.method = "tools/list" ∧ ∃ page names name input,
    resultOf codec answer = .ok page ∧ pageNames page = some names ∧ name ∈ names ∧ message = callMessage name input

variable {codec : JsonCodec} {server : McpServer} {id : Int64} {message : Message} {wire : Wire}

theorem parseFrame_response {line : List UInt8} {value : Json} (h : parseFrame codec line id = .response value) :
    codec.parse line = .ok value ∧ IsResponse id.toInt value := by
  rw [parseFrame] at h
  split at h
  · cases h
  · split at h
    · cases h
    · rename_i fields hparse
      split at h
      · cases h
      · rename_i hmethod
        split at h
        · rename_i hid
          cases h
          exact ⟨hparse, fields, id, rfl, Option.not_isSome_iff_eq_none.mp hmethod, hid, rfl⟩
        · cases h
    · cases h

/-- A wait reads on, and a response is the line at the last place it read. -/
theorem awaitPass_reads (codec : JsonCodec) (id : Int64) (timeoutMs : Nat) {position : Nat} {feed all : List Pass}
    (hfeed : feed = all.drop position) :
    let (outcome, reached, rest) := awaitPass codec id timeoutMs position feed
    position ≤ reached ∧ rest = all.drop reached ∧ ∀ place value, outcome = .ok (place, value) →
      position ≤ place ∧ reached = place + 1 ∧ IsResponse id.toInt value ∧
        ∃ bytes, all[place]? = some (.line bytes) ∧ codec.parse bytes = .ok value := by
  induction feed generalizing position with
  | nil => exact ⟨le_rfl, hfeed, nofun⟩
  | cons pass feed ih =>
      have hhere : all[position]? = some pass := by
        rw [← List.head?_drop, ← hfeed]
        rfl
      have hnext : feed = all.drop (position + 1) := by
        rw [← List.tail_drop, ← hfeed]
        rfl
      have hon : let (outcome, reached, rest) := awaitPass codec id timeoutMs (position + 1) feed
          position ≤ reached ∧ rest = all.drop reached ∧ ∀ place value, outcome = .ok (place, value) →
            position ≤ place ∧ reached = place + 1 ∧ IsResponse id.toInt value ∧
              ∃ bytes, all[place]? = some (.line bytes) ∧ codec.parse bytes = .ok value := by
        obtain ⟨hreached, hrest, hok⟩ := ih hnext
        refine ⟨by omega, hrest, fun place value hvalue => ?_⟩
        obtain ⟨hplace, hright⟩ := hok place value hvalue
        exact ⟨by omega, hright⟩
      cases pass with
      | late => exact ⟨Nat.le_succ _, hnext, nofun⟩
      | timeout => exact hon
      | failed message => exact ⟨Nat.le_succ _, hnext, nofun⟩
      | disconnected => exact ⟨Nat.le_succ _, hnext, nofun⟩
      | line bytes =>
          cases hframe : parseFrame codec bytes id with
          | skip => simpa only [awaitPass, hframe] using hon
          | invalid message =>
              simp only [awaitPass, hframe]
              exact ⟨Nat.le_succ _, hnext, nofun⟩
          | response value =>
              obtain ⟨hparse, hresponse⟩ := parseFrame_response hframe
              simp only [awaitPass, hframe]
              refine ⟨Nat.le_succ _, hnext, fun place found hfound => ?_⟩
              cases hfound
              exact ⟨le_rfl, rfl, hresponse, bytes, hhere, hparse⟩

/-! ### One request -/

variable {α : Type}

theorem ends_note {event : Traffic Int Message Json} {post : Except Fault PUnit → Wire → Prop} :
    Ends (note event) wire post ↔ post (.ok ⟨⟩) { wire with traffic := wire.traffic ++ [event] } := Iff.rfl

theorem ends_transport {text : String} {post : Except Fault α → Wire → Prop} :
    Ends (transport text) wire post ↔ post (.error (.failed (.transport text)))
      { wire with traffic := wire.traffic ++ [.broke wire.session.number] } := Iff.rfl

theorem send_ends {post : Except Fault PUnit → Wire → Prop} :
    Ends send wire post ↔
      let sent : Wire := { wire with session := { wire.session with writes := wire.session.writes.tail } }
      match wire.session.writes.head? with
      | some (some error) => post (.error (.failed (.transport error)))
          { sent with traffic := wire.traffic ++ [.broke wire.session.number] }
      | _ => post (.ok ⟨⟩) sent := by
  simp only [send, ends_bind, ends_get, ends_set]
  split <;> rfl

/-- How a request ends: its id does not fit, the transport fails after it, or its response stands after it. -/
inductive Requested (codec : JsonCodec) (server : McpServer) (message : Message) (wire : Wire) :
    Except Fault Json → Wire → Prop where
  | panicked (panic) : Requested codec server message wire (.error (.panicked panic)) wire
  | lost (text session) : session.number = wire.session.number →
      Requested codec server message wire (.error (.failed (.transport text)))
        ⟨session, wire.traffic ++ [.asked wire.session.number wire.session.nextId.toInt message] ++
          [.broke wire.session.number]⟩
  | met (place value session) : session.number = wire.session.number → session.listed = wire.session.listed →
      wire.session.nextId.toInt < session.nextId.toInt → wire.session.position ≤ place → session.position = place + 1 →
      session.feed = (server.feed wire.session.number).drop session.position →
      (terms codec server).answers wire.session.number place wire.session.nextId.toInt value →
      Requested codec server message wire ((resultOf codec value).mapError fun text => .failed (.answered text))
        ⟨session, wire.traffic ++ [.asked wire.session.number wire.session.nextId.toInt message] ++
          [.answered wire.session.number place wire.session.nextId.toInt value]⟩

theorem awaitResponse_ends {post : Except Fault Json → Wire → Prop}
    (hfeed : wire.session.feed = (server.feed wire.session.number).drop wire.session.position)
    (hlost : ∀ text position feed, post (.error (.failed (.transport text)))
      ⟨{ wire.session with position := position, feed := feed }, wire.traffic ++ [.broke wire.session.number]⟩)
    (hmet : ∀ place value feed, wire.session.position ≤ place →
      feed = (server.feed wire.session.number).drop (place + 1) →
      (terms codec server).answers wire.session.number place id.toInt value →
      post (.ok value) ⟨{ wire.session with position := place + 1, feed := feed },
        wire.traffic ++ [.answered wire.session.number place id.toInt value]⟩) :
    Ends (awaitResponse codec id) wire post := by
  have hreads := awaitPass_reads codec id wire.session.timeoutMs hfeed
  simp only [awaitResponse, ends_bind, ends_get]
  generalize awaitPass codec id wire.session.timeoutMs wire.session.position wire.session.feed = awaited at hreads
  obtain ⟨outcome, position, feed⟩ := awaited
  obtain ⟨-, hrest, hok⟩ := hreads
  cases outcome with
  | error text => exact hlost text position feed
  | ok found =>
      obtain ⟨place, value⟩ := found
      obtain ⟨hplace, rfl, hresponse, hline⟩ := hok place value rfl
      exact hmet place value feed hplace hrest ⟨hresponse, hline⟩

theorem add_one_lt {word next : Int64} (h : I64.add word 1 = .ok next) : word.toInt < next.toInt := by
  have hrange : -2 ^ 63 ≤ word.toInt + (1 : Int64).toInt ∧ word.toInt + (1 : Int64).toInt < 2 ^ 63 := by
    by_contra hout
    rw [I64.add, I64.ofInt, if_neg hout] at h
    cases h
  obtain ⟨sum, hsum, hvalue⟩ := I64.ofInt_eq _ hrange
  rw [I64.add, hsum, Except.ok.injEq] at h
  have hone : (1 : Int64).toInt = 1 := by decide
  rw [← h, hvalue, hone]
  exact Int.lt_succ _

theorem request_ends (hfeed : wire.session.feed = (server.feed wire.session.number).drop wire.session.position) :
    Ends (request codec message) wire (Requested codec server message wire) := by
  simp only [request, ends_bind, ends_get]
  cases hnext : I64.add wire.session.nextId 1 with
  | error panic => exact .panicked panic
  | ok next =>
      have hlt := add_one_lt hnext
      simp only [ends_bind, ends_set, ends_note, send_ends]
      split
      · exact .lost _ _ rfl
      · refine awaitResponse_ends hfeed (fun text position feed => .lost text _ rfl)
          fun place value feed hplace hrest hanswers => ?_
        have hmet : Requested codec server message wire _ _ := .met place value
          { wire.session with writes := wire.session.writes.tail, nextId := next, position := place + 1, feed := feed }
          rfl rfl hlt hplace rfl hrest hanswers
        cases hresult : resultOf codec value with
        | error text => simp only [hresult] at hmet ⊢; exact hmet
        | ok result => simp only [hresult] at hmet ⊢; exact hmet

/-! ### A session's client -/

variable {before : Client Int Message} {number : Nat} {names : List String}

/-- The client of a session in use, which may call the tools `names`. -/
structure Linked (server : McpServer) (session : McpSession) (names : List String)
    (client : Client Int Message) : Prop where
  next : client.next = session.number + 1
  idle : client.phase = .idle
  last : ∀ last, client.last = some last → last < session.nextId.toInt
  read : client.read ≤ session.position
  feed : session.feed = (server.feed session.number).drop session.position
  free : ∀ message : Message, message.method ≠ "tools/call" → client.granted message
  named : ∀ name ∈ names, ∀ input, client.granted (callMessage name input)

/-- What passed since `before` keeps to the terms, and the session `number` is in use. -/
def Kept (codec : JsonCodec) (server : McpServer) (before : Client Int Message) (number : Nat) (names : List String)
    (wire : Wire) : Prop :=
  wire.session.number = number ∧ (∀ session, .broke session ∉ wire.traffic) ∧
    ∃ client, before.Runs (terms codec server) wire.traffic client ∧ Linked server wire.session names client

/-- What passed since `before` keeps to the terms, and the session `number` is over. -/
def Lost (codec : JsonCodec) (server : McpServer) (before : Client Int Message) (number : Nat) (wire : Wire) : Prop :=
  ∃ client, before.Runs (terms codec server) wire.traffic client ∧ client.phase = .closed ∧ client.next = number + 1

/-- A session is over exactly when its transport failed. -/
def Settled (codec : JsonCodec) (server : McpServer) (before : Client Int Message) (number : Nat) (names : List String)
    (done : α → Wire → Prop) (outcome : Except Fault α) (wire : Wire) : Prop :=
  match outcome with
  | .ok value => Kept codec server before number names wire ∧ done value wire
  | .error (.failed (.transport _)) => Lost codec server before number wire
  | .error _ => Kept codec server before number names wire

theorem Kept.broke (h : Kept codec server before number names wire) :
    Lost codec server before number { wire with traffic := wire.traffic ++ [.broke number] } := by
  obtain ⟨hnumber, -, client, hruns, hlinked⟩ := h
  have hnext : client.next = number + 1 := hnumber ▸ hlinked.next
  have hopen : client.phase ≠ .closed := fun hclosed => by simp [hlinked.idle] at hclosed
  exact ⟨_, Client.runs_snoc.mpr ⟨client, hruns, .broke hnext hopen⟩, rfl, hnext⟩

theorem Kept.transport_ends (h : Kept codec server before number names wire) (text : String) {done : α → Wire → Prop} :
    Ends (transport text) wire (Settled codec server before number names done) := by
  rw [ends_transport, h.1]
  exact h.broke

/-- A request that its session's client may make keeps to the terms. -/
theorem Kept.requested (h : Kept codec server before number names wire)
    (hgranted : message.method ≠ "tools/call" ∨ ∃ name ∈ names, ∃ input, message = callMessage name input)
    {outcome : Except Fault Json} {after : Wire} (hends : Requested codec server message wire outcome after) :
    Settled codec server before number names (fun result after => ∀ listed, message.method = "tools/list" →
      pageNames result = some listed → Kept codec server before number (names ++ listed) after) outcome after := by
  have hkept := h
  obtain ⟨rfl, hwhole, client, hruns, hlinked⟩ := h
  have hleave : client.granted message := by
    rcases hgranted with hfree | ⟨name, hname, input, rfl⟩
    · exact hlinked.free message hfree
    · exact hlinked.named name hname input
  have hasked := Client.runs_snoc.mpr ⟨client, hruns, .asked hlinked.next hlinked.idle hlinked.last hleave⟩
  cases hends with
  | panicked panic => exact hkept
  | lost text session hnumber =>
      exact ⟨_, Client.runs_snoc.mpr ⟨_, hasked, .broke hlinked.next nofun⟩, rfl, hlinked.next⟩
  | met place value session hnumber hlisted hlt hplace hposition hfeed hanswers =>
      have hruns := Client.runs_snoc.mpr ⟨_, hasked, .answered hlinked.next rfl (hlinked.read.trans hplace) hanswers⟩
      have hafter (more : List String) (hmore : ∀ name ∈ more, ∀ input,
          (terms codec server).opens message value (callMessage name input)) :
          Kept codec server before wire.session.number (names ++ more) ⟨session, wire.traffic ++
            [.asked wire.session.number wire.session.nextId.toInt message] ++
            [.answered wire.session.number place wire.session.nextId.toInt value]⟩ := by
        refine ⟨hnumber, by simpa using hwhole, _, hruns, ?_, rfl, ?_, hposition.ge, ?_,
          fun message hfree => .inl (hlinked.free message hfree), ?_⟩
        · rw [hnumber]; exact hlinked.next
        · intro last hlast; cases hlast; exact hlt
        · rw [hnumber]; exact hfeed
        · intro name hname input
          rcases List.mem_append.mp hname with hname | hname
          · exact .inl (hlinked.named name hname input)
          · exact .inr (hmore name hname input)
      have hsame := hafter [] nofun
      rw [List.append_nil] at hsame
      cases hresult : resultOf codec value with
      | error text => exact hsame
      | ok result =>
          refine ⟨hsame, fun listed hmethod hpage => hafter listed fun name hname input => ?_⟩
          exact ⟨hmethod, result, listed, name, input, hresult, hpage, hname, rfl⟩

theorem Kept.request_ends (h : Kept codec server before number names wire)
    (hgranted : message.method ≠ "tools/call" ∨ ∃ name ∈ names, ∃ input, message = callMessage name input) :
    Ends (request codec message) wire (Settled codec server before number names fun result after => ∀ listed,
      message.method = "tools/list" → pageNames result = some listed →
        Kept codec server before number (names ++ listed) after) := by
  have hfeed : wire.session.feed = (server.feed wire.session.number).drop wire.session.position := by
    obtain ⟨-, -, client, -, hlinked⟩ := h
    exact hlinked.feed
  exact (Mcp.request_ends hfeed).mono fun _ _ hends => h.requested hgranted hends

theorem Kept.notify_ends (h : Kept codec server before number names wire) (message : Message) :
    Ends (notify message) wire (Settled codec server before number names fun _ _ => True) := by
  obtain ⟨rfl, hwhole, client, hruns, hlinked⟩ := h
  have htold : before.Runs (terms codec server) (wire.traffic ++ [.told wire.session.number message]) client :=
    Client.runs_snoc.mpr ⟨client, hruns, .told hlinked.next hlinked.idle⟩
  have hkept : ∀ session : McpSession, session = { wire.session with writes := session.writes } →
      Kept codec server before wire.session.number names
        ⟨session, wire.traffic ++ [.told wire.session.number message]⟩ := by
    rintro session hsession
    rw [hsession]
    exact ⟨rfl, by simpa using hwhole, client, htold, hlinked.next, hlinked.idle, hlinked.last, hlinked.read,
      hlinked.feed, hlinked.free, hlinked.named⟩
  simp only [notify, ends_bind, ends_get, ends_note, send_ends]
  split
  · exact (hkept { wire.session with writes := wire.session.writes.tail } rfl).broke
  · exact ⟨hkept { wire.session with writes := wire.session.writes.tail } rfl, trivial⟩

theorem within_settled {talk : Talk α} {done : α → Wire → Prop} (text : String)
    (h : Ends talk wire (Settled codec server before number names done)) :
    Ends (within text talk) wire (Settled codec server before number names done) := by
  rw [within, ends_tryCatch]
  refine h.mono fun outcome next hsettled => ?_
  rcases outcome with (((text | text) | panic) | value)
  · exact hsettled
  · exact hsettled
  · exact hsettled
  · exact hsettled

theorem listMessage_free (cursor : Option String) : (listMessage cursor).method ≠ "tools/call" := by
  show "tools/list" ≠ "tools/call"
  decide

theorem Kept.listPages_ends {listed : List String} (pages : Nat) (cursor : Option String)
    (h : Kept codec server before number listed wire) :
    Ends (listPages codec pages cursor listed) wire fun outcome after => ∃ reached,
      Settled codec server before number reached
        (fun names after => Kept codec server before number names after) outcome
        after := by
  induction pages generalizing cursor listed wire with
  | zero => exact ⟨listed, h.transport_ends _⟩
  | succ pages ih =>
      simp only [listPages, ends_bind]
      refine (within_settled "tools/list" (h.request_ends (.inl (listMessage_free cursor)))).mono ?_
      intro outcome after hsettled
      rcases outcome with (((text | text) | panic) | page)
      · exact ⟨listed, hsettled⟩
      · exact ⟨listed, hsettled⟩
      · exact ⟨listed, hsettled⟩
      · obtain ⟨hkept, hmore⟩ := hsettled
        cases hnames : pageNames page with
        | none =>
            simp only [hnames]
            exact ⟨listed, hkept.transport_ends _⟩
        | some more =>
            have hgrown := hmore more rfl hnames
            cases hcursor : (page.get "nextCursor").bind Json.asStr with
            | some next => simpa only [hnames, hcursor] using ih (some next) hgrown
            | none => simp only [hnames, hcursor, ends_pure]; exact ⟨_, hgrown, hgrown⟩

theorem Kept.start_ends (h : Kept codec server before number [] wire) :
    Ends (start codec) wire fun outcome after => ∃ names, Settled codec server before number names
      (fun _ after => Kept codec server before number after.session.listed after) outcome after := by
  simp only [start, listTools, ends_bind, ends_modify]
  refine (h.request_ends (.inl (by decide))).mono fun outcome after hsettled => ?_
  rcases outcome with (((text | text) | panic) | page)
  · exact ⟨[], hsettled⟩
  · exact ⟨[], hsettled⟩
  · exact ⟨[], hsettled⟩
  refine (hsettled.1.notify_ends initializedMessage).mono fun outcome after hsettled => ?_
  rcases outcome with (((text | text) | panic) | page)
  · exact ⟨[], hsettled⟩
  · exact ⟨[], hsettled⟩
  · exact ⟨[], hsettled⟩
  refine (hsettled.1.listPages_ends maxToolPages none).mono fun outcome after hends => ?_
  obtain ⟨reached, hsettled⟩ := hends
  rcases outcome with (((text | text) | panic) | names)
  · exact ⟨reached, hsettled⟩
  · exact ⟨reached, hsettled⟩
  · exact ⟨reached, hsettled⟩
  obtain ⟨hnumber, hwhole, client, hruns, hlinked⟩ := hsettled.2
  have hkept : Kept codec server before number names { after with session := { after.session with listed := names } } :=
    ⟨hnumber, hwhole, client, hruns, hlinked.next, hlinked.idle, hlinked.last, hlinked.read, hlinked.feed, hlinked.free,
      hlinked.named⟩
  exact ⟨names, hkept, hkept⟩

theorem call_ends (codec : JsonCodec) (name input : String)
    (hfeed : wire.session.feed = (server.feed wire.session.number).drop wire.session.position) :
    Ends (McpSession.call codec name input) wire fun outcome after => ∃ requested,
      Requested codec server (callMessage name input) wire requested after ∧
      outcome = requested.bind fun result => (textOf result).mapError fun text => .failed (.answered text) := by
  rw [McpSession.call, ends_bind]
  refine (request_ends hfeed).mono fun requested after hends => ?_
  cases requested with
  | error fault => exact ⟨_, hends, rfl⟩
  | ok result =>
      cases htext : textOf result with
      | error text => simp only [htext]; exact ⟨_, hends, by simp only [Except.bind, htext]; rfl⟩
      | ok text => simp only [htext]; exact ⟨_, hends, by simp only [Except.bind, htext]; rfl⟩

/-! ### What a session asks -/

/-- What is asked after `wire` is all allowed. -/
def AsksOnly (allowed : Message → Prop) (wire after : Wire) : Prop :=
  ∀ session id message, .asked session id message ∈ after.traffic → .asked session id message ∈ wire.traffic ∨
    allowed message

variable {allowed : Message → Prop}

theorem AsksOnly.append {session : McpSession} {events : List (Traffic Int Message Json)}
    (h : ∀ session id message, .asked session id message ∈ events → allowed message) :
    AsksOnly allowed wire ⟨session, wire.traffic ++ events⟩ := by
  intro number id message hasked
  rcases List.mem_append.mp hasked with hbefore | hlater
  · exact .inl hbefore
  · exact .inr (h number id message hlater)

theorem AsksOnly.refl (wire : Wire) : AsksOnly allowed wire wire := fun _ _ _ hasked => .inl hasked

theorem AsksOnly.trans (wire middle after : Wire) (hfirst : AsksOnly allowed wire middle)
    (hsecond : AsksOnly allowed middle after) : AsksOnly allowed wire after := by
  intro session id message hasked
  rcases hsecond session id message hasked with hmiddle | hallowed
  · exact hfirst session id message hmiddle
  · exact .inr hallowed

theorem transport_asks (text : String) : Moves (AsksOnly allowed) (transport text : Talk α) := by
  intro wire
  rw [ends_transport]
  exact AsksOnly.append (by simp)

theorem send_asks : Moves (AsksOnly allowed) send := by
  intro wire
  rw [send_ends]
  dsimp only
  split
  · exact AsksOnly.append (by simp)
  · exact AsksOnly.refl _

theorem awaitResponse_asks (id : Int64) : Moves (AsksOnly allowed) (awaitResponse codec id) := by
  intro wire
  simp only [awaitResponse, ends_bind, ends_get, ends_set]
  split
  · exact transport_asks _ _
  · exact AsksOnly.append (by simp)

theorem request_asks (h : allowed message) : Moves (AsksOnly allowed) (request codec message) := by
  intro wire
  simp only [request]
  rw [ends_bind, ends_get]
  dsimp only
  cases I64.add wire.session.nextId 1 with
  | error panic => exact AsksOnly.refl wire
  | ok next =>
      have hrest : Moves (AsksOnly allowed) (do
          send
          let value ← awaitResponse codec wire.session.nextId
          match resultOf codec value with
          | .error text => answered text
          | .ok result => pure result : Talk Json) := by
        refine send_asks.bind AsksOnly.trans fun _ => (awaitResponse_asks _).bind AsksOnly.trans fun value => ?_
        cases resultOf codec value with
        | error text => exact fun wire => AsksOnly.refl wire
        | ok result => exact fun wire => AsksOnly.refl wire
      rw [ends_bind, ends_set]
      dsimp only
      rw [ends_bind, ends_note]
      refine (hrest _).mono fun outcome after hlater => AsksOnly.trans _ _ _ (AsksOnly.append ?_) hlater
      intro session id other hasked
      cases List.mem_singleton.mp hasked
      exact h

theorem notify_asks (notice : Message) : Moves (AsksOnly allowed) (notify notice) := by
  intro wire
  rw [notify, ends_bind, ends_get]
  dsimp only
  rw [ends_bind, ends_note]
  exact (send_asks _).mono fun _ _ hlater => AsksOnly.trans _ _ _ (AsksOnly.append (by simp)) hlater

theorem listPages_asks (pages : Nat) (cursor : Option String) (names : List String) :
    Moves (AsksOnly fun message => message.method ≠ "tools/call") (listPages codec pages cursor names) := by
  induction pages generalizing cursor names with
  | zero => exact transport_asks _
  | succ pages ih =>
      have hpage : Moves (AsksOnly fun message => message.method ≠ "tools/call")
          (within "tools/list" (request codec (listMessage cursor))) :=
        (request_asks (listMessage_free cursor)).tryCatch AsksOnly.trans fun fault => by
          cases fault <;> exact fun wire => AsksOnly.refl wire
      refine hpage.bind AsksOnly.trans fun page => ?_
      cases pageNames page with
      | none => exact transport_asks _
      | some listed =>
          cases hcursor : (page.get "nextCursor").bind Json.asStr with
          | some next => exact ih (some next) (names ++ listed)
          | none => exact fun wire => AsksOnly.refl wire

/-- The start of a session calls no tool. -/
theorem start_asks (codec : JsonCodec) :
    Moves (AsksOnly fun message => message.method ≠ "tools/call") (start codec) := by
  refine (request_asks (by decide)).bind AsksOnly.trans fun _ => ?_
  refine (notify_asks _).bind AsksOnly.trans fun _ => ?_
  exact (listPages_asks _ _ _).bind AsksOnly.trans fun listed wire => AsksOnly.refl wire

/-! ### One call -/

variable {pending : PendingMcp} {client : Client Int Message} {name input : String}

/-- The client between two calls. -/
structure Standing (server : McpServer) (pending : PendingMcp) (client : Client Int Message) : Prop where
  next : client.next ≤ pending.starts
  settled : ∀ id message, client.phase ≠ .waiting id message
  live : ∀ session, pending.live = some session → Linked server session session.listed client

/-- What a call does to the sessions, and where its text comes from. -/
structure Leaves (codec : JsonCodec) (server : McpServer) (before : Client Int Message) (name input : String)
    (ended : CallEnd) : Prop where
  runs : ∃ client, before.Runs (terms codec server) ended.2.2 client ∧ Standing server ended.2.1 client
  asks : ∀ session id message, .asked session id message ∈ ended.2.2 → message.method = "tools/call" →
    message = callMessage name input
  text : ∀ text, ended.1 = .ok (.ok text) → ∃ earlier session id place value result,
    ended.2.2 = earlier ++ [.asked session id (callMessage name input)] ++ [.answered session place id value] ∧
      resultOf codec value = .ok result ∧ textOf result = .ok text
  dropped : ∀ session, .broke session ∈ ended.2.2 → ended.2.1.live = none

theorem Linked.standing {session : McpSession} (h : Linked server session session.listed client)
    (hnumber : session.number < pending.starts) (hlive : pending.live = some session) :
    Standing server pending client where
  next := by rw [h.next]; exact hnumber
  settled id message := by rw [h.idle]; nofun
  live other hother := by
    obtain rfl : session = other := Option.some.inj (hlive.symm.trans hother)
    exact h

theorem Kept.callOn_leaves (h : Kept codec server before number wire.session.listed wire)
    (hnumber : number < pending.starts)
    (hasks : ∀ session id message, .asked session id message ∈ wire.traffic → message.method ≠ "tools/call") :
    Leaves codec server before name input (pending.callOn codec wire name input) := by
  rw [PendingMcp.callOn]
  split
  · obtain ⟨rfl, hwhole, client, hruns, hlinked⟩ := h
    exact ⟨⟨client, hruns, hlinked.standing hnumber rfl⟩,
      fun session id message hasked hcall => absurd hcall (hasks _ _ _ hasked), (fun _ h => by cases h),
      fun session hbroke => absurd hbroke (hwhole session)⟩
  · rename_i hlisted
    rw [not_not] at hlisted
    have hfeed : wire.session.feed = (server.feed wire.session.number).drop wire.session.position := by
      obtain ⟨-, -, client, -, hlinked⟩ := h
      exact hlinked.feed
    have hends := call_ends codec name input hfeed
    rw [Ends] at hends
    generalize (McpSession.call codec name input).run.run wire = ended at hends
    obtain ⟨outcome, after⟩ := ended
    obtain ⟨requested, hrequested, rfl⟩ := hends
    have hsettled := h.requested (.inr ⟨name, hlisted, input, rfl⟩) hrequested
    have hcalls : ∀ event, (∀ session id message, event ≠ .asked session id message) → ∀ session id message,
        .asked session id message ∈ wire.traffic ++
          [.asked wire.session.number wire.session.nextId.toInt (callMessage name input)] ++ [event] →
          message.method = "tools/call" → message = callMessage name input := by
      intro event hevent session id message hasked hcall
      simp only [List.mem_append, List.mem_singleton] at hasked
      rcases hasked with (hbefore | hcalled) | hlast
      · exact absurd hcall (hasks _ _ _ hbefore)
      · cases hcalled; rfl
      · exact absurd hlast.symm (hevent _ _ _)
    cases hrequested with
    | panicked panic =>
        obtain ⟨rfl, hwhole, client, hruns, hlinked⟩ := h
        exact ⟨⟨client, hruns, hlinked.standing hnumber rfl⟩,
          fun session id message hasked hcall => absurd hcall (hasks _ _ _ hasked), (fun _ h => by cases h),
          fun session hbroke => absurd hbroke (hwhole session)⟩
    | lost text session hsame =>
        obtain ⟨client, hruns, hclosed, hnext⟩ := hsettled
        refine ⟨⟨client, hruns, hnext.trans_le hnumber, fun id message => ?_, (fun _ h => by cases h)⟩,
          hcalls _ (by simp), (fun _ h => by cases h), fun _ _ => rfl⟩
        rw [hclosed]
        simp
    | met place value session hsame hlisted hlt hplace hposition hfeed hanswers =>
        have hkept : Kept codec server before number wire.session.listed ⟨session, wire.traffic ++
            [.asked wire.session.number wire.session.nextId.toInt (callMessage name input)] ++
            [.answered wire.session.number place wire.session.nextId.toInt value]⟩ := by
          cases hresult : resultOf codec value with
          | error text => rw [hresult] at hsettled; exact hsettled
          | ok result => rw [hresult] at hsettled; exact hsettled.1
        obtain ⟨rfl, hwhole, client, hruns, hlinked⟩ := hkept
        rw [← hlisted] at hlinked
        have hstanding : Standing server ⟨some session, pending.starts⟩ client := hlinked.standing hnumber rfl
        cases hresult : resultOf codec value with
        | error text =>
            exact ⟨⟨client, hruns, hstanding⟩, hcalls _ (by simp), (fun _ h => by cases h),
              fun session hbroke => absurd hbroke (hwhole session)⟩
        | ok result =>
            cases htext : textOf result with
            | error text =>
                simp only [Except.mapError, Except.bind, htext]
                exact ⟨⟨client, hruns, hstanding⟩, hcalls _ (by simp), (fun _ h => by cases h),
                  fun session hbroke => absurd hbroke (hwhole session)⟩
            | ok text =>
                simp only [Except.mapError, Except.bind, htext]
                refine ⟨⟨client, hruns, hstanding⟩, hcalls _ (by simp), fun other hother => ?_,
                  fun session hbroke => absurd hbroke (hwhole session)⟩
                cases hother
                exact ⟨_, _, _, place, value, result, rfl, hresult, htext⟩

theorem Standing.without (h : Standing server pending client) {starts : Nat} (hstarts : pending.starts ≤ starts) :
    Standing server ⟨none, starts⟩ client :=
  ⟨h.next.trans hstarts, h.settled, nofun⟩

/-- A call starts a session when there is none, and what it does keeps to the terms. -/
theorem Standing.call_leaves (codec : JsonCodec) (h : Standing server pending client) (name input : String) :
    Leaves codec server client name input (pending.call codec server name input) := by
  rw [PendingMcp.call]
  cases hlive : pending.live with
  | some session =>
      have hlinked := h.live session hlive
      have hnumber : session.number < pending.starts := hlinked.next.symm.trans_le h.next
      have hkept : Kept codec server client session.number session.listed ⟨session, []⟩ :=
        ⟨rfl, by simp, client, rfl, hlinked⟩
      exact hkept.callOn_leaves hnumber (by simp)
  | none =>
      have hidle : Leaves codec server client name input (.ok (.error ""), ⟨none, pending.starts + 1⟩, []) :=
        ⟨⟨client, rfl, h.without (Nat.le_succ _)⟩, by simp, by simp, by simp⟩
      cases hlaunch : server.launch pending.starts with
      | refused error => exact ⟨hidle.runs, hidle.asks, (fun _ h => by cases h), hidle.dropped⟩
      | noStdio => exact ⟨hidle.runs, hidle.asks, (fun _ h => by cases h), hidle.dropped⟩
      | process feed writes =>
          have hfeed : server.feed pending.starts = feed := by rw [McpServer.feed, hlaunch]
          have hkept : Kept codec server client pending.starts []
              ⟨⟨pending.starts, 0, feed, writes, 1, server.timeoutMs, []⟩, [.opened pending.starts]⟩ := by
            refine ⟨rfl, by simp, _, ⟨_, .opened h.next h.settled, rfl⟩, rfl, rfl, ?_, le_rfl, hfeed.symm,
              fun _ hfree => hfree, by simp⟩
            intro last hlast
            cases hlast
          have hstarted := hkept.start_ends
          have hasks := start_asks codec
            ⟨⟨pending.starts, 0, feed, writes, 1, server.timeoutMs, []⟩, [.opened pending.starts]⟩
          dsimp only
          rw [Ends] at hstarted hasks
          generalize (start codec).run.run
            ⟨⟨pending.starts, 0, feed, writes, 1, server.timeoutMs, []⟩, [.opened pending.starts]⟩ =
              ended at hstarted hasks
          obtain ⟨outcome, wire⟩ := ended
          obtain ⟨names, hsettled⟩ := hstarted
          have hfree : ∀ session id message, .asked session id message ∈ wire.traffic → message.method ≠ "tools/call" :=
            fun session id message hasked => (hasks session id message hasked).resolve_left (by simp)
          have hquiet : ∀ session id message, .asked session id message ∈ wire.traffic → message.method = "tools/call" →
              message = callMessage name input :=
            fun session id message hasked hcall => absurd hcall (hfree session id message hasked)
          have hover (hover : Kept codec server client pending.starts names wire) :
              ∃ after, client.Runs (terms codec server) wire.traffic after ∧
                Standing server ⟨none, pending.starts + 1⟩ after := by
            obtain ⟨hnumber, -, after, hruns, hlinked⟩ := hover
            refine ⟨after, hruns, ?_, fun id message => ?_, (fun _ h => by cases h)⟩
            · rw [hlinked.next, hnumber]
            · rw [hlinked.idle]; simp
          rcases outcome with (((text | text) | panic) | _)
          · exact ⟨hover hsettled, hquiet, (fun _ h => by cases h), fun _ _ => rfl⟩
          · obtain ⟨after, hruns, hclosed, hnext⟩ := hsettled
            refine ⟨⟨after, hruns, hnext.le, fun id message => ?_, (fun _ h => by cases h)⟩, hquiet,
              (fun _ h => by cases h), fun _ _ => rfl⟩
            rw [hclosed]
            simp
          · exact ⟨hover hsettled, hquiet, (fun _ h => by cases h), fun _ _ => rfl⟩
          · exact hsettled.2.callOn_leaves (Nat.lt_succ_self _) hfree

/-- A call for a tool that the session in use did not list does nothing. -/
theorem callOn_unlisted {wire : Wire} (h : name ∉ wire.session.listed) :
    pending.callOn codec wire name input =
      (.ok (.error "not listed by the server"), { pending with live := some wire.session }, wire.traffic) := by
  rw [PendingMcp.callOn, if_pos h]

/-! ### Every call -/

/-- What holds of each call. -/
structure Called.Proper (codec : JsonCodec) (called : Called) : Prop where
  asks : ∀ session id message, .asked session id message ∈ called.traffic → message.method = "tools/call" →
    message = callMessage called.name called.input
  text : ∀ text, called.result = .ok (.ok text) → ∃ earlier session id place value result,
    called.traffic = earlier ++ [.asked session id (callMessage called.name called.input)] ++
        [.answered session place id value] ∧
      resultOf codec value = .ok result ∧ textOf result = .ok text
  dropped : ∀ session, .broke session ∈ called.traffic → called.after.pending.live = none
  unlisted : ∀ session, called.before.pending.live = some session → called.name ∉ session.listed →
    called.traffic = [] ∧ called.after = called.before

theorem McpTool.call_proper (codec : JsonCodec) {shared : SharedMcp} (h : Standing server shared.pending client)
    (name input : String) :
    let called := McpTool.call codec server shared name input
    called.Proper codec ∧ called.name = name ∧
      ∃ after, client.Runs (terms codec server) called.traffic after ∧ Standing server called.after.pending after := by
  have hleaves := h.call_leaves codec name input
  have hunlisted : ∀ session, shared.pending.live = some session → name ∉ session.listed →
      shared.pending.call codec server name input = (.ok (.error "not listed by the server"), shared.pending, []) := by
    intro session hlive hlisted
    rw [PendingMcp.call, hlive]
    dsimp only
    rw [callOn_unlisted hlisted, ← hlive]
  rw [McpTool.call]
  cases hpoisoned : shared.poisoned with
  | true => exact ⟨⟨nofun, nofun, nofun, fun _ _ _ => ⟨rfl, rfl⟩⟩, rfl, client, rfl, h⟩
  | false =>
      generalize hended : shared.pending.call codec server name input = ended at hleaves hunlisted
      obtain ⟨result, pending, traffic⟩ := ended
      cases result with
      | error panic =>
          refine ⟨⟨hleaves.asks, nofun, hleaves.dropped, fun session hlive hlisted => ?_⟩, rfl, hleaves.runs⟩
          cases hunlisted session hlive hlisted
      | ok result =>
          refine ⟨⟨hleaves.asks, fun text htext => ?_, hleaves.dropped, fun session hlive hlisted => ?_⟩, rfl,
            hleaves.runs⟩
          · cases result with
            | error error => cases htext
            | ok value => cases htext; exact hleaves.text _ rfl
          · cases hunlisted session hlive hlisted
            refine ⟨rfl, ?_⟩
            show (⟨shared.pending, false⟩ : SharedMcp) = shared
            rw [← hpoisoned]

theorem calls_runs (codec : JsonCodec) {shared : SharedMcp} (h : Standing server shared.pending client)
    (calls : List (String × String)) :
    (∀ called ∈ server.calls codec shared calls, called.Proper codec) ∧
      ∃ after, client.Runs (terms codec server) ((server.calls codec shared calls).flatMap Called.traffic) after ∧
        ∀ id message, after.phase ≠ .waiting id message := by
  induction calls generalizing shared client with
  | nil => exact ⟨nofun, client, rfl, h.settled⟩
  | cons call rest ih =>
      obtain ⟨name, input⟩ := call
      obtain ⟨hproper, -, middle, hruns, hstanding⟩ := McpTool.call_proper codec h name input
      obtain ⟨hrest, after, hlater, hsettled⟩ := ih hstanding
      refine ⟨fun called hcalled => ?_, after, Client.runs_append.mpr ⟨middle, hruns, hlater⟩, hsettled⟩
      rcases List.mem_cons.mp hcalled with rfl | hcalled
      · exact hproper
      · exact hrest called hcalled

/-- The ids of a session's requests increase. A response stands right after the request with its id, and no line is
two responses. A request that gets none ends its session, and all that follows belongs to later ones. A tool is called
only by the name of the call and after the session listed it, and a text is the response to its own call. -/
theorem own_responses (codec : JsonCodec) (server : McpServer) (calls : List (String × String)) :
    let run := server.calls codec .new calls
    let traffic := run.flatMap Called.traffic
    (∀ session, (traffic.filterMap (Traffic.askedIn session)).Pairwise (· < ·)) ∧
      (∀ before session position id value after, traffic = before ++ .answered session position id value :: after →
        (∃ earlier message, before = earlier ++ [.asked session id message]) ∧ IsResponse id value ∧
          ∃ bytes, (server.feed session)[position]? = some (.line bytes) ∧ codec.parse bytes = .ok value) ∧
      (traffic.filterMap Traffic.place).Nodup ∧
      (∀ before session id message after, traffic = before ++ .asked session id message :: after →
        (∃ position value rest, after = .answered session position id value :: rest) ∨
          ∃ rest, after = .broke session :: rest) ∧
      (∀ before session after, traffic = before ++ .broke session :: after → ∀ event ∈ after, session < event.session) ∧
      (∀ before session id message after, traffic = before ++ .asked session id message :: after →
        message.method = "tools/call" → ∃ earlier position other listing value rest page names name input,
          before = earlier ++ .asked session other listing :: .answered session position other value :: rest ∧
            listing.method = "tools/list" ∧ resultOf codec value = .ok page ∧ pageNames page = some names ∧
              name ∈ names ∧ message = callMessage name input) ∧
      ∀ called ∈ run, called.Proper codec := by
  have hstanding : Standing server SharedMcp.new.pending .new := ⟨le_rfl, fun _ _ => nofun, nofun⟩
  obtain ⟨hproper, last, hruns, hsettled⟩ := calls_runs codec hstanding calls
  refine ⟨hruns.ids_increase, ?_, hruns.places_nodup, ?_, ?_, ?_, hproper⟩
  · intro before session position id value after htraffic
    rw [htraffic] at hruns
    obtain ⟨hasked, hresponse, hline⟩ := hruns.answer_follows
    exact ⟨hasked, hresponse, hline⟩
  · intro before session id message after htraffic
    rw [htraffic] at hruns
    exact hruns.settles hsettled
  · intro before session after htraffic
    rw [htraffic] at hruns
    exact hruns.after_broke
  · intro before session id message after htraffic hcall
    rw [htraffic] at hruns
    rcases hruns.asked_granted with hfree | ⟨earlier, position, other, listing, value, rest, hbefore, hlisting, hopens⟩
    · exact absurd hcall hfree
    · obtain ⟨page, names, name, input, hresult, hnames, hname, hmessage⟩ := hopens
      exact ⟨earlier, position, other, listing, value, rest, page, names, name, input, hbefore, hlisting, hresult,
        hnames, hname, hmessage⟩

end Mcp

end Gol
