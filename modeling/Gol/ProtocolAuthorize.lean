import Gol.ProtocolReduce

/-! The authorizer of decided effects and the owner of each memory scope (`crates/protocol/src/authorizer.rs`,
`effect.rs`). -/

namespace Gol

/-- The hyphenated text of a uuid. -/
def Uuid.toText (uuid : Uuid) : String :=
  let digits := Nat.toDigits 16 uuid.toNat
  let hex := List.replicate (32 - digits.length) '0' ++ digits
  String.ofList (hex.take 8 ++ '-' :: (hex.drop 8).take 4 ++ '-' :: (hex.drop 12).take 4 ++
    '-' :: (hex.drop 16).take 4 ++ '-' :: hex.drop 20)

/-! ### Memory owners -/

def sessionId : String := "session_id"

def workspaceId : String := "workspace_id"

/-- Each part as its byte length, a colon and the part, one after another. -/
def joined (parts : List String) : String :=
  String.join (parts.map fun part => toString part.utf8ByteSize ++ ":" ++ part)

/-- Whose memory `scope` is, for a run of `spec` at harness step `step`. -/
def memoryOwnerId (spec : RunSpec) (scope : MemoryScope) (step : UInt32) : Option String :=
  let owner := spec.owner
  let user := joined [owner.issuer, owner.subject]
  let organization := joined [owner.issuer, owner.tenant]
  let named (key : String) : Option String :=
    ((spec.metadataGet key).filter fun id => !id.isEmpty).map fun id => joined [id]
  match scope with
  | .step => some (spec.runId.uuid.toText ++ "/" ++ toString step)
  | .run => some spec.runId.uuid.toText
  | .agent => some (user ++ joined [spec.agentId.uuid.toText])
  | .user => some user
  | .organization => some organization
  | .session => (named sessionId).map fun session => user ++ joined [owner.tenant] ++ session
  | .workspace => (named workspaceId).map fun workspace => organization ++ workspace
  | .global => none

/-! ### Policy -/

inductive PolicyDecision where
  | allow
  | deny (reason : String)
  | requireApproval
  | modify
  | limit
  | redirect
  deriving DecidableEq

structure ToolDescriptor where
  id : Uuid
  name : String
  description : String
  inputSchema : String
  outputSchema : String
  requiredCapability : Capability
  deriving DecidableEq

def allowCapability (spec : RunSpec) (name : String) : PolicyDecision :=
  if spec.capabilities.any (· == ⟨name⟩) then .allow else .deny ("missing capability: " ++ name)

/-- The capability, and for session and workspace memory the id that names whose memory it is. -/
def allowMemory (spec : RunSpec) (capability : String) (scope : MemoryScope) : PolicyDecision :=
  let decision := allowCapability spec capability
  if decision ≠ .allow then decision
  else if scope = .global then .deny "global memory is shared by every tenant and is not offered"
  else if (memoryOwnerId spec scope 0).isSome then decision
  else
    let key := match scope with
      | .workspace => workspaceId
      | _ => sessionId
    .deny ("no " ++ key ++ " in the run's metadata")

/-- A message's bounds, once its capability is held. -/
def checkMessage (spec : RunSpec) (effect : Effect) : PolicyDecision :=
  match effect with
  | .sendMessage _ body expectsReply replyTo timeoutSecs =>
      let startsTask := replyTo.isNone || expectsReply
      if startsTask && maxDelegationHops ≤ spec.lineage.hop then
        .deny s!"messaging is already {maxDelegationHops} hops deep"
      else if maxMessageBytes < body.utf8ByteSize then
        .deny s!"a message body is at most {maxMessageBytes} bytes"
      else match timeoutSecs with
        | some seconds =>
            if !expectsReply then .deny "only an ask has a timeout"
            else if !(1 ≤ seconds && seconds ≤ maxAskTimeoutSecs) then
              .deny s!"an ask waits at most {maxAskTimeoutSecs} seconds"
            else .allow
        | none => .allow
  | _ => .allow

/-- Unicode white space, as `str::trim` drops it. -/
def isWhiteSpace (c : Char) : Bool :=
  (0x09 ≤ c.val && c.val ≤ 0x0d) || c.val == 0x20 || c.val == 0x85 || c.val == 0xa0 || c.val == 0x1680 ||
  (0x2000 ≤ c.val && c.val ≤ 0x200a) || c.val == 0x2028 || c.val == 0x2029 || c.val == 0x202f ||
  c.val == 0x205f || c.val == 0x3000

def authorize (spec : RunSpec) (effect : Effect) (tools : List ToolDescriptor) : PolicyDecision :=
  match effect with
  -- A Complete is always allowed: one that could be denied would be free and never end.
  | .complete _ => .allow
  | .modelCall _ => allowCapability spec "model.call"
  | .memoryRead scope _ => allowMemory spec "memory.read" scope
  | .memoryWrite scope _ _ => allowMemory spec "memory.write" scope
  | .toolCall name _ _ =>
      match tools.find? fun tool => tool.name = name with
      | some tool => allowCapability spec tool.requiredCapability.name
      | none => .deny ("unknown tool: " ++ name)
  | .delegate _ _ =>
      match allowCapability spec "agent.delegate" with
      | .allow =>
          if maxDelegationHops ≤ spec.lineage.hop then
            .deny s!"delegation is already {maxDelegationHops} hops deep"
          else .allow
      | decision => decision
  | .sendMessage _ _ _ _ _ =>
      match allowCapability spec "agent.message" with
      | .allow => checkMessage spec effect
      | decision => decision
  | .askUser prompt =>
      match allowCapability spec "user.ask" with
      | .allow =>
          if prompt.toList.all isWhiteSpace then .deny "a question is empty"
          else if maxMessageBytes < prompt.utf8ByteSize then
            .deny s!"a question is over {maxMessageBytes} bytes"
          else .allow
      | decision => decision
  | .execute _ | .requestApproval _ _ | .wait _ | .publishArtifact _ _ _ =>
      .deny "effect is not implemented in this slice"

/-- An authorized memory effect names whose memory it is, at any step. -/
theorem memoryOwnerId_isSome_of_allow {spec : RunSpec} {capability : String} {scope : MemoryScope}
    (h : allowMemory spec capability scope = .allow) (step : UInt32) :
    (memoryOwnerId spec scope step).isSome = true := by
  unfold allowMemory at h
  cases scope <;> simp only [memoryOwnerId] at h ⊢ <;> try rfl
  all_goals grind

end Gol
