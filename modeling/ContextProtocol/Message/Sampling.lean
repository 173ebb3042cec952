import ContextProtocol.Message.Content
import ContextProtocol.Message.Envelope

/-!
# Sampling

A server asks the client to let a model continue a conversation.

* `ModelPreferences`: which model is wanted;
* `CreateMessageRequest`: the conversation and how to continue it. Its steps check nothing; the
  finished request is checked as a whole, so a value that was replaced does no harm;
* `CreateMessageResult`: the message of the model.
-/
namespace ContextProtocol

/-- A part of the name of a model. -/
structure ModelHint where
  name : Option String
  deriving BEq, DecidableEq

namespace ModelHint

def record : Record ModelHint where
  name := "ModelHint"
  columns := [Option String]
  fields := .cons (.optional "name" .string) .nil
  exact := false
  ofRow := fun (name, ()) => ⟨name⟩
  toRow h := (h.name, ())
  ofRow_toRow _ := rfl

end ModelHint

/-- Hints, best first, and how much each quality of a model matters, from 0 to 1. -/
structure ModelPreferences where
  hints : List ModelHint
  costPriority : Option Float
  speedPriority : Option Float
  intelligencePriority : Option Float
  deriving BEq

/-- A step in the construction of preferences. -/
inductive ModelPreferencesStep where
  | hint (hint : ModelHint)
  | costPriority (priority : Float)
  | speedPriority (priority : Float)
  | intelligencePriority (priority : Float)

namespace ModelPreferences

def record : Record ModelPreferences where
  name := "ModelPreferences"
  columns := [List ModelHint, Option Float, Option Float, Option Float]
  fields :=
    .cons (.listed "hints" ModelHint.record.codec) <|
    .cons (.optional "costPriority" .float) <|
    .cons (.optional "speedPriority" .float) <|
    .cons (.optional "intelligencePriority" .float) .nil
  exact := false
  ofRow := fun (hints, cost, speed, intelligence, ()) => ⟨hints, cost, speed, intelligence⟩
  toRow p := (p.hints, p.costPriority, p.speedPriority, p.intelligencePriority, ())
  ofRow_toRow _ := rfl

instance : Message ModelPreferences := ⟨record.codec⟩

/-- A number from 0 to 1, if it is set. -/
def checkUnit (field : String) : Option Float → Except ConstructionError Unit
  | none => .ok ()
  | some x => checkRange field x 0 1

instance : Validated ModelPreferences ModelPreferencesStep where
  apply p
    | .hint hint => .ok { p with hints := p.hints ++ [hint] }
    | .costPriority x => do
      checkRange "costPriority" x 0 1
      return { p with costPriority := some x }
    | .speedPriority x => do
      checkRange "speedPriority" x 0 1
      return { p with speedPriority := some x }
    | .intelligencePriority x => do
      checkRange "intelligencePriority" x 0 1
      return { p with intelligencePriority := some x }
  validate p := do
    checkUnit "costPriority" p.costPriority
    checkUnit "speedPriority" p.speedPriority
    checkUnit "intelligencePriority" p.intelligencePriority

def new (steps : List ModelPreferencesStep) : Traced ConstructionError ModelPreferences :=
  build ⟨[], none, none, none⟩ steps

end ModelPreferences

/-- Whose context the client is to add. -/
inductive IncludeContext where
  | none
  | thisServer
  | allServers
  deriving DecidableEq, Repr

namespace IncludeContext

def text : IncludeContext → String
  | .none => "none"
  | .thisServer => "thisServer"
  | .allServers => "allServers"

def all : List IncludeContext := [.none, .thisServer, .allServers]

def codec : Codec IncludeContext := .word (all.map fun c => (c.text, c))

instance : Message IncludeContext := ⟨codec⟩

end IncludeContext

/-- The wish for a message. -/
structure CreateMessageRequest where
  messages : List Turn
  modelPreferences : Option ModelPreferences
  systemPrompt : Option String
  includeContext : Option IncludeContext
  temperature : Option Float
  maxTokens : UInt32
  stopSequences : List String
  metadata : Option (Dict Json)
  deriving BEq

/-- A step in the construction of the wish. -/
inductive CreateMessageStep where
  | systemPrompt (prompt : String)
  | temperature (temperature : Float)
  | stopSequences (sequences : List String)
  | modelPreferences (preferences : ModelPreferences)
  | includeContext (context : IncludeContext)
  | metadata (metadata : Dict Json)

namespace CreateMessageRequest

/-- The messages of a sampled conversation. -/
def messageCodec : Codec Turn := Turn.codec "SamplingMessage"

def record : Record CreateMessageRequest where
  name := "CreateMessageParams"
  columns := [List Turn, Option ModelPreferences, Option String, Option IncludeContext,
    Option Float, UInt32, List String, Option (Dict Json)]
  fields :=
    .cons (.defaulted "messages" messageCodec.list []) <|
    .cons (.optional "modelPreferences" Message.codec) <|
    .cons (.optional "systemPrompt" .string) <|
    .cons (.optional "includeContext" IncludeContext.codec) <|
    .cons (.optional "temperature" .float) <|
    .cons (.defaulted "maxTokens" .uint32 0) <|
    .cons (.listed "stopSequences" .string) <|
    .cons (.optional "metadata" (.dict .json)) .nil
  exact := false
  ofRow := fun (messages, preferences, system, context, temperature, tokens, stops, metadata, ()) =>
    ⟨messages, preferences, system, context, temperature, tokens, stops, metadata⟩
  toRow r :=
    (r.messages, r.modelPreferences, r.systemPrompt, r.includeContext, r.temperature, r.maxTokens,
      r.stopSequences, r.metadata, ())
  ofRow_toRow _ := rfl

/-- The rules of preferences that may be unset, seen from the wish. -/
def checkPreferences : Option ModelPreferences → Except ConstructionError Unit
  | none => .ok ()
  | some p => (validate p).mapError (·.within "modelPreferences")

instance : Envelope CreateMessageRequest CreateMessageStep where
  method := "sampling/createMessage"
  params := record.codec
  apply r
    | .systemPrompt prompt => .ok { r with systemPrompt := some prompt }
    | .temperature t => .ok { r with temperature := some t }
    | .stopSequences stops => .ok { r with stopSequences := stops }
    | .modelPreferences p => .ok { r with modelPreferences := some p }
    | .includeContext c => .ok { r with includeContext := some c }
    | .metadata m => .ok { r with metadata := some m }
  validate r := do
    Turn.checkAll r.messages
    if r.maxTokens = 0 then .error ⟨"maxTokens", "must be positive"⟩
    ModelPreferences.checkUnit "temperature" r.temperature
    checkPreferences r.modelPreferences

def new (messages : List Turn) (maxTokens : UInt32) (steps : List CreateMessageStep) :
    Traced ConstructionError CreateMessageRequest :=
  build ⟨messages, none, none, none, none, maxTokens, [], none⟩ steps

end CreateMessageRequest

/-- Why a model stopped. -/
inductive StopReason where
  | endTurn
  | stopSequence
  | maxTokens
  deriving DecidableEq, Repr

namespace StopReason

def text : StopReason → String
  | .endTurn => "endTurn"
  | .stopSequence => "stopSequence"
  | .maxTokens => "maxTokens"

def all : List StopReason := [.endTurn, .stopSequence, .maxTokens]

def codec : Codec StopReason := .word (all.map fun r => (r.text, r))

instance : Message StopReason := ⟨codec⟩

end StopReason

/-- The message of a model, which says its name. -/
structure CreateMessageResult where
  role : Role
  content : Content
  model : String
  stopReason : Option StopReason
  deriving BEq

namespace CreateMessageResult

def record : Record CreateMessageResult where
  name := "CreateMessageResult"
  columns := [Role, Content, String, Option StopReason]
  fields :=
    .cons (.required "role" Role.codec) <|
    .cons (.required "content" Content.codec) <|
    .cons (.required "model" .string) <|
    .cons (.optional "stopReason" StopReason.codec) .nil
  exact := false
  ofRow := fun (role, content, model, stopReason, ()) => ⟨role, content, model, stopReason⟩
  toRow r := (r.role, r.content, r.model, r.stopReason, ())
  ofRow_toRow _ := rfl

instance : Message CreateMessageResult := ⟨record.codec⟩

instance : Validated CreateMessageResult Empty where
  apply _ step := nomatch step
  validate r := do
    checkNonEmpty "model" r.model
    (validate r.content).mapError (·.within "content")

def new (content : Content) (model : String) (stopReason : Option StopReason) :
    Traced ConstructionError CreateMessageResult :=
  build ⟨.assistant, content, model, stopReason⟩ []

/-- A text at the end of a turn. -/
def text (text model : String) : Traced ConstructionError CreateMessageResult :=
  new (.text ⟨text, none⟩) model (some .endTurn)

end CreateMessageResult

end ContextProtocol
