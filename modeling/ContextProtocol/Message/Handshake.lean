import ContextProtocol.Config
import ContextProtocol.Message.Capabilities

/-!
# The handshake

The client opens a connection with its version of the protocol and its capabilities, the server
answers with its own, and the client confirms.

* `Implementation`: the name and version of a side;
* `InitializeRequest`, `InitializeResult`: the opening and the answer;
* `InitializedNotification`: the confirmation.
-/
namespace ContextProtocol

/-- A program that takes part, by name and version. -/
structure Implementation where
  name : String
  version : String
  deriving BEq, DecidableEq

namespace Implementation

def record : Record Implementation where
  name := "Implementation"
  columns := [String, String]
  fields := .cons (.required "name" .string) (.cons (.required "version" .string) .nil)
  exact := false
  ofRow := fun (name, version, ()) => ⟨name, version⟩
  toRow i := (i.name, i.version, ())
  ofRow_toRow _ := rfl

instance : Message Implementation := ⟨record.codec⟩

instance : Validated Implementation Empty where
  apply _ step := nomatch step
  validate i := do
    checkNonEmpty "name" i.name
    checkNonEmpty "version" i.version

def new (name version : String) : Traced ConstructionError Implementation :=
  build ⟨name, version⟩ []

end Implementation

/-- The version that a side speaks unless it is told otherwise. -/
def latestProtocolVersion : String := Config.defaultProtocolVersion

/-- The opening of a connection. -/
structure InitializeRequest where
  protocolVersion : String
  capabilities : ClientCapabilities
  clientInfo : Implementation
  deriving BEq

/-- A step in the construction of an opening. -/
inductive InitializeStep where
  | protocolVersion (version : String)
  | capabilities (capabilities : ClientCapabilities)

/-- The version that a configuration asks for. -/
def InitializeStep.ofConfig (config : Config) : InitializeStep :=
  .protocolVersion config.protocolVersion

namespace InitializeRequest

def record : Record InitializeRequest where
  name := "InitializeParams"
  columns := [String, ClientCapabilities, Implementation]
  fields :=
    .cons (.required "protocolVersion" .string) <|
    .cons (.required "capabilities" Message.codec) <|
    .cons (.required "clientInfo" Message.codec) .nil
  exact := false
  ofRow := fun (protocolVersion, capabilities, clientInfo, ()) =>
    ⟨protocolVersion, capabilities, clientInfo⟩
  toRow r := (r.protocolVersion, r.capabilities, r.clientInfo, ())
  ofRow_toRow _ := rfl

instance : Envelope InitializeRequest InitializeStep where
  method := "initialize"
  params := record.codec
  apply r
    | .protocolVersion version => do
      checkNonEmpty "protocolVersion" version
      return { r with protocolVersion := version }
    | .capabilities capabilities => .ok { r with capabilities := capabilities }
  validate r := do
    checkNonEmpty "protocolVersion" r.protocolVersion
    (validate r.capabilities).mapError (·.within "capabilities")
    (validate r.clientInfo).mapError (·.within "clientInfo")

def new (clientInfo : Implementation) (steps : List InitializeStep) :
    Traced ConstructionError InitializeRequest :=
  build ⟨latestProtocolVersion, .none, clientInfo⟩ steps

end InitializeRequest

/-- The answer to an opening. -/
structure InitializeResult where
  protocolVersion : String
  capabilities : ServerCapabilities
  serverInfo : Implementation
  instructions : Option String
  deriving BEq

/-- A step in the construction of an answer. -/
inductive InitializeResultStep where
  | protocolVersion (version : String)
  | capabilities (capabilities : ServerCapabilities)
  | instructions (text : String)

namespace InitializeResult

def record : Record InitializeResult where
  name := "InitializeResult"
  columns := [String, ServerCapabilities, Implementation, Option String]
  fields :=
    .cons (.required "protocolVersion" .string) <|
    .cons (.required "capabilities" Message.codec) <|
    .cons (.required "serverInfo" Message.codec) <|
    .cons (.optional "instructions" .string) .nil
  exact := false
  ofRow := fun (protocolVersion, capabilities, serverInfo, instructions, ()) =>
    ⟨protocolVersion, capabilities, serverInfo, instructions⟩
  toRow r := (r.protocolVersion, r.capabilities, r.serverInfo, r.instructions, ())
  ofRow_toRow _ := rfl

instance : Message InitializeResult := ⟨record.codec⟩

instance : Validated InitializeResult InitializeResultStep where
  apply r
    | .protocolVersion version => do
      checkNonEmpty "protocolVersion" version
      return { r with protocolVersion := version }
    | .capabilities capabilities => .ok { r with capabilities := capabilities }
    | .instructions text => do
      checkNonEmpty "instructions" text
      return { r with instructions := some text }
  validate r := do
    checkNonEmpty "protocolVersion" r.protocolVersion
    (validate r.capabilities).mapError (·.within "capabilities")
    (validate r.serverInfo).mapError (·.within "serverInfo")

def new (serverInfo : Implementation) (steps : List InitializeResultStep) :
    Traced ConstructionError InitializeResult :=
  build ⟨latestProtocolVersion, .none, serverInfo, none⟩ steps

end InitializeResult

/-- The confirmation, with any members under `_meta`. -/
structure InitializedNotification where
  metadata : Dict Json
  deriving BEq

namespace InitializedNotification

def record : Record InitializedNotification where
  name := "InitializedParams"
  columns := [Dict Json]
  fields := .cons (.named "_meta" .json) .nil
  exact := false
  ofRow := fun (metadata, ()) => ⟨metadata⟩
  toRow n := (n.metadata, ())
  ofRow_toRow _ := rfl

instance : Envelope InitializedNotification Empty where
  method := "notifications/initialized"
  params := record.codec
  apply _ step := nomatch step
  validate _ := .ok ()

def new : InitializedNotification := ⟨.empty⟩

end InitializedNotification

end ContextProtocol
