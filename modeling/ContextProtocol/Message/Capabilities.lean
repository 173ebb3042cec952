import ContextProtocol.Message.Envelope

/-!
# Capabilities

What the two sides of a connection can do, among it **experimental** capabilities whose payloads
only their users understand. Such a payload is kept as the text that was received and read on
request.

* `RawPayload`: a JSON text that is not taken apart;
* `ServerCapabilities`, `ClientCapabilities`: the capabilities of a side.
-/
namespace ContextProtocol

/-- A JSON value, kept as its text. -/
structure RawPayload where
  text : String
  deriving BEq, DecidableEq

namespace RawPayload

/-- The payload that a text holds, without the blanks around it. -/
def ofText (text : String) : Except DecodeError RawPayload :=
  ((Decoder.raw.runString text).result.map RawPayload.mk).mapError .json

/-- The compact text of a value. -/
def ofJson (v : Json) : RawPayload := ⟨v.text⟩

/-- Reads the payload. -/
def decode {α : Type} (d : Decoder α) (p : RawPayload) : Traced DecodeError α :=
  (d.runString p.text).mapError .json

/-- The payload with the name of its type. -/
def summary (p : RawPayload) : String := "RawPayload(" ++ Text.quoted p.text ++ ")"

def codec : Codec RawPayload := EnvelopeMembers.rawCodec.wrap .mk text

instance : Message RawPayload := ⟨codec⟩

end RawPayload

/-- Experimental capabilities under their names. -/
abbrev ExperimentalCapabilities := Dict RawPayload

namespace ExperimentalCapabilities

/-- Adds a payload under a name that is not empty. -/
def add (d : ExperimentalCapabilities) (name : String) (payload : Json) :
    Except ConstructionError ExperimentalCapabilities := do
  checkNonEmpty "experimental" name
  return d.insert name (.ofJson payload)

/-- No name is empty. -/
def check (d : ExperimentalCapabilities) : Except ConstructionError Unit :=
  if d.keys.any String.isEmpty then .error (.empty "experimental") else .ok ()

/-- Reads the payload under a name. -/
def read {α : Type} (dec : Decoder α) (d : ExperimentalCapabilities) (name : String) :
    Option (Traced DecodeError α) :=
  (d.get? name).map fun p => p.decode dec

end ExperimentalCapabilities

/-- A capability that says nothing about itself. -/
structure Marker where
  deriving BEq, DecidableEq

namespace Marker

def codec (name : String) : Codec Marker :=
  Record.codec
    { name, columns := [], fields := .nil, exact := false, ofRow := fun () => ⟨⟩
      toRow := fun _ => (), ofRow_toRow := fun _ => rfl }

end Marker

/-- A list of the side, and whether it announces changes of the list. -/
structure ListCapability where
  listChanged : Option Bool
  deriving BEq, DecidableEq

namespace ListCapability

def codec (name : String) : Codec ListCapability :=
  Record.codec
    { name, columns := [Option Bool], fields := .cons (.optional "listChanged" .bool) .nil
      exact := false, ofRow := fun (listChanged, ()) => ⟨listChanged⟩
      toRow := fun c => (c.listChanged, ()), ofRow_toRow := fun _ => rfl }

end ListCapability

/-- The resources of a server, and whether changes of them and of their list are announced. -/
structure ResourcesCapability where
  subscribe : Option Bool
  listChanged : Option Bool
  deriving BEq, DecidableEq

namespace ResourcesCapability

def record : Record ResourcesCapability where
  name := "ResourcesCapability"
  columns := [Option Bool, Option Bool]
  fields := .cons (.optional "subscribe" .bool) (.cons (.optional "listChanged" .bool) .nil)
  exact := false
  ofRow := fun (subscribe, listChanged, ()) => ⟨subscribe, listChanged⟩
  toRow c := (c.subscribe, c.listChanged, ())
  ofRow_toRow _ := rfl

instance : Message ResourcesCapability := ⟨record.codec⟩

end ResourcesCapability

/-- What a server can do. -/
structure ServerCapabilities where
  experimental : ExperimentalCapabilities
  logging : Option Marker
  prompts : Option ListCapability
  resources : Option ResourcesCapability
  tools : Option ListCapability
  deriving BEq

/-- A step in the construction of the capabilities of a server. -/
inductive ServerCapabilityStep where
  | logging
  | prompts (capability : ListCapability)
  | resources (capability : ResourcesCapability)
  | tools (capability : ListCapability)
  | experimental (name : String) (payload : Json)

namespace ServerCapabilities

def record : Record ServerCapabilities where
  name := "ServerCapabilities"
  columns := [ExperimentalCapabilities, Option Marker, Option ListCapability,
    Option ResourcesCapability, Option ListCapability]
  fields :=
    .cons (.named "experimental" RawPayload.codec) <|
    .cons (.optional "logging" (Marker.codec "LoggingCapability")) <|
    .cons (.optional "prompts" (ListCapability.codec "PromptsCapability")) <|
    .cons (.optional "resources" ResourcesCapability.record.codec) <|
    .cons (.optional "tools" (ListCapability.codec "ToolsCapability")) .nil
  exact := false
  ofRow := fun (experimental, logging, prompts, resources, tools, ()) =>
    ⟨experimental, logging, prompts, resources, tools⟩
  toRow c := (c.experimental, c.logging, c.prompts, c.resources, c.tools, ())
  ofRow_toRow _ := rfl

instance : Message ServerCapabilities := ⟨record.codec⟩

def none : ServerCapabilities := ⟨.empty, .none, .none, .none, .none⟩

instance : Validated ServerCapabilities ServerCapabilityStep where
  apply c
    | .logging => .ok { c with logging := some ⟨⟩ }
    | .prompts p => .ok { c with prompts := some p }
    | .resources r => .ok { c with resources := some r }
    | .tools t => .ok { c with tools := some t }
    | .experimental name payload => do
      return { c with experimental := ← ExperimentalCapabilities.add c.experimental name payload }
  validate c := ExperimentalCapabilities.check c.experimental

def new (steps : List ServerCapabilityStep) : Traced ConstructionError ServerCapabilities :=
  build none steps

end ServerCapabilities

/-- What a client can do. -/
structure ClientCapabilities where
  experimental : ExperimentalCapabilities
  roots : Option ListCapability
  sampling : Option Marker
  deriving BEq

/-- A step in the construction of the capabilities of a client. -/
inductive ClientCapabilityStep where
  | roots (capability : ListCapability)
  | sampling
  | experimental (name : String) (payload : Json)

namespace ClientCapabilities

def record : Record ClientCapabilities where
  name := "ClientCapabilities"
  columns := [ExperimentalCapabilities, Option ListCapability, Option Marker]
  fields :=
    .cons (.named "experimental" RawPayload.codec) <|
    .cons (.optional "roots" (ListCapability.codec "RootsCapability")) <|
    .cons (.optional "sampling" (Marker.codec "SamplingCapability")) .nil
  exact := false
  ofRow := fun (experimental, roots, sampling, ()) => ⟨experimental, roots, sampling⟩
  toRow c := (c.experimental, c.roots, c.sampling, ())
  ofRow_toRow _ := rfl

instance : Message ClientCapabilities := ⟨record.codec⟩

def none : ClientCapabilities := ⟨.empty, .none, .none⟩

instance : Validated ClientCapabilities ClientCapabilityStep where
  apply c
    | .roots r => .ok { c with roots := some r }
    | .sampling => .ok { c with sampling := some ⟨⟩ }
    | .experimental name payload => do
      return { c with experimental := ← ExperimentalCapabilities.add c.experimental name payload }
  validate c := ExperimentalCapabilities.check c.experimental

def new (steps : List ClientCapabilityStep) : Traced ConstructionError ClientCapabilities :=
  build none steps

end ClientCapabilities

end ContextProtocol
