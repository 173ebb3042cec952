import ContextProtocol.Message.Content
import ContextProtocol.Message.Page
import ContextProtocol.Message.Progress
import ContextProtocol.Message.Schema

/-!
# Tools

A server offers tools, whose arguments are the members of an object described by a schema.

* `Tool`: what is offered; its schema describes an object and has no misplaced keywords anywhere;
* `CallToolRequest`, `CallToolResult`: a call and what came of it;
* `Page Tool`: a page of the list.
-/
namespace ContextProtocol

/-- A tool and the schema of its arguments. -/
structure Tool where
  name : String
  description : Option String
  inputSchema : Schema
  deriving BEq

/-- A step in the construction of a tool. -/
inductive ToolStep where
  | description (text : String)
  /-- An argument, which replaces one of the same name. -/
  | property (name : String) (schema : Schema)
  /-- Arguments that a call has to have. -/
  | required (names : List String)

namespace Tool

def record : Record Tool where
  name := "Tool"
  columns := [String, Option String, Schema]
  fields :=
    .cons (.required "name" .string) <|
    .cons (.optional "description" .string) <|
    .cons (.required "inputSchema" Schema.codec) .nil
  exact := false
  ofRow := fun (name, description, inputSchema, ()) => ⟨name, description, inputSchema⟩
  toRow t := (t.name, t.description, t.inputSchema, ())
  ofRow_toRow _ := rfl

instance : Message Tool := ⟨record.codec⟩

/-- The schema describes an object, and nothing is wrong with it. -/
def checkSchema (s : Schema) : Except ConstructionError Unit :=
  if s.root.type ≠ .object then
    .error ⟨"inputSchema.type", "must be object, got " ++ s.root.type.text⟩
  else
    match s.shapeErrors with
    | [] => .ok ()
    | first :: _ => .error (first.within "inputSchema")

instance : Validated Tool ToolStep where
  apply t
    | .description text => do
      checkNonEmpty "description" text
      return { t with description := some text }
    | .property name schema => do
      checkNonEmpty "inputSchema.properties" name
      return { t with inputSchema := t.inputSchema.withProperty name schema }
    | .required names => .ok { t with inputSchema := t.inputSchema.withRequired names }
  validate t := do
    checkNonEmpty "name" t.name
    checkSchema t.inputSchema

def new (name : String) (steps : List ToolStep) : Traced ConstructionError Tool :=
  build ⟨name, none, .ofType .object⟩ steps

instance : Paged Tool := ⟨"ListToolsResult", "tools"⟩

end Tool

/-- A call of a tool. -/
structure CallToolRequest where
  name : String
  arguments : Option (Dict Json)
  metadata : Option RequestMeta
  deriving BEq

/-- A step in the construction of a call. -/
inductive CallToolStep where
  | arguments (arguments : Dict Json)
  /-- Reports about the call are wanted under the token. -/
  | progressToken (token : ProgressToken)

namespace CallToolRequest

def record : Record CallToolRequest where
  name := "CallToolParams"
  columns := [String, Option (Dict Json), Option RequestMeta]
  fields :=
    .cons (.defaulted "name" .string "") <|
    .cons (.optional "arguments" (.dict .json)) <|
    .cons (.optional "_meta" RequestMeta.record.codec) .nil
  exact := false
  ofRow := fun (name, arguments, metadata, ()) => ⟨name, arguments, metadata⟩
  toRow r := (r.name, r.arguments, r.metadata, ())
  ofRow_toRow _ := rfl

instance : Envelope CallToolRequest CallToolStep where
  method := "tools/call"
  params := record.codec
  apply r
    | .arguments arguments => .ok { r with arguments := some arguments }
    | .progressToken token => .ok { r with metadata := some ⟨some token⟩ }
  validate r := checkNonEmpty "name" r.name

def new (name : String) (steps : List CallToolStep) : Traced ConstructionError CallToolRequest :=
  build ⟨name, none, none⟩ steps

/-- The token of the reports about the call. -/
def progressToken (r : CallToolRequest) : Option ProgressToken :=
  r.metadata.bind (·.progressToken)

end CallToolRequest

/-- What came of a call. -/
structure CallToolResult where
  content : List Content
  isError : Bool
  deriving BEq

namespace CallToolResult

def record : Record CallToolResult where
  name := "CallToolResult"
  columns := [List Content, Bool]
  fields := .cons (.required "content" Content.codec.list) (.cons (.flag "isError") .nil)
  exact := false
  ofRow := fun (content, isError, ()) => ⟨content, isError⟩
  toRow r := (r.content, r.isError, ())
  ofRow_toRow _ := rfl

instance : Message CallToolResult := ⟨record.codec⟩

instance : Validated CallToolResult Empty where
  apply _ step := nomatch step
  validate r := checkEach "content" "" validate r.content

def success (content : List Content) : Traced ConstructionError CallToolResult :=
  build ⟨content, false⟩ []

def error (content : List Content) : Traced ConstructionError CallToolResult :=
  build ⟨content, true⟩ []

end CallToolResult

end ContextProtocol
