import ContextProtocol.Message.Content
import ContextProtocol.Message.Envelope
import ContextProtocol.Message.Page

/-!
# Resources

A server offers resources under addresses, and templates for addresses.

* `Resource`, `ResourceTemplate`: what is offered; beside address and name both have the same
  optional `ResourceDetails` and are built with the same steps;
* `ReadResourceRequest`, `ReadResourceResult`: the wish for a resource and its contents;
* `Page Resource`, `Page ResourceTemplate`: pages of the lists.
-/
namespace ContextProtocol

/-- What a resource or a template may say about itself. -/
structure ResourceDetails where
  description : Option String
  mimeType : Option String
  annotations : Option Annotations
  deriving BEq

/-- A step in the construction of a resource or a template. -/
inductive ResourceStep where
  | description (text : String)
  | mimeType (type : String)
  | annotations (annotations : Annotations)

namespace ResourceDetails

def none : ResourceDetails := ⟨.none, .none, .none⟩

def apply (d : ResourceDetails) : ResourceStep → Except ConstructionError ResourceDetails
  | .description text => do
    checkNonEmpty "description" text
    return { d with description := some text }
  | .mimeType type => do
    checkNonEmpty "mimeType" type
    return { d with mimeType := some type }
  | .annotations a => do
    Annotations.check (some a)
    return { d with annotations := some a }

end ResourceDetails

/-- A resource under its address. -/
structure Resource where
  uri : String
  name : String
  details : ResourceDetails
  deriving BEq

namespace Resource

def record : Record Resource where
  name := "Resource"
  columns := [String, String, Option String, Option String, Option Annotations]
  fields :=
    .cons (.required "uri" .string) <|
    .cons (.required "name" .string) <|
    .cons (.optional "description" .string) <|
    .cons (.optional "mimeType" .string) <|
    .cons (.optional "annotations" Annotations.codec) .nil
  exact := false
  ofRow := fun (uri, name, description, mimeType, annotations, ()) =>
    ⟨uri, name, description, mimeType, annotations⟩
  toRow r := (r.uri, r.name, r.details.description, r.details.mimeType, r.details.annotations, ())
  ofRow_toRow _ := rfl

instance : Message Resource := ⟨record.codec⟩

instance : Validated Resource ResourceStep where
  apply r step := do return { r with details := ← r.details.apply step }
  validate r := do
    checkNonEmpty "uri" r.uri
    checkNonEmpty "name" r.name
    Annotations.check r.details.annotations

def new (uri name : String) (steps : List ResourceStep) : Traced ConstructionError Resource :=
  build ⟨uri, name, .none⟩ steps

instance : Paged Resource := ⟨"ListResourcesResult", "resources"⟩

end Resource

/-- A pattern of addresses. -/
structure ResourceTemplate where
  uriTemplate : String
  name : String
  details : ResourceDetails
  deriving BEq

namespace ResourceTemplate

def record : Record ResourceTemplate where
  name := "ResourceTemplate"
  columns := [String, String, Option String, Option String, Option Annotations]
  fields :=
    .cons (.required "uriTemplate" .string) <|
    .cons (.required "name" .string) <|
    .cons (.optional "description" .string) <|
    .cons (.optional "mimeType" .string) <|
    .cons (.optional "annotations" Annotations.codec) .nil
  exact := false
  ofRow := fun (uriTemplate, name, description, mimeType, annotations, ()) =>
    ⟨uriTemplate, name, description, mimeType, annotations⟩
  toRow t :=
    (t.uriTemplate, t.name, t.details.description, t.details.mimeType, t.details.annotations, ())
  ofRow_toRow _ := rfl

instance : Message ResourceTemplate := ⟨record.codec⟩

instance : Validated ResourceTemplate ResourceStep where
  apply t step := do return { t with details := ← t.details.apply step }
  validate t := do
    checkNonEmpty "name" t.name
    checkNonEmpty "uriTemplate" t.uriTemplate
    Annotations.check t.details.annotations

def new (name uriTemplate : String) (steps : List ResourceStep) :
    Traced ConstructionError ResourceTemplate :=
  build ⟨uriTemplate, name, .none⟩ steps

instance : Paged ResourceTemplate := ⟨"ListResourceTemplatesResult", "resourceTemplates"⟩

end ResourceTemplate

/-- The wish for the resource under an address. -/
structure ReadResourceRequest where
  uri : String
  deriving BEq, DecidableEq

namespace ReadResourceRequest

def record : Record ReadResourceRequest where
  name := "ReadResourceParams"
  columns := [String]
  fields := .cons (.defaulted "uri" .string "") .nil
  exact := false
  ofRow := fun (uri, ()) => ⟨uri⟩
  toRow r := (r.uri, ())
  ofRow_toRow _ := rfl

instance : Envelope ReadResourceRequest Empty where
  method := "resources/read"
  params := record.codec
  apply _ step := nomatch step
  validate r := checkNonEmpty "uri" r.uri

def new (uri : String) : Traced ConstructionError ReadResourceRequest := build ⟨uri⟩ []

end ReadResourceRequest

/-- The contents of a resource. -/
structure ReadResourceResult where
  contents : List ResourceContent
  deriving BEq

namespace ReadResourceResult

def record : Record ReadResourceResult where
  name := "ReadResourceResult"
  columns := [List ResourceContent]
  fields := .cons (.required "contents" ResourceContent.codec.list) .nil
  exact := false
  ofRow := fun (contents, ()) => ⟨contents⟩
  toRow r := (r.contents, ())
  ofRow_toRow _ := rfl

instance : Message ReadResourceResult := ⟨record.codec⟩

instance : Validated ReadResourceResult Empty where
  apply _ step := nomatch step
  validate r := checkEach "contents" "" validate r.contents

def new (contents : List ResourceContent) : Traced ConstructionError ReadResourceResult :=
  build ⟨contents⟩ []

end ReadResourceResult

end ContextProtocol
