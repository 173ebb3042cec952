import ContextProtocol.Message.Tagged

/-!
# Content

The payloads of tool results, prompts and samples: a text, an image or a resource, told apart by the
member `type`.

* `Annotations`: whom a payload is meant for and how much it matters;
* `TextContent`, `ImageContent`, `ResourceContent`: the three variants;
* `Content`: one of them, with `Content.fromValue`, `Content.decode` and `Content.encode`;
* `Turn`: content with the side of the conversation that says it.
-/
namespace ContextProtocol

/-- A side of a conversation. -/
inductive Role where
  | user
  | assistant
  deriving DecidableEq, Repr

namespace Role

def text : Role → String
  | .user => "user"
  | .assistant => "assistant"

def all : List Role := [.user, .assistant]

def codec : Codec Role := .word (all.map fun r => (r.text, r))

instance : Message Role := ⟨codec⟩

end Role

/-- Whom a payload is meant for, and how much it matters. -/
structure Annotations where
  audience : List Role
  priority : Option Float
  deriving BEq

/-- A step in the construction of annotations. -/
inductive AnnotationsStep where
  /-- Adds an intended reader, once. -/
  | audience (role : Role)
  /-- The importance, from 0 to 1. -/
  | priority (value : Float)

namespace Annotations

def record : Record Annotations where
  name := "Annotations"
  columns := [List Role, Option Float]
  fields := .cons (.listed "audience" Role.codec) (.cons (.optional "priority" .float) .nil)
  exact := false
  ofRow := fun (audience, priority, ()) => ⟨audience, priority⟩
  toRow a := (a.audience, a.priority, ())
  ofRow_toRow _ := rfl

def codec : Codec Annotations := record.codec

instance : Message Annotations := ⟨codec⟩

/-- The first role that stood in the list before. -/
def repeatedRole : List Role → List Role → Option Role
  | _, [] => none
  | seen, role :: rest => if role ∈ seen then some role else repeatedRole (role :: seen) rest

def checkPriority : Option Float → Except ConstructionError Unit
  | none => .ok ()
  | some p => checkRange "priority" p 0 1

instance : Validated Annotations AnnotationsStep where
  apply a
    | .audience role =>
      .ok (if role ∈ a.audience then a else { a with audience := a.audience ++ [role] })
    | .priority p => do
      checkRange "priority" p 0 1
      return { a with priority := some p }
  validate a := do
    match repeatedRole [] a.audience with
    | some role => .error ⟨"audience", "lists " ++ role.text ++ " more than once"⟩
    | none => checkPriority a.priority

def new (steps : List AnnotationsStep) : Traced ConstructionError Annotations :=
  build ⟨[], none⟩ steps

/-- The rules of annotations that may be unset, seen from the value that holds them. -/
def check : Option Annotations → Except ConstructionError Unit
  | none => .ok ()
  | some a => (validate a).mapError (·.within "annotations")

end Annotations

/-- A text. -/
structure TextContent where
  text : String
  annotations : Option Annotations
  deriving BEq

namespace TextContent

def record : Record TextContent where
  name := "TextContent"
  columns := [String, Option Annotations]
  fields := .cons (.required "text" .string)
    (.cons (.optional "annotations" Annotations.codec) .nil)
  exact := false
  ofRow := fun (text, annotations, ()) => ⟨text, annotations⟩
  toRow c := (c.text, c.annotations, ())
  ofRow_toRow _ := rfl

def codec : Codec TextContent := record.codec

instance : Message TextContent := ⟨codec⟩

instance : Validated TextContent Empty where
  apply _ step := nomatch step
  validate c := Annotations.check c.annotations

end TextContent

/-- An image in base64. Neither the encoding nor the type is looked at. -/
structure ImageContent where
  data : String
  mimeType : String
  annotations : Option Annotations
  deriving BEq

namespace ImageContent

def record : Record ImageContent where
  name := "ImageContent"
  columns := [String, String, Option Annotations]
  fields := .cons (.required "data" .string) (.cons (.required "mimeType" .string)
    (.cons (.optional "annotations" Annotations.codec) .nil))
  exact := false
  ofRow := fun (data, mimeType, annotations, ()) => ⟨data, mimeType, annotations⟩
  toRow c := (c.data, c.mimeType, c.annotations, ())
  ofRow_toRow _ := rfl

def codec : Codec ImageContent := record.codec

instance : Message ImageContent := ⟨codec⟩

instance : Validated ImageContent Empty where
  apply _ step := nomatch step
  validate c := Annotations.check c.annotations

end ImageContent

/-- A resource with its body: either a text or a blob in base64. -/
structure ResourceContent where
  uri : String
  mimeType : Option String
  text : Option String
  blob : Option String
  annotations : Option Annotations
  deriving BEq

/-- A step in the construction of a resource. -/
inductive ResourceContentStep where
  /-- The body as a text, refused once there is a blob. -/
  | text (body : String)
  /-- The body in base64, refused once there is a text. -/
  | blob (body : String)
  | mimeType (type : String)
  | annotations (annotations : Annotations)

namespace ResourceContent

def record : Record ResourceContent where
  name := "ResourceContent"
  columns := [String, Option String, Option String, Option String, Option Annotations]
  fields := .cons (.required "uri" .string) (.cons (.optional "mimeType" .string)
    (.cons (.optional "text" .string) (.cons (.optional "blob" .string)
      (.cons (.optional "annotations" Annotations.codec) .nil))))
  exact := false
  ofRow := fun (uri, mimeType, text, blob, annotations, ()) =>
    ⟨uri, mimeType, text, blob, annotations⟩
  toRow c := (c.uri, c.mimeType, c.text, c.blob, c.annotations, ())
  ofRow_toRow _ := rfl

def codec : Codec ResourceContent := record.codec

instance : Message ResourceContent := ⟨codec⟩

/-- Exactly one of the two bodies is set. -/
def checkBody (text blob : Option String) : Except ConstructionError Unit :=
  match text, blob with
  | some _, some _ => .error ⟨"text", "exactly one of text or blob may be set"⟩
  | none, none => .error ⟨"text", "one of text or blob is required"⟩
  | _, _ => .ok ()

instance : Validated ResourceContent ResourceContentStep where
  apply c
    | .text body =>
      if c.blob.isSome then .error ⟨"text", "blob is already set"⟩
      else .ok { c with text := some body }
    | .blob body =>
      if c.text.isSome then .error ⟨"blob", "text is already set"⟩
      else .ok { c with blob := some body }
    | .mimeType type => do
      checkNonEmpty "mimeType" type
      return { c with mimeType := some type }
    | .annotations a => .ok { c with annotations := some a }
  validate c := do
    checkNonEmpty "uri" c.uri
    checkBody c.text c.blob
    Annotations.check c.annotations

def new (uri : String) (steps : List ResourceContentStep) :
    Traced ConstructionError ResourceContent :=
  build ⟨uri, none, none, none, none⟩ steps

/-- A text with its type. -/
def textBody (uri mimeType text : String) : Traced ConstructionError ResourceContent :=
  new uri [.mimeType mimeType, .text text]

end ResourceContent

/-- The variants of content. -/
inductive ContentType where
  | text
  | image
  | resource
  deriving DecidableEq, Repr

namespace ContentType

def tag : ContentType → String
  | .text => "text"
  | .image => "image"
  | .resource => "resource"

def all : List ContentType := [.text, .image, .resource]

/-- The variant that a tag names. -/
def ofTag? (tag : String) : Option ContentType := all.find? (fun t => t.tag = tag)

theorem ofTag?_tag (t : ContentType) : ofTag? t.tag = some t := by
  cases t <;> decide

end ContentType

/-- A text, an image or a resource. -/
inductive Content where
  | text (content : TextContent)
  | image (content : ImageContent)
  | resource (content : ResourceContent)
  deriving BEq

namespace Content

/-- The name of the member that tells the variants apart. -/
def typeField : String := "type"

def type : Content → ContentType
  | .text _ => .text
  | .image _ => .image
  | .resource _ => .resource

/-- The text of a text. -/
def asText : Content → Option String
  | .text c => some c.text
  | _ => none

def annotations : Content → Option Annotations
  | .text c => c.annotations
  | .image c => c.annotations
  | .resource c => c.annotations

/-- The members of the variant. -/
def body : Content → Form
  | .text c => TextContent.codec.encode c
  | .image c => ImageContent.codec.encode c
  | .resource c => ResourceContent.codec.encode c

instance : Validated Content Empty where
  apply _ step := nomatch step
  validate
    | .text c => validate c
    | .image c => validate c
    | .resource c => validate c

/-- Reads a value, naming what is wrong with its tag or its members. -/
def fromValue (v : Json) : Traced DecodeError Content := do
  let (tag, object) ← requireTag typeField v
  match ContentType.ofTag? tag with
  | none => refuseTag typeField tag
  | some type =>
    .report (.codec ("decoding " ++ type.tag ++ " content"))
    match type with
    | .text => .text <$> decodeVariant TextContent.codec tag object
    | .image => .image <$> decodeVariant ImageContent.codec tag object
    | .resource => .resource <$> decodeVariant ResourceContent.codec tag object

/-- Reads a byte text. -/
def decode (bytes : ByteArray) : Traced DecodeError Content := do
  let v ← (Json.parseBytes bytes).mapError DecodeError.json
  fromValue v

/-- The written object. -/
def form (c : Content) : Form := taggedForm typeField c.type.tag c.body

/-- Writes the content. -/
def encode (c : Content) : Except EncodeError String :=
  (encodeTagged typeField c.type.tag c.body).map Form.text

/-- Content inside other values: it is read as a value first. -/
def codec : Codec Content :=
  ⟨form, Decoder.json.refine fun v => (fromValue v).mapError DecodeError.toShape⟩

instance : Message Content := ⟨codec⟩

end Content

/-- A message of a conversation: who says it and what is said. -/
structure Turn where
  role : Role
  content : Content
  deriving BEq

namespace Turn

/-- Messages of the record type `name`. -/
def codec (name : String) : Codec Turn :=
  Record.codec
    { name, columns := [Role, Content]
      fields := .cons (.required "role" Role.codec) (.cons (.required "content" Content.codec) .nil)
      exact := false, ofRow := fun (role, content, ()) => ⟨role, content⟩
      toRow := fun t => (t.role, t.content, ()), ofRow_toRow := fun _ => rfl }

/-- There are messages, and the content of each is valid. -/
def checkAll (messages : List Turn) : Except ConstructionError Unit :=
  if messages.isEmpty then .error (.empty "messages")
  else checkEach "messages" ".content" (fun t => validate t.content) messages

end Turn

end ContextProtocol
