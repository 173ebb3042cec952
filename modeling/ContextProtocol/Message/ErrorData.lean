import ContextProtocol.Message.Tagged

/-!
# Structured error data

What an error says beside its code and message: an object told apart by the member `errorType`.

* `ValidationDetails`, `ToolExecutionDetails`: the kinds that every registry knows;
* `ExtensionDetails`: a kind of its own with any members but the tag. The type holds the rules, so
  such data can always be written;
* `ErrorData`: one of them, with the decoders that a registry chooses from.
-/
namespace ContextProtocol

/-- A field that was refused, and why. -/
structure ValidationFailure where
  field : String
  error : String
  deriving BEq, DecidableEq

namespace ValidationFailure

def record : Record ValidationFailure where
  name := "ValidationFailure"
  columns := [String, String]
  fields := .cons (.required "field" .string) (.cons (.required "error" .string) .nil)
  exact := false
  ofRow := fun (field, error, ()) => ⟨field, error⟩
  toRow f := (f.field, f.error, ())
  ofRow_toRow _ := rfl

instance : Message ValidationFailure := ⟨record.codec⟩

/-- The failure that a construction error stands for. -/
def ofError (e : ConstructionError) : ValidationFailure := ⟨e.field, e.reason⟩

end ValidationFailure

/-- The failures of a validation; there is at least one. -/
structure ValidationDetails where
  failures : List ValidationFailure
  deriving BEq, DecidableEq

namespace ValidationDetails

/-- The tag of validation data, also the name of its member. -/
def tag : String := "validation"

def record : Record ValidationDetails where
  name := "ValidationDetails"
  columns := [List ValidationFailure]
  fields := .cons (.required tag (.list ValidationFailure.record.codec)) .nil
  exact := false
  ofRow := fun (failures, ()) => ⟨failures⟩
  toRow d := (d.failures, ())
  ofRow_toRow _ := rfl

def codec : Codec ValidationDetails := record.codec

instance : Message ValidationDetails := ⟨codec⟩

instance : Validated ValidationDetails Empty where
  apply _ step := nomatch step
  validate d := if d.failures.isEmpty then .error (.empty tag) else .ok ()

def new (failures : List ValidationFailure) : Traced ConstructionError ValidationDetails :=
  build ⟨failures⟩ []

end ValidationDetails

/-- A tool that failed: its name, the kind of the failure and, if known, its details. -/
structure ToolExecutionDetails where
  toolName : String
  errorKind : String
  details : String
  deriving BEq, DecidableEq

namespace ToolExecutionDetails

def tag : String := "toolExecution"

def record : Record ToolExecutionDetails where
  name := "ToolExecutionDetails"
  columns := [String, String, String]
  fields := .cons (.required "toolName" .string) (.cons (.required "errorKind" .string)
    (.cons ⟨"details", .string, .defaulted "", String.isEmpty⟩ .nil))
  exact := false
  ofRow := fun (toolName, errorKind, details, ()) => ⟨toolName, errorKind, details⟩
  toRow d := (d.toolName, d.errorKind, d.details, ())
  ofRow_toRow _ := rfl

def codec : Codec ToolExecutionDetails := record.codec

instance : Message ToolExecutionDetails := ⟨codec⟩

instance : Validated ToolExecutionDetails Empty where
  apply _ step := nomatch step
  validate d := do
    checkNonEmpty "toolName" d.toolName
    checkNonEmpty "errorKind" d.errorKind

def new (toolName errorKind details : String) : Traced ConstructionError ToolExecutionDetails :=
  build ⟨toolName, errorKind, details⟩ []

end ToolExecutionDetails

/-- The name of the member that tells the kinds apart. -/
def errorTypeField : String := "errorType"

/-- A kind of its own: any tag and any members but the tag. -/
structure ExtensionDetails where
  errorType : String
  fields : Dict Json
  errorType_ne_empty : errorType ≠ ""
  tag_not_mem : fields.get? errorTypeField = none

namespace ExtensionDetails

instance : BEq ExtensionDetails where
  beq a b := a.errorType == b.errorType && a.fields == b.fields

def new (errorType : String) (fields : Dict Json) : Except ConstructionError ExtensionDetails :=
  if h : errorType = "" then .error (.empty errorTypeField)
  else
    if h' : fields.get? errorTypeField = none then .ok ⟨errorType, fields, h, h'⟩
    else .error ⟨errorTypeField, "must not appear among the extension fields"⟩

end ExtensionDetails

/-- The data of an error. -/
inductive ErrorData where
  | validation (details : ValidationDetails)
  | toolExecution (details : ToolExecutionDetails)
  | extension (details : ExtensionDetails)
  deriving BEq

namespace ErrorData

def errorType : ErrorData → String
  | .validation _ => ValidationDetails.tag
  | .toolExecution _ => ToolExecutionDetails.tag
  | .extension d => d.errorType

/-- The code that the data belongs to; a kind of its own goes with any. -/
def expectedCode : ErrorData → Option Int32
  | .validation _ => some ErrorCode.invalidParams.code
  | .toolExecution _ => some ErrorCode.internalError.code
  | .extension _ => none

/-- The members beside the tag. -/
def body : ErrorData → Form
  | .validation d => ValidationDetails.codec.encode d
  | .toolExecution d => ToolExecutionDetails.codec.encode d
  | .extension d => (Codec.dict .json).encode d.fields

/-- The written object. -/
def form (d : ErrorData) : Form := taggedForm errorTypeField d.errorType d.body

/-- The object in memory. -/
def toValue (d : ErrorData) : Except EncodeError Json :=
  (taggedObject errorTypeField d.errorType d.body).map fun object => .object object.entries

instance : Validated ErrorData Empty where
  apply _ step := nomatch step
  validate
    | .validation d => validate d
    | .toolExecution d => validate d
    | .extension _ => .ok ()

/-- Reads an object, which may hold its tag, as data of the kind that the tag names. -/
def Reader : Type := String → Dict Json → Traced DecodeError ErrorData

def readValidation : Reader := fun tag object =>
  .validation <$> decodeVariant ValidationDetails.codec tag object

def readToolExecution : Reader := fun tag object =>
  .toolExecution <$> decodeVariant ToolExecutionDetails.codec tag object

def readExtension : Reader := fun tag object =>
  .ofExcept <| ((ExtensionDetails.new tag (object.erase errorTypeField)).map .extension).mapError
    (.invalidVariant tag)

end ErrorData

end ContextProtocol
