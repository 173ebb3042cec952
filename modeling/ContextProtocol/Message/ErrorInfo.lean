import ContextProtocol.Message.ErrorData

/-!
# Errors of responses

* `ErrorRegistry`: which reader takes the data of a code and a tag, and which tag a code falls back
  on when the data has none. A tag becomes a fallback only once it has a reader
  (`ErrorRegistry.withDefault`);
* `ErrorInfo`: the code, the message and the data of an error. Data under a code without readers is
  dropped; data of a kind that belongs to another code is refused.
-/
namespace ContextProtocol

/-- The readers of error data. -/
structure ErrorRegistry where
  routes : Table (Int32 × String) ErrorData.Reader
  defaults : Table Int32 String

namespace ErrorRegistry

/-- Puts a reader in place of the one that the code and the tag had. -/
def register (r : ErrorRegistry) (code : Int32) (tag : String) (reader : ErrorData.Reader) :
    ErrorRegistry :=
  { r with routes := r.routes.insert (code, tag) reader }

/-- Lets data without a tag be read as `tag`, if the code has a reader for it. -/
def withDefault (r : ErrorRegistry) (code : Int32) (tag : String) : ErrorRegistry :=
  if r.routes.contains (code, tag) then { r with defaults := r.defaults.insert code tag } else r

/-- The kinds that every registry begins with. -/
def new : ErrorRegistry :=
  let invalidParams := ErrorCode.invalidParams.code
  let internalError := ErrorCode.internalError.code
  ErrorRegistry.mk .empty .empty
    |>.register invalidParams ValidationDetails.tag ErrorData.readValidation
    |>.withDefault invalidParams ValidationDetails.tag
    |>.register internalError ToolExecutionDetails.tag ErrorData.readToolExecution

/-- The tags of a code, ascending. -/
def errorTypes (r : ErrorRegistry) (code : Int32) : List String :=
  (r.routes.keys.filter fun k => k.1 = code).map (·.2)

def knowsCode (r : ErrorRegistry) (code : Int32) : Bool := r.routes.keys.any fun k => k.1 = code

/-- The data of an error with the code. Without readers for the code, or without a tag and a
fallback, the data is dropped. -/
def decode (r : ErrorRegistry) (code : Int32) (data : Json) :
    Traced DecodeError (Option ErrorData) := do
  let shown := toString code.toInt
  if !r.knowsCode code then
    .report (.codec ("no error kinds registered for code " ++ shown ++ "; discarding data"))
    return none
  let (tag?, object) ← splitTag errorTypeField data
  match tag?.or (r.defaults.get? code) with
  | none =>
    .report (.codec ("code " ++ shown ++ " has several kinds and no errorType; discarding data"))
    return none
  | some tag =>
    match r.routes.get? (code, tag) with
    | none =>
      .refuse (.codec ("unknown errorType " ++ Text.quoted tag ++ " for code " ++ shown))
        (.unknownErrorType code tag)
    | some reader => some <$> reader tag object

/-- The codes, tags and fallbacks in one line. -/
def summary (r : ErrorRegistry) : String :=
  let route := fun (k : Int32 × String) =>
    "(" ++ toString k.1.toInt ++ ", " ++ Text.quoted k.2 ++ ")"
  let fallback := fun (e : Int32 × String) => toString e.1.toInt ++ ": " ++ Text.quoted e.2
  "ErrorDataRegistry \x7b routes: [" ++ ", ".intercalate (r.routes.keys.map route) ++
    "], defaults: \x7b" ++ ", ".intercalate (r.defaults.entries.map fallback) ++ "\x7d \x7d"

end ErrorRegistry

/-- The error of a response. -/
structure ErrorInfo where
  code : Int32
  message : String
  data : Option ErrorData
  deriving BEq

/-- A step in the construction of an error. -/
inductive ErrorInfoStep where
  | data (data : ErrorData)

/-- The members of an error before its data is read. -/
structure ErrorMembers where
  code : Int32
  message : String
  data : Option Json

namespace ErrorMembers

def record : Record ErrorMembers where
  name := "RawErrorInfo"
  columns := [Int32, String, Option Json]
  fields := .cons (.required "code" .int32) (.cons (.required "message" .string)
    (.cons (.optional "data" .json) .nil))
  exact := false
  ofRow := fun (code, message, data, ()) => ⟨code, message, data⟩
  toRow m := (m.code, m.message, m.data, ())
  ofRow_toRow _ := rfl

end ErrorMembers

namespace ErrorInfo

/-- Data that belongs to a code goes with no other. -/
def checkCode (code : Int32) (data : ErrorData) : Except ConstructionError Unit :=
  match data.expectedCode with
  | none => .ok ()
  | some expected =>
    if expected = code then .ok ()
    else .error ⟨"data", Text.quoted data.errorType ++ " data requires code " ++
      toString expected.toInt ++ ", got " ++ toString code.toInt⟩

instance : Validated ErrorInfo ErrorInfoStep where
  apply e
    | .data d => .ok { e with data := some d }
  validate e :=
    match e.data with
    | none => .ok ()
    | some d => do
      checkCode e.code d
      (validate d).mapError (·.within "data")

def new (code : Int32) (message : String) (steps : List ErrorInfoStep) :
    Traced ConstructionError ErrorInfo := do
  checkNonEmpty "message" message
  build ⟨code, message, none⟩ steps

def ofCode (code : ErrorCode) : ErrorInfo := ⟨code.code, code.defaultMessage, none⟩

def methodNotFound (method : String) : ErrorInfo :=
  ⟨ErrorCode.methodNotFound.code, "Method not found: " ++ method, none⟩

def invalidParams (message : String) : ErrorInfo := ⟨ErrorCode.invalidParams.code, message, none⟩

def internalError (message : String) : ErrorInfo := ⟨ErrorCode.internalError.code, message, none⟩

def validation (failures : List ValidationFailure) : Traced ConstructionError ErrorInfo := do
  let details ← ValidationDetails.new failures
  return ⟨ErrorCode.invalidParams.code, ErrorCode.invalidParams.defaultMessage,
    some (.validation details)⟩

def toolExecution (toolName errorKind details : String) : Traced ConstructionError ErrorInfo := do
  let details ← ToolExecutionDetails.new toolName errorKind details
  return ⟨ErrorCode.internalError.code, "Tool execution failed", some (.toolExecution details)⟩

/-- The code and the message in one line. -/
def text (e : ErrorInfo) : String := "[" ++ toString e.code.toInt ++ "] " ++ e.message

/-- The written object. -/
def form (e : ErrorInfo) : Form :=
  .object ([("code", .integer e.code.toInt), ("message", .string e.message)] ++
    e.data.toList.map fun d => ("data", d.form))

/-- The object in memory. -/
def toValue (e : ErrorInfo) : Except EncodeError Json := do
  let data ← e.data.mapM ErrorData.toValue
  return .ofMembers ([("code", .ofInt e.code.toInt), ("message", .string e.message)] ++
    data.toList.map fun d => ("data", d))

/-- Writes the error, unless its data cannot be written. -/
def encode (e : ErrorInfo) : Except EncodeError String := do
  let _ ← e.data.mapM ErrorData.toValue
  return e.form.text

/-- Reads a value; the registry says what the data is. -/
def fromValueWith (registry : ErrorRegistry) (v : Json) : Traced DecodeError ErrorInfo := do
  let members ← (ErrorMembers.record.decode.runValue v).mapError DecodeError.json
  let data ←
    match members.data with
    | none => pure none
    | some data => registry.decode members.code data
  let info : ErrorInfo := ⟨members.code, members.message, data⟩
  (validate info).mapError DecodeError.invalid
  return info

def fromValue : Json → Traced DecodeError ErrorInfo := fromValueWith .new

/-- Reads a byte text; the registry says what the data is. -/
def decodeWith (registry : ErrorRegistry) (bytes : ByteArray) : Traced DecodeError ErrorInfo := do
  let v ← (Json.parseBytes bytes).mapError DecodeError.json
  fromValueWith registry v

def decode : ByteArray → Traced DecodeError ErrorInfo := decodeWith .new

/-- Errors inside other values: they are read as a value first. -/
def codec : Codec ErrorInfo :=
  ⟨form, Decoder.json.refine fun v => (fromValue v).mapError DecodeError.toShape⟩

instance : Message ErrorInfo := ⟨codec⟩

end ErrorInfo

end ContextProtocol
