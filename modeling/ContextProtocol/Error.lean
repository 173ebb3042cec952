import ContextProtocol.ConstructionError
import ContextProtocol.Shape.Error

/-!
# Errors of messages

* `DecodeError`: why a text or value is no message;
* `EncodeError`: why a message has no text;
* `ErrorCode`: the codes that JSON-RPC 2.0 reserves.

Each error is a cause; `describe` puts it into words, given the words for shape errors.
-/
namespace ContextProtocol

/-- Why a message could not be read. -/
inductive DecodeError where
  /-- Not JSON, or not the shape of a plain record. -/
  | json (error : ShapeError)
  /-- The member that names the variant is absent or no string. -/
  | missingDiscriminator (field : String)
  /-- The member that names the variant names none. -/
  | unknownDiscriminator (field value : String)
  /-- The variant is known and its members do not fit. -/
  | malformedVariant (discriminator : String) (error : ShapeError)
  /-- The variant was read and breaks a rule. -/
  | invalidVariant (discriminator : String) (error : ConstructionError)
  /-- A value without variants was read and breaks a rule. -/
  | invalid (error : ConstructionError)
  /-- The error code is known and the type of its data is not. -/
  | unknownErrorType (code : Int32) (errorType : String)
  /-- The envelope of another method. -/
  | unexpectedMethod (expected found : String)
  /-- The text is longer than the configuration admits. -/
  | messageTooLarge (size : Nat)

namespace DecodeError

/-- The failure comes from a name of a variant that is not known. -/
def isUnknownDiscriminator : DecodeError → Bool
  | .unknownDiscriminator .. | .unknownErrorType .. => true
  | _ => false

/-- The wording, with `shown` for shape errors. -/
def describe (shown : ShapeError → String) : DecodeError → String
  | .json e => "JSON error: " ++ shown e
  | .missingDiscriminator field => "missing discriminator field `" ++ field ++ "`"
  | .unknownDiscriminator field value =>
    "unknown type: " ++ field ++ " = " ++ Text.quoted value
  | .malformedVariant d e => "malformed " ++ Text.quoted d ++ " payload: " ++ shown e
  | .invalidVariant d e => "invalid " ++ Text.quoted d ++ " payload: " ++ e.message
  | .invalid e => "invalid payload: " ++ e.message
  | .unknownErrorType code t =>
    "unknown error type: " ++ Text.quoted t ++ " for code " ++ toString code.toInt
  | .unexpectedMethod expected found =>
    "unexpected method " ++ Text.quoted found ++ ", expected " ++ Text.quoted expected
  | .messageTooLarge size => "Message too large: " ++ toString size ++ " bytes"

def message : DecodeError → String := describe ShapeError.message

/-- The error of a nested payload, as the record around it reports it. -/
def toShape (e : DecodeError) : ShapeError := .payload e.message

end DecodeError

/-- Why a message could not be written. -/
inductive EncodeError where
  /-- A payload that was kept as text is no JSON, or the body of a variant is no object. -/
  | json (error : ShapeError)
  /-- The variant has no name. -/
  | unpopulatedVariant (field : String)
  /-- The body has a member where the name of the variant goes. -/
  | discriminatorMismatch (field tag : String)

namespace EncodeError

/-- The wording, with `shown` for shape errors. -/
def describe (shown : ShapeError → String) : EncodeError → String
  | .json e => "JSON error: " ++ shown e
  | .unpopulatedVariant field => "cannot encode payload without a `" ++ field ++ "` tag"
  | .discriminatorMismatch field tag =>
    "payload fields redefine `" ++ field ++ "` for variant " ++ Text.quoted tag

def message : EncodeError → String := describe ShapeError.message

end EncodeError

/-- The error codes that JSON-RPC 2.0 reserves. -/
inductive ErrorCode where
  | parseError
  | invalidRequest
  | methodNotFound
  | invalidParams
  | internalError
  deriving DecidableEq, Repr

namespace ErrorCode

def code : ErrorCode → Int32
  | .parseError => -32700
  | .invalidRequest => -32600
  | .methodNotFound => -32601
  | .invalidParams => -32602
  | .internalError => -32603

def all : List ErrorCode :=
  [.parseError, .invalidRequest, .methodNotFound, .invalidParams, .internalError]

/-- The reserved code of a number, if it is one. -/
def ofCode? (n : Int32) : Option ErrorCode := all.find? (fun c => c.code = n)

def defaultMessage : ErrorCode → String
  | .parseError => "Parse error"
  | .invalidRequest => "Invalid request"
  | .methodNotFound => "Method not found"
  | .invalidParams => "Invalid parameters"
  | .internalError => "Internal error"

def text (c : ErrorCode) : String := c.defaultMessage ++ " (" ++ toString c.code.toInt ++ ")"

theorem ofCode?_code (c : ErrorCode) : ofCode? c.code = some c := by
  cases c <;> decide

end ErrorCode

end ContextProtocol
