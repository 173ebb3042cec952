import ContextProtocol.Json.Document
import ContextProtocol.Text.Basic

/-!
# Shape errors

Why a document is not what a reader expected: the text is no JSON (`fault`), or a value has another
type, an object lacks or repeats a member, a word is not in its list.

* `ShapeError.describe`: the wording, given the words for the faults of a text, and
  `ShapeError.message`, the full one.
-/
namespace ContextProtocol

/-- What stands where something else was expected. -/
inductive Found where
  | integer (value : Int)
  | float (value : Float)
  | string (value : String)
  | bool (value : Bool)
  | null
  | array
  | object

def Found.text : Found → String
  | .integer i => "integer `" ++ toString i ++ "`"
  | .float x => "floating point `" ++ Decimal.wire x ++ "`"
  | .string s => "string " ++ Text.quoted s
  | .bool true => "boolean `true`"
  | .bool false => "boolean `false`"
  | .null => "null"
  | .array => "sequence"
  | .object => "map"

/-- A document that does not have the shape of a type. -/
inductive ShapeError where
  | fault (fault : Fault)
  | missingField (name : String)
  | duplicateField (name : String)
  | unknownField (name : String) (expected : List String)
  | invalidType (found : Found) (expected : String)
  | invalidValue (found : Found) (expected : String)
  | invalidLength (length : Nat) (expected : String)
  | unknownVariant (name : String) (expected : List String)
  | noVariant (type : String)
  /-- An error of a nested payload, in its own words. -/
  | payload (text : String)

namespace ShapeError

private def tick (name : String) : String := "`" ++ name ++ "`"

/-- The names that are allowed, for the end of a sentence. -/
def choices : List String → String
  | [] => "there are none"
  | [a] => tick a
  | [a, b] => tick a ++ " or " ++ tick b
  | names => "one of " ++ ", ".intercalate (names.map tick)

/-- The wording, with `shown` for the faults of a text. -/
def describe (shown : Fault → String) : ShapeError → String
  | .fault f => shown f
  | .missingField name => "missing field " ++ tick name
  | .duplicateField name => "duplicate field " ++ tick name
  | .unknownField name expected =>
    "unknown field " ++ tick name ++ ", expected " ++ choices expected
  | .invalidType found expected => "invalid type: " ++ found.text ++ ", expected " ++ expected
  | .invalidValue found expected => "invalid value: " ++ found.text ++ ", expected " ++ expected
  | .invalidLength n expected => "invalid length " ++ toString n ++ ", expected " ++ expected
  | .unknownVariant name expected =>
    "unknown variant " ++ tick name ++ ", expected " ++ choices expected
  | .noVariant type => "data did not match any variant of untagged enum " ++ type
  | .payload text => text

/-- The full wording. -/
def message : ShapeError → String := describe Fault.message

end ShapeError

end ContextProtocol
