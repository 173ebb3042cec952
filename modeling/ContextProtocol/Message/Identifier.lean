import ContextProtocol.Shape.Record

/-!
# Identifiers

Requests and the progress reports that belong to them are told apart by identifiers, which are
texts or integers. A text of digits and the integer are different identifiers.
-/
namespace ContextProtocol

/-- An integer or a text. -/
inductive Identifier where
  | number (value : Int64)
  | string (value : String)
  deriving DecidableEq

namespace Identifier

/-- The identifier without a mark of its kind. -/
def text : Identifier → String
  | .number n => toString n.toInt
  | .string s => s

def isString : Identifier → Bool
  | .number _ => false
  | .string _ => true

def form : Identifier → Form
  | .number n => .integer n.toInt
  | .string s => .string s

end Identifier

namespace Decoder

variable {α : Type}

/-- The value that the first decoder finds that finds one. -/
def firstOf (type : String) (origin : Origin) (doc : Sourced Doc) :
    List (Decoder α) → Traced ShapeError α
  | [] => .fail (.noVariant type)
  | d :: rest =>
    let attempt := d origin doc
    match attempt.result with
    | .ok _ => attempt
    | .error _ =>
      let other := firstOf type origin doc rest
      ⟨attempt.events ++ other.events, other.result⟩

/-- A type whose variants have no tag: the document is taken apart once, and the variants are tried
in their order. -/
def untagged (type : String) (variants : List (Decoder α)) : Decoder α := fun origin doc => do
  doc.value.verify origin
  firstOf type .value doc variants

end Decoder

/-- What a request and its response have in common. -/
abbrev RequestId := Identifier

/-- What a request and the reports about it have in common. -/
abbrev ProgressToken := Identifier

namespace Identifier

def codec (type : String) : Codec Identifier :=
  ⟨form, .untagged type [Decoder.int64.map .number, Decoder.string.map .string]⟩

/-- Identifiers of requests. -/
def requestCodec : Codec RequestId := codec "RequestId"

/-- Identifiers in progress reports. -/
def tokenCodec : Codec ProgressToken := codec "ProgressToken"

end Identifier

end ContextProtocol
