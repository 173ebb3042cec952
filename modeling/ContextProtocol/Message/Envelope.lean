import ContextProtocol.Message.Frame

/-!
# Envelopes

Requests and notifications share one shape, the name of the **method** beside its **params**:

    {"method": "notifications/progress", "params": {"progressToken": "t", "progress": 5}}

Reading looks at the method first; the params are kept as text until the method is known to be the
right one, so they reach their record as they were written. Absent and `null` params stand for `{}`.

* `Envelope`: types with a method, each a record of params;
* `Envelope.decode`, `Envelope.fromValue`: from a text and from a value;
* `Envelope.toRequest`, `Envelope.toNotification`, `Envelope.fromRequest`: into a frame and back.
-/
namespace ContextProtocol

/-- A request or notification: its method, and how its params are written and read. -/
class Envelope (E : Type) (Step : outParam Type) extends Validated E Step where
  method : String
  params : Codec E

/-- An envelope before its method is looked at. -/
structure EnvelopeMembers where
  method : String
  params : Option String

namespace EnvelopeMembers

/-- Any value, kept as its text. -/
def rawCodec : Codec String := ⟨.raw, .raw⟩

def record : Record EnvelopeMembers where
  name := "RawEnvelope"
  columns := [String, Option String]
  fields := .cons (.required "method" .string) (.cons (.optional "params" rawCodec) .nil)
  exact := false
  ofRow := fun (method, params, ()) => ⟨method, params⟩
  toRow m := (m.method, m.params, ())
  ofRow_toRow _ := rfl

end EnvelopeMembers

namespace Envelope

variable {E Step : Type} [Envelope E Step]

/-- Reads the params of an envelope of the right method and checks the rules. -/
def ofMembers (m : EnvelopeMembers) : Traced DecodeError E :=
  let expected := method E
  if m.method ≠ expected then
    .refuse
      (.codec ("expected method " ++ Text.quoted expected ++ ", found " ++ Text.quoted m.method))
      (.unexpectedMethod expected m.method)
  else do
    let text := m.params.getD "\x7b\x7d"
    let envelope ← ((params : Codec E).decode.runString text).mapError
      (DecodeError.malformedVariant expected)
    (validate envelope).mapError (DecodeError.invalidVariant expected)
    return envelope

/-- Reads a value. -/
def fromValue (v : Json) : Traced DecodeError E := do
  ofMembers (← (EnvelopeMembers.record.decode.runValue v).mapError DecodeError.json)

/-- Reads a byte text. -/
def decode (bytes : ByteArray) : Traced DecodeError E := do
  ofMembers (← (EnvelopeMembers.record.decode.run bytes).mapError DecodeError.json)

/-- The written object. -/
def form (e : E) : Form :=
  .object [("method", .string (method E)), ("params", params.encode e)]

/-- Writes the envelope. -/
def encode (e : E) : String := (form e).text

/-- Envelopes inside other readings, where their errors are put into words. -/
def codec : Codec E :=
  ⟨form, EnvelopeMembers.record.decode.refine fun m => (ofMembers m).mapError DecodeError.toShape⟩

instance : Message E := ⟨codec⟩

/-- The params in memory. Only a payload that was kept as text and is no JSON has none. -/
def paramsValue (e : E) : Except EncodeError Json :=
  (params.encode e).toJson.mapError .json

/-- The request of an envelope. -/
def toRequest (e : E) (id : RequestId) : Except EncodeError Request := do
  return .new (method E) (some (← paramsValue e)) id

/-- The notification of an envelope. -/
def toNotification (e : E) : Except EncodeError Request := do
  return .notification (method E) (some (← paramsValue e))

/-- The envelope of a request or notification. -/
def fromRequest (r : Request) : Traced DecodeError E :=
  fromValue (.ofMembers
    (("method", .string r.method) :: r.params.toList.map fun p => ("params", p)))

end Envelope

end ContextProtocol
