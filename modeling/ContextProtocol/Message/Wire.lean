import ContextProtocol.Config
import ContextProtocol.Message.Frame

/-!
# Entry points

Byte texts in and out. Reading checks the shape first and then the rules, and may refuse texts that
are longer than a configuration admits before it looks at them.

* `Wire.encode`: the compact text of a message;
* `Wire.decode`, `Wire.decodeWith`: a message that obeys its rules;
* `Wire.decodeFrame`: a frame.
-/
namespace ContextProtocol.Wire

variable {α Step : Type}

def encode [Message α] (value : α) : String := ((Message.codec : Codec α).encode value).text

/-- Reads a value of a type and checks its rules. -/
def decode [Message α] [Validated α Step] (bytes : ByteArray) : Traced DecodeError α := do
  let value ← ((Message.codec : Codec α).decode.run bytes).mapError DecodeError.json
  (validate value).mapError DecodeError.invalid
  return value

/-- Refuses a text that is too long. -/
def checkSize (config : Config) (bytes : ByteArray) : Traced DecodeError Unit :=
  let limit := config.maxMessageSize.toNat
  if limit < bytes.size then
    .refuse
      (.wire ("rejecting " ++ toString bytes.size ++ " bytes (limit " ++ toString limit ++ ")"))
      (.messageTooLarge bytes.size)
  else .report (.wire ("decoding " ++ toString bytes.size ++ " bytes"))

/-- Reads a value of a type from a text of bounded length. -/
def decodeWith [Message α] [Validated α Step] (config : Config) (bytes : ByteArray) :
    Traced DecodeError α := do
  checkSize config bytes
  decode bytes

/-- Reads a frame from a text of bounded length. -/
def decodeFrame (config : Config) (bytes : ByteArray) : Traced DecodeError Frame := do
  checkSize config bytes
  (Frame.codec.decode.run bytes).mapError DecodeError.json

end ContextProtocol.Wire
