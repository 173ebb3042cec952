import ContextProtocol.Message.ErrorInfo
import ContextProtocol.Message.Identifier

/-!
# JSON-RPC frames

Requests, notifications and responses travel in frames. A frame names its version, but any text is
taken for one.

* `Request`: a request, or without an identifier a notification;
* `Response`: a result or an error; its identifier is written as `null` when there is none;
* `Frame`: one of them. A frame that can be read as a request is one.
-/
namespace ContextProtocol

/-- The version that frames name. -/
def frameVersion : String := "2.0"

/-- A request or notification. -/
structure Request where
  version : String
  method : String
  params : Option Json
  id : Option RequestId
  deriving BEq

namespace Request

def record : Record Request where
  name := "JsonRpcRequest"
  columns := [String, String, Option Json, Option RequestId]
  fields := .cons (.required "jsonrpc" .string) (.cons (.required "method" .string)
    (.cons (.optional "params" .json) (.cons (.optional "id" Identifier.requestCodec) .nil)))
  exact := false
  ofRow := fun (version, method, params, id, ()) => ⟨version, method, params, id⟩
  toRow r := (r.version, r.method, r.params, r.id, ())
  ofRow_toRow _ := rfl

def codec : Codec Request := record.codec

instance : Message Request := ⟨codec⟩

def new (method : String) (params : Option Json) (id : RequestId) : Request :=
  ⟨frameVersion, method, params, some id⟩

def notification (method : String) (params : Option Json) : Request :=
  ⟨frameVersion, method, params, none⟩

def isNotification (r : Request) : Bool := r.id.isNone

end Request

/-- A response. -/
structure Response where
  version : String
  result : Option Json
  error : Option ErrorInfo
  id : Option RequestId
  deriving BEq

namespace Response

def record : Record Response where
  name := "JsonRpcResponse"
  columns := [String, Option Json, Option ErrorInfo, Option RequestId]
  fields := .cons (.required "jsonrpc" .string) (.cons (.optional "result" .json)
    (.cons (.optional "error" ErrorInfo.codec)
      (.cons ⟨"id", .option Identifier.requestCodec, .optional none, fun _ => false⟩ .nil)))
  exact := false
  ofRow := fun (version, result, error, id, ()) => ⟨version, result, error, id⟩
  toRow r := (r.version, r.result, r.error, r.id, ())
  ofRow_toRow _ := rfl

def codec : Codec Response := record.codec

instance : Message Response := ⟨codec⟩

def success (id : RequestId) (result : Json) : Response :=
  ⟨frameVersion, some result, none, some id⟩

def failure (id : Option RequestId) (error : ErrorInfo) : Response :=
  ⟨frameVersion, none, some error, id⟩

def isError (r : Response) : Bool := r.error.isSome

end Response

/-- A request, a notification or a response. -/
inductive Frame where
  | request (request : Request)
  | response (response : Response)
  deriving BEq

namespace Frame

def form : Frame → Form
  | .request r => Request.codec.encode r
  | .response r => Response.codec.encode r

def codec : Codec Frame :=
  ⟨form, .untagged "JsonRpcMessage"
    [Request.codec.decode.map .request, Response.codec.decode.map .response]⟩

instance : Message Frame := ⟨codec⟩

end Frame

end ContextProtocol
