import ContextProtocol.Error
import ContextProtocol.Shape.Record
import ContextProtocol.Validated

/-!
# Tagged objects

A payload with variants travels as one object: the member `field` names the variant and stands
first, the members of the variant follow in the order of their names.

    {"type":"text","text":"hello"}

Reading has two phases. `splitTag` looks at the tag alone; `decodeVariant` then reads the whole
object as the variant that was named, and checks its rules.

* `taggedObject`: the object in memory, refused when the tag is empty, the body is no object or has
  a member named like the tag;
* `encodeTagged`: the written object, with the same refusals;
* `taggedForm`: the written object of a body that is known to go under its tag.
-/
namespace ContextProtocol

/-- The tag and the members of a body in the order they are written in. -/
def taggedForm (field tag : String) (body : Form) : Form :=
  .object ((field, .string tag) :: body.sorted.members)

/-- The tag and the members of a body in memory. -/
def taggedObject (field tag : String) (body : Form) : Except EncodeError (Dict Json) :=
  if tag.isEmpty then .error (.unpopulatedVariant field)
  else
    match body.toJson with
    | .error e => .error (.json e)
    | .ok (.object members) =>
      if (members.lookup field).isSome then .error (.discriminatorMismatch field tag)
      else .ok (.ofList ((field, .string tag) :: members))
    | .ok _ =>
      .error (.json (.payload (Text.quoted tag ++ " payload body must be a JSON object")))

/-- The object in memory, written with its tag first. -/
def encodeTagged (field tag : String) (body : Form) : Except EncodeError Form := do
  let object ← taggedObject field tag body
  return .object ((field, .string tag) :: Form.ofMembers (object.erase field).entries)

/-- The tag of an object, if it has one, and its members. A tag that is no string counts as
missing. -/
def splitTag (field : String) (v : Json) : Except DecodeError (Option String × Dict Json) := do
  let object ← ((Decoder.dict .json).runValue v).result.mapError .json
  match object.get? field with
  | none => return (none, object)
  | some (.string tag) => return (some tag, object)
  | some _ => .error (.missingDiscriminator field)

/-- The tag of an object that has to have one, and its members. -/
def requireTag (field : String) (v : Json) : Except DecodeError (String × Dict Json) := do
  match ← splitTag field v with
  | (some tag, object) => return (tag, object)
  | (none, _) => .error (.missingDiscriminator field)

/-- Reads an object, its tag included, as the variant that the tag names. -/
def decodeVariant {α Step : Type} [Validated α Step] (codec : Codec α) (tag : String)
    (object : Dict Json) : Traced DecodeError α :=
  let read := codec.decode.runValue (.object object.entries)
  match read.result with
  | .error e =>
    ⟨read.events ++
      [.codec (Text.quoted tag ++ " payload did not match its variant: " ++ e.message)],
      .error (.malformedVariant tag e)⟩
  | .ok variant =>
    ⟨read.events, (validate variant).mapError (.invalidVariant tag) |>.map fun _ => variant⟩

/-- The error of a tag that names no variant. -/
def refuseTag {α : Type} (field tag : String) : Traced DecodeError α :=
  .refuse (.codec ("rejecting unknown " ++ field ++ " " ++ Text.quoted tag))
    (.unknownDiscriminator field tag)

end ContextProtocol
