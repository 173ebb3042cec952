import ContextProtocol.Json.Scanner
import ContextProtocol.Shape.Error
import ContextProtocol.Trace

/-!
# Decoders

A decoder takes a document apart into a typed value and reports the first problem in the order of
the text. It reads either the document of a text, where it meets faults and may nest 127 containers
deep, or a document that was taken apart before, such as the document of a value.

* `Origin`: where a document comes from;
* `Decoder.string`, `Decoder.integer`, …: the plain types;
* `Decoder.word`: the words of a list, also written as an object with a `null` under the word;
* `Decoder.json`: any value;
* `Decoder.raw`: the text of a value, as it stands;
* `Decoder.run`: a decoder on a whole text.
-/
namespace ContextProtocol

/-- Where a document comes from. -/
inductive Origin where
  /-- From a text, with room for so many more containers inside each other. -/
  | text (room : Nat)
  /-- From a value that was taken apart before. -/
  | value
  deriving DecidableEq, Repr

namespace Origin

/-- How deep the containers of a text may nest. -/
def maxDepth : Nat := 127

/-- Goes into an array or object. -/
def enter : Origin → Except ShapeError Origin
  | .text 0 => .error (.fault .tooDeep)
  | .text (room + 1) => .ok (.text room)
  | .value => .ok .value

end Origin

/-- The value of a token. -/
def Token.read {α : Type} (token : Token α) : Except ShapeError α :=
  token.reading.mapError .fault

namespace Doc

/-- The end of a container: the fault that stands in its place, if there is one. -/
def close (stop : Option Fault) : Except ShapeError Unit :=
  match stop with
  | none => .ok ()
  | some fault => .error (.fault fault)

/-- The error of a reader who expected something else here. A literal is read before it is
refused. -/
def mismatch (expected : String) : Doc → ShapeError
  | .null => .invalidType .null expected
  | .bool b => .invalidType (.bool b) expected
  | .number token =>
    match token.reading with
    | .ok (.integer i _) => .invalidType (.integer i) expected
    | .ok (.float x _) => .invalidType (.float x) expected
    | .error fault => .fault fault
  | .string token =>
    match token.reading with
    | .ok s => .invalidType (.string s) expected
    | .error fault => .fault fault
  | .array .. => .invalidType .array expected
  | .object .. => .invalidType .object expected
  | .cut _ fault => .fault fault
  | .absent fault => .fault fault

mutual

/-- Takes the value apart without keeping anything. -/
def verify : Origin → Doc → Except ShapeError Unit
  | _, .null => .ok ()
  | _, .bool _ => .ok ()
  | _, .number token => token.read.map fun _ => ()
  | _, .string token => token.read.map fun _ => ()
  | origin, .array items stop => do verifyItems (← origin.enter) stop items
  | origin, .object members stop => do verifyMembers (← origin.enter) stop members
  | _, .cut _ fault => .error (.fault fault)
  | _, .absent fault => .error (.fault fault)

def verifyItems (origin : Origin) (stop : Option Fault) :
    List (Sourced Doc) → Except ShapeError Unit
  | [] => close stop
  | ⟨item, _⟩ :: rest => do
    verify origin item
    verifyItems origin stop rest

def verifyMembers (origin : Origin) (stop : Option Fault) :
    List (Token String × Sourced Doc) → Except ShapeError Unit
  | [] => close stop
  | (name, ⟨value, _⟩) :: rest => do
    let _ ← name.read
    verify origin value
    verifyMembers origin stop rest

end

/-- An object whose first member has this name stands for the value that is written in the text of
that member. -/
def embeddedName : String := "$serde_json::private::RawValue"

/-- What follows the member of an embedded text has to be the end of the object. -/
def closeEmbedded (origin : Origin) (others : Nat) (stop : Option Fault) :
    Except ShapeError Unit :=
  match origin, others with
  | _, 0 => close stop
  | .text _, _ => .error (.fault .trailingComma)
  | .value, n => .error (.invalidLength (n + 1) "fewer elements in map")

mutual

/-- The value of a document; `embedded` reads the texts that stand for values. -/
def json (embedded : String → Except ShapeError Json) : Origin → Doc → Except ShapeError Json
  | _, .null => .ok .null
  | _, .bool b => .ok (.bool b)
  | _, .number token => token.read.map .number
  | _, .string token => token.read.map .string
  | origin, .array items stop => do
    let items ← jsonItems embedded (← origin.enter) stop items
    return .array items
  | origin, .object [] stop => do
    let _ ← origin.enter
    close stop
    return .object []
  | origin, .object ((name, ⟨value, _⟩) :: rest) stop => do
    let origin ← origin.enter
    let name ← name.read
    if name = embeddedName then
      match value with
      | .string token =>
        let found ← embedded (← token.read)
        closeEmbedded origin rest.length stop
        return found
      | value => .error (value.mismatch "raw value")
    else
      let value ← json embedded origin value
      let rest ← jsonMembers embedded origin stop rest
      return .ofMembers ((name, value) :: rest)
  | _, .cut _ fault => .error (.fault fault)
  | _, .absent fault => .error (.fault fault)

def jsonItems (embedded : String → Except ShapeError Json) (origin : Origin)
    (stop : Option Fault) : List (Sourced Doc) → Except ShapeError (List Json)
  | [] => (close stop).map fun _ => []
  | ⟨item, _⟩ :: rest => do
    let item ← json embedded origin item
    let rest ← jsonItems embedded origin stop rest
    return item :: rest

def jsonMembers (embedded : String → Except ShapeError Json) (origin : Origin)
    (stop : Option Fault) : List (Token String × Sourced Doc) → Except ShapeError (List (String × Json))
  | [] => (close stop).map fun _ => []
  | (name, ⟨value, _⟩) :: rest => do
    let name ← name.read
    let value ← json embedded origin value
    let rest ← jsonMembers embedded origin stop rest
    return (name, value) :: rest

end

mutual

/-- The length of the longest text inside. -/
def longestText : Doc → Nat
  | .string ⟨.ok s, _⟩ => s.length
  | .array items _ => longestTextItems items
  | .object members _ => longestTextMembers members
  | _ => 0

def longestTextItems : List (Sourced Doc) → Nat
  | [] => 0
  | ⟨item, _⟩ :: rest => max (longestText item) (longestTextItems rest)

def longestTextMembers : List (Token String × Sourced Doc) → Nat
  | [] => 0
  | (_, ⟨value, _⟩) :: rest => max (longestText value) (longestTextMembers rest)

end

/-- The value of a document in which texts stand for values at most `level` times inside each
other. -/
def jsonWithin : Nat → Origin → Doc → Except ShapeError Json
  | 0 => json fun _ => .error (.fault .tooDeep)
  | level + 1 => json fun text =>
    let document := Document.ofString text
    let found := do
      let found ← jsonWithin level (.text Origin.maxDepth) document.root.value
      close document.trailing
      return found
    found.mapError fun e => .payload e.message

end Doc

/-- The value of a document. A text that stands for a value is longer than the texts inside it, so
its length bounds how often that can happen. -/
def Json.ofDoc (origin : Origin) (d : Doc) : Except ShapeError Json :=
  d.jsonWithin (d.longestText + 1) origin

/-- Takes a document apart into a typed value. -/
def Decoder (α : Type) := Origin → Sourced Doc → Traced ShapeError α

namespace Decoder

variable {α β : Type}

/-- A decoder that reports nothing and looks at the document alone. -/
def ofDoc (f : Origin → Doc → Except ShapeError α) : Decoder α :=
  fun origin d => .ofExcept (f origin d.value)

def map (f : α → β) (d : Decoder α) : Decoder β := fun origin doc => f <$> d origin doc

def string : Decoder String := ofDoc fun _ doc =>
  match doc with
  | .string token => token.read
  | doc => .error (doc.mismatch "a string")

def bool : Decoder Bool := ofDoc fun _ doc =>
  match doc with
  | .bool b => .ok b
  | doc => .error (doc.mismatch "a boolean")

/-- A float; an integer is rounded to the nearest one. -/
def float : Decoder Float := ofDoc fun _ doc =>
  match doc with
  | .number token => token.read.map fun
    | .integer i _ => Decimal.ofInt i
    | .float x _ => x
  | doc => .error (doc.mismatch "f64")

/-- An integer from `low` to `high`; `1.0` is none. -/
def integer (type : String) (low high : Int) : Decoder Int := ofDoc fun _ doc =>
  match doc with
  | .number token => do
    match ← token.read with
    | .integer i _ =>
      if low ≤ i ∧ i ≤ high then .ok i else .error (.invalidValue (.integer i) type)
    | .float x _ => .error (.invalidType (.float x) type)
  | doc => .error (doc.mismatch type)

def int32 : Decoder Int32 := (integer "i32" (-0x80000000) 0x7FFFFFFF).map .ofInt

def int64 : Decoder Int64 :=
  (integer "i64" (-0x8000000000000000) 0x7FFFFFFFFFFFFFFF).map .ofInt

def uint32 : Decoder UInt32 := (integer "u32" 0 0xFFFFFFFF).map fun i => .ofNat i.toNat

def uint64 : Decoder UInt64 :=
  (integer "u64" 0 0xFFFFFFFFFFFFFFFF).map fun i => .ofNat i.toNat

/-- A number of bytes. -/
def size : Decoder UInt64 :=
  (integer "usize" 0 0xFFFFFFFFFFFFFFFF).map fun i => .ofNat i.toNat

/-- A value or `null`. What begins like `null` is read as nothing else. -/
def option (d : Decoder α) : Decoder (Option α) := fun origin doc =>
  match doc.value with
  | .null => pure none
  | .cut .null fault => .fail (.fault fault)
  | _ => some <$> d origin doc

/-- The items of an array, up to its end. -/
def items (d : Decoder α) (origin : Origin) (stop : Option Fault) :
    List (Sourced Doc) → Traced ShapeError (List α)
  | [] => do
    Doc.close stop
    return []
  | item :: rest => do
    let item ← d origin item
    let rest ← items d origin stop rest
    return item :: rest

def list (d : Decoder α) : Decoder (List α) := fun origin doc =>
  match doc.value with
  | .array found stop => do items d (← origin.enter) stop found
  | doc => .fail (doc.mismatch "a sequence")

/-- The members of an object, up to its end. -/
def members (d : Decoder α) (origin : Origin) (stop : Option Fault) :
    List (Token String × Sourced Doc) → Traced ShapeError (List (String × α))
  | [] => do
    Doc.close stop
    return []
  | (name, value) :: rest => do
    let name ← name.read
    let value ← d origin value
    let rest ← members d origin stop rest
    return (name, value) :: rest

/-- The members of an object; of two with one name the later one stays. -/
def entries (d : Decoder α) : Decoder (List (String × α)) := fun origin doc =>
  match doc.value with
  | .object found stop => do members d (← origin.enter) stop found
  | doc => .fail (doc.mismatch "a map")

def dict (d : Decoder α) : Decoder (Dict α) := (entries d).map .ofList

/-- Any value. -/
def json : Decoder Json := ofDoc Json.ofDoc

/-- The text of a value, which is passed over without being taken apart. -/
def raw : Decoder String := fun _ doc =>
  match doc.value.skip with
  | some fault => .fail (.fault fault)
  | none =>
    match doc.text.get with
    | some text => pure text
    | none => .fail (.fault .invalidCodePoint)

/-- Looks a word up. -/
def lookupWord (words : List (String × α)) (word : String) : Except ShapeError α :=
  match words.lookup word with
  | some value => .ok value
  | none => .error (.unknownVariant word (words.map (·.1)))

/-- The payload of a word in an object. -/
def wordPayload : Doc → Except ShapeError Unit
  | .null => .ok ()
  | doc => .error (doc.mismatch "unit")

/-- One of a list of words. As an object with one member, the word is its name. -/
def word (words : List (String × α)) : Decoder α := ofDoc fun origin doc =>
  match origin, doc with
  | _, .string token => do lookupWord words (← token.read)
  | .value, .object [(name, payload)] _ => do
    let value ← lookupWord words (← name.read)
    wordPayload payload.value
    return value
  | .value, .object .. => .error (.invalidValue .object "map with a single key")
  | .value, doc => .error (doc.mismatch "string or map")
  | .text _, .object found stop => do
    let _ ← origin.enter
    match found with
    | [] => .error (.fault (stop.getD .expectedValue))
    | (name, payload) :: rest =>
      let value ← lookupWord words (← name.read)
      wordPayload payload.value
      match rest, stop with
      | [], none => return value
      | [], some .endOfObject => .error (.fault .endOfObject)
      | _, _ => .error (.fault .expectedValue)
  | .text _, .absent fault => .error (.fault fault)
  | .text _, _ => .error (.fault .expectedValue)

/-- Goes on with what was read, which may be refused. -/
def refine (d : Decoder α) (f : α → Traced ShapeError β) : Decoder β := fun origin doc => do
  f (← d origin doc)

/-- A decoder on a document: what follows the value is looked at last. -/
def runDocument (d : Decoder α) (document : Document) : Traced ShapeError α := do
  let value ← d (.text Origin.maxDepth) document.root
  Doc.close document.trailing
  return value

/-- A decoder on a byte text. -/
def run (d : Decoder α) (bytes : ByteArray) : Traced ShapeError α :=
  d.runDocument (.ofBytes bytes)

/-- A decoder on a text. -/
def runString (d : Decoder α) (text : String) : Traced ShapeError α :=
  d.runDocument (.ofString text)

/-- A decoder on a value. -/
def runValue (d : Decoder α) (v : Json) : Traced ShapeError α := d .value (Doc.sourced v)

end Decoder

/-- The value that a text writes. -/
def Json.parse (text : String) : Except ShapeError Json := (Decoder.json.runString text).result

/-- The value that a byte text writes. -/
def Json.parseBytes (bytes : ByteArray) : Except ShapeError Json :=
  (Decoder.json.run bytes).result

mutual

/-- The value in memory of a form. A float that is not finite becomes `null`; a copied payload is
read, which may fail. -/
def Form.toJson : Form → Except ShapeError Json
  | .null => .ok .null
  | .bool b => .ok (.bool b)
  | .integer i => .ok (.ofInt i)
  | .float x => .ok (.ofFloat x)
  | .string s => .ok (.string s)
  | .array items => (Form.toJsonItems items).map .array
  | .object members => (Form.toJsonMembers members).map .ofMembers
  | .raw text => Json.parse text

def Form.toJsonItems : List Form → Except ShapeError (List Json)
  | [] => .ok []
  | item :: rest => do
    let item ← Form.toJson item
    let rest ← Form.toJsonItems rest
    return item :: rest

def Form.toJsonMembers : List (String × Form) → Except ShapeError (List (String × Json))
  | [] => .ok []
  | (name, value) :: rest => do
    let value ← Form.toJson value
    let rest ← Form.toJsonMembers rest
    return (name, value) :: rest

end

end ContextProtocol
