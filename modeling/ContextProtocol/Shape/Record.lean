import ContextProtocol.Shape.Decoder

/-!
# Records

A record is described once, by its fields in the order they are written in, and read and written by
that description. It is written as an object and read from an object, whose members may come in any
order, or from an array of its fields.

* `Codec`: how values of a type are written and read, and `Message`, the types that have one way;
* `Field`: one field of a record: its name, its codec, what stands in for it when it is absent and
  when it is left out;
* `Record`: the fields of a type and the way between the type and their row;
* `Record.codec`: an unknown member is passed over, a known one may come once, and the first
  missing field in the order of the description is reported.
-/
namespace ContextProtocol

/-- How values of a type are written and read. -/
structure Codec (α : Type) where
  encode : α → Form
  decode : Decoder α

/-- A type that is written and read in one way. -/
class Message (α : Type) where
  codec : Codec α

namespace Codec

variable {α β : Type}

def string : Codec String := ⟨.string, .string⟩

def bool : Codec Bool := ⟨.bool, .bool⟩

def float : Codec Float := ⟨.float, .float⟩

def int32 : Codec Int32 := ⟨fun i => .integer i.toInt, .int32⟩

def int64 : Codec Int64 := ⟨fun i => .integer i.toInt, .int64⟩

def uint32 : Codec UInt32 := ⟨fun n => .integer n.toNat, .uint32⟩

def uint64 : Codec UInt64 := ⟨fun n => .integer n.toNat, .uint64⟩

def size : Codec UInt64 := ⟨fun n => .integer n.toNat, .size⟩

def json : Codec Json := ⟨.ofJson, .json⟩

/-- A value or `null`. -/
def option (c : Codec α) : Codec (Option α) := ⟨fun v => v.elim .null c.encode, .option c.decode⟩

def list (c : Codec α) : Codec (List α) :=
  ⟨fun items => .array (items.map c.encode), .list c.decode⟩

/-- Values under names, as an object. -/
def entries (c : Codec α) : Codec (List (String × α)) :=
  ⟨fun d => .object (d.map fun e => (e.1, c.encode e.2)),
    (Decoder.entries c.decode).map Entries.ofList⟩

def dict (c : Codec α) : Codec (Dict α) :=
  ⟨fun d => .object (d.entries.map fun e => (e.1, c.encode e.2)), .dict c.decode⟩

/-- The words of an enumeration. -/
def word [BEq α] (words : List (String × α)) : Codec α :=
  ⟨fun v => .string (((words.find? fun w => w.2 == v).map (·.1)).getD ""), .word words⟩

/-- The codec of a type that wraps another one. -/
def wrap (make : α → β) (get : β → α) (c : Codec α) : Codec β :=
  ⟨fun v => c.encode (get v), c.decode.map make⟩

end Codec

instance : Message String := ⟨.string⟩

instance : Message Bool := ⟨.bool⟩

instance : Message Float := ⟨.float⟩

instance : Message Int32 := ⟨.int32⟩

instance : Message Int64 := ⟨.int64⟩

instance : Message UInt32 := ⟨.uint32⟩

instance : Message UInt64 := ⟨.uint64⟩

instance : Message Json := ⟨.json⟩

instance {α : Type} [Message α] : Message (List α) := ⟨.list Message.codec⟩

/-- What stands in for a field that is absent. -/
inductive Presence (α : Type) where
  /-- Nothing does. -/
  | required
  /-- A value does, for a member that is absent from an object. -/
  | optional (absent : α)
  /-- A value does, also where an array of fields ends early. -/
  | defaulted (absent : α)

/-- One field of a record. -/
structure Field (α : Type) where
  name : String
  codec : Codec α
  presence : Presence α
  /-- The values that are not written. -/
  omitted : α → Bool

namespace Field

variable {α : Type}

/-- A field that is always written and has to be there. -/
def required (name : String) (c : Codec α) : Field α := ⟨name, c, .required, fun _ => false⟩

/-- A value that may be unset; it is then left out. -/
def optional (name : String) (c : Codec α) : Field (Option α) :=
  ⟨name, c.option, .defaulted none, Option.isNone⟩

/-- A list that is left out when it is empty. -/
def listed (name : String) (c : Codec α) : Field (List α) :=
  ⟨name, c.list, .defaulted [], List.isEmpty⟩

/-- Values under names that are left out when there are none. -/
def named (name : String) (c : Codec α) : Field (Dict α) :=
  ⟨name, c.dict, .defaulted .empty, Table.isEmpty⟩

/-- A mark that is left out when it is not set. -/
def flag (name : String) : Field Bool := ⟨name, .bool, .defaulted false, fun b => !b⟩

/-- A value that may be absent and is always written. -/
def defaulted (name : String) (c : Codec α) (absent : α) : Field α :=
  ⟨name, c, .defaulted absent, fun _ => false⟩

/-- The value when there is no member for it. -/
def absent? (f : Field α) : Option α :=
  match f.presence with
  | .required => none
  | .optional v => some v
  | .defaulted v => some v

/-- The value when an array ends before it. -/
def absentItem? (f : Field α) : Option α :=
  match f.presence with
  | .defaulted v => some v
  | _ => none

end Field

/-- One value for each column. -/
def Row : List Type → Type
  | [] => Unit
  | α :: columns => α × Row columns

/-- The values that were read so far. -/
def Slots : List Type → Type
  | [] => Unit
  | α :: columns => Option α × Slots columns

/-- The fields of a record, in the order they are written in. -/
inductive Fields : List Type → Type 1 where
  | nil : Fields []
  | cons {α : Type} {columns : List Type} (field : Field α) (rest : Fields columns) :
      Fields (α :: columns)

namespace Fields

/-- Nothing was read yet. -/
def noSlots : {columns : List Type} → Fields columns → Slots columns
  | _, .nil => ()
  | _, .cons _ rest => (none, noSlots rest)

def count : {columns : List Type} → Fields columns → Nat
  | _, .nil => 0
  | _, .cons _ rest => count rest + 1

def names : {columns : List Type} → Fields columns → List String
  | _, .nil => []
  | _, .cons field rest => field.name :: names rest

/-- Reads a member into its slot; `none` if no field has the name. -/
def store (origin : Origin) (name : String) (value : Sourced Doc) :
    {columns : List Type} → Fields columns → Slots columns →
      Option (Traced ShapeError (Slots columns))
  | _, .nil, _ => none
  | _, .cons field rest, (slot, slots) =>
    if name = field.name then
      some <|
        if slot.isSome then .fail (.duplicateField name)
        else (fun v => (some v, slots)) <$> field.codec.decode origin value
    else (store origin name value rest slots).map fun read => (fun s => (slot, s)) <$> read

/-- Reads the members of an object in their order, up to its end. -/
def storeAll {columns : List Type} (fields : Fields columns) (exact : Bool) (origin : Origin)
    (stop : Option Fault) :
    List (Token String × Sourced Doc) → Slots columns → Traced ShapeError (Slots columns)
  | [], slots => do
    Doc.close stop
    return slots
  | (name, value) :: rest, slots => do
    let name ← name.read
    match fields.store origin name value slots with
    | some read => storeAll fields exact origin stop rest (← read)
    | none =>
      if exact then .fail (.unknownField name fields.names)
      else
        Doc.close value.value.skip
        storeAll fields exact origin stop rest slots

/-- The row of the values that were read; an absent field gives its stand-in. -/
def finish :
    {columns : List Type} → Fields columns → Slots columns → Except ShapeError (Row columns)
  | _, .nil, _ => .ok ()
  | _, .cons field rest, (slot, slots) => do
    let value ←
      match slot with
      | some value => .ok value
      | none =>
        match field.absent? with
        | some value => .ok value
        | none => .error (.missingField field.name)
    return (value, ← finish rest slots)

/-- Reads the items of an array as the fields in their order; `position` fields were read before,
and `tooShort` is the error of an array that ends after so many items. The items that are left
over come back. -/
def readItems (origin : Origin) (stop : Option Fault) (tooShort : Nat → ShapeError) :
    {columns : List Type} → Nat → Fields columns → List (Sourced Doc) →
      Traced ShapeError (Row columns × List (Sourced Doc))
  | _, _, .nil, items => pure ((), items)
  | _, position, .cons field rest, [] => do
    Doc.close stop
    match field.absentItem? with
    | none => .fail (tooShort position)
    | some value =>
      let (row, items) ← readItems origin stop tooShort (position + 1) rest []
      return ((value, row), items)
  | _, position, .cons field rest, item :: items => do
    let value ← field.codec.decode origin item
    let (row, items) ← readItems origin stop tooShort (position + 1) rest items
    return ((value, row), items)

/-- The members of a row. -/
def encode : {columns : List Type} → Fields columns → Row columns → List (String × Form)
  | _, .nil, _ => []
  | _, .cons field rest, (value, row) =>
    if field.omitted value then encode rest row
    else (field.name, field.codec.encode value) :: encode rest row

end Fields

/-- A record type: its name, its fields, and the way between a value and its row. -/
structure Record (R : Type) where
  name : String
  columns : List Type
  fields : Fields columns
  /-- Members that are no fields are refused. -/
  exact : Bool
  ofRow : Row columns → R
  toRow : R → Row columns
  ofRow_toRow : ∀ r, ofRow (toRow r) = r

namespace Record

variable {R : Type}

/-- What a reader of the record expects. -/
def expected (r : Record R) : String := "struct " ++ r.name

/-- The error of an array that ends after so many items. -/
def tooShort (r : Record R) (length : Nat) : ShapeError :=
  let n := r.fields.count
  .invalidLength length
    (r.expected ++ " with " ++ toString n ++ (if n = 1 then " element" else " elements"))

/-- What may be left of an array when all fields are read. -/
def closeItems (origin : Origin) (length : Nat) (left : List (Sourced Doc))
    (stop : Option Fault) : Except ShapeError Unit :=
  match origin, left with
  | _, [] => Doc.close stop
  | .text _, _ => .error (.fault .trailingCharacters)
  | .value, _ => .error (.invalidLength length "fewer elements in array")

def decode (r : Record R) : Decoder R := fun origin doc =>
  match doc.value with
  | .object members stop => do
    let slots ← r.fields.storeAll r.exact (← origin.enter) stop members r.fields.noSlots
    return r.ofRow (← r.fields.finish slots)
  | .array items stop => do
    let (row, left) ← r.fields.readItems (← origin.enter) stop r.tooShort 0 items
    closeItems origin items.length left stop
    return r.ofRow row
  | doc => .fail (doc.mismatch r.expected)

def encode (r : Record R) (value : R) : Form := .object (r.fields.encode (r.toRow value))

/-- The codec of a record. -/
def codec (r : Record R) : Codec R := ⟨r.encode, r.decode⟩

end Record

end ContextProtocol
