import ContextProtocol.ConstructionError
import ContextProtocol.Shape.Record

/-!
# Schemas of tool inputs

A schema describes the arguments of a tool: a type and the keywords that go with it. Schemas nest
through the properties of objects and the items of arrays.

* `Schema`: a schema, with its constructors;
* `Schema.shapeErrors`: the keywords that do not fit the type of their node, node by node from the
  root down;
* `Schema.codec`: how schemas are written and read.
-/
namespace ContextProtocol

/-- The type that a schema describes. -/
inductive SchemaType where
  | object
  | array
  | string
  | number
  | integer
  | boolean
  | null
  deriving DecidableEq, Repr

namespace SchemaType

def text : SchemaType → String
  | .object => "object"
  | .array => "array"
  | .string => "string"
  | .number => "number"
  | .integer => "integer"
  | .boolean => "boolean"
  | .null => "null"

def all : List SchemaType := [.object, .array, .string, .number, .integer, .boolean, .null]

def codec : Codec SchemaType := .word (all.map fun t => (t.text, t))

instance : Message SchemaType := ⟨codec⟩

def isNumeric : SchemaType → Bool
  | .number | .integer => true
  | _ => false

/-- The value is of the type; `1.0` is a number and no integer. -/
def admits : SchemaType → Json → Bool
  | .object, .object _ => true
  | .array, .array _ => true
  | .string, .string _ => true
  | .number, .number _ => true
  | .integer, .number (.integer ..) => true
  | .boolean, .bool _ => true
  | .null, .null => true
  | _, _ => false

end SchemaType

/-- A type and its keywords. -/
inductive Schema where
  | node (type : SchemaType) (properties : List (String × Schema)) (required : List String)
      (items : Option Schema) (enum : List Json) (minLength maxLength : Option UInt64)
      (pattern : Option String) (minimum maximum : Option Float)

/-- A limit on the texts that a schema describes. -/
inductive StringConstraint where
  | minLength (n : UInt64)
  | maxLength (n : UInt64)
  | pattern (p : String)

/-- One node of a schema, with something of type `α` for every schema under it. -/
structure SchemaNode (α : Type) where
  type : SchemaType
  properties : List (String × α)
  required : List String
  items : Option α
  enum : List Json
  minLength : Option UInt64
  maxLength : Option UInt64
  pattern : Option String
  minimum : Option Float
  maximum : Option Float

namespace SchemaNode

/-- The keywords that belong to another type, in the order they are reported. -/
def misplaced {α : Type} (s : SchemaNode α) : List String :=
  let onlyFor (fits : Bool) (keywords : List (String × Bool)) : List String :=
    if fits then [] else (keywords.filter (·.2)).map (·.1)
  onlyFor (s.type = .string) [("minLength", s.minLength.isSome), ("maxLength", s.maxLength.isSome),
      ("pattern", s.pattern.isSome)] ++
    onlyFor s.type.isNumeric [("minimum", s.minimum.isSome), ("maximum", s.maximum.isSome)] ++
    onlyFor (s.type = .array) [("items", s.items.isSome)] ++
    onlyFor (s.type = .object) [("properties", !s.properties.isEmpty),
      ("required", !s.required.isEmpty)]

/-- The lengths that exclude each other. -/
def lengthErrors {α : Type} (path : String) (s : SchemaNode α) : List ConstructionError :=
  match s.minLength, s.maxLength with
  | some min, some max =>
    if max < min then
      [⟨path ++ ".minLength", toString min.toNat ++ " exceeds maxLength " ++ toString max.toNat⟩]
    else []
  | _, _ => []

/-- The bounds that exclude each other. -/
def rangeErrors {α : Type} (path : String) (s : SchemaNode α) : List ConstructionError :=
  match s.minimum, s.maximum with
  | some min, some max =>
    if max < min then
      [⟨path ++ ".minimum", Decimal.reason min ++ " exceeds maximum " ++ Decimal.reason max⟩]
    else []
  | _, _ => []

/-- The required names that are no properties. -/
def requiredErrors {α : Type} (path : String) (s : SchemaNode α) : List ConstructionError :=
  if s.type = .object then
    (s.required.filter fun name => (s.properties.lookup name).isNone).map fun name =>
      ⟨path ++ ".required", Text.quoted name ++ " is not a declared property"⟩
  else []

/-- The values of an enumeration that are of another type. -/
def enumErrors {α : Type} (path : String) (s : SchemaNode α) : List ConstructionError :=
  (s.enum.zipIdx.filter fun v => !s.type.admits v.1).map fun v =>
    ⟨path ++ ".enum[" ++ toString v.2 ++ "]", v.1.text ++ " is not a " ++ s.type.text⟩

/-- What is wrong with the node itself. -/
def errors {α : Type} (path : String) (s : SchemaNode α) : List ConstructionError :=
  (s.misplaced.map fun keyword =>
    ⟨path ++ "." ++ keyword, "does not apply to " ++ s.type.text ++ " schemas"⟩) ++
  s.lengthErrors path ++ s.rangeErrors path ++ s.requiredErrors path ++ s.enumErrors path

end SchemaNode

namespace Schema

/-- The root of a schema. -/
def root : Schema → SchemaNode Schema
  | .node type properties required items enum minLength maxLength pattern minimum maximum =>
    ⟨type, properties, required, items, enum, minLength, maxLength, pattern, minimum, maximum⟩

/-- The schema with the root. -/
def ofRoot (s : SchemaNode Schema) : Schema :=
  .node s.type s.properties s.required s.items s.enum s.minLength s.maxLength s.pattern s.minimum
    s.maximum

@[simp] theorem ofRoot_root (s : Schema) : ofRoot s.root = s := by cases s; rfl

@[simp] theorem root_ofRoot (s : SchemaNode Schema) : (ofRoot s).root = s := rfl

mutual

def beq : Schema → Schema → Bool
  | .node t p r i e a b c m n, .node t' p' r' i' e' a' b' c' m' n' =>
    t == t' && beqProperties p p' && r == r' && beqItems i i' && e == e' && a == a' && b == b' &&
      c == c' && m == m' && n == n'

def beqProperties : List (String × Schema) → List (String × Schema) → Bool
  | [], [] => true
  | (a, s) :: as, (b, t) :: bs => a == b && beq s t && beqProperties as bs
  | _, _ => false

def beqItems : Option Schema → Option Schema → Bool
  | none, none => true
  | some s, some t => beq s t
  | _, _ => false

end

instance : BEq Schema := ⟨beq⟩

mutual

/-- The number of levels. -/
def depth : Schema → Nat
  | .node _ properties _ items _ _ _ _ _ _ =>
    max (depthProperties properties) (depthItems items) + 1

def depthProperties : List (String × Schema) → Nat
  | [] => 0
  | (_, s) :: rest => max (depth s) (depthProperties rest)

def depthItems : Option Schema → Nat
  | none => 0
  | some s => depth s

end

/-- A schema without keywords. -/
def ofType (type : SchemaType) : Schema := .node type [] [] none [] none none none none none

/-- The schema with another root. -/
def modify (s : Schema) (f : SchemaNode Schema → SchemaNode Schema) : Schema := ofRoot (f s.root)

def string : Schema := ofType .string

def number : Schema := ofType .number

def integer : Schema := ofType .integer

def boolean : Schema := ofType .boolean

def null : Schema := ofType .null

def stringEnum (values : List String) : Schema :=
  string.modify fun s => { s with enum := values.map .string }

/-- The numbers that are finite. -/
def numberEnum (values : List Float) : Schema :=
  number.modify fun s => { s with enum := (values.filterMap Number.ofFloat?).map .number }

def integerEnum (values : List Int64) : Schema :=
  integer.modify fun s => { s with enum := values.map fun i => .ofInt i.toInt }

/-- Texts within limits; of two limits of one kind the later one counts. -/
def stringWith (constraints : List StringConstraint) : Schema :=
  constraints.foldl
    (fun s c => s.modify fun r =>
      match c with
      | .minLength n => { r with minLength := some n }
      | .maxLength n => { r with maxLength := some n }
      | .pattern p => { r with pattern := some p })
    string

def array (items : Schema) : Schema :=
  (ofType .array).modify fun s => { s with items := some items }

def object (properties : List (String × Schema)) : Schema :=
  (ofType .object).modify fun s => { s with properties := Entries.ofList properties }

/-- The schema with these bounds, set or not. -/
def withRange (s : Schema) (minimum maximum : Option Float) : Schema :=
  s.modify fun s => { s with minimum := minimum, maximum := maximum }

/-- The schema with a property, which replaces one of the same name. -/
def withProperty (s : Schema) (name : String) (property : Schema) : Schema :=
  s.modify fun s => { s with properties := Entries.insert name property s.properties }

/-- Appends the names that are not in the list yet. -/
def addNames (required names : List String) : List String :=
  names.foldl (fun acc name => if name ∈ acc then acc else acc ++ [name]) required

/-- The schema with more required names. -/
def withRequired (s : Schema) (names : List String) : Schema :=
  s.modify fun s => { s with required := addNames s.required names }

mutual

/-- What is wrong with a schema, node by node: a node before its properties, in the order of their
names, and these before its items. -/
def errorsAt (path : String) : Schema → List ConstructionError
  | .node type properties required items enum minLength maxLength pattern minimum maximum =>
    let node : SchemaNode Schema :=
      ⟨type, properties, required, items, enum, minLength, maxLength, pattern, minimum, maximum⟩
    node.errors path ++ propertyErrors path properties ++ itemErrors path items

def propertyErrors (path : String) : List (String × Schema) → List ConstructionError
  | [] => []
  | (name, s) :: rest => errorsAt (path ++ "." ++ name) s ++ propertyErrors path rest

def itemErrors (path : String) : Option Schema → List ConstructionError
  | none => []
  | some s => errorsAt (path ++ "[]") s

end

/-- What is wrong with a schema, seen from its root. -/
def shapeErrors (s : Schema) : List ConstructionError := s.errorsAt "root"

/-- Accepts a schema in which nothing is wrong; otherwise everything that is wrong comes back. -/
def checkShape (s : Schema) : Except (List ConstructionError) Unit :=
  match s.shapeErrors with
  | [] => .ok ()
  | errors => .error errors

/-- One node, given the codec of the schemas under it. -/
def record (nested : Codec Schema) : Record Schema where
  name := "JsonSchema"
  columns := [SchemaType, List (String × Schema), List String, Option Schema, List Json,
    Option UInt64, Option UInt64, Option String, Option Float, Option Float]
  fields :=
    .cons (.required "type" SchemaType.codec) <|
    .cons ⟨"properties", .entries nested, .defaulted [], List.isEmpty⟩ <|
    .cons (.listed "required" .string) <|
    .cons (.optional "items" nested) <|
    .cons (.listed "enum" .json) <|
    .cons (.optional "minLength" .uint64) <|
    .cons (.optional "maxLength" .uint64) <|
    .cons (.optional "pattern" .string) <|
    .cons (.optional "minimum" .float) <|
    .cons (.optional "maximum" .float) .nil
  exact := false
  ofRow := fun (t, p, r, i, e, a, b, c, m, n, ()) => .node t p r i e a b c m n
  toRow
    | .node t p r i e a b c m n => (t, p, r, i, e, a, b, c, m, n, ())
  ofRow_toRow s := by cases s; rfl

/-- Schemas of at most so many levels. -/
def codecWithin : Nat → Codec Schema
  | 0 => ⟨fun _ => .null, fun _ _ => .fail (.fault .tooDeep)⟩
  | levels + 1 => (record (codecWithin levels)).codec

end Schema

mutual

/-- How deep containers nest in a document. -/
def Doc.depth : Doc → Nat
  | .array items _ => Doc.depthItems items + 1
  | .object members _ => Doc.depthMembers members + 1
  | _ => 0

def Doc.depthItems : List (Sourced Doc) → Nat
  | [] => 0
  | ⟨item, _⟩ :: rest => max (Doc.depth item) (Doc.depthItems rest)

def Doc.depthMembers : List (Token String × Sourced Doc) → Nat
  | [] => 0
  | (_, ⟨value, _⟩) :: rest => max (Doc.depth value) (Doc.depthMembers rest)

end

/-- Schemas of any depth. Every level is an object of its own, so the depth of a document bounds the
levels of the schema that it holds. -/
def Schema.codec : Codec Schema where
  encode s := (codecWithin s.depth).encode s
  decode origin doc := (codecWithin (doc.value.depth + 1)).decode origin doc

instance : Message Schema := ⟨Schema.codec⟩

end ContextProtocol
