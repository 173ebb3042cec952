import ContextProtocol.Message.Envelope

/-!
# Completion

A client asks for values that complete an argument of a prompt or of a resource.

* `Reference`: the prompt, by name, or the resource, by address;
* `CompleteRequest`: the argument so far;
* `CompleteResult`: at most a hundred values, and how many there are in total.
-/
namespace ContextProtocol

/-- What a reference points to. -/
inductive ReferenceKind where
  | prompt
  | resource
  deriving DecidableEq, Repr

namespace ReferenceKind

def text : ReferenceKind → String
  | .prompt => "ref/prompt"
  | .resource => "ref/resource"

def all : List ReferenceKind := [.prompt, .resource]

def codec : Codec ReferenceKind := .word (all.map fun k => (k.text, k))

instance : Message ReferenceKind := ⟨codec⟩

end ReferenceKind

/-- A prompt with its name or a resource with its address. -/
structure Reference where
  kind : ReferenceKind
  name : Option String
  uri : Option String
  deriving BEq, DecidableEq

namespace Reference

def record : Record Reference where
  name := "Reference"
  columns := [ReferenceKind, Option String, Option String]
  fields :=
    .cons (.required "type" ReferenceKind.codec) <|
    .cons (.optional "name" .string) <|
    .cons (.optional "uri" .string) .nil
  exact := false
  ofRow := fun (kind, name, uri, ()) => ⟨kind, name, uri⟩
  toRow r := (r.kind, r.name, r.uri, ())
  ofRow_toRow _ := rfl

instance : Message Reference := ⟨record.codec⟩

/-- The member that a kind has is not empty, and the other one is not set. -/
instance : Validated Reference Empty where
  apply _ step := nomatch step
  validate r :=
    match r.kind with
    | .prompt => do
      checkNonEmpty "name" (r.name.getD "")
      if r.uri.isSome then .error ⟨"uri", "not allowed on a prompt reference"⟩
    | .resource => do
      checkNonEmpty "uri" (r.uri.getD "")
      if r.name.isSome then .error ⟨"name", "not allowed on a resource reference"⟩

def new (kind : ReferenceKind) (name uri : Option String) : Traced ConstructionError Reference :=
  build ⟨kind, name, uri⟩ []

def prompt (name : String) : Traced ConstructionError Reference := new .prompt (some name) none

def resource (uri : String) : Traced ConstructionError Reference := new .resource none (some uri)

end Reference

/-- An argument and what was typed of its value. -/
structure CompletionArgument where
  name : String
  value : String
  deriving BEq, DecidableEq

namespace CompletionArgument

def record : Record CompletionArgument where
  name := "CompletionArgument"
  columns := [String, String]
  fields := .cons (.required "name" .string) (.cons (.required "value" .string) .nil)
  exact := false
  ofRow := fun (name, value, ()) => ⟨name, value⟩
  toRow a := (a.name, a.value, ())
  ofRow_toRow _ := rfl

end CompletionArgument

/-- A question for values. -/
structure CompleteRequest where
  reference : Reference
  argument : CompletionArgument
  deriving BEq, DecidableEq

namespace CompleteRequest

def record : Record CompleteRequest where
  name := "CompleteParams"
  columns := [Reference, CompletionArgument]
  fields :=
    .cons (.required "ref" Message.codec) <|
    .cons (.required "argument" CompletionArgument.record.codec) .nil
  exact := false
  ofRow := fun (reference, argument, ()) => ⟨reference, argument⟩
  toRow r := (r.reference, r.argument, ())
  ofRow_toRow _ := rfl

instance : Envelope CompleteRequest Empty where
  method := "completion/complete"
  params := record.codec
  apply _ step := nomatch step
  validate r := do
    (validate r.reference).mapError (·.within "ref")
    checkNonEmpty "argument.name" r.argument.name

def new (reference : Reference) (argument value : String) :
    Traced ConstructionError CompleteRequest :=
  build ⟨reference, ⟨argument, value⟩⟩ []

end CompleteRequest

/-- How many values an answer may hold. -/
def maxCompletionValues : Nat := 100

/-- Values that complete an argument, and what is known of the others. -/
structure CompletionValues where
  values : List String
  total : Option UInt64
  hasMore : Option Bool
  deriving BEq, DecidableEq

namespace CompletionValues

def record : Record CompletionValues where
  name := "CompletionValues"
  columns := [List String, Option UInt64, Option Bool]
  fields :=
    .cons (.required "values" (.list .string)) <|
    .cons (.optional "total" .uint64) <|
    .cons (.optional "hasMore" .bool) .nil
  exact := false
  ofRow := fun (values, total, hasMore, ()) => ⟨values, total, hasMore⟩
  toRow c := (c.values, c.total, c.hasMore, ())
  ofRow_toRow _ := rfl

end CompletionValues

/-- An answer with values. -/
structure CompleteResult where
  completion : CompletionValues
  deriving BEq, DecidableEq

/-- A step in the construction of an answer. -/
inductive CompleteStep where
  | total (total : UInt64)
  | hasMore (more : Bool)

namespace CompleteResult

def record : Record CompleteResult where
  name := "CompleteResult"
  columns := [CompletionValues]
  fields := .cons (.required "completion" CompletionValues.record.codec) .nil
  exact := false
  ofRow := fun (completion, ()) => ⟨completion⟩
  toRow r := (r.completion, ())
  ofRow_toRow _ := rfl

instance : Message CompleteResult := ⟨record.codec⟩

/-- There are not too many values. -/
def checkCount (values : List String) : Except ConstructionError Unit :=
  if values.length ≤ maxCompletionValues then .ok ()
  else .error ⟨"completion.values", "at most " ++ toString maxCompletionValues ++
    " values allowed, got " ++ toString values.length⟩

/-- The total counts the values that are there. -/
def checkTotal (total : UInt64) (values : List String) : Except ConstructionError Unit :=
  if values.length ≤ total.toNat then .ok ()
  else .error ⟨"completion.total", toString total.toNat ++ " is less than the " ++
    toString values.length ++ " values returned"⟩

instance : Validated CompleteResult CompleteStep where
  apply r
    | .total total => do
      checkTotal total r.completion.values
      return { r with completion.total := some total }
    | .hasMore more => .ok { r with completion.hasMore := some more }
  validate r := do
    checkCount r.completion.values
    match r.completion.total with
    | none => .ok ()
    | some total => checkTotal total r.completion.values

/-- The values are counted before any step is taken. -/
def new (values : List String) (steps : List CompleteStep) :
    Traced ConstructionError CompleteResult := do
  checkCount values
  build ⟨⟨values, none, none⟩⟩ steps

end CompleteResult

end ContextProtocol
