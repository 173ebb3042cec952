import ContextProtocol.Message.Content
import ContextProtocol.Message.Envelope
import ContextProtocol.Message.Page

/-!
# Prompts

A server offers prompts, which are made from arguments and give a list of messages.

* `PromptArgument`, `Prompt`: what is offered; the names of the arguments are distinct;
* `Prompt.missingArguments`: the required arguments that were not supplied;
* `GetPromptRequest`, `GetPromptResult`: the choice of a prompt and its messages;
* `Page Prompt`: a page of the list.
-/
namespace ContextProtocol

/-- An argument of a prompt. -/
structure PromptArgument where
  name : String
  description : Option String
  required : Option Bool
  deriving BEq, DecidableEq

/-- A step in the construction of an argument. -/
inductive PromptArgumentStep where
  | description (text : String)
  | required (required : Bool)

namespace PromptArgument

def record : Record PromptArgument where
  name := "PromptArgument"
  columns := [String, Option String, Option Bool]
  fields :=
    .cons (.required "name" .string) <|
    .cons (.optional "description" .string) <|
    .cons (.optional "required" .bool) .nil
  exact := false
  ofRow := fun (name, description, required, ()) => ⟨name, description, required⟩
  toRow a := (a.name, a.description, a.required, ())
  ofRow_toRow _ := rfl

instance : Message PromptArgument := ⟨record.codec⟩

instance : Validated PromptArgument PromptArgumentStep where
  apply a
    | .description text => do
      checkNonEmpty "description" text
      return { a with description := some text }
    | .required required => .ok { a with required := some required }
  validate a := checkNonEmpty "name" a.name

def new (name : String) (steps : List PromptArgumentStep) :
    Traced ConstructionError PromptArgument :=
  build ⟨name, none, none⟩ steps

/-- An argument may be left out unless it says otherwise. -/
def isRequired (a : PromptArgument) : Bool := a.required.getD false

end PromptArgument

/-- A prompt with its arguments. -/
structure Prompt where
  name : String
  description : Option String
  arguments : List PromptArgument
  deriving BEq, DecidableEq

/-- A step in the construction of a prompt. -/
inductive PromptStep where
  | description (text : String)
  /-- Appends an argument with a new name. -/
  | argument (argument : PromptArgument)

namespace Prompt

def record : Record Prompt where
  name := "Prompt"
  columns := [String, Option String, List PromptArgument]
  fields :=
    .cons (.required "name" .string) <|
    .cons (.optional "description" .string) <|
    .cons (.listed "arguments" Message.codec) .nil
  exact := false
  ofRow := fun (name, description, arguments, ()) => ⟨name, description, arguments⟩
  toRow p := (p.name, p.description, p.arguments, ())
  ofRow_toRow _ := rfl

instance : Message Prompt := ⟨record.codec⟩

/-- The error of a name that stands before. -/
def duplicateArgument (name : String) : ConstructionError :=
  ⟨"arguments", "duplicate argument " ++ Text.quoted name⟩

/-- Every argument is valid and has a name that none before it has; `seen` holds the names before
position `i`. -/
def checkArguments (i : Nat) (seen : List String) :
    List PromptArgument → Except ConstructionError Unit
  | [] => .ok ()
  | a :: rest => do
    (validate a).mapError (·.within ("arguments[" ++ toString i ++ "]"))
    if a.name ∈ seen then .error (duplicateArgument a.name)
    checkArguments (i + 1) (a.name :: seen) rest

instance : Validated Prompt PromptStep where
  apply p
    | .description text => do
      checkNonEmpty "description" text
      return { p with description := some text }
    | .argument a =>
      if p.arguments.any (·.name = a.name) then .error (duplicateArgument a.name)
      else .ok { p with arguments := p.arguments ++ [a] }
  validate p := do
    checkNonEmpty "name" p.name
    checkArguments 0 [] p.arguments

def new (name : String) (steps : List PromptStep) : Traced ConstructionError Prompt :=
  build ⟨name, none, []⟩ steps

/-- The names of the required arguments that were not supplied. -/
def missingArguments (p : Prompt) (supplied : Dict String) : List String :=
  (p.arguments.filter fun a => a.isRequired && !supplied.contains a.name).map (·.name)

instance : Paged Prompt := ⟨"ListPromptsResult", "prompts"⟩

end Prompt

/-- The choice of a prompt with the values of its arguments. -/
structure GetPromptRequest where
  name : String
  arguments : Dict String
  deriving BEq

namespace GetPromptRequest

def record : Record GetPromptRequest where
  name := "GetPromptParams"
  columns := [String, Dict String]
  fields := .cons (.defaulted "name" .string "") (.cons (.named "arguments" .string) .nil)
  exact := false
  ofRow := fun (name, arguments, ()) => ⟨name, arguments⟩
  toRow r := (r.name, r.arguments, ())
  ofRow_toRow _ := rfl

instance : Envelope GetPromptRequest Empty where
  method := "prompts/get"
  params := record.codec
  apply _ step := nomatch step
  validate r := checkNonEmpty "name" r.name

def new (name : String) (arguments : Dict String) : Traced ConstructionError GetPromptRequest :=
  build ⟨name, arguments⟩ []

end GetPromptRequest

/-- The messages of a prompt; there is at least one. -/
structure GetPromptResult where
  description : Option String
  messages : List Turn
  deriving BEq

namespace GetPromptResult

/-- The messages of prompts. -/
def messageCodec : Codec Turn := Turn.codec "PromptMessage"

def record : Record GetPromptResult where
  name := "GetPromptResult"
  columns := [Option String, List Turn]
  fields :=
    .cons (.optional "description" .string) <|
    .cons (.required "messages" messageCodec.list) .nil
  exact := false
  ofRow := fun (description, messages, ()) => ⟨description, messages⟩
  toRow r := (r.description, r.messages, ())
  ofRow_toRow _ := rfl

instance : Message GetPromptResult := ⟨record.codec⟩

instance : Validated GetPromptResult Empty where
  apply _ step := nomatch step
  validate r := Turn.checkAll r.messages

def new (description : Option String) (messages : List Turn) :
    Traced ConstructionError GetPromptResult :=
  build ⟨description, messages⟩ []

end GetPromptResult

end ContextProtocol
