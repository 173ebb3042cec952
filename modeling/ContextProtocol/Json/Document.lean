import ContextProtocol.Json.Form

/-!
# Documents

A **document** is a JSON text read in order without judging it: it keeps repeated members, the
source text of every value and, where the text stops being JSON, the fault that stands there. What
a reader then sees depends on how it reads.

* A reader that takes a value *apart* meets the faults of literals that cannot be represented (a
  lone surrogate, a number out of range) and is stopped by nesting that is too deep.
* A reader that *skips* a value, or copies its text, meets only faults of the grammar: `Doc.skip`.

`Doc.ofJson` is the document of a value in memory; it has no faults (`skip_ofJson`).
-/
namespace ContextProtocol

/-- What is wrong with a text that is not JSON, or cannot be taken apart. -/
inductive Fault where
  | endOfList
  | endOfObject
  | endOfString
  | endOfValue
  | expectedColon
  | expectedListEnd
  | expectedObjectEnd
  | expectedLiteral
  | expectedValue
  | invalidEscape
  | invalidNumber
  | numberOutOfRange
  | invalidCodePoint
  | controlCharacter
  | keyNotString
  | loneSurrogate
  | unfinishedSurrogate
  | trailingComma
  | trailingCharacters
  | tooDeep
  deriving DecidableEq, Repr

namespace Fault

def message : Fault → String
  | .endOfList => "EOF while parsing a list"
  | .endOfObject => "EOF while parsing an object"
  | .endOfString => "EOF while parsing a string"
  | .endOfValue => "EOF while parsing a value"
  | .expectedColon => "expected `:`"
  | .expectedListEnd => "expected `,` or `]`"
  | .expectedObjectEnd => "expected `,` or `\x7d`"
  | .expectedLiteral => "expected ident"
  | .expectedValue => "expected value"
  | .invalidEscape => "invalid escape"
  | .invalidNumber => "invalid number"
  | .numberOutOfRange => "number out of range"
  | .invalidCodePoint => "invalid unicode code point"
  | .controlCharacter => "control character (\\u0000-\\u001F) found while parsing a string"
  | .keyNotString => "key must be a string"
  | .loneSurrogate => "lone leading surrogate in hex escape"
  | .unfinishedSurrogate => "unexpected end of hex escape"
  | .trailingComma => "trailing comma"
  | .trailingCharacters => "trailing characters"
  | .tooDeep => "recursion limit exceeded"

end Fault

/-- A number or string in a document: what taking it apart gives, and the fault that even skipping
it meets. -/
structure Token (α : Type) where
  reading : Except Fault α
  skipping : Option Fault

namespace Token

variable {α : Type}

/-- A token without faults. -/
def sound (value : α) : Token α := ⟨.ok value, none⟩

/-- A token that the grammar refuses. -/
def broken (reading skipping : Fault) : Token α := ⟨.error reading, some skipping⟩

end Token

/-- Something with the text it was read from. A text that is not Unicode is `none`. -/
structure Sourced (α : Type) where
  value : α
  text : Thunk (Option String)

/-- A value as it stands in a text. -/
inductive Doc where
  | null
  | bool (value : Bool)
  | number (token : Token Number)
  | string (token : Token String)
  /-- The items up to the end of the array or to the fault that stands in its place. -/
  | array (items : List (Sourced Doc)) (stop : Option Fault)
  /-- The members in the order of the text, each with what stands in the place of its name. -/
  | object (members : List (Token String × Sourced Doc)) (stop : Option Fault)
  /-- A literal that begins well and goes wrong. -/
  | cut (literal : Doc) (fault : Fault)
  /-- Nothing that begins a value. -/
  | absent (fault : Fault)

namespace Doc

instance : Inhabited Doc := ⟨.null⟩

mutual

/-- The first fault that a reader meets who passes over the value. -/
def skip : Doc → Option Fault
  | .null => none
  | .bool _ => none
  | .number token => token.skipping
  | .string token => token.skipping
  | .array items stop => skipItems stop items
  | .object members stop => skipMembers stop members
  | .cut _ fault => some fault
  | .absent fault => some fault

def skipItems (stop : Option Fault) : List (Sourced Doc) → Option Fault
  | [] => stop
  | ⟨item, _⟩ :: rest => (skip item).or (skipItems stop rest)

def skipMembers (stop : Option Fault) : List (Token String × Sourced Doc) → Option Fault
  | [] => stop
  | (name, ⟨value, _⟩) :: rest => name.skipping.or ((skip value).or (skipMembers stop rest))

end

mutual

/-- The document of a value. -/
def ofJson : Json → Doc
  | .null => .null
  | .bool b => .bool b
  | .number n => .number (.sound n)
  | .string s => .string (.sound s)
  | .array items => .array (ofItems items) none
  | .object members => .object (ofMembers members) none

def ofItems : List Json → List (Sourced Doc)
  | [] => []
  | item :: rest => ⟨ofJson item, Thunk.mk fun _ => some item.text⟩ :: ofItems rest

def ofMembers : List (String × Json) → List (Token String × Sourced Doc)
  | [] => []
  | (name, value) :: rest =>
    (.sound name, ⟨ofJson value, Thunk.mk fun _ => some value.text⟩) :: ofMembers rest

end

/-- A value in memory with the text that stands for it. -/
def sourced (v : Json) : Sourced Doc := ⟨ofJson v, Thunk.mk fun _ => some v.text⟩

mutual

/-- A value in memory has no faults. -/
theorem skip_ofJson : ∀ v : Json, (ofJson v).skip = none
  | .null | .bool _ | .number _ | .string _ => rfl
  | .array items => by simpa [ofJson, skip] using skipItems_ofItems items
  | .object members => by simpa [ofJson, skip] using skipMembers_ofMembers members

theorem skipItems_ofItems : ∀ items : List Json, skipItems none (ofItems items) = none
  | [] => rfl
  | item :: rest => by simp [ofItems, skipItems, skip_ofJson item, skipItems_ofItems rest]

theorem skipMembers_ofMembers :
    ∀ members : List (String × Json), skipMembers none (ofMembers members) = none
  | [] => rfl
  | (name, value) :: rest => by
    simp [ofMembers, skipMembers, Token.sound, skip_ofJson value,
      skipMembers_ofMembers rest]

end

end Doc

end ContextProtocol
