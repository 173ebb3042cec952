import ContextProtocol.Json.Literal

/-!
# From text to documents

`Document.ofBytes` reads one value and looks at what follows it. The text is read in order and only
as far as the grammar holds, so the first fault of the grammar ends the document; every array or
object that is open there ends with it.

Reading recurses on a bound that two steps for each symbol of the text never use up.
-/
namespace ContextProtocol

namespace Scan

/-- The text without the blanks at its start. -/
def skipBlanks : List Symbol → List Symbol
  | .char c :: rest =>
    if c = ' ' ∨ c = '\n' ∨ c = '\t' ∨ c = '\r' then skipBlanks rest else .char c :: rest
  | text => text

/-- The rest of a literal after its first letter. -/
def literal (value : Doc) : List Char → List Symbol → Scanned Doc
  | [], rest => ⟨value, some rest⟩
  | _ :: _, [] => ⟨.cut value .endOfValue, none⟩
  | c :: letters, s :: rest =>
    if s = .char c then literal value letters rest else ⟨.cut value .expectedLiteral, none⟩

/-- The text from `start` up to where `rest` begins, if all of it is characters. -/
def between (start rest : List Symbol) : Option String :=
  Symbol.text? (start.take (start.length - rest.length))

/-- A value with the text it was read from. -/
def cite (start : List Symbol) (value : Scanned Doc) : Scanned (Sourced Doc) :=
  ⟨⟨value.value, Thunk.mk fun _ => between start (value.rest.getD [])⟩, value.rest⟩

def number (negative : Bool) (text : List Symbol) : Scanned Doc :=
  let scanned := scanNumber negative text
  ⟨.number scanned.value, scanned.rest⟩

def string (text : List Symbol) : Scanned Doc :=
  let scanned := scanString text
  ⟨.string scanned.value, scanned.rest⟩

/-- A member that ends where the text stops being JSON. -/
def openMember (name : Token String) (fault : Fault) : Token String × Sourced Doc :=
  (name, ⟨.absent fault, Thunk.mk fun _ => none⟩)

/-- A member without a name: every reader wants a string there. -/
def nameless (fault : Fault) : Token String × Sourced Doc :=
  openMember (.broken fault fault) fault

mutual

/-- A value at the start of a text without blanks before it. -/
def value : Nat → List Symbol → Scanned Doc
  | 0, _ => ⟨.absent .tooDeep, none⟩
  | _, [] => ⟨.absent .endOfValue, none⟩
  | _, .stray :: _ => ⟨.absent .expectedValue, none⟩
  | fuel + 1, .char c :: rest =>
    if c = 'n' then literal .null ['u', 'l', 'l'] rest
    else if c = 't' then literal (.bool true) ['r', 'u', 'e'] rest
    else if c = 'f' then literal (.bool false) ['a', 'l', 's', 'e'] rest
    else if c = '"' then string rest
    else if c = '-' then number true rest
    else if c.isDigit then number false (.char c :: rest)
    else if c = '[' then
      match skipBlanks rest with
      | [] => ⟨.array [] (some .endOfList), none⟩
      | .char ']' :: rest => ⟨.array [] none, some rest⟩
      | rest =>
        let (found, stop, rest) := items fuel rest
        ⟨.array found stop, rest⟩
    else if c = '\x7b' then
      match skipBlanks rest with
      | [] => ⟨.object [] (some .endOfObject), none⟩
      | .char '\x7d' :: rest => ⟨.object [] none, some rest⟩
      | .char '"' :: rest =>
        let (found, stop, rest) := members fuel rest
        ⟨.object found stop, rest⟩
      | _ => ⟨.object [nameless .keyNotString] none, none⟩
    else ⟨.absent .expectedValue, none⟩

/-- The items of an array from the next one on. -/
def items : Nat → List Symbol → List (Sourced Doc) × Option Fault × Option (List Symbol)
  | 0, _ => ([], some .tooDeep, none)
  | fuel + 1, text =>
    let start := skipBlanks text
    let item := cite start (value fuel start)
    match item.rest with
    | none => ([item.value], none, none)
    | some rest =>
      match skipBlanks rest with
      | [] => ([item.value], some .endOfList, none)
      | .char ']' :: rest => ([item.value], none, some rest)
      | .char ',' :: rest =>
        match skipBlanks rest with
        | .char ']' :: _ => ([item.value], some .trailingComma, none)
        | rest =>
          let (found, stop, rest) := items fuel rest
          (item.value :: found, stop, rest)
      | _ => ([item.value], some .expectedListEnd, none)

/-- The members of an object from the one whose name begins here, after its quote. -/
def members :
    Nat → List Symbol → List (Token String × Sourced Doc) × Option Fault × Option (List Symbol)
  | 0, _ => ([], some .tooDeep, none)
  | fuel + 1, text =>
    let name := scanString text
    match name.rest with
    | none => ([openMember name.value .endOfObject], none, none)
    | some rest =>
      match skipBlanks rest with
      | [] => ([openMember name.value .endOfObject], none, none)
      | .char ':' :: rest =>
        let start := skipBlanks rest
        let item := cite start (value fuel start)
        match item.rest with
        | none => ([(name.value, item.value)], none, none)
        | some rest =>
          match skipBlanks rest with
          | [] => ([(name.value, item.value)], some .endOfObject, none)
          | .char '\x7d' :: rest => ([(name.value, item.value)], none, some rest)
          | .char ',' :: rest =>
            match skipBlanks rest with
            | [] => ([(name.value, item.value), nameless .endOfValue], none, none)
            | .char '"' :: rest =>
              let (found, stop, rest) := members fuel rest
              ((name.value, item.value) :: found, stop, rest)
            | .char '\x7d' :: _ => ([(name.value, item.value)], some .trailingComma, none)
            | _ => ([(name.value, item.value), nameless .keyNotString], none, none)
          | _ => ([(name.value, item.value)], some .expectedObjectEnd, none)
      | _ => ([openMember name.value .expectedColon], none, none)

end

end Scan

/-- A text read as one value, and the fault of what follows it. -/
structure Document where
  root : Sourced Doc
  trailing : Option Fault

namespace Document

/-- The document of a text. -/
def ofSymbols (text : List Symbol) : Document :=
  let start := Scan.skipBlanks text
  let scanned := Scan.cite start (Scan.value (2 * text.length + 2) start)
  let trailing :=
    match scanned.rest with
    | none => none
    | some rest => if (Scan.skipBlanks rest).isEmpty then none else some .trailingCharacters
  ⟨scanned.value, trailing⟩

/-- The document of a byte text. -/
def ofBytes (bytes : ByteArray) : Document := ofSymbols (Symbol.ofBytes bytes)

/-- The document of a text. -/
def ofString (text : String) : Document := ofSymbols (Symbol.ofString text)

end Document

end ContextProtocol
