import ContextProtocol.Decimal.Layout
import ContextProtocol.Json.Basic

/-!
# Written forms

What an encoder produces: a tree whose members stand in the order they are written in, with floats
that may be infinite or NaN and with payloads that are copied as they are.

* `Form.chars`: the compact text of a form. A float that is not finite is written as `null`;
* `Form.ofJson`: the form of a value, and `Json.text`, its compact text;
* `Form.sorted`: the members of every object brought into the order of their names, as in memory.
-/
namespace ContextProtocol

/-- A JSON text that is about to be written. -/
inductive Form where
  | null
  | bool (value : Bool)
  | integer (value : Int)
  | float (value : Float)
  | string (value : String)
  | array (items : List Form)
  | object (members : List (String × Form))
  /-- A text that is itself JSON. -/
  | raw (text : String)

namespace Form

/-- One character inside quotes: quotes, backslashes and controls are escaped. -/
def escape (c : Char) : List Char :=
  match c with
  | '"' => ['\\', '"']
  | '\\' => ['\\', '\\']
  | '\x08' => ['\\', 'b']
  | '\t' => ['\\', 't']
  | '\n' => ['\\', 'n']
  | '\x0c' => ['\\', 'f']
  | '\r' => ['\\', 'r']
  | c =>
    if c.toNat < 0x20 then
      ['\\', 'u', '0', '0', Nat.digitChar (c.toNat / 16), Nat.digitChar (c.toNat % 16)]
    else [c]

/-- A text between quotes. -/
def quote (s : String) : List Char := '"' :: s.toList.flatMap escape ++ ['"']

def integerChars (i : Int) : List Char :=
  if i < 0 then '-' :: Decimal.digits i.natAbs else Decimal.digits i.natAbs

def floatChars (x : Float) : List Char :=
  if x.isFinite then Decimal.write .wire x else ['n', 'u', 'l', 'l']

mutual

/-- The compact text. -/
def chars : Form → List Char
  | .null => ['n', 'u', 'l', 'l']
  | .bool true => ['t', 'r', 'u', 'e']
  | .bool false => ['f', 'a', 'l', 's', 'e']
  | .integer i => integerChars i
  | .float x => floatChars x
  | .string s => quote s
  | .array [] => ['[', ']']
  | .array (item :: rest) => '[' :: chars item ++ restChars rest
  | .object [] => ['\x7b', '\x7d']
  | .object ((name, value) :: rest) =>
    '\x7b' :: quote name ++ ':' :: chars value ++ memberChars rest
  | .raw text => text.toList

/-- The items after the first, and the end of the array. -/
def restChars : List Form → List Char
  | [] => [']']
  | item :: rest => ',' :: chars item ++ restChars rest

/-- The members after the first, and the end of the object. -/
def memberChars : List (String × Form) → List Char
  | [] => ['\x7d']
  | (name, value) :: rest => ',' :: quote name ++ ':' :: chars value ++ memberChars rest

end

/-- The compact text. -/
def text (f : Form) : String := String.ofList f.chars

def ofNumber : Number → Form
  | .integer i _ => .integer i
  | .float x _ => .float x

mutual

/-- The form of a value. -/
def ofJson : Json → Form
  | .null => .null
  | .bool b => .bool b
  | .number n => ofNumber n
  | .string s => .string s
  | .array items => .array (ofItems items)
  | .object members => .object (ofMembers members)

def ofItems : List Json → List Form
  | [] => []
  | item :: rest => ofJson item :: ofItems rest

def ofMembers : List (String × Json) → List (String × Form)
  | [] => []
  | (name, value) :: rest => (name, ofJson value) :: ofMembers rest

end

mutual

/-- The members of every object in the order of their names; a later one replaces an earlier one of
the same name. -/
def sorted : Form → Form
  | .array items => .array (sortedItems items)
  | .object members => .object (Entries.ofList (sortedMembers members))
  | f => f

def sortedItems : List Form → List Form
  | [] => []
  | item :: rest => sorted item :: sortedItems rest

def sortedMembers : List (String × Form) → List (String × Form)
  | [] => []
  | (name, value) :: rest => (name, sorted value) :: sortedMembers rest

end

/-- The members of an object; anything else has none. -/
def members : Form → List (String × Form)
  | .object members => members
  | _ => []

end Form

/-- The compact text of a value. -/
def Json.text (v : Json) : String := (Form.ofJson v).text

end ContextProtocol
