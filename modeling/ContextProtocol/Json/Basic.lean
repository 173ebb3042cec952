import ContextProtocol.Decimal.Nearest
import ContextProtocol.Dict

/-!
# JSON values

A JSON value in memory: the members of an object stand in the order of their names, each name
once. Integers from `-2 ^ 63` to `2 ^ 64 - 1` are kept exactly and every other number as a finite
float, so `1` and `1.0` are different values.

* `Number`, `Json`: numbers and values, with the equality that a program sees (`0.0 == -0.0`);
* `Json.Canonical`: the members of every object inside are in order.
-/
namespace ContextProtocol

/-- A JSON number. -/
inductive Number where
  | integer (value : Int) (inRange : -0x8000000000000000 ≤ value ∧ value < 0x10000000000000000)
  | float (value : Float) (finite : value.isFinite = true)

namespace Number

/-- The number of a float: there is none for infinities and NaN. -/
def ofFloat? (x : Float) : Option Number :=
  if h : x.isFinite = true then some (.float x h) else none

/-- Kept exactly where the range allows, else rounded to the nearest float. -/
def ofInt? (i : Int) : Option Number :=
  if h : -0x8000000000000000 ≤ i ∧ i < 0x10000000000000000 then some (.integer i h)
  else ofFloat? (Decimal.ofInt i)

instance : BEq Number where
  beq
    | .integer a _, .integer b _ => a == b
    | .float a _, .float b _ => a == b
    | _, _ => false

end Number

/-- A JSON value. -/
inductive Json where
  | null
  | bool (value : Bool)
  | number (value : Number)
  | string (value : String)
  | array (items : List Json)
  | object (members : List (String × Json))

namespace Json

instance : Inhabited Json := ⟨.null⟩

mutual

def beq : Json → Json → Bool
  | .null, .null => true
  | .bool a, .bool b => a == b
  | .number a, .number b => a == b
  | .string a, .string b => a == b
  | .array a, .array b => beqItems a b
  | .object a, .object b => beqMembers a b
  | _, _ => false

def beqItems : List Json → List Json → Bool
  | [], [] => true
  | a :: as, b :: bs => beq a b && beqItems as bs
  | _, _ => false

def beqMembers : List (String × Json) → List (String × Json) → Bool
  | [], [] => true
  | (n, a) :: as, (m, b) :: bs => n == m && beq a b && beqMembers as bs
  | _, _ => false

end

instance : BEq Json := ⟨beq⟩

mutual

/-- The members of every object inside ascend by name. -/
def Canonical : Json → Prop
  | .array items => CanonicalItems items
  | .object members => Entries.Sorted members ∧ CanonicalMembers members
  | _ => True

/-- Every item is canonical. -/
def CanonicalItems : List Json → Prop
  | [] => True
  | item :: rest => Canonical item ∧ CanonicalItems rest

/-- The value of every member is canonical. -/
def CanonicalMembers : List (String × Json) → Prop
  | [] => True
  | (_, value) :: rest => Canonical value ∧ CanonicalMembers rest

end

/-- The value of an integer. -/
def ofInt (i : Int) : Json := (Number.ofInt? i).elim .null .number

/-- The value of a float; infinities and NaN have none and become `null`. -/
def ofFloat (x : Float) : Json := (Number.ofFloat? x).elim .null .number

/-- The value under a name of an object. -/
def get? : Json → String → Option Json
  | .object members, name => members.lookup name
  | _, _ => none

/-- The object of some members; of two under one name the later one stays. -/
def ofMembers (members : List (String × Json)) : Json := .object (Entries.ofList members)

end Json

end ContextProtocol
