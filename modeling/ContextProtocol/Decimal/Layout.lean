import ContextProtocol.Decimal.Shortest

/-!
# Written floats

A float is written with its shortest digits in one of two layouts:

* `Layout.wire`, in messages: positional from `0.00001` up to below `10 ^ 16`, always with a point,
  else with a signed exponent; a half goes to the even digit;
* `Layout.reason`, in the reasons of construction errors: always positional, a whole number without
  a point; a half goes up.
-/
namespace ContextProtocol.Decimal

/-- How shortest digits are laid out. -/
structure Layout where
  /-- The orders of magnitude that are written positionally. -/
  positional : Int → Bool
  /-- A whole number keeps a point and a zero. -/
  pointZero : Bool
  /-- Which of two equally near decimals is written. -/
  tie : Tie

namespace Layout

def wire : Layout := ⟨fun order => -5 ≤ order && order < 16, true, .even⟩

def reason : Layout := ⟨fun _ => true, false, .up⟩

end Layout

/-- The digits of a natural number. -/
def digits (n : Nat) : List Char := Nat.toDigits 10 n

/-- The digits with the point at its place: `size + exponent` digits stand before it. -/
def positional (pointZero : Bool) (d : Decimal) : List Char :=
  let ds := digits d.coefficient
  let whole := d.exponent + ds.length
  if 0 ≤ d.exponent then
    ds ++ List.replicate d.exponent.toNat '0' ++ (if pointZero then ['.', '0'] else [])
  else if 0 < whole then ds.take whole.toNat ++ '.' :: ds.drop whole.toNat
  else '0' :: '.' :: List.replicate (-whole).toNat '0' ++ ds

/-- One digit, the others after a point, and a signed exponent. -/
def scientific (d : Decimal) : List Char :=
  let mantissa :=
    match digits d.coefficient with
    | [] => []
    | [c] => [c]
    | c :: rest => c :: '.' :: rest
  let sign := if d.order < 0 then '-' else '+'
  mantissa ++ 'e' :: sign :: digits d.order.natAbs

/-- A finite float in a layout. -/
def write (layout : Layout) (x : Float) : List Char :=
  let d := shortest layout.tie (magnitudeBits x)
  let body := if layout.positional d.order then positional layout.pointZero d else scientific d
  if isNegative x then '-' :: body else body

/-- A finite float as messages show it. -/
def wire (x : Float) : String := String.ofList (write .wire x)

/-- A float as the reason of an error shows it. -/
def reason (x : Float) : String :=
  if x.isNaN then "NaN"
  else if x.isInf then if isNegative x then "-inf" else "inf"
  else String.ofList (write .reason x)

end ContextProtocol.Decimal
