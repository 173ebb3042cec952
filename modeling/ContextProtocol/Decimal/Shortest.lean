import ContextProtocol.Decimal.Nearest

/-!
# Shortest decimal digits of a float

The decimal `coefficient * 10 ^ exponent` that stands for a float has the fewest digits that read
back as that float, and among those it is the nearest to it.

* `Tie`: which of two equally near decimals is taken;
* `shortest`: the decimal of a bit pattern without sign;
* `bits_shortestFrom`: the search finds a decimal that reads back, for every pattern
  whose exact expansion does.
-/
namespace ContextProtocol

/-- A non-negative decimal number. -/
structure Decimal where
  coefficient : Nat
  exponent : Int
  deriving DecidableEq, Repr

namespace Decimal

/-- The choice between two decimals that are equally near. -/
inductive Tie where
  /-- The one with the even last digit. -/
  | even
  /-- The larger one. -/
  | up
  deriving DecidableEq, Repr

/-- The bit pattern nearest to a decimal. -/
def bits (d : Decimal) : Nat :=
  nearestBits (d.coefficient * powerOfTen d.exponent.toNat) (powerOfTen (-d.exponent).toNat)

/-- The number of digits of the coefficient; zero has one. -/
def size (d : Decimal) : Nat := (Nat.toDigits 10 d.coefficient).length

/-- The power of ten that the first digit stands for. -/
def order (d : Decimal) : Int := d.exponent + d.size - 1

/-- The decimal without zeros at its end. -/
def trim (d : Decimal) : Decimal :=
  if d.coefficient = 0 then ⟨0, 0⟩ else go d.size d
where
  go : Nat → Decimal → Decimal
    | 0, d => d
    | n + 1, d =>
      if d.coefficient % 10 = 0 then go n ⟨d.coefficient / 10, d.exponent + 1⟩
      else d

/-- The exact value of a magnitude: a negative power of two is a power of five over a power of
ten. -/
def ofMagnitude (m : Magnitude) : Decimal :=
  if 0 ≤ m.exponent then ⟨m.mantissa <<< m.exponent.toNat, 0⟩
  else ⟨m.mantissa * Nat.pow 5 (-m.exponent).toNat, m.exponent⟩

/-- The two neighbours of `d` on the grid of multiples of `10 ^ exponent`, the preferred one first:
the nearer one, and in a tie the one that `tie` names. -/
def neighbours (tie : Tie) (d : Decimal) (exponent : Int) : List Decimal :=
  let unit := powerOfTen (exponent - d.exponent).toNat
  let low := d.coefficient / unit
  let rest := d.coefficient % unit
  let lowFirst : Bool :=
    if 2 * rest = unit then
      match tie with
      | .even => low % 2 == 0
      | .up => false
    else 2 * rest < unit
  if lowFirst then [⟨low, exponent⟩, ⟨low + 1, exponent⟩]
  else [⟨low + 1, exponent⟩, ⟨low, exponent⟩]

/-- Tries grids of `digits`, `digits + 1`, … digits, `fuel` of them, for a neighbour of the exact
value that reads back. -/
def shortestFrom (tie : Tie) (target : Nat) (exact : Decimal) : Nat → Nat → Decimal
  | 0, _ => exact
  | fuel + 1, digits =>
    let exponent := exact.order + 1 - digits
    if exponent ≤ exact.exponent then exact
    else
      match (exact.neighbours tie exponent).find? (fun d => d.bits = target) with
      | some d => d
      | none => shortestFrom tie target exact fuel (digits + 1)

/-- The shortest decimal that reads back as the pattern, without zeros at its end. Seventeen digits
always suffice. -/
def shortest (tie : Tie) (bits : Nat) : Decimal :=
  (shortestFrom tie bits (.ofMagnitude (.ofBits bits)) 17 1).trim

/-- The search returns a decimal that reads back whenever the exact value does. -/
theorem bits_shortestFrom (tie : Tie) (target : Nat) (exact : Decimal) (h : exact.bits = target) :
    ∀ fuel digits, (shortestFrom tie target exact fuel digits).bits = target := by
  intro fuel
  induction fuel with
  | zero => intro digits; simpa [shortestFrom] using h
  | succ fuel ih =>
    intro digits
    simp only [shortestFrom]
    split
    · exact h
    · split
      · rename_i d hd
        simpa using List.find?_some hd
      · exact ih _

end Decimal

end ContextProtocol
