/-!
# Nearest binary64 numbers

A finite binary64 magnitude is `mantissa * 2 ^ exponent` with `mantissa < 2 ^ 53`. This module reads
the magnitude out of a float and finds the float nearest to a fraction, in exact arithmetic on
natural numbers.

* `Magnitude.ofBits` and `Magnitude.bits` take a bit pattern without its sign apart and together;
* `nearestBits` rounds a fraction to the nearest pattern, a tie going to the even mantissa;
* `Magnitude.bits_ofBits`: taking a pattern apart and together again changes nothing.
-/
namespace ContextProtocol.Decimal

/-- A finite magnitude `mantissa * 2 ^ exponent`. -/
structure Magnitude where
  mantissa : Nat
  exponent : Int
  deriving DecidableEq, Repr

namespace Magnitude

/-- The leading bit of a normal mantissa, `2 ^ 52`, which a bit pattern leaves out. -/
def hiddenBit : Nat := 0x10000000000000

/-- The magnitude of a bit pattern without its sign; a zero exponent field has no hidden bit. -/
def ofBits (bits : Nat) : Magnitude :=
  if bits < hiddenBit then ⟨bits, -1074⟩
  else ⟨hiddenBit + bits % hiddenBit, (bits / hiddenBit : Nat) - 1075⟩

/-- The bit pattern of a magnitude. The hidden bit of a normal mantissa adds one to the exponent
field, so one formula serves normal and subnormal numbers and a mantissa that rounded up to
`2 ^ 53`. -/
def bits (m : Magnitude) : Nat := (m.exponent + 1074).toNat * hiddenBit + m.mantissa

theorem bits_ofBits (n : Nat) : (ofBits n).bits = n := by
  unfold ofBits bits hiddenBit
  split
  · simp
  · rename_i h
    simp only
    omega

end Magnitude

/-- The quotient rounded to the nearest natural number, a tie going to the even one. -/
def roundQuotient (num den : Nat) : Nat :=
  let q := num / den
  let r := num % den
  if 2 * r < den then q else if den < 2 * r then q + 1 else q + q % 2

/-- The largest `e` with `2 ^ e ≤ num / den`, for positive `num` and `den`. -/
def binaryOrder (num den : Nat) : Int :=
  let e : Int := num.log2 - den.log2
  if num <<< (-e).toNat < den <<< e.toNat then e - 1 else e

/-- The bit pattern of infinity without its sign. -/
def infinityBits : Nat := 0x7FF0000000000000

/-- The bit pattern nearest to `num / den`, ties to even. Patterns from `infinityBits` on stand for
fractions that are out of range. -/
def nearestBits (num den : Nat) : Nat :=
  if num = 0 then 0
  else
    let exponent := max (binaryOrder num den - 52) (-1074)
    let mantissa := roundQuotient (num <<< (-exponent).toNat) (den <<< exponent.toNat)
    Magnitude.bits ⟨mantissa, exponent⟩

/-- The bit of a pattern that holds the sign, `2 ^ 63`. -/
def signBit : Nat := 0x8000000000000000

/-- The bits of a float without its sign. -/
def magnitudeBits (x : Float) : Nat := x.toBits.toNat % signBit

/-- The sign bit: set for `-0.0` too. -/
def isNegative (x : Float) : Bool := signBit ≤ x.toBits.toNat

/-- The float of a sign and a bit pattern without sign. -/
def floatOfBits (negative : Bool) (bits : Nat) : Float :=
  .ofBits (UInt64.ofNat (if negative then signBit + bits else bits))

/-- The float nearest to an integer. -/
def ofInt (i : Int) : Float := floatOfBits (i < 0) (nearestBits i.natAbs 1)

/-- A power of ten. -/
def powerOfTen (n : Nat) : Nat := Nat.pow 10 n

/-- The float nearest to `± coefficient * 10 ^ exponent`: infinite when the value is out of range.
A value above `10 ^ 400` or below `10 ^ -400` is settled without computing the power. -/
def ofScientific (negative : Bool) (coefficient : Nat) (exponent : Int) : Float :=
  if coefficient = 0 then floatOfBits negative 0
  else if 400 < exponent then floatOfBits negative infinityBits
  else if exponent < -(coefficient.log2 + 400 : Int) then floatOfBits negative 0
  else
    let bits := nearestBits (coefficient * powerOfTen exponent.toNat) (powerOfTen (-exponent).toNat)
    floatOfBits negative (min bits infinityBits)

end ContextProtocol.Decimal
