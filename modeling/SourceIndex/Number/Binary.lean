/-!
# Binary floating point, taken apart

A finite floating-point number is `mantissa · 2 ^ exponent`. `Binary.ofFloat` and `Binary.ofFloat32`
read the two parts off the bits of a number, together with the width of the interval of reals that
round to it, which is all that decimal output needs.
-/

namespace SourceIndex.Number

/-- A finite non-negative binary number `mantissa · 2 ^ exponent` and whether its lower neighbour is
only half a step away, as it is below a power of two. -/
structure Binary where
  mantissa : Nat
  exponent : Int
  lowerHalf : Bool

namespace Binary

/-- Decode an exponent field and a fraction of `width` bits, for exponents biased by `bias`. -/
def ofFields (width : Nat) (bias : Int) (field fraction : Nat) : Binary :=
  if field == 0 then ⟨fraction, 1 - bias - width, false⟩
  else ⟨fraction + Nat.pow 2 width, (field : Int) - bias - width, fraction == 0 && field != 1⟩

/-- The magnitude of a finite double. -/
def ofFloat (x : Float) : Binary :=
  let bits := x.toBits.toNat
  ofFields 52 1023 (bits / Nat.pow 2 52 % Nat.pow 2 11) (bits % Nat.pow 2 52)

/-- The magnitude of a finite single. -/
def ofFloat32 (x : Float32) : Binary :=
  let bits := x.toBits.toNat
  ofFields 23 127 (bits / Nat.pow 2 23 % Nat.pow 2 8) (bits % Nat.pow 2 23)

/-- Numerator and denominator of the magnitude. -/
def toFraction (b : Binary) : Nat × Nat :=
  if b.exponent < 0 then (b.mantissa, Nat.pow 2 b.exponent.natAbs)
  else (b.mantissa * Nat.pow 2 b.exponent.natAbs, 1)

end Binary

/-- Whether the sign bit of `x` is set. -/
def isNegative (x : Float) : Bool :=
  x.toBits >>> 63 == 1

/-- Whether the sign bit of `x` is set. -/
def isNegative32 (x : Float32) : Bool :=
  x.toBits >>> 31 == 1

end SourceIndex.Number
