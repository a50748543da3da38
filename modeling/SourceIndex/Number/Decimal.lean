import SourceIndex.Number.Binary
/-!
# Decimal texts of binary numbers

`Decimal.shortest` finds the fewest decimal digits that read back as a given binary number, the
nearest of those if there are several. `Decimal.layout` writes such digits the way the library's JSON
does, and `fixed` writes a fraction with a set number of places.
-/

namespace SourceIndex.Number

/-- The number `digits · 10 ^ exponent`. -/
structure Decimal where
  digits : Nat
  exponent : Int
deriving DecidableEq

namespace Decimal

/-- Number of decimal digits of `n`; one for zero. -/
def width (n : Nat) : Nat :=
  (Nat.toDigits 10 n).length

/-- The least `k` for which `num / den < 10 ^ k`, searched upward from an estimate by digit counts
that is at most one too small. -/
def magnitude (num den : Nat) : Int :=
  let k : Int := (width num : Int) - (width den : Int)
  let below (e : Int) : Bool :=
    if e < 0 then num * Nat.pow 10 e.natAbs < den else num < den * Nat.pow 10 e.natAbs
  if below k then k else k + 1

/-- Whether `digits · 10 ^ exponent` lies in the interval of reals that round to `b`. The ends belong
to it exactly when the mantissa is even. All is scaled to quarters of the last binary place. -/
def readsBackAs (b : Binary) (d : Decimal) : Bool :=
  let scale2 := Nat.pow 2 b.exponent.natAbs
  let scale10 := Nat.pow 10 d.exponent.natAbs
  let point := 4 * d.digits * (if d.exponent < 0 then 1 else scale10) *
    (if b.exponent < 0 then scale2 else 1)
  let unit := (if b.exponent < 0 then 1 else scale2) * (if d.exponent < 0 then scale10 else 1)
  let low := (4 * b.mantissa - (if b.lowerHalf then 1 else 2)) * unit
  let high := (4 * b.mantissa + 2) * unit
  if b.mantissa % 2 == 0 then low ≤ point && point ≤ high else low < point && point < high

/-- The better of the two `n`-digit neighbours of `num / den < 10 ^ k` that read back as `b`. -/
def atWidth? (b : Binary) (num den : Nat) (k : Int) (n : Nat) : Option Decimal :=
  let e := k - n
  let (top, bottom) :=
    if e < 0 then (num * Nat.pow 10 e.natAbs, den) else (num, den * Nat.pow 10 e.natAbs)
  let down := top / bottom
  let rest := top % bottom
  let lower : Decimal := ⟨down, e⟩
  let upper : Decimal := ⟨down + 1, e⟩
  match readsBackAs b lower, readsBackAs b upper with
  | true, true =>
    if 2 * rest < bottom || (2 * rest == bottom && down % 2 == 0) then some lower else some upper
  | true, false => some lower
  | false, true => some upper
  | false, false => none

/-- Remove factors of ten from the digits. -/
def normalize : Nat → Decimal → Decimal
  | 0, d => d
  | fuel + 1, d =>
    if d.digits % 10 == 0 && d.digits != 0 then normalize fuel ⟨d.digits / 10, d.exponent + 1⟩ else d

/-- The fewest digits that read back as `b`; seventeen are always enough. -/
def shortest (b : Binary) : Decimal :=
  if b.mantissa == 0 then ⟨0, 0⟩
  else
    let (num, den) := b.toFraction
    let k := magnitude num den
    normalize 20 (((List.range 17).findSome? fun i => atWidth? b num den k (i + 1)).getD ⟨0, 0⟩)

/-- Which numbers are written with all their places: those below `10 ^ large` whose first digit stands
less than `small` places behind the point. -/
structure Layout where
  small : Nat
  large : Nat

/-- How doubles are written. -/
def Layout.double : Layout := ⟨5, 16⟩

/-- How singles are written. -/
def Layout.single : Layout := ⟨6, 13⟩

/-- Positional within the limits, with a point and at least one place; otherwise one digit, the rest
behind a point, and an exponent. -/
def layout (limits : Layout) (d : Decimal) : String :=
  let ds := Nat.toDigits 10 d.digits
  let n := ds.length
  let point : Int := n + d.exponent
  if d.digits == 0 then "0.0"
  else if 0 ≤ d.exponent && point ≤ limits.large then
    String.ofList ds ++ String.ofList (List.replicate d.exponent.natAbs '0') ++ ".0"
  else if 0 < point && point ≤ limits.large then
    String.ofList (ds.take point.natAbs) ++ "." ++ String.ofList (ds.drop point.natAbs)
  else if -limits.small < point && point ≤ 0 then
    "0." ++ String.ofList (List.replicate point.natAbs '0') ++ String.ofList ds
  else
    let head := String.ofList (ds.take 1)
    let tail := if n == 1 then "" else "." ++ String.ofList (ds.drop 1)
    s!"{head}{tail}e{point - 1}"

end Decimal

/-- The shortest text that reads back as a finite double. -/
def floatText (x : Float) : String :=
  (if isNegative x then "-" else "") ++ (Decimal.shortest (Binary.ofFloat x)).layout .double

/-- The shortest text that reads back as a finite single. -/
def float32Text (x : Float32) : String :=
  (if isNegative32 x then "-" else "") ++ (Decimal.shortest (Binary.ofFloat32 x)).layout .single

/-- `num / den` with `places` decimal places; a half goes to the even neighbour. -/
def fixed (places num den : Nat) : String :=
  let top := num * Nat.pow 10 places
  let down := top / den
  let rest := top % den
  let q := if 2 * rest < den || (2 * rest == den && down % 2 == 0) then down else down + 1
  let ds := Nat.toDigits 10 q
  let ds := List.replicate (places + 1 - ds.length) '0' ++ ds
  let whole := ds.length - places
  if places == 0 then String.ofList ds
  else String.ofList (ds.take whole) ++ "." ++ String.ofList (ds.drop whole)

/-- A single with `places` decimal places. -/
def fixed32 (places : Nat) (x : Float32) : String :=
  let (num, den) := (Binary.ofFloat32 x).toFraction
  (if isNegative32 x then "-" else "") ++ fixed places num den

end SourceIndex.Number
