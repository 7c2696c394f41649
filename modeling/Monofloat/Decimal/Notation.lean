import Monofloat.Decimal.Shortest

/-!
# Writing floats

The digits come from `Magnitude.shortest`; a `Notation` says how they are laid out. Two notations are in
use: `Notation.plain` for values shown to a user and `Notation.typed` for constants in the intermediate
representation, where an integral value keeps its `.0`.
-/

namespace Monofloat

/-- How the digits of a finite float are laid out. -/
structure Notation where
  /-- What follows the digits of an integral value written positionally. -/
  wholeSuffix : String
  /-- Whether a value whose leading digit has this power of ten is written positionally; otherwise it is
  written with an exponent. -/
  positional : Int → Bool

namespace Notation

/-- Never an exponent, and no point after an integral value: `1`, `0.1`, `-0`. -/
def plain : Notation := ⟨"", fun _ => true⟩

/-- A point in every positional value, and an exponent from `1e16` upwards and below `0.0001`. -/
def typed : Notation := ⟨".0", fun e => decide (-4 ≤ e ∧ e < 16)⟩

/-- `digits` with a decimal point after the first `point` of them; zeros fill the gap on either side. -/
def placePoint (n : Notation) (digits : List Char) (point : Int) : String :=
  if point ≤ 0 then
    "0." ++ String.ofList (List.replicate (-point).toNat '0' ++ digits)
  else if digits.length ≤ point.toNat then
    String.ofList (digits ++ List.replicate (point.toNat - digits.length) '0') ++ n.wholeSuffix
  else
    String.ofList (digits.take point.toNat) ++ "." ++ String.ofList (digits.drop point.toNat)

/-- One digit, the others after a point, and the power of ten of the first one. -/
def withExponent (digits : List Char) (power : Int) : String :=
  let tail := digits.drop 1
  let fraction := if tail.isEmpty then "" else "." ++ String.ofList tail
  String.ofList (digits.take 1) ++ fraction ++ "e" ++ toString power

/-- The text of a non-negative finite number. -/
def magnitude (n : Notation) (v : Magnitude) : String :=
  if v.mantissa = 0 then "0" ++ n.wholeSuffix
  else
    let (d, k) := v.shortest
    let digits := (toString d).toList
    let power := k + digits.length - 1
    if n.positional power then n.placePoint digits (power + 1) else withExponent digits power

/-- The text of a float. A sign is written for every negative value but a NaN, zero included. -/
def write (n : Notation) (x : Float) : String :=
  match FloatParts.ofFloat x with
  | .nan => "NaN"
  | .infinite negative => if negative then "-inf" else "inf"
  | .finite negative v => (if negative then "-" else "") ++ n.magnitude v

end Notation

end Monofloat
