/-!
# Reading floats

A numeral is a run of digits with at most one point. `readNumeral?` gives the float nearest to it.
`readFloat?` also accepts a sign, an exponent and the spellings of infinity and NaN, as numbers on a
command line are written.
-/

namespace Monofloat

/-- The number a list of decimal digits stands for. -/
def digitsValue (digits : List Char) : Nat :=
  digits.foldl (fun n c => 10 * n + (c.toNat - '0'.toNat)) 0

/-- The integer digits and the fraction digits of a numeral: digits with at most one point, and at least
one digit. -/
def splitNumeral? (text : List Char) : Option (List Char × List Char) :=
  let whole := text.takeWhile Char.isDigit
  match text.dropWhile Char.isDigit with
  | [] => if whole.isEmpty then none else some (whole, [])
  | c :: fraction =>
    if c = '.' ∧ fraction.all Char.isDigit ∧ ¬ (whole.isEmpty ∧ fraction.isEmpty) then
      some (whole, fraction)
    else none

/-- The float nearest to `digits * 10 ^ power`. A power far outside the range of doubles is cut back to
one that already gives infinity or zero. -/
def nearestFloat (digits : List Char) (power : Int) : Float :=
  let bound : Int := 400 + digits.length
  let power := max (-bound) (min bound power)
  Float.ofScientific (digitsValue digits) (decide (power < 0)) power.natAbs

/-- The float nearest to a numeral. -/
def readNumeral? (text : List Char) : Option Float :=
  (splitNumeral? text).map fun (whole, fraction) =>
    nearestFloat (whole ++ fraction) (-(fraction.length : Int))

/-- Whether the text starts with a minus, and the text without its sign. -/
def splitSign : List Char → Bool × List Char
  | '-' :: rest => (true, rest)
  | '+' :: rest => (false, rest)
  | text => (false, text)

/-- A signed exponent: at least one digit. -/
def readExponent? (text : List Char) : Option Int :=
  let (negative, digits) := splitSign text
  if digits.isEmpty ∨ ¬ digits.all Char.isDigit then none
  else some (if negative then -(digitsValue digits : Int) else digitsValue digits)

/-- An unsigned number: infinity or NaN by name in any case, or a numeral with an optional exponent. -/
def readMagnitude? (text : List Char) : Option Float :=
  let name := String.ofList (text.map Char.toLower)
  if name = "inf" ∨ name = "infinity" then some (1.0 / 0.0)
  else if name = "nan" then some (0.0 / 0.0)
  else
    let isMark (c : Char) : Bool := c == 'e' || c == 'E'
    let numeral := text.takeWhile (fun c => !isMark c)
    match text.dropWhile (fun c => !isMark c) with
    | [] => readNumeral? numeral
    | _ :: exponent => do
      let (whole, fraction) ← splitNumeral? numeral
      let power ← readExponent? exponent
      return nearestFloat (whole ++ fraction) (power - fraction.length)

/-- A float as written on a command line. -/
def readFloat? (text : String) : Option Float :=
  let (negative, rest) := splitSign text.toList
  (readMagnitude? rest).map fun x => if negative then -x else x

end Monofloat
