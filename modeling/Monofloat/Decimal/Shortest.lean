/-!
# Shortest decimals

A finite float stands for every real number that rounds to it. `Magnitude.shortest` picks, among the
decimals in that interval, one with the fewest digits; of two such decimals it takes the one closer to
the float, and the larger one when both are equally close. All comparisons are exact comparisons of
natural numbers.
-/

namespace Monofloat

/-- The exact non-negative number `mantissa * 2 ^ exponent`. -/
structure Magnitude where
  mantissa : Nat
  exponent : Int
deriving DecidableEq, Repr

/-- The parts of a double: its sign and, for a finite one, its exact magnitude. -/
inductive FloatParts where
  | nan
  | infinite (negative : Bool)
  | finite (negative : Bool) (magnitude : Magnitude)
deriving DecidableEq, Repr

/-- Splits the 64 bits of a double into sign, biased exponent and fraction. -/
def FloatParts.ofFloat (x : Float) : FloatParts :=
  let bits := x.toBits.toNat
  let negative := bits / Nat.pow 2 63 == 1
  let biased : Nat := bits / Nat.pow 2 52 % 2048
  let fraction := bits % Nat.pow 2 52
  if biased = 2047 then
    if fraction = 0 then .infinite negative else .nan
  else if biased = 0 then
    .finite negative ⟨fraction, -1074⟩
  else
    .finite negative ⟨Nat.pow 2 52 + fraction, (biased : Int) - 1075⟩

namespace Magnitude

/-- The neighbour below is half as far away as the one above: the mantissa is a power of two, and not the
one where subnormal spacing starts. -/
def narrowBelow (v : Magnitude) : Bool := v.mantissa == Nat.pow 2 52 && decide (-1074 < v.exponent)

/-- The ratio of a quarter unit in the last place to `10 ^ k`, as a numerator and a denominator. -/
def quarterRatio (v : Magnitude) (k : Int) : Nat × Nat :=
  let q := v.exponent - 2
  (Nat.pow 2 q.toNat * Nat.pow 10 (-k).toNat, Nat.pow 2 (-q).toNat * Nat.pow 10 k.toNat)

/-- Whether `d * 10 ^ k` rounds to `v`. The ends of the interval round to the even mantissa. -/
def admits (v : Magnitude) (k : Int) (d : Nat) : Bool :=
  let (num, den) := v.quarterRatio k
  let lower := (4 * v.mantissa - if v.narrowBelow then 1 else 2) * num
  let upper := (4 * v.mantissa + 2) * num
  if v.mantissa % 2 = 0 then decide (lower ≤ d * den ∧ d * den ≤ upper)
  else decide (lower < d * den ∧ d * den < upper)

/-- The multiple of `10 ^ k` that rounds to `v` and is nearest to it, if one of the two around `v` does. -/
def onGrid (v : Magnitude) (k : Int) : Option Nat :=
  let (num, den) := v.quarterRatio k
  let exact := 4 * v.mantissa * num
  let below := exact / den
  let nearer := if 2 * exact < (2 * below + 1) * den then below else below + 1
  let other := if 2 * exact < (2 * below + 1) * den then below + 1 else below
  if v.admits k nearer then some nearer
  else if v.admits k other then some other
  else none

/-- A power of ten that exceeds `v` or equals it, and is less than a hundred times `v`. -/
def ceilingPower (v : Magnitude) : Int :=
  let (num, den) := v.quarterRatio 0
  let exact := 4 * v.mantissa * num
  if den ≤ exact then (toString (exact / den)).length
  else 1 - ((toString (den / exact)).length : Int)

/-- The shortest decimal `(d, k)`, standing for `d * 10 ^ k`, that rounds to the non-zero `v`. Seventeen
digits always suffice, so the grids tried here contain one. -/
def shortest (v : Magnitude) : Nat × Int :=
  let top := v.ceilingPower
  let attempt (i : Nat) : Option (Nat × Int) := (v.onGrid (top - i)).map (·, top - i)
  ((List.range 20).findSome? attempt).getD (0, 0)

end Magnitude

end Monofloat
