import Monofloat.Decimal.Notation

/-!
# Host functions

What a declared function without a body does. Each host function takes one float, gives a float and may print.
-/

namespace Monofloat.Machine

/-- The character with the code point `x` rounds down to; the replacement character if there is none. -/
def characterOf (x : Float) : Char :=
  let n := x.toUInt32.toNat
  if n.isValidChar then Char.ofNat n else '\uFFFD'

/-- The value of a host function at `x`, and the text it prints. -/
def hostFunction? (name : String) (x : Float) : Option (Float × String) :=
  match name with
  | "sin" => some (x.sin, "")
  | "cos" => some (x.cos, "")
  | "sqrt" => some (x.sqrt, "")
  | "fabs" => some (x.abs, "")
  | "exp" => some (x.exp, "")
  | "log" => some (x.log, "")
  | "printd" => some (0, Notation.plain.write x ++ "\n")
  | "putchard" => some (0, (characterOf x).toString)
  | _ => none

/-- A host function applied to a list of arguments. -/
def hostCall? (name : String) : List Float → Option (Float × String)
  | [x] => hostFunction? name x
  | _ => none

end Monofloat.Machine
