import Monofloat.Decimal.Notation

/-!
# Types, operands and operators

A program computes with floats only; its intermediate representation also has truth values, which
comparisons give, and addresses of stack slots, globals and functions.
-/

namespace Monofloat.Ir

inductive Ty where
  | f64
  | bool
  | ptr
deriving DecidableEq, Repr

namespace Ty

def text : Ty → String
  | f64 => "f64"
  | bool => "i1"
  | ptr => "ptr"

def isFloat (t : Ty) : Bool := t == f64

end Ty

/-- An operand of an instruction. -/
inductive Value where
  | constFloat (x : Float)
  | constBool (b : Bool)
  /-- The result of an instruction. -/
  | temp (id : Nat)
  /-- A parameter of the function, by its position and its name. -/
  | param (index : Nat) (name : String)
  /-- The address of a stack slot. -/
  | slot (name : String)
  /-- The address of a module-level variable. -/
  | global (name : String)
  /-- The address of a function. -/
  | function (name : String)
  /-- No value at all. -/
  | void
deriving DecidableEq, Repr

namespace Value

/-- Whether the operand is the address of a variable. -/
def isAddress : Value → Bool
  | slot _ => true
  | global _ => true
  | _ => false

def text : Value → String
  | constFloat x => Notation.typed.write x
  | constBool b => if b then "true" else "false"
  | temp id => "%" ++ toString id
  | param _ name => "%" ++ name
  | slot name => "%" ++ name
  | global name => "@" ++ name
  | function name => "@" ++ name
  | void => "void"

end Value

/-- Float arithmetic. -/
inductive BinaryOp where
  | add
  | sub
  | mul
  | div
deriving DecidableEq, Repr

namespace BinaryOp

def apply (op : BinaryOp) (x y : Float) : Float :=
  match op with
  | add => x + y
  | sub => x - y
  | mul => x * y
  | div => x / y

def text : BinaryOp → String
  | add => "fadd"
  | sub => "fsub"
  | mul => "fmul"
  | div => "fdiv"

end BinaryOp

/-- Float comparisons. The unordered ones hold when an operand is a NaN, the ordered one does not. -/
inductive CompareOp where
  /-- Unordered or less. -/
  | ult
  /-- Unordered or equal. -/
  | ueq
  /-- Ordered and not equal. -/
  | one
deriving DecidableEq, Repr

namespace CompareOp

def apply (op : CompareOp) (x y : Float) : Bool :=
  let unordered := x.isNaN || y.isNaN
  match op with
  | ult => unordered || x < y
  | ueq => unordered || x == y
  | one => !unordered && x != y

def text : CompareOp → String
  | ult => "ult"
  | ueq => "ueq"
  | one => "one"

end CompareOp

/-- Operators on truth values. -/
inductive LogicalOp where
  | and
  | or
deriving DecidableEq, Repr

namespace LogicalOp

def apply (op : LogicalOp) (a b : Bool) : Bool :=
  match op with
  | and => a && b
  | or => a || b

def text : LogicalOp → String
  | and => "and"
  | or => "or"

end LogicalOp

end Monofloat.Ir
