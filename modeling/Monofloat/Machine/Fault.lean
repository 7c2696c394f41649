import Monofloat.Ir.Value
import Monofloat.Text.Quoted

/-!
# Run-time values and faults

While a function runs, an operand is a float, a truth value or an address. A fault ends a call; its cause is
kept apart from its wording.
-/

namespace Monofloat.Machine

open Monofloat.Ir (Ty Value)

/-- Where a variable is kept. -/
inductive Address where
  /-- A cell of the stack memory, counted from its bottom. -/
  | stack (index : Nat)
  | global (name : String)
  /-- A function; nothing is kept there. -/
  | function (name : String)
deriving DecidableEq, Repr

def Address.text : Address → String
  | stack index => "Stack(" ++ toString index ++ ")"
  | global name => "Global(" ++ quoted name ++ ")"
  | function name => "Function(" ++ quoted name ++ ")"

inductive RtValue where
  | float (x : Float)
  | bool (b : Bool)
  | ptr (a : Address)
deriving DecidableEq, Repr

def RtValue.ty : RtValue → Ty
  | float _ => .f64
  | bool _ => .bool
  | ptr _ => .ptr

/-- Why a call failed. -/
inductive Fault where
  | unknownFunction (name : String)
  | arity (name : String) (expected found : Nat)
  /-- A declared function that the host does not provide. -/
  | unresolvedExternal (name : String)
  | missingBlock (function label : String)
  | fellThrough (label : String)
  /-- An operand that nothing has been written to. -/
  | unwrittenOperand (value : Value)
  /-- A variable that nothing has been written to. -/
  | unwrittenCell (address : Address)
  | wrongType (expected found : Ty)
  /-- A write to the address of a function. -/
  | notVariable
  | phiWithoutEdge (block source : String)
  | stepLimit (budget : Nat)
  | stackOverflow (depth : Nat)
deriving DecidableEq, Repr

def Fault.message : Fault → String
  | unknownFunction name => "function `" ++ name ++ "` is not defined"
  | arity name expected found =>
    "`" ++ name ++ "` expects " ++ toString expected ++ " arguments, got " ++ toString found
  | unresolvedExternal name => "external function `" ++ name ++ "` has no host implementation"
  | missingBlock function label => "`" ++ function ++ "` has no block labelled `" ++ label ++ "`"
  | fellThrough label => "block `" ++ label ++ "` fell through without a terminator"
  | unwrittenOperand value => "`" ++ value.text ++ "` was read before it was written"
  | unwrittenCell address => "`" ++ address.text ++ "` was read before it was written"
  | wrongType expected found => "expected " ++ expected.text ++ ", found " ++ found.text
  | notVariable => "expected data address, found function"
  | phiWithoutEdge block source => "phi in `" ++ block ++ "` has no value for predecessor `" ++ source ++ "`"
  | stepLimit budget => "step budget of " ++ toString budget ++ " exhausted"
  | stackOverflow depth => "call depth exceeded " ++ toString depth

namespace RtValue

def asFloat : RtValue → Except Fault Float
  | float x => .ok x
  | v => .error (.wrongType .f64 v.ty)

def asBool : RtValue → Except Fault Bool
  | bool b => .ok b
  | v => .error (.wrongType .bool v.ty)

def asAddress : RtValue → Except Fault Address
  | ptr a => .ok a
  | v => .error (.wrongType .ptr v.ty)

end RtValue

end Monofloat.Machine
