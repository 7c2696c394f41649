import Monofloat.Ir.Value

/-!
# Instructions

Every instruction with a result writes a temporary of its own. Variables live in stack slots and are reached
by `load` and `store`; `phi` merges the values that come from different predecessors.
-/

namespace Monofloat.Ir

/-- What a block is made of. Temporaries go by their numbers, slots and functions by their names, blocks by their
labels. -/
inductive Instruction where
  /-- Reserves a stack slot. -/
  | alloca (slot : String)
  | store (value ptr : Value)
  | load (dest : Nat) (ptr : Value)
  | binary (dest : Nat) (op : BinaryOp) (left right : Value)
  | neg (dest : Nat) (value : Value)
  | compare (dest : Nat) (op : CompareOp) (left right : Value)
  | logical (dest : Nat) (op : LogicalOp) (left right : Value)
  | not (dest : Nat) (value : Value)
  /-- A truth value as the float one or zero. -/
  | boolToFloat (dest : Nat) (value : Value)
  | call (dest : Nat) (callee : String) (args : List Value)
  /-- The value that belongs to the block control came from. -/
  | phi (dest : Nat) (ty : Ty) (incoming : List (Value × String))
  | ret (value : Value)
  | br (target : String)
  | condBr (cond : Value) (thenLabel elseLabel : String)
deriving DecidableEq, Repr

namespace Instruction

/-- The temporary that the instruction writes. -/
def dest? : Instruction → Option Nat
  | load dest _ => some dest
  | binary dest .. => some dest
  | neg dest _ => some dest
  | compare dest .. => some dest
  | logical dest .. => some dest
  | not dest _ => some dest
  | boolToFloat dest _ => some dest
  | call dest .. => some dest
  | phi dest .. => some dest
  | _ => none

/-- Whether the instruction ends its block. -/
def isTerminator : Instruction → Bool
  | ret _ => true
  | br _ => true
  | condBr .. => true
  | _ => false

def isPhi : Instruction → Bool
  | phi .. => true
  | _ => false

/-- The slot that the instruction reserves. -/
def slot? : Instruction → Option String
  | alloca slot => some slot
  | _ => none

/-- The labels control may go to. -/
def successors : Instruction → List String
  | br target => [target]
  | condBr _ thenLabel elseLabel => [thenLabel, elseLabel]
  | _ => []

/-- The operands that the instruction reads. -/
def operands : Instruction → List Value
  | alloca _ => []
  | store value ptr => [value, ptr]
  | load _ ptr => [ptr]
  | binary _ _ left right => [left, right]
  | neg _ value => [value]
  | compare _ _ left right => [left, right]
  | logical _ _ left right => [left, right]
  | not _ value => [value]
  | boolToFloat _ value => [value]
  | call _ _ args => args
  | phi _ _ incoming => incoming.map Prod.fst
  | ret value => [value]
  | br _ => []
  | condBr cond _ _ => [cond]

/-- `%dest = body`. -/
def assignText (dest : Nat) (body : String) : String := "%" ++ toString dest ++ " = " ++ body

/-- One incoming value of a phi. -/
def incomingText : Value × String → String
  | (value, label) => "[ " ++ value.text ++ ", %" ++ label ++ " ]"

def text : Instruction → String
  | alloca slot => "%" ++ slot ++ " = alloca f64"
  | store value ptr => "store " ++ value.text ++ ", " ++ ptr.text
  | load dest ptr => assignText dest ("load f64, " ++ ptr.text)
  | binary dest op left right => assignText dest (op.text ++ " " ++ left.text ++ ", " ++ right.text)
  | neg dest value => assignText dest ("fneg " ++ value.text)
  | compare dest op left right =>
    assignText dest ("fcmp " ++ op.text ++ " " ++ left.text ++ ", " ++ right.text)
  | logical dest op left right => assignText dest (op.text ++ " " ++ left.text ++ ", " ++ right.text)
  | not dest value => assignText dest ("not " ++ value.text)
  | boolToFloat dest value => assignText dest ("uitofp " ++ value.text ++ " to f64")
  | call dest callee args =>
    assignText dest ("call @" ++ callee ++ "(" ++ ", ".intercalate (args.map Value.text) ++ ")")
  | phi dest ty incoming =>
    assignText dest ("phi " ++ ty.text ++ " " ++ ", ".intercalate (incoming.map incomingText))
  | ret value => "ret " ++ value.text
  | br target => "br label %" ++ target
  | condBr cond thenLabel elseLabel =>
    "br " ++ cond.text ++ ", label %" ++ thenLabel ++ ", label %" ++ elseLabel

end Instruction

end Monofloat.Ir
