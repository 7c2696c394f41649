import Monofloat.Diagnostic.Basic
import Monofloat.Ir.Builder

/-!
# Lowering errors

A tree cannot be lowered because of one cause somewhere inside it. The error keeps the cause together with the
constructs around it, the outermost first; a diagnostic shows the cause as its message and the constructs as
notes.
-/

namespace Monofloat

open Monofloat.Ir (BuildError)

/-- Where a name was looked for. -/
inductive Lookup where
  | localOnly
  | localAndGlobal
deriving DecidableEq, Repr

def Lookup.text : Lookup → String
  | localOnly => "local"
  | localAndGlobal => "local or global"

/-- An arm of a conditional. -/
inductive Arm where
  | thenArm
  | elseArm
deriving DecidableEq, Repr

def Arm.text : Arm → String
  | thenArm => "then"
  | elseArm => "else"

/-- Why a construct has no value. -/
inductive LowerCause where
  | undefinedVariable (name : String) (lookup : Lookup)
  | undefinedFunction (name : String)
  | argumentCount (callee : String) (expected found : Nat)
  | undefinedOperator (symbol : String)
  | redefinedFunction (name : String)
  | redefinedGlobal (name : String)
  | nestedFunction (name : String)
  | backend (error : BuildError)
deriving DecidableEq, Repr

namespace LowerCause

def message : LowerCause → String
  | undefinedVariable name lookup =>
    "unknown variable name: `" ++ name ++ "` is not a " ++ lookup.text ++ " variable"
  | undefinedFunction name => "unknown function referenced: `" ++ name ++ "`"
  | argumentCount callee expected found =>
    "`" ++ callee ++ "` takes " ++ toString expected ++ " arguments but " ++ toString found ++
      " were supplied"
  | undefinedOperator symbol => "operator `" ++ symbol ++ "` is not defined for this number of operands"
  | redefinedFunction name => "function `" ++ name ++ "` cannot be redefined"
  | redefinedGlobal name => "global `" ++ name ++ "` cannot be redefined"
  | nestedFunction name => "`" ++ name ++ "` cannot be defined inside another function"
  | backend error => "IR builder error: " ++ error.message

def code : LowerCause → Code
  | undefinedVariable _ .localOnly => .undefinedLocal
  | undefinedVariable _ .localAndGlobal => .undefinedVariable
  | undefinedFunction _ => .undefinedFunction
  | argumentCount .. => .argumentCount
  | undefinedOperator _ => .undefinedOperator
  | redefinedFunction _ => .redefinedFunction
  | redefinedGlobal _ => .redefinedGlobal
  | nestedFunction _ => .redefinedFunction
  | backend _ => .backend

/-- Advice on how to avoid the error. -/
def help : LowerCause → List String
  | undefinedFunction name => ["declare it first, e.g. `extern " ++ name ++ "(x)`"]
  | undefinedVariable _ .localOnly => ["`++` only applies to parameters and `var` bindings"]
  | _ => []

end LowerCause

/-- A construct that has no value because a part of it has none. -/
inductive LowerContext where
  | condition
  | arm (which : Arm)
  /-- An argument, counted from one. -/
  | argument (index : Nat) (callee : String)
  | initializer (name : String)
  | assigned (name : String)
  /-- A statement, counted from one. -/
  | statement (index : Nat)
  | loopCondition
  | loopBody
  | loopStep
  | functionBody (name : String)
deriving DecidableEq, Repr

namespace LowerContext

def message : LowerContext → String
  | condition => "the condition of this `if` has no value"
  | arm which => "the " ++ which.text ++ " branch of this `if` has no value"
  | argument index callee => "in argument " ++ toString index ++ " of `" ++ callee ++ "`"
  | initializer name => "in the initializer of `" ++ name ++ "`"
  | assigned name => "in the value assigned to `" ++ name ++ "`"
  | statement index => "in statement " ++ toString index ++ " of this block"
  | loopCondition => "in the loop condition"
  | loopBody => "in the loop body"
  | loopStep => "in the loop step"
  | functionBody name => "in the body of `" ++ name ++ "`"

/-- The code of an error in this construct, where the construct decides it. -/
def code? : LowerContext → Option Code
  | condition => some .missingCondition
  | arm _ => some .missingBranchValue
  | _ => none

end LowerContext

/-- Why a tree cannot be lowered, and where in it. -/
structure LowerError where
  /-- The constructs around the cause, the outermost first. -/
  trail : List LowerContext := []
  cause : LowerCause
deriving DecidableEq, Repr

namespace LowerError

/-- The error seen from a construct around it. -/
def within (e : LowerError) (context : LowerContext) : LowerError := { e with trail := context :: e.trail }

/-- What the outermost construct says about the error. -/
def message (e : LowerError) : String :=
  match e.trail with
  | [] => e.cause.message
  | context :: _ => context.message

/-- The error as the outermost construct received it. -/
def inner? (e : LowerError) : Option LowerError :=
  match e.trail with
  | [] => none
  | _ :: trail => some { e with trail := trail }

/-- The code of the outermost construct that decides one, or of the cause. -/
def code (e : LowerError) : Code := (e.trail.findSome? LowerContext.code?).getD e.cause.code

/-- The cause with its constructs as notes, pointing at the item that could not be lowered. -/
def diagnostic (e : LowerError) (span? : Option Span) : Diagnostic where
  severity := .error
  code := some e.cause.code
  message := e.cause.message
  labels := span?.toList.map fun span => ⟨span, "while lowering this item", true⟩
  notes := e.trail.map LowerContext.message
  help := e.cause.help

end LowerError

end Monofloat
