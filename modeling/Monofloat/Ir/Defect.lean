import Monofloat.Ir.Value
import Monofloat.Text.Quoted

/-!
# Defects

What can be wrong with a function.
-/

namespace Monofloat.Ir

/-- What can be wrong with a function. -/
inductive Defect where
  | emptyBlock (label : String)
  | unterminated (label : String)
  | earlyTerminator (label : String)
  | badBranchTarget (source target : String)
  | misplacedPhi (label : String)
  /-- The labels a phi lists are not those of its block's predecessors, both in order. -/
  | phiPredecessors (block : String) (expected found : List String)
  | allocaOutsideEntry (slot : String)
  | typeMismatch (block : String) (value : Value) (expected found : Ty)
  | undefinedValue (value : Value)
  | unknownCallee (name : String)
  | unknownFunction (name : String)
  | callArity (callee : String) (expected found : Nat)
deriving DecidableEq, Repr

def Defect.message : Defect → String
  | emptyBlock label => "block `" ++ label ++ "` is empty"
  | unterminated label => "block `" ++ label ++ "` does not end in a terminator"
  | earlyTerminator label => "block `" ++ label ++ "` has a terminator before its last instruction"
  | badBranchTarget source target =>
    "branch in `" ++ source ++ "` targets `" ++ target ++ "`, which is not an attached block"
  | misplacedPhi label => "phi in `" ++ label ++ "` does not lead its block"
  | phiPredecessors block expected found =>
    "phi in `" ++ block ++ "` does not list exactly one value per predecessor (expected " ++
      quotedList expected ++ ", found " ++ quotedList found ++ ")"
  | allocaOutsideEntry slot => "stack slot `" ++ slot ++ "` is allocated outside the entry block"
  | typeMismatch block value expected found =>
    "`" ++ value.text ++ "` in `" ++ block ++ "` has type " ++ found.text ++ ", expected " ++ expected.text
  | undefinedValue value => "`" ++ value.text ++ "` is used but never defined"
  | unknownCallee name => "call to unknown function `" ++ name ++ "`"
  | unknownFunction name => "no function named `" ++ name ++ "`"
  | callArity callee expected found =>
    "call to `" ++ callee ++ "` passes " ++ toString found ++ " arguments, expected " ++ toString expected

end Monofloat.Ir
