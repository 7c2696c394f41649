import Monofloat.Decimal.Notation
import Monofloat.Tree.Basic

/-!
# Trees as text

The text of a tree is an s-expression: `(def f (x) (+ x 1))`. The items of a sequence stand on lines of
their own.
-/

namespace Monofloat

/-- `(name init)`. -/
def bindingText (name init : String) : String := "(" ++ name ++ " " ++ init ++ ")"

/-- `(= name value)`. -/
def assignText (name value : String) : String := "(= " ++ name ++ " " ++ value ++ ")"

/-- `(++ name)`. -/
def incrementText (name : String) : String := "(++ " ++ name ++ ")"

/-- `(for header cond step body)`. -/
def loopText (header cond step body : String) : String :=
  "(for " ++ header ++ " " ++ cond ++ " " ++ step ++ " " ++ body ++ ")"

namespace Tree

mutual

def text : Tree → String
  | sequence items => "\n".intercalate (texts items)
  | number value => Notation.plain.write value
  | var name => name
  | unary op operand => "(" ++ op.symbol ++ " " ++ operand.text ++ ")"
  | binary op lhs rhs => "(" ++ op.symbol ++ " " ++ lhs.text ++ " " ++ rhs.text ++ ")"
  | unaryLogical op operand => "(" ++ op.symbol ++ " " ++ operand.text ++ ")"
  | logical op lhs rhs => "(" ++ op.symbol ++ " " ++ lhs.text ++ " " ++ rhs.text ++ ")"
  | call callee args => "(" ++ " ".intercalate ("call" :: callee :: texts args) ++ ")"
  | conditional cond thenArm elseArm =>
    "(if " ++ cond.text ++ " " ++ thenArm.text ++ " " ++ elseArm.text ++ ")"
  | block bindings body => "(var (" ++ " ".intercalate (bindingTexts bindings) ++ ") " ++ body.text ++ ")"
  | binding name init => bindingText name init.text
  | global name _ => "(global " ++ name ++ ")"
  | prototype proto => "(extern " ++ proto.name ++ " (" ++ " ".intercalate proto.params ++ "))"
  | function proto body _ =>
    "(def " ++ proto.name ++ " (" ++ " ".intercalate proto.params ++ ") " ++ body.text ++ ")"
  | statements first rest => "(" ++ " ".intercalate ("seq" :: first.text :: texts rest) ++ ")"
  | openStatements first rest last =>
    "(" ++ " ".intercalate ("seq" :: first.text :: texts rest ++ [last.text]) ++ ")"
  | assign name value => assignText name value.text
  | increment name => incrementText name
  | forLoop (.declare name init) cond step body =>
    loopText ("var " ++ bindingText name init.text) cond.text step.text body.text
  | forLoop (.assign name init) cond step body =>
    loopText (assignText name init.text) cond.text step.text body.text
  | forLoop (.increment name) cond step body => loopText (incrementText name) cond.text step.text body.text

def texts : List Tree → List String
  | [] => []
  | t :: ts => t.text :: texts ts

def bindingTexts : List (String × Tree) → List String
  | [] => []
  | (name, init) :: rest => bindingText name init.text :: bindingTexts rest

end

end Tree

end Monofloat
