import Monofloat.Tree.Basic
import Monofloat.Tree.Cursor

/-!
# Expressions

Recursive descent, one reader per level of precedence. From the loosest to the tightest: assignment, `or`,
`and`, `not`, comparison, sum, product, minus, primary. Binary operators associate to the left; `if`, `var`
and `for` are primaries that extend as far to the right as possible.

The readers take the reader for a whole expression as an argument; `expressionTo` ties the knot with a bound
on the nesting. Every nested expression stands behind a token of its own, so the number of tokens is bound
enough.
-/

namespace Monofloat

namespace Reader

variable (expression : Reader Tree)

/-- `name = e`. -/
def binding : Reader (String × Tree) := do
  let name ← identifier "expected variable name"
  discard (expect (.symbol .equal) "expected `=` in binding")
  let init ← expression
  return (name, init)

/-- The arguments of a call, behind the opening parenthesis. -/
def arguments : Reader (List Tree) := do
  let args ←
    if (← peek) = .symbol .rightParen then pure []
    else separated (.symbol .comma) expression
  discard (expect (.symbol .rightParen) "expected `)` after arguments")
  return args

/-- The statements after the first one. A semicolon may stand before the closing brace. -/
def statementsFrom : Nat → Reader (List Tree)
  | 0 => return []
  | n + 1 => do
    if ← accept (.symbol .semicolon) then
      if (← peek) = .symbol .rightBrace then return []
      else
        let first ← expression
        let rest ← statementsFrom n
        return first :: rest
    else return []

/-- `{ e; ...; e }`, behind the opening brace. -/
def statements : Reader Tree := do
  let first ← expression
  let rest ← statementsFrom expression (← tokensLeft)
  discard (expect (.symbol .rightBrace) "expected `\x7d` to close block")
  return .statements first rest

/-- `if e then e else e`, behind the `if`. -/
def conditional : Reader Tree := do
  let cond ← expression
  discard (expect (.keyword .thenKw) "expected `then` after condition")
  let thenArm ← expression
  discard (expect (.keyword .elseKw) "expected `else` branch")
  let elseArm ← expression
  return .conditional cond thenArm elseArm

/-- `var x = e, ... in e`, behind the `var`. -/
def block : Reader Tree := do
  let bindings ← separated (.symbol .comma) (binding expression)
  discard (expect (.keyword .inKw) "expected `in` after bindings")
  let body ← expression
  return .block bindings body

/-- `var x = e` or `x = e` at the start of a loop. -/
def loopHeader : Reader (LoopHeader Tree) := do
  let fresh ← accept (.keyword .varKw)
  let (name, init) ← binding expression
  return if fresh then .declare name init else .assign name init

/-- `for header, e, e in e`, behind the `for`. -/
def forLoop : Reader Tree := do
  let header ← loopHeader expression
  discard (expect (.symbol .comma) "expected `,` after loop initializer")
  let cond ← expression
  discard (expect (.symbol .comma) "expected `,` after loop condition")
  let step ← expression
  discard (expect (.keyword .inKw) "expected `in` before loop body")
  let body ← expression
  return .forLoop header cond step body

/-- A variable, or a call if a parenthesis follows the name. -/
def reference (name : String) : Reader Tree := do
  if ← accept (.symbol .leftParen) then
    return .call name (← arguments expression)
  else return .var name

/-- `( e )`, behind the opening parenthesis. -/
def parenthesized : Reader Tree := do
  let inner ← expression
  discard (expect (.symbol .rightParen) "expected `)` to close parenthesized expression")
  return inner

def primary : Reader Tree := do
  match ← peek with
  | .number value => do discard take; return .number value
  | .identifier name => do discard take; reference expression name
  | .symbol .leftParen => do discard take; parenthesized expression
  | .symbol .leftBrace => do discard take; statements expression
  | .keyword .ifKw => do discard take; conditional expression
  | .keyword .varKw => do discard take; block expression
  | .keyword .forKw => do discard take; forLoop expression
  | _ => fail .expectedExpression "expected expression"

def negation : Reader Tree := repeated (.symbol .minus) (.unary .sub) (primary expression)

def productOperator? : TokenKind → Option (Tree → Tree → Tree)
  | .symbol .star => some (.binary .mul)
  | .symbol .slash => some (.binary .div)
  | _ => none

def product : Reader Tree := chained (negation expression) productOperator?

def sumOperator? : TokenKind → Option (Tree → Tree → Tree)
  | .symbol .plus => some (.binary .add)
  | .symbol .minus => some (.binary .sub)
  | _ => none

def sum : Reader Tree := chained (product expression) sumOperator?

def comparisonOperator? : TokenKind → Option (Tree → Tree → Tree)
  | .symbol .less => some (.binary .less)
  | .symbol .equalEqual => some (.binary .equal)
  | _ => none

def comparison : Reader Tree := chained (sum expression) comparisonOperator?

def inversion : Reader Tree := repeated (.keyword .notKw) (.unaryLogical .not) (comparison expression)

def andOperator? : TokenKind → Option (Tree → Tree → Tree)
  | .keyword .andKw => some (.logical .and)
  | _ => none

def conjunction : Reader Tree := chained (inversion expression) andOperator?

def orOperator? : TokenKind → Option (Tree → Tree → Tree)
  | .keyword .orKw => some (.logical .or)
  | _ => none

def disjunction : Reader Tree := chained (conjunction expression) orOperator?

/-- The variable of an assignment: an identifier with `=` behind it. -/
def target? : Reader (Option String) := fun c =>
  match c.rest with
  | ⟨.identifier name, _⟩ :: ⟨.symbol .equal, _⟩ :: _ => .ok (some name) c
  | _ => .ok none c

/-- `++x`, `x = e`, or a disjunction. -/
def assignment : Reader Tree := do
  if ← accept (.symbol .plusPlus) then
    return .increment (← identifier "expected variable name after `++`")
  else
    match ← target? with
    | some name => do
      discard take
      discard take
      return .assign name (← expression)
    | none => disjunction expression

/-- An expression in which fewer than `depth` expressions are nested. -/
def expressionTo : (depth : Nat) → Reader Tree
  | 0 => fail .expectedExpression "expected expression"
  | depth + 1 => assignment (expressionTo depth)

end Reader

end Monofloat
