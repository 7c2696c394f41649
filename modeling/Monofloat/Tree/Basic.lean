import Monofloat.Source.Span

/-!
# Syntax trees

One type covers programs, declarations and expressions. The grammar puts declarations at the top level only
and gives every operator its number of operands; a tree made by hand may do otherwise, and the later stages
say what they make of it. Only declarations carry spans, since they are accepted or rejected as a whole.
-/

namespace Monofloat

/-- Arithmetic and comparison operators. -/
inductive Operator where
  | add
  | sub
  | mul
  | div
  | less
  | equal
deriving DecidableEq, Repr

def Operator.symbol : Operator → String
  | add => "+"
  | sub => "-"
  | mul => "*"
  | div => "/"
  | less => "<"
  | equal => "=="

/-- Operators on truth values. -/
inductive Connective where
  | and
  | or
  | not
deriving DecidableEq, Repr

def Connective.symbol : Connective → String
  | and => "and"
  | or => "or"
  | not => "not"

/-- A function's name and the names of its parameters. -/
structure Prototype where
  name : String
  params : List String
  span : Span := {}
deriving DecidableEq, Repr, Inhabited

/-- How a `for` loop sets up its variable: `for var i = e`, `for i = e`, or an increment, which only trees
made by hand have. -/
inductive LoopHeader (α : Type) where
  | declare (name : String) (init : α)
  | assign (name : String) (init : α)
  | increment (name : String)
deriving Repr

/-- The loop variable. -/
def LoopHeader.name {α : Type} : LoopHeader α → String
  | declare name _ => name
  | assign name _ => name
  | increment name => name

/-- The syntax trees of programs and of the expressions in them. -/
inductive Tree where
  /-- Top-level items in order. -/
  | sequence (items : List Tree)
  | number (value : Float)
  | var (name : String)
  /-- An operator with one operand. Only the minus has a meaning. -/
  | unary (op : Operator) (operand : Tree)
  | binary (op : Operator) (lhs rhs : Tree)
  /-- A connective with one operand. Only `not` has a meaning. -/
  | unaryLogical (op : Connective) (operand : Tree)
  | logical (op : Connective) (lhs rhs : Tree)
  | call (callee : String) (args : List Tree)
  | conditional (cond thenArm elseArm : Tree)
  /-- `var a = 1, b = a in body`. -/
  | block (bindings : List (String × Tree)) (body : Tree)
  | binding (name : String) (init : Tree)
  | global (name : String) (span : Span)
  | prototype (proto : Prototype)
  | function (proto : Prototype) (body : Tree) (span : Span)
  /-- `{ first; ...; last }`. -/
  | statements (first : Tree) (rest : List Tree)
  /-- Statements followed by an expression that is not itself a statement; only made by hand. -/
  | openStatements (first : Tree) (rest : List Tree) (last : Tree)
  | assign (name : String) (value : Tree)
  | increment (name : String)
  | forLoop (header : LoopHeader Tree) (cond step body : Tree)
deriving Repr, Inhabited

/-- The number or the name that a node carries itself. -/
inductive Lexical where
  | number (value : Float)
  | name (name : String)
deriving DecidableEq, Repr

namespace Tree

def lexical? : Tree → Option Lexical
  | number value => some (.number value)
  | var name => some (.name name)
  | call callee _ => some (.name callee)
  | binding name _ => some (.name name)
  | global name _ => some (.name name)
  | prototype proto => some (.name proto.name)
  | function proto _ _ => some (.name proto.name)
  | assign name _ => some (.name name)
  | increment name => some (.name name)
  | forLoop header _ _ _ => some (.name header.name)
  | _ => none

/-- The name of the kind of node. -/
def kindName : Tree → String
  | sequence _ => "sequence"
  | number _ => "number"
  | var _ => "variable"
  | unary .. | binary .. => "binary expression"
  | unaryLogical .. | logical .. => "logical expression"
  | call .. => "call"
  | conditional .. => "if expression"
  | block .. => "var block"
  | binding .. => "binding"
  | global .. => "global"
  | prototype _ => "prototype"
  | function .. => "function"
  | statements .. | openStatements .. => "statement"
  | assign .. | increment _ => "assignment"
  | forLoop .. => "for loop"

/-- The span of a declaration. -/
def span? : Tree → Option Span
  | global _ span => some span
  | prototype proto => some proto.span
  | function _ _ span => some span
  | _ => none

/-- The statements of a brace block in order; there is no empty block. -/
def ofStatements? : List Tree → Option Tree
  | [] => none
  | first :: rest => some (.statements first rest)

/-- A statement in front of what follows it. -/
def consStatement (first : Tree) : Option Tree → Tree
  | none => .statements first []
  | some (.statements second rest) => .statements first (second :: rest)
  | some (.openStatements second rest last) => .openStatements first (second :: rest) last
  | some last => .openStatements first [] last

mutual

/-- The number of statements in a tree of statements, those that stand as a statement themselves
included. -/
def statementCount : Tree → Nat
  | statements first rest => 1 + first.statementCount + statementCounts rest
  | openStatements first rest last =>
    1 + first.statementCount + statementCounts rest + last.statementCount
  | _ => 0

def statementCounts : List Tree → Nat
  | [] => 0
  | t :: ts => 1 + t.statementCount + statementCounts ts

end

end Tree

end Monofloat
