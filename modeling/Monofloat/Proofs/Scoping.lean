import Monofloat.Lowering.Error
import Monofloat.Tree.Basic

/-!
# Static scoping

Whether a tree can be lowered is a matter of names: which are local variables, which are globals, and which are
functions of how many parameters. A `Scoping` says of a construct what is wrong with it when these names are
known, in the order in which its parts come up, and which names are known behind it. A `var` binding is in force
in its body only. A loop variable that is no local variable becomes one, and stays one behind the loop.

`scoping` goes through a tree; the offences of a definition are those of its body, with its parameters as the
local variables.
-/

namespace Monofloat

open Monofloat.Ir

/-- The names that are known at a place. -/
structure Names where
  isLocal : String → Bool
  isGlobal : String → Bool
  /-- The functions with the number of their parameters. -/
  arity? : String → Option Nat

namespace Names

def isVariable (σ : Names) (name : String) : Bool := σ.isLocal name || σ.isGlobal name

def isSymbol (σ : Names) (name : String) : Bool := (σ.arity? name).isSome || σ.isGlobal name

/-- The names with one more local variable. -/
def bind (σ : Names) (name : String) : Names := { σ with isLocal := fun x => x = name || σ.isLocal x }

/-- The names where one is a local variable if it was so before. -/
def restore (σ : Names) (name : String) (before : Names) : Names :=
  { σ with isLocal := fun x => if x = name then before.isLocal x else σ.isLocal x }

def addGlobal (σ : Names) (name : String) : Names := { σ with isGlobal := fun x => x = name || σ.isGlobal x }

def addFunction (σ : Names) (name : String) (arity : Nat) : Names :=
  { σ with arity? := fun x => if x = name then some arity else σ.arity? x }

/-- The names inside a function: its parameters are the local variables. -/
def inside (σ : Names) (proto : Prototype) : Names :=
  { σ.addFunction proto.name proto.params.length with isLocal := fun x => x ∈ proto.params }

end Names

/-- What a construct asks of the names, and what it makes of them. -/
structure Scoping where
  /-- The errors of the construct, the first one first. -/
  offences : Names → List LowerError := fun _ => []
  /-- The names behind the construct. -/
  after : Names → Names := id
  /-- The function that the construct denotes. Only declarations in the place of an expression do so. -/
  function? : Option String := none

namespace Scoping

/-- The errors as they show in a construct around them. -/
def within (context : LowerContext) (errors : List LowerError) : List LowerError :=
  errors.map (·.within context)

/-- The errors of a construct whose value is used. A function has no value. -/
def read (a : Scoping) (σ : Names) : List LowerError :=
  a.offences σ ++ a.function?.toList.map fun name => { cause := .backend (.notAddressable (.function name)) }

/-- A construct that always fails. -/
def failing (cause : LowerCause) : Scoping where
  offences _ := [{ cause := cause }]

/-! ## Expressions -/

def reference (name : String) : Scoping where
  offences σ := if σ.isVariable name then [] else [{ cause := .undefinedVariable name .localAndGlobal }]

def unary (op : Operator) (a : Scoping) : Scoping :=
  if op = .sub then { offences := a.read, after := a.after } else failing (.undefinedOperator op.symbol)

/-- Two operands, the left one first. -/
def both (a b : Scoping) : Scoping where
  offences σ := a.read σ ++ b.read (a.after σ)
  after σ := b.after (a.after σ)

def unaryLogical (op : Connective) (a : Scoping) : Scoping :=
  match op with
  | .not => { offences := a.read, after := a.after }
  | _ => failing (.undefinedOperator op.symbol)

def logical (op : Connective) (a b : Scoping) : Scoping :=
  match op with
  | .not => failing (.undefinedOperator op.symbol)
  | _ => both a b

/-- An argument, and those behind it. -/
def argument (index : Nat) (callee : String) (a rest : Scoping) : Scoping where
  offences σ := within (.argument index callee) (a.read σ) ++ rest.offences (a.after σ)
  after σ := rest.after (a.after σ)

/-- A call. The callee comes before the arguments. -/
def call (callee : String) (count : Nat) (args : Scoping) : Scoping where
  offences σ :=
    match σ.arity? callee with
    | none => [{ cause := .undefinedFunction callee }]
    | some arity =>
      if arity = count then args.offences σ else [{ cause := .argumentCount callee arity count }]
  after := args.after

def conditional (cond thenArm elseArm : Scoping) : Scoping where
  offences σ :=
    within .condition (cond.read σ) ++ within (.arm .thenArm) (thenArm.read (cond.after σ)) ++
      within (.arm .elseArm) (elseArm.read (thenArm.after (cond.after σ)))
  after σ := elseArm.after (thenArm.after (cond.after σ))

/-- A statement, and those behind it. -/
def statement (index : Nat) (a rest : Scoping) : Scoping where
  offences σ := within (.statement index) (a.offences σ) ++ rest.offences (a.after σ)
  after σ := rest.after (a.after σ)
  function? := rest.function?

/-! ## Variables -/

/-- A value that a new variable starts with. -/
def initializer (name : String) (init : Scoping) : Scoping where
  offences σ := within (.initializer name) (init.read σ)
  after := init.after

/-- A variable that is bound in `body`, but not in its initializer. -/
def binding (name : String) (init body : Scoping) : Scoping where
  offences σ := (initializer name init).offences σ ++ body.offences ((init.after σ).bind name)
  after σ := (body.after ((init.after σ).bind name)).restore name (init.after σ)
  function? := body.function?

/-- An assignment. Its value comes before its variable. -/
def assign (name : String) (value : Scoping) : Scoping where
  offences σ := within (.assigned name) (value.read σ) ++ (reference name).offences (value.after σ)
  after := value.after

def increment (name : String) : Scoping where
  offences σ := if σ.isLocal name then [] else [{ cause := .undefinedVariable name .localOnly }]

/-- What sets up a loop variable. One that is no local variable becomes one. -/
def header : LoopHeader Scoping → Scoping
  | .declare name init =>
    { offences := (initializer name init).offences
      after := fun σ => (init.after σ).bind name }
  | .assign name init =>
    { offences := fun σ =>
        if σ.isLocal name then within (.assigned name) (init.read σ) else (initializer name init).offences σ
      after := fun σ => (init.after σ).bind name }
  | .increment name => increment name

/-- A loop: the header, the condition, the body and the step, in this order. -/
def forLoop (head : LoopHeader Scoping) (cond step body : Scoping) : Scoping where
  offences σ :=
    let σ₁ := (header head).after σ
    let σ₂ := cond.after σ₁
    (header head).offences σ ++ within .loopCondition (cond.read σ₁) ++ within .loopBody (body.offences σ₂) ++
      within .loopStep (step.offences (body.after σ₂))
  after σ := step.after (body.after (cond.after ((header head).after σ)))

/-! ## Declarations in the place of an expression -/

/-- A declaration of a function. It may be repeated with the same number of parameters. -/
def prototype (proto : Prototype) : Scoping where
  offences σ :=
    match σ.arity? proto.name with
    | some arity => if arity = proto.params.length then [] else [{ cause := .redefinedFunction proto.name }]
    | none => if σ.isGlobal proto.name then [{ cause := .redefinedFunction proto.name }] else []
  after σ := if (σ.arity? proto.name).isSome then σ else σ.addFunction proto.name proto.params.length
  function? := some proto.name

def global (name : String) : Scoping where
  offences σ := if σ.isSymbol name then [{ cause := .redefinedGlobal name }] else []
  after σ := σ.addGlobal name

end Scoping

mutual

/-- The scoping of a tree inside a function. -/
def scoping : Tree → Scoping
  | .sequence _ => {}
  | .number _ => {}
  | .var name => .reference name
  | .unary op operand => .unary op (scoping operand)
  | .binary _ lhs rhs => .both (scoping lhs) (scoping rhs)
  | .unaryLogical op operand => .unaryLogical op (scoping operand)
  | .logical op lhs rhs => .logical op (scoping lhs) (scoping rhs)
  | .call callee args => .call callee args.length (argumentsScoping callee 1 args)
  | .conditional cond thenArm elseArm => .conditional (scoping cond) (scoping thenArm) (scoping elseArm)
  | .block bindings body => bindingsScoping bindings (scoping body)
  | .binding name init => .initializer name (scoping init)
  | .global name _ => .global name
  | .prototype proto => .prototype proto
  | .function proto _ _ => .failing (.nestedFunction proto.name)
  | .statements first rest => .statement 1 (scoping first) (statementsScoping 2 (scoping first).function? rest)
  | .openStatements first rest last =>
    .statement 1 (scoping first) (openStatementsScoping 2 rest (scoping last))
  | .assign name value => .assign name (scoping value)
  | .increment name => .increment name
  | .forLoop (.declare name init) cond step body =>
    .forLoop (.declare name (scoping init)) (scoping cond) (scoping step) (scoping body)
  | .forLoop (.assign name init) cond step body =>
    .forLoop (.assign name (scoping init)) (scoping cond) (scoping step) (scoping body)
  | .forLoop (.increment name) cond step body =>
    .forLoop (.increment name) (scoping cond) (scoping step) (scoping body)

/-- The arguments of a call from number `index` on. -/
def argumentsScoping (callee : String) (index : Nat) : List Tree → Scoping
  | [] => {}
  | arg :: args => .argument index callee (scoping arg) (argumentsScoping callee (index + 1) args)

/-- Statements from number `index` on; `last` is the function that the one before them denotes. -/
def statementsScoping (index : Nat) (last : Option String) : List Tree → Scoping
  | [] => { function? := last }
  | t :: ts => .statement index (scoping t) (statementsScoping (index + 1) (scoping t).function? ts)

/-- Statements from number `index` on, and `last` behind them. -/
def openStatementsScoping (index : Nat) : List Tree → Scoping → Scoping
  | [], last => .statement index last { function? := last.function? }
  | t :: ts, last => .statement index (scoping t) (openStatementsScoping (index + 1) ts last)

/-- Bindings around a body. -/
def bindingsScoping : List (String × Tree) → Scoping → Scoping
  | [], body => body
  | (name, init) :: rest, body => .binding name (scoping init) (bindingsScoping rest body)

end

/-- The errors of a definition where the names `σ` are known: its name is used already, or something is wrong
with its body. -/
def definitionOffences (proto : Prototype) (body : Tree) (σ : Names) : List LowerError :=
  if σ.isSymbol proto.name then [{ cause := .redefinedFunction proto.name }]
  else Scoping.within (.functionBody proto.name) ((scoping body).read (σ.inside proto))

end Monofloat
