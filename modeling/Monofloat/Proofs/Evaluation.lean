import Monofloat.Machine.Host
import Monofloat.Tree.Basic

/-!
# Evaluating trees directly

What a program means, apart from any machine. A variable is a cell of the current activation or a global. Which
of them a name stands for is settled by an `Env`, which depends on the text of the program only: each place that
binds a name has a cell of its own, and a loop variable stays bound for everything behind its loop. A construct
means a `Meaning`: how it changes the environment for what comes behind it, and what it does.

Evaluation may go on forever, so it is given some fuel: the number of rounds that a loop may make, and the depth
to which calls may be nested. Where it has no result, more fuel may help.
-/

namespace Monofloat

/-! ## States -/

/-- What all activations share. -/
structure World where
  globals : String → Option Float
  output : String

/-- What an activation works on. A cell has no value before the first write. -/
structure EvalState where
  cells : Nat → Option Float
  world : World

/-- Why an evaluation ends without a value. -/
inductive Stop where
  | unwrittenLocal
  | unwrittenGlobal (name : String)
  /-- A call of a declared function that the host does not provide. -/
  | unresolvedExternal (name : String)
  /-- More than so many activations at once. -/
  | tooDeep (limit : Nat)
  /-- A tree that is no expression. -/
  | stuck
deriving DecidableEq, Repr

/-- A computation that has a value, stops, or needs more fuel. -/
abbrev Eval := ExceptT Stop (StateT EvalState Option)

namespace Eval

/-- Needs more fuel. -/
def exhausted {α : Type} : Eval α := ExceptT.mk fun _ => none

def readCell (k : Nat) : Eval Float := do
  match (← get).cells k with
  | some x => return x
  | none => throw .unwrittenLocal

def writeCell (k : Nat) (x : Float) : Eval Unit :=
  modify fun st => { st with cells := fun j => if j = k then some x else st.cells j }

def readGlobal (name : String) : Eval Float := do
  match (← get).world.globals name with
  | some x => return x
  | none => throw (.unwrittenGlobal name)

def writeGlobal (name : String) (x : Float) : Eval Unit :=
  modify fun st => { st with world :=
    { st.world with globals := fun other => if other = name then some x else st.world.globals other } }

end Eval

/-! ## Environments -/

/-- The cells of the local variables in scope, and the number of the next cell. -/
structure Env where
  cell : String → Option Nat
  next : Nat

namespace Env

def empty : Env := ⟨fun _ => none, 0⟩

/-- The environment with a name bound to a new cell. -/
def bind (ρ : Env) (name : String) : Env where
  cell x := if x = name then some ρ.next else ρ.cell x
  next := ρ.next + 1

/-- The environment with a name bound as it was in `outer`. -/
def restore (ρ : Env) (name : String) (outer : Env) : Env :=
  { ρ with cell := fun x => if x = name then outer.cell x else ρ.cell x }

/-- The environment of a body. Of two parameters with one name the later counts. -/
def ofParams (params : List String) : Env := params.foldl bind empty

/-- The value of a variable: the innermost local one, otherwise the global. -/
def read (ρ : Env) (name : String) : Eval Float :=
  match ρ.cell name with
  | some k => .readCell k
  | none => .readGlobal name

def write (ρ : Env) (name : String) (x : Float) : Eval Unit :=
  match ρ.cell name with
  | some k => .writeCell k x
  | none => .writeGlobal name x

end Env

/-! ## Numbers as truth values -/

/-- A number is true if it is neither zero nor a NaN. -/
def truth (x : Float) : Bool := !x.isNaN && x != 0

def ofTruth (b : Bool) : Float := if b then 1 else 0

/-- The value of an operator. Comparisons are true if an operand is a NaN. -/
def Operator.eval (op : Operator) (x y : Float) : Float :=
  match op with
  | .add => x + y
  | .sub => x - y
  | .mul => x * y
  | .div => x / y
  | .less => ofTruth (x.isNaN || y.isNaN || x < y)
  | .equal => ofTruth (x.isNaN || y.isNaN || x == y)

/-! ## Constructs -/

/-- What evaluation needs to know beyond the tree: the rounds a loop may make, and what calls come to. -/
structure EvalContext where
  fuel : Nat
  call : String → List Float → World → Option (Except Stop Float × World)

/-- A call, which leaves the cells of the caller alone. -/
def EvalContext.apply (Γ : EvalContext) (callee : String) (args : List Float) : Eval Float := ExceptT.mk fun st =>
  (Γ.call callee args st.world).map fun (r, w) => (r, { st with world := w })

/-- What a construct means. -/
structure Meaning (α : Type) where
  /-- The environment behind the construct. -/
  after : Env → Env := id
  run : EvalContext → Env → Eval α

namespace Meaning

variable {α β : Type}

/-- A tree that is no expression. -/
def stuck : Meaning α where
  run _ _ := throw .stuck

def value (a : α) : Meaning α where
  run _ _ := return a

/-- One construct behind the other; the second gives the value. -/
def andThen (a : Meaning α) (b : Meaning β) : Meaning β where
  after ρ := b.after (a.after ρ)
  run Γ ρ := do
    discard (a.run Γ ρ)
    b.run Γ (a.after ρ)

/-- Two constructs, the left one first. -/
def both (a : Meaning α) (b : Meaning β) {γ : Type} (f : α → β → γ) : Meaning γ where
  after ρ := b.after (a.after ρ)
  run Γ ρ := do
    let x ← a.run Γ ρ
    let y ← b.run Γ (a.after ρ)
    return f x y

def map (f : α → β) (a : Meaning α) : Meaning β where
  after := a.after
  run Γ ρ := do return f (← a.run Γ ρ)

def variableRead (name : String) : Meaning Float where
  run _ ρ := ρ.read name

def unary (op : Operator) (a : Meaning Float) : Meaning Float :=
  if op = .sub then a.map fun x => -x else stuck

def binary (op : Operator) (a b : Meaning Float) : Meaning Float := a.both b op.eval

def unaryLogical (op : Connective) (a : Meaning Float) : Meaning Float :=
  match op with
  | .not => a.map fun x => ofTruth (!truth x)
  | _ => stuck

/-- Both operands are evaluated, whatever the value of the first. -/
def logical (op : Connective) (a b : Meaning Float) : Meaning Float :=
  match op with
  | .and => a.both b fun x y => ofTruth (truth x && truth y)
  | .or => a.both b fun x y => ofTruth (truth x || truth y)
  | .not => stuck

def call (callee : String) (args : Meaning (List Float)) : Meaning Float where
  after := args.after
  run Γ ρ := do
    let xs ← args.run Γ ρ
    Γ.apply callee xs

/-- A variable with an initial value that is bound in `body`. -/
def binding (name : String) (init body : Meaning Float) : Meaning Float where
  after ρ := (body.after ((init.after ρ).bind name)).restore name (init.after ρ)
  run Γ ρ := do
    let x ← init.run Γ ρ
    .writeCell (init.after ρ).next x
    body.run Γ ((init.after ρ).bind name)

/-- The value of an assignment is the value assigned. -/
def assign (name : String) (a : Meaning Float) : Meaning Float where
  after := a.after
  run Γ ρ := do
    let x ← a.run Γ ρ
    (a.after ρ).write name x
    return x

/-- `++name` for a local variable. -/
def increment (name : String) : Meaning Float where
  run _ ρ := do
    match ρ.cell name with
    | none => throw .stuck
    | some k =>
      let x ← .readCell k
      .writeCell k (x + 1)
      return x + 1

/-- What the first arm binds stays bound in the second one. -/
def conditional (cond thenArm elseArm : Meaning Float) : Meaning Float where
  after ρ := elseArm.after (thenArm.after (cond.after ρ))
  run Γ ρ := do
    if truth (← cond.run Γ ρ) then thenArm.run Γ (cond.after ρ)
    else elseArm.run Γ (thenArm.after (cond.after ρ))

/-- The loop variable gets its first value. A local variable of that name is the loop variable, otherwise there
is a new one. -/
def loopVariable (name : String) (init : Meaning Float) : Meaning Unit where
  after ρ := if (ρ.cell name).isSome then init.after ρ else (init.after ρ).bind name
  run Γ ρ := do
    let x ← init.run Γ ρ
    .writeCell ((ρ.cell name).getD (init.after ρ).next) x

/-- Goes round while the condition is true, at most so often. -/
def rounds (cond : Eval Float) (round : Eval Unit) : Nat → Eval Unit
  | 0 => .exhausted
  | n + 1 => do
    if truth (← cond) then
      round
      rounds cond round n
    else return ()

/-- The value of a loop is zero. -/
def forLoop (header : Meaning α) (cond step body : Meaning Float) : Meaning Float where
  after ρ := step.after (body.after (cond.after (header.after ρ)))
  run Γ ρ := do
    let ρ₁ := header.after ρ
    discard (header.run Γ ρ)
    rounds (cond.run Γ ρ₁) (discard ((body.andThen step).run Γ (cond.after ρ₁))) Γ.fuel
    return 0

end Meaning

/-! ## Trees -/

mutual

/-- What a tree means. -/
def meaning : Tree → Meaning Float
  | .number x => .value x
  | .var name => .variableRead name
  | .unary op t => .unary op (meaning t)
  | .binary op t u => .binary op (meaning t) (meaning u)
  | .unaryLogical op t => .unaryLogical op (meaning t)
  | .logical op t u => .logical op (meaning t) (meaning u)
  | .call callee args => .call callee (argsMeaning args)
  | .conditional t u v => .conditional (meaning t) (meaning u) (meaning v)
  | .block bindings body => bindingsMeaning bindings (meaning body)
  | .statements first rest => statementsMeaning (meaning first) rest
  | .openStatements first rest last => (statementsMeaning (meaning first) rest).andThen (meaning last)
  | .assign name t => .assign name (meaning t)
  | .increment name => .increment name
  | .forLoop (.declare name init) cond step body | .forLoop (.assign name init) cond step body =>
    .forLoop (.loopVariable name (meaning init)) (meaning cond) (meaning step) (meaning body)
  | .forLoop (.increment name) cond step body =>
    .forLoop (.increment name) (meaning cond) (meaning step) (meaning body)
  | .sequence _ | .binding .. | .global .. | .prototype _ | .function .. => .stuck

def argsMeaning : List Tree → Meaning (List Float)
  | [] => .value []
  | t :: ts => (meaning t).both (argsMeaning ts) List.cons

/-- Statements behind one that means `first`. -/
def statementsMeaning (first : Meaning Float) : List Tree → Meaning Float
  | [] => first
  | t :: ts => first.andThen (statementsMeaning (meaning t) ts)

def bindingsMeaning : List (String × Tree) → Meaning Float → Meaning Float
  | [], body => body
  | (name, init) :: rest, body => .binding name (meaning init) (bindingsMeaning rest body)

end

/-! ## Calls -/

/-- The parameters and the body of the definition of a name. -/
def definition? (items : List Tree) (name : String) : Option (List String × Tree) :=
  items.findSome? fun
    | .function proto body _ => if proto.name = name then some (proto.params, body) else none
    | _ => none

/-- Calls a function of a program while `depth` activations are open. What is not defined is left to the host. -/
def evalCall (items : List Tree) (maxDepth : Nat) : (fuel depth : Nat) → String → List Float → World →
    Option (Except Stop Float × World)
  | 0, _, _, _, _ => none
  | fuel + 1, depth, name, args, w =>
    match definition? items name with
    | some (params, body) =>
      if maxDepth ≤ depth then some (.error (.tooDeep maxDepth), w)
      else ((meaning body).run ⟨fuel, evalCall items maxDepth fuel (depth + 1)⟩ (.ofParams params)
        ⟨fun k => args[k]?, w⟩).map fun (r, st) => (r, st.world)
    | none =>
      match Machine.hostCall? name args with
      | some (x, text) => some (.ok x, { w with output := w.output ++ text })
      | none => some (.error (.unresolvedExternal name), w)

end Monofloat
