import Monofloat.Lowering.State
import Monofloat.Tree.Basic

/-!
# Lowering single constructs

How each construct is lowered, given the steps that lower its parts. Comparisons give truth values and
assignments the address they wrote to; both are read as floats where a float is needed.
-/

namespace Monofloat.Lower

open Monofloat.Ir

/-! ## Variables and operators -/

/-- The address of a variable: its slot if it is local, otherwise the global. -/
def resolve (name : String) : Lower Value := do
  match ← local? name with
  | some slot => return .slot slot
  | none =>
    match ← build (.global? name) with
    | some address => return address
    | none => fail (.undefinedVariable name .localAndGlobal)

def variableRead (name : String) : Lower Value := do
  let address ← resolve name
  build (.load address)

/-- An operator with one operand. -/
def unary (op : Operator) (operand : Lower Value) : Lower Value :=
  if op = .sub then do
    let v ← asFloat operand
    build (.neg v)
  else fail (.undefinedOperator op.symbol)

/-- The instruction of an operator with two operands. -/
def operation (left right : Value) : Operator → Build Value
  | .add => .binary .add left right
  | .sub => .binary .sub left right
  | .mul => .binary .mul left right
  | .div => .binary .div left right
  | .less => .compare .ult left right
  | .equal => .compare .ueq left right

def binary (op : Operator) (lhs rhs : Lower Value) : Lower Value := do
  let left ← asFloat lhs
  let right ← asFloat rhs
  build (operation left right op)

/-- A connective with one operand. -/
def unaryLogical (op : Connective) (operand : Lower Value) : Lower Value :=
  match op with
  | .not => do
    let v ← asBool operand
    build (.not v)
  | _ => fail (.undefinedOperator op.symbol)

/-- A connective with two operands, both of which are evaluated. -/
def junction (op : LogicalOp) (lhs rhs : Lower Value) : Lower Value := do
  let left ← asBool lhs
  let right ← asBool rhs
  build (.logical op left right)

def logical (op : Connective) (lhs rhs : Lower Value) : Lower Value :=
  match op with
  | .and => junction .and lhs rhs
  | .or => junction .or lhs rhs
  | .not => fail (.undefinedOperator op.symbol)

/-- A call of a known function with the right number of arguments. -/
def call (callee : String) (count : Nat) (args : Lower (List Value)) : Lower Value := do
  match ← build (.function? callee) with
  | none => fail (.undefinedFunction callee)
  | some f =>
    if f.arity ≠ count then fail (.argumentCount callee f.arity count)
    else
      let values ← args
      build (.call callee values)

/-! ## Bindings and assignments -/

/-- A new slot with an initial value. Binding the name is left to the caller. -/
def allocate (name : String) (init : Lower Value) : Lower String := do
  let v ← within (.initializer name) (asFloat init)
  let slot ← build (.alloca name)
  build (.store v (.slot slot))
  return slot

/-- A step with a name bound to a new slot; afterwards the name is what it was before. -/
def withBinding {α : Type} (name : String) (init : Lower Value) (step : Lower α) : Lower α := do
  let slot ← allocate name init
  let previous ← local? name
  modifyScope (·.bind name slot)
  finallyScope (·.restore name previous) step

/-- `name = value`; its value is the address written to. -/
def assign (name : String) (value : Lower Value) : Lower Value := do
  let v ← within (.assigned name) (asFloat value)
  let address ← resolve name
  build (.store v address)
  return address

/-- `++name`, for a local variable only. -/
def increment (name : String) : Lower Value := do
  match ← local? name with
  | none => fail (.undefinedVariable name .localOnly)
  | some slot =>
    let current ← build (.load (.slot slot))
    let next ← build (.binary .add current (.constFloat 1))
    build (.store next (.slot slot))
    return .slot slot

/-! ## Control flow -/

/-- `if cond then a else b`: the arms are blocks of their own that meet in a phi. A block joins the layout when
the code before it is complete, so what an arm creates lies between the arm and its successor. -/
def conditional (cond thenArm elseArm : Lower Value) : Lower Value := do
  let c ← within .condition (asBool cond)
  let thenBlock ← build (.appendBlock "trueexp")
  let elseBlock ← build (.createBlock "falseexp")
  let endBlock ← build (.createBlock "endcond")
  build (.condBr c thenBlock elseBlock)
  build (.positionAtEnd thenBlock)
  let thenValue ← within (.arm .thenArm) (asFloat thenArm)
  -- The arm may have moved the insertion point into blocks of its own.
  let thenEnd ← build .insertBlock
  build (.br endBlock)
  build (.attachBlock elseBlock)
  build (.positionAtEnd elseBlock)
  let elseValue ← within (.arm .elseArm) (asFloat elseArm)
  let elseEnd ← build .insertBlock
  build (.br endBlock)
  build (.attachBlock endBlock)
  build (.positionAtEnd endBlock)
  build (.phi .f64 [(thenValue, thenEnd), (elseValue, elseEnd)])

/-- Gives a new loop variable its slot. It stays in scope after the loop. -/
def bindLoopVariable (name : String) (init : Lower Value) : Lower Unit := do
  let slot ← allocate name init
  modifyScope (·.bind name slot)

/-- Sets up the loop variable; `reused` is the slot it has already. -/
def loopHeader (header : LoopHeader (Lower Value)) (reused : Option String) : Lower Unit :=
  match header, reused with
  | .declare name init, some slot => do
    let v ← within (.initializer name) (asFloat init)
    build (.store v (.slot slot))
  | .assign name init, some _ => discard (assign name init)
  | .increment name, some _ => discard (increment name)
  | .declare name init, none => bindLoopVariable name init
  | .assign name init, none => bindLoopVariable name init
  | .increment name, none => fail (.undefinedVariable name .localOnly)

/-- The blocks of a loop behind its header. -/
def loopBlocks (cond step body : Lower Value) : Lower Value := do
  let condBlock ← build (.appendBlock "cond")
  let loopBlock ← build (.createBlock "loop")
  let mergeBlock ← build (.createBlock "merge")
  build (.br condBlock)
  build (.positionAtEnd condBlock)
  let c ← within .loopCondition (asBool cond)
  build (.attachBlock loopBlock)
  build (.condBr c loopBlock mergeBlock)
  build (.positionAtEnd loopBlock)
  discard (within .loopBody body)
  discard (within .loopStep step)
  build (.br condBlock)
  build (.attachBlock mergeBlock)
  build (.positionAtEnd mergeBlock)
  return .constFloat 0

/-- `for header, cond, step in body`; its value is zero. A local variable of the header's name is the loop
variable, and is bound as before when the loop is done. -/
def forLoop (header : LoopHeader (Lower Value)) (cond step body : Lower Value) : Lower Value := do
  let reused ← local? header.name
  let loop : Lower Value := do
    loopHeader header reused
    loopBlocks cond step body
  match reused with
  | some slot => finallyScope (·.bind header.name slot) loop
  | none => loop

/-! ## Declarations -/

/-- Declares a function, unless it is declared already with the same number of parameters. Only a `visible`
declaration is shown. -/
def prototype (proto : Prototype) (visible : Bool) : Lower Value := do
  match ← build (.function? proto.name) with
  | some f =>
    if f.arity = proto.params.length then return .function proto.name
    else fail (.redefinedFunction proto.name)
  | none =>
    if (← build (.global? proto.name)).isSome then fail (.redefinedFunction proto.name)
    else
      build (.declareFunction proto.name proto.params)
      if visible then
        if let some f ← build (.function? proto.name) then
          emitText (f.text ++ "\n")
      return .function proto.name

/-- Declares a module-level variable. -/
def globalVariable (name : String) : Lower Value := do
  if (← get).module.hasSymbol name then fail (.redefinedGlobal name)
  else
    let g ← build (.declareGlobal name)
    emitText (g.text ++ "\n")
    return .global name

/-- Stores the parameters from number `index` on into slots of their own. -/
def spillParams (function : String) : (index : Nat) → List String → Lower Unit
  | _, [] => return ()
  | index, param :: params => do
    match (← build (.function? function)).bind (·.param? index) with
    | none => fail (.backend (.noValue param))
    | some incoming =>
      let slot ← build (.alloca param)
      build (.store incoming (.slot slot))
      modifyScope (·.bind param slot)
      spillParams function (index + 1) params

/-- The body of a function: its parameters, and its value returned. -/
def functionBody (proto : Prototype) (body : Lower Value) : Lower Unit := do
  spillParams proto.name 0 proto.params
  let v ← asFloat body
  build (.ret v)

/-- A step on the body of a function, after which there is no insertion point. If it fails, the function is
taken out of the module. -/
def insideFunction (name : String) (step : Lower Unit) : Lower Unit := fun s =>
  match step s with
  | .ok () s => .ok () { s with builder := s.builder.clearInsertPoint }
  | .error e s =>
    .error (e.within (.functionBody name))
      { s with builder := s.builder.clearInsertPoint.removeFunction name }

/-- Warns of a function that is malformed. -/
def checkFunction (name : String) (span : Span) : Lower Unit := do
  match (← get).module.checkFunction name with
  | .ok () => return ()
  | .error defect =>
    report
      { severity := .warning
        code := some .malformedFunction
        message := "`" ++ name ++ "` is malformed: " ++ defect.message
        labels := [⟨span, "in this definition", true⟩] }

/-- Defines a function. It is shown when it is complete, and leaves nothing behind when it fails. -/
def function (proto : Prototype) (span : Span) (body : Lower Value) : Lower Value := do
  let name := proto.name
  let s ← get
  if s.builder.position.isSome then fail (.nestedFunction name)
  else if s.module.hasSymbol name then fail (.redefinedFunction name)
  else
    discard (prototype proto false)
    let entry ← build (.appendBlockIn name "entry")
    build (.setInsertPoint name entry)
    modifyScope fun _ => .empty
    insideFunction name (functionBody proto body)
    checkFunction name span
    if let some f ← build (.function? name) then
      emitText (f.text ++ "\n")
    return .function name

end Monofloat.Lower
