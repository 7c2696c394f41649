import Monofloat.Ir.Check

/-!
# Building functions

A `Builder` is a module with an insertion point: the function and the block that new instructions go to. A
`Build` step changes the builder and gives a result, or fails and says how the builder was misused. What a step has
done before it fails stays: a step that writes a temporary takes its number before the instruction is placed, and a
step that reserves a slot takes its name before it looks for the entry block.
-/

namespace Monofloat.Ir

/-- How a builder can be misused. -/
inductive BuildError where
  | noInsertionPoint
  | unknownFunction (name : String)
  | duplicateSymbol (name : String)
  | unknownBlock (function : String) (block : BlockId)
  | alreadyAttached (label : String)
  | missingEntry (function : String)
  | terminated (label : String)
  | notAddressable (value : Value)
  | noValue (what : String)
deriving DecidableEq, Repr

def BuildError.message : BuildError → String
  | noInsertionPoint => "no insertion point is set"
  | unknownFunction name => "unknown function `" ++ name ++ "`"
  | duplicateSymbol name => "symbol `" ++ name ++ "` is already defined in this module"
  | unknownBlock function block => "block " ++ block.text ++ " does not exist in `" ++ function ++ "`"
  | alreadyAttached label => "block `" ++ label ++ "` is already attached"
  | missingEntry function => "function `" ++ function ++ "` has no entry block"
  | terminated label => "block `" ++ label ++ "` already ends in a terminator"
  | notAddressable value => "`" ++ value.text ++ "` is not an address"
  | noValue what => "`" ++ what ++ "` has no value"

/-- Where new instructions go. -/
structure InsertPoint where
  function : String
  block : BlockId
deriving DecidableEq, Repr

/-- A module under construction, and the place where instructions go. -/
structure Builder where
  module : Module
  position : Option InsertPoint := none
deriving DecidableEq, Repr

namespace Builder

def clearInsertPoint (b : Builder) : Builder := { b with position := none }

/-- The builder without a function. An insertion point inside it is cleared. -/
def removeFunction (b : Builder) (name : String) : Builder where
  module := b.module.removeFunction name
  position := b.position.filter (·.function ≠ name)

end Builder

/-- A step that changes a builder. -/
abbrev Build := EStateM BuildError Builder

namespace Build

/-! ## Functions and globals -/

/-- Adds a function without a body. -/
def declareFunction (name : String) (params : List String) : Build Unit := do
  if (← get).module.hasSymbol name then throw (.duplicateSymbol name)
  else modify fun b => { b with module := b.module.addFunction (.declare name params) }

def function? (name : String) : Build (Option Function) := do return (← get).module.function? name

/-- Removes a function and gives it back. -/
def removeFunction (name : String) : Build (Option Function) := do
  let removed ← function? name
  modify (·.removeFunction name)
  return removed

def declareGlobal (name : String) : Build Global := do
  if (← get).module.hasSymbol name then throw (.duplicateSymbol name)
  else
    let g : Global := { name := name }
    modify fun b => { b with module := b.module.addGlobal g }
    return g

/-- The address of a module-level variable. -/
def global? (name : String) : Build (Option Value) := do
  return ((← get).module.global? name).map fun g => .global g.name

/-! ## Blocks and the insertion point -/

def functionNamed (name : String) : Build Function := do
  match ← function? name with
  | some f => return f
  | none => throw (.unknownFunction name)

/-- Changes the function with a name. -/
def modifyFunction (name : String) (g : Function → Function) : Build Unit :=
  modify fun b => { b with module := b.module.modifyFunction name g }

def insertPoint : Build InsertPoint := do
  match (← get).position with
  | some p => return p
  | none => throw .noInsertionPoint

/-- The function of the insertion point. -/
def currentFunction : Build Function := do functionNamed (← insertPoint).function

/-- Creates and attaches a block in a function. -/
def appendBlockIn (name label : String) : Build BlockId := do
  let f ← functionNamed name
  let (id, f) := f.appendBlock label
  modifyFunction name fun _ => f
  return id

/-- Creates and attaches a block in the current function. -/
def appendBlock (label : String) : Build BlockId := do appendBlockIn (← insertPoint).function label

/-- Creates a block in the current function without attaching it. -/
def createBlock (label : String) : Build BlockId := do
  let f ← currentFunction
  let (id, f') := f.createBlock label
  modifyFunction f.name fun _ => f'
  return id

/-- A block of the current function. -/
def blockOf (id : BlockId) : Build Block := do
  let f ← currentFunction
  match f.block? id with
  | some b => return b
  | none => throw (.unknownBlock f.name id)

/-- Attaches a block to the current function. -/
def attachBlock (id : BlockId) : Build Unit := do
  let b ← blockOf id
  let f ← currentFunction
  match f.attach? id with
  | some f' => modifyFunction f.name fun _ => f'
  | none => throw (.alreadyAttached b.label)

def setInsertPoint (function : String) (block : BlockId) : Build Unit :=
  modify fun b => { b with position := some ⟨function, block⟩ }

/-- Moves the insertion point to a block of the current function. -/
def positionAtEnd (block : BlockId) : Build Unit := do setInsertPoint (← insertPoint).function block

def clearInsertPoint : Build Unit := modify Builder.clearInsertPoint

/-- The block of the insertion point. -/
def insertBlock : Build BlockId := do return (← insertPoint).block

def labelOf (id : BlockId) : Build String := do return (← blockOf id).label

/-! ## Instructions -/

/-- Places an instruction at the insertion point. -/
def emit (i : Instruction) : Build Unit := do
  let p ← insertPoint
  let b ← blockOf p.block
  if b.isTerminated then throw (.terminated b.label)
  else modifyFunction p.function fun f => f.modifyBlock p.block (·.append i)

/-- A new temporary of the current function. -/
def temp (ty : Ty) (numbering : Numbering := .unbounded) : Build Nat := do
  let f ← currentFunction
  let (id, f') := f.newTemp ty numbering
  modifyFunction f.name fun _ => f'
  return id

/-- Places an instruction that writes a new temporary of type `ty`. -/
def emitResult (ty : Ty) (instruction : Nat → Instruction) (numbering : Numbering := .unbounded) : Build Value := do
  let dest ← temp ty numbering
  emit (instruction dest)
  return .temp dest

/-- The type of an operand in the current function. -/
def valueType (v : Value) : Build Ty := do
  match v with
  | .constFloat _ => return .f64
  | .param .. => return .f64
  | .constBool _ => return .bool
  | .slot _ => return .ptr
  | .global _ => return .ptr
  | .function _ => return .ptr
  | .temp id =>
    let p ← insertPoint
    match (← function? p.function).bind (·.tempType? id) with
    | some ty => return ty
    | none => throw (.noValue v.text)
  | .void => throw (.noValue v.text)

/-- Reserves a stack slot in front of everything in the entry block, so that slots stand in reverse order. -/
def alloca (name : String) : Build String := do
  let f ← currentFunction
  match f.entry? with
  | none => throw (.missingEntry f.name)
  | some entry =>
    let (slot, f') := f.freshName name
    modifyFunction f.name fun _ => f'
    match f'.block? entry with
    | none => throw (.missingEntry name)
    | some _ =>
      modifyFunction f.name (·.modifyBlock entry (·.prepend (.alloca slot)))
      return slot

/-- The operand has to be the address of a variable. -/
def requireAddress (ptr : Value) : Build Unit :=
  if ptr.isAddress then pure () else throw (.notAddressable ptr)

def load (ptr : Value) (numbering : Numbering := .unbounded) : Build Value := do
  requireAddress ptr
  emitResult .f64 (fun dest => .load dest ptr) numbering

def store (value ptr : Value) : Build Unit := do
  requireAddress ptr
  emit (.store value ptr)

def binary (op : BinaryOp) (left right : Value) (numbering : Numbering := .unbounded) : Build Value :=
  emitResult .f64 (fun dest => .binary dest op left right) numbering

def neg (value : Value) (numbering : Numbering := .unbounded) : Build Value :=
  emitResult .f64 (fun dest => .neg dest value) numbering

def compare (op : CompareOp) (left right : Value) (numbering : Numbering := .unbounded) : Build Value :=
  emitResult .bool (fun dest => .compare dest op left right) numbering

def logical (op : LogicalOp) (left right : Value) (numbering : Numbering := .unbounded) : Build Value :=
  emitResult .bool (fun dest => .logical dest op left right) numbering

def not (value : Value) (numbering : Numbering := .unbounded) : Build Value :=
  emitResult .bool (fun dest => .not dest value) numbering

def boolToFloat (value : Value) (numbering : Numbering := .unbounded) : Build Value :=
  emitResult .f64 (fun dest => .boolToFloat dest value) numbering

def call (callee : String) (args : List Value) (numbering : Numbering := .unbounded) : Build Value := do
  discard (functionNamed callee)
  emitResult .f64 (fun dest => .call dest callee args) numbering

/-- The incoming values of a phi with the labels of their blocks. -/
def labelled : List (Value × BlockId) → Build (List (Value × String))
  | [] => return []
  | (value, block) :: rest => do
    let label ← labelOf block
    let rest ← labelled rest
    return (value, label) :: rest

def phi (ty : Ty) (incoming : List (Value × BlockId)) (numbering : Numbering := .unbounded) : Build Value := do
  let incoming ← labelled incoming
  emitResult ty (fun dest => .phi dest ty incoming) numbering

def br (target : BlockId) : Build Unit := do emit (.br (← labelOf target))

def condBr (cond : Value) (thenBlock elseBlock : BlockId) : Build Unit := do
  let thenLabel ← labelOf thenBlock
  let elseLabel ← labelOf elseBlock
  emit (.condBr cond thenLabel elseLabel)

def ret (value : Value) : Build Unit := emit (.ret value)

end Build

end Monofloat.Ir
