import Monofloat.Ir.Module
import Monofloat.Machine.Fault
import Std.Data.TreeMap

/-!
# Activations

An activation is one call in progress: its arguments, the temporaries and stack slots it has so far, and the
instructions left in its current block. `Activation.execute` says what the next instruction does: most go on
with the instruction behind it; the others ask for a jump, a call or a return.
-/

namespace Monofloat.Machine

open Monofloat.Ir

/-- What the activations of a machine share. -/
structure Store where
  /-- The globals that have a value. -/
  globals : List (String × Float) := []
  /-- The stack slots of all activations, the oldest first; a slot has no value before the first write. -/
  memory : Array (Option Float) := #[]
  /-- The number of open activations. -/
  depth : Nat := 0
  /-- What has been printed and not been taken. -/
  output : String := ""

namespace Store

def global? (s : Store) (name : String) : Option Float := s.globals.lookup name

/-- The list with the entry of a name replaced, or with a new entry at its end. -/
def setEntry (name : String) (x : Float) : List (String × Float) → List (String × Float)
  | [] => [(name, x)]
  | entry :: rest => if entry.1 = name then (name, x) :: rest else entry :: setEntry name x rest

def setGlobal (s : Store) (name : String) (x : Float) : Store :=
  { s with globals := setEntry name x s.globals }

def print (s : Store) (text : String) : Store := { s with output := s.output ++ text }

/-- With one more open activation. -/
def deeper (s : Store) : Store := { s with depth := s.depth + 1 }

/-- Closes an activation that was opened when the memory had the size `base`. -/
def close (s : Store) (base : Nat) : Store := { s with memory := s.memory.shrink base, depth := s.depth - 1 }

/-- The value at an address. -/
def read (s : Store) (a : Address) : Except Fault Float :=
  let cell := match a with
    | .stack index => (s.memory[index]?).join
    | .global name => s.global? name
    | .function _ => none
  match cell with
  | some x => .ok x
  | none => .error (.unwrittenCell a)

/-- The store with a value at an address. A global comes into being when it is written. -/
def write (s : Store) (a : Address) (x : Float) : Except Fault Store :=
  match a with
  | .stack index =>
    if index < s.memory.size then .ok { s with memory := s.memory.setIfInBounds index (some x) }
    else .error (.unwrittenCell a)
  | .global name => .ok (s.setGlobal name x)
  | .function _ => .error .notVariable

end Store

/-- A call that has not returned. -/
structure Activation where
  /-- The function's name. -/
  function : String
  /-- The function's attached blocks. -/
  blocks : List Block
  args : List Float
  /-- The size of the memory when the activation was opened. -/
  base : Nat
  temps : Std.TreeMap Nat RtValue := {}
  /-- The cell of each stack slot, the one reserved last first. -/
  slots : List (String × Nat) := []
  /-- The label of the current block. -/
  label : String := ""
  /-- The instructions left in the current block. -/
  code : List Instruction := []

/-- What an instruction asks for. -/
inductive Effect where
  /-- Go on with the next instruction. -/
  | next (a : Activation) (s : Store)
  | jump (label : String)
  /-- Call a function and put its result into a temporary. -/
  | call (dest : Nat) (callee : String) (args : List Float)
  | ret (value : Float)

namespace Activation

def setTemp (a : Activation) (dest : Nat) (v : RtValue) : Activation :=
  { a with temps := a.temps.insert dest v }

/-- The value of an operand. -/
def eval (a : Activation) (v : Value) : Except Fault RtValue :=
  let found := match v with
    | .constFloat x => some (.float x)
    | .constBool b => some (.bool b)
    | .temp id => a.temps[id]?
    | .param index _ => (a.args[index]?).map .float
    | .slot name => (a.slots.lookup name).map fun index => .ptr (.stack index)
    | .global name => some (.ptr (.global name))
    | .function name => some (.ptr (.function name))
    | .void => none
  match found with
  | some x => .ok x
  | none => .error (.unwrittenOperand v)

def evalFloat (a : Activation) (v : Value) : Except Fault Float := do (← a.eval v).asFloat

def evalBool (a : Activation) (v : Value) : Except Fault Bool := do (← a.eval v).asBool

def evalAddress (a : Activation) (v : Value) : Except Fault Address := do (← a.eval v).asAddress

def evalFloats (a : Activation) : List Value → Except Fault (List Float)
  | [] => .ok []
  | v :: vs => do
    let x ← a.evalFloat v
    let xs ← a.evalFloats vs
    return x :: xs

/-- The value of a phi when control comes from the block `source`. -/
def resolvePhi (a : Activation) (block source : String) (incoming : List (Value × String)) :
    Except Fault RtValue :=
  match incoming.find? (·.2 = source) with
  | some (v, _) => a.eval v
  | none => .error (.phiWithoutEdge block source)

/-- The values of the phis at the start of a list of instructions, all read before any is written. -/
def resolvePhis (a : Activation) (block source : String) :
    List Instruction → Except Fault (List (Nat × RtValue))
  | .phi dest _ incoming :: rest => do
    let v ← a.resolvePhi block source incoming
    let vs ← a.resolvePhis block source rest
    return (dest, v) :: vs
  | _ => .ok []

/-- The activation at the start of a block; `source` is the label of the block before, or empty. -/
def enter (a : Activation) (b : Block) (source : String) : Except Fault Activation := do
  let values ← a.resolvePhis b.label source b.instructions
  let a := values.foldl (fun a (dest, v) => a.setTemp dest v) a
  return { a with label := b.label, code := b.instructions }

/-- The activation at the start of the block with a label. -/
def jump (a : Activation) (label : String) : Except Fault Activation :=
  match a.blocks.find? (·.label = label) with
  | some b => a.enter b a.label
  | none => .error (.missingBlock a.function label)

/-- What an instruction does, `a` being the activation behind it. -/
def execute (a : Activation) (s : Store) (i : Instruction) : Except Fault Effect :=
  match i with
  | .alloca slot =>
    .ok (.next { a with slots := (slot, s.memory.size) :: a.slots } { s with memory := s.memory.push none })
  | .store value ptr => do
    let x ← a.evalFloat value
    let address ← a.evalAddress ptr
    let s ← s.write address x
    return .next a s
  | .load dest ptr => do
    let address ← a.evalAddress ptr
    let x ← s.read address
    return .next (a.setTemp dest (.float x)) s
  | .binary dest op left right => do
    let x ← a.evalFloat left
    let y ← a.evalFloat right
    return .next (a.setTemp dest (.float (op.apply x y))) s
  | .neg dest value => do
    let x ← a.evalFloat value
    return .next (a.setTemp dest (.float (-x))) s
  | .compare dest op left right => do
    let x ← a.evalFloat left
    let y ← a.evalFloat right
    return .next (a.setTemp dest (.bool (op.apply x y))) s
  | .logical dest op left right => do
    let p ← a.evalBool left
    let q ← a.evalBool right
    return .next (a.setTemp dest (.bool (op.apply p q))) s
  | .not dest value => do
    let p ← a.evalBool value
    return .next (a.setTemp dest (.bool (!p))) s
  | .boolToFloat dest value => do
    let p ← a.evalBool value
    return .next (a.setTemp dest (.float (if p then 1 else 0))) s
  | .call dest callee args => do
    let xs ← a.evalFloats args
    return .call dest callee xs
  | .phi .. => .ok (.next a s)
  | .ret value => do
    let x ← a.evalFloat value
    return .ret x
  | .br target => .ok (.jump target)
  | .condBr cond thenLabel elseLabel => do
    let p ← a.evalBool cond
    return .jump (if p then thenLabel else elseLabel)

end Activation

end Monofloat.Machine
