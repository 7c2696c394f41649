import Monofloat.Lowering.Construct

/-!
# Lowering programs

`lower` goes through a tree by structural recursion and leaves the work on each construct to the module before.
The items of a sequence are lowered one after another; an item that fails is reported and left out.
-/

namespace Monofloat

open Monofloat.Ir

mutual

/-- Lowers a tree and gives its value. -/
def lower : Tree → Lower Value
  | .sequence items => lowerItems .void items
  | .number x => return .constFloat x
  | .var name => Lower.variableRead name
  | .unary op operand => Lower.unary op (lower operand)
  | .binary op lhs rhs => Lower.binary op (lower lhs) (lower rhs)
  | .unaryLogical op operand => Lower.unaryLogical op (lower operand)
  | .logical op lhs rhs => Lower.logical op (lower lhs) (lower rhs)
  | .call callee args => Lower.call callee args.length (lowerArgs callee 1 args)
  | .conditional cond thenArm elseArm => Lower.conditional (lower cond) (lower thenArm) (lower elseArm)
  | .block bindings body => lowerBindings bindings (lower body)
  | .binding name init => .slot <$> Lower.allocate name (lower init)
  | .global name _ => Lower.globalVariable name
  | .prototype proto => Lower.prototype proto true
  | .function proto body span => Lower.function proto span (lower body)
  | .statements first rest => do
    let v ← Lower.within (.statement 1) (lower first)
    lowerStatements 2 v rest
  | .openStatements first rest last => do
    let v ← Lower.within (.statement 1) (lower first)
    discard (lowerStatements 2 v rest)
    Lower.within (.statement (rest.length + 2)) (lower last)
  | .assign name value => Lower.assign name (lower value)
  | .increment name => Lower.increment name
  | .forLoop (.declare name init) cond step body =>
    Lower.forLoop (.declare name (lower init)) (lower cond) (lower step) (lower body)
  | .forLoop (.assign name init) cond step body =>
    Lower.forLoop (.assign name (lower init)) (lower cond) (lower step) (lower body)
  | .forLoop (.increment name) cond step body =>
    Lower.forLoop (.increment name) (lower cond) (lower step) (lower body)

/-- Lowers items in order; the value is that of the last one that did not fail. -/
def lowerItems (last : Value) : List Tree → Lower Value
  | [] => return last
  | item :: items => do
    let v ← Lower.recovering last item.span? (lower item)
    lowerItems v items

/-- Lowers the arguments of a call from number `index` on. -/
def lowerArgs (callee : String) (index : Nat) : List Tree → Lower (List Value)
  | [] => return []
  | arg :: args => do
    let v ← Lower.within (.argument index callee) (Lower.asFloat (lower arg))
    let vs ← lowerArgs callee (index + 1) args
    return v :: vs

/-- Lowers statements from number `index` on; the value is that of the last one. -/
def lowerStatements (index : Nat) (last : Value) : List Tree → Lower Value
  | [] => return last
  | first :: rest => do
    let v ← Lower.within (.statement index) (lower first)
    lowerStatements (index + 1) v rest

/-- Lowers `body` with bindings in force. -/
def lowerBindings : List (String × Tree) → Lower Value → Lower Value
  | [], body => body
  | (name, init) :: rest, body => Lower.withBinding name (lower init) (lowerBindings rest body)

end

/-- What lowering a program comes to. -/
structure Generated where
  module : Module
  diagnostics : List Diagnostic
  echo : String

/-- Lowers a tree into a module. -/
def generate (t : Tree) (m : Module) : Generated :=
  match Lower.recovering .void t.span? (lower t) (.start m) with
  | .ok _ s => ⟨s.module, s.diagnostics, s.echo⟩
  | .error _ s => ⟨s.module, s.diagnostics, s.echo⟩

/-- The name of a module that is given none. -/
def defaultModuleName : String := "kaleido"

/-- Lowers a tree into a new module. -/
def compile (t : Tree) (moduleName : String) : Generated := generate t { name := moduleName }

end Monofloat
