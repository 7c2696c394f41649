import Monofloat.Lowering.Error
import Monofloat.Scope

/-!
# The state of lowering

Lowering goes through a program with a builder, the scope of the current function, the text of what has been
finished, and the diagnostics so far. A `Lower` step changes this state and gives a value or fails; the state
reached so far stays on failure.
-/

namespace Monofloat

open Monofloat.Ir

/-- How far lowering has come. -/
structure Lowering where
  builder : Builder
  scope : Scope := {}
  /-- The text of every declaration finished so far. -/
  echo : String := ""
  diagnostics : List Diagnostic := []

/-- A step of lowering. -/
abbrev Lower := EStateM LowerError Lowering

namespace Lowering

/-- The state before the first item. -/
def start (m : Module) : Lowering := { builder := { module := m } }

def module (s : Lowering) : Module := s.builder.module

def report (s : Lowering) (d : Diagnostic) : Lowering := { s with diagnostics := s.diagnostics ++ [d] }

end Lowering

namespace Lower

def fail {α : Type} (cause : LowerCause) : Lower α := throw { cause := cause }

/-- A step of the builder. -/
def build {α : Type} (step : Build α) : Lower α := fun s =>
  match step s.builder with
  | .ok a b => .ok a { s with builder := b }
  | .error e b => .error { cause := .backend e } { s with builder := b }

/-- A step inside a construct, which shows in its errors. -/
def within {α : Type} (context : LowerContext) (step : Lower α) : Lower α := fun s =>
  match step s with
  | .ok a s => .ok a s
  | .error e s => .error (e.within context) s

/-- A step after which, whatever its outcome, the scope is changed. -/
def finallyScope {α : Type} (change : Scope → Scope) (step : Lower α) : Lower α := fun s =>
  match step s with
  | .ok a s => .ok a { s with scope := change s.scope }
  | .error e s => .error e { s with scope := change s.scope }

def modifyScope (change : Scope → Scope) : Lower Unit := modify fun s => { s with scope := change s.scope }

/-- The slot of a local variable. -/
def local? (name : String) : Lower (Option String) := do return (← get).scope.lookup name

/-- Adds to the text of finished declarations. -/
def emitText (text : String) : Lower Unit := modify fun s => { s with echo := s.echo ++ text }

def report (d : Diagnostic) : Lower Unit := modify (·.report d)

/-- A step whose failure is reported, with `default` as its value then. -/
def recovering (default : Value) (span? : Option Span) (step : Lower Value) : Lower Value := fun s =>
  match step s with
  | .ok v s => .ok v s
  | .error e s => .ok default (s.report (e.diagnostic span?))

/-- Reads a value as a float: a truth value becomes one or zero, and an address is loaded from. -/
def floatValue (v : Value) : Lower Value := do
  match ← build (.valueType v) with
  | .f64 => return v
  | .bool => build (.boolToFloat v)
  | .ptr => build (.load v)

/-- Reads a value as a truth value: a float is true if it is neither zero nor a NaN. -/
def boolValue (v : Value) : Lower Value := do
  if (← build (.valueType v)) = .bool then return v
  else
    let x ← floatValue v
    build (.compare .one x (.constFloat 0))

/-- A step whose value is read as a float. -/
def asFloat (step : Lower Value) : Lower Value := do floatValue (← step)

/-- A step whose value is read as a truth value. -/
def asBool (step : Lower Value) : Lower Value := do boolValue (← step)

end Lower

end Monofloat
