import Monofloat.Ir.Function

/-!
# Modules

A module holds functions and global variables, each in order of definition. Functions and globals are looked
up by name; the first with the name counts.
-/

namespace Monofloat.Ir

/-- A module-level variable. -/
structure Global where
  name : String
  initial : Float := 0
deriving DecidableEq, Repr

def Global.text (g : Global) : String :=
  "@" ++ g.name ++ " = common global f64 " ++ Notation.typed.write g.initial

/-- Functions and globals in the order in which they were added. -/
structure Module where
  name : String
  functions : List Function := []
  globals : List Global := []
deriving DecidableEq, Repr

namespace Module

def function? (m : Module) (name : String) : Option Function := m.functions.find? (·.name = name)

def global? (m : Module) (name : String) : Option Global := m.globals.find? (·.name = name)

/-- Whether a function or a global has the name. -/
def hasSymbol (m : Module) (name : String) : Bool := (m.function? name).isSome || (m.global? name).isSome

def addFunction (m : Module) (f : Function) : Module := { m with functions := m.functions ++ [f] }

def addGlobal (m : Module) (g : Global) : Module := { m with globals := m.globals ++ [g] }

/-- The module without the function of that name. -/
def removeFunction (m : Module) (name : String) : Module :=
  { m with functions := m.functions.eraseP (·.name = name) }

/-- The functions with the first one of that name changed. -/
def modifyFirst (name : String) (g : Function → Function) : List Function → List Function
  | [] => []
  | f :: fs => if f.name = name then g f :: fs else f :: modifyFirst name g fs

/-- The module with the function of that name changed. -/
def modifyFunction (m : Module) (name : String) (g : Function → Function) : Module :=
  { m with functions := modifyFirst name g m.functions }

/-- The module's name, its globals, and its functions with an empty line before each. -/
def text (m : Module) : String :=
  let globals := if m.globals.isEmpty then "" else
    "\n" ++ String.join (m.globals.map fun g => g.text ++ "\n")
  "; ModuleID = '" ++ m.name ++ "'\n" ++ globals ++
    String.join (m.functions.map fun f => "\n" ++ f.text)

end Module

end Monofloat.Ir
