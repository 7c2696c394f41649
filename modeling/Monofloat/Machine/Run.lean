import Monofloat.Machine.Activation
import Monofloat.Machine.Host

/-!
# Running functions

A configuration is an activation with the activations that wait for it. `Config.step` executes one instruction;
`run` does so until the outermost activation returns or a fault occurs, or the steps left are used up. A fault closes
all open activations, one after the other, and each gives its stack memory back. A `Machine` runs calls one after
another on the same globals, output and step budget.
-/

namespace Monofloat.Machine

open Monofloat.Ir

/-- What the machine is allowed to use. -/
structure Limits where
  /-- The number of instructions that the machine may execute. -/
  maxSteps : Nat := 10000000
  /-- The number of activations that may be open at once. -/
  maxDepth : Nat := 512
deriving DecidableEq, Repr

/-- What a call comes to before anything is executed. -/
inductive Invocation where
  /-- A host function, which is done already. -/
  | done (value : Float) (s : Store)
  | opened (a : Activation)

/-- Calls a function. -/
def invoke (m : Module) (maxDepth : Nat) (s : Store) (name : String) (args : List Float) :
    Except Fault Invocation :=
  match m.function? name with
  | none => .error (.unknownFunction name)
  | some f =>
    if f.arity ≠ args.length then .error (.arity name f.arity args.length)
    else
      match f.attached with
      | [] =>
        match hostCall? name args with
        | some (value, text) => .ok (.done value (s.print text))
        | none => .error (.unresolvedExternal name)
      | entry :: others =>
        if maxDepth ≤ s.depth then .error (.stackOverflow maxDepth)
        else do
          let a : Activation :=
            { function := f.name, blocks := entry :: others, args := args, base := s.memory.size }
          return .opened (← a.enter entry "")

/-- The state between two steps of a call. -/
structure Config where
  store : Store
  active : Activation
  /-- The activations that wait for the one called from them, the innermost first, each with the temporary
  that takes the result. -/
  callers : List (Nat × Activation) := []

/-- What comes of a step. -/
inductive Outcome where
  | running (c : Config)
  | finished (value : Float) (s : Store)
  | failed (fault : Fault) (s : Store)

namespace Config

/-- The activations of the configuration, the innermost first. -/
def activations (c : Config) : List Activation := c.active :: c.callers.map Prod.snd

/-- The number of activations of the configuration. -/
def depth (c : Config) : Nat := c.callers.length + 1

/-- Closes the activations of the configuration, the innermost first, with `s` as the store. -/
def unwind (c : Config) (s : Store) : Store := c.activations.foldl (fun s a => s.close a.base) s

/-- Closes the active activation, and gives a value back to the innermost caller. -/
def leave (c : Config) (value : Float) : Outcome :=
  let s := c.store.close c.active.base
  match c.callers with
  | [] => .finished value s
  | (dest, caller) :: callers => .running ⟨s, caller.setTemp dest (.float value), callers⟩

/-- Calls a function from the active activation. -/
def call (m : Module) (maxDepth : Nat) (c : Config) (dest : Nat) (callee : String) (args : List Float) :
    Outcome :=
  match invoke m maxDepth c.store callee args with
  | .error fault => .failed fault c.store
  | .ok (.done value s) => .running { c with store := s, active := c.active.setTemp dest (.float value) }
  | .ok (.opened a) =>
    .running { c with store := c.store.deeper, active := a, callers := (dest, c.active) :: c.callers }

/-- Executes the instruction `i`, `c` being the configuration behind it. -/
def execute (m : Module) (maxDepth : Nat) (c : Config) (i : Instruction) : Outcome :=
  match c.active.execute c.store i with
  | .error fault => .failed fault c.store
  | .ok (.next a s) => .running { c with store := s, active := a }
  | .ok (.jump label) =>
    match c.active.jump label with
    | .error fault => .failed fault c.store
    | .ok a => .running { c with active := a }
  | .ok (.call dest callee args) => c.call m maxDepth dest callee args
  | .ok (.ret value) => c.leave value

end Config

/-- The result of a run: the value or the fault, the store, and the steps left. -/
structure RunResult where
  result : Except Fault Float
  store : Store
  stepsLeft : Nat

/-- Runs a configuration for at most `stepsLeft` instructions. A block without an instruction left is at fault
whether or not there are steps left. -/
def run (m : Module) (limits : Limits) : (stepsLeft : Nat) → Config → RunResult
  | 0, c =>
    match c.active.code with
    | [] => ⟨.error (.fellThrough c.active.label), c.unwind c.store, 0⟩
    | _ :: _ => ⟨.error (.stepLimit limits.maxSteps), c.unwind c.store, 0⟩
  | stepsLeft + 1, c =>
    match c.active.code with
    | [] => ⟨.error (.fellThrough c.active.label), c.unwind c.store, stepsLeft + 1⟩
    | i :: rest =>
      match Config.execute m limits.maxDepth { c with active := { c.active with code := rest } } i with
      | .running c => run m limits stepsLeft c
      | .finished value s => ⟨.ok value, s, stepsLeft⟩
      | .failed fault s => ⟨.error fault, c.unwind s, stepsLeft⟩

end Monofloat.Machine

namespace Monofloat

open Monofloat.Machine Monofloat.Ir

/-- A module with what its calls leave behind. -/
structure Machine where
  module : Module
  limits : Limits
  stepsLeft : Nat
  store : Store

namespace Machine

/-- A machine before its first call. Of two globals with one name the later gives the value. -/
def start (module : Module) (limits : Limits) : Machine where
  module := module
  limits := limits
  stepsLeft := limits.maxSteps
  store := module.globals.foldl (fun s g => s.setGlobal g.name g.initial) {}

/-- Calls a function. -/
def call (m : Machine) (name : String) (args : List Float) : Except Fault Float × Machine :=
  match invoke m.module m.limits.maxDepth m.store name args with
  | .error fault => (.error fault, m)
  | .ok (.done value s) => (.ok value, { m with store := s })
  | .ok (.opened a) =>
    let r := run m.module m.limits m.stepsLeft ⟨m.store.deeper, a, []⟩
    (r.result, { m with stepsLeft := r.stepsLeft, store := r.store })

def global? (m : Machine) (name : String) : Option Float := m.store.global? name

def output (m : Machine) : String := m.store.output

/-- The output so far, and the machine without it. -/
def takeOutput (m : Machine) : String × Machine :=
  (m.store.output, { m with store := { m.store with output := "" } })

end Machine

end Monofloat
