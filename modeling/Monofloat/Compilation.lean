import Monofloat.Lowering.Program
import Monofloat.Machine.Run
import Monofloat.Token.Scan
import Monofloat.Tree.Program

/-!
# Compiling a source text

`FrontEnd.ofSource` reads a text; `Compilation.ofSource` also lowers it, if nothing was wrong with it. The
`expect` functions compile a text that is known to be right or wrong, or run one of its functions, and say
what went otherwise.
-/

namespace Monofloat

open Monofloat.Ir

/-- The declarations of a source text, with what was wrong with its tokens and with its grammar. -/
structure FrontEnd where
  lexical : List Diagnostic
  parsed : Parsed

namespace FrontEnd

/-- Reads the source text with a file number. -/
def ofSource (source : String) (file : Nat) : FrontEnd :=
  let (tokens, lexical) := tokenize source file
  ⟨lexical, parse tokens⟩

def diagnostics (f : FrontEnd) : List Diagnostic := f.lexical ++ f.parsed.diagnostics

def program (f : FrontEnd) : Tree := f.parsed.program

end FrontEnd

/-- What comes of a source text, with all that was reported on the way. -/
structure Compilation where
  diagnostics : List Diagnostic
  module : Module
  /-- The text of the module; empty if the source could not be read. -/
  ir : String
  echo : String

namespace Compilation

/-- Compiles a source text into a module with a name. A text that cannot be read is not lowered. -/
def ofSource (source moduleName : String) : Compilation :=
  let front := FrontEnd.ofSource source 0
  if Diagnostic.anyError front.diagnostics then ⟨front.diagnostics, { name := moduleName }, "", ""⟩
  else
    let g := compile front.program moduleName
    ⟨front.diagnostics ++ g.diagnostics, g.module, g.module.text, g.echo⟩

def success (c : Compilation) : Bool := !Diagnostic.anyError c.diagnostics

end Compilation

/-- What was expected of a source text and is not so. -/
inductive Unmet where
  | rejected (diagnostics : List Diagnostic)
  | accepted
  | missingText (expected ir : String)
  | faulted (entry : String) (fault : Machine.Fault) (ir : String)

def Unmet.message : Unmet → String
  | rejected diagnostics =>
    "Expected source to compile, but got errors:\n" ++ "\n".intercalate (diagnostics.map (·.headline))
  | accepted => "Expected source to fail compilation, but it succeeded"
  | missingText expected ir =>
    "Expected IR to contain '" ++ expected ++ "', but it didn't.\n\nGenerated IR:\n" ++ ir
  | faulted entry fault ir => "`" ++ entry ++ "` failed at runtime: " ++ fault.message ++ "\n\nIR:\n" ++ ir

/-- Whether `part` occurs in a text. -/
def occursIn (part : List Char) : List Char → Bool
  | [] => part.isEmpty
  | c :: cs => part.isPrefixOf (c :: cs) || occursIn part cs

/-- The name that modules of expected texts have. -/
def expectationModule : String := "test"

def expectCompiles (source : String) : Except Unmet Compilation :=
  let c := Compilation.ofSource source expectationModule
  if c.success then .ok c else .error (.rejected c.diagnostics)

def expectRejected (source : String) : Except Unmet Compilation :=
  let c := Compilation.ofSource source expectationModule
  if c.success then .error .accepted else .ok c

/-- The source compiles to a module whose text contains `expected`. -/
def expectText (source expected : String) : Except Unmet Unit := do
  let c ← expectCompiles source
  if occursIn expected.toList c.ir.toList then return () else throw (.missingText expected c.ir)

/-- The source compiles, and a function of it has a value at `args`. -/
def expectValue (source entry : String) (args : List Float) : Except Unmet Float := do
  let c ← expectCompiles source
  match ((Machine.start c.module {}).call entry args).1 with
  | .ok x => return x
  | .error fault => throw (.faulted entry fault c.ir)

end Monofloat
