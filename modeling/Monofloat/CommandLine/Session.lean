import Monofloat.CommandLine.Arguments
import Monofloat.Compilation
import Monofloat.Diagnostic.Render
import Monofloat.Tree.Text

/-!
# Commands

What a command prints and the status it ends with, given the text of its file. Diagnostics and the text of
finished declarations go to the error stream. Writing a file is left to the caller, who says how it went.
-/

namespace Monofloat.CommandLine

open Monofloat.Ir

/-- What a command prints, and the status it ends with. -/
structure Transcript where
  exit : Nat := 0
  stdout : String := ""
  stderr : String := ""
deriving DecidableEq, Repr

/-- A command that is done, or that has a file to write first. -/
inductive Progress where
  | done (t : Transcript)
  /-- Write `text` to `path`; `next` takes the reason if that failed. -/
  | write (path text : String) (next : Option String → Transcript)

/-- What a stage that reports diagnostics prints. After an error the command ends. -/
def reportStage (sources : Sources) (stage : String) (ds : List Diagnostic) : Except String String :=
  let rendered := Diagnostic.renderAll ds sources true
  if Diagnostic.anyError ds then
    .error (rendered ++ "\n" ++ stage ++ ": " ++ toString (Diagnostic.errorCount ds) ++ " error(s) found\n")
  else .ok rendered

/-- The tokens of a file. -/
def tokensOf (f : SourceFile) : Except String (List Token) := do
  let (tokens, ds) := tokenize f.text 0
  discard (reportStage [f] "Lexer" ds)
  return tokens

/-- The declarations of a file. -/
def parsedOf (f : SourceFile) : Except String Parsed := do
  let p := parse (← tokensOf f)
  discard (reportStage [f] "Parser" p.diagnostics)
  return p

/-- The module of a file, and what lowering it prints. -/
def moduleOf (f : SourceFile) (quiet : Bool) : Except String (Module × String) := do
  let p ← parsedOf f
  let g := compile p.program f.name
  let echo := if quiet then "" else g.echo
  match reportStage [f] "IR generation" g.diagnostics with
  | .ok text => return (g.module, echo ++ text)
  | .error text => throw (echo ++ text)

/-- `text` with blanks in front up to a width. -/
def padLeft (width : Nat) (text : String) : String :=
  String.ofList (List.replicate (width - text.length) ' ') ++ text

/-- `text` with blanks behind it up to a width. -/
def padRight (width : Nat) (text : String) : String :=
  text ++ String.ofList (List.replicate (width - text.length) ' ')

/-- A token on a line of its own, with its position. -/
def tokenLine (t : Token) : String :=
  let spelling := if t.isEndOfFile then "EOF" else t.kind.spelling
  "  " ++ padLeft 4 (toString t.span.start.line) ++ ":" ++ padRight 3 (toString t.span.start.column) ++ "  " ++
    spelling ++ "\n"

def lexCommand (f : SourceFile) : Except String Transcript := do
  let tokens ← tokensOf f
  return { stdout := String.join (tokens.map tokenLine) ++ "\nTotal: " ++ toString tokens.length ++
    " tokens\n" }

def parseCommand (f : SourceFile) : Except String Transcript := do
  let p ← parsedOf f
  let line (i : Nat) (t : Tree) : String := toString (i + 1) ++ ". " ++ t.text ++ "\n"
  return { stdout := String.join (p.items.mapIdx line) }

def irCommand (f : SourceFile) (quiet : Bool) (output : Option String) : Except String Progress := do
  let (m, stderr) ← moduleOf f quiet
  match output with
  | none => return .done { stdout := m.text, stderr := stderr }
  | some path =>
    return .write path m.text fun
      | none => { stdout := "IR written to " ++ path ++ "\n", stderr := stderr }
      | some reason => { exit := 1, stderr := stderr ++ "Error writing " ++ path ++ ": " ++ reason ++ "\n" }

def runCommand (f : SourceFile) (quiet : Bool) (entry : String) (args : List Float)
    (maxSteps : Option Nat) : Except String Transcript := do
  let (m, stderr) ← moduleOf f quiet
  let defaults : Machine.Limits := {}
  let limits := { defaults with maxSteps := maxSteps.getD defaults.maxSteps }
  let (result, machine) := (Machine.start m limits).call entry args
  match result with
  | .ok x => return { stdout := machine.output ++ Notation.plain.write x ++ "\n", stderr := stderr }
  | .error fault =>
    return { exit := 1, stdout := machine.output, stderr := stderr ++ "error: " ++ fault.message ++ "\n" }

def checkCommand (f : SourceFile) (quiet : Bool) : Except String Transcript := do
  let (m, stderr) ← moduleOf f quiet
  let line : String × Defect → String := fun (name, d) => "error: `" ++ name ++ "`: " ++ d.message ++ "\n"
  if m.defects.isEmpty then
    return { stdout := "No errors found: " ++ toString m.functions.length ++ " function(s), " ++
               toString m.globals.length ++ " global(s)\n"
             stderr := stderr }
  else
    return { exit := 1, stderr := stderr ++ String.join (m.defects.map line) }

/-- Carries out a command on its file. -/
def Request.execute (r : Request) (f : SourceFile) : Except String Progress :=
  match r.command with
  | .lex => .done <$> lexCommand f
  | .parse => .done <$> parseCommand f
  | .ir output => irCommand f r.quiet output
  | .run entry args maxSteps => .done <$> runCommand f r.quiet entry args maxSteps
  | .check => .done <$> checkCommand f r.quiet

/-- Carries out a request, given the text of its file or the reason why it cannot be read. -/
def Request.perform (r : Request) (text : Except String String) : Progress :=
  match text with
  | .error reason =>
    .done { exit := 1, stderr := "Error reading file: cannot read `" ++ r.file ++ "`: " ++ reason ++ "\n" }
  | .ok text =>
    match r.execute ⟨r.file, text⟩ with
    | .ok progress => progress
    | .error stderr => .done { exit := 1, stderr := stderr }

/-- A command line that asks for nothing to be done. -/
def Usage.transcript : Usage → Transcript
  | .wrong => { exit := 2 }
  | .help => {}

end Monofloat.CommandLine
