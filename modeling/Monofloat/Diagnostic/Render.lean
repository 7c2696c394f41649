import Monofloat.Diagnostic.Basic
import Monofloat.Source.File

/-!
# Rendering diagnostics

A diagnostic is shown as its headline, an excerpt of the source for each label with the labelled columns
underlined, and its notes and help. Colours are escape sequences around the parts; without colours the
layout is the same.

    error[EG003]: unknown function referenced: `foo`
     --> demo:2:1
      |
    2 | def main() foo()
      | ^^^^^^^^^^^^^^^^ while lowering this item
      = help: declare it first
-/

namespace Monofloat

/-- The escape sequences in force while one diagnostic is rendered. -/
structure Palette where
  severity : String
  accent : String
  bold : String
  reset : String
deriving DecidableEq, Repr

namespace Palette

def uncolored : Palette := ⟨"", "", "", ""⟩

def severityColor : Severity → String
  | .error => "\x1b[1;31m"
  | .warning => "\x1b[1;33m"
  | .note => "\x1b[1;36m"

def colored (s : Severity) : Palette := ⟨severityColor s, "\x1b[1;34m", "\x1b[1m", "\x1b[0m"⟩

def choose (color : Bool) (s : Severity) : Palette := if color then colored s else uncolored

end Palette

namespace Label

/-- The number of markers under a label on its line `text`. A label that ends on the line it starts on
takes its columns; one that goes on takes the bytes of the line from its first column on. Every label has
at least one marker. -/
def markerCount (l : Label) (text : String) : Nat :=
  if l.span.stop.line = l.span.start.line then
    max (l.span.stop.column - l.span.start.column) 1
  else
    max (text.utf8ByteSize - (max l.span.start.column 1 - 1)) 1

/-- The excerpt of line `text`: an empty gutter line, the line with its number, the markers. -/
def excerpt (l : Label) (p : Palette) (text : String) : String :=
  let number := toString l.span.start.line
  let gutter := String.ofList (List.replicate number.length ' ')
  let indent := String.ofList (List.replicate (max l.span.start.column 1 - 1) ' ')
  let marker := if l.primary then '^' else '-'
  let markers := String.ofList (List.replicate (l.markerCount text) marker)
  let color := if l.primary then p.severity else p.accent
  gutter ++ " " ++ p.accent ++ "|" ++ p.reset ++ "\n" ++
    p.accent ++ number ++ " |" ++ p.reset ++ " " ++ text ++ "\n" ++
    gutter ++ " " ++ p.accent ++ "|" ++ p.reset ++ " " ++ indent ++ color ++ markers ++ p.reset ++ " " ++
    l.message ++ "\n"

/-- Where the label points, and the excerpt. A label into an unknown file is not shown, and one on a line
that the file does not have is shown without an excerpt. -/
def render (l : Label) (p : Palette) (sources : Sources) : String :=
  match sources[l.span.file]? with
  | none => ""
  | some file =>
    let start := l.span.start
    let arrow := " " ++ p.accent ++ "-->" ++ p.reset ++ " " ++ file.name ++ ":" ++ toString start.line ++
      ":" ++ toString start.column ++ "\n"
    match file.line? start.line with
    | none => arrow
    | some text => arrow ++ l.excerpt p text

end Label

namespace Diagnostic

/-- A remark below the labels. -/
def remark (p : Palette) (kind text : String) : String :=
  "  = " ++ p.bold ++ kind ++ p.reset ++ ": " ++ text ++ "\n"

def render (d : Diagnostic) (sources : Sources) (color : Bool) : String :=
  let p := Palette.choose color d.severity
  let code := match d.code with
    | some c => "[" ++ c.text ++ "]"
    | none => ""
  let headline := p.severity ++ d.severity.name ++ code ++ p.reset ++ p.bold ++ ": " ++ d.message ++
    p.reset ++ "\n"
  headline ++ String.join (d.labels.map (·.render p sources)) ++
    String.join (d.notes.map (remark p "note")) ++ String.join (d.help.map (remark p "help"))

/-- The diagnostics in order, with an empty line between them. -/
def renderAll (ds : List Diagnostic) (sources : Sources) (color : Bool) : String :=
  "\n".intercalate (ds.map (·.render sources color))

end Diagnostic

end Monofloat
