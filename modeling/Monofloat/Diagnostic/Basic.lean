import Monofloat.Source.Span

/-!
# Diagnostics

Every stage reports problems as a list of `Diagnostic`s: a severity, an optional code, a message, labels
that point into the source, and remarks that follow them.
-/

namespace Monofloat

inductive Severity where
  | note
  | warning
  | error
deriving DecidableEq, Repr

namespace Severity

def name : Severity → String
  | note => "note"
  | warning => "warning"
  | error => "error"

/-- Notes are the least severe and errors the most. -/
def rank : Severity → Nat
  | note => 0
  | warning => 1
  | error => 2

/-- The more severe of the two. -/
def worse (a b : Severity) : Severity := if a.rank < b.rank then b else a

end Severity

/-- A code is a letter for the stage and a number within it. -/
structure Code where
  category : Char
  number : Nat
deriving DecidableEq, Repr

namespace Code

def unexpectedCharacter : Code := ⟨'L', 1⟩
def invalidNumber : Code := ⟨'L', 2⟩
def unexpectedToken : Code := ⟨'P', 1⟩
def expectedExpression : Code := ⟨'P', 2⟩
def expectedIdentifier : Code := ⟨'P', 3⟩
def expectedDeclaration : Code := ⟨'P', 4⟩
def undefinedVariable : Code := ⟨'G', 1⟩
def undefinedLocal : Code := ⟨'G', 2⟩
def undefinedFunction : Code := ⟨'G', 3⟩
def argumentCount : Code := ⟨'G', 4⟩
def missingCondition : Code := ⟨'G', 5⟩
def missingBranchValue : Code := ⟨'G', 6⟩
def undefinedOperator : Code := ⟨'G', 7⟩
def redefinedFunction : Code := ⟨'G', 8⟩
def redefinedGlobal : Code := ⟨'G', 9⟩
def backend : Code := ⟨'G', 10⟩
def malformedFunction : Code := ⟨'V', 1⟩

/-- `E`, the category, and the number in at least three digits. -/
def text (c : Code) : String :=
  let digits := toString c.number
  "E" ++ c.category.toString ++ String.ofList (List.replicate (3 - digits.length) '0') ++ digits

end Code

/-- A span to underline, with what is said about it. -/
structure Label where
  span : Span
  message : String
  primary : Bool := true
deriving DecidableEq, Repr

/-- Something to report about a source text. -/
structure Diagnostic where
  severity : Severity
  code : Option Code := none
  message : String
  labels : List Label := []
  notes : List String := []
  help : List String := []
deriving DecidableEq, Repr

namespace Diagnostic

/-- An error with a code and one primary label. -/
def errorAt (code : Code) (message : String) (span : Span) (label : String) : Diagnostic where
  severity := .error
  code := some code
  message := message
  labels := [⟨span, label, true⟩]

def isError (d : Diagnostic) : Bool := d.severity == .error

/-- The severity with the code in brackets, and the message, on one line. -/
def headline (d : Diagnostic) : String :=
  let code := match d.code with
    | some c => "[" ++ c.text ++ "]"
    | none => ""
  d.severity.name ++ code ++ ": " ++ d.message

/-- The number of errors in a list. -/
def errorCount (ds : List Diagnostic) : Nat := ds.countP isError

def anyError (ds : List Diagnostic) : Bool := ds.any isError

/-- The greatest severity in a list. -/
def worst? : List Diagnostic → Option Severity
  | [] => none
  | d :: ds => some (ds.foldl (fun s e => s.worse e.severity) d.severity)

end Diagnostic

end Monofloat
