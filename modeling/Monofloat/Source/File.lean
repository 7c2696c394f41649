import Monofloat.Source.Span

/-!
# Source files

A named text and its lines. Lines are numbered from one; a newline ends a line and starts the next, so a
text with `n` newlines has `n + 1` lines. A line is cut out of the text between the byte offsets at which it
and the next one start.
-/

namespace Monofloat

/-- The byte offsets of the newlines in a text that starts at the offset `start`. -/
def newlineOffsets (start : Nat) : List Char → List Nat
  | [] => []
  | c :: cs =>
    let rest := newlineOffsets (start + c.utf8Size) cs
    if c = '\n' then start :: rest else rest

/-- A text with the name it is reported under. -/
structure SourceFile where
  name : String
  text : String
deriving DecidableEq, Repr, Inhabited

namespace SourceFile

/-- The byte offset at which each line starts. -/
def lineStarts (f : SourceFile) : List Nat := 0 :: (newlineOffsets 0 f.text.toList).map (· + 1)

/-- The byte offset at which the line with an index ends: before the newline, or at the end of the text. -/
def lineStop (f : SourceFile) (index : Nat) : Nat :=
  match f.lineStarts[index + 1]? with
  | some next => next - 1
  | none => f.text.utf8ByteSize

/-- The text of a line, without its newline. -/
def line? (f : SourceFile) (number : Nat) : Option String :=
  match number with
  | 0 => none
  | index + 1 => do
    let start ← f.lineStarts[index]?
    let line ← slice? f.text.toList start (f.lineStop index)
    return String.ofList line

end SourceFile

/-- The files of a compilation; a span's file number is an index into this list. -/
abbrev Sources := List SourceFile

end Monofloat
