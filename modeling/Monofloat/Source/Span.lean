/-!
# Positions and spans

A position counts lines and columns from one and bytes from zero. A span is the half-open region between
two positions of one file. `slice?` cuts the text between two byte offsets out of a source; it fails unless
both lie on character boundaries, in order. `Position.seek` moves a position forward to a byte offset.
-/

namespace Monofloat

/-- A point of a source file. Columns count characters, offsets count bytes of the UTF-8 encoding. -/
structure Position where
  line : Nat := 0
  column : Nat := 0
  offset : Nat := 0
deriving DecidableEq, Repr, Inhabited

namespace Position

/-- The position of the first character of a file. -/
def first : Position := ⟨1, 1, 0⟩

/-- The line and the column after the character `c`, with the offset left as it is. -/
def count (p : Position) (c : Char) : Position :=
  if c = '\n' then { p with line := p.line + 1, column := 1 } else { p with column := p.column + 1 }

end Position

/-- The region from `start` up to, and not including, `stop` in file number `file`. -/
structure Span where
  start : Position := {}
  stop : Position := {}
  file : Nat := 0
deriving DecidableEq, Repr, Inhabited

namespace Span

/-- The empty span at a position. -/
def point (p : Position) (file : Nat) : Span := ⟨p, p, file⟩

/-- The smallest span that covers both `a` and `b`, going by byte offsets. -/
def cover (a b : Span) : Span where
  start := if b.start.offset < a.start.offset then b.start else a.start
  stop := if a.stop.offset < b.stop.offset then b.stop else a.stop
  file := a.file

/-- The number of bytes covered; zero for a span whose ends are out of order. -/
def length (s : Span) : Nat := s.stop.offset - s.start.offset

def isEmpty (s : Span) : Bool := s.length == 0

end Span

/-- The size of a text in bytes. -/
def byteSize (cs : List Char) : Nat := (String.ofList cs).utf8ByteSize

/-- `cs` without its first `n` bytes, if a character ends there. -/
def dropBytes? : List Char → Nat → Option (List Char)
  | [], n => if n = 0 then some [] else none
  | c :: cs, n =>
    if n = 0 then some (c :: cs)
    else if c.utf8Size ≤ n then dropBytes? cs (n - c.utf8Size)
    else none

/-- The first `n` bytes of `cs`, if a character ends there. -/
def takeBytes? : List Char → Nat → Option (List Char)
  | [], n => if n = 0 then some [] else none
  | c :: cs, n =>
    if n = 0 then some []
    else if c.utf8Size ≤ n then (takeBytes? cs (n - c.utf8Size)).map (c :: ·)
    else none

/-- The text between two byte offsets of `cs`, if they are in order and a character ends at each. -/
def slice? (cs : List Char) (start stop : Nat) : Option (List Char) :=
  if start ≤ stop then do
    let rest ← dropBytes? cs start
    takeBytes? rest (stop - start)
  else none

/-- Moves the position forward to a byte offset of `cs`, over the characters in between. -/
def Position.seek (cs : List Char) (p : Position) (offset : Nat) : Position :=
  let skipped := (slice? cs p.offset offset).getD []
  { skipped.foldl count p with offset := max offset p.offset }

/-- The text of `source` that the span covers. -/
def Span.text? (s : Span) (source : String) : Option String :=
  (slice? source.toList s.start.offset s.stop.offset).map String.ofList

end Monofloat
