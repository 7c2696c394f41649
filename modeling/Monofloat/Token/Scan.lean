import Monofloat.Decimal.Reading
import Monofloat.Diagnostic.Basic
import Monofloat.Token.Basic

/-!
# Scanning

A source text is cut into pieces by longest match, from left to right: blanks, tokens, and pieces that are
part of no token. `matchesFrom` lists the pieces that are not blank, with the byte offsets of their ends, and
`locate` moves a cursor over the source to find their lines and columns. `scan` lists the tokens and the
rejected pieces in order with their spans, and ends with one end-of-file token; `tokenize` separates the tokens
from the diagnostics.
-/

namespace Monofloat

def isBlank (c : Char) : Bool := c == ' ' || c == '\t' || c == '\r' || c == '\n' || c == '\x0c'

def isNumeralChar (c : Char) : Bool := c.isDigit || c == '.'

def isNameStart (c : Char) : Bool := c.isAlpha || c == '_'

def isNameChar (c : Char) : Bool := c.isAlphanum || c == '_'

/-- Why a piece of the source is part of no token. -/
inductive Rejection where
  | unexpectedCharacter (c : Char)
  | invalidNumber (text : String)
deriving DecidableEq, Repr

/-- A piece of the source text. -/
inductive Piece where
  | blank
  | token (kind : TokenKind)
  | rejected (reason : Rejection)
deriving DecidableEq, Repr

/-- A run of digits and points: a number if it can be read as one. -/
def numeralPiece (text : List Char) : Piece :=
  match readNumeral? text with
  | some x => .token (.number x)
  | none => .rejected (.invalidNumber (String.ofList text))

/-- A run of name characters: a keyword if it spells one, otherwise an identifier. -/
def namePiece (text : List Char) : Piece :=
  let name := String.ofList text
  match Keyword.ofSpelling? name with
  | some k => .token (.keyword k)
  | none => .token (.identifier name)

/-- The symbols of one character. -/
def symbolPiece (c : Char) : Piece :=
  match Symbol.ofSpelling? c.toString with
  | some s => .token (.symbol s)
  | none => .rejected (.unexpectedCharacter c)

/-- The longest piece at the start of `c :: rest`, and how many characters of `rest` belong to it. A comment
runs up to the end of its line. -/
def pieceAt (c : Char) (rest : List Char) : Piece × Nat :=
  if isBlank c then (.blank, 0)
  else if c = '#' then (.blank, (rest.takeWhile (· ≠ '\n')).length)
  else if isNumeralChar c then
    let run := rest.takeWhile isNumeralChar
    (numeralPiece (c :: run), run.length)
  else if isNameStart c then
    let run := rest.takeWhile isNameChar
    (namePiece (c :: run), run.length)
  else if c = '+' ∧ rest.head? = some '+' then (.token (.symbol .plusPlus), 1)
  else if c = '=' ∧ rest.head? = some '=' then (.token (.symbol .equalEqual), 1)
  else (symbolPiece c, 0)

/-- A piece of the source that is not blank, with the byte offsets of its ends. -/
structure Match where
  piece : Piece
  start : Nat
  stop : Nat
deriving DecidableEq, Repr

/-- The pieces of `cs` that are not blank, where `cs` starts at the byte offset `start`. The first `skip` characters
belong to the piece before. -/
def matchesFrom (start : Nat) : (skip : Nat) → List Char → List Match
  | _, [] => []
  | skip + 1, c :: cs => matchesFrom (start + c.utf8Size) skip cs
  | 0, c :: cs =>
    let (piece, more) := pieceAt c cs
    let rest := matchesFrom (start + c.utf8Size) more cs
    match piece with
    | .blank => rest
    | _ => ⟨piece, start, start + byteSize (c :: cs.take more)⟩ :: rest

/-- What the scanner reports: a token, or a rejected piece with its span. -/
inductive Lexeme where
  | token (t : Token)
  | rejected (reason : Rejection) (span : Span)
deriving DecidableEq, Repr

namespace Lexeme

/-- The lexeme of a piece; blanks have none. -/
def ofPiece? (span : Span) : Piece → Option Lexeme
  | .blank => none
  | .token kind => some (.token ⟨kind, span⟩)
  | .rejected reason => some (.rejected reason span)

def span : Lexeme → Span
  | token t => t.span
  | rejected _ span => span

end Lexeme

/-- The lexemes of pieces of the source, the cursor being at or before the first of them. Behind them is the end of the
file. -/
def locate (source : List Char) (file : Nat) (cursor : Position) : List Match → List Lexeme
  | [] => [.token ⟨.endOfFile, .point (cursor.seek source (byteSize source)) file⟩]
  | m :: rest =>
    let start := cursor.seek source m.start
    let stop := start.seek source m.stop
    (Lexeme.ofPiece? ⟨start, stop, file⟩ m.piece).toList ++ locate source file stop rest

/-- The lexemes of a source text; the last one is the end-of-file token. -/
def scan (source : String) (file : Nat) : List Lexeme :=
  locate source.toList file .first (matchesFrom 0 0 source.toList)

namespace Rejection

def diagnostic (span : Span) : Rejection → Diagnostic
  | unexpectedCharacter c =>
    .errorAt .unexpectedCharacter ("unexpected character `" ++ c.toString ++ "`") span
      "not part of any token"
  | invalidNumber text =>
    .errorAt .invalidNumber ("invalid numeric literal `" ++ text ++ "`") span
      "expected digits with at most one decimal point"

end Rejection

namespace Lexeme

def token? : Lexeme → Option Token
  | token t => some t
  | rejected .. => none

def diagnostic? : Lexeme → Option Diagnostic
  | token _ => none
  | rejected reason span => some (reason.diagnostic span)

end Lexeme

/-- The tokens of a source text, and a diagnostic for each rejected piece. -/
def tokenize (source : String) (file : Nat) : List Token × List Diagnostic :=
  let lexemes := scan source file
  (lexemes.filterMap Lexeme.token?, lexemes.filterMap Lexeme.diagnostic?)

end Monofloat
