import Monofloat.Diagnostic.Basic
import Monofloat.Token.Basic

/-!
# Reading tokens

A `Cursor` is a place in a token list: what is left of it up to the end of the file, and the span of the
token taken last. A `Reader` takes tokens off a cursor and gives a result, or fails with one diagnostic; a
failure leaves the cursor where it happened, which is where recovery starts.

The readers for repetition (`repeated`, `chained`, `separated`) go on as long as they find their operator or
separator. Each round takes at least that token, so the number of tokens left bounds the rounds.
-/

namespace Monofloat

/-- A place between two tokens. -/
structure Cursor where
  /-- The tokens left before the end of the file. -/
  rest : List Token
  /-- The span of the token taken last. -/
  last : Span := {}
  /-- The span of the end of the file. -/
  stop : Span
deriving DecidableEq, Repr

namespace Cursor

/-- A cursor at the start of a token list. The first end-of-file token ends the list; without one the list
ends after its last token. -/
def ofTokens (tokens : List Token) : Cursor where
  rest := tokens.takeWhile (!·.isEndOfFile)
  stop := match tokens.find? Token.isEndOfFile with
    | some eof => eof.span
    | none =>
      match tokens.getLast? with
      | some t => .point t.span.stop t.span.file
      | none => {}

/-- The kind of the next token. -/
def kind (c : Cursor) : TokenKind :=
  match c.rest with
  | [] => .endOfFile
  | t :: _ => t.kind

/-- The span of the next token. -/
def span (c : Cursor) : Span :=
  match c.rest with
  | [] => c.stop
  | t :: _ => t.span

/-- The cursor after the next token; at the end it stays. -/
def advance (c : Cursor) : Cursor :=
  match c.rest with
  | [] => c
  | t :: rest => { c with rest := rest, last := t.span }

/-- The error that the next token is not what the grammar wants. -/
def unexpected (c : Cursor) (code : Code) (message : String) : Diagnostic :=
  .errorAt code message c.span ("found `" ++ c.kind.spelling ++ "`")

/-- The tokens after the next semicolon. -/
def afterSemicolon : List Token → List Token
  | [] => []
  | t :: rest => if t.kind = .symbol .semicolon then rest else afterSemicolon rest

/-- The cursor after the next semicolon. -/
def recover (c : Cursor) : Cursor := { c with rest := afterSemicolon c.rest }

end Cursor

/-- A step of the parser. -/
abbrev Reader := EStateM Diagnostic Cursor

namespace Reader

/-- The kind of the next token, which stays. -/
def peek : Reader TokenKind := fun c => .ok c.kind c

/-- Takes the next token and gives its span. -/
def take : Reader Span := fun c => .ok c.span c.advance

/-- Fails at the next token. -/
def fail {α : Type} (code : Code) (message : String) : Reader α := fun c =>
  .error (c.unexpected code message) c

/-- The number of tokens left. -/
def tokensLeft : Reader Nat := fun c => .ok c.rest.length c

/-- Takes the next token if it is a `kind`, and says whether it was. -/
def accept (kind : TokenKind) : Reader Bool := fun c =>
  if c.kind = kind then .ok true c.advance else .ok false c

/-- Takes a token that has to be a `kind`. -/
def expect (kind : TokenKind) (message : String) : Reader Span := do
  if (← peek) = kind then take else fail .unexpectedToken message

/-- Takes an identifier. -/
def identifier (message : String) : Reader String := do
  match ← peek with
  | .identifier name => do
    discard take
    return name
  | _ => fail .expectedIdentifier message

/-- `operand` behind any number of `kind` tokens, each of which wraps what follows it. -/
def repeatedFrom {α : Type} (kind : TokenKind) (wrap : α → α) (operand : Reader α) : Nat → Reader α
  | 0 => operand
  | n + 1 => do
    if ← accept kind then
      return wrap (← repeatedFrom kind wrap operand n)
    else operand

@[inherit_doc repeatedFrom]
def repeated {α : Type} (kind : TokenKind) (wrap : α → α) (operand : Reader α) : Reader α := do
  repeatedFrom kind wrap operand (← tokensLeft)

/-- `left` joined with the operands that follow it, the leftmost first. `join` says which tokens are
operators. -/
def chainedFrom {α : Type} (operand : Reader α) (join : TokenKind → Option (α → α → α)) :
    Nat → α → Reader α
  | 0, left => return left
  | n + 1, left => do
    match join (← peek) with
    | none => return left
    | some op => do
      discard take
      let right ← operand
      chainedFrom operand join n (op left right)

/-- Operands joined by left-associative operators. -/
def chained {α : Type} (operand : Reader α) (join : TokenKind → Option (α → α → α)) : Reader α := do
  let left ← operand
  chainedFrom operand join (← tokensLeft) left

/-- Any number of items, each behind a `separator`. -/
def separatedFrom {α : Type} (separator : TokenKind) (item : Reader α) : Nat → Reader (List α)
  | 0 => return []
  | n + 1 => do
    if ← accept separator then
      let first ← item
      let rest ← separatedFrom separator item n
      return first :: rest
    else return []

/-- One item or more, with a `separator` between them. -/
def separated {α : Type} (separator : TokenKind) (item : Reader α) : Reader (List α) := do
  let first ← item
  let rest ← separatedFrom separator item (← tokensLeft)
  return first :: rest

end Reader

end Monofloat
