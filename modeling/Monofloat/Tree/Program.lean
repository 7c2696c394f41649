import Monofloat.Tree.Expression

/-!
# Programs

A program is a list of declarations separated by semicolons; empty declarations are allowed. After an error
the parser goes on behind the next semicolon, so one bad declaration does not hide the others.
-/

namespace Monofloat

namespace Reader

/-- An expression of any nesting. -/
def wholeExpression : Reader Tree := do expressionTo ((← tokensLeft) + 1)

/-- `name(a, b, ...)`. -/
def prototype : Reader Prototype := do
  let start := (← get).span
  let name ← identifier "expected function name"
  discard (expect (.symbol .leftParen) "expected `(` after function name")
  let params ←
    if (← peek) = .symbol .rightParen then pure []
    else separated (.symbol .comma) (identifier "expected parameter name")
  let stop ← expect (.symbol .rightParen) "expected `)` after parameters"
  return { name := name, params := params, span := start.cover stop }

/-- `def prototype [:] e`. -/
def definition : Reader Tree := do
  let start ← take
  let proto ← prototype
  discard (accept (.symbol .colon))
  let body ← wholeExpression
  return .function proto body (start.cover (← get).last)

/-- `global name`. -/
def globalVariable : Reader Tree := do
  let start ← take
  let name ← identifier "expected global variable name"
  return .global name (start.cover (← get).last)

/-- A declaration. -/
def item : Reader Tree := do
  match ← peek with
  | .keyword .defKw => definition
  | .keyword .externKw => do
    discard take
    return .prototype (← prototype)
  | .keyword .globalKw => globalVariable
  | _ => fail .expectedDeclaration "expected `def`, `extern` or `global`"

end Reader

/-- The declarations of a program in order, and what was wrong with the others. -/
structure Parsed where
  items : List Tree
  diagnostics : List Diagnostic

namespace Parsed

def empty : Parsed := ⟨[], []⟩

def cons (item : Tree) (p : Parsed) : Parsed := { p with items := item :: p.items }

def report (d : Diagnostic) (p : Parsed) : Parsed := { p with diagnostics := d :: p.diagnostics }

/-- The program as one tree. -/
def program (p : Parsed) : Tree := .sequence p.items

end Parsed

/-- The declarations from a cursor on. Every round takes a token, so the number of tokens left is bound
enough. -/
def parseFrom : Nat → Cursor → Parsed
  | 0, _ => .empty
  | n + 1, c =>
    if c.kind = .endOfFile then .empty
    else if c.kind = .symbol .semicolon then parseFrom n c.advance
    else
      match Reader.item c with
      | .error d c => (parseFrom n c.recover).report d
      | .ok item c =>
        if c.kind = .endOfFile then Parsed.empty.cons item
        else
          match Reader.expect (.symbol .semicolon) "expected `;` after declaration" c with
          | .ok _ c => (parseFrom n c).cons item
          | .error d c => ((parseFrom n c.recover).report d).cons item

/-- Parses a token list up to its first end-of-file token. -/
def parse (tokens : List Token) : Parsed :=
  let c := Cursor.ofTokens tokens
  parseFrom c.rest.length c

end Monofloat
