import Monofloat.Decimal.Notation
import Monofloat.Source.Span

/-!
# Tokens

Keywords, symbols, numbers and identifiers, each with the span it was read from. Every token kind has a
spelling; keywords and symbols are determined by theirs.
-/

namespace Monofloat

inductive Keyword where
  | defKw
  | externKw
  | globalKw
  | ifKw
  | thenKw
  | elseKw
  | forKw
  | varKw
  | inKw
  | andKw
  | orKw
  | notKw
deriving DecidableEq, Repr

namespace Keyword

def all : List Keyword :=
  [defKw, externKw, globalKw, ifKw, thenKw, elseKw, forKw, varKw, inKw, andKw, orKw, notKw]

def spelling : Keyword → String
  | defKw => "def"
  | externKw => "extern"
  | globalKw => "global"
  | ifKw => "if"
  | thenKw => "then"
  | elseKw => "else"
  | forKw => "for"
  | varKw => "var"
  | inKw => "in"
  | andKw => "and"
  | orKw => "or"
  | notKw => "not"

/-- The keyword with a given spelling. -/
def ofSpelling? (text : String) : Option Keyword := all.find? (·.spelling = text)

end Keyword

/-- Operators and punctuation. -/
inductive Symbol where
  | plus
  | plusPlus
  | minus
  | star
  | slash
  | less
  | equalEqual
  | equal
  | leftParen
  | rightParen
  | leftBrace
  | rightBrace
  | comma
  | semicolon
  | colon
deriving DecidableEq, Repr

namespace Symbol

def all : List Symbol :=
  [plus, plusPlus, minus, star, slash, less, equalEqual, equal, leftParen, rightParen, leftBrace,
    rightBrace, comma, semicolon, colon]

def spelling : Symbol → String
  | plus => "+"
  | plusPlus => "++"
  | minus => "-"
  | star => "*"
  | slash => "/"
  | less => "<"
  | equalEqual => "=="
  | equal => "="
  | leftParen => "("
  | rightParen => ")"
  | leftBrace => "\x7b"
  | rightBrace => "\x7d"
  | comma => ","
  | semicolon => ";"
  | colon => ":"

/-- The symbol with a given spelling. -/
def ofSpelling? (text : String) : Option Symbol := all.find? (·.spelling = text)

end Symbol

inductive TokenKind where
  | keyword (k : Keyword)
  | number (value : Float)
  | identifier (name : String)
  | symbol (s : Symbol)
  | endOfFile
deriving DecidableEq, Repr

namespace TokenKind

/-- How the token is written in a source text; the end of the file is described. -/
def spelling : TokenKind → String
  | keyword k => k.spelling
  | number x => Notation.plain.write x
  | identifier name => name
  | symbol s => s.spelling
  | endOfFile => "end of file"

def isKeyword : TokenKind → Bool
  | keyword _ => true
  | _ => false

end TokenKind

/-- A lexeme and its place. -/
structure Token where
  kind : TokenKind
  span : Span
deriving DecidableEq, Repr

namespace Token

def isEndOfFile (t : Token) : Bool := t.kind == .endOfFile

/-- The token's spelling and where it starts. -/
def text (t : Token) : String :=
  t.kind.spelling ++ " at " ++ toString t.span.start.line ++ ":" ++ toString t.span.start.column

end Token

end Monofloat
