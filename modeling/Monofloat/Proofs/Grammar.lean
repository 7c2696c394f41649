import Monofloat.Tree.Basic
import Monofloat.Token.Basic

/-!
# The grammar

The grammar as relations between a list of tokens and what it derives. `Derives L ts t` says that the level
`L` of precedence derives the tokens `ts`, and that `t` is the tree of the derivation; the tokens are the
whole yield, each in its place. The grammar is ambiguous: `1 + if a then b else c + 2` has one tree where the
last sum is the whole and one where it is the `else` arm.

Three rules are laxer than a program of items that each end in a semicolon: semicolons may be repeated and may
stand before the first item, the last item needs none, and one may stand before a closing brace.
-/

namespace Monofloat.Grammar

/-- The levels of precedence, the loosest first. -/
inductive Level where
  | assignment
  | disjunction
  | conjunction
  | inversion
  | comparison
  | sum
  | product
  | negation
  | primary
deriving DecidableEq, Repr

/-- The next tighter level. -/
def Level.next : Level → Option Level
  | assignment => some disjunction
  | disjunction => some conjunction
  | conjunction => some inversion
  | inversion => some comparison
  | comparison => some sum
  | sum => some product
  | product => some negation
  | negation => some primary
  | primary => none

/-- The operators between two operands: the level they belong to and the tree they make. -/
inductive Joins : Level → TokenKind → (Tree → Tree → Tree) → Prop where
  | or : Joins .disjunction (.keyword .orKw) (.logical .or)
  | and : Joins .conjunction (.keyword .andKw) (.logical .and)
  | less : Joins .comparison (.symbol .less) (.binary .less)
  | equal : Joins .comparison (.symbol .equalEqual) (.binary .equal)
  | add : Joins .sum (.symbol .plus) (.binary .add)
  | sub : Joins .sum (.symbol .minus) (.binary .sub)
  | mul : Joins .product (.symbol .star) (.binary .mul)
  | div : Joins .product (.symbol .slash) (.binary .div)

/-- The operators before one operand. -/
inductive Wraps : Level → TokenKind → (Tree → Tree) → Prop where
  | not : Wraps .inversion (.keyword .notKw) (.unaryLogical .not)
  | neg : Wraps .negation (.symbol .minus) (.unary .sub)

/-- A token of a kind, or nothing. -/
def Optional (kind : TokenKind) (ts : List Token) : Prop := ts = [] ∨ ∃ t : Token, t.kind = kind ∧ ts = [t]

/-- An expression behind a separator. -/
structure Part where
  separator : Token
  tokens : List Token
  tree : Tree

/-- The tokens of parts in order. -/
def yield (parts : List Part) : List Token := parts.flatMap fun p => p.separator :: p.tokens

/-- A name, a sign of equality and an expression. -/
structure Binding where
  target : Token
  sign : Token
  tokens : List Token
  name : String
  init : Tree

namespace Binding

/-- The name and the sign are what they have to be. -/
def Marked (b : Binding) : Prop := b.target.kind = .identifier b.name ∧ b.sign.kind = .symbol .equal

def yield (b : Binding) : List Token := b.target :: b.sign :: b.tokens

def pair (b : Binding) : String × Tree := (b.name, b.init)

end Binding

/-- The tokens of bindings in order, each behind a comma. -/
def bindingsYield (rest : List (Token × Binding)) : List Token := rest.flatMap fun p => p.1 :: p.2.yield

/-- The expressions of a level. -/
inductive Derives : Level → List Token → Tree → Prop where
  | descend {L L' ts t} : L.next = some L' → Derives L' ts t → Derives L ts t
  | joined {L L' join ts op us l r} : L.next = some L' → Joins L op.kind join → Derives L ts l →
      Derives L' us r → Derives L (ts ++ op :: us) (join l r)
  | wrapped {L wrap op ts t} : Wraps L op.kind wrap → Derives L ts t → Derives L (op :: ts) (wrap t)
  | assign {b : Binding} : b.Marked → Derives .assignment b.tokens b.init →
      Derives .assignment b.yield (.assign b.name b.init)
  | increment {op x name} : op.kind = .symbol .plusPlus → x.kind = .identifier name →
      Derives .assignment [op, x] (.increment name)
  | number {x value} : x.kind = .number value → Derives .primary [x] (.number value)
  | var {x name} : x.kind = .identifier name → Derives .primary [x] (.var name)
  | callEmpty {x left right name} : x.kind = .identifier name → left.kind = .symbol .leftParen →
      right.kind = .symbol .rightParen → Derives .primary [x, left, right] (.call name [])
  | call {x left ts right name t} {rest : List Part} : x.kind = .identifier name →
      left.kind = .symbol .leftParen → Derives .assignment ts t →
      (∀ p ∈ rest, p.separator.kind = .symbol .comma) → (∀ p ∈ rest, Derives .assignment p.tokens p.tree) →
      right.kind = .symbol .rightParen →
      Derives .primary (x :: left :: ts ++ yield rest ++ [right]) (.call name (t :: rest.map Part.tree))
  | parens {left ts right t} : left.kind = .symbol .leftParen → Derives .assignment ts t →
      right.kind = .symbol .rightParen → Derives .primary (left :: ts ++ [right]) t
  | braces {left ts tail right t} {rest : List Part} : left.kind = .symbol .leftBrace →
      Derives .assignment ts t → (∀ p ∈ rest, p.separator.kind = .symbol .semicolon) →
      (∀ p ∈ rest, Derives .assignment p.tokens p.tree) → Optional (.symbol .semicolon) tail →
      right.kind = .symbol .rightBrace →
      Derives .primary (left :: ts ++ yield rest ++ tail ++ [right]) (.statements t (rest.map Part.tree))
  | conditional {if_ cs then_ ts else_ es c t e} : if_.kind = .keyword .ifKw → Derives .assignment cs c →
      then_.kind = .keyword .thenKw → Derives .assignment ts t → else_.kind = .keyword .elseKw →
      Derives .assignment es e →
      Derives .primary (if_ :: cs ++ then_ :: ts ++ else_ :: es) (.conditional c t e)
  | block {var_ in_ ts t} {b : Binding} {rest : List (Token × Binding)} : var_.kind = .keyword .varKw →
      b.Marked → Derives .assignment b.tokens b.init →
      (∀ p ∈ rest, p.1.kind = .symbol .comma ∧ p.2.Marked) →
      (∀ p ∈ rest, Derives .assignment p.2.tokens p.2.init) → in_.kind = .keyword .inKw →
      Derives .assignment ts t →
      Derives .primary (var_ :: b.yield ++ bindingsYield rest ++ in_ :: ts)
        (.block (b.pair :: rest.map (·.2.pair)) t)
  | forVar {for_ var_ comma₁ cs comma₂ ss in_ ts c s t} {b : Binding} : for_.kind = .keyword .forKw →
      var_.kind = .keyword .varKw → b.Marked → Derives .assignment b.tokens b.init →
      comma₁.kind = .symbol .comma → Derives .assignment cs c → comma₂.kind = .symbol .comma →
      Derives .assignment ss s → in_.kind = .keyword .inKw → Derives .assignment ts t →
      Derives .primary (for_ :: var_ :: b.yield ++ comma₁ :: cs ++ comma₂ :: ss ++ in_ :: ts)
        (.forLoop (.declare b.name b.init) c s t)
  | forSet {for_ comma₁ cs comma₂ ss in_ ts c s t} {b : Binding} : for_.kind = .keyword .forKw →
      b.Marked → Derives .assignment b.tokens b.init → comma₁.kind = .symbol .comma →
      Derives .assignment cs c → comma₂.kind = .symbol .comma → Derives .assignment ss s →
      in_.kind = .keyword .inKw → Derives .assignment ts t →
      Derives .primary (for_ :: b.yield ++ comma₁ :: cs ++ comma₂ :: ss ++ in_ :: ts)
        (.forLoop (.assign b.name b.init) c s t)

/-- Names with commas between them, or nothing. -/
inductive Names : List Token → List String → Prop where
  | none : Names [] []
  | one {x name} : x.kind = .identifier name → Names [x] [name]
  | more {x comma y ts name names} : x.kind = .identifier name → comma.kind = .symbol .comma →
      Names (y :: ts) names → Names (x :: comma :: y :: ts) (name :: names)

/-- The span from the first token of a list to its last. -/
def cover : List Token → Span
  | [] => {}
  | t :: ts => t.span.cover ((t :: ts).getLast (List.cons_ne_nil t ts)).span

/-- A function's name with its parameters. -/
inductive Signature : List Token → Prototype → Prop where
  | mk {x open_ ps close name params} : x.kind = .identifier name → open_.kind = .symbol .leftParen →
      Names ps params → close.kind = .symbol .rightParen →
      Signature (x :: open_ :: ps ++ [close]) ⟨name, params, cover (x :: open_ :: ps ++ [close])⟩

/-- The declarations. -/
inductive Item : List Token → Tree → Prop where
  | definition {kw ps colon ts proto body} : kw.kind = .keyword .defKw → Signature ps proto →
      Optional (.symbol .colon) colon → Derives .assignment ts body →
      Item (kw :: ps ++ colon ++ ts) (.function proto body (cover (kw :: ps ++ colon ++ ts)))
  | prototype {kw ps proto} : kw.kind = .keyword .externKw → Signature ps proto →
      Item (kw :: ps) (.prototype proto)
  | global {kw x name} : kw.kind = .keyword .globalKw → x.kind = .identifier name →
      Item [kw, x] (.global name (cover [kw, x]))

/-- The declarations of a program with semicolons between them. -/
inductive Items : List Token → List Tree → Prop where
  | none : Items [] []
  | skip {semicolon ts items} : semicolon.kind = .symbol .semicolon → Items ts items →
      Items (semicolon :: ts) items
  | last {ts item} : Item ts item → Items ts [item]
  | item {ts semicolon us item items} : Item ts item → semicolon.kind = .symbol .semicolon → Items us items →
      Items (ts ++ semicolon :: us) (item :: items)

/-- The declarations up to the end of the file, whose token may be left out. -/
def Program (tokens : List Token) (items : List Tree) : Prop :=
  ∃ ts stop, tokens = ts ++ stop ∧ Optional .endOfFile stop ∧ Items ts items

end Monofloat.Grammar
