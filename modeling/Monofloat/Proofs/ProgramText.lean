import Mathlib
import Monofloat.Tree.Text
import Monofloat.Proofs.Excerpts
import Monofloat.Proofs.Items
import Monofloat.Proofs.SExpressions

/-!
# The texts of programs

The text of a declaration or an expression that the parser gives is the text of an s-expression (`Tree.sexpr`), from
which it can be read back: operators with one and with two operands differ in the number of items behind the head, and
where names stand, nothing else can. So the s-expression determines the tree up to spans (`item?_sexpr`). The names of
a source are words and stay apart from numbers, so that the text determines the s-expressions, if its numbers are
finite. A number that is not finite would be written as the name `inf`.
-/

namespace Monofloat

/-! ## Trees as s-expressions -/

mutual

/-- The s-expression that is the text of a declaration or an expression of the grammar. -/
@[simp] def Tree.sexpr : Tree → SExpr
  | .number value => .number value
  | .var name => .word name
  | .unary op t => .list [.word op.symbol, t.sexpr]
  | .binary op t u => .list [.word op.symbol, t.sexpr, u.sexpr]
  | .unaryLogical op t => .list [.word op.symbol, t.sexpr]
  | .logical op t u => .list [.word op.symbol, t.sexpr, u.sexpr]
  | .call callee args => .list (.word "call" :: .word callee :: sexprs args)
  | .conditional t u v => .list [.word "if", t.sexpr, u.sexpr, v.sexpr]
  | .block bindings body => .list [.word "var", .list (bindingSExprs bindings), body.sexpr]
  | .statements first rest => .list (.word "seq" :: first.sexpr :: sexprs rest)
  | .assign name value => .list [.word "=", .word name, value.sexpr]
  | .increment name => .list [.word "++", .word name]
  | .forLoop (.declare name init) cond step body =>
    .list [.word "for", .word "var", .list [.word name, init.sexpr], cond.sexpr, step.sexpr, body.sexpr]
  | .forLoop (.assign name init) cond step body =>
    .list [.word "for", .list [.word "=", .word name, init.sexpr], cond.sexpr, step.sexpr, body.sexpr]
  | .function proto body _ =>
    .list [.word "def", .word proto.name, .list (proto.params.map .word), body.sexpr]
  | .prototype proto => .list [.word "extern", .word proto.name, .list (proto.params.map .word)]
  | .global name _ => .list [.word "global", .word name]
  | _ => .list []

def sexprs : List Tree → List SExpr
  | [] => []
  | t :: ts => t.sexpr :: sexprs ts

def bindingSExprs : List (String × Tree) → List SExpr
  | [] => []
  | (name, init) :: rest => .list [.word name, init.sexpr] :: bindingSExprs rest

end

/-- The text of what a loop starts with. -/
def LoopHeader.text : LoopHeader Tree → String
  | .declare name init => "var " ++ bindingText name init.text
  | .assign name init => assignText name init.text
  | .increment name => incrementText name

theorem Tree.text_forLoop (header : LoopHeader Tree) (cond step body : Tree) :
    (Tree.forLoop header cond step body).text = loopText header.text cond.text step.text body.text := by
  cases header <;> rfl

mutual

/-- The text of an expression of the grammar is the text of its s-expression. -/
theorem toList_text : (t : Tree) → t.isExpression = true → t.text.toList = t.sexpr.text
  -- The texts are given by `change`: to rewrite with `Tree.text`, Lean would unfold how a number is written.
  | .number value, _ => by
    change (Notation.plain.write value).toList = _
    rw [Tree.sexpr, SExpr.text]
  | .var name, _ => by
    change name.toList = _
    rw [Tree.sexpr, SExpr.text]
  | .increment name, _ => by
    change (incrementText name).toList = _
    simp [List.intercalate_cons_cons, incrementText]
  | .unary op t, h => by
    have ht := toList_text t (Bool.and_eq_true_iff.1 h).2
    change ("(" ++ op.symbol ++ " " ++ t.text ++ ")").toList = _
    simp [List.intercalate_cons_cons, ht]
  | .binary op t u, h => by
    obtain ⟨ht, hu⟩ := Bool.and_eq_true_iff.1 h
    change ("(" ++ op.symbol ++ " " ++ t.text ++ " " ++ u.text ++ ")").toList = _
    simp [List.intercalate_cons_cons, toList_text t ht, toList_text u hu]
  | .unaryLogical op t, h => by
    have ht := toList_text t (Bool.and_eq_true_iff.1 h).2
    change ("(" ++ op.symbol ++ " " ++ t.text ++ ")").toList = _
    simp [List.intercalate_cons_cons, ht]
  | .logical op t u, h => by
    obtain ⟨ht, hu⟩ := Bool.and_eq_true_iff.1 (Bool.and_eq_true_iff.1 h).2
    change ("(" ++ op.symbol ++ " " ++ t.text ++ " " ++ u.text ++ ")").toList = _
    simp [List.intercalate_cons_cons, toList_text t ht, toList_text u hu]
  | .call callee args, h => by
    have hargs := map_toList_texts args h
    change ("(" ++ " ".intercalate ("call" :: callee :: Tree.texts args) ++ ")").toList = _
    simp [hargs]
  | .conditional t u v, h => by
    simp only [Tree.isExpression, Bool.and_eq_true] at h
    change ("(if " ++ t.text ++ " " ++ u.text ++ " " ++ v.text ++ ")").toList = _
    simp [List.intercalate_cons_cons, toList_text t h.1.1, toList_text u h.1.2, toList_text v h.2]
  | .block bindings body, h => by
    obtain ⟨hbindings, hbody⟩ := Bool.and_eq_true_iff.1 h
    have hmap := map_toList_bindingTexts bindings hbindings
    change ("(var (" ++ " ".intercalate (Tree.bindingTexts bindings) ++ ") " ++ body.text ++ ")").toList = _
    simp [List.intercalate_cons_cons, hmap, toList_text body hbody]
  | .statements first rest, h => by
    obtain ⟨hfirst, hrest⟩ := Bool.and_eq_true_iff.1 h
    have hmap := map_toList_texts rest hrest
    change ("(" ++ " ".intercalate ("seq" :: first.text :: Tree.texts rest) ++ ")").toList = _
    simp [hmap, toList_text first hfirst]
  | .assign name t, h => by
    have ht := toList_text t h
    change (assignText name t.text).toList = _
    simp [List.intercalate_cons_cons, assignText, ht]
  | .forLoop (.declare name init) cond step body, h | .forLoop (.assign name init) cond step body, h => by
    simp only [Tree.isExpression, Bool.and_eq_true] at h
    rw [Tree.text_forLoop]
    simp [List.intercalate_cons_cons, loopText, LoopHeader.text, bindingText, assignText, toList_text init h.1.1.1,
      toList_text cond h.1.1.2, toList_text step h.1.2, toList_text body h.2]

theorem map_toList_texts : (ts : List Tree) → areExpressions ts = true →
    (Tree.texts ts).map String.toList = SExpr.texts (sexprs ts)
  | [], _ => rfl
  | t :: ts, h => by
    obtain ⟨ht, hts⟩ := Bool.and_eq_true_iff.1 h
    change t.text.toList :: (Tree.texts ts).map String.toList = _
    rw [toList_text t ht, map_toList_texts ts hts, sexprs, SExpr.texts]

theorem map_toList_bindingTexts : (bindings : List (String × Tree)) → bindingsExpressions bindings = true →
    (Tree.bindingTexts bindings).map String.toList = SExpr.texts (bindingSExprs bindings)
  | [], _ => rfl
  | (name, init) :: rest, h => by
    obtain ⟨hinit, hrest⟩ := Bool.and_eq_true_iff.1 h
    have ht := toList_text init hinit
    change (bindingText name init.text).toList :: (Tree.bindingTexts rest).map String.toList = _
    rw [map_toList_bindingTexts rest hrest, bindingSExprs, SExpr.texts]
    simp [bindingText, List.intercalate_cons_cons, ht]

end

theorem sexprs_eq_map (ts : List Tree) : sexprs ts = ts.map Tree.sexpr := by
  induction ts with
  | nil => rfl
  | cons t ts ih => rw [sexprs, List.map_cons, ih]

theorem bindingSExprs_eq_map (bindings : List (String × Tree)) :
    bindingSExprs bindings = bindings.map fun b => .list [.word b.1, b.2.sexpr] := by
  induction bindings with
  | nil => rfl
  | cons b bindings ih => rw [bindingSExprs, List.map_cons, ih]

theorem texts_words (names : List String) : SExpr.texts (names.map .word) = names.map String.toList := by
  induction names with
  | nil => rfl
  | cons name names ih => rw [List.map_cons, SExpr.texts, ih, SExpr.text, List.map_cons]

theorem toList_text_of_isItem {t : Tree} (h : t.isItem = true) : t.text.toList = t.sexpr.text := by
  cases t with
  | function proto body span =>
    change ("(def " ++ proto.name ++ " (" ++ " ".intercalate proto.params ++ ") " ++ body.text ++ ")").toList = _
    simp [List.intercalate_cons_cons, texts_words, toList_text body h]
  | prototype proto =>
    change ("(extern " ++ proto.name ++ " (" ++ " ".intercalate proto.params ++ "))").toList = _
    simp [List.intercalate_cons_cons, texts_words]
  | global name span =>
    change ("(global " ++ name ++ ")").toList = _
    simp [List.intercalate_cons_cons]
  | _ => cases h

/-- The text of a program has the texts of its declarations on lines of their own. -/
theorem toList_text_sequence {items : List Tree} (h : ∀ t ∈ items, t.isItem = true) :
    (Tree.sequence items).text.toList = ['\n'].intercalate (SExpr.texts (items.map Tree.sexpr)) := by
  have hmap : (Tree.texts items).map String.toList = SExpr.texts (items.map Tree.sexpr) := by
    induction items with
    | nil => rfl
    | cons t items ih =>
      obtain ⟨ht, hitems⟩ := List.forall_mem_cons.1 h
      change t.text.toList :: (Tree.texts items).map String.toList = _
      rw [toList_text_of_isItem ht, ih hitems, List.map_cons, SExpr.texts]
  change ("\n".intercalate (Tree.texts items)).toList = _
  rw [String.toList_intercalate, hmap]
  rfl

/-! ## Reading s-expressions back -/

namespace SExpr

/-- The tree of two operands that the word stands for. -/
def join? : String → Option (Tree → Tree → Tree)
  | "+" => some (.binary .add)
  | "-" => some (.binary .sub)
  | "*" => some (.binary .mul)
  | "/" => some (.binary .div)
  | "<" => some (.binary .less)
  | "==" => some (.binary .equal)
  | "and" => some (.logical .and)
  | "or" => some (.logical .or)
  | _ => none

mutual

/-- The expression whose text the s-expression is. -/
def tree? : SExpr → Option Tree
  | word name => some (.var name)
  | number value => some (.number value)
  | list items => listTree? items

def listTree? : List SExpr → Option Tree
  | [word "++", word name] => some (.increment name)
  | [word "-", t] => do return .unary .sub (← t.tree?)
  | [word "not", t] => do return .unaryLogical .not (← t.tree?)
  | [word "=", word name, value] => do return .assign name (← value.tree?)
  | [word "if", t, u, v] => do return .conditional (← t.tree?) (← u.tree?) (← v.tree?)
  | [word "var", list bindings, body] => do return .block (← bindings? bindings) (← body.tree?)
  | [word "for", word "var", list [word name, init], cond, step, body] => do
    return .forLoop (.declare name (← init.tree?)) (← cond.tree?) (← step.tree?) (← body.tree?)
  | [word "for", list [word "=", word name, init], cond, step, body] => do
    return .forLoop (.assign name (← init.tree?)) (← cond.tree?) (← step.tree?) (← body.tree?)
  | word "call" :: word callee :: args => do return .call callee (← trees? args)
  | word "seq" :: first :: rest => do return .statements (← first.tree?) (← trees? rest)
  | [word head, t, u] => do return (← join? head) (← t.tree?) (← u.tree?)
  | _ => none

def trees? : List SExpr → Option (List Tree)
  | [] => some []
  | s :: ss => do return (← s.tree?) :: (← trees? ss)

def bindings? : List SExpr → Option (List (String × Tree))
  | [] => some []
  | list [word name, init] :: rest => do return (name, ← init.tree?) :: (← bindings? rest)
  | _ => none

end

def names? : List SExpr → Option (List String)
  | [] => some []
  | word name :: rest => do return name :: (← names? rest)
  | _ => none

/-- The declaration, without its spans, whose text the s-expression is. -/
def item? : SExpr → Option Tree
  | list [word "def", word name, list params, body] => do return .function ⟨name, ← names? params, {}⟩ (← body.tree?) {}
  | list [word "extern", word name, list params] => do return .prototype ⟨name, ← names? params, {}⟩
  | list [word "global", word name] => some (.global name {})
  | _ => none

theorem names?_words (names : List String) : names? (names.map word) = some names := by
  induction names with
  | nil => rfl
  | cons name names ih =>
    change (do return name :: (← names? (names.map word)) : Option (List String)) = _
    rw [ih]
    rfl

end SExpr

open SExpr (trees? bindings? names?)

mutual

/-- Reading back an expression gives the expression. -/
theorem tree?_sexpr : (t : Tree) → t.isExpression = true → t.sexpr.tree? = some t
  | .number _, _ | .var _, _ | .increment _, _ => rfl
  | .unary op t, h => by
    obtain ⟨hop, ht⟩ := Bool.and_eq_true_iff.1 h
    obtain rfl := of_decide_eq_true hop
    change (do return Tree.unary .sub (← t.sexpr.tree?) : Option Tree) = _
    rw [tree?_sexpr t ht]
    rfl
  | .unaryLogical op t, h => by
    obtain ⟨hop, ht⟩ := Bool.and_eq_true_iff.1 h
    obtain rfl := of_decide_eq_true hop
    change (do return Tree.unaryLogical .not (← t.sexpr.tree?) : Option Tree) = _
    rw [tree?_sexpr t ht]
    rfl
  | .binary op t u, h => by
    obtain ⟨ht, hu⟩ := Bool.and_eq_true_iff.1 h
    have hread : (Tree.binary op t u).sexpr.tree? = (do return .binary op (← t.sexpr.tree?) (← u.sexpr.tree?)) := by
      cases op <;> rfl
    rw [hread, tree?_sexpr t ht, tree?_sexpr u hu]
    rfl
  | .logical op t u, h => by
    obtain ⟨hop, harms⟩ := Bool.and_eq_true_iff.1 h
    obtain ⟨ht, hu⟩ := Bool.and_eq_true_iff.1 harms
    have hread : (Tree.logical op t u).sexpr.tree? = (do return .logical op (← t.sexpr.tree?) (← u.sexpr.tree?)) := by
      cases op with
      | and | or => rfl
      | not => cases hop
    rw [hread, tree?_sexpr t ht, tree?_sexpr u hu]
    rfl
  | .call callee args, h => by
    change (do return Tree.call callee (← trees? (sexprs args)) : Option Tree) = _
    rw [trees?_sexprs args h]
    rfl
  | .conditional t u v, h => by
    simp only [Tree.isExpression, Bool.and_eq_true] at h
    change (do return Tree.conditional (← t.sexpr.tree?) (← u.sexpr.tree?) (← v.sexpr.tree?) : Option Tree) = _
    rw [tree?_sexpr t h.1.1, tree?_sexpr u h.1.2, tree?_sexpr v h.2]
    rfl
  | .block bindings body, h => by
    obtain ⟨hbindings, hbody⟩ := Bool.and_eq_true_iff.1 h
    change (do return Tree.block (← bindings? (bindingSExprs bindings)) (← body.sexpr.tree?) : Option Tree) = _
    rw [bindings?_bindingSExprs bindings hbindings, tree?_sexpr body hbody]
    rfl
  | .statements first rest, h => by
    obtain ⟨hfirst, hrest⟩ := Bool.and_eq_true_iff.1 h
    change (do return Tree.statements (← first.sexpr.tree?) (← trees? (sexprs rest)) : Option Tree) = _
    rw [tree?_sexpr first hfirst, trees?_sexprs rest hrest]
    rfl
  | .assign name t, h => by
    change (do return Tree.assign name (← t.sexpr.tree?) : Option Tree) = _
    rw [tree?_sexpr t h]
    rfl
  | .forLoop (.declare name init) cond step body, h => by
    simp only [Tree.isExpression, Bool.and_eq_true] at h
    change (do
      return Tree.forLoop (.declare name (← init.sexpr.tree?)) (← cond.sexpr.tree?) (← step.sexpr.tree?)
        (← body.sexpr.tree?) : Option Tree) = _
    rw [tree?_sexpr init h.1.1.1, tree?_sexpr cond h.1.1.2, tree?_sexpr step h.1.2, tree?_sexpr body h.2]
    rfl
  | .forLoop (.assign name init) cond step body, h => by
    simp only [Tree.isExpression, Bool.and_eq_true] at h
    change (do
      return Tree.forLoop (.assign name (← init.sexpr.tree?)) (← cond.sexpr.tree?) (← step.sexpr.tree?)
        (← body.sexpr.tree?) : Option Tree) = _
    rw [tree?_sexpr init h.1.1.1, tree?_sexpr cond h.1.1.2, tree?_sexpr step h.1.2, tree?_sexpr body h.2]
    rfl

theorem trees?_sexprs : (ts : List Tree) → areExpressions ts = true → trees? (sexprs ts) = some ts
  | [], _ => rfl
  | t :: ts, h => by
    obtain ⟨ht, hts⟩ := Bool.and_eq_true_iff.1 h
    change (do return (← t.sexpr.tree?) :: (← trees? (sexprs ts)) : Option (List Tree)) = _
    rw [tree?_sexpr t ht, trees?_sexprs ts hts]
    rfl

theorem bindings?_bindingSExprs : (bindings : List (String × Tree)) → bindingsExpressions bindings = true →
    bindings? (bindingSExprs bindings) = some bindings
  | [], _ => rfl
  | (name, init) :: rest, h => by
    obtain ⟨hinit, hrest⟩ := Bool.and_eq_true_iff.1 h
    change (do
      return (name, ← init.sexpr.tree?) :: (← bindings? (bindingSExprs rest)) : Option (List (String × Tree))) = _
    rw [tree?_sexpr init hinit, bindings?_bindingSExprs rest hrest]
    rfl

end

/-- Reading back a declaration gives the declaration without its spans. -/
theorem item?_sexpr {t : Tree} (h : t.isItem = true) : t.sexpr.item? = some t.unlocated := by
  cases t with
  | function proto body span =>
    change (do
      return Tree.function ⟨proto.name, ← names? (proto.params.map .word), {}⟩ (← body.sexpr.tree?) {} :
      Option Tree) = _
    rw [SExpr.names?_words, tree?_sexpr body h]
    rfl
  | prototype proto =>
    change (do return Tree.prototype ⟨proto.name, ← names? (proto.params.map .word), {}⟩ : Option Tree) = _
    rw [SExpr.names?_words]
    rfl
  | global name span => rfl
  | _ => cases h

/-! ## Number literals -/

mutual

/-- The number literals of a tree in order. -/
def Tree.literals : Tree → List Float
  | .sequence items => literalsOf items
  | .number value => [value]
  | .var _ | .increment _ | .global .. | .prototype _ => []
  | .unary _ t | .unaryLogical _ t | .binding _ t | .assign _ t | .function _ t _ => t.literals
  | .binary _ t u | .logical _ t u => t.literals ++ u.literals
  | .call _ args => literalsOf args
  | .conditional t u v => t.literals ++ u.literals ++ v.literals
  | .block bindings body => bindingLiterals bindings ++ body.literals
  | .statements first rest => first.literals ++ literalsOf rest
  | .openStatements first rest last => first.literals ++ literalsOf rest ++ last.literals
  | .forLoop (.declare _ init) cond step body | .forLoop (.assign _ init) cond step body =>
    init.literals ++ cond.literals ++ step.literals ++ body.literals
  | .forLoop (.increment _) cond step body => cond.literals ++ step.literals ++ body.literals

def literalsOf : List Tree → List Float
  | [] => []
  | t :: ts => t.literals ++ literalsOf ts

def bindingLiterals : List (String × Tree) → List Float
  | [] => []
  | (_, init) :: rest => init.literals ++ bindingLiterals rest

end

theorem literalsOf_eq_flatMap (ts : List Tree) : literalsOf ts = ts.flatMap Tree.literals := by
  induction ts with
  | nil => rfl
  | cons t ts ih => rw [literalsOf, ih, List.flatMap_cons]

theorem bindingLiterals_eq_flatMap (bindings : List (String × Tree)) :
    bindingLiterals bindings = bindings.flatMap (·.2.literals) := by
  induction bindings with
  | nil => rfl
  | cons b bindings ih => rw [bindingLiterals, ih, List.flatMap_cons]

/-! ## Parsed declarations have proper s-expressions -/

open SExpr (IsWord isDelimiter)

theorem isWord_cons {cs : List Char} {c : Char} {rest : List Char} (h : cs = c :: rest)
    (hplain : cs.all (!isDelimiter ·) = true) (hdigit : c.isDigit = false) (hminus : c = '-' → rest = []) :
    IsWord cs where
  plain d hd := by simpa using List.all_eq_true.1 hplain d hd
  head := ⟨c, rest, h, hdigit, hminus⟩

theorem isWord_operator (op : Operator) : IsWord op.symbol.toList := by
  cases op <;> exact isWord_cons rfl rfl rfl (by decide)

theorem isWord_connective (op : Connective) : IsWord op.symbol.toList := by
  cases op <;> exact isWord_cons rfl rfl rfl (by decide)

theorem isWord_head {head : String}
    (h : head ∈ ["=", "++", "call", "if", "var", "seq", "for", "def", "extern", "global"]) : IsWord head.toList := by
  simp only [List.mem_cons, List.not_mem_nil, or_false] at h
  rcases h with rfl | rfl | rfl | rfl | rfl | rfl | rfl | rfl | rfl | rfl <;> exact isWord_cons rfl rfl rfl (by decide)

theorem isWord_of_matches {cs : List Char} (h : Pattern.name.Matches cs) : IsWord cs := by
  obtain ⟨c, rest, rfl, hstart, hrest⟩ := h
  have hplain : ∀ d ∈ c :: rest, isDelimiter d = false := fun d hd => by
    obtain rfl | hd := List.mem_cons.1 hd
    · exact SExpr.isDelimiter_eq_false rfl hstart
    · exact SExpr.isDelimiter_eq_false rfl (hrest d hd)
  refine ⟨hplain, c, rest, rfl, Bool.eq_false_iff.2 fun hdigit => ?_, ?_⟩
  · rw [isNameStart_of_isNumeralChar (isNumeralChar_iff.2 (.inl hdigit))] at hstart
    cases hstart
  · rintro rfl
    cases hstart

/-- An identifier has a word for its name. -/
def Token.IsNamed (t : Token) : Prop := ∀ name, t.kind = .identifier name → IsWord name.toList

theorem Laid.isNamed {file : Nat} {p : Position} {cs : List Char} {ls : List Lexeme} (h : Laid file p cs ls) :
    ∀ t ∈ ls.filterMap Lexeme.token?, t.IsNamed := by
  intro t ht name hkind
  obtain ⟨text, hspelled⟩ := h.exists_spelled ht
  rw [hkind] at hspelled
  cases hspelled with
  | identifier hname => exact isWord_of_matches hname

theorem SExpr.Proper.headed {head : String} {ss : List SExpr} (hhead : IsWord head.toList) (h : ∀ s ∈ ss, s.Proper) :
    (SExpr.list (.word head :: ss)).Proper :=
  .list (List.forall_mem_cons.2 ⟨.word hhead, h⟩)

open Grammar

section

variable {L : Level} {kind : TokenKind} {t u : Tree}

theorem Grammar.Joins.proper {join : Tree → Tree → Tree} (h : Joins L kind join) (ht : t.sexpr.Proper)
    (hu : u.sexpr.Proper) : (join t u).sexpr.Proper := by
  have hoperands : ∀ s ∈ [t.sexpr, u.sexpr], s.Proper := by simp [ht, hu]
  cases h with
  | or | and => exact .headed (isWord_connective _) hoperands
  | less | equal | add | sub | mul | div => exact .headed (isWord_operator _) hoperands

theorem Grammar.Wraps.proper {wrap : Tree → Tree} (h : Wraps L kind wrap) (ht : t.sexpr.Proper) :
    (wrap t).sexpr.Proper := by
  have hoperand : ∀ s ∈ [t.sexpr], s.Proper := by simp [ht]
  cases h with
  | not => exact .headed (isWord_connective _) hoperand
  | neg => exact .headed (isWord_operator _) hoperand

theorem Grammar.Joins.literals {join : Tree → Tree → Tree} (h : Joins L kind join) :
    (join t u).literals = t.literals ++ u.literals := by
  cases h <;> rfl

theorem Grammar.Wraps.literals {wrap : Tree → Tree} (h : Wraps L kind wrap) : (wrap t).literals = t.literals := by
  cases h <;> rfl

end

/-- The expressions of parts are proper if each is. -/
theorem proper_parts {rest : List Part} (hts : ∀ x ∈ yield rest, x.IsNamed)
    (hfinite : ∀ x ∈ literalsOf (rest.map Part.tree), x.isFinite = true)
    (ih : ∀ p ∈ rest, (∀ x ∈ p.tokens, x.IsNamed) → (∀ x ∈ p.tree.literals, x.isFinite = true) →
      p.tree.sexpr.Proper) : ∀ s ∈ sexprs (rest.map Part.tree), s.Proper := by
  rw [sexprs_eq_map, List.map_map]
  rw [literalsOf_eq_flatMap] at hfinite
  intro s hs
  obtain ⟨p, hp, rfl⟩ := List.mem_map.1 hs
  refine ih p hp (fun x hx => hts x ?_) (fun x hx => hfinite x ?_)
  · exact List.mem_flatMap.2 ⟨p, hp, List.mem_cons_of_mem _ hx⟩
  · exact List.mem_flatMap.2 ⟨p.tree, List.mem_map_of_mem hp, hx⟩

theorem Grammar.Binding.Marked.proper {b : Binding} (h : b.Marked) (hts : ∀ x ∈ b.yield, x.IsNamed)
    (hfinite : ∀ x ∈ b.init.literals, x.isFinite = true)
    (ih : (∀ x ∈ b.tokens, x.IsNamed) → (∀ x ∈ b.init.literals, x.isFinite = true) → b.init.sexpr.Proper) :
    IsWord b.name.toList ∧ b.init.sexpr.Proper := by
  simp only [Binding.yield, List.forall_mem_cons] at hts
  exact ⟨hts.1 _ h.1, ih hts.2.2 hfinite⟩

theorem proper_bindings {rest : List (Token × Binding)} (hmarked : ∀ p ∈ rest, p.1.kind = .symbol .comma ∧ p.2.Marked)
    (hts : ∀ x ∈ bindingsYield rest, x.IsNamed)
    (hfinite : ∀ x ∈ bindingLiterals (rest.map (·.2.pair)), x.isFinite = true)
    (ih : ∀ p ∈ rest, (∀ x ∈ p.2.tokens, x.IsNamed) → (∀ x ∈ p.2.init.literals, x.isFinite = true) →
      p.2.init.sexpr.Proper) : ∀ s ∈ bindingSExprs (rest.map (·.2.pair)), s.Proper := by
  rw [bindingSExprs_eq_map, List.map_map]
  rw [bindingLiterals_eq_flatMap] at hfinite
  intro s hs
  obtain ⟨p, hp, rfl⟩ := List.mem_map.1 hs
  have hyield : ∀ x ∈ p.2.yield, x.IsNamed := fun x hx =>
    hts x (List.mem_flatMap.2 ⟨p, hp, List.mem_cons_of_mem _ hx⟩)
  have hliterals : ∀ x ∈ p.2.init.literals, x.isFinite = true := fun x hx =>
    hfinite x (List.mem_flatMap.2 ⟨p.2.pair, List.mem_map_of_mem hp, hx⟩)
  obtain ⟨hname, hinit⟩ := (hmarked p hp).2.proper hyield hliterals (ih p hp)
  exact .headed hname (List.forall_mem_singleton.2 hinit)

/-- Names of an expression are names of its tokens, so that its s-expression is proper if its literals are finite. -/
theorem Grammar.Derives.proper {L : Level} {ts : List Token} {t : Tree} (h : Derives L ts t)
    (hts : ∀ x ∈ ts, x.IsNamed) (hfinite : ∀ x ∈ t.literals, x.isFinite = true) : t.sexpr.Proper := by
  induction h with
  | descend _ _ ih => exact ih hts hfinite
  | joined _ hjoin _ _ ihl ihr =>
    rw [hjoin.literals] at hfinite
    simp only [List.forall_mem_append, List.forall_mem_cons] at hts hfinite
    exact hjoin.proper (ihl hts.1 hfinite.1) (ihr hts.2.2 hfinite.2)
  | wrapped hwrap _ ih =>
    rw [hwrap.literals] at hfinite
    exact hwrap.proper (ih (List.forall_mem_cons.1 hts).2 hfinite)
  | assign hb _ ih =>
    obtain ⟨hname, hinit⟩ := hb.proper hts hfinite ih
    exact .headed (isWord_head (by decide)) (by simp [SExpr.Proper.word hname, hinit])
  | @increment op x name _ hx =>
    have hname : IsWord name.toList := hts x (by simp) name hx
    exact .headed (isWord_head (by decide)) (by simp [SExpr.Proper.word hname])
  | number _ => exact .number (hfinite _ (List.mem_singleton.2 rfl))
  | var hx => exact .word (hts _ List.mem_cons_self _ hx)
  | @callEmpty x left right name hx _ _ =>
    have hname : IsWord name.toList := hts x (by simp) name hx
    exact .headed (isWord_head (by decide)) (by simp [sexprs, SExpr.Proper.word hname])
  | @call x left ts right name t rest hx _ _ _ _ _ ih ihs =>
    simp only [Tree.literals, literalsOf, List.cons_append, List.forall_mem_append, List.forall_mem_cons] at hts hfinite
    obtain ⟨hnamed, -, ⟨hts, hrest⟩, -⟩ := hts
    refine .headed (isWord_head (by decide)) ?_
    rw [sexprs, List.forall_mem_cons, List.forall_mem_cons]
    exact ⟨.word (hnamed name hx), ih hts hfinite.1, proper_parts hrest hfinite.2 ihs⟩
  | parens _ _ _ ih =>
    simp only [List.cons_append, List.forall_mem_append, List.forall_mem_cons] at hts
    exact ih hts.2.1 hfinite
  | braces _ _ _ _ _ _ ih ihs =>
    simp only [Tree.literals, List.cons_append, List.forall_mem_append, List.forall_mem_cons] at hts hfinite
    obtain ⟨-, ⟨⟨hts, hrest⟩, -⟩, -⟩ := hts
    refine .headed (isWord_head (by decide)) ?_
    rw [List.forall_mem_cons]
    exact ⟨ih hts hfinite.1, proper_parts hrest hfinite.2 ihs⟩
  | conditional _ _ _ _ _ _ ihc iht ihe =>
    simp only [Tree.literals, List.cons_append, List.forall_mem_append, List.forall_mem_cons] at hts hfinite
    obtain ⟨-, ⟨hcs, -, hts⟩, -, hes⟩ := hts
    obtain ⟨⟨hc, ht⟩, he⟩ := hfinite
    exact .headed (isWord_head (by decide)) (by simp [ihc hcs hc, iht hts ht, ihe hes he])
  | block _ hb _ hmarked _ _ _ ihb ihs iht =>
    simp only [Tree.literals, Binding.pair, bindingLiterals, List.cons_append, List.forall_mem_append,
      List.forall_mem_cons] at hts hfinite
    obtain ⟨-, ⟨hyield, hrest⟩, -, hts⟩ := hts
    obtain ⟨⟨hinit, hinits⟩, ht⟩ := hfinite
    obtain ⟨hname, hproper⟩ := hb.proper hyield hinit ihb
    have hbinding := SExpr.Proper.headed hname (List.forall_mem_singleton.2 hproper)
    have hbindings := proper_bindings hmarked hrest hinits ihs
    refine .headed (isWord_head (by decide)) ?_
    rw [List.forall_mem_cons, List.forall_mem_singleton]
    exact ⟨.list (List.forall_mem_cons.2 ⟨hbinding, hbindings⟩), iht hts ht⟩
  | forVar _ _ hb _ _ _ _ _ _ _ ihb ihc ihs iht =>
    simp only [Tree.literals, List.cons_append, List.forall_mem_append, List.forall_mem_cons] at hts hfinite
    obtain ⟨-, -, ⟨⟨hyield, -, hcs⟩, -, hss⟩, -, hts⟩ := hts
    obtain ⟨⟨⟨hinit, hc⟩, hs⟩, ht⟩ := hfinite
    obtain ⟨hname, hproper⟩ := hb.proper hyield hinit ihb
    have hbinding := SExpr.Proper.headed hname (List.forall_mem_singleton.2 hproper)
    have hvar : (SExpr.word "var").Proper := .word (isWord_head (by decide))
    exact .headed (isWord_head (by decide))
      (by simp [hvar, hbinding, ihc hcs hc, ihs hss hs, iht hts ht])
  | forSet _ hb _ _ _ _ _ _ _ ihb ihc ihs iht =>
    simp only [Tree.literals, List.cons_append, List.forall_mem_append, List.forall_mem_cons] at hts hfinite
    obtain ⟨-, ⟨⟨hyield, -, hcs⟩, -, hss⟩, -, hts⟩ := hts
    obtain ⟨⟨⟨hinit, hc⟩, hs⟩, ht⟩ := hfinite
    obtain ⟨hname, hproper⟩ := hb.proper hyield hinit ihb
    have hassign : (SExpr.list [.word "=", .word _, _]).Proper := .headed (isWord_head (by decide))
      (List.forall_mem_cons.2 ⟨.word hname, List.forall_mem_singleton.2 hproper⟩)
    exact .headed (isWord_head (by decide)) (by simp [hassign, ihc hcs hc, ihs hss hs, iht hts ht])

theorem Grammar.Names.proper {ts : List Token} {names : List String} (h : Names ts names)
    (hts : ∀ x ∈ ts, x.IsNamed) : ∀ s ∈ names.map SExpr.word, s.Proper := by
  induction h with
  | none => simp
  | one hx => simpa using SExpr.Proper.word (hts _ List.mem_cons_self _ hx)
  | more hx _ _ ih =>
    simp only [List.forall_mem_cons] at hts ih
    exact List.forall_mem_cons.2 ⟨.word (hts.1 _ hx), ih hts.2.2⟩

theorem Grammar.Signature.proper {ts : List Token} {proto : Prototype} (h : Signature ts proto)
    (hts : ∀ x ∈ ts, x.IsNamed) :
    IsWord proto.name.toList ∧ (SExpr.list (proto.params.map .word)).Proper := by
  obtain ⟨hx, -, hparams, -⟩ := h
  simp only [List.cons_append, List.forall_mem_append, List.forall_mem_cons] at hts
  exact ⟨hts.1 _ hx, .list (hparams.proper hts.2.2.1)⟩

theorem Grammar.Item.proper {ts : List Token} {t : Tree} (h : Item ts t) (hts : ∀ x ∈ ts, x.IsNamed)
    (hfinite : ∀ x ∈ t.literals, x.isFinite = true) : t.sexpr.Proper := by
  cases h with
  | definition _ hsignature _ hbody =>
    simp only [List.cons_append, List.forall_mem_append, List.forall_mem_cons] at hts
    obtain ⟨-, ⟨hps, -⟩, hts⟩ := hts
    obtain ⟨hname, hparams⟩ := hsignature.proper hps
    exact .headed (isWord_head (by decide))
      (by simp [SExpr.Proper.word hname, hparams, hbody.proper hts hfinite])
  | prototype _ hsignature =>
    obtain ⟨hname, hparams⟩ := hsignature.proper (List.forall_mem_cons.1 hts).2
    exact .headed (isWord_head (by decide)) (by simp [SExpr.Proper.word hname, hparams])
  | @global kw x name _ hx =>
    have hname : IsWord name.toList := hts x (by simp) name hx
    exact .headed (isWord_head (by decide)) (by simp [SExpr.Proper.word hname])

/-- The declarations of a source with finite literals have proper s-expressions. -/
theorem proper_of_parse {source : String} {file : Nat}
    (hfinite : ∀ x ∈ (parse (tokenize source file).1).program.literals, x.isFinite = true) :
    ∀ s ∈ (parse (tokenize source file).1).items.map Tree.sexpr, s.Proper := by
  intro s hs
  obtain ⟨t, ht, rfl⟩ := List.mem_map.1 hs
  obtain ⟨ls, hlaid, hread⟩ := exists_readFrom source file
  obtain ⟨before, ts, rest, htokens, htaken⟩ := hread.exists_taken ht
  have hts : ∀ x ∈ ts, x.IsNamed := fun x hx => hlaid.isNamed x (by simp [htokens, hx])
  refine htaken.item.proper hts fun x hx => hfinite x ?_
  rw [Parsed.program, Tree.literals, literalsOf_eq_flatMap]
  exact List.mem_flatMap.2 ⟨t, ht, hx⟩

/-! ## Texts and programs -/

theorem sexpr_unlocated (t : Tree) : t.unlocated.sexpr = t.sexpr := by
  cases t <;> rfl

theorem map_sexpr_eq_iff {items items' : List Tree} (h : ∀ t ∈ items, t.isItem = true)
    (h' : ∀ t ∈ items', t.isItem = true) :
    items.map Tree.sexpr = items'.map Tree.sexpr ↔ items.map Tree.unlocated = items'.map Tree.unlocated := by
  constructor
  · intro heq
    have hread : ∀ {ts : List Tree}, (∀ t ∈ ts, t.isItem = true) →
        (ts.map Tree.sexpr).map SExpr.item? = (ts.map Tree.unlocated).map some := fun hts => by
      rw [List.map_map, List.map_map]
      exact List.map_congr_left fun t ht => item?_sexpr (hts t ht)
    have hsome := hread h
    rw [heq, hread h'] at hsome
    exact (List.map_injective_iff.2 (Option.some_injective _) hsome).symm
  · intro heq
    have herase : ∀ ts : List Tree, ts.map Tree.sexpr = (ts.map Tree.unlocated).map Tree.sexpr := fun ts => by
      rw [List.map_map]
      exact List.map_congr_left fun t _ => (sexpr_unlocated t).symm
    rw [herase items, heq, ← herase]

/-- The text of a program identifies it. The programs parsed from two sources, if all number literals in them are
finite, have the same text if and only if they have the same declarations up to spans. -/
theorem text_identifies_program {source source' : String} {file file' : Nat} {p q : Parsed}
    (hp : parse (tokenize source file).1 = p) (hq : parse (tokenize source' file').1 = q)
    (hfinite : ∀ x ∈ p.program.literals, x.isFinite = true)
    (hfinite' : ∀ x ∈ q.program.literals, x.isFinite = true) :
    p.program.text = q.program.text ↔ p.items.map Tree.unlocated = q.items.map Tree.unlocated := by
  subst hp hq
  have hitems : ∀ t ∈ (parse (tokenize source file).1).items, t.isItem = true := fun _ => isItem_of_mem_items
  have hitems' : ∀ t ∈ (parse (tokenize source' file').1).items, t.isItem = true := fun _ => isItem_of_mem_items
  rw [← map_sexpr_eq_iff hitems hitems', ← String.toList_inj, Parsed.program, Parsed.program,
    toList_text_sequence hitems, toList_text_sequence hitems']
  refine ⟨fun htext => ?_, fun heq => by rw [heq]⟩
  -- Nothing stands behind the last declaration.
  have hclosed : SExpr.Closes [] := by simp [SExpr.Closes]
  exact (SExpr.joined_append_inj '\n' rfl (by decide) _ _ (proper_of_parse hfinite) (proper_of_parse hfinite') hclosed
    hclosed (by rw [htext])).1

theorem text_identifies_program_layout :
    let p := parse (tokenize "def f(x) {var a = 1.50, b = -a in a - b; f(not x);}; global g" 0).1
    let q := parse (tokenize "; def f(x): # sum\n {(var a = 1.5, b = (-a) in (a - b)); (f(not x))};; global g" 1).1
    (∀ x ∈ p.program.literals, x.isFinite = true) ∧ (∀ x ∈ q.program.literals, x.isFinite = true) ∧
      p.program.text = "(def f (x) (seq (var ((a 1.5) (b (- a))) (- a b)) (call f (not x))))\n(global g)" ∧
      p.program.text = q.program.text ∧ p.items.map Tree.unlocated = q.items.map Tree.unlocated := by
  intro p q
  have hp : ∀ x ∈ p.program.literals, x.isFinite = true := by decide +kernel
  have hq : ∀ x ∈ q.program.literals, x.isFinite = true := by decide +kernel
  have htext : p.program.text = q.program.text := by decide +kernel
  exact ⟨hp, hq, by decide +kernel, htext, (text_identifies_program rfl rfl hp hq).1 htext⟩

end Monofloat
