import Monofloat.Proofs.Parsing
import Monofloat.Proofs.Trees

/-!
# Trees of the grammar

What the grammar derives as an expression has no declaration and no sequence inside, every operator in it has
the operands it needs, and the header of a loop is no increment. So the body of a parsed definition is flat.
-/

namespace Monofloat

mutual

/-- The tree is one of the grammar's expressions. -/
def Tree.isExpression : Tree → Bool
  | .number _ | .var _ | .increment _ => true
  | .unary op t => op = .sub && t.isExpression
  | .binary _ t u => t.isExpression && u.isExpression
  | .unaryLogical op t => op = .not && t.isExpression
  | .logical op t u => op ≠ .not && (t.isExpression && u.isExpression)
  | .call _ args => areExpressions args
  | .conditional t u v => t.isExpression && u.isExpression && v.isExpression
  | .block bindings body => bindingsExpressions bindings && body.isExpression
  | .statements first rest => first.isExpression && areExpressions rest
  | .assign _ t => t.isExpression
  | .forLoop (.declare _ init) cond step body =>
    init.isExpression && cond.isExpression && step.isExpression && body.isExpression
  | .forLoop (.assign _ init) cond step body =>
    init.isExpression && cond.isExpression && step.isExpression && body.isExpression
  | _ => false

def areExpressions : List Tree → Bool
  | [] => true
  | t :: ts => t.isExpression && areExpressions ts

def bindingsExpressions : List (String × Tree) → Bool
  | [] => true
  | (_, init) :: rest => init.isExpression && bindingsExpressions rest

end

theorem areExpressions_iff {ts : List Tree} : areExpressions ts = true ↔ ∀ t ∈ ts, t.isExpression = true := by
  induction ts with
  | nil => simp [areExpressions]
  | cons t ts ih => rw [areExpressions, Bool.and_eq_true_iff, ih, List.forall_mem_cons]

theorem bindingsExpressions_iff {bindings : List (String × Tree)} :
    bindingsExpressions bindings = true ↔ ∀ b ∈ bindings, b.2.isExpression = true := by
  induction bindings with
  | nil => simp [bindingsExpressions]
  | cons b bs ih => rw [bindingsExpressions, Bool.and_eq_true_iff, ih, List.forall_mem_cons]

/-! ## Expressions are flat -/

mutual

theorem isFlat_of_isExpression : (t : Tree) → t.isExpression = true → t.isFlat = true
  | .number _, _ | .var _, _ | .increment _, _ => rfl
  | .unary _ t, h => isFlat_of_isExpression t (Bool.and_eq_true_iff.1 h).2
  | .binary _ t u, h => by
    obtain ⟨ht, hu⟩ := Bool.and_eq_true_iff.1 h
    exact Bool.and_eq_true_iff.2 ⟨isFlat_of_isExpression t ht, isFlat_of_isExpression u hu⟩
  | .unaryLogical _ t, h => isFlat_of_isExpression t (Bool.and_eq_true_iff.1 h).2
  | .logical _ t u, h => by
    obtain ⟨ht, hu⟩ := Bool.and_eq_true_iff.1 (Bool.and_eq_true_iff.1 h).2
    exact Bool.and_eq_true_iff.2 ⟨isFlat_of_isExpression t ht, isFlat_of_isExpression u hu⟩
  | .call _ args, h => areFlat_of_areExpressions args h
  | .conditional t u v, h => by
    simp only [Tree.isExpression, Bool.and_eq_true] at h
    simp only [Tree.isFlat, isFlat_of_isExpression t h.1.1, isFlat_of_isExpression u h.1.2,
      isFlat_of_isExpression v h.2, Bool.and_self]
  | .block bindings body, h => by
    obtain ⟨hbindings, hbody⟩ := Bool.and_eq_true_iff.1 h
    exact Bool.and_eq_true_iff.2 ⟨bindingsFlat_of_expressions bindings hbindings, isFlat_of_isExpression body hbody⟩
  | .statements first rest, h => by
    obtain ⟨hfirst, hrest⟩ := Bool.and_eq_true_iff.1 h
    exact Bool.and_eq_true_iff.2 ⟨isFlat_of_isExpression first hfirst, areFlat_of_areExpressions rest hrest⟩
  | .assign _ t, h => isFlat_of_isExpression t h
  | .forLoop (.declare _ init) cond step body, h | .forLoop (.assign _ init) cond step body, h => by
    simp only [Tree.isExpression, Bool.and_eq_true] at h
    simp only [Tree.isFlat, isFlat_of_isExpression init h.1.1.1, isFlat_of_isExpression cond h.1.1.2,
      isFlat_of_isExpression step h.1.2, isFlat_of_isExpression body h.2, Bool.and_self]

theorem areFlat_of_areExpressions : (ts : List Tree) → areExpressions ts = true → areFlat ts = true
  | [], _ => rfl
  | t :: ts, h => by
    obtain ⟨ht, hts⟩ := Bool.and_eq_true_iff.1 h
    exact Bool.and_eq_true_iff.2 ⟨isFlat_of_isExpression t ht, areFlat_of_areExpressions ts hts⟩

theorem bindingsFlat_of_expressions : (bindings : List (String × Tree)) → bindingsExpressions bindings = true →
    bindingsFlat bindings = true
  | [], _ => rfl
  | (_, init) :: rest, h => by
    obtain ⟨hinit, hrest⟩ := Bool.and_eq_true_iff.1 h
    exact Bool.and_eq_true_iff.2 ⟨isFlat_of_isExpression init hinit, bindingsFlat_of_expressions rest hrest⟩

end

/-! ## What is derived is an expression -/

theorem Grammar.Joins.isExpression {L : Grammar.Level} {kind : TokenKind} {join : Tree → Tree → Tree}
    (h : Grammar.Joins L kind join) {l r : Tree} (hl : l.isExpression = true) (hr : r.isExpression = true) :
    (join l r).isExpression = true := by
  cases h <;> simp [Tree.isExpression, hl, hr]

theorem Grammar.Wraps.isExpression {L : Grammar.Level} {kind : TokenKind} {wrap : Tree → Tree}
    (h : Grammar.Wraps L kind wrap) {t : Tree} (ht : t.isExpression = true) : (wrap t).isExpression = true := by
  cases h <;> simp [Tree.isExpression, ht]

open Grammar in
theorem Grammar.Derives.isExpression {L : Level} {ts : List Token} {t : Tree} (h : Derives L ts t) :
    t.isExpression = true := by
  induction h with
  | descend _ _ ih => exact ih
  | joined _ hjoin _ _ ihl ihr => exact hjoin.isExpression ihl ihr
  | wrapped hwrap _ ih => exact hwrap.isExpression ih
  | assign _ _ ih => exact ih
  | increment | number | var | callEmpty => rfl
  | call _ _ _ _ _ _ ih ihs =>
    refine Bool.and_eq_true_iff.2 ⟨ih, areExpressions_iff.2 fun t ht => ?_⟩
    obtain ⟨p, hp, rfl⟩ := List.mem_map.1 ht
    exact ihs p hp
  | parens _ _ _ ih => exact ih
  | braces _ _ _ _ _ _ ih ihs =>
    refine Bool.and_eq_true_iff.2 ⟨ih, areExpressions_iff.2 fun t ht => ?_⟩
    obtain ⟨p, hp, rfl⟩ := List.mem_map.1 ht
    exact ihs p hp
  | conditional _ _ _ _ _ _ ihc iht ihe => simp [Tree.isExpression, ihc, iht, ihe]
  | block _ _ _ _ _ _ _ ihb ihs iht =>
    refine Bool.and_eq_true_iff.2 ⟨Bool.and_eq_true_iff.2 ⟨ihb, bindingsExpressions_iff.2 fun b hb => ?_⟩, iht⟩
    obtain ⟨p, hp, rfl⟩ := List.mem_map.1 hb
    exact ihs p hp
  | forVar _ _ _ _ _ _ _ _ _ _ ihb ihc ihs iht | forSet _ _ _ _ _ _ _ _ _ ihb ihc ihs iht =>
    simp [Tree.isExpression, ihb, ihc, ihs, iht]

open Grammar in
/-- The body of a parsed definition is an expression. -/
theorem isExpression_of_mem_items {tokens : List Token} {proto : Prototype} {body : Tree} {span : Span}
    (h : .function proto body span ∈ (parse tokens).items) : body.isExpression = true := by
  obtain ⟨ts, hitem⟩ := item_of_mem_parseFrom h
  cases hitem with
  | definition _ _ _ hbody => exact hbody.isExpression

end Monofloat
