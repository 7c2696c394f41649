import Monofloat.Proofs.Parsing

/-!
# Rendering expressions

`Tree.render` writes an expression as tokens. Parentheses stand exactly where the level of an operand is looser
than the level its place asks for. `Tree.Shaped` are the expressions that the grammar derives. Parsing undoes
rendering: the tokens of a rendered expression have a greedy derivation with the expression as its tree
(`Tree.Shaped.rendered`), and the readers take what is derived greedily.
-/

namespace Monofloat

open Grammar

/-! ## Shapes -/

/-- The expressions that the grammar derives: a minus and a `not` have one operand, the other operators two, a
`var` binds something, and a loop starts with a binding or an assignment. -/
inductive Tree.Shaped : Tree → Prop where
  | number (x : Float) : Shaped (.number x)
  | var (name : String) : Shaped (.var name)
  | negation {t : Tree} : Shaped t → Shaped (.unary .sub t)
  | binary (op : Operator) {l r : Tree} : Shaped l → Shaped r → Shaped (.binary op l r)
  | inversion {t : Tree} : Shaped t → Shaped (.unaryLogical .not t)
  | logical {op : Connective} {l r : Tree} : op ≠ .not → Shaped l → Shaped r → Shaped (.logical op l r)
  | call (name : String) {args : List Tree} : (∀ t ∈ args, Shaped t) → Shaped (.call name args)
  | conditional {c t e : Tree} : Shaped c → Shaped t → Shaped e → Shaped (.conditional c t e)
  | block {bindings : List (String × Tree)} {body : Tree} : bindings ≠ [] → (∀ b ∈ bindings, Shaped b.2) →
      Shaped body → Shaped (.block bindings body)
  | statements {first : Tree} {rest : List Tree} : Shaped first → (∀ t ∈ rest, Shaped t) →
      Shaped (.statements first rest)
  | assign (name : String) {value : Tree} : Shaped value → Shaped (.assign name value)
  | increment (name : String) : Shaped (.increment name)
  | forVar (name : String) {init cond step body : Tree} : Shaped init → Shaped cond → Shaped step → Shaped body →
      Shaped (.forLoop (.declare name init) cond step body)
  | forSet (name : String) {init cond step body : Tree} : Shaped init → Shaped cond → Shaped step → Shaped body →
      Shaped (.forLoop (.assign name init) cond step body)

theorem Grammar.Joins.shaped {L : Level} {k : TokenKind} {join : Tree → Tree → Tree} (h : Joins L k join)
    {l r : Tree} (hl : l.Shaped) (hr : r.Shaped) : (join l r).Shaped := by
  cases h with
  | or | and => exact .logical (by decide) hl hr
  | less | equal | add | sub | mul | div => exact .binary _ hl hr

/-- What the grammar derives has the shape of an expression. -/
theorem Grammar.Derives.shaped {L : Level} {ts : List Token} {t : Tree} (h : Derives L ts t) : t.Shaped := by
  induction h with
  | descend _ _ ih | parens _ _ _ ih => exact ih
  | joined _ hj _ _ ihl ihr => exact hj.shaped ihl ihr
  | @wrapped L wrap op ts t hw _ ih =>
    generalize op.kind = k at hw
    cases hw with
    | not => exact .inversion ih
    | neg => exact .negation ih
  | assign _ _ ih => exact .assign _ ih
  | increment => exact .increment _
  | number => exact .number _
  | var => exact .var _
  | callEmpty => exact .call _ (by simp)
  | call _ _ _ _ _ _ ih ihs => exact .call _ (List.forall_mem_cons.2 ⟨ih, List.forall_mem_map.2 ihs⟩)
  | braces _ _ _ _ _ _ ih ihs => exact .statements ih (List.forall_mem_map.2 ihs)
  | conditional _ _ _ _ _ _ ihc iht ihe => exact .conditional ihc iht ihe
  | block _ _ _ _ _ _ _ ihb ihs iht =>
    exact .block (by simp) (List.forall_mem_cons.2 ⟨ihb, List.forall_mem_map.2 ihs⟩) iht
  | forVar _ _ _ _ _ _ _ _ _ _ ihb ihc ihs iht => exact .forVar _ ihb ihc ihs iht
  | forSet _ _ _ _ _ _ _ _ _ ihb ihc ihs iht => exact .forSet _ ihb ihc ihs iht

/-- The body of a parsed definition has the shape of an expression. -/
theorem shaped_of_mem_items {tokens : List Token} {proto : Prototype} {body : Tree} {span : Span}
    (h : .function proto body span ∈ (parse tokens).items) : body.Shaped := by
  obtain ⟨ts, hitem⟩ := item_of_mem_parseFrom h
  cases hitem with
  | definition _ _ _ hbody => exact hbody.shaped

/-! ## Rendering -/

namespace Operator

/-- The level of expressions that the operator joins. -/
def level : Operator → Level
  | less | equal => .comparison
  | add | sub => .sum
  | mul | div => .product

def kind : Operator → TokenKind
  | add => .symbol .plus
  | sub => .symbol .minus
  | mul => .symbol .star
  | div => .symbol .slash
  | less => .symbol .less
  | equal => .symbol .equalEqual

end Operator

namespace Connective

def level : Connective → Level
  | or => .disjunction
  | and => .conjunction
  | not => .inversion

def kind : Connective → TokenKind
  | or => .keyword .orKw
  | and => .keyword .andKw
  | not => .keyword .notKw

end Connective

/-- The level of right operands; left operands are of the level itself. -/
def Grammar.Level.operand (L : Level) : Level := L.next.getD .primary

/-- The tokens of an expression of the level `M` in a place that asks for the level `L`. -/
def guarded (L M : Level) (kinds : List TokenKind) : List TokenKind :=
  if M.rank < L.rank then .symbol .leftParen :: kinds ++ [.symbol .rightParen] else kinds

/-- `name = init`. -/
def bindingKinds (name : String) (init : List TokenKind) : List TokenKind :=
  .identifier name :: .symbol .equal :: init

namespace Tree

/-- The tightest level at which a tree stands without parentheses. -/
def level : Tree → Level
  | .assign .. | .increment _ | .conditional .. | .block .. | .forLoop .. => .assignment
  | .logical op _ _ => op.level
  | .unaryLogical .. => .inversion
  | .binary op _ _ => op.level
  | .unary .. => .negation
  | _ => .primary

mutual

/-- The tokens of an expression where every expression may stand. -/
def render : Tree → List TokenKind
  | .number x => [.number x]
  | .var name => [.identifier name]
  | .unary _ t => .symbol .minus :: guarded .negation t.level t.render
  | .binary op l r => guarded op.level l.level l.render ++ op.kind :: guarded op.level.operand r.level r.render
  | .unaryLogical _ t => .keyword .notKw :: guarded .inversion t.level t.render
  | .logical op l r => guarded op.level l.level l.render ++ op.kind :: guarded op.level.operand r.level r.render
  | .call name args =>
    .identifier name :: .symbol .leftParen :: [.symbol .comma].intercalate (renders args) ++ [.symbol .rightParen]
  | .conditional c t e =>
    .keyword .ifKw :: c.render ++ .keyword .thenKw :: t.render ++ .keyword .elseKw :: e.render
  | .block bindings body =>
    .keyword .varKw :: [.symbol .comma].intercalate (bindingRenders bindings) ++ .keyword .inKw :: body.render
  | .statements first rest =>
    .symbol .leftBrace :: [.symbol .semicolon].intercalate (first.render :: renders rest) ++ [.symbol .rightBrace]
  | .assign name value => bindingKinds name value.render
  | .increment name => [.symbol .plusPlus, .identifier name]
  | .forLoop (.declare name init) cond step body =>
    .keyword .forKw :: .keyword .varKw :: bindingKinds name init.render ++ .symbol .comma :: cond.render ++
      .symbol .comma :: step.render ++ .keyword .inKw :: body.render
  | .forLoop (.assign name init) cond step body =>
    .keyword .forKw :: bindingKinds name init.render ++ .symbol .comma :: cond.render ++
      .symbol .comma :: step.render ++ .keyword .inKw :: body.render
  | _ => []

def renders : List Tree → List (List TokenKind)
  | [] => []
  | t :: ts => t.render :: renders ts

def bindingRenders : List (String × Tree) → List (List TokenKind)
  | [] => []
  | (name, init) :: rest => bindingKinds name init.render :: bindingRenders rest

end

end Tree

/-! ## Levels -/

theorem Operator.joins (op : Operator) : Joins op.level op.kind (.binary op) := by cases op <;> constructor

theorem Connective.joins {op : Connective} (h : op ≠ .not) : Joins op.level op.kind (.logical op) := by
  cases op with
  | not => exact absurd rfl h
  | and | or => constructor

theorem Grammar.Joins.next {L : Level} {k : TokenKind} {join : Tree → Tree → Tree} (h : Joins L k join) :
    L.next = some L.operand := by
  cases h <;> rfl

theorem Grammar.Joins.ne_assignment {L : Level} {k : TokenKind} {join : Tree → Tree → Tree} (h : Joins L k join) :
    L ≠ .assignment := by
  cases h <;> decide

/-- What a level derives, every looser level derives. -/
theorem Grammar.Greedy.loosen {L M : Level} {e : Bool} {ts : List Token} {t : Tree} (h : Greedy M e ts t)
    (hr : L.rank ≤ M.rank) (he : L = .assignment → e = true) : Greedy L e ts t := by
  obtain ⟨k, hk⟩ := Nat.exists_eq_add_of_le hr
  induction k generalizing L with
  | zero => exact Level.eq_of_rank_eq (L := M) (M := L) hk ▸ h
  | succ k ih =>
    cases hn : L.next with
    | none =>
      have hprimary : L = .primary := by cases L <;> first | rfl | cases hn
      have hM : M.rank ≤ 8 := by cases M <;> decide
      rw [hprimary, show Level.primary.rank = 8 from rfl] at hk
      omega
    | some L' =>
      have hrank := Level.rank_next hn
      have htight := ih (L := L') (by omega) (fun hL' => absurd hL' (next_ne_assignment hn)) (by omega)
      by_cases hL : L = .assignment
      · subst hL
        cases hn
        rw [he rfl] at htight ⊢
        exact .expression htight
      · exact .descend hL hn htight

theorem Grammar.Greedy.derives {L : Level} {e : Bool} {ts : List Token} {t : Tree} (h : Greedy L e ts t) :
    Derives L ts t := by
  induction h with
  | descend _ hn _ ih => exact .descend hn ih
  | expression _ ih => exact .descend rfl ih
  | joined hn hj _ _ ihl ihr => exact .joined hn hj ihl ihr
  | wrapped hw _ ih => exact .wrapped hw ih
  | assign hb _ ih => exact .assign hb ih
  | increment hop hx => exact .increment hop hx
  | number hx => exact .number hx
  | var hx => exact .var hx
  | callEmpty hx hl hr => exact .callEmpty hx hl hr
  | call hx hl _ hs _ hr ih ihs => exact .call hx hl ih hs ihs hr
  | parens hl _ hr ih => exact .parens hl ih hr
  | braces hl _ hs _ ht hr ih ihs => exact .braces hl ih hs ihs ht hr
  | conditional hif _ hthen _ helse _ ihc iht ihe => exact .conditional hif ihc hthen iht helse ihe
  | block hvar hb _ hs _ hin _ ih ihs iht => exact .block hvar hb ih hs ihs hin iht
  | forVar hfor hvar hb _ h₁ _ h₂ _ hin _ ih ihc ihs iht => exact .forVar hfor hvar hb ih h₁ ihc h₂ ihs hin iht
  | forSet hfor hb _ h₁ _ h₂ _ hin _ ih ihc ihs iht => exact .forSet hfor hb ih h₁ ihc h₂ ihs hin iht

/-! ## Rendered expressions are derived greedily -/

/-- Tokens of these kinds are derived greedily at the level of the tree, which is the tree of the derivation. -/
def Tree.Rendered (t : Tree) : Prop :=
  ∀ ⦃e : Bool⦄ ⦃ts : List Token⦄, (t.level = .assignment → e = true) → ts.map Token.kind = t.render →
    Greedy t.level e ts t

namespace Tree.Rendered

variable {L : Level} {t l r : Tree} {e : Bool} {ts : List Token}

/-- In a place of a level, with parentheses if they are needed. -/
theorem at_ (h : t.Rendered) (L : Level) (he : L = .assignment → e = true)
    (hts : ts.map Token.kind = guarded L t.level t.render) : Greedy L e ts t := by
  unfold guarded at hts
  split at hts
  · next hloose =>
    obtain ⟨left, us, rfl, hleft, hus⟩ := List.map_eq_cons_iff.1 hts
    obtain ⟨vs, ws, rfl, hvs, hws⟩ := List.map_eq_append_iff.1 hus
    obtain ⟨right, rfl, hright⟩ := List.map_eq_singleton_iff.1 hws
    have hinner : Greedy .assignment true vs t := (h (fun _ => rfl) hvs).loosen (Nat.zero_le _) fun _ => rfl
    have hL : L.rank ≤ Level.primary.rank := by cases L <;> decide
    exact (Greedy.parens hleft hinner hright).loosen hL he
  · next htight =>
    refine (h (fun ht => he (Level.eq_of_rank_eq ?_)) hts).loosen (Nat.le_of_not_lt htight) he
    rw [ht] at htight
    exact Nat.eq_zero_of_not_pos htight

/-- Where every expression may stand. -/
theorem whole (h : t.Rendered) (hts : ts.map Token.kind = t.render) : Greedy .assignment true ts t :=
  h.at_ .assignment (fun _ => rfl) (hts.trans (if_neg (Nat.not_lt_zero _)).symm)

/-- Two operands with an operator between them. -/
theorem joined {k : TokenKind} {join : Tree → Tree → Tree} (hj : Joins L k join) (hl : l.Rendered) (hr : r.Rendered)
    (hts : ts.map Token.kind = guarded L l.level l.render ++ k :: guarded L.operand r.level r.render) :
    Greedy L e ts (join l r) := by
  obtain ⟨us, ws, rfl, hus, hws⟩ := List.map_eq_append_iff.1 hts
  obtain ⟨op, vs, rfl, hop, hvs⟩ := List.map_eq_cons_iff.1 hws
  have hleft : Greedy L false us l := hl.at_ L (fun hL => absurd hL hj.ne_assignment) hus
  have hright : Greedy L.operand e vs r := hr.at_ L.operand (fun hL => absurd hL (next_ne_assignment hj.next)) hvs
  exact .joined hj.next (hop ▸ hj) hleft hright

/-- An operand with an operator before it. -/
theorem wrapped {k : TokenKind} {wrap : Tree → Tree} (hw : Wraps L k wrap) (h : t.Rendered)
    (hts : ts.map Token.kind = k :: guarded L t.level t.render) : Greedy L e ts (wrap t) := by
  obtain ⟨op, us, rfl, hop, hus⟩ := List.map_eq_cons_iff.1 hts
  have hL : L ≠ .assignment := by rintro rfl; cases hw
  exact .wrapped (hop ▸ hw) (h.at_ L (fun hL' => absurd hL' hL) hus)

/-- `name = e`. -/
theorem binding {name : String} (h : t.Rendered) (hts : ts.map Token.kind = bindingKinds name t.render) :
    ∃ b : Binding, ts = b.yield ∧ b.pair = (name, t) ∧ b.Marked ∧ Greedy .assignment true b.tokens b.init := by
  obtain ⟨x, us, rfl, hx, hus⟩ := List.map_eq_cons_iff.1 hts
  obtain ⟨sign, vs, rfl, hsign, hvs⟩ := List.map_eq_cons_iff.1 hus
  exact ⟨⟨x, sign, vs, name, t⟩, rfl, rfl, ⟨hx, hsign⟩, h.whole hvs⟩

end Tree.Rendered

theorem intercalate_cons {α : Type} (separator : α) (first : List α) (rest : List (List α)) :
    [separator].intercalate (first :: rest) = first ++ rest.flatMap (separator :: ·) := by
  induction rest generalizing first with
  | nil => simp
  | cons second rest ih => rw [List.intercalate_cons_cons, ih, List.flatMap_cons, List.append_assoc]; rfl

/-- Expressions that each stand behind a separator are parts. -/
theorem exists_parts {separator : TokenKind} {trees : List Tree} (h : ∀ t ∈ trees, t.Rendered) {ts : List Token}
    (hts : ts.map Token.kind = (Tree.renders trees).flatMap (separator :: ·)) :
    ∃ parts : List Part, ts = yield parts ∧ parts.map Part.tree = trees ∧
      (∀ p ∈ parts, p.separator.kind = separator) ∧ ∀ p ∈ parts, Greedy .assignment true p.tokens p.tree := by
  induction trees generalizing ts with
  | nil =>
    obtain rfl := List.map_eq_nil_iff.1 hts
    exact ⟨[], rfl, rfl, by simp, by simp⟩
  | cons t trees ih =>
    obtain ⟨ht, htrees⟩ := List.forall_mem_cons.1 h
    rw [Tree.renders, List.flatMap_cons] at hts
    obtain ⟨us, vs, rfl, hus, hvs⟩ := List.map_eq_append_iff.1 hts
    obtain ⟨sep, ws, rfl, hsep, hws⟩ := List.map_eq_cons_iff.1 hus
    obtain ⟨parts, rfl, rfl, hseps, hgs⟩ := ih htrees hvs
    refine ⟨⟨sep, ws, t⟩ :: parts, rfl, rfl, ?_, ?_⟩
    · exact List.forall_mem_cons.2 ⟨hsep, hseps⟩
    · exact List.forall_mem_cons.2 ⟨ht.whole hws, hgs⟩

/-- Bindings that each stand behind a comma. -/
theorem exists_bindings {bindings : List (String × Tree)} (h : ∀ b ∈ bindings, b.2.Rendered) {ts : List Token}
    (hts : ts.map Token.kind = (Tree.bindingRenders bindings).flatMap (.symbol .comma :: ·)) :
    ∃ parts : List (Token × Binding), ts = bindingsYield parts ∧ parts.map (·.2.pair) = bindings ∧
      (∀ p ∈ parts, p.1.kind = .symbol .comma ∧ p.2.Marked) ∧
      ∀ p ∈ parts, Greedy .assignment true p.2.tokens p.2.init := by
  induction bindings generalizing ts with
  | nil =>
    obtain rfl := List.map_eq_nil_iff.1 hts
    exact ⟨[], rfl, rfl, by simp, by simp⟩
  | cons b bindings ih =>
    obtain ⟨hb, hbindings⟩ := List.forall_mem_cons.1 h
    rw [Tree.bindingRenders, List.flatMap_cons] at hts
    obtain ⟨us, vs, rfl, hus, hvs⟩ := List.map_eq_append_iff.1 hts
    obtain ⟨comma, ws, rfl, hcomma, hws⟩ := List.map_eq_cons_iff.1 hus
    obtain ⟨B, rfl, hpair, hmarked, hg⟩ := hb.binding hws
    obtain ⟨parts, rfl, rfl, hmarks, hgs⟩ := ih hbindings hvs
    refine ⟨(comma, B) :: parts, rfl, ?_, ?_, ?_⟩
    · rw [List.map_cons, hpair]
    · exact List.forall_mem_cons.2 ⟨⟨hcomma, hmarked⟩, hmarks⟩
    · exact List.forall_mem_cons.2 ⟨hg, hgs⟩

/-- Tokens that end in three expressions and the tokens before each of them. -/
theorem exists_three {ks ks₁ ks₂ ks₃ : List TokenKind} {k₁ k₂ k₃ : TokenKind} {ts : List Token}
    (h : ts.map Token.kind = ks ++ k₁ :: ks₁ ++ k₂ :: ks₂ ++ k₃ :: ks₃) :
    ∃ us us₁ us₂ us₃ x₁ x₂ x₃, ts = us ++ x₁ :: us₁ ++ x₂ :: us₂ ++ x₃ :: us₃ ∧ us.map Token.kind = ks ∧
      (x₁ : Token).kind = k₁ ∧ us₁.map Token.kind = ks₁ ∧ (x₂ : Token).kind = k₂ ∧ us₂.map Token.kind = ks₂ ∧
      (x₃ : Token).kind = k₃ ∧ us₃.map Token.kind = ks₃ := by
  obtain ⟨vs₂, ws₃, rfl, hvs₂, hws₃⟩ := List.map_eq_append_iff.1 h
  obtain ⟨vs₁, ws₂, rfl, hvs₁, hws₂⟩ := List.map_eq_append_iff.1 hvs₂
  obtain ⟨us, ws₁, rfl, hus, hws₁⟩ := List.map_eq_append_iff.1 hvs₁
  obtain ⟨x₁, us₁, rfl, hx₁, hus₁⟩ := List.map_eq_cons_iff.1 hws₁
  obtain ⟨x₂, us₂, rfl, hx₂, hus₂⟩ := List.map_eq_cons_iff.1 hws₂
  obtain ⟨x₃, us₃, rfl, hx₃, hus₃⟩ := List.map_eq_cons_iff.1 hws₃
  exact ⟨us, us₁, us₂, us₃, x₁, x₂, x₃, rfl, hus, hx₁, hus₁, hx₂, hus₂, hx₃, hus₃⟩

namespace Tree

theorem rendered_call {name : String} {args : List Tree} (h : ∀ t ∈ args, t.Rendered) : (Tree.call name args).Rendered := by
  intro e tokens _ htokens
  obtain ⟨us, ws, rfl, hus, hws⟩ := List.map_eq_append_iff.1 htokens
  obtain ⟨x, vs, rfl, hx, hvs⟩ := List.map_eq_cons_iff.1 hus
  obtain ⟨left, vs, rfl, hleft, hvs⟩ := List.map_eq_cons_iff.1 hvs
  obtain ⟨right, rfl, hright⟩ := List.map_eq_singleton_iff.1 hws
  cases args with
  | nil =>
    obtain rfl := List.map_eq_nil_iff.1 hvs
    exact .callEmpty hx hleft hright
  | cons t args =>
    obtain ⟨ht, hargs⟩ := List.forall_mem_cons.1 h
    rw [renders, intercalate_cons] at hvs
    obtain ⟨ts, us, rfl, hts, hus⟩ := List.map_eq_append_iff.1 hvs
    obtain ⟨parts, rfl, rfl, hseps, hgs⟩ := exists_parts hargs hus
    exact .call hx hleft (ht.whole hts) hseps hgs hright

theorem rendered_statements {first : Tree} {rest : List Tree} (hfirst : first.Rendered) (hrest : ∀ t ∈ rest, t.Rendered) :
    (Tree.statements first rest).Rendered := by
  intro e tokens _ htokens
  obtain ⟨us, ws, rfl, hus, hws⟩ := List.map_eq_append_iff.1 htokens
  obtain ⟨left, vs, rfl, hleft, hvs⟩ := List.map_eq_cons_iff.1 hus
  obtain ⟨right, rfl, hright⟩ := List.map_eq_singleton_iff.1 hws
  rw [intercalate_cons] at hvs
  obtain ⟨ts, us, rfl, hts, hus⟩ := List.map_eq_append_iff.1 hvs
  obtain ⟨parts, rfl, rfl, hseps, hgs⟩ := exists_parts hrest hus
  have hbraces := Greedy.braces (e := e) hleft (hfirst.whole hts) hseps hgs (.inl rfl) hright
  rw [List.append_nil] at hbraces
  exact hbraces

theorem rendered_block {bindings : List (String × Tree)} {body : Tree} (hne : bindings ≠ [])
    (h : ∀ b ∈ bindings, b.2.Rendered) (hbody : body.Rendered) : (Tree.block bindings body).Rendered := by
  intro e tokens he htokens
  obtain ⟨us, ws, rfl, hus, hws⟩ := List.map_eq_append_iff.1 htokens
  obtain ⟨var_, vs, rfl, hvar, hvs⟩ := List.map_eq_cons_iff.1 hus
  obtain ⟨in_, ts, rfl, hin, hts⟩ := List.map_eq_cons_iff.1 hws
  cases bindings with
  | nil => exact absurd rfl hne
  | cons b bindings =>
    obtain ⟨hb, hbindings⟩ := List.forall_mem_cons.1 h
    rw [bindingRenders, intercalate_cons] at hvs
    obtain ⟨bs, cs, rfl, hbs, hcs⟩ := List.map_eq_append_iff.1 hvs
    obtain ⟨B, rfl, hpair, hmarked, hg⟩ := hb.binding hbs
    obtain ⟨parts, rfl, rfl, hmarks, hgs⟩ := exists_bindings hbindings hcs
    have hblock := Greedy.block hvar hmarked hg hmarks hgs hin (hbody.whole hts)
    rw [hpair] at hblock
    rw [he rfl]
    exact hblock.loosen (Nat.zero_le _) fun _ => rfl

/-- Every expression is rendered as tokens that are derived greedily. -/
theorem Shaped.rendered {t : Tree} (h : t.Shaped) : t.Rendered := by
  induction h with
  | number x =>
    intro e tokens _ htokens
    obtain ⟨y, rfl, hy⟩ := List.map_eq_singleton_iff.1 htokens
    exact .number hy
  | var name =>
    intro e tokens _ htokens
    obtain ⟨x, rfl, hx⟩ := List.map_eq_singleton_iff.1 htokens
    exact .var hx
  | negation _ ih => exact fun e ts _ hts => ih.wrapped .neg hts
  | binary op _ _ ihl ihr => exact fun e ts _ hts => ihl.joined op.joins ihr hts
  | inversion _ ih => exact fun e ts _ hts => ih.wrapped .not hts
  | logical hop _ _ ihl ihr => exact fun e ts _ hts => ihl.joined (Connective.joins hop) ihr hts
  | call name _ ih => exact rendered_call ih
  | conditional _ _ _ ihc iht ihe =>
    intro e tokens he htokens
    obtain ⟨us, ws, rfl, hus, hws⟩ := List.map_eq_append_iff.1 htokens
    obtain ⟨us, vs, rfl, hus, hvs⟩ := List.map_eq_append_iff.1 hus
    obtain ⟨if_, cs, rfl, hif, hcs⟩ := List.map_eq_cons_iff.1 hus
    obtain ⟨then_, ts, rfl, hthen, hts⟩ := List.map_eq_cons_iff.1 hvs
    obtain ⟨else_, es, rfl, helse, hes⟩ := List.map_eq_cons_iff.1 hws
    rw [he rfl]
    exact (Greedy.conditional hif (ihc.whole hcs) hthen (iht.whole hts) helse (ihe.whole hes)).loosen
      (Nat.zero_le _) fun _ => rfl
  | block hne _ _ ihs ih => exact rendered_block hne ihs ih
  | statements _ _ ih ihs => exact rendered_statements ih ihs
  | assign name _ ih =>
    intro e tokens he htokens
    obtain ⟨b, rfl, hpair, hmarked, hg⟩ := ih.binding htokens
    cases hpair
    rw [he rfl]
    exact .assign hmarked hg
  | increment name =>
    intro e tokens _ htokens
    obtain ⟨op, us, rfl, hop, hus⟩ := List.map_eq_cons_iff.1 htokens
    obtain ⟨x, rfl, hx⟩ := List.map_eq_singleton_iff.1 hus
    exact .increment hop hx
  | forVar name _ _ _ _ ih ihc ihs iht =>
    intro e tokens he htokens
    obtain ⟨us, cs, ss, ts, comma₁, comma₂, in_, rfl, hus, h₁, hcs, h₂, hss, hin, hts⟩ := exists_three htokens
    obtain ⟨for_, us, rfl, hfor, hus⟩ := List.map_eq_cons_iff.1 hus
    obtain ⟨var_, us, rfl, hvar, hus⟩ := List.map_eq_cons_iff.1 hus
    obtain ⟨b, rfl, hpair, hmarked, hg⟩ := ih.binding hus
    cases hpair
    rw [he rfl]
    exact (Greedy.forVar hfor hvar hmarked hg h₁ (ihc.whole hcs) h₂ (ihs.whole hss) hin (iht.whole hts)).loosen
      (Nat.zero_le _) fun _ => rfl
  | forSet name _ _ _ _ ih ihc ihs iht =>
    intro e tokens he htokens
    obtain ⟨us, cs, ss, ts, comma₁, comma₂, in_, rfl, hus, h₁, hcs, h₂, hss, hin, hts⟩ := exists_three htokens
    obtain ⟨for_, us, rfl, hfor, hus⟩ := List.map_eq_cons_iff.1 hus
    obtain ⟨b, rfl, hpair, hmarked, hg⟩ := ih.binding hus
    cases hpair
    rw [he rfl]
    exact (Greedy.forSet hfor hmarked hg h₁ (ihc.whole hcs) h₂ (ihs.whole hss) hin (iht.whole hts)).loosen
      (Nat.zero_le _) fun _ => rfl

end Tree

/-! ## Definitions with a rendered body -/

namespace Reader

theorem Takes.bind_get {β : Type} {f : Cursor → Reader β} {ts rest : List Token} {b : β}
    (h : ∀ c : Cursor, c.rest = ts ++ rest → Takes (f c) ts b rest) : Takes (get >>= f) ts b rest :=
  fun c hc => h c hc c hc

theorem takes_prototype {x left right : Token} {name : String} (hx : x.kind = .identifier name)
    (hleft : left.kind = .symbol .leftParen) (hright : right.kind = .symbol .rightParen) (rest : List Token) :
    Takes prototype [x, left, right] ⟨name, [], cover [x, left, right]⟩ rest := by
  refine .bind_get fun c hc => ?_
  refine (Takes.identifier _ hx _).bind_cons ((Takes.expect _ hleft _).discard.bind_cons (.bind_nil (.peek _) ?_))
  rw [if_pos (by exact hright), Cursor.span_of_cons hc]
  exact (Takes.pure [] _).bind_nil ((Takes.expect _ hright rest).bind_pure (.pure _ rest))

/-- A definition without parameters, up to the end of the tokens. -/
theorem item_of_greedy {kw x left right : Token} {ts : List Token} {name : String} {body : Tree}
    (hkw : kw.kind = .keyword .defKw) (hx : x.kind = .identifier name) (hleft : left.kind = .symbol .leftParen)
    (hright : right.kind = .symbol .rightParen) (hbody : Greedy .assignment true ts body) {c : Cursor}
    (hc : c.rest = kw :: x :: left :: right :: ts) :
    ∃ c', c'.rest = [] ∧ item c = .ok (.function ⟨name, [], cover [x, left, right]⟩ body
      (cover (kw :: x :: left :: right :: ts))) c' := by
  have hcolon : headKind ts ≠ .symbol .colon := by simpa using (hbody.headKind_ne []).2.2
  obtain ⟨c₁, h₁, hc₁⟩ := Takes.take kw _ c hc
  obtain ⟨c₂, h₂, hc₂⟩ := takes_prototype hx hleft hright ts c₁ hc₁
  obtain ⟨c₃, h₃, hc₃⟩ := (Takes.reject hcolon).discard c₂ hc₂
  have hwhole : Takes wholeExpression ts body [] := takes_wholeExpression hbody .endOfFile
  obtain ⟨c₄, h₄, hc₄⟩ := hwhole c₃ (hc₃.trans (List.append_nil ts).symm)
  have hitem : item c = .ok (.function ⟨name, [], cover [x, left, right]⟩ body (kw.span.cover c₄.last)) c₄ := by
    rw [item, peek_bind, Cursor.kind_of_cons hc, hkw]
    show definition c = _
    rw [definition, bind_of_ok h₁, bind_of_ok h₂, bind_of_ok h₃, bind_of_ok h₄]
    rfl
  -- Nothing is left, so the tokens taken are all of them, and the last one ends the span.
  obtain ⟨us, hp, -⟩ := item_reads hitem
  have hus : us = kw :: x :: left :: right :: ts := by rw [← hc, hp.rest_eq, hc₄, List.append_nil]
  subst hus
  refine ⟨c₄, hc₄, ?_⟩
  rw [hitem, hp.cover_eq (by simp), Cursor.span_of_cons hc]

end Reader

/-- One declaration up to the end of the tokens. -/
theorem parseFrom_of_item {c c' : Cursor} {n : Nat} {t : Tree} (hend : c.kind ≠ .endOfFile)
    (hsemi : c.kind ≠ .symbol .semicolon) (h : Reader.item c = .ok t c') (hc' : c'.rest = []) :
    parseFrom (n + 1) c = ⟨[t], []⟩ := by
  rw [parseFrom, if_neg hend, if_neg hsemi, h]
  exact if_pos (by rw [c'.kind_eq, hc']; rfl)

/-- Parsing undoes rendering: `def name()` with a rendered expression behind it is parsed, without a diagnostic, as
one function that has the expression as its body. -/
theorem parse_render (body : Tree) (hbody : body.Shaped) (name : String) (tokens stop : List Token)
    (hkinds : tokens.map Token.kind =
      [.keyword .defKw, .identifier name, .symbol .leftParen, .symbol .rightParen] ++ body.render)
    (hstop : Optional .endOfFile stop) :
    parse (tokens ++ stop) =
      ⟨[.function ⟨name, [], cover ((tokens.drop 1).take 3)⟩ body (cover tokens)], []⟩ := by
  obtain ⟨kw, us, rfl, hkw, hus⟩ := List.map_eq_cons_iff.1 hkinds
  obtain ⟨x, us, rfl, hx, hus⟩ := List.map_eq_cons_iff.1 hus
  obtain ⟨left, us, rfl, hleft, hus⟩ := List.map_eq_cons_iff.1 hus
  obtain ⟨right, ts, rfl, hright, hts⟩ := List.map_eq_cons_iff.1 hus
  have hg : Greedy .assignment true ts body := hbody.rendered.whole hts
  have hnoEnd : NoEnd (kw :: x :: left :: right :: ts) :=
    .cons hkw (by simp) (.cons hx (by simp) (.cons hleft (by simp) (.cons hright (by simp) hg.derives.noEnd)))
  have hrest := Cursor.rest_ofTokens hnoEnd hstop
  have hkind := (Cursor.kind_of_cons hrest).trans hkw
  obtain ⟨c', hc', hitem⟩ := Reader.item_of_greedy hkw hx hleft hright hg hrest
  rw [parse, hrest]
  exact parseFrom_of_item (fun h => by cases hkind.symm.trans h) (fun h => by cases hkind.symm.trans h) hitem hc'

/-- `def f() (a or b) and not a - (1 - (x = 2))`. -/
theorem parse_render_nested :
    let body : Tree := .logical .and (.logical .or (.var "a") (.var "b"))
      (.unaryLogical .not (.binary .sub (.var "a") (.binary .sub (.number 1) (.assign "x" (.number 2)))))
    let kinds : List TokenKind := [.keyword .defKw, .identifier "f", .symbol .leftParen, .symbol .rightParen,
      .symbol .leftParen, .identifier "a", .keyword .orKw, .identifier "b", .symbol .rightParen, .keyword .andKw,
      .keyword .notKw, .identifier "a", .symbol .minus, .symbol .leftParen, .number 1, .symbol .minus,
      .symbol .leftParen, .identifier "x", .symbol .equal, .number 2, .symbol .rightParen, .symbol .rightParen]
    parse (kinds.map fun k => ⟨k, {}⟩) = ⟨[.function ⟨"f", [], {}⟩ body {}], []⟩ := by
  intro body kinds
  have hbody : body.Shaped := .logical (by decide) (.logical (by decide) (.var _) (.var _))
    (.inversion (.binary _ (.var _) (.binary _ (.number _) (.assign _ (.number _)))))
  have h := parse_render body hbody "f" (kinds.map fun k => ⟨k, {}⟩) [] rfl (.inl rfl)
  rw [List.append_nil] at h
  exact h

end Monofloat
