import Monofloat.Proofs.Grammar

/-!
# Greedy derivations

Of the derivations of an ambiguous expression one is greedy: in it, an operator behind a trailing expression
belongs to that expression. `Greedy L e ts t` are the greedy derivations; with `e` they may end in an
expression that would take up an operator, so none may follow, and without `e` an operator looser than `L` may.
Only what may be followed by an operator is a left operand.

Every derivable expression has a greedy derivation (`Derives.exists_greedy`): where a left operand would take
up its operator, the operator and the right operand are moved into it.
-/

namespace Monofloat.Grammar

/-- How tight a level is. -/
def Level.rank : Level → Nat
  | assignment => 0
  | disjunction => 1
  | conjunction => 2
  | inversion => 3
  | comparison => 4
  | sum => 5
  | product => 6
  | negation => 7
  | primary => 8

theorem Level.rank_next {L L' : Level} (h : L.next = some L') : L'.rank = L.rank + 1 := by
  cases L <;> cases h <;> rfl

/-- The greedy derivations of a level; with `e`, of expressions that no operator follows. -/
inductive Greedy : Level → Bool → List Token → Tree → Prop where
  | descend {L L' e ts t} : L ≠ .assignment → L.next = some L' → Greedy L' e ts t → Greedy L e ts t
  | expression {ts t} : Greedy .disjunction true ts t → Greedy .assignment true ts t
  | joined {L L' join e ts op us l r} : L.next = some L' → Joins L op.kind join → Greedy L false ts l →
      Greedy L' e us r → Greedy L e (ts ++ op :: us) (join l r)
  | wrapped {L wrap e op ts t} : Wraps L op.kind wrap → Greedy L e ts t → Greedy L e (op :: ts) (wrap t)
  | assign {e} {b : Binding} : b.Marked → Greedy .assignment e b.tokens b.init →
      Greedy .assignment e b.yield (.assign b.name b.init)
  | increment {e op x name} : op.kind = .symbol .plusPlus → x.kind = .identifier name →
      Greedy .assignment e [op, x] (.increment name)
  | number {e x value} : x.kind = .number value → Greedy .primary e [x] (.number value)
  | var {e x name} : x.kind = .identifier name → Greedy .primary e [x] (.var name)
  | callEmpty {e x left right name} : x.kind = .identifier name → left.kind = .symbol .leftParen →
      right.kind = .symbol .rightParen → Greedy .primary e [x, left, right] (.call name [])
  | call {e x left ts right name t} {rest : List Part} : x.kind = .identifier name →
      left.kind = .symbol .leftParen → Greedy .assignment true ts t →
      (∀ p ∈ rest, p.separator.kind = .symbol .comma) → (∀ p ∈ rest, Greedy .assignment true p.tokens p.tree) →
      right.kind = .symbol .rightParen →
      Greedy .primary e (x :: left :: ts ++ yield rest ++ [right]) (.call name (t :: rest.map Part.tree))
  | parens {e left ts right t} : left.kind = .symbol .leftParen → Greedy .assignment true ts t →
      right.kind = .symbol .rightParen → Greedy .primary e (left :: ts ++ [right]) t
  | braces {e left ts tail right t} {rest : List Part} : left.kind = .symbol .leftBrace →
      Greedy .assignment true ts t → (∀ p ∈ rest, p.separator.kind = .symbol .semicolon) →
      (∀ p ∈ rest, Greedy .assignment true p.tokens p.tree) → Optional (.symbol .semicolon) tail →
      right.kind = .symbol .rightBrace →
      Greedy .primary e (left :: ts ++ yield rest ++ tail ++ [right]) (.statements t (rest.map Part.tree))
  | conditional {e if_ cs then_ ts else_ es c t f} : if_.kind = .keyword .ifKw → Greedy .assignment true cs c →
      then_.kind = .keyword .thenKw → Greedy .assignment true ts t → else_.kind = .keyword .elseKw →
      Greedy .assignment e es f →
      Greedy .primary e (if_ :: cs ++ then_ :: ts ++ else_ :: es) (.conditional c t f)
  | block {e var_ in_ ts t} {b : Binding} {rest : List (Token × Binding)} : var_.kind = .keyword .varKw →
      b.Marked → Greedy .assignment true b.tokens b.init →
      (∀ p ∈ rest, p.1.kind = .symbol .comma ∧ p.2.Marked) →
      (∀ p ∈ rest, Greedy .assignment true p.2.tokens p.2.init) → in_.kind = .keyword .inKw →
      Greedy .assignment e ts t →
      Greedy .primary e (var_ :: b.yield ++ bindingsYield rest ++ in_ :: ts)
        (.block (b.pair :: rest.map (·.2.pair)) t)
  | forVar {e for_ var_ comma₁ cs comma₂ ss in_ ts c s t} {b : Binding} : for_.kind = .keyword .forKw →
      var_.kind = .keyword .varKw → b.Marked → Greedy .assignment true b.tokens b.init →
      comma₁.kind = .symbol .comma → Greedy .assignment true cs c → comma₂.kind = .symbol .comma →
      Greedy .assignment true ss s → in_.kind = .keyword .inKw → Greedy .assignment e ts t →
      Greedy .primary e (for_ :: var_ :: b.yield ++ comma₁ :: cs ++ comma₂ :: ss ++ in_ :: ts)
        (.forLoop (.declare b.name b.init) c s t)
  | forSet {e for_ comma₁ cs comma₂ ss in_ ts c s t} {b : Binding} : for_.kind = .keyword .forKw →
      b.Marked → Greedy .assignment true b.tokens b.init → comma₁.kind = .symbol .comma →
      Greedy .assignment true cs c → comma₂.kind = .symbol .comma → Greedy .assignment true ss s →
      in_.kind = .keyword .inKw → Greedy .assignment e ts t →
      Greedy .primary e (for_ :: b.yield ++ comma₁ :: cs ++ comma₂ :: ss ++ in_ :: ts)
        (.forLoop (.assign b.name b.init) c s t)

/-- An operator with its right operand: what may be added behind an expression. -/
structure Addition where
  level : Level
  operand : Level
  next : level.next = some operand
  operator : Token
  join : Tree → Tree → Tree
  joins : Joins level operator.kind join
  tokens : List Token
  right : Tree
  derived : Greedy operand true tokens right

namespace Addition

def yield (a : Addition) : List Token := a.operator :: a.tokens

theorem level_ne_assignment (a : Addition) : a.level ≠ .assignment := by
  intro h
  have hj := a.joins
  rw [h] at hj
  cases hj

end Addition

/-- Tokens that the level `L` derives greedily, whatever their tree. -/
def Derivable (L : Level) (ts : List Token) : Prop := ∃ t, Greedy L true ts t

/-- What follows of a greedy derivation of `ts` for an operator behind it: either `ts` may be followed by looser
operators, or it takes up every operator; and it takes up the operators of its own level and of tighter ones. -/
structure Extensible (L : Level) (ts : List Token) : Prop where
  closed_or : (∃ t, Greedy L false ts t) ∨ ∀ a : Addition, Derivable L (ts ++ a.yield)
  tighter : L ≠ .assignment → ∀ a : Addition, L.rank ≤ a.level.rank → Derivable L (ts ++ a.yield)

theorem Level.eq_of_rank_eq {L M : Level} (h : L.rank = M.rank) : L = M := by
  cases L <;> cases M <;> first | rfl | exact absurd h (by decide)

theorem Addition.rank_lt (a : Addition) : a.level.rank < 7 := by
  have hj := a.joins
  generalize a.level = M, a.operator.kind = k, a.join = join at hj
  cases hj <;> decide

namespace Extensible

/-- Above a primary it is enough to look at the operators that are strictly tighter. -/
theorem of_closed_or {L : Level} {ts : List Token}
    (h : (∃ t, Greedy L false ts t) ∨ ∀ a : Addition, Derivable L (ts ++ a.yield))
    (ht : ∀ a : Addition, L.rank < a.level.rank → Derivable L (ts ++ a.yield)) : Extensible L ts := by
  refine ⟨h, fun _ a ha => ?_⟩
  rcases Nat.lt_or_eq_of_le ha with hlt | heq
  · exact ht a hlt
  · have hL := Level.eq_of_rank_eq heq
    subst hL
    rcases h with ⟨t, hc⟩ | hany
    · exact ⟨_, .joined a.next a.joins hc a.derived⟩
    · exact hany a

theorem of_primary {ts : List Token}
    (h : (∃ t, Greedy .primary false ts t) ∨ ∀ a : Addition, Derivable .primary (ts ++ a.yield)) :
    Extensible .primary ts :=
  of_closed_or h fun a ha => absurd (Nat.lt_trans ha a.rank_lt) (by decide)

theorem of_assignment {ts : List Token}
    (h : (∃ t, Greedy .assignment false ts t) ∨ ∀ a : Addition, Derivable .assignment (ts ++ a.yield)) :
    Extensible .assignment ts := ⟨h, fun hL => absurd rfl hL⟩

/-- What holds of the expression that a list of tokens ends in holds of the list. -/
theorem closed_or_map {L L' : Level} {us ts : List Token} (h : Extensible L us)
    (hc : ∀ {t}, Greedy L false us t → ∃ t', Greedy L' false ts t')
    (ha : ∀ {vs t}, Greedy L true (us ++ vs) t → Derivable L' (ts ++ vs)) :
    (∃ t, Greedy L' false ts t) ∨ ∀ a : Addition, Derivable L' (ts ++ a.yield) := by
  rcases h.closed_or with ⟨t, hg⟩ | hany
  · exact .inl (hc hg)
  · refine .inr fun a => ?_
    obtain ⟨t, hg⟩ := hany a
    exact ha hg

end Extensible

theorem next_ne_assignment {L L' : Level} (h : L.next = some L') : L' ≠ .assignment := by
  cases L <;> cases h <;> decide

/-- Which operators a greedy expression takes up. -/
theorem Greedy.extensible {L : Level} {e : Bool} {ts : List Token} {t : Tree} (h : Greedy L e ts t)
    (he : e = true) : Extensible L ts := by
  induction h with
  | @descend L L' e ts t hL hn h ih =>
    have ih := ih he
    refine .of_closed_or (ih.closed_or_map (fun hg => ⟨_, .descend hL hn hg⟩)
      fun hg => ⟨_, .descend hL hn hg⟩) fun a ha => ?_
    have hrank := Level.rank_next hn
    obtain ⟨t', hg⟩ := ih.tighter (next_ne_assignment hn) a (by omega)
    exact ⟨t', .descend hL hn hg⟩
  | expression h ih =>
    refine .of_assignment (.inr fun a => ?_)
    have hrank : 1 ≤ a.level.rank := by
      have := a.level_ne_assignment
      cases ha : a.level <;> simp_all [Level.rank]
    obtain ⟨t', hg⟩ := (ih rfl).tighter (by decide) a hrank
    exact ⟨t', .expression hg⟩
  | @joined L L' join e ts op us l r hn hj hl hr _ ihr =>
    subst he
    have ih := ihr rfl
    refine .of_closed_or (ih.closed_or_map (fun hg => ⟨_, .joined hn hj hl hg⟩) fun {vs t} hg => ?_)
      fun a ha => ?_
    · exact ⟨join l t, by simpa using Greedy.joined hn hj hl hg⟩
    · have hrank := Level.rank_next hn
      obtain ⟨t', hg⟩ := ih.tighter (next_ne_assignment hn) a (by omega)
      exact ⟨join l t', by simpa using Greedy.joined hn hj hl hg⟩
  | @wrapped L wrap e op ts t hw h ih =>
    have ih := ih he
    refine .of_closed_or (ih.closed_or_map (fun hg => ⟨_, .wrapped hw hg⟩) fun hg => ⟨_, .wrapped hw hg⟩)
      fun a ha => ?_
    have hL : L ≠ .assignment := by rintro rfl; cases hw
    obtain ⟨t', hg⟩ := ih.tighter hL a (Nat.le_of_lt ha)
    exact ⟨_, .wrapped hw hg⟩
  | @assign e b hm h ih =>
    refine .of_assignment ((ih he).closed_or_map (fun {t} hg => ?_) fun {vs t} hg => ?_)
    · exact ⟨_, .assign (b := { b with init := t }) hm hg⟩
    · exact ⟨_, .assign (b := { b with tokens := b.tokens ++ vs, init := t }) hm hg⟩
  | increment hop hx => exact .of_assignment (.inl ⟨_, .increment hop hx⟩)
  | number hx => exact .of_primary (.inl ⟨_, .number hx⟩)
  | var hx => exact .of_primary (.inl ⟨_, .var hx⟩)
  | callEmpty hx hl hr => exact .of_primary (.inl ⟨_, .callEmpty hx hl hr⟩)
  | call hx hl ht hseps hparts hr => exact .of_primary (.inl ⟨_, .call hx hl ht hseps hparts hr⟩)
  | parens hl ht hr => exact .of_primary (.inl ⟨_, .parens hl ht hr⟩)
  | braces hl ht hseps hparts htail hr => exact .of_primary (.inl ⟨_, .braces hl ht hseps hparts htail hr⟩)
  | conditional hif hc hthen ht helse hf _ _ ih =>
    refine .of_primary ((ih he).closed_or_map (fun hg => ⟨_, .conditional hif hc hthen ht helse hg⟩)
      fun hg => ?_)
    exact ⟨_, by simpa using Greedy.conditional hif hc hthen ht helse hg⟩
  | block hvar hm hb hmarks hbs hin ht _ _ ih =>
    refine .of_primary ((ih he).closed_or_map (fun hg => ⟨_, .block hvar hm hb hmarks hbs hin hg⟩)
      fun hg => ?_)
    exact ⟨_, by simpa using Greedy.block hvar hm hb hmarks hbs hin hg⟩
  | forVar hfor hvar hm hb h₁ hc h₂ hs hin ht _ _ _ ih =>
    refine .of_primary ((ih he).closed_or_map (fun hg => ⟨_, .forVar hfor hvar hm hb h₁ hc h₂ hs hin hg⟩)
      fun hg => ?_)
    exact ⟨_, by simpa using Greedy.forVar hfor hvar hm hb h₁ hc h₂ hs hin hg⟩
  | forSet hfor hm hb h₁ hc h₂ hs hin ht _ _ _ ih =>
    refine .of_primary ((ih he).closed_or_map (fun hg => ⟨_, .forSet hfor hm hb h₁ hc h₂ hs hin hg⟩)
      fun hg => ?_)
    exact ⟨_, by simpa using Greedy.forSet hfor hm hb h₁ hc h₂ hs hin hg⟩

/-! ## Every derivable expression has a greedy derivation -/

/-- Parts that are derivable one by one have greedy derivations together. -/
theorem exists_greedy_parts {separator : TokenKind} {rest : List Part}
    (hs : ∀ p ∈ rest, p.separator.kind = separator) (h : ∀ p ∈ rest, Derivable .assignment p.tokens) :
    ∃ rest' : List Part, yield rest' = yield rest ∧ (∀ p ∈ rest', p.separator.kind = separator) ∧
      ∀ p ∈ rest', Greedy .assignment true p.tokens p.tree := by
  induction rest with
  | nil => exact ⟨[], rfl, by simp, by simp⟩
  | cons p rest ih =>
    rw [List.forall_mem_cons] at hs h
    obtain ⟨rest', hy, hs', hg⟩ := ih hs.2 h.2
    obtain ⟨t, ht⟩ := h.1
    refine ⟨{ p with tree := t } :: rest', ?_, ?_, ?_⟩
    · simp only [yield, List.flatMap_cons] at hy ⊢
      rw [hy]
    · exact List.forall_mem_cons.mpr ⟨hs.1, hs'⟩
    · exact List.forall_mem_cons.mpr ⟨ht, hg⟩

theorem exists_greedy_bindings {rest : List (Token × Binding)}
    (hm : ∀ p ∈ rest, p.1.kind = .symbol .comma ∧ p.2.Marked)
    (h : ∀ p ∈ rest, Derivable .assignment p.2.tokens) :
    ∃ rest' : List (Token × Binding), bindingsYield rest' = bindingsYield rest ∧
      (∀ p ∈ rest', p.1.kind = .symbol .comma ∧ p.2.Marked) ∧
      ∀ p ∈ rest', Greedy .assignment true p.2.tokens p.2.init := by
  induction rest with
  | nil => exact ⟨[], rfl, by simp, by simp⟩
  | cons p rest ih =>
    rw [List.forall_mem_cons] at hm h
    obtain ⟨rest', hy, hm', hg⟩ := ih hm.2 h.2
    obtain ⟨t, ht⟩ := h.1
    refine ⟨(p.1, { p.2 with init := t }) :: rest', ?_, ?_, ?_⟩
    · simp only [bindingsYield, List.flatMap_cons] at hy ⊢
      rw [hy]
      rfl
    · exact List.forall_mem_cons.mpr ⟨hm.1, hm'⟩
    · exact List.forall_mem_cons.mpr ⟨ht, hg⟩

theorem Derives.exists_greedy {L : Level} {ts : List Token} {t : Tree} (h : Derives L ts t) :
    Derivable L ts := by
  induction h with
  | @descend L L' ts t hn h ih =>
    obtain ⟨t', hg⟩ := ih
    by_cases hL : L = .assignment
    · subst hL
      cases hn
      exact ⟨t', .expression hg⟩
    · exact ⟨t', .descend hL hn hg⟩
  | @joined L L' join ts op us l r hn hj hl hr ihl ihr =>
    obtain ⟨l', hgl⟩ := ihl
    obtain ⟨r', hgr⟩ := ihr
    have hL : L ≠ .assignment := by rintro rfl; cases hj
    exact (hgl.extensible rfl).tighter hL ⟨L, L', hn, op, join, hj, us, r', hgr⟩ (Nat.le_refl _)
  | wrapped hw h ih =>
    obtain ⟨t', hg⟩ := ih
    exact ⟨_, .wrapped hw hg⟩
  | @assign b hm h ih =>
    obtain ⟨t', hg⟩ := ih
    exact ⟨_, .assign (b := { b with init := t' }) hm hg⟩
  | increment hop hx => exact ⟨_, .increment hop hx⟩
  | number hx => exact ⟨_, .number hx⟩
  | var hx => exact ⟨_, .var hx⟩
  | callEmpty hx hl hr => exact ⟨_, .callEmpty hx hl hr⟩
  | call hx hl ht hseps hparts hr ih ihs =>
    obtain ⟨t', hg⟩ := ih
    obtain ⟨rest', hy, hseps', hgs⟩ := exists_greedy_parts hseps ihs
    rw [← hy]
    exact ⟨_, .call hx hl hg hseps' hgs hr⟩
  | parens hl ht hr ih =>
    obtain ⟨t', hg⟩ := ih
    exact ⟨_, .parens hl hg hr⟩
  | braces hl ht hseps hparts htail hr ih ihs =>
    obtain ⟨t', hg⟩ := ih
    obtain ⟨rest', hy, hseps', hgs⟩ := exists_greedy_parts hseps ihs
    rw [← hy]
    exact ⟨_, .braces hl hg hseps' hgs htail hr⟩
  | conditional hif hc hthen ht helse hf ihc iht ihf =>
    obtain ⟨c', hgc⟩ := ihc
    obtain ⟨t', hgt⟩ := iht
    obtain ⟨f', hgf⟩ := ihf
    exact ⟨_, .conditional hif hgc hthen hgt helse hgf⟩
  | @block var_ in_ ts t b rest hvar hm hb hmarks hbs hin ht ihb ihbs iht =>
    obtain ⟨b', hgb⟩ := ihb
    obtain ⟨t', hgt⟩ := iht
    obtain ⟨rest', hy, hmarks', hgs⟩ := exists_greedy_bindings hmarks ihbs
    rw [← hy]
    exact ⟨_, .block (b := { b with init := b' }) hvar hm hgb hmarks' hgs hin hgt⟩
  | @forVar for_ var_ comma₁ cs comma₂ ss in_ ts c s t b hfor hvar hm hb h₁ hc h₂ hs hin ht ihb ihc ihs iht =>
    obtain ⟨b', hgb⟩ := ihb
    obtain ⟨c', hgc⟩ := ihc
    obtain ⟨s', hgs⟩ := ihs
    obtain ⟨t', hgt⟩ := iht
    exact ⟨_, .forVar (b := { b with init := b' }) hfor hvar hm hgb h₁ hgc h₂ hgs hin hgt⟩
  | @forSet for_ comma₁ cs comma₂ ss in_ ts c s t b hfor hm hb h₁ hc h₂ hs hin ht ihb ihc ihs iht =>
    obtain ⟨b', hgb⟩ := ihb
    obtain ⟨c', hgc⟩ := ihc
    obtain ⟨s', hgs⟩ := ihs
    obtain ⟨t', hgt⟩ := iht
    exact ⟨_, .forSet (b := { b with init := b' }) hfor hm hgb h₁ hgc h₂ hgs hin hgt⟩

end Monofloat.Grammar
