import Monofloat.Proofs.Grammar
import Monofloat.Proofs.Sequencing
import Monofloat.Tree.Program

/-!
# What the readers accept

`Reads r D` says that whatever the reader `r` takes off a cursor when it succeeds is related by `D` to its
result. The readers are gone through from the tokens up to whole declarations; each reads the part of the
grammar it is named after. Nothing is said here about when a reader succeeds.
-/

namespace Monofloat

open Grammar

/-- The second cursor is the first one after the tokens `ts` were taken off it. -/
inductive Cursor.Passes : Cursor → List Token → Cursor → Prop where
  | nil (c : Cursor) : Passes c [] c
  | cons {c : Cursor} {t : Token} {rest ts : List Token} {c' : Cursor} : c.rest = t :: rest →
      Passes c.advance ts c' → Passes c (t :: ts) c'

namespace Cursor

theorem advance_of_cons {c : Cursor} {t : Token} {rest : List Token} (h : c.rest = t :: rest) :
    c.advance = { c with rest := rest, last := t.span } := by
  simp only [advance, h]

theorem kind_of_cons {c : Cursor} {t : Token} {rest : List Token} (h : c.rest = t :: rest) :
    c.kind = t.kind := by
  simp only [kind, h]

theorem span_of_cons {c : Cursor} {t : Token} {rest : List Token} (h : c.rest = t :: rest) :
    c.span = t.span := by
  simp only [span, h]

/-- A cursor whose next token is not the end of the file has a next token. -/
theorem exists_cons {c : Cursor} {k : TokenKind} (h : c.kind = k) (hk : k ≠ .endOfFile) :
    ∃ t rest, c.rest = t :: rest ∧ t.kind = k := by
  cases hc : c.rest with
  | nil => simp only [kind, hc] at h; exact absurd h.symm hk
  | cons t rest => exact ⟨t, rest, rfl, (kind_of_cons hc).symm.trans h⟩

namespace Passes

theorem single {c : Cursor} {t : Token} {rest : List Token} (h : c.rest = t :: rest) :
    Passes c [t] c.advance := .cons h (.nil _)

theorem append {c₁ c₂ c₃ : Cursor} {ts us : List Token} (h₁ : Passes c₁ ts c₂) (h₂ : Passes c₂ us c₃) :
    Passes c₁ (ts ++ us) c₃ := by
  induction h₁ with
  | nil => exact h₂
  | cons ht _ ih => exact .cons ht (ih h₂)

theorem rest_eq {c c' : Cursor} {ts : List Token} (h : Passes c ts c') : c.rest = ts ++ c'.rest := by
  induction h with
  | nil => rfl
  | cons ht _ ih => rw [ht, List.cons_append, ← ih, advance_of_cons ht]

/-- The token taken last is the last one of those taken. -/
theorem last_eq {c c' : Cursor} {ts : List Token} (h : Passes c ts c') (hne : ts ≠ []) :
    c'.last = (ts.getLast hne).span := by
  induction h with
  | nil => exact absurd rfl hne
  | @cons c t rest ts c' ht h' ih =>
    cases ts with
    | nil => cases h'; simp only [advance_of_cons ht, List.getLast_singleton]
    | cons u us => rw [ih (List.cons_ne_nil u us), List.getLast_cons (List.cons_ne_nil u us)]

/-- Tokens that were taken reach from the start of the first cursor to the token taken last. -/
theorem cover_eq {c c' : Cursor} {ts : List Token} (h : Passes c ts c') (hne : ts ≠ []) :
    Grammar.cover ts = c.span.cover c'.last := by
  cases ts with
  | nil => exact absurd rfl hne
  | cons t ts => rw [h.last_eq hne, Cursor.span_of_cons h.rest_eq, Grammar.cover]

end Passes

end Cursor

namespace Reader

open Cursor

/-- What `r` takes when it succeeds is related by `D` to its result. -/
def Reads {α : Type} (r : Reader α) (D : List Token → α → Prop) : Prop :=
  ∀ ⦃c a c'⦄, r c = .ok a c' → ∃ ts, Passes c ts c' ∧ D ts a

/-! ## Tokens -/

theorem peek_bind {α : Type} (f : TokenKind → Reader α) (c : Cursor) : (peek >>= f) c = f c.kind c := rfl

theorem tokensLeft_bind {α : Type} (f : Nat → Reader α) (c : Cursor) :
    (tokensLeft >>= f) c = f c.rest.length c := rfl

theorem take_ok {c c' : Cursor} {s : Span} {k : TokenKind} (h : take c = .ok s c') (hc : c.kind = k)
    (hk : k ≠ .endOfFile) : ∃ t : Token, t.kind = k ∧ Passes c [t] c' ∧ s = t.span := by
  obtain ⟨t, rest, hrest, ht⟩ := exists_cons hc hk
  cases h
  exact ⟨t, ht, .single hrest, span_of_cons hrest⟩

theorem discard_take_ok {c c' : Cursor} {u : Unit} {k : TokenKind} (h : discard take c = .ok u c')
    (hc : c.kind = k) (hk : k ≠ .endOfFile) : ∃ t : Token, t.kind = k ∧ Passes c [t] c' := by
  obtain ⟨s, hs⟩ := discard_eq_ok h
  obtain ⟨t, ht, hp, -⟩ := take_ok hs hc hk
  exact ⟨t, ht, hp⟩

theorem expect_ok {k : TokenKind} {m : String} {c c' : Cursor} {s : Span} (hk : k ≠ .endOfFile)
    (h : expect k m c = .ok s c') : ∃ t : Token, t.kind = k ∧ Passes c [t] c' ∧ s = t.span := by
  rw [expect, peek_bind] at h
  by_cases hc : c.kind = k
  · rw [if_pos hc] at h; exact take_ok h hc hk
  · rw [if_neg hc] at h; cases h

theorem discard_expect_ok {k : TokenKind} {m : String} {c c' : Cursor} {u : Unit}
    (h : discard (expect k m) c = .ok u c') (hk : k ≠ .endOfFile) :
    ∃ t : Token, t.kind = k ∧ Passes c [t] c' := by
  obtain ⟨s, hs⟩ := discard_eq_ok h
  obtain ⟨t, ht, hp, -⟩ := expect_ok hk hs
  exact ⟨t, ht, hp⟩

theorem accept_ok {k : TokenKind} {c c' : Cursor} {b : Bool} (hk : k ≠ .endOfFile)
    (h : accept k c = .ok b c') :
    (b = true ∧ ∃ t : Token, t.kind = k ∧ Passes c [t] c') ∨ (b = false ∧ c' = c) := by
  unfold accept at h
  split at h
  · next hc =>
    obtain ⟨t, rest, hrest, ht⟩ := exists_cons hc hk
    cases h
    exact .inl ⟨rfl, t, ht, .single hrest⟩
  · cases h; exact .inr ⟨rfl, rfl⟩

theorem identifier_ok {m : String} {c c' : Cursor} {name : String} (h : identifier m c = .ok name c') :
    ∃ x : Token, x.kind = .identifier name ∧ Passes c [x] c' := by
  rw [identifier, peek_bind] at h
  cases hc : c.kind with
  | identifier n =>
    rw [hc] at h
    obtain ⟨u, c₁, h₁, h₂⟩ := bind_eq_ok h
    obtain ⟨x, hx, hp⟩ := discard_take_ok h₁ hc (by simp)
    obtain ⟨rfl, rfl⟩ := pure_eq_ok h₂
    exact ⟨x, hx, hp⟩
  | _ => rw [hc] at h; cases h

/-! ## Repetition -/

/-- Items related by `D`, with a `separator` between them. -/
inductive SeparatedBy {α : Type} (separator : TokenKind) (D : List Token → α → Prop) :
    List Token → List α → Prop where
  | one {ts a} : D ts a → SeparatedBy separator D ts [a]
  | more {ts s us a as} : D ts a → s.kind = separator → SeparatedBy separator D us as →
      SeparatedBy separator D (ts ++ s :: us) (a :: as)

section

variable {α : Type} {separator : TokenKind} {item : Reader α} {D : List Token → α → Prop}

/-- What stands behind a first item extends it to a separated list. -/
theorem separatedFrom_ok (hs : separator ≠ .endOfFile) (hi : Reads item D) {n : Nat} {c c' : Cursor}
    {as : List α} (h : separatedFrom separator item n c = .ok as c') :
    ∃ us, Passes c us c' ∧ ∀ ts a, D ts a → SeparatedBy separator D (ts ++ us) (a :: as) := by
  induction n generalizing c as with
  | zero =>
    obtain ⟨rfl, rfl⟩ := pure_eq_ok h
    exact ⟨[], .nil _, fun ts a ha => by simpa using SeparatedBy.one ha⟩
  | succ n ih =>
    obtain ⟨b, c₁, h₁, h₂⟩ := bind_eq_ok h
    rcases accept_ok hs h₁ with ⟨hb, s, hsk, hp⟩ | ⟨hb, hc⟩
    · subst hb
      obtain ⟨a', c₂, h₃, h₄⟩ := bind_eq_ok h₂
      obtain ⟨as', c₃, h₅, h₆⟩ := bind_eq_ok h₄
      obtain ⟨rfl, rfl⟩ := pure_eq_ok h₆
      obtain ⟨ts', hp', hD⟩ := hi h₃
      obtain ⟨us, hu, hlist⟩ := ih h₅
      refine ⟨s :: ts' ++ us, (hp.append hp').append hu, fun ts a ha => ?_⟩
      exact .more ha hsk (hlist ts' a' hD)
    · subst hb hc
      obtain ⟨rfl, rfl⟩ := pure_eq_ok h₂
      exact ⟨[], .nil _, fun ts a ha => by simpa using SeparatedBy.one ha⟩

theorem separated_reads (hs : separator ≠ .endOfFile) (hi : Reads item D) :
    Reads (separated separator item) (SeparatedBy separator D) := by
  intro c as c' h
  obtain ⟨a, c₁, h₁, h₂⟩ := bind_eq_ok h
  rw [tokensLeft_bind] at h₂
  obtain ⟨as', c₂, h₃, h₄⟩ := bind_eq_ok h₂
  obtain ⟨rfl, rfl⟩ := pure_eq_ok h₄
  obtain ⟨ts, hp, ha⟩ := hi h₁
  obtain ⟨us, hu, hlist⟩ := separatedFrom_ok hs hi h₃
  exact ⟨ts ++ us, hp.append hu, hlist ts a ha⟩

end

section

variable {L L' : Level} {operand : Reader Tree}

/-- What stands behind a left operand extends it. -/
theorem chainedFrom_ok {join : TokenKind → Option (Tree → Tree → Tree)} (hL : L.next = some L')
    (hj : ∀ k op, join k = some op → Joins L k op) (ho : Reads operand (Derives L')) {n : Nat}
    {left t : Tree} {c c' : Cursor} (h : chainedFrom operand join n left c = .ok t c') :
    ∃ us, Passes c us c' ∧ ∀ ts, Derives L ts left → Derives L (ts ++ us) t := by
  induction n generalizing left c with
  | zero =>
    obtain ⟨rfl, rfl⟩ := pure_eq_ok h
    exact ⟨[], .nil _, fun ts hd => by simpa using hd⟩
  | succ n ih =>
    rw [chainedFrom, peek_bind] at h
    cases hop : join c.kind with
    | none =>
      rw [hop] at h
      obtain ⟨rfl, rfl⟩ := pure_eq_ok h
      exact ⟨[], .nil _, fun ts hd => by simpa using hd⟩
    | some op =>
      rw [hop] at h
      have hjoin := hj _ _ hop
      have hk : c.kind ≠ .endOfFile := fun he => by rw [he] at hjoin; cases hjoin
      obtain ⟨u, c₁, h₁, h₂⟩ := bind_eq_ok h
      obtain ⟨x, hx, hpx⟩ := discard_take_ok h₁ rfl hk
      obtain ⟨right, c₂, h₃, h₄⟩ := bind_eq_ok h₂
      obtain ⟨vs, hpv, hr⟩ := ho h₃
      obtain ⟨us, hu, hmore⟩ := ih h₄
      refine ⟨x :: vs ++ us, (hpx.append hpv).append hu, fun ts hd => ?_⟩
      have hjoined := Derives.joined hL (hx ▸ hjoin) hd hr
      simpa using hmore _ hjoined

theorem chained_reads {join : TokenKind → Option (Tree → Tree → Tree)} (hL : L.next = some L')
    (hj : ∀ k op, join k = some op → Joins L k op) (ho : Reads operand (Derives L')) :
    Reads (chained operand join) (Derives L) := by
  intro c t c' h
  obtain ⟨left, c₁, h₁, h₂⟩ := bind_eq_ok h
  rw [tokensLeft_bind] at h₂
  obtain ⟨ts, hp, hd⟩ := ho h₁
  obtain ⟨us, hu, hmore⟩ := chainedFrom_ok hL hj ho h₂
  exact ⟨ts ++ us, hp.append hu, hmore ts (.descend hL hd)⟩

theorem repeatedFrom_reads {kind : TokenKind} {wrap : Tree → Tree} (hL : L.next = some L')
    (hw : Wraps L kind wrap) (ho : Reads operand (Derives L')) (n : Nat) :
    Reads (repeatedFrom kind wrap operand n) (Derives L) := by
  have hk : kind ≠ .endOfFile := by cases hw <;> simp
  induction n with
  | zero =>
    intro c t c' h
    obtain ⟨ts, hp, hd⟩ := ho h
    exact ⟨ts, hp, .descend hL hd⟩
  | succ n ih =>
    intro c t c' h
    obtain ⟨b, c₁, h₁, h₂⟩ := bind_eq_ok h
    rcases accept_ok hk h₁ with ⟨hb, x, hx, hpx⟩ | ⟨hb, hc⟩
    · subst hb
      obtain ⟨inner, c₂, h₃, h₄⟩ := bind_eq_ok h₂
      obtain ⟨rfl, rfl⟩ := pure_eq_ok h₄
      obtain ⟨ts, hp, hd⟩ := ih h₃
      exact ⟨x :: ts, hpx.append hp, .wrapped (hx ▸ hw) hd⟩
    · subst hb hc
      obtain ⟨ts, hp, hd⟩ := ho h₂
      exact ⟨ts, hp, .descend hL hd⟩

theorem repeated_reads {kind : TokenKind} {wrap : Tree → Tree} (hL : L.next = some L')
    (hw : Wraps L kind wrap) (ho : Reads operand (Derives L')) :
    Reads (repeated kind wrap operand) (Derives L) := by
  intro c t c' h
  rw [repeated, tokensLeft_bind] at h
  exact repeatedFrom_reads hL hw ho _ h

end

/-! ## Operators

The tokens that the readers take for operators are those of the level. -/

section

variable {k : TokenKind} {join : Tree → Tree → Tree}

theorem joins_of_productOperator? (h : productOperator? k = some join) : Joins .product k join := by
  unfold productOperator? at h
  split at h <;> cases h <;> constructor

theorem joins_of_sumOperator? (h : sumOperator? k = some join) : Joins .sum k join := by
  unfold sumOperator? at h
  split at h <;> cases h <;> constructor

theorem joins_of_comparisonOperator? (h : comparisonOperator? k = some join) : Joins .comparison k join := by
  unfold comparisonOperator? at h
  split at h <;> cases h <;> constructor

theorem joins_of_andOperator? (h : andOperator? k = some join) : Joins .conjunction k join := by
  unfold andOperator? at h
  split at h <;> cases h
  constructor

theorem joins_of_orOperator? (h : orOperator? k = some join) : Joins .disjunction k join := by
  unfold orOperator? at h
  split at h <;> cases h
  constructor

end

/-! ## Expressions -/

section

variable {expression : Reader Tree} (he : Reads expression (Derives .assignment))

include he

theorem binding_reads : Reads (binding expression) fun ts b => ∃ B : Grammar.Binding,
    ts = B.yield ∧ b = B.pair ∧ B.Marked ∧ Derives .assignment B.tokens B.init := by
  intro c b c' h
  obtain ⟨name, c₁, h₁, h₂⟩ := bind_eq_ok h
  obtain ⟨u, c₂, h₃, h₄⟩ := bind_eq_ok h₂
  obtain ⟨init, c₃, h₅, h₆⟩ := bind_eq_ok h₄
  obtain ⟨rfl, rfl⟩ := pure_eq_ok h₆
  obtain ⟨x, hx, hpx⟩ := identifier_ok h₁
  obtain ⟨eq, heq, hpe⟩ := discard_expect_ok h₃ (by simp)
  obtain ⟨us, hpu, hd⟩ := he h₅
  exact ⟨x :: eq :: us, hpx.append (hpe.append hpu), ⟨x, eq, us, name, init⟩, rfl, rfl, ⟨hx, heq⟩, hd⟩

omit he in
/-- A separated list of expressions is a first one with parts behind it. -/
theorem parts_of_separatedBy {separator : TokenKind} {ts : List Token} {args : List Tree}
    (h : SeparatedBy separator (Derives .assignment) ts args) :
    ∃ (us : List Token) (t : Tree) (rest : List Part), ts = us ++ yield rest ∧
      args = t :: rest.map Part.tree ∧ Derives .assignment us t ∧
      (∀ p ∈ rest, p.separator.kind = separator) ∧ ∀ p ∈ rest, Derives .assignment p.tokens p.tree := by
  induction h with
  | @one ts t hd => exact ⟨ts, t, [], by simp [yield], rfl, hd, by simp, by simp⟩
  | @more ts s us t args hd hs _ ih =>
    obtain ⟨us', t', rest, rfl, rfl, hd', hseps, hparts⟩ := ih
    refine ⟨ts, t, ⟨s, us', t'⟩ :: rest, by simp [yield], rfl, hd, ?_, ?_⟩
    · simpa using ⟨hs, hseps⟩
    · simpa using ⟨hd', hparts⟩

/-- An argument list with its closing parenthesis, behind a name and the opening one. -/
theorem arguments_ok {c c' : Cursor} {args : List Tree} {x left : Token} {name : String}
    (hx : x.kind = .identifier name) (hleft : left.kind = .symbol .leftParen)
    (h : arguments expression c = .ok args c') :
    ∃ ts, Passes c ts c' ∧ Derives .primary (x :: left :: ts) (.call name args) := by
  rw [arguments, peek_bind] at h
  split at h
  all_goals
    obtain ⟨as, c₁, h₁, h₂⟩ := bind_eq_ok h
    obtain ⟨u, c₂, h₃, h₄⟩ := bind_eq_ok h₂
    obtain ⟨rfl, rfl⟩ := pure_eq_ok h₄
    obtain ⟨right, hright, hp⟩ := discard_expect_ok h₃ (by simp)
  · obtain ⟨rfl, rfl⟩ := pure_eq_ok h₁
    exact ⟨[right], hp, .callEmpty hx hleft hright⟩
  · obtain ⟨ts, hpt, hs⟩ := separated_reads (by simp) he h₁
    obtain ⟨us, t, rest, rfl, rfl, hd, hseps, hparts⟩ := parts_of_separatedBy hs
    exact ⟨us ++ yield rest ++ [right], hpt.append hp, .call hx hleft hd hseps hparts hright⟩

/-- What stands behind a first statement: more statements, and maybe a last semicolon. -/
theorem statementsFrom_ok {n : Nat} {c c' : Cursor} {rest : List Tree}
    (h : statementsFrom expression n c = .ok rest c') :
    ∃ (parts : List Part) (tail : List Token), Passes c (yield parts ++ tail) c' ∧
      Optional (.symbol .semicolon) tail ∧ rest = parts.map Part.tree ∧
      (∀ p ∈ parts, p.separator.kind = .symbol .semicolon) ∧
      ∀ p ∈ parts, Derives .assignment p.tokens p.tree := by
  induction n generalizing c rest with
  | zero =>
    obtain ⟨rfl, rfl⟩ := pure_eq_ok h
    exact ⟨[], [], .nil _, .inl rfl, rfl, by simp, by simp⟩
  | succ n ih =>
    obtain ⟨b, c₁, h₁, h₂⟩ := bind_eq_ok h
    rcases accept_ok (by simp) h₁ with ⟨hb, s, hs, hp⟩ | ⟨hb, hc⟩
    · subst hb
      rw [if_pos rfl, peek_bind] at h₂
      split at h₂
      · obtain ⟨rfl, rfl⟩ := pure_eq_ok h₂
        exact ⟨[], [s], hp, .inr ⟨s, hs, rfl⟩, rfl, by simp, by simp⟩
      · obtain ⟨first, c₂, h₃, h₄⟩ := bind_eq_ok h₂
        obtain ⟨more, c₃, h₅, h₆⟩ := bind_eq_ok h₄
        obtain ⟨rfl, rfl⟩ := pure_eq_ok h₆
        obtain ⟨ts, hpt, hd⟩ := he h₃
        obtain ⟨parts, tail, hpu, htail, rfl, hseps, hparts⟩ := ih h₅
        refine ⟨⟨s, ts, first⟩ :: parts, tail, ?_, htail, rfl, ?_, ?_⟩
        · simpa [yield] using hp.append (hpt.append hpu)
        · simpa using ⟨hs, hseps⟩
        · simpa using ⟨hd, hparts⟩
    · subst hb hc
      obtain ⟨rfl, rfl⟩ := pure_eq_ok h₂
      exact ⟨[], [], .nil _, .inl rfl, rfl, by simp, by simp⟩

/-- A block behind its opening brace. -/
theorem statements_ok {c c' : Cursor} {t : Tree} {left : Token} (hleft : left.kind = .symbol .leftBrace)
    (h : statements expression c = .ok t c') : ∃ ts, Passes c ts c' ∧ Derives .primary (left :: ts) t := by
  obtain ⟨first, c₁, h₁, h₂⟩ := bind_eq_ok h
  rw [tokensLeft_bind] at h₂
  obtain ⟨rest, c₂, h₃, h₄⟩ := bind_eq_ok h₂
  obtain ⟨u, c₃, h₅, h₆⟩ := bind_eq_ok h₄
  obtain ⟨rfl, rfl⟩ := pure_eq_ok h₆
  obtain ⟨ts, hpt, hd⟩ := he h₁
  obtain ⟨parts, tail, hpu, htail, rfl, hseps, hparts⟩ := statementsFrom_ok he h₃
  obtain ⟨right, hright, hpr⟩ := discard_expect_ok h₅ (by simp)
  refine ⟨ts ++ yield parts ++ tail ++ [right], ?_, .braces hleft hd hseps hparts htail hright⟩
  simpa using hpt.append (hpu.append hpr)

/-- A conditional behind its `if`. -/
theorem conditional_ok {c c' : Cursor} {t : Tree} {if_ : Token} (hif : if_.kind = .keyword .ifKw)
    (h : conditional expression c = .ok t c') : ∃ ts, Passes c ts c' ∧ Derives .primary (if_ :: ts) t := by
  obtain ⟨cond, c₁, h₁, h₂⟩ := bind_eq_ok h
  obtain ⟨u₁, c₂, h₃, h₄⟩ := bind_eq_ok h₂
  obtain ⟨thenArm, c₃, h₅, h₆⟩ := bind_eq_ok h₄
  obtain ⟨u₂, c₄, h₇, h₈⟩ := bind_eq_ok h₆
  obtain ⟨elseArm, c₅, h₉, h₁₀⟩ := bind_eq_ok h₈
  obtain ⟨rfl, rfl⟩ := pure_eq_ok h₁₀
  obtain ⟨cs, hpc, hcond⟩ := he h₁
  obtain ⟨then_, hthen, hp₁⟩ := discard_expect_ok h₃ (by simp)
  obtain ⟨ts, hpt, hthenArm⟩ := he h₅
  obtain ⟨else_, helse, hp₂⟩ := discard_expect_ok h₇ (by simp)
  obtain ⟨es, hpe, helseArm⟩ := he h₉
  refine ⟨cs ++ then_ :: ts ++ else_ :: es, ?_, .conditional hif hcond hthen hthenArm helse helseArm⟩
  simpa using hpc.append (hp₁.append (hpt.append (hp₂.append hpe)))

omit he in
/-- A separated list of bindings is a first one with others behind commas. -/
theorem bindings_of_separatedBy {ts : List Token} {bindings : List (String × Tree)}
    (h : SeparatedBy (.symbol .comma) (fun ts b => ∃ B : Grammar.Binding,
      ts = B.yield ∧ b = B.pair ∧ B.Marked ∧ Derives .assignment B.tokens B.init) ts bindings) :
    ∃ (B : Grammar.Binding) (rest : List (Token × Grammar.Binding)), ts = B.yield ++ bindingsYield rest ∧
      bindings = B.pair :: rest.map (·.2.pair) ∧ B.Marked ∧ Derives .assignment B.tokens B.init ∧
      (∀ p ∈ rest, p.1.kind = .symbol .comma ∧ p.2.Marked) ∧
      ∀ p ∈ rest, Derives .assignment p.2.tokens p.2.init := by
  induction h with
  | one hb =>
    obtain ⟨B, rfl, rfl, hm, hd⟩ := hb
    exact ⟨B, [], by simp [bindingsYield], rfl, hm, hd, by simp, by simp⟩
  | @more ts s us b bindings hb hs _ ih =>
    obtain ⟨B, rfl, rfl, hm, hd⟩ := hb
    obtain ⟨B', rest, rfl, rfl, hm', hd', hmarks, hds⟩ := ih
    refine ⟨B, (s, B') :: rest, by simp [bindingsYield], rfl, hm, hd, ?_, ?_⟩
    · intro p hp
      rcases List.mem_cons.mp hp with rfl | hp
      · exact ⟨hs, hm'⟩
      · exact hmarks p hp
    · intro p hp
      rcases List.mem_cons.mp hp with rfl | hp
      · exact hd'
      · exact hds p hp

/-- Bindings with their body, behind the `var`. -/
theorem block_ok {c c' : Cursor} {t : Tree} {var_ : Token} (hvar : var_.kind = .keyword .varKw)
    (h : block expression c = .ok t c') : ∃ ts, Passes c ts c' ∧ Derives .primary (var_ :: ts) t := by
  obtain ⟨bindings, c₁, h₁, h₂⟩ := bind_eq_ok h
  obtain ⟨u, c₂, h₃, h₄⟩ := bind_eq_ok h₂
  obtain ⟨body, c₃, h₅, h₆⟩ := bind_eq_ok h₄
  obtain ⟨rfl, rfl⟩ := pure_eq_ok h₆
  obtain ⟨bs, hpb, hb⟩ := separated_reads (by simp) (binding_reads he) h₁
  obtain ⟨B, rest, rfl, rfl, hm, hd, hmarks, hds⟩ := bindings_of_separatedBy hb
  obtain ⟨in_, hin, hpi⟩ := discard_expect_ok h₃ (by simp)
  obtain ⟨ts, hpt, hbody⟩ := he h₅
  refine ⟨B.yield ++ bindingsYield rest ++ in_ :: ts, ?_, .block hvar hm hd hmarks hds hin hbody⟩
  simpa using hpb.append (hpi.append hpt)

/-- A loop behind its `for`. -/
theorem forLoop_ok {c c' : Cursor} {t : Tree} {for_ : Token} (hfor : for_.kind = .keyword .forKw)
    (h : forLoop expression c = .ok t c') : ∃ ts, Passes c ts c' ∧ Derives .primary (for_ :: ts) t := by
  obtain ⟨header, c₁, h₁, h₂⟩ := bind_eq_ok h
  obtain ⟨u₁, c₂, h₃, h₄⟩ := bind_eq_ok h₂
  obtain ⟨cond, c₃, h₅, h₆⟩ := bind_eq_ok h₄
  obtain ⟨u₂, c₄, h₇, h₈⟩ := bind_eq_ok h₆
  obtain ⟨step, c₅, h₉, h₁₀⟩ := bind_eq_ok h₈
  obtain ⟨u₃, c₆, h₁₁, h₁₂⟩ := bind_eq_ok h₁₀
  obtain ⟨body, c₇, h₁₃, h₁₄⟩ := bind_eq_ok h₁₂
  obtain ⟨rfl, rfl⟩ := pure_eq_ok h₁₄
  obtain ⟨comma₁, hcomma₁, hp₁⟩ := discard_expect_ok h₃ (by simp)
  obtain ⟨cs, hpc, hcond⟩ := he h₅
  obtain ⟨comma₂, hcomma₂, hp₂⟩ := discard_expect_ok h₇ (by simp)
  obtain ⟨ss, hps, hstep⟩ := he h₉
  obtain ⟨in_, hin, hp₃⟩ := discard_expect_ok h₁₁ (by simp)
  obtain ⟨ts, hpt, hbody⟩ := he h₁₃
  have hp := hp₁.append (hpc.append (hp₂.append (hps.append (hp₃.append hpt))))
  obtain ⟨fresh, c₈, h₁₅, h₁₆⟩ := bind_eq_ok h₁
  obtain ⟨⟨name, init⟩, c₉, h₁₇, h₁₈⟩ := bind_eq_ok h₁₆
  obtain ⟨rfl, rfl⟩ := pure_eq_ok h₁₈
  obtain ⟨bs, hpb, B, rfl, hpair, hm, hd⟩ := binding_reads he h₁₇
  cases hpair
  rcases accept_ok (by simp) h₁₅ with ⟨rfl, var_, hvar, hpv⟩ | ⟨rfl, rfl⟩
  · refine ⟨var_ :: B.yield ++ comma₁ :: cs ++ comma₂ :: ss ++ in_ :: ts, ?_,
      .forVar hfor hvar hm hd hcomma₁ hcond hcomma₂ hstep hin hbody⟩
    simpa using hpv.append (hpb.append hp)
  · refine ⟨B.yield ++ comma₁ :: cs ++ comma₂ :: ss ++ in_ :: ts, ?_,
      .forSet hfor hm hd hcomma₁ hcond hcomma₂ hstep hin hbody⟩
    simpa using hpb.append hp

/-- A name that was taken already, with what belongs to it. -/
theorem reference_ok {c c' : Cursor} {x : Token} {name : String} {t : Tree} (hx : x.kind = .identifier name)
    (h : reference expression name c = .ok t c') : ∃ ts, Passes c ts c' ∧ Derives .primary (x :: ts) t := by
  obtain ⟨b, c₁, h₁, h₂⟩ := bind_eq_ok h
  rcases accept_ok (by simp) h₁ with ⟨hb, left, hleft, hp⟩ | ⟨hb, hc⟩
  · subst hb
    obtain ⟨args, c₂, h₃, h₄⟩ := bind_eq_ok h₂
    obtain ⟨rfl, rfl⟩ := pure_eq_ok h₄
    obtain ⟨ts, hpa, hd⟩ := arguments_ok he hx hleft h₃
    exact ⟨left :: ts, hp.append hpa, hd⟩
  · subst hb hc
    obtain ⟨rfl, rfl⟩ := pure_eq_ok h₂
    exact ⟨[], .nil _, .var hx⟩

/-- An expression with its closing parenthesis, behind the opening one. -/
theorem parenthesized_ok {c c' : Cursor} {t : Tree} {left : Token} (hleft : left.kind = .symbol .leftParen)
    (h : parenthesized expression c = .ok t c') : ∃ ts, Passes c ts c' ∧ Derives .primary (left :: ts) t := by
  obtain ⟨inner, c₁, h₁, h₂⟩ := bind_eq_ok h
  obtain ⟨u, c₂, h₃, h₄⟩ := bind_eq_ok h₂
  obtain ⟨rfl, rfl⟩ := pure_eq_ok h₄
  obtain ⟨ts, hpt, hd⟩ := he h₁
  obtain ⟨right, hright, hpr⟩ := discard_expect_ok h₃ (by simp)
  exact ⟨ts ++ [right], hpt.append hpr, .parens hleft hd hright⟩

omit he in
/-- A token that is taken, and what a reader takes behind it. -/
theorem reads_behind {c c' : Cursor} {k : TokenKind} {t : Tree} {r : Reader Tree} (hc : c.kind = k)
    (hk : k ≠ .endOfFile) (h : (do discard take; r) c = .ok t c')
    (hr : ∀ {x : Token} {c₁ : Cursor}, x.kind = k → r c₁ = .ok t c' →
      ∃ ts, Passes c₁ ts c' ∧ Derives .primary (x :: ts) t) :
    ∃ ts, Passes c ts c' ∧ Derives .primary ts t := by
  obtain ⟨u, c₁, h₁, h₂⟩ := bind_eq_ok h
  obtain ⟨x, hx, hp⟩ := discard_take_ok h₁ hc hk
  obtain ⟨ts, hpt, hd⟩ := hr hx h₂
  exact ⟨x :: ts, hp.append hpt, hd⟩

theorem primary_reads : Reads (primary expression) (Derives .primary) := by
  intro c t c' h
  rw [primary, peek_bind] at h
  cases hc : c.kind with
  | number value =>
    rw [hc] at h
    refine reads_behind hc (by simp) h fun hx h => ?_
    obtain ⟨rfl, rfl⟩ := pure_eq_ok h
    exact ⟨[], .nil _, .number hx⟩
  | identifier name =>
    rw [hc] at h
    exact reads_behind hc (by simp) h (reference_ok he)
  | symbol s =>
    rw [hc] at h
    cases s with
    | leftParen => exact reads_behind hc (by simp) h (parenthesized_ok he)
    | leftBrace => exact reads_behind hc (by simp) h (statements_ok he)
    | _ => cases h
  | keyword k =>
    rw [hc] at h
    cases k with
    | ifKw => exact reads_behind hc (by simp) h (conditional_ok he)
    | varKw => exact reads_behind hc (by simp) h (block_ok he)
    | forKw => exact reads_behind hc (by simp) h (forLoop_ok he)
    | _ => cases h
  | endOfFile => rw [hc] at h; cases h

/-- The levels between a primary and an assignment. -/
theorem disjunction_reads : Reads (disjunction expression) (Derives .disjunction) := by
  have hneg : Reads (negation expression) (Derives .negation) := repeated_reads rfl .neg (primary_reads he)
  have hmul : Reads (product expression) (Derives .product) :=
    chained_reads rfl (fun _ _ => joins_of_productOperator?) hneg
  have hadd : Reads (sum expression) (Derives .sum) := chained_reads rfl (fun _ _ => joins_of_sumOperator?) hmul
  have hcmp : Reads (comparison expression) (Derives .comparison) :=
    chained_reads rfl (fun _ _ => joins_of_comparisonOperator?) hadd
  have hnot : Reads (inversion expression) (Derives .inversion) := repeated_reads rfl .not hcmp
  have hand : Reads (conjunction expression) (Derives .conjunction) :=
    chained_reads rfl (fun _ _ => joins_of_andOperator?) hnot
  exact chained_reads rfl (fun _ _ => joins_of_orOperator?) hand

theorem assignment_reads : Reads (assignment expression) (Derives .assignment) := by
  intro c t c' h
  obtain ⟨b, c₁, h₁, h₂⟩ := bind_eq_ok h
  rcases accept_ok (by simp) h₁ with ⟨hb, op, hop, hp⟩ | ⟨hb, hc⟩
  · subst hb
    obtain ⟨name, c₂, h₃, h₄⟩ := bind_eq_ok h₂
    obtain ⟨rfl, rfl⟩ := pure_eq_ok h₄
    obtain ⟨x, hx, hpx⟩ := identifier_ok h₃
    exact ⟨[op, x], hp.append hpx, .increment hop hx⟩
  · subst hb hc
    obtain ⟨target, c₂, h₃, h₄⟩ := bind_eq_ok h₂
    unfold target? at h₃
    split at h₃
    · next name sx se rest hrest =>
      cases h₃
      obtain ⟨u₁, c₃, h₅, h₆⟩ := bind_eq_ok h₄
      obtain ⟨u₂, c₄, h₇, h₈⟩ := bind_eq_ok h₆
      obtain ⟨value, c₅, h₉, h₁₀⟩ := bind_eq_ok h₈
      obtain ⟨rfl, rfl⟩ := pure_eq_ok h₁₀
      obtain ⟨x, hx, hpx⟩ := discard_take_ok h₅ (kind_of_cons hrest) (by simp)
      have hrest₃ : c₃.rest = ⟨.symbol .equal, se⟩ :: rest := by
        have := hpx.rest_eq
        rw [hrest] at this
        exact (List.cons.inj this).2.symm
      obtain ⟨eq, heq, hpe⟩ := discard_take_ok h₇ (kind_of_cons hrest₃) (by simp)
      obtain ⟨us, hpu, hd⟩ := he h₉
      exact ⟨x :: eq :: us, hpx.append (hpe.append hpu), .assign (b := ⟨x, eq, us, name, value⟩) ⟨hx, heq⟩ hd⟩
    · cases h₃
      obtain ⟨ts, hpt, hd⟩ := disjunction_reads he h₄
      exact ⟨ts, hpt, .descend rfl hd⟩

end

theorem expressionTo_reads (depth : Nat) : Reads (expressionTo depth) (Derives .assignment) := by
  induction depth with
  | zero => intro c t c' h; cases h
  | succ depth ih => exact assignment_reads ih

/-! ## Declarations -/

theorem names_of_separatedBy {ts : List Token} {names : List String}
    (h : SeparatedBy (.symbol .comma) (fun ts name => ∃ x : Token, ts = [x] ∧ x.kind = .identifier name)
      ts names) : ts ≠ [] ∧ Grammar.Names ts names := by
  induction h with
  | one hx =>
    obtain ⟨x, rfl, hx⟩ := hx
    exact ⟨by simp, .one hx⟩
  | @more ts s us name names hx hs _ ih =>
    obtain ⟨x, rfl, hx⟩ := hx
    cases us with
    | nil => exact absurd rfl ih.1
    | cons y us => exact ⟨by simp, .more hx hs ih.2⟩

theorem identifier_reads (m : String) :
    Reads (identifier m) fun ts name => ∃ x : Token, ts = [x] ∧ x.kind = .identifier name := by
  intro c name c' h
  obtain ⟨x, hx, hp⟩ := identifier_ok h
  exact ⟨[x], hp, x, rfl, hx⟩

theorem prototype_reads : Reads prototype Signature := by
  intro c proto c' h
  obtain ⟨start, c₀, h₀, h'⟩ := bind_eq_ok h
  cases h₀
  obtain ⟨name, c₁, h₁, h₂⟩ := bind_eq_ok h'
  obtain ⟨u, c₂, h₃, h₄⟩ := bind_eq_ok h₂
  rw [peek_bind] at h₄
  obtain ⟨x, hx, hpx⟩ := identifier_ok h₁
  obtain ⟨open_, hopen, hpo⟩ := discard_expect_ok h₃ (by simp)
  -- The closing parenthesis ends the prototype, whatever the parameters are.
  have close : ∀ {params ps c₃ stop c₄}, Passes c₂ ps c₃ → Grammar.Names ps params →
      expect (.symbol .rightParen) "expected `)` after parameters" c₃ = .ok stop c₄ →
      ∃ ts, Passes c ts c₄ ∧ Signature ts ⟨name, params, c.span.cover stop⟩ := by
    intro params ps c₃ stop c₄ hps hnames hstop
    obtain ⟨close, hclose, hpc, rfl⟩ := expect_ok (by simp) hstop
    have hp : Passes c (x :: open_ :: ps ++ [close]) c₄ := hpx.append (hpo.append (hps.append hpc))
    refine ⟨x :: open_ :: ps ++ [close], hp, ?_⟩
    have hlast : c₄.last = close.span := hpc.last_eq (by simp)
    rw [← hlast, ← hp.cover_eq (by simp)]
    exact .mk hx hopen hnames hclose
  split at h₄
  all_goals
    obtain ⟨params, c₃, h₅, h₆⟩ := bind_eq_ok h₄
    obtain ⟨stop, c₄, h₇, h₈⟩ := bind_eq_ok h₆
    obtain ⟨rfl, rfl⟩ := pure_eq_ok h₈
  · obtain ⟨rfl, rfl⟩ := pure_eq_ok h₅
    exact close (.nil _) .none h₇
  · obtain ⟨ps, hps, hnames⟩ := separated_reads (by simp) (identifier_reads _) h₅
    exact close hps (names_of_separatedBy hnames).2 h₇

theorem item_reads : Reads item Item := by
  intro c t c' h
  rw [item, peek_bind] at h
  cases hc : c.kind with
  | keyword k =>
    rw [hc] at h
    cases k with
    | defKw =>
      obtain ⟨start, c₁, h₁, h₂⟩ := bind_eq_ok h
      obtain ⟨proto, c₂, h₃, h₄⟩ := bind_eq_ok h₂
      obtain ⟨u, c₃, h₅, h₆⟩ := bind_eq_ok h₄
      rw [wholeExpression, bind_assoc, tokensLeft_bind] at h₆
      obtain ⟨body, c₄, h₇, h₈⟩ := bind_eq_ok h₆
      cases h₈
      obtain ⟨kw, hkw, hpk, rfl⟩ := take_ok h₁ hc (by simp)
      obtain ⟨ps, hpp, hproto⟩ := prototype_reads h₃
      obtain ⟨b, hb⟩ := discard_eq_ok h₅
      obtain ⟨ts, hpt, hbody⟩ := expressionTo_reads _ h₇
      obtain ⟨colon, hpc, hcolon⟩ : ∃ colon, Passes c₂ colon c₃ ∧ Optional (.symbol .colon) colon := by
        rcases accept_ok (by simp) hb with ⟨-, x, hx, hp⟩ | ⟨-, rfl⟩
        · exact ⟨[x], hp, .inr ⟨x, hx, rfl⟩⟩
        · exact ⟨[], .nil _, .inl rfl⟩
      have hp : Passes c (kw :: ps ++ colon ++ ts) c' := by
        simpa using hpk.append (hpp.append (hpc.append hpt))
      refine ⟨_, hp, ?_⟩
      rw [← span_of_cons hpk.rest_eq, ← hp.cover_eq (by simp)]
      exact .definition hkw hproto hcolon hbody
    | externKw =>
      obtain ⟨u, c₁, h₁, h₂⟩ := bind_eq_ok h
      obtain ⟨proto, c₂, h₃, h₄⟩ := bind_eq_ok h₂
      obtain ⟨rfl, rfl⟩ := pure_eq_ok h₄
      obtain ⟨kw, hkw, hpk⟩ := discard_take_ok h₁ hc (by simp)
      obtain ⟨ps, hpp, hproto⟩ := prototype_reads h₃
      exact ⟨kw :: ps, hpk.append hpp, .prototype hkw hproto⟩
    | globalKw =>
      obtain ⟨start, c₁, h₁, h₂⟩ := bind_eq_ok h
      obtain ⟨name, c₂, h₃, h₄⟩ := bind_eq_ok h₂
      cases h₄
      obtain ⟨kw, hkw, hpk, rfl⟩ := take_ok h₁ hc (by simp)
      obtain ⟨x, hx, hpx⟩ := identifier_ok h₃
      have hp : Passes c [kw, x] c' := hpk.append hpx
      refine ⟨_, hp, ?_⟩
      rw [← span_of_cons hpk.rest_eq, ← hp.cover_eq (by simp)]
      exact .global hkw hx
    | _ => cases h
  | _ => rw [hc] at h; cases h

end Reader

end Monofloat
