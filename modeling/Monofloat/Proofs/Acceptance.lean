import Monofloat.Proofs.Greedy
import Monofloat.Proofs.Reading

/-!
# When the readers succeed

`Takes r ts a rest` says that the reader `r` takes exactly `ts` off `ts ++ rest` and gives `a`. The reader of a
level takes what the level derives greedily, if the token behind it does not continue it. For the levels with
operators the induction needs more: after a left operand the reader goes on with its loop (`Resumes`), which
may take more operators of the level.
-/

namespace Monofloat

open Grammar

/-- The kind of the first token; at the end, that of the end of the file. -/
def headKind : List Token → TokenKind
  | [] => .endOfFile
  | t :: _ => t.kind

theorem Cursor.kind_eq (c : Cursor) : c.kind = headKind c.rest := by
  unfold Cursor.kind headKind
  cases c.rest <;> rfl

namespace Reader

open Cursor

/-- On `ts ++ rest` the reader takes `ts` and gives `a`. -/
def Takes {α : Type} (r : Reader α) (ts : List Token) (a : α) (rest : List Token) : Prop :=
  ∀ c : Cursor, c.rest = ts ++ rest → ∃ c', r c = .ok a c' ∧ c'.rest = rest

namespace Takes

variable {α β : Type} {ts u rest : List Token} {a : α} {b : β}

theorem pure (a : α) (rest : List Token) : Takes (pure a) [] a rest := fun c hc => ⟨c, rfl, hc⟩

theorem bind {r : Reader α} {f : α → Reader β} (h₁ : Takes r ts a (u ++ rest)) (h₂ : Takes (f a) u b rest) :
    Takes (r >>= f) (ts ++ u) b rest := by
  intro c hc
  obtain ⟨c₁, hr, hc₁⟩ := h₁ c (by rw [hc, List.append_assoc])
  obtain ⟨c₂, hf, hc₂⟩ := h₂ c₁ hc₁
  exact ⟨c₂, by rw [bind_of_ok hr, hf], hc₂⟩

/-- The first reader takes one token. -/
theorem bind_cons {r : Reader α} {f : α → Reader β} {t : Token} (h₁ : Takes r [t] a (u ++ rest))
    (h₂ : Takes (f a) u b rest) : Takes (r >>= f) (t :: u) b rest := h₁.bind h₂

/-- The first reader takes nothing. -/
theorem bind_nil {r : Reader α} {f : α → Reader β} (h₁ : Takes r [] a (u ++ rest))
    (h₂ : Takes (f a) u b rest) : Takes (r >>= f) u b rest := h₁.bind h₂

/-- The last reader takes nothing. -/
theorem bind_pure {r : Reader α} {f : α → Reader β} (h₁ : Takes r ts a rest)
    (h₂ : Takes (f a) [] b rest) : Takes (r >>= f) ts b rest := by
  simpa using Takes.bind (u := []) h₁ h₂

theorem peek (rest : List Token) : Takes peek [] (headKind rest) rest := by
  intro c hc
  exact ⟨c, by rw [Reader.peek, c.kind_eq, hc, List.nil_append], hc⟩

theorem tokensLeft (rest : List Token) : Takes tokensLeft [] rest.length rest := by
  intro c hc
  exact ⟨c, by rw [Reader.tokensLeft, hc, List.nil_append], hc⟩

theorem take (t : Token) (rest : List Token) : Takes take [t] t.span rest := by
  intro c hc
  exact ⟨c.advance, by rw [Reader.take, span_of_cons hc], by rw [advance_of_cons hc]; rfl⟩

theorem discard {r : Reader α} (h : Takes r ts a rest) : Takes (discard r) ts () rest := by
  intro c hc
  obtain ⟨c', hr, hc'⟩ := h c hc
  exact ⟨c', discard_of_ok hr, hc'⟩

theorem expect {t : Token} {k : TokenKind} (m : String) (h : t.kind = k) (rest : List Token) :
    Takes (expect k m) [t] t.span rest := by
  refine bind_nil (peek ([t] ++ rest)) ?_
  rw [if_pos (show headKind ([t] ++ rest) = k from h)]
  exact take t rest

theorem accept {t : Token} {k : TokenKind} (h : t.kind = k) (rest : List Token) :
    Takes (accept k) [t] true rest := by
  intro c hc
  refine ⟨c.advance, ?_, ?_⟩
  · rw [Reader.accept, if_pos ((kind_of_cons hc).trans h)]
  · rw [advance_of_cons hc]; rfl

theorem reject {k : TokenKind} (h : headKind rest ≠ k) : Takes (Reader.accept k) [] false rest := by
  intro c hc
  have hk : c.kind ≠ k := by rw [c.kind_eq, hc, List.nil_append]; exact h
  exact ⟨c, by rw [Reader.accept, if_neg hk], hc⟩

theorem identifier {t : Token} {name : String} (m : String) (h : t.kind = .identifier name)
    (rest : List Token) : Takes (identifier m) [t] name rest := by
  refine bind_nil (peek ([t] ++ rest)) ?_
  rw [show headKind ([t] ++ rest) = .identifier name from h]
  exact (take t rest).discard.bind_pure (pure name rest)

end Takes

/-! ## Repetition -/

/-- Where every part has a token there are no more parts than tokens. -/
theorem length_le_flatMap {α : Type} {f : α → List Token} (hf : ∀ a, 0 < (f a).length) (parts : List α) :
    parts.length ≤ (parts.flatMap f).length := by
  induction parts with
  | nil => exact Nat.le_refl _
  | cons p parts ih =>
    have := hf p
    simp only [List.flatMap_cons, List.length_append, List.length_cons]
    omega

/-- Items behind separators are taken one after another, up to a token that is no separator. The second
component of a part is its tokens, the third its value. -/
theorem takes_separatedFrom {α : Type} {separator stop : TokenKind} (hne : stop ≠ separator) {item : Reader α}
    {parts : List (Token × List Token × α)} {rest : List Token} (hstop : headKind rest = stop)
    (hs : ∀ p ∈ parts, p.1.kind = separator)
    (hi : ∀ p ∈ parts, ∀ rest, headKind rest = separator ∨ headKind rest = stop → Takes item p.2.1 p.2.2 rest)
    {n : Nat} (hn : parts.length ≤ n) :
    Takes (separatedFrom separator item n) (parts.flatMap fun p => p.1 :: p.2.1) (parts.map (·.2.2)) rest := by
  induction parts generalizing n with
  | nil =>
    cases n with
    | zero => exact .pure [] rest
    | succ n =>
      have hreject : Takes (accept separator) [] false rest := .reject fun h => hne (hstop.symm.trans h)
      exact hreject.bind_nil (u := []) (.pure [] rest)
  | cons p parts ih =>
    rw [List.forall_mem_cons] at hs hi
    obtain ⟨n, rfl⟩ : ∃ m, n = m + 1 := ⟨n - 1, by simp only [List.length_cons] at hn; omega⟩
    simp only [List.flatMap_cons, List.cons_append]
    refine (Takes.accept hs.1 _).bind_cons ?_
    have hhead : headKind ((parts.flatMap fun p => p.1 :: p.2.1) ++ rest) = separator ∨
        headKind ((parts.flatMap fun p => p.1 :: p.2.1) ++ rest) = stop := by
      cases parts with
      | nil => exact .inr hstop
      | cons q parts => exact .inl (hs.2 q List.mem_cons_self)
    refine (hi.1 _ hhead).bind ?_
    exact (ih hs.2 hi.2 (by simp only [List.length_cons] at hn; omega)).bind_pure (.pure _ rest)

section

variable {kind : TokenKind} {wrap : Tree → Tree} {operand : Reader Tree}

/-- Behind an operator that stands before its operand, the reader starts anew. -/
theorem repeated_of_cons {c : Cursor} {t : Token} {rest : List Token} (hc : c.rest = t :: rest)
    (ht : t.kind = kind) :
    repeated kind wrap operand c = (do return wrap (← repeated kind wrap operand)) c.advance := by
  have hlen : c.rest.length = c.advance.rest.length + 1 := by rw [advance_of_cons hc, hc]; rfl
  have haccept : accept kind c = .ok true c.advance := by
    rw [accept, if_pos ((kind_of_cons hc).trans ht)]
  rw [repeated, tokensLeft_bind, hlen, repeatedFrom, bind_of_ok haccept, if_pos rfl, bind_assoc,
    tokensLeft_bind]

theorem repeated_of_ne {c : Cursor} (hc : c.kind ≠ kind) : repeated kind wrap operand c = operand c := by
  rw [repeated, tokensLeft_bind]
  cases c.rest.length with
  | zero => rfl
  | succ n =>
    have haccept : accept kind c = .ok false c := by rw [accept, if_neg hc]
    rw [repeatedFrom, bind_of_ok haccept]
    rfl

end

theorem chainedFrom_of_none {operand : Reader Tree} {join : TokenKind → Option (Tree → Tree → Tree)} {n : Nat}
    {t : Tree} {c : Cursor} (h : join c.kind = none) : chainedFrom operand join n t c = .ok t c := by
  cases n with
  | zero => rfl
  | succ n => rw [chainedFrom, peek_bind, h]; rfl

/-! ## Levels -/

/-- The reader of a level. -/
def ofLevel (expression : Reader Tree) : Level → Reader Tree
  | .assignment => assignment expression
  | .disjunction => disjunction expression
  | .conjunction => conjunction expression
  | .inversion => inversion expression
  | .comparison => comparison expression
  | .sum => sum expression
  | .product => product expression
  | .negation => negation expression
  | .primary => primary expression

/-- The operators between operands of the next level. -/
def operator? : Level → TokenKind → Option (Tree → Tree → Tree)
  | .disjunction => orOperator?
  | .conjunction => andOperator?
  | .comparison => comparisonOperator?
  | .sum => sumOperator?
  | .product => productOperator?
  | _ => fun _ => none

theorem operator?_of_joins {L : Level} {k : TokenKind} {join : Tree → Tree → Tree} (h : Joins L k join) :
    operator? L k = some join := by
  cases h <;> rfl

theorem operator?_eq_none {L : Level} {k : TokenKind} (h : ∀ join, ¬Joins L k join) : operator? L k = none := by
  rcases hop : operator? L k with _ | op
  · rfl
  · refine absurd ?_ (h op)
    cases L <;> simp only [operator?, reduceCtorEq] at hop
    · exact joins_of_orOperator? hop
    · exact joins_of_andOperator? hop
    · exact joins_of_comparisonOperator? hop
    · exact joins_of_sumOperator? hop
    · exact joins_of_productOperator? hop

/-- After `ts`, with `t` as its left operand, the reader of the level is in its loop in front of `rest`. -/
def Resumes (expression : Reader Tree) (L : Level) (ts : List Token) (t : Tree) (rest : List Token) : Prop :=
  ∀ c : Cursor, c.rest = ts ++ rest → ∃ operand c' n, ofLevel expression L c =
    chainedFrom operand (operator? L) n t c' ∧ c'.rest = rest ∧ rest.length ≤ n ∧
    ∀ L', L.next = some L' → operand = ofLevel expression L'

/-- A token behind an expression of a level that does not belong to its last operand. With `e` the expression
may take up any operator. -/
structure Follows (L : Level) (e : Bool) (k : TokenKind) : Prop where
  notParen : k ≠ .symbol .leftParen
  notSign : k ≠ .symbol .equal
  looser : ∀ M join, Joins M k join → e = false ∧ (L = .assignment ∨ M.rank ≤ L.rank)

namespace Follows

variable {L : Level} {e : Bool} {k : TokenKind}

/-- Punctuation and keywords that are no operators follow every expression. -/
theorem of_not_joins (h₁ : k ≠ .symbol .leftParen) (h₂ : k ≠ .symbol .equal) (h : ∀ M join, ¬Joins M k join) :
    Follows L e k := ⟨h₁, h₂, fun M join hj => absurd hj (h M join)⟩

theorem next {L' : Level} (h : Follows L e k) (hL : L ≠ .assignment) (hn : L.next = some L') :
    Follows L' e k := by
  refine ⟨h.notParen, h.notSign, fun M join hj => ?_⟩
  obtain ⟨he, hr⟩ := h.looser M join hj
  refine ⟨he, .inr ?_⟩
  have := Level.rank_next hn
  have := hr.resolve_left hL
  omega

/-- The operators of a level are looser than the operands. -/
theorem not_joins_next {L' : Level} (h : Follows L e k) (hL : L ≠ .assignment) (hn : L.next = some L')
    (join : Tree → Tree → Tree) : ¬Joins L' k join := by
  intro hj
  have := (h.looser L' join hj).2.resolve_left hL
  have := Level.rank_next hn
  omega

theorem of_joins {join : Tree → Tree → Tree} (h : Joins L k join) : Follows L false k := by
  cases h <;>
    exact ⟨by simp, by simp, by rintro M join ⟨⟩; exact ⟨rfl, .inr (Nat.le_refl _)⟩⟩

theorem assignment (h : Follows L e k) : Follows .assignment e k :=
  ⟨h.notParen, h.notSign, fun M join hj => ⟨(h.looser M join hj).1, .inl rfl⟩⟩

end Follows

theorem takes_of_resumes {expression : Reader Tree} {L : Level} {ts rest : List Token} {t : Tree}
    (h : Resumes expression L ts t rest) (hj : ∀ join, ¬Joins L (headKind rest) join) :
    Takes (ofLevel expression L) ts t rest := by
  intro c hc
  obtain ⟨operand, c', n, heq, hrest, -, -⟩ := h c hc
  refine ⟨c', ?_, hrest⟩
  rw [heq]
  exact chainedFrom_of_none (by rw [c'.kind_eq, hrest]; exact operator?_eq_none hj)

/-- A level without operators has nothing to go on with. -/
theorem resumes_of_takes {expression : Reader Tree} {L : Level} {ts rest : List Token} {t : Tree}
    (h : Takes (ofLevel expression L) ts t rest) (hL : ∀ k join, ¬Joins L k join) :
    Resumes expression L ts t rest := by
  intro c hc
  obtain ⟨c', hr, hrest⟩ := h c hc
  let operand : Reader Tree := match L.next with
    | some L' => ofLevel expression L'
    | none => expression
  refine ⟨operand, c', rest.length, ?_, hrest, Nat.le_refl _, fun L' hn => by simp only [operand, hn]⟩
  rw [hr, chainedFrom_of_none (operator?_eq_none (hL _))]

/-! ## First tokens -/

end Reader

namespace Grammar

/-- What an expression that is no assignment may start with. -/
theorem Greedy.head {L : Level} {e : Bool} {ts : List Token} {t : Tree} (h : Greedy L e ts t)
    (hL : L ≠ .assignment) : ∃ x us, ts = x :: us ∧ x.kind ≠ .symbol .plusPlus ∧
      (x.kind = .keyword .notKw → L.rank ≤ 3) ∧ (x.kind = .symbol .minus → L.rank ≤ 7) := by
  induction h with
  | @descend L L' e ts t hL hn h ih =>
    obtain ⟨x, us, rfl, h₁, h₂, h₃⟩ := ih (next_ne_assignment hn)
    have := Level.rank_next hn
    exact ⟨x, us, rfl, h₁, fun hx => by have := h₂ hx; omega, fun hx => by have := h₃ hx; omega⟩
  | @joined L L' join e ts op us l r hn hj hl hr ihl _ =>
    obtain ⟨x, vs, rfl, h⟩ := ihl hL
    exact ⟨x, vs ++ op :: us, rfl, h⟩
  | @wrapped L wrap e op ts t hw h ih =>
    refine ⟨op, ts, rfl, ?_⟩
    generalize op.kind = k at hw
    cases hw <;> simp [Level.rank]
  | expression | assign | increment => exact absurd rfl hL
  | number hx | var hx | callEmpty hx | call hx | parens hx | braces hx | conditional hx | block hx
  | forVar hx | forSet hx => exact ⟨_, _, rfl, by simp [hx]⟩

/-- No expression starts with a closing bracket or a colon. -/
theorem Greedy.headKind_ne {L : Level} {e : Bool} {ts : List Token} {t : Tree} (h : Greedy L e ts t)
    (rest : List Token) : headKind (ts ++ rest) ≠ .symbol .rightParen ∧
      headKind (ts ++ rest) ≠ .symbol .rightBrace ∧ headKind (ts ++ rest) ≠ .symbol .colon := by
  induction h generalizing rest with
  | descend _ _ _ ih | expression _ ih => exact ih rest
  | joined _ _ _ _ ihl => rw [List.append_assoc]; exact ihl _
  | @wrapped L wrap e op ts t hw h ih =>
    show op.kind ≠ _ ∧ op.kind ≠ _ ∧ op.kind ≠ _
    generalize op.kind = k at hw
    cases hw <;> simp
  | assign hb => simp [Binding.yield, headKind, hb.1]
  | increment hx | number hx | var hx | callEmpty hx | call hx | parens hx | braces hx | conditional hx
  | block hx | forVar hx | forSet hx => simp [headKind, hx]

/-- An identifier with a sign of equality behind it. -/
def StartsAssignment (ts : List Token) : Prop :=
  ∃ x y us name, ts = x :: y :: us ∧ x.kind = .identifier name ∧ y.kind = .symbol .equal

theorem not_startsAssignment_of_head {x : Token} {ts : List Token} (h : ∀ name, x.kind ≠ .identifier name) :
    ¬StartsAssignment (x :: ts) := by
  rintro ⟨y, z, us, name, heq, hy, -⟩
  cases heq
  exact h name hy

theorem not_startsAssignment_of_second {x : Token} {ts : List Token} (h : headKind ts ≠ .symbol .equal) :
    ¬StartsAssignment (x :: ts) := by
  rintro ⟨y, z, us, name, heq, -, hz⟩
  cases heq
  exact h hz

/-- What is no assignment does not look like one either. -/
theorem Greedy.not_startsAssignment {L : Level} {e : Bool} {ts : List Token} {t : Tree} (h : Greedy L e ts t)
    (hL : L ≠ .assignment) {rest : List Token} (hrest : headKind rest ≠ .symbol .equal) :
    ¬StartsAssignment (ts ++ rest) := by
  induction h generalizing rest with
  | descend hL hn h ih => exact ih (next_ne_assignment hn) hrest
  | @joined L L' join e ts op us l r hn hj hl hr ihl _ =>
    rw [List.append_assoc]
    refine @ihl hL (op :: us ++ rest) ?_
    show op.kind ≠ _
    generalize op.kind = k at hj
    cases hj <;> simp
  | @wrapped L wrap e op ts t hw h ih =>
    refine not_startsAssignment_of_head fun name => ?_
    generalize op.kind = k at hw
    cases hw <;> simp
  | expression | assign | increment => exact absurd rfl hL
  | var => exact not_startsAssignment_of_second hrest
  | callEmpty hx hl | call hx hl =>
    exact not_startsAssignment_of_second (by simp [headKind, hl])
  | number hx | parens hx | braces hx | conditional hx | block hx | forVar hx | forSet hx =>
    exact not_startsAssignment_of_head (by simp [hx])

end Grammar

namespace Reader

theorem takes_target_none {rest : List Token} (h : ¬StartsAssignment rest) : Takes target? [] none rest := by
  intro c hc
  refine ⟨c, ?_, hc⟩
  unfold target?
  split
  · next name s s' us hrest =>
    exact absurd ⟨_, _, us, name, hc.symm.trans hrest, rfl, rfl⟩ h
  · rfl

theorem takes_target_some {x y : Token} {rest : List Token} {name : String} (hx : x.kind = .identifier name)
    (hy : y.kind = .symbol .equal) : Takes target? [] (some name) (x :: y :: rest) := by
  intro c hc
  obtain ⟨kx, sx⟩ := x
  obtain ⟨ky, sy⟩ := y
  cases hx
  cases hy
  exact ⟨c, by simp only [target?, hc, List.nil_append], hc⟩

/-! ## Operators -/

section

variable {expression : Reader Tree} {L L' : Level} {ts us rest : List Token} {l r t : Tree}

/-- An operand alone. -/
theorem resumes_descend (hL : L ≠ .assignment) (hn : L.next = some L')
    (hop : Takes (ofLevel expression L') ts t rest)
    (hhead : ∀ k wrap, Wraps L k wrap → headKind (ts ++ rest) ≠ k) : Resumes expression L ts t rest := by
  have hchained : ∀ {c : Cursor}, c.rest = ts ++ rest →
      ofLevel expression L = chained (ofLevel expression L') (operator? L) → ∃ operand c' n,
      ofLevel expression L c = chainedFrom operand (operator? L) n t c' ∧ c'.rest = rest ∧ rest.length ≤ n ∧
        ∀ L', L.next = some L' → operand = ofLevel expression L' := by
    intro c hc heq
    obtain ⟨c', hr, hrest⟩ := hop c hc
    refine ⟨ofLevel expression L', c', c'.rest.length, ?_, hrest, by simp [hrest], ?_⟩
    · rw [heq, chained, bind_of_ok hr, tokensLeft_bind]
    · intro M hM; cases hn.symm.trans hM; rfl
  have hrepeated : ∀ {k : TokenKind} {wrap : Tree → Tree}, Wraps L k wrap →
      ofLevel expression L = repeated k wrap (ofLevel expression L') →
      (∀ k join, ¬Joins L k join) → Resumes expression L ts t rest := by
    intro k wrap hw heq hj
    refine resumes_of_takes (fun c hc => ?_) hj
    obtain ⟨c', hr, hrest⟩ := hop c hc
    refine ⟨c', ?_, hrest⟩
    rw [heq, repeated_of_ne (by rw [c.kind_eq, hc]; exact hhead k wrap hw), hr]
  cases L with
  | assignment => exact absurd rfl hL
  | inversion => cases hn; exact hrepeated .not rfl (by rintro k join ⟨⟩)
  | negation => cases hn; exact hrepeated .neg rfl (by rintro k join ⟨⟩)
  | primary => cases hn
  | _ => cases hn; exact fun c hc => hchained hc rfl

/-- A left operand, an operator and a right operand. -/
theorem resumes_joined {op : Token} {join : Tree → Tree → Tree} (hn : L.next = some L')
    (hj : Joins L op.kind join) (hl : Resumes expression L ts l (op :: us ++ rest))
    (hr : Takes (ofLevel expression L') us r rest) : Resumes expression L (ts ++ op :: us) (join l r) rest := by
  intro c hc
  obtain ⟨operand, c₁, n, heq, hrest, hlen, hop⟩ := hl c (by rw [hc, List.append_assoc])
  obtain rfl := hop L' hn
  obtain ⟨m, rfl⟩ : ∃ m, n = m + 1 := ⟨n - 1, by simp only [List.length_append, List.length_cons] at hlen; omega⟩
  have hadv : c₁.advance.rest = us ++ rest := by rw [Cursor.advance_of_cons hrest]; rfl
  obtain ⟨c₂, hr₂, hrest₂⟩ := hr c₁.advance hadv
  refine ⟨_, c₂, m, ?_, hrest₂, ?_, hop⟩
  · have hkind : c₁.kind = op.kind := Cursor.kind_of_cons hrest
    rw [heq, chainedFrom, peek_bind, hkind, operator?_of_joins hj]
    have htake : discard take c₁ = .ok () c₁.advance := discard_of_ok rfl
    show (discard take >>= _) c₁ = _
    rw [bind_of_ok htake, bind_of_ok hr₂]
  · simp only [List.length_append, List.length_cons] at hlen
    omega

/-- An operator before its operand. -/
theorem resumes_wrapped {op : Token} {wrap : Tree → Tree} (hw : Wraps L op.kind wrap)
    (h : Resumes expression L ts t rest) : Resumes expression L (op :: ts) (wrap t) rest := by
  have hj : ∀ k join, ¬Joins L k join := by
    generalize op.kind = k at hw
    cases hw <;> rintro k join ⟨⟩
  have ht := takes_of_resumes h (hj _)
  have hrepeated : ∀ {operand : Reader Tree}, ofLevel expression L = repeated op.kind wrap operand →
      Resumes expression L (op :: ts) (wrap t) rest := by
    intro operand heq
    rw [heq] at ht
    refine resumes_of_takes (fun c hc => ?_) hj
    have hadv : c.advance.rest = ts ++ rest := by rw [Cursor.advance_of_cons hc]; rfl
    obtain ⟨c', hr, hrest⟩ := ht c.advance hadv
    refine ⟨c', ?_, hrest⟩
    rw [heq, repeated_of_cons hc rfl, bind_of_ok hr]
    rfl
  generalize hk : op.kind = k at hw hrepeated
  cases hw
  · exact hrepeated rfl
  · exact hrepeated rfl

end

/-! ## Primaries -/

/-- Tokens that end every expression. -/
structure Closes (k : TokenKind) : Prop where
  notParen : k ≠ .symbol .leftParen
  notSign : k ≠ .symbol .equal
  notOperator : ∀ M join, ¬Joins M k join

namespace Closes

theorem follows {k : TokenKind} (h : Closes k) {L : Level} {e : Bool} : Follows L e k :=
  .of_not_joins h.notParen h.notSign h.notOperator

theorem of_eq {k k' : TokenKind} (h : k = k') (hk : Closes k') : Closes k := h ▸ hk

theorem rightParen : Closes (.symbol .rightParen) := ⟨by simp, by simp, by rintro _ _ ⟨⟩⟩
theorem rightBrace : Closes (.symbol .rightBrace) := ⟨by simp, by simp, by rintro _ _ ⟨⟩⟩
theorem comma : Closes (.symbol .comma) := ⟨by simp, by simp, by rintro _ _ ⟨⟩⟩
theorem semicolon : Closes (.symbol .semicolon) := ⟨by simp, by simp, by rintro _ _ ⟨⟩⟩
theorem thenKw : Closes (.keyword .thenKw) := ⟨by simp, by simp, by rintro _ _ ⟨⟩⟩
theorem elseKw : Closes (.keyword .elseKw) := ⟨by simp, by simp, by rintro _ _ ⟨⟩⟩
theorem inKw : Closes (.keyword .inKw) := ⟨by simp, by simp, by rintro _ _ ⟨⟩⟩
theorem endOfFile : Closes .endOfFile := ⟨by simp, by simp, by rintro _ _ ⟨⟩⟩

end Closes

/-- The reader takes these tokens as an expression wherever a token ends it. -/
def TakesClosed (expression : Reader Tree) (ts : List Token) (t : Tree) : Prop :=
  ∀ rest, Closes (headKind rest) → Takes expression ts t rest

/-- A reader that looks at the next token, takes it and goes on. -/
theorem takes_behind {x : Token} {ts rest : List Token} {t : Tree} {r : Reader Tree} {f : TokenKind → Reader Tree}
    (h : Takes r ts t rest) (hf : f x.kind = do discard take; r) : Takes (peek >>= f) (x :: ts) t rest := by
  refine .bind_nil (.peek _) ?_
  rw [show headKind (x :: ts ++ rest) = x.kind from rfl, hf]
  exact (Takes.take x _).discard.bind_cons h

theorem takes_separated {α : Type} {separator stop : TokenKind} (hne : stop ≠ separator) {item : Reader α}
    {ts : List Token} {a : α} {parts : List (Token × List Token × α)} {rest : List Token}
    (hstop : headKind rest = stop)
    (h : ∀ rest, headKind rest = separator ∨ headKind rest = stop → Takes item ts a rest)
    (hs : ∀ p ∈ parts, p.1.kind = separator)
    (hi : ∀ p ∈ parts, ∀ rest, headKind rest = separator ∨ headKind rest = stop → Takes item p.2.1 p.2.2 rest) :
    Takes (separated separator item) (ts ++ parts.flatMap fun p => p.1 :: p.2.1) (a :: parts.map (·.2.2))
      rest := by
  have hhead : headKind ((parts.flatMap fun p => p.1 :: p.2.1) ++ rest) = separator ∨
      headKind ((parts.flatMap fun p => p.1 :: p.2.1) ++ rest) = stop := by
    cases parts with
    | nil => exact .inr hstop
    | cons q parts => exact .inl (hs q List.mem_cons_self)
  have hlen : parts.length ≤ ((parts.flatMap fun p => p.1 :: p.2.1) ++ rest).length := by
    have := length_le_flatMap (f := fun p : Token × List Token × α => p.1 :: p.2.1) (by simp) parts
    rw [List.length_append]
    omega
  refine (h _ hhead).bind (.bind_nil (.tokensLeft _) ?_)
  exact (takes_separatedFrom hne hstop hs hi hlen).bind_pure (.pure _ rest)

section

variable {expression : Reader Tree}

theorem takes_binding {b : Binding} (hb : b.Marked) {rest : List Token}
    (h : Takes expression b.tokens b.init rest) : Takes (binding expression) b.yield b.pair rest :=
  (Takes.identifier _ hb.1 _).bind_cons <| (Takes.expect _ hb.2 _).discard.bind_cons <|
    h.bind_pure (.pure _ rest)

theorem takes_arguments {ts : List Token} {t : Tree} {parts : List Part} {right : Token} {rest : List Token}
    (hhead : headKind (ts ++ yield parts ++ [right] ++ rest) ≠ .symbol .rightParen)
    (h : TakesClosed expression ts t) (hs : ∀ p ∈ parts, p.separator.kind = .symbol .comma)
    (hi : ∀ p ∈ parts, TakesClosed expression p.tokens p.tree) (hr : right.kind = .symbol .rightParen) :
    Takes (arguments expression) (ts ++ yield parts ++ [right]) (t :: parts.map Part.tree) rest := by
  have hclosed : ∀ us a, TakesClosed expression us a → ∀ rest,
      headKind rest = .symbol .comma ∨ headKind rest = .symbol .rightParen → Takes expression us a rest := by
    rintro us a hc rest (hrest | hrest)
    · exact hc rest (hrest ▸ .comma)
    · exact hc rest (hrest ▸ .rightParen)
  refine .bind_nil (.peek _) ?_
  rw [if_neg hhead]
  let entries := parts.map fun p => (p.separator, p.tokens, p.tree)
  have hsep : Takes (separated (.symbol .comma) expression) (ts ++ entries.flatMap fun p => p.1 :: p.2.1)
      (t :: entries.map (·.2.2)) (right :: rest) :=
    takes_separated (by simp) hr (hclosed ts t h) (List.forall_mem_map.2 hs)
      (List.forall_mem_map.2 fun p hp => hclosed _ _ (hi p hp))
  simp only [entries, List.flatMap_map, List.map_map] at hsep
  refine Takes.bind hsep ?_
  exact (Takes.expect _ hr rest).discard.bind_pure (.pure _ rest)

theorem takes_arguments_nil {right : Token} {rest : List Token} (hr : right.kind = .symbol .rightParen) :
    Takes (arguments expression) [right] [] rest := by
  refine .bind_nil (.peek _) ?_
  rw [if_pos (by exact hr)]
  exact (Takes.pure [] _).bind_nil <| (Takes.expect _ hr rest).discard.bind_pure (.pure _ rest)

theorem closes_yield {parts : List Part} {tail rest : List Token}
    (hs : ∀ p ∈ parts, p.separator.kind = .symbol .semicolon) (htail : Optional (.symbol .semicolon) tail)
    (hrest : headKind rest = .symbol .rightBrace) : Closes (headKind (yield parts ++ tail ++ rest)) := by
  cases parts with
  | cons p parts => exact .of_eq (hs p List.mem_cons_self) .semicolon
  | nil =>
    rcases htail with rfl | ⟨x, hx, rfl⟩
    · exact .of_eq hrest .rightBrace
    · exact .of_eq hx .semicolon

theorem takes_statementsFrom {parts : List Part} {tail rest : List Token}
    (hs : ∀ p ∈ parts, p.separator.kind = .symbol .semicolon)
    (hi : ∀ p ∈ parts, TakesClosed expression p.tokens p.tree)
    (hhead : ∀ p ∈ parts, ∀ rest, headKind (p.tokens ++ rest) ≠ .symbol .rightBrace)
    (htail : Optional (.symbol .semicolon) tail) (hrest : headKind rest = .symbol .rightBrace) {n : Nat}
    (hn : (yield parts ++ tail).length ≤ n) :
    Takes (statementsFrom expression n) (yield parts ++ tail) (parts.map Part.tree) rest := by
  induction parts generalizing n with
  | nil =>
    rcases htail with rfl | ⟨x, hx, rfl⟩
    · cases n with
      | zero => exact .pure [] rest
      | succ n =>
        have hreject : Takes (accept (.symbol .semicolon)) [] false rest := .reject (by simp [hrest])
        exact hreject.bind_nil (u := []) (.pure [] rest)
    · cases n with
      | zero => simp [yield] at hn
      | succ n =>
        refine (Takes.accept hx _).bind_cons (u := []) (.bind_nil (.peek _) ?_)
        rw [if_pos (by exact hrest)]
        exact .pure [] rest
  | cons p parts ih =>
    rw [List.forall_mem_cons] at hs hi hhead
    have hyield : yield (p :: parts) ++ tail = p.separator :: (p.tokens ++ (yield parts ++ tail)) := by
      simp [yield]
    rw [hyield] at hn ⊢
    simp only [List.length_cons, List.length_append] at hn
    obtain ⟨n, rfl⟩ : ∃ m, n = m + 1 := ⟨n - 1, by omega⟩
    refine (Takes.accept hs.1 _).bind_cons (.bind_nil (.peek _) ?_)
    rw [if_neg (by rw [List.append_assoc]; exact hhead.1 _)]
    refine (hi.1 _ (closes_yield hs.2 htail hrest)).bind ?_
    exact (ih hs.2 hi.2 hhead.2 (by simp only [List.length_append]; omega)).bind_pure (.pure _ rest)

theorem takes_statements {ts tail : List Token} {t : Tree} {parts : List Part} {right : Token} {rest : List Token}
    (h : TakesClosed expression ts t) (hs : ∀ p ∈ parts, p.separator.kind = .symbol .semicolon)
    (hi : ∀ p ∈ parts, TakesClosed expression p.tokens p.tree)
    (hhead : ∀ p ∈ parts, ∀ rest, headKind (p.tokens ++ rest) ≠ .symbol .rightBrace)
    (htail : Optional (.symbol .semicolon) tail) (hr : right.kind = .symbol .rightBrace) :
    Takes (statements expression) (ts ++ yield parts ++ tail ++ [right])
      (.statements t (parts.map Part.tree)) rest := by
  have hrest : headKind ([right] ++ rest) = .symbol .rightBrace := hr
  have hassoc : ts ++ yield parts ++ tail ++ [right] = ts ++ ((yield parts ++ tail) ++ [right]) := by simp
  rw [hassoc]
  refine (h _ ?_).bind (.bind_nil (.tokensLeft _) ?_)
  · rw [List.append_assoc]
    exact closes_yield hs htail hrest
  have hlen : (yield parts ++ tail).length ≤ (yield parts ++ tail ++ [right] ++ rest).length := by
    simp only [List.length_append]
    omega
  refine Takes.bind (takes_statementsFrom hs hi hhead htail hrest hlen) ?_
  exact (Takes.expect _ hr rest).discard.bind_pure (.pure _ rest)

theorem takes_conditional {cs ts es rest : List Token} {then_ else_ : Token} {c t e : Tree}
    (hc : TakesClosed expression cs c) (hthen : then_.kind = .keyword .thenKw)
    (ht : TakesClosed expression ts t) (helse : else_.kind = .keyword .elseKw) (he : Takes expression es e rest) :
    Takes (conditional expression) (cs ++ then_ :: ts ++ else_ :: es) (.conditional c t e) rest := by
  rw [List.append_assoc]
  refine .bind (hc _ (.of_eq hthen .thenKw)) ((Takes.expect _ hthen _).discard.bind_cons ?_)
  refine .bind (ht _ (.of_eq helse .elseKw)) ((Takes.expect _ helse _).discard.bind_cons ?_)
  exact he.bind_pure (.pure _ rest)

theorem takes_block {b : Binding} {parts : List (Token × Binding)} {in_ : Token} {ts rest : List Token} {t : Tree}
    (hb : b.Marked) (h : TakesClosed expression b.tokens b.init)
    (hs : ∀ p ∈ parts, p.1.kind = .symbol .comma ∧ p.2.Marked)
    (hi : ∀ p ∈ parts, TakesClosed expression p.2.tokens p.2.init) (hin : in_.kind = .keyword .inKw)
    (ht : Takes expression ts t rest) :
    Takes (block expression) (b.yield ++ bindingsYield parts ++ in_ :: ts)
      (.block (b.pair :: parts.map (·.2.pair)) t) rest := by
  have hclosed : ∀ b : Binding, b.Marked → TakesClosed expression b.tokens b.init → ∀ rest,
      headKind rest = .symbol .comma ∨ headKind rest = .keyword .inKw →
      Takes (binding expression) b.yield b.pair rest := by
    rintro b hb hc rest (hrest | hrest)
    · exact takes_binding hb (hc rest (.of_eq hrest .comma))
    · exact takes_binding hb (hc rest (.of_eq hrest .inKw))
  let entries := parts.map fun p => (p.1, p.2.yield, p.2.pair)
  have hsep : Takes (separated (.symbol .comma) (binding expression))
      (b.yield ++ entries.flatMap fun p => p.1 :: p.2.1) (b.pair :: entries.map (·.2.2)) (in_ :: ts ++ rest) :=
    takes_separated (by simp) hin (hclosed b hb h) (List.forall_mem_map.2 fun p hp => (hs p hp).1)
      (List.forall_mem_map.2 fun p hp => hclosed p.2 (hs p hp).2 (hi p hp))
  simp only [entries, List.flatMap_map, List.map_map] at hsep
  refine Takes.bind hsep ((Takes.expect _ hin _).discard.bind_cons ?_)
  exact ht.bind_pure (.pure _ rest)

theorem takes_loopHeader_declare {b : Binding} {var_ : Token} {rest : List Token}
    (hvar : var_.kind = .keyword .varKw) (hb : b.Marked) (h : Takes expression b.tokens b.init rest) :
    Takes (loopHeader expression) (var_ :: b.yield) (.declare b.name b.init) rest :=
  (Takes.accept hvar _).bind_cons <| (takes_binding hb h).bind_pure (.pure _ rest)

theorem takes_loopHeader_assign {b : Binding} {rest : List Token} (hb : b.Marked)
    (h : Takes expression b.tokens b.init rest) :
    Takes (loopHeader expression) b.yield (.assign b.name b.init) rest := by
  have hvar : headKind (b.yield ++ rest) ≠ .keyword .varKw := by simp [Binding.yield, headKind, hb.1]
  exact (Takes.reject hvar).bind_nil <| (takes_binding hb h).bind_pure (.pure _ rest)

theorem takes_forLoop {hs cs ss ts rest : List Token} {comma₁ comma₂ in_ : Token} {header : LoopHeader Tree}
    {c s t : Tree} (hh : ∀ rest, Closes (headKind rest) → Takes (loopHeader expression) hs header rest)
    (h₁ : comma₁.kind = .symbol .comma) (hc : TakesClosed expression cs c) (h₂ : comma₂.kind = .symbol .comma)
    (hstep : TakesClosed expression ss s) (hin : in_.kind = .keyword .inKw) (ht : Takes expression ts t rest) :
    Takes (forLoop expression) (hs ++ comma₁ :: cs ++ comma₂ :: ss ++ in_ :: ts)
      (.forLoop header c s t) rest := by
  have hassoc : hs ++ comma₁ :: cs ++ comma₂ :: ss ++ in_ :: ts =
      hs ++ comma₁ :: (cs ++ comma₂ :: (ss ++ in_ :: ts)) := by simp
  rw [hassoc]
  refine .bind (hh _ (.of_eq h₁ .comma)) ((Takes.expect _ h₁ _).discard.bind_cons ?_)
  refine .bind (hc _ (.of_eq h₂ .comma)) ((Takes.expect _ h₂ _).discard.bind_cons ?_)
  refine .bind (hstep _ (.of_eq hin .inKw)) ((Takes.expect _ hin _).discard.bind_cons ?_)
  exact ht.bind_pure (.pure _ rest)

theorem takes_parenthesized {ts rest : List Token} {t : Tree} {right : Token} (h : TakesClosed expression ts t)
    (hr : right.kind = .symbol .rightParen) : Takes (parenthesized expression) (ts ++ [right]) t rest :=
  .bind (h _ (.of_eq hr .rightParen)) <| (Takes.expect _ hr rest).discard.bind_pure (.pure _ rest)

theorem takes_assign {b : Binding} {rest : List Token} (hb : b.Marked)
    (h : Takes expression b.tokens b.init rest) :
    Takes (assignment expression) b.yield (.assign b.name b.init) rest := by
  have hplus : headKind (b.yield ++ rest) ≠ .symbol .plusPlus := by simp [Binding.yield, headKind, hb.1]
  refine (Takes.reject hplus).bind_nil ((takes_target_some hb.1 hb.2).bind_nil ?_)
  refine (Takes.take b.target _).discard.bind_cons ((Takes.take b.sign _).discard.bind_cons ?_)
  exact h.bind_pure (.pure _ rest)

theorem takes_increment {op x : Token} {rest : List Token} {name : String} (hop : op.kind = .symbol .plusPlus)
    (hx : x.kind = .identifier name) : Takes (assignment expression) [op, x] (.increment name) rest :=
  (Takes.accept hop _).bind_cons <| (Takes.identifier _ hx rest).bind_pure (.pure _ rest)

theorem takes_disjunction {ts rest : List Token} {t : Tree} (hplus : headKind (ts ++ rest) ≠ .symbol .plusPlus)
    (hassign : ¬StartsAssignment (ts ++ rest)) (h : Takes (disjunction expression) ts t rest) :
    Takes (assignment expression) ts t rest :=
  (Takes.reject hplus).bind_nil <| (takes_target_none hassign).bind_nil h

end

/-! ## Expressions -/

/-- With enough depth the reader of the level takes `ts`, wherever they may end. -/
def Resumed (L : Level) (e : Bool) (ts : List Token) (t : Tree) : Prop :=
  ∀ depth rest, ts.length ≤ depth → Follows L e (headKind rest) → Resumes (expressionTo depth) L ts t rest

namespace Resumed

variable {L L' : Level} {e : Bool} {ts us : List Token} {t : Tree} {depth : Nat}

theorem takes (h : Resumed .assignment e ts t) (hd : ts.length < depth) {rest : List Token}
    (hf : Follows .assignment e (headKind rest)) : Takes (expressionTo depth) ts t rest := by
  obtain ⟨d, rfl⟩ : ∃ d, depth = d + 1 := ⟨depth - 1, by omega⟩
  exact takes_of_resumes (h d rest (by omega) hf) (by rintro join ⟨⟩)

theorem closed (h : Resumed .assignment true ts t) (hd : ts.length < depth) :
    TakesClosed (expressionTo depth) ts t := fun _ hrest => h.takes hd hrest.follows

/-- Assignments and primaries are no left operands of their level. -/
theorem of_takes (hL : ∀ k join, ¬Joins L k join)
    (h : ∀ depth rest, ts.length ≤ depth → Follows L e (headKind rest) →
      Takes (ofLevel (expressionTo depth) L) ts t rest) : Resumed L e ts t :=
  fun depth rest hd hf => resumes_of_takes (h depth rest hd hf) hL

end Resumed

theorem length_lt_yield {parts : List Part} {p : Part} (hp : p ∈ parts) :
    p.tokens.length < (yield parts).length := by
  have := (List.sublist_flatten_of_mem (List.mem_map_of_mem (f := fun p : Part => p.separator :: p.tokens) hp)).length_le
  rw [← List.flatMap_def] at this
  exact this

theorem length_lt_bindingsYield {parts : List (Token × Binding)} {p : Token × Binding} (hp : p ∈ parts) :
    p.2.tokens.length < (bindingsYield parts).length := by
  have := (List.sublist_flatten_of_mem
    (List.mem_map_of_mem (f := fun p : Token × Binding => p.1 :: p.2.yield) hp)).length_le
  rw [← List.flatMap_def] at this
  simp only [Binding.yield, List.length_cons] at this
  exact Nat.lt_of_lt_of_le (by omega) this

end Reader

open Reader

/-- The reader of a level takes what the level derives greedily. -/
theorem Grammar.Greedy.resumed {L : Level} {e : Bool} {ts : List Token} {t : Tree} (h : Greedy L e ts t) :
    Resumed L e ts t := by
  induction h with
  | @descend L L' e ts t hL hn h ih =>
    intro depth rest hd hf
    refine resumes_descend hL hn (takes_of_resumes (ih depth rest hd (hf.next hL hn)) (hf.not_joins_next hL hn)) ?_
    obtain ⟨x, us, rfl, -, hnot, hminus⟩ := h.head (next_ne_assignment hn)
    intro k wrap hw
    show x.kind ≠ k
    cases hw with
    | not => cases hn; exact fun hx => absurd (hnot hx) (by decide)
    | neg => cases hn; exact fun hx => absurd (hminus hx) (by decide)
  | @expression ts t h ih =>
    refine .of_takes (by rintro k join ⟨⟩) fun depth rest hd hf => ?_
    have hhead := h.head (by decide)
    have hnone : ∀ M join, ¬Joins M (headKind rest) join := fun M join hj => by
      exact absurd (hf.looser M join hj).1 (by decide)
    refine takes_disjunction ?_ (h.not_startsAssignment (by decide) hf.notSign) ?_
    · obtain ⟨x, us, rfl, hx, -⟩ := hhead
      exact hx
    · exact takes_of_resumes (ih depth rest hd (.of_not_joins hf.notParen hf.notSign hnone)) (hnone _)
  | @joined L L' join e ts op us l r hn hj hl hr ihl ihr =>
    intro depth rest hd hf
    simp only [List.length_append, List.length_cons] at hd
    have hL : L ≠ .assignment := by rintro rfl; generalize op.kind = k at hj; cases hj
    refine resumes_joined hn hj (ihl depth _ (by omega) (.of_joins hj)) ?_
    exact takes_of_resumes (ihr depth rest (by omega) (hf.next hL hn)) (hf.not_joins_next hL hn)
  | @wrapped L wrap e op ts t hw h ih =>
    intro depth rest hd hf
    exact resumes_wrapped hw (ih depth rest (Nat.le_of_succ_le hd) hf)
  | @assign e b hb h ih =>
    refine .of_takes (by rintro k join ⟨⟩) fun depth rest hd hf => takes_assign hb (ih.takes ?_ hf)
    simp only [Binding.yield, List.length_cons] at hd
    omega
  | increment hop hx =>
    exact .of_takes (by rintro k join ⟨⟩) fun depth rest hd hf => takes_increment hop hx
  | number hx =>
    exact .of_takes (by rintro k join ⟨⟩) fun depth rest hd hf => takes_behind (.pure _ rest) (by rw [hx])
  | var hx =>
    refine .of_takes (by rintro k join ⟨⟩) fun depth rest hd hf => takes_behind ?_ (by rw [hx])
    exact (Takes.reject hf.notParen).bind_nil (.pure _ rest)
  | callEmpty hx hleft hright =>
    refine .of_takes (by rintro k join ⟨⟩) fun depth rest hd hf => takes_behind ?_ (by rw [hx])
    exact (Takes.accept hleft _).bind_cons <| (takes_arguments_nil hright).bind_pure (.pure _ rest)
  | call hx hleft h hs hi hright ih ihs =>
    refine .of_takes (by rintro k join ⟨⟩) fun depth rest hd hf => takes_behind ?_ (by rw [hx])
    simp only [List.length_append, List.length_cons] at hd
    refine (Takes.accept hleft _).bind_cons ((takes_arguments ?_ ?_ hs ?_ hright).bind_pure (.pure _ rest))
    · rw [List.append_assoc, List.append_assoc]
      exact (h.headKind_ne _).1
    · exact ih.closed (by omega)
    · exact fun p hp => (ihs p hp).closed (by have := length_lt_yield hp; omega)
  | parens hleft h hright ih =>
    refine .of_takes (by rintro k join ⟨⟩) fun depth rest hd hf => takes_behind ?_ (by rw [hleft])
    simp only [List.length_append, List.length_cons] at hd
    exact takes_parenthesized (ih.closed (by omega)) hright
  | braces hleft h hs hi htail hright ih ihs =>
    refine .of_takes (by rintro k join ⟨⟩) fun depth rest hd hf => takes_behind ?_ (by rw [hleft])
    simp only [List.length_append, List.length_cons] at hd
    refine takes_statements (ih.closed (by omega)) hs ?_ (fun p hp rest => ((hi p hp).headKind_ne rest).2.1) htail
      hright
    exact fun p hp => (ihs p hp).closed (by have := length_lt_yield hp; omega)
  | conditional hif hc hthen ht helse he ihc iht ihe =>
    refine .of_takes (by rintro k join ⟨⟩) fun depth rest hd hf => takes_behind ?_ (by rw [hif])
    simp only [List.length_append, List.length_cons] at hd
    exact takes_conditional (ihc.closed (by omega)) hthen (iht.closed (by omega)) helse
      (ihe.takes (by omega) hf.assignment)
  | block hvar hb h hs hi hin ht ih ihs iht =>
    refine .of_takes (by rintro k join ⟨⟩) fun depth rest hd hf => takes_behind ?_ (by rw [hvar])
    simp only [Binding.yield, List.length_append, List.length_cons] at hd
    refine takes_block hb (ih.closed (by omega)) hs ?_ hin (iht.takes (by omega) hf.assignment)
    exact fun p hp => (ihs p hp).closed (by have := length_lt_bindingsYield hp; omega)
  | forVar hfor hvar hb h h₁ hc h₂ hstep hin ht ih ihc ihs iht =>
    refine .of_takes (by rintro k join ⟨⟩) fun depth rest hd hf => takes_behind ?_ (by rw [hfor])
    simp only [Binding.yield, List.length_append, List.length_cons] at hd
    refine takes_forLoop (fun rest hrest => ?_) h₁ (ihc.closed (by omega)) h₂ (ihs.closed (by omega)) hin
      (iht.takes (by omega) hf.assignment)
    exact takes_loopHeader_declare hvar hb (ih.closed (by omega) rest hrest)
  | forSet hfor hb h h₁ hc h₂ hstep hin ht ih ihc ihs iht =>
    refine .of_takes (by rintro k join ⟨⟩) fun depth rest hd hf => takes_behind ?_ (by rw [hfor])
    simp only [Binding.yield, List.length_append, List.length_cons] at hd
    refine takes_forLoop (fun rest hrest => ?_) h₁ (ihc.closed (by omega)) h₂ (ihs.closed (by omega)) hin
      (iht.takes (by omega) hf.assignment)
    exact takes_loopHeader_assign hb (ih.closed (by omega) rest hrest)

end Monofloat
