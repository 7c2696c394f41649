import Monofloat.Token.Scan
import Monofloat.Tree.Program
import Monofloat.Proofs.Acceptance

/-!
# The parser accepts the grammar

The parser reports nothing exactly for the token lists that the grammar derives (`parse_accepts_grammar`), and then
its items are those of a derivation of the whole list. The readers of declarations build spans from the cursor,
so for them it is enough to know that they succeed on what is derivable (`Succeeds`): the soundness of the
readers says what they give.
-/

namespace Monofloat

open Grammar

namespace Reader

/-- On `ts ++ rest` the reader takes `ts`, whatever it gives. -/
def Succeeds {α : Type} (r : Reader α) (ts rest : List Token) : Prop :=
  ∀ c : Cursor, c.rest = ts ++ rest → ∃ a c', r c = .ok a c' ∧ c'.rest = rest

namespace Succeeds

variable {α β : Type} {r : Reader α} {f : α → Reader β} {l u rest : List Token}

theorem of_takes {a : α} (h : Takes r l a rest) : Succeeds r l rest := fun c hc => ⟨a, h c hc⟩

theorem pure (a : α) (rest : List Token) : Succeeds (pure a) [] rest := .of_takes (.pure a rest)

theorem bind (h₁ : Succeeds r l (u ++ rest)) (h₂ : ∀ a, Succeeds (f a) u rest) :
    Succeeds (r >>= f) (l ++ u) rest := by
  intro c hc
  obtain ⟨a, c₁, hr, hc₁⟩ := h₁ c (by rw [hc, List.append_assoc])
  obtain ⟨b, c₂, hf, hc₂⟩ := h₂ a c₁ hc₁
  exact ⟨b, c₂, by rw [bind_of_ok hr, hf], hc₂⟩

/-- The first reader is known to give `a`. -/
theorem bind_takes {a : α} (h₁ : Takes r l a (u ++ rest)) (h₂ : Succeeds (f a) u rest) :
    Succeeds (r >>= f) (l ++ u) rest := by
  intro c hc
  obtain ⟨c₁, hr, hc₁⟩ := h₁ c (by rw [hc, List.append_assoc])
  obtain ⟨b, c₂, hf, hc₂⟩ := h₂ c₁ hc₁
  exact ⟨b, c₂, by rw [bind_of_ok hr, hf], hc₂⟩

theorem bind_get {f : Cursor → Reader β} (h : ∀ c, Succeeds (f c) l rest) : Succeeds (get >>= f) l rest :=
  fun c hc => h c c hc

theorem bind_peek {f : TokenKind → Reader β} {t : Token} (h : Succeeds (f t.kind) (t :: l) rest) :
    Succeeds (peek >>= f) (t :: l) rest := bind_takes (l := []) (.peek _) h

end Succeeds

/-! ## Declarations -/

theorem takes_names {ts : List Token} {names : List String} (h : Grammar.Names ts names) (hne : ts ≠ [])
    {rest : List Token} (hrest : headKind rest = .symbol .rightParen) (m : String) :
    Takes (separated (.symbol .comma) (identifier m)) ts names rest := by
  have hparts : ∃ x name, ∃ parts : List (Token × List Token × String), x.kind = .identifier name ∧
      (∀ p ∈ parts, p.1.kind = .symbol .comma ∧ ∃ y : Token, p.2.1 = [y] ∧ y.kind = .identifier p.2.2) ∧
      ts = [x] ++ (parts.flatMap fun p => p.1 :: p.2.1) ∧ names = name :: parts.map (·.2.2) := by
    induction h with
    | none => exact absurd rfl hne
    | @one x name hx => exact ⟨x, name, [], hx, by simp, by simp, rfl⟩
    | @more x comma y ts name names hx hcomma h ih =>
      obtain ⟨z, other, parts, hz, hparts, heq, rfl⟩ := ih (by simp)
      refine ⟨x, name, (comma, [z], other) :: parts, hx, ?_, by simp [heq], rfl⟩
      exact List.forall_mem_cons.2 ⟨⟨hcomma, z, rfl, hz⟩, hparts⟩
  obtain ⟨x, name, parts, hx, hparts, rfl, rfl⟩ := hparts
  refine takes_separated (by simp) hrest (fun rest _ => .identifier m hx rest)
    (fun p hp => (hparts p hp).1) fun p hp rest _ => ?_
  obtain ⟨y, hy, hkind⟩ := (hparts p hp).2
  rw [hy]
  exact .identifier m hkind rest

theorem succeeds_prototype {ts : List Token} {proto : Prototype} (h : Signature ts proto) (rest : List Token) :
    Succeeds prototype ts rest := by
  obtain @⟨x, open_, ps, close, name, params, hx, hopen, hps, hclose⟩ := h
  refine .bind_get fun c => ?_
  refine .bind_takes (l := [x]) (.identifier _ hx _) (.bind_takes (l := [open_]) (.discard (.expect _ hopen _)) ?_)
  refine .bind_takes (l := []) (.peek _) ?_
  have hstop : ∀ params, Succeeds (do
      let stop ← expect (.symbol .rightParen) "expected `)` after parameters"
      return ({ name := name, params := params, span := c.span.cover stop } : Prototype)) [close] rest :=
    fun params => .bind_takes (l := [close]) (u := []) (.expect _ hclose _) (.pure _ rest)
  cases ps with
  | nil =>
    rw [if_pos (by exact hclose)]
    exact .bind_takes (l := []) (.pure [] _) (hstop [])
  | cons y ps =>
    have hy : y.kind ≠ .symbol .rightParen := by cases hps <;> simp_all
    rw [if_neg (by exact hy)]
    exact .bind_takes (takes_names hps (by simp) (by exact hclose) _) (hstop params)

theorem takes_wholeExpression {ts rest : List Token} {t : Tree} (h : Greedy .assignment true ts t)
    (hrest : Closes (headKind rest)) : Takes wholeExpression ts t rest := by
  refine .bind_nil (.tokensLeft _) (h.resumed.closed ?_ rest hrest)
  rw [List.length_append]
  omega

theorem succeeds_item {ts : List Token} {t : Tree} (h : Item ts t) (rest : List Token) (hrest : Closes (headKind rest)) :
    Succeeds item ts rest := by
  cases h with
  | @definition kw ps colon us proto body hkw hps hcolon hbody =>
    obtain ⟨body, hg⟩ := hbody.exists_greedy
    rw [show kw :: ps ++ colon ++ us = [kw] ++ (ps ++ (colon ++ us)) by simp]
    refine .bind_peek ?_
    rw [hkw]
    refine .bind_takes (.take kw _) (.bind (succeeds_prototype hps _) fun proto => ?_)
    have hwhole : Succeeds (do
        let body ← wholeExpression
        return Tree.function proto body (kw.span.cover (← get).last)) us rest := by
      have := Succeeds.bind (u := []) (.of_takes (takes_wholeExpression hg hrest))
        (f := fun body => do return Tree.function proto body (kw.span.cover (← get).last))
        fun body => .bind_get fun c => .pure _ rest
      simpa using this
    rcases hcolon with rfl | ⟨x, hx, rfl⟩
    · exact .bind_takes (l := []) (.discard (.reject (hg.headKind_ne rest).2.2)) hwhole
    · exact .bind_takes (l := [x]) (.discard (.accept hx _)) hwhole
  | @prototype kw ps proto hkw hps =>
    refine .bind_peek ?_
    rw [hkw]
    refine .bind_takes (l := [kw]) (.discard (.take kw _)) ?_
    have := Succeeds.bind (u := []) (succeeds_prototype hps rest)
      (f := fun proto => (Pure.pure (Tree.prototype proto) : Reader Tree)) fun proto => .pure _ rest
    simpa using this
  | @global kw x name hkw hx =>
    refine .bind_peek ?_
    rw [hkw]
    refine .bind_takes (l := [kw]) (u := [x]) (.take kw _) (.bind_takes (l := [x]) (u := []) (.identifier _ hx _) ?_)
    exact .bind_get fun c => .pure _ rest

end Reader

/-! ## Programs -/

theorem Grammar.Item.head {ts : List Token} {t : Tree} (h : Item ts t) :
    ∃ x us, ts = x :: us ∧ x.kind ≠ .endOfFile ∧ x.kind ≠ .symbol .semicolon := by
  cases h with
  | definition hkw | prototype hkw | global hkw => exact ⟨_, _, rfl, by simp [hkw]⟩

/-- What the grammar derives is parsed without a diagnostic. -/
theorem parseFrom_diagnostics {ts : List Token} {items : List Tree} (h : Items ts items) {c : Cursor} {n : Nat}
    (hc : c.rest = ts) (hn : ts.length ≤ n) : (parseFrom n c).diagnostics = [] := by
  induction h generalizing c n with
  | none =>
    cases n with
    | zero => rfl
    | succ n => rw [parseFrom, if_pos (by rw [c.kind_eq, hc]; rfl)]; rfl
  | @skip semicolon ts items hs h ih =>
    obtain ⟨n, rfl⟩ : ∃ m, n = m + 1 := ⟨n - 1, by simp only [List.length_cons] at hn; omega⟩
    have hkind : c.kind = .symbol .semicolon := (Cursor.kind_of_cons hc).trans hs
    rw [parseFrom, if_neg (by simp [hkind]), if_pos hkind]
    exact ih (by rw [Cursor.advance_of_cons hc]) (Nat.le_of_succ_le_succ hn)
  | @last ts item h =>
    obtain ⟨x, us, rfl, hend, hsemi⟩ := h.head
    obtain ⟨n, rfl⟩ : ∃ m, n = m + 1 := ⟨n - 1, by simp only [List.length_cons] at hn; omega⟩
    have hkind : c.kind = x.kind := Cursor.kind_of_cons hc
    obtain ⟨t, c', hr, hrest⟩ := Reader.succeeds_item h [] .endOfFile c (by rw [hc, List.append_nil])
    rw [parseFrom, if_neg (by rwa [hkind]), if_neg (by rwa [hkind]), hr]
    show Parsed.diagnostics (if c'.kind = .endOfFile then _ else _) = []
    rw [if_pos (by rw [c'.kind_eq, hrest]; rfl)]
    rfl
  | @item ts semicolon us item items h hs hrest ih =>
    obtain ⟨x, vs, rfl, hend, hsemi⟩ := h.head
    simp only [List.length_append, List.length_cons] at hn
    obtain ⟨n, rfl⟩ : ∃ m, n = m + 1 := ⟨n - 1, by omega⟩
    have hkind : c.kind = x.kind := Cursor.kind_of_cons hc
    obtain ⟨t, c', hr, hrest'⟩ := Reader.succeeds_item h (semicolon :: us) (.of_eq hs .semicolon) c hc
    have hkind' : c'.kind = .symbol .semicolon := (Cursor.kind_of_cons hrest').trans hs
    obtain ⟨c'', hexpect, hrest''⟩ :=
      Reader.Takes.expect "expected `;` after declaration" hs us c' hrest'
    rw [parseFrom, if_neg (by rwa [hkind]), if_neg (by rwa [hkind]), hr]
    show Parsed.diagnostics (if c'.kind = .endOfFile then _ else _) = []
    rw [if_neg (by simp [hkind']), hexpect]
    exact ih hrest'' (by omega)

/-- Without a diagnostic, all the tokens were derived. -/
theorem items_of_parseFrom {c : Cursor} {n : Nat} (hn : c.rest.length ≤ n)
    (hend : ∀ t ∈ c.rest, t.kind ≠ .endOfFile) (h : (parseFrom n c).diagnostics = []) :
    Items c.rest (parseFrom n c).items := by
  have hnil : ∀ {c : Cursor}, (∀ t ∈ c.rest, t.kind ≠ .endOfFile) → c.kind = .endOfFile → c.rest = [] := by
    intro c hend hk
    cases hc : c.rest with
    | nil => rfl
    | cons t rest => exact absurd ((Cursor.kind_of_cons hc).symm.trans hk) (hend t (by simp [hc]))
  induction n generalizing c with
  | zero =>
    rw [List.length_eq_zero_iff.1 (Nat.le_zero.1 hn)]
    exact .none
  | succ n ih =>
    rw [parseFrom] at h ⊢
    split at h
    · next hk =>
      rw [if_pos hk, hnil hend hk]
      exact .none
    next hk =>
    rw [if_neg hk]
    split at h
    · next hs =>
      rw [if_pos hs]
      obtain ⟨t, rest, hc, ht⟩ := Cursor.exists_cons hs (by simp)
      have hadv : c.advance.rest = rest := by rw [Cursor.advance_of_cons hc]
      rw [hc] at hn hend ⊢
      have := ih (c := c.advance) (by rw [hadv]; exact Nat.le_of_succ_le_succ hn)
        (by rw [hadv]; exact fun t ht => hend t (List.mem_cons_of_mem _ ht)) h
      rw [hadv] at this
      exact .skip ht this
    next hs =>
    rw [if_neg hs]
    split at h
    · simp [Parsed.report] at h
    next t c' hitem =>
    obtain ⟨ts, hp, hd⟩ := Reader.item_reads hitem
    obtain ⟨x, us, rfl, -⟩ := hd.head
    have hrest := hp.rest_eq
    rw [hrest] at hn hend ⊢
    rw [List.forall_mem_append] at hend
    simp only [List.length_append, List.length_cons] at hn
    split at h
    · next hk' =>
      rw [if_pos hk', hnil hend.2 hk', List.append_nil]
      exact .last hd
    next hk' =>
    rw [if_neg hk']
    split at h
    · next hexpect =>
      obtain ⟨semicolon, hsemi, hps, -⟩ := Reader.expect_ok (by simp) hexpect
      rw [hps.rest_eq] at hn hend ⊢
      simp only [List.cons_append, List.nil_append, List.length_cons] at hn
      exact .item hd hsemi (ih (by omega) (fun t ht => hend.2 t (by simp [ht])) h)
    · simp [Parsed.report, Parsed.cons] at h

/-- The items of any parse are derived from parts of the tokens. -/
theorem item_of_mem_parseFrom {c : Cursor} {n : Nat} {t : Tree} (h : t ∈ (parseFrom n c).items) :
    ∃ ts, Item ts t := by
  induction n generalizing c with
  | zero => cases h
  | succ n ih =>
    rw [parseFrom] at h
    split at h
    · cases h
    split at h
    · exact ih h
    split at h
    · exact ih h
    next item c' hitem =>
    obtain ⟨ts, -, hd⟩ := Reader.item_reads hitem
    split at h
    · rcases List.mem_cons.1 h with rfl | h
      · exact ⟨ts, hd⟩
      · cases h
    split at h
    all_goals
      rcases List.mem_cons.1 h with rfl | h
      · exact ⟨ts, hd⟩
      · exact ih h

/-! ## The end of the file -/

/-- No token of these is the end of the file. -/
def NoEnd (ts : List Token) : Prop := ∀ t ∈ ts, t.kind ≠ .endOfFile

namespace NoEnd

theorem nil : NoEnd [] := by simp [NoEnd]

theorem cons {t : Token} {k : TokenKind} {ts : List Token} (ht : t.kind = k) (hk : k ≠ .endOfFile)
    (h : NoEnd ts) : NoEnd (t :: ts) := List.forall_mem_cons.2 ⟨ht ▸ hk, h⟩

theorem append {ts us : List Token} (h₁ : NoEnd ts) (h₂ : NoEnd us) : NoEnd (ts ++ us) :=
  List.forall_mem_append.2 ⟨h₁, h₂⟩

theorem flatMap {α : Type} {f : α → List Token} {parts : List α} (h : ∀ p ∈ parts, NoEnd (f p)) :
    NoEnd (parts.flatMap f) := by
  intro t ht
  obtain ⟨p, hp, ht⟩ := List.mem_flatMap.1 ht
  exact h p hp t ht

theorem binding {b : Binding} (hb : b.Marked) (h : NoEnd b.tokens) : NoEnd b.yield :=
  cons hb.1 (by simp) (cons hb.2 (by simp) h)

theorem optional {k : TokenKind} {ts : List Token} (h : Optional k ts) (hk : k ≠ .endOfFile) : NoEnd ts := by
  rcases h with rfl | ⟨t, ht, rfl⟩
  · exact nil
  · exact cons ht hk nil

end NoEnd

namespace Grammar

theorem Derives.noEnd {L : Level} {ts : List Token} {t : Tree} (h : Derives L ts t) : NoEnd ts := by
  induction h with
  | descend _ _ ih => exact ih
  | @joined L L' join ts op us l r hn hj _ _ ihl ihr =>
    have hop : op.kind ≠ .endOfFile := by
      generalize op.kind = k at hj
      cases hj <;> simp
    exact ihl.append (.cons rfl hop ihr)
  | @wrapped L wrap op ts t hw _ ih =>
    have hop : op.kind ≠ .endOfFile := by
      generalize op.kind = k at hw
      cases hw <;> simp
    exact .cons rfl hop ih
  | assign hb _ ih => exact .binding hb ih
  | increment hop hx => exact .cons hop (by simp) (.cons hx (by simp) .nil)
  | number hx | var hx => exact .cons hx (by simp) .nil
  | callEmpty hx hl hr => exact .cons hx (by simp) (.cons hl (by simp) (.cons hr (by simp) .nil))
  | call hx hl _ hs _ hr ih ihs =>
    refine .append (.append (.cons hx (by simp) (.cons hl (by simp) ih)) ?_) (.cons hr (by simp) .nil)
    exact .flatMap fun p hp => .cons (hs p hp) (by simp) (ihs p hp)
  | parens hl _ hr ih => exact .append (.cons hl (by simp) ih) (.cons hr (by simp) .nil)
  | braces hl _ hs _ ht hr ih ihs =>
    refine .append (.append (.append (.cons hl (by simp) ih) ?_) (.optional ht (by simp))) (.cons hr (by simp) .nil)
    exact .flatMap fun p hp => .cons (hs p hp) (by simp) (ihs p hp)
  | conditional hif _ hthen _ helse _ ihc iht ihe =>
    exact .append (.append (.cons hif (by simp) ihc) (.cons hthen (by simp) iht)) (.cons helse (by simp) ihe)
  | block hvar hb _ hs _ hin _ ih ihs iht =>
    refine .append (.append (.cons hvar (by simp) (.binding hb ih)) ?_) (.cons hin (by simp) iht)
    exact .flatMap fun p hp => .cons (hs p hp).1 (by simp) (.binding (hs p hp).2 (ihs p hp))
  | forVar hfor hvar hb _ h₁ _ h₂ _ hin _ ih ihc ihs iht =>
    exact .append (.append (.append (.cons hfor (by simp) (.cons hvar (by simp) (.binding hb ih)))
      (.cons h₁ (by simp) ihc)) (.cons h₂ (by simp) ihs)) (.cons hin (by simp) iht)
  | forSet hfor hb _ h₁ _ h₂ _ hin _ ih ihc ihs iht =>
    exact .append (.append (.append (.cons hfor (by simp) (.binding hb ih))
      (.cons h₁ (by simp) ihc)) (.cons h₂ (by simp) ihs)) (.cons hin (by simp) iht)

theorem Names.noEnd {ts : List Token} {names : List String} (h : Names ts names) : NoEnd ts := by
  induction h with
  | none => exact .nil
  | one hx => exact .cons hx (by simp) .nil
  | more hx hcomma _ ih => exact .cons hx (by simp) (.cons hcomma (by simp) ih)

theorem Signature.noEnd {ts : List Token} {proto : Prototype} (h : Signature ts proto) : NoEnd ts := by
  obtain ⟨hx, hopen, hps, hclose⟩ := h
  exact .append (.cons hx (by simp) (.cons hopen (by simp) hps.noEnd)) (.cons hclose (by simp) .nil)

theorem Item.noEnd {ts : List Token} {t : Tree} (h : Item ts t) : NoEnd ts := by
  cases h with
  | definition hkw hps hcolon hbody =>
    exact .append (.append (.cons hkw (by simp) hps.noEnd) (.optional hcolon (by simp))) hbody.noEnd
  | prototype hkw hps => exact .cons hkw (by simp) hps.noEnd
  | global hkw hx => exact .cons hkw (by simp) (.cons hx (by simp) .nil)

theorem Items.noEnd {ts : List Token} {items : List Tree} (h : Items ts items) : NoEnd ts := by
  induction h with
  | none => exact .nil
  | skip hs _ ih => exact .cons hs (by simp) ih
  | last h => exact h.noEnd
  | item h hs _ ih => exact h.noEnd.append (.cons hs (by simp) ih)

end Grammar

/-! ## The whole parser -/

theorem Token.isEndOfFile_iff {t : Token} : t.isEndOfFile = true ↔ t.kind = .endOfFile := by
  simp [Token.isEndOfFile]

/-- The parser looks at all that stands before the end of the file. -/
theorem Cursor.rest_ofTokens {ts stop : List Token} (h : NoEnd ts) (hstop : Optional .endOfFile stop) :
    (Cursor.ofTokens (ts ++ stop)).rest = ts := by
  have hbefore : ∀ t ∈ ts, (!t.isEndOfFile) = true := fun t ht => by
    simpa using fun hend => h t ht (Token.isEndOfFile_iff.1 hend)
  show (ts ++ stop).takeWhile (!·.isEndOfFile) = ts
  rw [List.takeWhile_append_of_pos hbefore]
  rcases hstop with rfl | ⟨t, ht, rfl⟩
  · simp
  · simp [Token.isEndOfFile_iff.2 ht]

/-- A list with no end of the file but at its own end. -/
theorem exists_noEnd_append {tokens : List Token} (h : NoEnd tokens.dropLast) :
    ∃ ts stop, tokens = ts ++ stop ∧ NoEnd ts ∧ Optional .endOfFile stop := by
  rcases List.eq_nil_or_concat tokens with rfl | ⟨ts, t, rfl⟩
  · exact ⟨[], [], rfl, .nil, .inl rfl⟩
  · rw [List.concat_eq_append, List.dropLast_concat] at h
    rw [List.concat_eq_append]
    by_cases ht : t.kind = .endOfFile
    · exact ⟨ts, [t], rfl, h, .inr ⟨t, ht, rfl⟩⟩
    · exact ⟨ts ++ [t], [], (List.append_nil _).symm, h.append (.cons rfl ht .nil), .inl rfl⟩

/-- What the parser makes of a token list with no end of the file but at its end: it reports nothing exactly if
the grammar derives the list, and then its tree is that of a derivation of the whole list. -/
theorem parse_accepts_grammar (tokens : List Token) (h : NoEnd tokens.dropLast) :
    ((parse tokens).diagnostics = [] ↔ ∃ items, Program tokens items) ∧
    ((parse tokens).diagnostics = [] →
      ∃ items, (parse tokens).program = .sequence items ∧ Program tokens items) := by
  have hsound : (parse tokens).diagnostics = [] → Program tokens (parse tokens).items := by
    intro hnone
    obtain ⟨ts, stop, rfl, hts, hstop⟩ := exists_noEnd_append h
    refine ⟨ts, stop, rfl, hstop, ?_⟩
    have hrest := Cursor.rest_ofTokens hts hstop
    have hitems : Items (Cursor.ofTokens (ts ++ stop)).rest (parse (ts ++ stop)).items :=
      items_of_parseFrom (Nat.le_refl _) (by rwa [hrest]) hnone
    rwa [hrest] at hitems
  refine ⟨⟨fun hnone => ⟨_, hsound hnone⟩, ?_⟩, fun hnone => ⟨_, rfl, hsound hnone⟩⟩
  rintro ⟨items, ts, stop, rfl, hstop, hitems⟩
  have hrest := Cursor.rest_ofTokens hitems.noEnd hstop
  exact parseFrom_diagnostics hitems hrest (by simp [hrest])

/-- A conditional with a loop in a block, and with operators and calls, is accepted and derived. -/
theorem parse_accepts_grammar_nested :
    let source := "def f(x): if x then {for i = x, i < x, x in g(i); x} else var y = x in x + f(y) * -(x - y);"
    let tokens := (tokenize source 0).1
    (parse tokens).diagnostics = [] ∧ (∃ items, Program tokens items) ∧
      ∃ items, (parse tokens).program = .sequence items ∧ Program tokens items := by
  intro source tokens
  have hend : NoEnd tokens.dropLast := by
    unfold NoEnd
    decide +kernel
  have hnone : (parse tokens).diagnostics = [] := by decide +kernel
  obtain ⟨haccepts, htree⟩ := parse_accepts_grammar tokens hend
  exact ⟨hnone, haccepts.1 hnone, htree hnone⟩

end Monofloat
