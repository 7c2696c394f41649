import Mathlib.Data.List.Forall2
import Monofloat.Proofs.Parsing

/-!
# Reading fewer tokens

A reader looks at the next token, at most two, and decides by its kind. So when it ends, with a result or an error, in
front of the tokens `v`, it ends alike on the tokens without `v`: where it looked at the first token of `v` it did not
take it, and it goes on in the same way at the end of the file. `Agrees x v o n V r r'` says so of two readers, which
may differ in their bounds: the first has `v` behind its tokens, and the second fewer than `n` tokens. The tokens agree
in their kinds, and if `x` holds also in their spans. Besides, if `o` holds, the first reader takes no semicolon but
behind an opening brace.
-/

namespace Monofloat

/-- The second token has the kind of the first, and if `x` holds also its span. -/
structure Token.Like (x : Prop) (t t' : Token) : Prop where
  kind : t'.kind = t.kind
  span : x → t'.span = t.span

/-- No semicolon stands among the tokens, except behind an opening brace. -/
def Guarded : List Token → Prop
  | [] => True
  | t :: ts => t.kind = .symbol .leftBrace ∨ (t.kind ≠ .symbol .semicolon ∧ Guarded ts)

theorem Guarded.append {ts us : List Token} (hts : Guarded ts) (hus : Guarded us) : Guarded (ts ++ us) := by
  induction ts with
  | nil => exact hus
  | cons t ts ih => exact hts.imp_right fun h => ⟨h.1, ih h.2⟩

namespace Cursor

/-- The second cursor has the tokens of the first but for `v`. -/
def Cut (x : Prop) (v : List Token) (c c' : Cursor) : Prop :=
  ∃ w, c.rest = w ++ v ∧ List.Forall₂ (Token.Like x) w c'.rest

/-- The cursors also agree in the token taken last. -/
structure Short (x : Prop) (v : List Token) (c c' : Cursor) : Prop where
  cut : Cut x v c c'
  last : x → c'.last = c.last

section

variable {x : Prop} {v : List Token} {c c' : Cursor}

theorem kind_of_nil (h : c.rest = []) : c.kind = .endOfFile := by
  simp only [kind, h]

theorem Cut.length_eq (h : Cut x v c c') : c.rest.length = c'.rest.length + v.length := by
  obtain ⟨w, hw, hlike⟩ := h
  rw [hw, List.length_append, hlike.length_eq]

/-- The second cursor is at its end, or both have a next token, of the same kind. -/
theorem Cut.cases (h : Cut x v c c') : (c.rest = v ∧ c'.rest = []) ∨
    ∃ t t' rest rest', c.rest = t :: rest ∧ c'.rest = t' :: rest' ∧ t.Like x t' ∧ Short x v c.advance c'.advance := by
  obtain ⟨w, hw, hlike⟩ := h
  cases hc' : c'.rest with
  | nil =>
    rw [hc', List.forall₂_nil_right_iff] at hlike
    exact .inl ⟨by rw [hw, hlike, List.nil_append], rfl⟩
  | cons t' rest' =>
    rw [hc', List.forall₂_cons_right_iff] at hlike
    obtain ⟨t, rest, ht, hrest, rfl⟩ := hlike
    refine .inr ⟨t, t', rest ++ v, rest', hw, rfl, ht, ?_⟩
    rw [advance_of_cons hw, advance_of_cons hc']
    exact ⟨⟨rest, rfl, hrest⟩, ht.span⟩

theorem advance_advance {t u : Token} {rest : List Token} (hc : c.rest = t :: u :: rest) :
    c.advance.advance = { c with rest := rest, last := u.span } := by
  have hrest : c.advance.rest = u :: rest := by rw [advance_of_cons hc]
  rw [advance_of_cons hrest, advance_of_cons hc]

theorem Cut.of_two (h : Cut x v c c') {t' u' : Token} {rest' : List Token} (hc' : c'.rest = t' :: u' :: rest') :
    ∃ t u rest, c.rest = t :: u :: rest ∧ t.Like x t' ∧ u.Like x u' ∧
      Short x v c.advance.advance c'.advance.advance := by
  obtain ⟨w, hw, hlike⟩ := h
  rw [hc', List.forall₂_cons_right_iff] at hlike
  obtain ⟨t, w₁, ht, hlike₁, rfl⟩ := hlike
  rw [List.forall₂_cons_right_iff] at hlike₁
  obtain ⟨u, w₂, hu, hlike₂, rfl⟩ := hlike₁
  refine ⟨t, u, w₂ ++ v, hw, ht, hu, ?_⟩
  rw [advance_advance hw, advance_advance hc']
  exact ⟨⟨w₂, rfl, hlike₂⟩, hu.span⟩

/-- Two tokens that stand in front of `v`. -/
theorem Cut.exists_two (h : Cut x v c c') {t u : Token} {rest : List Token} (hc : c.rest = t :: u :: rest)
    (hv : v.length ≤ rest.length) : ∃ t' u' rest', c'.rest = t' :: u' :: rest' ∧ t.Like x t' ∧ u.Like x u' ∧
      Short x v c.advance.advance c'.advance.advance := by
  have hlength := h.length_eq
  rw [hc, List.length_cons, List.length_cons] at hlength
  obtain ⟨t', us, hc'⟩ := List.exists_cons_of_length_pos (by omega : 0 < c'.rest.length)
  rw [hc', List.length_cons] at hlength
  obtain ⟨u', rest', rfl⟩ := List.exists_cons_of_length_pos (by omega : 0 < us.length)
  obtain ⟨t₁, u₁, rest₁, hrest₁, ht, hu, hshort⟩ := h.of_two hc'
  obtain ⟨rfl, rfl, rfl⟩ : t = t₁ ∧ u = u₁ ∧ rest = rest₁ := by simpa [hc] using hrest₁
  exact ⟨t', u', rest', hc', ht, hu, hshort⟩

theorem Cut.startsAssignment (h : Cut x v c c') (hc' : Grammar.StartsAssignment c'.rest) :
    Grammar.StartsAssignment c.rest := by
  obtain ⟨t', u', rest', name, hrest', ht', hu'⟩ := hc'
  obtain ⟨t, u, rest, hrest, ht, hu, -⟩ := h.of_two hrest'
  exact ⟨t, u, rest, name, hrest, ht.kind.symm.trans ht', hu.kind.symm.trans hu'⟩

end

end Cursor

namespace Reader

open Cursor Grammar

/-! ## What readers take -/

/-- The cursor that the reader leaves. -/
def after {α : Type} (r : Reader α) (c : Cursor) : Cursor :=
  match r c with
  | .ok _ c' => c'
  | .error _ c' => c'

/-- The reader only takes tokens, also when it fails; if `o` holds it takes no semicolon but behind a brace. -/
def Walks {α : Type} (o : Prop) (r : Reader α) : Prop :=
  ∀ c, ∃ ts, (o → Guarded ts) ∧ c.rest = ts ++ (r.after c).rest

section

variable {α β : Type} {o : Prop} {r : Reader α} {f : α → Reader β} {c c' : Cursor}

theorem after_of_ok {a : α} (h : r c = .ok a c') : r.after c = c' := by rw [after, h]

theorem after_of_error {d : Diagnostic} (h : r c = .error d c') : r.after c = c' := by rw [after, h]

theorem after_congr {r' : Reader α} (h : r c = r' c') : r.after c = r'.after c' := by rw [after, h, after]

namespace Walks

theorem suffix (h : r.Walks o) (c : Cursor) : (r.after c).rest <:+ c.rest := by
  obtain ⟨ts, -, hts⟩ := h c
  exact ⟨ts, hts.symm⟩

theorem of_stays (h : ∀ c, r.after c = c) : r.Walks o := fun c => ⟨[], fun _ => trivial, by rw [h c]; rfl⟩

theorem bind (h : r.Walks o) (hf : ∀ a, (f a).Walks o) : (r >>= f).Walks o := by
  intro c
  obtain ⟨ts, hts, hrest⟩ := h c
  cases hr : r c with
  | ok a c₁ =>
    obtain ⟨us, hus, hrest'⟩ := hf a c₁
    rw [after_of_ok hr] at hrest
    rw [after_congr (bind_of_ok hr)]
    exact ⟨ts ++ us, fun ho => (hts ho).append (hus ho), by rw [hrest, hrest', List.append_assoc]⟩
  | error d c₁ =>
    rw [after_of_error hr] at hrest
    rw [after_of_error (bind_of_error hr)]
    exact ⟨ts, hts, hrest⟩

end Walks

end

/-! ## Agreement -/

section

variable (x : Prop) (v : List Token)

/-- Both readers succeeded, with values related by `V`, or both failed for the same reason; and left cursors related
by `R`. -/
inductive Alike {α : Type} (R : Cursor → Cursor → Prop) (V : α → α → Prop) :
    EStateM.Result Diagnostic Cursor α → EStateM.Result Diagnostic Cursor α → Prop
  | ok {a b : α} {c c' : Cursor} (hvalue : V a b) (hcursor : R c c') : Alike R V (.ok a c) (.ok b c')
  | error {d d' : Diagnostic} {c c' : Cursor} (hcode : d'.code = d.code) (hmessage : d'.message = d.message)
    (hcursor : R c c') : Alike R V (.error d c) (.error d' c')

theorem Alike.mono {α : Type} {R R' : Cursor → Cursor → Prop} {V : α → α → Prop}
    {result result' : EStateM.Result Diagnostic Cursor α} (h : Alike R V result result')
    (hR : ∀ c c', R c c' → R' c c') : Alike R' V result result' := by
  cases h with
  | ok hvalue hcursor => exact .ok hvalue (hR _ _ hcursor)
  | error hcode hmessage hcursor => exact .error hcode hmessage (hR _ _ hcursor)

/-- Where the first reader ends in front of `v`, the second one, which has less than `n` tokens, ends alike. -/
structure Agrees {α : Type} (o : Prop) (n : Nat) (V : α → α → Prop) (r r' : Reader α) : Prop where
  walks : r.Walks o
  alike {c c' : Cursor} : Short x v c c' → c'.rest.length < n → v <:+ (r.after c).rest →
    Alike (Short x v) V (r c) (r' c')

/-- In front of a token of kind `k` both readers take it, and agree on what is behind it. -/
inductive Opens {α : Type} (o : Prop) (n : Nat) (V : α → α → Prop) (k : TokenKind) (r r' : Reader α) : Prop
  | intro {inner : Prop} {g g' : Span → Reader α} (hend : k ≠ .endOfFile)
    (hinner : o → k = .symbol .leftBrace ∨ (k ≠ .symbol .semicolon ∧ inner))
    (hr : ∀ c : Cursor, c.kind = k → r c = g c.span c.advance)
    (hr' : ∀ c : Cursor, c.kind = k → r' c = g' c.span c.advance)
    (h : ∀ s s', (x → s' = s) → Agrees x v inner (n - 1) V (g s) (g' s')) : Opens o n V k r r'

end

variable {x : Prop} {v : List Token} {o : Prop} {n m : Nat}

namespace Opens

variable {α : Type} {V : α → α → Prop} {r r' d d' : Reader α} {k : TokenKind} {c c' : Cursor}

theorem walks (h : Opens x v o n V k r r') (hc : c.kind = k) :
    ∃ t ts, (o → Guarded (t :: ts)) ∧ c.rest = t :: ts ++ (r.after c).rest := by
  obtain ⟨hend, hinner, hr, -, hg⟩ := h
  obtain ⟨t, rest, hrest, ht⟩ := exists_cons hc hend
  obtain ⟨ts, hts, hafter⟩ := (hg _ _ fun _ => rfl).walks c.advance
  rw [after_congr (hr c hc), hrest]
  rw [advance_of_cons hrest] at hafter ⊢
  refine ⟨t, ts, fun ho => ?_, congrArg (t :: ·) hafter⟩
  rw [← ht] at hinner
  exact (hinner ho).imp_right fun hk => ⟨hk.1, hts hk.2⟩

theorem ne_endOfFile (h : Opens x v o n V k r r') : k ≠ .endOfFile := by
  obtain ⟨hend, -⟩ := h
  exact hend

/-- The first reader takes a token, so it does not end in front of what it had. -/
theorem not_suffix (h : Opens x v o n V k r r') (hc : c.kind = k) (hrest : c.rest = v) :
    ¬v <:+ (r.after c).rest := by
  intro hv
  obtain ⟨t, ts, -, hts⟩ := h.walks hc
  have hlength := hv.length_le
  rw [← hrest, hts, List.length_append, List.length_cons] at hlength
  omega

theorem alike (h : Opens x v o n V k r r') (hc : c.kind = k) {t t' : Token} {rest rest' : List Token}
    (hrest : c.rest = t :: rest) (hrest' : c'.rest = t' :: rest') (ht : t.Like x t')
    (hshort : Short x v c.advance c'.advance) (hn : c'.rest.length < n) (hv : v <:+ (r.after c).rest) :
    Alike (Short x v) V (r c) (r' c') := by
  obtain ⟨-, -, hr, hr', hg⟩ := h
  have hc' : c'.kind = k := by rw [kind_of_cons hrest', ht.kind, ← kind_of_cons hrest, hc]
  rw [after_congr (hr c hc), span_of_cons hrest] at hv
  rw [hr c hc, hr' c' hc', span_of_cons hrest, span_of_cons hrest']
  refine (hg _ _ ht.span).alike hshort ?_ hv
  rw [hrest', List.length_cons] at hn
  rw [advance_of_cons hrest']
  exact Nat.lt_sub_of_add_lt hn

theorem of_peek {f f' : TokenKind → Reader α} (h : Opens x v o n V k (f k) (f' k)) :
    Opens x v o n V k (peek >>= f) (peek >>= f') := by
  obtain ⟨hend, hinner, hr, hr', hg⟩ := h
  refine .intro hend hinner (fun c hc => ?_) (fun c hc => ?_) hg
  · rw [peek_bind, hc, hr c hc]
  · rw [peek_bind, hc, hr' c hc]

/-- The readers take the next token, or go on as they do at the end of the file. -/
theorem alike_or_stays (hend : ∀ c, c.kind = .endOfFile → r' c = d' c)
    (hr : ∀ k, (∀ c, c.kind = k → r c = d c ∧ r' c = d' c) ∨ Opens x v o n V k r r')
    (hc : Cut x v c c') (hn : c'.rest.length < n) (hv : v <:+ (r.after c).rest) :
    (r c = d c ∧ r' c' = d' c') ∨ Alike (Short x v) V (r c) (r' c') := by
  obtain ⟨hrest, hrest'⟩ | ⟨t, t', rest, rest', hrest, hrest', ht, hshort⟩ := hc.cases
  · -- The second reader is at its end; so the first one must not take the first token of `v`.
    obtain hstays | hopens := hr c.kind
    · exact .inl ⟨(hstays c rfl).1, hend c' (kind_of_nil hrest')⟩
    · exact absurd hv (hopens.not_suffix rfl hrest)
  · have hkind' : c'.kind = c.kind := by rw [kind_of_cons hrest', ht.kind, kind_of_cons hrest]
    obtain hstays | hopens := hr c.kind
    · exact .inl ⟨(hstays c rfl).1, (hstays c' hkind').2⟩
    · exact .inr (hopens.alike rfl hrest hrest' ht hshort hn hv)

end Opens

namespace Agrees

variable {α β : Type} {V : α → α → Prop} {W : β → β → Prop} {r r' r'' d d' : Reader α} {f f' : α → Reader β}

theorem mono (h : Agrees x v o n V r r') (hle : m ≤ n) : Agrees x v o m V r r' :=
  ⟨h.walks, fun hc hm => h.alike hc (Nat.lt_of_lt_of_le hm hle)⟩

theorem inner (h : Agrees x v o n V r r') : Agrees x v False n V r r' :=
  ⟨fun c => (h.walks c).imp fun _ hts => ⟨False.elim, hts.2⟩, h.alike⟩

/-- The second reader may be replaced by one that does the same with so few tokens. -/
theorem congr_right (h : Agrees x v o n V r r') (heq : ∀ c, c.rest.length < n → r'' c = r' c) :
    Agrees x v o n V r r'' :=
  ⟨h.walks, fun hc hn hv => by rw [heq _ hn]; exact h.alike hc hn hv⟩

theorem bind (h : Agrees x v o n V r r') (hV : ∀ a, V a a)
    (hf : ∀ a b, V a b → Agrees x v o n W (f a) (f' b)) : Agrees x v o n W (r >>= f) (r' >>= f') := by
  have hwalks (a : α) : (f a).Walks o := (hf a a (hV a)).walks
  refine ⟨h.walks.bind hwalks, fun {c c'} hc hn hv => ?_⟩
  have hsuffix := h.walks.suffix c
  cases hr : r c with
  | ok a c₁ =>
    rw [after_congr (bind_of_ok hr)] at hv
    rw [after_of_ok hr] at hsuffix
    have hinside : v <:+ (r.after c).rest := after_of_ok hr ▸ hv.trans ((hwalks a).suffix c₁)
    have halike := h.alike hc hn hinside
    rw [hr] at halike
    generalize hr' : r' c' = result at halike
    cases halike with
    | ok hvalue hcursor =>
      rw [bind_of_ok hr, bind_of_ok hr']
      refine (hf _ _ hvalue).alike hcursor ?_ hv
      have := hc.cut.length_eq
      have := hcursor.cut.length_eq
      have := hsuffix.length_le
      omega
  | error d c₁ =>
    rw [after_of_error (bind_of_error hr)] at hv
    have halike := h.alike hc hn (after_of_error hr ▸ hv)
    rw [hr] at halike
    generalize hr' : r' c' = result at halike
    cases halike with
    | error hcode hmessage hcursor =>
      rw [bind_of_error hr, bind_of_error hr']
      exact .error hcode hmessage hcursor

/-- Two readers that give the same value. -/
theorem bind_eq (h : Agrees x v o n (· = ·) r r') (hf : ∀ a, Agrees x v o n W (f a) (f' a)) :
    Agrees x v o n W (r >>= f) (r' >>= f') :=
  h.bind (fun _ => rfl) fun a _ hab => hab ▸ hf a

theorem pure {a b : α} (h : V a b) : Agrees x v o n V (Pure.pure a) (Pure.pure b) :=
  ⟨.of_stays fun _ => rfl, fun hc _ _ => .ok h hc⟩

theorem fail (code : Code) (message : String) :
    Agrees x v o n V (Reader.fail code message) (Reader.fail code message) :=
  ⟨.of_stays fun _ => rfl, fun hc _ _ => .error rfl rfl hc⟩

/-- By the kind of the next token: the readers take it, or go on as they do at the end of the file. -/
theorem of_kind (hd : Agrees x v o n V d d') (hend : ∀ c, c.kind = .endOfFile → r' c = d' c)
    (hr : ∀ k, (∀ c, c.kind = k → r c = d c ∧ r' c = d' c) ∨ Opens x v o n V k r r') : Agrees x v o n V r r' := by
  constructor
  case walks =>
    intro c
    obtain hstays | hopens := hr c.kind
    · rw [after_congr (hstays c rfl).1]
      exact hd.walks c
    · obtain ⟨t, ts, hts⟩ := hopens.walks rfl
      exact ⟨t :: ts, hts⟩
  case alike =>
    intro c c' hc hn hv
    obtain ⟨hk, hk'⟩ | halike := Opens.alike_or_stays hend hr hc.cut hn hv
    · rw [after_congr hk] at hv
      rw [hk, hk']
      exact hd.alike hc hn hv
    · exact halike

theorem peek {f f' : TokenKind → Reader α} (hd : Agrees x v o n V d d') (hend : f' .endOfFile = d')
    (hf : ∀ k, (f k = d ∧ f' k = d') ∨ Opens x v o n V k (f k) (f' k)) :
    Agrees x v o n V (Reader.peek >>= f) (Reader.peek >>= f') := by
  refine .of_kind hd (fun c hc => by rw [peek_bind, hc, hend]) fun k => ?_
  refine (hf k).imp (fun hstays c hc => ?_) Opens.of_peek
  rw [peek_bind, peek_bind, hc, hstays.1, hstays.2]
  exact ⟨rfl, rfl⟩

/-- A reader that asks for one kind, which it takes. -/
theorem peek_ite {close close' : Reader α} {k : TokenKind} (hd : Agrees x v o n V d d')
    (hclose : Opens x v o n V k close close') :
    Agrees x v o n V (Reader.peek >>= fun kind => if kind = k then close else d)
      (Reader.peek >>= fun kind => if kind = k then close' else d') := by
  refine .peek hd (if_neg hclose.ne_endOfFile.symm) fun kind => ?_
  by_cases hkind : kind = k
  · rw [if_pos hkind, if_pos hkind, hkind]
    exact .inr hclose
  · exact .inl ⟨if_neg hkind, if_neg hkind⟩

/-- A reader that has a bound, the number of tokens that it has left. -/
theorem tokensLeft {f f' : Nat → Reader α}
    (h : ∀ m m', m' ≤ m → Agrees x v o (min n (m' + 1)) V (f m) (f' m')) :
    Agrees x v o n V (Reader.tokensLeft >>= f) (Reader.tokensLeft >>= f') := by
  constructor
  case walks => exact fun c => (h c.rest.length 0 (Nat.zero_le _)).walks c
  case alike =>
    intro c c' hc hn hv
    rw [tokensLeft_bind, tokensLeft_bind]
    refine (h _ _ ?_).alike hc (Nat.lt_min.2 ⟨hn, Nat.lt_succ_self _⟩) hv
    rw [hc.cut.length_eq]
    exact Nat.le_add_right _ _

end Agrees

/-! ## Tokens -/

/-- A kind of token that readers may take, outside of braces if `o` holds. -/
structure Plain (o : Prop) (k : TokenKind) : Prop where
  ne_endOfFile : k ≠ .endOfFile
  ne_semicolon : o → k ≠ .symbol .semicolon

theorem discard_bind {α β : Type} (r : Reader α) (f : PUnit → Reader β) : discard r >>= f = r >>= fun _ => f ⟨⟩ := by
  funext c
  cases hr : r c with
  | ok a c₁ => rw [bind_of_ok hr, bind_of_ok (discard_of_ok hr)]
  | error d c₁ =>
    have hd : (discard r : Reader PUnit) c = .error d c₁ := bind_of_error hr
    rw [bind_of_error hr, bind_of_error hd]

theorem accept_bind {α : Type} (k : TokenKind) (f : Bool → Reader α) :
    accept k >>= f = peek >>= fun kind => if kind = k then take >>= fun _ => f true else f false := by
  funext c
  rw [peek_bind]
  by_cases hk : c.kind = k
  · rw [if_pos hk, bind_of_ok (if_pos hk : accept k c = _)]
    rfl
  · rw [if_neg hk, bind_of_ok (if_neg hk : accept k c = _)]

theorem expect_bind {α : Type} (k : TokenKind) (message : String) (g : Span → Reader α) :
    expect k message >>= g = peek >>= fun kind => if kind = k then take >>= g else fail .unexpectedToken message := by
  rw [expect, bind_assoc]
  congr 1
  funext kind
  split <;> rfl

section

variable {α : Type} {V : α → α → Prop} {k : TokenKind} {f f' : Bool → Reader α} {g g' : Span → Reader α}

theorem opens_take (hk : Plain o k) (h : ∀ s s', (x → s' = s) → Agrees x v o (n - 1) V (g s) (g' s')) :
    Opens x v o n V k (take >>= g) (take >>= g') :=
  .intro hk.ne_endOfFile (fun ho => .inr ⟨hk.ne_semicolon ho, ho⟩) (fun _ _ => rfl) (fun _ _ => rfl) h

theorem opens_expect (hk : Plain o k) (message : String)
    (h : ∀ s s', (x → s' = s) → Agrees x v o n V (g s) (g' s')) :
    Opens x v o n V k (expect k message >>= g) (expect k message >>= g') := by
  refine .intro hk.ne_endOfFile (fun ho => .inr ⟨hk.ne_semicolon ho, ho⟩) (fun c hc => ?_) (fun c hc => ?_)
    fun s s' hs => (h s s' hs).mono (Nat.sub_le n 1)
  all_goals
    rw [expect_bind, peek_bind, if_pos hc]
    rfl

theorem agrees_accept (hk : Plain o k) (htrue : Agrees x v o n V (f true) (f' true))
    (hfalse : Agrees x v o n V (f false) (f' false)) : Agrees x v o n V (accept k >>= f) (accept k >>= f') := by
  rw [accept_bind, accept_bind]
  exact .peek_ite hfalse (opens_take hk fun _ _ _ => htrue.mono (Nat.sub_le n 1))

theorem agrees_expect (hk : Plain o k) (message : String)
    (h : ∀ s s', (x → s' = s) → Agrees x v o n V (g s) (g' s')) :
    Agrees x v o n V (expect k message >>= g) (expect k message >>= g') := by
  rw [expect_bind, expect_bind]
  exact .peek_ite (.fail .unexpectedToken message) (opens_take hk fun s s' hs => (h s s' hs).mono (Nat.sub_le n 1))

theorem agrees_identifier (message : String) :
    Agrees x v o n (· = ·) (identifier message) (identifier message) := by
  refine .peek (.fail .expectedIdentifier message) rfl fun kind => ?_
  cases kind with
  | identifier name =>
    right
    simp only [discard_bind]
    exact opens_take ⟨by simp, by simp⟩ fun _ _ _ => .pure rfl
  | _ => exact .inl ⟨rfl, rfl⟩

end

/-! ## Repetition -/

section

variable {σ α : Type} {V : α → α → Prop} {L L' : Nat → σ → Reader α} {F F' : Nat → σ → TokenKind → Reader α}

theorem loop_of_length (hL' : ∀ m s, L' (m + 1) s = peek >>= F' m s) (hend : ∀ m s, F' m s .endOfFile = L' 0 s)
    (hn : n ≤ 1) (m : Nat) (s : σ) {c : Cursor} (hc : c.rest.length < n) : L' m s c = L' 0 s c := by
  have hkind : c.kind = .endOfFile := kind_of_nil (List.eq_nil_of_length_eq_zero (by omega))
  cases m with
  | zero => rfl
  | succ m => rw [hL', peek_bind, hkind, hend]

/-- Loops with a bound on their rounds. A round that goes on takes a token, and the end of the file ends the loop. -/
theorem agrees_loop (hL : ∀ m s, L (m + 1) s = peek >>= F m s) (hL' : ∀ m s, L' (m + 1) s = peek >>= F' m s)
    (hend : ∀ m s, F' m s .endOfFile = L' 0 s) (hzero : ∀ s, Agrees x v o n V (L 0 s) (L' 0 s))
    (hround : ∀ j ≤ n, ∀ m m', (∀ s, Agrees x v o (j - 1) V (L m s) (L' m' s)) → ∀ s k,
      (F m s k = L 0 s ∧ F' m' s k = L' 0 s) ∨ Opens x v o j V k (F m s k) (F' m' s k))
    {m m' : Nat} (hm : n - 1 ≤ m) (hm' : n - 1 ≤ m') (s : σ) : Agrees x v o n V (L m s) (L' m' s) := by
  suffices hall : ∀ j ≤ n, j - 1 ≤ m → j - 1 ≤ m' → ∀ s, Agrees x v o j V (L m s) (L' m' s) from
    hall n (Nat.le_refl n) hm hm' s
  clear hm hm' s
  intro j hj hm hm' s
  induction m generalizing m' j s with
  | zero => exact ((hzero s).mono hj).congr_right fun c hc => loop_of_length hL' hend (by omega) m' s hc
  | succ m ih =>
    have hsucc (m' : Nat) (hm' : j - 1 ≤ m' + 1) : Agrees x v o j V (L (m + 1) s) (L' (m' + 1) s) := by
      rw [hL, hL']
      refine .peek ((hzero s).mono hj) (hend m' s) (hround j hj m m' (fun s => ?_) s)
      exact ih (j - 1) (by omega) (by omega) (by omega) s
    cases m' with
    | zero =>
      exact (hsucc 0 (by omega)).congr_right fun c hc => (loop_of_length hL' hend (by omega) 1 s hc).symm
    | succ m' => exact hsucc m' hm'

/-- Loops that go on behind a token of kind `k`. -/
theorem agrees_accepting (L L' : Nat → σ → Reader α) {G G' : Nat → σ → Reader α} {k : TokenKind} (hk : Plain o k)
    (hL : ∀ m s, L (m + 1) s = accept k >>= fun found => if found then G m s else L 0 s)
    (hL' : ∀ m s, L' (m + 1) s = accept k >>= fun found => if found then G' m s else L' 0 s)
    (hzero : ∀ s, Agrees x v o n V (L 0 s) (L' 0 s))
    (hround : ∀ j ≤ n, ∀ m m', (∀ s, Agrees x v o (j - 1) V (L m s) (L' m' s)) → ∀ s,
      Agrees x v o (j - 1) V (G m s) (G' m' s))
    {m m' : Nat} (hm : n - 1 ≤ m) (hm' : n - 1 ≤ m') (s : σ) : Agrees x v o n V (L m s) (L' m' s) := by
  refine agrees_loop (fun m s => (hL m s).trans (accept_bind k _)) (fun m s => (hL' m s).trans (accept_bind k _))
    (fun m s => if_neg hk.ne_endOfFile.symm) hzero (fun j hj m m' hrec s kind => ?_) hm hm' s
  by_cases hkind : kind = k
  · rw [if_pos hkind, if_pos hkind, hkind]
    exact .inr (opens_take hk fun _ _ _ => hround j hj m m' hrec s)
  · exact .inl ⟨if_neg hkind, if_neg hkind⟩

end

section

variable {α : Type} {operand operand' : Reader α} {k : TokenKind}

theorem agrees_chained {join : TokenKind → Option (α → α → α)} (hend : join .endOfFile = none)
    (hsemi : join (.symbol .semicolon) = none) (h : Agrees x v o n (· = ·) operand operand') :
    Agrees x v o n (· = ·) (chained operand join) (chained operand' join) := by
  refine h.bind_eq fun left => .tokensLeft fun m m' hle => ?_
  refine agrees_loop (fun _ _ => rfl) (fun _ _ => rfl) (fun m s => by rw [hend]; rfl) (fun _ => .pure rfl) ?_
    (by omega) (by omega) left
  intro j hj m m' hrec left k
  cases hk : join k with
  | none => exact .inl ⟨rfl, rfl⟩
  | some op =>
    have hplain : Plain o k := ⟨fun heq => by simp [heq, hend] at hk, fun _ heq => by simp [heq, hsemi] at hk⟩
    right
    simp only [discard_bind]
    exact opens_take hplain fun _ _ _ => (h.mono (by omega)).bind_eq fun right => hrec (op left right)

theorem agrees_repeated (hk : Plain o k) (wrap : α → α) (h : Agrees x v o n (· = ·) operand operand') :
    Agrees x v o n (· = ·) (repeated k wrap operand) (repeated k wrap operand') := by
  refine .tokensLeft fun m m' hle => ?_
  refine agrees_accepting (fun m (_ : Unit) => repeatedFrom k wrap operand m)
    (fun m _ => repeatedFrom k wrap operand' m) hk (fun _ _ => rfl) (fun _ _ => rfl)
    (fun _ => h.mono (Nat.min_le_left _ _)) (fun j hj m m' hrec _ => ?_) (by omega) (by omega) ()
  exact (hrec ()).bind_eq fun _ => .pure rfl

theorem agrees_separated (hk : Plain o k) (h : Agrees x v o n (· = ·) operand operand') :
    Agrees x v o n (· = ·) (separated k operand) (separated k operand') := by
  refine h.bind_eq fun first => .tokensLeft fun m m' hle => .bind_eq ?_ fun _ => .pure rfl
  refine agrees_accepting (fun m (_ : Unit) => separatedFrom k operand m)
    (fun m _ => separatedFrom k operand' m) hk (fun _ _ => rfl) (fun _ _ => rfl)
    (fun _ => .pure rfl) (fun j hj m m' hrec _ => ?_) (by omega) (by omega) ()
  exact (h.mono (by omega)).bind_eq fun _ => (hrec ()).bind_eq fun _ => .pure rfl

end

/-! ## Expressions -/

theorem Plain.keyword (w : Keyword) : Plain o (.keyword w) := ⟨by simp, by simp⟩

section

variable {e e' : Reader Tree}

theorem agrees_binding (h : Agrees x v o n (· = ·) e e') : Agrees x v o n (· = ·) (binding e) (binding e') := by
  simp only [binding, discard_bind]
  refine (agrees_identifier _).bind_eq fun name => agrees_expect ⟨by simp, by simp⟩ _ fun _ _ _ => ?_
  exact h.bind_eq fun _ => .pure rfl

theorem agrees_arguments (h : Agrees x v o n (· = ·) e e') : Agrees x v o n (· = ·) (arguments e) (arguments e') := by
  have hk : Plain o (.symbol .rightParen) := ⟨by simp, by simp⟩
  have hcomma : Plain o (.symbol .comma) := ⟨by simp, by simp⟩
  simp only [arguments, discard_bind]
  refine .peek_ite ((agrees_separated hcomma h).bind_eq fun args => ?_) ?_
  · exact agrees_expect hk _ fun _ _ _ => .pure rfl
  · exact opens_expect hk _ fun _ _ _ => .pure rfl

/-- A block behind its statements. -/
def closeStatements (first : Tree) (rest : List Tree) : Reader Tree := do
  discard (expect (.symbol .rightBrace) "expected `\x7d` to close block")
  return .statements first rest

theorem statementsFrom_bind {α : Type} (e : Reader Tree) (m : Nat) (f : List Tree → Reader α) :
    statementsFrom e (m + 1) >>= f = accept (.symbol .semicolon) >>= fun found =>
      if found then peek >>= fun kind =>
        if kind = .symbol .rightBrace then f []
        else e >>= fun first => statementsFrom e m >>= fun rest => f (first :: rest)
      else statementsFrom e 0 >>= f := by
  rw [statementsFrom.eq_def e (m + 1), bind_assoc]
  congr 1
  funext found
  cases found with
  | false => rfl
  | true =>
    rw [if_pos rfl, if_pos rfl, bind_assoc]
    congr 1
    funext kind
    split
    · rw [pure_bind]
    · simp only [bind_assoc, pure_bind]

theorem agrees_statements (h : Agrees x v False n (· = ·) e e') :
    Agrees x v False n (· = ·) (statements e) (statements e') := by
  have hk : Plain False (.symbol .rightBrace) := ⟨by simp, by simp⟩
  refine h.bind_eq fun first => .tokensLeft fun m m' hle => ?_
  -- A semicolon may be the last token that the second reader has, so the closing brace is part of the loop.
  refine agrees_accepting (fun m done => statementsFrom e m >>= fun rest => closeStatements first (done ++ rest))
    (fun m done => statementsFrom e' m >>= fun rest => closeStatements first (done ++ rest)) ⟨by simp, False.elim⟩
    (fun m done => statementsFrom_bind e m _) (fun m done => statementsFrom_bind e' m _)
    (fun done => ?_) (fun j hj m m' hrec done => ?_) (by omega) (by omega) []
  all_goals simp only [closeStatements, discard_bind]
  · exact agrees_expect hk _ fun _ _ _ => .pure rfl
  · refine .peek_ite ((h.mono (by omega)).bind_eq fun next => ?_) (opens_expect hk _ fun _ _ _ => .pure rfl)
    simpa only [closeStatements, discard_bind, List.append_assoc, List.singleton_append] using hrec (done ++ [next])

theorem agrees_conditional (h : Agrees x v o n (· = ·) e e') :
    Agrees x v o n (· = ·) (conditional e) (conditional e') := by
  simp only [conditional, discard_bind]
  refine h.bind_eq fun cond => agrees_expect (.keyword _) _ fun _ _ _ => ?_
  refine h.bind_eq fun thenArm => agrees_expect (.keyword _) _ fun _ _ _ => ?_
  exact h.bind_eq fun elseArm => .pure rfl

theorem agrees_block (h : Agrees x v o n (· = ·) e e') : Agrees x v o n (· = ·) (block e) (block e') := by
  simp only [block, discard_bind]
  refine (agrees_separated ⟨by simp, by simp⟩ (agrees_binding h)).bind_eq fun bindings => ?_
  refine agrees_expect (.keyword _) _ fun _ _ _ => ?_
  exact h.bind_eq fun body => .pure rfl

theorem agrees_loopHeader (h : Agrees x v o n (· = ·) e e') :
    Agrees x v o n (· = ·) (loopHeader e) (loopHeader e') := by
  refine agrees_accept (.keyword _) ?_ ?_
  all_goals exact (agrees_binding h).bind_eq fun _ => .pure rfl

theorem agrees_forLoop (h : Agrees x v o n (· = ·) e e') : Agrees x v o n (· = ·) (forLoop e) (forLoop e') := by
  have hcomma : Plain o (.symbol .comma) := ⟨by simp, by simp⟩
  simp only [forLoop, discard_bind]
  refine (agrees_loopHeader h).bind_eq fun header => agrees_expect hcomma _ fun _ _ _ => ?_
  refine h.bind_eq fun cond => agrees_expect hcomma _ fun _ _ _ => ?_
  refine h.bind_eq fun step => agrees_expect (.keyword _) _ fun _ _ _ => ?_
  exact h.bind_eq fun body => .pure rfl

theorem agrees_reference (h : Agrees x v o n (· = ·) e e') (name : String) :
    Agrees x v o n (· = ·) (reference e name) (reference e' name) := by
  refine agrees_accept ⟨by simp, by simp⟩ ?_ (.pure rfl)
  exact (agrees_arguments h).bind_eq fun args => .pure rfl

theorem agrees_parenthesized (h : Agrees x v o n (· = ·) e e') :
    Agrees x v o n (· = ·) (parenthesized e) (parenthesized e') := by
  simp only [parenthesized, discard_bind]
  exact h.bind_eq fun inner => agrees_expect ⟨by simp, by simp⟩ _ fun _ _ _ => .pure rfl

/-- Every expression inside a primary one stands behind a token of it. -/
theorem agrees_primary (h : Agrees x v o (n - 1) (· = ·) e e') :
    Agrees x v o n (· = ·) (primary e) (primary e') := by
  refine .peek (.fail .expectedExpression "expected expression") rfl fun kind => ?_
  simp only [discard_bind]
  split
  case h_1 => exact .inr (opens_take ⟨by simp, by simp⟩ fun _ _ _ => .pure rfl)
  case h_2 name => exact .inr (opens_take ⟨by simp, by simp⟩ fun _ _ _ => agrees_reference h name)
  case h_3 => exact .inr (opens_take ⟨by simp, by simp⟩ fun _ _ _ => agrees_parenthesized h)
  case h_4 =>
    exact .inr (.intro (by simp) (fun _ => .inl rfl) (fun _ _ => rfl) (fun _ _ => rfl)
      fun _ _ _ => agrees_statements h.inner)
  case h_5 => exact .inr (opens_take (.keyword _) fun _ _ _ => agrees_conditional h)
  case h_6 => exact .inr (opens_take (.keyword _) fun _ _ _ => agrees_block h)
  case h_7 => exact .inr (opens_take (.keyword _) fun _ _ _ => agrees_forLoop h)
  case h_8 => exact .inl ⟨rfl, rfl⟩

theorem agrees_disjunction (h : Agrees x v o (n - 1) (· = ·) e e') :
    Agrees x v o n (· = ·) (disjunction e) (disjunction e') := by
  have hnegation : Agrees x v o n (· = ·) (negation e) (negation e') :=
    agrees_repeated ⟨by simp, by simp⟩ _ (agrees_primary h)
  have hproduct : Agrees x v o n (· = ·) (product e) (product e') :=
    agrees_chained rfl rfl hnegation
  have hsum : Agrees x v o n (· = ·) (sum e) (sum e') :=
    agrees_chained rfl rfl hproduct
  have hcomparison : Agrees x v o n (· = ·) (comparison e) (comparison e') :=
    agrees_chained rfl rfl hsum
  have hinversion : Agrees x v o n (· = ·) (inversion e) (inversion e') :=
    agrees_repeated (.keyword _) _ hcomparison
  have hconjunction : Agrees x v o n (· = ·) (conjunction e) (conjunction e') :=
    agrees_chained rfl rfl hinversion
  exact agrees_chained rfl rfl hconjunction

section

variable {α : Type} {V : α → α → Prop} {F F' : Option String → Reader α} {g g' : String → Reader α} {c : Cursor}

theorem target?_bind_of_startsAssignment (hF : ∀ name, F (some name) = take >>= fun _ => take >>= fun _ => g name)
    {t u : Token} {rest : List Token} {name : String} (hc : c.rest = t :: u :: rest) (ht : t.kind = .identifier name)
    (hu : u.kind = .symbol .equal) : (target? >>= F) c = g name c.advance.advance := by
  obtain ⟨kt, st⟩ := t
  obtain ⟨ku, su⟩ := u
  cases ht
  cases hu
  have htarget : target? c = .ok (some name) c := by simp only [target?, hc]
  rw [bind_of_ok htarget, hF]
  rfl

theorem target?_bind_of_not_startsAssignment (h : ¬StartsAssignment c.rest) : (target? >>= F) c = F none c := by
  have htarget : target? c = .ok none c := by
    unfold target?
    split
    · next name s s' us hrest => exact absurd ⟨_, _, us, name, hrest, rfl, rfl⟩ h
    · rfl
  exact bind_of_ok htarget

/-- An assignment takes the two tokens that show it to be one. -/
theorem agrees_target (hF : ∀ name, F (some name) = take >>= fun _ => take >>= fun _ => g name)
    (hF' : ∀ name, F' (some name) = take >>= fun _ => take >>= fun _ => g' name)
    (hnone : Agrees x v o n V (F none) (F' none)) (hsome : ∀ name, Agrees x v o (n - 1) V (g name) (g' name)) :
    Agrees x v o n V (target? >>= F) (target? >>= F') := by
  constructor
  case walks =>
    intro c
    by_cases h : StartsAssignment c.rest
    · obtain ⟨t, u, rest, name, hrest, ht, hu⟩ := h
      obtain ⟨ts, hts, hafter⟩ := (hsome name).walks c.advance.advance
      rw [after_congr (target?_bind_of_startsAssignment hF hrest ht hu)]
      rw [advance_advance hrest] at hafter ⊢
      refine ⟨t :: u :: ts, fun ho => ?_, hrest.trans (congrArg (fun us => t :: u :: us) hafter)⟩
      exact .inr ⟨by simp [ht], .inr ⟨by simp [hu], hts ho⟩⟩
    · rw [after_congr (target?_bind_of_not_startsAssignment h)]
      exact hnone.walks c
  case alike =>
    intro c c' hc hn hv
    by_cases h : StartsAssignment c.rest
    · obtain ⟨t, u, rest, name, hrest, ht, hu⟩ := h
      have hread := target?_bind_of_startsAssignment hF hrest ht hu
      rw [after_congr hread] at hv
      -- Neither of the two tokens is one of `v`, so the second reader has both.
      have hle : v.length ≤ rest.length := by
        simpa only [advance_advance hrest] using (hv.trans ((hsome name).walks.suffix _)).length_le
      obtain ⟨t', u', rest', hrest', ht', hu', hshort⟩ := hc.cut.exists_two hrest hle
      rw [hread, target?_bind_of_startsAssignment hF' hrest' (ht'.kind.trans ht) (hu'.kind.trans hu)]
      refine (hsome name).alike hshort ?_ hv
      rw [hrest', List.length_cons, List.length_cons] at hn
      simp only [advance_advance hrest']
      omega
    · have h' : ¬StartsAssignment c'.rest := fun h' => h (hc.cut.startsAssignment h')
      rw [after_congr (target?_bind_of_not_startsAssignment h)] at hv
      rw [target?_bind_of_not_startsAssignment h, target?_bind_of_not_startsAssignment h']
      exact hnone.alike hc hn hv

end

theorem agrees_assignment (h : Agrees x v o (n - 1) (· = ·) e e') :
    Agrees x v o n (· = ·) (assignment e) (assignment e') := by
  refine agrees_accept ⟨by simp, by simp⟩ ?_ ?_
  · exact (agrees_identifier _).bind_eq fun name => .pure rfl
  · refine agrees_target (fun name => ?_) (fun name => ?_) (agrees_disjunction h) fun name =>
      h.bind_eq fun value => .pure (rfl : Tree.assign name value = _)
    all_goals simp only [discard_bind]

/-- Every expression inside another stands behind a token of it, so the bounds are as good as the number of tokens. -/
theorem agrees_expressionTo {depth depth' : Nat} (hd : n ≤ depth) (hd' : n ≤ depth') :
    Agrees x v o n (· = ·) (expressionTo depth) (expressionTo depth') := by
  induction depth generalizing n depth' with
  | zero => exact ⟨.of_stays fun _ => rfl, fun _ hn => absurd hn (by omega)⟩
  | succ depth ih =>
    cases depth' with
    | zero =>
      have hwalks := (agrees_assignment (@ih (n - 1) 0 (by omega) (by omega))).walks
      exact ⟨hwalks, fun _ hn => absurd hn (by omega)⟩
    | succ depth' => exact agrees_assignment (ih (by omega) (by omega))

theorem agrees_wholeExpression : Agrees x v o n (· = ·) wholeExpression wholeExpression :=
  .tokensLeft fun m m' hle => agrees_expressionTo (by omega) (by omega)

end

end Reader

/-! ## Declarations -/

/-- The second prototype is the first, but for its span if `x` does not hold. -/
structure Prototype.Like (x : Prop) (proto proto' : Prototype) : Prop where
  name : proto'.name = proto.name
  params : proto'.params = proto.params
  span : x → proto'.span = proto.span

theorem Prototype.Like.refl {x : Prop} (proto : Prototype) : proto.Like x proto := ⟨rfl, rfl, fun _ => rfl⟩

/-- The second declaration is the first, but for the spans if `x` does not hold. -/
inductive Tree.Like (x : Prop) : Tree → Tree → Prop
  | function {proto proto' : Prototype} {body : Tree} {s s' : Span} (hproto : proto.Like x proto')
    (hspan : x → s' = s) : Like x (.function proto body s) (.function proto' body s')
  | prototype {proto proto' : Prototype} (hproto : proto.Like x proto') : Like x (.prototype proto) (.prototype proto')
  | global {name : String} {s s' : Span} (hspan : x → s' = s) : Like x (.global name s) (.global name s')

namespace Reader

open Cursor

variable {x : Prop} {v : List Token} {o : Prop} {n : Nat}

/-- A prototype behind its name. -/
def parameters (start : Span) (name : String) : Reader Prototype := do
  discard (expect (.symbol .leftParen) "expected `(` after function name")
  let params ←
    if (← peek) = .symbol .rightParen then pure []
    else separated (.symbol .comma) (identifier "expected parameter name")
  let stop ← expect (.symbol .rightParen) "expected `)` after parameters"
  return { name := name, params := params, span := start.cover stop }

theorem prototype_of_identifier {c : Cursor} {name : String} (hc : c.kind = .identifier name) :
    prototype c = parameters c.span name c.advance := by
  have hname : identifier "expected function name" c = .ok name c.advance := by
    rw [identifier, peek_bind, hc]
    rfl
  show (identifier "expected function name" >>= parameters c.span) c = _
  exact bind_of_ok hname

theorem prototype_of_ne {c : Cursor} (hc : ∀ name, c.kind ≠ .identifier name) :
    prototype c = fail .expectedIdentifier "expected function name" c := by
  have hname : identifier "expected function name" c = fail .expectedIdentifier "expected function name" c := by
    rw [identifier, peek_bind]
    cases hkind : c.kind with
    | identifier name => exact absurd hkind (hc name)
    | _ => rfl
  show (identifier "expected function name" >>= parameters c.span) c = _
  exact bind_of_error hname

theorem agrees_parameters {s s' : Span} (hs : x → s' = s) (name : String) :
    Agrees x v o n (Prototype.Like x) (parameters s name) (parameters s' name) := by
  have hk : Plain o (.symbol .rightParen) := ⟨by simp, by simp⟩
  have hclose (params : List String) (s₁ s₁' : Span) (hs₁ : x → s₁' = s₁) : Agrees x v o n (Prototype.Like x)
      (pure { name := name, params := params, span := s.cover s₁ })
      (pure { name := name, params := params, span := s'.cover s₁' }) :=
    .pure ⟨rfl, rfl, fun hx => by rw [hs hx, hs₁ hx]⟩
  simp only [parameters, discard_bind]
  refine agrees_expect ⟨by simp, by simp⟩ _ fun _ _ _ => .peek_ite ?_ ?_
  · refine (agrees_separated ⟨by simp, by simp⟩ (agrees_identifier _)).bind_eq fun params => ?_
    exact agrees_expect hk _ (hclose params)
  · exact opens_expect hk _ (hclose [])

theorem agrees_prototype : Agrees x v o n (Prototype.Like x) prototype prototype := by
  refine .of_kind (.fail .expectedIdentifier "expected function name") (fun c hc => prototype_of_ne (by simp [hc]))
    fun k => ?_
  by_cases hk : ∃ name, k = .identifier name
  · obtain ⟨name, rfl⟩ := hk
    exact .inr (.intro (by simp) (fun ho => .inr ⟨by simp, ho⟩) (fun c => prototype_of_identifier)
      (fun c => prototype_of_identifier) fun s s' hs => agrees_parameters hs name)
  · refine .inl fun c hc => ?_
    have hne : ∀ name, c.kind ≠ .identifier name := fun name hname => hk ⟨name, hc.symm.trans hname⟩
    exact ⟨prototype_of_ne hne, prototype_of_ne hne⟩

theorem agrees_last {α : Type} {V : α → α → Prop} {f f' : Cursor → α}
    (h : ∀ c c', (x → c'.last = c.last) → V (f c) (f' c')) :
    Agrees x v o n V (get >>= fun c => pure (f c)) (get >>= fun c => pure (f' c)) :=
  ⟨.of_stays fun _ => rfl, fun hc _ _ => .ok (h _ _ hc.last) hc⟩

/-- A function behind its prototype. -/
def functionBody (start : Span) (proto : Prototype) : Reader Tree := do
  discard (accept (.symbol .colon))
  let body ← wholeExpression
  return .function proto body (start.cover (← get).last)

theorem agrees_functionBody {s s' : Span} (hs : x → s' = s) {proto proto' : Prototype} (hproto : proto.Like x proto') :
    Agrees x v o n (Tree.Like x) (functionBody s proto) (functionBody s' proto') := by
  have hbody : Agrees x v o n (Tree.Like x)
      (wholeExpression >>= fun body => get >>= fun c => pure (.function proto body (s.cover c.last)))
      (wholeExpression >>= fun body => get >>= fun c => pure (.function proto' body (s'.cover c.last))) := by
    refine agrees_wholeExpression.bind_eq fun body => agrees_last fun c c' hlast => .function hproto fun hx => ?_
    rw [hs hx, hlast hx]
  simp only [functionBody, discard_bind]
  exact agrees_accept ⟨by simp, by simp⟩ hbody hbody

theorem agrees_global {s s' : Span} (hs : x → s' = s) : Agrees x v o n (Tree.Like x)
    (identifier "expected global variable name" >>= fun name => get >>= fun c => pure (.global name (s.cover c.last)))
    (identifier "expected global variable name" >>= fun name =>
      get >>= fun c => pure (.global name (s'.cover c.last))) := by
  refine (agrees_identifier _).bind_eq fun name => agrees_last fun c c' hlast => .global fun hx => ?_
  rw [hs hx, hlast hx]

/-- The keyword that starts a declaration is taken. -/
theorem item_opens (k : TokenKind) :
    (∀ c, c.kind = k → item c = fail .expectedDeclaration "expected `def`, `extern` or `global`" c) ∨
      Opens x v o n (Tree.Like x) k item item := by
  cases k with
  | keyword w =>
    cases w with
    | defKw =>
      refine .inr (.of_peek (opens_take (.keyword _) fun s s' hs => ?_))
      exact agrees_prototype.bind Prototype.Like.refl fun _ _ hproto => agrees_functionBody hs hproto
    | externKw =>
      refine .inr (.of_peek ?_)
      simp only [discard_bind]
      refine opens_take (.keyword _) fun s s' hs => ?_
      exact agrees_prototype.bind Prototype.Like.refl fun _ _ hproto => .pure (.prototype hproto)
    | globalKw =>
      exact .inr (.of_peek (opens_take (.keyword _) fun s s' hs => agrees_global hs))
    | _ => exact .inl fun c hc => by rw [item, peek_bind, hc]
  | _ => exact .inl fun c hc => by rw [item, peek_bind, hc]

theorem item_walks : item.Walks o := by
  have hitem : Agrees False [] o 0 (Tree.Like False) item item := by
    refine .of_kind (.fail .expectedDeclaration "expected `def`, `extern` or `global`") (fun c hc => ?_) fun k => ?_
    · rw [item, peek_bind, hc]
    · exact (item_opens k).imp_left fun hstays c hc => ⟨hstays c hc, hstays c hc⟩
  exact hitem.walks

/-- A declaration that ends in front of `v` is read in the same way from the tokens without `v`. -/
theorem item_alike {c c' : Cursor} (hc : Cut x v c c') (hv : v <:+ (item.after c).rest) :
    Alike (Cut x v) (Tree.Like x) (item c) (item c') := by
  have hend (c : Cursor) (hend : c.kind = .endOfFile) :
      item c = fail .expectedDeclaration "expected `def`, `extern` or `global`" c := by rw [item, peek_bind, hend]
  obtain ⟨hfail, hfail'⟩ | halike := Opens.alike_or_stays (n := c'.rest.length + 1) (o := True) hend
    (fun k => (item_opens k).imp_left fun hstays c hc => ⟨hstays c hc, hstays c hc⟩) hc (Nat.lt_succ_self _) hv
  · rw [hfail, hfail']
    exact .error rfl rfl hc
  · exact halike.mono fun _ _ hshort => hshort.cut

end Reader

end Monofloat
