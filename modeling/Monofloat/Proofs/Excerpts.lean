import Monofloat.Proofs.Layout
import Monofloat.Proofs.Recovery
import Monofloat.Proofs.Rendering

/-!
# Excerpts

The span of a declaration reaches from its first token to its last, so the source text under it has the tokens of the
declaration and no others. Reading depends on the kinds of tokens only, and not on what follows a declaration where it
ends; so the text alone is read as the declaration again (`Reader.item_alike`), up to the places of things. The span
of a prototype leaves out the keyword in front of it.
-/

namespace Monofloat

open Grammar Cursor

/-! ## Declarations without their places -/

def Prototype.unlocated (proto : Prototype) : Prototype := { proto with span := {} }

/-- The declaration without its spans. -/
def Tree.unlocated : Tree → Tree
  | .function proto body _ => .function proto.unlocated body {}
  | .prototype proto => .prototype proto.unlocated
  | .global name _ => .global name {}
  | t => t

/-- The prototype of a function, also of one that is defined elsewhere. -/
def Tree.prototype? : Tree → Option Prototype
  | .function proto _ _ => some proto
  | .prototype proto => some proto
  | _ => none

/-- What a declaration needs in front of the text under its span. -/
def Tree.lead : Tree → String
  | .prototype _ => "extern "
  | _ => ""

theorem Prototype.Like.unlocated_eq {x : Prop} {proto proto' : Prototype} (h : proto.Like x proto') :
    proto'.unlocated = proto.unlocated := by
  simp only [Prototype.unlocated, h.name, h.params]

theorem Tree.Like.unlocated_eq {x : Prop} {t t' : Tree} (h : t.Like x t') : t'.unlocated = t.unlocated := by
  cases h with
  | function hproto => simp only [Tree.unlocated, hproto.unlocated_eq]
  | prototype hproto => simp only [Tree.unlocated, hproto.unlocated_eq]
  | global => rfl

/-! ## Tokens of the same kinds -/

section

variable {ts tokens : List Token} {c c' : Cursor}

theorem forall₂_like_of_map_kind {us : List Token} (h : us.map Token.kind = ts.map Token.kind) :
    List.Forall₂ (Token.Like False) ts us := by
  have hkinds : List.Forall₂ Eq (us.map Token.kind) (ts.map Token.kind) := h ▸ List.forall₂_refl _
  rw [List.forall₂_map_left_iff, List.forall₂_map_right_iff] at hkinds
  exact hkinds.flip.imp fun _ _ hkind => ⟨hkind, False.elim⟩

/-- The parser on tokens of given kinds, with an end of the file behind them. -/
theorem exists_cursor (hts : NoEnd ts) (hkinds : tokens.map Token.kind = ts.map Token.kind ++ [.endOfFile]) :
    ∃ c : Cursor, parse tokens = parseFrom c.rest.length c ∧ List.Forall₂ (Token.Like False) ts c.rest := by
  obtain ⟨us, stop, rfl, hus, hstop⟩ := List.map_eq_append_iff.1 hkinds
  have hlike := forall₂_like_of_map_kind hus
  have hnoEnd : NoEnd us := fun u hu => by
    obtain ⟨t, ht, hkind⟩ := List.mem_map.1 (hus ▸ List.mem_map_of_mem hu)
    exact hkind ▸ hts t ht
  obtain ⟨eof, rfl, heof⟩ := List.map_eq_singleton_iff.1 hstop
  have hrest := Cursor.rest_ofTokens hnoEnd (.inr ⟨eof, heof, rfl⟩)
  exact ⟨.ofTokens (us ++ [eof]), rfl, by rwa [hrest]⟩

/-- When the first cursor comes to the tokens left out, the second one has none. -/
theorem Cursor.Cut.rest_nil {x : Prop} {v : List Token} (h : Cut x v c c') (hc : c.rest = v) : c'.rest = [] := by
  have hlength := h.length_eq
  rw [hc] at hlength
  exact List.eq_nil_of_length_eq_zero (by omega)

/-- Tokens of the kinds of a declaration are read as the declaration. -/
theorem parse_of_item {t : Tree} (h : Reader.item c = .ok t c') (hc : c.rest = ts ++ c'.rest)
    (hkinds : tokens.map Token.kind = ts.map Token.kind ++ [.endOfFile]) :
    ∃ t', parse tokens = ⟨[t'], []⟩ ∧ t.Like False t' := by
  obtain ⟨us, hpasses, hitem⟩ := Reader.item_reads h
  obtain rfl : us = ts := List.append_cancel_right (hpasses.rest_eq.symm.trans hc)
  obtain ⟨c₁, hparse, hlike⟩ := exists_cursor hitem.noEnd hkinds
  have halike := Reader.item_alike ⟨us, hc, hlike⟩ (Reader.after_of_ok h ▸ List.suffix_refl c'.rest)
  rw [h] at halike
  generalize hitem₁ : Reader.item c₁ = result at halike
  cases halike with
  | @ok _ t' _ c₁' hvalue hcursor =>
    refine ⟨t', ?_, hvalue⟩
    obtain ⟨kw, rest, rfl, hend, hsemi⟩ := hitem.head
    obtain ⟨kw', rest', hkw, -, hrest⟩ := List.forall₂_cons_left_iff.1 hlike
    have hkind : c₁.kind = kw.kind := (kind_of_cons hrest).trans hkw.kind
    rw [hparse, hrest]
    exact parseFrom_of_item (hkind ▸ hend) (hkind ▸ hsemi) hitem₁ (hcursor.rest_nil rfl)

end

/-! ## Prototypes -/

namespace Grammar

theorem Names.unique {ts : List Token} {names names' : List String} (h : Names ts names) (h' : Names ts names') :
    names' = names := by
  induction h generalizing names' with
  | none =>
    cases h'
    rfl
  | one hx =>
    cases h' with
    | one hx' => cases hx.symm.trans hx'; rfl
  | more hx _ _ ih =>
    cases h' with
    | more hx' _ hnames' =>
      cases hx.symm.trans hx'
      rw [ih hnames']

theorem Signature.span_eq {ts : List Token} {proto : Prototype} (h : Signature ts proto) : proto.span = cover ts := by
  cases h
  rfl

theorem Signature.ne_nil {ts : List Token} {proto : Prototype} (h : Signature ts proto) : ts ≠ [] := by
  cases h
  exact List.cons_ne_nil _ _

/-- The tokens of a prototype determine it. -/
theorem Signature.unique {ts : List Token} {proto proto' : Prototype} (h : Signature ts proto)
    (h' : Signature ts proto') : proto' = proto := by
  have hparts {proto : Prototype} (h : Signature ts proto) : ∃ x open_ ps close, ts = x :: open_ :: ps ++ [close] ∧
      x.kind = .identifier proto.name ∧ Names ps proto.params := by
    obtain ⟨hx, -, hnames, -⟩ := h
    exact ⟨_, _, _, _, rfl, hx, hnames⟩
  obtain ⟨x, open_, ps, close, rfl, hx, hnames⟩ := hparts h
  obtain ⟨x', open', ps', close', heq, hx', hnames'⟩ := hparts h'
  obtain ⟨hfront, -⟩ := List.append_inj' heq rfl
  obtain ⟨rfl, -, rfl⟩ : x = x' ∧ open_ = open' ∧ ps = ps' := by simpa using hfront
  have hname : proto'.name = proto.name := by simpa [hx] using hx'.symm
  have hparams := hnames.unique hnames'
  have hspan : proto'.span = proto.span := h'.span_eq.trans h.span_eq.symm
  cases proto
  cases proto'
  simp only at hname hparams hspan
  rw [hname, hparams, hspan]

end Grammar

/-- Tokens of the kinds of a prototype are read as the prototype, with the keyword in front of them. -/
theorem parse_of_signature {ts tokens : List Token} {proto : Prototype} (h : Signature ts proto)
    (hkinds : tokens.map Token.kind = .keyword .externKw :: (ts.map Token.kind ++ [.endOfFile])) :
    ∃ proto', parse tokens = ⟨[.prototype proto'], []⟩ ∧ proto.Like False proto' := by
  have hnoEnd : NoEnd (⟨.keyword .externKw, {}⟩ :: ts) := .cons rfl (by simp) h.noEnd
  obtain ⟨c, hparse, hlike⟩ := exists_cursor hnoEnd hkinds
  obtain ⟨kw, rest, hkw, hlike, hrest⟩ := List.forall₂_cons_left_iff.1 hlike
  have hkind : c.kind = .keyword .externKw := (kind_of_cons hrest).trans hkw.kind
  -- The reader takes the tokens of the prototype itself, and so the others.
  obtain ⟨read, c₁, hread, hc₁⟩ := Reader.succeeds_prototype h [] ⟨ts, {}, {}⟩ (List.append_nil ts).symm
  obtain ⟨us, hpasses, hsignature⟩ := Reader.prototype_reads hread
  obtain rfl : us = ts := by simpa [hc₁] using hpasses.rest_eq.symm
  rw [h.unique hsignature] at hread
  have hcut : Cut False [] ⟨us, {}, {}⟩ c.advance := ⟨us, (List.append_nil us).symm, by rwa [advance_of_cons hrest]⟩
  have halike := Reader.agrees_prototype.alike (o := True) ⟨hcut, False.elim⟩ (Nat.lt_succ_self _) List.nil_suffix
  rw [hread] at halike
  generalize hproto : Reader.prototype c.advance = result at halike
  cases halike with
  | @ok _ proto' _ c' hvalue hcursor =>
    have hitem : Reader.item c = .ok (.prototype proto') c' := by
      rw [Reader.item, Reader.peek_bind, hkind]
      show (Reader.prototype >>= fun proto => pure (Tree.prototype proto)) c.advance = _
      rw [bind_of_ok hproto]
      rfl
    refine ⟨proto', ?_, hvalue⟩
    rw [hparse, hrest]
    exact parseFrom_of_item (by simp [hkind]) (by simp [hkind]) hitem (hcursor.cut.rest_nil hc₁)

/-! ## Declarations of a run -/

/-- The tokens in front of `rest` are read as the declaration. -/
def Taken (ts rest : List Token) (t : Tree) : Prop :=
  ∃ c c' : Cursor, Reader.item c = .ok t c' ∧ c.rest = ts ++ rest ∧ c'.rest = rest

theorem Taken.item {ts rest : List Token} {t : Tree} (h : Taken ts rest t) : Item ts t := by
  obtain ⟨c, c', hread, hc, rfl⟩ := h
  obtain ⟨us, hpasses, hitem⟩ := Reader.item_reads hread
  rwa [List.append_cancel_right (hpasses.rest_eq.symm.trans hc)] at hitem

/-- The declarations are read from the tokens, one behind the other. -/
inductive ReadFrom : List Token → List Tree → Prop
  | none (tokens : List Token) : ReadFrom tokens []
  | item {ts rest : List Token} {t : Tree} {items : List Tree} (before : List Token) (h : Taken ts rest t)
    (hrest : ReadFrom rest items) : ReadFrom (before ++ ts ++ rest) (t :: items)

theorem afterSemicolon_suffix (ts : List Token) : afterSemicolon ts <:+ ts := by
  induction ts with
  | nil => exact List.suffix_refl []
  | cons t ts ih =>
    rw [afterSemicolon]
    split
    · exact List.suffix_cons t ts
    · exact ih.trans (List.suffix_cons t ts)

namespace ReadFrom

variable {tokens tokens' : List Token} {items : List Tree} {t : Tree}

theorem of_suffix (h : ReadFrom tokens items) (hsuffix : tokens <:+ tokens') : ReadFrom tokens' items := by
  obtain ⟨front, rfl⟩ := hsuffix
  cases h with
  | none => exact .none _
  | item before h hrest =>
    rw [← List.append_assoc, ← List.append_assoc]
    exact .item (front ++ before) h hrest

theorem exists_taken (h : ReadFrom tokens items) (ht : t ∈ items) :
    ∃ before ts rest, tokens = before ++ ts ++ rest ∧ Taken ts rest t := by
  induction h with
  | none => cases ht
  | @item ts rest t' items before h hrest ih =>
    rcases List.mem_cons.1 ht with rfl | ht
    · exact ⟨before, ts, rest, rfl, h⟩
    · obtain ⟨between, us, rest', rfl, h'⟩ := ih ht
      exact ⟨before ++ ts ++ between, us, rest', by simp, h'⟩

end ReadFrom

theorem exists_round (c : Cursor) : ∃ p c', Round c p c' := by
  cases h : Reader.item c with
  | error d c' => exact ⟨_, _, .failed h⟩
  | ok t c' =>
    by_cases hend : c'.kind = .endOfFile
    · exact ⟨_, _, .last h hend⟩
    by_cases hsemi : c'.kind = .symbol .semicolon
    · exact ⟨_, _, .ended h hsemi⟩
    · exact ⟨_, _, .trailed h hend hsemi⟩

theorem Round.readFrom {c c' : Cursor} {p : Parsed} (h : Round c p c') {items : List Tree}
    (hrest : ReadFrom c'.rest items) : ReadFrom c.rest (p.items ++ items) := by
  have hsuffix : (Reader.item.after c).rest <:+ c.rest := (Reader.item_walks (o := False)).suffix c
  have hitem {t : Tree} {c₁ : Cursor} (h : Reader.item c = .ok t c₁) (hrest : ReadFrom c₁.rest items) :
      ReadFrom c.rest (t :: items) := by
    rw [Reader.after_of_ok h] at hsuffix
    obtain ⟨ts, hts⟩ := hsuffix
    rw [← hts]
    exact .item [] ⟨c, c₁, h, hts.symm, rfl⟩ hrest
  cases h with
  | failed h =>
    rw [Reader.after_of_error h] at hsuffix
    exact hrest.of_suffix ((afterSemicolon_suffix _).trans hsuffix)
  | last h => exact hitem h hrest
  | @ended t c₁ h hsemi =>
    obtain ⟨semi, rest, hc₁, -⟩ := exists_cons hsemi (by simp)
    rw [advance_of_cons hc₁] at hrest
    exact hitem h (hrest.of_suffix (hc₁ ▸ List.suffix_cons semi rest))
  | trailed h => exact hitem h (hrest.of_suffix (afterSemicolon_suffix _))

theorem parseFrom_readFrom (n : Nat) (c : Cursor) : ReadFrom c.rest (parseFrom n c).items := by
  induction n generalizing c with
  | zero => exact .none _
  | succ n ih =>
    by_cases hend : c.kind = .endOfFile
    · rw [parseFrom_of_end hend]
      exact .none _
    by_cases hsemi : c.kind = .symbol .semicolon
    · rw [parseFrom_of_semicolon hsemi]
      obtain ⟨semi, rest, hc, -⟩ := exists_cons hsemi (by simp)
      have hadvance := ih c.advance
      rw [advance_of_cons hc] at hadvance ⊢
      exact hadvance.of_suffix (hc ▸ List.suffix_cons semi rest)
    · obtain ⟨p, c', hround⟩ := exists_round c
      rw [hround.parseFrom_eq hend hsemi]
      exact hround.readFrom (ih c')

/-! ## Spans of declarations -/

/-- Tokens that stand one behind the other. -/
structure Ordered (ts : List Token) : Prop where
  apart : ts.Pairwise fun a b => a.span.stop.offset ≤ b.span.start.offset
  nonempty : ∀ t ∈ ts, t.span.start.offset < t.span.stop.offset

namespace Ordered

variable {ts : List Token} {t : Token}

theorem sublist {us : List Token} (h : Ordered ts) (hus : us.Sublist ts) : Ordered us :=
  ⟨h.apart.sublist hus, fun t ht => h.nonempty t (hus.subset ht)⟩

theorem left {us vs : List Token} (h : Ordered (us ++ vs)) : Ordered us := h.sublist (List.sublist_append_left us vs)

theorem right {us vs : List Token} (h : Ordered (us ++ vs)) : Ordered vs := h.sublist (List.sublist_append_right us vs)

theorem head_le (h : Ordered ts) (ht : t ∈ ts) (hne : ts ≠ []) :
    (ts.head hne).span.start.offset ≤ t.span.start.offset := by
  cases ts with
  | nil => cases ht
  | cons first ts =>
    rcases List.mem_cons.1 ht with rfl | ht
    · exact Nat.le_refl _
    · have hfirst := h.nonempty first List.mem_cons_self
      have happart := (List.pairwise_cons.1 h.apart).1 t ht
      simp only [List.head_cons]
      omega

theorem le_getLast (h : Ordered ts) (ht : t ∈ ts) (hne : ts ≠ []) :
    t.span.stop.offset ≤ (ts.getLast hne).span.stop.offset := by
  have hlast := h.nonempty _ (List.getLast_mem hne)
  rw [← List.dropLast_append_getLast hne] at ht h
  rcases List.mem_append.1 ht with ht | ht
  · have happart := (List.pairwise_append.1 h.apart).2.2 t ht _ List.mem_cons_self
    omega
  · rw [List.mem_singleton.1 ht]

theorem offset_cover (h : Ordered ts) (hne : ts ≠ []) :
    (cover ts).start.offset = (ts.head hne).span.start.offset ∧
      (cover ts).stop.offset = (ts.getLast hne).span.stop.offset := by
  have hstart := h.head_le (List.getLast_mem hne) hne
  have hstop := h.le_getLast (List.head_mem hne) hne
  cases ts with
  | nil => exact absurd rfl hne
  | cons first ts =>
    simp only [List.head_cons] at hstart hstop
    simp only [cover, Span.cover, List.head_cons]
    constructor
    · rw [if_neg (by omega)]
    · split <;> omega

/-- Some of the tokens lie inside the span of all of them. -/
theorem cover_inside (h : Ordered ts) {us : List Token} (hus : us.Sublist ts) (hne : us ≠ []) :
    (cover ts).start.offset ≤ (cover us).start.offset ∧ (cover us).stop.offset ≤ (cover ts).stop.offset := by
  have hts : ts ≠ [] := fun hnil => hne (List.sublist_nil.1 (hnil ▸ hus))
  obtain ⟨hstart, hstop⟩ := h.offset_cover hts
  obtain ⟨hstart', hstop'⟩ := (h.sublist hus).offset_cover hne
  rw [hstart, hstop, hstart', hstop']
  exact ⟨h.head_le (hus.subset (List.head_mem hne)) hts, h.le_getLast (hus.subset (List.getLast_mem hne)) hts⟩

end Ordered

theorem Laid.ordered {file : Nat} {p : Position} {cs : List Char} {ls : List Lexeme} (h : Laid file p cs ls) :
    Ordered (ls.filterMap Lexeme.token?) := by
  constructor
  case apart =>
    refine h.pairwise.filterMap Lexeme.token? fun l l' hle t ht t' ht' => ?_
    rwa [Lexeme.span_of_token? ht, Lexeme.span_of_token? ht'] at hle
  case nonempty =>
    intro t ht
    obtain ⟨l, hl, hlt⟩ := List.mem_filterMap.1 ht
    obtain ⟨before, text, after, -, hspan, hpiece, -⟩ := h.exists_text hl
    have htext := byteSize_pos hpiece.ne_nil
    rw [← Lexeme.span_of_token? hlt, hspan, Position.offset_advanceBy, Position.offset_advanceBy, byteSize_append]
    omega

/-- The span is a part of the source, with tokens of these kinds. -/
structure Span.Delimits (s : Span) (source : String) (kinds : List TokenKind) : Prop where
  nonempty : s.start.offset < s.stop.offset
  inside : s.stop.offset ≤ source.utf8ByteSize
  text : ∃ cs pieces, s.text? source = some (String.ofList cs) ∧ Lays cs pieces ∧ pieces.filterMap Piece.kind? = kinds

/-- From the first of some tokens to the last of them, the source has these tokens. -/
theorem Laid.delimits {source : String} {file : Nat} {ls : List Lexeme} (h : Laid file .first source.toList ls)
    {before us after : List Token} (htokens : ls.filterMap Lexeme.token? = before ++ us ++ after) (hne : us ≠ []) :
    (cover us).Delimits source (us.map Token.kind) := by
  have hordered : Ordered us := (htokens ▸ h.ordered).left.right
  obtain ⟨hstart, hstop⟩ := hordered.offset_cover hne
  obtain ⟨front, text, back, mid, hsource, hfirst, hlast, hlaid, hmid⟩ := h.exists_between htokens hne
  constructor
  case nonempty =>
    have hhead := hordered.nonempty _ (List.head_mem hne)
    have hle := hordered.le_getLast (List.head_mem hne) hne
    omega
  case inside =>
    have hsize : source.utf8ByteSize = byteSize (front ++ text ++ back) := by
      rw [← hsource, byteSize, String.ofList_toList]
    rw [hstop, hlast, Position.advanceBy_first, hsize, byteSize_append _ back]
    exact Nat.le_add_right _ _
  case text =>
    refine ⟨text, mid.map Lexeme.piece, ?_, hlaid.lays, by rw [← map_kind_tokens, hmid]⟩
    have htext : (cover us).text? (String.ofList (front ++ text ++ back)) = some (String.ofList text) :=
      Span.text?_eq (by rw [hstart, hfirst, Position.advanceBy_first]) (by rw [hstop, hlast, Position.advanceBy_first])
    rwa [← hsource, String.ofList_toList] at htext

/-- The span is a part of the source, and its text behind `lead` is read as the declaration and nothing else. -/
structure Span.Quotes (s : Span) (source lead : String) (t : Tree) : Prop where
  nonempty : s.start.offset < s.stop.offset
  inside : s.stop.offset ≤ source.utf8ByteSize
  alone : ∃ text, s.text? source = some text ∧
    ∀ file, ∃ t', parse (tokenize (lead ++ text) file).1 = ⟨[t'], []⟩ ∧ t'.unlocated = t.unlocated

theorem Span.Delimits.quotes {s : Span} {source : String} {ts rest : List Token} {t : Tree}
    (h : s.Delimits source (ts.map Token.kind)) (ht : Taken ts rest t) : s.Quotes source "" t := by
  obtain ⟨hnonempty, hinside, cs, pieces, htext, hlays, hkinds⟩ := h
  refine ⟨hnonempty, hinside, String.ofList cs, htext, fun file => ?_⟩
  obtain ⟨c, c', hread, hc, rfl⟩ := ht
  have htokens := hlays.map_kind_tokenize file
  rw [hkinds] at htokens
  obtain ⟨t', hparse, hlike⟩ := parse_of_item hread hc htokens
  rw [String.empty_append]
  exact ⟨t', hparse, hlike.unlocated_eq⟩

theorem Span.Delimits.quotes_prototype {s : Span} {source : String} {ts : List Token} {proto : Prototype}
    (h : s.Delimits source (ts.map Token.kind)) (hproto : Signature ts proto) :
    s.Quotes source "extern " (.prototype proto) := by
  obtain ⟨hnonempty, hinside, cs, pieces, htext, hlays, hkinds⟩ := h
  refine ⟨hnonempty, hinside, String.ofList cs, htext, fun file => ?_⟩
  have hbehind : Lays ("extern".toList ++ [' '] ++ cs) (.token (.keyword .externKw) :: pieces) :=
    .cons (.keyword .externKw) (.blank rfl) hlays
  have hkinds' : (Piece.token (.keyword .externKw) :: pieces).filterMap Piece.kind? =
      .keyword .externKw :: ts.map Token.kind := by rw [← hkinds]; rfl
  have htokens := hbehind.map_kind_tokenize file
  rw [hkinds', List.cons_append, String.ofList_append] at htokens
  obtain ⟨proto', hparse, hlike⟩ := parse_of_signature hproto htokens
  exact ⟨.prototype proto', hparse, (Tree.Like.prototype hlike).unlocated_eq⟩

/-- The span of a declaration reaches over its last tokens, all but for the keyword of a prototype. -/
theorem Grammar.Item.span?_eq {ts : List Token} {t : Tree} (h : Item ts t) :
    ∃ front us, ts = front ++ us ∧ us ≠ [] ∧ t.span? = some (cover us) := by
  cases h with
  | @definition kw ps colon body => exact ⟨[], kw :: ps ++ colon ++ body, rfl, by simp, rfl⟩
  | @prototype kw ps proto hkw hps => exact ⟨[kw], ps, rfl, hps.ne_nil, congrArg some hps.span_eq⟩
  | @global kw x => exact ⟨[], [kw, x], rfl, by simp, rfl⟩

theorem ReadFrom.pairwise {tokens : List Token} {items : List Tree} (h : ReadFrom tokens items) (ho : Ordered tokens) :
    items.Pairwise fun t u => ∀ s s', t.span? = some s → u.span? = some s' → s.stop.offset ≤ s'.start.offset := by
  induction h with
  | none => exact .nil
  | @item ts rest t items before h hrest ih =>
    refine .cons (fun u hu s s' hs hs' => ?_) (ih ho.right)
    obtain ⟨between, us, rest', rfl, h'⟩ := hrest.exists_taken hu
    obtain ⟨front, ws, rfl, hws, hspan⟩ := h.item.span?_eq
    obtain ⟨front', ws', rfl, hws', hspan'⟩ := h'.item.span?_eq
    cases hs.symm.trans hspan
    cases hs'.symm.trans hspan'
    have hfirst : Ordered ws := ho.left.right.right
    have hsecond : Ordered ws' := ho.right.left.right.right
    rw [(hfirst.offset_cover hws).2, (hsecond.offset_cover hws').1]
    exact (List.pairwise_append.1 ho.apart).2.2 _ (by simp [List.getLast_mem hws]) _ (by simp [List.head_mem hws'])

theorem Laid.exists_spelled {file : Nat} {p : Position} {cs : List Char} {ls : List Lexeme} (h : Laid file p cs ls)
    {t : Token} (ht : t ∈ ls.filterMap Lexeme.token?) : ∃ text, (Piece.token t.kind).Spelled text := by
  obtain ⟨l, hl, hlt⟩ := List.mem_filterMap.1 ht
  obtain ⟨-, text, -, -, -, hpiece, -⟩ := h.exists_text hl
  cases l with
  | rejected => cases hlt
  | token t' =>
    cases hlt
    exact ⟨text, hpiece⟩

theorem Laid.noEnd {file : Nat} {p : Position} {cs : List Char} {ls : List Lexeme} (h : Laid file p cs ls) :
    NoEnd (ls.filterMap Lexeme.token?) := by
  intro t ht hkind
  obtain ⟨text, hspelled⟩ := h.exists_spelled ht
  rw [hkind] at hspelled
  cases hspelled

/-- The declarations of a source are read from its tokens. -/
theorem exists_readFrom (source : String) (file : Nat) : ∃ ls, Laid file .first source.toList ls ∧
    ReadFrom (ls.filterMap Lexeme.token?) (parse (tokenize source file).1).items := by
  obtain ⟨ls, hscan, hlaid⟩ := scan_laid source file
  refine ⟨ls, hlaid, ?_⟩
  have htokens : (tokenize source file).1 = ls.filterMap Lexeme.token? ++
      [⟨.endOfFile, .point (Position.first.advanceBy source.toList) file⟩] := by
    rw [tokenize, hscan, List.filterMap_append]
    rfl
  have hread : ReadFrom (Cursor.ofTokens (tokenize source file).1).rest (parse (tokenize source file).1).items :=
    parseFrom_readFrom _ _
  have hrest : (Cursor.ofTokens (tokenize source file).1).rest = ls.filterMap Lexeme.token? := by
    rw [htokens]
    exact Cursor.rest_ofTokens hlaid.noEnd (.inr ⟨_, rfl, rfl⟩)
  rwa [hrest] at hread

/-- A declaration in its source: its span quotes it, and so does the span of its prototype, which is a part of it. -/
theorem Taken.quotes {source : String} {file : Nat} {ls : List Lexeme} (hlaid : Laid file .first source.toList ls)
    {before ts rest : List Token} (htokens : ls.filterMap Lexeme.token? = before ++ ts ++ rest) {t : Tree}
    (h : Taken ts rest t) : ∃ s, t.span? = some s ∧ s.Quotes source t.lead t ∧
      ∀ proto, t.prototype? = some proto → proto.span.Quotes source "extern " (.prototype proto) ∧
        s.start.offset ≤ proto.span.start.offset ∧ proto.span.stop.offset ≤ s.stop.offset := by
  have hordered : Ordered ts := (htokens ▸ hlaid.ordered).left.right
  have hproto {kw : Token} {ps back : List Token} {proto : Prototype} (hts : ts = kw :: ps ++ back)
      (hps : Signature ps proto) : proto.span.Quotes source "extern " (.prototype proto) := by
    have hparts : ls.filterMap Lexeme.token? = before ++ [kw] ++ ps ++ (back ++ rest) := by simp [htokens, hts]
    rw [hps.span_eq]
    exact (hlaid.delimits hparts hps.ne_nil).quotes_prototype hps
  have hitem := h.item
  cases hitem with
  | @definition kw ps colon body proto tree hkw hps =>
    refine ⟨_, rfl, (hlaid.delimits htokens (by simp)).quotes h, ?_⟩
    rintro _ ⟨⟩
    have hinside : ps.Sublist (kw :: ps ++ colon ++ body) := by simp
    refine ⟨hproto (List.append_assoc ..) hps, ?_⟩
    rw [hps.span_eq]
    exact hordered.cover_inside hinside hps.ne_nil
  | @prototype kw ps proto hkw hps =>
    have hquotes := hproto (List.append_nil _).symm hps
    refine ⟨_, rfl, hquotes, ?_⟩
    rintro _ ⟨⟩
    exact ⟨hquotes, Nat.le_refl _, Nat.le_refl _⟩
  | global hkw hx =>
    refine ⟨_, rfl, (hlaid.delimits htokens (by simp)).quotes h, ?_⟩
    rintro _ ⟨⟩

/-- Spans cover their declarations exactly. The spans of the declarations of a source are parts of it that are not
empty, one behind the other; the text under the span of a declaration, with `extern` in front of it for a prototype, is
parsed without a diagnostic as the same declaration up to spans. The span of a function's prototype is inside that of
the function, and its text is parsed as the prototype. -/
theorem spans_quote_declarations (source : String) (file : Nat) :
    ((parse (tokenize source file).1).items.Pairwise fun t u =>
      ∀ s s', t.span? = some s → u.span? = some s' → s.stop.offset ≤ s'.start.offset) ∧
    ∀ t ∈ (parse (tokenize source file).1).items, ∃ s, t.span? = some s ∧ s.Quotes source t.lead t ∧
      ∀ proto, t.prototype? = some proto → proto.span.Quotes source "extern " (.prototype proto) ∧
        s.start.offset ≤ proto.span.start.offset ∧ proto.span.stop.offset ≤ s.stop.offset := by
  obtain ⟨ls, hlaid, hread⟩ := exists_readFrom source file
  refine ⟨hread.pairwise hlaid.ordered, fun t ht => ?_⟩
  obtain ⟨before, ts, rest, htokens, htaken⟩ := hread.exists_taken ht
  exact htaken.quotes hlaid htokens

end Monofloat
