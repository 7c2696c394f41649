import Monofloat.Proofs.Layout

/-!
# Scanning undoes writing tokens

The spellings of tokens with blanks or comments between them (`Spaced`) are laid out as these tokens: the spelling of a
token is a text of its pattern (`TokenKind.Writable.spelled`), and no separator continues it. So scanning gives the
tokens back. Of the numbers it is only used that each is read back from its spelling.
-/

namespace Monofloat

/-- The kinds that scanning can give: names that are no keywords, and finite numbers without a sign. -/
inductive TokenKind.Writable : TokenKind → Prop
  | keyword (k : Keyword) : Writable (.keyword k)
  | symbol (s : Symbol) : Writable (.symbol s)
  | identifier {name : String} (hname : Pattern.name.Matches name.toList)
    (hkeyword : ∀ k : Keyword, k.spelling ≠ name) : Writable (.identifier name)
  | number {x : Float} {v : Magnitude} (hfinite : FloatParts.ofFloat x = .finite false v) : Writable (.number x)

/-- The spellings of the kinds with a separator between any two. -/
inductive Spaced : List TokenKind → List Char → Prop
  | nil : Spaced [] []
  | one (k : TokenKind) : Spaced [k] k.spelling.toList
  | more {k k' : TokenKind} {ks : List TokenKind} {sep text : List Char} (hsep : Separator sep)
    (hrest : Spaced (k' :: ks) text) : Spaced (k :: k' :: ks) (k.spelling.toList ++ sep ++ text)

theorem spaced_intercalate (kinds : List TokenKind) :
    Spaced kinds (" ".intercalate (kinds.map TokenKind.spelling)).toList := by
  rw [String.toList_intercalate, List.map_map]
  induction kinds with
  | nil => exact .nil
  | cons k kinds ih =>
    cases kinds with
    | nil => simpa using Spaced.one k
    | cons k' kinds =>
      have hspace : Separator " ".toList := .blank rfl
      simpa using Spaced.more hspace ih

/-! ## Spellings -/

/-- Only digits with at most one point among them can be read. -/
theorem numeral_of_readNumeral? {text : List Char} {x : Float} (h : readNumeral? text = some x) :
    Pattern.numeral.Matches text := by
  obtain ⟨⟨whole, fraction⟩, hsplit, -⟩ := Option.map_eq_some_iff.1 h
  have hdigit : ∀ {c : Char}, c.isDigit → isNumeralChar c := fun hc => isNumeralChar_iff.2 (.inl hc)
  have hwhole : ∀ c ∈ text.takeWhile Char.isDigit, isNumeralChar c := fun c hc => hdigit (List.mem_takeWhile_imp hc)
  have hne : text ≠ [] := by
    rintro rfl
    cases hsplit
  refine ⟨hne, fun c hc => ?_⟩
  rw [← List.takeWhile_append_dropWhile (p := Char.isDigit) (l := text), List.mem_append] at hc
  rcases hc with hc | hc
  · exact hwhole c hc
  unfold splitNumeral? at hsplit
  dsimp only at hsplit
  split at hsplit
  · next hrest =>
    rw [hrest] at hc
    cases hc
  · next d digits hrest =>
    split at hsplit
    · next hpoint =>
      obtain ⟨rfl, hdigits, -⟩ := hpoint
      rw [hrest] at hc
      rcases List.mem_cons.1 hc with rfl | hc
      · rfl
      · exact hdigit (List.all_eq_true.1 hdigits c hc)
    · cases hsplit

theorem TokenKind.Writable.spelled {k : TokenKind} (h : k.Writable)
    (hread : ∀ x, k = .number x → readNumeral? (Notation.plain.write x).toList = some x) :
    (Piece.token k).Spelled k.spelling.toList := by
  cases h with
  | keyword k => exact .keyword k
  | symbol s => exact .symbol s
  | identifier hname hkeyword => exact .identifier hname hkeyword
  | @number x v _ =>
    have hx := hread x rfl
    have hrun := numeral_of_readNumeral? hx
    exact .number hrun ((isSome_readNumeral?_iff hrun.2).1 (Option.isSome_of_eq_some hx)) hx

theorem Spaced.lays {kinds : List TokenKind} {text : List Char} (h : Spaced kinds text)
    (hkinds : ∀ k ∈ kinds, (Piece.token k).Spelled k.spelling.toList) : Lays text (kinds.map .token) := by
  induction h with
  | nil => exact fun file p => ⟨[], .stop .nil, rfl⟩
  | one k => exact .single (hkinds k List.mem_cons_self)
  | more hsep _ ih =>
    obtain ⟨hk, hrest⟩ := List.forall_mem_cons.1 hkinds
    exact .cons hk hsep (ih hrest)

/-- Scanning gives tokens of these kinds and the end of the file, and reports nothing. -/
structure ScansTo (source : String) (file : Nat) (kinds : List TokenKind) : Prop where
  kinds : (tokenize source file).1.map Token.kind = kinds ++ [.endOfFile]
  diagnostics : (tokenize source file).2 = []

theorem Lays.scansTo {source : String} {kinds : List TokenKind} (h : Lays source.toList (kinds.map .token))
    (file : Nat) : ScansTo source file kinds := by
  have htokens := h.map_kind_tokenize file
  have hnone := h.tokenize_diagnostics file
  rw [String.ofList_toList] at htokens hnone
  refine ⟨?_, hnone⟩
  rw [htokens, List.filterMap_map]
  congr 1
  exact List.filterMap_some

/-- Scanning undoes writing. The spellings of tokens, with single blanks or with any blanks and comments between them,
are scanned as these tokens without a diagnostic. That each number is read back from its spelling is assumed. -/
theorem tokenize_spellings {kinds : List TokenKind} (hkinds : ∀ k ∈ kinds, k.Writable)
    (hread : ∀ x, .number x ∈ kinds → readNumeral? (Notation.plain.write x).toList = some x) (file : Nat) :
    ScansTo (" ".intercalate (kinds.map TokenKind.spelling)) file kinds ∧
      ∀ source : String, Spaced kinds source.toList → ScansTo source file kinds := by
  have hspelled : ∀ k ∈ kinds, (Piece.token k).Spelled k.spelling.toList := fun k hk =>
    (hkinds k hk).spelled fun x hx => hread x (hx ▸ hk)
  exact ⟨((spaced_intercalate kinds).lays hspelled).scansTo file, fun _ h => (h.lays hspelled).scansTo file⟩

/-- `if _in ++ + = == 0.1 17`, with single blanks and with others. -/
theorem tokenize_spellings_mixed :
    let kinds : List TokenKind := [.keyword .ifKw, .identifier "_in", .symbol .plusPlus, .symbol .plus, .symbol .equal,
      .symbol .equalEqual, .number 0.1, .number 17]
    (∀ k ∈ kinds, k.Writable) ∧ (∀ x, .number x ∈ kinds → readNumeral? (Notation.plain.write x).toList = some x) ∧
      ScansTo "if _in ++ + = == 0.1 17" 0 kinds ∧ ScansTo "if#then\n_in\x0c++ + = == 0.1 \t17" 0 kinds := by
  intro kinds
  have hname : Pattern.name.Matches "_in".toList := ⟨_, _, rfl, rfl, List.all_eq_true.1 rfl⟩
  have hkeyword : ∀ k : Keyword, k.spelling ≠ "_in" := by intro k; cases k <;> decide
  have hkinds : ∀ k ∈ kinds, k.Writable := by
    simp only [kinds, List.forall_mem_cons, List.not_mem_nil, false_implies, implies_true, and_true]
    exact ⟨.keyword _, .identifier hname hkeyword, .symbol _, .symbol _, .symbol _, .symbol _,
      .number (v := ⟨0x1999999999999a, -56⟩) (by decide +kernel),
      .number (v := ⟨0x11000000000000, -48⟩) (by decide +kernel)⟩
  have hread : ∀ x, .number x ∈ kinds → readNumeral? (Notation.plain.write x).toList = some x := by
    intro x hx
    simp only [kinds, List.mem_cons, reduceCtorEq, TokenKind.number.injEq, List.not_mem_nil, or_false, false_or] at hx
    rcases hx with rfl | rfl <;> decide +kernel
  have hblank : Separator [' '] := .blank rfl
  have hspaced : Spaced kinds "if#then\n_in\x0c++ + = == 0.1 \t17".toList := by
    have htenth : (TokenKind.number 0.1).spelling = "0.1" := by decide +kernel
    have hlast : (TokenKind.number 17).spelling = "17" := by decide +kernel
    have hsymbols := Spaced.more (k := .symbol .plusPlus) hblank <| .more (k := .symbol .plus) hblank <|
      .more (k := .symbol .equal) hblank <| .more (k := .symbol .equalEqual) hblank <|
      .more (k := .number 0.1) (.append hblank (.blank (c := '\t') rfl)) (.one (.number 17))
    rw [htenth, hlast] at hsymbols
    have hcomment : Separator ('#' :: "then".toList ++ ['\n']) := .comment (by decide)
    exact .more hcomment (.more (.blank (c := '\x0c') rfl) hsymbols)
  obtain ⟨hsingle, hany⟩ := tokenize_spellings hkinds hread 0
  exact ⟨hkinds, hread, hsingle, hany _ hspaced⟩

end Monofloat
