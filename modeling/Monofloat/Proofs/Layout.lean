import Monofloat.Proofs.Scanning

/-!
# Scanning gives the lexemes that are laid

A text can be laid out in one way only: a lexeme that no character behind it would continue is the piece that is cut off
where it starts (`pieceAt_eq`). So scanning gives the lexemes that are laid in a text (`Laid.scanFrom_eq`), however the
layout was found. A layout can be moved to another place (`Laid.lays`), and the text from the start of one lexeme to
the end of another keeps the lexemes in between (`Laid.drop`, `Laid.take`).
-/

namespace Monofloat

/-! ## Pieces -/

section

variable {c : Char} {run rest : List Char}

theorem takeWhile_run {f : Char → Bool} (hrun : ∀ d ∈ run, f d) (hrest : ∀ d ∈ rest.head?, f d = false) :
    (run ++ rest).takeWhile f = run := by
  rw [List.takeWhile_append_of_pos hrun]
  cases rest with
  | nil => simp
  | cons d rest => rw [List.takeWhile_cons_of_neg (by simp [hrest d rfl]), List.append_nil]

theorem pieceAt_blank (h : isBlank c) (cs : List Char) : pieceAt c cs = (.blank, 0) := by
  rw [pieceAt, if_pos h]

theorem pieceAt_comment {body : List Char} (hbody : '\n' ∉ body) (hrest : ∀ d ∈ rest.head?, d = '\n') :
    pieceAt '#' (body ++ rest) = (.blank, body.length) := by
  have hrun : (body ++ rest).takeWhile (· ≠ '\n') = body :=
    takeWhile_run (fun d hd => by simpa using ne_of_mem_of_not_mem hd hbody) fun d hd => by simpa using hrest d hd
  rw [pieceAt, if_neg (by decide), if_pos rfl, hrun]

theorem pieceAt_numeral (hrun : ∀ d ∈ c :: run, isNumeralChar d) (hrest : ∀ d ∈ rest.head?, isNumeralChar d = false) :
    pieceAt c (run ++ rest) = (numeralPiece (c :: run), run.length) := by
  obtain ⟨hc, hrun⟩ := List.forall_mem_cons.1 hrun
  have hblank : ¬ isBlank c := fun hblank => by rw [isNumeralChar_of_isBlank hblank] at hc; cases hc
  have hcomment : c ≠ '#' := by rintro rfl; cases hc
  rw [pieceAt, if_neg hblank, if_neg hcomment, if_pos hc, takeWhile_run hrun hrest]

theorem pieceAt_name (hname : Pattern.name.Matches (c :: run)) (hrest : ∀ d ∈ rest.head?, isNameChar d = false) :
    pieceAt c (run ++ rest) = (namePiece (c :: run), run.length) := by
  obtain ⟨c', run', hcs, hc, hrun⟩ := hname
  obtain ⟨rfl, rfl⟩ := List.cons.inj hcs
  have hblank : ¬ isBlank c := fun hblank => by rw [isNameStart_of_isBlank hblank] at hc; cases hc
  have hcomment : c ≠ '#' := by rintro rfl; cases hc
  have hnumeral : ¬ isNumeralChar c := fun hnumeral => by rw [isNameStart_of_isNumeralChar hnumeral] at hc; cases hc
  rw [pieceAt, if_neg hblank, if_neg hcomment, if_neg hnumeral, if_pos hc, takeWhile_run hrun hrest]

theorem pieceAt_other (hc : IsOther c) (cs : List Char) : pieceAt c cs =
    if c = '+' ∧ cs.head? = some '+' then (.token (.symbol .plusPlus), 1)
    else if c = '=' ∧ cs.head? = some '=' then (.token (.symbol .equalEqual), 1)
    else (symbolPiece c, 0) := by
  rw [pieceAt, if_neg (by simp [hc.blank]), if_neg hc.comment, if_neg (by simp [hc.numeral]),
    if_neg (by simp [hc.name])]

theorem namePiece_keyword (k : Keyword) : namePiece k.spelling.toList = .token (.keyword k) := by
  cases k <;> decide

theorem namePiece_identifier {name : String} (h : ∀ k : Keyword, k.spelling ≠ name) :
    namePiece name.toList = .token (.identifier name) := by
  have hnone : Keyword.ofSpelling? name = none := List.find?_eq_none.2 fun k _ => by simpa using h k
  rw [namePiece, String.ofList_toList, hnone]

theorem pieceAt_symbol {s : Symbol} (htext : s.spelling.toList = c :: run)
    (hends : ∀ d ∈ rest.head?, (Piece.token (.symbol s)).goesOn d = false) :
    pieceAt c (run ++ rest) = (.token (.symbol s), run.length) := by
  rw [pieceAt_other (Symbol.of_spelling htext).1]
  cases s <;> cases htext
  case plus | equal =>
    cases rest with
    | nil => rfl
    | cons d rest =>
      have hd := hends d rfl
      simp only [Piece.goesOn, beq_eq_false_iff_ne] at hd
      simp only [List.nil_append, List.head?_cons, Option.some.injEq, hd, and_false, if_false]
      rfl
  all_goals rfl

/-- A lexeme that no character behind it would continue is the piece that is cut off. -/
theorem pieceAt_eq {piece : Piece} (h : piece.Spelled (c :: run)) (hends : ∀ d ∈ rest.head?, piece.goesOn d = false) :
    pieceAt c (run ++ rest) = (piece, run.length) := by
  generalize htext : c :: run = text at h
  cases h with
  | keyword k =>
    rw [pieceAt_name (htext ▸ Pattern.name_matches_keyword k) hends, htext, namePiece_keyword]
  | identifier hname hkeyword => rw [pieceAt_name (htext ▸ hname) hends, htext, namePiece_identifier hkeyword]
  | number hrun hdecimal hvalue =>
    rw [pieceAt_numeral (htext ▸ hrun.2) hends, htext, numeralPiece, hvalue]
  | invalidNumber hrun hdecimal =>
    have hnone : readNumeral? text = none :=
      Option.not_isSome_iff_eq_none.1 fun hsome => hdecimal ((isSome_readNumeral?_iff hrun.2).1 hsome)
    rw [pieceAt_numeral (htext ▸ hrun.2) hends, htext, numeralPiece, hnone]
  | symbol s => exact pieceAt_symbol htext.symm hends
  | unexpectedCharacter hnone =>
    obtain ⟨rfl, rfl⟩ := List.cons.inj htext
    have hc : IsOther c := {
      blank := Bool.eq_false_iff.2 fun hc => hnone .blanks [] ⟨List.cons_ne_nil _ _, List.forall_mem_singleton.2 hc⟩
      comment := by rintro rfl; exact hnone .comment [] ⟨[], rfl, by simp⟩
      numeral := Bool.eq_false_iff.2 fun hc => hnone .numeral [] ⟨List.cons_ne_nil _ _, List.forall_mem_singleton.2 hc⟩
      name := Bool.eq_false_iff.2 fun hc => hnone .name [] ⟨c, [], rfl, hc, by simp⟩ }
    have hsymbol : Symbol.ofSpelling? c.toString = none := List.find?_eq_none.2 fun s _ hs =>
      hnone (.symbol s) [] (by simp [Pattern.Matches, of_decide_eq_true hs])
    have hplus : c ≠ '+' := by rintro rfl; cases hsymbol
    have hequal : c ≠ '=' := by rintro rfl; cases hsymbol
    rw [pieceAt_other hc, if_neg (fun h => hplus h.1), if_neg (fun h => hequal h.1), symbolPiece, hsymbol]
    rfl

/-- What no character behind it would continue is a longest match. -/
theorem Piece.Spelled.longest {piece : Piece} {text rest : List Char} (h : piece.Spelled text)
    (hends : ∀ d ∈ rest.head?, piece.goesOn d = false) : Longest text rest := by
  obtain ⟨c, run, rfl⟩ := List.exists_cons_of_ne_nil h.ne_nil
  obtain ⟨piece', run', rest', hcs, hpiece, hcut⟩ := pieceAt_cuts c (run ++ rest)
  obtain ⟨rfl, hlength⟩ := Prod.mk.inj ((pieceAt_eq h hends).symm.trans hpiece)
  obtain ⟨rfl, rfl⟩ := List.append_inj hcs hlength
  generalize htext : c :: run = text at hcut
  cases hcut with
  | blank | comment => cases h
  | lexeme _ hlongest => exact hlongest

end

/-! ## Scanning -/

section

variable {file : Nat} {p : Position} {cs gap rest : List Char} {ls : List Lexeme}

theorem scanFrom_blank {c : Char} (h : isBlank c) (file : Nat) (p : Position) (cs : List Char) :
    scanFrom file p 0 (c :: cs) = scanFrom file (p.advance c) 0 cs := by
  have hcut : pieceAt c ([] ++ cs) = (.blank, 0) := pieceAt_blank h cs
  exact scanFrom_cons hcut file p

theorem Gap.scanFrom_append (h : Gap rest gap) (file : Nat) (p : Position) :
    scanFrom file p 0 (gap ++ rest) = scanFrom file (p.advanceBy gap) 0 rest := by
  induction h generalizing p with
  | nil => rfl
  | @blanks text gap htext _ ih =>
    rw [List.append_assoc, Position.advanceBy_append, ← ih]
    have hblanks := htext.2
    clear htext
    induction text generalizing p with
    | nil => rfl
    | cons c text ihtext =>
      obtain ⟨hc, htext⟩ := List.forall_mem_cons.1 hblanks
      rw [List.cons_append, scanFrom_blank hc]
      exact ihtext (p.advance c) htext
  | @comment text gap htext hline _ ih =>
    obtain ⟨body, rfl, hbody⟩ := htext
    rw [List.append_assoc, Position.advanceBy_append, ← ih]
    exact scanFrom_cons (pieceAt_comment hbody hline) file p

theorem Lexeme.ofPiece?_piece (l : Lexeme) : Lexeme.ofPiece? l.span l.piece = some l := by
  cases l <;> rfl

/-- Scanning gives the lexemes that are laid in the text. -/
theorem Laid.scanFrom_eq (h : Laid file p cs ls) :
    scanFrom file p 0 cs = ls ++ [.token ⟨.endOfFile, .point (p.advanceBy cs) file⟩] := by
  induction h with
  | @stop p gap hgap =>
    have hscan := hgap.scanFrom_append file p
    rw [List.append_nil] at hscan
    rw [hscan, scanFrom]
    rfl
  | @lexeme p gap text rest l ls hgap hspan hpiece hlongest _ ih =>
    rw [List.append_assoc, hgap.scanFrom_append]
    obtain ⟨c, run, rfl⟩ := List.exists_cons_of_ne_nil hpiece.ne_nil
    have hcut := pieceAt_eq hpiece (hpiece.goesOn_eq_false hlongest)
    rw [List.cons_append, scanFrom_cons hcut, ← Position.advanceBy_append, ← hspan, Lexeme.ofPiece?_piece, ih,
      ← Position.advanceBy_append, ← List.cons_append, List.append_assoc]
    rfl

end

/-! ## Parts of a layout -/

section

variable {file : Nat} {p : Position} {cs : List Char} {ls ls' : List Lexeme} {l : Lexeme}

/-- Of what follows a gap, only the first character matters. -/
theorem Gap.of_head? {gap rest rest' : List Char} (h : Gap rest gap) (hhead : rest'.head? = rest.head?) :
    Gap rest' gap := by
  induction h with
  | nil => exact .nil
  | blanks htext _ ih => exact .blanks htext ih
  | @comment text gap htext hline _ ih =>
    refine .comment htext (fun d hd => hline d ?_) ih
    rwa [List.head?_append, ← hhead, ← List.head?_append]

theorem Lexeme.span_of_token? {t : Token} (h : l.token? = some t) : l.span = t.span := by
  cases l with
  | token => cases h; rfl
  | rejected => cases h

/-- With less behind it, a longest match stays one. -/
theorem Longest.of_append {text rest after : List Char} (h : Longest text (rest ++ after)) : Longest text rest :=
  fun p other hother hstart => h p other hother (by
    rw [← List.append_assoc]
    exact hstart.trans (List.prefix_append _ _))

namespace Laid

/-- A lexeme at the very start of the text. -/
theorem front {text rest : List Char} (hspan : l.span = ⟨p, p.advanceBy text, file⟩) (hpiece : l.piece.Spelled text)
    (hlongest : Longest text rest) (hrest : Laid file (p.advanceBy text) rest ls) :
    Laid file p (text ++ rest) (l :: ls) := by
  rw [← List.nil_append text] at hspan hrest ⊢
  exact .lexeme .nil hspan hpiece hlongest hrest

/-- From the start of a lexeme on, the lexemes are laid as before. -/
theorem drop (h : Laid file p cs (ls ++ l :: ls')) : ∃ before rest, cs = before ++ rest ∧
    l.span.start = p.advanceBy before ∧ Laid file (p.advanceBy before) rest (l :: ls') := by
  induction ls generalizing p cs with
  | nil =>
    cases h with
    | @lexeme _ gap text rest _ _ hgap hspan hpiece hlongest hrest =>
      refine ⟨gap, text ++ rest, List.append_assoc .., by rw [hspan], ?_⟩
      rw [Position.advanceBy_append] at hspan hrest
      exact Laid.front hspan hpiece hlongest hrest
  | cons l₁ ls ih =>
    cases h with
    | @lexeme _ gap text rest _ _ _ _ _ _ hrest =>
      obtain ⟨before, rest', rfl, hstart, hlaid⟩ := ih hrest
      rw [← Position.advanceBy_append] at hstart hlaid
      exact ⟨gap ++ text ++ before, rest', by simp, hstart, hlaid⟩

/-- Up to the end of a lexeme, the lexemes are laid as before. -/
theorem take (h : Laid file p cs (ls ++ l :: ls')) : ∃ text after, cs = text ++ after ∧
    l.span.stop = p.advanceBy text ∧ Laid file p text (ls ++ [l]) := by
  induction ls generalizing p cs with
  | nil =>
    cases h with
    | @lexeme _ gap text rest _ _ hgap hspan hpiece hlongest _ =>
      refine ⟨gap ++ text, rest, rfl, by rw [hspan], ?_⟩
      have hgap' : Gap (text ++ []) gap :=
        hgap.of_head? (by rw [List.append_nil, List.head?_append_of_ne_nil _ hpiece.ne_nil])
      have hlast : Laid file p (gap ++ text ++ []) [l] :=
        .lexeme hgap' hspan hpiece (Longest.of_append hlongest) (.stop .nil)
      rwa [List.append_nil] at hlast
  | cons l₁ ls ih =>
    cases h with
    | @lexeme _ gap text rest _ _ hgap hspan hpiece hlongest hrest =>
      obtain ⟨text', after, rfl, hstop, hlaid⟩ := ih hrest
      rw [← Position.advanceBy_append] at hstop
      refine ⟨gap ++ text ++ text', after, by simp, hstop, .lexeme ?_ hspan hpiece hlongest.of_append hlaid⟩
      refine hgap.of_head? ?_
      rw [List.head?_append_of_ne_nil _ hpiece.ne_nil, List.head?_append_of_ne_nil _ hpiece.ne_nil]

/-- The text from the start of a token to the end of another one has the tokens in between. -/
theorem exists_between {A ts B : List Token} (h : Laid file p cs ls)
    (htokens : ls.filterMap Lexeme.token? = A ++ ts ++ B) (hne : ts ≠ []) :
    ∃ before text after mid, cs = before ++ text ++ after ∧ (ts.head hne).span.start = p.advanceBy before ∧
      (ts.getLast hne).span.stop = p.advanceBy (before ++ text) ∧ Laid file (p.advanceBy before) text mid ∧
      mid.filterMap Lexeme.token? = ts := by
  rw [List.append_assoc] at htokens
  obtain ⟨ls₁, ls₂, rfl, -, hfrom⟩ := List.filterMap_eq_append_iff.1 htokens
  -- The lexemes from the first of the tokens on.
  rw [← List.cons_head_tail hne, List.cons_append] at hfrom
  obtain ⟨front, first, ls₃, rfl, -, hfirst, hls₃⟩ := List.filterMap_eq_cons_iff.1 hfrom
  rw [← List.append_assoc] at h
  obtain ⟨before, rest, rfl, hstart, hlaid⟩ := h.drop
  -- Of these, the lexemes up to the last of the tokens.
  have htaken : (first :: ls₃).filterMap Lexeme.token? = ts.dropLast ++ (ts.getLast hne :: B) := by
    rw [List.filterMap_cons_some hfirst, hls₃, ← List.cons_append, List.cons_head_tail]
    rw [← List.singleton_append, ← List.append_assoc, List.dropLast_append_getLast]
  obtain ⟨ls₄, ls₅, heq, hls₄, hupTo⟩ := List.filterMap_eq_append_iff.1 htaken
  obtain ⟨between, last, ls₆, rfl, hbetween, hlast, -⟩ := List.filterMap_eq_cons_iff.1 hupTo
  rw [heq, ← List.append_assoc] at hlaid
  obtain ⟨text, after, rfl, hstop, hmid⟩ := hlaid.take
  refine ⟨before, text, after, _, (List.append_assoc ..).symm, ?_, ?_, hmid, ?_⟩
  · rw [← hstart, Lexeme.span_of_token? hfirst]
  · rw [Position.advanceBy_append, ← hstop, Lexeme.span_of_token? hlast]
  · rw [List.filterMap_append, List.filterMap_append, hls₄, List.filterMap_eq_nil_iff.2 hbetween,
      List.filterMap_cons_some hlast, List.append_nil]
    exact List.dropLast_append_getLast hne

end Laid

end

/-! ## Layouts at any place -/

/-- The pieces lie in the text one after another, wherever the text stands. -/
def Lays (cs : List Char) (pieces : List Piece) : Prop :=
  ∀ file p, ∃ ls, Laid file p cs ls ∧ ls.map Lexeme.piece = pieces

/-- Blanks and comments with the end of their line, at least one. -/
inductive Separator : List Char → Prop
  | blank {c : Char} (h : isBlank c) : Separator [c]
  | comment {body : List Char} (h : '\n' ∉ body) : Separator ('#' :: body ++ ['\n'])
  | append {a b : List Char} (ha : Separator a) (hb : Separator b) : Separator (a ++ b)

theorem Laid.lays {file : Nat} {p : Position} {cs : List Char} {ls : List Lexeme} (h : Laid file p cs ls) :
    Lays cs (ls.map Lexeme.piece) := by
  intro file' p'
  induction h generalizing p' with
  | stop hgap => exact ⟨[], .stop hgap, rfl⟩
  | @lexeme p gap text rest l ls hgap _ hpiece hlongest _ ih =>
    obtain ⟨ls', hlaid, hpieces⟩ := ih (p'.advanceBy (gap ++ text))
    obtain ⟨l', -, hspan, hl⟩ :=
      Lexeme.ofPiece?_of_spelled hpiece ⟨p'.advanceBy gap, p'.advanceBy (gap ++ text), file'⟩
    exact ⟨l' :: ls', .lexeme hgap hspan (hl ▸ hpiece) hlongest hlaid, by simp [hl, hpieces]⟩

namespace Separator

variable {sep : List Char}

theorem gap (h : Separator sep) {gap rest : List Char} (hgap : Gap rest gap) : Gap rest (sep ++ gap) := by
  induction h generalizing gap with
  | blank hc => exact .blanks ⟨List.cons_ne_nil _ _, List.forall_mem_singleton.2 hc⟩ hgap
  | @comment body hbody =>
    have hline : Gap rest (['\n'] ++ gap) := .blanks ⟨List.cons_ne_nil _ _, List.forall_mem_singleton.2 rfl⟩ hgap
    rw [List.append_assoc]
    exact .comment ⟨body, rfl, hbody⟩ (by simp) hline
  | append _ _ iha ihb =>
    rw [List.append_assoc]
    exact iha (ihb hgap)

theorem exists_cons (h : Separator sep) : ∃ c cs, sep = c :: cs ∧ (isBlank c ∨ c = '#') := by
  induction h with
  | blank hc => exact ⟨_, [], rfl, .inl hc⟩
  | comment => exact ⟨_, _, rfl, .inr rfl⟩
  | append _ _ iha =>
    obtain ⟨c, cs, rfl, hc⟩ := iha
    exact ⟨c, _, rfl, hc⟩

/-- No token goes on with a separator. -/
theorem goesOn_eq_false (h : Separator sep) (piece : Piece) (rest : List Char) :
    ∀ d ∈ (sep ++ rest).head?, piece.goesOn d = false := by
  obtain ⟨c, cs, rfl, hc⟩ := h.exists_cons
  rintro _ ⟨⟩
  have hname : isNameChar c = false := Bool.eq_false_iff.2 fun hname => by
    rcases hc with hblank | rfl
    · rw [isBlank_of_isNameChar hname] at hblank
      cases hblank
    · cases hname
  have hnumeral : isNumeralChar c = false := by
    rcases hc with hblank | rfl
    · exact isNumeralChar_of_isBlank hblank
    · rfl
  have hplus : (c == '+') = false := beq_eq_false_iff_ne.2 (by rintro rfl; simp [isBlank] at hc)
  have hequal : (c == '=') = false := beq_eq_false_iff_ne.2 (by rintro rfl; simp [isBlank] at hc)
  unfold Piece.goesOn
  split
  exacts [hname, hname, hnumeral, hnumeral, hplus, hequal, rfl]

end Separator

namespace Lays

variable {text sep rest : List Char} {pieces : List Piece} {piece : Piece}

theorem single (h : piece.Spelled text) : Lays text [piece] := by
  intro file p
  obtain ⟨l, -, hspan, rfl⟩ := Lexeme.ofPiece?_of_spelled h ⟨p, p.advanceBy text, file⟩
  have hlaid : Laid file p (text ++ []) [l] := .front hspan h (h.longest (by simp)) (.stop .nil)
  rw [List.append_nil] at hlaid
  exact ⟨[l], hlaid, rfl⟩

/-- A lexeme and a separator in front of a layout. -/
theorem cons (h : piece.Spelled text) (hsep : Separator sep) (hrest : Lays rest pieces) :
    Lays (text ++ sep ++ rest) (piece :: pieces) := by
  intro file p
  obtain ⟨l, -, hspan, rfl⟩ := Lexeme.ofPiece?_of_spelled h ⟨p, p.advanceBy text, file⟩
  obtain ⟨ls, hlaid, rfl⟩ := hrest file ((p.advanceBy text).advanceBy sep)
  have hbehind : Laid file (p.advanceBy text) (sep ++ rest) ls := hlaid.behind fun _ _ _ hgap => hsep.gap hgap
  rw [List.append_assoc]
  exact ⟨l :: ls, .front hspan h (h.longest (hsep.goesOn_eq_false _ _)) hbehind, rfl⟩

end Lays

/-! ## Tokens -/

def Piece.kind? : Piece → Option TokenKind
  | token kind => some kind
  | _ => none

theorem map_kind_tokens (ls : List Lexeme) :
    (ls.filterMap Lexeme.token?).map Token.kind = (ls.map Lexeme.piece).filterMap Piece.kind? := by
  rw [List.map_filterMap, List.filterMap_map]
  congr 1
  funext l
  cases l <;> rfl

/-- The kinds of the tokens of a text that is laid out. -/
theorem Lays.map_kind_tokenize {cs : List Char} {pieces : List Piece} (h : Lays cs pieces) (file : Nat) :
    (tokenize (String.ofList cs) file).1.map Token.kind = pieces.filterMap Piece.kind? ++ [.endOfFile] := by
  obtain ⟨ls, hlaid, rfl⟩ := h file .first
  rw [tokenize, scan_eq_scanFrom, String.toList_ofList, hlaid.scanFrom_eq, List.filterMap_append, List.map_append,
    map_kind_tokens]
  rfl

/-- Tokens alone are scanned without a diagnostic. -/
theorem Lays.tokenize_diagnostics {cs : List Char} {kinds : List TokenKind} (h : Lays cs (kinds.map .token))
    (file : Nat) : (tokenize (String.ofList cs) file).2 = [] := by
  obtain ⟨ls, hlaid, hpieces⟩ := h file .first
  show (scan (String.ofList cs) file).filterMap Lexeme.diagnostic? = []
  rw [scan_eq_scanFrom, String.toList_ofList, hlaid.scanFrom_eq, List.filterMap_append]
  refine List.append_eq_nil_iff.2 ⟨List.filterMap_eq_nil_iff.2 fun l hl => ?_, rfl⟩
  obtain ⟨kind, -, hkind⟩ := List.mem_map.1 (hpieces ▸ List.mem_map_of_mem hl)
  cases l with
  | token => rfl
  | rejected => cases hkind

end Monofloat
