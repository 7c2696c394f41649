import Monofloat.Proofs.Patterns
import Monofloat.Proofs.Positions

/-!
# Scanning covers the source

Scanning finds byte offsets first and moves a cursor over the source to find the lines and columns. It gives the same
lexemes as `scanFrom`, which takes the position along from character to character (`scan_eq_scanFrom`).

`Laid p cs ls` says that the lexemes `ls` lie in `cs`, which starts at `p`, one after another: before, between and
after them there are only blanks and comments (`Gap`), each has the span of its text, and its text is the longest
that a pattern matches there. Scanning a source gives such lexemes and one end-of-file token (`scanFrom_laid`).
What holds of all lexemes, of their order and of their positions follows from `Laid` by induction.
-/

namespace Monofloat

/-- The lexemes of `cs`, which starts at position `p`. The first `skip` characters belong to the piece before. -/
def scanFrom (file : Nat) (p : Position) : (skip : Nat) → List Char → List Lexeme
  | _, [] => [.token ⟨.endOfFile, .point p file⟩]
  | skip + 1, c :: cs => scanFrom file (p.advance c) skip cs
  | 0, c :: cs =>
    let (piece, more) := pieceAt c cs
    let span : Span := ⟨p, p.advanceBy (c :: cs.take more), file⟩
    (Lexeme.ofPiece? span piece).toList ++ scanFrom file (p.advance c) more cs

/-- The piece of the source that a lexeme stands for. -/
def Lexeme.piece : Lexeme → Piece
  | token t => .token t.kind
  | rejected reason _ => .rejected reason

/-- The code and the labelled spans of what is reported for a lexeme that is no token. -/
def Lexeme.report? : Lexeme → Option (Option Code × List Span)
  | token _ => none
  | rejected (.unexpectedCharacter _) span => some (some .unexpectedCharacter, [span])
  | rejected (.invalidNumber _) span => some (some .invalidNumber, [span])

/-- Text without lexemes that stands before `rest`: blanks, and comments that each run up to the end of their
line. -/
inductive Gap (rest : List Char) : List Char → Prop
  | nil : Gap rest []
  | blanks {text gap : List Char} (htext : Pattern.blanks.Matches text) (hgap : Gap rest gap) : Gap rest (text ++ gap)
  | comment {text gap : List Char} (htext : Pattern.comment.Matches text)
    (hline : ∀ d ∈ (gap ++ rest).head?, d = '\n') (hgap : Gap rest gap) : Gap rest (text ++ gap)

/-- The lexemes lie in the text, which starts at the position, with gaps around them. -/
inductive Laid (file : Nat) : Position → List Char → List Lexeme → Prop
  | stop {p : Position} {gap : List Char} (hgap : Gap [] gap) : Laid file p gap []
  | lexeme {p : Position} {gap text rest : List Char} {l : Lexeme} {ls : List Lexeme} (hgap : Gap (text ++ rest) gap)
    (hspan : l.span = ⟨p.advanceBy gap, p.advanceBy (gap ++ text), file⟩) (hpiece : l.piece.Spelled text)
    (hlongest : Longest text rest) (hrest : Laid file (p.advanceBy (gap ++ text)) rest ls) :
    Laid file p (gap ++ text ++ rest) (l :: ls)

/-! ## Scanning lays lexemes -/

theorem scanFrom_skip (file : Nat) (p : Position) (run rest : List Char) :
    scanFrom file p run.length (run ++ rest) = scanFrom file (p.advanceBy run) 0 rest := by
  induction run generalizing p with
  | nil => rfl
  | cons c run ih => exact ih (p.advance c)

/-- One piece is cut off, and scanning goes on behind it. -/
theorem scanFrom_cons {c : Char} {run rest : List Char} {piece : Piece}
    (h : pieceAt c (run ++ rest) = (piece, run.length)) (file : Nat) (p : Position) :
    scanFrom file p 0 (c :: (run ++ rest)) =
      (Lexeme.ofPiece? ⟨p, p.advanceBy (c :: run), file⟩ piece).toList ++
        scanFrom file (p.advanceBy (c :: run)) 0 rest := by
  rw [scanFrom, h]
  dsimp only
  rw [List.take_left, scanFrom_skip]
  rfl

theorem matchesFrom_skip (start : Nat) (run rest : List Char) :
    matchesFrom start run.length (run ++ rest) = matchesFrom (start + byteSize run) 0 rest := by
  induction run generalizing start with
  | nil => rfl
  | cons c run ih =>
    rw [byteSize_cons, ← Nat.add_assoc]
    exact ih (start + c.utf8Size)

theorem matchesFrom_cons {c : Char} {run rest : List Char} {piece : Piece}
    (h : pieceAt c (run ++ rest) = (piece, run.length)) (start : Nat) :
    matchesFrom start 0 (c :: (run ++ rest)) =
      (if piece = .blank then [] else [⟨piece, start, start + byteSize (c :: run)⟩]) ++
        matchesFrom (start + byteSize (c :: run)) 0 rest := by
  rw [matchesFrom, h]
  dsimp only
  rw [List.take_left, matchesFrom_skip, byteSize_cons, Nat.add_assoc]
  cases piece <;> rfl

/-- The cursor stands behind `before`, and between it and what is still to be scanned there is text without lexemes. -/
theorem locate_matchesFrom {source before skipped cs : List Char} (h : source = before ++ skipped ++ cs) (file : Nat) :
    locate source file (Position.first.advanceBy before) (matchesFrom (byteSize (before ++ skipped)) 0 cs) =
      scanFrom file (Position.first.advanceBy (before ++ skipped)) 0 cs := by
  have hseek := Position.seek_advanceBy before skipped cs
  rw [← h] at hseek
  match cs with
  | [] =>
    rw [List.append_nil] at h
    rw [matchesFrom, locate, scanFrom, show byteSize source = byteSize (before ++ skipped) from h ▸ rfl, hseek]
  | c :: cs =>
    obtain ⟨piece, run, rest, rfl, hpiece, -⟩ := pieceAt_cuts c cs
    have hbehind : source = before ++ (skipped ++ c :: run) ++ rest := by
      rw [h]
      simp only [List.append_assoc, List.cons_append]
    rw [matchesFrom_cons hpiece, scanFrom_cons hpiece, ← byteSize_append, ← Position.advanceBy_append]
    by_cases hblank : piece = .blank
    · rw [if_pos hblank, hblank, List.nil_append, List.append_assoc]
      exact locate_matchesFrom hbehind file
    · have hstop := Position.seek_advanceBy (before ++ skipped) (c :: run) rest
      rw [List.append_assoc before, ← hbehind] at hstop
      have hnone : source = (before ++ (skipped ++ c :: run)) ++ [] ++ rest := by rw [List.append_nil, hbehind]
      have hrest := locate_matchesFrom hnone file
      rw [List.append_nil] at hrest
      rw [if_neg hblank, List.singleton_append, locate]
      dsimp only
      rw [hseek, List.append_assoc, hstop, hrest]
termination_by cs.length

/-- The cursor finds the positions that are taken along. -/
theorem scan_eq_scanFrom (source : String) (file : Nat) : scan source file = scanFrom file .first 0 source.toList :=
  locate_matchesFrom (show source.toList = [] ++ [] ++ source.toList from rfl) file

theorem Lexeme.ofPiece?_of_spelled {piece : Piece} {text : List Char} (h : piece.Spelled text) (span : Span) :
    ∃ l, Lexeme.ofPiece? span piece = some l ∧ l.span = span ∧ l.piece = piece := by
  cases h <;> exact ⟨_, rfl, rfl, rfl⟩

/-- Text that lengthens every gap before the rest stands before the lexemes of the rest. -/
theorem Laid.behind {file : Nat} {p : Position} {skipped cs : List Char} {ls : List Lexeme}
    (h : Laid file (p.advanceBy skipped) cs ls)
    (hskipped : ∀ gap rest, cs = gap ++ rest → Gap rest gap → Gap rest (skipped ++ gap)) :
    Laid file p (skipped ++ cs) ls := by
  cases h with
  | stop hgap => exact .stop (hskipped _ [] (List.append_nil _).symm hgap)
  | @lexeme _ gap text rest l ls hgap hspan hpiece hlongest hrest =>
    rw [← List.append_assoc, ← List.append_assoc]
    refine .lexeme (hskipped gap (text ++ rest) (List.append_assoc ..) hgap) ?_ hpiece hlongest ?_
    · simp only [hspan, Position.advanceBy_append]
    · simpa only [Position.advanceBy_append] using hrest

/-- Scanning gives the lexemes that lie in the text, and the end of the file behind it. -/
theorem scanFrom_laid (file : Nat) (p : Position) (cs : List Char) :
    ∃ ls, scanFrom file p 0 cs = ls ++ [.token ⟨.endOfFile, .point (p.advanceBy cs) file⟩] ∧ Laid file p cs ls := by
  match cs with
  | [] => exact ⟨[], by rw [scanFrom]; rfl, .stop .nil⟩
  | c :: cs =>
    obtain ⟨piece, run, rest, rfl, hpiece, hcut⟩ := pieceAt_cuts c cs
    obtain ⟨ls, hscan, hlaid⟩ := scanFrom_laid file (p.advanceBy (c :: run)) rest
    rw [scanFrom_cons hpiece, hscan, ← Position.advanceBy_append, List.cons_append]
    cases hcut with
    | blank hc =>
      refine ⟨ls, rfl, hlaid.behind fun gap following _ hgap => ?_⟩
      exact .blanks ⟨List.cons_ne_nil _ _, List.forall_mem_singleton.2 hc⟩ hgap
    | comment hbody hline =>
      refine ⟨ls, rfl, hlaid.behind fun gap following hrest hgap => ?_⟩
      exact .comment ⟨run, rfl, hbody⟩ (hrest ▸ hline) hgap
    | lexeme hspelled hlongest =>
      obtain ⟨l, hl, hspan, rfl⟩ := Lexeme.ofPiece?_of_spelled hspelled ⟨p, p.advanceBy (c :: run), file⟩
      rw [hl]
      exact ⟨l :: ls, rfl, .lexeme .nil hspan hspelled hlongest hlaid⟩
termination_by cs.length

/-! ## What holds of lexemes that are laid -/

namespace Laid

variable {file : Nat} {p : Position} {cs : List Char} {ls : List Lexeme}

/-- Where a lexeme lies. -/
theorem exists_text (h : Laid file p cs ls) {l : Lexeme} (hl : l ∈ ls) :
    ∃ before text after, cs = before ++ text ++ after ∧
      l.span = ⟨p.advanceBy before, p.advanceBy (before ++ text), file⟩ ∧ l.piece.Spelled text ∧
      Longest text after := by
  induction h with
  | stop => cases hl
  | @lexeme p gap text rest l' ls _ hspan hpiece hlongest _ ih =>
    rcases List.mem_cons.1 hl with rfl | hl
    · exact ⟨gap, text, rest, rfl, hspan, hpiece, hlongest⟩
    · obtain ⟨before, text', after, rfl, hspan', hpiece', hlongest'⟩ := ih hl
      refine ⟨gap ++ text ++ before, text', after, by simp, ?_, hpiece', hlongest'⟩
      simp only [hspan', Position.advanceBy_append]

/-- Every lexeme stops before the next ones start. -/
theorem pairwise (h : Laid file p cs ls) : ls.Pairwise fun a b => a.span.stop.offset ≤ b.span.start.offset := by
  induction h with
  | stop => exact .nil
  | lexeme _ hspan _ _ hrest ih =>
    refine .cons (fun l hl => ?_) ih
    obtain ⟨before, text, after, -, hspan', -⟩ := hrest.exists_text hl
    rw [hspan, hspan', Position.offset_advanceBy _ before]
    exact Nat.le_add_right _ _

end Laid

/-! ## Runs of digits and points -/

/-- A name ends where the text ends. -/
def EndsInName (cs : List Char) : Prop := ∃ word, word <:+ cs ∧ Pattern.name.Matches word

/-- `run` is a whole run of digits and points, between `before` and `after`, outside of comments and names. Directly
behind a name it starts with the point that ends the name. -/
structure NumeralRun (before run after : List Char) : Prop where
  numeral : Pattern.numeral.Matches run
  stops : ∀ d ∈ after.head?, isNumeralChar d = false
  behindName : EndsInName before → run.head? = some '.'
  behindOther : ¬ EndsInName before → ∀ d ∈ before.getLast?, isNumeralChar d = false
  outside : '#' ∉ lastLine before

/-- What is in a gap and neither a blank nor the start of a comment is in a comment. -/
theorem Gap.mem_lastLine {rest gap before after : List Char} {c : Char} (h : Gap rest gap)
    (hgap : gap = before ++ c :: after) (hblank : isBlank c = false) (hhash : c ≠ '#') : '#' ∈ lastLine before := by
  induction h generalizing before with
  | nil => simp at hgap
  | @blanks text gap htext _ ih =>
    rcases List.append_eq_append_iff.1 hgap with ⟨more, rfl, hmore⟩ | ⟨more, rfl, hmore⟩
    · exact mem_lastLine_append _ (ih hmore)
    · cases more with
      | nil => exact absurd (ih (show gap = [] ++ c :: after from hmore.symm)) (by simp [lastLine])
      | cons d more =>
        obtain ⟨rfl, -⟩ := List.cons.inj hmore
        rw [htext.2 c (by simp)] at hblank
        cases hblank
  | @comment text gap htext _ _ ih =>
    obtain ⟨body, rfl, hbody⟩ := htext
    rcases List.append_eq_append_iff.1 hgap with ⟨more, rfl, hmore⟩ | ⟨more, htext, hmore⟩
    · exact mem_lastLine_append _ (ih hmore)
    · cases more with
      | nil => exact absurd (ih (show gap = [] ++ c :: after from hmore.symm)) (by simp [lastLine])
      | cons d more =>
        obtain ⟨rfl, -⟩ := List.cons.inj hmore
        cases before with
        | nil => exact absurd (List.cons.inj htext).1.symm hhash
        | cons b before =>
          obtain ⟨rfl, rfl⟩ := List.cons.inj htext
          have hline : '\n' ∉ '#' :: before := by simpa using fun h => hbody (List.mem_append_left _ h)
          have hlast := lastLine_append_of_notMem [] hline
          rw [List.nil_append] at hlast
          rw [hlast]
          simp

/-- A suffix of `a ++ b` is one of `b`, or has the last character of `a`. -/
theorem suffix_append_cases {word a b : List Char} (h : word <:+ a ++ b) :
    word <:+ b ∨ ∃ front e, word = front ++ [e] ++ b ∧ e ∈ a.getLast? := by
  rcases List.suffix_or_suffix_of_suffix h (List.suffix_append a b) with hb | ⟨front, rfl⟩
  · exact .inl hb
  · rcases front.eq_nil_or_concat with rfl | ⟨front, e, rfl⟩
    · exact .inl (List.suffix_refl b)
    · obtain ⟨pre, rfl⟩ := List.suffix_append_self_iff.1 h
      exact .inr ⟨front, e, by simp, by simp⟩

/-- A name that ends behind a lexeme starts behind it. -/
theorem EndsInName.behind {piece : Piece} {pre text rest cs : List Char} {d : Char}
    (h : EndsInName (pre ++ text ++ d :: cs)) (hpiece : piece.Spelled text) (hlongest : Longest text (d :: rest)) :
    EndsInName (d :: cs) := by
  obtain ⟨word, hword, hname⟩ := h
  rcases suffix_append_cases hword with hcs | ⟨front, e, rfl, he⟩
  · exact ⟨word, hcs, hname⟩
  have hnext := hpiece.goesOn_eq_false hlongest d rfl
  have hd : isNameChar d := hname.isNameChar_of_mem (by simp)
  rcases hpiece.cases_text with ⟨-, -, hgoes⟩ | ⟨-, hgoes⟩ | hother
  · rw [hgoes] at hnext
    -- A numeral ends in front of `d`, which then is no digit and starts a name.
    have hstart : isNameStart d := (isNameChar_iff.1 hd).resolve_right fun hdigit => by
      rw [isNumeralChar_iff.2 (.inl hdigit)] at hnext; cases hnext
    exact ⟨d :: cs, List.suffix_refl _, d, cs, rfl, hstart, fun b hb => hname.isNameChar_of_mem (by simp [hb])⟩
  · rw [hgoes, hd] at hnext; cases hnext
  · rw [List.getLast?_append_of_ne_nil _ hpiece.ne_nil] at he
    have hlast : isNameChar e := hname.isNameChar_of_mem (by simp)
    rw [(hother e (List.mem_of_getLast? he)).2] at hlast
    cases hlast

/-- A name that ends behind a gap, outside of comments, starts behind it. -/
theorem EndsInName.behind_gap {rest gap cs : List Char} (h : EndsInName (gap ++ cs)) (hgap : Gap rest gap)
    (houtside : '#' ∉ lastLine (gap ++ cs)) : EndsInName cs := by
  obtain ⟨word, hword, hname⟩ := h
  rcases suffix_append_cases hword with hcs | ⟨front, e, rfl, he⟩
  · exact ⟨word, hcs, hname⟩
  obtain ⟨gap', rfl⟩ := List.getLast?_eq_some_iff.1 he
  have hlast : isNameChar e := hname.isNameChar_of_mem (by simp)
  have hcomment : '#' ∈ lastLine gap' := hgap.mem_lastLine rfl (isBlank_of_isNameChar hlast) (by rintro rfl; cases hlast)
  have hline : '\n' ∉ [e] ++ cs := fun hmem =>
    absurd (hname.isNameChar_of_mem (List.append_assoc front [e] cs ▸ List.mem_append_right front hmem)) (by decide)
  rw [List.append_assoc, lastLine_append_of_notMem gap' hline] at houtside
  exact absurd (List.mem_append_left _ hcomment) houtside

theorem not_endsInName_of_numeral {cs : List Char} (h : ∀ c ∈ cs, isNumeralChar c) : ¬ EndsInName cs := by
  rintro ⟨word, hword, c, more, rfl, hstart, -⟩
  rw [isNameStart_of_isNumeralChar (h c (hword.subset (by simp)))] at hstart
  cases hstart

namespace NumeralRun

variable {before run after : List Char}

/-- A run of the whole text that starts behind a lexeme is a run of what follows the lexeme. -/
theorem behind {piece : Piece} {pre text : List Char} (h : NumeralRun (pre ++ text ++ before) run after)
    (hpiece : piece.Spelled text) (hlongest : Longest text (before ++ run ++ after)) : NumeralRun before run after := by
  refine ⟨h.numeral, h.stops, ?_, ?_, fun hhash => h.outside (mem_lastLine_append _ hhash)⟩
  · rintro ⟨word, ⟨front, rfl⟩, hname⟩
    exact h.behindName ⟨word, by simp [← List.append_assoc], hname⟩
  · intro hother
    cases before with
    | nil => simp
    | cons d cs =>
      have hlast := h.behindOther fun hname => hother (hname.behind hpiece hlongest)
      rwa [List.getLast?_append_of_ne_nil _ (List.cons_ne_nil d cs)] at hlast

theorem not_in_gap {rest gap more : List Char} {d : Char} (h : NumeralRun before run after) (hgap : Gap rest gap)
    (hbefore : gap = before ++ d :: more) (hd : d ∈ run) : False := by
  have hnumeral : isNumeralChar d := h.numeral.2 d hd
  have hblank : isBlank d = false := Bool.eq_false_iff.2 fun hblank => by
    rw [isNumeralChar_of_isBlank hblank] at hnumeral; cases hnumeral
  exact h.outside (hgap.mem_lastLine hbefore hblank (by rintro rfl; cases hnumeral))

/-- A run that starts in the text of a lexeme is that text. -/
theorem eq_text {piece : Piece} {gap inner tail rest : List Char} (h : NumeralRun (gap ++ inner) run after)
    (hgap : Gap (inner ++ tail ++ rest) gap) (hpiece : piece.Spelled (inner ++ tail))
    (hlongest : Longest (inner ++ tail) rest) (htail : tail ≠ []) (hrest : run ++ after = tail ++ rest) :
    inner = [] ∧ tail = run ∧ piece.OfNumeral run := by
  obtain ⟨d, tail, rfl⟩ := List.exists_cons_of_ne_nil htail
  obtain ⟨d', run, rfl⟩ := List.exists_cons_of_ne_nil h.numeral.1
  obtain rfl : d' = d := (List.cons.inj hrest).1
  have hd : isNumeralChar d' := h.numeral.2 d' (by simp)
  rcases hpiece.cases_text with ⟨hnumeral, hreads, hgoes⟩ | ⟨hname, -⟩ | hother
  · have hinner : inner = [] := by
      rcases inner.eq_nil_or_concat with hnil | ⟨front, e, rfl⟩
      · exact hnil
      -- The run does not start in the middle of a numeral, for no name ends there.
      · have hnot : ¬ EndsInName (gap ++ front.concat e) := fun hends =>
          not_endsInName_of_numeral (fun c hc => hnumeral.2 c (List.mem_append_left _ hc))
            (hends.behind_gap hgap h.outside)
        have he := h.behindOther hnot e (by simp)
        rw [hnumeral.2 e (by simp)] at he
        cases he
    subst hinner
    have hstops : ∀ d ∈ rest.head?, isNumeralChar d = false := fun d hd => by
      rw [← hgoes]; exact hpiece.goesOn_eq_false hlongest d hd
    have heq := run_unique hrest h.numeral.2 h.stops hnumeral.2 hstops
    exact ⟨rfl, heq.symm, heq ▸ hreads⟩
  · cases inner with
    | nil =>
      obtain ⟨c, cs, hcs, hstart, -⟩ := hname
      obtain ⟨rfl, -⟩ := List.cons.inj hcs
      rw [isNameStart_of_isNumeralChar hd] at hstart
      cases hstart
    | cons c inner =>
      -- Inside of a name stands no point.
      have hpoint : d' = '.' := by
        obtain ⟨c', cs, hcs, hstart, hrest⟩ := hname
        obtain ⟨rfl, rfl⟩ := List.cons.inj hcs
        have hends : EndsInName (gap ++ c :: inner) :=
          ⟨c :: inner, List.suffix_append _ _, c, inner, rfl, hstart, fun b hb => hrest b (by simp [hb])⟩
        exact Option.some.inj (h.behindName hends)
      subst hpoint
      exact absurd (hname.isNameChar_of_mem (d := '.') (by simp)) (by decide)
  · rw [(hother d' (by simp)).1] at hd; cases hd

end NumeralRun

/-- A point of a text is in the gap, in the lexeme behind it, or in the rest. -/
theorem split_cases {gap text rest before cs : List Char} (h : gap ++ text ++ rest = before ++ cs)
    (htext : text ≠ []) :
    (∃ d more, gap = before ++ d :: more ∧ d ∈ cs.head?) ∨
      (∃ inner tail, before = gap ++ inner ∧ text = inner ++ tail ∧ tail ≠ [] ∧ cs = tail ++ rest) ∨
      ∃ more, before = gap ++ text ++ more ∧ rest = more ++ cs := by
  rcases List.append_eq_append_iff.1 h with ⟨more, hbefore, hrest⟩ | ⟨tail, hlexeme, hcs⟩
  · exact .inr (.inr ⟨more, hbefore, hrest⟩)
  · rcases List.append_eq_append_iff.1 hlexeme with ⟨inner, hbefore, hinner⟩ | ⟨more, hgap, htail⟩
    · cases tail with
      | nil => exact .inr (.inr ⟨[], by simp [hbefore, hinner], by simpa using hcs.symm⟩)
      | cons d tail => exact .inr (.inl ⟨inner, d :: tail, hbefore, hinner, List.cons_ne_nil _ _, hcs⟩)
    · cases more with
      | nil => exact .inr (.inl ⟨[], text, by simpa using hgap.symm, rfl, htext, by simpa [htail] using hcs⟩)
      | cons d more => exact .inl ⟨d, more, hgap, by simp [hcs, htail]⟩

/-- Every whole run of digits and points is a lexeme. -/
theorem Laid.exists_numeral {file : Nat} {p : Position} {cs before run after : List Char} {ls : List Lexeme}
    (h : Laid file p cs ls) (hcs : cs = before ++ run ++ after) (hrun : NumeralRun before run after) :
    ∃ l ∈ ls, l.span = ⟨p.advanceBy before, p.advanceBy (before ++ run), file⟩ ∧ l.piece.OfNumeral run := by
  rw [List.append_assoc] at hcs
  induction h generalizing before with
  | @stop p gap hgap =>
    obtain ⟨d, more, rfl⟩ := List.exists_cons_of_ne_nil hrun.numeral.1
    exact (hrun.not_in_gap hgap hcs (by simp)).elim
  | @lexeme p gap text rest l ls hgap hspan hpiece hlongest hrest ih =>
    rcases split_cases hcs hpiece.ne_nil with
      ⟨d, more, hbefore, hd⟩ | ⟨inner, tail, rfl, rfl, htail, htext⟩ | ⟨more, rfl, rfl⟩
    · rw [List.head?_append_of_ne_nil _ hrun.numeral.1] at hd
      exact (hrun.not_in_gap hgap hbefore (List.mem_of_head? hd)).elim
    · obtain ⟨rfl, rfl, hreads⟩ := hrun.eq_text hgap hpiece hlongest htail htext
      exact ⟨l, by simp, by simpa using hspan, hreads⟩
    · rw [← List.append_assoc] at hlongest
      obtain ⟨l', hl', hspan', hreads⟩ := ih rfl (hrun.behind hpiece hlongest)
      refine ⟨l', List.mem_cons_of_mem _ hl', ?_, hreads⟩
      simp only [hspan', Position.advanceBy_append]

/-- In `a1.5` the name ends at the point, and `.5` is a run. -/
example : NumeralRun ['a', '1'] ['.', '5'] [] where
  numeral := ⟨List.cons_ne_nil _ _, List.all_eq_true.1 rfl⟩
  stops := by simp
  behindName _ := rfl
  behindOther hother :=
    absurd ⟨['a', '1'], List.suffix_refl _, 'a', ['1'], rfl, rfl, List.all_eq_true.1 rfl⟩ hother
  outside := by decide

/-! ## Tokens and diagnostics -/

theorem scan_laid (source : String) (file : Nat) :
    ∃ ls, scan source file = ls ++ [.token ⟨.endOfFile, .point (Position.first.advanceBy source.toList) file⟩] ∧
      Laid file .first source.toList ls := by
  rw [scan_eq_scanFrom]
  exact scanFrom_laid file .first source.toList

/-- What is reported for the lexemes that are no tokens. -/
theorem map_diagnostics (ls : List Lexeme) :
    (ls.filterMap Lexeme.diagnostic?).map (fun d => (d.code, d.labels.map Label.span)) =
      ls.filterMap Lexeme.report? := by
  rw [List.map_filterMap]
  congr 1
  funext l
  rcases l with t | ⟨⟨c⟩ | ⟨text⟩, span⟩ <;> rfl

/-- What a lexeme is cut from: the text that its span covers is its spelling, and no pattern matches more. -/
structure Lexeme.CutFrom (l : Lexeme) (before text after : String) : Prop where
  start : l.span.start.offset = before.utf8ByteSize
  stop : l.span.stop.offset = (before ++ text).utf8ByteSize
  nonempty : l.span.start.offset < l.span.stop.offset
  inside : l.span.stop.offset ≤ (before ++ text ++ after).utf8ByteSize
  covered : l.span.text? (before ++ text ++ after) = some text
  spelled : l.piece.Spelled text.toList
  longest : Longest text.toList after.toList
  ends : ∀ d ∈ after.toList.head?, l.piece.goesOn d = false

theorem Laid.exists_cutFrom {source : String} {file : Nat} {ls : List Lexeme}
    (h : Laid file .first source.toList ls) {l : Lexeme} (hl : l ∈ ls) :
    ∃ before text after, source = before ++ text ++ after ∧ l.CutFrom before text after := by
  obtain ⟨before, text, after, hsource, hspan, hpiece, hlongest⟩ := h.exists_text hl
  have hstart : l.span.start.offset = byteSize before := by rw [hspan, Position.advanceBy_first before]
  have hstop : l.span.stop.offset = byteSize (before ++ text) := by rw [hspan, Position.advanceBy_first (before ++ text)]
  refine ⟨String.ofList before, String.ofList text, String.ofList after, ?_, ?_⟩
  · rw [← String.ofList_append, ← String.ofList_append, ← hsource, String.ofList_toList]
  · refine ⟨hstart, ?_, ?_, ?_, ?_, ?_, ?_, ?_⟩
    · rw [hstop, ← String.ofList_append]; rfl
    · rw [hstart, hstop, byteSize_append]
      exact Nat.lt_add_of_pos_right (byteSize_pos hpiece.ne_nil)
    · rw [hstop, ← String.ofList_append, String.utf8ByteSize_append]
      exact Nat.le_add_right _ _
    · rw [← String.ofList_append, ← String.ofList_append]
      exact Span.text?_eq hstart hstop
    · rwa [String.toList_ofList]
    · rwa [String.toList_ofList, String.toList_ofList]
    · rw [String.toList_ofList]
      exact hpiece.goesOn_eq_false hlongest

/-- Tokens and diagnostics together cover the source, up to blanks and comments, each with the longest text that a
pattern matches where it starts, and one end of file follows them. -/
theorem tokenize_covers (source : String) (file : Nat) :
    ∃ lexemes : List Lexeme,
      (tokenize source file).1 = lexemes.filterMap Lexeme.token? ++
        [⟨.endOfFile, .point (Position.first.advanceBy source.toList) file⟩] ∧
      (∀ t ∈ lexemes.filterMap Lexeme.token?, t.kind ≠ .endOfFile) ∧
      (tokenize source file).2.map (fun d => (d.code, d.labels.map Label.span)) =
        lexemes.filterMap Lexeme.report? ∧
      (∀ l ∈ lexemes, ∃ before text after, source = before ++ text ++ after ∧ l.CutFrom before text after) ∧
      (lexemes.Pairwise fun a b => a.span.stop.offset ≤ b.span.start.offset) ∧
      Laid file .first source.toList lexemes ∧
      ∀ before run after, source.toList = before ++ run ++ after → NumeralRun before run after →
        ∃ l ∈ lexemes, l.span = ⟨Position.first.advanceBy before, Position.first.advanceBy (before ++ run), file⟩ ∧
          l.piece.OfNumeral run := by
  obtain ⟨ls, hscan, hlaid⟩ := scan_laid source file
  refine ⟨ls, ?_, ?_, ?_, fun l hl => hlaid.exists_cutFrom hl, hlaid.pairwise, hlaid, ?_⟩
  · rw [tokenize, hscan, List.filterMap_append]
    rfl
  · intro t ht
    obtain ⟨l, hl, hlt⟩ := List.mem_filterMap.1 ht
    obtain ⟨-, text, -, -, -, hpiece, -⟩ := hlaid.exists_text hl
    cases l with
    | rejected => cases hlt
    | token t' =>
      obtain rfl := Option.some.inj hlt
      intro hkind
      rw [Lexeme.piece, hkind] at hpiece
      cases hpiece
  · rw [tokenize, map_diagnostics, hscan, List.filterMap_append]
    exact List.append_nil _
  · intro before run after hsource hrun
    exact hlaid.exists_numeral hsource hrun

/-! ## Positions -/

/-- Where the spans of the tokens and of the diagnostics' labels start and stop. -/
def scannedPositions (source : String) (file : Nat) : List Position :=
  ((tokenize source file).1.map Token.span ++
    (tokenize source file).2.flatMap fun d => d.labels.map Label.span).flatMap fun s => [s.start, s.stop]

theorem exists_lexeme_of_mem_scannedPositions {source : String} {file : Nat} {p : Position}
    (h : p ∈ scannedPositions source file) : ∃ l ∈ scan source file, p ∈ [l.span.start, l.span.stop] := by
  obtain ⟨span, hspan, hp⟩ := List.mem_flatMap.1 h
  rcases List.mem_append.1 hspan with htoken | hlabel
  · obtain ⟨t, ht, rfl⟩ := List.mem_map.1 htoken
    obtain ⟨l, hl, hlt⟩ := List.mem_filterMap.1 ht
    cases l with
    | rejected => cases hlt
    | token t' =>
      cases hlt
      exact ⟨_, hl, hp⟩
  · obtain ⟨d, hd, hlabel⟩ := List.mem_flatMap.1 hlabel
    obtain ⟨l, hl, hld⟩ := List.mem_filterMap.1 hd
    cases l with
    | token => cases hld
    | rejected reason span' =>
      cases hld
      have hlabels : (reason.diagnostic span').labels.map Label.span = [span'] := by cases reason <;> rfl
      rw [hlabels] at hlabel
      obtain rfl := List.mem_singleton.1 hlabel
      exact ⟨_, hl, hp⟩

/-- Every position that scanning reports is the position behind some start of the source. -/
theorem exists_advanceBy_of_mem_scannedPositions {source : String} {file : Nat} {p : Position}
    (h : p ∈ scannedPositions source file) :
    ∃ before after, source.toList = before ++ after ∧ p = Position.first.advanceBy before := by
  obtain ⟨l, hl, hp⟩ := exists_lexeme_of_mem_scannedPositions h
  obtain ⟨ls, hscan, hlaid⟩ := scan_laid source file
  rw [hscan] at hl
  rcases List.mem_append.1 hl with hl | hend
  · obtain ⟨before, text, after, hsource, hspan, -⟩ := hlaid.exists_text hl
    rw [hspan] at hp
    rcases List.mem_pair.1 hp with rfl | rfl
    · exact ⟨before, text ++ after, by rw [hsource, List.append_assoc], rfl⟩
    · exact ⟨before ++ text, after, hsource, rfl⟩
  · obtain rfl := List.mem_singleton.1 hend
    rcases List.mem_pair.1 hp with rfl | rfl
    all_goals exact ⟨source.toList, [], (List.append_nil _).symm, rfl⟩

/-- Lines and columns of scanned positions count what precedes them, and lead back to them through the table of line
starts and the lines of the file; the lines are numbered from one and make up the source. -/
theorem tokenize_positions (source name : String) (file : Nat) :
    (∀ p ∈ scannedPositions source file, ∃ before after : String, source = before ++ after ∧
      p.offset = before.utf8ByteSize ∧ p.line = 1 + before.toList.count '\n' ∧
      p.column = 1 + (lastLine before.toList).length ∧
      ∃ earlier line later : String, source = earlier ++ line ++ later ∧
        (SourceFile.lineStarts ⟨name, source⟩)[p.line - 1]? = some earlier.utf8ByteSize ∧
        SourceFile.line? ⟨name, source⟩ p.line = some line ∧ p.column - 1 ≤ line.length ∧
        before = earlier ++ String.ofList (line.toList.take (p.column - 1))) ∧
    (∀ k, (SourceFile.line? ⟨name, source⟩ k).isSome ↔ 1 ≤ k ∧ k ≤ 1 + source.toList.count '\n') ∧
    "\n".intercalate ((List.range' 1 (1 + source.toList.count '\n')).filterMap (SourceFile.line? ⟨name, source⟩)) =
      source := by
  refine ⟨fun p hp => ?_, SourceFile.isSome_line?_iff ⟨name, source⟩, SourceFile.intercalate_line? ⟨name, source⟩⟩
  obtain ⟨before, after, hsource, rfl⟩ := exists_advanceBy_of_mem_scannedPositions hp
  obtain ⟨earlier, line, later, hlines, hstart, hline, hcolumn, hbefore⟩ :=
    SourceFile.line?_advanceBy ⟨name, source⟩ hsource
  refine ⟨String.ofList before, String.ofList after, ?_, ?_, ?_, ?_, String.ofList earlier, String.ofList line,
    String.ofList later, ?_, hstart, hline, ?_, ?_⟩
  · rw [← String.ofList_append, ← hsource, String.ofList_toList]
  · rw [Position.advanceBy_first]; rfl
  · rw [Position.advanceBy_first, String.toList_ofList]
  · rw [Position.advanceBy_first, String.toList_ofList]
  · rw [← String.ofList_append, ← String.ofList_append, ← hlines, String.ofList_toList]
  · rwa [String.length_ofList]
  · rw [String.toList_ofList, ← String.ofList_append, ← hbefore]

end Monofloat
