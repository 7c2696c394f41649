import Monofloat.Compilation
import Monofloat.Diagnostic.Render
import Monofloat.Proofs.Excerpts
import Monofloat.Proofs.Items
import Monofloat.Proofs.Termination

/-!
# Underlines

Every label of a diagnostic points at a part of the source (`Span.Cuts`): a lexeme, a token or the end of the file, or
the tokens of a declaration. Under the line that the part starts on, the markers begin at its first column. If it ends
on that line there is one for each of its characters. If it goes on, the rest of the line is counted in bytes while the
columns before it are counted in characters, so there are too many markers by the bytes that the line has more than
characters, and they run past its end.
-/

namespace Monofloat

open Grammar Cursor

/-! ## Parts of a source -/

/-- The first line of a text, without its newline. -/
def firstLine (cs : List Char) : List Char := cs.takeWhile (· ≠ '\n')

/-- The bytes that a text has more than characters. -/
def surplus (cs : List Char) : Nat := byteSize cs - cs.length

/-- The span of `covered`, a part of the text of a file, that does not start with a newline. -/
structure Span.Cuts (s : Span) (file : Nat) (text before covered after : List Char) : Prop where
  text_eq : text = before ++ covered ++ after
  span_eq : s = ⟨Position.first.advanceBy before, Position.first.advanceBy (before ++ covered), file⟩
  starts : covered.head? ≠ some '\n'

theorem byteSize_eq (cs : List Char) : byteSize cs = cs.length + surplus cs := by
  have hle : cs.length ≤ byteSize cs := by
    induction cs with
    | nil => exact Nat.le_refl 0
    | cons c cs ih =>
      have hc := c.utf8Size_pos
      rw [byteSize_cons, List.length_cons]
      omega
  rw [surplus]
  omega

theorem surplus_eq_zero_iff (cs : List Char) : surplus cs = 0 ↔ ∀ c ∈ cs, c.utf8Size = 1 := by
  induction cs with
  | nil => simp [surplus]
  | cons c cs ih =>
    have hc := c.utf8Size_pos
    have hcs := byteSize_eq cs
    rw [List.forall_mem_cons, ← ih, surplus, byteSize_cons, List.length_cons]
    omega

theorem firstLine_append (cs ds : List Char) :
    firstLine (cs ++ ds) = if '\n' ∈ cs then firstLine cs else cs ++ firstLine ds := by
  induction cs with
  | nil => rfl
  | cons c cs ih =>
    by_cases hc : c = '\n'
    · simp [firstLine, hc]
    · have hne : '\n' ≠ c := fun heq => hc heq.symm
      have hcons (es : List Char) : firstLine (c :: es) = c :: firstLine es := List.takeWhile_cons_of_pos (by simpa)
      rw [List.cons_append, hcons, hcons, ih]
      by_cases hcs : '\n' ∈ cs <;> simp [hcs, hne]

theorem firstLine_of_notMem {cs : List Char} (h : '\n' ∉ cs) : firstLine cs = cs := by
  have happend := firstLine_append cs []
  rwa [if_neg h, List.append_nil, show firstLine [] = [] from rfl, List.append_nil] at happend

theorem firstLine_ne_nil {cs : List Char} (hne : cs ≠ []) (hstarts : cs.head? ≠ some '\n') : firstLine cs ≠ [] := by
  cases cs with
  | nil => exact absurd rfl hne
  | cons c cs =>
    have hc : c ≠ '\n' := fun heq => hstarts (congrArg some heq)
    simp [firstLine, hc]

/-! ## Markers -/

namespace Span.Cuts

variable {s : Span} {file : Nat} {text before covered after : List Char}

theorem start_eq (h : s.Cuts file text before covered after) :
    s.start = ⟨1 + before.count '\n', 1 + (lastLine before).length, byteSize before⟩ := by
  rw [h.span_eq]
  exact Position.advanceBy_first before

theorem stop_eq (h : s.Cuts file text before covered after) : s.stop =
    ⟨1 + (before ++ covered).count '\n', 1 + (lastLine (before ++ covered)).length, byteSize (before ++ covered)⟩ := by
  rw [h.span_eq]
  exact Position.advanceBy_first (before ++ covered)

theorem stop_line (h : s.Cuts file text before covered after) :
    s.stop.line = s.start.line + covered.count '\n' := by
  rw [h.span_eq]
  exact Position.line_advanceBy_append before covered

theorem stop_column (h : s.Cuts file text before covered after) (hline : '\n' ∉ covered) :
    s.stop.column = s.start.column + covered.length := by
  simp only [h.start_eq, h.stop_eq, lastLine_append_of_notMem before hline, List.length_append]
  omega

/-- The line that the part starts on. -/
theorem line? (h : s.Cuts file text before covered after) {f : SourceFile} (hf : f.text.toList = text) :
    f.line? s.start.line = some (String.ofList (lastLine before ++ firstLine (covered ++ after))) := by
  have hline : s.start.line = before.count '\n' + 1 := by rw [h.start_eq, Nat.add_comm]
  rw [hline]
  exact SourceFile.line?_of_append (by rw [hf, h.text_eq, List.append_assoc])

end Span.Cuts

/-- The number of markers under a part of a text that starts on `line`: its characters on this line, and, if it goes on
behind the line, as many more as the line has more bytes than characters. -/
def markers (line covered : List Char) : Nat :=
  max 1 ((firstLine covered).length + if '\n' ∈ covered then surplus line else 0)

namespace Span.Cuts

variable {l : Label} {file : Nat} {text before covered after line : List Char}

theorem markerCount_eq (h : l.span.Cuts file text before covered after)
    (hline : line = lastLine before ++ firstLine (covered ++ after)) :
    l.markerCount (String.ofList line) = markers line covered := by
  have hcolumn : l.span.start.column = 1 + (lastLine before).length := by rw [h.start_eq]
  have hstop := h.stop_line
  rw [firstLine_append] at hline
  rw [Label.markerCount, markers]
  by_cases hnewline : '\n' ∈ covered
  · have hcount : 0 < covered.count '\n' := List.count_pos_iff.2 hnewline
    have hlength : line.length = (lastLine before).length + (firstLine covered).length := by
      rw [hline, if_pos hnewline, List.length_append]
    have hsize : (String.ofList line).utf8ByteSize = line.length + surplus line := byteSize_eq line
    rw [if_neg (by omega), if_pos hnewline, hsize]
    omega
  · rw [List.count_eq_zero.2 hnewline, Nat.add_zero] at hstop
    rw [if_pos hstop, if_neg hnewline, h.stop_column hnewline, firstLine_of_notMem hnewline]
    omega

/-- There is one marker for each character on the first line, unless the part goes on behind a line that has characters
of several bytes. -/
theorem markers_eq_iff (h : l.span.Cuts file text before covered after) (line : List Char) :
    markers line covered = max 1 (firstLine covered).length ↔ '\n' ∉ covered ∨ ∀ c ∈ line, c.utf8Size = 1 := by
  rw [← surplus_eq_zero_iff, markers]
  by_cases hnewline : '\n' ∈ covered
  · have hpos : 0 < (firstLine covered).length :=
      List.length_pos_iff.2 (firstLine_ne_nil (List.ne_nil_of_mem hnewline) h.starts)
    rw [if_pos hnewline, or_iff_right (not_not_intro hnewline)]
    omega
  · simp [hnewline]

/-- The markers end on the line in the same cases. -/
theorem inside_iff (h : l.span.Cuts file text before covered after)
    (hline : line = lastLine before ++ firstLine (covered ++ after)) (hne : covered ≠ []) :
    l.span.start.column - 1 + markers line covered ≤ line.length ↔
      '\n' ∉ covered ∨ ∀ c ∈ line, c.utf8Size = 1 := by
  have hpos : 0 < (firstLine covered).length := List.length_pos_iff.2 (firstLine_ne_nil hne h.starts)
  have hcolumn : l.span.start.column = 1 + (lastLine before).length := by rw [h.start_eq]
  rw [firstLine_append] at hline
  rw [← surplus_eq_zero_iff, markers, hcolumn]
  by_cases hnewline : '\n' ∈ covered
  · have hlength : line.length = (lastLine before).length + (firstLine covered).length := by
      rw [hline, if_pos hnewline, List.length_append]
    rw [if_pos hnewline, or_iff_right (not_not_intro hnewline)]
    omega
  · have hlength : line.length = (lastLine before).length + (covered.length + (firstLine after).length) := by
      rw [hline, if_neg hnewline, List.length_append, List.length_append]
    rw [firstLine_of_notMem hnewline] at hpos ⊢
    rw [if_neg hnewline]
    refine iff_of_true ?_ (.inl hnewline)
    omega

end Span.Cuts

/-- `n` blanks. -/
def blanks (n : Nat) : String := String.ofList (List.replicate n ' ')

/-- A label with the line that it starts on and so many markers below it. -/
def Label.underlined (l : Label) (name : String) (line : List Char) (count : Nat) : String :=
  " --> " ++ name ++ ":" ++ toString l.span.start.line ++ ":" ++ toString l.span.start.column ++ "\n" ++
    blanks (toString l.span.start.line).length ++ " |\n" ++
    toString l.span.start.line ++ " | " ++ String.ofList line ++ "\n" ++
    blanks (toString l.span.start.line).length ++ " | " ++ blanks (l.span.start.column - 1) ++
    String.ofList (List.replicate count (if l.primary then '^' else '-')) ++ " " ++ l.message ++ "\n"

theorem Label.render_eq {l : Label} {sources : Sources} {f : SourceFile} (hf : sources[l.span.file]? = some f)
    {line : List Char} (hline : f.line? l.span.start.line = some (String.ofList line))
    (hcolumn : 0 < l.span.start.column) :
    l.render .uncolored sources = l.underlined f.name line (l.markerCount (String.ofList line)) := by
  have hmax : max l.span.start.column 1 = l.span.start.column := Nat.max_eq_left hcolumn
  have harrow : " " ++ ("-->" ++ " ") = " --> " := by decide
  have hgutter : " " ++ ("|" ++ "\n") = " |\n" := by decide
  have hbar : " " ++ ("|" ++ " ") = " | " := by decide
  have hnumber : " " ++ "|" = " |" := by decide
  simp only [render, hf, hline]
  unfold underlined excerpt blanks
  rw [hmax]
  simp only [Palette.uncolored, ← harrow, ← hgutter, ← hbar, ← hnumber, ite_self, String.append_empty,
    String.append_assoc]

/-! ## Where labels point -/

/-- The span is that of a part of the text of a file. -/
def Span.IsCut (s : Span) (file : Nat) (text : List Char) : Prop :=
  ∃ before covered after, s.Cuts file text before covered after

theorem Piece.Spelled.head?_ne {piece : Piece} {text : List Char} (h : piece.Spelled text) :
    text.head? ≠ some '\n' := by
  intro hhead
  have hmem : '\n' ∈ text := List.mem_of_mem_head? hhead
  cases h with
  | keyword k => cases k <;> cases hhead
  | @identifier name hname =>
    obtain ⟨c, cs, htext, hc, -⟩ := hname
    rw [htext] at hhead
    cases hhead
    cases hc
  | number hrun => cases hrun.2 _ hmem
  | symbol x => cases x <;> cases hhead
  | invalidNumber hrun => cases hrun.2 _ hmem
  | @unexpectedCharacter c hnone =>
    cases hhead
    exact hnone .blanks [] ⟨by simp, by simp [isBlank]⟩

section

variable {file : Nat} {text : List Char} {ls : List Lexeme}

theorem Laid.isCut (h : Laid file .first text ls) {l : Lexeme} (hl : l ∈ ls) : l.span.IsCut file text := by
  obtain ⟨before, covered, after, htext, hspan, hpiece, -⟩ := h.exists_text hl
  exact ⟨before, covered, after, htext, hspan, hpiece.head?_ne⟩

theorem Laid.isCut_token (h : Laid file .first text ls) {t : Token} (ht : t ∈ ls.filterMap Lexeme.token?) :
    t.span.IsCut file text := by
  obtain ⟨l, hl, hlt⟩ := List.mem_filterMap.1 ht
  rw [← Lexeme.span_of_token? hlt]
  exact h.isCut hl

theorem isCut_end (file : Nat) (text : List Char) :
    (Span.point (Position.first.advanceBy text) file).IsCut file text :=
  ⟨text, [], [], by simp, by simp [Span.point], by simp⟩

/-- Two parts with the same bytes in front of them start at the same place. -/
theorem append_inj_of_byteSize {before before' rest rest' : List Char} (h : before ++ rest = before' ++ rest')
    (hsize : byteSize before = byteSize before') : rest = rest' := by
  have hdrop := dropBytes?_append before rest
  rw [h, hsize, dropBytes?_append] at hdrop
  exact (Option.some.inj hdrop).symm

theorem Ordered.cover_eq {ts : List Token} (h : Ordered ts) (hne : ts ≠ []) :
    cover ts = ⟨(ts.head hne).span.start, (ts.getLast hne).span.stop, (ts.head hne).span.file⟩ := by
  have hstart := h.head_le (List.getLast_mem hne) hne
  have hlast := h.nonempty _ (List.getLast_mem hne)
  cases ts with
  | nil => exact absurd rfl hne
  | cons first ts =>
    rw [List.head_cons] at hstart ⊢
    have hstop : (if first.span.stop.offset < ((first :: ts).getLast hne).span.stop.offset
        then ((first :: ts).getLast hne).span.stop else first.span.stop) = ((first :: ts).getLast hne).span.stop := by
      cases ts with
      | nil => exact ite_self _
      | cons next ts =>
        have hmem : (first :: next :: ts).getLast hne ∈ next :: ts := by
          rw [List.getLast_cons (List.cons_ne_nil next ts)]
          exact List.getLast_mem _
        have hapart := (List.pairwise_cons.1 h.apart).1 _ hmem
        exact if_pos (by omega)
    rw [cover, Span.cover, if_neg (by omega), hstop]

/-- The tokens of a declaration. -/
theorem Laid.isCut_cover (h : Laid file .first text ls) {front us back : List Token}
    (htokens : ls.filterMap Lexeme.token? = front ++ us ++ back) (hne : us ≠ []) : (cover us).IsCut file text := by
  have hordered : Ordered us := (htokens ▸ h.ordered).left.right
  have hhead : us.head hne ∈ ls.filterMap Lexeme.token? := by simp [htokens]
  obtain ⟨before', covered', after', hcut⟩ := h.isCut_token hhead
  obtain ⟨before, covered, after, -, htext, hstart, hstop, -⟩ := h.exists_between htokens hne
  have hspan : cover us = ⟨Position.first.advanceBy before, Position.first.advanceBy (before ++ covered), file⟩ := by
    rw [hordered.cover_eq hne, hstart, hstop, hcut.span_eq]
  have hnonempty := hordered.nonempty _ (List.head_mem hne)
  have hle := hordered.le_getLast (List.head_mem hne) hne
  have hstart' := hcut.start_eq
  have hstop' := hcut.stop_eq
  rw [Position.advanceBy_first] at hstart hstop
  -- Both parts start where the first token starts, and neither is empty.
  have happend : before ++ (covered ++ after) = before' ++ (covered' ++ after') := by
    rw [← List.append_assoc, ← List.append_assoc, ← htext, hcut.text_eq]
  have hrest : covered ++ after = covered' ++ after' :=
    append_inj_of_byteSize happend (congrArg Position.offset (hstart.symm.trans hstart'))
  have hcovered : covered ≠ [] := by
    rintro rfl
    have hfirst : (us.head hne).span.start.offset = byteSize before := by rw [hstart]
    have hlast : (us.getLast hne).span.stop.offset = byteSize before := by rw [hstop, List.append_nil]
    omega
  have hcovered' : covered' ≠ [] := by
    rintro rfl
    rw [hstart', hstop', List.append_nil] at hnonempty
    exact absurd hnonempty (Nat.lt_irrefl _)
  refine ⟨before, covered, after, htext, hspan, ?_⟩
  rw [← List.head?_append_of_ne_nil _ hcovered, hrest, List.head?_append_of_ne_nil _ hcovered']
  exact hcut.starts

end

/-! ## Diagnostics of the parser -/

/-- The second cursor is the first one some tokens on. -/
structure Cursor.Ahead (c c' : Cursor) : Prop where
  rest : c'.rest <:+ c.rest
  stop : c'.stop = c.stop

namespace Cursor.Ahead

variable {c c' c'' : Cursor}

theorem trans (h : c.Ahead c') (h' : c'.Ahead c'') : c.Ahead c'' := ⟨h'.rest.trans h.rest, h'.stop.trans h.stop⟩

theorem of_passes {ts : List Token} (h : Passes c ts c') : c.Ahead c' := ⟨⟨ts, h.rest_eq.symm⟩, h.stop_eq⟩

theorem recover (c : Cursor) : c.Ahead c.recover := ⟨afterSemicolon_suffix c.rest, rfl⟩

theorem noEnd (h : c.Ahead c') (hc : NoEnd c.rest) : NoEnd c'.rest := fun t ht => hc t (h.rest.subset ht)

end Cursor.Ahead

/-- A diagnostic about the next token somewhere behind the cursor. -/
def Diagnostic.AheadOf (d : Diagnostic) (c : Cursor) : Prop :=
  ∃ c' code message, c.Ahead c' ∧ d = c'.unexpected code message

theorem item_error {c c' : Cursor} {d : Diagnostic} (hc : NoEnd c.rest) (h : Reader.item c = .error d c') :
    c.Ahead c' ∧ ∃ code message, d = c'.unexpected code message := by
  have hat : c.At (c.rest ++ [⟨.endOfFile, c.stop⟩]) 0 := ⟨hc, [], [], rfl, rfl⟩
  have hend := Routine.mirrors_item [] hat trivial (Nat.lt_succ_self _)
  rw [h] at hend
  generalize (Routine.item _).outcome _ = out at hend
  cases hend with
  | error hp code message => exact ⟨.of_passes hp, code, message, rfl⟩

theorem Round.ahead {c c' : Cursor} {p : Parsed} (h : Round c p c') (hc : NoEnd c.rest) :
    c.Ahead c' ∧ ∀ d ∈ p.diagnostics, d.AheadOf c := by
  have hitem {t : Tree} {c₁ : Cursor} (h : Reader.item c = .ok t c₁) : c.Ahead c₁ := by
    obtain ⟨ts, hp, -⟩ := Reader.item_reads h
    exact .of_passes hp
  cases h with
  | @failed d c₁ h =>
    obtain ⟨hahead, code, message, rfl⟩ := item_error hc h
    refine ⟨hahead.trans (.recover c₁), fun d hd => ?_⟩
    rw [List.mem_singleton.1 hd]
    exact ⟨c₁, code, message, hahead, rfl⟩
  | last h => exact ⟨hitem h, by simp⟩
  | @ended t c₁ h hsemi =>
    obtain ⟨semi, rest, hrest, -⟩ := exists_cons hsemi (by simp)
    exact ⟨(hitem h).trans (.of_passes (.single hrest)), by simp⟩
  | @trailed t c₁ h =>
    refine ⟨(hitem h).trans (.recover c₁), fun d hd => ?_⟩
    rw [List.mem_singleton.1 hd]
    exact ⟨c₁, _, _, hitem h, rfl⟩

theorem aheadOf_of_mem_diagnostics {n : Nat} {c : Cursor} (hc : NoEnd c.rest) {d : Diagnostic}
    (hd : d ∈ (parseFrom n c).diagnostics) : d.AheadOf c := by
  induction n generalizing c with
  | zero => cases hd
  | succ n ih =>
    have hbehind {c' : Cursor} (hahead : c.Ahead c') (hd : d ∈ (parseFrom n c').diagnostics) : d.AheadOf c := by
      obtain ⟨c'', code, message, hahead', heq⟩ := ih (hahead.noEnd hc) hd
      exact ⟨c'', code, message, hahead.trans hahead', heq⟩
    by_cases hend : c.kind = .endOfFile
    · rw [parseFrom_of_end hend] at hd
      cases hd
    by_cases hsemi : c.kind = .symbol .semicolon
    · obtain ⟨t, rest, hrest, -⟩ := exists_cons hsemi (by simp)
      rw [parseFrom_of_semicolon hsemi] at hd
      exact hbehind (.of_passes (.single hrest)) hd
    · obtain ⟨p, c', hround⟩ := exists_round c
      rw [hround.parseFrom_eq hend hsemi] at hd
      obtain ⟨hahead, hp⟩ := hround.ahead hc
      exact (List.mem_append.1 hd).elim (hp d) (hbehind hahead)

/-! ## All diagnostics of a source -/

/-- Every label points at a part of the text. -/
def Diagnostic.Points (d : Diagnostic) (file : Nat) (text : List Char) : Prop :=
  ∀ l ∈ d.labels, l.span.IsCut file text

section

variable {source : String} {file : Nat} {d : Diagnostic}

theorem points_errorAt {text : List Char} {span : Span} (h : span.IsCut file text) (code : Code)
    (message label : String) : (Diagnostic.errorAt code message span label).Points file text := by
  intro l hl
  rw [List.mem_singleton.1 hl]
  exact h

theorem points_lexical (hd : d ∈ (tokenize source file).2) : d.Points file source.toList := by
  obtain ⟨ls, hscan, hlaid⟩ := scan_laid source file
  obtain ⟨lexeme, hlexeme, hreport⟩ := List.mem_filterMap.1 hd
  cases lexeme with
  | token t => cases hreport
  | rejected reason span =>
    cases hreport
    have hmem : Lexeme.rejected reason span ∈ ls := by simpa [hscan] using hlexeme
    have hcut : span.IsCut file source.toList := hlaid.isCut hmem
    cases reason with
    | unexpectedCharacter | invalidNumber => exact points_errorAt hcut _ _ _

theorem points_parsed (hd : d ∈ (parse (tokenize source file).1).diagnostics) : d.Points file source.toList := by
  obtain ⟨ls, hscan, hlaid⟩ := scan_laid source file
  have htokens : (tokenize source file).1 = ls.filterMap Lexeme.token? ++
      [⟨.endOfFile, .point (Position.first.advanceBy source.toList) file⟩] := by
    rw [tokenize, hscan, List.filterMap_append]
    rfl
  rw [htokens, parse, ofTokens_of_end hlaid.noEnd] at hd
  obtain ⟨c, code, message, hahead, rfl⟩ := aheadOf_of_mem_diagnostics hlaid.noEnd hd
  refine points_errorAt ?_ code message _
  cases hrest : c.rest with
  | nil =>
    have hspan : c.span = c.stop := by rw [span, hrest]
    rw [hspan, hahead.stop]
    exact isCut_end file source.toList
  | cons t rest =>
    rw [span_of_cons hrest]
    exact hlaid.isCut_token (hahead.rest.subset (hrest ▸ List.mem_cons_self))

theorem points_lowered {m : Ir.Module} (hd : d ∈ (generate (parse (tokenize source file).1).program m).diagnostics) :
    d.Points file source.toList := by
  obtain ⟨ls, hlaid, hread⟩ := exists_readFrom source file
  have hitems : ∀ t ∈ (parse (tokenize source file).1).items, t.isItem = true := fun t => isItem_of_mem_items
  have hstart : (Lowering.start m).builder.position = none := rfl
  obtain ⟨v, s, -, -, hlower, -, -, -, -, hreports, -⟩ :=
    lowerItems_accepted hitems hstart hstart rfl rfl .void .void
  have hgenerate : generate (parse (tokenize source file).1).program m = ⟨s.module, s.diagnostics, s.echo⟩ :=
    generate_of_ok hlower
  rw [hgenerate, hreports] at hd
  obtain ⟨⟨t, e?⟩, hmem, hreport⟩ := List.mem_filterMap.1 hd
  obtain ⟨e, -, rfl⟩ := Option.map_eq_some_iff.1 hreport
  have ht : t ∈ (parse (tokenize source file).1).items := by
    rw [← map_fst_verdicts (.start m) (parse (tokenize source file).1).items]
    exact List.mem_map_of_mem hmem
  obtain ⟨before, ts, rest, htokens, htaken⟩ := hread.exists_taken ht
  obtain ⟨front, us, rfl, hne, hspan⟩ := htaken.item.span?_eq
  rintro l hl
  simp only [LowerError.diagnostic, hspan, Option.toList_some, List.map_cons, List.map_nil, List.mem_singleton] at hl
  rw [hl]
  rw [← List.append_assoc] at htokens
  exact hlaid.isCut_cover htokens hne

end

/-- What is reported while a source is read, and while what was read is lowered into a module. -/
def reported (source : String) (file : Nat) (m : Ir.Module) : List Diagnostic :=
  (FrontEnd.ofSource source file).diagnostics ++ (generate (FrontEnd.ofSource source file).program m).diagnostics

theorem points_of_mem_reported {source : String} {file : Nat} {m : Ir.Module} {d : Diagnostic}
    (hd : d ∈ reported source file m) : d.Points file source.toList := by
  rcases List.mem_append.1 hd with hfront | hlowered
  · exact (List.mem_append.1 hfront).elim points_lexical points_parsed
  · exact points_lowered hlowered

theorem render_uncolored (d : Diagnostic) (sources : Sources) : d.render sources false =
    d.headline ++ "\n" ++ String.join (d.labels.map (·.render .uncolored sources)) ++
      String.join (d.notes.map fun note => "  = note: " ++ note ++ "\n") ++
      String.join (d.help.map fun help => "  = help: " ++ help ++ "\n") := by
  have hnote : Diagnostic.remark .uncolored "note" = fun note => "  = note: " ++ note ++ "\n" := by
    funext note
    rw [Diagnostic.remark, show "  = note: " = "  = " ++ "note" ++ ": " by decide]
    simp only [Palette.uncolored, String.append_empty]
  have hhelp : Diagnostic.remark .uncolored "help" = fun help => "  = help: " ++ help ++ "\n" := by
    funext help
    rw [Diagnostic.remark, show "  = help: " = "  = " ++ "help" ++ ": " by decide]
    simp only [Palette.uncolored, String.append_empty]
  have hpalette : Palette.choose false d.severity = .uncolored := rfl
  simp only [Diagnostic.render, hpalette, hnote, hhelp, Diagnostic.headline]
  cases d.code <;> simp only [Palette.uncolored, String.append_empty, String.empty_append]

/-- Where underlines lie. A diagnostic of a source, rendered without colours, shows its labels below its headline. Each
label is a part of the source and shows the line that the part starts on. Below the line, the markers start at the
column of the part. There is one for each character of the part on this line, and at least one, exactly if the part ends
on the line or the line has only characters of one byte; otherwise there are more. In the same cases, the markers below
a part that is not empty do not run past the end of the line. -/
theorem underlines_mark_first_line (source name : String) (file : Nat) (sources : Sources)
    (hfile : sources[file]? = some ⟨name, source⟩) (m : Ir.Module) (d : Diagnostic) (hd : d ∈ reported source file m) :
    d.render sources false =
      d.headline ++ "\n" ++ String.join (d.labels.map (·.render .uncolored sources)) ++
        String.join (d.notes.map fun note => "  = note: " ++ note ++ "\n") ++
        String.join (d.help.map fun help => "  = help: " ++ help ++ "\n") ∧
    ∀ l ∈ d.labels, ∃ before covered after line,
      source.toList = before ++ covered ++ after ∧
      l.span = ⟨Position.first.advanceBy before, Position.first.advanceBy (before ++ covered), file⟩ ∧
      line = lastLine before ++ firstLine (covered ++ after) ∧
      l.render .uncolored sources = l.underlined name line (markers line covered) ∧
      (markers line covered = max 1 (firstLine covered).length ↔ '\n' ∉ covered ∨ ∀ c ∈ line, c.utf8Size = 1) ∧
      (covered ≠ [] → (l.span.start.column - 1 + markers line covered ≤ line.length ↔
        '\n' ∉ covered ∨ ∀ c ∈ line, c.utf8Size = 1)) := by
  refine ⟨render_uncolored d sources, fun l hl => ?_⟩
  obtain ⟨before, covered, after, hcut⟩ := points_of_mem_reported hd l hl
  have hline : (SourceFile.mk name source).line? l.span.start.line = _ := hcut.line? rfl
  have hlfile : sources[l.span.file]? = some ⟨name, source⟩ := by rw [hcut.span_eq, hfile]
  have hcolumn : 0 < l.span.start.column := by rw [hcut.start_eq]; exact Nat.lt_add_right _ Nat.one_pos
  refine ⟨before, covered, after, _, hcut.text_eq, hcut.span_eq, rfl, ?_, hcut.markers_eq_iff _, hcut.inside_iff rfl⟩
  rw [Label.render_eq hlfile hline hcolumn, hcut.markerCount_eq rfl]

/-- A letter of two bytes that is part of no token, and a definition that goes on over several lines. -/
theorem underlines_mark_first_line_several :
    let source := "λ\ndef f()\n x"
    (∃ d ∈ reported source 0 { name := "m" }, ∃ l ∈ d.labels, ∃ before covered after line,
      source.toList = before ++ covered ++ after ∧ '\n' ∉ covered ∧
      l.render .uncolored [⟨"prog.kl", source⟩] = l.underlined "prog.kl" line (markers line covered)) ∧
    ∃ d ∈ reported source 0 { name := "m" }, ∃ l ∈ d.labels, ∃ before covered after line,
      source.toList = before ++ covered ++ after ∧ '\n' ∈ covered ∧
      l.render .uncolored [⟨"prog.kl", source⟩] = l.underlined "prog.kl" line (markers line covered) := by
  intro source
  have hmarks := underlines_mark_first_line source "prog.kl" 0 [⟨"prog.kl", source⟩] rfl { name := "m" }
  have hletter : ∃ d ∈ reported source 0 { name := "m" }, ∃ l ∈ d.labels, l.span.stop.line = l.span.start.line := by
    decide +kernel
  have hitem : ∃ d ∈ reported source 0 { name := "m" }, ∃ l ∈ d.labels, l.span.start.line < l.span.stop.line := by
    decide +kernel
  obtain ⟨d, hd, l, hl, hline⟩ := hletter
  obtain ⟨d', hd', l', hl', hline'⟩ := hitem
  obtain ⟨before, covered, after, line, htext, hspan, -, hrender, -⟩ := (hmarks d hd).2 l hl
  obtain ⟨before', covered', after', line', htext', hspan', -, hrender', -⟩ := (hmarks d' hd').2 l' hl'
  refine ⟨⟨d, hd, l, hl, before, covered, after, line, htext, ?_, hrender⟩,
    ⟨d', hd', l', hl', before', covered', after', line', htext', ?_, hrender'⟩⟩
  · simp only [hspan, Position.line_advanceBy_append] at hline
    exact List.count_eq_zero.1 (by omega)
  · simp only [hspan', Position.line_advanceBy_append] at hline'
    exact List.count_pos_iff.1 (by omega)

/-- A definition that goes on behind a comment with a letter of two bytes: its first line has eleven characters, and
twelve markers below it. -/
theorem underline_runs_past_line : ∃ d ∈ reported "def f() # é\n x" 0 { name := "m" }, ∃ l ∈ d.labels,
    l.span = ⟨.first, Position.first.advanceBy "def f() # é\n x".toList, 0⟩ ∧
      (firstLine "def f() # é\n x".toList).length = 11 ∧
      l.render .uncolored [⟨"prog.kl", "def f() # é\n x"⟩] =
        " --> prog.kl:1:1\n  |\n1 | def f() # é\n  | ^^^^^^^^^^^^ while lowering this item\n" := by
  decide +kernel

end Monofloat
