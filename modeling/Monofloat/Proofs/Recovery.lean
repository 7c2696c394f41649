import Monofloat.Proofs.Truncation

/-!
# Recovery

After an error the parser goes on behind the next semicolon. `Round c p c'` is one round of it, from a cursor at a
declaration: `p` is what it found and `c'` where it goes on. A round that starts in front of tokens without semicolons
and without opening braces ends behind the semicolon that follows them, whatever it finds, and finds the same as if
they were all the tokens there are (`round_chunk`). So one bad declaration neither hides nor alters another.
-/

namespace Monofloat

open Grammar Cursor

namespace Parsed

def append (p q : Parsed) : Parsed := ⟨p.items ++ q.items, p.diagnostics ++ q.diagnostics⟩

theorem append_empty (p : Parsed) : p.append .empty = p := by simp [append, empty]

end Parsed

/-- The part of a diagnostic that does not say where it is. -/
def Diagnostic.reason (d : Diagnostic) : Option Code × String := (d.code, d.message)

/-! ## Rounds -/

/-- One declaration: what the parser makes of it, and where it goes on. -/
inductive Round (c : Cursor) : Parsed → Cursor → Prop
  | failed {d : Diagnostic} {c' : Cursor} (h : Reader.item c = .error d c') : Round c ⟨[], [d]⟩ c'.recover
  | last {t : Tree} {c' : Cursor} (h : Reader.item c = .ok t c') (hend : c'.kind = .endOfFile) : Round c ⟨[t], []⟩ c'
  | ended {t : Tree} {c' : Cursor} (h : Reader.item c = .ok t c') (hsemi : c'.kind = .symbol .semicolon) :
    Round c ⟨[t], []⟩ c'.advance
  | trailed {t : Tree} {c' : Cursor} (h : Reader.item c = .ok t c') (hend : c'.kind ≠ .endOfFile)
    (hsemi : c'.kind ≠ .symbol .semicolon) :
    Round c ⟨[t], [c'.unexpected .unexpectedToken "expected `;` after declaration"]⟩ c'.recover

theorem parseFrom_of_end {c : Cursor} (hend : c.kind = .endOfFile) (n : Nat) : parseFrom n c = .empty := by
  cases n with
  | zero => rfl
  | succ n => rw [parseFrom, if_pos hend]

theorem parseFrom_of_semicolon {c : Cursor} (hsemi : c.kind = .symbol .semicolon) (n : Nat) :
    parseFrom (n + 1) c = parseFrom n c.advance := by
  rw [parseFrom, if_neg (by simp [hsemi]), if_pos hsemi]

namespace Round

variable {c c' : Cursor} {p : Parsed}

theorem parseFrom_eq (h : Round c p c') (hend : c.kind ≠ .endOfFile) (hsemi : c.kind ≠ .symbol .semicolon) (n : Nat) :
    parseFrom (n + 1) c = p.append (parseFrom n c') := by
  rw [parseFrom, if_neg hend, if_neg hsemi]
  cases h with
  | failed h =>
    simp only [h]
    rfl
  | last h hend =>
    simp only [h, if_pos hend, parseFrom_of_end hend, Parsed.append_empty]
    rfl
  | @ended t c' h hsemi =>
    have hexpect : Reader.expect (.symbol .semicolon) "expected `;` after declaration" c' = .ok c'.span c'.advance :=
      congrFun (if_pos hsemi) c'
    simp only [h, if_neg (by simp [hsemi] : c'.kind ≠ .endOfFile), hexpect]
    rfl
  | @trailed t c' h hend hsemi =>
    have hexpect : Reader.expect (.symbol .semicolon) "expected `;` after declaration" c' =
        .error (c'.unexpected .unexpectedToken "expected `;` after declaration") c' := congrFun (if_neg hsemi) c'
    simp only [h, if_neg hend, hexpect]
    rfl

theorem length_diagnostics_le (h : Round c p c') : p.diagnostics.length ≤ 1 := by
  cases h <;> simp

theorem exists_item (h : Round c p c') (hnone : p.diagnostics = []) : ∃ t, p.items = [t] := by
  cases h with
  | failed | trailed => cases hnone
  | last | ended => exact ⟨_, rfl⟩

end Round

/-! ## Chunks -/

/-- Tokens without a semicolon, an opening brace or an end of the file. -/
def Chunk (ts : List Token) : Prop :=
  ∀ t ∈ ts, t.kind ≠ .symbol .semicolon ∧ t.kind ≠ .symbol .leftBrace ∧ t.kind ≠ .endOfFile

/-- The tokens of the chunks, with a semicolon between one and the next. -/
inductive Chunked : List (List Token) → List Token → Prop
  | none : Chunked [] []
  | one (chunk : List Token) : Chunked [chunk] chunk
  | more {chunk next tokens : List Token} {chunks : List (List Token)} {semi : Token}
    (hsemi : semi.kind = .symbol .semicolon) (h : Chunked (next :: chunks) tokens) :
    Chunked (chunk :: next :: chunks) (chunk ++ semi :: tokens)

/-- Nothing follows, or a semicolon. -/
def Breaks (ts : List Token) : Prop := ts = [] ∨ headKind ts = .symbol .semicolon

section

variable {u v : List Token} {c c' : Cursor}

theorem Chunk.afterSemicolon_append (hu : Chunk u) : afterSemicolon (u ++ v) = afterSemicolon v := by
  induction u with
  | nil => rfl
  | cons t u ih =>
    obtain ⟨ht, hu⟩ := List.forall_mem_cons.1 hu
    rw [List.cons_append, afterSemicolon, if_neg ht.1, ih hu]

theorem Chunk.afterSemicolon_eq (hu : Chunk u) : afterSemicolon u = [] := by
  rw [← List.append_nil u, hu.afterSemicolon_append]
  rfl

theorem Breaks.afterSemicolon_eq (hv : Breaks v) : afterSemicolon v = v.tail := by
  obtain rfl | hsemi := hv
  · rfl
  · cases v with
    | nil => rfl
    | cons t v => exact if_pos hsemi

/-- What a reader takes from a chunk does not reach the semicolon behind it. -/
theorem Chunk.suffix_of_guarded (hu : Chunk u) (hv : Breaks v) {ts rest : List Token} (hts : Guarded ts)
    (h : u ++ v = ts ++ rest) : v <:+ rest := by
  induction u generalizing ts with
  | nil =>
    cases ts with
    | nil => exact ⟨[], h⟩
    | cons t ts =>
      have hsemi : t.kind = .symbol .semicolon := by
        obtain rfl | hsemi := hv
        · cases h
        · rwa [show v = t :: (ts ++ rest) from h] at hsemi
      obtain hbrace | ⟨hne, -⟩ := hts
      · simp [hsemi] at hbrace
      · exact absurd hsemi hne
  | cons a u ih =>
    obtain ⟨ha, hu⟩ := List.forall_mem_cons.1 hu
    cases ts with
    | nil => exact ⟨a :: u, h⟩
    | cons t ts =>
      obtain ⟨rfl, htail⟩ := List.cons.inj h
      obtain hbrace | ⟨-, hts⟩ := hts
      · exact absurd hbrace ha.2.1
      · exact ih hu hts htail

theorem Token.Like.eq {t t' : Token} (h : t.Like True t') : t' = t := by
  obtain ⟨kind, span⟩ := t
  obtain ⟨kind', span'⟩ := t'
  obtain rfl : kind' = kind := h.kind
  obtain rfl : span' = span := h.span trivial
  rfl

theorem Tree.Like.eq {t t' : Tree} (h : t.Like True t') : t' = t := by
  have heq {proto proto' : Prototype} (h : proto.Like True proto') : proto' = proto := by
    obtain ⟨hname, hparams, hspan⟩ := h
    cases proto
    cases proto'
    simp only at hname hparams hspan
    rw [hname, hparams, hspan trivial]
  cases h with
  | function hproto hspan => rw [heq hproto, hspan trivial]
  | prototype hproto => rw [heq hproto]
  | global hspan => rw [hspan trivial]

theorem Cursor.Cut.rest_eq (h : Cut True v c c') : c.rest = c'.rest ++ v := by
  obtain ⟨w, hw, hlike⟩ := h
  have heq : w = c'.rest := by simpa only [List.forall₂_eq_eq_eq] using hlike.imp fun _ _ h => h.eq.symm
  rw [hw, heq]

/-- A round at a chunk: it goes on behind the semicolon that follows, and finds what it finds in the chunk alone. -/
theorem round_chunk (hu : Chunk u) (hv : Breaks v) (hc : c.rest = u ++ v) (hc' : c'.rest = u) :
    ∃ p p' c₁ c₁', Round c p c₁ ∧ Round c' p' c₁' ∧ p.items = p'.items ∧
      p.diagnostics.map Diagnostic.reason = p'.diagnostics.map Diagnostic.reason ∧
      c₁.rest = v.tail ∧ c₁'.rest = [] := by
  have hcut : Cut True v c c' := ⟨u, hc, hc' ▸ List.forall₂_same.2 fun _ _ => ⟨rfl, fun _ => rfl⟩⟩
  obtain ⟨ts, hguarded, hts⟩ := Reader.item_walks c
  have hinside : v <:+ (Reader.item.after c).rest := hu.suffix_of_guarded hv (hguarded trivial) (hc.symm.trans hts)
  -- What is left of the chunk, if the reader stops inside.
  have hleft {c₁ c₁' : Cursor} (hafter : Reader.item.after c = c₁) (hcut : Cut True v c₁ c₁') :
      Chunk c₁'.rest ∧ c₁.rest = c₁'.rest ++ v := by
    refine ⟨fun t ht => hu t ?_, hcut.rest_eq⟩
    rw [hafter, hcut.rest_eq, hc, ← List.append_assoc] at hts
    rw [List.append_cancel_right hts]
    exact List.mem_append_right ts ht
  have halike := Reader.item_alike hcut hinside
  generalize hitem : Reader.item c = result, hitem' : Reader.item c' = result' at halike
  cases halike with
  | @error d d' c₁ c₁' hcode hmessage hcursor =>
    obtain ⟨hw, hrest⟩ := hleft (Reader.after_of_error hitem) hcursor
    refine ⟨_, _, _, _, .failed hitem, .failed hitem', rfl, ?_, ?_, hw.afterSemicolon_eq⟩
    · simp [Diagnostic.reason, hcode, hmessage]
    · show afterSemicolon c₁.rest = v.tail
      rw [hrest, hw.afterSemicolon_append, hv.afterSemicolon_eq]
  | @ok t t' c₁ c₁' hvalue hcursor =>
    obtain ⟨hw, hrest⟩ := hleft (Reader.after_of_ok hitem) hcursor
    rw [hvalue.eq] at hitem'
    cases hleft' : c₁'.rest with
    | nil =>
      have hend' : c₁'.kind = .endOfFile := kind_of_nil hleft'
      rw [hleft', List.nil_append] at hrest
      obtain rfl | hsemi := hv
      · exact ⟨_, _, _, _, .last hitem (kind_of_nil hrest), .last hitem' hend', rfl, rfl, hrest, hleft'⟩
      · have hsemi : c₁.kind = .symbol .semicolon := by rw [kind_eq, hrest, hsemi]
        refine ⟨_, _, _, _, .ended hitem hsemi, .last hitem' hend', rfl, rfl, ?_, hleft'⟩
        obtain ⟨semi, rest, hv, -⟩ := exists_cons hsemi (by simp)
        rw [advance_of_cons hv, ← hrest, hv, List.tail_cons]
    | cons a w =>
      rw [hleft'] at hw hrest
      obtain ⟨hsemi, -, hend⟩ := hw a List.mem_cons_self
      have hkind : c₁.kind = a.kind := kind_of_cons hrest
      have hkind' : c₁'.kind = a.kind := kind_of_cons hleft'
      refine ⟨_, _, _, _, .trailed hitem (hkind ▸ hend) (hkind ▸ hsemi),
        .trailed hitem' (hkind' ▸ hend) (hkind' ▸ hsemi), rfl, rfl, ?_, ?_⟩
      · show afterSemicolon c₁.rest = v.tail
        rw [hrest, hw.afterSemicolon_append, hv.afterSemicolon_eq]
      · show afterSemicolon c₁'.rest = []
        rw [hleft', hw.afterSemicolon_eq]

theorem Chunk.kind_ne {t : Token} (hu : Chunk (t :: u)) {rest : List Token} (hc : c.rest = t :: rest) :
    c.kind ≠ .endOfFile ∧ c.kind ≠ .symbol .semicolon := by
  obtain ⟨hsemi, -, hend⟩ := hu t List.mem_cons_self
  rw [kind_of_cons hc]
  exact ⟨hend, hsemi⟩

/-- A chunk alone takes one round, if it takes any. -/
theorem parseFrom_alone {n : Nat} {p : Parsed} {t : Token} (hu : Chunk (t :: u)) (hc : c.rest = t :: u)
    (hround : Round c p c') (hc' : c'.rest = []) (hn : (t :: u).length ≤ n) : parseFrom n c = p := by
  obtain ⟨m, rfl⟩ : ∃ m, n = m + 1 := ⟨n - 1, by simp only [List.length_cons] at hn; omega⟩
  obtain ⟨hend, hsemi⟩ := hu.kind_ne hc
  rw [hround.parseFrom_eq hend hsemi, parseFrom_of_end (kind_of_nil hc'), Parsed.append_empty]

/-- A run from a chunk on: what it finds in the chunk alone, then what it finds behind the semicolon. -/
theorem parseFrom_chunk {n n' : Nat} (hu : Chunk u) (hv : Breaks v) (hc : c.rest = u ++ v) (hc' : c'.rest = u)
    (hn : (u ++ v).length ≤ n) (hn' : u.length ≤ n') :
    ∃ m c₁, v.tail.length ≤ m ∧ c₁.rest = v.tail ∧
      (parseFrom n c).items = (parseFrom n' c').items ++ (parseFrom m c₁).items ∧
      (parseFrom n c).diagnostics.map Diagnostic.reason =
        ((parseFrom n' c').diagnostics ++ (parseFrom m c₁).diagnostics).map Diagnostic.reason := by
  cases u with
  | nil =>
    rw [parseFrom_of_end (kind_of_nil hc')]
    obtain rfl | hsemi := hv
    · exact ⟨n, c, Nat.zero_le n, hc, rfl, rfl⟩
    · have hkind : c.kind = .symbol .semicolon := by rw [kind_eq, hc, List.nil_append, hsemi]
      obtain ⟨semi, rest, hrest, -⟩ := exists_cons hkind (by simp)
      obtain rfl : v = semi :: rest := hc.symm.trans hrest
      obtain ⟨m, rfl⟩ : ∃ m, n = m + 1 := ⟨n - 1, by simp only [List.nil_append, List.length_cons] at hn; omega⟩
      refine ⟨m, c.advance, Nat.le_of_succ_le_succ hn, by rw [advance_of_cons hrest]; rfl, ?_⟩
      rw [parseFrom_of_semicolon hkind]
      exact ⟨rfl, rfl⟩
  | cons t u =>
    obtain ⟨p, p', c₁, c₁', hround, hround', hitems, hreasons, hrest, hrest'⟩ := round_chunk hu hv hc hc'
    obtain ⟨hend, hsemi⟩ := hu.kind_ne hc
    rw [parseFrom_alone hu hc' hround' hrest' hn']
    simp only [List.cons_append, List.length_cons, List.length_append] at hn
    obtain ⟨m, rfl⟩ : ∃ m, n = m + 1 := ⟨n - 1, by omega⟩
    refine ⟨m, c₁, ?_, hrest, ?_⟩
    · rw [List.length_tail]
      omega
    · rw [hround.parseFrom_eq hend hsemi]
      simp [Parsed.append, hitems, hreasons]

end

/-- A run over chunks finds what it finds in each chunk alone. -/
theorem parseFrom_chunked {chunks : List (List Token)} {tokens : List Token} (h : Chunked chunks tokens)
    (hchunks : ∀ chunk ∈ chunks, Chunk chunk) {alone : List Token → Parsed}
    (halone : ∀ chunk ∈ chunks, ∃ c : Cursor, c.rest = chunk ∧ alone chunk = parseFrom chunk.length c) {c : Cursor}
    {n : Nat} (hc : c.rest = tokens) (hn : tokens.length ≤ n) :
    (parseFrom n c).items = chunks.flatMap (fun chunk => (alone chunk).items) ∧
      (parseFrom n c).diagnostics.map Diagnostic.reason =
        chunks.flatMap fun chunk => (alone chunk).diagnostics.map Diagnostic.reason := by
  induction h generalizing n c with
  | none =>
    rw [parseFrom_of_end (kind_of_nil hc)]
    exact ⟨rfl, rfl⟩
  | one chunk =>
    obtain ⟨c', hc', heq⟩ := halone chunk List.mem_cons_self
    rw [← List.append_nil chunk] at hc hn
    obtain ⟨m, c₁, -, hrest, hitems, hreasons⟩ :=
      parseFrom_chunk (hchunks chunk List.mem_cons_self) (.inl rfl) hc hc' hn (Nat.le_refl _)
    rw [parseFrom_of_end (kind_of_nil hrest), ← heq] at hitems hreasons
    rw [List.flatMap_singleton, List.flatMap_singleton, hitems, hreasons]
    exact ⟨List.append_nil _, by rw [Parsed.empty, List.append_nil]⟩
  | @more chunk next tokens chunks semi hsemi h ih =>
    obtain ⟨hchunk, hnext⟩ := List.forall_mem_cons.1 hchunks
    obtain ⟨⟨c', hc', heq⟩, halone⟩ := List.forall_mem_cons.1 halone
    have hbreaks : Breaks (semi :: tokens) := .inr hsemi
    obtain ⟨m, c₁, hm, hrest, hitems, hreasons⟩ := parseFrom_chunk hchunk hbreaks hc hc' hn (Nat.le_refl _)
    obtain ⟨hitems', hreasons'⟩ := ih hnext halone hrest hm
    constructor
    · rw [List.flatMap_cons, ← hitems', heq, hitems]
    · rw [List.flatMap_cons, ← hreasons', heq, hreasons, List.map_append]

theorem Chunk.noEnd {u : List Token} (hu : Chunk u) : NoEnd u := fun t ht => (hu t ht).2.2

theorem Chunked.noEnd {chunks : List (List Token)} {tokens : List Token} (h : Chunked chunks tokens)
    (hchunks : ∀ chunk ∈ chunks, Chunk chunk) : NoEnd tokens := by
  induction h with
  | none => exact .nil
  | one chunk => exact (hchunks chunk List.mem_cons_self).noEnd
  | more hsemi h ih =>
    obtain ⟨hchunk, hnext⟩ := List.forall_mem_cons.1 hchunks
    exact hchunk.noEnd.append (.cons hsemi (by simp) (ih hnext))

theorem Chunk.parse_eq {u stop : List Token} (hu : Chunk u) (hstop : Optional .endOfFile stop) :
    ∃ c : Cursor, c.rest = u ∧ parse (u ++ stop) = parseFrom u.length c := by
  have hrest := Cursor.rest_ofTokens hu.noEnd hstop
  exact ⟨.ofTokens (u ++ stop), hrest, by rw [parse, hrest]⟩

theorem Chunk.parse_alone {u stop : List Token} (hu : Chunk u) (hstop : Optional .endOfFile stop) :
    (parse (u ++ stop)).diagnostics.length ≤ 1 ∧
      (u ≠ [] → (parse (u ++ stop)).diagnostics = [] → ∃ t, (parse (u ++ stop)).items = [t]) := by
  obtain ⟨c, hc, heq⟩ := hu.parse_eq hstop
  rw [heq]
  cases u with
  | nil =>
    rw [parseFrom_of_end (kind_of_nil hc)]
    exact ⟨Nat.zero_le 1, fun hne => absurd rfl hne⟩
  | cons t u =>
    obtain ⟨-, p, -, c₁, -, hround, -, -, -, hrest⟩ := round_chunk hu (.inl rfl) (by rw [hc, List.append_nil]) hc
    rw [parseFrom_alone hu hc hround hrest (Nat.le_refl _)]
    exact ⟨hround.length_diagnostics_le, fun _ => hround.exists_item⟩

/-- Recovery is local. The parser makes of chunks with semicolons between them what it makes of each of them alone: the
same declarations with the same spans, and complaints for the same reasons. It has at most one complaint about a chunk;
and about a chunk that is not empty it has one complaint, or finds exactly one declaration there. -/
theorem parse_chunks {chunks : List (List Token)} {tokens stop : List Token} (ends : List Token → List Token)
    (hchunks : ∀ chunk ∈ chunks, Chunk chunk) (h : Chunked chunks tokens) (hstop : Optional .endOfFile stop)
    (hends : ∀ chunk ∈ chunks, Optional .endOfFile (ends chunk)) :
    (parse (tokens ++ stop)).items = chunks.flatMap (fun chunk => (parse (chunk ++ ends chunk)).items) ∧
    (parse (tokens ++ stop)).diagnostics.map Diagnostic.reason =
      chunks.flatMap (fun chunk => (parse (chunk ++ ends chunk)).diagnostics.map Diagnostic.reason) ∧
    ∀ chunk ∈ chunks, (parse (chunk ++ ends chunk)).diagnostics.length ≤ 1 ∧
      (chunk ≠ [] → (parse (chunk ++ ends chunk)).diagnostics = [] →
        ∃ t, (parse (chunk ++ ends chunk)).items = [t]) := by
  have hrest := Cursor.rest_ofTokens (h.noEnd hchunks) hstop
  have halone (chunk : List Token) (hchunk : chunk ∈ chunks) := (hchunks chunk hchunk).parse_eq (hends chunk hchunk)
  obtain ⟨hitems, hreasons⟩ := parseFrom_chunked h hchunks halone hrest (Nat.le_of_eq (congrArg List.length hrest.symm))
  exact ⟨hitems, hreasons, fun chunk hchunk => (hchunks chunk hchunk).parse_alone (hends chunk hchunk)⟩

/-- `global a; def f; global b`: the second declaration is bad and the others are found. -/
theorem parse_chunks_bad_between :
    (parse [⟨.keyword .globalKw, {}⟩, ⟨.identifier "a", {}⟩, ⟨.symbol .semicolon, {}⟩, ⟨.keyword .defKw, {}⟩,
      ⟨.identifier "f", {}⟩, ⟨.symbol .semicolon, {}⟩, ⟨.keyword .globalKw, {}⟩, ⟨.identifier "b", {}⟩,
      ⟨.endOfFile, {}⟩]).items =
        (parse [⟨.keyword .globalKw, {}⟩, ⟨.identifier "a", {}⟩]).items ++
        ((parse [⟨.keyword .defKw, {}⟩, ⟨.identifier "f", {}⟩]).items ++
        ((parse [⟨.keyword .globalKw, {}⟩, ⟨.identifier "b", {}⟩]).items ++ [])) :=
  have hchunks : ∀ chunk ∈ [[⟨.keyword .globalKw, {}⟩, ⟨.identifier "a", {}⟩], [⟨.keyword .defKw, {}⟩,
      ⟨.identifier "f", {}⟩], [⟨.keyword .globalKw, {}⟩, ⟨.identifier "b", {}⟩]], Chunk chunk := by simp [Chunk]
  (parse_chunks (fun _ => []) hchunks (.more rfl (.more rfl (.one _))) (.inr ⟨⟨.endOfFile, {}⟩, rfl, rfl⟩)
    fun _ _ => .inl rfl).1

end Monofloat
