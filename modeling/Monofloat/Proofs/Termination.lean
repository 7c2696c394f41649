import Monofloat.Proofs.Recovery
import Monofloat.Proofs.Routines

/-!
# The parser ends inside its tokens

The routines have no bounds and look at tokens by their index; the readers have bounds and take tokens off a list. Here
each routine is shown to do what its reader does (`Mirrors`): it ends, it finds a token wherever it looks, it passes the
tokens that the reader takes, and it records the diagnostic that the reader fails with. The argument is on the number of
tokens left. A routine calls itself only behind a token that it has passed, and there fewer tokens are left. A reader
whose bound is as good as that number never reaches it.
-/

namespace Monofloat

open Grammar Cursor

/-! ## Positions -/

/-- The cursor has the tokens from a position on, up to the first end of the file there. -/
def Cursor.At (tokens : List Token) (i : Nat) (c : Cursor) : Prop :=
  NoEnd c.rest ∧ ∃ before after, tokens = before ++ (c.rest ++ ⟨.endOfFile, c.stop⟩ :: after) ∧ before.length = i

namespace Cursor

theorem Passes.stop_eq {c c' : Cursor} {ts : List Token} (h : Passes c ts c') : c'.stop = c.stop := by
  induction h with
  | nil => rfl
  | cons ht _ ih => rw [ih, advance_of_cons ht]

namespace At

variable {tokens ts : List Token} {i : Nat} {c c' : Cursor}

/-- The position is inside the list, and the token there is the next one. -/
theorem getElem? (h : c.At tokens i) : tokens[i]? = some ⟨c.kind, c.span⟩ := by
  obtain ⟨-, before, after, rfl, rfl⟩ := h
  rw [List.getElem?_append_right (Nat.le_refl _), Nat.sub_self]
  cases hc : c.rest with
  | nil => simp [kind, span, hc]
  | cons t rest => simp [kind, span, hc]

theorem lt_length (h : c.At tokens i) : i < tokens.length := (List.getElem?_eq_some_iff.1 h.getElem?).1

theorem congr (h : c.At tokens i) (hrest : c'.rest = c.rest) (hstop : c'.stop = c.stop) : c'.At tokens i := by
  rwa [At, hrest, hstop]

theorem passes (h : c.At tokens i) (hp : Passes c ts c') : c'.At tokens (i + ts.length) := by
  obtain ⟨hend, before, after, rfl, rfl⟩ := h
  rw [hp.rest_eq] at hend ⊢
  refine ⟨fun t ht => hend t (List.mem_append_right ts ht), before ++ ts, after, ?_, List.length_append⟩
  rw [hp.stop_eq, List.append_assoc, List.append_assoc]

/-- The token before the position is the one passed last. -/
theorem getElem?_previous (h : c.At tokens i) (hp : Passes c ts c') (hne : ts ≠ []) :
    ∃ t, tokens[i + ts.length - 1]? = some t ∧ t.span = c'.last := by
  have hlast := hp.last_eq hne
  obtain ⟨-, before, after, rfl, rfl⟩ := h
  have hpos : 0 < ts.length := List.length_pos_iff.2 hne
  refine ⟨ts.getLast hne, ?_, hlast.symm⟩
  rw [hp.rest_eq, List.getElem?_append_right (by omega), List.append_assoc, List.getElem?_append_left (by omega),
    show before.length + ts.length - 1 - before.length = ts.length - 1 by omega, List.getLast_eq_getElem]
  exact List.getElem?_eq_getElem _

end At

end Cursor

namespace Routine

/-! ## Outcomes -/

variable {tokens ts : List Token} {i : Nat} {c c' : Cursor} {ds : List Diagnostic}

theorem tokenAt_of_getElem? {j : Nat} {t : Token} (h : tokens[j]? = some t) (p : Progress) :
    (tokenAt tokens j).outcome p = some (.ok t, p) := by
  rw [tokenAt, h]
  rfl

theorem current_outcome (h : c.At tokens i) :
    (current tokens).outcome ⟨i, ds⟩ = some (.ok ⟨c.kind, c.span⟩, ⟨i, ds⟩) :=
  tokenAt_of_getElem? h.getElem? ⟨i, ds⟩

theorem peek_outcome (h : c.At tokens i) : (peek tokens).outcome ⟨i, ds⟩ = some (.ok c.kind, ⟨i, ds⟩) :=
  bind_of_value (current_outcome h)

theorem following_outcome {t : Token} {rest : List Token} (h : c.At tokens i) (hc : c.rest = t :: rest) :
    (following tokens).outcome ⟨i, ds⟩ = some (.ok ⟨c.advance.kind, c.advance.span⟩, ⟨i, ds⟩) :=
  tokenAt_of_getElem? (h.passes (.single hc)).getElem? ⟨i, ds⟩

theorem fail_outcome {α : Type} (h : c.At tokens i) (code : Code) (message : String) :
    (fail tokens code message : Routine α).outcome ⟨i, ds⟩ =
      some (.error .failed, ⟨i, ds ++ [c.unexpected code message]⟩) :=
  bind_of_value (current_outcome h)

theorem advance_outcome {t : Token} {rest : List Token} (h : c.At tokens i) (hc : c.rest = t :: rest)
    (ht : t.kind ≠ .endOfFile) : (advance tokens).outcome ⟨i, ds⟩ = some (.ok t, ⟨i + 1, ds⟩) := by
  have hkind : c.kind ≠ .endOfFile := kind_of_cons hc ▸ ht
  rw [advance, bind_of_value (peek_outcome h), if_pos hkind]
  have ht : tokens[i]? = some t := by rw [h.getElem?, kind_of_cons hc, span_of_cons hc]
  exact tokenAt_of_getElem? ht ⟨i + 1, ds⟩

/-! ## Routines and readers -/

/-- A routine at position `i` and a reader at `c` have ended alike. They have passed the same tokens. Both give the same
value, behind `k` tokens or more, and nothing is recorded; or both have failed, and the one diagnostic is recorded. -/
inductive SameEnd {α : Type} (k i : Nat) (ds : List Diagnostic) (c : Cursor) :
    Option (Except Halt α × Progress) → EStateM.Result Diagnostic Cursor α → Prop
  | ok {ts : List Token} {c' : Cursor} (hp : Passes c ts c') (hk : k ≤ ts.length) (a : α) :
    SameEnd k i ds c (some (.ok a, ⟨i + ts.length, ds⟩)) (.ok a c')
  | error {ts : List Token} {c' : Cursor} (hp : Passes c ts c') (code : Code) (message : String) :
    SameEnd k i ds c (some (.error .failed, ⟨i + ts.length, ds ++ [c'.unexpected code message]⟩))
      (.error (c'.unexpected code message) c')

namespace SameEnd

variable {α : Type} {k k' : Nat} {out : Option (Except Halt α × Progress)} {result : EStateM.Result Diagnostic Cursor α}

theorem mono (h : SameEnd k i ds c out result) (hk : k' ≤ k) : SameEnd k' i ds c out result := by
  cases h with
  | ok hp hts a => exact .ok hp (Nat.le_trans hk hts) a
  | error hp code message => exact .error hp code message

/-- Tokens passed before count as well. -/
theorem behind (hp : Passes c ts c') (hk : k ≤ ts.length) (h : SameEnd k' (i + ts.length) ds c' out result) :
    SameEnd (k + k') i ds c out result := by
  cases h with
  | @ok us _ hp' hus a =>
    rw [Nat.add_assoc, ← List.length_append]
    exact .ok (hp.append hp') (by rw [List.length_append]; omega) a
  | @error us _ hp' code message =>
    rw [Nat.add_assoc, ← List.length_append]
    exact .error (hp.append hp') code message

end SameEnd

section

variable (tokens)

/-- In front of less than `n` tokens, with the next one of a kind in `K`, the routine and the reader end alike, and pass
`k` tokens at least if they succeed. -/
def MirrorsOn {α : Type} (K : TokenKind → Prop) (n k : Nat) (q : Routine α) (r : Reader α) : Prop :=
  ∀ ⦃i c⦄ ds, c.At tokens i → K c.kind → c.rest.length < n → SameEnd k i ds c (q.outcome ⟨i, ds⟩) (r c)

/-- Whatever the next token is, they end alike. -/
abbrev Mirrors {α : Type} (n k : Nat) (q : Routine α) (r : Reader α) : Prop :=
  MirrorsOn tokens (fun _ => True) n k q r

end

section

variable {α β : Type} {K : TokenKind → Prop} {n n' k k' : Nat} {q : Routine α} {r r' : Reader α}
  {g : α → Routine β} {f : α → Reader β}

theorem Mirrors.of_zero (hn : n = 0) : Mirrors tokens n k q r :=
  fun _ _ _ _ _ hlt => absurd hlt (hn ▸ Nat.not_lt_zero _)

namespace MirrorsOn

theorem mono (h : MirrorsOn tokens K n k q r) (hn : n' ≤ n) (hk : k' ≤ k) : MirrorsOn tokens K n' k' q r :=
  fun _ _ ds hc hK hlt => (h ds hc hK (Nat.lt_of_lt_of_le hlt hn)).mono hk

theorem congr (h : MirrorsOn tokens K n k q r) (heq : ∀ c, c.rest.length < n → r' c = r c) :
    MirrorsOn tokens K n k q r' :=
  fun _ c ds hc hK hn => heq c hn ▸ h ds hc hK hn

/-- What follows has fewer tokens left. -/
theorem bind (h : MirrorsOn tokens K n k q r) (hf : ∀ a, Mirrors tokens (n - k) k' (g a) (f a)) :
    MirrorsOn tokens K n (k + k') (q >>= g) (r >>= f) := by
  intro i c ds hc hK hn
  have hend := h ds hc hK hn
  generalize hq : q.outcome ⟨i, ds⟩ = out at hend
  generalize hr : r c = result at hend
  cases hend with
  | @ok ts c' hp hk a =>
    rw [bind_of_value hq, bind_of_ok hr]
    have hlength : c.rest.length = ts.length + c'.rest.length := by rw [hp.rest_eq, List.length_append]
    exact .behind hp hk (hf a ds (hc.passes hp) trivial (by omega))
  | error hp code message =>
    rw [bind_of_halt hq, bind_of_error hr]
    exact .error hp code message

theorem weaken (h : MirrorsOn tokens K n k q r) : MirrorsOn tokens K n 0 q r := h.mono (Nat.le_refl n) (Nat.zero_le k)

/-- Nothing more has to be passed. -/
theorem followed (h : MirrorsOn tokens K n k q r) (hf : ∀ a, Mirrors tokens n 0 (g a) (f a)) :
    MirrorsOn tokens K n k (q >>= g) (r >>= f) :=
  h.bind fun a => (hf a).mono (Nat.sub_le n k) (Nat.le_refl 0)

theorem fail (code : Code) (message : String) :
    MirrorsOn tokens K n k (Routine.fail tokens code message : Routine α) (Reader.fail code message) := by
  intro i c ds hc _ _
  rw [fail_outcome hc]
  exact .error (.nil c) code message

theorem pure (a : α) : MirrorsOn tokens K n 0 (Pure.pure a) (Pure.pure a) :=
  fun _ c _ _ _ _ => .ok (.nil c) (Nat.le_refl 0) a

/-- They look at the next token and go on by its kind. -/
theorem peek {g : TokenKind → Routine α} {f : TokenKind → Reader α}
    (h : ∀ kind, K kind → MirrorsOn tokens (· = kind) n k (g kind) (f kind)) :
    MirrorsOn tokens K n k (Routine.peek tokens >>= g) (Reader.peek >>= f) := by
  intro i c ds hc hK hn
  rw [bind_of_value (peek_outcome hc), Reader.peek_bind]
  exact h c.kind hK ds hc rfl hn

theorem advance {kind : TokenKind} (hkind : kind ≠ .endOfFile) {g : Token → Routine α} {f : Span → Reader α}
    (h : ∀ t : Token, Mirrors tokens (n - 1) k (g t) (f t.span)) :
    MirrorsOn tokens (· = kind) n (k + 1) (Routine.advance tokens >>= g) (Reader.take >>= f) := by
  intro i c ds hc hK hn
  obtain ⟨t, rest, hrest, ht⟩ := exists_cons hK hkind
  have hp : Passes c [t] c.advance := .single hrest
  have hspan : (Reader.take >>= f) c = f t.span c.advance := by rw [← span_of_cons hrest]; rfl
  have hlength : c.rest.length = c.advance.rest.length + 1 := by rw [hrest, advance_of_cons hrest]; rfl
  rw [bind_of_value (advance_outcome hc hrest (ht ▸ hkind)), hspan]
  rw [Nat.add_comm k]
  exact .behind hp (Nat.le_refl 1) (h t ds (hc.passes hp) trivial (by omega))

theorem peek_ite {kind : TokenKind} {close other : Routine α} {close' other' : Reader α}
    (hclose : MirrorsOn tokens (· = kind) n k close close') (hother : MirrorsOn tokens K n k other other') :
    MirrorsOn tokens K n k (Routine.peek tokens >>= fun next => if next = kind then close else other)
      (Reader.peek >>= fun next => if next = kind then close' else other') := by
  refine .peek fun next hK => ?_
  by_cases hnext : next = kind
  · rw [if_pos hnext, if_pos hnext, hnext]
    exact hclose
  · rw [if_neg hnext, if_neg hnext]
    exact fun i c ds hc hkind => hother ds hc (hkind ▸ hK)

theorem accept {kind : TokenKind} (hkind : kind ≠ .endOfFile) {g : Bool → Routine α} {f : Bool → Reader α}
    (htrue : Mirrors tokens (n - 1) (k - 1) (g true) (f true)) (hfalse : MirrorsOn tokens K n k (g false) (f false)) :
    MirrorsOn tokens K n k (Routine.accept tokens kind >>= g) (Reader.accept kind >>= f) := by
  have haccept : Routine.accept tokens kind >>= g = Routine.peek tokens >>= fun next =>
      if next = kind then Routine.advance tokens >>= fun _ => g true else g false := by
    rw [Routine.accept, bind_assoc]
    congr 1
    funext next
    split
    · rw [Routine.discard_bind, bind_assoc]
      simp
    · simp
  rw [haccept, Reader.accept_bind]
  exact .peek_ite ((MirrorsOn.advance hkind fun _ => htrue).mono (Nat.le_refl n) (by omega)) hfalse

theorem expect {kind : TokenKind} (hkind : kind ≠ .endOfFile) (message : String) :
    MirrorsOn tokens K n 1 (Routine.expect tokens kind message) (Reader.expect kind message) := by
  have htake : Reader.take = Reader.take >>= Pure.pure := (bind_pure _).symm
  rw [Routine.expect, Reader.expect, htake]
  exact .peek_ite (.advance hkind fun t => .pure t.span) (.fail .unexpectedToken message)

theorem identifier (message : String) :
    MirrorsOn tokens K n 1 (Routine.identifier tokens message) (Reader.identifier message) := by
  refine .peek fun kind _ => ?_
  cases kind with
  | identifier name =>
    simp only [Routine.discard_bind, Reader.discard_bind]
    exact .advance (by simp) fun _ => .pure name
  | _ => exact .fail .expectedIdentifier message

/-- A reader whose bound is the number of tokens left. -/
theorem tokensLeft {f : Nat → Reader α} (h : ∀ m, MirrorsOn tokens K (min n (m + 1)) k q (f m)) :
    MirrorsOn tokens K n k q (Reader.tokensLeft >>= f) := by
  intro i c ds hc hK hn
  rw [Reader.tokensLeft_bind]
  exact h c.rest.length ds hc hK (by omega)

end MirrorsOn

end

/-! ## Loops -/

section

variable {n k : Nat}

/-- A loop without a bound, and a reader with a bound on its rounds. A round passes a token before it goes on, and the
end of the file ends the loop. -/
theorem mirrors_loop {α σ : Type} {Q : σ → Routine α} {L : Nat → σ → Reader α}
    (hround : ∀ m j, j ≤ n → (∀ s, Mirrors tokens (j - 1) k (Q s) (L m s)) →
      ∀ s, Mirrors tokens j k (Q s) (L (m + 1) s))
    (hend : ∀ s c, c.kind = .endOfFile → L 0 s c = L 1 s c) (s : σ) :
    Mirrors tokens n k (Q s) (Reader.tokensLeft >>= fun m => L m s) := by
  suffices hall : ∀ m j, j ≤ n → j ≤ m + 1 → ∀ s, Mirrors tokens j k (Q s) (L m s) from
    .tokensLeft fun m => hall m _ (Nat.min_le_left n _) (Nat.min_le_right n _) s
  intro m
  induction m with
  | zero =>
    intro j hj hm s
    refine (hround 0 j hj (fun s => .of_zero (by omega)) s).congr fun c hc => hend s c (kind_of_nil ?_)
    exact List.eq_nil_of_length_eq_zero (by omega)
  | succ m ih => exact fun j hj hm => hround m j hj (ih (j - 1) (by omega) (by omega))

theorem accept_of_end {kind : TokenKind} (hkind : kind ≠ .endOfFile) (hc : c.kind = .endOfFile) :
    Reader.accept kind c = .ok false c := if_neg (hc ▸ hkind.symm)

theorem mirrors_repeated {kind : TokenKind} (hkind : kind ≠ .endOfFile) (wrap : Tree → Tree) {p : Phrase Tree}
    {r : Reader Tree} (h : Mirrors tokens n 1 (phrase tokens p) r) :
    Mirrors tokens n 1 (phrase tokens (.repeated kind wrap p)) (Reader.repeated kind wrap r) := by
  refine mirrors_loop (Q := fun _ : Unit => phrase tokens (.repeated kind wrap p))
    (L := fun m _ => Reader.repeatedFrom kind wrap r m) (fun m j hj ih _ => ?_) (fun _ c hc => ?_) ()
  · rw [phrase_eq, phraseWith]
    exact .accept hkind ((ih ()).weaken.followed fun a => .pure (wrap a)) (h.mono hj (Nat.le_refl 1))
  · show r c = (Reader.accept kind >>= _) c
    rw [bind_of_ok (accept_of_end hkind hc)]
    rfl

theorem mirrors_chained {join : TokenKind → Option (Tree → Tree → Tree)} (hend : join .endOfFile = none)
    {p : Phrase Tree} {r : Reader Tree} (h : Mirrors tokens n 1 (phrase tokens p) r) :
    Mirrors tokens n 1 (phrase tokens (.chained p join)) (Reader.chained r join) := by
  rw [phrase_eq, phraseWith]
  refine h.followed (mirrors_loop (Q := fun left => phrase tokens (.chainedFrom p join left))
    (L := Reader.chainedFrom r join) (fun m j hj ih left => ?_) fun left c hc => ?_)
  · rw [phrase_eq, phraseWith]
    refine .peek fun kind _ => ?_
    cases hop : join kind with
    | none => exact .pure left
    | some op =>
      have hkind : kind ≠ .endOfFile := fun hk => by simp [hk, hend] at hop
      simp only [discard_bind, Reader.discard_bind]
      refine (MirrorsOn.advance (k := 0) hkind fun _ => ?_).weaken
      exact (h.mono (by omega) (Nat.zero_le 1)).followed fun right => ih (op left right)
  · rw [Reader.chainedFrom, Reader.chainedFrom, Reader.peek_bind, hc, hend]

theorem mirrors_separated {α : Type} {separator : TokenKind} (hseparator : separator ≠ .endOfFile) {p : Phrase α}
    {r : Reader α} (h : Mirrors tokens n 1 (phrase tokens p) r) :
    Mirrors tokens n 1 (phrase tokens (.separated separator p)) (Reader.separated separator r) := by
  rw [phrase_eq, phraseWith]
  refine h.followed (mirrors_loop
    (L := fun m first => Reader.separatedFrom separator r m >>= fun rest => pure (first :: rest))
    (fun m j hj ih first => ?_) fun first c hc => ?_)
  · have hround : (Reader.separatedFrom separator r (m + 1) >>= fun rest => pure (first :: rest)) =
        Reader.accept separator >>= fun found => if found = true then (r >>= fun next =>
          Reader.separatedFrom separator r m >>= fun rest => pure (next :: rest)) >>= fun rest => pure (first :: rest)
        else pure [first] := by
      rw [Reader.separatedFrom, bind_assoc]
      congr 1
      funext found
      cases found <;> simp
    rw [hround]
    refine .accept hseparator ?_ (.pure [first])
    rw [phrase_eq, phraseWith]
    exact ((h.mono (by omega) (Nat.zero_le 1)).followed ih).followed fun rest => .pure (first :: rest)
  · have hzero : Reader.separatedFrom separator r 0 c = .ok [] c := rfl
    have hone : Reader.separatedFrom separator r 1 c = .ok [] c := bind_of_ok (accept_of_end hseparator hc)
    rw [bind_of_ok hzero, bind_of_ok hone]

end

/-! ## Expressions -/

section

variable {n k : Nat} {e : Reader Tree}

/-- A token that has to be there, and what follows it. -/
theorem mirrors_expect {α : Type} {K : TokenKind → Prop} {kind : TokenKind} (hkind : kind ≠ .endOfFile)
    (message : String) {q : Routine α} {r : Reader α} (h : Mirrors tokens n 0 q r) :
    MirrorsOn tokens K n 1 (discard (expect tokens kind message) >>= fun _ => q)
      (discard (Reader.expect kind message) >>= fun _ => r) := by
  rw [discard_bind, Reader.discard_bind]
  exact (MirrorsOn.expect hkind message).followed fun _ => h

section

variable (he : Mirrors tokens n 1 (phrase tokens .expression) e)

include he

theorem mirrors_binding : Mirrors tokens n 1 (phrase tokens .binding) (Reader.binding e) := by
  rw [phrase_eq, phraseWith]
  refine (MirrorsOn.identifier _).followed fun name => (mirrors_expect (by simp) _ ?_).weaken
  exact he.weaken.followed fun init => .pure (name, init)

theorem mirrors_arguments : Mirrors tokens n 1 (phrase tokens .arguments) (Reader.arguments e) := by
  rw [phrase_eq, phraseWith]
  refine .peek_ite ?_ ?_
  · simp only [pure_bind]
    exact mirrors_expect (by simp) _ (.pure [])
  · exact (mirrors_separated (by simp) he).followed fun args => (mirrors_expect (by simp) _ (.pure args)).weaken

theorem mirrors_parenthesized : Mirrors tokens n 1 (phrase tokens .parenthesized) (Reader.parenthesized e) := by
  rw [phrase_eq, phraseWith]
  exact he.followed fun inner => (mirrors_expect (by simp) _ (.pure inner)).weaken

theorem mirrors_statementsFrom : Mirrors tokens n 0 (phrase tokens .statementsFrom)
    (Reader.tokensLeft >>= Reader.statementsFrom e) := by
  refine mirrors_loop (Q := fun _ : Unit => phrase tokens .statementsFrom) (L := fun m _ => Reader.statementsFrom e m)
    (fun m j hj ih _ => ?_) (fun _ c hc => ?_) ()
  · rw [phrase_eq, phraseWith]
    refine .accept (by simp) (.peek_ite (.pure []) ?_) (.pure [])
    exact (he.mono (by omega) (Nat.zero_le 1)).followed fun first => (ih ()).followed fun rest => .pure (first :: rest)
  · show _ = (Reader.accept (.symbol .semicolon) >>= _) c
    rw [bind_of_ok (accept_of_end (by simp) hc)]
    rfl

theorem mirrors_statements : Mirrors tokens n 1 (phrase tokens .statements) (Reader.statements e) := by
  rw [phrase_eq, phraseWith]
  refine he.followed fun first => ?_
  rw [← bind_assoc (m := Reader)]
  exact (mirrors_statementsFrom he).followed fun rest =>
    (mirrors_expect (by simp) _ (.pure (Tree.statements first rest))).weaken

theorem mirrors_conditional : Mirrors tokens n 1 (phrase tokens .conditional) (Reader.conditional e) := by
  rw [phrase_eq, phraseWith]
  refine he.followed fun cond => (mirrors_expect (by simp) _ ?_).weaken
  refine he.weaken.followed fun thenArm => (mirrors_expect (by simp) _ ?_).weaken
  exact he.weaken.followed fun elseArm => .pure (Tree.conditional cond thenArm elseArm)

theorem mirrors_block : Mirrors tokens n 1 (phrase tokens .block) (Reader.block e) := by
  rw [phrase_eq, phraseWith]
  refine (mirrors_separated (by simp) (mirrors_binding he)).followed fun bindings =>
    (mirrors_expect (by simp) _ ?_).weaken
  exact he.weaken.followed fun body => .pure (Tree.block bindings body)

theorem mirrors_loopHeader : Mirrors tokens n 1 (phrase tokens .loopHeader) (Reader.loopHeader e) := by
  have hbinding := mirrors_binding he
  rw [phrase_eq, phraseWith]
  refine .accept (by simp) ((hbinding.mono (Nat.sub_le n 1) (Nat.zero_le 1)).followed fun b => .pure _) ?_
  exact hbinding.followed fun b => .pure _

theorem mirrors_forLoop : Mirrors tokens n 1 (phrase tokens .forLoop) (Reader.forLoop e) := by
  rw [phrase_eq, phraseWith]
  refine (mirrors_loopHeader he).followed fun header => (mirrors_expect (by simp) _ ?_).weaken
  refine he.weaken.followed fun cond => (mirrors_expect (by simp) _ ?_).weaken
  refine he.weaken.followed fun step => (mirrors_expect (by simp) _ ?_).weaken
  exact he.weaken.followed fun body => .pure (Tree.forLoop header cond step body)

theorem mirrors_reference (name : String) :
    Mirrors tokens n 0 (phrase tokens (.reference name)) (Reader.reference e name) := by
  rw [phrase_eq, phraseWith]
  refine .accept (by simp) ?_ (.pure (Tree.var name))
  exact ((mirrors_arguments he).mono (Nat.sub_le n 1) (Nat.zero_le 1)).followed fun args => .pure (Tree.call name args)

end

variable (he : Mirrors tokens (n - 1) 1 (phrase tokens .expression) e)

include he

/-- Every expression inside another stands behind a token. -/
theorem mirrors_primary : Mirrors tokens n 1 (phrase tokens .primary) (Reader.primary e) := by
  have hfail (kind : TokenKind) : MirrorsOn tokens (· = kind) n 1
      (fail tokens .expectedExpression "expected expression" : Routine Tree)
      (Reader.fail .expectedExpression "expected expression") := .fail _ _
  rw [phrase_eq, phraseWith]
  refine .peek fun kind _ => ?_
  cases kind with
  | number value =>
    simp only [discard_bind, Reader.discard_bind]
    exact .advance (by simp) fun _ => .pure (Tree.number value)
  | identifier name =>
    simp only [discard_bind, Reader.discard_bind]
    exact .advance (by simp) fun _ => mirrors_reference he name
  | symbol x =>
    cases x with
    | leftParen =>
      simp only [discard_bind, Reader.discard_bind]
      exact .advance (by simp) fun _ => (mirrors_parenthesized he).weaken
    | leftBrace =>
      simp only [discard_bind, Reader.discard_bind]
      exact .advance (by simp) fun _ => (mirrors_statements he).weaken
    | _ => exact hfail _
  | keyword w =>
    cases w with
    | ifKw =>
      simp only [discard_bind, Reader.discard_bind]
      exact .advance (by simp) fun _ => (mirrors_conditional he).weaken
    | varKw =>
      simp only [discard_bind, Reader.discard_bind]
      exact .advance (by simp) fun _ => (mirrors_block he).weaken
    | forKw =>
      simp only [discard_bind, Reader.discard_bind]
      exact .advance (by simp) fun _ => (mirrors_forLoop he).weaken
    | _ => exact hfail _
  | _ => exact hfail _

theorem mirrors_negation : Mirrors tokens n 1 (phrase tokens .negation) (Reader.negation e) :=
  mirrors_repeated (by simp) _ (mirrors_primary he)

theorem mirrors_product : Mirrors tokens n 1 (phrase tokens .product) (Reader.product e) :=
  mirrors_chained rfl (mirrors_negation he)

theorem mirrors_sum : Mirrors tokens n 1 (phrase tokens .sum) (Reader.sum e) :=
  mirrors_chained rfl (mirrors_product he)

theorem mirrors_comparison : Mirrors tokens n 1 (phrase tokens .comparison) (Reader.comparison e) :=
  mirrors_chained rfl (mirrors_sum he)

theorem mirrors_inversion : Mirrors tokens n 1 (phrase tokens .inversion) (Reader.inversion e) :=
  mirrors_repeated (by simp) _ (mirrors_comparison he)

theorem mirrors_conjunction : Mirrors tokens n 1 (phrase tokens .conjunction) (Reader.conjunction e) :=
  mirrors_chained rfl (mirrors_inversion he)

theorem mirrors_disjunction : Mirrors tokens n 1 (phrase tokens .disjunction) (Reader.disjunction e) :=
  mirrors_chained rfl (mirrors_conjunction he)

omit he

/-- The routine looks at the token behind an identifier; there is one, as the identifier is not the end. -/
theorem mirrors_target {α : Type} {q : Routine α} {F : TokenKind → Routine α} {g : String → Routine α}
    {F' : Option String → Reader α} {g' : String → Reader α}
    (hF : ∀ name, F (.identifier name) = following tokens >>= fun t =>
      if t.kind = .symbol .equal then advance tokens >>= fun _ => advance tokens >>= fun _ => g name else q)
    (hother : ∀ kind, (∀ name, kind ≠ .identifier name) → F kind = q)
    (hF' : ∀ name, F' (some name) = Reader.take >>= fun _ => Reader.take >>= fun _ => g' name)
    (h : Mirrors tokens n 1 q (F' none)) (hg : ∀ name, Mirrors tokens (n - 1) 0 (g name) (g' name)) :
    Mirrors tokens n 1 (peek tokens >>= F) (Reader.target? >>= F') := by
  intro i c ds hc _ hn
  rw [bind_of_value (peek_outcome hc)]
  by_cases hstarts : StartsAssignment c.rest
  · obtain ⟨t, u, rest, name, hrest, ht, hu⟩ := hstarts
    have hrest' : c.advance.rest = u :: rest := by rw [advance_of_cons hrest]
    have hp : Passes c [t] c.advance := .single hrest
    have hc' : c.advance.At tokens (i + 1) := hc.passes hp
    rw [Reader.target?_bind_of_startsAssignment hF' hrest ht hu, kind_of_cons hrest, ht, hF,
      bind_of_value (following_outcome hc hrest), if_pos (by rw [kind_of_cons hrest', hu]),
      bind_of_value (advance_outcome hc hrest (by simp [ht])),
      bind_of_value (advance_outcome hc' hrest' (by simp [hu]))]
    have hlength : c.rest.length = c.advance.advance.rest.length + 2 := by rw [advance_advance hrest, hrest]; rfl
    have hp' : Passes c [t, u] c.advance.advance := hp.append (.single hrest')
    exact .behind hp' (by simp) (hg name ds (hc.passes hp') trivial (by omega))
  · rw [Reader.target?_bind_of_not_startsAssignment hstarts]
    suffices hq : (F c.kind).outcome ⟨i, ds⟩ = q.outcome ⟨i, ds⟩ by rw [hq]; exact h ds hc trivial hn
    by_cases hkind : ∃ name, c.kind = .identifier name
    · obtain ⟨name, hname⟩ := hkind
      obtain ⟨t, rest, hrest, ht⟩ := exists_cons hname (by simp)
      have hne : c.advance.kind ≠ .symbol .equal := fun heq => by
        obtain ⟨u, rest', hrest', hu⟩ := exists_cons heq (by simp)
        rw [advance_of_cons hrest] at hrest'
        exact hstarts ⟨t, u, rest', name, hrest.trans (congrArg (t :: ·) hrest'), ht, hu⟩
      rw [hname, hF, bind_of_value (following_outcome hc hrest), if_neg hne]
    · rw [hother c.kind fun name hname => hkind ⟨name, hname⟩]

include he

theorem mirrors_assignment : Mirrors tokens n 1 (phrase tokens .assignment) (Reader.assignment e) := by
  rw [phrase_eq, phraseWith]
  refine .accept (by simp) ?_ ?_
  · exact (MirrorsOn.identifier _).weaken.followed fun name => .pure (Tree.increment name)
  · refine mirrors_target (fun name => ?_) (fun kind hkind => ?_) (fun name => ?_) (mirrors_disjunction he) fun name =>
      he.weaken.followed fun value => .pure (Tree.assign name value)
    · simp only [discard_bind]
    · cases kind with
      | identifier name => exact absurd rfl (hkind name)
      | _ => rfl
    · simp only [Reader.discard_bind]

end

/-- A bound on the depth that is as good as the number of tokens. -/
theorem mirrors_expressionTo {n depth : Nat} (h : n ≤ depth) :
    Mirrors tokens n 1 (phrase tokens .expression) (Reader.expressionTo depth) := by
  induction depth generalizing n with
  | zero => exact .of_zero (by omega)
  | succ depth ih =>
    rw [phrase_expression]
    exact mirrors_assignment (ih (by omega))

theorem mirrors_expression (n : Nat) : Mirrors tokens n 1 (phrase tokens .expression) Reader.wholeExpression :=
  .tokensLeft fun m => mirrors_expressionTo (Nat.min_le_right n (m + 1))

/-! ## Declarations -/

section

variable {n : Nat}

theorem mirrors_prototype : Mirrors tokens n 1 (prototype tokens) Reader.prototype := by
  intro i c ds hc hK hn
  rw [prototype, bind_of_value (current_outcome hc)]
  refine MirrorsOn.followed (f := Reader.parameters c.span) (K := fun _ => True) (.identifier _) (fun name => ?_) ds hc
    hK hn
  have hname : Mirrors tokens n 1 (phrase tokens (.identifier "expected parameter name"))
      (Reader.identifier "expected parameter name") := by
    rw [phrase_identifier]
    exact .identifier _
  refine (mirrors_expect (by simp) _ (.peek_ite ?_ ?_)).weaken
  · simp only [pure_bind]
    exact (MirrorsOn.expect (by simp) _).weaken.followed fun stop => .pure (Prototype.mk name [] (c.span.cover stop))
  · refine (mirrors_separated (by simp) hname).weaken.followed fun params => ?_
    exact (MirrorsOn.expect (by simp) _).weaken.followed fun stop =>
      .pure (Prototype.mk name params (c.span.cover stop))

/-- Behind a token, the one before the position is the one that the reader has taken last. -/
theorem mirrors_previous {α β : Type} {K : TokenKind → Prop} {k : Nat} {q : Routine α} {r : Reader α}
    {g : α → Span → β} (h : MirrorsOn tokens K n (k + 1) q r) :
    MirrorsOn tokens K n (k + 1) (q >>= fun a => previous tokens >>= fun t => pure (g a t.span))
      (r >>= fun a => get >>= fun c => pure (g a c.last)) := by
  intro i c ds hc hK hn
  have hend := h ds hc hK hn
  generalize hq : q.outcome ⟨i, ds⟩ = out at hend
  generalize hr : r c = result at hend
  cases hend with
  | @ok ts c' hp hk a =>
    have hne : ts ≠ [] := List.ne_nil_of_length_pos (by omega)
    obtain ⟨t, ht, hspan⟩ := hc.getElem?_previous hp hne
    have hprevious : (previous tokens).outcome ⟨i + ts.length, ds⟩ = some (.ok t, ⟨i + ts.length, ds⟩) :=
      tokenAt_of_getElem? ht _
    rw [bind_of_value hq, bind_of_ok hr, bind_of_value hprevious, hspan]
    exact .ok hp hk (g a c'.last)
  | error hp code message =>
    rw [bind_of_halt hq, bind_of_error hr]
    exact .error hp code message

theorem mirrors_definition : MirrorsOn tokens (· = .keyword .defKw) n 1 (definition tokens) Reader.definition := by
  have hbody (proto : Prototype) (start : Span) : Mirrors tokens (n - 1) 0
      (phrase tokens .expression >>= fun body =>
        previous tokens >>= fun t => pure (Tree.function proto body (start.cover t.span)))
      (Reader.wholeExpression >>= fun body => get >>= fun c => pure (Tree.function proto body (start.cover c.last))) :=
    (mirrors_previous (g := fun body stop => Tree.function proto body (start.cover stop))
      (mirrors_expression (n - 1))).weaken
  refine .advance (by simp) fun t => mirrors_prototype.weaken.followed fun proto => ?_
  simp only [discard_bind, Reader.discard_bind]
  exact .accept (by simp) ((hbody proto t.span).mono (Nat.sub_le _ 1) (Nat.le_refl 0)) (hbody proto t.span)

theorem mirrors_globalVariable :
    MirrorsOn tokens (· = .keyword .globalKw) n 1 (globalVariable tokens) Reader.globalVariable := by
  refine .advance (by simp) fun t => ?_
  exact (mirrors_previous (g := fun name stop => Tree.global name (t.span.cover stop)) (.identifier _)).weaken

theorem mirrors_item : Mirrors tokens n 1 (item tokens) Reader.item := by
  have hfail (kind : TokenKind) : MirrorsOn tokens (· = kind) n 1
      (fail tokens .expectedDeclaration "expected `def`, `extern` or `global`" : Routine Tree)
      (Reader.fail .expectedDeclaration "expected `def`, `extern` or `global`") := .fail _ _
  refine .peek fun kind _ => ?_
  cases kind with
  | keyword w =>
    cases w with
    | defKw => exact mirrors_definition
    | externKw =>
      simp only [discard_bind, Reader.discard_bind]
      exact .advance (by simp) fun _ => mirrors_prototype.weaken.followed fun proto => .pure (Tree.prototype proto)
    | globalKw => exact mirrors_globalVariable
    | _ => exact hfail _
  | _ => exact hfail _

end

/-! ## Programs -/

section

variable {α : Type} {q : Routine α} {p p' : Progress}

theorem attempt_of_value {a : α} (h : q.outcome p = some (.ok a, p')) :
    (attempt q).outcome p = some (.ok (some a), p') := by
  have hsome : (q >>= fun a => pure (some a)).outcome p = some (.ok (some a), p') := bind_of_value h
  show ((q >>= fun a => pure (some a)).run.run p >>= _) = _
  rw [show (q >>= fun a => pure (some a)).run.run p = _ from hsome]
  rfl

theorem attempt_of_failed (h : q.outcome p = some (.error .failed, p')) :
    (attempt q).outcome p = some (.ok none, p') := by
  have hfailed : (q >>= fun a => pure (some a)).outcome p = some (.error .failed, p') := bind_of_halt h
  show ((q >>= fun a => pure (some a)).run.run p >>= _) = _
  rw [show (q >>= fun a => pure (some a)).run.run p = _ from hfailed]
  rfl

end

theorem accept_of_next {t : Token} {rest : List Token} (h : c.At tokens i) (hc : c.rest = t :: rest)
    (ht : t.kind ≠ .endOfFile) : (accept tokens t.kind).outcome ⟨i, ds⟩ = some (.ok true, ⟨i + 1, ds⟩) := by
  rw [accept, bind_of_value (peek_outcome h), if_pos (kind_of_cons hc), discard_bind,
    bind_of_value (advance_outcome h hc ht)]
  rfl

theorem accept_of_ne {kind : TokenKind} (h : c.At tokens i) (hkind : c.kind ≠ kind) :
    (accept tokens kind).outcome ⟨i, ds⟩ = some (.ok false, ⟨i, ds⟩) := by
  rw [accept, bind_of_value (peek_outcome h), if_neg hkind]
  rfl

/-- The position goes behind the next semicolon, as the cursor does. -/
theorem synchronize_outcome (h : c.At tokens i) : ∃ j, i ≤ j ∧ c.recover.At tokens j ∧
    c.recover.rest.length ≤ c.rest.length - 1 ∧
    ∀ ds, (synchronize tokens).outcome ⟨i, ds⟩ = some (.ok (), ⟨j, ds⟩) := by
  induction hrest : c.rest generalizing c i with
  | nil =>
    have hrecover : c.recover.rest = [] := by rw [recover, hrest, afterSemicolon]
    refine ⟨i, Nat.le_refl i, h.congr (hrecover.trans hrest.symm) rfl, by simp [hrecover], fun ds => ?_⟩
    rw [synchronize_eq, synchronizeWith, bind_of_value (peek_outcome h), if_pos (kind_of_nil hrest)]
    rfl
  | cons t rest ih =>
    have ht : t.kind ≠ .endOfFile := h.1 t (hrest ▸ List.mem_cons_self)
    have hadvance : c.advance.At tokens (i + 1) := h.passes (.single hrest)
    have hadvance_rest : c.advance.rest = rest := by rw [advance_of_cons hrest]
    have hadvance_stop : c.advance.stop = c.stop := by rw [advance_of_cons hrest]
    have hround (ds : List Diagnostic) : (synchronize tokens).outcome ⟨i, ds⟩ =
        (if t.kind = .symbol .semicolon then pure () else synchronize tokens : Routine Unit).outcome ⟨i + 1, ds⟩ := by
      nth_rewrite 1 [synchronize_eq]
      rw [synchronizeWith, bind_of_value (peek_outcome h), if_neg (kind_of_cons hrest ▸ ht),
        bind_of_value (advance_outcome h hrest ht)]
    by_cases hsemi : t.kind = .symbol .semicolon
    · have hrecover : c.recover.rest = rest := by rw [recover, hrest, afterSemicolon, if_pos hsemi]
      refine ⟨i + 1, Nat.le_succ i, hadvance.congr (hrecover.trans hadvance_rest.symm) hadvance_stop.symm,
        by rw [hrecover]; exact Nat.le_refl _, fun ds => ?_⟩
      rw [hround, if_pos hsemi]
      rfl
    · have hrecover : c.recover.rest = c.advance.recover.rest := by
        rw [recover, recover, hrest, afterSemicolon, if_neg hsemi, hadvance_rest]
      obtain ⟨j, hj, hat, hlength, hout⟩ := ih hadvance hadvance_rest
      refine ⟨j, by omega, hat.congr hrecover hadvance_stop.symm, ?_, fun ds => by rw [hround, if_neg hsemi, hout]⟩
      rw [hrecover]
      exact Nat.le_trans hlength (Nat.sub_le _ 1)

theorem program_of_end (h : c.At tokens i) (hend : c.kind = .endOfFile) :
    (program tokens).outcome ⟨i, ds⟩ = some (.ok [], ⟨i, ds⟩) := by
  rw [program_eq, programWith, bind_of_value (peek_outcome h), if_pos hend]
  rfl

theorem program_of_semicolon {t : Token} {rest : List Token} (h : c.At tokens i) (hc : c.rest = t :: rest)
    (hsemi : t.kind = .symbol .semicolon) :
    (program tokens).outcome ⟨i, ds⟩ = (program tokens).outcome ⟨i + 1, ds⟩ := by
  have haccept : (accept tokens (.symbol .semicolon)).outcome ⟨i, ds⟩ = some (.ok true, ⟨i + 1, ds⟩) := by
    rw [← hsemi]
    exact accept_of_next h hc (by simp [hsemi])
  nth_rewrite 1 [program_eq]
  rw [programWith, bind_of_value (peek_outcome h), if_neg (by simp [kind_of_cons hc, hsemi]), bind_of_value haccept]
  rfl

/-- Behind a declaration. -/
theorem separator_outcome (h : c.At tokens i) : ∃ ds' c' j, i ≤ j ∧ c'.At tokens j ∧ c'.rest.length ≤ c.rest.length ∧
    (∀ c₀ t, Reader.item c₀ = .ok t c → Round c₀ ⟨[t], ds'⟩ c') ∧
    ∀ ds, (separator tokens).outcome ⟨i, ds⟩ = some (.ok (), ⟨j, ds ++ ds'⟩) := by
  by_cases hend : c.kind = .endOfFile
  · refine ⟨[], c, i, Nat.le_refl i, h, Nat.le_refl _, fun c₀ t hitem => .last hitem hend, fun ds => ?_⟩
    rw [separator, bind_of_value (peek_outcome h), if_pos hend, List.append_nil]
    rfl
  have hseparator (ds : List Diagnostic) : (separator tokens).outcome ⟨i, ds⟩ =
      (attempt (expect tokens (.symbol .semicolon) "expected `;` after declaration") >>= fun ended =>
        if ended.isSome then pure () else synchronize tokens).outcome ⟨i, ds⟩ := by
    rw [separator, bind_of_value (peek_outcome h), if_neg hend]
    congr 2
    funext ended
    cases ended <;> rfl
  by_cases hsemi : c.kind = .symbol .semicolon
  · obtain ⟨t, rest, hrest, ht⟩ := exists_cons hsemi (by simp)
    refine ⟨[], c.advance, i + 1, Nat.le_succ i, h.passes (.single hrest), ?_, fun c₀ t hitem => .ended hitem hsemi,
      fun ds => ?_⟩
    · rw [advance_of_cons hrest, hrest]
      exact Nat.le_succ _
    · have hexpect : (expect tokens (.symbol .semicolon) "expected `;` after declaration").outcome ⟨i, ds⟩ =
          some (.ok t.span, ⟨i + 1, ds⟩) := by
        rw [expect, bind_of_value (peek_outcome h), if_pos hsemi,
          bind_of_value (advance_outcome h hrest (by simp [ht]))]
        rfl
      rw [hseparator, bind_of_value (attempt_of_value hexpect), List.append_nil]
      rfl
  · obtain ⟨j, hj, hrecover, hlength, hsync⟩ := synchronize_outcome h
    refine ⟨_, c.recover, j, hj, hrecover, by omega, fun c₀ t hitem => .trailed hitem hend hsemi, fun ds => ?_⟩
    have hexpect : (expect tokens (.symbol .semicolon) "expected `;` after declaration").outcome ⟨i, ds⟩ =
        some (.error .failed, ⟨i, ds ++ [c.unexpected .unexpectedToken "expected `;` after declaration"]⟩) := by
      rw [expect, bind_of_value (peek_outcome h), if_neg hsemi]
      exact fail_outcome h _ _
    rw [hseparator, bind_of_value (attempt_of_failed hexpect)]
    exact hsync _

/-- One round of the program: what it finds goes in front of what is found from there on. -/
theorem round_outcome (h : c.At tokens i) (hend : c.kind ≠ .endOfFile) (hsemi : c.kind ≠ .symbol .semicolon)
    (ds : List Diagnostic) : ∃ p c' j, Round c p c' ∧ i ≤ j ∧ c'.At tokens j ∧ c'.rest.length < c.rest.length ∧
      (program tokens).outcome ⟨i, ds⟩ =
        (program tokens >>= fun items => pure (p.items ++ items)).outcome ⟨j, ds ++ p.diagnostics⟩ := by
  have hpos : 0 < c.rest.length := List.length_pos_iff.2 fun hnil => hend (kind_of_nil hnil)
  have hitem := mirrors_item ds h trivial (Nat.lt_succ_self _)
  generalize hq : (item tokens).outcome ⟨i, ds⟩ = out at hitem
  generalize hr : Reader.item c = result at hitem
  cases hitem with
  | @error ts c' hp code message =>
    obtain ⟨j, hj, hrecover, hshort, hsync⟩ := synchronize_outcome (h.passes hp)
    have hlength : c.rest.length = ts.length + c'.rest.length := by rw [hp.rest_eq, List.length_append]
    refine ⟨_, _, j, .failed hr, by omega, hrecover, by omega, ?_⟩
    nth_rewrite 1 [program_eq]
    rw [programWith, bind_of_value (peek_outcome h), if_neg hend, bind_of_value (accept_of_ne h hsemi)]
    show (attempt (item tokens) >>= _).outcome _ = _
    rw [bind_of_value (attempt_of_failed hq)]
    show (synchronize tokens >>= fun _ => program tokens).outcome _ = _
    rw [bind_of_value (hsync _)]
    simp
  | @ok ts c' hp hk t =>
    obtain ⟨ds', c'', j, hj, hat, hle, hround, hseparator⟩ := separator_outcome (h.passes hp)
    have hlength : c.rest.length = ts.length + c'.rest.length := by rw [hp.rest_eq, List.length_append]
    refine ⟨_, c'', j, hround c t hr, by omega, hat, by omega, ?_⟩
    nth_rewrite 1 [program_eq]
    rw [programWith, bind_of_value (peek_outcome h), if_neg hend, bind_of_value (accept_of_ne h hsemi)]
    show (attempt (item tokens) >>= _).outcome _ = _
    rw [bind_of_value (attempt_of_value hq)]
    show (separator tokens >>= fun _ => program tokens >>= fun items => pure (t :: items)).outcome _ = _
    rw [bind_of_value (hseparator ds)]
    rfl

theorem program_outcome {n : Nat} (h : c.At tokens i) (hn : c.rest.length ≤ n) (ds : List Diagnostic) :
    ∃ j, i ≤ j ∧ j < tokens.length ∧ (program tokens).outcome ⟨i, ds⟩ =
      some (.ok (parseFrom n c).items, ⟨j, ds ++ (parseFrom n c).diagnostics⟩) := by
  induction n generalizing c i ds with
  | zero =>
    have hend : c.kind = .endOfFile := kind_of_nil (List.eq_nil_of_length_eq_zero (Nat.le_zero.1 hn))
    exact ⟨i, Nat.le_refl i, h.lt_length, by rw [program_of_end h hend, parseFrom_of_end hend]; simp [Parsed.empty]⟩
  | succ n ih =>
    by_cases hend : c.kind = .endOfFile
    · exact ⟨i, Nat.le_refl i, h.lt_length, by rw [program_of_end h hend, parseFrom_of_end hend]; simp [Parsed.empty]⟩
    by_cases hsemi : c.kind = .symbol .semicolon
    · obtain ⟨t, rest, hrest, ht⟩ := exists_cons hsemi (by simp)
      have hlength : c.advance.rest.length ≤ n := by
        rw [hrest, List.length_cons] at hn
        rw [advance_of_cons hrest]
        exact Nat.le_of_succ_le_succ hn
      obtain ⟨j, hj, hlt, hout⟩ := ih (h.passes (.single hrest)) hlength ds
      rw [parseFrom_of_semicolon hsemi]
      exact ⟨j, Nat.le_of_succ_le hj, hlt, (program_of_semicolon h hrest ht).trans hout⟩
    · obtain ⟨p, c', j, hround, hij, hat, hlength, hout⟩ := round_outcome h hend hsemi ds
      obtain ⟨j', hj', hlt, hrest⟩ := ih hat (by omega) (ds ++ p.diagnostics)
      refine ⟨j', Nat.le_trans hij hj', hlt, ?_⟩
      rw [hout, bind_of_value hrest, hround.parseFrom_eq hend hsemi, List.append_assoc]
      rfl

/-! ## Every token list -/

/-- The routines that give a part of the program, each with the kinds of the token it is called in front of. -/
inductive Part : {α : Type} → (TokenKind → Prop) → (List Token → Routine α) → Prop
  | identifier (message : String) : Part (fun _ => True) (identifier · message)
  | expect {kind : TokenKind} (hkind : kind ≠ .endOfFile) (message : String) :
    Part (fun _ => True) (expect · kind message)
  | expression : Part (fun _ => True) (phrase · .expression)
  | assignment : Part (fun _ => True) (phrase · .assignment)
  | disjunction : Part (fun _ => True) (phrase · .disjunction)
  | conjunction : Part (fun _ => True) (phrase · .conjunction)
  | inversion : Part (fun _ => True) (phrase · .inversion)
  | comparison : Part (fun _ => True) (phrase · .comparison)
  | sum : Part (fun _ => True) (phrase · .sum)
  | product : Part (fun _ => True) (phrase · .product)
  | negation : Part (fun _ => True) (phrase · .negation)
  | primary : Part (fun _ => True) (phrase · .primary)
  | arguments : Part (fun _ => True) (phrase · .arguments)
  | parenthesized : Part (fun _ => True) (phrase · .parenthesized)
  | statements : Part (fun _ => True) (phrase · .statements)
  | conditional : Part (fun _ => True) (phrase · .conditional)
  | block : Part (fun _ => True) (phrase · .block)
  | binding : Part (fun _ => True) (phrase · .binding)
  | forLoop : Part (fun _ => True) (phrase · .forLoop)
  | prototype : Part (fun _ => True) prototype
  | definition : Part (· = .keyword .defKw) definition
  | globalVariable : Part (· = .keyword .globalKw) globalVariable
  | item : Part (fun _ => True) item

theorem Part.exists_mirrors {α : Type} {K : TokenKind → Prop} {q : List Token → Routine α} (h : Part K q)
    (tokens : List Token) (n : Nat) : ∃ r, MirrorsOn tokens K n 1 (q tokens) r := by
  have he : Mirrors tokens n 1 (phrase tokens .expression) Reader.wholeExpression := mirrors_expression n
  have he' : Mirrors tokens (n - 1) 1 (phrase tokens .expression) Reader.wholeExpression := mirrors_expression (n - 1)
  cases h with
  | identifier message => exact ⟨_, .identifier message⟩
  | expect hkind message => exact ⟨_, .expect hkind message⟩
  | expression => exact ⟨_, he⟩
  | assignment => exact ⟨_, mirrors_assignment he'⟩
  | disjunction => exact ⟨_, mirrors_disjunction he'⟩
  | conjunction => exact ⟨_, mirrors_conjunction he'⟩
  | inversion => exact ⟨_, mirrors_inversion he'⟩
  | comparison => exact ⟨_, mirrors_comparison he'⟩
  | sum => exact ⟨_, mirrors_sum he'⟩
  | product => exact ⟨_, mirrors_product he'⟩
  | negation => exact ⟨_, mirrors_negation he'⟩
  | primary => exact ⟨_, mirrors_primary he'⟩
  | arguments => exact ⟨_, mirrors_arguments he⟩
  | parenthesized => exact ⟨_, mirrors_parenthesized he⟩
  | statements => exact ⟨_, mirrors_statements he⟩
  | conditional => exact ⟨_, mirrors_conditional he⟩
  | block => exact ⟨_, mirrors_block he⟩
  | binding => exact ⟨_, mirrors_binding he⟩
  | forLoop => exact ⟨_, mirrors_forLoop he⟩
  | prototype => exact ⟨_, mirrors_prototype⟩
  | definition => exact ⟨_, mirrors_definition⟩
  | globalVariable => exact ⟨_, mirrors_globalVariable⟩
  | item => exact ⟨_, mirrors_item⟩

end Routine

/-- The tokens up to the first end of the file, and that. -/
def upToEnd : List Token → List Token
  | [] => []
  | t :: ts => if t.isEndOfFile then [t] else t :: upToEnd ts

theorem closed_cases (tokens : List Token) :
    (∃ front stop, tokens = front ++ [⟨.endOfFile, stop⟩] ∧ closed tokens = tokens) ∨
      ∃ stop, closed tokens = tokens ++ [⟨.endOfFile, stop⟩] := by
  rcases List.eq_nil_or_concat tokens with rfl | ⟨front, t, rfl⟩
  · exact .inr ⟨{}, rfl⟩
  · by_cases ht : t.isEndOfFile = true
    · exact .inl ⟨front, t.span, by rw [← Token.isEndOfFile_iff.1 ht, List.concat_eq_append],
        by simp [closed, ht]⟩
    · exact .inr ⟨.point t.span.stop t.span.file, by simp [closed, ht]⟩

/-- A list has no end of the file, or is cut at its first one. -/
theorem noEnd_or_exists_end (tokens : List Token) :
    NoEnd tokens ∨ ∃ rest stop after, tokens = rest ++ ⟨.endOfFile, stop⟩ :: after ∧ NoEnd rest := by
  induction tokens with
  | nil => exact .inl .nil
  | cons t ts ih =>
    by_cases ht : t.kind = .endOfFile
    · exact .inr ⟨[], t.span, ts, by rw [← ht]; rfl, .nil⟩
    · rcases ih with hts | ⟨rest, stop, after, rfl, hrest⟩
      · exact .inl (.cons rfl ht hts)
      · exact .inr ⟨t :: rest, stop, after, rfl, .cons rfl ht hrest⟩

/-- A position in a list with an end of the file behind it is one of a cursor. -/
theorem exists_at {tokens : List Token} {i : Nat} (h : i < (closed tokens).length) :
    ∃ c : Cursor, c.At (closed tokens) i := by
  obtain ⟨front, stop, hclosed⟩ : ∃ front stop, closed tokens = front ++ [⟨.endOfFile, stop⟩] := by
    rcases closed_cases tokens with ⟨front, stop, htokens, hclosed⟩ | ⟨stop, hclosed⟩
    · exact ⟨front, stop, hclosed.trans htokens⟩
    · exact ⟨tokens, stop, hclosed⟩
  have hmem : ⟨.endOfFile, stop⟩ ∈ (closed tokens).drop i := by
    rw [hclosed, List.length_append] at h
    rw [hclosed, List.drop_append_of_le_length (Nat.le_of_lt_succ h)]
    simp
  rcases noEnd_or_exists_end ((closed tokens).drop i) with hnone | ⟨rest, stop', after, hdrop, hrest⟩
  · exact absurd rfl (hnone _ hmem)
  · refine ⟨⟨rest, {}, stop'⟩, hrest, (closed tokens).take i, after, ?_, List.length_take_of_le (Nat.le_of_lt h)⟩
    rw [← hdrop, List.take_append_drop]

theorem NoEnd.isEndOfFile_eq {tokens : List Token} (h : NoEnd tokens) : ∀ t ∈ tokens, t.isEndOfFile = false :=
  fun t ht => by simpa [Token.isEndOfFile] using h t ht

theorem ofTokens_of_end {rest : List Token} (hrest : NoEnd rest) (stop : Span) (after : List Token) :
    Cursor.ofTokens (rest ++ ⟨.endOfFile, stop⟩ :: after) = ⟨rest, {}, stop⟩ := by
  have hend : (⟨.endOfFile, stop⟩ : Token).isEndOfFile = true := rfl
  have hfind : (rest ++ ⟨.endOfFile, stop⟩ :: after).find? Token.isEndOfFile = some ⟨.endOfFile, stop⟩ := by
    rw [List.find?_append, List.find?_eq_none.2 (by simpa using hrest.isEndOfFile_eq), List.find?_cons_of_pos hend]
    rfl
  have htake : (rest ++ ⟨.endOfFile, stop⟩ :: after).takeWhile (!·.isEndOfFile) = rest := by
    rw [List.takeWhile_append_of_pos (by simpa using hrest.isEndOfFile_eq), List.takeWhile_cons_of_neg (by simp [hend]),
      List.append_nil]
  rw [Cursor.ofTokens, hfind, htake]

theorem closed_of_noEnd {tokens : List Token} (h : NoEnd tokens) : (Cursor.ofTokens tokens).rest = tokens ∧
    closed tokens = tokens ++ [⟨.endOfFile, (Cursor.ofTokens tokens).stop⟩] := by
  have hrest : (Cursor.ofTokens tokens).rest = tokens := by
    simpa using Cursor.rest_ofTokens h (.inl rfl : Optional .endOfFile [])
  refine ⟨hrest, ?_⟩
  have hfind : tokens.find? Token.isEndOfFile = none := List.find?_eq_none.2 (by simpa using h.isEndOfFile_eq)
  rcases List.eq_nil_or_concat tokens with rfl | ⟨front, t, rfl⟩
  · rfl
  · have ht : t.isEndOfFile = false := h.isEndOfFile_eq t (by simp)
    simp only [Cursor.ofTokens, hfind]
    simp [closed, ht]

theorem ofTokens_at (tokens : List Token) : (Cursor.ofTokens tokens).At (closed tokens) 0 := by
  rcases noEnd_or_exists_end tokens with hnone | ⟨rest, stop, after, rfl, hrest⟩
  · obtain ⟨hrest, hclosed⟩ := closed_of_noEnd hnone
    exact ⟨by rwa [hrest], [], [], by rw [hclosed, hrest]; rfl, rfl⟩
  · rw [ofTokens_of_end hrest]
    rcases closed_cases (rest ++ ⟨.endOfFile, stop⟩ :: after) with ⟨-, -, -, hclosed⟩ | ⟨stop', hclosed⟩
    · exact ⟨hrest, [], after, hclosed, rfl⟩
    · exact ⟨hrest, [], after ++ [⟨.endOfFile, stop'⟩], by simp [hclosed], rfl⟩

theorem upToEnd_append {rest : List Token} (hrest : NoEnd rest) (ts : List Token) :
    upToEnd (rest ++ ts) = rest ++ upToEnd ts := by
  induction rest with
  | nil => rfl
  | cons t rest ih =>
    obtain ⟨ht, hrest⟩ := List.forall_mem_cons.1 hrest
    have hne : ¬t.isEndOfFile = true := fun hend => ht (Token.isEndOfFile_iff.1 hend)
    rw [List.cons_append, upToEnd, if_neg hne, ih hrest, List.cons_append]

theorem ofTokens_upToEnd (tokens : List Token) : Cursor.ofTokens (upToEnd tokens) = Cursor.ofTokens tokens := by
  rcases noEnd_or_exists_end tokens with hnone | ⟨rest, stop, after, rfl, hrest⟩
  · rw [← List.append_nil tokens, upToEnd_append hnone]
    rfl
  · have hcut : upToEnd (rest ++ ⟨.endOfFile, stop⟩ :: after) = rest ++ [⟨.endOfFile, stop⟩] := upToEnd_append hrest _
    rw [hcut, ofTokens_of_end hrest, ofTokens_of_end hrest]

/-- The parser ends on every token list and looks at no token outside of it. Its items and diagnostics are those of the
readers, and those of the tokens up to the first end of the file. From every position, a routine that gives a part of
the program ends inside the list. It gives the part behind that position and records nothing, or it fails, not before
the position, and records one diagnostic. -/
theorem parser_ends_inside (tokens : List Token) :
    (∃ i < (closed tokens).length,
      Routine.parse tokens = some (.ok (parse tokens).items, ⟨i, (parse tokens).diagnostics⟩)) ∧
    parse (upToEnd tokens) = parse tokens ∧
    ∀ {α : Type} {K : TokenKind → Prop} {q : List Token → Routine α}, Routine.Part K q →
      ∀ (i : Nat) (t : Token) (ds : List Diagnostic), (closed tokens)[i]? = some t → K t.kind →
        ∃ j < (closed tokens).length,
          (∃ a, (q (closed tokens)).outcome ⟨i, ds⟩ = some (.ok a, ⟨j, ds⟩) ∧ i < j) ∨
          (∃ d, (q (closed tokens)).outcome ⟨i, ds⟩ = some (.error .failed, ⟨j, ds ++ [d]⟩) ∧ i ≤ j) := by
  refine ⟨?_, ?_, ?_⟩
  · obtain ⟨j, -, hlt, hout⟩ := Routine.program_outcome (ofTokens_at tokens) (Nat.le_refl _) []
    exact ⟨j, hlt, hout⟩
  · rw [parse, parse, ofTokens_upToEnd]
  · intro α K q hq i t ds ht hK
    obtain ⟨hi, -⟩ := List.getElem?_eq_some_iff.1 ht
    obtain ⟨c, hc⟩ := exists_at hi
    obtain rfl : t = ⟨c.kind, c.span⟩ := Option.some.inj (ht.symm.trans hc.getElem?)
    obtain ⟨r, hr⟩ := hq.exists_mirrors (closed tokens) (c.rest.length + 1)
    have hend := hr ds hc hK (Nat.lt_succ_self _)
    generalize (q (closed tokens)).outcome ⟨i, ds⟩ = out at hend ⊢
    generalize r c = result at hend
    cases hend with
    | ok hp hk a => exact ⟨_, (hc.passes hp).lt_length, .inl ⟨a, rfl, by omega⟩⟩
    | error hp code message => exact ⟨_, (hc.passes hp).lt_length, .inr ⟨_, rfl, by omega⟩⟩

/-- `global`, an end of the file and a semicolon behind it: the name is missing in front of the end. -/
theorem parser_ends_inside_cut : ∃ tokens : List Token,
    tokens = [⟨.keyword .globalKw, {}⟩, ⟨.endOfFile, {}⟩, ⟨.symbol .semicolon, {}⟩] ∧
      (closed tokens)[0]? = some ⟨.keyword .globalKw, {}⟩ ∧ (parse tokens).diagnostics.length = 1 ∧
      ∃ j < (closed tokens).length,
        (∃ a, (Routine.globalVariable (closed tokens)).outcome ⟨0, []⟩ = some (.ok a, ⟨j, []⟩) ∧ 0 < j) ∨
        (∃ d, (Routine.globalVariable (closed tokens)).outcome ⟨0, []⟩ = some (.error .failed, ⟨j, [d]⟩) ∧ 0 ≤ j) :=
  ⟨_, rfl, rfl, by decide, (parser_ends_inside _).2.2 .globalVariable 0 _ [] rfl rfl⟩

end Monofloat
