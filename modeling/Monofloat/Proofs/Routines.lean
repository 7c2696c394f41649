import Mathlib.Data.Nat.Find
import Monofloat.Tree.Program

/-!
# Parsing by position

The readers take tokens off a list and have bounds on their depth and on their rounds. Here is the same parser as a
machine without bounds. It keeps a position in the token list and the diagnostics recorded so far, and looks at tokens
by their index. A `Routine` that goes on forever has no outcome, one that looks outside of the list is halted, and one
that fails has recorded why and leaves the position where it is. There is a routine for each reader, and they call each
other in the same way. Those for expressions need each other, so they are one family, `phrase`, whose members are told
apart by what they read.

Nothing says that a recursion ends, so it is first cut off at a depth. `recursive` is what comes of that as the depth
grows, and it solves its own equation (`recursive_eq`).
-/

namespace Monofloat

/-- How far the machine has come. -/
structure Progress where
  position : Nat := 0
  /-- What has been recorded, the oldest first. -/
  diagnostics : List Diagnostic := []

/-- Why a routine gives no value. -/
inductive Halt where
  /-- A diagnostic has been recorded. -/
  | failed
  /-- There is no token with this index. -/
  | outside (index : Nat)

/-- A part of the machine. -/
abbrev Routine := ExceptT Halt (StateT Progress Option)

/-- The tokens with an end of the file behind the last one, unless that is one. -/
def closed (tokens : List Token) : List Token :=
  match tokens.getLast? with
  | none => [⟨.endOfFile, {}⟩]
  | some t => if t.isEndOfFile then tokens else tokens ++ [⟨.endOfFile, .point t.span.stop t.span.file⟩]

namespace Routine

/-- What comes of a routine, if it ends. -/
def outcome {α : Type} (q : Routine α) (p : Progress) : Option (Except Halt α × Progress) := q.run.run p

/-! ## Sequences -/

section

variable {α β : Type} {q : Routine α} {g : α → Routine β} {p p' : Progress}

theorem bind_of_value {a : α} (h : q.outcome p = some (.ok a, p')) : (q >>= g).outcome p = (g a).outcome p' := by
  show (q.run p >>= _) = _
  rw [show q.run p = _ from h]
  rfl

theorem bind_of_halt {e : Halt} (h : q.outcome p = some (.error e, p')) :
    (q >>= g).outcome p = some (.error e, p') := by
  show (q.run p >>= _) = _
  rw [show q.run p = _ from h]
  rfl

theorem bind_of_none (h : q.outcome p = none) : (q >>= g).outcome p = none := by
  show (q.run p >>= _) = _
  rw [show q.run p = _ from h]
  rfl

theorem discard_bind (q : Routine α) (g : PUnit → Routine β) : discard q >>= g = q >>= fun _ => g ⟨⟩ := by
  simp [discard, LawfulFunctor.map_const]

end

/-! ## Recursion -/

section

universe u

variable {α β : Type} {ι : Type u} {τ : ι → Type}

/-- Routines that can be called by an index. -/
abbrev Family (τ : ι → Type) := (i : ι) → Routine (τ i)

/-- The family whose members call each other as `body` says, where a call inside of `depth` others never ends. -/
def nested (body : Family τ → Family τ) : Nat → Family τ
  | 0, _ => ExceptT.mk fun _ => none
  | depth + 1, i => body (nested body depth) i

open Classical in
/-- The family whose members call each other as `body` says. One of them ends if it does with some bound on the
depth of the calls. -/
noncomputable def recursive (body : Family τ → Family τ) : Family τ := fun i => ExceptT.mk fun p =>
  if h : ∃ depth, ((nested body depth i).outcome p).isSome then (nested body (Nat.find h) i).outcome p else none

/-- The routines have no outcome before some depth, and that of `q` from there on. -/
def Approach (qs : Nat → Routine α) (q : Routine α) : Prop :=
  ∀ p, ∃ least, ∀ depth, (qs depth).outcome p = if least ≤ depth then q.outcome p else none

namespace Approach

variable {qs qs' : Nat → Routine α} {q q' : Routine α}

theorem const (q : Routine α) : Approach (fun _ => q) q := fun _ => ⟨0, fun _ => rfl⟩

theorem bind {gs : Nat → α → Routine β} {g : α → Routine β} (hq : Approach qs q)
    (hg : ∀ a, Approach (fun n => gs n a) (g a)) : Approach (fun n => qs n >>= gs n) (q >>= g) := by
  intro p
  obtain ⟨least, hleast⟩ := hq p
  have hnone {n : Nat} (hn : ¬least ≤ n) : (qs n >>= gs n).outcome p = none :=
    bind_of_none ((hleast n).trans (if_neg hn))
  have hsame {n : Nat} (hn : least ≤ n) : (qs n).outcome p = q.outcome p := (hleast n).trans (if_pos hn)
  rcases h : q.outcome p with _ | ⟨e | a, p'⟩
  · refine ⟨least, fun n => ?_⟩
    split
    case isTrue hn => rw [bind_of_none ((hsame hn).trans h), bind_of_none h]
    case isFalse hn => exact hnone hn
  · refine ⟨least, fun n => ?_⟩
    split
    case isTrue hn => rw [bind_of_halt ((hsame hn).trans h), bind_of_halt h]
    case isFalse hn => exact hnone hn
  · obtain ⟨least', hleast'⟩ := hg a p'
    refine ⟨max least least', fun n => ?_⟩
    by_cases hn : least ≤ n
    · simp only [bind_of_value ((hsame hn).trans h), bind_of_value h, hleast' n, Nat.max_le, hn, true_and]
    · rw [hnone hn, if_neg (by omega)]

/-- Behind a routine without calls. -/
theorem after (q : Routine α) {gs : Nat → α → Routine β} {g : α → Routine β}
    (hg : ∀ a, Approach (fun n => gs n a) (g a)) : Approach (fun n => q >>= gs n) (q >>= g) := (const q).bind hg

theorem ite {P : Prop} [Decidable P] (h : Approach qs q) (h' : Approach qs' q') :
    Approach (fun n => if P then qs n else qs' n) (if P then q else q') := by
  split
  · exact h
  · exact h'

/-- The same without the first of the routines. -/
theorem tail (h : Approach qs q) : Approach (fun n => qs (n + 1)) q := by
  intro p
  obtain ⟨least, hleast⟩ := h p
  exact ⟨least - 1, fun n => by simp only [hleast, Nat.sub_le_iff_le_add]⟩

theorem unique (h : Approach qs q) (h' : Approach qs q') : q = q' := by
  refine ExceptT.ext (StateT.ext fun p => ?_)
  obtain ⟨least, hleast⟩ := h p
  obtain ⟨least', hleast'⟩ := h' p
  have heq := hleast (max least least')
  rw [hleast', if_pos (Nat.le_max_left _ _), if_pos (Nat.le_max_right _ _)] at heq
  exact heq.symm

end Approach

/-- Where the calls approach those of a family, so does what is made of them. -/
def Continuous (body : Family τ → Family τ) : Prop :=
  ∀ {calls : Nat → Family τ} {call : Family τ}, (∀ i, Approach (fun n => calls n i) (call i)) →
    ∀ i, Approach (fun n => body (calls n) i) (body call i)

variable {body : Family τ → Family τ} {depth depth' : Nat} {i : ι} {p : Progress}

/-- An outcome stays when the bound on the depth grows. -/
theorem nested_succ (hbody : Continuous body) (h : ((nested body depth i).outcome p).isSome) :
    (nested body (depth + 1) i).outcome p = (nested body depth i).outcome p := by
  induction depth generalizing i p with
  | zero => exact nomatch h
  | succ depth ih =>
    -- the calls of the two sides approach those of the left one, in one step
    have hcalls (i : ι) : Approach (fun n => nested body (depth + min n 1) i) (nested body (depth + 1) i) := by
      intro p
      cases hend : (nested body depth i).outcome p with
      | none =>
        refine ⟨1, fun n => ?_⟩
        cases n with
        | zero => exact hend
        | succ n => simp
      | some o =>
        refine ⟨0, fun n => ?_⟩
        cases n with
        | zero => exact (ih (by rw [hend]; rfl)).symm
        | succ n => simp
    obtain ⟨least, hleast⟩ := hbody hcalls i p
    have hfirst : (nested body (depth + 1) i).outcome p = _ := hleast 0
    by_cases hn : least ≤ 0
    · rw [if_pos hn] at hfirst
      exact hfirst.symm
    · rw [if_neg hn] at hfirst
      simp [hfirst] at h

theorem nested_of_le (hbody : Continuous body) (hle : depth ≤ depth') (h : ((nested body depth i).outcome p).isSome) :
    (nested body depth' i).outcome p = (nested body depth i).outcome p := by
  induction hle with
  | refl => rfl
  | step _ ih => rw [nested_succ hbody (by rwa [ih]), ih]

theorem approach_recursive (hbody : Continuous body) (i : ι) :
    Approach (fun depth => nested body depth i) (recursive body i) := by
  intro p
  by_cases h : ∃ depth, ((nested body depth i).outcome p).isSome
  · have hout : (recursive body i).outcome p = (nested body (Nat.find h) i).outcome p := dif_pos h
    refine ⟨Nat.find h, fun depth => ?_⟩
    split
    case isTrue hle => rw [hout, nested_of_le hbody hle (Nat.find_spec h)]
    case isFalse hlt => exact Option.not_isSome_iff_eq_none.1 (Nat.find_min h (Nat.lt_of_not_le hlt))
  · have hout : (recursive body i).outcome p = none := dif_neg h
    refine ⟨0, fun depth => ?_⟩
    rw [hout, ite_self]
    exact Option.not_isSome_iff_eq_none.1 (not_exists.1 h depth)

/-- The members do what `body` says with each other, at any depth. -/
theorem recursive_eq (hbody : Continuous body) (i : ι) : recursive body i = body (recursive body) i :=
  (approach_recursive hbody i).tail.unique (hbody (approach_recursive hbody) i)

/-- One routine that calls itself. -/
noncomputable def loop (body : Routine α → Routine α) : Routine α :=
  recursive (fun again (_ : Unit) => body (again ())) ()

theorem loop_eq {body : Routine α → Routine α}
    (hbody : ∀ {qs : Nat → Routine α} {q : Routine α}, Approach qs q → Approach (fun n => body (qs n)) (body q)) :
    loop body = body (loop body) :=
  recursive_eq (fun h _ => hbody (h ())) ()

end

variable (tokens : List Token)

/-! ## Tokens -/

def tokenAt (index : Nat) : Routine Token :=
  match tokens[index]? with
  | some t => return t
  | none => throw (.outside index)

/-- The token at the position. -/
def current : Routine Token := do tokenAt tokens (← get).position

/-- The token behind the one at the position. -/
def following : Routine Token := do tokenAt tokens ((← get).position + 1)

/-- The token before the position. -/
def previous : Routine Token := do tokenAt tokens ((← get).position - 1)

def peek : Routine TokenKind := do return (← current tokens).kind

/-- Goes to the next position, but not behind the end of the file, and gives the token before it. -/
def advance : Routine Token := do
  if (← peek tokens) ≠ .endOfFile then
    modify fun p => { p with position := p.position + 1 }
  previous tokens

/-- Records that the token at the position is not what the grammar wants. -/
def fail {α : Type} (code : Code) (message : String) : Routine α := do
  let t ← current tokens
  let d : Diagnostic := .errorAt code message t.span ("found `" ++ t.kind.spelling ++ "`")
  modify fun p => { p with diagnostics := p.diagnostics ++ [d] }
  throw .failed

/-- Passes the next token if it is a `kind`, and says whether it was. -/
def accept (kind : TokenKind) : Routine Bool := do
  if (← peek tokens) = kind then
    discard (advance tokens)
    return true
  else return false

/-- Passes a token that has to be a `kind`. -/
def expect (kind : TokenKind) (message : String) : Routine Span := do
  if (← peek tokens) = kind then return (← advance tokens).span
  else fail tokens .unexpectedToken message

def identifier (message : String) : Routine String := do
  match ← peek tokens with
  | .identifier name => do
    discard (advance tokens)
    return name
  | _ => fail tokens .expectedIdentifier message

/-! ## Expressions -/

/-- What can be read as a part of an expression, with the type of what it gives. -/
inductive Phrase : Type → Type 1
  | expression : Phrase Tree
  | assignment : Phrase Tree
  /-- Operands joined by left-associative operators; `join` says which tokens are operators. -/
  | chained (operand : Phrase Tree) (join : TokenKind → Option (Tree → Tree → Tree)) : Phrase Tree
  /-- The same behind the operands that are joined in `left`. -/
  | chainedFrom (operand : Phrase Tree) (join : TokenKind → Option (Tree → Tree → Tree)) (left : Tree) : Phrase Tree
  /-- `operand` behind any number of `kind` tokens, each of which wraps what follows it. -/
  | repeated (kind : TokenKind) (wrap : Tree → Tree) (operand : Phrase Tree) : Phrase Tree
  | primary : Phrase Tree
  | reference (name : String) : Phrase Tree
  | arguments : Phrase (List Tree)
  | parenthesized : Phrase Tree
  | statements : Phrase Tree
  | statementsFrom : Phrase (List Tree)
  | conditional : Phrase Tree
  | block : Phrase Tree
  | binding : Phrase (String × Tree)
  | loopHeader : Phrase (LoopHeader Tree)
  | forLoop : Phrase Tree
  | identifier (message : String) : Phrase String
  /-- One part or more, with a `separator` between them. -/
  | separated {α : Type} (separator : TokenKind) (part : Phrase α) : Phrase (List α)

namespace Phrase

def negation : Phrase Tree := repeated (.symbol .minus) (.unary .sub) primary

def product : Phrase Tree := chained negation Reader.productOperator?

def sum : Phrase Tree := chained product Reader.sumOperator?

def comparison : Phrase Tree := chained sum Reader.comparisonOperator?

def inversion : Phrase Tree := repeated (.keyword .notKw) (.unaryLogical .not) comparison

def conjunction : Phrase Tree := chained inversion Reader.andOperator?

def disjunction : Phrase Tree := chained conjunction Reader.orOperator?

end Phrase

/-- Reads a part of an expression, with `call` for the parts of it. -/
def phraseWith {α : Type} (call : {β : Type} → Phrase β → Routine β) : Phrase α → Routine α
  | .expression => call .assignment
  | .assignment => do
    if ← accept tokens (.symbol .plusPlus) then
      return .increment (← identifier tokens "expected variable name after `++`")
    else
      match ← peek tokens with
      | .identifier name => do
        if (← following tokens).kind = .symbol .equal then
          discard (advance tokens)
          discard (advance tokens)
          return .assign name (← call .expression)
        else call .disjunction
      | _ => call .disjunction
  | .chained operand join => do call (.chainedFrom operand join (← call operand))
  | .chainedFrom operand join left => do
    match join (← peek tokens) with
    | none => return left
    | some op => do
      discard (advance tokens)
      call (.chainedFrom operand join (op left (← call operand)))
  | .repeated kind wrap operand => do
    if ← accept tokens kind then return wrap (← call (.repeated kind wrap operand)) else call operand
  | .primary => do
    match ← peek tokens with
    | .number value => do discard (advance tokens); return .number value
    | .identifier name => do discard (advance tokens); call (.reference name)
    | .symbol .leftParen => do discard (advance tokens); call .parenthesized
    | .symbol .leftBrace => do discard (advance tokens); call .statements
    | .keyword .ifKw => do discard (advance tokens); call .conditional
    | .keyword .varKw => do discard (advance tokens); call .block
    | .keyword .forKw => do discard (advance tokens); call .forLoop
    | _ => fail tokens .expectedExpression "expected expression"
  | .reference name => do
    if ← accept tokens (.symbol .leftParen) then return .call name (← call .arguments) else return .var name
  | .arguments => do
    let args ← if (← peek tokens) = .symbol .rightParen then pure [] else call (.separated (.symbol .comma) .expression)
    discard (expect tokens (.symbol .rightParen) "expected `)` after arguments")
    return args
  | .parenthesized => do
    let inner ← call .expression
    discard (expect tokens (.symbol .rightParen) "expected `)` to close parenthesized expression")
    return inner
  | .statements => do
    let first ← call .expression
    let rest ← call .statementsFrom
    discard (expect tokens (.symbol .rightBrace) "expected `\x7d` to close block")
    return .statements first rest
  | .statementsFrom => do
    if ← accept tokens (.symbol .semicolon) then
      if (← peek tokens) = .symbol .rightBrace then return []
      else
        let first ← call .expression
        return first :: (← call .statementsFrom)
    else return []
  | .conditional => do
    let cond ← call .expression
    discard (expect tokens (.keyword .thenKw) "expected `then` after condition")
    let thenArm ← call .expression
    discard (expect tokens (.keyword .elseKw) "expected `else` branch")
    let elseArm ← call .expression
    return .conditional cond thenArm elseArm
  | .block => do
    let bindings ← call (.separated (.symbol .comma) .binding)
    discard (expect tokens (.keyword .inKw) "expected `in` after bindings")
    let body ← call .expression
    return .block bindings body
  | .binding => do
    let name ← identifier tokens "expected variable name"
    discard (expect tokens (.symbol .equal) "expected `=` in binding")
    let init ← call .expression
    return (name, init)
  | .loopHeader => do
    let fresh ← accept tokens (.keyword .varKw)
    let (name, init) ← call .binding
    return if fresh then .declare name init else .assign name init
  | .forLoop => do
    let header ← call .loopHeader
    discard (expect tokens (.symbol .comma) "expected `,` after loop initializer")
    let cond ← call .expression
    discard (expect tokens (.symbol .comma) "expected `,` after loop condition")
    let step ← call .expression
    discard (expect tokens (.keyword .inKw) "expected `in` before loop body")
    let body ← call .expression
    return .forLoop header cond step body
  | .identifier message => identifier tokens message
  | .separated separator part => do
    let first ← call part
    if ← accept tokens separator then return first :: (← call (.separated separator part)) else return [first]

theorem approach_phraseWith {α : Type} {calls : Nat → {β : Type} → Phrase β → Routine β}
    {call : {β : Type} → Phrase β → Routine β} (h : ∀ {β : Type} (q : Phrase β), Approach (fun n => calls n q) (call q))
    (p : Phrase α) : Approach (fun n => phraseWith tokens (calls n) p) (phraseWith tokens call p) := by
  cases p with
  | expression => exact h _
  | assignment =>
    refine .after _ fun found => .ite (.const _) (.after _ fun kind => ?_)
    split
    · exact .after _ fun t => .ite (.after _ fun _ => .after _ fun _ => (h _).bind fun _ => .const _) (h _)
    · exact h _
  | chained => exact (h _).bind fun _ => h _
  | chainedFrom operand join left =>
    refine .after _ fun kind => ?_
    cases join kind with
    | none => exact .const _
    | some op => exact .after _ fun _ => (h _).bind fun _ => h _
  | repeated => exact .after _ fun _ => .ite ((h _).bind fun _ => .const _) (h _)
  | primary =>
    refine .after _ fun kind => ?_
    split
    all_goals first | exact .const _ | exact .after _ fun _ => h _
  | reference => exact .after _ fun _ => .ite ((h _).bind fun _ => .const _) (.const _)
  | arguments => exact .after _ fun _ => .ite (.const _) ((h _).bind fun _ => .const _)
  | parenthesized => exact (h _).bind fun _ => .const _
  | statements => exact (h _).bind fun _ => (h _).bind fun _ => .const _
  | statementsFrom =>
    exact .after _ fun _ => .ite (.after _ fun _ => .ite (.const _)
      ((h _).bind fun _ => (h _).bind fun _ => .const _)) (.const _)
  | conditional =>
    exact (h _).bind fun _ => .after _ fun _ => (h _).bind fun _ => .after _ fun _ => (h _).bind fun _ => .const _
  | block => exact (h _).bind fun _ => .after _ fun _ => (h _).bind fun _ => .const _
  | binding => exact .after _ fun _ => .after _ fun _ => (h _).bind fun _ => .const _
  | loopHeader => exact .after _ fun _ => (h _).bind fun _ => .const _
  | forLoop =>
    exact (h _).bind fun _ => .after _ fun _ => (h _).bind fun _ => .after _ fun _ => (h _).bind fun _ =>
      .after _ fun _ => (h _).bind fun _ => .const _
  | identifier => exact .const _
  | separated => exact (h _).bind fun _ => .after _ fun _ => .ite ((h _).bind fun _ => .const _) (.const _)

/-- Reads a part of an expression. -/
noncomputable def phrase {α : Type} (p : Phrase α) : Routine α :=
  recursive (fun call (q : (β : Type) × Phrase β) => phraseWith tokens (fun p => call ⟨_, p⟩) q.2) ⟨α, p⟩

theorem phrase_eq {α : Type} (p : Phrase α) : phrase tokens p = phraseWith tokens (phrase tokens) p := by
  rw [phrase, recursive_eq fun h q => approach_phraseWith tokens (fun p => h ⟨_, p⟩) q.2]
  rfl

theorem phrase_expression : phrase tokens .expression = phrase tokens .assignment := by rw [phrase_eq, phraseWith]

theorem phrase_identifier (message : String) : phrase tokens (.identifier message) = identifier tokens message := by
  rw [phrase_eq, phraseWith]

/-! ## Declarations -/

noncomputable def prototype : Routine Prototype := do
  let start := (← current tokens).span
  let name ← identifier tokens "expected function name"
  discard (expect tokens (.symbol .leftParen) "expected `(` after function name")
  let params ← if (← peek tokens) = .symbol .rightParen then pure []
    else phrase tokens (.separated (.symbol .comma) (.identifier "expected parameter name"))
  let stop ← expect tokens (.symbol .rightParen) "expected `)` after parameters"
  return { name := name, params := params, span := start.cover stop }

noncomputable def definition : Routine Tree := do
  let start ← advance tokens
  let proto ← prototype tokens
  discard (accept tokens (.symbol .colon))
  let body ← phrase tokens .expression
  return .function proto body (start.span.cover (← previous tokens).span)

def globalVariable : Routine Tree := do
  let start ← advance tokens
  let name ← identifier tokens "expected global variable name"
  return .global name (start.span.cover (← previous tokens).span)

noncomputable def item : Routine Tree := do
  match ← peek tokens with
  | .keyword .defKw => definition tokens
  | .keyword .externKw => do
    discard (advance tokens)
    return .prototype (← prototype tokens)
  | .keyword .globalKw => globalVariable tokens
  | _ => fail tokens .expectedDeclaration "expected `def`, `extern` or `global`"

/-! ## Programs -/

/-- A routine whose failure is passed over. -/
def attempt {α : Type} (q : Routine α) : Routine (Option α) :=
  tryCatch (do return some (← q)) fun
    | .failed => return none
    | .outside index => throw (.outside index)

/-- Goes behind the next semicolon, or to the end, with `again` behind another token. -/
def synchronizeWith (again : Routine Unit) : Routine Unit := do
  if (← peek tokens) = .endOfFile then return ()
  else if (← advance tokens).kind = .symbol .semicolon then return ()
  else again

/-- Goes behind the next semicolon, or to the end. -/
noncomputable def synchronize : Routine Unit := loop (synchronizeWith tokens)

theorem synchronize_eq : synchronize tokens = synchronizeWith tokens (synchronize tokens) :=
  loop_eq fun h => .after _ fun _ => .ite (.const _) (.after _ fun _ => .ite (.const _) h)

/-- Behind a declaration: passes the semicolon that has to be there, or goes on behind the next one. -/
noncomputable def separator : Routine Unit := do
  if (← peek tokens) = .endOfFile then return ()
  else
    match ← attempt (expect tokens (.symbol .semicolon) "expected `;` after declaration") with
    | some _ => return ()
    | none => synchronize tokens

/-- The declarations from the position on, with `again` for those behind the first step. -/
noncomputable def programWith (again : Routine (List Tree)) : Routine (List Tree) := do
  if (← peek tokens) = .endOfFile then return []
  else if ← accept tokens (.symbol .semicolon) then again
  else
    match ← attempt (item tokens) with
    | none => do
      synchronize tokens
      again
    | some t => do
      separator tokens
      return t :: (← again)

/-- The declarations from the position on. -/
noncomputable def program : Routine (List Tree) := loop (programWith tokens)

theorem program_eq : program tokens = programWith tokens (program tokens) := by
  refine loop_eq fun h => .after _ fun _ => .ite (.const _) (.after _ fun _ => .ite h (.after _ fun tried => ?_))
  cases tried with
  | none => exact .after _ fun _ => h
  | some t => exact .after _ fun _ => h.bind fun _ => .const _

/-- What comes of parsing a token list from its start. -/
noncomputable def parse : Option (Except Halt (List Tree) × Progress) := (program (closed tokens)).outcome {}

end Routine

end Monofloat
