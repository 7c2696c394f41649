import Monofloat.Proofs.ControlFlow
import Monofloat.Proofs.ScopeFrame

/-!
# Variables that may be read before they are written

Parameters have values from the start, and the variable of a block or of a loop gets one when it is bound. But a loop
variable stays bound behind its loop, and the loop need not be reached: a conditional passes over one of its arms, and
a loop may pass over its body and its step. The `initialization` of a tree tells apart the local variables that have
certainly been written from the others, for each place, and lists the reads of the others as `exposed`. Where no read
is exposed, evaluation does not stop at an unwritten variable.
-/

namespace Monofloat

/-! ## What is known of names -/

/-- What is known of a name at a place. -/
inductive Standing where
  /-- No local variable. -/
  | absent
  /-- A local variable that may have no value yet. -/
  | unwritten
  /-- A local variable with a value. -/
  | written
deriving DecidableEq, Repr

/-- What is known of all names at a place. -/
abbrev Standings := String → Standing

namespace Standings

/-- A local variable of that name has got a value. -/
def write (σ : Standings) (name : String) : Standings := fun x => if x = name then .written else σ x

/-- At the start of a body the parameters have values. -/
def ofParams (params : List String) : Standings := params.foldl write fun _ => .absent

/-- What was assigned to is a local variable with a value now, or a global one. -/
def assign (σ : Standings) (name : String) : Standings := if σ name = .absent then σ else σ.write name

/-- One name stands as it did before. -/
def restore (σ : Standings) (name : String) (before : Standings) : Standings :=
  fun x => if x = name then before x else σ x

/-- What is known behind code that is passed over, `τ` being known if it is not: its loop variables are bound, but
they have no values. -/
def passing (σ τ : Standings) : Standings := fun x => if σ x = .absent ∧ τ x ≠ .absent then .unwritten else σ x

/-- What is known where two ways meet: a variable has a value if it has one on both. -/
def join (σ τ : Standings) : Standings := fun x => if σ x = .written then τ x else σ x

end Standings

/-! ## Constructs -/

/-- What a construct asks of the standings of names, and what it makes of them. -/
structure Initialization where
  /-- The local variables that are read where they may have no value. -/
  exposed : Standings → List String := fun _ => []
  /-- The standings behind the construct. -/
  after : Standings → Standings := id
  /-- The functions that are called, with the numbers of arguments. -/
  calls : List (String × Nat) := []

namespace Initialization

def variableRead (name : String) : Initialization where
  exposed σ := if σ name = .unwritten then [name] else []

/-- Two constructs, the left one first. -/
def both (a b : Initialization) : Initialization where
  exposed σ := a.exposed σ ++ b.exposed (a.after σ)
  after σ := b.after (a.after σ)
  calls := a.calls ++ b.calls

def unary (op : Operator) (a : Initialization) : Initialization := if op = .sub then a else {}

def unaryLogical (op : Connective) (a : Initialization) : Initialization :=
  match op with
  | .not => a
  | _ => {}

def logical (op : Connective) (a b : Initialization) : Initialization :=
  match op with
  | .not => {}
  | _ => a.both b

def call (callee : String) (count : Nat) (args : Initialization) : Initialization :=
  { args with calls := (callee, count) :: args.calls }

/-- A construct that may be passed over. -/
def optional (a : Initialization) : Initialization :=
  { a with after := fun σ => σ.passing (a.after σ) }

/-- One of two constructs. The first is passed over on the way to the second, and the second behind the first. -/
def either (a b : Initialization) : Initialization where
  exposed := (a.optional.both b).exposed
  after σ :=
    let τ := (a.optional.both b).after σ
    ((a.after σ).passing τ).join τ
  calls := a.calls ++ b.calls

def conditional (cond thenArm elseArm : Initialization) : Initialization := cond.both (thenArm.either elseArm)

/-- A body with a variable of its own. Behind it the name stands as it did before. -/
def bound (name : String) (body : Initialization) : Initialization where
  exposed σ := body.exposed (σ.write name)
  after σ := (body.after (σ.write name)).restore name σ
  calls := body.calls

def binding (name : String) (init body : Initialization) : Initialization := init.both (body.bound name)

def assign (name : String) (a : Initialization) : Initialization :=
  { a with after := fun σ => (a.after σ).assign name }

/-- A loop variable has a value in any case, be it a new one or not. -/
def loopVariable (name : String) (init : Initialization) : Initialization :=
  { init with after := fun σ => (init.after σ).write name }

/-- The condition is evaluated at least once, the body and the step perhaps never. -/
def forLoop (header cond step body : Initialization) : Initialization :=
  (header.both cond).both (body.both step).optional

end Initialization

mutual

/-- The initialization of a tree. -/
def initialization : Tree → Initialization
  | .var name | .increment name => .variableRead name
  | .unary op t => .unary op (initialization t)
  | .binary _ t u => (initialization t).both (initialization u)
  | .unaryLogical op t => .unaryLogical op (initialization t)
  | .logical op t u => .logical op (initialization t) (initialization u)
  | .call callee args => .call callee args.length (argsInitialization args)
  | .conditional t u v => .conditional (initialization t) (initialization u) (initialization v)
  | .block bindings body => bindingsInitialization bindings (initialization body)
  | .statements first rest => statementsInitialization (initialization first) rest
  | .openStatements first rest last =>
    (statementsInitialization (initialization first) rest).both (initialization last)
  | .assign name t => .assign name (initialization t)
  | .forLoop (.declare name init) cond step body | .forLoop (.assign name init) cond step body =>
    .forLoop (.loopVariable name (initialization init)) (initialization cond) (initialization step)
      (initialization body)
  | .forLoop (.increment name) cond step body =>
    .forLoop (.variableRead name) (initialization cond) (initialization step) (initialization body)
  | .number _ | .sequence _ | .binding .. | .global .. | .prototype _ | .function .. => {}

def argsInitialization : List Tree → Initialization
  | [] => {}
  | t :: ts => (initialization t).both (argsInitialization ts)

/-- Statements behind one with the initialization `first`. -/
def statementsInitialization (first : Initialization) : List Tree → Initialization
  | [] => first
  | t :: ts => first.both (statementsInitialization (initialization t) ts)

def bindingsInitialization : List (String × Tree) → Initialization → Initialization
  | [], body => body
  | (name, init) :: rest, body => .binding name (initialization init) (bindingsInitialization rest body)

end

/-! ## Standings of an environment -/

/-- The local variables are those of the environment. -/
def Standings.Scopes (σ : Standings) (ρ : Env) : Prop := ∀ x, σ x = .absent ↔ ρ.cell x = none

/-- What is known of a name is true of the cell that it stands for. -/
def Standing.Holds (cells : Nat → Option Float) (k? : Option Nat) : Standing → Prop
  | absent => k? = none
  | unwritten => k?.isSome = true
  | written => ∃ k, k? = some k ∧ (cells k).isSome = true

/-- What is known of names is true of their cells. -/
def Standings.Holds (σ : Standings) (ρ : Env) (cells : Nat → Option Float) : Prop :=
  ∀ x, (σ x).Holds cells (ρ.cell x)

/-- Cells with values have values afterwards. -/
def Retains (st st' : EvalState) : Prop := ∀ {k}, (st.cells k).isSome = true → (st'.cells k).isSome = true

theorem Standing.Holds.absent_iff {cells : Nat → Option Float} {k? : Option Nat} {s : Standing} (h : s.Holds cells k?) :
    s = .absent ↔ k? = none := by
  cases s with
  | absent => exact ⟨fun _ => h, fun _ => rfl⟩
  | unwritten => exact ⟨nofun, fun hnone => by rw [hnone] at h; cases h⟩
  | written =>
    obtain ⟨k, rfl, -⟩ := h
    exact ⟨nofun, nofun⟩

theorem Standing.Holds.retain {st st' : EvalState} {k? : Option Nat} {s : Standing} (h : s.Holds st.cells k?)
    (hst : Retains st st') : s.Holds st'.cells k? := by
  cases s with
  | absent | unwritten => exact h
  | written =>
    obtain ⟨k, hk, hsome⟩ := h
    exact ⟨k, hk, hst hsome⟩

namespace Standings

variable {σ τ : Standings} {ρ ρ' : Env} {st st' : EvalState} {name : String}

theorem Holds.scopes (h : σ.Holds ρ st.cells) : σ.Scopes ρ := fun x => (h x).absent_iff

theorem Holds.retain (h : σ.Holds ρ st.cells) (hst : Retains st st') : σ.Holds ρ st'.cells := fun x => (h x).retain hst

/-! ### Writes -/

theorem Scopes.write (h : σ.Scopes ρ) (hk : (ρ.cell name).isSome = true) : (σ.write name).Scopes ρ := by
  intro x
  rw [Standings.write]
  split
  · next hx =>
    subst hx
    exact ⟨nofun, fun hnone => by rw [hnone] at hk; cases hk⟩
  · exact h x

theorem Holds.write (h : σ.Holds ρ st.cells) {k : Nat} (hk : ρ.cell name = some k)
    (hsome : (st.cells k).isSome = true) : (σ.write name).Holds ρ st.cells := by
  intro x
  rw [Standings.write]
  split
  · next hx => exact ⟨k, hx ▸ hk, hsome⟩
  · exact h x

theorem Scopes.bind (h : σ.Scopes ρ) (name : String) : (σ.write name).Scopes (ρ.bind name) := by
  intro x
  show (if x = name then Standing.written else σ x) = _ ↔ (if x = name then some ρ.next else ρ.cell x) = none
  split
  · exact ⟨nofun, nofun⟩
  · exact h x

theorem Holds.bind (h : σ.Holds ρ st.cells) (hsome : (st.cells ρ.next).isSome = true) :
    (σ.write name).Holds (ρ.bind name) st.cells := by
  intro x
  show (if x = name then Standing.written else σ x).Holds _ (if x = name then some ρ.next else ρ.cell x)
  split
  · exact ⟨_, rfl, hsome⟩
  · exact h x

/-- Arguments are the values of parameters. -/
theorem Holds.foldl_bind (params : List String) (h : σ.Holds ρ st.cells)
    (hsome : ∀ k, ρ.next ≤ k → k < ρ.next + params.length → (st.cells k).isSome = true) :
    (params.foldl Standings.write σ).Holds (params.foldl Env.bind ρ) st.cells := by
  induction params generalizing σ ρ with
  | nil => exact h
  | cons param params ih =>
    rw [List.length_cons] at hsome
    refine ih (h.bind (hsome ρ.next (Nat.le_refl _) (by omega))) fun k hle hlt => ?_
    have hnext : (ρ.bind param).next = ρ.next + 1 := rfl
    exact hsome k (by omega) (by omega)

theorem holds_ofParams {params : List String} {args : List Float} (h : args.length = params.length) (w : World) :
    (ofParams params).Holds (.ofParams params) (EvalState.mk (fun k => args[k]?) w).cells := by
  refine Holds.foldl_bind params (fun _ => rfl) fun k _ hlt => ?_
  have hnext : Env.empty.next = 0 := rfl
  simp only [isSome_getElem?]
  omega

theorem Scopes.assign (h : σ.Scopes ρ) (name : String) : (σ.assign name).Scopes ρ := by
  rw [Standings.assign]
  split
  · exact h
  · next hne => exact h.write (Option.isSome_iff_ne_none.2 fun hnone => hne ((h name).2 hnone))

/-! ### Ways that part and meet -/

theorem Scopes.restore (h : τ.Scopes ρ') (hσ : σ.Scopes ρ) (name : String) :
    (τ.restore name σ).Scopes (ρ'.restore name ρ) := by
  intro x
  show (if x = name then σ x else τ x) = _ ↔ (if x = name then ρ.cell x else ρ'.cell x) = none
  split
  · exact hσ x
  · exact h x

theorem Holds.restore (h : τ.Holds ρ' st.cells) (hσ : σ.Holds ρ st.cells) (name : String) :
    (τ.restore name σ).Holds (ρ'.restore name ρ) st.cells := by
  intro x
  show (if x = name then σ x else τ x).Holds _ (if x = name then ρ.cell x else ρ'.cell x)
  split
  · exact hσ x
  · exact h x

theorem Scopes.passing (h : σ.Scopes ρ) (hτ : τ.Scopes ρ')
    (hkeep : ∀ {x k}, ρ.cell x = some k → ρ'.cell x = some k) : (σ.passing τ).Scopes ρ' := by
  intro x
  rw [Standings.passing]
  split
  · next hx => exact ⟨nofun, fun hnone => absurd ((hτ x).2 hnone) hx.2⟩
  · next hx =>
    cases hcell : ρ.cell x with
    | none =>
      have habsent := (h x).2 hcell
      have hτx : τ x = .absent := Decidable.not_not.1 fun hne => hx ⟨habsent, hne⟩
      exact ⟨fun _ => (hτ x).1 hτx, fun _ => habsent⟩
    | some k =>
      rw [h x, hcell, hkeep hcell]

/-- What is known if the code between is passed over. -/
theorem Holds.passing (h : σ.Holds ρ st.cells) (hτ : τ.Scopes ρ')
    (hkeep : ∀ {x k}, ρ.cell x = some k → ρ'.cell x = some k) : (σ.passing τ).Holds ρ' st.cells := by
  intro x
  have hx := h x
  have hscopes := h.scopes.passing hτ hkeep x
  revert hscopes hx
  rw [Standings.passing]
  split
  · intro _ hscopes
    exact Option.isSome_iff_ne_none.2 fun hnone => nomatch hscopes.2 hnone
  · intro hx hscopes
    cases hσ : σ x with
    | absent => exact hscopes.1 hσ
    | unwritten =>
      rw [hσ] at hx
      obtain ⟨k, hk⟩ := Option.isSome_iff_exists.1 hx
      exact Option.isSome_iff_exists.2 ⟨k, hkeep hk⟩
    | written =>
      rw [hσ] at hx
      obtain ⟨k, hk, hsome⟩ := hx
      exact ⟨k, hkeep hk, hsome⟩

theorem Scopes.join (h : σ.Scopes ρ) (hτ : τ.Scopes ρ) : (σ.join τ).Scopes ρ := by
  intro x
  rw [Standings.join]
  split
  · exact hτ x
  · exact h x

/-- The way that `σ` is known of has been taken. -/
theorem Holds.join_left (h : σ.Holds ρ st.cells) (hτ : τ.Scopes ρ) : (σ.join τ).Holds ρ st.cells := by
  intro x
  have hx := h x
  rw [Standings.join]
  split
  · next hσ =>
    rw [hσ] at hx
    obtain ⟨k, hk, hsome⟩ := hx
    cases hcase : τ x with
    | absent => exact (hτ x).1 hcase
    | unwritten => exact Option.isSome_iff_exists.2 ⟨k, hk⟩
    | written => exact ⟨k, hk, hsome⟩
  · exact hx

/-- The way that `τ` is known of has been taken. -/
theorem Holds.join_right (h : τ.Holds ρ st.cells) (hσ : σ.Scopes ρ) : (σ.join τ).Holds ρ st.cells := by
  intro x
  rw [Standings.join]
  split
  · exact h x
  · next hne =>
    cases hcase : σ x with
    | absent => exact (hσ x).1 hcase
    | unwritten =>
      refine Option.isSome_iff_ne_none.2 fun hnone => ?_
      rw [(hσ x).2 hnone] at hcase
      cases hcase
    | written => exact absurd hcase hne

end Standings

/-! ## Evaluations that read written variables only -/

/-- The evaluation does not stop at an unwritten local variable. If it has a value, cells with values have kept having
values, and `P` is true of what has come out. -/
def Eval.Ensures {α : Type} (e : Eval α) (st : EvalState) (P : α → EvalState → Prop) : Prop :=
  match e st with
  | none => True
  | some (.error stop, _) => stop ≠ .unwrittenLocal
  | some (.ok a, st') => Retains st st' ∧ P a st'

namespace Eval.Ensures

variable {α β : Type} {e : Eval α} {st : EvalState} {P Q : α → EvalState → Prop}

theorem pure {a : α} (h : P a st) : (Pure.pure a : Eval α).Ensures st P := ⟨id, h⟩

theorem throw {stop : Stop} (h : stop ≠ .unwrittenLocal) : (MonadExcept.throw stop : Eval α).Ensures st P := h

theorem bind {f : α → Eval β} {R : β → EvalState → Prop} (h : e.Ensures st P)
    (hf : ∀ a st', Retains st st' → P a st' → (f a).Ensures st' R) : (e >>= f).Ensures st R := by
  rw [Ensures] at h ⊢
  rw [Eval.bind_apply]
  match e st, h with
  | none, _ => trivial
  | some (.error stop, st'), h => exact h
  | some (.ok a, st'), ⟨hst, hP⟩ =>
    have hrest := hf a st' hst hP
    rw [Ensures] at hrest
    dsimp only
    match f a st', hrest with
    | none, _ => trivial
    | some (.error stop, st''), h => exact h
    | some (.ok b, st''), ⟨hst', hR⟩ => exact ⟨fun hk => hst' (hst hk), hR⟩

theorem imp (h : e.Ensures st P) (hPQ : ∀ a st', Retains st st' → P a st' → Q a st') : e.Ensures st Q := by
  rw [← bind_pure e]
  exact h.bind fun a st' hst hP => .pure (hPQ a st' hst hP)

theorem discard {R : EvalState → Prop} (h : e.Ensures st fun _ => R) :
    (Functor.discard e).Ensures st fun _ => R := by
  rw [Eval.discard_eq_bind]
  exact h.bind fun _ _ _ hR => .pure hR

theorem readCell {k : Nat} (h : (st.cells k).isSome = true) : (Eval.readCell k).Ensures st fun _ st' => st' = st := by
  obtain ⟨x, hx⟩ := Option.isSome_iff_exists.1 h
  rw [Ensures, Eval.readCell_apply, hx]
  exact ⟨id, rfl⟩

theorem readGlobal (name : String) : (Eval.readGlobal name).Ensures st fun _ st' => st' = st := by
  rw [Ensures, Eval.readGlobal_apply]
  cases st.world.globals name with
  | none => exact nofun
  | some x => exact ⟨id, rfl⟩

theorem writeCell (k : Nat) (x : Float) :
    (Eval.writeCell k x).Ensures st fun _ st' => (st'.cells k).isSome = true := by
  refine ⟨fun {j} hj => ?_, ?_⟩
  · show (if j = k then some x else st.cells j).isSome = true
    split
    · rfl
    · exact hj
  · exact congrArg Option.isSome (if_pos rfl)

theorem writeGlobal (name : String) (x : Float) : (Eval.writeGlobal name x).Ensures st fun _ _ => True :=
  ⟨id, trivial⟩

/-- A loop goes round between a state before and a state behind its condition. -/
theorem rounds {cond : Eval Float} {round : Eval Unit} {I J : EvalState → Prop}
    (hcond : ∀ {st}, I st → cond.Ensures st fun _ => J) (hround : ∀ {st}, J st → round.Ensures st fun _ => I) :
    ∀ (n : Nat) {st : EvalState}, I st → (Meaning.rounds cond round n).Ensures st fun _ => J
  | 0, _, _ => trivial
  | n + 1, st, hst => by
    rw [Meaning.rounds]
    refine (hcond hst).bind fun x st' _ hJ => ?_
    split
    · exact (hround hJ).bind fun _ st'' _ hI => rounds hcond hround n hI
    · exact .pure hJ

end Eval.Ensures

/-- No call of the list, with so many arguments, stops at an unwritten local variable. -/
def EvalContext.Avoids (Γ : EvalContext) (calls : List (String × Nat)) : Prop :=
  ∀ callee args w w', (callee, args.length) ∈ calls → Γ.call callee args w ≠ some (.error .unwrittenLocal, w')

namespace EvalContext.Avoids

variable {Γ : EvalContext} {calls calls' : List (String × Nat)}

theorem left (h : Γ.Avoids (calls ++ calls')) : Γ.Avoids calls := fun _ _ _ _ hmem =>
  h _ _ _ _ (List.mem_append_left _ hmem)

theorem right (h : Γ.Avoids (calls ++ calls')) : Γ.Avoids calls' := fun _ _ _ _ hmem =>
  h _ _ _ _ (List.mem_append_right _ hmem)

theorem tail {c : String × Nat} (h : Γ.Avoids (c :: calls)) : Γ.Avoids calls := fun _ _ _ _ hmem =>
  h _ _ _ _ (List.mem_cons_of_mem _ hmem)

theorem apply (h : Γ.Avoids calls) {callee : String} {args : List Float} (hmem : (callee, args.length) ∈ calls)
    (st : EvalState) :
    (Γ.apply callee args).Ensures st fun _ st' => st'.cells = st.cells := by
  rw [Eval.Ensures, EvalContext.apply, ExceptT.mk]
  cases hcall : Γ.call callee args st.world with
  | none => trivial
  | some o =>
    obtain ⟨_ | x, w⟩ := o
    · intro hstop
      subst hstop
      exact h _ _ _ _ hmem hcall
    · exact ⟨id, rfl⟩

end EvalContext.Avoids

/-- The initialization is right about the construct, whose values have the property `P`: its environments have the local
variables of its standings, and where no read is exposed, evaluation leaves the cells as the standings say. -/
structure Meaning.Initialized {α : Type} (μ : Meaning α) (a : Initialization) (P : α → Prop) : Prop where
  keeps : μ.Keeps
  scopes : ∀ {σ ρ}, σ.Scopes ρ → (a.after σ).Scopes (μ.after ρ)
  run : ∀ {Γ σ ρ st}, Γ.Avoids a.calls → a.exposed σ = [] → σ.Holds ρ st.cells →
    (μ.run Γ ρ).Ensures st fun x st' => P x ∧ (a.after σ).Holds (μ.after ρ) st'.cells

namespace Meaning.Initialized

variable {μ ν ξ : Meaning Float} {a b c : Initialization} {P : Float → Prop}

theorem value {α : Type} {x : α} {Q : α → Prop} (h : Q x) : (Meaning.value x).Initialized {} Q where
  keeps h := h
  scopes h := h
  run _ _ hσ := .pure ⟨h, hσ⟩

theorem stuck : (Meaning.stuck : Meaning Float).Initialized {} P where
  keeps h := h
  scopes h := h
  run _ _ _ := .throw nofun

theorem variableRead (name : String) : (Meaning.variableRead name).Initialized (.variableRead name) fun _ => True where
  keeps h := h
  scopes h := h
  run {Γ σ ρ st} _ hexposed hσ := by
    have hname := hσ name
    have hne : σ name ≠ .unwritten := fun h => by simp [Initialization.variableRead, h] at hexposed
    have hread : (ρ.read name).Ensures st fun _ st' => st' = st := by
      rw [Env.read]
      cases hcase : σ name with
      | absent =>
        rw [(hσ.scopes name).1 hcase]
        exact .readGlobal name
      | unwritten => exact absurd hcase hne
      | written =>
        rw [hcase] at hname
        obtain ⟨k, hk, hsome⟩ := hname
        rw [hk]
        exact .readCell hsome
    exact hread.imp fun _ _ _ hst => ⟨trivial, hst ▸ hσ⟩

theorem map (f : Float → Float) (h : μ.Initialized a P) : (μ.map f).Initialized a fun _ => True where
  keeps := h.keeps
  scopes := h.scopes
  run hΓ hexposed hσ := (h.run hΓ hexposed hσ).bind fun _ _ _ ⟨_, hσ'⟩ => .pure ⟨trivial, hσ'⟩

theorem both {α β γ : Type} {μ : Meaning α} {ν : Meaning β} {Q : α → Prop} {R : β → Prop} {S : γ → Prop}
    {f : α → β → γ} (hμ : μ.Initialized a Q) (hν : ν.Initialized b R) (hf : ∀ {x y}, Q x → R y → S (f x y)) :
    (μ.both ν f).Initialized (a.both b) S where
  keeps hx := hν.keeps (hμ.keeps hx)
  scopes hσ := hν.scopes (hμ.scopes hσ)
  run hΓ hexposed hσ := by
    obtain ⟨ha, hb⟩ := List.append_eq_nil_iff.1 hexposed
    refine (hμ.run hΓ.left ha hσ).bind fun x st₁ _ ⟨hx, hσ₁⟩ => ?_
    refine (hν.run hΓ.right hb hσ₁).bind fun y st₂ _ ⟨hy, hσ₂⟩ => ?_
    exact .pure ⟨hf hx hy, hσ₂⟩

theorem andThen (hμ : μ.Initialized a P) (hν : ν.Initialized b P) : (μ.andThen ν).Initialized (a.both b) P where
  keeps hx := hν.keeps (hμ.keeps hx)
  scopes hσ := hν.scopes (hμ.scopes hσ)
  run hΓ hexposed hσ := by
    obtain ⟨ha, hb⟩ := List.append_eq_nil_iff.1 hexposed
    have hfirst := (hμ.run hΓ.left ha hσ).imp fun _ _ _ h => h.2
    exact hfirst.discard.bind fun _ _ _ hσ₁ => hν.run hΓ.right hb hσ₁

theorem unary (op : Operator) (h : μ.Initialized a P) :
    (Meaning.unary op μ).Initialized (.unary op a) fun _ => True := by
  rw [Meaning.unary, Initialization.unary]
  split
  · exact h.map _
  · exact .stuck

theorem unaryLogical (op : Connective) (h : μ.Initialized a P) :
    (Meaning.unaryLogical op μ).Initialized (.unaryLogical op a) fun _ => True := by
  cases op with
  | not => exact h.map _
  | and | or => exact .stuck

theorem logical (op : Connective) (hμ : μ.Initialized a P) (hν : ν.Initialized b P) :
    (Meaning.logical op μ ν).Initialized (.logical op a b) fun _ => True := by
  cases op with
  | not => exact .stuck
  | and | or => exact hμ.both hν fun _ _ => trivial

theorem call {μ : Meaning (List Float)} {n : Nat} (callee : String) (h : μ.Initialized a (·.length = n)) :
    (Meaning.call callee μ).Initialized (.call callee n a) fun _ => True where
  keeps := h.keeps
  scopes := h.scopes
  run {Γ σ ρ st} hΓ hexposed hσ := by
    refine (h.run hΓ.tail hexposed hσ).bind fun xs st₁ _ ⟨hlen, hσ₁⟩ => ?_
    have hmem : (callee, xs.length) ∈ (Initialization.call callee n a).calls := hlen ▸ List.mem_cons_self
    refine (hΓ.apply hmem st₁).imp fun _ _ _ hst => ⟨trivial, ?_⟩
    rw [hst]
    exact hσ₁

theorem binding (name : String) (hμ : μ.Initialized a P) (hν : ν.Initialized b P) :
    (Meaning.binding name μ ν).Initialized (.binding name a b) P where
  keeps {ρ x k} hx := by
    have hinit : (μ.after ρ).cell x = some k := hμ.keeps hx
    show (if x = name then (μ.after ρ).cell x else (ν.after ((μ.after ρ).bind name)).cell x) = some k
    split
    · exact hinit
    · next hne => exact hν.keeps ((if_neg hne).trans hinit)
  scopes hσ :=
    have hinit := hμ.scopes hσ
    (hν.scopes (hinit.bind name)).restore hinit name
  run hΓ hexposed hσ := by
    obtain ⟨ha, hb⟩ := List.append_eq_nil_iff.1 hexposed
    refine (hμ.run hΓ.left ha hσ).bind fun x st₁ _ ⟨_, hσ₁⟩ => ?_
    refine (Eval.Ensures.writeCell _ x).bind fun _ st₂ h₂ hsome => ?_
    have hσ₂ := hσ₁.retain h₂
    refine (hν.run hΓ.right hb (hσ₂.bind hsome)).imp fun _ st₃ h₃ ⟨hy, hσ₃⟩ => ?_
    exact ⟨hy, hσ₃.restore (hσ₂.retain h₃) name⟩

/-- An assignment of a value writes a local variable or a global one. -/
theorem ensures_write {σ : Standings} {ρ : Env} {st : EvalState} (hσ : σ.Holds ρ st.cells) (name : String) (x : Float) :
    (ρ.write name x).Ensures st fun _ st' => (σ.assign name).Holds ρ st'.cells := by
  rw [Env.write, Standings.assign]
  cases hk : ρ.cell name with
  | none =>
    rw [if_pos ((hσ.scopes name).2 hk)]
    exact (Eval.Ensures.writeGlobal name x).imp fun _ _ hst _ => hσ.retain hst
  | some k =>
    have hne : σ name ≠ .absent := fun h => by rw [(hσ.scopes name).1 h] at hk; cases hk
    rw [if_neg hne]
    exact (Eval.Ensures.writeCell k x).imp fun _ _ hst hsome => (hσ.retain hst).write hk hsome

theorem assign (name : String) (h : μ.Initialized a P) :
    (Meaning.assign name μ).Initialized (.assign name a) fun _ => True where
  keeps := h.keeps
  scopes hσ := (h.scopes hσ).assign name
  run hΓ hexposed hσ := by
    refine (h.run hΓ hexposed hσ).bind fun x st₁ _ ⟨_, hσ₁⟩ => ?_
    exact (ensures_write hσ₁ name x).bind fun _ _ _ hσ₂ => .pure ⟨trivial, hσ₂⟩

theorem increment (name : String) : (Meaning.increment name).Initialized (.variableRead name) fun _ => True where
  keeps h := h
  scopes h := h
  run {Γ σ ρ st} _ hexposed hσ := by
    have hname := hσ name
    rw [Meaning.increment]
    dsimp only
    cases hcase : σ name with
    | absent =>
      rw [(hσ.scopes name).1 hcase]
      exact .throw (by simp)
    | unwritten => simp [Initialization.variableRead, hcase] at hexposed
    | written =>
      rw [hcase] at hname
      obtain ⟨k, hk, hsome⟩ := hname
      rw [hk]
      refine (Eval.Ensures.readCell hsome).bind fun x st₁ h₁ _ => ?_
      refine (Eval.Ensures.writeCell k (x + 1)).bind fun _ st₂ h₂ _ => ?_
      exact .pure ⟨trivial, (hσ.retain h₁).retain h₂⟩

theorem conditional (hμ : μ.Initialized a P) (hν : ν.Initialized b P) (hξ : ξ.Initialized c P) :
    (Meaning.conditional μ ν ξ).Initialized (.conditional a b c) P where
  keeps hx := hξ.keeps (hν.keeps (hμ.keeps hx))
  scopes hσ := by
    have h₁ := hμ.scopes hσ
    have h₂ := hν.scopes h₁
    have h₃ := hξ.scopes (h₁.passing h₂ hν.keeps)
    exact (h₂.passing h₃ hξ.keeps).join h₃
  run {Γ σ ρ st} hΓ hexposed hσ := by
    obtain ⟨ha, hbc⟩ := List.append_eq_nil_iff.1 hexposed
    obtain ⟨hb, hc⟩ := List.append_eq_nil_iff.1 hbc
    refine (hμ.run hΓ.left ha hσ).bind fun x st₁ _ ⟨_, hσ₁⟩ => ?_
    have h₂ := hν.scopes hσ₁.scopes
    have h₃ := hξ.scopes (hσ₁.scopes.passing h₂ hν.keeps)
    -- On the one way the second arm is passed over, on the other way the first one.
    split
    · refine (hν.run hΓ.right.left hb hσ₁).imp fun _ _ _ ⟨hy, hσ₂⟩ => ⟨hy, ?_⟩
      exact (hσ₂.passing h₃ hξ.keeps).join_left h₃
    · have hσ₂ := hσ₁.passing h₂ hν.keeps
      refine (hξ.run hΓ.right.right hc hσ₂).imp fun _ _ _ ⟨hy, hσ₃⟩ => ⟨hy, ?_⟩
      exact hσ₃.join_right (h₂.passing h₃ hξ.keeps)

theorem loopVariable (name : String) (h : μ.Initialized a P) :
    (Meaning.loopVariable name μ).Initialized (.loopVariable name a) fun _ => True where
  keeps := keeps_loopVariable h.keeps
  scopes {σ ρ} hσ := by
    show ((a.after σ).write name).Scopes (if (ρ.cell name).isSome then μ.after ρ else (μ.after ρ).bind name)
    split
    · next hsome =>
      obtain ⟨k, hk⟩ := Option.isSome_iff_exists.1 hsome
      exact (h.scopes hσ).write (Option.isSome_iff_exists.2 ⟨k, h.keeps hk⟩)
    · exact (h.scopes hσ).bind name
  run {Γ σ ρ st} hΓ hexposed hσ := by
    refine (h.run hΓ hexposed hσ).bind fun x st₁ _ ⟨_, hσ₁⟩ => ?_
    refine (Eval.Ensures.writeCell _ x).imp fun _ st₂ h₂ hwritten => ⟨trivial, ?_⟩
    have hσ₂ := hσ₁.retain h₂
    show ((a.after σ).write name).Holds (if (ρ.cell name).isSome then μ.after ρ else (μ.after ρ).bind name) _
    cases hk : ρ.cell name with
    | some k =>
      rw [hk] at hwritten
      exact hσ₂.write (h.keeps hk) hwritten
    | none =>
      rw [hk] at hwritten
      exact hσ₂.bind hwritten

theorem forLoop {α : Type} {η : Meaning α} {d : Initialization} {Q : α → Prop} (hη : η.Initialized d Q)
    (hμ : μ.Initialized a P) (hν : ν.Initialized b P) (hξ : ξ.Initialized c P) :
    (Meaning.forLoop η μ ν ξ).Initialized (.forLoop d a b c) fun _ => True where
  keeps hx := hν.keeps (hξ.keeps (hμ.keeps (hη.keeps hx)))
  scopes hσ :=
    have h₂ := hμ.scopes (hη.scopes hσ)
    have hround := hξ.andThen hν
    h₂.passing (hround.scopes h₂) hround.keeps
  run {Γ σ ρ st} hΓ hexposed hσ := by
    obtain ⟨hda, hcb⟩ := List.append_eq_nil_iff.1 hexposed
    obtain ⟨hd, ha⟩ := List.append_eq_nil_iff.1 hda
    have hround := hξ.andThen hν
    have hheader := (hη.run hΓ.left.left hd hσ).imp fun _ _ _ h => h.2
    refine hheader.discard.bind fun _ st₁ _ hσ₁ => ?_
    -- What is known before the condition stays true in all rounds, since no cell loses its value.
    let I : EvalState → Prop := fun st => (d.after σ).Holds (η.after ρ) st.cells
    let J : EvalState → Prop := fun st => I st ∧ (a.after (d.after σ)).Holds (μ.after (η.after ρ)) st.cells
    have hcond : ∀ {st}, I st → (μ.run Γ (η.after ρ)).Ensures st fun _ => J := fun hI =>
      (hμ.run hΓ.left.right ha hI).imp fun _ _ hst h => ⟨hI.retain hst, h.2⟩
    have hbody : ∀ {st}, J st →
        (discard ((ξ.andThen ν).run Γ (μ.after (η.after ρ)))).Ensures st fun _ => I := fun hJ =>
      ((hround.run hΓ.right hcb hJ.2).imp fun _ _ hst _ => hJ.1.retain hst).discard
    refine (Eval.Ensures.rounds hcond hbody Γ.fuel hσ₁).bind fun _ st₂ _ hJ => .pure ⟨trivial, ?_⟩
    exact hJ.2.passing (hround.scopes hJ.2.scopes) hround.keeps

end Meaning.Initialized

mutual

/-- Trees without exposed reads do not stop at unwritten variables. -/
theorem initialized_meaning : (t : Tree) → (meaning t).Initialized (initialization t) fun _ => True
  | .number _ => .value trivial
  | .var name => .variableRead name
  | .unary op t => .unary op (initialized_meaning t)
  | .binary _ t u => (initialized_meaning t).both (initialized_meaning u) fun _ _ => trivial
  | .unaryLogical op t => .unaryLogical op (initialized_meaning t)
  | .logical op t u => .logical op (initialized_meaning t) (initialized_meaning u)
  | .call callee args => .call callee (initialized_argsMeaning args)
  | .conditional t u v => .conditional (initialized_meaning t) (initialized_meaning u) (initialized_meaning v)
  | .block bindings body => initialized_bindingsMeaning bindings (initialized_meaning body)
  | .statements first rest => initialized_statementsMeaning (initialized_meaning first) rest
  | .openStatements first rest last =>
    (initialized_statementsMeaning (initialized_meaning first) rest).andThen (initialized_meaning last)
  | .assign name t => .assign name (initialized_meaning t)
  | .increment name => .increment name
  | .forLoop (.declare name init) cond step body | .forLoop (.assign name init) cond step body =>
    .forLoop (.loopVariable name (initialized_meaning init)) (initialized_meaning cond) (initialized_meaning step)
      (initialized_meaning body)
  | .forLoop (.increment name) cond step body =>
    .forLoop (.increment name) (initialized_meaning cond) (initialized_meaning step) (initialized_meaning body)
  | .sequence _ | .binding .. | .global .. | .prototype _ | .function .. => .stuck

theorem initialized_argsMeaning : (args : List Tree) →
    (argsMeaning args).Initialized (argsInitialization args) (·.length = args.length)
  | [] => .value rfl
  | t :: ts => (initialized_meaning t).both (initialized_argsMeaning ts) fun _ hlen => congrArg (· + 1) hlen

theorem initialized_statementsMeaning {μ : Meaning Float} {a : Initialization} (h : μ.Initialized a fun _ => True) :
    (ts : List Tree) → (statementsMeaning μ ts).Initialized (statementsInitialization a ts) fun _ => True
  | [] => h
  | t :: ts => h.andThen (initialized_statementsMeaning (initialized_meaning t) ts)

theorem initialized_bindingsMeaning : (bindings : List (String × Tree)) → {μ : Meaning Float} → {a : Initialization} →
    μ.Initialized a (fun _ => True) →
    (bindingsMeaning bindings μ).Initialized (bindingsInitialization bindings a) fun _ => True
  | [], _, _, h => h
  | (name, init) :: rest, _, _, h => .binding name (initialized_meaning init) (initialized_bindingsMeaning rest h)

end

/-- In `{ if x then (for i = x, x, x in x) else x; i }` the loop may be passed over. -/
example : (initialization (.statements (.conditional (.var "x") (.forLoop (.assign "i" (.var "x")) (.var "x") (.var "x")
    (.var "x")) (.var "x")) [.var "i"])).exposed (.ofParams ["x"]) = ["i"] := by decide

/-- In `{ for i = x, x, x in x; i }` it is not. -/
example : (initialization (.statements (.forLoop (.assign "i" (.var "x")) (.var "x") (.var "x") (.var "x"))
    [.var "i"])).exposed (.ofParams ["x"]) = [] := by decide

end Monofloat
