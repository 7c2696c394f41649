import Monofloat.Proofs.Composition
import Monofloat.Proofs.Definition

/-!
# What lowering keeps up

An `Invariant` speaks of the module and the diagnostics of a state of lowering, inside a certain function or
outside of all. It has to survive the few ways in which the state is changed at all: inside a function that
function changes, and anywhere functions and globals are declared and errors are reported. Then every step keeps
it up, whether it succeeds or fails. Only a definition goes from the outside to the inside and back, so what it
keeps up is left open here.
-/

namespace Monofloat

open Monofloat.Ir

/-! ## Steps that keep something up -/

section

variable {ε σ α β : Type} {I : σ → Prop} {P : α → Prop} {Q : β → Prop}

/-- The step keeps up `I`, and a result of it satisfies `P`. -/
def Keeps (I : σ → Prop) (step : EStateM ε σ α) (P : α → Prop) : Prop :=
  ∀ s, I s → match step s with
    | .ok a s' => I s' ∧ P a
    | .error _ s' => I s'

/-- Any result. -/
def anything : α → Prop := fun _ => True

namespace Keeps

theorem pure {a : α} (h : P a) : Keeps I (pure a : EStateM ε σ α) P := fun _ hs => ⟨hs, h⟩

theorem throw (e : ε) : Keeps I (throw e : EStateM ε σ α) P := fun _ hs => hs

theorem bind {x : EStateM ε σ α} {f : α → EStateM ε σ β} (hx : Keeps I x P) (hf : ∀ a, P a → Keeps I (f a) Q) :
    Keeps I (x >>= f) Q := by
  intro s hs
  have hxs := hx s hs
  cases ho : x s with
  | ok a s' =>
    rw [ho] at hxs
    rw [bind_of_ok ho]
    exact hf a hxs.2 s' hxs.1
  | error e s' =>
    rw [ho] at hxs
    rw [bind_of_error ho]
    exact hxs

/-- The second step does not depend on the result of the first. -/
theorem andThen {x : EStateM ε σ α} {f : α → EStateM ε σ β} (hx : Keeps I x P) (hf : ∀ a, Keeps I (f a) Q) :
    Keeps I (x >>= f) Q := hx.bind fun a _ => hf a

theorem discard {x : EStateM ε σ α} (hx : Keeps I x P) : Keeps I (discard x) anything :=
  hx.andThen fun _ => .pure trivial

theorem map {x : EStateM ε σ α} (f : α → β) (hx : Keeps I x P) : Keeps I (f <$> x) anything := by
  rw [map_eq_bind]
  exact hx.andThen fun _ => .pure trivial

theorem modify {f : σ → σ} (h : ∀ s, I s → I (f s)) : Keeps I (modify f : EStateM ε σ Unit) anything :=
  fun s hs => ⟨h s hs, trivial⟩

theorem get : Keeps I (get : EStateM ε σ σ) I := fun _ hs => ⟨hs, hs⟩

end Keeps

end

/-! ## Invariants -/

/-- What is kept up: of the module, inside a function with a name or outside of all, and of the diagnostics. -/
structure Invariant where
  module : Option String → Module → Prop
  diagnostics : List Diagnostic → Prop
  modify : ∀ {name m g}, module (some name) m → (∀ f : Function, f.name = name → (g f).name = name) →
    module (some name) (m.modifyFunction name g)
  addFunction : ∀ {w m name params}, module w m → m.hasSymbol name = false →
    module w (m.addFunction (.declare name params))
  addGlobal : ∀ {w m name}, module w m → m.hasSymbol name = false → module w (m.addGlobal { name := name })
  report : ∀ {ds d}, diagnostics ds → d.code ≠ some .malformedFunction → diagnostics (ds ++ [d])

namespace Invariant

variable (K : Invariant) (w : Option String)

/-- The invariant of a builder. -/
def Builder (b : Ir.Builder) : Prop := b.position.map InsertPoint.function = w ∧ K.module w b.module

/-- The invariant of a state of lowering. -/
def At (s : Lowering) : Prop := K.Builder w s.builder ∧ K.diagnostics s.diagnostics

end Invariant

/-! ## Steps of the builder -/

section

variable {K : Invariant} {w : Option String}

namespace Ir.Build

theorem keeps_function? (name : String) :
    Keeps (K.Builder w) (function? name) fun f? => ∀ f ∈ f?, f.name = name := by
  intro b hb
  refine ⟨hb, fun f hf => ?_⟩
  have := List.find?_some hf
  simpa using this

theorem keeps_functionNamed (name : String) :
    Keeps (K.Builder w) (functionNamed name) fun f => f.name = name := by
  refine (keeps_function? name).bind fun f? hf => ?_
  cases f? with
  | none => exact .throw _
  | some f => exact .pure (hf f rfl)

theorem keeps_insertPoint : Keeps (K.Builder w) insertPoint fun p => w = some p.function := by
  refine Keeps.get.bind fun b hb => ?_
  obtain ⟨hpos, -⟩ := hb
  cases hp : b.position with
  | none => exact .throw _
  | some p => exact .pure (by rw [← hpos, hp]; rfl)

theorem keeps_currentFunction : Keeps (K.Builder w) currentFunction fun f => w = some f.name :=
  keeps_insertPoint.bind fun p hp => by
    intro b hb
    have := keeps_functionNamed (K := K) (w := w) p.function b hb
    cases ho : functionNamed p.function b with
    | ok f b' =>
      rw [ho] at this
      exact ⟨this.1, hp.trans (congrArg some this.2.symm)⟩
    | error e b' => rw [ho] at this; exact this

theorem keeps_modifyFunction {name : String} (hw : w = some name) {g : Function → Function}
    (hg : ∀ f, f.name = name → (g f).name = name) : Keeps (K.Builder w) (modifyFunction name g) anything := by
  subst hw
  exact .modify fun b hb => ⟨hb.1, K.modify hb.2 hg⟩

/-- Replacing the current function. -/
theorem keeps_replace {α : Type} {f g : Function} (hf : w = some f.name) (hg : g.name = f.name) (a : α) :
    Keeps (K.Builder w) (do modifyFunction f.name fun _ => g; return a) anything :=
  (keeps_modifyFunction hf fun _ _ => hg).andThen fun _ => .pure trivial

theorem keeps_createBlock (label : String) : Keeps (K.Builder w) (createBlock label) anything :=
  keeps_currentFunction.bind fun f hf => keeps_replace (g := f.create label) hf rfl _

theorem keeps_appendBlock (label : String) : Keeps (K.Builder w) (appendBlock label) anything := by
  refine keeps_insertPoint.bind fun p hp => (keeps_functionNamed p.function).bind fun f hf => ?_
  refine (keeps_modifyFunction hp fun _ _ => ?_).andThen fun _ => .pure trivial
  show ((f.createBlock label).2.attach? _ |>.getD (f.createBlock label).2).name = p.function
  unfold Function.attach?
  split <;> exact hf

theorem keeps_blockOf (id : BlockId) : Keeps (K.Builder w) (blockOf id) anything := by
  refine keeps_currentFunction.andThen fun f => ?_
  cases f.block? id with
  | none => exact .throw _
  | some b => exact .pure trivial

theorem keeps_attachBlock (id : BlockId) : Keeps (K.Builder w) (attachBlock id) anything := by
  refine (keeps_blockOf id).andThen fun b => keeps_currentFunction.bind fun f hf => ?_
  unfold Function.attach?
  split
  · next h =>
    split at h
    · cases h
    · cases h
      exact keeps_modifyFunction hf fun _ _ => rfl
  · exact .throw _

theorem keeps_positionAtEnd (id : BlockId) : Keeps (K.Builder w) (positionAtEnd id) anything :=
  keeps_insertPoint.bind fun _ hp => .modify fun _ hb => ⟨hp.symm, hb.2⟩

theorem keeps_insertBlock : Keeps (K.Builder w) insertBlock anything :=
  keeps_insertPoint.andThen fun _ => .pure trivial

theorem keeps_labelOf (id : BlockId) : Keeps (K.Builder w) (labelOf id) anything :=
  (keeps_blockOf id).andThen fun _ => .pure trivial

theorem keeps_emit (i : Instruction) : Keeps (K.Builder w) (emit i) anything := by
  refine keeps_insertPoint.bind fun p hp => (keeps_blockOf p.block).andThen fun b => ?_
  split
  · exact .throw _
  · exact keeps_modifyFunction hp fun _ hf => hf

theorem keeps_emitResult (ty : Ty) (i : Nat → Instruction) (numbering : Numbering) :
    Keeps (K.Builder w) (emitResult ty i numbering) anything := by
  have htemp : Keeps (K.Builder w) (temp ty numbering) anything :=
    keeps_currentFunction.bind fun f hf => keeps_replace (g := f.withTemp ty) hf rfl _
  exact htemp.andThen fun _ => (keeps_emit _).andThen fun _ => .pure trivial

theorem keeps_alloca (name : String) : Keeps (K.Builder w) (alloca name) anything := by
  refine keeps_currentFunction.bind fun f hf => ?_
  cases f.entry? with
  | none => exact .throw _
  | some entry =>
    refine (keeps_modifyFunction (g := fun _ => (f.freshName name).2) hf fun _ _ => rfl).andThen fun _ => ?_
    dsimp only
    split
    · exact .throw _
    · refine (keeps_modifyFunction hf fun _ hname => ?_).andThen fun _ => .pure trivial
      exact hname

theorem keeps_requireAddress (ptr : Value) : Keeps (K.Builder w) (requireAddress ptr) anything := by
  unfold requireAddress
  split
  · exact .pure trivial
  · exact .throw _

theorem keeps_load (ptr : Value) : Keeps (K.Builder w) (load ptr) anything :=
  (keeps_requireAddress ptr).andThen fun _ => keeps_emitResult _ _ _

theorem keeps_store (value ptr : Value) : Keeps (K.Builder w) (store value ptr) anything :=
  (keeps_requireAddress ptr).andThen fun _ => keeps_emit _

theorem keeps_call (callee : String) (args : List Value) : Keeps (K.Builder w) (call callee args) anything :=
  (keeps_functionNamed callee).discard.andThen fun _ => keeps_emitResult _ _ _

theorem keeps_labelled : (incoming : List (Value × BlockId)) → Keeps (K.Builder w) (labelled incoming) anything
  | [] => .pure trivial
  | (_, block) :: rest => (keeps_labelOf block).andThen fun _ => (keeps_labelled rest).andThen fun _ => .pure trivial

theorem keeps_phi (ty : Ty) (incoming : List (Value × BlockId)) :
    Keeps (K.Builder w) (phi ty incoming) anything :=
  (keeps_labelled incoming).andThen fun _ => keeps_emitResult _ _ _

theorem keeps_br (target : BlockId) : Keeps (K.Builder w) (br target) anything :=
  (keeps_labelOf target).andThen fun _ => keeps_emit _

theorem keeps_condBr (cond : Value) (id₁ id₂ : BlockId) : Keeps (K.Builder w) (condBr cond id₁ id₂) anything :=
  (keeps_labelOf id₁).andThen fun _ => (keeps_labelOf id₂).andThen fun _ => keeps_emit _

theorem keeps_valueType (v : Value) : Keeps (K.Builder w) (valueType v) anything := by
  cases v with
  | temp id =>
    refine keeps_insertPoint.andThen fun p => (keeps_function? p.function).andThen fun f? => ?_
    cases f?.bind (·.tempType? id) with
    | none => exact .throw _
    | some ty => exact .pure trivial
  | void => exact .throw _
  | _ => exact .pure trivial

theorem keeps_declareFunction (name : String) (params : List String) :
    Keeps (K.Builder w) (declareFunction name params) anything := by
  intro b hb
  cases hnew : b.module.hasSymbol name with
  | true =>
    rw [declareFunction_of_used params hnew]
    exact hb
  | false =>
    rw [declareFunction_of_new params hnew]
    exact ⟨⟨hb.1, K.addFunction hb.2 hnew⟩, trivial⟩

theorem keeps_declareGlobal (name : String) : Keeps (K.Builder w) (declareGlobal name) anything := by
  intro b hb
  cases hnew : b.module.hasSymbol name with
  | true =>
    rw [declareGlobal_of_used hnew]
    exact hb
  | false =>
    rw [declareGlobal_of_new hnew]
    exact ⟨⟨hb.1, K.addGlobal hb.2 hnew⟩, trivial⟩

/-- Operations on the current function. -/
theorem keeps_perform {α : Type} (op : Operation α) (h : op.isInner = true) :
    Keeps (K.Builder w) (op.perform .unbounded) anything := by
  cases op with
  | declareFunction | function? | removeFunction | declareGlobal | appendBlockIn | setInsertPoint | clearInsertPoint =>
    cases h
  | global? name => exact Keeps.get.andThen fun _ => .pure trivial
  | appendBlock label => exact keeps_appendBlock label
  | createBlock label => exact keeps_createBlock label
  | attachBlock block => exact keeps_attachBlock block
  | positionAtEnd block => exact keeps_positionAtEnd block
  | insertBlock => exact keeps_insertBlock
  | valueType value => exact keeps_valueType value
  | alloca name => exact keeps_alloca name
  | load ptr => exact keeps_load ptr
  | store value ptr => exact keeps_store value ptr
  | call callee args => exact keeps_call callee args
  | phi ty incoming => exact keeps_phi ty incoming
  | br target => exact keeps_br target
  | condBr cond thenBlock elseBlock => exact keeps_condBr cond thenBlock elseBlock
  | ret value => exact keeps_emit _
  | binary | neg | compare | logical | not | boolToFloat => exact keeps_emitResult _ _ _

end Ir.Build

/-! ## Steps of lowering -/

namespace Lower

variable {α : Type} {P : α → Prop}

theorem keeps_build {step : Build α} (h : Keeps (K.Builder w) step P) : Keeps (K.At w) (build step) P := by
  intro s hs
  have hb := h s.builder hs.1
  cases ho : step s.builder with
  | ok a b =>
    rw [ho] at hb
    rw [build, ho]
    exact ⟨⟨hb.1, hs.2⟩, hb.2⟩
  | error e b =>
    rw [ho] at hb
    rw [build, ho]
    exact ⟨hb, hs.2⟩

theorem keeps_fail (cause : LowerCause) : Keeps (K.At w) (fail cause : Lower α) P := .throw _

theorem keeps_within (context : LowerContext) {step : Lower α} (h : Keeps (K.At w) step P) :
    Keeps (K.At w) (within context step) P := by
  intro s hs
  have hstep := h s hs
  rw [within]
  cases ho : step s <;> rw [ho] at hstep <;> exact hstep

theorem keeps_finallyScope (change : Scope → Scope) {step : Lower α} (h : Keeps (K.At w) step P) :
    Keeps (K.At w) (finallyScope change step) P := by
  intro s hs
  have hstep := h s hs
  rw [finallyScope]
  cases ho : step s <;> rw [ho] at hstep <;> exact hstep

theorem keeps_modifyScope (change : Scope → Scope) : Keeps (K.At w) (modifyScope change) anything :=
  .modify fun _ hs => hs

theorem keeps_emitText (text : String) : Keeps (K.At w) (emitText text) anything := .modify fun _ hs => hs

theorem keeps_local? (name : String) : Keeps (K.At w) (local? name) anything :=
  Keeps.get.andThen fun _ => .pure trivial

/-- No cause of an error is a malformed function. -/
theorem code_ne_malformed (cause : LowerCause) : cause.code ≠ .malformedFunction := by
  cases cause with
  | undefinedVariable name lookup => cases lookup <;> exact fun h => by cases h
  | _ => exact fun h => by cases h

theorem keeps_recovering (default : Value) (span? : Option Span) {step : Lower Value}
    (h : Keeps (K.At w) step anything) : Keeps (K.At w) (recovering default span? step) anything := by
  intro s hs
  have hstep := h s hs
  rw [recovering]
  cases ho : step s with
  | ok v s' => rw [ho] at hstep; exact hstep
  | error e s' =>
    rw [ho] at hstep
    exact ⟨⟨hstep.1, K.report hstep.2 fun hcode => code_ne_malformed e.cause (Option.some.inj hcode)⟩, trivial⟩

theorem keeps_call (callee : String) (count : Nat) {args : Lower (List Value)} (h : Keeps (K.At w) args anything) :
    Keeps (K.At w) (call callee count args) anything := by
  refine (keeps_build (Build.keeps_function? callee)).andThen fun f? => ?_
  cases f? with
  | none => exact keeps_fail _
  | some f =>
    show Keeps (K.At w) (if f.arity ≠ count then _ else _) anything
    split
    · exact keeps_fail _
    · exact h.andThen fun _ => keeps_build (Build.keeps_call callee _)

/-- What keeps up an invariant can be put together. -/
theorem compositional_keeps (K : Invariant) (w : Option String) :
    Compositional fun _ step => Keeps (K.At w) step anything where
  pure _ := .pure trivial
  fail := keeps_fail
  bind := Keeps.andThen
  within context := keeps_within context
  finallyScope change := keeps_finallyScope change
  modifyScope := keeps_modifyScope
  local? := keeps_local?
  operation op hop := keeps_build (Build.keeps_perform op (Operation.isInner_of_isCode hop))
  alloca name := keeps_build (Build.keeps_alloca name)
  call callee count := keeps_call callee count

/-! ## Items -/

theorem keeps_prototype (proto : Prototype) (visible : Bool) :
    Keeps (K.At w) (prototype proto visible) anything := by
  refine (keeps_build (Build.keeps_function? proto.name)).andThen fun f? => ?_
  cases f? with
  | some f =>
    show Keeps (K.At w) (if f.arity = proto.params.length then _ else _) anything
    split
    · exact .pure trivial
    · exact keeps_fail _
  | none =>
    have hglobal : Keeps (K.Builder w) (Build.global? proto.name) anything :=
      Keeps.get.andThen fun _ => .pure trivial
    refine (keeps_build hglobal).andThen fun address? => ?_
    split
    · exact keeps_fail _
    · refine (keeps_build (Build.keeps_declareFunction _ _)).andThen fun _ => ?_
      split
      · refine (keeps_build (Build.keeps_function? _)).andThen fun f? => ?_
        cases f? with
        | none => exact .pure trivial
        | some f => exact (keeps_emitText _).andThen fun _ => .pure trivial
      · exact .pure trivial

theorem keeps_globalVariable (name : String) : Keeps (K.At w) (globalVariable name) anything := by
  refine Keeps.get.andThen fun s => ?_
  split
  · exact keeps_fail _
  · exact (keeps_build (Build.keeps_declareGlobal name)).andThen fun _ =>
      (keeps_emitText _).andThen fun _ => .pure trivial

theorem keeps_spillParams (function : String) : (index : Nat) → (params : List String) →
    Keeps (K.At w) (spillParams function index params) anything
  | _, [] => .pure trivial
  | index, param :: params => by
    refine (keeps_build (Build.keeps_function? function)).andThen fun f? => ?_
    cases f?.bind (·.param? index) with
    | none => exact keeps_fail _
    | some incoming =>
      exact (keeps_build (Build.keeps_alloca param)).andThen fun _ => (keeps_build (Build.keeps_store _ _)).andThen
        fun _ => (keeps_modifyScope _).andThen fun _ => keeps_spillParams function (index + 1) params

theorem keeps_functionBody (proto : Prototype) (h : Keeps (K.At w) step anything) :
    Keeps (K.At w) (functionBody proto step) anything :=
  (keeps_spillParams proto.name 0 proto.params).andThen fun _ => ((compositional_keeps K w).asFloat h).andThen fun _ =>
    keeps_build (Build.keeps_emit _)

end Lower

/-! ## Trees -/

mutual

/-- Every definition in the tree has a body with the property. -/
def Tree.bodiesAll (P : Tree → Bool) : Tree → Bool
  | .sequence items => bodiesAllIn P items
  | .number _ | .var _ | .global .. | .prototype _ | .increment _ => true
  | .function _ body _ => P body
  | .unary _ t | .unaryLogical _ t | .binding _ t | .assign _ t => t.bodiesAll P
  | .binary _ t u | .logical _ t u => t.bodiesAll P && u.bodiesAll P
  | .call _ args => bodiesAllIn P args
  | .conditional t u v => t.bodiesAll P && u.bodiesAll P && v.bodiesAll P
  | .block bindings body => bodiesAllInBindings P bindings && body.bodiesAll P
  | .statements first rest => first.bodiesAll P && bodiesAllIn P rest
  | .openStatements first rest last => first.bodiesAll P && bodiesAllIn P rest && last.bodiesAll P
  | .forLoop (.declare _ init) cond step body =>
    init.bodiesAll P && cond.bodiesAll P && step.bodiesAll P && body.bodiesAll P
  | .forLoop (.assign _ init) cond step body =>
    init.bodiesAll P && cond.bodiesAll P && step.bodiesAll P && body.bodiesAll P
  | .forLoop (.increment _) cond step body => cond.bodiesAll P && step.bodiesAll P && body.bodiesAll P

def bodiesAllIn (P : Tree → Bool) : List Tree → Bool
  | [] => true
  | t :: ts => t.bodiesAll P && bodiesAllIn P ts

def bodiesAllInBindings (P : Tree → Bool) : List (String × Tree) → Bool
  | [] => true
  | (_, init) :: rest => init.bodiesAll P && bodiesAllInBindings P rest

end

section

open Lower

variable {P : Tree → Bool}

mutual

/-- Lowering keeps up the invariant if the definitions in the tree do. -/
theorem keeps_lower
    (hdef : ∀ proto body span, P body = true → Keeps (K.At w) (Lower.function proto span (lower body)) anything) :
    (t : Tree) → t.bodiesAll P = true → Keeps (K.At w) (lower t) anything
  | .sequence items, h => keeps_lowerItems hdef _ items h
  | .number _, _ => .pure trivial
  | .var name, _ => (compositional_keeps K w).variableRead name
  | .unary op t, h => (compositional_keeps K w).unary op (keeps_lower hdef t h)
  | .binary op t u, h => by
    obtain ⟨ht, hu⟩ := Bool.and_eq_true_iff.1 h
    exact (compositional_keeps K w).binary op (keeps_lower hdef t ht) (keeps_lower hdef u hu)
  | .unaryLogical op t, h => (compositional_keeps K w).unaryLogical op (keeps_lower hdef t h)
  | .logical op t u, h => by
    obtain ⟨ht, hu⟩ := Bool.and_eq_true_iff.1 h
    exact (compositional_keeps K w).logical op (keeps_lower hdef t ht) (keeps_lower hdef u hu)
  | .call callee args, h => keeps_call callee args.length (keeps_lowerArgs hdef callee 1 args h)
  | .conditional t u v, h => by
    obtain ⟨htu, hv⟩ := Bool.and_eq_true_iff.1 h
    obtain ⟨ht, hu⟩ := Bool.and_eq_true_iff.1 htu
    exact (compositional_keeps K w).conditional (keeps_lower hdef t ht) (keeps_lower hdef u hu) (keeps_lower hdef v hv)
  | .block bindings body, h => by
    obtain ⟨hbindings, hbody⟩ := Bool.and_eq_true_iff.1 h
    exact keeps_lowerBindings hdef bindings hbindings (keeps_lower hdef body hbody)
  | .binding name init, h => ((compositional_keeps K w).allocate name (keeps_lower hdef init h)).map _
  | .global name _, _ => keeps_globalVariable name
  | .prototype proto, _ => keeps_prototype proto true
  | .function proto body span, h => hdef proto body span h
  | .statements first rest, h => by
    obtain ⟨hfirst, hrest⟩ := Bool.and_eq_true_iff.1 h
    exact (keeps_within _ (keeps_lower hdef first hfirst)).andThen fun v => keeps_lowerStatements hdef 2 v rest hrest
  | .openStatements first rest last, h => by
    obtain ⟨hinit, hlast⟩ := Bool.and_eq_true_iff.1 h
    obtain ⟨hfirst, hrest⟩ := Bool.and_eq_true_iff.1 hinit
    exact (keeps_within _ (keeps_lower hdef first hfirst)).andThen fun v =>
      (keeps_lowerStatements hdef 2 v rest hrest).discard.andThen fun _ =>
        keeps_within _ (keeps_lower hdef last hlast)
  | .assign name t, h => (compositional_keeps K w).assign name (keeps_lower hdef t h)
  | .increment name, _ => (compositional_keeps K w).increment name
  | .forLoop (.declare name init) cond step body, h | .forLoop (.assign name init) cond step body, h => by
    obtain ⟨h₃, hbody⟩ := Bool.and_eq_true_iff.1 h
    obtain ⟨h₂, hstep⟩ := Bool.and_eq_true_iff.1 h₃
    obtain ⟨hinit, hcond⟩ := Bool.and_eq_true_iff.1 h₂
    have hheader := keeps_lower hdef init hinit
    refine (compositional_keeps K w).forLoop (fun _ _ heq => ?_) (keeps_lower hdef cond hcond)
      (keeps_lower hdef step hstep) (keeps_lower hdef body hbody)
    rcases heq with heq | heq <;> cases heq
    exact hheader
  | .forLoop (.increment name) cond step body, h => by
    obtain ⟨h₂, hbody⟩ := Bool.and_eq_true_iff.1 h
    obtain ⟨hcond, hstep⟩ := Bool.and_eq_true_iff.1 h₂
    refine (compositional_keeps K w).forLoop (fun _ _ heq => ?_) (keeps_lower hdef cond hcond)
      (keeps_lower hdef step hstep) (keeps_lower hdef body hbody)
    rcases heq with heq | heq <;> cases heq

theorem keeps_lowerItems
    (hdef : ∀ proto body span, P body = true → Keeps (K.At w) (Lower.function proto span (lower body)) anything) :
    (last : Value) → (items : List Tree) → bodiesAllIn P items = true → Keeps (K.At w) (lowerItems last items) anything
  | _, [], _ => .pure trivial
  | last, t :: ts, h => by
    obtain ⟨ht, hts⟩ := Bool.and_eq_true_iff.1 h
    exact (keeps_recovering last _ (keeps_lower hdef t ht)).andThen fun v => keeps_lowerItems hdef v ts hts

theorem keeps_lowerArgs
    (hdef : ∀ proto body span, P body = true → Keeps (K.At w) (Lower.function proto span (lower body)) anything)
    (callee : String) : (index : Nat) → (args : List Tree) → bodiesAllIn P args = true →
    Keeps (K.At w) (lowerArgs callee index args) anything
  | _, [], _ => .pure trivial
  | index, t :: ts, h => by
    obtain ⟨ht, hts⟩ := Bool.and_eq_true_iff.1 h
    exact (keeps_within _ ((compositional_keeps K w).asFloat (keeps_lower hdef t ht))).andThen fun _ =>
      (keeps_lowerArgs hdef callee (index + 1) ts hts).andThen fun _ => .pure trivial

theorem keeps_lowerStatements
    (hdef : ∀ proto body span, P body = true → Keeps (K.At w) (Lower.function proto span (lower body)) anything) :
    (index : Nat) → (last : Value) → (ts : List Tree) → bodiesAllIn P ts = true →
    Keeps (K.At w) (lowerStatements index last ts) anything
  | _, _, [], _ => .pure trivial
  | index, _, t :: ts, h => by
    obtain ⟨ht, hts⟩ := Bool.and_eq_true_iff.1 h
    exact (keeps_within _ (keeps_lower hdef t ht)).andThen fun v => keeps_lowerStatements hdef (index + 1) v ts hts

theorem keeps_lowerBindings
    (hdef : ∀ proto body span, P body = true → Keeps (K.At w) (Lower.function proto span (lower body)) anything) :
    (bindings : List (String × Tree)) → bodiesAllInBindings P bindings = true → {body : Lower Value} →
    Keeps (K.At w) body anything → Keeps (K.At w) (lowerBindings bindings body) anything
  | [], _, _, hbody => hbody
  | (name, init) :: rest, h, _, hbody => by
    obtain ⟨hinit, hrest⟩ := Bool.and_eq_true_iff.1 h
    exact (compositional_keeps K w).withBinding name (keeps_lower hdef init hinit)
      (keeps_lowerBindings hdef rest hrest hbody)

end

end


/-! ## Definitions -/

/-- Inside a function a definition fails and changes nothing. -/
theorem keeps_function_inside {name : String} (proto : Prototype) (span : Span) (body : Lower Value) :
    Keeps (K.At (some name)) (Lower.function proto span body) anything := by
  intro s hs
  have hpos : s.builder.position.isSome = true := by
    obtain ⟨p, hp, -⟩ := Option.map_eq_some_iff.1 hs.1.1
    rw [hp]
    rfl
  have hget : (get : Lower Lowering) s = .ok s s := rfl
  rw [Lower.function, bind_of_ok hget, hpos]
  exact hs

theorem keeps_showFunction {s : Lowering} (h : K.At w s) (name : String) (span : Span)
    (hcheck : s.module.checkFunction name = .ok () ∨ ∀ ds, K.diagnostics ds) :
    ∃ s', Lower.showFunction name span s = .ok (.function name) s' ∧ K.At w s' := by
  have hget : (get : Lower Lowering) s = .ok s s := rfl
  have hchecked : ∃ s₁, Lower.checkFunction name span s = .ok () s₁ ∧ K.At w s₁ := by
    rw [Lower.checkFunction, bind_of_ok hget]
    cases hc : s.module.checkFunction name with
    | ok u => exact ⟨s, rfl, h⟩
    | error d =>
      rw [hc] at hcheck
      obtain hcheck | hall := hcheck
      · cases hcheck
      · exact ⟨_, rfl, h.1, hall _⟩
  obtain ⟨s₁, hs₁, h₁⟩ := hchecked
  have hfunction : Lower.build (.function? name) s₁ = .ok (s₁.module.function? name) s₁ := rfl
  rw [Lower.showFunction, bind_of_ok hs₁, bind_of_ok hfunction]
  cases s₁.module.function? name with
  | none => exact ⟨s₁, rfl, h₁⟩
  | some f => exact ⟨_, rfl, h₁⟩

/-- A definition keeps up an invariant if the body keeps it up inside the function, and it holds outside when
the function is complete, and when it is given up. -/
theorem keeps_function_outside {proto : Prototype} {span : Span} {body : Lower Value}
    (hopen : ∀ {m}, K.module none m → m.hasSymbol proto.name = false →
      K.module (some proto.name) (m.addFunction (.declare proto.name proto.params)))
    (hbody : Keeps (K.At (some proto.name)) body anything)
    (hclose : ∀ {s s₁}, K.At none s → s.module.hasSymbol proto.name = false →
      Lower.functionBody proto body (Site.opening s proto).state = .ok () s₁ → K.At (some proto.name) s₁ →
      K.module none s₁.module ∧ (s₁.module.checkFunction proto.name = .ok () ∨ ∀ ds, K.diagnostics ds))
    (habandon : ∀ {m}, K.module (some proto.name) m → K.module none (m.removeFunction proto.name)) :
    Keeps (K.At none) (Lower.function proto span body) anything := by
  intro s hs
  have hpos : s.builder.position = none := Option.map_eq_none_iff.1 hs.1.1
  cases hnew : s.module.hasSymbol proto.name with
  | true =>
    rw [function_of_used hpos hnew]
    exact hs
  | false =>
    have hopening : K.At (some proto.name) (Site.opening s proto).state :=
      ⟨⟨rfl, K.modify (hopen hs.1.2 hnew) fun _ _ => rfl⟩, hs.2⟩
    have hstep := Lower.keeps_functionBody proto hbody _ hopening
    rw [function_of_new hpos hnew]
    cases ho : Lower.functionBody proto body (Site.opening s proto).state with
    | ok u s₁ =>
      rw [ho] at hstep
      obtain ⟨hmodule, hcheck⟩ := hclose hs hnew ho hstep.1
      have hinside : Lower.insideFunction proto.name (Lower.functionBody proto body) (Site.opening s proto).state =
          .ok () { s₁ with builder := s₁.builder.clearInsertPoint } := by
        rw [Lower.insideFunction, ho]
      have hcleared : K.At none { s₁ with builder := s₁.builder.clearInsertPoint } := ⟨⟨rfl, hmodule⟩, hstep.1.2⟩
      obtain ⟨s₂, hs₂, h₂⟩ := keeps_showFunction hcleared proto.name span hcheck
      rw [bind_of_ok hinside, hs₂]
      exact ⟨h₂, trivial⟩
    | error e s₁ =>
      rw [ho] at hstep
      have hinside : Lower.insideFunction proto.name (Lower.functionBody proto body) (Site.opening s proto).state =
          .error (e.within (.functionBody proto.name))
            { s₁ with builder := s₁.builder.clearInsertPoint.removeFunction proto.name } := by
        rw [Lower.insideFunction, ho]
      rw [bind_of_error hinside]
      exact ⟨⟨rfl, habandon hstep.1.2⟩, hstep.2⟩

mutual

theorem bodiesAll_true : (t : Tree) → t.bodiesAll (fun _ => true) = true
  | .sequence items => bodiesAllIn_true items
  | .number _ | .var _ | .global .. | .prototype _ | .increment _ | .function .. => rfl
  | .unary _ t | .unaryLogical _ t | .binding _ t | .assign _ t => bodiesAll_true t
  | .binary _ t u | .logical _ t u => Bool.and_eq_true_iff.2 ⟨bodiesAll_true t, bodiesAll_true u⟩
  | .call _ args => bodiesAllIn_true args
  | .conditional t u v => by simp [Tree.bodiesAll, bodiesAll_true t, bodiesAll_true u, bodiesAll_true v]
  | .block bindings body => Bool.and_eq_true_iff.2 ⟨bodiesAllInBindings_true bindings, bodiesAll_true body⟩
  | .statements first rest => Bool.and_eq_true_iff.2 ⟨bodiesAll_true first, bodiesAllIn_true rest⟩
  | .openStatements first rest last => by
    simp [Tree.bodiesAll, bodiesAll_true first, bodiesAllIn_true rest, bodiesAll_true last]
  | .forLoop (.declare _ init) cond step body | .forLoop (.assign _ init) cond step body => by
    simp [Tree.bodiesAll, bodiesAll_true init, bodiesAll_true cond, bodiesAll_true step, bodiesAll_true body]
  | .forLoop (.increment _) cond step body => by
    simp [Tree.bodiesAll, bodiesAll_true cond, bodiesAll_true step, bodiesAll_true body]

theorem bodiesAllIn_true : (ts : List Tree) → bodiesAllIn (fun _ => true) ts = true
  | [] => rfl
  | t :: ts => Bool.and_eq_true_iff.2 ⟨bodiesAll_true t, bodiesAllIn_true ts⟩

theorem bodiesAllInBindings_true : (bindings : List (String × Tree)) →
    bodiesAllInBindings (fun _ => true) bindings = true
  | [] => rfl
  | (_, init) :: rest => Bool.and_eq_true_iff.2 ⟨bodiesAll_true init, bodiesAllInBindings_true rest⟩

end

/-- Inside a function every tree keeps up the invariant. -/
theorem keeps_lower_inside (name : String) (t : Tree) : Keeps (K.At (some name)) (lower t) anything :=
  keeps_lower (fun proto body span _ => keeps_function_inside proto span (lower body)) t (bodiesAll_true t)

end

end Monofloat
