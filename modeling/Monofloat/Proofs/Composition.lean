import Monofloat.Proofs.Expressions
import Monofloat.Proofs.Operations

/-!
# Properties that go from the parts of a step to the whole

Lowering an expression is made of few steps: operations of the builder on the current function, changes of the
scope, lookups, and failures. A property of steps that these have, and that goes from steps to the step that makes
one behind the other, is `Compositional`. Then lowering of every expression has it. A property of which this is known
only for steps that reserve no slot and do not change the scope is `Composable`; what has it are operators,
conditionals and the blocks of loops.
-/

namespace Monofloat

open Monofloat.Ir

/-- A property of steps that goes from the parts of a step to the whole, where the scope is not concerned. A call looks
at its callee, so it is counted among the parts as a whole. -/
structure Composable (P : (α : Type) → Lower α → Prop) : Prop where
  pure : ∀ {α} (a : α), P α (pure a)
  fail : ∀ {α} (cause : LowerCause), P α (Lower.fail cause)
  bind : ∀ {α β} {x : Lower α} {f : α → Lower β}, P α x → (∀ a, P β (f a)) → P β (x >>= f)
  within : ∀ {α} {x : Lower α} (context : LowerContext), P α x → P α (Lower.within context x)
  local? : ∀ name : String, P (Option String) (Lower.local? name)
  operation : ∀ {α} (op : Operation α), op.isCode = true → P α (Lower.build (op.perform .unbounded))
  call : ∀ (callee : String) (count : Nat) {args : Lower (List Value)}, P (List Value) args →
    P Value (Lower.call callee count args)

/-- A property of steps that goes from the parts of a step to the whole. -/
structure Compositional (P : (α : Type) → Lower α → Prop) : Prop extends Composable P where
  alloca : ∀ name : String, P String (Lower.build ((Operation.alloca name).perform .unbounded))
  finallyScope : ∀ {α} {x : Lower α} (change : Scope → Scope), P α x → P α (Lower.finallyScope change x)
  modifyScope : ∀ change : Scope → Scope, P Unit (Lower.modifyScope change)

namespace Composable

variable {P : (α : Type) → Lower α → Prop} (h : Composable P) {step left right : Lower Value}

include h

/-! ## Operands and operators -/

theorem discard {α : Type} {x : Lower α} (hx : P α x) : P Unit (discard x) := by
  rw [discard_eq_bind]
  exact h.bind hx fun _ => h.pure ()

theorem floatValue (v : Value) : P Value (Lower.floatValue v) := by
  refine h.bind (h.operation (.valueType v) rfl) fun ty => ?_
  cases ty with
  | f64 => exact h.pure v
  | bool => exact h.operation (.boolToFloat v) rfl
  | ptr => exact h.operation (.load v) rfl

theorem boolValue (v : Value) : P Value (Lower.boolValue v) := by
  refine h.bind (h.operation (.valueType v) rfl) fun ty => ?_
  split
  · exact h.pure v
  · exact h.bind (h.floatValue v) fun x => h.operation (.compare .one x (.constFloat 0)) rfl

theorem asFloat (hs : P Value step) : P Value (Lower.asFloat step) := h.bind hs h.floatValue

theorem asBool (hs : P Value step) : P Value (Lower.asBool step) := h.bind hs h.boolValue

theorem resolve (name : String) : P Value (Lower.resolve name) := by
  refine h.bind (h.local? name) fun slot? => ?_
  cases slot? with
  | some slot => exact h.pure _
  | none =>
    refine h.bind (h.operation (.global? name) rfl) fun address? => ?_
    cases address? with
    | some address => exact h.pure address
    | none => exact h.fail _

theorem variableRead (name : String) : P Value (Lower.variableRead name) :=
  h.bind (h.resolve name) fun address => h.operation (.load address) rfl

theorem unary (op : Operator) (hs : P Value step) : P Value (Lower.unary op step) := by
  unfold Lower.unary
  split
  · exact h.bind (h.asFloat hs) fun v => h.operation (.neg v) rfl
  · exact h.fail _

theorem binary (op : Operator) (hl : P Value left) (hr : P Value right) : P Value (Lower.binary op left right) := by
  refine h.bind (h.asFloat hl) fun l => h.bind (h.asFloat hr) fun r => ?_
  cases op with
  | add => exact h.operation (.binary .add l r) rfl
  | sub => exact h.operation (.binary .sub l r) rfl
  | mul => exact h.operation (.binary .mul l r) rfl
  | div => exact h.operation (.binary .div l r) rfl
  | less => exact h.operation (.compare .ult l r) rfl
  | equal => exact h.operation (.compare .ueq l r) rfl

theorem unaryLogical (op : Connective) (hs : P Value step) : P Value (Lower.unaryLogical op step) := by
  cases op with
  | not => exact h.bind (h.asBool hs) fun v => h.operation (.not v) rfl
  | _ => exact h.fail _

theorem junction (op : LogicalOp) (hl : P Value left) (hr : P Value right) :
    P Value (Lower.junction op left right) :=
  h.bind (h.asBool hl) fun l => h.bind (h.asBool hr) fun r => h.operation (.logical op l r) rfl

theorem logical (op : Connective) (hl : P Value left) (hr : P Value right) :
    P Value (Lower.logical op left right) := by
  cases op with
  | not => exact h.fail _
  | _ => exact h.junction _ hl hr

/-! ## Bindings and assignments -/

theorem allocate {name : String} (halloca : P String (Lower.build ((Operation.alloca name).perform .unbounded)))
    (hs : P Value step) :
    P String (Lower.allocate name step) :=
  h.bind (h.within _ (h.asFloat hs)) fun v => h.bind halloca fun slot =>
    h.bind (h.operation (.store v (.slot slot)) rfl) fun _ => h.pure slot

theorem assign (name : String) (hs : P Value step) : P Value (Lower.assign name step) :=
  h.bind (h.within _ (h.asFloat hs)) fun v => h.bind (h.resolve name) fun address =>
    h.bind (h.operation (.store v address) rfl) fun _ => h.pure address

theorem increment (name : String) : P Value (Lower.increment name) := by
  refine h.bind (h.local? name) fun slot? => ?_
  cases slot? with
  | none => exact h.fail _
  | some slot =>
    exact h.bind (h.operation (.load (.slot slot)) rfl) fun v =>
      h.bind (h.operation (.binary .add v (.constFloat 1)) rfl) fun next =>
        h.bind (h.operation (.store next (.slot slot)) rfl) fun _ => h.pure _

/-! ## Control flow -/

theorem conditional {cond thenArm elseArm : Lower Value} (hc : P Value cond) (ht : P Value thenArm)
    (he : P Value elseArm) : P Value (Lower.conditional cond thenArm elseArm) :=
  h.bind (h.within _ (h.asBool hc)) fun c => h.bind (h.operation (.appendBlock "trueexp") rfl) fun thenBlock =>
    h.bind (h.operation (.createBlock "falseexp") rfl) fun elseBlock =>
    h.bind (h.operation (.createBlock "endcond") rfl) fun endBlock =>
    h.bind (h.operation (.condBr c thenBlock elseBlock) rfl) fun _ =>
    h.bind (h.operation (.positionAtEnd thenBlock) rfl) fun _ =>
    h.bind (h.within _ (h.asFloat ht)) fun thenValue => h.bind (h.operation .insertBlock rfl) fun thenEnd =>
    h.bind (h.operation (.br endBlock) rfl) fun _ => h.bind (h.operation (.attachBlock elseBlock) rfl) fun _ =>
    h.bind (h.operation (.positionAtEnd elseBlock) rfl) fun _ =>
    h.bind (h.within _ (h.asFloat he)) fun elseValue => h.bind (h.operation .insertBlock rfl) fun elseEnd =>
    h.bind (h.operation (.br endBlock) rfl) fun _ => h.bind (h.operation (.attachBlock endBlock) rfl) fun _ =>
    h.bind (h.operation (.positionAtEnd endBlock) rfl) fun _ =>
    h.operation (.phi .f64 [(thenValue, thenEnd), (elseValue, elseEnd)]) rfl

theorem loopBlocks {cond step body : Lower Value} (hc : P Value cond) (hs : P Value step) (hb : P Value body) :
    P Value (Lower.loopBlocks cond step body) :=
  h.bind (h.operation (.appendBlock "cond") rfl) fun condBlock =>
    h.bind (h.operation (.createBlock "loop") rfl) fun loopBlock =>
    h.bind (h.operation (.createBlock "merge") rfl) fun mergeBlock =>
    h.bind (h.operation (.br condBlock) rfl) fun _ => h.bind (h.operation (.positionAtEnd condBlock) rfl) fun _ =>
    h.bind (h.within _ (h.asBool hc)) fun c => h.bind (h.operation (.attachBlock loopBlock) rfl) fun _ =>
    h.bind (h.operation (.condBr c loopBlock mergeBlock) rfl) fun _ =>
    h.bind (h.operation (.positionAtEnd loopBlock) rfl) fun _ => h.bind (h.discard (h.within _ hb)) fun _ =>
    h.bind (h.discard (h.within _ hs)) fun _ => h.bind (h.operation (.br condBlock) rfl) fun _ =>
    h.bind (h.operation (.attachBlock mergeBlock) rfl) fun _ =>
    h.bind (h.operation (.positionAtEnd mergeBlock) rfl) fun _ => h.pure _

/-- What a loop does at first with a variable that is in scope. -/
theorem reusingHeader {header : LoopHeader (Lower Value)} (slot : String)
    (hheader : ∀ name init, header = .declare name init ∨ header = .assign name init → P Value init) :
    P Unit (Lower.loopHeader header (some slot)) := by
  cases header with
  | declare name init =>
    exact h.bind (h.within _ (h.asFloat (hheader name init (.inl rfl)))) fun v =>
      h.operation (.store v (.slot slot)) rfl
  | assign name init => exact h.discard (h.assign name (hheader name init (.inr rfl)))
  | increment name => exact h.discard (h.increment name)

end Composable

namespace Compositional

variable {P : (α : Type) → Lower α → Prop} (h : Compositional P) {step left right : Lower Value}

include h

theorem allocate (name : String) (hs : P Value step) : P String (Lower.allocate name step) :=
  h.toComposable.allocate (h.alloca name) hs

theorem withBinding (name : String) (hl : P Value left) (hr : P Value right) :
    P Value (Lower.withBinding name left right) :=
  h.bind (h.allocate name hl) fun _ => h.bind (h.local? name) fun _ =>
    h.bind (h.modifyScope _) fun _ => h.finallyScope _ hr

theorem bindLoopVariable (name : String) (hs : P Value step) : P Unit (Lower.bindLoopVariable name step) :=
  h.bind (h.allocate name hs) fun _ => h.modifyScope _

/-- A loop whose header has no step of its own, or one with the property. -/
theorem forLoop {header : LoopHeader (Lower Value)} {cond step body : Lower Value}
    (hheader : ∀ name init, header = .declare name init ∨ header = .assign name init → P Value init)
    (hc : P Value cond) (hs : P Value step) (hb : P Value body) :
    P Value (Lower.forLoop header cond step body) := by
  refine h.bind (h.local? header.name) fun reused => ?_
  have hloop : P Value (do Lower.loopHeader header reused; Lower.loopBlocks cond step body) := by
    refine h.bind ?_ fun _ => h.loopBlocks hc hs hb
    cases reused with
    | some slot => exact h.reusingHeader slot hheader
    | none =>
      cases header with
      | declare name init => exact h.bindLoopVariable name (hheader name init (.inl rfl))
      | assign name init => exact h.bindLoopVariable name (hheader name init (.inr rfl))
      | increment name => exact h.fail _
  cases reused with
  | none => exact hloop
  | some slot => exact h.finallyScope _ hloop

omit h in
mutual

/-- Lowering of an expression has the property. -/
theorem lower (h : Compositional P) : (t : Tree) → t.isExpression = true → P Value (lower t)
  | .number _, _ => h.pure _
  | .var name, _ => h.variableRead name
  | .unary op t, ht => h.unary op (lower h t (Bool.and_eq_true_iff.1 ht).2)
  | .binary op t u, htu => by
    obtain ⟨ht, hu⟩ := Bool.and_eq_true_iff.1 htu
    exact h.binary op (lower h t ht) (lower h u hu)
  | .unaryLogical op t, ht => h.unaryLogical op (lower h t (Bool.and_eq_true_iff.1 ht).2)
  | .logical op t u, htu => by
    obtain ⟨ht, hu⟩ := Bool.and_eq_true_iff.1 (Bool.and_eq_true_iff.1 htu).2
    exact h.logical op (lower h t ht) (lower h u hu)
  | .call callee args, hargs => h.call callee args.length (lowerArgs h callee 1 args hargs)
  | .conditional t u v, htuv => by
    obtain ⟨htu, hv⟩ := Bool.and_eq_true_iff.1 htuv
    obtain ⟨ht, hu⟩ := Bool.and_eq_true_iff.1 htu
    exact h.conditional (lower h t ht) (lower h u hu) (lower h v hv)
  | .block bindings body, hblock => by
    obtain ⟨hbindings, hbody⟩ := Bool.and_eq_true_iff.1 hblock
    exact lowerBindings h bindings hbindings (lower h body hbody)
  | .statements first rest, hstatements => by
    obtain ⟨hfirst, hrest⟩ := Bool.and_eq_true_iff.1 hstatements
    exact h.bind (h.within _ (lower h first hfirst)) fun v => lowerStatements h 2 v rest hrest
  | .assign name t, ht => h.assign name (lower h t ht)
  | .increment name, _ => h.increment name
  | .forLoop (.declare name init) cond step body, hloop | .forLoop (.assign name init) cond step body, hloop => by
    obtain ⟨h₃, hbody⟩ := Bool.and_eq_true_iff.1 hloop
    obtain ⟨h₂, hstep⟩ := Bool.and_eq_true_iff.1 h₃
    obtain ⟨hinit, hcond⟩ := Bool.and_eq_true_iff.1 h₂
    have hheader := lower h init hinit
    refine h.forLoop (fun _ _ heq => ?_) (lower h cond hcond) (lower h step hstep) (lower h body hbody)
    rcases heq with heq | heq <;> cases heq
    exact hheader

theorem lowerArgs (h : Compositional P) (callee : String) : (index : Nat) → (args : List Tree) →
    areExpressions args = true → P (List Value) (lowerArgs callee index args)
  | _, [], _ => h.pure []
  | index, t :: ts, hts => by
    obtain ⟨ht, hts⟩ := Bool.and_eq_true_iff.1 hts
    exact h.bind (h.within _ (h.asFloat (lower h t ht))) fun v =>
      h.bind (lowerArgs h callee (index + 1) ts hts) fun vs => h.pure (v :: vs)

theorem lowerStatements (h : Compositional P) : (index : Nat) → (last : Value) → (ts : List Tree) →
    areExpressions ts = true → P Value (lowerStatements index last ts)
  | _, last, [], _ => h.pure last
  | index, _, t :: ts, hts => by
    obtain ⟨ht, hts⟩ := Bool.and_eq_true_iff.1 hts
    exact h.bind (h.within _ (lower h t ht)) fun v => lowerStatements h (index + 1) v ts hts

theorem lowerBindings (h : Compositional P) : (bindings : List (String × Tree)) →
    bindingsExpressions bindings = true → {body : Lower Value} → P Value body → P Value (lowerBindings bindings body)
  | [], _, _, hbody => hbody
  | (name, init) :: rest, hbindings, _, hbody => by
    obtain ⟨hinit, hrest⟩ := Bool.and_eq_true_iff.1 hbindings
    exact h.withBinding name (lower h init hinit) (lowerBindings h rest hrest hbody)

end

end Compositional

end Monofloat
