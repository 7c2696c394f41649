import Monofloat.Proofs.Composition
import Monofloat.Proofs.Definition

/-!
# What lowering depends on

Inside a function, steps work on a `Spot`: the function, its current block and the scope. Of what is around the
function they only see which globals there are and how many parameters the functions have, and they leave all of it
as it is. `LocalAt` says so of a step at a spot. Operations on the current function are local, and so is the
lowering of every expression and of the body of a definition, whether it fails or not.
-/

namespace Monofloat

open Monofloat.Ir Monofloat.Ir.Function

/-! ## Local steps -/

/-- What steps inside a function work on. -/
structure Spot where
  function : Function
  block : BlockId
  scope : Scope

/-- The function of the spot is one of those that the names tell of. -/
def Spot.Known (names : Names) (v : Spot) : Prop := names.arity? v.function.name = some v.function.arity

/-- The second spot is one in the same function. -/
structure Spot.Follows (v v' : Spot) : Prop where
  name : v'.function.name = v.function.name
  params : v'.function.params = v.function.params

namespace Spot.Follows

variable {v v' v'' : Spot}

theorem refl (v : Spot) : v.Follows v := ⟨rfl, rfl⟩

theorem trans (h : v.Follows v') (h' : v'.Follows v'') : v.Follows v'' :=
  ⟨h'.name.trans h.name, h'.params.trans h.params⟩

theorem known {names : Names} (h : v.Follows v') (hv : v.Known names) : v'.Known names := by
  unfold Known arity
  rw [h.name, h.params]
  exact hv

end Spot.Follows

/-- The result of a step that leads to the state `s`. -/
def settled {ε S α : Type} (out : Except ε α) (s : S) : EStateM.Result ε S α :=
  match out with
  | .ok a => .ok a s
  | .error e => .error e s

section

variable {ε S B α β : Type} {place : B → Spot → S} {visible : B → Names} {names : Names} {v w : Spot}

/-- With `names` visible around the function, the step comes to the same at the spot whatever else is around it,
and leaves what is around it alone. -/
def LocalAt (place : B → Spot → S) (visible : B → Names) (names : Names) (v : Spot) (step : EStateM ε S α) : Prop :=
  ∃ out v', v.Follows v' ∧ ∀ b, visible b = names → step (place b v) = settled out (place b v')

namespace LocalAt

theorem ok {step : EStateM ε S α} {a : α} (h : ∀ b, visible b = names → step (place b v) = .ok a (place b w))
    (hv : v.Follows w) : LocalAt place visible names v step := ⟨.ok a, w, hv, h⟩

theorem pure (a : α) : LocalAt place visible names v (pure a : EStateM ε S α) := .ok (fun _ _ => rfl) (.refl v)

theorem throw (e : ε) : LocalAt place visible names v (throw e : EStateM ε S α) :=
  ⟨.error e, v, .refl v, fun _ _ => rfl⟩

theorem bind {x : EStateM ε S α} {f : α → EStateM ε S β} (hx : LocalAt place visible names v x)
    (hf : ∀ a v', v.Follows v' → LocalAt place visible names v' (f a)) : LocalAt place visible names v (x >>= f) := by
  obtain ⟨out, v₁, hv₁, hx⟩ := hx
  cases out with
  | error e => exact ⟨.error e, v₁, hv₁, fun b hb => bind_of_error (hx b hb)⟩
  | ok a =>
    obtain ⟨out, v₂, hv₂, hf⟩ := hf a v₁ hv₁
    exact ⟨out, v₂, hv₁.trans hv₂, fun b hb => (bind_of_ok (hx b hb)).trans (hf b hb)⟩

/-- A first step that is known to succeed. -/
theorem step {x : EStateM ε S α} {f : α → EStateM ε S β} {a : α}
    (hx : ∀ b, visible b = names → x (place b v) = .ok a (place b w)) (hv : v.Follows w)
    (hf : LocalAt place visible names w (f a)) : LocalAt place visible names v (x >>= f) := by
  obtain ⟨out, v₂, hv₂, hf⟩ := hf
  exact ⟨out, v₂, hv.trans hv₂, fun b hb => (bind_of_ok (hx b hb)).trans (hf b hb)⟩

end LocalAt

end

/-! ## Operations -/

namespace Ir.Build

/-- The step of the builder is local. -/
abbrev LocalAt {α : Type} (names : Names) (v : Spot) (step : Build α) : Prop :=
  Monofloat.LocalAt (fun b v => Builder.put b v.function v.block) (fun b => b.module.names) names v step

variable {α : Type} {names : Names} {v : Spot}

theorem hosts_of_known (hv : v.Known names) {b : Builder} (hb : b.module.names = names) :
    b.Hosts v.function.name := by
  have harity : b.module.arity? v.function.name = some v.function.arity := by rw [← hb] at hv; exact hv
  rw [Builder.Hosts, ← Option.isSome_map, show (b.module.function? _).map Function.arity = _ from harity]
  rfl

theorem localAt_currentFunction (hv : v.Known names) {f : Function → Build α} (h : LocalAt names v (f v.function)) :
    LocalAt names v (currentFunction >>= f) :=
  .step (fun _ hb => currentFunction_put (hosts_of_known hv hb)) (.refl v) h

/-- The current function is replaced. -/
theorem localAt_replace {f : Function} (hname : f.name = v.function.name) (hparams : f.params = v.function.params)
    (a : α) : LocalAt names v (do modifyFunction v.function.name fun _ => f; return a) := by
  exact .step (w := { v with function := f }) (fun b _ => modifyFunction_put _ rfl hname) ⟨hname, hparams⟩ (.pure a)

theorem localAt_createBlock (hv : v.Known names) (label : String) : LocalAt names v (createBlock label) :=
  localAt_currentFunction hv (localAt_replace (f := v.function.create label) rfl rfl _)

theorem localAt_appendBlock (hv : v.Known names) (label : String) : LocalAt names v (appendBlock label) := by
  have hpoint : ∀ b : Builder, insertPoint (b.put v.function v.block) = .ok _ (b.put v.function v.block) := fun _ => rfl
  refine .step (fun b _ => hpoint b) (.refl v) ?_
  refine .step (fun b hb => currentFunction_put (hosts_of_known hv hb)) (.refl v) ?_
  refine localAt_replace ?_ ?_ _ <;> unfold Function.attach? <;> split <;> rfl

theorem localAt_blockOf (hv : v.Known names) (id : BlockId) : LocalAt names v (blockOf id) := by
  refine localAt_currentFunction hv ?_
  cases v.function.block? id with
  | none => exact .throw _
  | some b => exact .pure b

theorem localAt_attachBlock (hv : v.Known names) (id : BlockId) : LocalAt names v (attachBlock id) := by
  refine (localAt_blockOf hv id).bind fun b v' hv' => localAt_currentFunction (hv'.known hv) ?_
  unfold Function.attach?
  split
  · next f h =>
    split at h
    · cases h
    · cases h
      exact .ok (w := { v' with function := v'.function.attach id }) (fun b _ => modifyFunction_put _ rfl rfl) ⟨rfl, rfl⟩
  · exact .throw _

theorem localAt_labelOf (hv : v.Known names) (id : BlockId) : LocalAt names v (labelOf id) :=
  (localAt_blockOf hv id).bind fun _ _ _ => .pure _

theorem localAt_emit (hv : v.Known names) (i : Instruction) : LocalAt names v (emit i) := by
  have hpoint : ∀ b : Builder, insertPoint (b.put v.function v.block) = .ok _ (b.put v.function v.block) := fun _ => rfl
  refine .step (fun b _ => hpoint b) (.refl v) ((localAt_blockOf hv v.block).bind fun b v' hv' => ?_)
  split
  · exact .throw _
  · rw [← hv'.name]
    exact .ok (w := { v' with function := v'.function.emit v.block i }) (fun b _ => modifyFunction_put _ rfl rfl) ⟨rfl, rfl⟩

theorem localAt_emitResult (hv : v.Known names) (ty : Ty) (i : Nat → Instruction) :
    LocalAt names v (emitResult ty i) := by
  have htemp : LocalAt names v (temp ty .unbounded) :=
    localAt_currentFunction hv (localAt_replace (f := v.function.withTemp ty) rfl rfl _)
  exact htemp.bind fun _ v' hv' => (localAt_emit (hv'.known hv) _).bind fun _ _ _ => .pure _

theorem localAt_alloca (hv : v.Known names) (name : String) : LocalAt names v (alloca name) := by
  refine localAt_currentFunction hv ?_
  cases v.function.entry? with
  | none => exact .throw _
  | some entry =>
    refine .step (w := { v with function := (v.function.freshName name).2 }) (fun b _ => modifyFunction_put _ rfl rfl)
      ⟨rfl, rfl⟩ ?_
    split
    · exact .throw _
    · exact .step (w := { v with function := v.function.reserve entry name })
        (fun b _ => modifyFunction_put (f := (v.function.freshName name).2) _ rfl rfl) ⟨rfl, rfl⟩ (.pure _)

theorem localAt_requireAddress (ptr : Value) : LocalAt names v (requireAddress ptr) := by
  unfold requireAddress
  split
  · exact .pure ()
  · exact .throw _

theorem localAt_labelled (hv : v.Known names) (incoming : List (Value × BlockId)) :
    LocalAt names v (labelled incoming) := by
  induction incoming generalizing v with
  | nil => exact .pure []
  | cons first rest ih =>
    exact (localAt_labelOf hv first.2).bind fun _ v' hv' => (ih (hv'.known hv)).bind fun _ _ _ => .pure _

theorem localAt_valueType (hv : v.Known names) (value : Value) : LocalAt names v (valueType value) := by
  cases value with
  | temp id =>
    have hpoint : ∀ b : Builder, insertPoint (b.put v.function v.block) = .ok _ (b.put v.function v.block) := fun _ => rfl
    refine .step (fun b _ => hpoint b) (.refl v) (.step (a := some v.function) (fun b hb => ?_) (.refl v) ?_)
    · rw [function?_put (hosts_of_known hv hb)]
      exact congrArg (EStateM.Result.ok · _) (if_pos rfl)
    · cases (some v.function).bind (·.tempType? id) with
      | none => exact .throw _
      | some ty => exact .pure ty
  | void => exact .throw _
  | _ => exact .pure _

theorem localAt_global? (name : String) : LocalAt names v (global? name) := by
  refine .ok (a := if names.isGlobal name then some (.global name) else none) (fun b hb => ?_) (.refl v)
  have hglobal : names.isGlobal name = (b.module.global? name).isSome := by rw [← hb]; rfl
  show EStateM.Result.ok ((b.module.global? name).map fun g => Value.global g.name) _ = _
  rw [hglobal]
  cases hg : b.module.global? name with
  | none => rfl
  | some g => rw [Option.map_some, global?_name hg]; rfl

/-- At a spot the functions have as many parameters as the names tell. -/
theorem arity?_put (hv : v.Known names) {b : Builder} (hb : b.module.names = names) (name : String) :
    (b.put v.function v.block).module.arity? name = names.arity? name := by
  rw [Module.arity?, Builder.function?_put (hosts_of_known hv hb)]
  split
  · next heq => rw [heq]; exact hv.symm
  · rw [← hb]; rfl

/-- Whether a function is known. -/
theorem localAt_requireFunction (hv : v.Known names) (callee : String) :
    LocalAt names v (discard (functionNamed callee)) := by
  cases harity : names.arity? callee with
  | none =>
    refine ⟨.error (.unknownFunction callee), v, .refl v, fun b hb => ?_⟩
    have hnone : function? callee (b.put v.function v.block) = .ok none (b.put v.function v.block) :=
      congrArg (EStateM.Result.ok · _) (Option.map_eq_none_iff.1 ((arity?_put hv hb callee).trans harity))
    rw [discard_eq_bind, functionNamed, bind_assoc, bind_of_ok hnone]
    rfl
  | some n =>
    refine .ok (a := ()) (fun b hb => ?_) (.refl v)
    obtain ⟨f, hf, -⟩ := Option.map_eq_some_iff.1 ((arity?_put hv hb callee).trans harity)
    have hsome : function? callee (b.put v.function v.block) = .ok (some f) (b.put v.function v.block) :=
      congrArg (EStateM.Result.ok · _) hf
    rw [discard_eq_bind, functionNamed, bind_assoc, bind_of_ok hsome]
    rfl

/-- Operations on the current function are local. -/
theorem localAt_perform (hv : v.Known names) (op : Operation α) (hop : op.isInner = true) :
    LocalAt names v (op.perform .unbounded) := by
  cases op with
  | declareFunction | function? | removeFunction | declareGlobal | appendBlockIn | setInsertPoint
  | clearInsertPoint => cases hop
  | global? name => exact localAt_global? name
  | appendBlock label => exact localAt_appendBlock hv label
  | createBlock label => exact localAt_createBlock hv label
  | attachBlock id => exact localAt_attachBlock hv id
  | positionAtEnd id => exact .ok (w := { v with block := id }) (fun _ _ => rfl) ⟨rfl, rfl⟩
  | insertBlock => exact .ok (fun _ _ => rfl) (.refl v)
  | valueType value => exact localAt_valueType hv value
  | alloca name => exact localAt_alloca hv name
  | load ptr => exact (localAt_requireAddress ptr).bind fun _ v' hv' => localAt_emitResult (hv'.known hv) _ _
  | store value ptr => exact (localAt_requireAddress ptr).bind fun _ v' hv' => localAt_emit (hv'.known hv) _
  | binary | neg | compare | logical | not | boolToFloat => exact localAt_emitResult hv _ _
  | call callee args =>
    exact (localAt_requireFunction hv callee).bind fun _ v' hv' => localAt_emitResult (hv'.known hv) _ _
  | phi ty incoming => exact (localAt_labelled hv incoming).bind fun _ v' hv' => localAt_emitResult (hv'.known hv) _ _
  | br target => exact (localAt_labelOf hv target).bind fun _ v' hv' => localAt_emit (hv'.known hv) _
  | condBr cond id₁ id₂ =>
    exact (localAt_labelOf hv id₁).bind fun _ v₁ hv₁ => (localAt_labelOf (hv₁.known hv) id₂).bind fun _ v₂ hv₂ =>
      localAt_emit (hv₂.known (hv₁.known hv)) _
  | ret value => exact localAt_emit hv _

end Ir.Build

/-! ## Expressions -/

namespace Lower

/-- The state of lowering at a spot. -/
def atSpot (base : Lowering) (v : Spot) : Lowering := (⟨base, v.function, v.block, v.scope⟩ : Site).state

/-- The step of lowering is local. -/
abbrev LocalAt {α : Type} (names : Names) (v : Spot) (step : Lower α) : Prop :=
  Monofloat.LocalAt atSpot (fun s => s.module.names) names v step

variable {α : Type} {names : Names} {v : Spot}

theorem localAt_build {step : Build α} (h : Build.LocalAt names v step) : LocalAt names v (build step) := by
  obtain ⟨out, v', hv', h⟩ := h
  refine ⟨out.mapError fun e => { cause := .backend e }, { v' with scope := v.scope }, ⟨hv'.name, hv'.params⟩,
    fun s hs => ?_⟩
  have hstep : step (atSpot s v).builder = settled out (s.builder.put v'.function v'.block) := h s.builder hs
  rw [build, hstep]
  cases out <;> rfl

theorem localAt_within (context : LowerContext) {step : Lower α} (h : LocalAt names v step) :
    LocalAt names v (within context step) := by
  obtain ⟨out, v', hv', h⟩ := h
  refine ⟨out.mapError (·.within context), v', hv', fun s hs => ?_⟩
  rw [within, h s hs]
  cases out <;> rfl

theorem localAt_finallyScope (change : Scope → Scope) {step : Lower α} (h : LocalAt names v step) :
    LocalAt names v (finallyScope change step) := by
  obtain ⟨out, v', hv', h⟩ := h
  refine ⟨out, { v' with scope := change v'.scope }, ⟨hv'.name, hv'.params⟩, fun s hs => ?_⟩
  rw [finallyScope, h s hs]
  cases out <;> rfl

theorem localAt_modifyScope (change : Scope → Scope) : LocalAt names v (modifyScope change) :=
  .ok (w := { v with scope := change v.scope }) (fun _ _ => rfl) ⟨rfl, rfl⟩

theorem localAt_call (hv : v.Known names) (callee : String) (count : Nat) {args : Lower (List Value)}
    (h : ∀ {v}, v.Known names → LocalAt names v args) : LocalAt names v (call callee count args) := by
  have hfunction : ∀ s : Lowering, build (.function? callee) (atSpot s v) =
      .ok ((atSpot s v).module.function? callee) (atSpot s v) := fun _ => rfl
  have harity : ∀ {s : Lowering}, s.module.names = names →
      ((atSpot s v).module.function? callee).map Function.arity = names.arity? callee :=
    fun hs => Build.arity?_put hv hs callee
  cases hcallee : names.arity? callee with
  | none =>
    refine ⟨.error { cause := .undefinedFunction callee }, v, .refl v, fun s hs => ?_⟩
    rw [call, bind_of_ok (hfunction s), Option.map_eq_none_iff.1 ((harity hs).trans hcallee)]
    rfl
  | some n =>
    -- With the right number of arguments the call is local because they are.
    have hrest : LocalAt names v (if n ≠ count then fail (.argumentCount callee n count) else do
        let values ← args
        build (.call callee values)) := by
      split
      · exact .throw _
      · exact (h hv).bind fun vs v' hv' => localAt_build (Build.localAt_perform (hv'.known hv) (.call callee vs) rfl)
    obtain ⟨out, v', hv', hrest⟩ := hrest
    refine ⟨out, v', hv', fun s hs => ?_⟩
    obtain ⟨f, hf, hn⟩ := Option.map_eq_some_iff.1 ((harity hs).trans hcallee)
    rw [call, bind_of_ok (hfunction s), hf, ← hrest s hs, ← hn]

/-- Locality goes from the parts of a step to the whole. -/
theorem compositional_local (names : Names) :
    Compositional fun _ step => ∀ v, v.Known names → LocalAt names v step where
  pure a _ _ := .pure a
  fail _ _ _ := .throw _
  bind hx hf v hv := (hx v hv).bind fun a v' hv' => hf a v' (hv'.known hv)
  within context hx v hv := localAt_within context (hx v hv)
  finallyScope change hx v hv := localAt_finallyScope change (hx v hv)
  modifyScope change _ _ := localAt_modifyScope change
  local? name v _ := .ok (a := v.scope.lookup name) (fun _ _ => rfl) (.refl v)
  operation op hop _ hv := localAt_build (Build.localAt_perform hv op (Operation.isInner_of_isCode hop))
  alloca name _ hv := localAt_build (Build.localAt_perform hv (.alloca name) rfl)
  call callee count _ hargs _ hv := localAt_call hv callee count fun hv => hargs _ hv

/-! ## Bodies -/

theorem localAt_spillParams (params : List String) (index : Nat) (hv : v.Known names) {function : String}
    (hname : v.function.name = function) : LocalAt names v (spillParams function index params) := by
  induction params generalizing v index with
  | nil => exact .pure ()
  | cons param params ih =>
    have h := compositional_local names
    refine .step (a := some v.function) (fun s hs => ?_) (.refl v) ?_
    · show EStateM.Result.ok ((s.builder.put v.function v.block).module.function? function) _ = _
      rw [Builder.function?_put (Build.hosts_of_known hv hs), if_pos hname.symm]
    · cases (some v.function).bind (·.param? index) with
      | none => exact .throw _
      | some incoming =>
        refine (h.alloca param v hv).bind fun slot v₁ hv₁ => ?_
        refine (h.operation (.store incoming (.slot slot)) rfl v₁ (hv₁.known hv)).bind fun _ v₂ hv₂ => ?_
        refine (localAt_modifyScope _).bind fun _ v₃ hv₃ => ?_
        have hfollows := (hv₁.trans hv₂).trans hv₃
        exact ih (index + 1) (hfollows.known hv) (hfollows.name.trans hname)

/-- The body of a definition is local. -/
theorem localAt_functionBody (hv : v.Known names) {proto : Prototype} (hname : v.function.name = proto.name)
    {body : Tree} (hbody : body.isExpression = true) : LocalAt names v (functionBody proto (lower body)) := by
  have h := compositional_local names
  refine (localAt_spillParams proto.params 0 hv hname).bind fun _ v₁ hv₁ => ?_
  refine (h.asFloat (h.lower body hbody) v₁ (hv₁.known hv)).bind fun value v₂ hv₂ => ?_
  exact h.operation (.ret value) rfl v₂ (hv₂.known (hv₁.known hv))

end Lower

end Monofloat
