import Monofloat.Lowering.Program
import Monofloat.Proofs.Branching

/-!
# Lowering trees inside a function

A declaration inside a function changes the module around the function, and nothing in it. With that there is a
lemma for every construct, and a tree without a sequence inside keeps to its scoping.
-/

namespace Monofloat

open Monofloat.Ir Monofloat.Ir.Function

/-! ## More functions and globals -/

namespace Ir.Module

theorem function?_addFunction (m : Module) (g : Function) (name : String) :
    (m.addFunction g).function? name =
      ((m.function? name).orElse fun _ => if name = g.name then some g else none) := by
  unfold function? addFunction
  rw [List.find?_append]
  cases m.functions.find? (·.name = name) with
  | some f => rfl
  | none => by_cases h : name = g.name <;> simp [h, eq_comm]

theorem global?_addGlobal (m : Module) (g : Global) (name : String) :
    (m.addGlobal g).global? name = ((m.global? name).orElse fun _ => if name = g.name then some g else none) := by
  unfold global? addGlobal
  rw [List.find?_append]
  cases m.globals.find? (·.name = name) with
  | some f => rfl
  | none => by_cases h : name = g.name <;> simp [h, eq_comm]

theorem modifyFirst_append {name : String} {fs : List Function} (h : (fs.find? (·.name = name)).isSome)
    (g : Function → Function) (more : List Function) :
    modifyFirst name g (fs ++ more) = modifyFirst name g fs ++ more := by
  induction fs with
  | nil => cases h
  | cons f fs ih =>
    rw [List.cons_append, modifyFirst, modifyFirst]
    by_cases hf : f.name = name
    · rw [if_pos hf, if_pos hf, List.cons_append]
    · rw [if_neg hf, if_neg hf, List.cons_append, ih (by simpa [hf] using h)]

theorem modifyFunction_addFunction {m : Module} {name : String} (h : (m.function? name).isSome)
    (g : Function → Function) (f : Function) :
    (m.modifyFunction name g).addFunction f = (m.addFunction f).modifyFunction name g := by
  simp only [modifyFunction, addFunction, modifyFirst_append h]

theorem arity?_addFunction {m : Module} {g : Function} (h : m.arity? g.name = none) (name : String) :
    (m.addFunction g).arity? name = if name = g.name then some g.arity else m.arity? name := by
  unfold arity? at h ⊢
  rw [function?_addFunction]
  by_cases hn : name = g.name
  · subst hn
    rw [Option.map_eq_none_iff] at h
    simp [h]
  · cases m.function? name <;> simp [hn]

theorem covers_addFunction {m : Module} {g : Function} (h : m.arity? g.name = none) :
    m.Covers (m.addFunction g) := by
  refine ⟨fun {name k} hk => ?_, id⟩
  rw [arity?_addFunction h, if_neg]
  · exact hk
  · rintro rfl
    rw [h] at hk
    cases hk

theorem covers_addGlobal (m : Module) (g : Global) : m.Covers (m.addGlobal g) := by
  refine ⟨id, fun {name} h => ?_⟩
  obtain ⟨g', hg'⟩ := Option.isSome_iff_exists.1 h
  rw [global?_addGlobal, hg']
  rfl

theorem hasSymbol_eq (m : Module) (name : String) :
    m.hasSymbol name = ((m.arity? name).isSome || (m.global? name).isSome) := by
  rw [hasSymbol, arity?, Option.isSome_map]

section

variable {m : Module} {name : String}

theorem function?_of_new (h : m.hasSymbol name = false) : m.function? name = none := by
  rw [hasSymbol, Bool.or_eq_false_iff] at h
  simpa using h.1

theorem global?_of_new (h : m.hasSymbol name = false) : m.global? name = none := by
  rw [hasSymbol, Bool.or_eq_false_iff] at h
  simpa using h.2

theorem arity?_of_new (h : m.hasSymbol name = false) : m.arity? name = none := by
  rw [arity?, function?_of_new h]
  rfl

end

end Ir.Module

theorem Ir.Function.arity_declare (name : String) (params : List String) :
    (Function.declare name params).arity = params.length := NameTable.length_freshAll _ _

namespace Ir

theorem Builder.put_addFunction {b : Builder} {f : Function} {c : BlockId} (h : b.Hosts f.name) (g : Function) :
    { b.put f c with module := (b.put f c).module.addFunction g } =
      ({ b with module := b.module.addFunction g } : Builder).put f c := by
  simp only [Builder.put, Module.modifyFunction_addFunction h]

end Ir

/-! ## Declarations inside a function -/

namespace Site

/-- The site in another module, with another text shown. -/
def inModule (p : Site) (m : Module) (echo : String) : Site :=
  { p with base := { p.base with builder := { p.base.builder with module := m }, echo := echo } }

variable {p : Site} {W D : List BlockId}

theorem Good.inModule (h : p.Good W D) {m : Module} (hm : p.base.module.Covers m) (echo : String) :
    (p.inModule m echo).Good W D := ⟨h.underway.covers hm, hm.arity h.hosts, h.slots⟩

theorem before_inModule {m : Module} (hm : p.base.module.Covers m) (echo : String) :
    p.Before all (p.inModule m echo) := ⟨.refl _, hm, id⟩

theorem hasSymbol_state (h : p.Good W D) (name : String) :
    p.state.module.hasSymbol name = p.base.module.hasSymbol name := by
  rw [Module.hasSymbol_eq, Module.hasSymbol_eq, Module.arity?, h.arity?_state]
  rfl

theorem declareFunction_state (h : p.Good W D) {name : String} (params : List String)
    (hnew : p.base.module.hasSymbol name = false) :
    Lower.build (.declareFunction name params) p.state =
      .ok () (p.inModule (p.base.module.addFunction (.declare name params)) p.base.echo).state := by
  have hbuild := Build.declareFunction_of_new params ((hasSymbol_state h name).trans hnew)
  rw [show p.state.builder = p.base.builder.put p.function p.block from rfl,
    Builder.put_addFunction h.hosts_builder] at hbuild
  exact build_of_ok hbuild

theorem declareGlobal_state (h : p.Good W D) {name : String} (hnew : p.base.module.hasSymbol name = false) :
    Lower.build (.declareGlobal name) p.state =
      .ok { name := name } (p.inModule (p.base.module.addGlobal { name := name }) p.base.echo).state :=
  build_of_ok (Build.declareGlobal_of_new ((hasSymbol_state h name).trans hnew))

end Site

open Site in
theorem refines_globalVariable (name : String) : Refines (Lower.globalVariable name) (.global name) := by
  intro W D p h
  have hsymbol := hasSymbol_state h name
  have hnames : p.names.isSymbol name = p.base.module.hasSymbol name := (Module.hasSymbol_eq _ _).symm
  show Yields all W D p ((if p.state.module.hasSymbol name then _ else _ : Lower Value) p.state)
    (if p.names.isSymbol name then _ else _) (p.names.addGlobal name) _
  rw [hsymbol, hnames]
  cases hnew : p.base.module.hasSymbol name with
  | true => exact yields_fail
  | false =>
    let m := p.base.module.addGlobal { name := name }
    have hm : p.base.module.Covers m := Module.covers_addGlobal _ _
    have hglobal : ∀ x, (m.global? x).isSome = (decide (x = name) || (p.base.module.global? x).isSome) := by
      intro x
      rw [Module.global?_addGlobal]
      by_cases hx : x = name <;> cases p.base.module.global? x <;> simp [hx]
    refine .step (declareGlobal_state h hnew) (before_inModule hm _) ?_
    have hemit : ∀ text, Lower.emitText text (p.inModule m p.base.echo).state =
        .ok () (p.inModule m (p.base.echo ++ text)).state := fun _ => rfl
    refine .step (hemit _) (before_inModule (.refl _) _) ?_
    refine .ok rfl (h.inModule hm _) (.refl _) ?_ (.address (.global ?_) rfl)
    · exact congrArg (fun g => { p.names with isGlobal := g }) (funext hglobal)
    · rw [show (p.inModule m _).base.module = m from rfl, hglobal]
      simp


open Site in
theorem refines_prototype (proto : Prototype) : Refines (Lower.prototype proto true) (.prototype proto) := by
  intro W D p h
  have hfunction : Lower.build (.function? proto.name) p.state = .ok (p.state.module.function? proto.name) p.state := rfl
  have hglobal : Lower.build (.global? proto.name) p.state =
      .ok ((p.base.module.global? proto.name).map fun g => .global g.name) p.state := rfl
  have harity : (p.state.module.function? proto.name).map Function.arity = p.names.arity? proto.name :=
    h.arity?_state proto.name
  refine .step hfunction (.refl p) ?_
  unfold Scoping.prototype
  cases hf : p.state.module.function? proto.name with
  | some f =>
    rw [hf] at harity
    simp only [← harity, Option.map_some]
    by_cases hn : f.arity = proto.params.length
    · rw [if_pos hn, if_pos hn]
      refine yields_pure h (.function (.function ?_))
      rw [show p.base.module.arity? proto.name = _ from harity.symm]
      rfl
    · rw [if_neg hn, if_neg hn]
      exact yields_fail
  | none =>
    rw [hf] at harity
    simp only [← harity, Option.map_none]
    refine .step hglobal (.refl p) ?_
    rw [Option.isSome_map]
    show Yields all W D p _ (if (p.base.module.global? proto.name).isSome then _ else _) _ _
    cases hg : (p.base.module.global? proto.name).isSome with
    | true => exact yields_fail
    | false =>
      let g := Function.declare proto.name proto.params
      let m := p.base.module.addFunction g
      have hnone : p.base.module.arity? g.name = none := harity.symm
      have hm : p.base.module.Covers m := Module.covers_addFunction hnone
      have hnew : p.base.module.hasSymbol proto.name = false := by
        rw [Module.hasSymbol_eq, show p.base.module.arity? proto.name = none from hnone, hg]
        rfl
      have harity' : ∀ x, m.arity? x = if x = proto.name then some proto.params.length else p.base.module.arity? x := by
        intro x
        rw [Module.arity?_addFunction hnone, Function.arity_declare]
        rfl
      have hnames : ∀ echo, (p.inModule m echo).names = p.names.addFunction proto.name proto.params.length :=
        fun _ => congrArg (fun a => { p.names with arity? := a }) (funext harity')
      have hvalue : ∀ echo, IsValue (some proto.name) (p.inModule m echo) (.function proto.name) := fun _ =>
        .function (.function (by rw [show (p.inModule m _).base.module = m from rfl, harity', if_pos rfl]; rfl))
      refine .step (declareFunction_state h proto.params hnew) (before_inModule hm _) ?_
      refine .step (a := (p.inModule m p.base.echo).state.module.function? proto.name) rfl (.refl _) ?_
      cases (p.inModule m p.base.echo).state.module.function? proto.name with
      | none => exact .ok rfl (h.inModule hm _) (.refl _) (hnames _) (hvalue _)
      | some f =>
        have hemit : Lower.emitText (f.text ++ "\n") (p.inModule m p.base.echo).state =
            .ok () (p.inModule m (p.base.echo ++ (f.text ++ "\n"))).state := rfl
        exact .step hemit (before_inModule (.refl _) _)
          (.ok rfl (h.inModule hm _) (.refl _) (hnames _) (hvalue _))

/-- No function can be defined inside another one. -/
theorem refines_function (proto : Prototype) (span : Span) (body : Lower Value) :
    Refines (Lower.function proto span body) (.failing (.nestedFunction proto.name)) :=
  fun _ _ _ _ => yields_fail

/-! ## Statements -/

/-- A step that goes on from the value of a statement before it, which may be the function `last?`. -/
def RefinesFrom (last? : Option String) (step : Value → Lower Value) (a : Scoping) : Prop :=
  ∀ ⦃W D p v⦄, p.Good W D → IsValue last? p v →
    Yields Site.all W D p (step v p.state) (a.offences p.names) (a.after p.names) (IsValue a.function?)

theorem refinesFrom_pure (last? : Option String) : RefinesFrom last? pure { function? := last? } :=
  fun _ _ _ _ h hv => yields_pure h hv

theorem refines_statement (index : Nat) {first : Lower Value} {rest : Value → Lower Value} {a b : Scoping}
    (ha : Refines first a) (hb : RefinesFrom a.function? rest b) :
    Refines (Lower.within (.statement index) first >>= rest) (.statement index a b) := by
  intro W D p h
  refine ((ha h).within _).bind fun v q hq _ hn hv => ?_
  have hrest := hb hq hv
  rw [hn] at hrest
  exact hrest

theorem RefinesFrom.of_refines {last? : Option String} {step : Lower Value} {a : Scoping} (h : Refines step a) :
    RefinesFrom last? (fun _ => step) a := fun _ _ _ _ hp _ => h hp

/-- A value that is not used may be forgotten. -/
theorem discard_bind {α β γ : Type} (x : Lower α) (f : α → Lower β) (g : Unit → Lower γ) :
    discard (x >>= f) >>= g = x >>= fun a => discard (f a) >>= g := by
  simp only [discard_eq_bind, bind_assoc]

/-! ## Trees -/

mutual

/-- The tree has no sequence inside. -/
def Tree.isFlat : Tree → Bool
  | .sequence _ => false
  | .number _ | .var _ | .global .. | .prototype _ | .increment _ => true
  | .unary _ t | .unaryLogical _ t | .binding _ t | .function _ t _ | .assign _ t => t.isFlat
  | .binary _ t u | .logical _ t u => t.isFlat && u.isFlat
  | .call _ args => areFlat args
  | .conditional t u v => t.isFlat && u.isFlat && v.isFlat
  | .block bindings body => bindingsFlat bindings && body.isFlat
  | .statements first rest => first.isFlat && areFlat rest
  | .openStatements first rest last => first.isFlat && areFlat rest && last.isFlat
  | .forLoop (.declare _ init) cond step body => init.isFlat && cond.isFlat && step.isFlat && body.isFlat
  | .forLoop (.assign _ init) cond step body => init.isFlat && cond.isFlat && step.isFlat && body.isFlat
  | .forLoop (.increment _) cond step body => cond.isFlat && step.isFlat && body.isFlat

def areFlat : List Tree → Bool
  | [] => true
  | t :: ts => t.isFlat && areFlat ts

def bindingsFlat : List (String × Tree) → Bool
  | [] => true
  | (_, init) :: rest => init.isFlat && bindingsFlat rest

end

mutual

/-- A tree without a sequence inside keeps to its scoping. -/
theorem refines_lower : (t : Tree) → t.isFlat = true → Refines (lower t) (scoping t)
  | .sequence _, h => by cases h
  | .number x, _ => refines_number x
  | .var name, _ => refines_variableRead name
  | .unary op t, h => refines_unary op (refines_lower t h)
  | .binary op t u, h => by
    obtain ⟨ht, hu⟩ := Bool.and_eq_true_iff.1 h
    exact refines_binary op (refines_lower t ht) (refines_lower u hu)
  | .unaryLogical op t, h => refines_unaryLogical op (refines_lower t h)
  | .logical op t u, h => by
    obtain ⟨ht, hu⟩ := Bool.and_eq_true_iff.1 h
    exact refines_logical op (refines_lower t ht) (refines_lower u hu)
  | .call callee args, h => refines_call callee (refinesArgs_lower callee 1 args h)
  | .conditional t u v, h => by
    obtain ⟨htu, hv⟩ := Bool.and_eq_true_iff.1 h
    obtain ⟨ht, hu⟩ := Bool.and_eq_true_iff.1 htu
    exact refines_conditional (refines_lower t ht) (refines_lower u hu) (refines_lower v hv)
  | .block bindings body, h => by
    obtain ⟨hbindings, hbody⟩ := Bool.and_eq_true_iff.1 h
    exact refines_lowerBindings bindings hbindings (refines_lower body hbody)
  | .binding name init, h => refines_allocate name (refines_lower init h)
  | .global name _, _ => refines_globalVariable name
  | .prototype proto, _ => refines_prototype proto
  | .function proto body span, _ => refines_function proto span (lower body)
  | .statements first rest, h => by
    obtain ⟨hfirst, hrest⟩ := Bool.and_eq_true_iff.1 h
    exact refines_statement 1 (refines_lower first hfirst) (refines_lowerStatements rest hrest 2 _)
  | .openStatements first rest last, h => by
    obtain ⟨hinit, hlast⟩ := Bool.and_eq_true_iff.1 h
    obtain ⟨hfirst, hrest⟩ := Bool.and_eq_true_iff.1 hinit
    have htail := refines_openStatements rest hrest 2 (scoping first).function? (refines_lower last hlast)
    rw [Nat.add_comm] at htail
    exact refines_statement 1 (refines_lower first hfirst) htail
  | .assign name t, h => refines_assign name (refines_lower t h)
  | .increment name, _ => refines_increment name
  | .forLoop (.declare name init) cond step body, h | .forLoop (.assign name init) cond step body, h => by
    obtain ⟨h₃, hbody⟩ := Bool.and_eq_true_iff.1 h
    obtain ⟨h₂, hstep⟩ := Bool.and_eq_true_iff.1 h₃
    obtain ⟨hinit, hcond⟩ := Bool.and_eq_true_iff.1 h₂
    have hheader := refines_lower init hinit
    refine refines_forLoop ?_ (refines_lower cond hcond) (refines_lower step hstep) (refines_lower body hbody)
    constructor
    exact hheader
  | .forLoop (.increment name) cond step body, h => by
    obtain ⟨h₂, hbody⟩ := Bool.and_eq_true_iff.1 h
    obtain ⟨hcond, hstep⟩ := Bool.and_eq_true_iff.1 h₂
    exact refines_forLoop (.increment name) (refines_lower cond hcond) (refines_lower step hstep)
      (refines_lower body hbody)

theorem refinesArgs_lower (callee : String) : (index : Nat) → (args : List Tree) → areFlat args = true →
    RefinesArgs (lowerArgs callee index args) args.length (argumentsScoping callee index args)
  | _, [], _ => refinesArgs_nil
  | index, t :: ts, h => by
    obtain ⟨ht, hts⟩ := Bool.and_eq_true_iff.1 h
    exact refinesArgs_cons callee index (refines_lower t ht) (refinesArgs_lower callee (index + 1) ts hts)

theorem refines_lowerStatements : (ts : List Tree) → areFlat ts = true → (index : Nat) → (last? : Option String) →
    RefinesFrom last? (lowerStatements index · ts) (statementsScoping index last? ts)
  | [], _, _, last? => refinesFrom_pure last?
  | t :: ts, h, index, _ => by
    obtain ⟨ht, hts⟩ := Bool.and_eq_true_iff.1 h
    exact .of_refines (refines_statement index (refines_lower t ht) (refines_lowerStatements ts hts (index + 1) _))

/-- Statements, and one more behind them. -/
theorem refines_openStatements : (ts : List Tree) → areFlat ts = true → (index : Nat) → (last? : Option String) →
    {last : Lower Value} → {a : Scoping} → Refines last a →
    RefinesFrom last? (fun v => do
      discard (lowerStatements index v ts)
      Lower.within (.statement (index + ts.length)) last) (openStatementsScoping index ts a)
  | [], _, index, _, last, a, ha => by
    have hlast := refines_statement index ha (refinesFrom_pure a.function?)
    rw [bind_pure] at hlast
    exact .of_refines hlast
  | t :: ts, h, index, _, last, a, ha => by
    obtain ⟨ht, hts⟩ := Bool.and_eq_true_iff.1 h
    have hrest := refines_openStatements ts hts (index + 1) (scoping t).function? ha
    rw [Nat.add_right_comm, Nat.add_assoc] at hrest
    have hfirst := refines_statement index (refines_lower t ht) hrest
    intro W D p v hp _
    beta_reduce
    rw [lowerStatements, discard_bind]
    exact hfirst hp

theorem refines_lowerBindings : (bindings : List (String × Tree)) → bindingsFlat bindings = true →
    {body : Lower Value} → {a : Scoping} → Refines body a →
    Refines (lowerBindings bindings body) (bindingsScoping bindings a)
  | [], _, _, _, ha => ha
  | (name, init) :: rest, h, _, _, ha => by
    obtain ⟨hinit, hrest⟩ := Bool.and_eq_true_iff.1 h
    exact refines_withBinding name (refines_lower init hinit) (refines_lowerBindings rest hrest ha)

end

end Monofloat
