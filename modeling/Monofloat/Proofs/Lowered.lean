import Monofloat.Lowering.Construct
import Monofloat.Proofs.Site

/-!
# Constructs keep to their scoping

A step that lowers a construct refines its `Scoping`: it fails with the construct's first offence, or comes to a
site where the names are those behind the construct. In particular the builder is never misused. There is one
lemma for each construct, given the same for its parts.
-/

namespace Monofloat

open Monofloat.Ir Monofloat.Ir.Function

/-! ## Values -/

/-- A value of a construct. It is an address only of a variable, or of the function that the construct
denotes. -/
inductive IsValue : Option String → Site → Value → Prop where
  | plain {p v ty} : p.HasType v ty → ty ≠ .ptr → IsValue none p v
  | address {p v} : p.HasType v .ptr → v.isAddress → IsValue none p v
  | function {p name} : p.HasType (.function name) .ptr → IsValue (some name) p (.function name)

/-- The step yields what the scoping says. -/
def Refines (step : Lower Value) (a : Scoping) : Prop :=
  ∀ ⦃W D p⦄, p.Good W D →
    Yields Site.all W D p (step p.state) (a.offences p.names) (a.after p.names) (IsValue a.function?)

/-- The step yields a value of a type, which the construct has to have. -/
def ReadsAs (ty : Ty) (step : Lower Value) (a : Scoping) : Prop :=
  ∀ ⦃W D p⦄, p.Good W D →
    Yields Site.all W D p (step p.state) (a.read p.names) (a.after p.names) fun q v => q.HasType v ty

namespace Site

variable {p : Site} {W D : List BlockId} {v : Value} {ty : Ty}

theorem valueType_state (h : p.Good W D) (hv : p.HasType v ty) :
    Lower.build (.valueType v) p.state = .ok ty p.state := by
  refine build_state (f := p.function) (c := p.block) ?_
  cases hv with
  | @temp id ty hid =>
    have hp : Build.insertPoint (p.base.builder.put p.function p.block) =
        .ok ⟨p.function.name, p.block⟩ (p.base.builder.put p.function p.block) := rfl
    have hf := Build.function?_put (c := p.block) h.hosts_builder p.function.name
    rw [if_pos rfl] at hf
    rw [Build.valueType, bind_of_ok hp, bind_of_ok hf]
    simp only [Option.bind_some, tempType?, hid]
    rfl
  | _ => rfl

theorem Good.extends_result (h : p.Good W D) {i : Nat → Instruction} (hi : (i p.function.temps.length).Plain) :
    p.function.Extends all (p.function.result p.block ty i) := by
  obtain ⟨b, hb, ht⟩ := h.underway.current
  exact .result hb ht ty hi.slot hi.terminator fun _ => hi.phi

theorem Good.extends_store (h : p.Good W D) (ptr : Value) :
    p.function.Extends all (p.function.emit p.block (.store v ptr)) := by
  obtain ⟨b, hb, ht⟩ := h.underway.current
  exact .emit hb ht rfl (fun _ => rfl) (by simp [Instruction.successors])

/-- An instruction with a result. -/
theorem yields_result_at (h : p.Good W D) {step : Build Value} {i : Nat → Instruction} {R : Site → Value → Prop}
    (hstep : step (p.base.builder.put p.function p.block) = .ok (.temp p.function.temps.length)
      (p.base.builder.put (p.function.result p.block ty i) p.block))
    (hi : (i p.function.temps.length).Plain)
    (hd : (i p.function.temps.length).dest? = some p.function.temps.length)
    (hfits : Fits p.base.module p.function (i p.function.temps.length))
    (hr : R (p.at_ (p.function.result p.block ty i) p.block) (.temp p.function.temps.length)) :
    Yields all W D p (Lower.build step p.state) [] p.names R :=
  .ok (build_state hstep) (h.at_ (h.underway.result ty hi hd hfits) (h.extends_result hi))
    (before_at _ (h.extends_result hi)) rfl hr

theorem yields_result (h : p.Good W D) {step : Build Value} {i : Nat → Instruction}
    (hstep : step (p.base.builder.put p.function p.block) = .ok (.temp p.function.temps.length)
      (p.base.builder.put (p.function.result p.block ty i) p.block))
    (hi : (i p.function.temps.length).Plain)
    (hd : (i p.function.temps.length).dest? = some p.function.temps.length)
    (hfits : Fits p.base.module p.function (i p.function.temps.length)) :
    Yields all W D p (Lower.build step p.state) [] p.names fun q v => q.HasType v ty :=
  yields_result_at h hstep hi hd hfits (HasType.result _ _ _ _ _)

theorem yields_emitResult (h : p.Good W D) {i : Nat → Instruction} (hi : (i p.function.temps.length).Plain)
    (hd : (i p.function.temps.length).dest? = some p.function.temps.length)
    (hfits : Fits p.base.module p.function (i p.function.temps.length)) :
    Yields all W D p (Lower.build (.emitResult ty i) p.state) [] p.names fun q v => q.HasType v ty :=
  yields_result h (Build.emitResult_put h.hosts_builder h.isOpen ty i .unbounded) hi hd hfits

/-- A write to a variable. -/
theorem yields_store_at (h : p.Good W D) {ptr : Value} (hv : p.HasType v .f64) (hp : p.HasType ptr .ptr)
    (ha : ptr.isAddress) {R : Site → Unit → Prop}
    (hr : R (p.at_ (p.function.emit p.block (.store v ptr)) p.block) ()) :
    Yields all W D p (Lower.build (.store v ptr) p.state) [] p.names R := by
  have hu := h.underway.emit (i := .store v ptr) ⟨rfl, rfl, rfl⟩ rfl ⟨hv, hp⟩
  exact .ok (build_state (Build.store_put h.hosts_builder h.isOpen ha)) (h.at_ hu (h.extends_store ptr))
    (before_at _ (h.extends_store ptr)) rfl hr

theorem yields_store (h : p.Good W D) {ptr : Value} (hv : p.HasType v .f64) (hp : p.HasType ptr .ptr)
    (ha : ptr.isAddress) : Yields all W D p (Lower.build (.store v ptr) p.state) [] p.names fun _ _ => True :=
  yields_store_at h hv hp ha trivial

theorem yields_load (h : p.Good W D) {ptr : Value} (hp : p.HasType ptr .ptr) (ha : ptr.isAddress) :
    Yields all W D p (Lower.build (.load ptr) p.state) [] p.names fun q v => q.HasType v .f64 :=
  yields_result h (Build.load_put h.hosts_builder h.isOpen ha) ⟨rfl, rfl, rfl⟩ rfl hp

end Site

open Site

/-! ## Reading values -/

theorem yields_pure {p : Site} {W D : List BlockId} (h : p.Good W D) {α : Type} {a : α} {R : Site → α → Prop}
    (hr : R p a) : Yields all W D p ((pure a : Lower α) p.state) [] p.names R := .ok rfl h (.refl p) rfl hr

theorem yields_fail {α : Type} {p : Site} {W D : List BlockId} {cause : LowerCause} {es : List LowerError}
    {names : Names} {R : Site → α → Prop} :
    Yields all W D p ((Lower.fail cause : Lower α) p.state) ({ cause := cause } :: es) names R := ⟨p.state, rfl⟩

/-- What is wrong with reading the value of a construct that denotes a function. -/
def unreadable (function? : Option String) : List LowerError :=
  function?.toList.map fun name => { cause := .backend (.notAddressable (.function name)) }

theorem yields_floatValue {p : Site} {W D : List BlockId} (h : p.Good W D) {function? : Option String} {v : Value}
    (hv : IsValue function? p v) : Yields all W D p (Lower.floatValue v p.state) (unreadable function?) p.names
      fun q v => q.HasType v .f64 := by
  cases hv with
  | @plain _ _ ty hty hne =>
    refine .step (valueType_state h hty) (.refl p) ?_
    cases ty with
    | f64 => exact yields_pure h hty
    | bool =>
      exact yields_emitResult h ⟨rfl, rfl, rfl⟩ rfl hty
    | ptr => exact absurd rfl hne
  | address hty ha =>
    refine .step (valueType_state h hty) (.refl p) ?_
    exact yields_load h hty ha
  | function hty =>
    refine .step (valueType_state h hty) (.refl p) ?_
    exact ⟨p.state, rfl⟩

theorem yields_boolValue {p : Site} {W D : List BlockId} (h : p.Good W D) {function? : Option String} {v : Value}
    (hv : IsValue function? p v) : Yields all W D p (Lower.boolValue v p.state) (unreadable function?) p.names
      fun q v => q.HasType v .bool := by
  have hfloat : Yields all W D p ((do
      let x ← Lower.floatValue v
      Lower.build (.compare .one x (.constFloat 0))) p.state) (unreadable function?) p.names
      fun q v => q.HasType v .bool := by
    refine (yields_floatValue h hv).bind_ok fun x q hq _ hn hx => ?_
    rw [← hn]
    exact yields_emitResult hq ⟨rfl, rfl, rfl⟩ rfl ⟨hx, .constFloat 0⟩
  cases hv with
  | @plain _ _ ty hty hne =>
    refine .step (valueType_state h hty) (.refl p) ?_
    cases ty with
    | bool => exact yields_pure h hty
    | f64 => exact hfloat
    | ptr => exact absurd rfl hne
  | address hty ha => exact .step (valueType_state h hty) (.refl p) hfloat
  | function hty => exact .step (valueType_state h hty) (.refl p) hfloat

theorem Refines.asFloat {step : Lower Value} {a : Scoping} (h : Refines step a) :
    ReadsAs .f64 (Lower.asFloat step) a := by
  intro W D p hp
  refine (h hp).bind fun v q hq _ hn hv => ?_
  rw [← hn]
  exact yields_floatValue hq hv

theorem Refines.asBool {step : Lower Value} {a : Scoping} (h : Refines step a) :
    ReadsAs .bool (Lower.asBool step) a := by
  intro W D p hp
  refine (h hp).bind fun v q hq _ hn hv => ?_
  rw [← hn]
  exact yields_boolValue hq hv

/-- An instruction whose result is the value of a construct. -/
theorem yields_value {p : Site} {W D : List BlockId} {ty : Ty} (h : p.Good W D) (hne : ty ≠ .ptr)
    {i : Nat → Instruction} (hi : (i p.function.temps.length).Plain)
    (hd : (i p.function.temps.length).dest? = some p.function.temps.length)
    (hfits : Fits p.base.module p.function (i p.function.temps.length)) :
    Yields all W D p (Lower.build (.emitResult ty i) p.state) [] p.names (IsValue none) :=
  (yields_emitResult h hi hd hfits).imp fun _ _ _ hty => .plain hty hne

/-! ## Variables and operators -/

theorem global?_name {m : Module} {name : String} {g : Global} (h : m.global? name = some g) : g.name = name := by
  simpa using List.find?_some h

/-- The address of a variable that is known. -/
theorem yields_resolve {p : Site} {W D : List BlockId} (h : p.Good W D) (name : String) :
    Yields all W D p (Lower.resolve name p.state) ((Scoping.reference name).offences p.names) p.names
      fun q v => q.HasType v .ptr ∧ v.isAddress := by
  have hlocal : Lower.local? name p.state = .ok (p.scope.lookup name) p.state := rfl
  refine .step hlocal (.refl p) ?_
  unfold Scoping.reference Names.isVariable Site.names
  cases hl : p.scope.lookup name with
  | some slot =>
    simp only [hl, Option.isSome_some, Bool.true_or, if_true]
    exact .ok rfl h (.refl p) rfl ⟨.slot (h.slots hl), rfl⟩
  | none =>
    have hglobal : Lower.build (.global? name) p.state =
        .ok ((p.base.module.global? name).map fun g => .global g.name) p.state := rfl
    refine .step hglobal (.refl p) ?_
    cases hg : p.base.module.global? name with
    | some g =>
      simp only [hl, hg, Option.isSome_none, Option.isSome_some, Bool.false_or, if_true, Option.map_some]
      refine .ok rfl h (.refl p) rfl ⟨.global ?_, rfl⟩
      rw [global?_name hg, hg]
      rfl
    | none =>
      simp only [hl, hg, Option.isSome_none, Bool.false_or, Bool.false_eq_true, if_false]
      exact yields_fail

theorem refines_number (x : Float) : Refines (pure (.constFloat x)) {} := fun _ _ _ h =>
  yields_pure h (.plain (.constFloat x) (by simp))

theorem refines_variableRead (name : String) : Refines (Lower.variableRead name) (.reference name) := by
  intro W D p h
  refine (yields_resolve h name).bind_ok fun v q hq _ hn hv => ?_
  have hnames : (Scoping.reference name).after p.names = q.names := hn.symm
  rw [hnames]
  exact (yields_load hq hv.1 hv.2).imp fun _ _ _ hty => .plain hty (by simp)

theorem refines_failing (cause : LowerCause) : Refines (Lower.fail cause) (.failing cause) :=
  fun _ _ _ _ => yields_fail

theorem refines_unary (op : Operator) {step : Lower Value} {a : Scoping} (ha : Refines step a) :
    Refines (Lower.unary op step) (.unary op a) := by
  unfold Lower.unary Scoping.unary
  split
  · intro W D p h
    refine (ha.asFloat h).bind_ok fun v q hq _ hn hv => ?_
    rw [← hn]
    exact yields_value hq (by simp) ⟨rfl, rfl, rfl⟩ rfl hv
  · exact refines_failing _

/-- Two operands and an instruction that takes both. -/
theorem refines_both {ty : Ty} {left right : Lower Value} {a b : Scoping} (ha : ReadsAs ty left a)
    (hb : ReadsAs ty right b) {g : Value → Value → Build Value}
    (hg : ∀ {W D p l r}, p.Good W D → p.HasType l ty → p.HasType r ty →
      Yields all W D p (Lower.build (g l r) p.state) [] p.names (IsValue none)) :
    Refines (do let l ← left; let r ← right; Lower.build (g l r)) (.both a b) := by
  intro W D p h
  refine (ha h).bind fun l q hq _ hn hl => ?_
  rw [← hn]
  refine (hb hq).bind_ok fun r q' hq' hbefore hn' hr => ?_
  have hnames : (Scoping.both a b).after p.names = q'.names := by rw [hn', hn]; rfl
  rw [hnames]
  exact hg hq' (hbefore.hasType hl) hr

theorem refines_binary (op : Operator) {left right : Lower Value} {a b : Scoping} (ha : Refines left a)
    (hb : Refines right b) : Refines (Lower.binary op left right) (.both a b) := by
  refine refines_both (g := fun l r => Lower.operation l r op) ha.asFloat hb.asFloat fun h hl hr => ?_
  cases op <;>
    exact yields_value h (by simp) ⟨rfl, rfl, rfl⟩ rfl ⟨hl, hr⟩

theorem refines_unaryLogical (op : Connective) {step : Lower Value} {a : Scoping} (ha : Refines step a) :
    Refines (Lower.unaryLogical op step) (.unaryLogical op a) := by
  cases op with
  | not =>
    intro W D p h
    refine (ha.asBool h).bind_ok fun v q hq _ hn hv => ?_
    have hnames : (Scoping.unaryLogical .not a).after p.names = q.names := hn.symm
    rw [hnames]
    exact yields_value hq (by simp) ⟨rfl, rfl, rfl⟩ rfl hv
  | _ => exact refines_failing _

theorem refines_logical (op : Connective) {left right : Lower Value} {a b : Scoping} (ha : Refines left a)
    (hb : Refines right b) : Refines (Lower.logical op left right) (.logical op a b) := by
  have hjunction : ∀ op : LogicalOp, Refines (Lower.junction op left right) (.both a b) := fun op =>
    refines_both (g := fun l r => .logical op l r) ha.asBool hb.asBool fun h hl hr =>
      yields_value h (by simp) ⟨rfl, rfl, rfl⟩ rfl ⟨hl, hr⟩
  cases op with
  | and => exact hjunction .and
  | or => exact hjunction .or
  | not => exact refines_failing _

/-! ## Calls -/

/-- Arguments that are lowered: so many floats. -/
def RefinesArgs (args : Lower (List Value)) (count : Nat) (a : Scoping) : Prop :=
  ∀ ⦃W D p⦄, p.Good W D → Yields all W D p (args p.state) (a.offences p.names) (a.after p.names)
    fun q vs => vs.length = count ∧ ∀ v ∈ vs, q.HasType v .f64

theorem refinesArgs_nil : RefinesArgs (pure []) 0 {} := fun _ _ _ h => yields_pure h ⟨rfl, by simp⟩

theorem refinesArgs_cons (callee : String) (index : Nat) {step : Lower Value} {args : Lower (List Value)} {n : Nat}
    {a rest : Scoping} (ha : Refines step a) (hrest : RefinesArgs args n rest) :
    RefinesArgs (do
      let v ← Lower.within (.argument index callee) (Lower.asFloat step)
      let vs ← args
      return v :: vs) (n + 1) (.argument index callee a rest) := by
  intro W D p h
  refine ((ha.asFloat h).within _).bind fun v q hq _ hn hv => ?_
  rw [← hn]
  refine (hrest hq).bind_ok fun vs q' hq' hbefore hn' hvs => ?_
  have hnames : (Scoping.argument index callee a rest).after p.names = q'.names := by rw [hn', hn]; rfl
  rw [hnames]
  refine yields_pure hq' ⟨by rw [List.length_cons, hvs.1], ?_⟩
  exact List.forall_mem_cons.2 ⟨hbefore.hasType hv, hvs.2⟩

theorem refines_call (callee : String) {count : Nat} {args : Lower (List Value)} {a : Scoping}
    (ha : RefinesArgs args count a) : Refines (Lower.call callee count args) (.call callee count a) := by
  intro W D p h
  have hfunction : Lower.build (.function? callee) p.state =
      .ok (p.state.module.function? callee) p.state := rfl
  refine .step hfunction (.refl p) ?_
  have harity := h.arity?_state callee
  have hnames : p.names.arity? callee = (p.state.module.function? callee).map Function.arity := harity.symm
  dsimp only [Scoping.call]
  rw [hnames]
  cases hf : p.state.module.function? callee with
  | none => exact yields_fail
  | some f =>
    rw [hf, Option.map_some] at harity
    simp only [Option.map_some]
    by_cases hcount : f.arity = count
    · rw [if_neg (by simpa using hcount), if_pos hcount]
      refine (ha h).bind_ok fun vs q hq hbefore hn hvs => ?_
      have hcallee : q.base.module.arity? callee = some vs.length := by
        rw [hvs.1, ← hcount]
        exact hbefore.module.arity harity.symm
      have hsome : (q.state.module.function? callee).isSome := by
        have := hq.arity?_state callee
        rw [hcallee] at this
        cases hf : q.state.module.function? callee with
        | none => rw [hf] at this; cases this
        | some => rfl
      rw [← hn]
      exact (yields_result (i := (.call · callee vs)) hq (Build.call_put hq.hosts_builder hq.isOpen hsome vs)
        ⟨rfl, rfl, rfl⟩ rfl ⟨hcallee, hvs.2⟩).imp fun _ _ _ hty => .plain hty (by simp)
    · rw [if_pos (by simpa using hcount), if_neg hcount]
      exact yields_fail

/-! ## Bindings and assignments -/

/-- The site with another scope. -/
def Site.withScope (p : Site) (scope : Scope) : Site := { p with scope := scope }

theorem Site.Good.withScope {p : Site} {W D : List BlockId} (h : p.Good W D) {scope : Scope}
    (hs : ∀ {x slot}, scope.lookup x = some slot → slot ∈ p.function.slots) : (p.withScope scope).Good W D :=
  ⟨h.underway, h.hosts, hs⟩

/-- A new slot. -/
theorem yields_alloca_at {p : Site} {W D : List BlockId} (h : p.Good W D) (name : String) {R : Site → String → Prop}
    (hr : R (p.at_ (p.function.reserve ⟨0⟩ name) p.block) (p.function.slotFor name)) :
    Yields all W D p (Lower.build (.alloca name) p.state) [] p.names R := by
  obtain ⟨entry, hentry⟩ := h.underway.entry_isSome
  have hx : p.function.Extends all (p.function.reserve ⟨0⟩ name) := .reserve hentry name
  exact .ok (build_state (Build.alloca_put h.hosts_builder h.underway.laid.entry hentry name))
    (h.at_ (h.underway.reserve name) hx) (before_at _ hx) rfl hr

theorem yields_alloca {p : Site} {W D : List BlockId} (h : p.Good W D) (name : String) :
    Yields all W D p (Lower.build (.alloca name) p.state) [] p.names fun q slot => slot ∈ q.function.slots := by
  obtain ⟨entry, hentry⟩ := h.underway.entry_isSome
  refine yields_alloca_at h name ?_
  show p.function.slotFor name ∈ (p.function.reserve ⟨0⟩ name).slots
  rw [slots_reserve hentry]
  exact List.mem_cons_self

/-- A new slot with an initial value. -/
theorem yields_allocate {p : Site} {W D : List BlockId} (h : p.Good W D) (name : String) {step : Lower Value}
    {a : Scoping} (ha : Refines step a) :
    Yields all W D p (Lower.allocate name step p.state) ((Scoping.initializer name a).offences p.names)
      (a.after p.names) fun q slot => slot ∈ q.function.slots := by
  refine ((ha.asFloat h).within _).bind_ok fun v q hq _ hn hv => ?_
  rw [← hn]
  refine (yields_alloca hq name).bind_ok fun slot q₁ hq₁ hb₁ hn₁ hslot => ?_
  rw [← hn₁]
  refine (yields_store hq₁ (hb₁.hasType hv) (.slot hslot) rfl).bind_ok fun _ q₂ hq₂ hb₂ hn₂ _ => ?_
  rw [← hn₂]
  exact yields_pure hq₂ (hb₂.function.slots.subset hslot)

theorem refines_allocate (name : String) {step : Lower Value} {a : Scoping} (ha : Refines step a) :
    Refines (.slot <$> Lower.allocate name step) (.initializer name a) := by
  intro W D p h
  rw [map_eq_bind]
  refine (yields_allocate h name ha).bind_ok fun slot q hq _ hn hslot => ?_
  have hnames : (Scoping.initializer name a).after p.names = q.names := hn.symm
  rw [hnames]
  exact yields_pure hq (.address (.slot hslot) rfl)

/-- Binding a name makes it a local variable. -/
theorem Site.names_bind (p : Site) (name slot : String) :
    (p.withScope (p.scope.bind name slot)).names = p.names.bind name := by
  have hlocal : ∀ x, ((p.scope.bind name slot).lookup x).isSome =
      (decide (x = name) || (p.scope.lookup x).isSome) := by
    intro x
    rw [Scope.lookup_bind]
    by_cases hx : x = name <;> simp [hx]
  simp only [Site.names, Site.withScope, Names.bind, hlocal]

theorem Site.Good.bind {p : Site} {W D : List BlockId} (h : p.Good W D) {slot : String}
    (hslot : slot ∈ p.function.slots) (name : String) : (p.withScope (p.scope.bind name slot)).Good W D := by
  refine h.withScope fun {x s} hx => ?_
  rw [Scope.lookup_bind] at hx
  split at hx
  · cases hx
    exact hslot
  · exact h.slots hx

theorem Site.before_bind (p : Site) (name slot : String) : p.Before all (p.withScope (p.scope.bind name slot)) := by
  refine ⟨.refl _, .refl _, fun {x} hx => ?_⟩
  show ((p.scope.bind name slot).lookup x).isSome
  rw [Scope.lookup_bind]
  split
  · rfl
  · exact hx

/-- A step behind which the scope is changed. -/
theorem Yields.finallyScope {α : Type} {p : Site} {W D : List BlockId} {step : Lower α} {errors : List LowerError}
    {σ σ' : Names} {R R' : Site → α → Prop} {change : Scope → Scope} {s : Lowering}
    (h : Yields all W D p (step s) errors σ R)
    (hchange : ∀ q a, q.Good W D → p.Before all q → q.names = σ → R q a →
      (q.withScope (change q.scope)).Good W D ∧ p.Before all (q.withScope (change q.scope)) ∧
        (q.withScope (change q.scope)).names = σ' ∧ R' (q.withScope (change q.scope)) a) :
    Yields all W D p (Lower.finallyScope change step s) errors σ' R' := by
  cases errors with
  | nil =>
    obtain ⟨a, q, ho, hq, hb, hn, hr⟩ := h
    obtain ⟨hq', hb', hn', hr'⟩ := hchange q a hq hb hn hr
    refine ⟨a, q.withScope (change q.scope), ?_, hq', hb', hn', hr'⟩
    rw [Lower.finallyScope, ho]
    rfl
  | cons e es =>
    obtain ⟨s', hs⟩ := h
    refine ⟨{ s' with scope := change s'.scope }, ?_⟩
    rw [Lower.finallyScope, hs]

/-- A name that is bound as it was at another site. -/
theorem Site.names_restore (p q : Site) (name : String) :
    (q.withScope (q.scope.restore name (p.scope.lookup name))).names = q.names.restore name p.names := by
  have hlocal : (fun x => ((q.scope.restore name (p.scope.lookup name)).lookup x).isSome) =
      fun x => if x = name then (p.scope.lookup x).isSome else (q.scope.lookup x).isSome := by
    funext x
    rw [Scope.lookup_restore]
    by_cases hx : x = name <;> simp [hx]
  exact congrArg (fun l => { q.names with isLocal := l }) hlocal

theorem IsValue.withScope {name? : Option String} {p : Site} {v : Value} (h : IsValue name? p v) (scope : Scope) :
    IsValue name? (p.withScope scope) v := by
  cases h with
  | plain hty hne => exact .plain hty hne
  | address hty haddr => exact .address hty haddr
  | function hty => exact .function hty

/-- A name is bound again as it was at an earlier site. -/
theorem Site.Before.restore {W D : List BlockId} {q r : Site} (h : q.Before all r) (hq : q.Good W D) (hr : r.Good W D)
    (name : String) : (r.withScope (r.scope.restore name (q.scope.lookup name))).Good W D ∧
      q.Before all (r.withScope (r.scope.restore name (q.scope.lookup name))) := by
  refine ⟨hr.withScope fun {x s} hx => ?_, h.function, h.module, fun {x} hx => ?_⟩
  · rw [Scope.lookup_restore] at hx
    split at hx
    · exact h.function.slots.subset (hq.slots hx)
    · exact hr.slots hx
  · show ((r.scope.restore name (q.scope.lookup name)).lookup x).isSome
    rw [Scope.lookup_restore]
    split
    · next heq => rwa [← heq]
    · exact h.locals hx

/-- A binding that is undone behind its body. -/
theorem refines_withBinding (name : String) {init body : Lower Value} {a b : Scoping} (ha : Refines init a)
    (hb : Refines body b) : Refines (Lower.withBinding name init body) (.binding name a b) := by
  intro W D p h
  refine (yields_allocate h name ha).bind fun slot q hq _ hn hslot => ?_
  rw [← hn]
  have hlocal : Lower.local? name q.state = .ok (q.scope.lookup name) q.state := rfl
  have hmodify : Lower.modifyScope (·.bind name slot) q.state =
      .ok () (q.withScope (q.scope.bind name slot)).state := rfl
  refine .step hlocal (.refl q) ?_
  rw [bind_of_ok hmodify]
  have hbody := hb (hq.bind hslot name)
  rw [q.names_bind] at hbody
  refine (hbody.before (q.before_bind name slot)).finallyScope fun r v hr hbefore hnr hv => ?_
  obtain ⟨hgood, hbefore'⟩ := hbefore.restore hq hr name
  refine ⟨hgood, hbefore', ?_, hv.withScope _⟩
  show _ = (b.after ((a.after p.names).bind name)).restore name (a.after p.names)
  rw [← hn, ← hnr]
  exact q.names_restore r name

theorem refines_assign (name : String) {value : Lower Value} {a : Scoping} (ha : Refines value a) :
    Refines (Lower.assign name value) (.assign name a) := by
  intro W D p h
  refine ((ha.asFloat h).within _).bind fun v q hq _ hn hv => ?_
  rw [← hn]
  refine (yields_resolve hq name).bind_ok fun ptr q₁ hq₁ hb₁ hn₁ hptr => ?_
  refine (yields_store hq₁ (hb₁.hasType hv) hptr.1 hptr.2).bind_ok fun _ q₂ hq₂ hb₂ hn₂ _ => ?_
  have hnames : (Scoping.assign name a).after p.names = q₂.names := by rw [hn₂, hn₁, hn]; rfl
  rw [hnames]
  exact yields_pure hq₂ (.address (hb₂.hasType hptr.1) hptr.2)

theorem refines_increment (name : String) : Refines (Lower.increment name) (.increment name) := by
  intro W D p h
  have hlocal : Lower.local? name p.state = .ok (p.scope.lookup name) p.state := rfl
  refine .step hlocal (.refl p) ?_
  unfold Scoping.increment
  show Yields all W D p _ (if (p.scope.lookup name).isSome then _ else _) p.names _
  cases hl : p.scope.lookup name with
  | none => exact yields_fail
  | some slot =>
    have hptr : p.HasType (.slot slot) .ptr := .slot (h.slots hl)
    show Yields all W D p _ [] p.names _
    refine (yields_load h hptr rfl).bind_ok fun v q hq hb hn hv => ?_
    rw [← hn]
    have hadd : Yields all W D q (Lower.build (.binary .add v (.constFloat 1)) q.state) [] q.names
        fun r v => r.HasType v .f64 := yields_emitResult hq ⟨rfl, rfl, rfl⟩ rfl ⟨hv, .constFloat 1⟩
    refine hadd.bind_ok fun w q₁ hq₁ hb₁ hn₁ hw => ?_
    rw [← hn₁]
    have hptr₁ := hb₁.hasType (hb.hasType hptr)
    refine (yields_store hq₁ hw hptr₁ rfl).bind_ok fun _ q₂ hq₂ hb₂ hn₂ _ => ?_
    rw [← hn₂]
    exact yields_pure hq₂ (.address (hb₂.hasType hptr₁) rfl)

end Monofloat
