import Monofloat.Proofs.Activations
import Monofloat.Proofs.Branching

/-!
# Lowered code does what evaluation does

A `Setting` is an activation's surroundings: the module, the activations that wait, and what calls come to in
evaluation, with the promise that the machine agrees about calls. At a site `p` of a function that is lowered, the
machine `Stands` at `p` with a state of evaluation if it is in an activation of the complete function, in front of
what is behind `p` in its block, and the activation represents the state. A step that lowers a construct
`Simulates` its meaning if the code between the site before it and the site behind it leads the machine to where
evaluation comes to.
-/

namespace Monofloat

open Monofloat.Ir Monofloat.Ir.Function Monofloat.Machine Monofloat.Site

/-! ## Where steps land -/

/-- A step at the site `p` that does not fail leads to a site where `R` holds of its value. -/
def Lands {α : Type} (W D : List BlockId) (p : Site) (out : EStateM.Result LowerError Lowering α)
    (R : Site → α → Prop) : Prop :=
  ∀ a s, out = .ok a s → ∃ q, s = q.state ∧ q.Good W D ∧ p.Before all q ∧ R q a

namespace Lands

variable {α β : Type} {W D W' D' : List BlockId} {p q : Site} {R : Site → α → Prop} {R' : Site → β → Prop}
  {out : EStateM.Result LowerError Lowering α}

theorem of_yields {errors : List LowerError} {σ : Names} (h : Yields all W D p out errors σ R) :
    Lands W D p out R := by
  intro a s hs
  cases errors with
  | nil =>
    obtain ⟨a', q, ho, hq, hb, -, hr⟩ := h
    cases ho.symm.trans hs
    exact ⟨q, rfl, hq, hb, hr⟩
  | cons e es =>
    obtain ⟨s', hs'⟩ := h
    cases hs'.symm.trans hs

theorem of_ok {a : α} (ho : out = .ok a q.state) (hq : q.Good W D) (hb : p.Before all q) (hr : R q a) :
    Lands W D p out R := by
  intro a' s hs
  cases ho.symm.trans hs
  exact ⟨q, rfl, hq, hb, hr⟩

theorem fail {cause : LowerCause} : Lands W D p ((Lower.fail cause : Lower α) p.state) R := by
  intro a s hs
  cases hs

theorem before (h : Lands W D q out R) (hb : p.Before all q) : Lands W D p out R := by
  intro a s hs
  obtain ⟨r, hr, hg, hb', hR⟩ := h a s hs
  exact ⟨r, hr, hg, hb.trans hb', hR⟩

theorem imp {S : Site → α → Prop} (h : Lands W D p out R)
    (hS : ∀ q a, q.Good W D → p.Before all q → R q a → S q a) : Lands W D p out S := by
  intro a s hs
  obtain ⟨q, hq, hg, hb, hR⟩ := h a s hs
  exact ⟨q, hq, hg, hb, hS q a hg hb hR⟩

/-- One step behind the other, seen from any site. -/
theorem andThen {x : Lower α} {f : α → Lower β} (h : Lands W D p (x p.state) R)
    (hf : ∀ a r, r.Good W D → p.Before all r → R r a → Lands W' D' q (f a r.state) R') :
    Lands W' D' q ((x >>= f) p.state) R' := by
  intro b s hs
  cases hx : x p.state with
  | ok a s₁ =>
    obtain ⟨r, rfl, hr, hb, hR⟩ := h a s₁ hx
    rw [bind_of_ok hx] at hs
    exact hf a r hr hb hR b s hs
  | error e s₁ =>
    rw [bind_of_error hx] at hs
    cases hs

/-- One step behind the other. -/
theorem bind {x : Lower α} {f : α → Lower β} (h : Lands W D p (x p.state) R)
    (hf : ∀ a q, q.Good W D → p.Before all q → R q a → Lands W' D' q (f a q.state) R') :
    Lands W' D' p ((x >>= f) p.state) R' :=
  h.andThen fun a q hq hb hR => (hf a q hq hb hR).before hb

/-- A step that does not fail before others. -/
theorem step {x : Lower α} {f : α → Lower β} {a : α} (hx : x p.state = .ok a q.state) (hb : p.Before all q)
    (h : Lands W D q (f a q.state) R') : Lands W D p ((x >>= f) p.state) R' := by
  rw [bind_of_ok hx]
  exact h.before hb

theorem within {x : Lower α} {s : Lowering} (h : Lands W D p (x s) R) (context : LowerContext) :
    Lands W D p (Lower.within context x s) R := by
  intro a s' hs
  refine h a s' ?_
  rw [Lower.within] at hs
  cases hx : x s with
  | ok a' s₁ => rw [hx] at hs; exact hs
  | error e s₁ => rw [hx] at hs; cases hs

theorem discard {x : Lower α} {R : Site → Prop} (h : Lands W D p (x p.state) fun q _ => R q) :
    Lands W D p (Functor.discard x p.state) fun q _ => R q := by
  rw [discard_eq_bind]
  exact h.bind fun _ q hq _ hR => .of_ok rfl hq (.refl q) hR

theorem finallyScope {step : Lower α} {s : Lowering} {S : Site → α → Prop} {change : Scope → Scope}
    (h : Lands W D p (step s) R)
    (hchange : ∀ q a, q.Good W D → p.Before all q → R q a →
      (q.withScope (change q.scope)).Good W D ∧ p.Before all (q.withScope (change q.scope)) ∧
        S (q.withScope (change q.scope)) a) :
    Lands W D p (Lower.finallyScope change step s) S := by
  intro a s' hs
  rw [Lower.finallyScope] at hs
  cases hx : step s with
  | error e s₁ => rw [hx] at hs; cases hs
  | ok a' s₁ =>
    rw [hx] at hs
    cases hs
    obtain ⟨q, rfl, hq, hb, hR⟩ := h a s₁ hx
    exact ⟨q.withScope (change q.scope), rfl, hchange q a hq hb hR⟩

end Lands

/-! ## Standing at a site -/

/-- The machine agrees with evaluation about the calls made from an activation, behind which `callers` wait, while
`depth` activations are open. -/
def CallsAgree (m : Module) (maxDepth depth : Nat) (callers : List (Nat × Activation)) (Γ : EvalContext) : Prop :=
  ∀ ⦃a : Activation⦄ ⦃s : Store⦄ ⦃st : EvalState⦄ ⦃dest : Nat⦄ ⦃callee : String⦄ ⦃args : List Value⦄
    ⦃rest : List Instruction⦄ ⦃xs : List Float⦄, a.code = .call dest callee args :: rest →
    a.evalFloats args = .ok xs → m.arity? callee = some xs.length → s.depth = depth → st.world.Shows s →
    Leads m maxDepth Γ.fuel ⟨s, a, callers⟩ (Γ.apply callee xs st) fun x st' c' =>
      ∃ s', c' = ⟨s', { a with code := rest }.setTemp dest (.float x), callers⟩ ∧ s'.memory = s.memory ∧
        s'.depth = s.depth ∧ st'.world.Shows s' ∧ st'.cells = st.cells

/-- What surrounds an activation. -/
structure Setting where
  module : Module
  maxDepth : Nat
  /-- The number of open activations. -/
  depth : Nat
  callers : List (Nat × Activation)
  context : EvalContext
  calls : CallsAgree module maxDepth depth callers context

/-- `Leads` in a setting. -/
abbrev Setting.Leads (X : Setting) {α : Type} (c : Config) (o : Option (Except Stop α × EvalState))
    (Q : α → EvalState → Config → Prop) : Prop :=
  Monofloat.Leads X.module X.maxDepth X.context.fuel c o Q

/-- The function is lowered to `f` in the end. Among the blocks there are, only those of `W` get a phi. -/
structure Ends (X : Setting) (W : List BlockId) (q : Site) (f : Function) : Prop where
  grows : Grows (· ∉ W) q.function f
  module : q.base.module.Covers X.module
  complete : f.Complete X.module

/-- The machine is at the site, in an activation of the complete function `f`. -/
structure Stands (X : Setting) (f : Function) (p : Site) (c : Config) (st : EvalState) : Prop where
  callers : c.callers = X.callers
  depth : c.store.depth = X.depth
  label : c.active.label = f.label p.block
  code : ∃ b b', p.function.block? p.block = some b ∧ f.block? p.block = some b' ∧
    b'.body = b.body ++ c.active.code
  represents : Represents f c st

section

variable {X : Setting} {W W' : List BlockId} {p q : Site} {f : Function} {c c' : Config} {st st' : EvalState}

theorem Ends.earlier (h : Ends X W' q f) {G : BlockId → Prop} (hf : Grows G p.function q.function)
    (hm : p.base.module.Covers q.base.module)
    (hG : ∀ id, (p.function.block? id).isSome → id ∉ W → G id ∧ id ∉ W') : Ends X W p f := by
  let G' : BlockId → Prop := fun id => (p.function.block? id).isSome ∧ id ∉ W
  have h₁ : Grows G' p.function q.function := hf.mono fun id hid h => (hG id hid h.2).1
  have h₂ : Grows G' q.function f := h.grows.mono fun id _ h => (hG id h.1 h.2).2
  exact ⟨(h₁.trans h₂).mono fun id hid hW => ⟨hid, hW⟩, hm.trans h.module, h.complete⟩

theorem Ends.before (h : Ends X W q f) (hb : p.Before all q) : Ends X W p f :=
  h.earlier hb.function.toGrows hb.module fun _ _ hW => ⟨trivial, hW⟩

/-- The instruction that the next step of lowering emits is the next one to be executed. -/
theorem Stands.code_emit (h : Stands X f p c st) {g : Function} (hg : g.block? p.block = p.function.block? p.block)
    {i : Instruction} (hi : i.slot? = none) {G : BlockId → Prop} (hgrows : Grows G (g.emit p.block i) f) :
    ∃ rest, c.active.code = i :: rest ∧ ∀ {c' st'}, c'.callers = c.callers → c'.store.depth = c.store.depth →
      c'.active.label = c.active.label → c'.active.code = rest → Represents f c' st' →
      Stands X f (p.at_ (g.emit p.block i) p.block) c' st' := by
  obtain ⟨b, b', hb, hb', hbody⟩ := h.code
  have hemit : (g.emit p.block i).block? p.block = some (b.append i) := by
    rw [block?_emit (hg.trans hb), if_pos rfl]
  obtain ⟨b'', rest, hb'', -, hbody', -⟩ := hgrows.block hemit
  cases hb'.symm.trans hb''
  refine ⟨rest, ?_, fun hcallers hdepth hlabel hcode hr => ?_⟩
  · rw [hbody, Block.body_append hi, List.append_assoc] at hbody'
    exact List.append_cancel_left hbody'
  · exact ⟨hcallers.trans h.callers, hdepth.trans h.depth, hlabel.trans h.label,
      ⟨_, _, hemit, hb', by rw [hcode, hbody']⟩, hr⟩

/-- The site moves, but neither the block nor what is behind it in the block changes. -/
theorem Stands.of_body (h : Stands X f p c st) (hblock : q.block = p.block)
    (hbody : ∀ {b}, p.function.block? p.block = some b → ∃ b', q.function.block? p.block = some b' ∧ b'.body = b.body) :
    Stands X f q c st := by
  obtain ⟨b, b', hb, hb', heq⟩ := h.code
  obtain ⟨b₁, hb₁, heq₁⟩ := hbody hb
  refine ⟨h.callers, h.depth, hblock ▸ h.label, ⟨b₁, b', ?_, ?_, heq₁ ▸ heq⟩, h.represents⟩ <;> rwa [hblock]

theorem next_of_code {m : Module} {maxDepth : Nat} {i : Instruction} {rest : List Instruction}
    (h : c.active.code = i :: rest) : c.next m maxDepth =
      some (Config.execute m maxDepth { c with active := { c.active with code := rest } } i) := by
  rw [Config.next, h]

/-- An instruction that writes `r` to a new temporary. -/
theorem Stands.result (h : Stands X f p c st) {ty : Ty} {i : Nat → Instruction}
    (hi : (i p.function.temps.length).slot? = none)
    (hE : Ends X W (p.at_ (p.function.result p.block ty i) p.block) f) {r : RtValue}
    (hexec : ∀ rest, { c.active with code := rest }.execute c.store (i p.function.temps.length) =
      .ok (.next ({ c.active with code := rest }.setTemp p.function.temps.length r) c.store)) :
    ∃ c', c.next X.module X.maxDepth = some (.running c') ∧
      Stands X f (p.at_ (p.function.result p.block ty i) p.block) c' st ∧ Frame p.function.temps.length c c' ∧
      c'.active.eval (.temp p.function.temps.length) = .ok r := by
  obtain ⟨rest, hcode, hstands⟩ := h.code_emit (g := p.function.withTemp ty) rfl hi hE.grows
  have hframe := Frame.setTemp c rest (Nat.le_refl p.function.temps.length) r
  refine ⟨{ c with active := { c.active with code := rest }.setTemp p.function.temps.length r }, ?_,
    hstands rfl rfl rfl rfl (hframe.represents rfl h.represents), hframe, Activation.eval_setTemp _ _ _⟩
  rw [next_of_code hcode, Config.execute, hexec]

/-! ## Variables -/

/-- A slot keeps its number. -/
theorem Ir.Function.Grows.slot_number {G : BlockId → Prop} {f f' : Function} (h : Grows G f f') {k : Nat}
    {slot : String} (hk : f.slots.reverse[k]? = some slot) : f'.slots.reverse[k]? = some slot := by
  obtain ⟨hlt, rfl⟩ := List.getElem?_eq_some_iff.1 hk
  exact List.prefix_iff_getElem?.1 h.slots.reverse k hlt

/-- The operand is the address of the variable that the name stands for. -/
inductive Refers (ρ : Env) (name : String) (p : Site) : Value → Prop where
  | slot {k slot} : ρ.cell name = some k → p.function.slots.reverse[k]? = some slot → Refers ρ name p (.slot slot)
  | global : ρ.cell name = none → (p.base.module.global? name).isSome → Refers ρ name p (.global name)

namespace Refers

variable {ρ : Env} {name : String} {ptr : Value}

theorem hasType (h : Refers ρ name p ptr) : p.HasType ptr .ptr := by
  cases h with
  | slot _ hslot => exact .slot (List.mem_reverse.1 (List.mem_of_getElem? hslot))
  | global _ hg => exact .global hg

theorem isAddress (h : Refers ρ name p ptr) : ptr.isAddress := by
  cases h <;> rfl

theorem before (h : Refers ρ name p ptr) (hb : p.Before all q) : Refers ρ name q ptr := by
  cases h with
  | slot hk hslot => exact .slot hk (hb.function.slot_number hslot)
  | global hk hg => exact .global hk (hb.module.global hg)

/-- The cell of a local variable. -/
theorem slot_eval {G : BlockId → Prop} {k : Nat} {slot : String} (hslot : p.function.slots.reverse[k]? = some slot)
    (hg : Grows G p.function f) (hr : Represents f c st) :
    k < f.slots.length ∧ c.active.eval (.slot slot) = .ok (.ptr (.stack (cellIndex f c.active k))) := by
  have hslot' := hg.slot_number hslot
  refine ⟨by simpa using (List.getElem?_eq_some_iff.1 hslot').1, ?_⟩
  simp only [Activation.eval, hr.slots hslot', Option.map_some]

/-- The machine finds at the address what evaluation finds in the variable. -/
theorem read {G : BlockId → Prop} (h : Refers ρ name p ptr) (hg : Grows G p.function f) {m : Module}
    (hm : p.base.module.Covers m) (hr : Represents f c st) : ∃ address, c.active.eval ptr = .ok (.ptr address) ∧
      ((∃ x, ρ.read name st = some (.ok x, st) ∧ c.store.read address = .ok x) ∨
        ∃ stop fault, ρ.read name st = some (.error stop, st) ∧ c.store.read address = .error fault ∧
          stop.Matches m c.store fault) := by
  cases h with
  | @slot k slot hcell hslot =>
    obtain ⟨hk, heval⟩ := slot_eval hslot hg hr
    refine ⟨_, heval, ?_⟩
    have hread : ρ.read name st = Eval.readCell k st := by rw [Env.read, hcell]
    cases hx : st.cells k with
    | some x => exact .inl ⟨x, by rw [hread, Eval.readCell_apply, hx]; rfl, hr.read hk hx⟩
    | none => exact .inr ⟨_, _, by rw [hread, Eval.readCell_apply, hx]; rfl, hr.read_unwritten hk hx, .unwrittenLocal _⟩
  | global hcell hg =>
    refine ⟨.global name, rfl, ?_⟩
    have hread : ρ.read name st = Eval.readGlobal name st := by rw [Env.read, hcell]
    have hglobal := hr.world.globals name
    cases hx : st.world.globals name with
    | some x => exact .inl ⟨x, by rw [hread, Eval.readGlobal_apply, hx]; rfl, by rw [Store.read, hglobal, hx]⟩
    | none =>
      refine .inr ⟨_, _, by rw [hread, Eval.readGlobal_apply, hx]; rfl, ?_, .unwrittenGlobal (hm.global hg) (hglobal.trans hx)⟩
      rw [Store.read, hglobal, hx]

/-- The machine writes to the address what evaluation writes to the variable. -/
theorem write {G : BlockId → Prop} (h : Refers ρ name p ptr) (hg : Grows G p.function f) (hr : Represents f c st)
    (x : Float) : ∃ address s st', c.active.eval ptr = .ok (.ptr address) ∧ ρ.write name x st = some (.ok (), st') ∧
      c.store.write address x = .ok s ∧ s.read address = .ok x ∧ Represents f { c with store := s } st' ∧
      ∀ i < c.active.base, s.memory[i]? = c.store.memory[i]? := by
  cases h with
  | @slot k slot hcell hslot =>
    obtain ⟨hk, heval⟩ := slot_eval hslot hg hr
    obtain ⟨s, hs, hr', hbase⟩ := hr.write hk x
    refine ⟨_, s, _, heval, ?_, hs, ?_, hr', hbase⟩
    · rw [Env.write, hcell]
      rfl
    · exact hr'.read hk (if_pos rfl)
  | global hcell _ =>
    refine ⟨.global name, _, _, rfl, ?_, rfl, ?_, hr.writeGlobal name x, fun _ _ => rfl⟩
    · rw [Env.write, hcell]
      rfl
    · rw [Store.read, Store.global?_setGlobal, if_pos rfl]

end Refers

end

/-! ## Code between sites -/

/-- The operand has the value. -/
def Holds (v : Value) (r : RtValue) (c : Config) : Prop := c.active.eval v = .ok r

/-- From a configuration at `p` where `P` holds, the code leads to `q` as evaluation of `x` does; then `R` holds
of the value. -/
def Runs (X : Setting) (W : List BlockId) {α : Type} (P : Config → Prop) (p : Site) (x : Eval α) (q : Site)
    (R : α → Config → Prop) : Prop :=
  ∀ ⦃f c st⦄, Ends X W q f → Stands X f p c st → P c → X.Leads c (x st) fun a st' c' =>
    Stands X f q c' st' ∧ Frame p.function.temps.length c c' ∧ R a c'

theorem Site.Before.temps_le {G : BlockId → Prop} {p q : Site} (h : p.Before G q) :
    p.function.temps.length ≤ q.function.temps.length := h.function.temps.length_le

namespace Runs

variable {α β : Type} {X : Setting} {W : List BlockId} {p q r : Site} {P P' : Config → Prop} {x : Eval α}
  {R : α → Config → Prop}

theorem pure {a : α} (h : ∀ c, P c → R a c) : Runs X W P p (pure a) p R :=
  fun _ c _ _ hs hP => .pure ⟨hs, .refl _ c, h c hP⟩

theorem bind {y : α → Eval β} {S : β → Config → Prop} (hx : Runs X W P p x q R)
    (hy : ∀ a, Runs X W (R a) q (y a) r S) (hpq : p.Before all q) (hqr : q.Before all r) :
    Runs X W P p (x >>= y) r S := by
  intro f c st hE hs hP
  refine (hx (hE.before hqr) hs hP).bind fun a st' c' ⟨hs', hframe, hR⟩ => ?_
  refine (hy a hE hs' hR).imp fun b st'' c'' ⟨hs'', hframe', hS⟩ => ⟨hs'', ?_, hS⟩
  exact hframe.trans hframe' hpq.temps_le

theorem imp {S : α → Config → Prop} (h : Runs X W P p x q R) (hS : ∀ a c, R a c → S a c) : Runs X W P p x q S :=
  fun _ _ _ hE hs hP => (h hE hs hP).imp fun a _ c' ⟨hs', hframe, hR⟩ => ⟨hs', hframe, hS a c' hR⟩

/-- The code goes on without evaluation. -/
theorem andThen {S : α → Config → Prop} (hx : Runs X W P p x q R) (hy : ∀ a, Runs X W (R a) q (Pure.pure a) r S)
    (hpq : p.Before all q) (hqr : q.Before all r) : Runs X W P p x r S := by
  have := hx.bind hy hpq hqr
  rwa [bind_pure] at this

/-- What depends on the frame only stays as it is. -/
theorem carry {S : Config → Prop} (hS : ∀ {c c'}, Frame p.function.temps.length c c' → S c → S c')
    (h : Runs X W P p x q R) : Runs X W (fun c => S c ∧ P c) p x q fun a c => S c ∧ R a c :=
  fun _ _ _ hE hs hP => (h hE hs hP.2).imp fun _ _ _ ⟨hs', hframe, hR⟩ => ⟨hs', hframe, hS hframe hP.1, hR⟩

/-- An operand that is known at `p` keeps its value. -/
theorem keep {v : Value} {ty : Ty} (hv : p.HasType v ty) (z : RtValue) (h : Runs X W P p x q R) :
    Runs X W (fun c => Holds v z c ∧ P c) p x q fun a c => Holds v z c ∧ R a c :=
  h.carry fun hframe hc => (hframe.eval_eq hv (Nat.le_refl _)).trans hc

end Runs

section

variable {X : Setting} {W D : List BlockId} {p : Site} {ρ : Env}

/-- An instruction that writes `r` to a new temporary. -/
theorem runs_result {α : Type} {a : α} {P : Config → Prop} {R : α → Config → Prop} {ty : Ty} {i : Nat → Instruction}
    (hi : (i p.function.temps.length).slot? = none) {r : RtValue}
    (hexec : ∀ c, P c → ∀ rest, { c.active with code := rest }.execute c.store (i p.function.temps.length) =
      .ok (.next ({ c.active with code := rest }.setTemp p.function.temps.length r) c.store))
    (hR : ∀ c, Holds (.temp p.function.temps.length) r c → R a c) :
    Runs X W P p (pure a) (p.at_ (p.function.result p.block ty i) p.block) R := by
  intro f c st hE hs hP
  obtain ⟨c', hnext, hs', hframe, heval⟩ := hs.result hi hE (hexec c hP)
  exact .step hnext (.pure ⟨hs', hframe, hR c' heval⟩)

/-- A variable is read into a new temporary. -/
theorem runs_load (h : p.Good W D) {name : String} {ptr : Value} (hptr : Refers ρ name p ptr) {P : Config → Prop} :
    Runs X W P p (ρ.read name) (p.at_ (p.function.result p.block .f64 (.load · ptr)) p.block)
      fun x => Holds (.temp p.function.temps.length) (.float x) := by
  intro f c st hE hs _
  have hextends : p.function.Extends all (p.function.result p.block .f64 (.load · ptr)) :=
    h.extends_result ⟨rfl, rfl, rfl⟩
  have hb := before_at p.block hextends
  obtain ⟨address, heval, hread⟩ := hptr.read (hE.before hb).grows (hE.before hb).module hs.represents
  have hexec : ∀ rest, { c.active with code := rest }.execute c.store (.load p.function.temps.length ptr) = _ :=
    fun rest => Activation.execute_load (a := { c.active with code := rest }) heval
  obtain ⟨x, hx, hstore⟩ | ⟨stop, fault, hx, hstore, hmatch⟩ := hread
  · rw [hx]
    rw [hstore] at hexec
    obtain ⟨c', hnext, hs', hframe, hc'⟩ := hs.result (i := (.load · ptr)) rfl hE hexec
    exact .step hnext (.pure ⟨hs', hframe, hc'⟩)
  · rw [hx]
    obtain ⟨rest, hcode, -⟩ := hs.code_emit (g := p.function.withTemp .f64) rfl rfl hE.grows
    refine Leads.fault (s := c.store) ?_ hmatch hs.represents.world
    rw [next_of_code hcode, Config.execute, hexec, hstore]
    rfl

/-- A value is written to a variable. It can be read at the address then. -/
theorem runs_store (h : p.Good W D) {name : String} {v ptr : Value} (hptr : Refers ρ name p ptr) (x : Float) :
    Runs X W (Holds v (.float x)) p (ρ.write name x) (p.at_ (p.function.emit p.block (.store v ptr)) p.block)
      fun _ c => ∃ address, Holds ptr (.ptr address) c ∧ c.store.read address = .ok x := by
  intro f c st hE hs hv
  have hb := before_at p.block (h.extends_store (v := v) ptr)
  obtain ⟨address, s, st', heval, hwrite, hstore, hread, hr, hmemory⟩ :=
    hptr.write (hE.before hb).grows hs.represents x
  obtain ⟨rest, hcode, hstands⟩ := hs.code_emit (g := p.function) rfl rfl hE.grows
  rw [hwrite]
  let c' : Config := { c with store := s, active := { c.active with code := rest } }
  have hnext : c.next X.module X.maxDepth = some (.running c') := by
    rw [next_of_code hcode, Config.execute,
      Activation.execute_store (a := { c.active with code := rest }) hv heval hstore]
  have hframe : Frame p.function.temps.length c c' := ⟨rfl, rfl, rfl, rfl, rfl, fun _ _ => rfl, hmemory⟩
  have hr' : Represents f c' st' := ⟨hr.blocks, hr.size, hr.slots, hr.cells, hr.world⟩
  exact .step hnext (.pure ⟨hstands rfl (Store.depth_write hstore) rfl rfl hr', hframe, address, heval, hread⟩)

end

/-! ## Constructs -/

/-- The environment agrees with the scope at the site: cells are numbered as slots are reserved. -/
structure Linked (ρ : Env) (p : Site) : Prop where
  next : ρ.next = p.function.slots.length
  bound : ∀ {x slot}, p.scope.lookup x = some slot → ∃ k, ρ.cell x = some k ∧ p.function.slots.reverse[k]? = some slot
  free : ∀ {x}, p.scope.lookup x = none → ρ.cell x = none

theorem Linked.of_eq {ρ : Env} {p q : Site} (h : Linked ρ p) (hslots : q.function.slots = p.function.slots)
    (hscope : q.scope = p.scope) : Linked ρ q := by
  refine ⟨by rw [h.next, hslots], fun hx => ?_, fun hx => h.free (hscope ▸ hx)⟩
  rw [hslots]
  exact h.bound (hscope ▸ hx)

/-- The number that a run-time value is read as. -/
def Machine.RtValue.Reads (s : Store) (x : Float) : RtValue → Prop
  | .float y => y = x
  | .bool b => x = ofTruth b
  | .ptr a => s.read a = .ok x

/-- The value of a construct is read as the number. -/
def Denotes (p : Site) (v : Value) (x : Float) (c : Config) : Prop :=
  ∃ r, Holds v r c ∧ p.HasType v r.ty ∧ r.Reads c.store x

section

variable {p : Site} {v : Value} {x : Float} {c : Config}

theorem Denotes.float (h : Denotes p v x c) (hv : p.HasType v .f64) : Holds v (.float x) c := by
  obtain ⟨r, hr, hty, hreads⟩ := h
  have := hty.unique hv
  cases r with
  | float y => cases hreads; exact hr
  | bool | ptr => cases this

theorem Denotes.bool (h : Denotes p v x c) (hv : p.HasType v .bool) : ∃ b, Holds v (.bool b) c ∧ x = ofTruth b := by
  obtain ⟨r, hr, hty, hreads⟩ := h
  have := hty.unique hv
  cases r with
  | bool b => exact ⟨b, hr, hreads⟩
  | float | ptr => cases this

theorem Denotes.address (h : Denotes p v x c) (hv : p.HasType v .ptr) :
    ∃ address, Holds v (.ptr address) c ∧ c.store.read address = .ok x := by
  obtain ⟨r, hr, hty, hreads⟩ := h
  have := hty.unique hv
  cases r with
  | ptr address => exact ⟨address, hr, hreads⟩
  | float | bool => cases this

end

theorem truth_ofTruth (b : Bool) : truth (ofTruth b) = b := by
  cases b <;> decide +kernel

theorem one_apply_zero (x : Float) : CompareOp.one.apply x 0 = truth x := by
  have h0 : (0 : Float).isNaN = false := by decide +kernel
  rw [CompareOp.apply, truth, h0, Bool.or_false]

/-- A local variable in scope stays what it is. -/
def Meaning.Keeps {α : Type} (μ : Meaning α) : Prop :=
  ∀ {ρ x k}, ρ.cell x = some k → (μ.after ρ).cell x = some k

/-- The code that the step emits does what the construct means. -/
structure Simulates (X : Setting) (step : Lower Value) (μ : Meaning Float) : Prop where
  keeps : μ.Keeps
  lands : ∀ {W D p ρ}, p.Good W D → Linked ρ p → Lands W D p (step p.state) fun q v =>
    IsValue none q v ∧ Linked (μ.after ρ) q ∧
      Runs X W (fun _ => True) p (μ.run X.context ρ) q fun x => Denotes q v x

/-- The code that the step emits gives the number that the construct means as a run-time value. -/
def SimulatesAs (X : Setting) (ty : Ty) (give : Float → RtValue) (step : Lower Value) (μ : Meaning Float) : Prop :=
  ∀ {W D p ρ}, p.Good W D → Linked ρ p → Lands W D p (step p.state) fun q v =>
    q.HasType v ty ∧ Linked (μ.after ρ) q ∧
      Runs X W (fun _ => True) p (μ.run X.context ρ) q fun x => Holds v (give x)

section

variable {X : Setting} {W D : List BlockId} {p : Site} {ρ : Env} {v : Value}

theorem Linked.result (hl : Linked ρ p) (h : p.Good W D) {ty : Ty} {i : Nat → Instruction}
    (hi : (i p.function.temps.length).slot? = none) :
    Linked ρ (p.at_ (p.function.result p.block ty i) p.block) := by
  obtain ⟨b, hb, -⟩ := h.underway.current
  exact hl.of_eq (slots_emit (f := p.function.withTemp ty) hb hi) rfl

/-- An instruction with a result. -/
theorem lands_result (h : p.Good W D) (hl : Linked ρ p) {α : Type} {P : α → Config → Prop} {g : α → Float}
    {r : α → RtValue} {R : Site → Value → Float → Config → Prop} {ty : Ty} {i : Nat → Instruction} {step : Build Value}
    (hstep : step (p.base.builder.put p.function p.block) = .ok (.temp p.function.temps.length)
      (p.base.builder.put (p.function.result p.block ty i) p.block))
    (hi : (i p.function.temps.length).Plain)
    (hd : (i p.function.temps.length).dest? = some p.function.temps.length)
    (hfits : Fits p.base.module p.function (i p.function.temps.length))
    (hexec : ∀ a c, P a c → ∀ rest, { c.active with code := rest }.execute c.store (i p.function.temps.length) =
      .ok (.next ({ c.active with code := rest }.setTemp p.function.temps.length (r a)) c.store))
    (hR : ∀ q v a c, q.HasType v ty → Holds v (r a) c → R q v (g a) c) :
    Lands W D p (Lower.build step p.state) fun q v => q.HasType v ty ∧ Linked ρ q ∧
      ∀ a, Runs X W (P a) p (pure (g a)) q (R q v) := by
  have hty : (p.at_ (p.function.result p.block ty i) p.block).HasType (.temp p.function.temps.length) ty :=
    HasType.result p.base.module p.function p.block ty i
  exact .of_yields (yields_result_at h hstep hi hd hfits ⟨hty, hl.result h hi.slot,
    fun a => runs_result hi.slot (hexec a) fun c hc => hR _ _ a c hty hc⟩)

/-- An instruction whose result is the value of a construct. -/
theorem lands_value (h : p.Good W D) (hl : Linked ρ p) {α : Type} {P : α → Config → Prop} {g : α → Float}
    {r : α → RtValue} {ty : Ty} (hne : ty ≠ .ptr) (hty : ∀ a, (r a).ty = ty) (hreads : ∀ a s, (r a).Reads s (g a))
    {i : Nat → Instruction} (hi : (i p.function.temps.length).Plain)
    (hd : (i p.function.temps.length).dest? = some p.function.temps.length)
    (hfits : Fits p.base.module p.function (i p.function.temps.length))
    (hexec : ∀ a c, P a c → ∀ rest, { c.active with code := rest }.execute c.store (i p.function.temps.length) =
      .ok (.next ({ c.active with code := rest }.setTemp p.function.temps.length (r a)) c.store)) :
    Lands W D p (Lower.build (.emitResult ty i) p.state) fun q v => IsValue none q v ∧ Linked ρ q ∧
      ∀ a, Runs X W (P a) p (pure (g a)) q fun x => Denotes q v x :=
  (lands_result h hl (Build.emitResult_put h.hosts_builder h.isOpen ty i .unbounded) hi hd hfits hexec
    fun _ _ a _ hv hc => ⟨r a, hc, hty a ▸ hv, hreads a _⟩).imp
      fun _ _ _ _ ⟨hv, hlq, hruns⟩ => ⟨.plain hv hne, hlq, hruns⟩

theorem Linked.store (hl : Linked ρ p) (h : p.Good W D) (v ptr : Value) :
    Linked ρ (p.at_ (p.function.emit p.block (.store v ptr)) p.block) := by
  obtain ⟨b, hb, -⟩ := h.underway.current
  exact hl.of_eq (slots_emit hb rfl) rfl

/-- A read of a variable. -/
theorem lands_load (h : p.Good W D) (hl : Linked ρ p) {σ : Env} {name : String} {ptr : Value}
    (hptr : Refers σ name p ptr) : Lands W D p (Lower.build (.load ptr) p.state) fun q v =>
      q.HasType v .f64 ∧ Linked ρ q ∧ Runs X W (fun _ => True) p (σ.read name) q fun x => Holds v (.float x) := by
  have hty := HasType.result p.base.module p.function p.block .f64 (.load · ptr)
  exact .of_yields (yields_result_at h (Build.load_put h.hosts_builder h.isOpen hptr.isAddress) ⟨rfl, rfl, rfl⟩ rfl
    hptr.hasType ⟨hty, hl.result h rfl, runs_load h hptr⟩)

/-- A write to a variable. Then the value can be read at its address. -/
theorem lands_store (h : p.Good W D) (hl : Linked ρ p) {σ : Env} {name : String} {v ptr : Value}
    (hv : p.HasType v .f64) (hptr : Refers σ name p ptr) :
    Lands W D p (Lower.build (.store v ptr) p.state) fun q _ => Linked ρ q ∧
      ∀ x, Runs X W (Holds v (.float x)) p (σ.write name x) q fun _ c =>
        ∃ address, Holds ptr (.ptr address) c ∧ c.store.read address = .ok x :=
  .of_yields (yields_store_at h hv hptr.hasType hptr.isAddress ⟨hl.store h v ptr, runs_store h hptr⟩)

theorem lands_floatValue (h : p.Good W D) (hl : Linked ρ p) (hv : IsValue none p v) :
    Lands W D p (Lower.floatValue v p.state) fun q w => q.HasType w .f64 ∧ Linked ρ q ∧
      ∀ x, Runs X W (Denotes p v x) p (pure x) q fun x => Holds w (.float x) := by
  cases hv with
  | @plain _ _ ty hty hne =>
    refine .step (valueType_state h hty) (.refl p) ?_
    cases ty with
    | f64 => exact .of_ok rfl h (.refl p) ⟨hty, hl, fun x => .pure fun c hc => hc.float hty⟩
    | bool =>
      refine lands_result h hl (Build.emitResult_put h.hosts_builder h.isOpen .f64 (.boolToFloat · v) .unbounded)
        ⟨rfl, rfl, rfl⟩ rfl hty (fun x c hc rest => ?_) fun _ _ _ _ _ hc => hc
      obtain ⟨b, hb, rfl⟩ := hc.bool hty
      exact Activation.execute_boolToFloat (a := { c.active with code := rest }) hb
    | ptr => exact absurd rfl hne
  | address hty ha =>
    refine .step (valueType_state h hty) (.refl p) ?_
    refine lands_result (i := (.load · v)) h hl (Build.load_put h.hosts_builder h.isOpen ha)
      ⟨rfl, rfl, rfl⟩ rfl hty (fun x c hc rest => ?_) fun _ _ _ _ _ hc => hc
    obtain ⟨address, heval, hread⟩ := hc.address hty
    rw [Activation.execute_load (a := { c.active with code := rest }) heval, hread]
    rfl

theorem lands_boolValue (h : p.Good W D) (hl : Linked ρ p) (hv : IsValue none p v) :
    Lands W D p (Lower.boolValue v p.state) fun q w => q.HasType w .bool ∧ Linked ρ q ∧
      ∀ x, Runs X W (Denotes p v x) p (pure x) q fun x => Holds w (.bool (truth x)) := by
  have hfloat : Lands W D p ((do
      let x ← Lower.floatValue v
      Lower.build (.compare .one x (.constFloat 0))) p.state) fun q w => q.HasType w .bool ∧ Linked ρ q ∧
        ∀ x, Runs X W (Denotes p v x) p (pure x) q fun x => Holds w (.bool (truth x)) := by
    refine (lands_floatValue (X := X) h hl hv).bind fun w q hq hpq ⟨hw, hlq, hruns⟩ => ?_
    refine (lands_result (X := X) (P := fun x => Holds w (.float x)) (g := id) (R := fun _ z x => Holds z (.bool (truth x)))
      hq hlq (Build.emitResult_put hq.hosts_builder hq.isOpen .bool (.compare · .one w (.constFloat 0)) .unbounded)
      ⟨rfl, rfl, rfl⟩ rfl ⟨hw, .constFloat 0⟩ (fun x c hc rest => ?_) fun _ _ _ _ _ hc => hc).imp
      fun r z _ hqr ⟨hz, hlr, hruns'⟩ => ⟨hz, hlr, fun x => (hruns x).andThen hruns' hpq hqr⟩
    rw [Activation.execute_compare (a := { c.active with code := rest }) (y := 0) .one hc rfl, one_apply_zero]
    rfl
  cases hv with
  | @plain _ _ ty hty hne =>
    refine .step (valueType_state h hty) (.refl p) ?_
    cases ty with
    | bool =>
      refine .of_ok rfl h (.refl p) ⟨hty, hl, fun x => .pure fun c hc => ?_⟩
      obtain ⟨b, hb, rfl⟩ := hc.bool hty
      rwa [truth_ofTruth]
    | f64 => exact hfloat
    | ptr => exact absurd rfl hne
  | address hty ha => exact .step (valueType_state h hty) (.refl p) hfloat

theorem Simulates.asFloat {step : Lower Value} {μ : Meaning Float} (h : Simulates X step μ) :
    SimulatesAs X .f64 .float (Lower.asFloat step) μ := by
  intro W D p ρ hp hl
  refine (h.lands hp hl).bind fun v q hq hpq ⟨hv, hlq, hruns⟩ => ?_
  exact (lands_floatValue (X := X) hq hlq hv).imp fun r w _ hqr ⟨hw, hlr, hruns'⟩ =>
    ⟨hw, hlr, hruns.andThen hruns' hpq hqr⟩

theorem Simulates.asBool {step : Lower Value} {μ : Meaning Float} (h : Simulates X step μ) :
    SimulatesAs X .bool (fun x => .bool (truth x)) (Lower.asBool step) μ := by
  intro W D p ρ hp hl
  refine (h.lands hp hl).bind fun v q hq hpq ⟨hv, hlq, hruns⟩ => ?_
  exact (lands_boolValue (X := X) hq hlq hv).imp fun r w _ hqr ⟨hw, hlr, hruns'⟩ =>
    ⟨hw, hlr, hruns.andThen hruns' hpq hqr⟩

end

/-! ## Variables and operators -/

section

variable {X : Setting} {step left right : Lower Value} {μ ν : Meaning Float}

theorem simulates_number (x : Float) : Simulates X (pure (.constFloat x)) (.value x) where
  keeps h := h
  lands h hl := .of_ok rfl h (.refl _) ⟨.plain (.constFloat x) (by simp), hl,
    .pure fun c _ => ⟨.float x, rfl, .constFloat x, rfl⟩⟩

/-- The variable that a name stands for. -/
theorem lands_resolve {W D : List BlockId} {p : Site} {ρ : Env} (h : p.Good W D) (hl : Linked ρ p) (name : String) :
    Lands W D p (Lower.resolve name p.state) fun q v => q = p ∧ Refers ρ name p v := by
  have hlocal : Lower.local? name p.state = .ok (p.scope.lookup name) p.state := rfl
  refine .step hlocal (.refl p) ?_
  cases hx : p.scope.lookup name with
  | some slot =>
    obtain ⟨k, hk, hslot⟩ := hl.bound hx
    exact .of_ok rfl h (.refl p) ⟨rfl, .slot hk hslot⟩
  | none =>
    have hglobal : Lower.build (.global? name) p.state =
        .ok ((p.base.module.global? name).map fun g => .global g.name) p.state := rfl
    refine .step hglobal (.refl p) ?_
    cases hg : p.base.module.global? name with
    | none => exact .fail
    | some g =>
      refine .of_ok (q := p) rfl h (.refl p) ⟨rfl, ?_⟩
      show Refers ρ name p (.global g.name)
      rw [global?_name hg]
      exact .global (hl.free hx) (by rw [hg]; rfl)

/-- A value of a type that is read as itself. -/
theorem Denotes.of_float {p : Site} {v : Value} (hv : p.HasType v .f64) {x : Float} {c : Config}
    (h : Holds v (.float x) c) : Denotes p v x c := ⟨.float x, h, hv, rfl⟩

theorem simulates_variableRead (name : String) : Simulates X (Lower.variableRead name) (.variableRead name) where
  keeps h := h
  lands {W D p ρ} h hl := by
    refine (lands_resolve h hl name).bind fun ptr q hq _ ⟨heq, hptr⟩ => ?_
    subst heq
    exact (lands_load (X := X) hq hl hptr).imp fun r v _ _ ⟨hv, hlr, hruns⟩ =>
      ⟨.plain hv (by simp), hlr, hruns.imp fun _ _ hc => .of_float hv hc⟩

/-- An operand and an instruction that takes it. -/
theorem simulates_one {ty : Ty} {give : Float → RtValue} (hμ : μ.Keeps) (hs : SimulatesAs X ty give step μ)
    {op : Value → Build Value} {g : Float → Float}
    (hop : ∀ {W D p ρ v}, p.Good W D → Linked ρ p → p.HasType v ty →
      Lands W D p (Lower.build (op v) p.state) fun q w => IsValue none q w ∧ Linked ρ q ∧
        ∀ x, Runs X W (Holds v (give x)) p (pure (g x)) q fun z => Denotes q w z) :
    Simulates X (do let v ← step; Lower.build (op v)) (μ.map g) where
  keeps := hμ
  lands {W D p ρ} h hl := by
    refine (hs h hl).bind fun v q hq hpq ⟨hv, hlq, hruns⟩ => ?_
    exact (hop hq hlq hv).imp fun r w _ hqr ⟨hw, hlr, hruns'⟩ => ⟨hw, hlr, hruns.bind hruns' hpq hqr⟩

/-- Two operands and an instruction that takes both. -/
theorem simulates_both {ty : Ty} {give : Float → RtValue} (hμ : μ.Keeps) (hν : ν.Keeps)
    (hleft : SimulatesAs X ty give left μ) (hright : SimulatesAs X ty give right ν)
    {o : Value → Value → Build Value} {g : Float → Float → Float}
    (ho : ∀ {W D p ρ l r}, p.Good W D → Linked ρ p → p.HasType l ty → p.HasType r ty →
      Lands W D p (Lower.build (o l r) p.state) fun q v => IsValue none q v ∧ Linked ρ q ∧
        ∀ x y, Runs X W (fun c => Holds l (give x) c ∧ Holds r (give y) c) p (pure (g x y)) q
          fun z => Denotes q v z) :
    Simulates X (do let l ← left; let r ← right; Lower.build (o l r)) (μ.both ν g) where
  keeps h := hν (hμ h)
  lands {W D p ρ} h hl := by
    refine (hleft h hl).bind fun l q hq hpq ⟨hlty, hlq, hrunsl⟩ => ?_
    refine (hright hq hlq).bind fun r q' hq' hqq' ⟨hrty, hlq', hrunsr⟩ => ?_
    refine (ho hq' hlq' (hqq'.hasType hlty) hrty).imp fun s v _ hqs ⟨hv, hls, hruns⟩ => ⟨hv, hls, ?_⟩
    refine hrunsl.bind (fun x => ?_) hpq (hqq'.trans hqs)
    have hkeep := hrunsr.keep hlty (give x)
    refine Runs.bind (R := fun y c => Holds l (give x) c ∧ Holds r (give y) c) ?_ (hruns x) hqq' hqs
    exact fun f c st hE hs hc => hkeep hE hs ⟨hc, trivial⟩

/-- An instruction with two operands, the results of which are `z`; they are read as `g`. -/
theorem lands_operation {W D : List BlockId} {p : Site} {ρ : Env} (h : p.Good W D) (hl : Linked ρ p) {l r : Value}
    {give : Float → RtValue} {z : Float → Float → RtValue} {g : Float → Float → Float} {ty : Ty} (hne : ty ≠ .ptr)
    (hty : ∀ x y, (z x y).ty = ty) (hreads : ∀ x y s, (z x y).Reads s (g x y)) {i : Nat → Instruction}
    (hi : (i p.function.temps.length).Plain)
    (hd : (i p.function.temps.length).dest? = some p.function.temps.length)
    (hfits : Fits p.base.module p.function (i p.function.temps.length))
    (hexec : ∀ {a : Activation} {s x y}, a.eval l = .ok (give x) → a.eval r = .ok (give y) →
      a.execute s (i p.function.temps.length) = .ok (.next (a.setTemp p.function.temps.length (z x y)) s)) :
    Lands W D p (Lower.build (.emitResult ty i) p.state) fun q v => IsValue none q v ∧ Linked ρ q ∧
      ∀ x y, Runs X W (fun c => Holds l (give x) c ∧ Holds r (give y) c) p (pure (g x y)) q fun z => Denotes q v z := by
  let P : Float × Float → Config → Prop := fun xy c => Holds l (give xy.1) c ∧ Holds r (give xy.2) c
  exact (lands_value (X := X) (P := P) (g := fun xy => g xy.1 xy.2) (r := fun xy => z xy.1 xy.2) h hl hne
    (fun xy => hty xy.1 xy.2) (fun xy => hreads xy.1 xy.2) hi hd hfits fun xy c hc rest => hexec hc.1 hc.2).imp
      fun q v _ _ ⟨hv, hlq, hruns⟩ => ⟨hv, hlq, fun x y => hruns (x, y)⟩

theorem simulates_unary (op : Operator) (h : Simulates X step μ) : Simulates X (Lower.unary op step) (.unary op μ) := by
  unfold Lower.unary Meaning.unary
  split
  · refine simulates_one h.keeps h.asFloat fun {W D p ρ v} hp hl hv => ?_
    exact lands_value (P := fun x => Holds v (.float x)) (g := fun x => -x) (r := fun x => .float (-x)) hp hl
      (by simp) (fun _ => rfl) (fun _ _ => rfl) ⟨rfl, rfl, rfl⟩ rfl hv fun x c hc rest =>
        Activation.execute_neg (a := { c.active with code := rest }) hc
  · exact ⟨fun h => h, fun _ _ => .fail⟩

theorem simulates_binary (op : Operator) (hl : Simulates X left μ) (hr : Simulates X right ν) :
    Simulates X (Lower.binary op left right) (.binary op μ ν) := by
  refine simulates_both (o := fun l r => Lower.operation l r op) hl.keeps hr.keeps hl.asFloat hr.asFloat
    fun {W D p ρ l r} hp hlinked hlty hrty => ?_
  have harith : ∀ (op : BinaryOp) (g : Float → Float → Float), (∀ x y, op.apply x y = g x y) →
      Lands W D p (Lower.build (.binary op l r) p.state) fun q v => IsValue none q v ∧ Linked ρ q ∧
        ∀ x y, Runs X W (fun c => Holds l (.float x) c ∧ Holds r (.float y) c) p (pure (g x y)) q
          fun z => Denotes q v z := fun op g hg =>
    lands_operation (z := fun x y => .float (op.apply x y)) hp hlinked (by simp) (fun _ _ => rfl)
      (fun x y _ => hg x y) ⟨rfl, rfl, rfl⟩ rfl ⟨hlty, hrty⟩ (Activation.execute_binary op)
  have hcompare : ∀ (op : CompareOp) (g : Float → Float → Float), (∀ x y, g x y = ofTruth (op.apply x y)) →
      Lands W D p (Lower.build (.compare op l r) p.state) fun q v => IsValue none q v ∧ Linked ρ q ∧
        ∀ x y, Runs X W (fun c => Holds l (.float x) c ∧ Holds r (.float y) c) p (pure (g x y)) q
          fun z => Denotes q v z := fun op g hg =>
    lands_operation (z := fun x y => .bool (op.apply x y)) hp hlinked (by simp) (fun _ _ => rfl)
      (fun x y _ => hg x y) ⟨rfl, rfl, rfl⟩ rfl ⟨hlty, hrty⟩ (Activation.execute_compare op)
  cases op with
  | add => exact harith .add (Operator.eval .add) fun _ _ => rfl
  | sub => exact harith .sub (Operator.eval .sub) fun _ _ => rfl
  | mul => exact harith .mul (Operator.eval .mul) fun _ _ => rfl
  | div => exact harith .div (Operator.eval .div) fun _ _ => rfl
  | less => exact hcompare .ult (Operator.eval .less) fun _ _ => rfl
  | equal => exact hcompare .ueq (Operator.eval .equal) fun _ _ => rfl

theorem simulates_unaryLogical (op : Connective) (h : Simulates X step μ) :
    Simulates X (Lower.unaryLogical op step) (.unaryLogical op μ) := by
  cases op with
  | not =>
    refine simulates_one h.keeps h.asBool fun hp hl hv => ?_
    exact lands_value (r := fun x => .bool (!truth x)) hp hl (by simp) (fun _ => rfl)
      (fun _ _ => rfl) ⟨rfl, rfl, rfl⟩ rfl hv fun x c hc rest =>
        Activation.execute_not (a := { c.active with code := rest }) hc
  | _ => exact ⟨fun h => h, fun _ _ => .fail⟩

theorem simulates_logical (op : Connective) (hl : Simulates X left μ) (hr : Simulates X right ν) :
    Simulates X (Lower.logical op left right) (.logical op μ ν) := by
  have hjunction : ∀ (op : LogicalOp) (g : Float → Float → Float),
      (∀ x y, g x y = ofTruth (op.apply (truth x) (truth y))) →
      Simulates X (Lower.junction op left right) (μ.both ν g) := fun op g hg => by
    refine simulates_both (o := fun l r => .logical op l r) hl.keeps hr.keeps hl.asBool hr.asBool
      fun {W D p ρ l r} hp hlinked hlty hrty => ?_
    exact lands_operation (z := fun x y => .bool (op.apply (truth x) (truth y))) hp hlinked (by simp)
      (fun _ _ => rfl) (fun x y _ => hg x y) ⟨rfl, rfl, rfl⟩ rfl ⟨hlty, hrty⟩ (Activation.execute_logical op)
  cases op with
  | and => exact hjunction .and _ fun _ _ => rfl
  | or => exact hjunction .or _ fun _ _ => rfl
  | not => exact ⟨fun h => h, fun _ _ => .fail⟩

end

/-! ## Calls -/

/-- The code that the step emits gives the numbers that arguments mean. -/
structure SimulatesArgs (X : Setting) (args : Lower (List Value)) (count : Nat) (μ : Meaning (List Float)) : Prop where
  keeps : μ.Keeps
  lands : ∀ {W D p ρ}, p.Good W D → Linked ρ p → Lands W D p (args p.state) fun q vs =>
    (vs.length = count ∧ ∀ v ∈ vs, q.HasType v .f64) ∧ Linked (μ.after ρ) q ∧
      Runs X W (fun _ => True) p (μ.run X.context ρ) q fun xs c => c.active.evalFloats vs = .ok xs

theorem length_of_evalFloats {a : Activation} {vs : List Value} {xs : List Float} (h : a.evalFloats vs = .ok xs) :
    xs.length = vs.length := by
  induction vs generalizing xs with
  | nil => cases h; rfl
  | cons v vs ih =>
    rw [Activation.evalFloats] at h
    cases hv : a.evalFloat v with
    | error e => rw [hv] at h; cases h
    | ok x =>
      cases hvs : a.evalFloats vs with
      | error e => rw [hv, hvs] at h; cases h
      | ok ys =>
        rw [hv, hvs] at h
        cases h
        rw [List.length_cons, List.length_cons, ih hvs]

section

variable {X : Setting} {step : Lower Value} {μ : Meaning Float} {args : Lower (List Value)}
  {ν : Meaning (List Float)} {n : Nat}

theorem simulatesArgs_nil : SimulatesArgs X (pure []) 0 (.value []) where
  keeps h := h
  lands h hl := .of_ok rfl h (.refl _) ⟨⟨rfl, by simp⟩, hl, .pure fun _ _ => rfl⟩

theorem simulatesArgs_cons (callee : String) (index : Nat) (h : Simulates X step μ) (hargs : SimulatesArgs X args n ν) :
    SimulatesArgs X (do
      let v ← Lower.within (.argument index callee) (Lower.asFloat step)
      let vs ← args
      return v :: vs) (n + 1) (μ.both ν List.cons) where
  keeps hx := hargs.keeps (h.keeps hx)
  lands {W D p ρ} hp hl := by
    refine ((h.asFloat hp hl).within _).bind fun v q hq hpq ⟨hv, hlq, hruns⟩ => ?_
    refine (hargs.lands hq hlq).bind fun vs r hr hqr ⟨⟨hcount, hvs⟩, hlr, hrunss⟩ => ?_
    refine .of_ok rfl hr (.refl r) ⟨⟨by rw [List.length_cons, hcount], ?_⟩, hlr, ?_⟩
    · exact List.forall_mem_cons.2 ⟨hqr.hasType hv, hvs⟩
    refine hruns.bind (fun x => ?_) hpq hqr
    have hkeep := hrunss.keep hv (.float x)
    refine Runs.bind (R := fun xs c => Holds v (.float x) c ∧ c.active.evalFloats vs = .ok xs) ?_
      (fun xs => .pure fun c hc => ?_) hqr (.refl r)
    · exact fun f c st hE hs hc => hkeep hE hs ⟨hc, trivial⟩
    · have hfloat : c.active.evalFloat v = .ok x := by
        rw [Activation.evalFloat, hc.1]
        rfl
      rw [Activation.evalFloats, hfloat, hc.2]
      rfl

/-- The machine agrees about a call. -/
theorem runs_call {W : List BlockId} {p : Site} {callee : String} {vs : List Value} (xs : List Float)
    (harity : p.base.module.arity? callee = some vs.length) :
    Runs X W (fun c => c.active.evalFloats vs = .ok xs) p (X.context.apply callee xs)
      (p.at_ (p.function.result p.block .f64 (.call · callee vs)) p.block)
      fun x => Holds (.temp p.function.temps.length) (.float x) := by
  intro f c st hE hs hvs
  obtain ⟨rest, hcode, hstands⟩ := hs.code_emit (g := p.function.withTemp .f64) rfl rfl hE.grows
  have hcallee : X.module.arity? callee = some xs.length := by
    rw [length_of_evalFloats hvs]
    exact hE.module.arity harity
  have hleads := X.calls hcode hvs hcallee hs.depth hs.represents.world
  rw [← hs.callers] at hleads
  refine hleads.imp fun x st' c' ⟨s, hc', hmemory, hdepth, hworld, hcells⟩ => ?_
  have hframe := Frame.setTemp c rest (Nat.le_refl p.function.temps.length) (.float x)
  have hr := hframe.represents rfl hs.represents
  subst hc'
  refine ⟨hstands rfl hdepth rfl rfl ⟨hr.blocks, ?_, hr.slots, fun hk => ?_, hworld⟩, ?_, Activation.eval_setTemp _ _ _⟩
  · rw [hmemory]
    exact hr.size
  · rw [hmemory, hcells]
    exact hr.cells hk
  · exact ⟨rfl, rfl, rfl, rfl, rfl, hframe.temps, fun i _ => by rw [hmemory]⟩

theorem simulates_call (callee : String) (hargs : SimulatesArgs X args n ν) :
    Simulates X (Lower.call callee n args) (.call callee ν) where
  keeps := hargs.keeps
  lands {W D p ρ} hp hl := by
    have hfunction : Lower.build (.function? callee) p.state = .ok (p.state.module.function? callee) p.state := rfl
    refine .step hfunction (.refl p) ?_
    cases hf : p.state.module.function? callee with
    | none => exact .fail
    | some f =>
      have harity := hp.arity?_state callee
      rw [hf, Option.map_some] at harity
      by_cases hcount : f.arity = n
      · dsimp only
        rw [if_neg (by simpa using hcount)]
        refine (hargs.lands hp hl).bind fun vs q hq hpq ⟨⟨hlen, hvs⟩, hlq, hruns⟩ => ?_
        have hcallee : q.base.module.arity? callee = some vs.length := by
          rw [hlen, ← hcount]
          exact hpq.module.arity harity.symm
        have hsome : (q.state.module.function? callee).isSome := by
          rw [← Option.isSome_map, hq.arity?_state, hcallee]
          rfl
        have hty : (q.at_ (q.function.result q.block .f64 (.call · callee vs)) q.block).HasType
            (.temp q.function.temps.length) .f64 :=
          HasType.result q.base.module q.function q.block .f64 (.call · callee vs)
        have hextends : q.function.Extends all (q.function.result q.block .f64 (.call · callee vs)) :=
          hq.extends_result ⟨rfl, rfl, rfl⟩
        have hb := before_at q.block hextends
        refine .of_yields (yields_result_at hq (Build.call_put hq.hosts_builder hq.isOpen hsome vs) ⟨rfl, rfl, rfl⟩
          rfl ⟨hcallee, hvs⟩ ⟨.plain hty (by simp), hlq.result hq rfl, ?_⟩)
        exact (hruns.bind (fun xs => runs_call xs hcallee) hpq hb).imp fun _ _ hc => .of_float hty hc
      · dsimp only
        rw [if_pos (by simpa using hcount)]
        exact .fail

end

/-! ## Bindings and assignments -/

section

variable {X : Setting} {W D : List BlockId} {p : Site} {ρ : Env}

/-- Reserving a slot is no code at the site. -/
theorem runs_reserve (h : p.Good W D) (name : String) {P : Config → Prop} :
    Runs X W P p (pure ()) (p.at_ (p.function.reserve ⟨0⟩ name) p.block) fun _ => P := by
  obtain ⟨entry, hentry⟩ := h.underway.entry_isSome
  intro f c st _ hs hP
  refine .pure ⟨hs.of_body rfl fun {b} hb => ?_, .refl _ c, hP⟩
  obtain ⟨b', more, hb', -⟩ := (Grows.reserve (G := all) hentry name).block hb
  refine ⟨b', hb', ?_⟩
  rw [block?_reserve] at hb'
  split at hb'
  · next hid =>
    rw [← hid, hb] at hb'
    cases hb'
    exact Block.body_prepend_alloca _ _
  · cases hb.symm.trans hb'
    rfl

/-- The environment with a cell that no name is bound to yet. -/
def Env.reserve (ρ : Env) : Env := { ρ with next := ρ.next + 1 }

theorem Linked.reserve (hl : Linked ρ p) (h : p.Good W D) (name : String) :
    Linked ρ.reserve (p.at_ (p.function.reserve ⟨0⟩ name) p.block) ∧
      (p.function.reserve ⟨0⟩ name).slots.reverse[ρ.next]? = some (p.function.slotFor name) := by
  obtain ⟨entry, hentry⟩ := h.underway.entry_isSome
  have hslots : (p.function.reserve ⟨0⟩ name).slots = p.function.slotFor name :: p.function.slots :=
    slots_reserve hentry
  refine ⟨⟨?_, fun hx => ?_, hl.free⟩, ?_⟩
  · show ρ.next + 1 = (p.function.reserve ⟨0⟩ name).slots.length
    rw [hslots, hl.next, List.length_cons]
  · obtain ⟨k, hk, hslot⟩ := hl.bound hx
    exact ⟨k, hk, (Grows.reserve (G := all) hentry name).slot_number hslot⟩
  · rw [hslots, List.reverse_cons, hl.next, ← List.length_reverse]
    exact List.getElem?_concat_length

/-- A name is bound to the cell that was reserved before. -/
theorem Linked.bind {q : Site} {slot : String} (hl : Linked ρ.reserve q)
    (hslot : q.function.slots.reverse[ρ.next]? = some slot) (name : String) :
    Linked (ρ.bind name) (q.withScope (q.scope.bind name slot)) := by
  refine ⟨hl.next, fun {x s} hx => ?_, fun {x} hx => ?_⟩
  · replace hx : (q.scope.bind name slot).lookup x = some s := hx
    rw [Scope.lookup_bind] at hx
    by_cases hname : x = name
    · rw [if_pos hname] at hx
      cases hx
      exact ⟨ρ.next, if_pos hname, hslot⟩
    · rw [if_neg hname] at hx
      obtain ⟨k, hk, hs⟩ := hl.bound hx
      exact ⟨k, (if_neg hname).trans hk, hs⟩
  · replace hx : (q.scope.bind name slot).lookup x = none := hx
    rw [Scope.lookup_bind] at hx
    by_cases hname : x = name
    · rw [if_pos hname] at hx
      cases hx
    · rw [if_neg hname] at hx
      exact (if_neg hname).trans (hl.free hx)

/-- A slot is reserved and a value is written to it: a new cell gets its first value. -/
theorem lands_fresh (h : p.Good W D) (hl : Linked ρ p) (name : String) {v : Value} (hv : p.HasType v .f64) :
    Lands W D p ((do
      let slot ← Lower.build (.alloca name)
      Lower.build (.store v (.slot slot))
      return slot) p.state) fun q slot =>
        Linked ρ.reserve q ∧ q.function.slots.reverse[ρ.next]? = some slot ∧
          ∀ x, Runs X W (Holds v (.float x)) p (.writeCell ρ.next x) q fun _ _ => True := by
  obtain ⟨entry, hentry⟩ := h.underway.entry_isSome
  have hpq := before_at p.block (.reserve (G := all) hentry name)
  obtain ⟨hlq, hslot⟩ := hl.reserve h name
  have halloca : Lands W D p (Lower.build (.alloca name) p.state) fun q slot =>
      q = p.at_ (p.function.reserve ⟨0⟩ name) p.block ∧ slot = p.function.slotFor name :=
    .of_yields (yields_alloca_at h name ⟨rfl, rfl⟩)
  refine halloca.bind fun slot q hq _ ⟨heq, hslotEq⟩ => ?_
  rw [← hslotEq] at hslot
  rw [← heq] at hpq hlq
  replace hslot : q.function.slots.reverse[ρ.next]? = some slot := by rw [heq]; exact hslot
  have hrefers : Refers (ρ.bind name) name q (.slot slot) := .slot (if_pos rfl) hslot
  refine (lands_store (X := X) hq hlq (hpq.hasType hv) hrefers).bind fun _ r hr hqr ⟨hlr, hstored⟩ => ?_
  refine .of_ok rfl hr (.refl r) ⟨hlr, hqr.function.slot_number hslot, fun x => ?_⟩
  have hreserve : Runs X W (Holds v (.float x)) p (pure ()) q fun _ => Holds v (.float x) := by
    rw [heq]
    exact runs_reserve h name
  have hwrite : (ρ.bind name).write name x = .writeCell ρ.next x := by
    rw [Env.write, show (ρ.bind name).cell name = some ρ.next from if_pos rfl]
  have := hreserve.bind (fun _ => (hstored x).imp fun _ _ _ => trivial) hpq hqr
  rwa [pure_bind, hwrite] at this

/-- A new cell with an initial value. -/
theorem lands_allocate (h : p.Good W D) (hl : Linked ρ p) (name : String) {step : Lower Value} {μ : Meaning Float}
    (hs : Simulates X step μ) : Lands W D p (Lower.allocate name step p.state) fun q slot =>
      Linked (μ.after ρ).reserve q ∧ q.function.slots.reverse[(μ.after ρ).next]? = some slot ∧
        Runs X W (fun _ => True) p (do
          let x ← μ.run X.context ρ
          .writeCell (μ.after ρ).next x) q fun _ _ => True := by
  refine ((hs.asFloat h hl).within _).bind fun v q hq hpq ⟨hv, hlq, hruns⟩ => ?_
  exact (lands_fresh (X := X) hq hlq name hv).imp fun r slot _ hqr ⟨hlr, hslot, hwrite⟩ =>
    ⟨hlr, hslot, hruns.bind hwrite hpq hqr⟩

theorem Runs.withScope {α : Type} {P : Config → Prop} {q : Site} {x : Eval α} {R : α → Config → Prop}
    (h : Runs X W P p x q R) (scope : Scope) : Runs X W P p x (q.withScope scope) R :=
  fun _ _ _ hE hs hP => (h ⟨hE.grows, hE.module, hE.complete⟩ hs hP).imp fun _ _ _ ⟨hs', hrest⟩ =>
    ⟨⟨hs'.callers, hs'.depth, hs'.label, hs'.code, hs'.represents⟩, hrest⟩

theorem Runs.ofScope {α : Type} {P : Config → Prop} {q : Site} {x : Eval α} {R : α → Config → Prop} {scope : Scope}
    (h : Runs X W P (p.withScope scope) x q R) : Runs X W P p x q R :=
  fun _ _ _ hE hs hP => h hE ⟨hs.callers, hs.depth, hs.label, hs.code, hs.represents⟩ hP

/-- A name is bound as it was at an earlier site. -/
theorem Linked.restore {σ : Env} {q r : Site} (hr : Linked σ r) (hq : Linked ρ q) (hqr : q.Before all r)
    (name : String) :
    Linked (σ.restore name ρ) (r.withScope (r.scope.restore name (q.scope.lookup name))) := by
  refine ⟨hr.next, fun {x s} hx => ?_, fun {x} hx => ?_⟩
  · replace hx : (r.scope.restore name (q.scope.lookup name)).lookup x = some s := hx
    rw [Scope.lookup_restore] at hx
    by_cases hname : x = name
    · rw [if_pos hname] at hx
      obtain ⟨k, hk, hs⟩ := hq.bound hx
      exact ⟨k, by rw [hname]; exact (if_pos rfl).trans hk, hqr.function.slot_number hs⟩
    · rw [if_neg hname] at hx
      obtain ⟨k, hk, hs⟩ := hr.bound hx
      exact ⟨k, (if_neg hname).trans hk, hs⟩
  · replace hx : (r.scope.restore name (q.scope.lookup name)).lookup x = none := hx
    rw [Scope.lookup_restore] at hx
    by_cases hname : x = name
    · rw [if_pos hname] at hx
      rw [hname]
      exact (if_pos rfl).trans (hq.free hx)
    · rw [if_neg hname] at hx
      exact (if_neg hname).trans (hr.free hx)

theorem simulates_withBinding (name : String) {init body : Lower Value} {μ ν : Meaning Float}
    (hi : Simulates X init μ) (hb : Simulates X body ν) :
    Simulates X (Lower.withBinding name init body) (.binding name μ ν) where
  keeps {ρ x k} hx := by
    have hinit : (μ.after ρ).cell x = some k := hi.keeps hx
    show (if x = name then (μ.after ρ).cell x else (ν.after ((μ.after ρ).bind name)).cell x) = some k
    split
    · exact hinit
    · next hne => exact hb.keeps ((if_neg hne).trans hinit)
  lands {W D p ρ} hp hl := by
    refine (lands_allocate hp hl name hi).bind fun slot q hq hpq ⟨hlq, hslot, hruns⟩ => ?_
    have hlocal : Lower.local? name q.state = .ok (q.scope.lookup name) q.state := rfl
    have hmodify : Lower.modifyScope (·.bind name slot) q.state =
        .ok () (q.withScope (q.scope.bind name slot)).state := rfl
    have hmem : slot ∈ q.function.slots := List.mem_reverse.1 (List.mem_of_getElem? hslot)
    have hqb := q.before_bind name slot
    refine .step hlocal (.refl q) ?_
    rw [bind_of_ok hmodify]
    have hbody := (hb.lands (hq.bind hmem name) (hlq.bind hslot name)).before hqb
    refine hbody.finallyScope fun r v hr hqr ⟨hv, hlr, hruns'⟩ => ?_
    obtain ⟨hgood, hqr'⟩ := hqr.restore hq hr name
    have hlr' := hlr.restore hlq hqr name
    refine ⟨hgood, hqr', hv.withScope _, ⟨hlr'.next, hlr'.bound, hlr'.free⟩, ?_⟩
    have hscoped := (hruns'.ofScope (p := q)).withScope (r.scope.restore name (q.scope.lookup name))
    have := hruns.bind (fun _ => hscoped) hpq hqr'
    rwa [bind_assoc] at this

theorem simulates_assign (name : String) {step : Lower Value} {μ : Meaning Float} (h : Simulates X step μ) :
    Simulates X (Lower.assign name step) (.assign name μ) where
  keeps := h.keeps
  lands {W D p ρ} hp hl := by
    refine ((h.asFloat hp hl).within _).bind fun v q hq hpq ⟨hv, hlq, hruns⟩ => ?_
    refine (lands_resolve hq hlq name).bind fun ptr q' _ _ ⟨heq, hptr⟩ => ?_
    subst heq
    refine (lands_store (X := X) hq hlq hv hptr).bind fun _ r hr hqr ⟨hlr, hstored⟩ => ?_
    refine .of_ok rfl hr (.refl r) ⟨.address (hqr.hasType hptr.hasType) hptr.isAddress, hlr, ?_⟩
    refine hruns.bind (fun x => ?_) hpq hqr
    refine (hstored x).bind (fun _ => .pure fun c hc => ?_) hqr (.refl r)
    obtain ⟨address, heval, hread⟩ := hc
    exact ⟨.ptr address, heval, hqr.hasType hptr.hasType, hread⟩

theorem simulates_increment (name : String) : Simulates X (Lower.increment name) (.increment name) where
  keeps h := h
  lands {W D p ρ} hp hl := by
    have hlocal : Lower.local? name p.state = .ok (p.scope.lookup name) p.state := rfl
    refine .step hlocal (.refl p) ?_
    cases hx : p.scope.lookup name with
    | none => exact .fail
    | some slot =>
      obtain ⟨k, hk, hslot⟩ := hl.bound hx
      have hptr : Refers ρ name p (.slot slot) := .slot hk hslot
      refine (lands_load (X := X) hp hl hptr).bind fun v q hq hpq hloaded => ?_
      obtain ⟨hv, hlq, hload⟩ := hloaded
      have hadd := lands_result (X := X) (P := fun x => Holds v (.float x)) (g := (· + 1))
        (R := fun _ w x => Holds w (.float x)) hq hlq
        (Build.emitResult_put hq.hosts_builder hq.isOpen .f64 (.binary · .add v (.constFloat 1)) .unbounded)
        ⟨rfl, rfl, rfl⟩ rfl ⟨hv, .constFloat 1⟩
        (fun x c hc rest => Activation.execute_binary (a := { c.active with code := rest }) .add hc rfl)
        fun _ _ _ _ _ hc => hc
      refine hadd.bind fun w q₁ hq₁ hqq₁ hadded => ?_
      obtain ⟨hw, hlq₁, hruns⟩ := hadded
      have hptr₁ := (hptr.before hpq).before hqq₁
      refine (lands_store (X := X) hq₁ hlq₁ hw hptr₁).bind fun _ r hr hqr hstore => ?_
      obtain ⟨hlr, hstored⟩ := hstore
      have hty := hqr.hasType hptr₁.hasType
      refine .of_ok rfl hr (.refl r) ⟨.address hty hptr.isAddress, hlr, ?_⟩
      have hread : ρ.read name = .readCell k := by rw [Env.read, hk]
      have hwrite : ∀ x, ρ.write name x = .writeCell k x := fun x => by rw [Env.write, hk]
      rw [hread] at hload
      simp only [hwrite] at hstored
      simp only [Meaning.increment, hk]
      refine hload.bind (fun x => ?_) hpq (hqq₁.trans hqr)
      have := (hruns x).bind (fun y => (hstored y).bind (S := fun z => Denotes r (.slot slot) z)
        (fun _ => .pure (a := y) fun c hc => ?_) hqr (.refl r)) hqq₁ hqr
      · rwa [pure_bind] at this
      · obtain ⟨address, heval, hread⟩ := hc
        exact ⟨.ptr address, heval, hty, hread⟩

end

end Monofloat
