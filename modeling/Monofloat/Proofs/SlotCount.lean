import Monofloat.Proofs.Correctness
import Monofloat.Proofs.Reservations

/-!
# How many slots a function has

The body of a definition reserves a slot for each parameter, and behind them what its expression plans. A plan has one
reservation for each name that a block binds, whatever is live, and one for each loop over a variable that is not live.
So the number of slots can be read off the definition. What a definition reserves is noted while it is lowered
(`functionBody_reserved`), in a module whose other functions are on record; the items keep it so (`carried_counted`).
-/

namespace Monofloat

open Monofloat.Ir

/-! ## The slots of a function -/

section

variable {m : Module} {f : Function}

/-- The slots that the instructions of the function reserve, one for each `alloca`, in order. -/
def Ir.Function.allocas (f : Function) : List String := f.attached.flatMap Block.slots

/-- All slots are reserved in the entry block. -/
theorem Ir.Function.Complete.allocas_eq (h : f.Complete m) : f.allocas = f.slots := by
  obtain ⟨entry, others, hattached, hentry, hothers⟩ := h.attached_eq
  have hnil : others.flatMap Block.slots = [] := by
    refine List.flatMap_eq_nil_iff.2 fun b hb => ?_
    obtain ⟨id, hid, hb⟩ := hothers b hb
    exact h.slots_nil hb hid
  rw [Function.allocas, hattached, List.flatMap_cons, hnil, List.append_nil, Function.slots, hentry]
  rfl

theorem Ir.Function.Complete.length_allocas (h : f.Complete m) : f.allocas.length = f.reserved.length := by
  obtain ⟨entry, others, hattached, hentry, -⟩ := h.attached_eq
  rw [h.allocas_eq, Function.slots, hentry, Function.reserved, hattached, List.length_reverse]
  rfl

end

/-! ## Bindings and loops -/

mutual

/-- The number of names that the blocks of an expression bind. -/
def Tree.bindingCount : Tree → Nat
  | .unary _ t | .unaryLogical _ t | .assign _ t => t.bindingCount
  | .binary _ t u | .logical _ t u => t.bindingCount + u.bindingCount
  | .call _ args => bindingCountIn args
  | .conditional t u v => t.bindingCount + u.bindingCount + v.bindingCount
  | .block bindings body => bindingCountInBindings bindings + body.bindingCount
  | .statements first rest => first.bindingCount + bindingCountIn rest
  | .forLoop (.declare _ init) cond step body =>
    init.bindingCount + cond.bindingCount + step.bindingCount + body.bindingCount
  | .forLoop (.assign _ init) cond step body =>
    init.bindingCount + cond.bindingCount + step.bindingCount + body.bindingCount
  | _ => 0

def bindingCountIn : List Tree → Nat
  | [] => 0
  | t :: ts => t.bindingCount + bindingCountIn ts

def bindingCountInBindings : List (String × Tree) → Nat
  | [] => 0
  | (_, init) :: rest => init.bindingCount + 1 + bindingCountInBindings rest

end

namespace Reservation

def isBinding : Reservation → Bool
  | binding _ => true
  | loop _ => false

def isLoop : Reservation → Bool
  | binding _ => false
  | loop _ => true

end Reservation

/-- The number of loops in an expression whose variable is not live where the loop begins. -/
def Tree.freshLoopCount (t : Tree) (live : String → Bool) : Nat := (t.reservations.of live).countP Reservation.isLoop

namespace Plan

/-- The plan binds so many names, whatever is live. -/
def Binds (p : Plan) (n : Nat) : Prop := ∀ live, (p.of live).countP Reservation.isBinding = n

variable {p q : Plan} {k n : Nat}

theorem Binds.nothing : nothing.Binds 0 := fun _ => rfl

theorem Binds.andThen (hp : p.Binds k) (hq : q.Binds n) : (p.andThen q).Binds (k + n) := fun live => by
  rw [of_andThen, List.countP_append, hp live, hq _]

theorem Binds.bound (name : String) (hp : p.Binds n) : (bound name p).Binds (1 + n) := fun live => by
  rw [Plan.bound, List.countP_cons_of_pos rfl, hp, Nat.add_comm]

theorem Binds.loopVariable (name : String) (hp : p.Binds n) : (loopVariable name p).Binds n := fun live => by
  rw [of_loopVariable, List.countP_append, hp live]
  split <;> rfl

theorem Binds.length_of (h : p.Binds n) (live : String → Bool) :
    (p.of live).length = n + (p.of live).countP Reservation.isLoop := by
  have hloop : ∀ r ∈ p.of live, (decide ¬r.isBinding = true) = true ↔ r.isLoop = true := fun r _ => by
    cases r <;> simp [Reservation.isBinding, Reservation.isLoop]
  rw [List.length_eq_countP_add_countP Reservation.isBinding, h live, List.countP_congr hloop]

end Plan

mutual

/-- An expression plans a slot for each name that a block binds. -/
theorem Tree.binds_reservations : (t : Tree) → t.reservations.Binds t.bindingCount
  | .unary _ t | .unaryLogical _ t | .assign _ t => t.binds_reservations
  | .binary _ t u | .logical _ t u => t.binds_reservations.andThen u.binds_reservations
  | .call _ args => binds_reservationsIn args
  | .conditional t u v => by
    rw [Tree.bindingCount, Nat.add_assoc]
    exact t.binds_reservations.andThen (u.binds_reservations.andThen v.binds_reservations)
  | .block bindings body => binds_reservationsInBindings bindings body.binds_reservations
  | .statements first rest => first.binds_reservations.andThen (binds_reservationsIn rest)
  | .forLoop (.declare name init) cond step body
  | .forLoop (.assign name init) cond step body => by
    have hloop := (init.binds_reservations.loopVariable name).andThen
      (cond.binds_reservations.andThen (body.binds_reservations.andThen step.binds_reservations))
    rw [Tree.reservations, Tree.bindingCount]
    convert hloop using 1
    omega
  | .forLoop (.increment _) .. | .number _ | .var _ | .increment _ | .sequence _ | .binding .. | .global ..
  | .prototype _ | .function .. | .openStatements .. => .nothing

theorem binds_reservationsIn : (ts : List Tree) → (reservationsIn ts).Binds (bindingCountIn ts)
  | [] => .nothing
  | t :: ts => t.binds_reservations.andThen (binds_reservationsIn ts)

theorem binds_reservationsInBindings : (bindings : List (String × Tree)) → {p : Plan} → {n : Nat} → p.Binds n →
    (reservationsInBindings bindings p).Binds (bindingCountInBindings bindings + n)
  | [], _, _, h => by
    rw [bindingCountInBindings, Nat.zero_add]
    exact h
  | (name, init) :: rest, p, n, h => by
    have hrest := (binds_reservationsInBindings rest h).bound name
    rw [bindingCountInBindings, Nat.add_assoc, Nat.add_assoc]
    exact init.binds_reservations.andThen hrest

end

/-- The number of slots of a definition: one for each parameter, one for each name that a block of the body binds, and
one for each loop whose variable is not live. -/
def slotCount (params : List String) (body : Tree) : Nat :=
  params.length + body.bindingCount + body.freshLoopCount fun x => x ∈ params

theorem length_reservations (params : List String) (body : Tree) :
    params.length + (body.reservations.of fun x => x ∈ params).length = slotCount params body := by
  rw [body.binds_reservations.length_of, ← Nat.add_assoc]
  rfl

/-! ## The body of a definition -/

section

variable {s s' : Lowering} {u : Unit}

/-- Each parameter gets a slot, and is live. -/
theorem spillParams_reserved {function : String} {params : List String} {index : Nat}
    (h : Lower.spillParams function index params s = .ok u s') : ∃ slots, slots.length = params.length ∧
      Reserved slots s s' ∧ s'.live = fun x => decide (x ∈ params) || s.live x := by
  induction params generalizing index s with
  | nil =>
    cases h
    exact ⟨[], rfl, .refl _, by simp⟩
  | cons param params ih =>
    obtain ⟨f?, s₁, hfunction, h⟩ := bind_eq_ok h
    cases hfunction
    cases hparam : (s.builder.module.function? function).bind (·.param? index) with
    | none =>
      rw [hparam] at h
      cases h
    | some incoming =>
      rw [hparam] at h
      obtain ⟨slot, s₂, halloca, h⟩ := bind_eq_ok h
      obtain ⟨_, s₃, hstore, h⟩ := bind_eq_ok h
      obtain ⟨_, s₄, hmodify, h⟩ := bind_eq_ok h
      cases hmodify
      obtain ⟨hslot, hscope⟩ := Lower.reserved_alloca halloca
      obtain ⟨hstored, hscope'⟩ := Lower.reserved_code (.store incoming (.slot slot)) rfl hstore
      obtain ⟨slots, hlength, hslots, hlive⟩ := ih h
      refine ⟨slot :: slots, congrArg (· + 1) hlength, ((hslot.trans hstored).of_scope s.scope _).trans hslots, ?_⟩
      rw [hlive]
      funext x
      rw [Lowering.live, Lowering.live, Scope.lookup_bind, hscope', hscope]
      by_cases hx : x = param <;> simp [hx]

/-- A body reserves as many slots as the definition has. -/
theorem functionBody_reserved {proto : Prototype} {body : Tree} (hbody : body.isExpression = true)
    (hs : s.scope = .empty) (h : Lower.functionBody proto (lower body) s = .ok u s') :
    ∃ slots, slots.length = slotCount proto.params body ∧ Reserved slots s s' := by
  obtain ⟨_, s₁, hspill, h⟩ := bind_eq_ok h
  obtain ⟨v, s₂, hvalue, hret⟩ := bind_eq_ok h
  obtain ⟨slots, hlength, hslots, hlive⟩ := spillParams_reserved hspill
  obtain ⟨made, hmade, hadds⟩ := Lower.reserves_asFloat (reserves_lower body hbody) s₁ v s₂ hvalue
  obtain ⟨hreturned, -⟩ := Lower.reserved_code (.ret v) rfl hret
  have hparams : s₁.live = fun x => decide (x ∈ proto.params) := by
    rw [hlive]
    funext x
    rw [Lowering.live, hs]
    exact Bool.or_false _
  refine ⟨slots ++ made.map Prod.snd ++ [], ?_, (hslots.trans hadds.toReserved).trans hreturned⟩
  rw [hparams] at hmade
  rw [List.append_nil, List.length_append, List.length_map, hlength, ← length_reservations, ← hmade, List.length_map]

end

/-! ## Items -/

/-- The functions are on record, and each definition has its slots. -/
structure Ir.Module.Counted (m : Module) (items : List Tree) : Prop where
  recorded : ∃ L, m.Recorded L
  defined : ∀ {name params body}, definition? items name = some (params, body) →
    ∃ f, m.function? name = some f ∧ f.reserved.length = slotCount params body

theorem counted_empty (name : String) : ({ name := name } : Module).Counted [] :=
  ⟨⟨fun _ => {}, Module.recorded_empty name _⟩, fun h => by cases h⟩

section

variable {m : Module} {s s' : Lowering} {proto : Prototype} {body : Tree}

/-- The module is on record where the body of a definition begins. -/
theorem recorded_opening {L : Ledger} (hL : s.module.Recorded L) (hnew : s.module.hasSymbol proto.name = false) :
    (Site.opening s proto).state.module.Recorded ((L.set proto.name {}).set proto.name {}) := by
  have hdeclared : (s.module.addFunction (.declare proto.name proto.params)).function? proto.name =
      some (.declare proto.name proto.params) := by
    rw [Module.function?_addFunction, Module.function?_of_new hnew]
    exact if_pos rfl
  have hopened : ((s.module.addFunction (.declare proto.name proto.params)).modifyFunction proto.name
      fun _ => .opened proto.name proto.params).Recorded ((L.set proto.name {}).set proto.name {}) :=
    (hL.addFunction hnew proto.params).modifyFunction hdeclared rfl fun h => by
      rw [L.set_self] at h
      exact h.append "entry"
  exact hopened

/-- A definition that is not rejected has a body that does not fail, and leaves the module as the body does. -/
theorem functionBody_of_lower {span : Span} {v : Value} (hpos : s.builder.position = none)
    (hnew : s.module.hasSymbol proto.name = false) (hbody : body.isExpression = true)
    (h : lower (.function proto body span) s = .ok v s') :
    ∃ s₁, Lower.functionBody proto (lower body) (Site.opening s proto).state = .ok () s₁ ∧ s₁.module = s'.module := by
  cases hok : Lower.functionBody proto (lower body) (Site.opening s proto).state with
  | ok u s₁ =>
    obtain ⟨f, -, hlower⟩ := lower_function_of_ok hpos hnew (isFlat_of_isExpression body hbody) hok span
    cases hlower.symm.trans h
    exact ⟨s₁, rfl, rfl⟩
  | error e s₁ =>
    rw [lower, function_of_new hpos hnew] at h
    obtain ⟨_, s₂, hinside, -⟩ := bind_eq_ok h
    rw [Lower.insideFunction, hok] at hinside
    cases hinside

/-- The slots of a definition are on record behind it. -/
theorem recorded_definition {span : Span} {v : Value} {L : Ledger} (hL : s.module.Recorded L)
    (hpos : s.builder.position = none) (hnew : s.module.hasSymbol proto.name = false)
    (hbody : body.isExpression = true) (h : lower (.function proto body span) s = .ok v s') :
    ∃ L', s'.module.Recorded L' ∧ (L' proto.name).slots.length = slotCount proto.params body := by
  obtain ⟨s₁, hok, hmodule⟩ := functionBody_of_lower hpos hnew hbody h
  obtain ⟨slots, hlength, hreserved⟩ := functionBody_reserved hbody rfl hok
  obtain ⟨L', hL', hslots⟩ := hreserved.ledger (recorded_opening hL hnew)
  have hname := hslots proto.name rfl
  rw [Ledger.set_self] at hname
  exact ⟨L', hmodule ▸ hL', by rw [hname]; exact hlength⟩

/-- One more item, in a module that has the functions that were there before. -/
theorem Ir.Module.Counted.append {m' : Module} {items : List Tree} {t : Tree} (h : m.Counted items)
    (hrecorded : ∃ L, m'.Recorded L) (hkept : ∀ {name f}, m.function? name = some f → m'.function? name = some f)
    (hdefined : ∀ {name params body}, definition? [t] name = some (params, body) →
      ∃ f, m'.function? name = some f ∧ f.reserved.length = slotCount params body) : m'.Counted (items ++ [t]) := by
  refine ⟨hrecorded, fun {name params body} hdef => ?_⟩
  rw [definition?_append, Option.or_eq_some_iff] at hdef
  obtain hdef | ⟨-, hdef⟩ := hdef
  · obtain ⟨f, hf, hcount⟩ := h.defined hdef
    exact ⟨f, hkept hf, hcount⟩
  · exact hdefined hdef

theorem carried_counted : Carried Module.Counted := by
  intro s t v a scope items ht hpos hok hdeclares hm
  obtain ⟨L, hL⟩ := hm.recorded
  cases hdeclares with
  | @function proto body span f hnew hname hcodes =>
    obtain ⟨L', hL', hslots⟩ := recorded_definition hL hpos hnew hcodes.expression hok
    refine hm.append ⟨L', hL'⟩ Module.function?_addFunction_of_some fun {name params code} hdef => ?_
    rw [definition?_function] at hdef
    split at hdef
    · next heq =>
      cases hdef
      have hrecord := (hL'.functions f (List.mem_append_right _ List.mem_cons_self)).reserved_eq
      refine ⟨f, ?_, by rw [hrecord, hname]; exact hslots⟩
      show (s.module.addFunction f).function? name = _
      rw [Module.function?_addFunction, ← heq, Module.function?_of_new hnew]
      exact if_pos hname.symm
    · cases hdef
  | @prototype proto hnew =>
    exact hm.append ⟨_, hL.addFunction hnew proto.params⟩ Module.function?_addFunction_of_some fun hdef => by cases hdef
  | again => exact hm.append ⟨L, hL⟩ id fun hdef => by cases hdef
  | global hnew => exact hm.append ⟨L, hL.addGlobal hnew⟩ id fun hdef => by cases hdef

end

/-- A module that is made of a source text implements items of it, and each definition has its slots. -/
theorem Ir.Module.Made.counted {source moduleName : String} {m : Module} {ds : List Diagnostic}
    (hm : m.Made source moduleName ds) : ∃ items, (m.Implements items ∧ m.Counted items) ∧
    (∀ t ∈ items, t ∈ (FrontEnd.ofSource source 0).parsed.items) ∧
    (Diagnostic.anyError ds = false → items = (FrontEnd.ofSource source 0).parsed.items) := by
  have hcarried : Carried fun m items => m.Implements items ∧ m.Counted items :=
    fun ht hpos hok hdeclares hm =>
      ⟨carried_implements ht hpos hok hdeclares hm.1, carried_counted ht hpos hok hdeclares hm.2⟩
  exact hcarried.made hm ⟨implements_empty moduleName, counted_empty moduleName⟩

end Monofloat
