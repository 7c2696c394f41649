import Monofloat.Proofs.Trees

/-!
# Lowering a definition

A definition starts at a site in a new function with an empty entry block. Its parameters get slots, its body is
lowered, and a return completes the function. What the definition comes to is a matter of its scoping only.
-/

namespace Monofloat

open Monofloat.Ir Monofloat.Ir.Function

/-! ## The function before its body -/

namespace Ir.Function

/-- A function with an empty entry block. -/
def opened (name : String) (params : List String) : Function :=
  ((Function.declare name params).create "entry").attach ⟨0⟩

variable {name : String} {params : List String}

theorem block?_opened (id : BlockId) : (opened name params).block? id =
    if id = ⟨0⟩ then some { label := (Function.declare name params).labelFor "entry" } else none := by
  have hnone : ∀ id, (Function.declare name params).block? id = none := fun _ => rfl
  rw [opened, block?_attach, block?_create, hnone]
  rfl

theorem eq_of_block?_opened {id : BlockId} {b : Block} (h : (opened name params).block? id = some b) :
    id = ⟨0⟩ ∧ b = { label := (Function.declare name params).labelFor "entry" } := by
  rw [block?_opened] at h
  split at h
  · next hid => exact ⟨hid, (Option.some.inj h).symm⟩
  · cases h

theorem flow_opened : (opened name params).Flow ⟨0⟩ [] where
  tidy hb := by
    obtain ⟨-, rfl⟩ := eq_of_block?_opened hb
    exact ⟨rfl, by simp [Block.body], by simp [Block.body]⟩
  slots_nil hb hne := absurd (eq_of_block?_opened hb).1 hne
  not_ret hb := by
    obtain ⟨-, rfl⟩ := eq_of_block?_opened hb
    simp [Block.body]
  current := ⟨_, by rw [block?_opened, if_pos rfl], rfl⟩
  waiting hid := by cases hid
  closed hb hne := absurd (eq_of_block?_opened hb).1 hne
  targets hb := by
    obtain ⟨-, rfl⟩ := eq_of_block?_opened hb
    simp [Block.successors]
  phis hb hmem := by
    obtain ⟨-, rfl⟩ := eq_of_block?_opened hb
    cases hmem
  reaches {id} hid _ := by
    obtain ⟨b, hb⟩ := Option.isSome_iff_exists.1 hid
    rw [(eq_of_block?_opened hb).1]
    exact .entry

theorem underway_opened (m : Module) : (opened name params).Underway m ⟨0⟩ [] [] where
  named :=
    { labels_nodup := List.nodup_cons.2 ⟨List.not_mem_nil, List.nodup_nil⟩
      labels_taken := fun {id b} hb => by
        obtain ⟨-, rfl⟩ := eq_of_block?_opened hb
        show _ ∈ ((Function.declare name params).names.fresh "entry").2.taken
        rw [NameTable.taken_fresh]
        exact List.mem_cons_self
      slots_nodup := List.nodup_nil
      slots_taken := fun hs => by cases hs }
  laid :=
    { entry := rfl
      nodup := List.nodup_cons.2 ⟨List.not_mem_nil, List.nodup_nil⟩
      mem_iff := fun {id} => by
        show id ∈ [(⟨0⟩ : BlockId)] ↔ _
        rw [block?_opened]
        by_cases hid : id = ⟨0⟩ <;> simp [hid] }
  flow := flow_opened
  written :=
    { dests := .refl _
      fits := fun hb => by
        obtain ⟨-, rfl⟩ := eq_of_block?_opened hb
        simp [Block.body] }
  detached hid := hid

end Ir.Function

/-! ## Parameters -/

namespace Site

/-- The site at the start of the body of a definition. -/
def opening (s : Lowering) (proto : Prototype) : Site where
  base :=
    { s with builder := { s.builder with module := s.module.addFunction (.declare proto.name proto.params) } }
  function := .opened proto.name proto.params
  block := ⟨0⟩
  scope := .empty

theorem opening_good {s : Lowering} {proto : Prototype} (h : s.module.arity? proto.name = none) :
    (opening s proto).Good [] [] := by
  refine ⟨underway_opened _, ?_, fun hx => by cases hx⟩
  show (s.module.addFunction (.declare proto.name proto.params)).arity? proto.name = _
  rw [Module.arity?_addFunction (g := .declare proto.name proto.params) h]
  exact if_pos rfl

theorem yields_spillParams {function : String} (params : List String) (index : Nat) {W D : List BlockId} {p : Site}
    (h : p.Good W D) (hname : p.function.name = function) (hlen : index + params.length ≤ p.function.params.length) :
    Yields all W D p (Lower.spillParams function index params p.state) [] (params.foldl Names.bind p.names)
      fun _ _ => True := by
  induction params generalizing index p with
  | nil => exact yields_pure h trivial
  | cons param params ih =>
    have hindex : index < p.function.params.length := by
      rw [List.length_cons] at hlen
      omega
    have hparam : (p.state.module.function? function).bind (·.param? index) =
        some (.param index (p.function.params.get ⟨index, hindex⟩)) := by
      rw [h.function?_state, if_pos hname.symm, Option.bind_some, Function.param?, List.getElem?_eq_getElem hindex]
      rfl
    have hfunction : Lower.build (.function? function) p.state = .ok (p.state.module.function? function) p.state := rfl
    rw [Lower.spillParams]
    refine .step hfunction (.refl p) ?_
    rw [hparam]
    refine Yields.bind_ok (yields_alloca h param) fun slot q hq hb hn hslot => ?_
    have htype : q.HasType (.param index (p.function.params.get ⟨index, hindex⟩)) .f64 :=
      hb.hasType (.param (List.getElem?_eq_getElem hindex))
    refine (yields_store hq htype (.slot hslot) rfl).bind_ok fun _ q₁ hq₁ hb₁ hn₁ _ => ?_
    have hslot₁ := hb₁.function.slots.subset hslot
    let q₂ := q₁.withScope (q₁.scope.bind param slot)
    have hmodify : Lower.modifyScope (·.bind param slot) q₁.state = .ok () q₂.state := rfl
    refine .step hmodify (q₁.before_bind param slot) ?_
    have hgrows := hb.function.toGrows.trans hb₁.function.toGrows
    have hrest := ih (index + 1) (p := q₂) (hq₁.bind hslot₁ param) (hgrows.name.trans hname) (by
      rw [List.length_cons] at hlen
      rw [show q₂.function.params = p.function.params from hgrows.params]
      omega)
    rw [show q₂.names = p.names.bind param by rw [q₁.names_bind, hn₁, hn]] at hrest
    exact hrest

end Site

/-- The names that a module makes known. -/
def Ir.Module.names (m : Module) : Names where
  isLocal _ := false
  isGlobal x := (m.global? x).isSome
  arity? := m.arity?

theorem Ir.Module.names_addFunction {m : Module} {g : Function} (h : m.arity? g.name = none) :
    (m.addFunction g).names = m.names.addFunction g.name g.arity :=
  congrArg (fun a => { m.names with arity? := a }) (funext fun x => Module.arity?_addFunction h x)

theorem Names.foldl_bind (params : List String) (σ : Names) :
    params.foldl Names.bind σ = { σ with isLocal := fun x => decide (x ∈ params) || σ.isLocal x } := by
  induction params generalizing σ with
  | nil => simp
  | cons param params ih =>
    have hlocal : (fun x => decide (x ∈ params) || (decide (x = param) || σ.isLocal x)) =
        fun x => decide (x ∈ param :: params) || σ.isLocal x := by
      funext x
      rw [← Bool.or_assoc, Bool.or_comm (decide (x ∈ params))]
      simp
    rw [List.foldl_cons, ih]
    exact congrArg (fun l => { σ with isLocal := l }) hlocal

/-! ## The body -/

/-- The function that a definition leaves in the module, `q` being the site behind its body. -/
def Site.returning (q : Site) (v : Value) : Site := q.close (.ret v) q.block

/-- The function that a return completes is the one of the module. -/
theorem Site.Good.function?_returning {q : Site} {W D : List BlockId} (h : q.Good W D) (v : Value) (name : String) :
    (q.returning v).state.module.function? name =
      if name = q.function.name then some (q.returning v).function else q.base.module.function? name :=
  Module.function?_modifyFunction (f := (q.returning v).function) h.hosts_builder name

theorem Site.Good.covers_returning {q : Site} {W D : List BlockId} (h : q.Good W D) (v : Value) :
    q.base.module.Covers (q.returning v).state.module := by
  refine ⟨fun {x k} hx => ?_, id⟩
  rw [Module.arity?, h.function?_returning]
  split
  · next hname =>
    rw [hname] at hx
    exact h.hosts.symm.trans hx
  · exact hx

/-- What the body of a definition comes to. -/
theorem functionBody_outcome {s : Lowering} {proto : Prototype} (h : s.module.arity? proto.name = none)
    {body : Lower Value} {a : Scoping} (ha : Refines body a) :
    match a.read (s.module.names.inside proto) with
    | [] => ∃ q v, Lower.functionBody proto body (Site.opening s proto).state = .ok () (q.returning v).state ∧
        q.Good [] [] ∧ (Site.opening s proto).Before Site.all q ∧ q.HasType v .f64
    | e :: _ => ∃ s', Lower.functionBody proto body (Site.opening s proto).state = .error e s' := by
  have hgood := Site.opening_good h
  have hlen : 0 + proto.params.length ≤ (Site.opening s proto).function.params.length := by
    rw [Nat.zero_add]
    exact Nat.le_of_eq (Function.arity_declare proto.name proto.params).symm
  have hspill := Site.yields_spillParams proto.params 0 hgood (show _ = proto.name from rfl) hlen
  have hnames : proto.params.foldl Names.bind (Site.opening s proto).names = s.module.names.inside proto := by
    rw [Names.foldl_bind]
    have harity : (Site.opening s proto).names.arity? =
        (s.module.names.addFunction proto.name proto.params.length).arity? := by
      rw [← Function.arity_declare proto.name proto.params]
      exact congrArg Names.arity? (Module.names_addFunction (g := .declare proto.name proto.params) h)
    have hlocal : (fun x => decide (x ∈ proto.params) || (Site.opening s proto).names.isLocal x) =
        fun x => decide (x ∈ proto.params) := funext fun _ => Bool.or_false _
    rw [hlocal]
    exact congrArg (fun a => { s.module.names.inside proto with arity? := a }) harity
  rw [hnames] at hspill
  have hvalue : Yields Site.all [] [] (Site.opening s proto)
      ((do Lower.spillParams proto.name 0 proto.params; Lower.asFloat body) (Site.opening s proto).state)
      (a.read (s.module.names.inside proto)) (a.after (s.module.names.inside proto))
      fun q v => q.HasType v .f64 := by
    rw [← List.nil_append (a.read _)]
    refine Yields.bind hspill fun _ q hq _ hn _ => ?_
    rw [← hn]
    exact ha.asFloat hq
  have hbody : Lower.functionBody proto body =
      (do Lower.spillParams proto.name 0 proto.params; Lower.asFloat body) >>= fun v => Lower.build (.ret v) := by
    rw [Lower.functionBody, bind_assoc]
  rw [hbody]
  cases herrors : a.read (s.module.names.inside proto) with
  | nil =>
    rw [herrors] at hvalue
    obtain ⟨v, q, ho, hq, hb, -, hv⟩ := hvalue
    refine ⟨q, v, ?_, hq, hb, hv⟩
    rw [bind_of_ok ho]
    exact Site.build_state (Build.emit_put hq.hosts_builder hq.isOpen _)
  | cons e es =>
    rw [herrors] at hvalue
    obtain ⟨s', hs'⟩ := hvalue
    exact ⟨s', bind_of_error hs'⟩

/-- What the body of a definition leaves if it does not fail. -/
theorem functionBody_ok {s s₁ : Lowering} {proto : Prototype} (h : s.module.arity? proto.name = none)
    {body : Lower Value} {a : Scoping} (ha : Refines body a)
    (hok : Lower.functionBody proto body (Site.opening s proto).state = .ok () s₁) :
    ∃ q v, s₁ = (q.returning v).state ∧ q.Good [] [] ∧ (Site.opening s proto).Before Site.all q ∧
      q.HasType v .f64 := by
  have houtcome := functionBody_outcome h ha
  cases herrors : a.read (s.module.names.inside proto) with
  | nil =>
    rw [herrors] at houtcome
    obtain ⟨q, v, ho, hq⟩ := houtcome
    cases ho.symm.trans hok
    exact ⟨q, v, rfl, hq⟩
  | cons e es =>
    rw [herrors] at houtcome
    obtain ⟨s', hs'⟩ := houtcome
    cases hs'.symm.trans hok

/-! ## The whole definition -/

/-- What is done behind the body of a definition. -/
def Lower.showFunction (name : String) (span : Span) : Lower Value := do
  Lower.checkFunction name span
  if let some f ← Lower.build (.function? name) then
    Lower.emitText (f.text ++ "\n")
  return .function name

section

variable {s : Lowering} {proto : Prototype}

/-- A prototype of a function that is there is accepted if it has as many parameters. -/
theorem prototype_of_function {f : Function} (h : s.module.function? proto.name = some f) (visible : Bool) :
    Lower.prototype proto visible s = if f.arity = proto.params.length then .ok (.function proto.name) s
      else .error { cause := .redefinedFunction proto.name } s := by
  have hfunction : Lower.build (.function? proto.name) s = .ok (some f) s := congrArg (EStateM.Result.ok · s) h
  rw [Lower.prototype, bind_of_ok hfunction]
  dsimp only
  split <;> rfl

theorem prototype_of_global (h : s.module.function? proto.name = none)
    (hglobal : (s.module.global? proto.name).isSome = true) (visible : Bool) :
    Lower.prototype proto visible s = .error { cause := .redefinedFunction proto.name } s := by
  have hfunction : Lower.build (.function? proto.name) s = .ok none s := congrArg (EStateM.Result.ok · s) h
  have hbuild : Lower.build (.global? proto.name) s =
      .ok ((s.module.global? proto.name).map fun g => .global g.name) s := rfl
  rw [Lower.prototype, bind_of_ok hfunction]
  dsimp only
  rw [bind_of_ok hbuild, Option.isSome_map, hglobal]
  rfl

/-- A prototype of a new name is declared, and shown if it stands alone. -/
theorem prototype_of_new (h : s.module.hasSymbol proto.name = false) (visible : Bool) :
    Lower.prototype proto visible s = .ok (.function proto.name) { s with
      builder := { s.builder with module := s.module.addFunction (.declare proto.name proto.params) }
      echo := if visible then s.echo ++ ((Function.declare proto.name proto.params).text ++ "\n") else s.echo } := by
  let g := Function.declare proto.name proto.params
  let s₁ : Lowering := { s with builder := { s.builder with module := s.module.addFunction g } }
  have hnone := Module.function?_of_new h
  have hfunction : Lower.build (.function? proto.name) s = .ok none s := congrArg (EStateM.Result.ok · s) hnone
  have hglobal : Lower.build (.global? proto.name) s = .ok none s := by
    show EStateM.Result.ok ((s.module.global? proto.name).map _) s = _
    rw [Module.global?_of_new h]
    rfl
  have hdeclare : Lower.build (.declareFunction proto.name proto.params) s = .ok () s₁ :=
    Site.build_of_ok (Build.declareFunction_of_new proto.params h)
  have hadded : Lower.build (.function? proto.name) s₁ = .ok (some g) s₁ := by
    refine congrArg (EStateM.Result.ok · s₁) ?_
    show (s.module.addFunction g).function? proto.name = _
    rw [Module.function?_addFunction, hnone]
    exact if_pos rfl
  rw [Lower.prototype, bind_of_ok hfunction]
  show (Lower.build (.global? proto.name) >>= _) s = _
  rw [bind_of_ok hglobal]
  show (Lower.build (.declareFunction proto.name proto.params) >>= _) s = _
  rw [bind_of_ok hdeclare]
  cases visible with
  | false => rfl
  | true =>
    show (Lower.build (.function? proto.name) >>= _) s₁ = _
    rw [bind_of_ok hadded]
    rfl

end

/-- A definition of a new name comes to its body, at the opening site. -/
theorem function_of_new {s : Lowering} (hpos : s.builder.position = none) {proto : Prototype}
    (h : s.module.hasSymbol proto.name = false) (span : Span) (body : Lower Value) :
    Lower.function proto span body s = (do
      Lower.insideFunction proto.name (Lower.functionBody proto body)
      Lower.showFunction proto.name span) (Site.opening s proto).state := by
  let g := Function.declare proto.name proto.params
  let s₁ : Lowering := { s with builder := { s.builder with module := s.module.addFunction g } }
  have hnone := Module.function?_of_new h
  have hdeclared : s₁.module.function? proto.name = some g := by
    show (s.module.addFunction g).function? proto.name = _
    rw [Module.function?_addFunction, hnone]
    exact if_pos rfl
  have happend : Lower.build (.appendBlockIn proto.name "entry") s₁ = .ok ⟨0⟩ { s₁ with builder :=
      { s₁.builder with module := s₁.module.modifyFunction proto.name fun _ => .opened proto.name proto.params } } := by
    refine Site.build_of_ok ?_
    have hnamed : Build.functionNamed proto.name s₁.builder = .ok g s₁.builder := by
      have : Build.function? proto.name s₁.builder = .ok (some g) s₁.builder :=
        congrArg (EStateM.Result.ok · s₁.builder) hdeclared
      rw [Build.functionNamed, bind_of_ok this]
      rfl
    rw [Build.appendBlockIn, bind_of_ok hnamed]
    rfl
  have hget : (get : Lower Lowering) s = .ok s s := rfl
  rw [Lower.function, bind_of_ok hget, hpos, h]
  show (discard (Lower.prototype proto false) >>= _) s = _
  rw [bind_of_ok (discard_of_ok (prototype_of_new h false))]
  show (Lower.build (.appendBlockIn proto.name "entry") >>= _) s₁ = _
  rw [bind_of_ok happend]
  rfl

theorem Ir.Module.isSymbol_names (m : Module) (name : String) : m.names.isSymbol name = m.hasSymbol name :=
  (Module.hasSymbol_eq m name).symm

/-- A definition of a name that is used already. -/
theorem function_of_used {s : Lowering} (hpos : s.builder.position = none) {proto : Prototype}
    (h : s.module.hasSymbol proto.name = true) (span : Span) (body : Lower Value) :
    Lower.function proto span body s = .error { cause := .redefinedFunction proto.name } s := by
  have hget : (get : Lower Lowering) s = .ok s s := rfl
  rw [Lower.function, bind_of_ok hget, hpos, h]
  rfl

theorem showFunction_ok (name : String) (span : Span) (s : Lowering) :
    ∃ s', Lower.showFunction name span s = .ok (.function name) s' := by
  have hcheck : ∃ s₁, Lower.checkFunction name span s = .ok () s₁ := by
    have hget : (get : Lower Lowering) s = .ok s s := rfl
    rw [Lower.checkFunction, bind_of_ok hget]
    cases s.module.checkFunction name with
    | ok _ => exact ⟨s, rfl⟩
    | error d => exact ⟨_, rfl⟩
  obtain ⟨s₁, hs₁⟩ := hcheck
  have hfunction : Lower.build (.function? name) s₁ = .ok (s₁.module.function? name) s₁ := rfl
  rw [Lower.showFunction, bind_of_ok hs₁, bind_of_ok hfunction]
  cases s₁.module.function? name with
  | none => exact ⟨s₁, rfl⟩
  | some f => exact ⟨_, rfl⟩

/-- What a definition comes to: its first offence, or the function. -/
theorem function_outcome {s : Lowering} (hpos : s.builder.position = none) (proto : Prototype) {body : Tree}
    (hbody : body.isFlat = true) (span : Span) :
    match definitionOffences proto body s.module.names with
    | [] => ∃ s', lower (.function proto body span) s = .ok (.function proto.name) s'
    | e :: _ => ∃ s', lower (.function proto body span) s = .error e s' := by
  unfold definitionOffences
  rw [s.module.isSymbol_names, lower]
  cases hused : s.module.hasSymbol proto.name with
  | true => exact ⟨s, function_of_used hpos hused span _⟩
  | false =>
    have houtcome := functionBody_outcome (Module.arity?_of_new hused) (refines_lower body hbody)
    rw [function_of_new hpos hused]
    show match Scoping.within (.functionBody proto.name) ((scoping body).read (s.module.names.inside proto)) with
      | [] => _ | e :: _ => _
    cases herrors : (scoping body).read (s.module.names.inside proto) with
    | nil =>
      rw [herrors] at houtcome
      obtain ⟨q, v, ho, -⟩ := houtcome
      have hinside : Lower.insideFunction proto.name (Lower.functionBody proto (lower body))
          (Site.opening s proto).state = .ok () { (q.returning v).state with
            builder := (q.returning v).state.builder.clearInsertPoint } := by
        rw [Lower.insideFunction, ho]
      rw [bind_of_ok hinside]
      exact showFunction_ok _ _ _
    | cons e es =>
      rw [herrors] at houtcome
      obtain ⟨s', hs'⟩ := houtcome
      have hinside : Lower.insideFunction proto.name (Lower.functionBody proto (lower body))
          (Site.opening s proto).state = .error (e.within (.functionBody proto.name)) { s' with
            builder := s'.builder.clearInsertPoint.removeFunction proto.name } := by
        rw [Lower.insideFunction, hs']
      exact ⟨_, bind_of_error hinside⟩

end Monofloat
