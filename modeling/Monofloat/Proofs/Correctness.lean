import Monofloat.Compilation
import Monofloat.Proofs.Globals
import Monofloat.Proofs.Items

/-!
# Compiled functions do what their definitions mean

The items that are not rejected leave a module that implements them, item by item. A call of a function of such a
module agrees with the evaluation of its definition: it ends with the same value or for the same reason, with the same
globals and the same output, if it may make enough steps; and it uses up all its steps if evaluation has no end.
-/

namespace Monofloat

open Monofloat.Ir Monofloat.Machine

/-! ## Modules of items -/

theorem definition?_append (items others : List Tree) (name : String) :
    definition? (items ++ others) name = (definition? items name).or (definition? others name) :=
  List.findSome?_append

section

variable {m : Module} {items : List Tree}

/-- One more item, in a module that has all that was there before. -/
theorem Ir.Module.Implements.append {m' : Module} {t : Tree} (h : m.Implements items) (hcovers : m.Covers m')
    (hkept : ∀ {name f}, m.function? name = some f → m'.function? name = some f)
    (hdefined : ∀ {name params body}, definition? [t] name = some (params, body) →
      ∃ f, m'.function? name = some f ∧ f.Codes m' params body)
    (hdeclared : ∀ {name f}, definition? [t] name = none → m'.function? name = some f →
      m.function? name = some f ∨
        ∃ proto, t = .prototype proto ∧ proto.name = name ∧ f = .declare proto.name proto.params) :
    m'.Implements (items ++ [t]) := by
  refine ⟨fun {name params body} hdef => ?_, fun {name f} hdef hf => ?_⟩
  · rw [definition?_append, Option.or_eq_some_iff] at hdef
    obtain hdef | ⟨-, hdef⟩ := hdef
    · obtain ⟨f, hf, hcodes⟩ := h.defined hdef
      exact ⟨f, hkept hf, hcodes.covers hcovers⟩
    · exact hdefined hdef
  · rw [definition?_append, Option.or_eq_none_iff] at hdef
    obtain hold | ⟨proto, rfl, hproto⟩ := hdeclared hdef.2 hf
    · obtain ⟨proto, hmem, hproto⟩ := h.declared hdef.1 hold
      exact ⟨proto, List.mem_append_left _ hmem, hproto⟩
    · exact ⟨proto, List.mem_append_right _ List.mem_cons_self, hproto⟩

theorem definition?_function (proto : Prototype) (body : Tree) (span : Span) (name : String) :
    definition? [.function proto body span] name = if proto.name = name then some (proto.params, body) else none := by
  by_cases h : proto.name = name <;> simp [definition?, h]

theorem Ir.Module.function?_addFunction_of_some {f g : Function} {name : String} (h : m.function? name = some f) :
    (m.addFunction g).function? name = some f := by
  rw [function?_addFunction, h]
  rfl

/-- A function of the larger module is the new one or was there before. -/
theorem Ir.Module.function?_of_addFunction {f g : Function} {name : String}
    (h : (m.addFunction g).function? name = some f) : m.function? name = some f ∨ name = g.name ∧ f = g := by
  rw [function?_addFunction] at h
  cases hold : m.function? name with
  | some _ =>
    rw [hold] at h
    exact .inl h
  | none =>
    rw [hold] at h
    simpa [eq_comm] using h

/-- What an item adds implements it. -/
theorem Declares.implements {t : Tree} {a : Addition} (h : Declares m t a) (hm : m.Implements items) :
    (a.into m).Implements (items ++ [t]) := by
  cases h with
  | @function proto body span f hnew hname hcodes =>
    have hcovers : m.Covers (m.addFunction f) :=
      Module.covers_addFunction (hname.symm ▸ Module.arity?_of_new hnew)
    refine hm.append hcovers Module.function?_addFunction_of_some (fun {name params code} hdef => ?_)
      fun {name g} hdef hg => ?_
    · rw [definition?_function] at hdef
      split at hdef
      · next heq =>
        cases hdef
        refine ⟨f, ?_, hcodes⟩
        show (m.addFunction f).function? name = _
        rw [Module.function?_addFunction, ← heq, Module.function?_of_new hnew]
        exact if_pos hname.symm
      · cases hdef
    · rw [definition?_function] at hdef
      split at hdef
      · cases hdef
      · next hne =>
        obtain hold | ⟨rfl, -⟩ := Module.function?_of_addFunction hg
        · exact .inl hold
        · exact absurd hname.symm hne
  | @prototype proto hnew =>
    refine hm.append (Module.covers_addFunction (Module.arity?_of_new hnew)) Module.function?_addFunction_of_some
      (fun hdef => by cases hdef) fun _ hg => ?_
    obtain hold | ⟨rfl, rfl⟩ := Module.function?_of_addFunction hg
    · exact .inl hold
    · exact .inr ⟨proto, rfl, rfl, rfl⟩
  | again => exact hm.append (.refl m) id (fun hdef => by cases hdef) fun _ hg => .inl hg
  | global => exact hm.append (Module.covers_addGlobal m _) id (fun hdef => by cases hdef) fun _ hg => .inl hg

theorem implements_empty (name : String) : ({ name := name } : Module).Implements [] :=
  ⟨(fun h => by cases h), (fun _ h => by cases h)⟩

/-- The property of a module and its items goes on to hold with what one more item adds. -/
def Carried (P : Module → List Tree → Prop) : Prop :=
  ∀ {s : Lowering} {t : Tree} {v : Value} {a : Addition} {scope : Scope} {items : List Tree}, t.isItem = true →
    s.builder.position = none → lower t s = .ok v (s.add a scope) → Declares s.module t a → P s.module items →
    P (a.into s.module) (items ++ [t])

theorem carried_implements : Carried Module.Implements := fun _ _ _ hdeclares hm => hdeclares.implements hm

/-- What is carried from item to item holds of the module and of the items that are not rejected. -/
theorem Carried.lowerItems {P : Module → List Tree → Prop} (hP : Carried P) {others : List Tree}
    (hothers : ∀ t ∈ others, t.isItem = true) {s s' : Lowering} (hpos : s.builder.position = none)
    (hs : P s.module items) {last v : Value} (h : lowerItems last others s = .ok v s') :
    P s'.module (items ++ accepted (verdicts s others)) := by
  induction others generalizing s items last with
  | nil =>
    cases h
    rwa [verdicts, accepted, List.filter_nil, List.map_nil, List.append_nil]
  | cons t ts ih =>
    obtain ⟨ht, hts⟩ := List.forall_mem_cons.1 hothers
    obtain ⟨out, hout⟩ := settles_item s.module.names ht
    have hsettles := hout s rfl hpos
    cases out with
    | error e =>
      obtain ⟨scope, herror⟩ := hsettles
      rw [lowerItems_cons_of_error herror] at h
      rw [verdicts_cons_of_error herror]
      exact ih hts hpos hs h
    | ok out =>
      obtain ⟨w, a⟩ := out
      obtain ⟨scope, hok, hdeclares⟩ := hsettles
      rw [lowerItems_cons_of_ok hok] at h
      rw [verdicts_cons_of_ok hok]
      have hrest := ih hts (s := s.add a scope) rfl (hP ht hpos hok hdeclares hs) h
      rwa [List.append_assoc] at hrest

theorem mem_of_mem_accepted {vs : List (Tree × Option LowerError)} {t : Tree} (h : t ∈ accepted vs) :
    t ∈ vs.map Prod.fst :=
  ((List.filter_sublist).map Prod.fst).subset h

/-- If no error is reported, nothing is rejected. -/
theorem accepted_of_reports {vs : List (Tree × Option LowerError)} (h : Diagnostic.anyError (reports vs) = false) :
    accepted vs = vs.map Prod.fst := by
  have hnil : reports vs = [] := by
    refine List.eq_nil_iff_forall_not_mem.2 fun d hd => ?_
    have herror := List.any_eq_false.1 h d hd
    rw [Diagnostic.isError, severity_of_mem_reports hd] at herror
    exact herror rfl
  have hnone : ∀ v ∈ vs, v.2.isNone = true := by
    simpa [reports, Option.isNone_iff_eq_none] using hnil
  rw [accepted, List.filter_eq_self.2 hnone]

/-- Compiling items gives a module with what is carried through those that are not rejected, and reports the others. -/
theorem Carried.compile {P : Module → List Tree → Prop} (hP : Carried P) (hitems : ∀ t ∈ items, t.isItem = true)
    {moduleName : String} (hempty : P { name := moduleName } []) :
    P (compile (.sequence items) moduleName).module (accepted (verdicts (.start { name := moduleName }) items)) ∧
    (compile (.sequence items) moduleName).diagnostics = reports (verdicts (.start { name := moduleName }) items) := by
  obtain ⟨v, s, -, -, hs, -, -, -, -, hds, -⟩ :=
    lowerItems_accepted hitems (s := .start { name := moduleName }) rfl rfl rfl rfl .void .void
  rw [Monofloat.compile, generate_of_ok hs]
  exact ⟨hP.lowerItems (s := .start { name := moduleName }) hitems rfl hempty hs, hds⟩

/-- The modules that are made of a source text, with what is reported on the way: the one that it is compiled to, and
the one that the program recovered from it is lowered to, whatever is wrong with the text. -/
inductive Ir.Module.Made (source moduleName : String) : Module → List Diagnostic → Prop where
  | compiled : Made source moduleName (Compilation.ofSource source moduleName).module
      (Compilation.ofSource source moduleName).diagnostics
  | recovered : Made source moduleName (compile (FrontEnd.ofSource source 0).program moduleName).module
      (compile (FrontEnd.ofSource source 0).program moduleName).diagnostics

/-- A module that is made of a source text has what is carried through items of the text, and through all of them if no
error is reported. -/
theorem Carried.made {P : Module → List Tree → Prop} (hP : Carried P) {source moduleName : String} {m : Module}
    {ds : List Diagnostic} (hm : m.Made source moduleName ds) (hempty : P { name := moduleName } []) : ∃ items,
    P m items ∧ (∀ t ∈ items, t ∈ (FrontEnd.ofSource source 0).parsed.items) ∧
    (Diagnostic.anyError ds = false → items = (FrontEnd.ofSource source 0).parsed.items) := by
  have hitems : ∀ t ∈ (FrontEnd.ofSource source 0).parsed.items, t.isItem = true := fun t => isItem_of_mem_items
  obtain ⟨hcarried, hreports⟩ := hP.compile hitems hempty
  have hfst := map_fst_verdicts (.start { name := moduleName }) (FrontEnd.ofSource source 0).parsed.items
  revert hcarried hreports hfst
  generalize verdicts (.start { name := moduleName }) (FrontEnd.ofSource source 0).parsed.items = vs
  intro hcarried hreports hfst
  have hsome : ∀ t ∈ accepted vs, t ∈ (FrontEnd.ofSource source 0).parsed.items :=
    fun t ht => hfst ▸ mem_of_mem_accepted ht
  have hall (h : Diagnostic.anyError (reports vs) = false) :
      accepted vs = (FrontEnd.ofSource source 0).parsed.items := by
    rw [accepted_of_reports h, hfst]
  cases hm with
  | compiled =>
    rw [Compilation.ofSource]
    split
    · next herror =>
      refine ⟨[], hempty, (fun t ht => by cases ht), fun h => ?_⟩
      cases herror.symm.trans h
    · refine ⟨accepted vs, hcarried, hsome, fun h => hall ?_⟩
      rw [Diagnostic.anyError, List.any_append, FrontEnd.program, Parsed.program, hreports, Bool.or_eq_false_iff] at h
      exact h.2
  | recovered => exact ⟨accepted vs, hcarried, hsome, fun h => hall (hreports ▸ h)⟩

/-- A module that is made of a source text implements items of it, and all of them if no error is reported. -/
theorem Ir.Module.Made.implements {source moduleName : String} {m : Module} {ds : List Diagnostic}
    (hm : m.Made source moduleName ds) : ∃ items, m.Implements items ∧
    (∀ t ∈ items, t ∈ (FrontEnd.ofSource source 0).parsed.items) ∧
    (Diagnostic.anyError ds = false → items = (FrontEnd.ofSource source 0).parsed.items) :=
  carried_implements.made hm (implements_empty moduleName)

/-- A source text without errors is compiled to a module that implements its items. -/
theorem implements_ofSource {source moduleName : String}
    (hsuccess : (Compilation.ofSource source moduleName).success = true) :
    (Compilation.ofSource source moduleName).module.Implements (FrontEnd.ofSource source 0).parsed.items := by
  have hmade : (Compilation.ofSource source moduleName).module.Made source moduleName _ := .compiled
  obtain ⟨items, himplements, -, hall⟩ := hmade.implements
  rwa [hall (by simpa [Compilation.success] using hsuccess)] at himplements

end

/-! ## Calls -/

theorem Machine.Steps.run_of_lt {m : Module} {limits : Limits} {n k : Nat} {c c' : Config}
    (h : Steps m limits.maxDepth n c c') (hk : k < n) :
    (run m limits k c).result = .error (.stepLimit limits.maxSteps) := by
  induction h generalizing k with
  | refl => cases hk
  | step hnext _ ih =>
    cases k with
    | zero => rw [run_zero hnext]
    | succ k =>
      rw [run_succ hnext]
      exact ih (Nat.lt_of_succ_lt_succ hk)

/-- What a store shows. -/
def Machine.Store.world (s : Store) : World := ⟨s.global?, s.output⟩

/-- A result and the store that is left are those of evaluation. -/
structure Agrees (m : Module) (r : Except Stop Float) (w : World) (result : Except Fault Float) (s : Store) : Prop where
  value : ∀ {x}, r = .ok x → result = .ok x
  fault : ∀ {stop}, r = .error stop → ∃ fault, result = .error fault ∧ stop.Matches m s fault
  world : w.Shows s

theorem Stop.Matches.unwind {m : Module} {s : Store} {stop : Stop} {fault : Fault} (h : stop.Matches m s fault)
    (c : Config) : stop.Matches m (c.unwind s) fault := by
  cases h with
  | unwrittenLocal index => exact .unwrittenLocal index
  | unwrittenGlobal hglobal hnone => exact .unwrittenGlobal hglobal (by rw [c.global?_unwind, hnone])
  | unresolvedExternal hf hempty => exact .unresolvedExternal hf hempty
  | tooDeep limit => exact .tooDeep limit

theorem World.Shows.unwind {w : World} {s : Store} (h : w.Shows s) (c : Config) : w.Shows (c.unwind s) := by
  obtain ⟨memory, depth, heq⟩ := c.unwind_eq s
  rw [heq]
  exact ⟨h.globals, h.output⟩

/-- A run that leads to an end agrees with evaluation if there are enough steps, and fails for the lack of steps
otherwise. -/
theorem Leads.run_agrees {m : Module} {limits : Limits} {fuel : Nat} {c : Config} {r : Except Stop Float}
    {st : EvalState}
    (h : Leads m limits.maxDepth fuel c (some (r, st)) fun x st c' =>
      ∃ s, c'.next m limits.maxDepth = some (.finished x s) ∧ st.world.Shows s) :
    ∃ n, ∀ k, (n ≤ k → Agrees m r st.world (run m limits k c).result (run m limits k c).store) ∧
      (k < n → (run m limits k c).result = .error (.stepLimit limits.maxSteps)) := by
  -- In both cases some steps lead to a configuration whose next step is the last.
  suffices hend : ∃ n c' o, Steps m limits.maxDepth n c c' ∧ c'.next m limits.maxDepth = some o ∧
      ∀ k, Agrees m r st.world (c'.resume m limits k o).result (c'.resume m limits k o).store by
    obtain ⟨n, c', o, hsteps, hnext, hagrees⟩ := hend
    refine ⟨n + 1, fun k => ⟨fun hk => ?_, fun hk => hsteps.run_of_le hnext (Nat.le_of_lt_succ hk)⟩⟩
    obtain ⟨j, rfl⟩ := Nat.exists_eq_add_of_le hk
    rw [Nat.add_right_comm, Nat.add_assoc, Nat.add_comm, hsteps.run_add, run_succ hnext]
    exact hagrees j
  cases r with
  | ok x =>
    obtain ⟨n, c', hsteps, s, hnext, hw⟩ := h
    exact ⟨n, c', _, hsteps, hnext, fun _ => ⟨fun h => congrArg _ (Except.ok.inj h), (fun h => by cases h), hw⟩⟩
  | error stop =>
    obtain ⟨n, c', fault, s, hsteps, hnext, hmatch, hw⟩ := h
    refine ⟨n, c', _, hsteps, hnext, fun _ => ⟨(fun h => by cases h), fun h => ?_, hw.unwind c'⟩⟩
    cases h
    exact ⟨fault, rfl, hmatch.unwind c'⟩

section

variable {items : List Tree} {name : String} {params : List String} {body : Tree} {args : List Float}

/-- A run of the code of a definition, which starts with the evaluation of its body. -/
theorem leads_run (M : Machine) (h : M.module.Implements items) {f : Function} (hcodes : f.Codes M.module params body)
    (hlen : args.length = params.length) (fuel : Nat) :
    Leads M.module M.limits.maxDepth fuel ⟨M.store.deeper, f.activation args M.store, []⟩
      ((meaning body).run ⟨fuel, evalCall items M.limits.maxDepth fuel (M.store.depth + 1)⟩ (.ofParams params)
        ⟨fun k => args[k]?, M.store.world⟩) fun x st c =>
          ∃ s, c.next M.module M.limits.maxDepth = some (.finished x s) ∧ st.world.Shows s := by
  let X : Setting :=
    ⟨M.module, M.limits.maxDepth, M.store.depth + 1, [], _, h.callsAgree M.limits.maxDepth fuel _ []⟩
  refine (leads_body (X := X) hcodes hlen rfl ⟨fun _ => rfl, rfl⟩).imp fun x st c ⟨s, hnext, _, _, hw⟩ => ?_
  exact ⟨s, hnext, hw⟩

/-- Where the evaluation of a call has a result, the machine has the same one if it may make enough steps. -/
theorem call_agrees (M : Machine) (h : M.module.Implements items) (hdef : definition? items name = some (params, body))
    (hlen : args.length = params.length) {fuel : Nat} {r : Except Stop Float} {w : World}
    (heval : evalCall items M.limits.maxDepth fuel M.store.depth name args M.store.world = some (r, w)) :
    ∃ n, ∀ k, let out := ({ M with stepsLeft := k } : Machine).call name args
      (n ≤ k → Agrees M.module r w out.1 out.2.store) ∧
      (k < n → out.1 = .error (.stepLimit M.limits.maxSteps)) := by
  obtain ⟨f, hf, hcodes⟩ := h.defined hdef
  have hinvoke := invoke_of_codes hf hcodes hlen M.limits.maxDepth M.store
  cases fuel with
  | zero => cases heval
  | succ fuel =>
    rw [evalCall_of_defined hdef] at heval
    by_cases hdeep : M.limits.maxDepth ≤ M.store.depth
    · rw [if_pos hdeep] at heval hinvoke
      cases heval
      refine ⟨0, fun k => ⟨fun _ => ?_, fun hk => absurd hk (Nat.not_lt_zero k)⟩⟩
      rw [Machine.call, hinvoke]
      exact ⟨(fun h => by cases h), fun h => by cases h; exact ⟨_, rfl, .tooDeep _⟩, fun _ => rfl, rfl⟩
    · rw [if_neg hdeep] at heval hinvoke
      obtain ⟨⟨r', st⟩, hrun, heq⟩ := Option.map_eq_some_iff.1 heval
      cases heq
      have hleads := leads_run M h hcodes hlen fuel
      rw [hrun] at hleads
      obtain ⟨n, hn⟩ := hleads.run_agrees
      refine ⟨n, fun k => ?_⟩
      rw [Machine.call, hinvoke]
      exact hn k

/-- Where the evaluation of a call has no result, the machine uses up its steps. -/
theorem call_stepLimit (M : Machine) (h : M.module.Implements items)
    (hdef : definition? items name = some (params, body)) (hlen : args.length = params.length)
    (heval : ∀ fuel, evalCall items M.limits.maxDepth fuel M.store.depth name args M.store.world = none) (k : Nat) :
    (({ M with stepsLeft := k } : Machine).call name args).1 = .error (.stepLimit M.limits.maxSteps) := by
  obtain ⟨f, hf, hcodes⟩ := h.defined hdef
  have hinvoke := invoke_of_codes hf hcodes hlen M.limits.maxDepth M.store
  have hnone := heval (k + 2)
  rw [evalCall_of_defined hdef] at hnone
  split at hnone
  · cases hnone
  · next hdeep =>
    rw [if_neg hdeep] at hinvoke
    have hleads := leads_run M h hcodes hlen (k + 1)
    rw [Option.map_eq_none_iff.1 hnone] at hleads
    obtain ⟨c, hsteps⟩ := hleads
    rw [Machine.call, hinvoke]
    exact hsteps.run_of_lt (Nat.lt_succ_self k)

end

/-- Calls of compiled functions are evaluated as their definitions say. The machine may have any limits, depth, globals
and output; each result of evaluation, with whatever fuel, is the result of the machine if it has enough steps left, and
if there is no result with any fuel, the machine uses up its steps. -/
theorem compiled_call_agrees (source moduleName : String)
    (hsuccess : (Compilation.ofSource source moduleName).success = true) (f : String) (args : List Float)
    (hf : (definition? (FrontEnd.ofSource source 0).parsed.items f).map (·.1.length) = some args.length)
    (M : Machine) (hM : M.module = (Compilation.ofSource source moduleName).module) :
    let eval fuel := evalCall (FrontEnd.ofSource source 0).parsed.items M.limits.maxDepth fuel M.store.depth f args
      M.store.world
    let call steps := ({ M with stepsLeft := steps } : Machine).call f args
    (∀ fuel r w, eval fuel = some (r, w) → ∃ n, ∀ steps,
      (n ≤ steps → Agrees M.module r w (call steps).1 (call steps).2.store) ∧
      (steps < n → (call steps).1 = .error (.stepLimit M.limits.maxSteps))) ∧
    ((∀ fuel, eval fuel = none) → ∀ steps, (call steps).1 = .error (.stepLimit M.limits.maxSteps)) := by
  have himplements := implements_ofSource hsuccess
  rw [← hM] at himplements
  obtain ⟨⟨params, body⟩, hdef, hlen⟩ := Option.map_eq_some_iff.1 hf
  exact ⟨fun _ _ _ heval => call_agrees M himplements hdef hlen.symm heval,
    fun heval => call_stepLimit M himplements hdef hlen.symm heval⟩

/-- A binding and a call of another function. -/
theorem compiled_call_agrees_binding :
    let source := "def g(x) x; def f(x) var y = x in g(y)"
    let M := Machine.start (Compilation.ofSource source "m").module {}
    ∃ n, ∀ steps, n ≤ steps → (({ M with stepsLeft := steps } : Machine).call "f" [1]).1 = .ok 1 := by
  intro source M
  have hsuccess : (Compilation.ofSource source "m").success = true := by decide +kernel
  have hf : (definition? (FrontEnd.ofSource source 0).parsed.items "f").map (·.1.length) = some 1 := by decide +kernel
  have heval : (evalCall (FrontEnd.ofSource source 0).parsed.items 512 2 0 "f" [1] M.store.world).map (·.1) =
      some (.ok 1) := by decide +kernel
  obtain ⟨⟨r, w⟩, heval, rfl⟩ := Option.map_eq_some_iff.1 heval
  have hdepth : M.store.depth = 0 := depth_start _ _
  obtain ⟨n, hn⟩ := (compiled_call_agrees source "m" hsuccess "f" [1] hf M rfl).1 2 _ w (by rw [hdepth]; exact heval)
  exact ⟨n, fun steps hsteps => ((hn steps).1 hsteps).value rfl⟩

end Monofloat
