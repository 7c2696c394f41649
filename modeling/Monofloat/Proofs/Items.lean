import Monofloat.Proofs.Calling
import Monofloat.Proofs.Locality

/-!
# Items, one after another

Between the items of a program there is no insertion point. An item that is lowered there adds a function or a global
to the module, or nothing, and its text to the echo; an item that fails leaves the module as it was. Which of the two
it does, and what it adds, is a matter of the names in the module only.
-/

namespace Monofloat

open Monofloat.Ir

/-! ## Additions -/

/-- A declaration that the parser can give. -/
def Tree.isItem : Tree → Bool
  | .function _ body _ => body.isExpression
  | .prototype _ | .global .. => true
  | _ => false

open Grammar in
theorem isItem_of_mem_items {tokens : List Token} {t : Tree} (h : t ∈ (parse tokens).items) : t.isItem = true := by
  obtain ⟨ts, hitem⟩ := item_of_mem_parseFrom h
  cases hitem with
  | definition _ _ _ hbody => exact hbody.isExpression
  | prototype | global => rfl

/-- What an item adds to a module. -/
inductive Addition where
  | nothing
  | function (f : Function)
  | global (g : Global)

namespace Addition

def into (m : Module) : Addition → Module
  | nothing => m
  | function f => m.addFunction f
  | global g => m.addGlobal g

/-- The text that shows the addition. -/
def text : Addition → String
  | nothing => ""
  | function f => f.text ++ "\n"
  | global g => g.text ++ "\n"

end Addition

/-- The state behind an item that is not rejected. The scope is left as the item had it. -/
def Lowering.add (s : Lowering) (a : Addition) (scope : Scope) : Lowering :=
  { s with builder := { module := a.into s.module }, scope := scope, echo := s.echo ++ a.text }

theorem Lowering.builder_eq (s : Lowering) (h : s.builder.position = none) : s.builder = { module := s.module } := by
  rw [← h]
  rfl

/-- What an item means for a module. -/
inductive Declares (m : Module) : Tree → Addition → Prop
  | function {proto : Prototype} {body : Tree} {span : Span} {f : Function} (hnew : m.hasSymbol proto.name = false)
      (hname : f.name = proto.name) (hcodes : f.Codes (m.addFunction f) proto.params body) :
      Declares m (.function proto body span) (.function f)
  | prototype {proto : Prototype} (hnew : m.hasSymbol proto.name = false) :
      Declares m (.prototype proto) (.function (.declare proto.name proto.params))
  | again {proto : Prototype} (hold : m.arity? proto.name = some proto.params.length) :
      Declares m (.prototype proto) .nothing
  | global {name : String} {span : Span} (hnew : m.hasSymbol name = false) :
      Declares m (.global name span) (.global { name := name })

/-- The item is rejected with an error, and only the scope is changed; or it has a value and adds what it declares. -/
def Settles (s : Lowering) (t : Tree) : Except LowerError (Value × Addition) → Prop
  | .error e => ∃ scope, lower t s = .error e { s with scope := scope }
  | .ok (v, a) => ∃ scope, lower t s = .ok v (s.add a scope) ∧ Declares s.module t a

/-! ## Definitions -/

namespace Ir.Module

theorem modifyFirst_append_right {name : String} {g : Function → Function} {fs : List Function}
    (h : ∀ f ∈ fs, f.name ≠ name) (gs : List Function) :
    modifyFirst name g (fs ++ gs) = fs ++ modifyFirst name g gs := by
  induction fs with
  | nil => rfl
  | cons f fs ih =>
    obtain ⟨hf, hfs⟩ := List.forall_mem_cons.1 h
    rw [List.cons_append, modifyFirst, if_neg hf, ih hfs]
    rfl

theorem modifyFunction_addFunction_self {m : Module} {g : Function} (h : m.function? g.name = none) (f : Function) :
    (m.addFunction g).modifyFunction g.name (fun _ => f) = m.addFunction f := by
  have hne : ∀ f ∈ m.functions, f.name ≠ g.name := by simpa using List.find?_eq_none.1 h
  simp [modifyFunction, addFunction, modifyFirst_append_right hne, modifyFirst]

end Ir.Module

theorem showFunction_of_checked {s : Lowering} {name : String} {f : Function} (hf : s.module.function? name = some f)
    (hcheck : f.check s.module = .ok ()) (span : Span) :
    Lower.showFunction name span s = .ok (.function name) { s with echo := s.echo ++ (f.text ++ "\n") } := by
  have hchecked : Lower.checkFunction name span s = .ok () s := by
    have hget : (get : Lower Lowering) s = .ok s s := rfl
    rw [Lower.checkFunction, bind_of_ok hget, Module.checkFunction, hf]
    dsimp only
    rw [hcheck]
    rfl
  have hfunction : Lower.build (.function? name) s = .ok (some f) s := congrArg (EStateM.Result.ok · s) hf
  rw [Lower.showFunction, bind_of_ok hchecked, bind_of_ok hfunction]
  rfl

/-- A definition whose body does not fail is shown as the body has left it. -/
theorem lower_function_of_ok {s s₁ : Lowering} {proto : Prototype} (hpos : s.builder.position = none)
    (hnew : s.module.hasSymbol proto.name = false) {body : Tree} (hbody : body.isFlat = true)
    (h : Lower.functionBody proto (lower body) (Site.opening s proto).state = .ok () s₁) (span : Span) :
    ∃ f, s₁.module.function? proto.name = some f ∧ lower (.function proto body span) s = .ok (.function proto.name)
      { s₁ with builder := s₁.builder.clearInsertPoint, echo := s₁.echo ++ (f.text ++ "\n") } := by
  obtain ⟨f, hf, hcomplete, -⟩ := functionBody_complete (Module.arity?_of_new hnew) hbody h
  let s₂ : Lowering := { s₁ with builder := s₁.builder.clearInsertPoint }
  have hinside : Lower.insideFunction proto.name (Lower.functionBody proto (lower body)) (Site.opening s proto).state =
      .ok () s₂ := by
    rw [Lower.insideFunction, h]
  refine ⟨f, hf, ?_⟩
  rw [lower, function_of_new hpos hnew, bind_of_ok hinside]
  exact showFunction_of_checked (show s₂.module.function? proto.name = some f from hf) hcomplete.check span

section

variable {names : Names} {proto : Prototype}

/-- A definition whose body fails is taken out of the module again. -/
theorem settles_error {s : Lowering} (hpos : s.builder.position = none) (hnew : s.module.hasSymbol proto.name = false)
    {body : Tree} {e : LowerError} {v : Spot} (hname : v.function.name = proto.name)
    (h : Lower.functionBody proto (lower body) (Site.opening s proto).state =
      .error e (Lower.atSpot (Site.opening s proto).base v)) (span : Span) :
    Settles s (.function proto body span) (.error (e.within (.functionBody proto.name))) := by
  have hmodule : (Lower.atSpot (Site.opening s proto).base v).module.removeFunction proto.name = s.module := by
    show ((s.module.addFunction (.declare proto.name proto.params)).modifyFunction v.function.name
      fun _ => v.function).removeFunction proto.name = _
    rw [hname, Module.removeFunction_modifyFunction fun _ _ => hname]
    exact Module.removeFunction_addFunction_self (Module.function?_of_new hnew)
  refine ⟨v.scope, ?_⟩
  rw [lower, function_of_new hpos hnew]
  refine bind_of_error ?_
  rw [Lower.insideFunction, h]
  refine congrArg (fun b => EStateM.Result.error _ ({ s with builder := b, scope := v.scope } : Lowering)) ?_
  rw [s.builder_eq hpos, ← hmodule]
  rfl

/-- A definition whose body does not fail adds the function that the body completes. -/
theorem settles_ok {s : Lowering} (hpos : s.builder.position = none) (hnew : s.module.hasSymbol proto.name = false)
    {body : Tree} (hbody : body.isExpression = true) {v : Spot} (hname : v.function.name = proto.name)
    (h : Lower.functionBody proto (lower body) (Site.opening s proto).state =
      .ok () (Lower.atSpot (Site.opening s proto).base v)) (span : Span) :
    Settles s (.function proto body span) (.ok (.function proto.name, .function v.function)) := by
  let s₁ := Lower.atSpot (Site.opening s proto).base v
  have hmodule : s₁.module = s.module.addFunction v.function := by
    show (s.module.addFunction (.declare proto.name proto.params)).modifyFunction v.function.name
      (fun _ => v.function) = _
    rw [hname]
    exact Module.modifyFunction_addFunction_self (Module.function?_of_new hnew) v.function
  have hadded : s₁.module.function? proto.name = some v.function := by
    rw [hmodule, Module.function?_addFunction, Module.function?_of_new hnew]
    exact if_pos hname.symm
  obtain ⟨f, hf, hlower⟩ := lower_function_of_ok hpos hnew (isFlat_of_isExpression body hbody) h span
  cases hadded.symm.trans hf
  have harity := Module.arity?_of_new hnew
  refine ⟨v.scope, hlower.trans ?_, .function hnew hname ⟨hbody, s, proto, s₁, rfl, harity, h, hadded, ?_⟩⟩
  · exact congrArg (fun m => EStateM.Result.ok _ ({ s with
      builder := { module := m }, scope := v.scope, echo := s.echo ++ (v.function.text ++ "\n") } : Lowering)) hmodule
  · rw [hmodule]
    exact .refl _

theorem settles_function (names : Names) (proto : Prototype) {body : Tree} (hbody : body.isExpression = true)
    (span : Span) : ∃ out, ∀ s : Lowering, s.module.names = names → s.builder.position = none →
      Settles s (.function proto body span) out := by
  cases hused : names.isSymbol proto.name with
  | true =>
    refine ⟨.error { cause := .redefinedFunction proto.name }, fun s hs hpos => ⟨s.scope, ?_⟩⟩
    rw [← hs, Module.isSymbol_names] at hused
    exact function_of_used hpos hused span _
  | false =>
    -- The body is lowered at a spot that is the same in all modules with these names.
    let v : Spot := ⟨.opened proto.name proto.params, ⟨0⟩, .empty⟩
    let known := names.addFunction proto.name proto.params.length
    have hv : v.Known known := (if_pos rfl).trans (congrArg some (Function.arity_declare proto.name proto.params).symm)
    obtain ⟨out, w, hw, hlocal⟩ := Lower.localAt_functionBody hv (show v.function.name = proto.name from rfl) hbody
    have hopening : ∀ s : Lowering, s.module.names = names → (Site.opening s proto).base.module.names = known := by
      rintro s rfl
      have harity : s.module.arity? proto.name = none :=
        Module.arity?_of_new ((s.module.isSymbol_names _).symm.trans hused)
      refine (Module.names_addFunction (g := .declare proto.name proto.params) harity).trans ?_
      rw [Function.arity_declare]
      rfl
    cases out with
    | error e =>
      refine ⟨.error (e.within (.functionBody proto.name)), fun s hs hpos => ?_⟩
      have hnew : s.module.hasSymbol proto.name = false := by rw [← Module.isSymbol_names, hs, hused]
      exact settles_error hpos hnew hw.name (hlocal _ (hopening s hs)) span
    | ok _ =>
      refine ⟨.ok (.function proto.name, .function w.function), fun s hs hpos => ?_⟩
      have hnew : s.module.hasSymbol proto.name = false := by rw [← Module.isSymbol_names, hs, hused]
      exact settles_ok hpos hnew hbody hw.name (hlocal _ (hopening s hs)) span

/-! ## Declarations -/

theorem settles_prototype (names : Names) (proto : Prototype) : ∃ out, ∀ s : Lowering, s.module.names = names →
    s.builder.position = none → Settles s (.prototype proto) out := by
  cases harity : names.arity? proto.name with
  | some n =>
    have hold : ∀ s : Lowering, s.module.names = names → ∃ f, s.module.function? proto.name = some f ∧ f.arity = n := by
      rintro s rfl
      exact Option.map_eq_some_iff.1 harity
    by_cases hn : n = proto.params.length
    · refine ⟨.ok (.function proto.name, .nothing), fun s hs hpos => ⟨s.scope, ?_, .again ?_⟩⟩
      · obtain ⟨f, hf, hf'⟩ := hold s hs
        rw [lower, prototype_of_function hf, if_pos (hf'.trans hn), Lowering.add, Addition.text, String.append_empty,
          Addition.into, ← s.builder_eq hpos]
      · rw [← hn, ← harity, ← hs]
        rfl
    · refine ⟨.error { cause := .redefinedFunction proto.name }, fun s hs _ => ⟨s.scope, ?_⟩⟩
      obtain ⟨f, hf, hf'⟩ := hold s hs
      rw [lower, prototype_of_function hf, if_neg (hf' ▸ hn)]
  | none =>
    have hnone : ∀ s : Lowering, s.module.names = names → s.module.function? proto.name = none := by
      rintro s rfl
      exact Option.map_eq_none_iff.1 harity
    cases hglobal : names.isGlobal proto.name with
    | true =>
      refine ⟨.error { cause := .redefinedFunction proto.name }, fun s hs _ => ⟨s.scope, ?_⟩⟩
      have hsome : (s.module.global? proto.name).isSome = true := by
        rw [← hglobal, ← hs]
        rfl
      rw [lower, prototype_of_global (hnone s hs) hsome]
    | false =>
      refine ⟨.ok (.function proto.name, .function (.declare proto.name proto.params)), fun s hs hpos => ?_⟩
      have hnew : s.module.hasSymbol proto.name = false := by
        rw [← Module.isSymbol_names, hs, Names.isSymbol, harity, hglobal]
        rfl
      refine ⟨s.scope, ?_, .prototype hnew⟩
      rw [lower, prototype_of_new hnew]
      show EStateM.Result.ok _ ({ s with builder := ⟨_, s.builder.position⟩, echo := _ } : Lowering) = _
      rw [hpos]
      rfl

theorem settles_global (names : Names) (name : String) (span : Span) : ∃ out, ∀ s : Lowering, s.module.names = names →
    s.builder.position = none → Settles s (.global name span) out := by
  cases hused : names.isSymbol name with
  | true =>
    refine ⟨.error { cause := .redefinedGlobal name }, fun s hs _ => ⟨s.scope, ?_⟩⟩
    rw [← hs, Module.isSymbol_names] at hused
    rw [lower, Lower.globalVariable, bind_of_ok (show (get : Lower Lowering) s = .ok s s from rfl), hused]
    rfl
  | false =>
    refine ⟨.ok (.global name, .global { name := name }), fun s hs hpos => ?_⟩
    have hnew : s.module.hasSymbol name = false := by rw [← Module.isSymbol_names, hs, hused]
    refine ⟨s.scope, ?_, .global hnew⟩
    rw [lower, Lower.globalVariable, bind_of_ok (show (get : Lower Lowering) s = .ok s s from rfl), hnew]
    show (Lower.build (.declareGlobal name) >>= _) s = _
    rw [bind_of_ok (Site.build_of_ok (Build.declareGlobal_of_new hnew))]
    show EStateM.Result.ok _ ({ s with builder := ⟨_, s.builder.position⟩, echo := _ } : Lowering) = _
    rw [hpos]
    rfl

/-- Whether an item is rejected, and otherwise what it adds, is settled by the names in the module. -/
theorem settles_item (names : Names) {t : Tree} (ht : t.isItem = true) : ∃ out, ∀ s : Lowering,
    s.module.names = names → s.builder.position = none → Settles s t out := by
  cases t with
  | function proto body span => exact settles_function names proto ht span
  | prototype proto => exact settles_prototype names proto
  | global name span => exact settles_global names name span
  | _ => cases ht

end

/-! ## Programs -/

/-- The items with the errors that they are rejected with, when they are lowered one after another. -/
def verdicts (s : Lowering) : List Tree → List (Tree × Option LowerError)
  | [] => []
  | t :: ts =>
    match lower t s with
    | .ok _ s' => (t, none) :: verdicts s' ts
    | .error e s' => (t, some e) :: verdicts (s'.report (e.diagnostic t.span?)) ts

/-- The items that are not rejected. -/
def accepted (vs : List (Tree × Option LowerError)) : List Tree := (vs.filter (·.2.isNone)).map Prod.fst

/-- What is reported of the items that are rejected. -/
def reports (vs : List (Tree × Option LowerError)) : List Diagnostic :=
  vs.filterMap fun (t, e?) => e?.map (·.diagnostic t.span?)

section

variable {s s' : Lowering} {t : Tree}

theorem lowerItems_cons_of_ok {v : Value} (h : lower t s = .ok v s') (last : Value) (ts : List Tree) :
    lowerItems last (t :: ts) s = lowerItems v ts s' := by
  have hstep : Lower.recovering last t.span? (lower t) s = .ok v s' := by rw [Lower.recovering, h]
  rw [lowerItems, bind_of_ok hstep]

theorem lowerItems_cons_of_error {e : LowerError} (h : lower t s = .error e s') (last : Value) (ts : List Tree) :
    lowerItems last (t :: ts) s = lowerItems last ts (s'.report (e.diagnostic t.span?)) := by
  have hstep : Lower.recovering last t.span? (lower t) s = .ok last (s'.report (e.diagnostic t.span?)) := by
    rw [Lower.recovering, h]
  rw [lowerItems, bind_of_ok hstep]

theorem verdicts_cons_of_ok {v : Value} (h : lower t s = .ok v s') (ts : List Tree) :
    verdicts s (t :: ts) = (t, none) :: verdicts s' ts := by
  rw [verdicts, h]

theorem verdicts_cons_of_error {e : LowerError} (h : lower t s = .error e s') (ts : List Tree) :
    verdicts s (t :: ts) = (t, some e) :: verdicts (s'.report (e.diagnostic t.span?)) ts := by
  rw [verdicts, h]

/-- Lowering the items that are accepted, from a state with the same module, gives the same module and the same text,
and no report. -/
theorem lowerItems_accepted {items : List Tree} (hitems : ∀ t ∈ items, t.isItem = true)
    (hs : s.builder.position = none) (hs' : s'.builder.position = none) (hmodule : s'.module = s.module)
    (hecho : s'.echo = s.echo) (last last' : Value) :
    ∃ v t v' t', lowerItems last items s = .ok v t ∧ lowerItems last' (accepted (verdicts s items)) s' = .ok v' t' ∧
      t.builder.position = none ∧ t'.module = t.module ∧ t'.echo = t.echo ∧
      t.diagnostics = s.diagnostics ++ reports (verdicts s items) ∧ t'.diagnostics = s'.diagnostics := by
  induction items generalizing s s' last last' with
  | nil => exact ⟨last, s, last', s', rfl, rfl, hs, hmodule, hecho, (List.append_nil _).symm, rfl⟩
  | cons t ts ih =>
    obtain ⟨ht, hts⟩ := List.forall_mem_cons.1 hitems
    obtain ⟨out, hout⟩ := settles_item s.module.names ht
    have hsettles := hout s rfl hs
    have hsettles' := hout s' (congrArg Module.names hmodule) hs'
    cases out with
    | error e =>
      obtain ⟨scope, herror⟩ := hsettles
      rw [lowerItems_cons_of_error herror, verdicts_cons_of_error herror]
      obtain ⟨v, u, v', u', hu, hu', hpos, hmod, hech, hds, hds'⟩ :=
        ih hts (s := ({ s with scope := scope } : Lowering).report _)
        hs hs' hmodule hecho last last'
      refine ⟨v, u, v', u', hu, hu', hpos, hmod, hech, hds.trans ?_, hds'⟩
      exact List.append_assoc _ _ _
    | ok out =>
      obtain ⟨w, a⟩ := out
      obtain ⟨scope, hok, -⟩ := hsettles
      obtain ⟨scope', hok', -⟩ := hsettles'
      rw [lowerItems_cons_of_ok hok, verdicts_cons_of_ok hok]
      show ∃ v u v' u', _ ∧ lowerItems last' (t :: accepted (verdicts (s.add a scope) ts)) s' = _ ∧ _
      rw [lowerItems_cons_of_ok hok']
      have hmodule' : (s'.add a scope').module = (s.add a scope).module := congrArg a.into hmodule
      exact ih hts rfl rfl hmodule' (congrArg (· ++ a.text) hecho) w w

end

theorem generate_of_ok {items : List Tree} {m : Module} {v : Value} {s : Lowering}
    (h : lowerItems .void items (.start m) = .ok v s) :
    generate (.sequence items) m = ⟨s.module, s.diagnostics, s.echo⟩ := by
  rw [generate, Lower.recovering, lower, h]

theorem map_fst_verdicts (s : Lowering) (items : List Tree) : (verdicts s items).map Prod.fst = items := by
  induction items generalizing s with
  | nil => rfl
  | cons t ts ih => rw [verdicts]; split <;> rw [List.map_cons, ih]

theorem severity_of_mem_reports {vs : List (Tree × Option LowerError)} {d : Diagnostic} (h : d ∈ reports vs) :
    d.severity = .error := by
  obtain ⟨⟨t, e?⟩, -, hd⟩ := List.mem_filterMap.1 h
  obtain ⟨e, -, rfl⟩ := Option.map_eq_some_iff.1 hd
  rfl

/-- Items that are rejected leave no trace: without them the module and the text are the same and nothing is
reported. With them each has one error, in their order, and nothing else is reported. Before, between and behind the
items there is no insertion point. -/
theorem rejected_items_leave_no_trace (items : List Tree) (hitems : ∀ t ∈ items, t.isItem = true) (name : String) :
    let vs := verdicts (.start { name := name }) items
    let whole := compile (.sequence items) name
    let kept := compile (.sequence (accepted vs)) name
    vs.map Prod.fst = items ∧ kept.module = whole.module ∧ kept.echo = whole.echo ∧ kept.diagnostics = [] ∧
      whole.diagnostics = reports vs ∧ (∀ d ∈ whole.diagnostics, d.severity = .error) ∧
      ∀ before after, items = before ++ after → ∃ v s,
        lowerItems .void before (.start { name := name }) = .ok v s ∧ s.builder.position = none := by
  intro vs whole kept
  obtain ⟨v, t, v', t', ht, ht', -, hmodule, hecho, hds, hds'⟩ :=
    lowerItems_accepted hitems (s := .start { name := name }) rfl rfl rfl rfl .void .void
  have hwhole : whole = ⟨t.module, t.diagnostics, t.echo⟩ := generate_of_ok ht
  have hkept : kept = ⟨t'.module, t'.diagnostics, t'.echo⟩ := generate_of_ok ht'
  rw [hwhole, hkept]
  refine ⟨map_fst_verdicts _ _, hmodule, hecho, hds', hds, fun d hd => ?_, fun before after hsplit => ?_⟩
  · rw [show t.diagnostics = reports vs from hds] at hd
    exact severity_of_mem_reports hd
  · have hbefore : ∀ t ∈ before, t.isItem = true := fun t ht =>
      hitems t (hsplit ▸ List.mem_append_left after ht)
    obtain ⟨w, u, -, -, hu, -, hpos, -⟩ :=
      lowerItems_accepted hbefore (s := .start { name := name }) rfl rfl rfl rfl .void .void
    exact ⟨w, u, hu, hpos⟩

/-- `def f(x) if x then y else 1` fails in the middle of a conditional, and `def f(x) x` behind it is accepted. -/
theorem rejected_items_leave_no_trace_conditional :
    let items : List Tree := [.function ⟨"f", ["x"], {}⟩ (.conditional (.var "x") (.var "y") (.number 1)) {},
      .function ⟨"f", ["x"], {}⟩ (.var "x") {}]
    let vs := verdicts (.start { name := "m" }) items
    vs.map (·.2.isNone) = [false, true] ∧
      (compile (.sequence (accepted vs)) "m").module = (compile (.sequence items) "m").module ∧
      (compile (.sequence items) "m").diagnostics = reports vs := by
  intro items vs
  have h := rejected_items_leave_no_trace items (by simp [items, Tree.isItem, Tree.isExpression]) "m"
  exact ⟨by decide +kernel, h.2.1, h.2.2.2.2.1⟩

/-! ## Signatures -/

/-- The modules have functions of the same names and numbers of parameters, and globals of the same names. -/
structure Ir.Module.SameSignatures (m m' : Module) : Prop where
  arity : ∀ x, m.arity? x = m'.arity? x
  global : ∀ x, (m.global? x).isSome = (m'.global? x).isSome

theorem Ir.Module.SameSignatures.names {m m' : Module} (h : m.SameSignatures m') : m.names = m'.names := by
  rw [Module.names, Module.names, funext h.arity, funext h.global]

/-- Two definitions of `name`, lowered from `s` and from `s'`, come to the same: to one error, or to one value and
one function that is shown and checked alike. -/
inductive Alike (name : String) (s s' : Lowering) :
    EStateM.Result LowerError Lowering Value → EStateM.Result LowerError Lowering Value → Prop
  | error {e : LowerError} {t t' : Lowering} (hreports : t.diagnostics = s.diagnostics)
      (hreports' : t'.diagnostics = s'.diagnostics) : Alike name s s' (.error e t) (.error e t')
  | ok {v : Value} {f : Function} {t t' : Lowering} (hfunction : t.module.function? name = some f)
      (hfunction' : t'.module.function? name = some f)
      (hcheck : t.module.checkFunction name = t'.module.checkFunction name)
      (hreports : t.diagnostics = s.diagnostics) (hreports' : t'.diagnostics = s'.diagnostics)
      (hecho : t.echo = s.echo ++ (f.text ++ "\n")) (hecho' : t'.echo = s'.echo ++ (f.text ++ "\n")) :
      Alike name s s' (.ok v t) (.ok v t')

/-- The function that a definition adds is found under its name, and the check finds nothing wrong with it. -/
theorem Declares.added {m : Module} {proto : Prototype} {body : Tree} {span : Span} {a : Addition}
    (h : Declares m (.function proto body span) a) :
    ∃ f, a = .function f ∧ (m.addFunction f).function? proto.name = some f ∧
      (m.addFunction f).checkFunction proto.name = .ok () := by
  cases h with
  | @function _ _ _ f hnew hname hcodes =>
    have hfound : (m.addFunction f).function? proto.name = some f := by
      rw [Module.function?_addFunction, Module.function?_of_new hnew]
      exact if_pos hname.symm
    refine ⟨f, rfl, hfound, ?_⟩
    rw [Module.checkFunction, hfound]
    exact hcodes.complete.1.check

/-- What a definition comes to is a matter of the signatures in the module: not of the bodies and the order of what
is there, nor of the scope that the last definition left. -/
theorem definition_of_signatures (proto : Prototype) (body : Tree) (hbody : body.isExpression = true) (span : Span)
    (s s' : Lowering) (hs : s.builder.position = none) (hs' : s'.builder.position = none)
    (h : s.module.SameSignatures s'.module) :
    Alike proto.name s s' (lower (.function proto body span) s) (lower (.function proto body span) s') := by
  obtain ⟨out, hout⟩ := settles_function s.module.names proto hbody span
  have hsettles := hout s rfl hs
  have hsettles' := hout s' h.names.symm hs'
  cases out with
  | error e =>
    obtain ⟨scope, herror⟩ := hsettles
    obtain ⟨scope', herror'⟩ := hsettles'
    rw [herror, herror']
    exact .error rfl rfl
  | ok out =>
    obtain ⟨v, a⟩ := out
    obtain ⟨scope, hok, hdeclares⟩ := hsettles
    obtain ⟨scope', hok', hdeclares'⟩ := hsettles'
    obtain ⟨f, rfl, hfound, hcheck⟩ := hdeclares.added
    obtain ⟨f', hf', hfound', hcheck'⟩ := hdeclares'.added
    cases hf'
    rw [hok, hok']
    exact .ok hfound hfound' (hcheck.trans hcheck'.symm) rfl rfl rfl rfl

/-- `def f(x) g(x) + a` among the same signatures in another order, with other bodies, and with a scope left over in
which `x` and `a` are locals. -/
theorem definition_of_signatures_reordered :
    let body : Tree := .binary .add (.call "g" [.var "x"]) (.var "a")
    let s : Lowering := { builder := { module :=
      { name := "m", functions := [.declare "g" ["x"], .declare "h" []], globals := [{ name := "a" }] } } }
    let s' : Lowering := { builder := { module :=
      { name := "n", functions := [.declare "h" [], .opened "g" ["y"]], globals := [{ name := "a", initial := 2 }] } }
                           scope := (Scope.empty.bind "x" "x.addr").bind "a" "a.addr", echo := "; n\n" }
    (verdicts s [.function ⟨"f", ["x"], {}⟩ body {}]).map (·.2.isNone) = [true] ∧
      Alike "f" s s' (lower (.function ⟨"f", ["x"], {}⟩ body {}) s) (lower (.function ⟨"f", ["x"], {}⟩ body {}) s') := by
  intro body s s'
  refine ⟨by decide +kernel, definition_of_signatures ⟨"f", ["x"], {}⟩ body (by decide) {} s s' rfl rfl ⟨?_, ?_⟩⟩
  · intro x
    by_cases hg : "g" = x
    · exact hg ▸ rfl
    · by_cases hh : "h" = x
      · exact hh ▸ rfl
      · have hopened : (Function.opened "g" ["y"]).name = "g" := rfl
        simp [s, s', Lowering.module, Module.arity?, Module.function?, Function.declare, hopened, hg, hh]
  · intro x
    by_cases ha : "a" = x <;> simp [s, s', Lowering.module, Module.global?, ha]

end Monofloat
