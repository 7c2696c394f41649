import Monofloat.Proofs.Expressions
import Monofloat.Proofs.Finished
import Monofloat.Proofs.Keeping

/-!
# Lowered functions are well formed

Every function that lowering leaves in a module is a declaration or a finished definition, and the checks find
nothing wrong with it. They go on finding nothing when the module gains functions and globals. A definition that
fails is taken out of the module, and nothing else refers to it.
-/

namespace Monofloat

open Monofloat.Ir Monofloat.Ir.Function

/-! ## Checks in a larger module -/

theorem Ir.Module.Covers.function?_isSome {m m' : Module} (h : m.Covers m') {name : String}
    (hf : (m.function? name).isSome) : (m'.function? name).isSome := by
  obtain ⟨g, hg⟩ := Option.isSome_iff_exists.1 hf
  have harity : m'.arity? name = some g.arity := h.arity (by rw [Module.arity?, hg]; rfl)
  rw [← Option.isSome_map, show (m'.function? name).map Function.arity = _ from harity]
  rfl

namespace Ir.Function

variable {m m' : Module} {f : Function}

theorem typeOf_covers (h : m.Covers m') {v : Value} {ty : Ty} (hv : f.typeOf m v = .ok ty) :
    f.typeOf m' v = .ok ty := by
  cases v with
  | global name =>
    replace hv : (if (m.global? name).isSome then _ else _) = _ := hv
    show (if (m'.global? name).isSome then _ else _) = _
    by_cases hg : (m.global? name).isSome
    · rw [if_pos hg] at hv
      rw [if_pos (h.global hg)]
      exact hv
    · rw [if_neg hg] at hv
      cases hv
  | function name =>
    replace hv : (if (m.function? name).isSome then _ else _) = _ := hv
    show (if (m'.function? name).isSome then _ else _) = _
    by_cases hf : (m.function? name).isSome
    · rw [if_pos hf] at hv
      rw [if_pos (h.function?_isSome hf)]
      exact hv
    · rw [if_neg hf] at hv
      cases hv
  | _ => exact hv

theorem checkType_covers (h : m.Covers m') {block : String} {ty : Ty} {v : Value}
    (hv : f.checkType m block ty v = .ok ()) : f.checkType m' block ty v = .ok () := by
  unfold checkType at hv ⊢
  cases ht : f.typeOf m v with
  | error d => rw [ht] at hv; cases hv
  | ok found =>
    rw [ht] at hv
    rw [typeOf_covers h ht]
    exact hv

theorem checkAll_checkType_covers (h : m.Covers m') {block : String} {ty : Ty} {vs : List Value}
    (hvs : checkAll (f.checkType m block ty) vs = .ok ()) : checkAll (f.checkType m' block ty) vs = .ok () :=
  checkAll_eq_ok.2 fun v hv => checkType_covers h (checkAll_eq_ok.1 hvs v hv)

theorem checkOperands_covers (h : m.Covers m') {block : String} {i : Instruction}
    (hi : f.checkOperands m block i = .ok ()) : f.checkOperands m' block i = .ok () := by
  cases i with
  | alloca | br => exact hi
  | load | neg | ret | not | boolToFloat | condBr => exact checkType_covers h hi
  | binary | compare | logical | phi => exact checkAll_checkType_covers h hi
  | store value ptr =>
    replace hi : (do f.checkType m block .f64 value; f.checkType m block .ptr ptr) = _ := hi
    show (do f.checkType m' block .f64 value; f.checkType m' block .ptr ptr) = _
    cases hv : f.checkType m block .f64 value with
    | error d => rw [hv] at hi; cases hi
    | ok u =>
      rw [hv] at hi
      rw [checkType_covers h hv]
      exact checkType_covers h hi
  | call dest callee args =>
    cases hf : m.function? callee with
    | none => simp [checkOperands, hf] at hi
    | some target =>
      have harity : m'.arity? callee = some target.arity := h.arity (by rw [Module.arity?, hf]; rfl)
      obtain ⟨target', hf', htarget'⟩ := Option.map_eq_some_iff.1 harity
      simp only [checkOperands, hf, hf', htarget'] at hi ⊢
      split at hi
      · cases hi
      · next hne =>
        rw [if_neg hne]
        exact checkAll_checkType_covers h hi

theorem checkTypes_covers (h : m.Covers m') (hf : f.checkTypes m = .ok ()) : f.checkTypes m' = .ok () :=
  checkAll_eq_ok.2 fun b hb => checkAll_eq_ok.2 fun i hi =>
    checkOperands_covers h (checkAll_eq_ok.1 (checkAll_eq_ok.1 hf b hb) i hi)

/-- A function stays well formed when the module gains functions and globals. -/
theorem check_covers (h : m.Covers m') (hf : f.check m = .ok ()) : f.check m' = .ok () := by
  unfold check at hf ⊢
  split at hf
  · next hd => rw [if_pos hd]
  · next hd =>
    rw [if_neg hd]
    cases hs : f.checkShapes with
    | error d => rw [hs] at hf; cases hf
    | ok u =>
      cases hp : f.checkPhis with
      | error d => rw [hs, hp] at hf; cases hf
      | ok u' =>
        rw [hs, hp] at hf
        exact checkTypes_covers h hf

end Ir.Function

/-! ## Well-formed modules -/

namespace Ir.Module

variable {m : Module}

theorem defects_eq_nil : m.defects = [] ↔ ∀ f ∈ m.functions, f.check m = .ok () := by
  rw [defects, List.filterMap_eq_nil_iff]
  refine forall₂_congr fun f _ => ?_
  cases f.check m with
  | ok u => simp
  | error d => simp

/-- The checks find nothing, and every definition is sound. -/
structure WellFormed (m : Module) : Prop where
  defects : m.defects = []
  sound : ∀ f ∈ m.functions, f.isDeclaration = false → f.Sound

theorem WellFormed.check (h : m.WellFormed) {f : Function} (hf : f ∈ m.functions) : f.check m = .ok () :=
  defects_eq_nil.1 h.defects f hf

/-- What was in a module stays well formed in a larger one. -/
theorem WellFormed.of_covers {m' : Module} (h : m.WellFormed) (hm : m.Covers m')
    (hnew : ∀ f ∈ m'.functions, f ∈ m.functions ∨ f.check m' = .ok () ∧ (f.isDeclaration = false → f.Sound)) :
    m'.WellFormed := by
  refine ⟨defects_eq_nil.2 fun f hf => ?_, fun f hf hd => ?_⟩
  · obtain hold | hf := hnew f hf
    · exact check_covers hm (h.check hold)
    · exact hf.1
  · obtain hold | hf := hnew f hf
    · exact h.sound f hold hd
    · exact hf.2 hd

theorem WellFormed.addFunction (h : m.WellFormed) {name : String} (hname : m.arity? name = none)
    (params : List String) : (m.addFunction (.declare name params)).WellFormed := by
  refine h.of_covers (covers_addFunction hname) fun f hf => ?_
  obtain hf | hf := List.mem_append.1 hf
  · exact .inl hf
  · cases List.mem_singleton.1 hf
    exact .inr ⟨rfl, fun hd => by cases hd⟩

theorem WellFormed.addGlobal (h : m.WellFormed) (g : Global) : (m.addGlobal g).WellFormed :=
  h.of_covers (covers_addGlobal m g) fun _ hf => .inl hf

/-! ## Around one function -/

theorem eraseP_modifyFirst {name : String} {g : Function → Function} (hg : ∀ f, f.name = name → (g f).name = name)
    (fs : List Function) :
    (modifyFirst name g fs).eraseP (·.name = name) = fs.eraseP (·.name = name) := by
  induction fs with
  | nil => rfl
  | cons f fs ih =>
    rw [modifyFirst]
    by_cases hf : f.name = name
    · simp [hf, hg f hf]
    · simp [hf, ih]

theorem removeFunction_modifyFunction {name : String} {g : Function → Function}
    (hg : ∀ f, f.name = name → (g f).name = name) :
    (m.modifyFunction name g).removeFunction name = m.removeFunction name :=
  congrArg (fun fs => { m with functions := fs }) (eraseP_modifyFirst hg m.functions)

theorem isSome_function?_modifyFunction {name : String} {g : Function → Function}
    (hg : ∀ f, f.name = name → (g f).name = name) :
    ((m.modifyFunction name g).function? name).isSome = (m.function? name).isSome := by
  unfold function? modifyFunction
  induction m.functions with
  | nil => rfl
  | cons f fs ih =>
    rw [modifyFirst]
    by_cases hf : f.name = name
    · simp [hf, hg f hf]
    · simpa [hf] using ih

theorem name_of_function? {f : Function} {name : String} (h : m.function? name = some f) : f.name = name := by
  have := List.find?_some h
  simpa using this

theorem removeFunction_addFunction {name : String} (h : (m.function? name).isSome) (g : Function) :
    (m.addFunction g).removeFunction name = (m.removeFunction name).addFunction g := by
  obtain ⟨f, hf⟩ := Option.isSome_iff_exists.1 h
  have herase := List.eraseP_append_left (p := (·.name = name)) (by simpa using name_of_function? hf) [g]
    (List.mem_of_find?_eq_some hf)
  simp only [removeFunction, addFunction, herase]

theorem removeFunction_addFunction_self {g : Function} (h : m.function? g.name = none) :
    (m.addFunction g).removeFunction g.name = m := by
  have hnone : ∀ f ∈ m.functions, ¬decide (f.name = g.name) = true := List.find?_eq_none.1 h
  refine (congrArg (fun fs => { m with functions := fs }) (List.eraseP_append_right [g] hnone)).trans ?_
  simp

theorem function?_removeFunction_of_ne {name x : String} (h : x ≠ name) :
    (m.removeFunction name).function? x = m.function? x := by
  unfold function? removeFunction
  induction m.functions with
  | nil => rfl
  | cons f fs ih =>
    by_cases hf : f.name = name
    · have hx : f.name ≠ x := fun hx => h (hx.symm.trans hf)
      rw [List.eraseP_cons_of_pos (by simpa using hf), List.find?_cons_of_neg (by simpa using hx)]
    · rw [List.eraseP_cons_of_neg (by simpa using hf), List.find?_cons, List.find?_cons, ih]

theorem arity?_removeFunction_eq_none {name x : String} (h : m.arity? x = none)
    (hname : (m.removeFunction name).arity? name = none) : (m.removeFunction name).arity? x = none := by
  by_cases hx : x = name
  · rwa [hx]
  · rw [arity?, function?_removeFunction_of_ne hx]
    exact h

theorem covers_removeFunction {name : String} (h : (m.removeFunction name).arity? name = none) :
    (m.removeFunction name).Covers m := by
  refine ⟨fun {x n} hx => ?_, id⟩
  have hne : x ≠ name := by
    rintro rfl
    rw [h] at hx
    cases hx
  rwa [arity?, function?_removeFunction_of_ne hne] at hx

theorem mem_removeFunction_or_eq {f g : Function} {name : String} (hf : m.function? name = some f)
    (hg : g ∈ m.functions) : g ∈ (m.removeFunction name).functions ∨ g = f := by
  obtain ⟨f', before, after, hbefore, hf', hl, herase⟩ := List.exists_of_eraseP (p := (·.name = name))
    (List.mem_of_find?_eq_some hf) (by simpa using name_of_function? hf)
  have hfind : m.function? name = some f' := by
    rw [function?, hl, List.find?_append, List.find?_eq_none.2 hbefore, Option.none_or]
    exact List.find?_cons_of_pos hf'
  cases hf.symm.trans hfind
  rw [hl] at hg
  rw [show (m.removeFunction name).functions = _ from herase]
  simp only [List.mem_append, List.mem_cons] at hg ⊢
  obtain hg | hg | hg := hg
  · exact .inl (.inl hg)
  · exact .inr hg
  · exact .inl (.inr hg)

end Ir.Module

/-! ## Well-formedness through lowering -/

/-- Outside of all functions the module is well formed. Inside a function it is without that function. -/
def Invariant.wellFormed : Invariant where
  module
    | none, m => m.WellFormed
    | some name, m => (m.function? name).isSome ∧ (m.removeFunction name).arity? name = none ∧
        (m.removeFunction name).WellFormed
  diagnostics ds := ∀ d ∈ ds, d.code ≠ some .malformedFunction
  modify {name m g} h hg := by
    obtain ⟨hsome, hnone, hwell⟩ := h
    refine ⟨?_, ?_, ?_⟩
    · rwa [Module.isSome_function?_modifyFunction hg]
    · rwa [Module.removeFunction_modifyFunction hg]
    · rwa [Module.removeFunction_modifyFunction hg]
  addFunction {w m name params} h hname := by
    have harity := Module.arity?_of_new hname
    cases w with
    | none => exact h.addFunction harity params
    | some other =>
      obtain ⟨hsome, hnone, hwell⟩ := h
      have hnew := Module.arity?_removeFunction_eq_none harity hnone
      refine ⟨?_, ?_, ?_⟩
      · exact (Module.covers_addFunction harity).function?_isSome hsome
      · have hne : other ≠ name := by
          rintro rfl
          rw [← Option.isSome_map, show (m.function? other).map Function.arity = _ from harity] at hsome
          cases hsome
        rw [Module.removeFunction_addFunction hsome, Module.arity?_addFunction hnew]
        exact (if_neg hne).trans hnone
      · rw [Module.removeFunction_addFunction hsome]
        exact hwell.addFunction hnew params
  addGlobal {w m name} h _ := by
    cases w with
    | none => exact h.addGlobal _
    | some other => exact ⟨h.1, h.2.1, h.2.2.addGlobal _⟩
  report {ds d} h hd := by
    refine List.forall_mem_append.2 ⟨h, fun d' hd' => ?_⟩
    rwa [List.mem_singleton.1 hd']

theorem Ir.Function.Complete.covers {m m' : Module} {f : Function} (h : f.Complete m) (hm : m.Covers m') :
    f.Complete m' := { h with written := h.written.covers hm }

/-- The body of a definition leaves a complete function. -/
theorem functionBody_complete {s s₁ : Lowering} {proto : Prototype} (h : s.module.arity? proto.name = none)
    {body : Tree} (hbody : body.isFlat = true)
    (hok : Lower.functionBody proto (lower body) (Site.opening s proto).state = .ok () s₁) :
    ∃ f, s₁.module.function? proto.name = some f ∧ f.Complete s₁.module ∧ f.arity = proto.params.length := by
  obtain ⟨q, v, rfl, hq, hb, hv⟩ := functionBody_ok h (refines_lower body hbody) hok
  refine ⟨(q.returning v).function, ?_, (hq.underway.complete hv).covers (hq.covers_returning v), ?_⟩
  · rw [hq.function?_returning]
    exact if_pos hb.function.name.symm
  · exact (congrArg List.length hb.function.params).trans (Function.arity_declare proto.name proto.params)

/-- A definition whose body has no program in it keeps the module well formed. -/
theorem wellFormed_function (proto : Prototype) {body : Tree} (hbody : body.isFlat = true) (span : Span) :
    Keeps (Invariant.wellFormed.At none) (Lower.function proto span (lower body)) anything := by
  refine keeps_function_outside ?_ (keeps_lower_inside proto.name body) ?_ fun h => h.2.2
  · intro m hm hname
    have hnone := Module.function?_of_new hname
    have hremove := Module.removeFunction_addFunction_self (g := .declare proto.name proto.params) hnone
    refine ⟨?_, ?_, ?_⟩
    · rw [Module.function?_addFunction, hnone]
      exact congrArg Option.isSome (if_pos rfl)
    · rw [show (m.addFunction _).removeFunction proto.name = _ from hremove]
      exact Module.arity?_of_new hname
    · rwa [show (m.addFunction _).removeFunction proto.name = _ from hremove]
  · intro s s₁ _ hname hok hinside
    obtain ⟨f, hf, hcomplete, -⟩ := functionBody_complete (Module.arity?_of_new hname) hbody hok
    refine ⟨?_, .inl ?_⟩
    · refine hinside.1.2.2.2.of_covers (Module.covers_removeFunction hinside.1.2.2.1) fun g hg => ?_
      obtain hg | rfl := Module.mem_removeFunction_or_eq hf hg
      · exact .inl hg
      · exact .inr ⟨hcomplete.check, fun _ => hcomplete.sound⟩
    · rw [Module.checkFunction, hf]
      exact hcomplete.check

/-- The module is well formed, and no function of it was found to be malformed. -/
structure Generated.WellFormed (g : Generated) : Prop where
  module : g.module.WellFormed
  unwarned : ∀ d ∈ g.diagnostics, d.code ≠ some .malformedFunction

theorem wellFormed_generate {items : List Tree} (hitems : bodiesAllIn Tree.isFlat items = true) {m : Module}
    (hm : m.WellFormed) : (generate (.sequence items) m).WellFormed := by
  have hstart : Invariant.wellFormed.At none (.start m) := ⟨⟨rfl, hm⟩, fun d hd => by cases hd⟩
  have hkeeps : Keeps (Invariant.wellFormed.At none) (lower (.sequence items)) anything :=
    keeps_lower (fun proto _ span hbody => wellFormed_function proto hbody span) (.sequence items) hitems
  have hstep := Lower.keeps_recovering .void (Tree.sequence items).span? hkeeps _ hstart
  rw [generate]
  cases ho : Lower.recovering .void (Tree.sequence items).span? (lower (.sequence items)) (.start m) with
  | ok v s =>
    rw [ho] at hstep
    exact ⟨hstep.1.1.2, hstep.1.2⟩
  | error e s =>
    rw [ho] at hstep
    exact ⟨hstep.1.2, hstep.2⟩

theorem wellFormed_empty (name : String) : ({ name := name } : Module).WellFormed :=
  ⟨rfl, fun f hf => by cases hf⟩

theorem bodiesAllIn_iff {P : Tree → Bool} {items : List Tree} :
    bodiesAllIn P items = true ↔ ∀ t ∈ items, t.bodiesAll P = true := by
  induction items with
  | nil => simp [bodiesAllIn]
  | cons t ts ih => simp [bodiesAllIn, ih]

open Grammar in
/-- What the parser gives has no program in a body. -/
theorem bodiesAllIn_isFlat_parse (tokens : List Token) : bodiesAllIn Tree.isFlat (parse tokens).items = true := by
  refine bodiesAllIn_iff.2 fun t ht => ?_
  obtain ⟨ts, hitem⟩ := item_of_mem_parseFrom ht
  cases hitem with
  | definition _ _ _ hbody => exact isFlat_of_isExpression _ hbody.isExpression
  | prototype | global => rfl

/-- Items without a program in a body of theirs are lowered to well-formed functions only, whether they go to a
module that has well-formed functions already or to a new one. Parsed items are such. -/
theorem lowered_functions_wellFormed :
    (∀ items m, bodiesAllIn Tree.isFlat items = true → m.WellFormed → (generate (.sequence items) m).WellFormed) ∧
    (∀ items name, bodiesAllIn Tree.isFlat items = true → (compile (.sequence items) name).WellFormed) ∧
    ∀ tokens name, (compile (parse tokens).program name).WellFormed :=
  ⟨fun _ _ hitems hm => wellFormed_generate hitems hm,
    fun _ name hitems => wellFormed_generate hitems (wellFormed_empty name),
    fun tokens name => wellFormed_generate (bodiesAllIn_isFlat_parse tokens) (wellFormed_empty name)⟩

/-- `def f(x)` with a declaration of `g` and a call of it in its body, and a definition of `h` that fails, because
`y` is unknown. -/
theorem lowered_functions_wellFormed_misplaced :
    (compile (.sequence [.function ⟨"f", ["x"], {}⟩
      (.statements (.prototype ⟨"g", [], {}⟩) [.call "g" [], .var "x"]) {},
      .function ⟨"h", [], {}⟩ (.conditional (.call "f" [.number 1]) (.number 2) (.var "y")) {}]) "m").WellFormed :=
  lowered_functions_wellFormed.2.1 _ _ rfl

end Monofloat
