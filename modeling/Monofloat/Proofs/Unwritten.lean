import Mathlib
import Monofloat.Proofs.Faults
import Monofloat.Proofs.Initialization

/-!
# Reads of unwritten variables

A compiled function reads a variable that has no value only if it, or a function that it calls, has an exposed read.
The variable of an exposed read belongs to a loop that may be passed over: one in an arm of a conditional, or in the
body or the step of another loop. There is such a function, so the compiler does not keep programs from reading
unwritten variables.
-/

namespace Monofloat

open Monofloat.Ir Monofloat.Machine

/-! ## Loops that may be passed over -/

mutual

/-- The variables of the loops in those parts of an expression that may be passed over: in the arms of conditionals, and
in the bodies and steps of loops. -/
def Tree.optionalVariables : Tree → List String
  | .number _ | .var _ | .increment _ => []
  | .unary _ t | .unaryLogical _ t | .assign _ t => t.optionalVariables
  | .binary _ t u | .logical _ t u => t.optionalVariables ++ u.optionalVariables
  | .call _ args => optionalVariablesIn args
  | .conditional t u v => t.optionalVariables ++ (u.loopVariables ++ v.loopVariables)
  | .block bindings body => optionalVariablesInBindings bindings ++ body.optionalVariables
  | .statements first rest => first.optionalVariables ++ optionalVariablesIn rest
  | .openStatements first rest last =>
    first.optionalVariables ++ optionalVariablesIn rest ++ last.optionalVariables
  | .forLoop (.declare _ init) cond step body =>
    init.optionalVariables ++ cond.optionalVariables ++ (body.loopVariables ++ step.loopVariables)
  | .forLoop (.assign _ init) cond step body =>
    init.optionalVariables ++ cond.optionalVariables ++ (body.loopVariables ++ step.loopVariables)
  | .forLoop (.increment _) cond step body =>
    cond.optionalVariables ++ (body.loopVariables ++ step.loopVariables)
  | .sequence _ | .binding .. | .global .. | .prototype _ | .function .. => []

def optionalVariablesIn : List Tree → List String
  | [] => []
  | t :: ts => t.optionalVariables ++ optionalVariablesIn ts

def optionalVariablesInBindings : List (String × Tree) → List String
  | [] => []
  | (_, init) :: rest => init.optionalVariables ++ optionalVariablesInBindings rest

end

namespace Standings

variable {σ τ : Standings} {x : String}

theorem passing_of_ne_absent (h : σ x ≠ .absent) (τ : Standings) : σ.passing τ x = σ x := by
  simp [passing, h]

theorem passing_ne_absent (h : σ.passing τ x ≠ .absent) : σ x ≠ .absent ∨ τ x ≠ .absent := by
  grind [passing]

theorem passing_eq_unwritten (h : σ.passing τ x = .unwritten) :
    σ x = .unwritten ∨ σ x = .absent ∧ τ x ≠ .absent := by
  grind [passing]

theorem join_cases (σ τ : Standings) (x : String) : σ.join τ x = σ x ∨ σ.join τ x = τ x := by
  grind [join]

theorem assign_cases (σ : Standings) (name x : String) :
    σ.assign name x = σ x ∨ σ x ≠ .absent ∧ σ.assign name x = .written := by
  rw [assign]
  split
  · exact .inl rfl
  · next hlocal =>
    by_cases hx : x = name
    · exact .inr ⟨hx ▸ hlocal, if_pos hx⟩
    · exact .inl (if_neg hx)

theorem ofParams_ne_unwritten (params : List String) (x : String) : ofParams params x ≠ .unwritten := by
  have hfold : ∀ {σ : Standings}, σ x ≠ .unwritten → params.foldl write σ x ≠ .unwritten := by
    induction params with
    | nil => exact id
    | cons param params ih => exact fun hσ => ih (by grind [write])
  exact hfold (by simp)

end Standings

/-- Local variables stay local variables. Only variables of `V` become so, and only those of `O` may be without a value
behind the construct, or where the construct reads them. -/
structure Initialization.Within (V O : List String) (a : Initialization) : Prop where
  subset : O ⊆ V
  keeps : ∀ {σ x}, σ x ≠ .absent → a.after σ x ≠ .absent
  fresh : ∀ {σ x}, σ x = .absent → a.after σ x ≠ .absent → x ∈ V
  unwritten : ∀ {σ x}, a.after σ x = .unwritten → σ x = .unwritten ∨ x ∈ O
  exposed : ∀ {σ x}, x ∈ a.exposed σ → σ x = .unwritten ∨ x ∈ O

namespace Initialization.Within

variable {V V' O O' : List String} {a b : Initialization}

theorem nothing (h : O ⊆ V) : Within V O {} where
  subset := h
  keeps h := h
  fresh h hne := absurd h hne
  unwritten h := .inl h
  exposed h := nomatch h

theorem variableRead (name : String) (V : List String) : Within V [] (.variableRead name) where
  subset := List.nil_subset V
  keeps h := h
  fresh h hne := absurd h hne
  unwritten h := .inl h
  exposed {σ x} h := by
    simp only [Initialization.variableRead] at h
    split at h
    · next hname => exact .inl (List.mem_singleton.1 h ▸ hname)
    · cases h

theorem widen (h : Within V O a) (hV : V ⊆ V') : Within V' O a :=
  ⟨List.Subset.trans h.subset hV, h.keeps, fun hx hne => hV (h.fresh hx hne), h.unwritten, h.exposed⟩

theorem both (ha : Within V O a) (hb : Within V' O' b) : Within (V ++ V') (O ++ O') (a.both b) where
  subset := List.append_subset.2 ⟨fun _ h => List.mem_append_left _ (ha.subset h),
    fun _ h => List.mem_append_right _ (hb.subset h)⟩
  keeps hx := hb.keeps (ha.keeps hx)
  fresh {σ x} hx hne := by
    by_cases hmid : a.after σ x = .absent
    · exact List.mem_append_right _ (hb.fresh hmid hne)
    · exact List.mem_append_left _ (ha.fresh hx hmid)
  unwritten {σ x} hx := by
    rcases hb.unwritten hx with hmid | hmem
    · exact (ha.unwritten hmid).imp_right (List.mem_append_left _)
    · exact .inr (List.mem_append_right _ hmem)
  exposed {σ x} hx := by
    rcases List.mem_append.1 hx with hx | hx
    · exact (ha.exposed hx).imp_right (List.mem_append_left _)
    · rcases hb.exposed hx with hmid | hmem
      · exact (ha.unwritten hmid).imp_right (List.mem_append_left _)
      · exact .inr (List.mem_append_right _ hmem)

theorem unary (op : Operator) (h : Within V O a) : Within V O (.unary op a) := by
  rw [Initialization.unary]
  split
  · exact h
  · exact nothing h.subset

theorem unaryLogical (op : Connective) (h : Within V O a) : Within V O (.unaryLogical op a) := by
  cases op with
  | not => exact h
  | and | or => exact nothing h.subset

theorem logical (op : Connective) (ha : Within V O a) (hb : Within V' O' b) :
    Within (V ++ V') (O ++ O') (.logical op a b) := by
  cases op with
  | not => exact nothing (ha.both hb).subset
  | and | or => exact ha.both hb

theorem call (callee : String) (count : Nat) (h : Within V O a) : Within V O (.call callee count a) :=
  ⟨h.subset, h.keeps, h.fresh, h.unwritten, h.exposed⟩

/-- All loop variables of what is passed over may be without a value. -/
theorem optional (h : Within V O a) : Within V V a.optional where
  subset := List.Subset.refl V
  keeps {σ x} hx := by
    show σ.passing (a.after σ) x ≠ .absent
    rw [Standings.passing_of_ne_absent hx]
    exact hx
  fresh hx hne := (Standings.passing_ne_absent hne).elim (absurd hx) fun hne => h.fresh hx hne
  unwritten hx := (Standings.passing_eq_unwritten hx).imp_right fun ⟨habsent, hne⟩ => h.fresh habsent hne
  exposed hx := (h.exposed hx).imp_right fun hmem => h.subset hmem

/-- What is known where the ways meet is known of the first way or of the second. -/
theorem after_either (a b : Initialization) (σ : Standings) (x : String) :
    (a.either b).after σ x = (a.after σ).passing ((a.optional.both b).after σ) x ∨
      (a.either b).after σ x = (a.optional.both b).after σ x :=
  Standings.join_cases _ _ x

theorem either (ha : Within V O a) (hb : Within V' O' b) : Within (V ++ V') (V ++ V') (a.either b) :=
  have hsecond := ha.optional.both hb
  { subset := List.Subset.refl _
    keeps := fun {σ x} hx => by
      rcases after_either a b σ x with heq | heq
      · have hfirst := ha.keeps hx
        rw [heq, Standings.passing_of_ne_absent hfirst]
        exact hfirst
      · rw [heq]
        exact hsecond.keeps hx
    fresh := fun {σ x} hx hne => by
      rcases after_either a b σ x with heq | heq
      · rw [heq] at hne
        rcases Standings.passing_ne_absent hne with hfirst | hne
        · exact List.mem_append_left _ (ha.fresh hx hfirst)
        · exact hsecond.fresh hx hne
      · rw [heq] at hne
        exact hsecond.fresh hx hne
    unwritten := fun {σ x} hx => by
      rcases after_either a b σ x with heq | heq
      · rcases Standings.passing_eq_unwritten (heq.symm.trans hx) with hfirst | ⟨habsent, hne⟩
        · exact (ha.unwritten hfirst).imp_right fun hmem => List.mem_append_left _ (ha.subset hmem)
        · have hσ : σ x = .absent := Decidable.not_not.1 fun hne => ha.keeps hne habsent
          exact .inr (hsecond.fresh hσ hne)
      · exact (hsecond.unwritten (heq.symm.trans hx)).imp_right fun hmem => hsecond.subset hmem
    exposed := fun hx => (hsecond.exposed hx).imp_right fun hmem => hsecond.subset hmem }

theorem assign (name : String) (h : Within V O a) : Within V O (.assign name a) where
  subset := h.subset
  keeps {σ x} hx := by
    show (a.after σ).assign name x ≠ .absent
    rcases (a.after σ).assign_cases name x with heq | ⟨-, heq⟩
    · rw [heq]
      exact h.keeps hx
    · simp [heq]
  fresh {σ x} hx hne := by
    rcases (a.after σ).assign_cases name x with heq | ⟨hlocal, -⟩
    · exact h.fresh hx (heq ▸ hne)
    · exact h.fresh hx hlocal
  unwritten {σ x} hx := by
    rcases (a.after σ).assign_cases name x with heq | ⟨-, heq⟩
    · exact h.unwritten (heq.symm.trans hx)
    · cases heq.symm.trans hx
  exposed := h.exposed

theorem loopVariable (name : String) (h : Within V O a) : Within (name :: V) O (.loopVariable name a) where
  subset _ hx := List.mem_cons_of_mem _ (h.subset hx)
  keeps {σ x} hx := by
    have := h.keeps hx
    grind [Initialization.loopVariable, Standings.write]
  fresh {σ x} hx hne := by
    by_cases hname : x = name
    · exact hname ▸ List.mem_cons_self
    · exact List.mem_cons_of_mem _ (h.fresh hx (by grind [Initialization.loopVariable, Standings.write]))
  unwritten {σ x} hx := h.unwritten (by grind [Initialization.loopVariable, Standings.write])
  exposed := h.exposed

theorem bound (name : String) (h : Within V O a) : Within V O (a.bound name) where
  subset := h.subset
  keeps {σ x} hx := by
    have hbody : σ.write name x ≠ .absent → a.after (σ.write name) x ≠ .absent := h.keeps
    grind [Initialization.bound, Standings.write, Standings.restore]
  fresh {σ x} hx hne := by
    have hbody : σ.write name x = .absent → a.after (σ.write name) x ≠ .absent → x ∈ V := h.fresh
    grind [Initialization.bound, Standings.write, Standings.restore]
  unwritten {σ x} hx := by
    have hbody : a.after (σ.write name) x = .unwritten → σ.write name x = .unwritten ∨ x ∈ O := h.unwritten
    grind [Initialization.bound, Standings.write, Standings.restore]
  exposed {σ x} hx := by
    rcases h.exposed hx with hwritten | hmem
    · exact .inl (by grind [Standings.write])
    · exact .inr hmem

end Initialization.Within

mutual

/-- The reads that are exposed in a tree are reads of variables of loops that may be passed over. -/
theorem within_initialization : (t : Tree) → (initialization t).Within t.loopVariables t.optionalVariables
  | .number _ => .nothing (List.Subset.refl _)
  | .var name | .increment name => .variableRead name _
  | .unary op t => .unary op (within_initialization t)
  | .binary _ t u => (within_initialization t).both (within_initialization u)
  | .unaryLogical op t => .unaryLogical op (within_initialization t)
  | .logical op t u => .logical op (within_initialization t) (within_initialization u)
  | .call callee args => .call callee args.length (within_argsInitialization args)
  | .conditional t u v => by
    rw [Tree.loopVariables, List.append_assoc]
    exact (within_initialization t).both ((within_initialization u).either (within_initialization v))
  | .block bindings body => within_bindingsInitialization bindings (within_initialization body)
  | .statements first rest => within_statementsInitialization (within_initialization first) rest
  | .openStatements first rest last =>
    (within_statementsInitialization (within_initialization first) rest).both (within_initialization last)
  | .assign name t => .assign name (within_initialization t)
  | .forLoop (.declare name init) cond step body | .forLoop (.assign name init) cond step body => by
    have hround := ((within_initialization body).both (within_initialization step)).optional
    have hheader := (within_initialization init).loopVariable name
    refine ((hheader.both (within_initialization cond)).both hround).widen fun x hx => ?_
    grind [Tree.loopVariables]
  | .forLoop (.increment name) cond step body => by
    have hround := ((within_initialization body).both (within_initialization step)).optional
    have hheader := Initialization.Within.variableRead name []
    refine ((hheader.both (within_initialization cond)).both hround).widen fun x hx => ?_
    grind [Tree.loopVariables]
  | .sequence _ | .binding .. | .global .. | .prototype _ | .function .. => .nothing (List.nil_subset _)

theorem within_argsInitialization : (args : List Tree) →
    (argsInitialization args).Within (loopVariablesIn args) (optionalVariablesIn args)
  | [] => .nothing (List.Subset.refl _)
  | t :: ts => (within_initialization t).both (within_argsInitialization ts)

theorem within_statementsInitialization {V O : List String} {a : Initialization} (h : a.Within V O) :
    (ts : List Tree) → (statementsInitialization a ts).Within (V ++ loopVariablesIn ts) (O ++ optionalVariablesIn ts)
  | [] => by
    rw [loopVariablesIn, optionalVariablesIn, List.append_nil, List.append_nil]
    exact h
  | t :: ts => h.both (within_statementsInitialization (within_initialization t) ts)

theorem within_bindingsInitialization : (bindings : List (String × Tree)) → {V O : List String} →
    {a : Initialization} → a.Within V O → (bindingsInitialization bindings a).Within
      (loopVariablesInBindings bindings ++ V) (optionalVariablesInBindings bindings ++ O)
  | [], _, _, _, h => h
  | (name, init) :: rest, _, _, _, h => by
    rw [loopVariablesInBindings, optionalVariablesInBindings, List.append_assoc, List.append_assoc]
    exact (within_initialization init).both ((within_bindingsInitialization rest h).bound name)

end

/-! ## Calls have as many arguments as there are parameters -/

theorem Scoping.offences_of_read {a : Scoping} {σ : Names} (h : a.read σ = []) : a.offences σ = [] :=
  (List.append_eq_nil_iff.1 h).1

theorem Scoping.eq_nil_of_within {context : LowerContext} {errors : List LowerError}
    (h : Scoping.within context errors = []) : errors = [] := List.map_eq_nil_iff.1 h

/-- A construct without an offence calls known functions only, with the right numbers of arguments, and makes no
function known. -/
structure Scoping.Checks (a : Scoping) (calls : List (String × Nat)) : Prop where
  after : ∀ σ, (a.after σ).arity? = σ.arity?
  arity : ∀ {σ callee n}, a.offences σ = [] → (callee, n) ∈ calls → σ.arity? callee = some n

namespace Scoping.Checks

variable {a b c : Scoping} {k l : List (String × Nat)}

theorem nothing (ha : ∀ σ, (a.after σ).arity? = σ.arity?) : a.Checks [] := ⟨ha, fun _ h => nomatch h⟩

/-- A construct of the same calls that has all offences of another. -/
theorem of_offences (h : a.Checks k) (hafter : ∀ σ, (b.after σ).arity? = (a.after σ).arity?)
    (hoffences : ∀ {σ}, b.offences σ = [] → a.offences σ = []) : b.Checks k :=
  ⟨fun σ => (hafter σ).trans (h.after σ), fun hb => h.arity (hoffences hb)⟩

/-- Two constructs one behind the other. -/
theorem both (ha : a.Checks k) (hb : b.Checks l) (hafter : ∀ σ, (c.after σ).arity? = (b.after (a.after σ)).arity?)
    (hoffences : ∀ {σ}, c.offences σ = [] → a.offences σ = [] ∧ b.offences (a.after σ) = []) : c.Checks (k ++ l) where
  after σ := (hafter σ).trans ((hb.after _).trans (ha.after σ))
  arity hc hmem := by
    obtain ⟨ha', hb'⟩ := hoffences hc
    rcases List.mem_append.1 hmem with hmem | hmem
    · exact ha.arity ha' hmem
    · rw [← ha.after]
      exact hb.arity hb' hmem

theorem operands (ha : a.Checks k) (hb : b.Checks l) : (Scoping.both a b).Checks (k ++ l) :=
  ha.both hb (fun _ => rfl) fun h =>
    (List.append_eq_nil_iff.1 h).imp offences_of_read offences_of_read

theorem call {n : Nat} (callee : String) (h : a.Checks k) : (Scoping.call callee n a).Checks ((callee, n) :: k) where
  after := h.after
  arity {σ _ _} hoffences hmem := by
    simp only [Scoping.call] at hoffences
    cases hcallee : σ.arity? callee with
    | none => simp [hcallee] at hoffences
    | some arity =>
      simp only [hcallee] at hoffences
      split at hoffences
      · next heq =>
        rcases List.mem_cons.1 hmem with hmem | hmem
        · cases hmem
          rw [hcallee, heq]
        · exact h.arity hoffences hmem
      · cases hoffences

theorem argument (index : Nat) (callee : String) (ha : a.Checks k) (hb : b.Checks l) :
    (Scoping.argument index callee a b).Checks (k ++ l) :=
  ha.both hb (fun _ => rfl) fun h =>
    (List.append_eq_nil_iff.1 h).imp_left fun h => offences_of_read (eq_nil_of_within h)

theorem statement (index : Nat) (ha : a.Checks k) (hb : b.Checks l) : (Scoping.statement index a b).Checks (k ++ l) :=
  ha.both hb (fun _ => rfl) fun h => (List.append_eq_nil_iff.1 h).imp_left eq_nil_of_within

theorem binding (name : String) (ha : a.Checks k) (hb : b.Checks l) : (Scoping.binding name a b).Checks (k ++ l) where
  after σ := (hb.after ((a.after σ).bind name)).trans (ha.after σ)
  arity {σ callee n} hoffences hmem := by
    obtain ⟨hinit, hbody⟩ := List.append_eq_nil_iff.1 hoffences
    rcases List.mem_append.1 hmem with hmem | hmem
    · exact ha.arity (offences_of_read (eq_nil_of_within hinit)) hmem
    · have harity : ((a.after σ).bind name).arity? callee = some n := hb.arity hbody hmem
      rw [← ha.after]
      exact harity

theorem conditional (ha : a.Checks k) {m : List (String × Nat)} (hb : b.Checks l) (hc : c.Checks m) :
    (Scoping.conditional a b c).Checks (k ++ (l ++ m)) := by
  refine ha.both (hb.operands hc) (fun _ => rfl) fun h => ?_
  obtain ⟨hab, hc'⟩ := List.append_eq_nil_iff.1 h
  obtain ⟨ha', hb'⟩ := List.append_eq_nil_iff.1 hab
  exact ⟨offences_of_read (eq_nil_of_within ha'),
    List.append_eq_nil_iff.2 ⟨eq_nil_of_within hb', eq_nil_of_within hc'⟩⟩

theorem header (name : String) (ha : a.Checks k) {h : LoopHeader Scoping}
    (hh : h = .declare name a ∨ h = .assign name a) : (Scoping.header h).Checks k := by
  rcases hh with rfl | rfl
  · exact ha.of_offences (fun _ => rfl) fun h => offences_of_read (eq_nil_of_within h)
  · refine ha.of_offences (fun _ => rfl) fun h => ?_
    simp only [Scoping.header] at h
    split at h
    all_goals exact offences_of_read (eq_nil_of_within h)

theorem forLoop {h : LoopHeader Scoping} {step : Scoping} {l' m : List (String × Nat)}
    (hh : (Scoping.header h).Checks k) (ha : a.Checks l) (hs : step.Checks l') (hb : b.Checks m) :
    (Scoping.forLoop h a step b).Checks (k ++ l ++ (m ++ l')) where
  after σ := (hs.after _).trans ((hb.after _).trans ((ha.after _).trans (hh.after σ)))
  arity {σ callee n} hoffences hmem := by
    obtain ⟨hhab, hs'⟩ := List.append_eq_nil_iff.1 hoffences
    obtain ⟨hha, hb'⟩ := List.append_eq_nil_iff.1 hhab
    obtain ⟨hh', ha'⟩ := List.append_eq_nil_iff.1 hha
    simp only [List.mem_append] at hmem
    rcases hmem with (hmem | hmem) | (hmem | hmem)
    · exact hh.arity hh' hmem
    · rw [← hh.after]
      exact ha.arity (offences_of_read (eq_nil_of_within ha')) hmem
    · rw [← hh.after, ← ha.after]
      exact hb.arity (eq_nil_of_within hb') hmem
    · rw [← hh.after, ← ha.after, ← hb.after]
      exact hs.arity (eq_nil_of_within hs') hmem

end Scoping.Checks

mutual

theorem checks_scoping : (t : Tree) → t.isExpression = true → (scoping t).Checks (initialization t).calls
  | .number _, _ => .nothing fun _ => rfl
  | .var _, _ => .nothing fun _ => rfl
  | .increment _, _ => .nothing fun _ => rfl
  | .unary op t, h => by
    obtain ⟨hop, ht⟩ := Bool.and_eq_true_iff.1 h
    rw [of_decide_eq_true hop]
    exact (checks_scoping t ht).of_offences (fun _ => rfl) Scoping.offences_of_read
  | .binary _ t u, h => by
    obtain ⟨ht, hu⟩ := Bool.and_eq_true_iff.1 h
    exact (checks_scoping t ht).operands (checks_scoping u hu)
  | .unaryLogical op t, h => by
    obtain ⟨hop, ht⟩ := Bool.and_eq_true_iff.1 h
    rw [of_decide_eq_true hop]
    exact (checks_scoping t ht).of_offences (fun _ => rfl) Scoping.offences_of_read
  | .logical op t u, h => by
    obtain ⟨hop, htu⟩ := Bool.and_eq_true_iff.1 h
    obtain ⟨ht, hu⟩ := Bool.and_eq_true_iff.1 htu
    have hoperands := (checks_scoping t ht).operands (checks_scoping u hu)
    cases op with
    | not => cases hop
    | and | or => exact hoperands
  | .call callee args, h => .call callee (checks_argumentsScoping callee 1 args h)
  | .conditional t u v, h => by
    obtain ⟨htu, hv⟩ := Bool.and_eq_true_iff.1 h
    obtain ⟨ht, hu⟩ := Bool.and_eq_true_iff.1 htu
    exact (checks_scoping t ht).conditional (checks_scoping u hu) (checks_scoping v hv)
  | .block bindings body, h => by
    obtain ⟨hbindings, hbody⟩ := Bool.and_eq_true_iff.1 h
    exact checks_bindingsScoping bindings hbindings (checks_scoping body hbody)
  | .statements first rest, h => by
    obtain ⟨hfirst, hrest⟩ := Bool.and_eq_true_iff.1 h
    exact checks_statementsScoping 1 (checks_scoping first hfirst) rest hrest
  | .assign name t, h =>
    (checks_scoping t h).of_offences (fun _ => rfl) fun h =>
      Scoping.offences_of_read (Scoping.eq_nil_of_within (List.append_eq_nil_iff.1 h).1)
  | .forLoop (.declare name init) cond step body, h | .forLoop (.assign name init) cond step body, h => by
    obtain ⟨h₃, hbody⟩ := Bool.and_eq_true_iff.1 h
    obtain ⟨h₂, hstep⟩ := Bool.and_eq_true_iff.1 h₃
    obtain ⟨hinit, hcond⟩ := Bool.and_eq_true_iff.1 h₂
    exact ((checks_scoping init hinit).header name (by simp)).forLoop (checks_scoping cond hcond)
      (checks_scoping step hstep) (checks_scoping body hbody)

theorem checks_argumentsScoping (callee : String) : (index : Nat) → (args : List Tree) → areExpressions args = true →
    (argumentsScoping callee index args).Checks (argsInitialization args).calls
  | _, [], _ => .nothing fun _ => rfl
  | index, t :: ts, h => by
    obtain ⟨ht, hts⟩ := Bool.and_eq_true_iff.1 h
    exact (checks_scoping t ht).argument index callee (checks_argumentsScoping callee (index + 1) ts hts)

theorem checks_statementsScoping (index : Nat) {a : Scoping} {i : Initialization} (ha : a.Checks i.calls) :
    (ts : List Tree) → areExpressions ts = true →
    (Scoping.statement index a (statementsScoping (index + 1) a.function? ts)).Checks
      (statementsInitialization i ts).calls
  | [], _ => ha.of_offences (fun _ => rfl) fun h => Scoping.eq_nil_of_within (List.append_eq_nil_iff.1 h).1
  | t :: ts, h => by
    obtain ⟨ht, hts⟩ := Bool.and_eq_true_iff.1 h
    exact ha.statement index (checks_statementsScoping (index + 1) (checks_scoping t ht) ts hts)

theorem checks_bindingsScoping : (bindings : List (String × Tree)) → bindingsExpressions bindings = true →
    {a : Scoping} → {i : Initialization} → a.Checks i.calls →
    (bindingsScoping bindings a).Checks (bindingsInitialization bindings i).calls
  | [], _, _, _, ha => ha
  | (name, init) :: rest, h, _, _, ha => by
    obtain ⟨hinit, hrest⟩ := Bool.and_eq_true_iff.1 h
    exact (checks_scoping init hinit).binding name (checks_bindingsScoping rest hrest ha)

end

/-- The calls in the body of a definition have the numbers of arguments that the module asks for. -/
theorem Ir.Function.Codes.arity_of_mem_calls {m : Module} {params : List String} {body : Tree} {f : Function}
    (h : f.Codes m params body) {callee : String} {n : Nat} (hmem : (callee, n) ∈ (initialization body).calls) :
    m.arity? callee = some n := by
  obtain ⟨s, proto, s₁, rfl, hnew, hok, -, hcovers⟩ := h.lowered
  have hrefines := refines_lower body (isFlat_of_isExpression body h.expression)
  have hread : (scoping body).read (s.module.names.inside proto) = [] := by
    have houtcome := functionBody_outcome hnew hrefines
    cases herrors : (scoping body).read (s.module.names.inside proto) with
    | nil => rfl
    | cons e es =>
      rw [herrors] at houtcome
      obtain ⟨s', hs'⟩ := houtcome
      cases hs'.symm.trans hok
  have hinside := (checks_scoping body h.expression).arity (Scoping.offences_of_read hread) hmem
  have hdeclared : (Site.opening s proto).base.module.arity? callee = some n := by
    have hnames := Module.names_addFunction (g := .declare proto.name proto.params) hnew
    rw [Function.arity_declare] at hnames
    exact (congrArg (Names.arity? · callee) hnames).trans hinside
  obtain ⟨q, v, rfl, hq, hb, -⟩ := functionBody_ok hnew hrefines hok
  exact hcovers.arity ((hq.covers_returning v).arity (hb.module.arity hdeclared))

/-! ## Programs -/

/-- The one function of a program calls the other. -/
def Calls (items : List Tree) (f g : String) : Prop :=
  ∃ params body n, definition? items f = some (params, body) ∧ (g, n) ∈ (initialization body).calls

/-- A name has no definition with an exposed read. -/
def Sheltered (items : List Tree) (g : String) : Prop :=
  ∀ params body, definition? items g = some (params, body) → (initialization body).exposed (.ofParams params) = []

/-- The variable of an exposed read belongs to a loop that may be passed over. -/
theorem mem_optionalVariables {params : List String} {body : Tree} {x : String}
    (hx : x ∈ (initialization body).exposed (.ofParams params)) : x ∈ body.optionalVariables := by
  rcases (within_initialization body).exposed hx with hparam | hmem
  · exact absurd hparam (Standings.ofParams_ne_unwritten params x)
  · exact hmem

section

variable {m : Module} {items : List Tree}

theorem Ir.Module.Implements.length_of_mem_calls (h : m.Implements items) {g callee : String} {n : Nat}
    {params params' : List String} {body body' : Tree} (hdef : definition? items g = some (params, body))
    (hmem : (callee, n) ∈ (initialization body).calls) (hdef' : definition? items callee = some (params', body')) :
    n = params'.length := by
  obtain ⟨f, -, hcodes⟩ := h.defined hdef
  obtain ⟨f', hf', hcodes'⟩ := h.defined hdef'
  have harity := hcodes.arity_of_mem_calls hmem
  rw [Module.arity?, hf', Option.map_some, hcodes'.complete.2] at harity
  exact (Option.some.inj harity).symm

/-- Calls of a function do not stop at an unwritten variable if neither it nor any function that it calls has an exposed
read. -/
theorem Ir.Module.Implements.evalCall_ne_unwritten (h : m.Implements items) {f : String}
    (hf : ∀ g, Relation.ReflTransGen (Calls items) f g → Sheltered items g) (maxDepth fuel depth : Nat) {g : String}
    (hg : Relation.ReflTransGen (Calls items) f g) {args : List Float} {w w' : World}
    (hlen : ∀ params body, definition? items g = some (params, body) → args.length = params.length) :
    evalCall items maxDepth fuel depth g args w ≠ some (.error .unwrittenLocal, w') := by
  induction fuel generalizing depth g args w w' with
  | zero => exact nofun
  | succ fuel ih =>
    cases hdef : definition? items g with
    | none =>
      rw [evalCall_of_declared hdef]
      cases hostCall? g args <;> exact nofun
    | some d =>
      obtain ⟨params, body⟩ := d
      rw [evalCall_of_defined hdef]
      split
      · exact nofun
      · let Γ : EvalContext := ⟨fuel, evalCall items maxDepth fuel (depth + 1)⟩
        have hcalls : Γ.Avoids (initialization body).calls := fun callee args' w₁ w₂ hmem =>
          ih (depth + 1) (hg.tail ⟨params, body, _, hdef, hmem⟩) fun params' body' hdef' =>
            h.length_of_mem_calls hdef hmem hdef'
        have hholds := Standings.holds_ofParams (hlen params body hdef) w
        have hrun := (initialized_meaning body).run hcalls (hf g hg params body hdef) hholds
        rw [Eval.Ensures] at hrun
        intro hstop
        obtain ⟨⟨r, st⟩, heval, heq⟩ := Option.map_eq_some_iff.1 hstop
        cases heq
        rw [show (meaning body).run Γ (.ofParams params) ⟨fun k => args[k]?, w⟩ = _ from heval] at hrun
        exact hrun rfl

end

/-- A read of something unwritten. -/
def Machine.Fault.isUnwritten : Fault → Bool
  | unwrittenOperand _ | unwrittenCell _ => true
  | _ => false

/-- In a program that is accepted, suppose that a call of a function fails because something unwritten is read, whatever
the limits are and whatever was called before. Then it is a stack cell, and the function, or one that it calls directly
or through others, has an exposed read. The variables of exposed reads are all variables of loops that may be passed
over. -/
theorem compiled_call_unwritten (source moduleName : String)
    (hsuccess : (Compilation.ofSource source moduleName).success = true) :
    (∀ (limits : Limits) (M : Machine), M.Reached (Compilation.ofSource source moduleName).module limits →
      ∀ (f : String) (args : List Float),
        (definition? (FrontEnd.ofSource source 0).parsed.items f).map (·.1.length) = some args.length →
        ∀ fault : Fault, (M.call f args).1 = .error fault → fault.isUnwritten = true →
          (∃ index, fault = .unwrittenCell (.stack index)) ∧
          ∃ g params body x, Relation.ReflTransGen (Calls (FrontEnd.ofSource source 0).parsed.items) f g ∧
            definition? (FrontEnd.ofSource source 0).parsed.items g = some (params, body) ∧
            x ∈ (initialization body).exposed (.ofParams params) ∧ x ∈ body.optionalVariables) ∧
    ∀ g params body, definition? (FrontEnd.ofSource source 0).parsed.items g = some (params, body) →
      ∀ x ∈ (initialization body).exposed (.ofParams params), x ∈ body.optionalVariables := by
  refine ⟨fun limits M hM f args hf fault hfault hunwritten => ?_, fun _ _ _ _ _ => mem_optionalVariables⟩
  have himplements := implements_ofSource hsuccess
  rw [← hM.module_eq] at himplements
  obtain ⟨⟨params, body⟩, hdef, hlen⟩ := Option.map_eq_some_iff.1 hf
  obtain rfl | ⟨fuel, stop, w, heval, hmatch⟩ := himplements.fault_cases hdef hlen.symm hfault
  · cases hunwritten
  · cases hmatch with
    | unwrittenLocal index =>
      refine ⟨⟨index, rfl⟩, ?_⟩
      by_contra hnone
      refine himplements.evalCall_ne_unwritten (fun g hg params' body' hdef' => ?_) _ fuel _ .refl
        (fun params' body' hdef' => ?_) heval
      · refine List.eq_nil_iff_forall_not_mem.2 fun x hx => ?_
        exact hnone ⟨g, params', body', x, hg, hdef', hx, mem_optionalVariables hx⟩
      · cases hdef.symm.trans hdef'
        exact hlen.symm
    | unwrittenGlobal hglobal hnone =>
      have hsome := (hM.call f args).held (hM.module_eq ▸ hglobal)
      rw [hnone] at hsome
      cases hsome
    | unresolvedExternal | tooDeep => cases hunwritten

/-! ## A loop that is passed over -/

/-- A source text of one definition is compiled to what its body is lowered to. -/
theorem ofSource_of_definition (source : String) {moduleName : String} {proto : Prototype} {body : Tree} {span : Span}
    {s : Lowering} (hread : (FrontEnd.ofSource source 0).diagnostics = [])
    (hitems : (FrontEnd.ofSource source 0).parsed.items = [.function proto body span])
    (hok : Lower.functionBody proto (lower body) (Site.opening (.start { name := moduleName }) proto).state = .ok () s)
    (hclean : s.diagnostics = []) :
    (Compilation.ofSource source moduleName).success = true ∧
      (Compilation.ofSource source moduleName).module = s.module := by
  have hmem : .function proto body span ∈ (FrontEnd.ofSource source 0).parsed.items := by
    rw [hitems]
    exact List.mem_singleton.2 rfl
  have hflat := isFlat_of_isExpression body (isExpression_of_mem_items hmem)
  obtain ⟨f, -, hlower⟩ := lower_function_of_ok rfl rfl hflat hok span
  have hcompile : compile (.sequence [.function proto body span]) moduleName =
      ⟨s.module, [], s.echo ++ (f.text ++ "\n")⟩ := by
    rw [compile, generate_of_ok (lowerItems_cons_of_ok hlower .void [])]
    exact congrArg (fun ds => (⟨s.module, ds, _⟩ : Generated)) hclean
  rw [Compilation.success, Compilation.ofSource, FrontEnd.program, Parsed.program, hitems, hread, hcompile]
  exact ⟨rfl, rfl⟩

/-- The code of a function that reads a loop variable behind a conditional, and what it does if the loop is in the arm
that is passed over. -/
theorem lowered_passing_loop : ∃ s, Lower.functionBody ⟨"f", ["x"], ⟨⟨1, 5, 4⟩, ⟨1, 9, 8⟩, 0⟩⟩
      (lower (.statements (.conditional (.var "x")
        (.forLoop (.assign "i" (.var "x")) (.var "x") (.var "x") (.var "x")) (.var "x")) [.var "i", .var "x"]))
      (Site.opening (.start { name := "m" }) ⟨"f", ["x"], ⟨⟨1, 5, 4⟩, ⟨1, 9, 8⟩, 0⟩⟩).state = .ok () s ∧
    s.diagnostics = [] ∧
    ((Machine.start s.module {}).call "f" [0]).1 = .error (.unwrittenCell (.stack 0)) := by
  refine ⟨_, by cbv, rfl, ?_⟩
  decide +kernel

/-- The function as a source text. -/
theorem compiled_passing_loop :
    let source := "def f(x){if x then for i=x,x,x in x else x;i;x}"
    let C := Compilation.ofSource source "m"
    C.success = true ∧ (definition? (FrontEnd.ofSource source 0).parsed.items "f").map (·.1.length) = some 1 ∧
      ((Machine.start C.module {}).call "f" [0]).1 = .error (.unwrittenCell (.stack 0)) := by
  obtain ⟨s, hok, hclean, hcall⟩ := lowered_passing_loop
  obtain ⟨hsuccess, hmodule⟩ := ofSource_of_definition "def f(x){if x then for i=x,x,x in x else x;i;x}"
    (by decide +kernel) rfl hok hclean
  refine ⟨hsuccess, by decide +kernel, ?_⟩
  rw [← hmodule] at hcall
  exact hcall

/-- The first arm is passed over, and the variable of the loop in it is read behind the conditional. -/
theorem compiled_call_unwritten_passing :
    let source := "def f(x){if x then for i=x,x,x in x else x;i;x}"
    let C := Compilation.ofSource source "m"
    let items := (FrontEnd.ofSource source 0).parsed.items
    C.success = true ∧ ((Machine.start C.module {}).call "f" [0]).1 = .error (.unwrittenCell (.stack 0)) ∧
      ∃ g params body x, Relation.ReflTransGen (Calls items) "f" g ∧ definition? items g = some (params, body) ∧
        x ∈ (initialization body).exposed (.ofParams params) ∧ x ∈ body.optionalVariables := by
  intro source C items
  obtain ⟨hsuccess, hf, hcall⟩ := compiled_passing_loop
  obtain ⟨hunwritten, -⟩ := compiled_call_unwritten source "m" hsuccess
  exact ⟨hsuccess, hcall, (hunwritten {} _ .start "f" [0] hf _ hcall rfl).2⟩

/-- An accepted program may read a variable before it is written. -/
theorem passed_loop_variable_unwritten :
    let source := "def f(x){if x then for i=x,x,x in x else x;i;x}"
    let C := Compilation.ofSource source "m"
    C.success = true ∧ (definition? (FrontEnd.ofSource source 0).parsed.items "f").map (·.1.length) = some 1 ∧
      ¬ ∀ limits fault, ((Machine.start C.module limits).call "f" [0]).1 = .error fault →
        fault.isUnwritten = false := by
  obtain ⟨hsuccess, hf, hcall⟩ := compiled_passing_loop
  exact ⟨hsuccess, hf, fun h => nomatch h {} _ hcall⟩

end Monofloat
