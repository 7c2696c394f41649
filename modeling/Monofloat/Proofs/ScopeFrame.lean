import Monofloat.Proofs.StaticScope

/-!
# What lowering does to the scope

Scopes are not stacked, so each construct puts back what it has changed. Whatever is lowered inside a function, and
whether lowering succeeds or fails, a name that was bound keeps its slot. A name that was not bound can be bound
afterwards only if a loop of the tree has it as its variable.
-/

namespace Monofloat

open Monofloat.Ir

/-! ## Loop variables -/

mutual

/-- The variables of the loops in a tree. -/
def Tree.loopVariables : Tree → List String
  | .sequence items => loopVariablesIn items
  | .number _ | .var _ | .global .. | .prototype _ | .increment _ => []
  | .unary _ t | .unaryLogical _ t | .binding _ t | .assign _ t | .function _ t _ => t.loopVariables
  | .binary _ t u | .logical _ t u => t.loopVariables ++ u.loopVariables
  | .call _ args => loopVariablesIn args
  | .conditional t u v => t.loopVariables ++ u.loopVariables ++ v.loopVariables
  | .block bindings body => loopVariablesInBindings bindings ++ body.loopVariables
  | .statements first rest => first.loopVariables ++ loopVariablesIn rest
  | .openStatements first rest last => first.loopVariables ++ loopVariablesIn rest ++ last.loopVariables
  | .forLoop (.declare name init) cond step body =>
    name :: init.loopVariables ++ cond.loopVariables ++ step.loopVariables ++ body.loopVariables
  | .forLoop (.assign name init) cond step body =>
    name :: init.loopVariables ++ cond.loopVariables ++ step.loopVariables ++ body.loopVariables
  | .forLoop (.increment name) cond step body =>
    name :: cond.loopVariables ++ step.loopVariables ++ body.loopVariables

def loopVariablesIn : List Tree → List String
  | [] => []
  | t :: ts => t.loopVariables ++ loopVariablesIn ts

def loopVariablesInBindings : List (String × Tree) → List String
  | [] => []
  | (_, init) :: rest => init.loopVariables ++ loopVariablesInBindings rest

end

/-! ## Frames -/

/-- Inside a function, lowering has come from the one state to the other: bound names have kept their slots, and only
names of the list have been bound. -/
structure Framed (V : List String) (s s' : Lowering) : Prop where
  position : s'.builder.position.isSome = true
  bound : ∀ {x slot}, s.scope.lookup x = some slot → s'.scope.lookup x = some slot
  fresh : ∀ {x}, s.scope.lookup x = none → (s'.scope.lookup x).isSome = true → x ∈ V

namespace Framed

variable {V : List String} {s s' s'' : Lowering}

theorem refl (h : s.builder.position.isSome = true) : Framed V s s where
  position := h
  bound h := h
  fresh h h' := by simp [h] at h'

theorem trans (h : Framed V s s') (h' : Framed V s' s'') : Framed V s s'' where
  position := h'.position
  bound hx := h'.bound (h.bound hx)
  fresh {x} hx hx'' := by
    cases hx' : s'.scope.lookup x with
    | none => exact h'.fresh hx' hx''
    | some slot => exact h.fresh hx (by rw [hx', Option.isSome_some])

/-- The scope is as it was. -/
theorem of_scope_eq (h : Framed V s s') (hscope : s''.scope = s'.scope)
    (hposition : s''.builder.position.isSome = true) : Framed V s s'' where
  position := hposition
  bound hx := by rw [hscope, h.bound hx]
  fresh hx hx'' := h.fresh hx (by rwa [← hscope])

/-- A name is bound, to the slot that it had if it had one. -/
theorem bind {name slot : String} (h : Framed V s s')
    (hbound : ∀ slot', s.scope.lookup name = some slot' → slot' = slot)
    (hfresh : s.scope.lookup name = none → name ∈ V) :
    Framed V s { s' with scope := s'.scope.bind name slot } where
  position := h.position
  bound {x slot'} hx := by
    rw [Scope.lookup_bind]
    split
    · next hname => rw [hbound slot' (hname ▸ hx)]
    · exact h.bound hx
  fresh {x} hx hx' := by
    rw [Scope.lookup_bind] at hx'
    split at hx'
    · next hname => exact hname ▸ hfresh (hname ▸ hx)
    · exact h.fresh hx hx'

/-- The name has been bound in between, and then put back. -/
theorem restore {name slot : String} (h : Framed V s s')
    (h' : Framed V { s' with scope := s'.scope.bind name slot } s'') :
    Framed V s { s'' with scope := s''.scope.restore name (s'.scope.lookup name) } where
  position := h'.position
  bound {x slot'} hx := by
    rw [Scope.lookup_restore]
    split
    · next hname => exact hname ▸ h.bound hx
    · next hname => exact h'.bound (by rw [Scope.lookup_bind, if_neg hname, h.bound hx])
  fresh {x} hx hx'' := by
    rw [Scope.lookup_restore] at hx''
    split at hx''
    · next hname => exact h.fresh hx (hname ▸ hx'')
    · next hname =>
      cases hx' : s'.scope.lookup x with
      | some slot' => exact h.fresh hx (by rw [hx', Option.isSome_some])
      | none => exact h'.fresh (by rw [Scope.lookup_bind, if_neg hname, hx']) hx''

end Framed

/-! ## Steps -/

namespace Lower

variable {α β : Type}

/-- The state that a step leaves behind, whatever its outcome. -/
def final (x : Lower α) (s : Lowering) : Lowering :=
  match x s with
  | .ok _ s' => s'
  | .error _ s' => s'

theorem final_of_ok {x : Lower α} {s s' : Lowering} {a : α} (h : x s = .ok a s') : x.final s = s' := by
  rw [final, h]

theorem final_of_error {x : Lower α} {s s' : Lowering} {e : LowerError} (h : x s = .error e s') : x.final s = s' := by
  rw [final, h]

theorem final_bind_of_ok {x : Lower α} {f : α → Lower β} {s s' : Lowering} {a : α} (h : x s = .ok a s') :
    (x >>= f).final s = (f a).final s' := by
  rw [final, bind_of_ok h, final]

@[simp]
theorem final_within (context : LowerContext) (x : Lower α) (s : Lowering) :
    (within context x).final s = x.final s := by
  unfold final within
  cases x s <;> rfl

@[simp]
theorem final_finallyScope (change : Scope → Scope) (x : Lower α) (s : Lowering) :
    (finallyScope change x).final s = { x.final s with scope := change (x.final s).scope } := by
  unfold final finallyScope
  cases x s <;> rfl

end Lower

/-- Inside a function, the step leaves a state that is framed by the one before. -/
def Frames (V : List String) {α : Type} (x : Lower α) : Prop :=
  ∀ s : Lowering, s.builder.position.isSome = true → Framed V s (x.final s)

namespace Lower

variable {V : List String} {α β : Type} {init cond step body : Lower Value} {s : Lowering}

theorem framed_bind {x : Lower α} {f : α → Lower β} (hx : Framed V s (x.final s))
    (hf : ∀ a s', Framed V s s' → Framed V s ((f a).final s')) : Framed V s ((x >>= f).final s) := by
  cases ho : x s with
  | ok a s' =>
    rw [final_bind_of_ok ho]
    exact hf a s' (final_of_ok ho ▸ hx)
  | error e s' =>
    rw [final_of_error (bind_of_error ho)]
    exact final_of_error ho ▸ hx

theorem frames_bind {x : Lower α} {f : α → Lower β} (hx : Frames V x) (hf : ∀ a, Frames V (f a)) :
    Frames V (x >>= f) :=
  fun s hs => framed_bind (hx s hs) fun a s' hs' => hs'.trans (hf a s' hs'.position)

theorem frames_build {step : Build α} (h : ∀ w, Keeps (Invariant.positionOnly.Builder w) step anything) :
    Frames V (build step) := by
  intro s hs
  have hkeeps := h (s.builder.position.map InsertPoint.function) s.builder ⟨rfl, trivial⟩
  have hposition : ∀ {b : Builder}, b.position.map InsertPoint.function = s.builder.position.map InsertPoint.function →
      b.position.isSome = true := fun hb => by
    rw [← Option.isSome_map, hb, Option.isSome_map, hs]
  unfold final build
  cases ho : step s.builder with
  | ok a b =>
    rw [ho] at hkeeps
    exact (Framed.refl hs).of_scope_eq rfl (hposition hkeeps.1.1)
  | error e b =>
    rw [ho] at hkeeps
    exact (Framed.refl hs).of_scope_eq rfl (hposition hkeeps.1)

theorem frames_function? (name : String) : Frames V (build (.function? name)) :=
  frames_build fun _ _ hb => ⟨hb, trivial⟩

theorem frames_fail (cause : LowerCause) : Frames V (fail cause : Lower α) := fun _ hs => .refl hs

theorem frames_pure (a : α) : Frames V (pure a : Lower α) := fun _ hs => .refl hs

theorem frames_call (callee : String) (count : Nat) {args : Lower (List Value)} (h : Frames V args) :
    Frames V (call callee count args) := by
  refine frames_bind (frames_function? callee) fun f? => ?_
  cases f? with
  | none => exact frames_fail _
  | some f =>
    show Frames V (if f.arity ≠ count then _ else _)
    split
    · exact frames_fail _
    · exact frames_bind h fun vs => frames_build fun _ => Build.keeps_call callee vs

/-- What frames the scope can be put together, as long as it is not changed. -/
theorem composable_frames (V : List String) : Composable fun _ x => Frames V x where
  pure := frames_pure
  fail := frames_fail
  bind := frames_bind
  within context hx s hs := by
    rw [final_within]
    exact hx s hs
  local? _ _ hs := .refl hs
  operation op hop := frames_build fun _ => Build.keeps_perform op (Operation.isInner_of_isCode hop)
  call callee count _ hargs := frames_call callee count hargs

/-! ## Constructs that change the scope -/

theorem frames_allocate (name : String) (h : Frames V init) : Frames V (allocate name init) :=
  (composable_frames V).allocate (frames_build fun _ => Build.keeps_alloca name) h

theorem frames_withBinding (name : String) (hinit : Frames V init) {x : Lower α} (hx : Frames V x) :
    Frames V (withBinding name init x) := by
  refine fun s hs => framed_bind (frames_allocate name hinit s hs) fun slot s' hs' => ?_
  have hlocal : local? name s' = .ok (s'.scope.lookup name) s' := rfl
  have hmodify : modifyScope (·.bind name slot) s' = .ok () { s' with scope := s'.scope.bind name slot } := rfl
  rw [final_bind_of_ok hlocal, final_bind_of_ok hmodify, final_finallyScope]
  exact hs'.restore (hx _ hs'.position)

theorem frames_forLoop {header : LoopHeader (Lower Value)} (hname : header.name ∈ V)
    (hheader : ∀ name init, header = .declare name init ∨ header = .assign name init → Frames V init)
    (hc : Frames V cond) (hs : Frames V step) (hb : Frames V body) : Frames V (forLoop header cond step body) := by
  intro s hposition
  have h := composable_frames V
  have hlocal : local? header.name s = .ok (s.scope.lookup header.name) s := rfl
  rw [forLoop, final_bind_of_ok hlocal]
  cases hreused : s.scope.lookup header.name with
  | some slot =>
    have hloop : Frames V (do loopHeader header (some slot); loopBlocks cond step body) :=
      h.bind (h.reusingHeader slot hheader) fun _ => h.loopBlocks hc hs hb
    dsimp only
    rw [final_finallyScope]
    exact (hloop s hposition).bind (fun slot' h' => Option.some.inj (h'.symm.trans hreused)) fun _ => hname
  | none =>
    -- The initializer may bind the name as well; it is bound anew behind it.
    have hbind : ∀ {init : Lower Value}, Frames V init →
        Framed V s ((bindLoopVariable header.name init).final s) := fun hinit =>
      framed_bind (frames_allocate _ hinit s hposition) fun slot s' hs' =>
        hs'.bind (fun _ h' => by rw [hreused] at h'; cases h') fun _ => hname
    refine framed_bind ?_ fun _ s' hs' => hs'.trans (h.loopBlocks hc hs hb s' hs'.position)
    cases header with
    | declare name init => exact hbind (hheader name init (.inl rfl))
    | assign name init => exact hbind (hheader name init (.inr rfl))
    | increment name => exact .refl hposition

/-! ## Items -/

theorem frames_emitText (text : String) : Frames V (emitText text) :=
  fun _ hs => (Framed.refl hs).of_scope_eq rfl hs

theorem frames_recovering (default : Value) (span? : Option Span) (h : Frames V step) :
    Frames V (recovering default span? step) := by
  intro s hs
  have hstep := h s hs
  unfold final recovering at *
  cases ho : step s with
  | ok v s' => rwa [ho] at hstep
  | error e s' =>
    rw [ho] at hstep
    exact hstep.of_scope_eq rfl hstep.position

theorem frames_prototype (proto : Prototype) (visible : Bool) : Frames V (prototype proto visible) := by
  refine frames_bind (frames_function? proto.name) fun f? => ?_
  cases f? with
  | some f =>
    show Frames V (if f.arity = proto.params.length then _ else _)
    split
    · exact frames_pure _
    · exact frames_fail _
  | none =>
    refine frames_bind (frames_build fun _ _ hb => ⟨hb, trivial⟩) fun address? => ?_
    split
    · exact frames_fail _
    · refine frames_bind (frames_build fun _ => Build.keeps_declareFunction _ _) fun _ => ?_
      split
      · refine frames_bind (frames_function? _) fun f? => ?_
        cases f? with
        | none => exact frames_pure _
        | some f => exact frames_bind (frames_emitText _) fun _ => frames_pure _
      · exact frames_pure _

theorem frames_globalVariable (name : String) : Frames V (globalVariable name) := by
  refine frames_bind (fun _ hs => .refl hs) fun s => ?_
  split
  · exact frames_fail _
  · exact frames_bind (frames_build fun _ => Build.keeps_declareGlobal name) fun _ =>
      frames_bind (frames_emitText _) fun _ => frames_pure _

/-- Inside a function no other one is defined. -/
theorem frames_function (proto : Prototype) (span : Span) (body : Lower Value) :
    Frames V (function proto span body) := by
  intro s hs
  have hget : (get : Lower Lowering) s = .ok s s := rfl
  rw [function, final_bind_of_ok hget, if_pos hs]
  exact .refl hs

end Lower

/-! ## Trees -/

section

open Lower

variable {V : List String}

mutual

/-- Lowering frames the scope, for any tree. -/
theorem frames_lower : (t : Tree) → t.loopVariables ⊆ V → Frames V (lower t)
  | .sequence items, h => frames_lowerItems _ items h
  | .number _, _ => frames_pure _
  | .var name, _ => (composable_frames V).variableRead name
  | .unary op t, h => (composable_frames V).unary op (frames_lower t h)
  | .binary op t u, h => by
    obtain ⟨ht, hu⟩ := List.append_subset.1 h
    exact (composable_frames V).binary op (frames_lower t ht) (frames_lower u hu)
  | .unaryLogical op t, h => (composable_frames V).unaryLogical op (frames_lower t h)
  | .logical op t u, h => by
    obtain ⟨ht, hu⟩ := List.append_subset.1 h
    exact (composable_frames V).logical op (frames_lower t ht) (frames_lower u hu)
  | .call callee args, h => frames_call callee args.length (frames_lowerArgs callee 1 args h)
  | .conditional t u v, h => by
    obtain ⟨htu, hv⟩ := List.append_subset.1 h
    obtain ⟨ht, hu⟩ := List.append_subset.1 htu
    exact (composable_frames V).conditional (frames_lower t ht) (frames_lower u hu) (frames_lower v hv)
  | .block bindings body, h => by
    obtain ⟨hbindings, hbody⟩ := List.append_subset.1 h
    exact frames_lowerBindings bindings hbindings (frames_lower body hbody)
  | .binding name init, h => by
    rw [lower, map_eq_bind]
    exact frames_bind (frames_allocate name (frames_lower init h)) fun _ => frames_pure _
  | .global name _, _ => frames_globalVariable name
  | .prototype proto, _ => frames_prototype proto true
  | .function proto body span, _ => frames_function proto span (lower body)
  | .statements first rest, h => by
    obtain ⟨hfirst, hrest⟩ := List.append_subset.1 h
    exact frames_bind ((composable_frames V).within _ (frames_lower first hfirst)) fun v =>
      frames_lowerStatements 2 v rest hrest
  | .openStatements first rest last, h => by
    obtain ⟨hinit, hlast⟩ := List.append_subset.1 h
    obtain ⟨hfirst, hrest⟩ := List.append_subset.1 hinit
    exact frames_bind ((composable_frames V).within _ (frames_lower first hfirst)) fun v =>
      frames_bind ((composable_frames V).discard (frames_lowerStatements 2 v rest hrest)) fun _ =>
        (composable_frames V).within _ (frames_lower last hlast)
  | .assign name t, h => (composable_frames V).assign name (frames_lower t h)
  | .increment name, _ => (composable_frames V).increment name
  | .forLoop (.declare name init) cond step body, h | .forLoop (.assign name init) cond step body, h => by
    obtain ⟨h₃, hbody⟩ := List.append_subset.1 h
    obtain ⟨h₂, hstep⟩ := List.append_subset.1 h₃
    obtain ⟨h₁, hcond⟩ := List.append_subset.1 h₂
    obtain ⟨hname, hinit⟩ := List.cons_subset.1 h₁
    have hheader := frames_lower init hinit
    refine frames_forLoop hname (fun _ _ heq => ?_) (frames_lower cond hcond) (frames_lower step hstep)
      (frames_lower body hbody)
    rcases heq with heq | heq <;> cases heq
    exact hheader
  | .forLoop (.increment name) cond step body, h => by
    obtain ⟨h₂, hbody⟩ := List.append_subset.1 h
    obtain ⟨h₁, hstep⟩ := List.append_subset.1 h₂
    obtain ⟨hname, hcond⟩ := List.cons_subset.1 h₁
    refine frames_forLoop hname (fun _ _ heq => ?_) (frames_lower cond hcond) (frames_lower step hstep)
      (frames_lower body hbody)
    rcases heq with heq | heq <;> cases heq

theorem frames_lowerItems : (last : Value) → (items : List Tree) → loopVariablesIn items ⊆ V →
    Frames V (lowerItems last items)
  | _, [], _ => frames_pure _
  | last, t :: ts, h => by
    obtain ⟨ht, hts⟩ := List.append_subset.1 h
    exact frames_bind (frames_recovering last _ (frames_lower t ht)) fun v => frames_lowerItems v ts hts

theorem frames_lowerArgs (callee : String) : (index : Nat) → (args : List Tree) → loopVariablesIn args ⊆ V →
    Frames V (lowerArgs callee index args)
  | _, [], _ => frames_pure _
  | index, t :: ts, h => by
    obtain ⟨ht, hts⟩ := List.append_subset.1 h
    exact frames_bind ((composable_frames V).within _ ((composable_frames V).asFloat (frames_lower t ht))) fun _ =>
      frames_bind (frames_lowerArgs callee (index + 1) ts hts) fun _ => frames_pure _

theorem frames_lowerStatements : (index : Nat) → (last : Value) → (ts : List Tree) → loopVariablesIn ts ⊆ V →
    Frames V (lowerStatements index last ts)
  | _, _, [], _ => frames_pure _
  | index, _, t :: ts, h => by
    obtain ⟨ht, hts⟩ := List.append_subset.1 h
    exact frames_bind ((composable_frames V).within _ (frames_lower t ht)) fun v =>
      frames_lowerStatements (index + 1) v ts hts

theorem frames_lowerBindings : (bindings : List (String × Tree)) → loopVariablesInBindings bindings ⊆ V →
    {body : Lower Value} → Frames V body → Frames V (lowerBindings bindings body)
  | [], _, _, hbody => hbody
  | (name, init) :: rest, h, _, hbody => by
    obtain ⟨hinit, hrest⟩ := List.append_subset.1 h
    exact frames_withBinding name (frames_lower init hinit) (frames_lowerBindings rest hrest hbody)

end

end

end Monofloat
