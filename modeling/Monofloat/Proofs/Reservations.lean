import Monofloat.Proofs.Checked
import Monofloat.Proofs.ScopeFrame
import Monofloat.Proofs.WellFormed

/-!
# The slots that lowering reserves

An expression reserves a slot for each name that a block binds, and one for each loop whose variable is not a live
local where the loop begins. A `Plan` lists them in order, from the names that are live. The plan of an expression is
what lowering it comes to: the slots follow in the entry block, and a name is bound afterwards to the slot of the last
loop over it in the plan, or as before if there is none.
-/

namespace Monofloat

open Monofloat.Ir

/-! ## Plans -/

/-- What a slot is reserved for. -/
inductive Reservation where
  /-- A name that a block binds. -/
  | binding (name : String)
  /-- A loop over a variable that was not live. -/
  | loop (name : String)
deriving DecidableEq, Repr

/-- What is reserved in order, where certain names are live. No loop over a live name is among it. -/
@[ext]
structure Plan where
  of : (String → Bool) → List Reservation
  fresh : ∀ {live x}, live x = true → .loop x ∉ of live

namespace Plan

/-- The names that are live behind reservations: the variables of the loops are, too. -/
def after (live : String → Bool) (rs : List Reservation) : String → Bool := fun x => live x || rs.contains (.loop x)

def nothing : Plan where
  of _ := []
  fresh _ := List.not_mem_nil

def andThen (p q : Plan) : Plan where
  of live := p.of live ++ q.of (after live (p.of live))
  fresh {live x} hx := by
    rw [List.mem_append, not_or]
    exact ⟨p.fresh hx, q.fresh (by rw [after, hx, Bool.true_or])⟩

@[simp]
theorem nothing_andThen (p : Plan) : nothing.andThen p = p := by
  ext1
  funext live
  have hlive : after live [] = live := funext fun x => by simp [after]
  exact congrArg p.of hlive

@[simp]
theorem andThen_nothing (p : Plan) : p.andThen nothing = p := by
  ext1
  funext live
  exact List.append_nil _

/-- A name is bound for the time of a plan. -/
def bound (name : String) (p : Plan) : Plan where
  of live := .binding name :: p.of fun x => x = name || live x
  fresh {live x} hx := by
    rw [List.mem_cons, not_or]
    refine ⟨fun h => ?_, p.fresh (by rw [hx, Bool.or_true])⟩
    cases h

/-- A loop sets up its variable. It matters whether this is live before the initializer. -/
def loopVariable (name : String) (init : Plan) : Plan where
  of live := init.of live ++ if live name then [] else [.loop name]
  fresh {live x} hx := by
    rw [List.mem_append, not_or]
    refine ⟨init.fresh hx, ?_⟩
    split
    · exact List.not_mem_nil
    · next hname =>
      rw [List.mem_singleton]
      intro h
      cases h
      exact hname hx

theorem of_andThen (p q : Plan) (live : String → Bool) :
    (p.andThen q).of live = p.of live ++ q.of (after live (p.of live)) := rfl

theorem of_loopVariable (name : String) (init : Plan) (live : String → Bool) :
    (loopVariable name init).of live = init.of live ++ if live name then [] else [.loop name] := rfl

end Plan

mutual

/-- What lowering an expression reserves. -/
def Tree.reservations : Tree → Plan
  | .number _ | .var _ | .increment _ => .nothing
  | .unary _ t | .unaryLogical _ t | .assign _ t => t.reservations
  | .binary _ t u | .logical _ t u => t.reservations.andThen u.reservations
  | .call _ args => reservationsIn args
  | .conditional t u v => t.reservations.andThen (u.reservations.andThen v.reservations)
  | .block bindings body => reservationsInBindings bindings body.reservations
  | .statements first rest => first.reservations.andThen (reservationsIn rest)
  | .forLoop (.declare name init) cond step body =>
    (Plan.loopVariable name init.reservations).andThen
      (cond.reservations.andThen (body.reservations.andThen step.reservations))
  | .forLoop (.assign name init) cond step body =>
    (Plan.loopVariable name init.reservations).andThen
      (cond.reservations.andThen (body.reservations.andThen step.reservations))
  | _ => .nothing

def reservationsIn : List Tree → Plan
  | [] => .nothing
  | t :: ts => t.reservations.andThen (reservationsIn ts)

def reservationsInBindings : List (String × Tree) → Plan → Plan
  | [], body => body
  | (name, init) :: rest, body => init.reservations.andThen (.bound name (reservationsInBindings rest body))

end

/-! ## Slots of functions -/

/-- The slots that the entry block reserves, in the order of reservation. -/
def Ir.Function.reserved (f : Function) : List String := (f.attached.head?.elim [] Block.slots).reverse

theorem Ir.Function.Recorded.reserved_eq {f : Function} {e : Entries} (h : f.Recorded e) : f.reserved = e.slots := by
  unfold Function.reserved Function.attached
  cases hlayout : f.layout with
  | nil => rw [h.unopened hlayout]; rfl
  | cons id ids =>
    obtain ⟨b, hb⟩ := Option.isSome_iff_exists.1 (h.layout_valid (hlayout ▸ List.mem_cons_self))
    have hentry : f.entry? = some id := by rw [Function.entry?, hlayout, List.head?_cons]
    have hcode : (e.code id).filterMap Instruction.slot? = [] :=
      List.filterMap_eq_nil_iff.2 fun i hi => (h.placeable i hi).slot
    have hslots : (e.slots.reverse.map Instruction.alloca).filterMap Instruction.slot? = e.slots.reverse := by
      rw [List.filterMap_map]
      exact List.filterMap_some ..
    rw [List.filterMap_cons_some hb, List.head?_cons, Option.elim_some, Block.slots, h.holds hb, Entries.block,
      if_pos hentry, List.filterMap_append, hslots, hcode, List.append_nil, List.reverse_reverse]

namespace Lowering

/-- The names that are bound. -/
def live (s : Lowering) : String → Bool := fun x => (s.scope.lookup x).isSome

/-- The name of the function that is lowered. -/
def inside (s : Lowering) : Option String := s.builder.position.map InsertPoint.function

/-- The slots reserved so far in the function that is lowered. -/
def reserved (s : Lowering) : List String := (s.inside.bind s.module.function?).elim [] Function.reserved

end Lowering

/-! ## What is added -/

/-- From the one state to the other, slots have been reserved in the function that is lowered. -/
structure Reserved (slots : List String) (s s' : Lowering) : Prop where
  inside : s'.inside = s.inside
  ledger : ∀ {L}, s.module.Recorded L → ∃ L', s'.module.Recorded L' ∧
    ∀ name ∈ s.inside, (L' name).slots = (L name).slots ++ slots

/-- From the one state to the other, reservations have been made, and the variables of the loops among them are
bound. -/
structure Adds (made : List (Reservation × String)) (s s' : Lowering) : Prop extends
    Reserved (made.map Prod.snd) s s' where
  lookup : ∀ x, s'.scope.lookup x = (made.reverse.lookup (.loop x)).or (s.scope.lookup x)

theorem lookup_snoc_binding (made : List (Reservation × String)) (name slot x : String) :
    (made ++ [(Reservation.binding name, slot)]).reverse.lookup (Reservation.loop x) =
      made.reverse.lookup (Reservation.loop x) := by
  rw [List.reverse_append, List.reverse_singleton, List.singleton_append, List.lookup_cons]
  rfl

theorem lookup_snoc_loop (made : List (Reservation × String)) (name slot x : String) :
    (made ++ [(Reservation.loop name, slot)]).reverse.lookup (Reservation.loop x) =
      if x = name then some slot else made.reverse.lookup (Reservation.loop x) := by
  rw [List.reverse_append, List.reverse_singleton, List.singleton_append, List.lookup_cons]
  by_cases hname : x = name
  · simp [hname]
  · have hne : (Reservation.loop x == Reservation.loop name) = false := by simpa using hname
    rw [hne, if_neg hname]

namespace Reserved

variable {slots slots' : List String} {s s' s'' : Lowering}

theorem refl (s : Lowering) : Reserved [] s s := ⟨rfl, fun {L} hL => ⟨L, hL, fun _ _ => (List.append_nil _).symm⟩⟩

theorem trans (h : Reserved slots s s') (h' : Reserved slots' s' s'') : Reserved (slots ++ slots') s s'' where
  inside := h'.inside.trans h.inside
  ledger hL := by
    obtain ⟨L', hL', hslots⟩ := h.ledger hL
    obtain ⟨L'', hL'', hslots'⟩ := h'.ledger hL'
    refine ⟨L'', hL'', fun name hname => ?_⟩
    rw [hslots' name (h.inside ▸ hname), hslots name hname, List.append_assoc]

/-- The scope does not matter. -/
theorem of_scope (h : Reserved slots s s') (scope scope' : Scope) :
    Reserved slots { s with scope := scope } { s' with scope := scope' } := ⟨h.inside, h.ledger⟩

end Reserved

namespace Adds

variable {made made' : List (Reservation × String)} {s s' s'' : Lowering}

theorem refl (s : Lowering) : Adds [] s s where
  toReserved := .refl s
  lookup _ := rfl

theorem trans (h : Adds made s s') (h' : Adds made' s' s'') : Adds (made ++ made') s s'' where
  toReserved := by
    rw [List.map_append]
    exact h.toReserved.trans h'.toReserved
  lookup x := by rw [h'.lookup, h.lookup, List.reverse_append, List.lookup_append, Option.or_assoc]

theorem live_eq (h : Adds made s s') : s'.live = Plan.after s.live (made.map Prod.fst) := by
  funext x
  have hmade : (made.reverse.lookup (.loop x)).isSome = (made.map Prod.fst).contains (.loop x) := by
    rw [Bool.eq_iff_iff, List.lookup_isSome_iff]
    simp
  rw [Lowering.live, h.lookup, Option.isSome_or, hmade, Bool.or_comm]
  rfl

/-- Additions according to one plan and then to another. -/
theorem andThen {p q : Plan} (h : Adds made s s') (hp : made.map Prod.fst = p.of s.live) (h' : Adds made' s' s'')
    (hq : made'.map Prod.fst = q.of s'.live) :
    ∃ made, made.map Prod.fst = (p.andThen q).of s.live ∧ Adds made s s'' := by
  refine ⟨made ++ made', ?_, h.trans h'⟩
  rw [List.map_append, hp, hq, h.live_eq, hp]
  rfl

/-- A name that is live has no loop. -/
theorem lookup_eq_none {p : Plan} (hmade : made.map Prod.fst = p.of s.live) {x : String} (hx : s.live x = true) :
    made.reverse.lookup (.loop x) = none := by
  rw [List.lookup_eq_none_iff]
  intro r hr
  have hfresh := p.fresh hx
  rw [← hmade] at hfresh
  rw [bne_iff_ne]
  exact fun hloop => hfresh (List.mem_map.2 ⟨r, List.mem_reverse.1 hr, hloop.symm⟩)

end Adds

/-! ## Steps and their plans -/

/-- Where the step succeeds, what it adds is according to the plan. -/
def Reserves (p : Plan) {α : Type} (x : Lower α) : Prop :=
  ∀ s a s', x s = .ok a s' → ∃ made, made.map Prod.fst = p.of s.live ∧ Adds made s s'

namespace Lower

variable {α β : Type} {p q r : Plan} {left right : Lower Value}

theorem reserves_of_adds {x : Lower α} (h : ∀ s a s', x s = .ok a s' → Adds [] s s') : Reserves .nothing x :=
  fun s a s' hx => ⟨[], rfl, h s a s' hx⟩

theorem reserves_pure (a : α) : Reserves .nothing (pure a : Lower α) := reserves_of_adds fun _ _ _ h => by
  obtain ⟨-, rfl⟩ := pure_eq_ok h
  exact .refl _

theorem reserves_fail (p : Plan) (cause : LowerCause) : Reserves p (fail cause : Lower α) :=
  fun _ _ _ h => by cases h

theorem reserves_bind {x : Lower α} {f : α → Lower β} (hx : Reserves p x) (hf : ∀ a, Reserves q (f a)) :
    Reserves (p.andThen q) (x >>= f) := by
  intro s b s' h
  obtain ⟨a, s₁, hxs, hfs⟩ := bind_eq_ok h
  obtain ⟨made, hmade, hadds⟩ := hx s a s₁ hxs
  obtain ⟨made', hmade', hadds'⟩ := hf a s₁ b s' hfs
  exact hadds.andThen hmade hadds' hmade'

/-- The first step reserves nothing. -/
theorem reserves_quiet_bind {x : Lower α} {f : α → Lower β} (hx : Reserves .nothing x) (hf : ∀ a, Reserves p (f a)) :
    Reserves p (x >>= f) := by
  rw [← p.nothing_andThen]
  exact reserves_bind hx hf

/-- The second step reserves nothing. -/
theorem reserves_bind_quiet {x : Lower α} {f : α → Lower β} (hx : Reserves p x) (hf : ∀ a, Reserves .nothing (f a)) :
    Reserves p (x >>= f) := by
  rw [← p.andThen_nothing]
  exact reserves_bind hx hf

theorem reserves_within (context : LowerContext) {x : Lower α} (h : Reserves p x) : Reserves p (within context x) := by
  intro s a s' hx
  refine h s a s' ?_
  rw [within] at hx
  split at hx
  · next ho => rw [ho, hx]
  · cases hx

/-! ## Operations -/

theorem slots_record {op : Operation α} (h : op.isCode = true) (b : Builder) (a : α) (L : Ledger) (name : String) :
    (op.record b a L name).slots = (L name).slots := by
  have hplace : ∀ i, (b.place i L name).slots = (L name).slots := fun i => by
    unfold Builder.place
    cases b.position with
    | none => rfl
    | some p =>
      by_cases hname : name = p.function
      · subst hname
        rw [Option.elim_some, Ledger.set_self]
        rfl
      · rw [Option.elim_some, Ledger.set_of_ne L hname]
  have hrecord : op.record b a L = (op.instruction? b.label a).elim L fun i => b.place i L := by
    cases op <;> first | rfl | cases h
  rw [hrecord]
  cases op.instruction? b.label a with
  | none => rfl
  | some i => exact hplace i

/-- An operation on the function that is lowered reserves the slots by which it changes the ledger. -/
theorem reserved_build (op : Operation α) (hop : op.isInner = true) {s s' : Lowering} {a : α} {slots : List String}
    (hslots : ∀ L, ∀ name ∈ s.inside, (op.record s.builder a L name).slots = (L name).slots ++ slots)
    (h : build (op.perform .unbounded) s = .ok a s') : Reserved slots s s' ∧ s'.scope = s.scope := by
  rw [build] at h
  split at h
  · next b ho =>
    cases h
    refine ⟨⟨?_, fun {L} hL => ?_⟩, rfl⟩
    · have hkeeps := Build.keeps_perform (K := .positionOnly) (w := s.inside) op hop s.builder ⟨rfl, trivial⟩
      rw [ho] at hkeeps
      exact hkeeps.1.1
    · have hrecords := Build.recordsAt_perform .unbounded op s.builder L hL
      rw [ho] at hrecords
      exact ⟨_, hrecords, hslots L⟩
  · cases h

theorem reserved_code (op : Operation α) (hop : op.isCode = true) {s s' : Lowering} {a : α}
    (h : build (op.perform .unbounded) s = .ok a s') : Reserved [] s s' ∧ s'.scope = s.scope :=
  reserved_build op (Operation.isInner_of_isCode hop) (fun L name _ => by rw [slots_record hop, List.append_nil]) h

theorem reserves_operation (op : Operation α) (hop : op.isCode = true) :
    Reserves .nothing (build (op.perform .unbounded)) :=
  reserves_of_adds fun s a s' h => by
    obtain ⟨hreserved, hscope⟩ := reserved_code op hop h
    exact ⟨hreserved, fun x => by rw [hscope]; rfl⟩

theorem reserved_alloca {name slot : String} {s s' : Lowering}
    (h : build (.alloca name) s = .ok slot s') : Reserved [slot] s s' ∧ s'.scope = s.scope := by
  refine reserved_build (.alloca name) rfl (fun L name hname => ?_) h
  obtain ⟨p, hp, rfl⟩ := Option.map_eq_some_iff.1 hname
  rw [Operation.record, hp, Option.elim_some, Ledger.set_self]
  rfl

theorem reserves_call (callee : String) (count : Nat) {args : Lower (List Value)} (h : Reserves p args) :
    Reserves p (call callee count args) := by
  refine reserves_quiet_bind (reserves_of_adds fun s a s' hx => ?_) fun f? => ?_
  · cases hx
    exact .refl _
  · cases f? with
    | none => exact reserves_fail _ _
    | some f =>
      show Reserves p (if f.arity ≠ count then _ else _)
      split
      · exact reserves_fail _ _
      · exact reserves_bind_quiet h fun vs => reserves_operation (.call callee vs) rfl

theorem composable_quiet : Composable fun _ x => Reserves .nothing x where
  pure := reserves_pure
  fail := reserves_fail .nothing
  bind := reserves_quiet_bind
  within context hx := reserves_within context hx
  local? name := reserves_of_adds fun s a s' hx => by
    cases hx
    exact .refl _
  operation := reserves_operation
  call callee count _ hargs := reserves_call callee count hargs

/-! ## Operators -/

theorem reserves_asFloat (h : Reserves p left) : Reserves p (asFloat left) :=
  reserves_bind_quiet h composable_quiet.floatValue

theorem reserves_asBool (h : Reserves p left) : Reserves p (asBool left) :=
  reserves_bind_quiet h composable_quiet.boolValue

theorem reserves_unary (op : Operator) (h : Reserves p left) : Reserves p (unary op left) := by
  unfold unary
  split
  · exact reserves_bind_quiet (reserves_asFloat h) fun v => reserves_operation (.neg v) rfl
  · exact reserves_fail _ _

theorem reserves_binary (op : Operator) (hl : Reserves p left) (hr : Reserves q right) :
    Reserves (p.andThen q) (binary op left right) := by
  refine reserves_bind (reserves_asFloat hl) fun l => reserves_bind_quiet (reserves_asFloat hr) fun r => ?_
  cases op with
  | add => exact reserves_operation (.binary .add l r) rfl
  | sub => exact reserves_operation (.binary .sub l r) rfl
  | mul => exact reserves_operation (.binary .mul l r) rfl
  | div => exact reserves_operation (.binary .div l r) rfl
  | less => exact reserves_operation (.compare .ult l r) rfl
  | equal => exact reserves_operation (.compare .ueq l r) rfl

theorem reserves_unaryLogical (op : Connective) (h : Reserves p left) : Reserves p (unaryLogical op left) := by
  cases op with
  | not => exact reserves_bind_quiet (reserves_asBool h) fun v => reserves_operation (.not v) rfl
  | _ => exact reserves_fail _ _

theorem reserves_junction (op : LogicalOp) (hl : Reserves p left) (hr : Reserves q right) :
    Reserves (p.andThen q) (junction op left right) :=
  reserves_bind (reserves_asBool hl) fun l => reserves_bind_quiet (reserves_asBool hr) fun r =>
    reserves_operation (.logical op l r) rfl

theorem reserves_logical (op : Connective) (hl : Reserves p left) (hr : Reserves q right) :
    Reserves (p.andThen q) (logical op left right) := by
  cases op with
  | not => exact reserves_fail _ _
  | _ => exact reserves_junction _ hl hr

theorem reserves_assign (name : String) (h : Reserves p left) : Reserves p (assign name left) :=
  reserves_bind_quiet (reserves_within _ (reserves_asFloat h)) fun v =>
    reserves_quiet_bind (composable_quiet.resolve name) fun address =>
      reserves_quiet_bind (reserves_operation (.store v address) rfl) fun _ => reserves_pure _

/-! ## Control flow -/

theorem reserves_conditional {cond thenArm elseArm : Lower Value} (hc : Reserves p cond) (ht : Reserves q thenArm)
    (he : Reserves r elseArm) : Reserves (p.andThen (q.andThen r)) (conditional cond thenArm elseArm) :=
  reserves_bind (reserves_within _ (reserves_asBool hc)) fun c =>
    reserves_quiet_bind (reserves_operation (.appendBlock "trueexp") rfl) fun thenBlock =>
    reserves_quiet_bind (reserves_operation (.createBlock "falseexp") rfl) fun elseBlock =>
    reserves_quiet_bind (reserves_operation (.createBlock "endcond") rfl) fun endBlock =>
    reserves_quiet_bind (reserves_operation (.condBr c thenBlock elseBlock) rfl) fun _ =>
    reserves_quiet_bind (reserves_operation (.positionAtEnd thenBlock) rfl) fun _ =>
    reserves_bind (reserves_within _ (reserves_asFloat ht)) fun thenValue =>
    reserves_quiet_bind (reserves_operation .insertBlock rfl) fun thenEnd =>
    reserves_quiet_bind (reserves_operation (.br endBlock) rfl) fun _ =>
    reserves_quiet_bind (reserves_operation (.attachBlock elseBlock) rfl) fun _ =>
    reserves_quiet_bind (reserves_operation (.positionAtEnd elseBlock) rfl) fun _ =>
    reserves_bind_quiet (reserves_within _ (reserves_asFloat he)) fun elseValue =>
    reserves_quiet_bind (reserves_operation .insertBlock rfl) fun elseEnd =>
    reserves_quiet_bind (reserves_operation (.br endBlock) rfl) fun _ =>
    reserves_quiet_bind (reserves_operation (.attachBlock endBlock) rfl) fun _ =>
    reserves_quiet_bind (reserves_operation (.positionAtEnd endBlock) rfl) fun _ =>
    reserves_operation (.phi .f64 [(thenValue, thenEnd), (elseValue, elseEnd)]) rfl

theorem reserves_loopBlocks {cond step body : Lower Value} (hc : Reserves p cond) (hb : Reserves q body)
    (hs : Reserves r step) : Reserves (p.andThen (q.andThen r)) (loopBlocks cond step body) := by
  have hdiscard : ∀ {p : Plan} {x : Lower Value}, Reserves p x → Reserves p (discard x) := fun hx => by
    rw [discard_eq_bind]
    exact reserves_bind_quiet hx fun _ => reserves_pure _
  exact reserves_quiet_bind (reserves_operation (.appendBlock "cond") rfl) fun condBlock =>
    reserves_quiet_bind (reserves_operation (.createBlock "loop") rfl) fun loopBlock =>
    reserves_quiet_bind (reserves_operation (.createBlock "merge") rfl) fun mergeBlock =>
    reserves_quiet_bind (reserves_operation (.br condBlock) rfl) fun _ =>
    reserves_quiet_bind (reserves_operation (.positionAtEnd condBlock) rfl) fun _ =>
    reserves_bind (reserves_within _ (reserves_asBool hc)) fun c =>
    reserves_quiet_bind (reserves_operation (.attachBlock loopBlock) rfl) fun _ =>
    reserves_quiet_bind (reserves_operation (.condBr c loopBlock mergeBlock) rfl) fun _ =>
    reserves_quiet_bind (reserves_operation (.positionAtEnd loopBlock) rfl) fun _ =>
    reserves_bind (hdiscard (reserves_within _ hb)) fun _ =>
    reserves_bind_quiet (hdiscard (reserves_within _ hs)) fun _ =>
    reserves_quiet_bind (reserves_operation (.br condBlock) rfl) fun _ =>
    reserves_quiet_bind (reserves_operation (.attachBlock mergeBlock) rfl) fun _ =>
    reserves_quiet_bind (reserves_operation (.positionAtEnd mergeBlock) rfl) fun _ => reserves_pure _

/-! ## Constructs that reserve -/

/-- An allocation reserves its slot behind what the initializer adds. -/
theorem exists_adds_allocate {name slot : String} {init : Lower Value} (hinit : Reserves p init) {s s' : Lowering}
    (h : allocate name init s = .ok slot s') : ∃ made s₁, made.map Prod.fst = p.of s.live ∧ Adds made s s₁ ∧
      Reserved [slot] s₁ s' ∧ s'.scope = s₁.scope := by
  obtain ⟨v, s₁, hv, h⟩ := bind_eq_ok h
  obtain ⟨slot', s₂, halloca, h⟩ := bind_eq_ok h
  obtain ⟨u, s₃, hstore, h⟩ := bind_eq_ok h
  obtain ⟨rfl, rfl⟩ := pure_eq_ok h
  obtain ⟨made, hmade, hadds⟩ := reserves_within _ (reserves_asFloat hinit) s v s₁ hv
  obtain ⟨hreserved, hscope⟩ := reserved_alloca halloca
  obtain ⟨hstored, hscope'⟩ := reserved_code (.store v (.slot slot)) rfl hstore
  exact ⟨made, s₁, hmade, hadds, by simpa using hreserved.trans hstored, hscope'.trans hscope⟩

theorem reserves_withBinding (name : String) {init : Lower Value} (hinit : Reserves p init) {x : Lower α}
    (hx : Reserves q x) : Reserves (p.andThen (.bound name q)) (withBinding name init x) := by
  intro s a s' h
  obtain ⟨slot, s₂, hallocate, h⟩ := bind_eq_ok h
  obtain ⟨made, s₁, hmade, hadds, hreserved, hscope⟩ := exists_adds_allocate hinit hallocate
  have hlocal : local? name s₂ = .ok (s₂.scope.lookup name) s₂ := rfl
  have hmodify : modifyScope (·.bind name slot) s₂ = .ok () { s₂ with scope := s₂.scope.bind name slot } := rfl
  rw [bind_of_ok hlocal, bind_of_ok hmodify, finallyScope] at h
  split at h
  · next b s₃ ho =>
    cases h
    obtain ⟨made', hmade', hadds'⟩ := hx _ _ _ ho
    have hlive : Lowering.live { s₂ with scope := s₂.scope.bind name slot } =
        fun x => x = name || Plan.after s.live (p.of s.live) x := by
      funext x
      rw [← hmade, ← hadds.live_eq, Lowering.live, Lowering.live, Scope.lookup_bind, hscope]
      split
      · next hname => simp [hname]
      · next hname => simp [hname]
    refine ⟨made ++ [(.binding name, slot)] ++ made', ?_, ?_, fun x => ?_⟩
    · rw [List.map_append, List.map_append, hmade, hmade', hlive, List.append_assoc]
      rfl
    · rw [List.map_append, List.map_append]
      exact (hadds.toReserved.trans hreserved).trans (hadds'.of_scope _ _)
    · rw [Scope.lookup_restore, List.reverse_append, List.lookup_append, lookup_snoc_binding, Option.or_assoc,
        ← hadds.lookup, hscope]
      split
      · next hname =>
        have hbound : made'.reverse.lookup (.loop x) = none :=
          Adds.lookup_eq_none hmade' (by simp [Lowering.live, hname])
        rw [hbound, hname]
        rfl
      · next hname => rw [hadds'.lookup, Scope.lookup_bind, if_neg hname, hscope]
  · cases h

/-- A loop variable that is not live gets a slot behind what the initializer adds. -/
theorem exists_adds_bindLoopVariable {name : String} {init : Lower Value} (hinit : Reserves p init) {s s' : Lowering}
    {u : Unit} (hname : s.live name = false) (h : bindLoopVariable name init s = .ok u s') :
    ∃ made, made.map Prod.fst = (Plan.loopVariable name p).of s.live ∧ Adds made s s' := by
  obtain ⟨slot, s₂, hallocate, h⟩ := bind_eq_ok h
  obtain ⟨made, s₁, hmade, hadds, hreserved, hscope⟩ := exists_adds_allocate hinit hallocate
  cases h
  refine ⟨made ++ [(.loop name, slot)], ?_, ?_, fun x => ?_⟩
  · rw [List.map_append, hmade, Plan.of_loopVariable, hname]
    rfl
  · rw [List.map_append]
    exact (hadds.toReserved.trans hreserved).of_scope _ _
  · rw [lookup_snoc_loop, Scope.lookup_bind, hscope, hadds.lookup]
    split <;> rfl

/-- The variable of a loop that is live is the loop variable. -/
theorem reserves_reusingHeader {header : LoopHeader (Lower Value)} {name slot : String} {init : Lower Value}
    (hheader : header = .declare name init ∨ header = .assign name init) (hinit : Reserves p init) :
    Reserves p (loopHeader header (some slot)) := by
  obtain rfl | rfl := hheader
  · exact reserves_bind_quiet (reserves_within _ (reserves_asFloat hinit)) fun v =>
      reserves_operation (.store v (.slot slot)) rfl
  · show Reserves p (discard (assign name init))
    rw [discard_eq_bind]
    exact reserves_bind_quiet (reserves_assign name hinit) fun _ => reserves_pure _

theorem reserves_forLoop {header : LoopHeader (Lower Value)} {name : String} {init cond step body : Lower Value}
    (hheader : header = .declare name init ∨ header = .assign name init) {p₁ p₂ p₃ : Plan} (hinit : Reserves p init)
    (hc : Reserves p₁ cond) (hb : Reserves p₂ body) (hs : Reserves p₃ step) :
    Reserves ((Plan.loopVariable name p).andThen (p₁.andThen (p₂.andThen p₃))) (forLoop header cond step body) := by
  intro s v s' h
  have hname : header.name = name := by obtain rfl | rfl := hheader <;> rfl
  have hlocal : local? header.name s = .ok (s.scope.lookup name) s := by rw [hname]; rfl
  rw [forLoop, bind_of_ok hlocal] at h
  have hblocks := reserves_loopBlocks hc hb hs
  cases hreused : s.scope.lookup name with
  | some slot =>
    have hlive : s.live name = true := by rw [Lowering.live, hreused, Option.isSome_some]
    rw [hreused, hname] at h
    dsimp only at h
    rw [finallyScope] at h
    split at h
    · next v' s₁ ho =>
      cases h
      obtain ⟨made, hmade, hadds⟩ := reserves_bind (reserves_reusingHeader hheader hinit) (fun _ => hblocks) _ _ _ ho
      refine ⟨made, ?_, hadds.of_scope _ _, fun x => ?_⟩
      · have hreuse : (Plan.loopVariable name p).of s.live = p.of s.live := by
          rw [Plan.of_loopVariable, if_pos hlive, List.append_nil]
        rw [hmade, Plan.of_andThen p, Plan.of_andThen (Plan.loopVariable name p), hreuse]
      · rw [Scope.lookup_bind]
        split
        · next hx => rw [hx, Adds.lookup_eq_none hmade hlive, hreused, Option.none_or]
        · exact hadds.lookup x
    · cases h
  | none =>
    have hlive : s.live name = false := by rw [Lowering.live, hreused, Option.isSome_none]
    rw [hreused] at h
    obtain ⟨u, s₁, hset, h⟩ := bind_eq_ok h
    have hbind : bindLoopVariable name init s = .ok u s₁ := by obtain rfl | rfl := hheader <;> exact hset
    obtain ⟨made, hmade, hadds⟩ := exists_adds_bindLoopVariable hinit hlive hbind
    obtain ⟨made', hmade', hadds'⟩ := hblocks s₁ v s' h
    exact hadds.andThen hmade hadds' hmade'

end Lower

/-! ## Expressions -/

section

open Lower

mutual

/-- Lowering an expression reserves what its plan says. -/
theorem reserves_lower : (t : Tree) → t.isExpression = true → Reserves t.reservations (lower t)
  | .number _, _ => reserves_pure _
  | .var name, _ => composable_quiet.variableRead name
  | .unary op t, h => reserves_unary op (reserves_lower t (Bool.and_eq_true_iff.1 h).2)
  | .binary op t u, h => by
    obtain ⟨ht, hu⟩ := Bool.and_eq_true_iff.1 h
    exact reserves_binary op (reserves_lower t ht) (reserves_lower u hu)
  | .unaryLogical op t, h => reserves_unaryLogical op (reserves_lower t (Bool.and_eq_true_iff.1 h).2)
  | .logical op t u, h => by
    obtain ⟨ht, hu⟩ := Bool.and_eq_true_iff.1 (Bool.and_eq_true_iff.1 h).2
    exact reserves_logical op (reserves_lower t ht) (reserves_lower u hu)
  | .call callee args, h => reserves_call callee args.length (reserves_lowerArgs callee 1 args h)
  | .conditional t u v, h => by
    obtain ⟨htu, hv⟩ := Bool.and_eq_true_iff.1 h
    obtain ⟨ht, hu⟩ := Bool.and_eq_true_iff.1 htu
    exact reserves_conditional (reserves_lower t ht) (reserves_lower u hu) (reserves_lower v hv)
  | .block bindings body, h => by
    obtain ⟨hbindings, hbody⟩ := Bool.and_eq_true_iff.1 h
    exact reserves_lowerBindings bindings hbindings (reserves_lower body hbody)
  | .statements first rest, h => by
    obtain ⟨hfirst, hrest⟩ := Bool.and_eq_true_iff.1 h
    exact reserves_bind (reserves_within _ (reserves_lower first hfirst)) fun v =>
      reserves_lowerStatements 2 v rest hrest
  | .assign name t, h => reserves_assign name (reserves_lower t h)
  | .increment name, _ => composable_quiet.increment name
  | .forLoop (.declare name init) cond step body, h | .forLoop (.assign name init) cond step body, h => by
    obtain ⟨h₃, hbody⟩ := Bool.and_eq_true_iff.1 h
    obtain ⟨h₂, hstep⟩ := Bool.and_eq_true_iff.1 h₃
    obtain ⟨hinit, hcond⟩ := Bool.and_eq_true_iff.1 h₂
    exact reserves_forLoop (by simp) (reserves_lower init hinit) (reserves_lower cond hcond)
      (reserves_lower body hbody) (reserves_lower step hstep)

theorem reserves_lowerArgs (callee : String) : (index : Nat) → (args : List Tree) → areExpressions args = true →
    Reserves (reservationsIn args) (lowerArgs callee index args)
  | _, [], _ => reserves_pure _
  | index, t :: ts, h => by
    obtain ⟨ht, hts⟩ := Bool.and_eq_true_iff.1 h
    exact reserves_bind (reserves_within _ (reserves_asFloat (reserves_lower t ht))) fun _ =>
      reserves_bind_quiet (reserves_lowerArgs callee (index + 1) ts hts) fun _ => reserves_pure _

theorem reserves_lowerStatements : (index : Nat) → (last : Value) → (ts : List Tree) → areExpressions ts = true →
    Reserves (reservationsIn ts) (lowerStatements index last ts)
  | _, _, [], _ => reserves_pure _
  | index, _, t :: ts, h => by
    obtain ⟨ht, hts⟩ := Bool.and_eq_true_iff.1 h
    exact reserves_bind (reserves_within _ (reserves_lower t ht)) fun v =>
      reserves_lowerStatements (index + 1) v ts hts

theorem reserves_lowerBindings : (bindings : List (String × Tree)) → bindingsExpressions bindings = true →
    {body : Lower Value} → {p : Plan} → Reserves p body →
    Reserves (reservationsInBindings bindings p) (lowerBindings bindings body)
  | [], _, _, _, hbody => hbody
  | (name, init) :: rest, h, _, _, hbody => by
    obtain ⟨hinit, hrest⟩ := Bool.and_eq_true_iff.1 h
    exact reserves_withBinding name (reserves_lower init hinit) (reserves_lowerBindings rest hrest hbody)

end

end

/-! ## The scope and the slots afterwards -/

/-- The function that is lowered stays in the module. -/
def Invariant.hosted : Invariant where
  module
    | none, _ => True
    | some name, m => (m.function? name).isSome = true
  diagnostics _ := True
  modify h hg := by
    show Option.isSome _ = true
    rwa [Module.isSome_function?_modifyFunction hg]
  addFunction {w m name params} h _ := by
    cases w with
    | none => trivial
    | some x =>
      obtain ⟨f, hf⟩ := Option.isSome_iff_exists.1 h
      show Option.isSome _ = true
      rw [Module.function?_addFunction, hf]
      rfl
  addGlobal {w m name} h _ := by
    cases w <;> exact h
  report _ _ := trivial

theorem Lowering.reserved_eq {s : Lowering} {L : Ledger} (hL : s.module.Recorded L) {name : String} {f : Function}
    (hinside : s.inside = some name) (hf : s.module.function? name = some f) : s.reserved = (L name).slots := by
  have hname : f.name = name := by simpa using List.find?_some hf
  rw [Lowering.reserved, hinside, Option.bind_some, hf, Option.elim_some,
    (hL.functions f (List.mem_of_find?_eq_some hf)).reserved_eq, hname]

/-- Lowering a tree inside a function, whether it succeeds or fails, leaves every bound name at its slot, and binds no
other names than variables of loops in the tree. If the tree is an expression and lowering succeeds, the names that
have been bound are the variables of those loops that were not live where the loop began, each at the slot of the last
such loop. The slots are those that have been added to the function's entry block, one for each reservation in order. -/
theorem lowering_frames_scope (t : Tree) (s : Lowering) (hs : s.builder.position.isSome = true) :
    (∀ x slot, s.scope.lookup x = some slot → ((lower t).final s).scope.lookup x = some slot) ∧
    (∀ x, s.scope.lookup x = none → (((lower t).final s).scope.lookup x).isSome = true → x ∈ t.loopVariables) ∧
    ∀ v s', t.isExpression = true → lower t s = .ok v s' →
      (∀ x, s.scope.lookup x = none →
        ((s'.scope.lookup x).isSome = true ↔ .loop x ∈ t.reservations.of s.live)) ∧
      ∃ made : List (Reservation × String), made.map Prod.fst = t.reservations.of s.live ∧
        (∀ x, s'.scope.lookup x = (made.reverse.lookup (.loop x)).or (s.scope.lookup x)) ∧
        (s.module.Built → (s.inside.bind s.module.function?).isSome = true →
          s'.reserved = s.reserved ++ made.map Prod.snd) := by
  have hframed := frames_lower t (List.Subset.refl _) s hs
  refine ⟨fun x slot => hframed.bound, fun x => hframed.fresh, fun v s' ht h => ?_⟩
  obtain ⟨made, hmade, hadds⟩ := reserves_lower t ht s v s' h
  refine ⟨fun x hx => ?_, made, hmade, hadds.lookup, fun hbuilt hhost => ?_⟩
  · have hlive : s'.live x = _ := congrFun hadds.live_eq x
    rw [Lowering.live] at hlive
    rw [hlive, hmade, Plan.after, Lowering.live, hx, Option.isSome_none, Bool.false_or, List.contains_iff_mem]
  · obtain ⟨f, hf⟩ := Option.isSome_iff_exists.1 hhost
    obtain ⟨name, hinside, hf⟩ := Option.bind_eq_some_iff.1 hf
    obtain ⟨numbering, moduleName, ops, hmodule⟩ := hbuilt
    have hL := hmodule ▸ recorded_performAll numbering ops (Module.recorded_empty moduleName fun _ => {})
    obtain ⟨L', hL', hslots⟩ := hadds.ledger hL
    have hhosted : Invariant.hosted.module (some name) s.module := by
      show Option.isSome _ = true
      rw [hf, Option.isSome_some]
    have hkeeps := keeps_lower_inside (K := .hosted) name t s ⟨⟨hinside, hhosted⟩, trivial⟩
    rw [h] at hkeeps
    obtain ⟨f', hf'⟩ := Option.isSome_iff_exists.1 hkeeps.1.1.2
    rw [Lowering.reserved_eq hL' (hadds.inside.trans hinside) hf', Lowering.reserved_eq hL hinside hf,
      hslots name hinside]

/-- A loop whose initializer is a loop over the same variable, and whose body binds it again. -/
theorem lowering_frames_scope_nested :
    let inner : Tree := .forLoop (.declare "i" (.number 1)) (.number 0) (.number 0) (.number 2)
    let t : Tree := .forLoop (.assign "i" inner) (.number 0) (.number 0) (.block [("i", .number 3)] (.var "i"))
    let f : Function :=
      { name := "f", params := [], blocks := [⟨"entry", []⟩], layout := [⟨0⟩], names := { taken := ["entry"] } }
    let s : Lowering := { builder := { module := { name := "m", functions := [f] }, position := some ⟨"f", ⟨0⟩⟩ } }
    s.builder.position.isSome = true ∧ t.isExpression = true ∧ s.module.Built ∧
      ∃ v s' a b c, lower t s = .ok v s' ∧ s'.reserved = [a, b, c] ∧ s'.scope.lookup "i" = some b := by
  intro inner t f s
  have hposition : s.builder.position.isSome = true := rfl
  have hbuilt : s.module.Built := ⟨.words, "m", [⟨_, .declareFunction "f" []⟩, ⟨_, .appendBlockIn "f" "entry"⟩], rfl⟩
  let p : Site := .opening (.start { name := "m" }) ⟨"f", [], {}⟩
  have hgood : p.Good [] [] := Site.opening_good rfl
  have hflat : t.isFlat = true := rfl
  have hoffences : (scoping t).offences p.names = [] := by decide +kernel
  have hyields := refines_lower t hflat hgood
  rw [hoffences] at hyields
  obtain ⟨v, q, hok, -⟩ := hyields
  have h : lower t s = .ok v q.state := hok
  obtain ⟨-, made, hmade, hlookup, hreserved⟩ := (lowering_frames_scope t s hposition).2.2 v q.state rfl h
  have hplan : t.reservations.of s.live = [.loop "i", .loop "i", .binding "i"] := by decide
  rw [hplan] at hmade
  obtain ⟨⟨_, a⟩, made₁, rfl, rfl, hmade₁⟩ := List.map_eq_cons_iff.1 hmade
  obtain ⟨⟨_, b⟩, made₂, rfl, rfl, hmade₂⟩ := List.map_eq_cons_iff.1 hmade₁
  obtain ⟨⟨_, c⟩, made₃, rfl, rfl, hmade₃⟩ := List.map_eq_cons_iff.1 hmade₂
  obtain rfl := List.map_eq_nil_iff.1 hmade₃
  exact ⟨hposition, rfl, hbuilt, v, q.state, a, b, c, h, hreserved hbuilt rfl, hlookup "i"⟩

end Monofloat
