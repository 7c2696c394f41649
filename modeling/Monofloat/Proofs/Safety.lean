import Monofloat.Proofs.Checked
import Monofloat.Proofs.Globals

/-!
# What checks are good for

In a module that was built and has no defect, the temporaries of every activation have the types that they are
registered with, and every activation is in the middle of an attached block. Each step keeps that, so a call comes to
a value or to one of few faults: something has not been written, a function is not provided, or a limit is reached.
The globals that a machine holds are those of its module all the time.
-/

namespace Monofloat

open Monofloat.Ir Monofloat.Ir.Function Monofloat.Machine

namespace Machine

/-! ## Faults that are left -/

/-- The faults that can occur in a module without a defect. A phi can have no value only where its function begins. -/
def Fault.Residual (m : Module) : Fault → Prop
  | unwrittenOperand _ | unwrittenCell _ | unresolvedExternal _ | stepLimit _ | stackOverflow _ => True
  | phiWithoutEdge block source => source = "" ∧ ∃ f ∈ m.functions, f.attached.head?.map Block.label = some block
  | unknownFunction _ | arity .. | missingBlock .. | fellThrough _ | wrongType .. | notVariable => False

/-- The computation has a result with a property, or a fault that is left. -/
def Safe {α : Type} (m : Module) (x : Except Fault α) (P : α → Prop) : Prop :=
  match x with
  | .ok a => P a
  | .error fault => fault.Residual m

theorem Safe.bind {α β : Type} {m : Module} {x : Except Fault α} {f : α → Except Fault β} {P : α → Prop} {Q : β → Prop}
    (h : Safe m x P) (hf : ∀ a, P a → Safe m (f a) Q) : Safe m (x >>= f) Q := by
  cases x with
  | ok a => exact hf a h
  | error fault => exact h

/-! ## Stores -/

/-- The store holds the globals of the module and no others. -/
def Store.Holds (m : Module) (s : Store) : Prop := s.globals.map Prod.fst = m.globals.map Global.name

/-- The address is one that a variable of the module can have. -/
def Address.IsVariable (m : Module) : Address → Prop
  | stack _ => True
  | global name => (m.global? name).isSome
  | function _ => False

namespace Store

variable {m : Module} {s : Store}

theorem map_fst_setEntry (name : String) (x : Float) (entries : List (String × Float)) :
    (setEntry name x entries).map Prod.fst =
      if name ∈ entries.map Prod.fst then entries.map Prod.fst else entries.map Prod.fst ++ [name] := by
  induction entries with
  | nil => rfl
  | cons entry rest ih =>
    rw [setEntry]
    by_cases h : entry.1 = name
    · simp [h]
    · rw [if_neg h, List.map_cons, List.map_cons, ih]
      by_cases hrest : name ∈ rest.map Prod.fst
      · rw [if_pos hrest, if_pos (List.mem_cons_of_mem _ hrest)]
      · rw [if_neg hrest, if_neg (by simpa [Ne.symm h] using hrest), List.cons_append]

theorem safe_read (s : Store) (a : Address) : Safe m (s.read a) fun _ => True := by
  unfold read
  dsimp only
  split <;> trivial

theorem Holds.safe_write (h : s.Holds m) {a : Address} (ha : a.IsVariable m) (x : Float) :
    Safe m (s.write a x) fun s' => s'.Holds m := by
  cases a with
  | stack index =>
    rw [write]
    split
    · exact h
    · trivial
  | global name =>
    obtain ⟨g, hg⟩ := Option.isSome_iff_exists.1 ha
    have hmem : name ∈ s.globals.map Prod.fst := by
      rw [h]
      exact List.mem_map.2 ⟨g, List.mem_of_find?_eq_some hg, by simpa using List.find?_some hg⟩
    show (setEntry name x s.globals).map Prod.fst = _
    rw [map_fst_setEntry, if_pos hmem, h]
  | function name => cases ha

end Store

/-! ## Operands -/

/-- The address of a slot or of a global of the module. -/
theorem Activation.safe_evalAddress (a : Activation) {m : Module} {f : Function} {v : Value}
    (hv : f.typeOf m v = .ok .ptr) (haddress : v.isAddress = true) : Safe m (a.evalAddress v) (Address.IsVariable m) := by
  cases v with
  | slot name =>
    unfold Activation.evalAddress Activation.eval
    dsimp only
    cases a.slots.lookup name <;> trivial
  | global name =>
    unfold Function.typeOf at hv
    dsimp only at hv
    split at hv
    · assumption
    · cases hv
  | constFloat | constBool | temp | param | function | void => cases haddress

/-- The activation is one of the function, and its temporaries have the types that they are registered with. -/
structure Activation.Typed (f : Function) (a : Activation) : Prop where
  blocks : a.blocks = f.attached
  temps : ∀ {id r}, a.temps[id]? = some r → f.tempType? id = some r.ty

namespace Activation.Typed

variable {m : Module} {f : Function} {a : Activation} {v : Value} {ty : Ty}

theorem setTemp (h : a.Typed f) {dest : Nat} {r : RtValue} (hr : f.tempType? dest = some r.ty) :
    (a.setTemp dest r).Typed f where
  blocks := h.blocks
  temps {id r'} hid := by
    rw [Activation.setTemp, Std.TreeMap.getElem?_insert] at hid
    split at hid
    · next heq =>
      cases hid
      rwa [← Nat.compare_eq_eq.1 heq]
    · exact h.temps hid

/-- An operand has a value of its type, or none yet. -/
theorem safe_eval (h : a.Typed f) (hv : f.typeOf m v = .ok ty) : Safe m (a.eval v) fun r => r.ty = ty := by
  unfold Activation.eval
  unfold Function.typeOf at hv
  cases v with
  | constFloat | constBool =>
    cases hv
    rfl
  | temp id =>
    dsimp only at hv ⊢
    cases hid : a.temps[id]? with
    | none => trivial
    | some r =>
      rw [h.temps hid] at hv
      exact Except.ok.inj hv
  | param index name =>
    dsimp only at hv ⊢
    split at hv <;> cases hv
    cases a.args[index]? <;> trivial
  | slot name =>
    dsimp only at hv ⊢
    split at hv <;> cases hv
    cases a.slots.lookup name <;> trivial
  | global | function =>
    dsimp only at hv ⊢
    split at hv <;> cases hv
    rfl
  | void => cases hv

theorem safe_evalFloat (h : a.Typed f) (hv : f.typeOf m v = .ok .f64) : Safe m (a.evalFloat v) fun _ => True := by
  refine (h.safe_eval hv).bind fun r hr => ?_
  cases r with
  | float x => trivial
  | bool | ptr => cases hr

theorem safe_evalBool (h : a.Typed f) (hv : f.typeOf m v = .ok .bool) : Safe m (a.evalBool v) fun _ => True := by
  refine (h.safe_eval hv).bind fun r hr => ?_
  cases r with
  | bool b => trivial
  | float | ptr => cases hr

theorem safe_evalFloats (h : a.Typed f) {vs : List Value} (hvs : ∀ v ∈ vs, f.typeOf m v = .ok .f64) :
    Safe m (a.evalFloats vs) fun xs => xs.length = vs.length := by
  induction vs with
  | nil => rfl
  | cons v vs ih =>
    obtain ⟨hv, hvs⟩ := List.forall_mem_cons.1 hvs
    exact (h.safe_evalFloat hv).bind fun x _ => (ih hvs).bind fun xs hxs => congrArg (· + 1) hxs

end Activation.Typed

/-! ## Instructions -/

/-- What the instruction `i` may ask for, `a` being the activation behind it. -/
def Effect.Typed (m : Module) (f : Function) (a : Activation) (i : Instruction) : Effect → Prop
  | next a' s => i.isTerminator = false ∧ s.Holds m ∧ a'.Typed f ∧ a'.label = a.label ∧ a'.code = a.code
  | jump label => i.isTerminator = true ∧ label ∈ i.successors
  | call dest callee args =>
    i.isTerminator = false ∧ f.tempType? dest = some .f64 ∧ m.arity? callee = some args.length
  | ret _ => True

theorem Activation.Typed.safe_execute {m : Module} {f : Function} {a : Activation} {s : Store} {i : Instruction}
    {block : String} (h : a.Typed f) (hs : s.Holds m) (hoperands : f.checkOperands m block i = .ok ())
    (hdest : ∀ {dest}, i.dest? = some dest → f.tempType? dest = i.ty?)
    (haddress : ∀ {ptr}, i.address? = some ptr → ptr.isAddress = true) :
    Safe m (a.execute s i) (Effect.Typed m f a i) := by
  have hresult : ∀ {dest r}, i.isTerminator = false → f.tempType? dest = some r.ty →
      Effect.Typed m f a i (.next (a.setTemp dest r) s) := fun hi hr => ⟨hi, hs, h.setTemp hr, rfl, rfl⟩
  cases i with
  | alloca => exact ⟨rfl, hs, ⟨h.blocks, h.temps⟩, rfl, rfl⟩
  | phi => exact ⟨rfl, hs, h, rfl, rfl⟩
  | br target => exact ⟨rfl, List.mem_singleton_self _⟩
  | store value ptr =>
    obtain ⟨⟨⟩, hvalue, hptr⟩ := except_bind_eq_ok.1 hoperands
    refine (h.safe_evalFloat (of_checkType hvalue)).bind fun x _ => ?_
    refine (a.safe_evalAddress (of_checkType hptr) (haddress rfl)).bind fun address hvariable => ?_
    exact (hs.safe_write hvariable x).bind fun s' hs' => ⟨rfl, hs', h, rfl, rfl⟩
  | load dest ptr =>
    refine (a.safe_evalAddress (of_checkType hoperands) (haddress rfl)).bind fun address _ => ?_
    exact (s.safe_read address).bind fun x _ => hresult rfl (hdest rfl)
  | binary | compare =>
    have hall := of_checkAll_checkType hoperands
    refine (h.safe_evalFloat (hall _ List.mem_cons_self)).bind fun x _ => ?_
    refine (h.safe_evalFloat (hall _ (List.mem_cons_of_mem _ List.mem_cons_self))).bind fun y _ => ?_
    exact hresult rfl (hdest rfl)
  | logical =>
    have hall := of_checkAll_checkType hoperands
    refine (h.safe_evalBool (hall _ List.mem_cons_self)).bind fun x _ => ?_
    refine (h.safe_evalBool (hall _ (List.mem_cons_of_mem _ List.mem_cons_self))).bind fun y _ => ?_
    exact hresult rfl (hdest rfl)
  | neg => exact (h.safe_evalFloat (of_checkType hoperands)).bind fun x _ => hresult rfl (hdest rfl)
  | not | boolToFloat => exact (h.safe_evalBool (of_checkType hoperands)).bind fun p _ => hresult rfl (hdest rfl)
  | ret => exact (h.safe_evalFloat (of_checkType hoperands)).bind fun x _ => trivial
  | condBr cond thenLabel elseLabel =>
    refine (h.safe_evalBool (of_checkType hoperands)).bind fun p _ => ⟨rfl, ?_⟩
    cases p <;> simp [Instruction.successors]
  | call dest callee args =>
    obtain ⟨harity, hargs⟩ := of_checkOperands_call hoperands
    exact (h.safe_evalFloats hargs).bind fun xs hxs => ⟨rfl, hdest rfl, hxs ▸ harity⟩

/-! ## Blocks -/

/-- The activation is in the middle of an attached block. -/
structure Activation.Active (f : Function) (a : Activation) : Prop where
  typed : a.Typed f
  located : ∃ b ∈ f.attached, b.label = a.label ∧ a.code <:+ b.instructions ∧ a.code ≠ []

/-- Control may come to the block from one with the label `source`, or where the function begins. -/
def Enters (f : Function) (b : Block) (source : String) : Prop :=
  source ∈ f.predecessors b.label ∨ source = "" ∧ f.attached.head? = some b

namespace Activation.Typed

variable {m : Module} {f : Function} {a : Activation} {b : Block} {source : String}

theorem safe_resolvePhi (h : a.Typed f) (hm : m.Checked) (hf : f ∈ m.functions) (hb : b ∈ f.attached)
    (hsource : Enters f b source) {dest : Nat} {ty : Ty} {incoming : List (Value × String)}
    (hphi : .phi dest ty incoming ∈ b.instructions) :
    Safe m (a.resolvePhi b.label source incoming) fun r => r.ty = ty := by
  have hchecked := hm.functions f hf
  unfold Activation.resolvePhi
  split
  · next v _ hfind =>
    exact h.safe_eval (of_checkAll_checkType (hchecked.operands b hb _ hphi) v
      (List.mem_map_of_mem (List.mem_of_find?_eq_some hfind)))
  · next hnone =>
    obtain hsource | ⟨rfl, hhead⟩ := hsource
    · -- The phi lists every predecessor.
      obtain ⟨p, hp, hlabel⟩ := List.mem_map.1 ((hchecked.phis b hb hphi).mem_iff.2 hsource)
      have hne := List.find?_eq_none.1 hnone p hp
      simp [hlabel] at hne
    · exact ⟨rfl, f, hf, by rw [hhead]; rfl⟩

theorem safe_resolvePhis (h : a.Typed f) (hm : m.Checked) (hf : f ∈ m.functions) (hb : b ∈ f.attached)
    (hsource : Enters f b source) {is : List Instruction} (his : is ⊆ b.instructions) :
    Safe m (a.resolvePhis b.label source is) fun values => ∀ p ∈ values, f.tempType? p.1 = some p.2.ty := by
  induction is with
  | nil => exact List.forall_mem_nil _
  | cons i rest ih =>
    obtain ⟨hi, hrest⟩ := List.cons_subset.1 his
    cases i with
    | phi dest ty incoming =>
      refine (h.safe_resolvePhi hm hf hb hsource hi).bind fun r hr => (ih hrest).bind fun values hvalues => ?_
      exact List.forall_mem_cons.2 ⟨hr ▸ (hm.functions f hf).registered b hb _ hi rfl, hvalues⟩
    | _ => exact List.forall_mem_nil _

theorem foldl_setTemp (h : a.Typed f) {values : List (Nat × RtValue)}
    (hvalues : ∀ p ∈ values, f.tempType? p.1 = some p.2.ty) :
    (values.foldl (fun a (dest, v) => a.setTemp dest v) a).Typed f := by
  induction values generalizing a with
  | nil => exact h
  | cons p values ih =>
    obtain ⟨hp, hvalues⟩ := List.forall_mem_cons.1 hvalues
    exact ih (h.setTemp hp) hvalues

theorem safe_enter (h : a.Typed f) (hm : m.Checked) (hf : f ∈ m.functions) (hb : b ∈ f.attached)
    (hsource : Enters f b source) : Safe m (a.enter b source) (Activation.Active f) := by
  refine (h.safe_resolvePhis hm hf hb hsource (List.Subset.refl _)).bind fun values hvalues => ?_
  have htyped := h.foldl_setTemp hvalues
  obtain ⟨init, last, hconcat, -⟩ := (hm.functions f hf).terminated b hb
  refine ⟨⟨htyped.blocks, htyped.temps⟩, b, hb, rfl, List.suffix_refl _, ?_⟩
  show b.instructions ≠ []
  rw [hconcat]
  exact List.append_ne_nil_of_right_ne_nil _ (List.cons_ne_nil _ _)

/-- A branch of the block that the activation is in. -/
theorem safe_jump (h : a.Typed f) (hm : m.Checked) (hf : f ∈ m.functions) (hb : b ∈ f.attached)
    (hlabel : b.label = a.label) {target : String} (htarget : target ∈ b.successors) :
    Safe m (a.jump target) (Activation.Active f) := by
  unfold Activation.jump
  rw [h.blocks]
  split
  · next b' hfind =>
    have hlabel' : b'.label = target := by simpa using List.find?_some hfind
    refine h.safe_enter hm hf (List.mem_of_find?_eq_some hfind) (.inl ?_)
    rw [← hlabel, hlabel']
    exact List.mem_flatMap.2 ⟨b, hb, List.mem_map.2 ⟨target, List.mem_filter.2 ⟨htarget, by simp⟩, rfl⟩⟩
  · next hnone =>
    obtain ⟨b', hb', rfl⟩ := List.mem_map.1 ((hm.functions f hf).targets b hb target htarget)
    have hne := List.find?_eq_none.1 hnone b' hb'
    simp at hne

end Activation.Typed

/-! ## Steps -/

/-- What a call comes to in a module without a defect. -/
def Invocation.Typed (m : Module) : Invocation → Prop
  | done _ s => s.Holds m
  | opened a => ∃ f ∈ m.functions, a.Active f

theorem safe_invoke {m : Module} (hm : m.Checked) {s : Store} (hs : s.Holds m) (maxDepth : Nat) {name : String}
    {args : List Float} (harity : m.arity? name = some args.length) :
    Safe m (invoke m maxDepth s name args) (Invocation.Typed m) := by
  obtain ⟨f, hf, hlength⟩ := Option.map_eq_some_iff.1 harity
  unfold invoke
  rw [hf]
  dsimp only
  rw [if_neg (not_not.2 hlength)]
  split
  · split
    · exact hs
    · trivial
  · next entry others hattached =>
    split
    · trivial
    · have hmem := List.mem_of_find?_eq_some hf
      have hentry : f.attached.head? = some entry := by rw [hattached]; rfl
      refine (Activation.Typed.safe_enter ⟨hattached.symm, ?_⟩ hm hmem (List.mem_of_head? hentry)
        (.inr ⟨rfl, hentry⟩)).bind fun a ha => ⟨f, hmem, ha⟩
      intro id r hid
      simp at hid

/-- Each activation is in the middle of a block, and the temporary that takes the result is one for a float. -/
def Waiting (m : Module) (callers : List (Nat × Activation)) : Prop :=
  ∀ p ∈ callers, ∃ f ∈ m.functions, p.2.Active f ∧ f.tempType? p.1 = some .f64

/-- The activations are those of functions of the module, and each is in the middle of a block. -/
structure Config.Typed (m : Module) (c : Config) : Prop where
  store : c.store.Holds m
  active : ∃ f ∈ m.functions, c.active.Active f
  callers : Waiting m c.callers

def Outcome.Typed (m : Module) : Outcome → Prop
  | running c => c.Typed m
  | finished _ s => s.Holds m
  | failed fault s => fault.Residual m ∧ s.Holds m

namespace Config

variable {m : Module} {c : Config}

theorem typed_leave (hs : c.store.Holds m) (hcallers : Waiting m c.callers) (value : Float) :
    (c.leave value).Typed m := by
  unfold Config.leave
  dsimp only
  split
  · exact hs
  · next dest caller callers hc =>
    rw [Waiting, hc, List.forall_mem_cons] at hcallers
    obtain ⟨⟨f, hf, hcaller, hdest⟩, hcallers⟩ := hcallers
    exact ⟨hs, ⟨f, hf, hcaller.typed.setTemp hdest, hcaller.located⟩, hcallers⟩

theorem typed_call (hm : m.Checked) (hs : c.store.Holds m) {f : Function} (hf : f ∈ m.functions)
    (hactive : c.active.Active f) (hcallers : Waiting m c.callers) {dest : Nat} (hdest : f.tempType? dest = some .f64)
    {callee : String} {args : List Float} (harity : m.arity? callee = some args.length) (maxDepth : Nat) :
    (c.call m maxDepth dest callee args).Typed m := by
  have hinvoke := safe_invoke hm hs maxDepth harity
  unfold Config.call
  split
  · next fault heq =>
    rw [heq] at hinvoke
    exact ⟨hinvoke, hs⟩
  · next value s heq =>
    rw [heq] at hinvoke
    exact ⟨hinvoke, ⟨f, hf, hactive.typed.setTemp hdest, hactive.located⟩, hcallers⟩
  · next a heq =>
    rw [heq] at hinvoke
    exact ⟨hs, hinvoke, List.forall_mem_cons.2 ⟨⟨f, hf, hactive, hdest⟩, hcallers⟩⟩

/-- There is a next instruction, and what it does is typed again. -/
theorem Typed.next (h : c.Typed m) (hm : m.Checked) (maxDepth : Nat) : ∃ o, c.next m maxDepth = some o ∧ o.Typed m := by
  obtain ⟨f, hf, htyped, b, hb, hlabel, ⟨before, hcode⟩, hne⟩ := h.active
  obtain ⟨i, rest, hi⟩ := List.exists_cons_of_ne_nil hne
  refine ⟨_, by rw [Config.next, hi], ?_⟩
  rw [hi] at hcode
  have hchecked := hm.functions f hf
  have hmem : i ∈ b.instructions := by simp [← hcode]
  have hbehind : ({ c.active with code := rest } : Activation).Typed f := ⟨htyped.blocks, htyped.temps⟩
  -- Behind an instruction that is not a terminator there is another one in the block.
  have hactive : i.isTerminator = false → ({ c.active with code := rest } : Activation).Active f := fun hnot =>
    ⟨hbehind, b, hb, hlabel, ⟨before ++ [i], by simp [← hcode]⟩, hchecked.ne_nil hb hcode.symm hnot⟩
  have hexecute := hbehind.safe_execute h.store (hchecked.operands b hb i hmem) (hchecked.registered b hb i hmem)
    (hchecked.addressed b hb i hmem)
  unfold Config.execute
  dsimp only
  split
  · next fault heq =>
    rw [heq] at hexecute
    exact ⟨hexecute, h.store⟩
  · next a s heq =>
    rw [heq] at hexecute
    obtain ⟨hnot, hs, ha, hlabel', hcode'⟩ := hexecute
    refine ⟨hs, ⟨f, hf, ha, ?_⟩, h.callers⟩
    rw [hlabel', hcode']
    exact (hactive hnot).located
  · next target heq =>
    rw [heq] at hexecute
    obtain ⟨hterminator, htarget⟩ := hexecute
    -- The terminator that was executed is that of the block, so the block is a predecessor of its target.
    rw [← hchecked.successors_eq hb hcode.symm hterminator] at htarget
    have hjump := hbehind.safe_jump hm hf hb hlabel htarget
    split
    · next fault heq' =>
      rw [heq'] at hjump
      exact ⟨hjump, h.store⟩
    · next a heq' =>
      rw [heq'] at hjump
      exact ⟨h.store, ⟨f, hf, hjump⟩, h.callers⟩
  · next dest callee args heq =>
    rw [heq] at hexecute
    obtain ⟨hnot, hdest, harity⟩ := hexecute
    exact typed_call (c := { c with active := { c.active with code := rest } }) hm h.store hf (hactive hnot) h.callers
      hdest harity maxDepth
  · exact typed_leave (c := { c with active := { c.active with code := rest } }) h.store h.callers _

end Config

/-! ## Runs and calls -/

theorem Store.Holds.unwind {m : Module} {s : Store} (h : s.Holds m) (c : Config) : (c.unwind s).Holds m := by
  rwa [Store.Holds, c.globals_unwind]

/-- A run comes to a value or to a fault that is left. -/
theorem Config.Typed.run {m : Module} (hm : m.Checked) (limits : Limits) (k : Nat) {c : Config} (h : c.Typed m) :
    Safe m (run m limits k c).result (fun _ => True) ∧ (run m limits k c).store.Holds m := by
  induction k generalizing c with
  | zero =>
    obtain ⟨o, ho, -⟩ := h.next hm limits.maxDepth
    rw [run_zero ho]
    exact ⟨trivial, h.store.unwind c⟩
  | succ k ih =>
    obtain ⟨o, ho, htyped⟩ := h.next hm limits.maxDepth
    rw [run_succ ho]
    cases o with
    | running c' => exact ih htyped
    | finished value s => exact ⟨trivial, htyped⟩
    | failed fault s => exact ⟨htyped.1, htyped.2.unwind c⟩

theorem invoke_of_arity {m : Module} {name : String} {args : List Float} (h : m.arity? name ≠ some args.length)
    (maxDepth : Nat) (s : Store) : ∃ fault, invoke m maxDepth s name args = .error fault := by
  unfold invoke
  split
  · exact ⟨_, rfl⟩
  · next f hf =>
    rw [if_pos fun harity => h (by rw [Module.arity?, hf, Option.map_some, harity])]
    exact ⟨_, rfl⟩

section

variable {M : Machine}

theorem safe_call (hm : M.module.Checked) (hs : M.store.Holds M.module) {name : String} {args : List Float}
    (harity : M.module.arity? name = some args.length) :
    Safe M.module (M.call name args).1 (fun _ => True) ∧ (M.call name args).2.store.Holds M.module := by
  have hinvoke := safe_invoke hm hs M.limits.maxDepth harity
  unfold Machine.call
  split
  · next fault heq =>
    rw [heq] at hinvoke
    exact ⟨hinvoke, hs⟩
  · next value s heq =>
    rw [heq] at hinvoke
    exact ⟨trivial, hinvoke⟩
  · next a heq =>
    rw [heq] at hinvoke
    exact Config.Typed.run hm M.limits M.stepsLeft ⟨hs, hinvoke, List.forall_mem_nil _⟩

/-- A call with the wrong number of arguments leaves everything as it is. -/
theorem call_of_arity {name : String} {args : List Float} (h : M.module.arity? name ≠ some args.length) :
    (M.call name args).2 = M := by
  obtain ⟨fault, hfault⟩ := invoke_of_arity h M.limits.maxDepth M.store
  rw [Machine.call, hfault]

theorem map_fst_foldl_setGlobal (gs : List Global) (s : Store)
    (h : (s.globals.map Prod.fst ++ gs.map Global.name).Nodup) :
    (gs.foldl (fun s g => s.setGlobal g.name g.initial) s).globals.map Prod.fst =
      s.globals.map Prod.fst ++ gs.map Global.name := by
  induction gs generalizing s with
  | nil => simp
  | cons g gs ih =>
    have hnew : g.name ∉ s.globals.map Prod.fst := fun hmem =>
      (List.nodup_append.1 h).2.2 _ hmem _ List.mem_cons_self rfl
    have hset : (s.setGlobal g.name g.initial).globals.map Prod.fst = s.globals.map Prod.fst ++ [g.name] := by
      rw [Store.setGlobal, Store.map_fst_setEntry, if_neg hnew]
    rw [List.foldl_cons, ih _ (by simpa [hset] using h), hset]
    simp

/-- Whatever has been called, a machine holds the globals of its module. -/
theorem Reached.holds {m : Module} (hm : m.Checked) {limits : Limits} (h : Reached m limits M) : M.store.Holds m := by
  induction h with
  | start => exact map_fst_foldl_setGlobal m.globals {} (List.nodup_append.1 hm.symbols_nodup).2.1
  | @call M h name args ih =>
    obtain rfl := h.module_eq
    by_cases harity : M.module.arity? name = some args.length
    · exact (safe_call hm ih harity).2
    · rw [call_of_arity harity]
      exact ih
  | takeOutput _ ih => exact ih

end

end Machine

end Monofloat
