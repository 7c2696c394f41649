import Monofloat.Proofs.Blocks

/-!
# Types of operands, and functions that grow

An operand keeps its type while the function grows and the module gains functions and globals. `Grows G f f'`
says that `f'` comes from `f` by adding: temporaries, slots, blocks, and instructions behind those that a block
had, of which none is a phi in the blocks of `G`. `Extends` adds that no branch to these blocks is new.
-/

namespace Monofloat.Ir

namespace Module

/-- The number of parameters of a function. -/
def arity? (m : Module) (name : String) : Option Nat := (m.function? name).map Function.arity

/-- The second module has the functions and globals of the first. -/
structure Covers (m m' : Module) : Prop where
  arity : ∀ {name k}, m.arity? name = some k → m'.arity? name = some k
  global : ∀ {name}, (m.global? name).isSome → (m'.global? name).isSome

namespace Covers

theorem refl (m : Module) : m.Covers m := ⟨id, id⟩

theorem trans {m₁ m₂ m₃ : Module} (h : m₁.Covers m₂) (h' : m₂.Covers m₃) : m₁.Covers m₃ :=
  ⟨fun ha => h'.arity (h.arity ha), fun hg => h'.global (h.global hg)⟩

end Covers

end Module

namespace Function

/-! ## Types -/

/-- The type of an operand of the function in a module. -/
inductive HasType (m : Module) (f : Function) : Value → Ty → Prop where
  | constFloat (x : Float) : HasType m f (.constFloat x) .f64
  | constBool (b : Bool) : HasType m f (.constBool b) .bool
  | param {index name} : f.params[index]? = some name → HasType m f (.param index name) .f64
  | temp {id ty} : f.temps[id]? = some ty → HasType m f (.temp id) ty
  | slot {name} : name ∈ f.slots → HasType m f (.slot name) .ptr
  | global {name} : (m.global? name).isSome → HasType m f (.global name) .ptr
  | function {name} : (m.arity? name).isSome → HasType m f (.function name) .ptr

theorem HasType.unique {m : Module} {f : Function} {v : Value} {ty ty' : Ty} (h : HasType m f v ty)
    (h' : HasType m f v ty') : ty = ty' := by
  cases h with
  | temp h => cases h' with | temp h' => exact Option.some.inj (h.symm.trans h')
  | _ => cases h'; rfl

/-- The operands of an instruction have the types it needs, and a call fits its callee. -/
def Fits (m : Module) (f : Function) : Instruction → Prop
  | .alloca _ => True
  | .br _ => True
  | .store value ptr => HasType m f value .f64 ∧ HasType m f ptr .ptr
  | .load _ ptr => HasType m f ptr .ptr
  | .binary _ _ left right => HasType m f left .f64 ∧ HasType m f right .f64
  | .compare _ _ left right => HasType m f left .f64 ∧ HasType m f right .f64
  | .neg _ value => HasType m f value .f64
  | .ret value => HasType m f value .f64
  | .logical _ _ left right => HasType m f left .bool ∧ HasType m f right .bool
  | .not _ value => HasType m f value .bool
  | .boolToFloat _ value => HasType m f value .bool
  | .condBr cond _ _ => HasType m f cond .bool
  | .call _ callee args => m.arity? callee = some args.length ∧ ∀ v ∈ args, HasType m f v .f64
  | .phi _ ty incoming => ∀ p ∈ incoming, HasType m f p.1 ty

/-! ## Growth -/

/-- `f'` comes from `f` by adding temporaries, slots, blocks, and instructions behind those that a block had. None of
the new instructions in a block of `G` is a phi. -/
structure Grows (G : BlockId → Prop) (f f' : Function) : Prop where
  name : f'.name = f.name
  params : f'.params = f.params
  temps : f.temps <+: f'.temps
  /-- A new slot goes in front of the others. -/
  slots : f.slots <:+ f'.slots
  block : ∀ {id b}, f.block? id = some b → ∃ b' more, f'.block? id = some b' ∧ b'.label = b.label ∧
    b'.body = b.body ++ more ∧ (G id → ∀ i ∈ more, i.isPhi = false)

namespace Grows

variable {G G' : BlockId → Prop} {f f' f'' : Function} {c : BlockId} {b : Block}

theorem refl (f : Function) : Grows G f f :=
  ⟨rfl, rfl, List.prefix_refl _, List.suffix_refl _, fun {_ b} h => ⟨b, [], h, rfl, by simp, by simp⟩⟩

theorem trans (h : Grows G f f') (h' : Grows G f' f'') : Grows G f f'' := by
  refine ⟨h'.name.trans h.name, h'.params.trans h.params, h.temps.trans h'.temps, h.slots.trans h'.slots, ?_⟩
  intro id b hb
  obtain ⟨b₁, more₁, hb₁, hl₁, hbody₁, hphi₁⟩ := h.block hb
  obtain ⟨b₂, more₂, hb₂, hl₂, hbody₂, hphi₂⟩ := h'.block hb₁
  refine ⟨b₂, more₁ ++ more₂, hb₂, hl₂.trans hl₁, by rw [hbody₂, hbody₁, List.append_assoc], fun hG i hi => ?_⟩
  exact (List.mem_append.1 hi).elim (hphi₁ hG i) (hphi₂ hG i)

/-- Only the blocks that `f` has count. -/
theorem mono (h : Grows G f f') (hG : ∀ id, (f.block? id).isSome → G' id → G id) : Grows G' f f' := by
  refine ⟨h.name, h.params, h.temps, h.slots, fun {id b} hb => ?_⟩
  obtain ⟨b', more, hb', hl, hbody, hphi⟩ := h.block hb
  exact ⟨b', more, hb', hl, hbody, fun hg => hphi (hG id (by rw [hb]; rfl) hg)⟩

theorem block_isSome (h : Grows G f f') {id : BlockId} (hid : (f.block? id).isSome) : (f'.block? id).isSome := by
  obtain ⟨b, hb⟩ := Option.isSome_iff_exists.1 hid
  obtain ⟨b', -, hb', -⟩ := h.block hb
  rw [hb']
  rfl

theorem emit (hb : f.block? c = some b) {i : Instruction} (hs : i.slot? = none) (hp : G c → i.isPhi = false) :
    Grows G f (f.emit c i) := by
  refine ⟨rfl, rfl, List.prefix_refl _, by simp [slots_emit hb hs], fun {id b'} hb' => ?_⟩
  rw [block?_emit hb]
  split
  · next h =>
    subst h
    cases hb.symm.trans hb'
    exact ⟨b.append i, [i], rfl, rfl, Block.body_append hs b, by simpa using hp⟩
  · exact ⟨b', [], hb', rfl, by simp, by simp⟩

theorem withTemp (f : Function) (ty : Ty) : Grows G f (f.withTemp ty) :=
  ⟨rfl, rfl, List.prefix_append _ _, List.suffix_refl _, fun {_ b} h => ⟨b, [], h, rfl, by simp, by simp⟩⟩

theorem create (h : (f.block? ⟨0⟩).isSome) (label : String) : Grows G f (f.create label) := by
  refine ⟨rfl, rfl, List.prefix_refl _, by simp [slots_create _ _ h], fun {id b} hb => ?_⟩
  rw [block?_create, if_neg (ne_nextBlock hb)]
  exact ⟨b, [], hb, rfl, by simp, by simp⟩

theorem attach (f : Function) (id : BlockId) : Grows G f (f.attach id) :=
  ⟨rfl, rfl, List.prefix_refl _, List.suffix_refl _, fun {_ b} h => ⟨b, [], h, rfl, by simp, by simp⟩⟩

theorem reserve (h : f.block? ⟨0⟩ = some b) (name : String) : Grows G f (f.reserve ⟨0⟩ name) := by
  refine ⟨rfl, rfl, List.prefix_refl _, by rw [slots_reserve h]; exact List.suffix_cons _ _, fun {id b'} hb => ?_⟩
  rw [block?_reserve]
  split
  · next hid =>
    subst hid
    cases h.symm.trans hb
    exact ⟨b.prepend (.alloca (f.slotFor name)), [], by rw [h]; rfl, rfl, by simp, by simp⟩
  · exact ⟨b', [], hb, rfl, by simp, by simp⟩

end Grows

/-- Growth without new branches to the blocks of `G`. -/
structure Extends (G : BlockId → Prop) (f f' : Function) : Prop extends Grows G f f' where
  sources : ∀ {id b}, G id → f.block? id = some b → (f'.sources b.label).Perm (f.sources b.label)

namespace Extends

variable {G G' : BlockId → Prop} {f f' f'' : Function} {c : BlockId} {b : Block}

theorem refl (f : Function) : Extends G f f := ⟨.refl f, fun _ _ => .refl _⟩

theorem trans (h : Extends G f f') (h' : Extends G f' f'') : Extends G f f'' := by
  refine ⟨h.toGrows.trans h'.toGrows, fun {id b} hG hb => ?_⟩
  obtain ⟨b', -, hb', hl, -⟩ := h.block hb
  have hs := h'.sources hG hb'
  rw [hl] at hs
  exact hs.trans (h.sources hG hb)

theorem mono (h : Extends G f f') (hG : ∀ id, (f.block? id).isSome → G' id → G id) : Extends G' f f' :=
  ⟨h.toGrows.mono hG, fun {id _} hg hb => h.sources (hG id (by rw [hb]; rfl) hg) hb⟩

theorem emit (hb : f.block? c = some b) (ht : b.isTerminated = false) {i : Instruction} (hs : i.slot? = none)
    (hp : G c → i.isPhi = false)
    (hbr : ∀ {id b'}, G id → f.block? id = some b' → b'.label ∉ i.successors) : Extends G f (f.emit c i) := by
  refine ⟨.emit hb hs hp, fun {id b'} hG hb' => (sources_emit hb ht i b'.label).trans ?_⟩
  have hnone : i.successors.filter (· = b'.label) = [] := by
    refine List.filter_eq_nil_iff.2 fun l hl => ?_
    simpa using fun he : l = b'.label => hbr hG hb' (he ▸ hl)
  rw [hnone]
  exact .refl _

theorem result (hb : f.block? c = some b) (ht : b.isTerminated = false) (ty : Ty) {i : Nat → Instruction}
    (hs : (i f.temps.length).slot? = none) (hi : (i f.temps.length).isTerminator = false)
    (hp : G c → (i f.temps.length).isPhi = false) : Extends G f (f.result c ty i) :=
  trans ⟨.withTemp f ty, fun _ _ => .refl _⟩ <| emit (f := f.withTemp ty) hb ht hs hp fun _ _ => by
    rw [Instruction.successors_eq_nil hi]
    exact List.not_mem_nil

theorem create (h : (f.block? ⟨0⟩).isSome) (label : String) : Extends G f (f.create label) :=
  ⟨.create h label, fun _ _ => by rw [sources_create]⟩

theorem attach (f : Function) (id : BlockId) : Extends G f (f.attach id) := ⟨.attach f id, fun _ _ => .refl _⟩

theorem reserve (h : f.block? ⟨0⟩ = some b) (name : String) : Extends G f (f.reserve ⟨0⟩ name) :=
  ⟨.reserve h name, fun _ _ => by rw [sources_reserve h]⟩

end Extends

/-! ## Types stay -/

section

variable {m m' : Module} {G : BlockId → Prop} {f f' : Function} {c : BlockId}

theorem HasType.mono {v : Value} {ty : Ty} (h : HasType m f v ty) (hm : m.Covers m') (hf : Grows G f f') :
    HasType m' f' v ty := by
  cases h with
  | constFloat x => exact .constFloat x
  | constBool b => exact .constBool b
  | param h => exact .param (hf.params ▸ h)
  | temp h =>
    obtain ⟨more, hmore⟩ := hf.temps
    refine .temp ?_
    rw [← hmore, List.getElem?_append_left (List.getElem?_eq_some_iff.1 h).1, h]
  | slot h => exact .slot (hf.slots.subset h)
  | global h => exact .global (hm.global h)
  | function h =>
    obtain ⟨k, hk⟩ := Option.isSome_iff_exists.1 h
    exact .function (by rw [hm.arity hk]; rfl)

theorem Fits.mono {i : Instruction} (h : Fits m f i) (hm : m.Covers m') (hf : Grows G f f') : Fits m' f' i := by
  cases i with
  | alloca | br => trivial
  | store | binary | compare | logical => exact ⟨h.1.mono hm hf, h.2.mono hm hf⟩
  | load | neg | ret | not | boolToFloat | condBr => exact HasType.mono h hm hf
  | call => exact ⟨hm.arity h.1, fun v hv => (h.2 v hv).mono hm hf⟩
  | phi => exact fun p hp => (h p hp).mono hm hf

theorem HasType.result (m : Module) (f : Function) (c : BlockId) (ty : Ty) (i : Nat → Instruction) :
    HasType m (f.result c ty i) (.temp f.temps.length) ty := by
  refine .temp ?_
  show (f.temps ++ [ty])[f.temps.length]? = some ty
  simp

end

end Function

end Monofloat.Ir
