import Mathlib.Data.List.TakeWhile
import Monofloat.Proofs.Checked
import Monofloat.Proofs.WellFormed

/-!
# What the checks decide

`Function.WellFormed` says what a definition has to be like without saying how that is found out. The checks accept a
function exactly if it is a declaration or well formed. Well-formedness speaks of the blocks behind the entry and of
the values of a phi as of collections; so the verdict is the same for a function that has them in another order
(`Function.Rearranges`).
-/

namespace Monofloat.Ir

/-! ## Well-formed functions -/

/-- The operands of an instruction, each with the type that its place needs. -/
def Instruction.demands : Instruction → List (Value × Ty)
  | alloca _ | br _ => []
  | store value ptr => [(value, .f64), (ptr, .ptr)]
  | load _ ptr => [(ptr, .ptr)]
  | binary _ _ left right | compare _ _ left right => [(left, .f64), (right, .f64)]
  | logical _ _ left right => [(left, .bool), (right, .bool)]
  | neg _ value | ret value => [(value, .f64)]
  | not _ value | boolToFloat _ value | condBr value _ _ => [(value, .bool)]
  | call _ _ args => args.map (·, .f64)
  | phi _ ty incoming => incoming.map fun p => (p.1, ty)

theorem Instruction.map_fst_demands (i : Instruction) : i.demands.map Prod.fst = i.operands := by
  cases i <;> simp [demands, operands, Function.comp_def]

namespace Block

/-- The last instruction of the block is its only terminator. -/
def EndsOnce (b : Block) : Prop := ∃ init last, b.instructions = init ++ [last] ∧ last.isTerminator = true ∧
  ∀ i ∈ init, i.isTerminator = false

/-- The phis of the block stand in front of its other instructions. -/
def PhisLead (b : Block) : Prop := ∃ phis others, b.instructions = phis ++ others ∧ (∀ i ∈ phis, i.isPhi = true) ∧
  ∀ i ∈ others, i.isPhi = false

/-- The ways from the block to others, as labels: one for each target that its terminator names. -/
def edges (b : Block) : List (String × String) :=
  (b.terminator?.toList.flatMap Instruction.successors).map (b.label, ·)

end Block

namespace Function

/-- The operand is defined, and this is its type. -/
inductive Defines (f : Function) (m : Module) : Value → Ty → Prop
  | constFloat (x : Float) : Defines f m (.constFloat x) .f64
  | constBool (b : Bool) : Defines f m (.constBool b) .bool
  | param {index : Nat} {name : String} (h : f.params[index]? = some name) : Defines f m (.param index name) .f64
  | temp {id : Nat} {ty : Ty} (h : f.temps[id]? = some ty) : Defines f m (.temp id) ty
  | slot {entry : Block} {name : String} (hentry : f.attached.head? = some entry)
    (h : .alloca name ∈ entry.instructions) : Defines f m (.slot name) .ptr
  | global {g : Global} (h : g ∈ m.globals) : Defines f m (.global g.name) .ptr
  | function {g : Function} (h : g ∈ m.functions) : Defines f m (.function g.name) .ptr

/-- The ways between the attached blocks. -/
def edges (f : Function) : List (String × String) := f.attached.flatMap Block.edges

/-- What a definition in a module has to be like. -/
structure WellFormed (f : Function) (m : Module) : Prop where
  ends : ∀ b ∈ f.attached, b.EndsOnce
  targets : ∀ e ∈ f.edges, ∃ b ∈ f.attached, b.label = e.2
  phis_lead : ∀ b ∈ f.attached, b.PhisLead
  slots_in_entry : ∀ b ∈ f.attached.tail, ∀ slot, .alloca slot ∉ b.instructions
  /-- A phi has one value for each way to its block. -/
  phis_match : ∀ b ∈ f.attached, ∀ dest ty incoming, .phi dest ty incoming ∈ b.instructions →
    (incoming.map Prod.snd).Perm ((f.edges.filter (·.2 = b.label)).map Prod.fst)
  operands : ∀ b ∈ f.attached, ∀ i ∈ b.instructions, ∀ p ∈ i.demands, f.Defines m p.1 p.2
  callees : ∀ b ∈ f.attached, ∀ dest callee args, .call dest callee args ∈ b.instructions →
    ∃ g, m.function? callee = some g ∧ g.arity = args.length

end Function

theorem check_seq_eq_ok {first second : Except Defect Unit} :
    (do first; second) = .ok () ↔ first = .ok () ∧ second = .ok () := by
  cases first <;> simp [bind, Except.bind]

/-! ## Blocks -/

namespace Block

variable {b : Block}

theorem checkTerminator_eq_ok : b.checkTerminator = .ok () ↔ b.EndsOnce := by
  refine ⟨of_checkTerminator, ?_⟩
  rintro ⟨init, last, heq, hlast, hinit⟩
  have hnone : init.any Instruction.isTerminator = false := List.any_eq_false.2 fun i hi => by simp [hinit i hi]
  simp [checkTerminator, heq, hlast, hnone]

/-- Only terminators have targets. -/
theorem successors_eq (b : Block) : b.successors = b.terminator?.toList.flatMap Instruction.successors := by
  unfold successors terminator?
  cases b.instructions.getLast? with
  | none => rfl
  | some last =>
    cases hlast : last.isTerminator with
    | true => simp [Option.filter, hlast]
    | false => simp [Option.filter, hlast, Instruction.successors_eq_nil hlast]

theorem edges_eq (b : Block) : b.edges = b.successors.map (b.label, ·) := by rw [edges, successors_eq]

theorem checkTargets_eq_ok {labels : List String} : b.checkTargets labels = .ok () ↔ ∀ e ∈ b.edges, e.2 ∈ labels := by
  rw [checkTargets, checkAll_eq_ok, edges_eq, List.forall_mem_map]
  refine forall₂_congr fun target _ => ?_
  by_cases h : target ∈ labels <;> simp [h]

theorem checkPlace_eq_ok_iff {label : String} {isEntry : Bool} {i : Instruction} :
    checkPlace label isEntry i = .ok () ↔ i.isPhi = false ∧ (isEntry = false → ∀ slot, i ≠ .alloca slot) := by
  cases i with
  | alloca slot => cases isEntry <;> simp [checkPlace, Instruction.isPhi]
  | _ => simp [checkPlace, Instruction.isPhi]

theorem checkPlaces_eq_ok {isEntry : Bool} : b.checkPlaces isEntry = .ok () ↔
    b.PhisLead ∧ (isEntry = false → ∀ slot, .alloca slot ∉ b.instructions) := by
  simp only [checkPlaces, checkAll_eq_ok, checkPlace_eq_ok_iff]
  constructor
  · intro h
    refine ⟨⟨b.instructions.takeWhile Instruction.isPhi, b.instructions.dropWhile Instruction.isPhi,
      List.takeWhile_append_dropWhile.symm, fun i hi => List.mem_takeWhile_imp hi, fun i hi => (h i hi).1⟩, ?_⟩
    intro hentry slot hslot
    rw [← List.takeWhile_append_dropWhile (p := Instruction.isPhi) (l := b.instructions)] at hslot
    rcases List.mem_append.1 hslot with hslot | hslot
    · cases List.mem_takeWhile_imp hslot
    · exact (h _ hslot).2 hentry slot rfl
  · rintro ⟨⟨phis, others, heq, hphis, hothers⟩, hslots⟩ i hi
    have hmem : i ∈ b.instructions := (List.dropWhile_sublist _).subset hi
    refine ⟨hothers i ?_, fun hentry slot hslot => hslots hentry slot (hslot ▸ hmem)⟩
    rw [heq, List.dropWhile_append_of_pos hphis] at hi
    exact (List.dropWhile_sublist _).subset hi

theorem checkShape_eq_ok {labels : List String} {isEntry : Bool} : b.checkShape labels isEntry = .ok () ↔
    b.EndsOnce ∧ (∀ e ∈ b.edges, e.2 ∈ labels) ∧ b.PhisLead ∧
      (isEntry = false → ∀ slot, .alloca slot ∉ b.instructions) := by
  rw [← checkTerminator_eq_ok, ← checkTargets_eq_ok, ← checkPlaces_eq_ok, checkShape, check_seq_eq_ok,
    check_seq_eq_ok]

end Block

/-! ## Functions -/

namespace Function

variable {f g : Function} {m : Module}

theorem mem_labels {label : String} : label ∈ f.labels ↔ ∃ b ∈ f.attached, b.label = label := List.mem_map

theorem predecessors_eq (f : Function) (label : String) :
    f.predecessors label = (f.edges.filter (·.2 = label)).map Prod.fst := by
  rw [predecessors, edges, List.filter_flatMap, List.map_flatMap]
  congr 1
  funext b
  rw [Block.edges_eq, List.filter_map, List.map_map]
  rfl

theorem checkShapes_eq_ok : f.checkShapes = .ok () ↔ (∀ b ∈ f.attached, b.EndsOnce) ∧
    (∀ e ∈ f.edges, ∃ b ∈ f.attached, b.label = e.2) ∧ (∀ b ∈ f.attached, b.PhisLead) ∧
      ∀ b ∈ f.attached.tail, ∀ slot, .alloca slot ∉ b.instructions := by
  simp only [← mem_labels, edges, List.forall_mem_flatMap]
  unfold checkShapes
  cases f.attached with
  | nil => simp
  | cons entry others =>
    simp only [check_seq_eq_ok, checkAll_eq_ok, Block.checkShape_eq_ok, List.forall_mem_cons, List.tail_cons]
    constructor
    · rintro ⟨⟨hends, htargets, hlead, -⟩, hothers⟩
      exact ⟨⟨hends, fun b hb => (hothers b hb).1⟩, ⟨htargets, fun b hb => (hothers b hb).2.1⟩,
        ⟨hlead, fun b hb => (hothers b hb).2.2.1⟩, fun b hb => (hothers b hb).2.2.2 trivial⟩
    · rintro ⟨⟨hends, hends'⟩, ⟨htargets, htargets'⟩, ⟨hlead, hlead'⟩, hslots⟩
      exact ⟨⟨hends, htargets, hlead, nofun⟩, fun b hb =>
        ⟨hends' b hb, htargets' b hb, hlead' b hb, fun _ => hslots b hb⟩⟩

theorem checkPhis_eq_ok : f.checkPhis = .ok () ↔ ∀ b ∈ f.attached, ∀ dest ty incoming,
    .phi dest ty incoming ∈ b.instructions →
      (incoming.map Prod.snd).Perm ((f.edges.filter (·.2 = b.label)).map Prod.fst) := by
  simp only [← predecessors_eq, checkPhis, checkAll_eq_ok]
  constructor
  · exact fun h b hb dest ty incoming hi => of_checkIncoming (h b hb _ hi)
  · intro h b hb i hi
    cases i with
    | phi dest ty incoming => exact if_pos (mergeSort_eq_of_perm (h b hb dest ty incoming hi))
    | _ => rfl

theorem mem_entrySlots {name : String} :
    name ∈ f.entrySlots ↔ ∃ entry, f.attached.head? = some entry ∧ .alloca name ∈ entry.instructions := by
  have hslot : ∀ {i : Instruction}, i.slot? = some name ↔ i = .alloca name := by
    intro i
    cases i <;> simp [Instruction.slot?]
  cases hhead : f.attached.head? with
  | none => simp [entrySlots, hhead]
  | some entry => simp [entrySlots, hhead, Block.slots, hslot]

theorem typeOf_eq_ok {v : Value} {ty : Ty} : f.typeOf m v = .ok ty ↔ f.Defines m v ty := by
  constructor
  · intro h
    cases v with
    | constFloat x => cases h; exact .constFloat x
    | constBool b => cases h; exact .constBool b
    | param index name =>
      rw [typeOf] at h
      split at h
      · next hp => cases h; exact .param hp
      · cases h
    | temp id =>
      rw [typeOf] at h
      split at h
      · next hty => cases h; exact .temp hty
      · cases h
    | slot name =>
      rw [typeOf] at h
      split at h
      · next hs =>
        cases h
        obtain ⟨entry, hentry, hslot⟩ := mem_entrySlots.1 hs
        exact .slot hentry hslot
      · cases h
    | global name =>
      rw [typeOf] at h
      split at h
      · next hg =>
        cases h
        obtain ⟨g, hg⟩ := Option.isSome_iff_exists.1 hg
        obtain rfl : g.name = name := by simpa using List.find?_some hg
        exact .global (List.mem_of_find?_eq_some hg)
      · cases h
    | function name =>
      rw [typeOf] at h
      split at h
      · next hg =>
        cases h
        obtain ⟨g, hg⟩ := Option.isSome_iff_exists.1 hg
        obtain rfl : g.name = name := by simpa using List.find?_some hg
        exact .function (List.mem_of_find?_eq_some hg)
      · cases h
    | void => cases h
  · intro h
    cases h with
    | constFloat | constBool => rfl
    | param hp => exact if_pos hp
    | temp hty => rw [typeOf, tempType?, hty]
    | slot hentry hslot => exact if_pos (mem_entrySlots.2 ⟨_, hentry, hslot⟩)
    | global hg => exact if_pos (List.find?_isSome.2 ⟨_, hg, decide_eq_true rfl⟩)
    | function hg => exact if_pos (List.find?_isSome.2 ⟨_, hg, decide_eq_true rfl⟩)

theorem checkType_eq_ok {block : String} {ty : Ty} {v : Value} :
    f.checkType m block ty v = .ok () ↔ f.Defines m v ty := by
  rw [← typeOf_eq_ok]
  refine ⟨of_checkType, fun h => ?_⟩
  rw [checkType, h]
  exact if_pos rfl

theorem checkOperands_eq_ok {block : String} {i : Instruction} : f.checkOperands m block i = .ok () ↔
    (∀ p ∈ i.demands, f.Defines m p.1 p.2) ∧
      ∀ dest callee args, i = .call dest callee args → ∃ g, m.function? callee = some g ∧ g.arity = args.length := by
  cases i with
  | call dest callee args =>
    cases hg : m.function? callee with
    | none => simp [checkOperands, hg]
    | some g =>
      by_cases harity : g.arity = args.length
      · simp [checkOperands, hg, harity, checkAll_eq_ok, checkType_eq_ok, Instruction.demands]
      · simp [checkOperands, hg, harity]
  | store value ptr => simp [checkOperands, check_seq_eq_ok, checkType_eq_ok, Instruction.demands]
  | phi dest ty incoming =>
    simp only [checkOperands, checkAll_eq_ok, checkType_eq_ok, Instruction.demands, List.forall_mem_map]
    simp
  | _ => simp [checkOperands, checkAll_eq_ok, checkType_eq_ok, Instruction.demands]

theorem checkTypes_eq_ok : f.checkTypes m = .ok () ↔
    (∀ b ∈ f.attached, ∀ i ∈ b.instructions, ∀ p ∈ i.demands, f.Defines m p.1 p.2) ∧
      ∀ b ∈ f.attached, ∀ dest callee args, .call dest callee args ∈ b.instructions →
        ∃ g, m.function? callee = some g ∧ g.arity = args.length := by
  simp only [checkTypes, checkAll_eq_ok, checkOperands_eq_ok]
  constructor
  · intro h
    exact ⟨fun b hb i hi => (h b hb i hi).1, fun b hb dest callee args hi => (h b hb _ hi).2 dest callee args rfl⟩
  · rintro ⟨hoperands, hcallees⟩ b hb i hi
    refine ⟨hoperands b hb i hi, ?_⟩
    rintro dest callee args rfl
    exact hcallees b hb dest callee args hi

/-- The checks accept declarations and well-formed definitions. -/
theorem check_eq_ok : f.check m = .ok () ↔ f.isDeclaration = true ∨ f.WellFormed m := by
  unfold check
  by_cases hdecl : f.isDeclaration = true
  · simp [hdecl]
  · simp only [hdecl, Bool.false_eq_true, if_false, false_or, check_seq_eq_ok, checkShapes_eq_ok, checkPhis_eq_ok,
      checkTypes_eq_ok]
    constructor
    · rintro ⟨⟨hends, htargets, hlead, hslots⟩, hphis, hoperands, hcallees⟩
      exact ⟨hends, htargets, hlead, hslots, hphis, hoperands, hcallees⟩
    · rintro ⟨hends, htargets, hlead, hslots, hphis, hoperands, hcallees⟩
      exact ⟨⟨hends, htargets, hlead, hslots⟩, hphis, hoperands, hcallees⟩

end Function

/-! ## Other orders -/

/-- The values of a phi may come in another order. -/
inductive Instruction.Reorders : Instruction → Instruction → Prop
  | refl (i : Instruction) : Reorders i i
  | phi {dest : Nat} {ty : Ty} {incoming incoming' : List (Value × String)} (h : incoming.Perm incoming') :
    Reorders (.phi dest ty incoming) (.phi dest ty incoming')

/-- The block is the same up to the order of the values of its phis. -/
structure Block.Reorders (b b' : Block) : Prop where
  label : b'.label = b.label
  instructions : List.Forall₂ Instruction.Reorders b.instructions b'.instructions

/-- The function is the same up to the order of its blocks behind the entry and of the values of its phis. -/
structure Function.Rearranges (f g : Function) : Prop where
  name : g.name = f.name
  params : g.params = f.params
  temps : g.temps = f.temps
  blocks : List.Forall₂ Block.Reorders f.blocks g.blocks
  entry : g.entry? = f.entry?
  entry_exists : ∀ id, f.entry? = some id → (f.block? id).isSome
  others : f.layout.tail.Perm g.layout.tail

namespace Instruction.Reorders

variable {i j : Instruction}

theorem symm (h : i.Reorders j) : j.Reorders i := by
  cases h with
  | refl => exact .refl _
  | phi h => exact .phi h.symm

theorem isTerminator (h : i.Reorders j) : j.isTerminator = i.isTerminator := by cases h <;> rfl

theorem isPhi (h : i.Reorders j) : j.isPhi = i.isPhi := by cases h <;> rfl

theorem successors (h : i.Reorders j) : j.successors = i.successors := by cases h <;> rfl

theorem demands (h : i.Reorders j) : i.demands.Perm j.demands := by
  cases h with
  | refl => exact .refl _
  | phi h => exact h.map _

end Instruction.Reorders

theorem exists_of_forall₂ {α β : Type} {R : α → β → Prop} {as : List α} {bs : List β} (h : List.Forall₂ R as bs) {b : β}
    (hb : b ∈ bs) : ∃ a ∈ as, R a b := by
  induction h with
  | nil => cases hb
  | @cons a₀ b₀ as bs hab _ ih =>
    rcases List.mem_cons.1 hb with rfl | hb
    · exact ⟨a₀, List.mem_cons_self, hab⟩
    · obtain ⟨a, ha, hab⟩ := ih hb
      exact ⟨a, List.mem_cons_of_mem _ ha, hab⟩

namespace Block.Reorders

variable {b b' : Block}

theorem symm (h : b.Reorders b') : b'.Reorders b :=
  ⟨h.label.symm, h.instructions.flip.imp fun _ _ hi => hi.symm⟩

theorem exists_mem (h : b.Reorders b') {j : Instruction} (hj : j ∈ b'.instructions) :
    ∃ i ∈ b.instructions, i.Reorders j := exists_of_forall₂ h.instructions hj

theorem alloca_mem (h : b.Reorders b') {slot : String} (hslot : .alloca slot ∈ b'.instructions) :
    .alloca slot ∈ b.instructions := by
  obtain ⟨i, hi, hij⟩ := h.exists_mem hslot
  cases hij
  exact hi

/-- Parts of a block correspond to parts of the other. -/
theorem exists_append (h : b.Reorders b') {front back : List Instruction} (hb : b.instructions = front ++ back) :
    ∃ front' back', b'.instructions = front' ++ back' ∧ List.Forall₂ Instruction.Reorders front' front ∧
      List.Forall₂ Instruction.Reorders back' back := by
  have hsymm := h.symm.instructions
  rw [hb] at hsymm
  exact ⟨_, _, (List.take_append_drop front.length _).symm, List.forall₂_take_append _ _ _ hsymm,
    List.forall₂_drop_append _ _ _ hsymm⟩

theorem endsOnce (h : b.Reorders b') (hb : b.EndsOnce) : b'.EndsOnce := by
  obtain ⟨init, last, heq, hlast, hinit⟩ := hb
  obtain ⟨init', back, heq', hinit', hback⟩ := h.exists_append heq
  obtain ⟨last', rest, hlast', hrest, rfl⟩ := List.forall₂_cons_right_iff.1 hback
  cases hrest
  refine ⟨init', last', heq', hlast'.isTerminator ▸ hlast, fun i hi => ?_⟩
  obtain ⟨j, hj, hji⟩ := exists_of_forall₂ hinit'.flip hi
  rw [← hji.isTerminator]
  exact hinit j hj

theorem phisLead (h : b.Reorders b') (hb : b.PhisLead) : b'.PhisLead := by
  obtain ⟨phis, others, heq, hphis, hothers⟩ := hb
  obtain ⟨phis', others', heq', hphis', hothers'⟩ := h.exists_append heq
  refine ⟨phis', others', heq', fun i hi => ?_, fun i hi => ?_⟩
  · obtain ⟨j, hj, hji⟩ := exists_of_forall₂ hphis'.flip hi
    rw [← hji.isPhi]
    exact hphis j hj
  · obtain ⟨j, hj, hji⟩ := exists_of_forall₂ hothers'.flip hi
    rw [← hji.isPhi]
    exact hothers j hj

theorem edges_eq (h : b.Reorders b') : b'.edges = b.edges := by
  have hsuccessors : b'.successors = b.successors := by
    obtain hnil | ⟨init, last, hconcat⟩ := List.eq_nil_or_concat b.instructions
    · have hnil' : b'.instructions = [] := List.forall₂_nil_left_iff.1 (hnil ▸ h.instructions)
      rw [successors, successors, hnil, hnil']
    · rw [List.concat_eq_append] at hconcat
      obtain ⟨init', back, heq', -, hback⟩ := h.exists_append hconcat
      obtain ⟨last', rest, hlast', hrest, rfl⟩ := List.forall₂_cons_right_iff.1 hback
      cases hrest
      rw [successors_of_concat hconcat, successors_of_concat heq', hlast'.successors]
  rw [Block.edges_eq, Block.edges_eq, hsuccessors, h.label]

end Block.Reorders

namespace Function.Rearranges

variable {f g : Function} {m : Module}

theorem block?_rel (h : f.Rearranges g) (id : BlockId) : Option.Rel Block.Reorders (f.block? id) (g.block? id) := by
  have hlength := h.blocks.length_eq
  unfold block?
  by_cases hid : id.index < f.blocks.length
  · rw [List.getElem?_eq_getElem hid, List.getElem?_eq_getElem (hlength ▸ hid)]
    exact .some (h.blocks.get hid (hlength ▸ hid))
  · rw [List.getElem?_eq_none (by omega), List.getElem?_eq_none (by omega)]
    exact .none

theorem exists_block (h : f.Rearranges g) {id : BlockId} {b : Block} (hb : f.block? id = some b) :
    ∃ b', g.block? id = some b' ∧ b.Reorders b' := by
  have hrel := h.block?_rel id
  rw [hb] at hrel
  generalize g.block? id = found at hrel
  cases hrel with
  | @some _ b' hreorders => exact ⟨b', rfl, hreorders⟩

theorem isDeclaration (h : f.Rearranges g) : g.isDeclaration = f.isDeclaration := by
  have hentry := h.entry
  unfold entry? at hentry
  unfold Function.isDeclaration
  cases hf : f.layout with
  | nil =>
    rw [hf] at hentry
    rw [List.head?_eq_none_iff.1 hentry]
  | cons id rest =>
    rw [hf] at hentry
    obtain ⟨rest', hg⟩ := List.head?_eq_some_iff.1 hentry
    rw [hg]
    rfl

/-- The entry corresponds to the entry, and the other blocks to the other blocks. -/
theorem attached (h : f.Rearranges g) : f.attached = [] ∧ g.attached = [] ∨ ∃ entry others entry' others' between,
    f.attached = entry :: others ∧ g.attached = entry' :: others' ∧ entry.Reorders entry' ∧
      List.Forall₂ Block.Reorders others between ∧ between.Perm others' := by
  have hentry := h.entry
  have hexists := h.entry_exists
  have hothers := h.others
  unfold entry? at hentry hexists
  unfold Function.attached
  cases hf : f.layout with
  | nil =>
    rw [hf] at hentry
    rw [List.head?_eq_none_iff.1 hentry]
    exact .inl ⟨rfl, rfl⟩
  | cons id rest =>
    rw [hf] at hentry hexists hothers
    obtain ⟨rest', hg⟩ := List.head?_eq_some_iff.1 hentry
    rw [hg] at hothers
    obtain ⟨entry, hentry⟩ := Option.isSome_iff_exists.1 (hexists id rfl)
    obtain ⟨entry', hentry', hreorders⟩ := h.exists_block hentry
    refine .inr ⟨entry, rest.filterMap f.block?, entry', rest'.filterMap g.block?, rest.filterMap g.block?,
      List.filterMap_cons_some hentry, ?_, hreorders, ?_, hothers.filterMap _⟩
    · rw [hg, List.filterMap_cons_some hentry']
    · refine List.rel_filterMap (R := Eq) ?_ (List.forall₂_refl rest)
      rintro id _ rfl
      exact h.block?_rel id

theorem symm (h : f.Rearranges g) : g.Rearranges f where
  name := h.name.symm
  params := h.params.symm
  temps := h.temps.symm
  blocks := h.blocks.flip.imp fun _ _ hb => hb.symm
  entry := h.entry.symm
  entry_exists id hid := by
    obtain ⟨b, hb⟩ := Option.isSome_iff_exists.1 (h.entry_exists id (h.entry ▸ hid))
    obtain ⟨b', hb', -⟩ := h.exists_block hb
    rw [hb']
    rfl
  others := h.others.symm

/-- The blocks correspond to each other, and the entry to the entry. -/
theorem exists_attached (h : f.Rearranges g) {b' : Block} (hb' : b' ∈ g.attached) :
    ∃ b ∈ f.attached, b.Reorders b' := by
  obtain ⟨-, hg⟩ | ⟨entry, others, entry', others', between, hf, hg, hentry, hbetween, hperm⟩ := h.attached
  · rw [hg] at hb'
    cases hb'
  · rw [hg] at hb'
    rcases List.mem_cons.1 hb' with rfl | hb'
    · exact ⟨entry, by simp [hf], hentry⟩
    · obtain ⟨b, hb, hreorders⟩ := exists_of_forall₂ hbetween (hperm.mem_iff.2 hb')
      exact ⟨b, by simp [hf, hb], hreorders⟩

theorem exists_tail (h : f.Rearranges g) {b' : Block} (hb' : b' ∈ g.attached.tail) :
    ∃ b ∈ f.attached.tail, b.Reorders b' := by
  obtain ⟨-, hg⟩ | ⟨entry, others, entry', others', between, hf, hg, -, hbetween, hperm⟩ := h.attached
  · rw [hg] at hb'
    cases hb'
  · rw [hg] at hb'
    rw [hf]
    exact exists_of_forall₂ hbetween (hperm.mem_iff.2 hb')

theorem exists_head (h : f.Rearranges g) {entry : Block} (hentry : f.attached.head? = some entry) :
    ∃ entry', g.attached.head? = some entry' ∧ entry.Reorders entry' := by
  obtain ⟨hf, -⟩ | ⟨entry₀, others, entry', others', between, hf, hg, hreorders, -⟩ := h.attached
  · rw [hf] at hentry
    cases hentry
  · rw [hf] at hentry
    cases hentry
    exact ⟨entry', by simp [hg], hreorders⟩

theorem edges_perm (h : f.Rearranges g) : f.edges.Perm g.edges := by
  unfold edges
  obtain ⟨hf, hg⟩ | ⟨entry, others, entry', others', between, hf, hg, hentry, hbetween, hperm⟩ := h.attached
  · rw [hf, hg]
  · have hothers : others.flatMap Block.edges = between.flatMap Block.edges := by
      clear hf hperm
      induction hbetween with
      | nil => rfl
      | cons hb _ ih => rw [List.flatMap_cons, List.flatMap_cons, hb.edges_eq, ih]
    rw [hf, hg, List.flatMap_cons, List.flatMap_cons, hentry.edges_eq, hothers]
    exact (hperm.flatMap_right _).append_left _

theorem defines (h : f.Rearranges g) {v : Value} {ty : Ty} (hv : f.Defines m v ty) : g.Defines m v ty := by
  cases hv with
  | constFloat x => exact .constFloat x
  | constBool b => exact .constBool b
  | param hp => exact .param (h.params ▸ hp)
  | temp hty => exact .temp (h.temps ▸ hty)
  | slot hentry hslot =>
    obtain ⟨entry', hentry', hreorders⟩ := h.exists_head hentry
    exact .slot hentry' (hreorders.symm.alloca_mem hslot)
  | global hg => exact .global hg
  | function hg => exact .function hg

theorem wellFormed (h : f.Rearranges g) (hf : f.WellFormed m) : g.WellFormed m where
  ends b' hb' := by
    obtain ⟨b, hb, hreorders⟩ := h.exists_attached hb'
    exact hreorders.endsOnce (hf.ends b hb)
  targets e he := by
    obtain ⟨b, hb, hlabel⟩ := hf.targets e (h.edges_perm.mem_iff.2 he)
    obtain ⟨b', hb', hreorders⟩ := h.symm.exists_attached hb
    exact ⟨b', hb', hreorders.label.symm.trans hlabel⟩
  phis_lead b' hb' := by
    obtain ⟨b, hb, hreorders⟩ := h.exists_attached hb'
    exact hreorders.phisLead (hf.phis_lead b hb)
  slots_in_entry b' hb' slot hslot := by
    obtain ⟨b, hb, hreorders⟩ := h.exists_tail hb'
    exact hf.slots_in_entry b hb slot (hreorders.alloca_mem hslot)
  phis_match b' hb' dest ty incoming hi := by
    obtain ⟨b, hb, hreorders⟩ := h.exists_attached hb'
    obtain ⟨i, hi, hij⟩ := hreorders.exists_mem hi
    have hedges := (h.edges_perm.filter (·.2 = b.label)).map Prod.fst
    rw [hreorders.label]
    cases hij with
    | refl => exact (hf.phis_match b hb dest ty _ hi).trans hedges
    | phi hperm => exact ((hperm.map Prod.snd).symm.trans (hf.phis_match b hb dest ty _ hi)).trans hedges
  operands b' hb' j hj p hp := by
    obtain ⟨b, hb, hreorders⟩ := h.exists_attached hb'
    obtain ⟨i, hi, hij⟩ := hreorders.exists_mem hj
    exact h.defines (hf.operands b hb i hi p (hij.demands.mem_iff.2 hp))
  callees b' hb' dest callee args hi := by
    obtain ⟨b, hb, hreorders⟩ := h.exists_attached hb'
    obtain ⟨i, hi, hij⟩ := hreorders.exists_mem hi
    cases hij
    exact hf.callees b hb dest callee args hi

theorem check_iff (h : f.Rearranges g) : g.check m = .ok () ↔ f.check m = .ok () := by
  rw [check_eq_ok, check_eq_ok, h.isDeclaration]
  exact or_congr_right ⟨h.symm.wellFormed, h.wellFormed⟩

/-- The module has the same functions and globals with the function in the place of the other. -/
theorem arity?_modifyFunction (h : f.Rearranges g) (hf : m.function? f.name = some f) (name : String) :
    (m.modifyFunction f.name fun _ => g).arity? name = m.arity? name := by
  have hsome : (m.function? g.name).isSome := by rw [h.name, hf]; rfl
  rw [Module.arity?, Module.arity?, ← h.name, Module.function?_modifyFunction hsome]
  split
  · next hname =>
    rw [hname, h.name, hf]
    exact congrArg (some ·.length) h.params
  · rfl

end Function.Rearranges

/-- The checks decide well-formedness: they accept a function of a module exactly if it is a declaration or well formed.
Another order of the blocks behind the entry, or of the values of phis, does not change the verdict, neither in the
module as it is nor in the module with the function replaced. -/
theorem check_decides_wellFormed (m : Module) (f : Function) :
    (f.check m = .ok () ↔ f.isDeclaration = true ∨ f.WellFormed m) ∧
    ∀ g, f.Rearranges g → (g.check m = .ok () ↔ f.check m = .ok ()) ∧
      (m.function? f.name = some f →
        (g.check (m.modifyFunction f.name fun _ => g) = .ok () ↔ f.check m = .ok ())) := by
  refine ⟨Function.check_eq_ok, fun g h => ⟨h.check_iff, fun hf => ?_⟩⟩
  have harity := h.arity?_modifyFunction hf
  have hcovers : m.Covers (m.modifyFunction f.name fun _ => g) := ⟨fun ha => (harity _).trans ha, id⟩
  have hcovered : (m.modifyFunction f.name fun _ => g).Covers m := ⟨fun ha => (harity _).symm.trans ha, id⟩
  rw [← h.check_iff]
  exact ⟨Function.check_covers hcovered, Function.check_covers hcovers⟩

/-- Two ways from the entry to a phi: the blocks in between and the block of the phi in another order, and the values of
the phi as well. -/
theorem check_decides_wellFormed_diamond :
    let one := Value.constFloat 1
    let x := Value.param 0 "x"
    let joined (layout : List BlockId) (incoming : List (Value × String)) : Function := {
      name := "f", params := ["x"], layout := layout, temps := [.bool, .f64],
      blocks := [⟨"entry", [.compare 0 .ult x one, .condBr (.temp 0) "a" "b"]⟩, ⟨"a", [.br "end"]⟩, ⟨"b", [.br "end"]⟩,
        ⟨"end", [.phi 1 .f64 incoming, .ret (.temp 1)]⟩] }
    let f := joined [⟨0⟩, ⟨1⟩, ⟨2⟩, ⟨3⟩] [(one, "a"), (x, "b")]
    let g := joined [⟨0⟩, ⟨3⟩, ⟨2⟩, ⟨1⟩] [(x, "b"), (one, "a")]
    let m : Module := ⟨"m", [f], []⟩
    f.Rearranges g ∧ f.check m = .ok () ∧ g.check (m.modifyFunction "f" fun _ => g) = .ok () := by
  intro one x joined f g m
  have hsame (b : Block) : b.Reorders b := ⟨rfl, List.forall₂_same.2 fun i _ => .refl i⟩
  have hend : (⟨"end", [.phi 1 .f64 [(one, "a"), (x, "b")], .ret (.temp 1)]⟩ : Block).Reorders
      ⟨"end", [.phi 1 .f64 [(x, "b"), (one, "a")], .ret (.temp 1)]⟩ :=
    ⟨rfl, .cons (.phi (.swap _ _ _)) (.cons (.refl _) .nil)⟩
  have hrearranges : f.Rearranges g := {
    name := rfl
    params := rfl
    temps := rfl
    blocks := .cons (hsame _) (.cons (hsame _) (.cons (hsame _) (.cons hend .nil)))
    entry := rfl
    entry_exists := by rintro _ ⟨⟩; rfl
    others := by decide }
  have hphis : f.checkPhis = .ok () := by
    refine Function.checkPhis_eq_ok.2 fun b hb dest ty incoming hi => ?_
    have hblocks : b ∈ f.blocks := hb
    simp only [f, joined, List.mem_cons, List.not_mem_nil, or_false] at hblocks
    rcases hblocks with rfl | rfl | rfl | rfl <;> simp at hi
    obtain ⟨-, -, rfl⟩ := hi
    decide
  have hcheck : f.check m = .ok () := by
    rw [Function.check, hphis]
    decide +kernel
  obtain ⟨-, hverdict⟩ := check_decides_wellFormed m f
  exact ⟨hrearranges, hcheck, ((hverdict g hrearranges).2 rfl).2 hcheck⟩

end Monofloat.Ir
