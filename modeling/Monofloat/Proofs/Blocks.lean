import Mathlib.Data.List.Perm.Basic
import Monofloat.Proofs.Building
import Monofloat.Proofs.Names

/-!
# Blocks and their changes

What a block is made of (`slots` in front, then its `body`), where control goes from it, and how the steps on a
function change its blocks: one block grows at its end, a slot is reserved in the entry, or a block is new.
-/

namespace Monofloat.Ir

namespace Instruction

theorem successors_eq_nil {i : Instruction} (h : i.isTerminator = false) : i.successors = [] := by
  cases i <;> first | rfl | cases h

theorem slot?_of_isTerminator {i : Instruction} (h : i.isTerminator = true) : i.slot? = none := by
  cases i <;> first | rfl | cases h

theorem dest?_of_isTerminator {i : Instruction} (h : i.isTerminator = true) : i.dest? = none := by
  cases i <;> first | rfl | cases h

end Instruction

namespace Block

/-- The instructions behind the slots. -/
def body (b : Block) : List Instruction := b.instructions.filter (·.slot?.isNone)

@[simp] theorem label_append (b : Block) (i : Instruction) : (b.append i).label = b.label := rfl
@[simp] theorem label_prepend (b : Block) (i : Instruction) : (b.prepend i).label = b.label := rfl

theorem body_eq_nil {b : Block} (h : b.instructions = []) : b.body = [] := by rw [body, h]; rfl

theorem body_append {i : Instruction} (h : i.slot? = none) (b : Block) : (b.append i).body = b.body ++ [i] := by
  simp [body, append, h]

@[simp]
theorem body_prepend_alloca (b : Block) (slot : String) : (b.prepend (.alloca slot)).body = b.body := by
  simp [body, prepend, Instruction.slot?]

theorem slots_append {i : Instruction} (h : i.slot? = none) (b : Block) : (b.append i).slots = b.slots := by
  simp [slots, append, h]

@[simp]
theorem slots_prepend_alloca (b : Block) (slot : String) :
    (b.prepend (.alloca slot)).slots = slot :: b.slots := by
  simp [slots, prepend, Instruction.slot?]

@[simp]
theorem isTerminated_append (b : Block) (i : Instruction) : (b.append i).isTerminated = i.isTerminator := by
  simp [isTerminated, terminator?, append, Option.isSome_filter]

@[simp]
theorem isTerminated_prepend_alloca (b : Block) (slot : String) :
    (b.prepend (.alloca slot)).isTerminated = b.isTerminated := by
  unfold isTerminated terminator? prepend
  cases b.instructions with
  | nil => rfl
  | cons i is => simp [List.getLast?_cons_cons]

@[simp]
theorem successors_append (b : Block) (i : Instruction) : (b.append i).successors = i.successors := by
  simp [successors, append]

@[simp]
theorem successors_prepend_alloca (b : Block) (slot : String) :
    (b.prepend (.alloca slot)).successors = b.successors := by
  unfold successors prepend
  cases b.instructions with
  | nil => rfl
  | cons i is => simp [List.getLast?_cons_cons]

/-- Control leaves a block through its terminator only. -/
theorem successors_eq_nil {b : Block} (h : b.isTerminated = false) : b.successors = [] := by
  unfold isTerminated terminator? at h
  unfold successors
  cases hl : b.instructions.getLast? with
  | none => rfl
  | some i =>
    rw [hl] at h
    refine Instruction.successors_eq_nil ?_
    simpa [Option.isSome_filter] using h

/-- The slots stand in front, a phi may only come first behind them, and a terminator only last. -/
structure Tidy (b : Block) : Prop where
  instructions_eq : b.instructions = b.slots.map .alloca ++ b.body
  phi_first : ∀ i ∈ b.body.tail, i.isPhi = false
  terminator_last : ∀ i ∈ b.body.dropLast, i.isTerminator = false

namespace Tidy

variable {b : Block}

/-- A block that takes instructions has no terminator. -/
theorem not_terminator (h : b.Tidy) (ht : b.isTerminated = false) : ∀ i ∈ b.body, i.isTerminator = false := by
  intro i hi
  rcases List.eq_nil_or_concat b.body with hnil | ⟨init, last, hconcat⟩
  · rw [hnil] at hi
    cases hi
  · rw [List.concat_eq_append] at hconcat
    have hlast : last.isTerminator = false := by
      unfold isTerminated terminator? at ht
      rw [h.instructions_eq, hconcat, ← List.append_assoc, List.getLast?_concat] at ht
      simpa [Option.isSome_filter] using ht
    have hinit := h.terminator_last
    rw [hconcat, List.dropLast_concat] at hinit
    rw [hconcat] at hi
    rcases List.mem_append.1 hi with hi | hi
    · exact hinit i hi
    · rwa [List.mem_singleton.1 hi]

/-- What was tidy stays so with one more instruction, if that is no phi or comes first. -/
theorem append (h : b.Tidy) (ht : b.isTerminated = false) {i : Instruction} (hs : i.slot? = none)
    (hp : i.isPhi = false ∨ b.body = []) : (b.append i).Tidy := by
  have hbody := body_append hs b
  refine ⟨?_, ?_, ?_⟩
  · rw [slots_append hs, hbody, ← List.append_assoc, ← h.instructions_eq]
    rfl
  · rw [hbody]
    cases hb : b.body with
    | nil => simp
    | cons j js =>
      rcases hp with hp | hnil
      · intro k hk
        rcases List.mem_append.1 hk with hk | hk
        · exact h.phi_first k (by rw [hb]; exact hk)
        · rwa [List.mem_singleton.1 hk]
      · rw [hb] at hnil
        cases hnil
  · rw [hbody, List.dropLast_concat]
    exact h.not_terminator ht

theorem prepend_alloca (h : b.Tidy) (slot : String) : (b.prepend (.alloca slot)).Tidy := by
  refine ⟨?_, by simpa using h.phi_first, by simpa using h.terminator_last⟩
  rw [slots_prepend_alloca, body_prepend_alloca, List.map_cons, List.cons_append, ← h.instructions_eq]
  rfl

theorem successors_eq (h : b.Tidy) {init : List Instruction} {t : Instruction} (hbody : b.body = init ++ [t]) :
    b.successors = t.successors := by
  unfold successors
  rw [h.instructions_eq, hbody, ← List.append_assoc, List.getLast?_concat]

/-- A complete block ends in a terminator. -/
theorem exists_terminator (h : b.Tidy) (ht : b.isTerminated = true) :
    ∃ init t, b.body = init ++ [t] ∧ t.isTerminator = true := by
  unfold isTerminated terminator? at ht
  rw [h.instructions_eq] at ht
  rcases List.eq_nil_or_concat b.body with hnil | ⟨init, t, hconcat⟩
  · rw [hnil, List.append_nil, List.getLast?_map] at ht
    cases hl : b.slots.getLast? with
    | none => rw [hl] at ht; cases ht
    | some slot => rw [hl] at ht; cases ht
  · rw [List.concat_eq_append] at hconcat
    rw [hconcat, ← List.append_assoc, List.getLast?_concat] at ht
    exact ⟨init, t, hconcat, by simpa [Option.isSome_filter] using ht⟩

/-- A complete block cannot get more instructions and stay tidy. -/
theorem more_eq_nil {b' : Block} (h : b.Tidy) (h' : b'.Tidy) (ht : b.isTerminated = true)
    {more : List Instruction} (hbody : b'.body = b.body ++ more) : more = [] := by
  obtain ⟨init, t, hinit, hterm⟩ := h.exists_terminator ht
  by_contra hne
  have hmem : t ∈ b'.body.dropLast := by
    rw [hbody, List.dropLast_append_of_ne_nil hne, hinit]
    simp
  rw [h'.terminator_last t hmem] at hterm
  cases hterm

/-- A block keeps its ways out when it gets more instructions. -/
theorem successors_subset {b' : Block} (h : b.Tidy) (h' : b'.Tidy) {more : List Instruction}
    (hbody : b'.body = b.body ++ more) : b.successors ⊆ b'.successors := by
  cases ht : b.isTerminated with
  | false => rw [Block.successors_eq_nil ht]; exact List.nil_subset _
  | true =>
    obtain ⟨init, t, hinit, -⟩ := h.exists_terminator ht
    rw [h.more_eq_nil h' ht hbody, List.append_nil, hinit] at hbody
    rw [h.successors_eq hinit, h'.successors_eq hbody]
    exact List.Subset.refl _

end Tidy

end Block

/-! ## The blocks of a function -/

namespace Function

variable {f : Function} {c : BlockId} {b : Block}

theorem block?_modifyBlock (f : Function) (c : BlockId) (g : Block → Block) (id : BlockId) :
    (f.modifyBlock c g).block? id = if id = c then (f.block? c).map g else f.block? id := by
  unfold block? modifyBlock
  rw [List.getElem?_modify]
  by_cases h : id = c
  · subst h
    simp
  · have hne : c.index ≠ id.index := fun he => h (by cases id; cases c; exact congrArg _ he.symm)
    simp [h, hne]

theorem block?_emit (hb : f.block? c = some b) (i : Instruction) (id : BlockId) :
    (f.emit c i).block? id = if id = c then some (b.append i) else f.block? id := by
  rw [emit, block?_modifyBlock, hb]
  rfl

theorem block?_reserve (f : Function) (entry : BlockId) (name : String) (id : BlockId) :
    (f.reserve entry name).block? id =
      if id = entry then (f.block? entry).map (·.prepend (.alloca (f.slotFor name))) else f.block? id := by
  rw [reserve, block?_modifyBlock]
  rfl

theorem block?_nextBlock (f : Function) : f.block? f.nextBlock = none := by
  simp [block?, nextBlock]

/-- The label that a new block gets. -/
def labelFor (f : Function) (label : String) : String := (f.freshName label).1

theorem block?_create (f : Function) (label : String) (id : BlockId) :
    (f.create label).block? id =
      if id = f.nextBlock then some { label := f.labelFor label } else f.block? id := by
  have hblocks : (f.create label).blocks = f.blocks ++ [{ label := f.labelFor label }] := rfl
  unfold block?
  rw [hblocks]
  split
  · next h => subst h; simp [nextBlock]
  · next h =>
    have hne : id.index ≠ f.blocks.length := fun he => h (by cases id; exact congrArg _ he)
    rcases Nat.lt_or_gt_of_ne hne with hlt | hgt
    · rw [List.getElem?_append_left hlt]
    · rw [List.getElem?_eq_none (by simp; omega), List.getElem?_eq_none (by omega)]

@[simp] theorem block?_attach (f : Function) (id id' : BlockId) : (f.attach id).block? id' = f.block? id' := rfl

theorem ne_nextBlock (h : f.block? c = some b) : c ≠ f.nextBlock := by
  rintro rfl
  rw [block?_nextBlock] at h
  cases h

/-! Where a block comes from: it is the one that has changed, or it was there. -/

theorem emit_cases {i : Instruction} {id : BlockId} {b' : Block} (hc : f.block? c = some b)
    (hb : (f.emit c i).block? id = some b') : id = c ∧ b' = b.append i ∨ id ≠ c ∧ f.block? id = some b' := by
  rw [block?_emit hc] at hb
  split at hb
  · next hid => exact .inl ⟨hid, (Option.some.inj hb).symm⟩
  · next hid => exact .inr ⟨hid, hb⟩

theorem create_cases {label : String} {id : BlockId} (hb : (f.create label).block? id = some b) :
    id = f.nextBlock ∧ b = { label := f.labelFor label } ∨ id ≠ f.nextBlock ∧ f.block? id = some b := by
  rw [block?_create] at hb
  split at hb
  · next hid => exact .inl ⟨hid, (Option.some.inj hb).symm⟩
  · next hid => exact .inr ⟨hid, hb⟩

theorem reserve_cases {name : String} {id : BlockId} {b' : Block} (hc : f.block? c = some b)
    (hb : (f.reserve c name).block? id = some b') :
    id = c ∧ b' = b.prepend (.alloca (f.slotFor name)) ∨ id ≠ c ∧ f.block? id = some b' := by
  rw [block?_reserve, hc] at hb
  split at hb
  · next hid => exact .inl ⟨hid, (Option.some.inj hb).symm⟩
  · next hid => exact .inr ⟨hid, hb⟩

theorem mem_blocks_iff : b ∈ f.blocks ↔ ∃ id, f.block? id = some b := by
  rw [List.mem_iff_getElem?]
  exact ⟨fun ⟨i, h⟩ => ⟨⟨i⟩, h⟩, fun ⟨id, h⟩ => ⟨id.index, h⟩⟩

/-- One block stands between the others, and changing it leaves them alone. -/
theorem exists_blocks_eq (h : f.block? c = some b) :
    ∃ before after, f.blocks = before ++ b :: after ∧
      ∀ g, (f.modifyBlock c g).blocks = before ++ g b :: after := by
  obtain ⟨hlt, rfl⟩ := List.getElem?_eq_some_iff.1 h
  refine ⟨f.blocks.take c.index, f.blocks.drop (c.index + 1), ?_, fun g => ?_⟩
  · rw [← List.drop_eq_getElem_cons hlt, List.take_append_drop]
  · exact List.modify_eq_take_cons_drop hlt

/-- What all blocks have together is what one of them has, if the others have nothing. -/
theorem flatMap_blocks_eq {α : Type} {g : Block → List α} (hb : f.block? c = some b)
    (h : ∀ {id b'}, f.block? id = some b' → id ≠ c → g b' = []) : f.blocks.flatMap g = g b := by
  obtain ⟨hlt, heq⟩ := List.getElem?_eq_some_iff.1 hb
  have hnil : ∀ {j b'}, f.blocks[j]? = some b' → j ≠ c.index → g b' = [] := fun {j b'} hj hne =>
    h (by exact hj : f.block? ⟨j⟩ = some b') fun heq => hne (congrArg BlockId.index heq)
  have hbefore : (f.blocks.take c.index).flatMap g = [] := by
    refine List.flatMap_eq_nil_iff.2 fun b' hb' => ?_
    obtain ⟨j, hj⟩ := List.mem_iff_getElem?.1 hb'
    rw [List.getElem?_take] at hj
    split at hj
    · exact hnil hj (by omega)
    · cases hj
  have hafter : (f.blocks.drop (c.index + 1)).flatMap g = [] := by
    refine List.flatMap_eq_nil_iff.2 fun b' hb' => ?_
    obtain ⟨j, hj⟩ := List.mem_iff_getElem?.1 hb'
    rw [List.getElem?_drop] at hj
    exact hnil hj (by omega)
  rw [← List.take_append_drop c.index f.blocks, List.drop_eq_getElem_cons hlt, List.flatMap_append, List.flatMap_cons,
    hbefore, hafter, List.nil_append, List.append_nil, heq]

/-- The slots of the entry block. -/
def slots (f : Function) : List String := ((f.block? ⟨0⟩).map Block.slots).getD []

/-- The labels of the blocks that branch to a label, once for each way they do, whether attached or not. -/
def sources (f : Function) (label : String) : List String :=
  f.blocks.flatMap fun b => (b.successors.filter (· = label)).map fun _ => b.label

/-- The temporaries that are written, once for each instruction. -/
def dests (f : Function) : List Nat := f.blocks.flatMap fun b => b.body.filterMap Instruction.dest?

/-- Control can come to the block from the entry. -/
inductive Reaches (f : Function) : BlockId → Prop where
  | entry : Reaches f ⟨0⟩
  | step {id id' b b'} : Reaches f id → f.block? id = some b → f.block? id' = some b' →
      b'.label ∈ b.successors → Reaches f id'

theorem Reaches.mono {f f' : Function} (h : ∀ id b, f.block? id = some b → ∃ b', f'.block? id = some b' ∧
    b'.label = b.label ∧ b.successors ⊆ b'.successors) {id : BlockId} (hr : f.Reaches id) : f'.Reaches id := by
  induction hr with
  | entry => exact .entry
  | @step id id' b b' _ hb hb' hmem ih =>
    obtain ⟨b₁, h₁, -, hsub⟩ := h id b hb
    obtain ⟨b₂, h₂, hlabel, -⟩ := h id' b' hb'
    exact ih.step h₁ h₂ (hlabel ▸ hsub hmem)

theorem slots_emit (hb : f.block? c = some b) {i : Instruction} (hi : i.slot? = none) :
    (f.emit c i).slots = f.slots := by
  unfold slots
  rw [block?_emit hb]
  split
  · next h => rw [h, hb]; simp [Block.slots_append hi]
  · rfl

theorem slots_create (f : Function) (label : String) (h : (f.block? ⟨0⟩).isSome) :
    (f.create label).slots = f.slots := by
  obtain ⟨b, hb⟩ := Option.isSome_iff_exists.1 h
  unfold slots
  rw [block?_create, if_neg (ne_nextBlock hb)]

theorem slots_reserve {name : String} (h : f.block? ⟨0⟩ = some b) :
    (f.reserve ⟨0⟩ name).slots = f.slotFor name :: f.slots := by
  unfold slots
  rw [block?_reserve, if_pos rfl, h]
  simp

theorem sources_emit (hb : f.block? c = some b) (ht : b.isTerminated = false) (i : Instruction) (label : String) :
    ((f.emit c i).sources label).Perm
      ((i.successors.filter (· = label)).map (fun _ => b.label) ++ f.sources label) := by
  obtain ⟨before, after, heq, hmod⟩ := exists_blocks_eq hb
  have hemit : (f.emit c i).blocks = before ++ b.append i :: after := hmod _
  simp only [sources, hemit, heq, List.flatMap_append, List.flatMap_cons, Block.successors_append,
    Block.label_append, Block.successors_eq_nil ht, List.filter_nil, List.map_nil, List.nil_append]
  rw [← List.append_assoc, ← List.append_assoc]
  exact List.perm_append_comm.append_right _

theorem sources_create (f : Function) (name label : String) : (f.create name).sources label = f.sources label := by
  have hblocks : (f.create name).blocks = f.blocks ++ [{ label := f.labelFor name }] := rfl
  simp [sources, hblocks, Block.successors]

theorem sources_reserve (hb : f.block? c = some b) (name label : String) :
    (f.reserve c name).sources label = f.sources label := by
  obtain ⟨before, after, heq, hmod⟩ := exists_blocks_eq hb
  have hreserve : (f.reserve c name).blocks = before ++ b.prepend (.alloca (f.slotFor name)) :: after := hmod _
  simp [sources, hreserve, heq]

theorem dests_emit (hb : f.block? c = some b) {i : Instruction} (hi : i.slot? = none) :
    (f.emit c i).dests.Perm (f.dests ++ i.dest?.toList) := by
  obtain ⟨before, after, heq, hmod⟩ := exists_blocks_eq hb
  have hemit : (f.emit c i).blocks = before ++ b.append i :: after := hmod _
  have hdest : [i].filterMap Instruction.dest? = i.dest?.toList := by cases h : i.dest? <;> simp [h]
  simp only [dests, hemit, heq, List.flatMap_append, List.flatMap_cons, Block.body_append hi,
    List.filterMap_append, hdest, List.append_assoc]
  exact ((List.perm_append_comm.append_left _).append_left _)

theorem dests_create (f : Function) (name : String) : (f.create name).dests = f.dests := by
  have hblocks : (f.create name).blocks = f.blocks ++ [{ label := f.labelFor name }] := rfl
  simp [dests, hblocks, Block.body]

theorem dests_reserve (hb : f.block? c = some b) (name : String) : (f.reserve c name).dests = f.dests := by
  obtain ⟨before, after, heq, hmod⟩ := exists_blocks_eq hb
  have hreserve : (f.reserve c name).blocks = before ++ b.prepend (.alloca (f.slotFor name)) :: after := hmod _
  simp [dests, hreserve, heq]

end Function

end Monofloat.Ir
