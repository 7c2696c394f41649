import Monofloat.Proofs.Growth

/-!
# Functions under construction

What holds of a function at every moment while its body is built. Instructions go to the current block `c`. The
blocks of `W` wait: they are empty, and control cannot come to some of them yet. Those of `D` among them are not
attached. Every other block is complete, which means that it ends in its only terminator.

Each step of the construction keeps this up: an instruction in the current block, a phi in a block that was
empty, a new block, a new slot, and a branch that completes the current block and opens one that waits.
-/

namespace Monofloat.Ir

namespace Instruction

def isRet : Instruction → Bool
  | ret _ => true
  | _ => false

/-- The instruction reserves no slot, joins no values and ends no block. -/
structure Plain (i : Instruction) : Prop where
  slot : i.slot? = none
  phi : i.isPhi = false
  terminator : i.isTerminator = false

end Instruction

namespace Function

/-! ## Names -/

/-- The labels are all different, and so are the slots. -/
structure Named (f : Function) : Prop where
  labels_nodup : (f.blocks.map Block.label).Nodup
  labels_taken : ∀ {id b}, f.block? id = some b → b.label ∈ f.names.taken
  slots_nodup : f.slots.Nodup
  slots_taken : ∀ {s}, s ∈ f.slots → s ∈ f.names.taken

/-- A label belongs to one block. -/
theorem Named.id_eq {f : Function} (h : f.Named) {id id' : BlockId} {b b' : Block} (hb : f.block? id = some b)
    (hb' : f.block? id' = some b') (hl : b.label = b'.label) : id = id' := by
  have hget : ∀ {id : BlockId} {b : Block}, f.block? id = some b →
      (f.blocks.map Block.label)[id.index]? = some b.label := by
    intro id b hb
    rw [List.getElem?_map, show f.blocks[id.index]? = some b from hb]
    rfl
  have hlt : id.index < (f.blocks.map Block.label).length := by
    rw [List.length_map]
    exact (List.getElem?_eq_some_iff.1 hb).1
  have := (List.getElem?_inj hlt h.labels_nodup).1 ((hget hb).trans (by rw [hl, hget hb']))
  cases id
  cases id'
  exact congrArg _ this

namespace Named

variable {f f' : Function}

theorem of_eq (h : f.Named) (hblocks : f'.blocks = f.blocks) (hnames : f'.names = f.names) : f'.Named := by
  have hblock : ∀ id, f'.block? id = f.block? id := fun id => by rw [block?, hblocks]; rfl
  have hslots : f'.slots = f.slots := by rw [slots, hblock]; rfl
  refine ⟨by rw [hblocks]; exact h.labels_nodup, fun {id b} hb => ?_, by rw [hslots]; exact h.slots_nodup,
    fun {s} hs => ?_⟩
  · rw [hnames]
    exact h.labels_taken (hblock id ▸ hb)
  · rw [hnames]
    exact h.slots_taken (hslots ▸ hs)

theorem map_label_modifyBlock (f : Function) (c : BlockId) {g : Block → Block} (hg : ∀ b, (g b).label = b.label) :
    (f.modifyBlock c g).blocks.map Block.label = f.blocks.map Block.label := by
  refine List.ext_getElem? fun i => ?_
  simp only [List.getElem?_map]
  have hb := block?_modifyBlock f c g ⟨i⟩
  rw [show (f.modifyBlock c g).blocks[i]? = _ from hb]
  split
  · next h =>
    subst h
    rw [show f.blocks[i]? = f.block? ⟨i⟩ from rfl]
    cases f.block? ⟨i⟩ <;> simp [hg]
  · rfl

theorem emit (h : f.Named) {c : BlockId} {b : Block} (hb : f.block? c = some b) {i : Instruction}
    (hi : i.slot? = none) : (f.emit c i).Named := by
  refine ⟨?_, fun {id b'} hb' => ?_, by rw [slots_emit hb hi]; exact h.slots_nodup,
    fun {s} hs => h.slots_taken (slots_emit hb hi ▸ hs)⟩
  · rw [Function.emit, map_label_modifyBlock f c fun b => Block.label_append b i]
    exact h.labels_nodup
  · rcases emit_cases hb hb' with ⟨-, rfl⟩ | ⟨-, hb'⟩
    · exact (h.labels_taken hb :)
    · exact h.labels_taken hb'

theorem create (h : f.Named) (hentry : (f.block? ⟨0⟩).isSome) (label : String) : (f.create label).Named := by
  have htaken : (f.create label).names.taken = f.labelFor label :: f.names.taken := NameTable.taken_fresh _ _
  have hfresh : f.labelFor label ∉ f.names.taken := NameTable.fresh_not_mem _ _
  have hblocks : (f.create label).blocks = f.blocks ++ [{ label := f.labelFor label }] := rfl
  refine ⟨?_, fun {id b} hb => ?_, by rw [slots_create f label hentry]; exact h.slots_nodup, fun {s} hs => ?_⟩
  · rw [hblocks, List.map_append, List.nodup_append]
    refine ⟨h.labels_nodup, by simp, fun a ha b hb => ?_⟩
    obtain ⟨block, hblock, rfl⟩ := List.mem_map.1 ha
    obtain ⟨id, hid⟩ := mem_blocks_iff.1 hblock
    rw [List.map_singleton, List.mem_singleton] at hb
    intro heq
    have hlabel : block.label = f.labelFor label := heq.trans hb
    exact hfresh (hlabel ▸ h.labels_taken hid)
  · rw [htaken]
    rcases create_cases hb with ⟨-, rfl⟩ | ⟨-, hb⟩
    · exact List.mem_cons_self
    · exact List.mem_cons_of_mem _ (h.labels_taken hb)
  · rw [htaken]
    exact List.mem_cons_of_mem _ (h.slots_taken (slots_create f label hentry ▸ hs))

theorem reserve (h : f.Named) {b : Block} (hb : f.block? ⟨0⟩ = some b) (name : String) :
    (f.reserve ⟨0⟩ name).Named := by
  have htaken : (f.reserve ⟨0⟩ name).names.taken = f.slotFor name :: f.names.taken := NameTable.taken_fresh _ _
  have hfresh : f.slotFor name ∉ f.names.taken := NameTable.fresh_not_mem _ _
  refine ⟨?_, fun {id b'} hb' => ?_, ?_, fun {s} hs => ?_⟩
  · have := map_label_modifyBlock (f.freshName name).2 ⟨0⟩
      (g := fun b => b.prepend (.alloca (f.slotFor name))) fun _ => rfl
    rw [Function.reserve, this]
    exact h.labels_nodup
  · rw [htaken]
    refine List.mem_cons_of_mem _ ?_
    rcases reserve_cases hb hb' with ⟨-, rfl⟩ | ⟨-, hb'⟩
    · exact (h.labels_taken hb :)
    · exact h.labels_taken hb'
  · rw [slots_reserve hb]
    exact List.nodup_cons.2 ⟨fun hmem => hfresh (h.slots_taken hmem), h.slots_nodup⟩
  · rw [htaken]
    rw [slots_reserve hb] at hs
    exact List.mem_cons.2 ((List.mem_cons.1 hs).imp id h.slots_taken)

end Named

/-! ## Layout -/

/-- The layout starts with the entry and has every block but those of `D`. -/
structure Laid (f : Function) (D : List BlockId) : Prop where
  entry : f.entry? = some ⟨0⟩
  nodup : f.layout.Nodup
  mem_iff : ∀ {id}, id ∈ f.layout ↔ (f.block? id).isSome ∧ id ∉ D

namespace Laid

variable {f f' : Function} {D D' : List BlockId}

theorem of_eq (h : f.Laid D) (hlayout : f'.layout = f.layout)
    (hblock : ∀ id, (f'.block? id).isSome = (f.block? id).isSome) : f'.Laid D :=
  ⟨by rw [ entry?, hlayout]; exact h.entry, by rw [hlayout]; exact h.nodup, by simp [hlayout, hblock, h.mem_iff]⟩

theorem emit (h : f.Laid D) {c : BlockId} {b : Block} (hb : f.block? c = some b) (i : Instruction) :
    (f.emit c i).Laid D := by
  refine h.of_eq rfl fun id => ?_
  rw [block?_emit hb]
  split
  · next hid => rw [hid, hb]; rfl
  · rfl

theorem create (h : f.Laid D) (label : String) (hD : ∀ {id}, id ∈ D' ↔ id = f.nextBlock ∨ id ∈ D) :
    (f.create label).Laid D' := by
  refine ⟨h.entry, h.nodup, fun {id} => ?_⟩
  show id ∈ f.layout ↔ _
  rw [h.mem_iff, hD, block?_create]
  by_cases hid : id = f.nextBlock
  · simp [hid, block?_nextBlock]
  · simp [hid]

theorem attach (h : f.Laid D) {id : BlockId} {b : Block} (hb : f.block? id = some b)
    (hD : ∀ {id'}, id' ∈ D ↔ id' = id ∨ id' ∈ D') (hid : id ∉ D') : (f.attach id).Laid D' := by
  have hnot : id ∉ f.layout := fun hmem => (h.mem_iff.1 hmem).2 (hD.2 (.inl rfl))
  refine ⟨?_, ?_, fun {id'} => ?_⟩
  · show (f.layout ++ [id]).head? = _
    have := h.entry
    rw [ entry?] at this
    simp [this]
  · show (f.layout ++ [id]).Nodup
    rw [List.nodup_append]
    refine ⟨h.nodup, by simp, fun a ha b hb => ?_⟩
    rw [List.mem_singleton.1 hb]
    rintro rfl
    exact hnot ha
  · show id' ∈ f.layout ++ [id] ↔ _
    rw [List.mem_append, List.mem_singleton, h.mem_iff, hD, block?_attach]
    by_cases he : id' = id
    · simp [he, hb, hid]
    · simp [he]

/-- A block that is not attached yet. -/
theorem not_mem_of_mem (h : f.Laid D) {id : BlockId} (hid : id ∈ D) : id ∉ f.layout := fun hmem =>
  (h.mem_iff.1 hmem).2 hid

theorem nextBlock_not_mem (h : f.Laid D) : f.nextBlock ∉ f.layout := by
  intro hmem
  have := (h.mem_iff.1 hmem).1
  rw [block?_nextBlock] at this
  cases this

end Laid

/-! ## Control flow -/

/-- Instructions go to the block `c`, the blocks of `W` are empty, and every other block is complete. -/
structure Flow (f : Function) (c : BlockId) (W : List BlockId) : Prop where
  tidy : ∀ {id b}, f.block? id = some b → b.Tidy
  slots_nil : ∀ {id b}, f.block? id = some b → id ≠ ⟨0⟩ → b.slots = []
  not_ret : ∀ {id b}, f.block? id = some b → ∀ i ∈ b.body, i.isRet = false
  current : ∃ b, f.block? c = some b ∧ b.isTerminated = false
  waiting : ∀ {id}, id ∈ W → id ≠ ⟨0⟩ ∧ id ≠ c ∧ ∃ b, f.block? id = some b ∧ b.instructions = []
  closed : ∀ {id b}, f.block? id = some b → id ≠ c → id ∉ W → b.isTerminated = true
  targets : ∀ {id b}, f.block? id = some b → ∀ l ∈ b.successors,
    ∃ id' b', id' ≠ ⟨0⟩ ∧ f.block? id' = some b' ∧ b'.label = l
  phis : ∀ {id b dest ty incoming}, f.block? id = some b → .phi dest ty incoming ∈ b.body →
    id ≠ ⟨0⟩ ∧ (incoming.map Prod.snd).Perm (f.sources b.label)
  reaches : ∀ {id}, (f.block? id).isSome → id ∉ W → f.Reaches id

namespace Flow

variable {f f' : Function} {c : BlockId} {W W' : List BlockId} {b : Block} {i : Instruction}

theorem of_eq (h : f.Flow c W) (hblocks : f'.blocks = f.blocks) : f'.Flow c W := by
  have hblock : f'.block? = f.block? := by funext id; rw [block?, hblocks]; rfl
  have hsources : f'.sources = f.sources := by funext l; rw [sources, hblocks]; rfl
  obtain ⟨h₁, h₂, h₃, h₄, h₅, h₆, h₇, h₈, h₉⟩ := h
  refine ⟨?_, ?_, ?_, ?_, ?_, ?_, ?_, ?_, fun {id} hid hw => (h₉ (hblock ▸ hid) hw).mono fun id b hb => ?_⟩
  all_goals rw [hblock]
  · exact h₁
  · exact h₂
  · exact h₃
  · exact h₄
  · exact h₅
  · exact h₆
  · exact h₇
  · rw [hsources]; exact h₈
  · exact ⟨b, hb, rfl, List.Subset.refl _⟩

/-- Blocks keep their labels and their ways out when the current block gets one more instruction. -/
theorem block_emit (hc : f.block? c = some b) (ht : b.isTerminated = false) (i : Instruction) {id : BlockId}
    {b' : Block} (hb : f.block? id = some b') : ∃ b'', (f.emit c i).block? id = some b'' ∧
      b''.label = b'.label ∧ b'.successors ⊆ b''.successors := by
  rw [block?_emit hc]
  split
  · next hid =>
    subst hid
    cases hc.symm.trans hb
    exact ⟨_, rfl, rfl, by rw [Block.successors_eq_nil ht]; exact List.nil_subset _⟩
  · exact ⟨b', hb, rfl, List.Subset.refl _⟩

theorem isSome_of_emit (hc : f.block? c = some b) {id : BlockId} (h : ((f.emit c i).block? id).isSome) :
    (f.block? id).isSome := by
  rw [block?_emit hc] at h
  split at h
  · next heq => rw [heq, hc]; rfl
  · exact h

/-- What holds of all blocks but for the current one, and of that with one more instruction. -/
theorem emit_block (hc : f.block? c = some b) {P : BlockId → Block → Prop}
    (h : ∀ {id b}, f.block? id = some b → P id b) (happend : P c (b.append i)) {id : BlockId} {b' : Block}
    (hb : (f.emit c i).block? id = some b') : P id b' := by
  rcases emit_cases hc hb with ⟨rfl, rfl⟩ | ⟨-, hb⟩
  · exact happend
  · exact h hb

/-- The shapes of the blocks when an instruction is added that reserves no slot and does not return. -/
theorem shapes_emit (h : f.Flow c W) (hc : f.block? c = some b) (ht : b.isTerminated = false)
    (hs : i.slot? = none) (hp : i.isPhi = false ∨ b.body = []) (hr : i.isRet = false) :
    (∀ {id b}, (f.emit c i).block? id = some b → b.Tidy) ∧
    (∀ {id b}, (f.emit c i).block? id = some b → id ≠ ⟨0⟩ → b.slots = []) ∧
    (∀ {id b}, (f.emit c i).block? id = some b → ∀ i ∈ b.body, i.isRet = false) := by
  refine ⟨emit_block hc h.tidy ((h.tidy hc).append ht hs hp), ?_, ?_⟩
  · refine emit_block hc h.slots_nil fun hne => ?_
    rw [Block.slots_append hs]
    exact h.slots_nil hc hne
  · refine emit_block hc h.not_ret ?_
    rw [Block.body_append hs]
    exact List.forall_mem_append.2 ⟨h.not_ret hc, by simpa using hr⟩

theorem targets_emit (h : f.Flow c W) (hc : f.block? c = some b) (ht : b.isTerminated = false)
    (hi : ∀ l ∈ i.successors, ∃ id b', id ≠ ⟨0⟩ ∧ f.block? id = some b' ∧ b'.label = l) {id : BlockId} {b' : Block}
    (hb : (f.emit c i).block? id = some b') :
    ∀ l ∈ b'.successors, ∃ id' b'', id' ≠ ⟨0⟩ ∧ (f.emit c i).block? id' = some b'' ∧ b''.label = l := by
  have hold : ∀ l ∈ b'.successors, ∃ id' b'', id' ≠ ⟨0⟩ ∧ f.block? id' = some b'' ∧ b''.label = l := by
    refine emit_block (P := fun _ b' => ∀ l ∈ b'.successors, ∃ id' b'', id' ≠ ⟨0⟩ ∧ f.block? id' = some b'' ∧
      b''.label = l) hc h.targets ?_ hb
    rwa [Block.successors_append]
  intro l hl
  obtain ⟨id', b'', hne, hb'', hlabel⟩ := hold l hl
  obtain ⟨b₁, hb₁, hl₁, -⟩ := block_emit hc ht i hb''
  exact ⟨id', b₁, hne, hb₁, hl₁.trans hlabel⟩

/-- A phi in a block behind another instruction was there, and is right if its block has the same sources. -/
theorem phis_emit (h : f.Flow c W) (hc : f.block? c = some b) (hs : i.slot? = none) (hp : i.isPhi = false)
    {id : BlockId} {b' : Block} {dest : Nat} {ty : Ty} {incoming : List (Value × String)}
    (hb : (f.emit c i).block? id = some b') (hmem : .phi dest ty incoming ∈ b'.body)
    (hsources : ∀ {b₀}, f.block? id = some b₀ → b₀.label = b'.label → .phi dest ty incoming ∈ b₀.body →
      ((f.emit c i).sources b'.label).Perm (f.sources b'.label)) :
    id ≠ ⟨0⟩ ∧ (incoming.map Prod.snd).Perm ((f.emit c i).sources b'.label) := by
  have hold : ∃ b₀, f.block? id = some b₀ ∧ b₀.label = b'.label ∧ .phi dest ty incoming ∈ b₀.body := by
    rcases emit_cases hc hb with ⟨rfl, rfl⟩ | ⟨-, hb⟩
    · rw [Block.body_append hs] at hmem
      rcases List.mem_append.1 hmem with hmem | hmem
      · exact ⟨b, hc, rfl, hmem⟩
      · rw [← List.mem_singleton.1 hmem] at hp
        cases hp
    · exact ⟨b', hb, rfl, hmem⟩
  obtain ⟨b₀, hb₀, hlabel, hmem₀⟩ := hold
  obtain ⟨hne, hperm⟩ := h.phis hb₀ hmem₀
  rw [hlabel] at hperm
  exact ⟨hne, hperm.trans (hsources hb₀ hlabel hmem₀).symm⟩

/-- The blocks that wait are as they were. -/
theorem waiting_emit (h : f.Flow c W) (hc : f.block? c = some b) {id : BlockId} (hid : id ∈ W) :
    id ≠ ⟨0⟩ ∧ id ≠ c ∧ ∃ b, (f.emit c i).block? id = some b ∧ b.instructions = [] := by
  obtain ⟨h₁, h₂, h₃⟩ := h.waiting hid
  exact ⟨h₁, h₂, by rwa [block?_emit hc, if_neg h₂]⟩

/-- The blocks that are complete are as they were. -/
theorem closed_emit (h : f.Flow c W) (hc : f.block? c = some b) {id : BlockId} {b' : Block}
    (hb : (f.emit c i).block? id = some b') (hne : id ≠ c) (hW : id ∉ W) : b'.isTerminated = true := by
  rw [block?_emit hc, if_neg hne] at hb
  exact h.closed hb hne hW

/-- One more instruction that is no phi and ends nothing. -/
theorem emit (h : f.Flow c W) (hs : i.slot? = none) (hp : i.isPhi = false) (hi : i.isTerminator = false) :
    (f.emit c i).Flow c W := by
  obtain ⟨b, hc, ht⟩ := h.current
  have hr : i.isRet = false := by cases i <;> first | rfl | cases hi
  obtain ⟨htidy, hslots, hret⟩ := h.shapes_emit hc ht hs (.inl hp) hr
  have hnil := Instruction.successors_eq_nil hi
  refine ⟨htidy, hslots, hret, ⟨b.append i, by rw [block?_emit hc, if_pos rfl], by rwa [Block.isTerminated_append]⟩,
    h.waiting_emit hc, h.closed_emit hc, h.targets_emit hc ht (by simp [hnil]), ?_,
    fun {id} hid hW => (h.reaches (isSome_of_emit hc hid) hW).mono fun id b hb => block_emit hc ht i hb⟩
  intro id b' dest ty incoming hb hmem
  refine h.phis_emit hc hs hp hb hmem fun _ _ _ => ?_
  have hperm := sources_emit hc ht i b'.label
  rwa [hnil] at hperm

/-- A phi in a block that was empty, with the labels of the blocks that branch there. -/
theorem phi (h : f.Flow c W) (hc : f.block? c = some b) (hempty : b.instructions = []) (hne : c ≠ ⟨0⟩) {dest : Nat}
    {ty : Ty} {incoming : List (Value × String)} (hin : (incoming.map Prod.snd).Perm (f.sources b.label)) :
    (f.emit c (.phi dest ty incoming)).Flow c W := by
  have ht : b.isTerminated = false := by simp [Block.isTerminated, Block.terminator?, hempty]
  have hbody : b.body = [] := Block.body_eq_nil hempty
  obtain ⟨htidy, hslots, hret⟩ := h.shapes_emit (i := .phi dest ty incoming) hc ht rfl (.inr hbody) rfl
  refine ⟨htidy, hslots, hret, ⟨b.append (.phi dest ty incoming), by rw [block?_emit hc, if_pos rfl], by simp [Instruction.isTerminator]⟩,
    h.waiting_emit hc, h.closed_emit hc, h.targets_emit hc ht (by simp [Instruction.successors]), ?_,
    fun {id} hid hW => (h.reaches (isSome_of_emit hc hid) hW).mono fun id b hb => block_emit hc ht _ hb⟩
  intro id b' dest' ty' incoming' hb hmem
  have hperm := sources_emit hc ht (.phi dest ty incoming) b'.label
  rcases emit_cases hc hb with ⟨rfl, rfl⟩ | ⟨-, hb⟩
  · rw [Block.body_append rfl, hbody] at hmem
    cases List.mem_singleton.1 hmem
    exact ⟨hne, hin.trans hperm.symm⟩
  · exact ⟨(h.phis hb hmem).1, (h.phis hb hmem).2.trans hperm.symm⟩

/-- A branch completes the current block and opens a block `w` that waits. It goes to blocks without a phi. -/
theorem branch (h : f.Flow c W) (hnamed : f.Named) (hi : i.isTerminator = true) (hr : i.isRet = false)
    (htargets : ∀ l ∈ i.successors, ∃ id b, id ≠ ⟨0⟩ ∧ f.block? id = some b ∧ b.label = l ∧
      ∀ j ∈ b.body, j.isPhi = false) {w : BlockId} (hW : ∀ {id}, id ∈ W ↔ id = w ∨ id ∈ W') (hw : w ∉ W')
    (hreach : (∃ b, f.block? w = some b ∧ b.label ∈ i.successors) ∨ f.Reaches w) : (f.emit c i).Flow w W' := by
  obtain ⟨b, hc, ht⟩ := h.current
  have hs := Instruction.slot?_of_isTerminator hi
  have hp : i.isPhi = false := by cases i <;> first | rfl | cases hi
  obtain ⟨htidy, hslots, hret⟩ := h.shapes_emit hc ht hs (.inl hp) hr
  obtain ⟨hw0, hwc, bw, hbw, hempty⟩ := h.waiting (hW.2 (.inl rfl))
  have hmono : ∀ {id}, f.Reaches id → (f.emit c i).Reaches id := fun hid =>
    hid.mono fun id b hb => block_emit hc ht i hb
  have hcW : c ∉ W := fun hmem => (h.waiting hmem).2.1 rfl
  refine ⟨htidy, hslots, hret, ⟨bw, by rw [block?_emit hc, if_neg hwc, hbw], ?_⟩, fun {id} hid => ?_,
    fun {id b'} hb hne hid => ?_, h.targets_emit hc ht fun l hl => ?_, ?_, fun {id} hid hidW => ?_⟩
  · simp [Block.isTerminated, Block.terminator?, hempty]
  · obtain ⟨h₁, -, h₃⟩ := h.waiting_emit (i := i) hc (hW.2 (.inr hid))
    exact ⟨h₁, fun he => hw (he ▸ hid), h₃⟩
  · rcases emit_cases hc hb with ⟨rfl, rfl⟩ | ⟨hidc, hb⟩
    · rwa [Block.isTerminated_append]
    · exact h.closed hb hidc fun hmem => (hW.1 hmem).elim hne hid
  · obtain ⟨id, b', h₁, h₂, h₃, -⟩ := htargets l hl
    exact ⟨id, b', h₁, h₂, h₃⟩
  · intro id b' dest ty incoming hb hmem
    -- The branch goes to no block with a phi, so the phis need no new source.
    refine h.phis_emit hc hs hp hb hmem fun hb₀ hl₀ hmem₀ => ?_
    have hnone : i.successors.filter (· = b'.label) = [] := by
      refine List.filter_eq_nil_iff.2 fun l hl => ?_
      simp only [decide_eq_true_eq]
      rintro rfl
      obtain ⟨id₁, b₁, -, hb₁, hl₁, hnophi⟩ := htargets _ hl
      obtain rfl := hnamed.id_eq hb₁ hb₀ (hl₁.trans hl₀.symm)
      cases hb₁.symm.trans hb₀
      cases hnophi _ hmem₀
    have hperm := sources_emit hc ht i b'.label
    rwa [hnone] at hperm
  · by_cases hid' : id = w
    · subst hid'
      rcases hreach with ⟨b', hb', hmem⟩ | hreach
      · have hreaches : f.Reaches c := h.reaches (by rw [hc]; rfl) hcW
        have hsource : (f.emit c i).block? c = some (b.append i) := by rw [block?_emit hc, if_pos rfl]
        have htarget : (f.emit c i).block? id = some b' := by rw [block?_emit hc, if_neg hwc, hb']
        exact (hmono hreaches).step hsource htarget (by rwa [Block.successors_append])
      · exact hmono hreach
    · exact hmono (h.reaches (isSome_of_emit hc hid) fun hmem => (hW.1 hmem).elim hid' hidW)

/-- A new block waits. -/
theorem create (h : f.Flow c W) (hentry : (f.block? ⟨0⟩).isSome) (label : String)
    (hW : ∀ {id}, id ∈ W' ↔ id = f.nextBlock ∨ id ∈ W) : (f.create label).Flow c W' := by
  have hold : ∀ {id b}, f.block? id = some b → (f.create label).block? id = some b := fun hb => by
    rw [block?_create, if_neg (ne_nextBlock hb), hb]
  obtain ⟨entry, hentry⟩ := Option.isSome_iff_exists.1 hentry
  obtain ⟨b, hc, ht⟩ := h.current
  refine ⟨fun {id b} hb => ?_, fun {id b} hb hne => ?_, fun {id b} hb => ?_, ⟨b, hold hc, ht⟩, fun {id} hid => ?_,
    fun {id b} hb hne hid => ?_, fun {id b} hb l hl => ?_, fun {id b dest ty incoming} hb hmem => ?_,
    fun {id} hid hidW => ?_⟩
  · rcases create_cases hb with ⟨-, rfl⟩ | ⟨-, hb⟩
    · exact ⟨rfl, by simp [Block.body], by simp [Block.body]⟩
    · exact h.tidy hb
  · rcases create_cases hb with ⟨-, rfl⟩ | ⟨-, hb⟩
    · rfl
    · exact h.slots_nil hb hne
  · rcases create_cases hb with ⟨-, rfl⟩ | ⟨-, hb⟩
    · simp [Block.body]
    · exact h.not_ret hb
  · rcases hW.1 hid with rfl | hid
    · refine ⟨fun h0 => ?_, fun h0 => ne_nextBlock hc h0.symm, _, by rw [block?_create, if_pos rfl], rfl⟩
      exact ne_nextBlock hentry h0.symm
    · obtain ⟨h₁, h₂, b, hb, hempty⟩ := h.waiting hid
      exact ⟨h₁, h₂, b, hold hb, hempty⟩
  · rcases create_cases hb with ⟨rfl, rfl⟩ | ⟨-, hb⟩
    · exact absurd (hW.2 (.inl rfl)) hid
    · exact h.closed hb hne fun hmem => hid (hW.2 (.inr hmem))
  · rcases create_cases hb with ⟨-, rfl⟩ | ⟨-, hb⟩
    · cases hl
    · obtain ⟨id', b', hne, hb', hl'⟩ := h.targets hb l hl
      exact ⟨id', b', hne, hold hb', hl'⟩
  · rw [sources_create]
    rcases create_cases hb with ⟨-, rfl⟩ | ⟨-, hb⟩
    · cases hmem
    · exact h.phis hb hmem
  · obtain ⟨b, hb⟩ := Option.isSome_iff_exists.1 hid
    rcases create_cases hb with ⟨rfl, -⟩ | ⟨-, hb⟩
    · exact absurd (hW.2 (.inl rfl)) hidW
    · have hreaches : f.Reaches id := h.reaches (by rw [hb]; rfl) fun hmem => hidW (hW.2 (.inr hmem))
      exact hreaches.mono fun id b hb => ⟨b, hold hb, rfl, List.Subset.refl _⟩

/-- A new slot stands in front of the entry block. -/
theorem reserve (h : f.Flow c W) {entry : Block} (hentry : f.block? ⟨0⟩ = some entry) (name : String) :
    (f.reserve ⟨0⟩ name).Flow c W := by
  have hold : ∀ {id b}, f.block? id = some b → ∃ b', (f.reserve ⟨0⟩ name).block? id = some b' ∧
      b'.label = b.label ∧ b'.isTerminated = b.isTerminated ∧ b'.successors = b.successors ∧
      (id ≠ ⟨0⟩ → b' = b) := by
    intro id b hb
    rw [block?_reserve]
    split
    · next hid =>
      subst hid
      cases hentry.symm.trans hb
      exact ⟨entry.prepend (.alloca (f.slotFor name)), by rw [hentry]; rfl, rfl, by simp, by simp,
        fun hne => absurd rfl hne⟩
    · exact ⟨b, hb, rfl, rfl, rfl, fun _ => rfl⟩
  obtain ⟨b, hc, ht⟩ := h.current
  refine ⟨fun {id b} hb => ?_, fun {id b} hb hne => ?_, fun {id b} hb => ?_, ?_, fun {id} hid => ?_,
    fun {id b} hb hne hid => ?_, fun {id b} hb l hl => ?_, fun {id b dest ty incoming} hb hmem => ?_,
    fun {id} hid hidW => ?_⟩
  · rcases reserve_cases hentry hb with ⟨-, rfl⟩ | ⟨-, hb⟩
    · exact (h.tidy hentry).prepend_alloca _
    · exact h.tidy hb
  · rcases reserve_cases hentry hb with ⟨rfl, -⟩ | ⟨-, hb⟩
    · exact absurd rfl hne
    · exact h.slots_nil hb hne
  · rcases reserve_cases hentry hb with ⟨-, rfl⟩ | ⟨-, hb⟩
    · rw [Block.body_prepend_alloca]
      exact h.not_ret hentry
    · exact h.not_ret hb
  · obtain ⟨b', hb', -, ht', -⟩ := hold hc
    exact ⟨b', hb', ht'.trans ht⟩
  · obtain ⟨h₁, h₂, b, hb, hempty⟩ := h.waiting hid
    obtain ⟨b', hb', -, -, -, heq⟩ := hold hb
    exact ⟨h₁, h₂, b', hb', heq h₁ ▸ hempty⟩
  · rcases reserve_cases hentry hb with ⟨rfl, rfl⟩ | ⟨-, hb⟩
    · rw [Block.isTerminated_prepend_alloca]
      exact h.closed hentry hne hid
    · exact h.closed hb hne hid
  · have hl : ∃ id' b', id' ≠ ⟨0⟩ ∧ f.block? id' = some b' ∧ b'.label = l := by
      rcases reserve_cases hentry hb with ⟨-, rfl⟩ | ⟨-, hb⟩
      · exact h.targets hentry l (by rwa [Block.successors_prepend_alloca] at hl)
      · exact h.targets hb l hl
    obtain ⟨id', b', hne, hb', hl'⟩ := hl
    obtain ⟨b'', hb'', hlabel, -⟩ := hold hb'
    exact ⟨id', b'', hne, hb'', hlabel.trans hl'⟩
  · rw [sources_reserve hentry]
    rcases reserve_cases hentry hb with ⟨rfl, rfl⟩ | ⟨-, hb⟩
    · exact absurd rfl (h.phis hentry (by rwa [Block.body_prepend_alloca] at hmem)).1
    · exact h.phis hb hmem
  · have hid' : (f.block? id).isSome := by
      obtain ⟨b, hb⟩ := Option.isSome_iff_exists.1 hid
      rcases reserve_cases hentry hb with ⟨rfl, -⟩ | ⟨-, hb⟩
      · rw [hentry]; rfl
      · rw [hb]; rfl
    refine (h.reaches hid' hidW).mono fun id b hb => ?_
    obtain ⟨b', hb', hlabel, -, hsucc, -⟩ := hold hb
    exact ⟨b', hb', hlabel, by rw [hsucc]; exact List.Subset.refl _⟩

end Flow

/-! ## Instructions -/

/-- Every temporary is written by one instruction, and every instruction's operands fit. -/
structure Written (m : Module) (f : Function) : Prop where
  dests : f.dests.Perm (List.range f.temps.length)
  fits : ∀ {id b}, f.block? id = some b → ∀ i ∈ b.body, Fits m f i

namespace Written

variable {m m' : Module} {f f' : Function} {c : BlockId} {b : Block}

/-- Growth that adds no instruction. -/
theorem of_grows {G : BlockId → Prop} (h : Written m f) (hm : m.Covers m') (hf : Grows G f f')
    (htemps : f'.temps = f.temps) (hdests : f'.dests = f.dests)
    (hbody : ∀ {id b'}, f'.block? id = some b' → b'.body ≠ [] → ∃ b, f.block? id = some b ∧ b'.body = b.body) :
    Written m' f' := by
  refine ⟨by rw [htemps, hdests]; exact h.dests, fun {id b'} hb' i hi => ?_⟩
  obtain ⟨b, hb, heq⟩ := hbody hb' (List.ne_nil_of_mem hi)
  exact (h.fits hb i (heq ▸ hi)).mono hm hf

theorem covers (h : Written m f) (hm : m.Covers m') : Written m' f :=
  h.of_grows (G := fun _ => True) hm (.refl f) rfl rfl fun {_ b} hb _ => ⟨b, hb, rfl⟩

theorem fits_emit (h : ∀ {id b}, f.block? id = some b → ∀ i ∈ b.body, Fits m f i) (hb : f.block? c = some b)
    {i : Instruction} (hs : i.slot? = none) (hi : Fits m f i) {id : BlockId} {b' : Block}
    (hb' : (f.emit c i).block? id = some b') : ∀ j ∈ b'.body, Fits m (f.emit c i) j := by
  have hgrows : Grows (fun _ => False) f (f.emit c i) := .emit hb hs False.elim
  refine Flow.emit_block (P := fun _ b' => ∀ j ∈ b'.body, Fits m (f.emit c i) j) hb
    (fun hb j hj => (h hb j hj).mono (.refl m) hgrows) ?_ hb'
  rw [Block.body_append hs]
  refine List.forall_mem_append.2 ⟨fun j hj => (h hb j hj).mono (.refl m) hgrows, ?_⟩
  simpa using hi.mono (.refl m) hgrows

theorem emit (h : Written m f) (hb : f.block? c = some b) {i : Instruction} (hs : i.slot? = none)
    (hd : i.dest? = none) (hi : Fits m f i) : Written m (f.emit c i) := by
  refine ⟨(dests_emit hb hs).trans ?_, fits_emit h.fits hb hs hi⟩
  rw [hd, Option.toList_none, List.append_nil]
  exact h.dests

theorem result (h : Written m f) (hb : f.block? c = some b) (ty : Ty) {i : Nat → Instruction}
    (hs : (i f.temps.length).slot? = none) (hd : (i f.temps.length).dest? = some f.temps.length)
    (hi : Fits m f (i f.temps.length)) : Written m (f.result c ty i) := by
  have hgrows : Grows (fun _ => True) f (f.withTemp ty) := .withTemp f ty
  refine ⟨(dests_emit (f := f.withTemp ty) hb hs).trans ?_, fits_emit (f := f.withTemp ty)
    (fun hb j hj => (h.fits hb j hj).mono (.refl m) hgrows) hb hs (hi.mono (.refl m) hgrows)⟩
  rw [hd, show (f.result c ty i).temps = f.temps ++ [ty] from rfl, List.length_append, List.length_singleton,
    List.range_succ]
  exact h.dests.append_right _

end Written

/-! ## All together -/

/-- A function under construction in the module `m`: instructions go to the block `c`, the blocks of `W` wait,
and those of `D` are not attached. -/
structure Underway (m : Module) (f : Function) (c : BlockId) (W D : List BlockId) : Prop where
  named : f.Named
  laid : f.Laid D
  flow : f.Flow c W
  written : f.Written m
  detached : ∀ {id}, id ∈ D → id ∈ W

namespace Underway

variable {m m' : Module} {f : Function} {c : BlockId} {W W' D D' : List BlockId} {i : Instruction}

theorem entry_isSome (h : Underway m f c W D) : ∃ b, f.block? ⟨0⟩ = some b := by
  have hmem : (⟨0⟩ : BlockId) ∈ f.layout := List.mem_of_mem_head? h.laid.entry
  exact Option.isSome_iff_exists.1 (h.laid.mem_iff.1 hmem).1

theorem covers (h : Underway m f c W D) (hm : m.Covers m') : Underway m' f c W D :=
  ⟨h.named, h.laid, h.flow, h.written.covers hm, h.detached⟩

theorem current (h : Underway m f c W D) : ∃ b, f.block? c = some b ∧ b.isTerminated = false := h.flow.current

theorem emit (h : Underway m f c W D) (hi : i.Plain) (hd : i.dest? = none) (hfits : Fits m f i) :
    Underway m (f.emit c i) c W D := by
  obtain ⟨b, hb, ht⟩ := h.current
  exact ⟨h.named.emit hb hi.slot, h.laid.emit hb i, h.flow.emit hi.slot hi.phi hi.terminator,
    h.written.emit hb hi.slot hd hfits, h.detached⟩

theorem result (h : Underway m f c W D) (ty : Ty) {i : Nat → Instruction} (hi : (i f.temps.length).Plain)
    (hd : (i f.temps.length).dest? = some f.temps.length) (hfits : Fits m f (i f.temps.length)) :
    Underway m (f.result c ty i) c W D := by
  obtain ⟨b, hb, ht⟩ := h.current
  have hnamed : (f.withTemp ty).Named := h.named.of_eq rfl rfl
  have hlaid : (f.withTemp ty).Laid D := h.laid.of_eq rfl fun _ => rfl
  have hflow : (f.withTemp ty).Flow c W := h.flow.of_eq rfl
  exact ⟨hnamed.emit hb hi.slot, hlaid.emit hb _, hflow.emit hi.slot hi.phi hi.terminator,
    h.written.result hb ty hi.slot hd hfits, h.detached⟩

theorem phi (h : Underway m f c W D) {b : Block} (hb : f.block? c = some b) (hempty : b.instructions = [])
    (hne : c ≠ ⟨0⟩) {ty : Ty} {incoming : List (Value × String)}
    (hin : (incoming.map Prod.snd).Perm (f.sources b.label)) (hfits : ∀ p ∈ incoming, HasType m f p.1 ty) :
    Underway m (f.result c ty (.phi · ty incoming)) c W D := by
  have hnamed : (f.withTemp ty).Named := h.named.of_eq rfl rfl
  have hlaid : (f.withTemp ty).Laid D := h.laid.of_eq rfl fun _ => rfl
  have hflow : (f.withTemp ty).Flow c W := h.flow.of_eq rfl
  exact ⟨hnamed.emit (i := .phi _ ty incoming) hb rfl, hlaid.emit hb _, hflow.phi hb hempty hne hin,
    h.written.result hb ty rfl rfl hfits, h.detached⟩

theorem branch (h : Underway m f c W D) (hi : i.isTerminator = true) (hr : i.isRet = false)
    (hfits : Fits m f i)
    (htargets : ∀ l ∈ i.successors, ∃ id b, id ≠ ⟨0⟩ ∧ f.block? id = some b ∧ b.label = l ∧
      ∀ j ∈ b.body, j.isPhi = false) {w : BlockId} (hW : ∀ {id}, id ∈ W ↔ id = w ∨ id ∈ W') (hw : w ∉ W')
    (hD : w ∉ D) (hreach : (∃ b, f.block? w = some b ∧ b.label ∈ i.successors) ∨ f.Reaches w) :
    Underway m (f.emit c i) w W' D := by
  obtain ⟨b, hb, ht⟩ := h.current
  have hs := Instruction.slot?_of_isTerminator hi
  refine ⟨h.named.emit hb hs, h.laid.emit hb i, h.flow.branch h.named hi hr htargets hW hw hreach,
    h.written.emit hb hs (Instruction.dest?_of_isTerminator hi) hfits, fun {id} hid => ?_⟩
  exact (hW.1 (h.detached hid)).resolve_left fun he => hD (he ▸ hid)

theorem create (h : Underway m f c W D) (label : String) (hW : ∀ {id}, id ∈ W' ↔ id = f.nextBlock ∨ id ∈ W)
    (hD : ∀ {id}, id ∈ D' ↔ id = f.nextBlock ∨ id ∈ D) : Underway m (f.create label) c W' D' := by
  obtain ⟨entry, hentry⟩ := h.entry_isSome
  have hsome : (f.block? ⟨0⟩).isSome := by rw [hentry]; rfl
  refine ⟨h.named.create hsome label, h.laid.create label hD, h.flow.create hsome label hW, ?_,
    fun {id} hid => hW.2 ((hD.1 hid).imp_right h.detached)⟩
  refine h.written.of_grows (G := fun _ => True) (.refl m) (.create hsome label) rfl (dests_create f label) ?_
  intro id b hb hne
  rcases create_cases hb with ⟨-, rfl⟩ | ⟨-, hb⟩
  · exact absurd rfl hne
  · exact ⟨b, hb, rfl⟩

theorem attach (h : Underway m f c W D) {id : BlockId} (hD : ∀ {id'}, id' ∈ D ↔ id' = id ∨ id' ∈ D')
    (hid : id ∉ D') : Underway m (f.attach id) c W D' := by
  obtain ⟨-, -, b, hb, -⟩ := h.flow.waiting (h.detached (hD.2 (.inl rfl)))
  refine ⟨h.named.of_eq rfl rfl, h.laid.attach hb hD hid, h.flow.of_eq rfl, ?_, fun {id'} hid' => ?_⟩
  · exact h.written.of_grows (G := fun _ => True) (.refl m) (.attach f id) rfl rfl fun {_ b} hb _ => ⟨b, hb, rfl⟩
  · exact h.detached (hD.2 (.inr hid'))

theorem reserve (h : Underway m f c W D) (name : String) : Underway m (f.reserve ⟨0⟩ name) c W D := by
  obtain ⟨entry, hentry⟩ := h.entry_isSome
  have hgrows : Grows (fun _ => True) f (f.reserve ⟨0⟩ name) := .reserve hentry name
  have hcases : ∀ {id b}, (f.reserve ⟨0⟩ name).block? id = some b → ∃ b', f.block? id = some b' ∧ b.body = b'.body := by
    intro id b hb
    rcases reserve_cases hentry hb with ⟨rfl, rfl⟩ | ⟨-, hb⟩
    · exact ⟨entry, hentry, Block.body_prepend_alloca _ _⟩
    · exact ⟨b, hb, rfl⟩
  refine ⟨h.named.reserve hentry name, h.laid.of_eq rfl fun id => ?_, h.flow.reserve hentry name,
    h.written.of_grows (.refl m) hgrows rfl (dests_reserve hentry name) fun hb _ => hcases hb, h.detached⟩
  rw [block?_reserve]
  split
  · next hid => rw [hid, hentry]; rfl
  · rfl

end Underway

end Function

end Monofloat.Ir
