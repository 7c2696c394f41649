import Mathlib.Data.List.Nodup
import Monofloat.Proofs.Underway

/-!
# Finished functions

A return completes the last block of a function under construction. Then the function is `Complete`, and the
checks find nothing wrong with it, in the module it was built in and in every module that covers that one.
-/

namespace Monofloat.Ir

namespace Function

/-- A function whose blocks are all complete and attached. -/
structure Complete (m : Module) (f : Function) : Prop where
  named : f.Named
  laid : f.Laid []
  tidy : ∀ {id b}, f.block? id = some b → b.Tidy
  slots_nil : ∀ {id b}, f.block? id = some b → id ≠ ⟨0⟩ → b.slots = []
  terminated : ∀ {id b}, f.block? id = some b → b.isTerminated = true
  targets : ∀ {id b}, f.block? id = some b → ∀ l ∈ b.successors,
    ∃ id' b', id' ≠ ⟨0⟩ ∧ f.block? id' = some b' ∧ b'.label = l
  phis : ∀ {id b dest ty incoming}, f.block? id = some b → .phi dest ty incoming ∈ b.body →
    id ≠ ⟨0⟩ ∧ (incoming.map Prod.snd).Perm (f.sources b.label)
  reaches : ∀ {id}, (f.block? id).isSome → f.Reaches id
  written : f.Written m
  one_ret : (f.blocks.flatMap Block.body).countP Instruction.isRet = 1

/-- A return completes a function that has no other block to go on with. -/
theorem Underway.complete {m : Module} {f : Function} {c : BlockId} (h : Underway m f c [] []) {v : Value}
    (hv : HasType m f v .f64) : Complete m (f.emit c (.ret v)) := by
  obtain ⟨b, hb, ht⟩ := h.current
  have hsources : ∀ l, ((f.emit c (.ret v)).sources l).Perm (f.sources l) := fun l => sources_emit hb ht (.ret v) l
  refine ⟨h.named.emit hb rfl, h.laid.emit hb _, ?_, ?_, ?_, h.flow.targets_emit hb ht (by simp [Instruction.successors]),
    ?_, ?_, h.written.emit hb rfl rfl hv, ?_⟩
  · exact Flow.emit_block hb h.flow.tidy ((h.flow.tidy hb).append ht rfl (.inl rfl))
  · refine Flow.emit_block hb h.flow.slots_nil fun hne => ?_
    rw [Block.slots_append rfl]
    exact h.flow.slots_nil hb hne
  · intro id b' hb'
    rcases emit_cases hb hb' with ⟨-, rfl⟩ | ⟨hne, hb'⟩
    · exact Block.isTerminated_append _ _
    · exact h.flow.closed hb' hne List.not_mem_nil
  · intro id b' dest ty incoming hb' hmem
    exact h.flow.phis_emit hb rfl rfl hb' hmem fun _ _ _ => hsources _
  · intro id hid
    exact (h.flow.reaches (Flow.isSome_of_emit hb hid) List.not_mem_nil).mono fun id b' hb' =>
      Flow.block_emit hb ht (.ret v) hb'
  · obtain ⟨before, after, heq, hmod⟩ := exists_blocks_eq hb
    have hemit : (f.emit c (.ret v)).blocks = before ++ b.append (.ret v) :: after := hmod _
    have hnone : ∀ blocks, blocks ⊆ f.blocks → (blocks.flatMap Block.body).countP Instruction.isRet = 0 := by
      intro blocks hsub
      refine List.countP_eq_zero.2 fun i hi => ?_
      obtain ⟨b', hb', hi⟩ := List.mem_flatMap.1 hi
      obtain ⟨id, hid⟩ := mem_blocks_iff.1 (hsub hb')
      simp [h.flow.not_ret hid i hi]
    have hbefore := hnone before (by simp [heq])
    have hafter := hnone after (by simp [heq])
    have hbody := hnone [b] (by simp [heq])
    rw [List.flatMap_singleton] at hbody
    rw [hemit, List.flatMap_append, List.flatMap_cons, Block.body_append rfl, List.countP_append,
      List.countP_append, List.countP_append, hbefore, hbody, hafter]
    rfl

/-! ## The attached blocks -/

section

variable {m : Module} {f : Function}

theorem Complete.mem_attached_iff (h : Complete m f) {b : Block} :
    b ∈ f.attached ↔ ∃ id, f.block? id = some b := by
  rw [attached, List.mem_filterMap]
  refine ⟨fun ⟨id, _, hb⟩ => ⟨id, hb⟩, fun ⟨id, hb⟩ => ⟨id, h.laid.mem_iff.2 ⟨by rw [hb]; rfl, List.not_mem_nil⟩, hb⟩⟩

/-- Every block is attached, once. -/
theorem Complete.attached_perm (h : Complete m f) : f.attached.Perm f.blocks := by
  have hblocks : f.blocks.Nodup := List.Nodup.of_map _ h.named.labels_nodup
  have hattached : f.attached.Nodup :=
    List.Nodup.filterMap (fun _ _ _ hb hb' => h.named.id_eq hb hb' rfl) h.laid.nodup
  refine (List.perm_ext_iff_of_nodup hattached hblocks).2 fun b => ?_
  rw [h.mem_attached_iff, mem_blocks_iff]

/-- The entry comes first, and the others are other blocks. -/
theorem Complete.attached_eq (h : Complete m f) : ∃ entry others, f.attached = entry :: others ∧
    f.block? ⟨0⟩ = some entry ∧ ∀ b ∈ others, ∃ id, id ≠ ⟨0⟩ ∧ f.block? id = some b := by
  have hlaid := h.laid
  obtain ⟨rest, hlayout⟩ : ∃ rest, f.layout = ⟨0⟩ :: rest := by
    have := hlaid.entry
    unfold entry? at this
    cases hl : f.layout with
    | nil => rw [hl] at this; cases this
    | cons id rest => rw [hl] at this; cases this; exact ⟨rest, rfl⟩
  have hmem : (⟨0⟩ : BlockId) ∈ f.layout := by rw [hlayout]; exact List.mem_cons_self
  obtain ⟨entry, hentry⟩ := Option.isSome_iff_exists.1 (hlaid.mem_iff.1 hmem).1
  have hnodup := hlaid.nodup
  rw [hlayout, List.nodup_cons] at hnodup
  refine ⟨entry, rest.filterMap f.block?, ?_, hentry, fun b hb => ?_⟩
  · rw [attached, hlayout, List.filterMap_cons, hentry]
  · obtain ⟨id, hid, hb⟩ := List.mem_filterMap.1 hb
    exact ⟨id, fun h0 => hnodup.1 (h0 ▸ hid), hb⟩

theorem Complete.predecessors_perm (h : Complete m f) (label : String) :
    (f.predecessors label).Perm (f.sources label) := h.attached_perm.flatMap_right _

theorem Complete.entrySlots_eq (h : Complete m f) : f.entrySlots = f.slots := by
  obtain ⟨entry, others, hattached, hentry, -⟩ := h.attached_eq
  rw [entrySlots, slots, hattached, hentry]
  rfl

/-! ## What the checks find -/

end

end Function

theorem checkAll_eq_ok {α : Type} {check : α → Except Defect Unit} {as : List α} :
    checkAll check as = .ok () ↔ ∀ a ∈ as, check a = .ok () := by
  induction as with
  | nil => simp [checkAll]
  | cons a as ih =>
    rw [checkAll, List.forall_mem_cons, ← ih]
    cases check a with
    | error d => simp
    | ok u => simp

namespace Function

section

variable {m : Module} {f : Function}

theorem Complete.checkTerminator (h : Complete m f) {id : BlockId} {b : Block} (hb : f.block? id = some b) :
    b.checkTerminator = .ok () := by
  have htidy := h.tidy hb
  obtain ⟨init, t, hbody, ht⟩ := htidy.exists_terminator (h.terminated hb)
  have hinit := htidy.terminator_last
  have hinstr := htidy.instructions_eq
  rw [hbody, List.dropLast_concat] at hinit
  rw [hbody, ← List.append_assoc] at hinstr
  have hany : (b.slots.map Instruction.alloca ++ init).any Instruction.isTerminator = false := by
    rw [List.any_eq_false]
    refine List.forall_mem_append.2 ⟨?_, fun i hi => by simp [hinit i hi]⟩
    simp [Instruction.isTerminator]
  rw [Block.checkTerminator, hinstr, List.getLast?_concat, List.dropLast_concat, hany]
  simp [ht]

theorem Complete.checkTargets (h : Complete m f) {id : BlockId} {b : Block} (hb : f.block? id = some b) :
    b.checkTargets f.labels = .ok () := by
  refine checkAll_eq_ok.2 fun l hl => ?_
  obtain ⟨id', b', -, hb', rfl⟩ := h.targets hb l hl
  exact if_pos (List.mem_map_of_mem (h.mem_attached_iff.2 ⟨id', hb'⟩))

/-- What may stand behind a phi at the start of a body. -/
theorem checkPlace_eq_ok {label : String} {isEntry : Bool} {i : Instruction} (hp : i.isPhi = false)
    (hs : i.slot? = none ∨ isEntry = true) : Block.checkPlace label isEntry i = .ok () := by
  cases i with
  | phi => cases hp
  | alloca slot => rcases hs with hs | rfl <;> first | cases hs | rfl
  | _ => rfl

theorem Complete.checkPlaces (h : Complete m f) {id : BlockId} {b : Block} (hb : f.block? id = some b) :
    b.checkPlaces (decide (id = ⟨0⟩)) = .ok () := by
  have htidy := h.tidy hb
  refine checkAll_eq_ok.2 fun i hi => ?_
  have hmem : i ∈ b.instructions := (List.dropWhile_sublist _).subset hi
  have hslot : i.slot? = none ∨ decide (id = ⟨0⟩) = true := by
    by_cases hid : id = ⟨0⟩
    · exact .inr (by simpa using hid)
    · rw [htidy.instructions_eq, h.slots_nil hb hid, List.map_nil, List.nil_append] at hmem
      exact .inl (by simpa using (List.mem_filter.1 hmem).2)
  refine checkPlace_eq_ok ?_ hslot
  by_cases hid : id = ⟨0⟩
  · rw [htidy.instructions_eq] at hmem
    rcases List.mem_append.1 hmem with hmem | hmem
    · obtain ⟨slot, -, rfl⟩ := List.mem_map.1 hmem
      rfl
    · cases i with
      | phi => exact absurd hid (h.phis hb hmem).1
      | _ => rfl
  · -- Of the body only the first instruction can be a phi, and that is dropped.
    rw [htidy.instructions_eq, h.slots_nil hb hid, List.map_nil, List.nil_append] at hi
    have hphi := htidy.phi_first
    cases hbody : b.body with
    | nil => rw [hbody] at hi; cases hi
    | cons j js =>
      rw [hbody] at hi hphi
      rw [List.dropWhile_cons] at hi
      split at hi
      · exact hphi i ((List.dropWhile_sublist _).subset hi)
      · next hj =>
        rcases List.mem_cons.1 hi with rfl | hi
        · simpa using hj
        · exact hphi i hi

theorem Complete.checkShapes (h : Complete m f) : f.checkShapes = .ok () := by
  obtain ⟨entry, others, hattached, hentry, hothers⟩ := h.attached_eq
  have hshape : ∀ {id b}, f.block? id = some b → b.checkShape f.labels (decide (id = ⟨0⟩)) = .ok () := by
    intro id b hb
    rw [Block.checkShape, h.checkTerminator hb, h.checkTargets hb, h.checkPlaces hb]
    rfl
  have hall : checkAll (fun b => b.checkShape f.labels false) others = .ok () := by
    refine checkAll_eq_ok.2 fun b hb => ?_
    obtain ⟨id, hid, hb⟩ := hothers b hb
    have := hshape hb
    rwa [decide_eq_false hid] at this
  have hfirst : entry.checkShape f.labels true = .ok () := hshape hentry
  rw [Function.checkShapes, hattached]
  show (do entry.checkShape f.labels true; checkAll _ others) = _
  rw [hfirst, hall]
  rfl

/-- Sorted lists of names are equal if they have the same names. -/
theorem mergeSort_eq_of_perm {l l' : List String} (h : l.Perm l') : l.mergeSort = l'.mergeSort := by
  have htrans : ∀ a b c : String, decide (a ≤ b) = true → decide (b ≤ c) = true → decide (a ≤ c) = true := by
    simp only [decide_eq_true_eq]
    exact fun _ _ _ => String.le_trans
  have htotal : ∀ a b : String, (decide (a ≤ b) || decide (b ≤ a)) = true := by
    simpa using String.le_total
  refine List.Perm.eq_of_pairwise (fun a b _ _ hab hba => ?_) (List.pairwise_mergeSort htrans htotal l)
    (List.pairwise_mergeSort htrans htotal l')
    ((List.mergeSort_perm l _).trans (h.trans (List.mergeSort_perm l' _).symm))
  simp only [decide_eq_true_eq] at hab hba
  exact String.le_antisymm hab hba

theorem Complete.checkPhis (h : Complete m f) : f.checkPhis = .ok () := by
  refine checkAll_eq_ok.2 fun b hb => checkAll_eq_ok.2 fun i hi => ?_
  obtain ⟨id, hb⟩ := h.mem_attached_iff.1 hb
  cases i with
  | phi dest ty incoming =>
    have hbody : .phi dest ty incoming ∈ b.body := List.mem_filter.2 ⟨hi, rfl⟩
    have hperm := (h.phis hb hbody).2.trans (h.predecessors_perm b.label).symm
    exact if_pos (mergeSort_eq_of_perm hperm)
  | _ => rfl

theorem Complete.typeOf_eq (h : Complete m f) {v : Value} {ty : Ty} (hv : HasType m f v ty) :
    f.typeOf m v = .ok ty := by
  cases hv with
  | constFloat | constBool => rfl
  | param hp => exact if_pos hp
  | temp ht => rw [typeOf, tempType?, ht]
  | slot hs => exact if_pos (h.entrySlots_eq ▸ hs)
  | global hg => exact if_pos hg
  | function hf =>
    rw [Module.arity?, Option.isSome_map] at hf
    exact if_pos hf

theorem Complete.checkType (h : Complete m f) (block : String) {v : Value} {ty : Ty} (hv : HasType m f v ty) :
    f.checkType m block ty v = .ok () := by
  rw [Function.checkType, h.typeOf_eq hv]
  exact if_pos rfl

theorem Complete.checkOperands (h : Complete m f) (block : String) {i : Instruction} (hi : Fits m f i) :
    f.checkOperands m block i = .ok () := by
  have hpair : ∀ {ty v w}, HasType m f v ty → HasType m f w ty →
      checkAll (f.checkType m block ty) [v, w] = .ok () := fun hv hw =>
    checkAll_eq_ok.2 (by simp [h.checkType block hv, h.checkType block hw])
  cases i with
  | alloca | br => rfl
  | store value ptr =>
    rw [Function.checkOperands, h.checkType block hi.1, h.checkType block hi.2]
    rfl
  | load | neg | ret | not | boolToFloat | condBr => exact h.checkType block hi
  | binary | compare | logical => exact hpair hi.1 hi.2
  | phi dest ty incoming =>
    refine checkAll_eq_ok.2 fun v hv => ?_
    obtain ⟨p, hp, rfl⟩ := List.mem_map.1 hv
    exact h.checkType block (hi p hp)
  | call dest callee args =>
    obtain ⟨harity, hargs⟩ := hi
    rw [Module.arity?] at harity
    obtain ⟨g, hg, hlen⟩ := Option.map_eq_some_iff.1 harity
    rw [Function.checkOperands, hg]
    show (if g.arity ≠ args.length then _ else _) = _
    rw [if_neg (not_not.2 hlen)]
    exact checkAll_eq_ok.2 fun v hv => h.checkType block (hargs v hv)

theorem Complete.checkTypes (h : Complete m f) : f.checkTypes m = .ok () := by
  refine checkAll_eq_ok.2 fun b hb => checkAll_eq_ok.2 fun i hi => ?_
  obtain ⟨id, hb⟩ := h.mem_attached_iff.1 hb
  rw [(h.tidy hb).instructions_eq] at hi
  rcases List.mem_append.1 hi with hi | hi
  · obtain ⟨slot, -, rfl⟩ := List.mem_map.1 hi
    rfl
  · exact h.checkOperands b.label (h.written.fits hb i hi)

/-- The checks find nothing wrong with a complete function. -/
theorem Complete.check (h : Complete m f) : f.check m = .ok () := by
  rw [Function.check, h.checkShapes, h.checkPhis, h.checkTypes]
  split <;> rfl

/-! ## What is so about a finished definition -/

/-- The instructions of the attached blocks. -/
def instructions (f : Function) : List Instruction := f.attached.flatMap Block.instructions

/-- One return, no block left over, no way back to the entry, and every temporary written once. -/
structure Sound (f : Function) : Prop where
  one_ret : f.instructions.countP Instruction.isRet = 1
  attached : ∀ id : BlockId, id.index < f.blocks.length → id ∈ f.layout
  reachable : ∀ id : BlockId, id.index < f.blocks.length → f.Reaches id
  entry_free : ∀ entry ∈ f.attached.head?, ∀ i ∈ f.instructions, entry.label ∉ i.successors
  written_once : ∀ k < f.temps.length, f.instructions.countP (fun i => i.dest? = some k) = 1

theorem Complete.instructions_perm (h : Complete m f) :
    f.instructions.Perm (f.blocks.flatMap Block.instructions) := h.attached_perm.flatMap_right _

theorem Complete.countP_instructions (h : Complete m f) {p : Instruction → Bool}
    (hp : ∀ slot, p (.alloca slot) = false) :
    f.instructions.countP p = (f.blocks.flatMap Block.body).countP p := by
  have hbody : ∀ b : Block, b.instructions.countP p = b.body.countP p := by
    intro b
    rw [Block.body, List.countP_filter]
    refine List.countP_congr fun i _ => ?_
    cases i <;> simp [Instruction.slot?, hp]
  rw [h.instructions_perm.countP_eq, List.countP_flatMap, List.countP_flatMap]
  exact congrArg List.sum (List.map_congr_left fun b _ => hbody b)

/-- Every branch is the last instruction of its block. -/
theorem Complete.mem_successors (h : Complete m f) {id : BlockId} {b : Block} (hb : f.block? id = some b)
    {i : Instruction} (hi : i ∈ b.instructions) {l : String} (hl : l ∈ i.successors) : l ∈ b.successors := by
  have htidy := h.tidy hb
  obtain ⟨init, t, hbody, -⟩ := htidy.exists_terminator (h.terminated hb)
  rw [htidy.successors_eq hbody]
  rw [htidy.instructions_eq, hbody] at hi
  have hinit := htidy.terminator_last
  rw [hbody, List.dropLast_concat] at hinit
  rcases List.mem_append.1 hi with hi | hi
  · obtain ⟨slot, -, rfl⟩ := List.mem_map.1 hi
    cases hl
  · rcases List.mem_append.1 hi with hi | hi
    · rw [Instruction.successors_eq_nil (hinit i hi)] at hl
      cases hl
    · rwa [← List.mem_singleton.1 hi]

theorem Complete.sound (h : Complete m f) : f.Sound where
  one_ret := (h.countP_instructions fun _ => rfl).trans h.one_ret
  attached id hid := h.laid.mem_iff.2 ⟨by simpa [block?] using hid, List.not_mem_nil⟩
  reachable id hid := h.reaches (by simpa [block?] using hid)
  entry_free entry hentry i hi := by
    intro hl
    obtain ⟨b, hb, hi⟩ := List.mem_flatMap.1 hi
    obtain ⟨id, hb⟩ := h.mem_attached_iff.1 hb
    obtain ⟨id', b', hne, hb', hlabel⟩ := h.targets hb _ (h.mem_successors hb hi hl)
    obtain ⟨entry', others, hattached, hentry', -⟩ := h.attached_eq
    rw [hattached] at hentry
    cases hentry
    exact hne (h.named.id_eq hb' hentry' hlabel)
  written_once k hk := by
    rw [h.countP_instructions fun _ => rfl]
    have hcount : ∀ is : List Instruction,
        is.countP (fun i => i.dest? = some k) = (is.filterMap Instruction.dest?).count k := by
      intro is
      induction is with
      | nil => rfl
      | cons i is ih =>
        rw [List.countP_cons, List.filterMap_cons, ih]
        cases hd : i.dest? with
        | none => simp
        | some d => simp [List.count_cons]
    rw [hcount, List.filterMap_flatMap]
    show f.dests.count k = 1
    rw [h.written.dests.count_eq k]
    exact List.count_eq_one_of_mem List.nodup_range (List.mem_range.2 hk)

end

end Function

end Monofloat.Ir
