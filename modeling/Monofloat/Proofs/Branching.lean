import Monofloat.Proofs.Lowered

/-!
# Control flow

A conditional and a loop both start with three new blocks, of which the first is attached. After that they
complete one block after the other with a branch, and go on in the next block. The lemmas say at which site each
of these steps arrives; `IfSites` and `LoopSites` collect the sites of a whole conditional and of a whole loop.
-/

namespace Monofloat

namespace Ir.Function

/-! ## Labels -/

/-- The label of a block. -/
def label (f : Function) (id : BlockId) : String := ((f.block? id).map Block.label).getD ""

theorem label_eq {f : Function} {id : BlockId} {b : Block} (h : f.block? id = some b) : f.label id = b.label := by
  rw [label, h]
  rfl

theorem Grows.label_eq {G : BlockId → Prop} {f f' : Function} (h : Grows G f f') {id : BlockId}
    (hid : (f.block? id).isSome) : f'.label id = f.label id := by
  obtain ⟨b, hb⟩ := Option.isSome_iff_exists.1 hid
  obtain ⟨b', -, hb', hl, -⟩ := h.block hb
  rw [Function.label_eq hb, Function.label_eq hb', hl]

theorem Named.id_eq_of_label {f : Function} (h : f.Named) {id id' : BlockId} (hid : (f.block? id).isSome)
    (hid' : (f.block? id').isSome) (hl : f.label id = f.label id') : id = id' := by
  obtain ⟨b, hb⟩ := Option.isSome_iff_exists.1 hid
  obtain ⟨b', hb'⟩ := Option.isSome_iff_exists.1 hid'
  exact h.id_eq hb hb' (by rwa [label_eq hb, label_eq hb'] at hl)

theorem Reaches.grows {G : BlockId → Prop} {f f' : Function} {c c' : BlockId} {W W' : List BlockId}
    (hf : f.Flow c W) (hf' : f'.Flow c' W') (h : Grows G f f') {id : BlockId} (hr : f.Reaches id) :
    f'.Reaches id := by
  refine hr.mono fun id b hb => ?_
  obtain ⟨b', more, hb', hl, hbody, -⟩ := h.block hb
  exact ⟨b', hb', hl, (hf.tidy hb).successors_subset (hf'.tidy hb') hbody⟩

theorem Reaches.attach {f : Function} {id : BlockId} (hr : f.Reaches id) (next : BlockId) :
    (f.attach next).Reaches id := by
  induction hr with
  | entry => exact .entry
  | step _ hb hb' hl ih => exact ih.step hb hb' hl

theorem Extends.sources_label {G : BlockId → Prop} {f f' : Function} (h : Extends G f f') {id : BlockId}
    (hG : G id) (hid : (f.block? id).isSome) : (f'.sources (f'.label id)).Perm (f.sources (f.label id)) := by
  obtain ⟨b, hb⟩ := Option.isSome_iff_exists.1 hid
  rw [h.label_eq hid, Function.label_eq hb]
  exact h.sources hG hb

/-- A block that was empty has no phi later. -/
theorem Grows.phi_free {G : BlockId → Prop} {f f' : Function} (h : Grows G f f') {id : BlockId} {b b' : Block}
    (hG : G id) (hb : f.block? id = some b) (hempty : b.instructions = []) (hb' : f'.block? id = some b') :
    ∀ i ∈ b'.body, i.isPhi = false := by
  obtain ⟨b'', more, hb'', -, hbody, hphi⟩ := h.block hb
  cases hb'.symm.trans hb''
  rw [hbody, Block.body_eq_nil hempty]
  exact hphi hG

/-! ## Three new blocks -/

/-- The numbers of the blocks to come. -/
def fresh (f : Function) (k : Nat) : BlockId := ⟨f.blocks.length + k⟩

/-- The function with three new blocks, the first of them attached. -/
def triple (f : Function) (l₁ l₂ l₃ : String) : Function :=
  (((f.create l₁).attach (f.fresh 0)).create l₂).create l₃

section

variable {m : Module} {f : Function} {c : BlockId} {W D : List BlockId} (l₁ l₂ l₃ : String)

theorem block?_fresh (f : Function) (k : Nat) : f.block? (f.fresh k) = none := by
  simp [block?, fresh]

theorem fresh_inj {f : Function} {j k : Nat} : f.fresh j = f.fresh k ↔ j = k := by
  simp [fresh]

theorem Underway.fresh_not_mem (h : Underway m f c W D) (k : Nat) : f.fresh k ∉ W := by
  intro hmem
  obtain ⟨-, -, b, hb, -⟩ := h.flow.waiting hmem
  rw [block?_fresh] at hb
  cases hb

theorem nextBlock_create_attach (f : Function) : ((f.create l₁).attach (f.fresh 0)).nextBlock = f.fresh 1 := by
  simp [nextBlock, fresh, attach, create, createBlock, freshName]

theorem nextBlock_create_create (f : Function) :
    (((f.create l₁).attach (f.fresh 0)).create l₂).nextBlock = f.fresh 2 := by
  simp [nextBlock, fresh, attach, create, createBlock, freshName]

/-- The blocks that there were stay as they are. -/
theorem block?_triple {id : BlockId} (h : (f.block? id).isSome) : (f.triple l₁ l₂ l₃).block? id = f.block? id := by
  have hne : ∀ k, id ≠ f.fresh k := by
    rintro k rfl
    rw [block?_fresh] at h
    cases h
  rw [Function.triple, block?_create, nextBlock_create_create, if_neg (hne 2), block?_create, nextBlock_create_attach,
    if_neg (hne 1), block?_attach, block?_create]
  exact if_neg (hne 0)

theorem Underway.triple (h : Underway m f c W D) : Underway m (f.triple l₁ l₂ l₃) c
    (f.fresh 0 :: f.fresh 1 :: f.fresh 2 :: W) (f.fresh 1 :: f.fresh 2 :: D) := by
  have h₁ : Underway m (f.create l₁) c (f.fresh 0 :: W) (f.fresh 0 :: D) := h.create l₁ List.mem_cons List.mem_cons
  have h₂ : Underway m ((f.create l₁).attach (f.fresh 0)) c (f.fresh 0 :: W) D :=
    h₁.attach List.mem_cons fun hmem => h.fresh_not_mem 0 (h.detached hmem)
  have h₃ : Underway m (((f.create l₁).attach (f.fresh 0)).create l₂) c (f.fresh 0 :: f.fresh 1 :: W)
      (f.fresh 1 :: D) := by
    refine h₂.create l₂ ?_ ?_ <;> intro id <;> rw [nextBlock_create_attach] <;> simp [or_left_comm]
  refine h₃.create l₃ ?_ ?_ <;> intro id <;> rw [nextBlock_create_create] <;> simp [or_left_comm]

theorem Extends.triple {G : BlockId → Prop} (h : Underway m f c W D) : Extends G f (f.triple l₁ l₂ l₃) := by
  obtain ⟨entry, hentry⟩ := h.entry_isSome
  have h₀ : (f.block? ⟨0⟩).isSome := by rw [hentry]; rfl
  have h₁ : Extends G f (f.create l₁) := .create h₀ l₁
  have h₂ : Extends G f ((f.create l₁).attach (f.fresh 0)) := h₁.trans (.attach _ _)
  have h₃ : Extends G f (((f.create l₁).attach (f.fresh 0)).create l₂) :=
    h₂.trans (.create (h₂.block_isSome h₀) l₂)
  exact h₃.trans (.create (h₃.block_isSome h₀) l₃)

/-- No branch goes to a new block. -/
theorem sources_triple (h : Underway m f c W D) {k : Nat} (hk : k < 3) :
    (f.triple l₁ l₂ l₃).sources ((f.triple l₁ l₂ l₃).label (f.fresh k)) = [] := by
  have hT := h.triple l₁ l₂ l₃
  have hgrows : Grows (fun _ => True) f (f.triple l₁ l₂ l₃) := (Extends.triple l₁ l₂ l₃ h).toGrows
  have hsources : (f.triple l₁ l₂ l₃).sources = f.sources := by
    funext l
    rw [Function.triple, sources_create, sources_create]
    exact sources_create f l₁ l
  have hmem : f.fresh k ∈ f.fresh 0 :: f.fresh 1 :: f.fresh 2 :: W := by
    simp only [List.mem_cons, fresh_inj]
    omega
  have hsome : ((f.triple l₁ l₂ l₃).block? (f.fresh k)).isSome := by
    obtain ⟨-, -, b, hb, -⟩ := hT.flow.waiting hmem
    rw [hb]
    rfl
  rw [hsources, sources, List.flatMap_eq_nil_iff]
  intro b hb
  obtain ⟨id, hid⟩ := mem_blocks_iff.1 hb
  rw [List.map_eq_nil_iff, List.filter_eq_nil_iff]
  intro l hl heq
  obtain ⟨id', b', -, hb', hlabel⟩ := h.flow.targets hid l hl
  have hsome' : (f.block? id').isSome := by rw [hb']; rfl
  have hl' : (f.triple l₁ l₂ l₃).label id' = (f.triple l₁ l₂ l₃).label (f.fresh k) := by
    rw [hgrows.label_eq hsome', Function.label_eq hb', hlabel]
    simpa using heq
  rw [hT.named.id_eq_of_label (hgrows.block_isSome hsome') hsome hl', block?_fresh] at hb'
  cases hb'

end

end Ir.Function

open Monofloat.Ir Monofloat.Ir.Function

/-! ## Sites at the start of blocks -/

namespace Site

/-- The site behind three new blocks. -/
def triple (p : Site) (l₁ l₂ l₃ : String) : Site := p.at_ (p.function.triple l₁ l₂ l₃) p.block

def attach (p : Site) (id : BlockId) : Site := p.at_ (p.function.attach id) p.block

/-- The site in the block `next`, when `i` completes the current block. -/
def close (p : Site) (i : Instruction) (next : BlockId) : Site := p.at_ (p.function.emit p.block i) next

/-- The site in the block `next`, which is attached, when a branch to `target` completes the current block. -/
def leave (p : Site) (target next : BlockId) : Site := (p.attach next).close (.br (p.function.label target)) next

section

variable {G : BlockId → Prop} {p : Site} {W D : List BlockId}

theorem Good.triple (h : p.Good W D) (l₁ l₂ l₃ : String) :
    (p.triple l₁ l₂ l₃).Good (p.function.fresh 0 :: p.function.fresh 1 :: p.function.fresh 2 :: W)
      (p.function.fresh 1 :: p.function.fresh 2 :: D) :=
  h.at_ (h.underway.triple l₁ l₂ l₃) (Extends.triple (G := all) l₁ l₂ l₃ h.underway)

theorem Good.before_triple (h : p.Good W D) (l₁ l₂ l₃ : String) : p.Before G (p.triple l₁ l₂ l₃) :=
  before_at _ (.triple l₁ l₂ l₃ h.underway)

theorem Good.attach {id : BlockId} (h : p.Good W (id :: D)) (hid : id ∉ D) : (p.attach id).Good W D :=
  h.at_ (h.underway.attach List.mem_cons hid) (.attach (G := all) _ _)

theorem before_attach (p : Site) (id : BlockId) : p.Before G (p.attach id) := before_at _ (.attach _ _)

theorem Good.before_close (h : p.Good W D) {i : Instruction} (hi : i.isTerminator = true)
    (hbr : ∀ {id}, G id → (p.function.block? id).isSome → p.function.label id ∉ i.successors) (next : BlockId) :
    p.Before G (p.close i next) := by
  obtain ⟨b, hb, ht⟩ := h.underway.current
  have hp : i.isPhi = false := by cases i <;> first | rfl | cases hi
  refine before_at _ (.emit hb ht (Instruction.slot?_of_isTerminator hi) (fun _ => hp) fun {id b'} hG hb' => ?_)
  rw [← Function.label_eq hb']
  exact hbr hG (by rw [hb']; rfl)

/-- A branch completes the current block. It goes to blocks without a phi. -/
theorem Good.close {w : BlockId} (h : p.Good (w :: W) D) {i : Instruction} (hi : i.isTerminator = true)
    (hr : i.isRet = false) (hfits : Fits p.base.module p.function i)
    (htargets : ∀ l ∈ i.successors, ∃ id b, id ≠ ⟨0⟩ ∧ p.function.block? id = some b ∧ b.label = l ∧
      ∀ j ∈ b.body, j.isPhi = false) (hw : w ∉ W) (hD : w ∉ D)
    (hreach : p.function.label w ∈ i.successors ∨ p.function.Reaches w) : (p.close i w).Good W D := by
  have hreach' : (∃ b, p.function.block? w = some b ∧ b.label ∈ i.successors) ∨ p.function.Reaches w := by
    refine hreach.imp_left fun hmem => ?_
    obtain ⟨-, -, b, hb, -⟩ := h.underway.flow.waiting List.mem_cons_self
    exact ⟨b, hb, by rwa [← Function.label_eq hb]⟩
  refine ⟨h.underway.branch hi hr hfits htargets List.mem_cons hw hD hreach', h.hosts, fun {x slot} hx => ?_⟩
  obtain ⟨b, hb, -⟩ := h.underway.current
  show slot ∈ (p.function.emit p.block i).slots
  rw [slots_emit hb (Instruction.slot?_of_isTerminator hi)]
  exact h.slots hx

/-- A block that waits can be branched to. -/
theorem Good.target_of_mem (h : p.Good W D) {id : BlockId} (hid : id ∈ W) :
    ∃ id' b, id' ≠ ⟨0⟩ ∧ p.function.block? id' = some b ∧ b.label = p.function.label id ∧
      ∀ j ∈ b.body, j.isPhi = false := by
  obtain ⟨hne, -, b, hb, hempty⟩ := h.underway.flow.waiting hid
  refine ⟨id, b, hne, hb, (Function.label_eq hb).symm, ?_⟩
  rw [Block.body_eq_nil hempty]
  simp

theorem Good.block_isSome (h : p.Good W D) {id : BlockId} (hid : id ∈ W) : (p.function.block? id).isSome := by
  obtain ⟨-, -, b, hb, -⟩ := h.underway.flow.waiting hid
  rw [hb]
  rfl

theorem Good.label_ne (h : p.Good W D) {id id' : BlockId} (hid : (p.function.block? id).isSome)
    (hid' : (p.function.block? id').isSome) (hne : id ≠ id') : p.function.label id ≠ p.function.label id' :=
  fun hl => hne (h.underway.named.id_eq_of_label hid hid' hl)

theorem Good.block_not_mem (h : p.Good W D) : p.block ∉ W := fun hmem => (h.underway.flow.waiting hmem).2.1 rfl

/-- Control can come to a block that the terminator of the current block names. -/
theorem Good.reaches_close (h : p.Good W D) {i : Instruction} (hi : i.isTerminator = true) {next : BlockId}
    {W' D' : List BlockId} (hq : (p.close i next).Good W' D') (hW : W' ⊆ W) {id : BlockId}
    (hid : (p.function.block? id).isSome) (hl : p.function.label id ∈ i.successors) :
    (p.close i next).function.Reaches id := by
  obtain ⟨b, hb, -⟩ := h.underway.current
  have hgrows : Grows (fun _ => False) p.function (p.function.emit p.block i) :=
    .emit hb (Instruction.slot?_of_isTerminator hi) False.elim
  have hcurrent : (p.function.emit p.block i).block? p.block = some (b.append i) := by
    rw [block?_emit hb, if_pos rfl]
  obtain ⟨b', hb'⟩ := Option.isSome_iff_exists.1 (hgrows.block_isSome hid)
  refine .step (hq.underway.flow.reaches ?_ fun hmem => h.block_not_mem (hW hmem)) hcurrent hb' ?_
  · show ((p.function.emit p.block i).block? p.block).isSome
    rw [hcurrent]
    rfl
  · rw [Block.successors_append, ← Function.label_eq hb', hgrows.label_eq hid]
    exact hl

theorem Good.grows_close (h : p.Good W D) {i : Instruction} (hi : i.isTerminator = true) (next : BlockId) :
    Grows G p.function (p.close i next).function := by
  obtain ⟨b, hb, -⟩ := h.underway.current
  exact .emit hb (Instruction.slot?_of_isTerminator hi) fun _ => by cases i <;> first | rfl | cases hi

theorem Good.grows_leave (h : p.Good W D) (target next : BlockId) :
    Grows G p.function (p.leave target next).function := by
  obtain ⟨b, hb, -⟩ := h.underway.current
  exact (Grows.attach _ next).trans (.emit (f := p.function.attach next) hb rfl fun _ => rfl)

/-- The branches to `target` behind a branch to it. -/
theorem Good.sources_leave (h : p.Good W D) {target : BlockId} (htarget : (p.function.block? target).isSome)
    (next : BlockId) :
    ((p.leave target next).function.sources ((p.leave target next).function.label target)).Perm
      (p.function.label p.block :: p.function.sources (p.function.label target)) := by
  obtain ⟨b, hb, ht⟩ := h.underway.current
  rw [(h.grows_leave (G := all) target next).label_eq htarget]
  have := sources_emit hb ht (.br (p.function.label target)) (p.function.label target)
  rw [Function.label_eq hb]
  show ((p.function.emit p.block (.br (p.function.label target))).sources (p.function.label target)).Perm _
  simpa [Instruction.successors] using this

end

/-! ### What the builder does there -/

section

variable {p : Site} {W D : List BlockId}

theorem triple_state (h : p.Good W D) {α : Type} (l₁ l₂ l₃ : String)
    (k : BlockId → BlockId → BlockId → Lower α) :
    (do let b₁ ← Lower.build (.appendBlock l₁)
        let b₂ ← Lower.build (.createBlock l₂)
        let b₃ ← Lower.build (.createBlock l₃)
        k b₁ b₂ b₃) p.state =
      k (p.function.fresh 0) (p.function.fresh 1) (p.function.fresh 2) (p.triple l₁ l₂ l₃).state := by
  let p₁ := p.at_ ((p.function.create l₁).attach (p.function.fresh 0)) p.block
  let p₂ := p₁.at_ (p₁.function.create l₂) p.block
  have h₁ : Lower.build (.appendBlock l₁) p.state = .ok (p.function.fresh 0) p₁.state :=
    build_state (Build.appendBlock_put h.hosts_builder h.underway.laid.nextBlock_not_mem l₁)
  have h₂ : Lower.build (.createBlock l₂) p₁.state = .ok (p.function.fresh 1) p₂.state := by
    rw [← nextBlock_create_attach l₁ p.function]
    exact build_state (p := p₁) (Build.createBlock_put (f := p₁.function) h.hosts_builder l₂)
  have h₃ : Lower.build (.createBlock l₃) p₂.state = .ok (p.function.fresh 2) (p.triple l₁ l₂ l₃).state := by
    rw [← nextBlock_create_create l₁ l₂ p.function]
    exact build_state (p := p₂) (Build.createBlock_put (f := p₂.function) h.hosts_builder l₃)
  rw [bind_of_ok h₁, bind_of_ok h₂, bind_of_ok h₃]

theorem br_state (h : p.Good W D) {target : BlockId} (hb : (p.function.block? target).isSome) :
    Lower.build (.br target) p.state = .ok () (p.close (.br (p.function.label target)) p.block).state := by
  obtain ⟨b, hb⟩ := Option.isSome_iff_exists.1 hb
  rw [Function.label_eq hb]
  exact build_state (Build.br_put h.hosts_builder h.isOpen hb)

theorem condBr_state (h : p.Good W D) (cond : Value) {id₁ id₂ : BlockId} (h₁ : (p.function.block? id₁).isSome)
    (h₂ : (p.function.block? id₂).isSome) : Lower.build (.condBr cond id₁ id₂) p.state =
      .ok () (p.close (.condBr cond (p.function.label id₁) (p.function.label id₂)) p.block).state := by
  obtain ⟨b₁, h₁⟩ := Option.isSome_iff_exists.1 h₁
  obtain ⟨b₂, h₂⟩ := Option.isSome_iff_exists.1 h₂
  rw [Function.label_eq h₁, Function.label_eq h₂]
  exact build_state (Build.condBr_put h.hosts_builder h.isOpen h₁ h₂)

theorem attach_state {p : Site} (hh : p.base.builder.Hosts p.function.name) {id : BlockId} {b : Block}
    (hb : p.function.block? id = some b) (hid : id ∉ p.function.layout) :
    Lower.build (.attachBlock id) p.state = .ok () (p.attach id).state :=
  build_state (Build.attachBlock_put hh hb hid)

theorem position_state (p : Site) (id : BlockId) :
    Lower.build (.positionAtEnd id) p.state = .ok () (p.at_ p.function id).state :=
  build_state (Build.positionAtEnd_put id)

theorem leave_state {next : BlockId} (h : p.Good (next :: W) (next :: D)) {target : BlockId}
    (hb : (p.function.block? target).isSome) {α : Type} (k : Lower α) :
    (do Lower.build (.br target)
        Lower.build (.attachBlock next)
        Lower.build (.positionAtEnd next)
        k) p.state = k (p.leave target next).state := by
  obtain ⟨-, hne, b, hnext, -⟩ := h.underway.flow.waiting List.mem_cons_self
  obtain ⟨bc, hbc, -⟩ := h.underway.current
  let p₁ := p.close (.br (p.function.label target)) p.block
  have hattach : Lower.build (.attachBlock next) p₁.state = .ok () (p₁.attach next).state := by
    refine attach_state (p := p₁) (b := b) h.hosts_builder ?_ (h.underway.laid.not_mem_of_mem List.mem_cons_self)
    show (p.function.emit p.block _).block? next = some b
    rw [block?_emit hbc, if_neg hne, hnext]
  rw [bind_of_ok (br_state h hb), bind_of_ok hattach, bind_of_ok (position_state _ next)]
  rfl

end

/-! ## Conditionals -/

section

variable {p q : Site} {W D : List BlockId} {c : Value}

/-- The site in the first arm. -/
def thenStart (p : Site) (c : Value) : Site :=
  let p₁ := p.triple "trueexp" "falseexp" "endcond"
  p₁.close (.condBr c (p₁.function.label (p.function.fresh 0)) (p₁.function.label (p.function.fresh 1)))
    (p.function.fresh 0)

/-- The site in the second arm, with `q` behind the first one. -/
def elseStart (p q : Site) : Site := q.leave (p.function.fresh 2) (p.function.fresh 1)

/-- The site where the arms meet, with `q` behind the second one. -/
def joinStart (p q : Site) : Site := q.leave (p.function.fresh 2) (p.function.fresh 2)

/-- The site behind a conditional: `q₁` and `q₂` are behind the arms, whose values are `x` and `y`. -/
def joined (p q₁ : Site) (x : Value) (q₂ : Site) (y : Value) : Site :=
  (p.joinStart q₂).at_ ((p.joinStart q₂).function.result (p.function.fresh 2) .f64 (.phi · .f64
    [(x, (p.joinStart q₂).function.label q₁.block), (y, (p.joinStart q₂).function.label q₂.block)]))
    (p.function.fresh 2)

theorem Good.triple_isSome (h : p.Good W D) (l₁ l₂ l₃ : String) {k : Nat} (hk : k < 3) :
    ((p.triple l₁ l₂ l₃).function.block? (p.function.fresh k)).isSome := by
  refine (h.triple l₁ l₂ l₃).block_isSome ?_
  simp only [List.mem_cons, fresh_inj]
  omega

/-- The new blocks are different from the others. -/
theorem ne_fresh {p : Site} {id : BlockId} (h : (p.function.block? id).isSome) (k : Nat) :
    id ≠ p.function.fresh k := by
  rintro rfl
  rw [block?_fresh] at h
  cases h

theorem fresh_ne {p : Site} {j k : Nat} (h : j ≠ k) : p.function.fresh j ≠ p.function.fresh k :=
  fun he => h (fresh_inj.1 he)

theorem Good.fresh_not_mem (h : p.Good W D) (k : Nat) : p.function.fresh k ∉ W := h.underway.fresh_not_mem k

theorem Good.fresh_not_mem_detached (h : p.Good W D) (k : Nat) : p.function.fresh k ∉ D := fun hmem =>
  h.fresh_not_mem k (h.underway.detached hmem)

theorem Good.thenStart (h : p.Good W D) (hc : p.HasType c .bool) :
    (p.thenStart c).Good (p.function.fresh 1 :: p.function.fresh 2 :: W)
      (p.function.fresh 1 :: p.function.fresh 2 :: D) := by
  have h₁ := h.triple "trueexp" "falseexp" "endcond"
  have hc₁ := (h.before_triple (G := all) "trueexp" "falseexp" "endcond").hasType hc
  refine h₁.close rfl rfl hc₁ (fun l hl => ?_) ?_ ?_ (.inl List.mem_cons_self)
  · simp only [Instruction.successors, List.mem_cons, List.not_mem_nil, or_false] at hl
    rcases hl with rfl | rfl <;> exact h₁.target_of_mem (by simp)
  · simp [fresh_inj, h.fresh_not_mem]
  · simp [fresh_inj, h.fresh_not_mem_detached]

/-- Only new blocks are branched to when a conditional starts. -/
theorem Good.before_thenStart (h : p.Good W D) {G : BlockId → Prop} (c : Value)
    (hG : ∀ id, G id → id ≠ p.function.fresh 0 ∧ id ≠ p.function.fresh 1) : p.Before G (p.thenStart c) := by
  have h₁ := h.triple "trueexp" "falseexp" "endcond"
  refine (h.before_triple "trueexp" "falseexp" "endcond").trans (h₁.before_close rfl (fun {id} hid hsome => ?_) _)
  have hne := hG id hid
  simp only [Instruction.successors, List.mem_cons, List.not_mem_nil, or_false, not_or]
  exact ⟨h₁.label_ne hsome (h₁.block_isSome (by simp)) hne.1, h₁.label_ne hsome (h₁.block_isSome (by simp)) hne.2⟩

theorem Good.before_leave (h : q.Good W D) {G : BlockId → Prop} {target : BlockId}
    (htarget : (q.function.block? target).isSome) (next : BlockId) (hG : ∀ id, G id → id ≠ target) :
    q.Before G (q.leave target next) := by
  refine (q.before_attach next).trans ?_
  obtain ⟨b, hb, ht⟩ := h.underway.current
  refine before_at _ (.emit (f := (q.attach next).function) hb ht rfl (fun _ => rfl) fun {id b'} hid hb' => ?_)
  replace hb' : q.function.block? id = some b' := hb'
  have hne : q.function.label id ≠ q.function.label target := h.label_ne (by rw [hb']; rfl) htarget (hG id hid)
  rw [Function.label_eq hb'] at hne
  simpa [Instruction.successors] using hne

/-- A branch to a block without a phi, which the current block ends with. -/
theorem Good.leave {next : BlockId} (h : q.Good (next :: W) (next :: D)) (hW : next ∉ W) (hD : next ∉ D)
    {target : BlockId} {b : Block} (hne : target ≠ ⟨0⟩) (hb : q.function.block? target = some b)
    (hphi : ∀ j ∈ b.body, j.isPhi = false) (hreach : next = target ∨ q.function.Reaches next) :
    (q.leave target next).Good W D := by
  refine (h.attach hD).close rfl rfl trivial (fun l hl => ?_) hW hD ?_
  · cases List.mem_singleton.1 hl
    exact ⟨target, b, hne, hb, (Function.label_eq hb).symm, hphi⟩
  · rcases hreach with rfl | hreach
    · exact .inl List.mem_cons_self
    · exact .inr (hreach.attach next)

end

end Site

/-- The sites of a conditional: the condition `c` is known at `p`, the arms lead to `q₁` and `q₂` with the values
`x` and `y`. -/
structure IfSites (W D : List BlockId) (p : Site) (c : Value) (q₁ : Site) (x : Value) (q₂ : Site) (y : Value) :
    Prop where
  start : p.Good W D
  cond : p.HasType c .bool
  thenGood : q₁.Good (p.function.fresh 1 :: p.function.fresh 2 :: W) (p.function.fresh 1 :: p.function.fresh 2 :: D)
  thenBefore : (p.thenStart c).Before Site.all q₁
  thenType : q₁.HasType x .f64
  elseGood : q₂.Good (p.function.fresh 2 :: W) (p.function.fresh 2 :: D)
  elseBefore : (p.elseStart q₁).Before Site.all q₂
  elseType : q₂.HasType y .f64

namespace Site

section

variable {W D : List BlockId} {p : Site} {c : Value} {q : Site}

/-- The second arm starts as the first one did, without the block it starts in. -/
theorem Good.elseStart (h : p.Good W D) (hc : p.HasType c .bool)
    (hq : q.Good (p.function.fresh 1 :: p.function.fresh 2 :: W) (p.function.fresh 1 :: p.function.fresh 2 :: D))
    (hb : (p.thenStart c).Before all q) :
    (p.elseStart q).Good (p.function.fresh 2 :: W) (p.function.fresh 2 :: D) := by
  have h₁ := h.triple "trueexp" "falseexp" "endcond"
  have hthen := h.thenStart hc
  obtain ⟨hne, -, b, hblock, hempty⟩ := hq.underway.flow.waiting (show p.function.fresh 2 ∈ _ by simp)
  have hreach : (p.thenStart c).function.Reaches (p.function.fresh 1) :=
    h₁.reaches_close rfl hthen (by simp) (h₁.block_isSome (by simp)) (by simp [Instruction.successors])
  refine hq.leave ?_ ?_ hne hblock ?_ (.inr (hreach.grows hthen.underway.flow hq.underway.flow hb.function.toGrows))
  · simp [fresh_inj, h.fresh_not_mem]
  · simp [fresh_inj, h.fresh_not_mem_detached]
  · rw [Block.body_eq_nil hempty]
    simp

end

end Site

namespace IfSites

open Site

variable {W D : List BlockId} {p q₁ q₂ : Site} {c x y : Value}

theorem elseStart_good (h : IfSites W D p c q₁ x q₂ y) :
    (p.elseStart q₁).Good (p.function.fresh 2 :: W) (p.function.fresh 2 :: D) :=
  h.start.elseStart h.cond h.thenGood h.thenBefore

theorem joinStart_good (h : IfSites W D p c q₁ x q₂ y) : (p.joinStart q₂).Good W D := by
  obtain ⟨hne, -, b, hblock, hempty⟩ := h.elseGood.underway.flow.waiting List.mem_cons_self
  refine h.elseGood.leave (h.start.fresh_not_mem 2) (h.start.fresh_not_mem_detached 2) hne hblock ?_ (.inl rfl)
  rw [Block.body_eq_nil hempty]
  simp

theorem before_elseStart (h : IfSites W D p c q₁ x q₂ y) {G : BlockId → Prop}
    (hG : ∀ id, G id → id ≠ p.function.fresh 2) : q₁.Before G (p.elseStart q₁) :=
  h.thenGood.before_leave (h.thenGood.block_isSome (by simp)) _ hG

theorem before_joinStart (h : IfSites W D p c q₁ x q₂ y) {G : BlockId → Prop}
    (hG : ∀ id, G id → id ≠ p.function.fresh 2) : q₂.Before G (p.joinStart q₂) :=
  h.elseGood.before_leave (h.elseGood.block_isSome List.mem_cons_self) _ hG

/-- The block where the arms meet is branched to from the ends of the arms. -/
theorem sources_joinStart (h : IfSites W D p c q₁ x q₂ y) :
    ((p.joinStart q₂).function.sources ((p.joinStart q₂).function.label (p.function.fresh 2))).Perm
      [(p.joinStart q₂).function.label q₂.block, (p.joinStart q₂).function.label q₁.block] := by
  have h₁ := h.start.triple "trueexp" "falseexp" "endcond"
  have hsome := h.start.triple_isSome "trueexp" "falseexp" "endcond" (k := 2) (by omega)
  have hthen : (p.triple "trueexp" "falseexp" "endcond").Before (· = p.function.fresh 2) q₁ := by
    refine (h₁.before_close rfl (fun {id} hid _ => ?_) _).trans (h.thenBefore.mono fun _ _ _ => trivial)
    rw [hid]
    have := h₁.label_ne hsome (h₁.block_isSome (show p.function.fresh 0 ∈ _ by simp)) (fresh_ne (by omega))
    have := h₁.label_ne hsome (h₁.block_isSome (show p.function.fresh 1 ∈ _ by simp)) (fresh_ne (by omega))
    simp [Instruction.successors, *]
  have hsome₁ := h.thenGood.block_isSome (show p.function.fresh 2 ∈ _ by simp)
  have hsome₂ := h.elseGood.block_isSome (show p.function.fresh 2 ∈ _ by simp)
  obtain ⟨b₁, hb₁, -⟩ := h.thenGood.underway.current
  obtain ⟨b₂, hb₂, -⟩ := h.elseGood.underway.current
  -- Nothing branches there before the arms end; then the end of each arm does.
  have hs₁ := hthen.function.sources_label rfl hsome
  have hnone : (p.triple "trueexp" "falseexp" "endcond").function.sources
      ((p.triple "trueexp" "falseexp" "endcond").function.label (p.function.fresh 2)) = [] :=
    sources_triple _ _ _ h.start.underway (by omega)
  rw [hnone] at hs₁
  have hs₂ := (h.thenGood.sources_leave hsome₁ (p.function.fresh 1)).trans (hs₁.cons _)
  have hs₃ := (h.elseBefore.function.sources_label trivial
    (h.elseStart_good.block_isSome (show p.function.fresh 2 ∈ _ by simp))).trans hs₂
  have hs₄ := (h.elseGood.sources_leave hsome₂ (p.function.fresh 2)).trans (hs₃.cons _)
  have hgrows₂ : Grows (fun _ => False) q₂.function (p.joinStart q₂).function :=
    (h.before_joinStart (G := fun _ => False) (fun _ => False.elim)).function.toGrows
  have hgrows₁ : Grows (fun _ => False) q₁.function q₂.function :=
    ((h.before_elseStart (G := fun _ => False) (fun _ => False.elim)).trans
      (h.elseBefore.mono fun _ _ => False.elim)).function.toGrows
  rw [(hgrows₁.trans hgrows₂).label_eq (show (q₁.function.block? q₁.block).isSome by rw [hb₁]; rfl),
    hgrows₂.label_eq (show (q₂.function.block? q₂.block).isSome by rw [hb₂]; rfl)]
  exact hs₄

theorem joinStart_empty (h : IfSites W D p c q₁ x q₂ y) : p.function.fresh 2 ≠ ⟨0⟩ ∧
    ∃ b, (p.joinStart q₂).function.block? (p.function.fresh 2) = some b ∧ b.instructions = [] := by
  obtain ⟨hne, hcur, b, hb, hempty⟩ := h.elseGood.underway.flow.waiting List.mem_cons_self
  obtain ⟨bc, hbc, -⟩ := h.elseGood.underway.current
  refine ⟨hne, b, ?_, hempty⟩
  show ((q₂.function.attach _).emit q₂.block _).block? (p.function.fresh 2) = some b
  rw [block?_emit (f := q₂.function.attach _) hbc, if_neg hcur]
  exact hb

/-- The values of the arms keep their types to the end. -/
theorem hasType_joinStart (h : IfSites W D p c q₁ x q₂ y) :
    (p.joinStart q₂).HasType x .f64 ∧ (p.joinStart q₂).HasType y .f64 := by
  have hjoin := h.before_joinStart (G := fun _ => False) (fun _ => False.elim)
  have helse := h.before_elseStart (G := fun _ => False) (fun _ => False.elim)
  exact ⟨hjoin.hasType (h.elseBefore.hasType (helse.hasType h.thenType)), hjoin.hasType h.elseType⟩

theorem joined_good (h : IfSites W D p c q₁ x q₂ y) : (p.joined q₁ x q₂ y).Good W D := by
  obtain ⟨hne, b, hb, hempty⟩ := h.joinStart_empty
  have hgood := h.joinStart_good
  have hsources := h.sources_joinStart
  rw [Function.label_eq hb] at hsources
  obtain ⟨hx, hy⟩ := h.hasType_joinStart
  let incoming := [(x, (p.joinStart q₂).function.label q₁.block), (y, (p.joinStart q₂).function.label q₂.block)]
  have hlabels : (incoming.map Prod.snd).Perm ((p.joinStart q₂).function.sources b.label) :=
    (List.Perm.swap _ _ _).trans hsources.symm
  have hunder := hgood.underway.phi hb hempty hne hlabels
    (List.forall_mem_cons.2 ⟨hx, List.forall_mem_cons.2 ⟨hy, by simp⟩⟩)
  refine hgood.at_ (G := fun _ => False) hunder (.result hb ?_ _ rfl rfl False.elim)
  simp [Block.isTerminated, Block.terminator?, hempty]

theorem before_phi (h : IfSites W D p c q₁ x q₂ y) {G : BlockId → Prop} (hG : ∀ id, G id → id ≠ p.function.fresh 2) :
    (p.joinStart q₂).Before G (p.joined q₁ x q₂ y) := by
  obtain ⟨-, b, hb, hempty⟩ := h.joinStart_empty
  have ht : b.isTerminated = false := by simp [Block.isTerminated, Block.terminator?, hempty]
  exact before_at _ (.result hb ht _ rfl rfl fun hfresh => absurd rfl (hG _ hfresh))

/-- A conditional branches to no block that there was before it. -/
theorem before_joined (h : IfSites W D p c q₁ x q₂ y) : p.Before all (p.joined q₁ x q₂ y) := by
  let G : BlockId → Prop := fun id => (p.function.block? id).isSome
  have hG : ∀ id k, G id → id ≠ p.function.fresh k := fun id k hid => ne_fresh hid k
  have hthen : p.Before G q₁ :=
    (h.start.before_thenStart c fun id hid => ⟨hG id 0 hid, hG id 1 hid⟩).trans (h.thenBefore.mono fun _ _ _ => trivial)
  have helse : p.Before G q₂ :=
    (hthen.trans (h.before_elseStart fun id => hG id 2)).trans (h.elseBefore.mono fun _ _ _ => trivial)
  have hjoin : p.Before G (p.joinStart q₂) := helse.trans (h.before_joinStart fun id => hG id 2)
  exact (hjoin.trans (h.before_phi fun id => hG id 2)).mono fun id hid _ => hid

theorem phi_state (h : IfSites W D p c q₁ x q₂ y) :
    Lower.build (.phi .f64 [(x, q₁.block), (y, q₂.block)]) (p.joinStart q₂).state =
      .ok (.temp (p.joinStart q₂).function.temps.length) (p.joined q₁ x q₂ y).state := by
  obtain ⟨b₁, hb₁, -⟩ := h.thenGood.underway.current
  obtain ⟨b₂, hb₂, -⟩ := h.elseGood.underway.current
  have hjoin := h.before_joinStart (G := fun _ => False) (fun _ => False.elim)
  have helse := h.before_elseStart (G := fun _ => False) (fun _ => False.elim)
  obtain ⟨b₁', -, hb₁', -⟩ := (helse.trans (h.elseBefore.mono fun _ _ => False.elim)).function.block hb₁
  obtain ⟨b₁'', -, h₁, -⟩ := hjoin.function.block hb₁'
  obtain ⟨b₂', -, h₂, -⟩ := hjoin.function.block hb₂
  unfold joined
  rw [Function.label_eq h₁, Function.label_eq h₂]
  exact build_state (Build.phi_put h.joinStart_good.hosts_builder h.joinStart_good.isOpen h₁ h₂)

end IfSites

section

open Site

variable {W D : List BlockId} {p : Site} {cond thenArm elseArm : Lower Value} {e₁ e₂ e₃ : List LowerError}
  {σ₁ σ₂ σ₃ : Names} {P : Site → Value → Prop} {Q : Site → Value → Site → Value → Prop}
  {R : Site → Value → Site → Value → Site → Value → Prop}

theorem hasType_joined (p q₁ : Site) (x : Value) (q₂ : Site) (y : Value) :
    (p.joined q₁ x q₂ y).HasType (.temp (p.joinStart q₂).function.temps.length) .f64 :=
  HasType.result (p.joinStart q₂).base.module (p.joinStart q₂).function (p.function.fresh 2) .f64 (.phi · .f64
    [(x, (p.joinStart q₂).function.label q₁.block), (y, (p.joinStart q₂).function.label q₂.block)])

/-- What a conditional yields, from what its parts do. -/
theorem yields_conditional
    (hcond : Yields all W D p (Lower.asBool cond p.state) e₁ σ₁ fun q c => q.HasType c .bool ∧ P q c)
    (hthen : ∀ q c, q.Good W D → q.names = σ₁ → q.HasType c .bool → P q c →
      Yields all (q.function.fresh 1 :: q.function.fresh 2 :: W) (q.function.fresh 1 :: q.function.fresh 2 :: D)
        (q.thenStart c) (Lower.asFloat thenArm (q.thenStart c).state) e₂ σ₂ fun q₁ x =>
          q₁.HasType x .f64 ∧ Q q c q₁ x)
    (helse : ∀ q c q₁ x, (q.elseStart q₁).Good (q.function.fresh 2 :: W) (q.function.fresh 2 :: D) →
      q₁.names = σ₂ → P q c → Q q c q₁ x →
      Yields all (q.function.fresh 2 :: W) (q.function.fresh 2 :: D) (q.elseStart q₁)
        (Lower.asFloat elseArm (q.elseStart q₁).state) e₃ σ₃ fun q₂ y =>
          q₂.HasType y .f64 ∧ R q c q₁ x q₂ y) :
    Yields all W D p (Lower.conditional cond thenArm elseArm p.state)
      (Scoping.within .condition e₁ ++ Scoping.within (.arm .thenArm) e₂ ++ Scoping.within (.arm .elseArm) e₃) σ₃
      fun r v => ∃ q c q₁ x q₂ y, IfSites W D q c q₁ x q₂ y ∧ p.Before all q ∧ P q c ∧ Q q c q₁ x ∧
        R q c q₁ x q₂ y ∧ r = q.joined q₁ x q₂ y ∧ v = .temp (q.joinStart q₂).function.temps.length := by
  rw [List.append_assoc]
  refine (hcond.within _).andThen fun c q hq hb hn ⟨hc, hP⟩ => ?_
  have hq₀ := hq.triple "trueexp" "falseexp" "endcond"
  rw [triple_state hq, bind_of_ok (condBr_state hq₀ c (hq₀.block_isSome (by simp)) (hq₀.block_isSome (by simp))),
    bind_of_ok (position_state _ _)]
  refine ((hthen q c hq hn hc hP).within _).andThen fun x q₁ hq₁ hb₁ hn₁ ⟨hx, hQ⟩ => ?_
  have hinsert₁ : Lower.build .insertBlock q₁.state = .ok q₁.block q₁.state := build_state Build.insertBlock_put
  rw [bind_of_ok hinsert₁, leave_state hq₁ (hq₁.block_isSome (by simp))]
  have helse' := helse q c q₁ x (hq.elseStart hc hq₁ hb₁) hn₁ hP hQ
  rw [← List.append_nil (Scoping.within (.arm .elseArm) e₃)]
  refine (helse'.within _).andThen fun y q₂ hq₂ hb₂ hn₂ ⟨hy, hR⟩ => ?_
  have hinsert₂ : Lower.build .insertBlock q₂.state = .ok q₂.block q₂.state := build_state Build.insertBlock_put
  rw [bind_of_ok hinsert₂, leave_state hq₂ (hq₂.block_isSome (by simp))]
  have hsites : IfSites W D q c q₁ x q₂ y := ⟨hq, hc, hq₁, hb₁, hx, hq₂, hb₂, hy⟩
  exact .ok hsites.phi_state hsites.joined_good (hb.trans hsites.before_joined) hn₂
    ⟨q, c, q₁, x, q₂, y, hsites, hb, hP, hQ, hR, rfl, rfl⟩

end

theorem refines_conditional {cond thenArm elseArm : Lower Value} {a b c : Scoping} (ha : Refines cond a)
    (hb : Refines thenArm b) (hc : Refines elseArm c) :
    Refines (Lower.conditional cond thenArm elseArm) (.conditional a b c) := by
  intro W D p h
  have hcond : Yields Site.all W D p (Lower.asBool cond p.state) (a.read p.names) (a.after p.names)
      fun q c => q.HasType c .bool ∧ True := (ha.asBool h).imp fun _ _ _ hv => ⟨hv, trivial⟩
  refine (yields_conditional (Q := fun _ _ _ _ => True) (R := fun _ _ _ _ _ _ => True) hcond
    (fun q v hq hn hv _ => ?_) (fun q v q₁ x hq₁ (hn₁ : q₁.names = b.after (a.after p.names)) _ _ => ?_)).imp
    fun r v hr hv => ?_
  · have := hb.asFloat (hq.thenStart hv)
    rw [show (q.thenStart v).names = a.after p.names from hn] at this
    exact this.imp fun _ _ _ hv => ⟨hv, trivial⟩
  · have := hc.asFloat hq₁
    rw [show (q.elseStart q₁).names = b.after (a.after p.names) from hn₁] at this
    exact this.imp fun _ _ _ hv => ⟨hv, trivial⟩
  · obtain ⟨q, c, q₁, x, q₂, y, -, -, -, -, -, rfl, rfl⟩ := hv
    exact .plain (hasType_joined q q₁ x q₂ y) (by simp)

/-! ## Loops -/

namespace Site

variable {p q r : Site} {W D : List BlockId} {c : Value}

/-- The site in front of the condition of a loop. -/
def condStart (p : Site) : Site :=
  let p₁ := p.triple "cond" "loop" "merge"
  p₁.close (.br (p₁.function.label (p.function.fresh 0))) (p.function.fresh 0)

/-- The site in front of the body, with `q` behind the condition, whose value is `c`. -/
def bodyStart (p q : Site) (c : Value) : Site :=
  (q.attach (p.function.fresh 1)).close (.condBr c (q.function.label (p.function.fresh 1))
    (q.function.label (p.function.fresh 2))) (p.function.fresh 1)

/-- The site behind a loop, with `r` behind the body and the step. -/
def loopEnd (p r : Site) : Site := r.leave (p.function.fresh 0) (p.function.fresh 2)

theorem Good.condStart (h : p.Good W D) :
    p.condStart.Good (p.function.fresh 1 :: p.function.fresh 2 :: W)
      (p.function.fresh 1 :: p.function.fresh 2 :: D) := by
  have h₁ := h.triple "cond" "loop" "merge"
  refine h₁.close rfl rfl trivial (fun l hl => ?_) ?_ ?_ (.inl List.mem_cons_self)
  · cases List.mem_singleton.1 hl
    exact h₁.target_of_mem List.mem_cons_self
  · simp [fresh_inj, h.fresh_not_mem]
  · simp [fresh_inj, h.fresh_not_mem_detached]

theorem Good.before_condStart (h : p.Good W D) {G : BlockId → Prop} (hG : ∀ id, G id → id ≠ p.function.fresh 0) :
    p.Before G p.condStart := by
  have h₁ := h.triple "cond" "loop" "merge"
  refine (h.before_triple "cond" "loop" "merge").trans (h₁.before_close rfl (fun {id} hid hsome => ?_) _)
  have hne := h₁.label_ne hsome (h₁.block_isSome (show p.function.fresh 0 ∈ _ by simp)) (hG id hid)
  simpa [Instruction.successors] using hne

theorem Good.bodyStart (h : p.Good W D)
    (hq : q.Good (p.function.fresh 1 :: p.function.fresh 2 :: W) (p.function.fresh 1 :: p.function.fresh 2 :: D))
    (hc : q.HasType c .bool) :
    (p.bodyStart q c).Good (p.function.fresh 2 :: W) (p.function.fresh 2 :: D) := by
  have hD : p.function.fresh 1 ∉ p.function.fresh 2 :: D := by simp [fresh_inj, h.fresh_not_mem_detached]
  have hq₁ := hq.attach hD
  have hc₁ := (q.before_attach (G := all) (p.function.fresh 1)).hasType hc
  refine hq₁.close rfl rfl hc₁ (fun l hl => ?_) ?_ hD (.inl List.mem_cons_self)
  · simp only [Instruction.successors, List.mem_cons, List.not_mem_nil, or_false] at hl
    rcases hl with rfl | rfl
    · exact hq₁.target_of_mem (show p.function.fresh 1 ∈ _ by simp)
    · exact hq₁.target_of_mem (show p.function.fresh 2 ∈ _ by simp)
  · simp [fresh_inj, h.fresh_not_mem]

end Site

/-- The sites of a loop behind its header: the condition `c` is known at `q`, and `r` is behind the step. -/
structure LoopSites (W D : List BlockId) (p q : Site) (c : Value) (r : Site) : Prop where
  start : p.Good W D
  condGood : q.Good (p.function.fresh 1 :: p.function.fresh 2 :: W) (p.function.fresh 1 :: p.function.fresh 2 :: D)
  condBefore : p.condStart.Before Site.all q
  cond : q.HasType c .bool
  bodyGood : r.Good (p.function.fresh 2 :: W) (p.function.fresh 2 :: D)
  bodyBefore : (p.bodyStart q c).Before Site.all r

namespace LoopSites

open Site

variable {W D : List BlockId} {p q r : Site} {c : Value}

theorem attach_good (h : LoopSites W D p q c r) : (q.attach (p.function.fresh 1)).Good
    (p.function.fresh 1 :: p.function.fresh 2 :: W) (p.function.fresh 2 :: D) :=
  h.condGood.attach (by simp [fresh_inj, h.start.fresh_not_mem_detached])

theorem before_bodyStart (h : LoopSites W D p q c r) {G : BlockId → Prop}
    (hG : ∀ id, G id → id ≠ p.function.fresh 1 ∧ id ≠ p.function.fresh 2) : q.Before G (p.bodyStart q c) := by
  have hq₁ := h.attach_good
  refine (q.before_attach _).trans (hq₁.before_close rfl (fun {id} hid hsome => ?_) _)
  have h₁ := hq₁.label_ne hsome (hq₁.block_isSome (show p.function.fresh 1 ∈ _ by simp)) (hG id hid).1
  have h₂ := hq₁.label_ne hsome (hq₁.block_isSome (show p.function.fresh 2 ∈ _ by simp)) (hG id hid).2
  simpa [Instruction.successors] using ⟨h₁, h₂⟩

/-- The block of the condition is there at the end of the loop, and has no phi. -/
theorem condBlock (h : LoopSites W D p q c r) : p.function.fresh 0 ≠ ⟨0⟩ ∧
    ∃ b, r.function.block? (p.function.fresh 0) = some b ∧ ∀ i ∈ b.body, i.isPhi = false := by
  have h₁ := h.start.triple "cond" "loop" "merge"
  obtain ⟨hne, hcur, b, hb, hempty⟩ := h₁.underway.flow.waiting (show p.function.fresh 0 ∈ _ by simp)
  obtain ⟨bc, hbc, -⟩ := h₁.underway.current
  have hb₀ : p.condStart.function.block? (p.function.fresh 0) = some b := by
    show ((p.triple _ _ _).function.emit _ _).block? _ = some b
    rw [block?_emit hbc, if_neg hcur, hb]
  have hbefore : p.condStart.Before (· = p.function.fresh 0) r := by
    refine ((h.condBefore.mono fun _ _ _ => trivial).trans (h.before_bodyStart fun id hid => ?_)).trans
      (h.bodyBefore.mono fun _ _ _ => trivial)
    rw [hid]
    exact ⟨fresh_ne (by omega), fresh_ne (by omega)⟩
  obtain ⟨b', -, hb', -⟩ := hbefore.function.block hb₀
  exact ⟨hne, b', hb', hbefore.function.phi_free rfl hb₀ hempty hb'⟩

theorem loopEnd_good (h : LoopSites W D p q c r) : (p.loopEnd r).Good W D := by
  obtain ⟨hne, b, hb, hphi⟩ := h.condBlock
  have hq₁ := h.attach_good
  have hbody := h.start.bodyStart h.condGood h.cond
  have hreach : (p.bodyStart q c).function.Reaches (p.function.fresh 2) :=
    hq₁.reaches_close rfl hbody (by simp) (hq₁.block_isSome (by simp)) (.tail _ (.head _))
  exact h.bodyGood.leave (h.start.fresh_not_mem 2) (h.start.fresh_not_mem_detached 2) hne hb hphi
    (.inr (hreach.grows hbody.underway.flow h.bodyGood.underway.flow h.bodyBefore.function.toGrows))

theorem before_loopEnd (h : LoopSites W D p q c r) {G : BlockId → Prop}
    (hG : ∀ id, G id → id ≠ p.function.fresh 0) : r.Before G (p.loopEnd r) := by
  obtain ⟨-, b, hb, -⟩ := h.condBlock
  exact h.bodyGood.before_leave (by rw [hb]; rfl) _ hG

/-- A loop branches to no block that there was before it. -/
theorem before_end (h : LoopSites W D p q c r) : p.Before all (p.loopEnd r) := by
  let G : BlockId → Prop := fun id => (p.function.block? id).isSome
  have hG : ∀ id k, G id → id ≠ p.function.fresh k := fun id k hid => ne_fresh hid k
  have hcond : p.Before G q :=
    (h.start.before_condStart fun id => hG id 0).trans (h.condBefore.mono fun _ _ _ => trivial)
  have hbody : p.Before G r :=
    (hcond.trans (h.before_bodyStart fun id hid => ⟨hG id 1 hid, hG id 2 hid⟩)).trans
      (h.bodyBefore.mono fun _ _ _ => trivial)
  exact (hbody.trans (h.before_loopEnd fun id => hG id 0)).mono fun id hid _ => hid

end LoopSites

section

open Site

variable {W D : List BlockId} {p : Site} {cond step body : Lower Value} {e₁ e₂ e₃ : List LowerError}
  {σ₁ σ₂ σ₃ : Names} {P : Site → Value → Prop} {Q : Site → Value → Site → Prop}
  {R : Site → Value → Site → Site → Prop}

/-- What the blocks of a loop yield, from what its parts do. -/
theorem yields_loopBlocks (h : p.Good W D)
    (hcond : Yields all (p.function.fresh 1 :: p.function.fresh 2 :: W) (p.function.fresh 1 :: p.function.fresh 2 :: D)
      p.condStart (Lower.asBool cond p.condStart.state) e₁ σ₁ fun q c => q.HasType c .bool ∧ P q c)
    (hbody : ∀ q c, (p.bodyStart q c).Good (p.function.fresh 2 :: W) (p.function.fresh 2 :: D) → q.names = σ₁ →
      P q c → Yields all (p.function.fresh 2 :: W) (p.function.fresh 2 :: D) (p.bodyStart q c)
        (body (p.bodyStart q c).state) e₂ σ₂ fun r _ => Q q c r)
    (hstep : ∀ q c r, r.Good (p.function.fresh 2 :: W) (p.function.fresh 2 :: D) → r.names = σ₂ → P q c → Q q c r →
      Yields all (p.function.fresh 2 :: W) (p.function.fresh 2 :: D) r (step r.state) e₃ σ₃ fun r' _ => R q c r r') :
    Yields all W D p (Lower.loopBlocks cond step body p.state)
      (Scoping.within .loopCondition e₁ ++ (Scoping.within .loopBody e₂ ++ Scoping.within .loopStep e₃)) σ₃
      fun s v => ∃ q c r r', LoopSites W D p q c r' ∧ (p.bodyStart q c).Before all r ∧ r.Before all r' ∧ P q c ∧
        Q q c r ∧ R q c r r' ∧ s = p.loopEnd r' ∧ v = .constFloat 0 := by
  have h₀ := h.triple "cond" "loop" "merge"
  rw [Lower.loopBlocks, triple_state h, bind_of_ok (br_state h₀ (h₀.block_isSome (by simp))),
    bind_of_ok (position_state _ _)]
  refine (hcond.within _).andThen fun c q hq hb hn ⟨hc, hP⟩ => ?_
  have hq₁ := hq.attach (by simp [fresh_inj, h.fresh_not_mem_detached])
  obtain ⟨-, -, b, hblock, -⟩ := hq.underway.flow.waiting (show p.function.fresh 1 ∈ _ by simp)
  have hlayout := hq.underway.laid.not_mem_of_mem (show p.function.fresh 1 ∈ _ by simp)
  rw [bind_of_ok (attach_state hq.hosts_builder hblock hlayout),
    bind_of_ok (condBr_state hq₁ c (hq₁.block_isSome (by simp)) (hq₁.block_isSome (by simp))),
    bind_of_ok (position_state _ _)]
  refine ((hbody q c (h.bodyStart hq hc) hn hP).within _).discard.andThen fun _ r hr hbr hnr hQ => ?_
  rw [← List.append_nil (Scoping.within .loopStep e₃)]
  refine ((hstep q c r hr hnr hP hQ).within _).discard.andThen fun _ r' hr' hbr' hnr' hR => ?_
  have hsites : LoopSites W D p q c r' := ⟨h, hq, hb, hc, hr', hbr.trans hbr'⟩
  obtain ⟨-, b₀, hb₀, -⟩ := hsites.condBlock
  rw [leave_state hr' (by rw [hb₀]; rfl)]
  exact .ok rfl hsites.loopEnd_good hsites.before_end hnr' ⟨q, c, r, r', hsites, hbr, hbr', hP, hQ, hR, rfl, rfl⟩

end

theorem yields_loopBlocks_of_refines {W D : List BlockId} {p : Site} (h : p.Good W D)
    {cond step body : Lower Value} {a b c : Scoping} (ha : Refines cond a) (hb : Refines body b)
    (hc : Refines step c) :
    Yields Site.all W D p (Lower.loopBlocks cond step body p.state)
      (Scoping.within .loopCondition (a.read p.names) ++ (Scoping.within .loopBody (b.offences (a.after p.names)) ++
        Scoping.within .loopStep (c.offences (b.after (a.after p.names)))))
      (c.after (b.after (a.after p.names))) fun _ v => v = .constFloat 0 := by
  have hcond := (ha.asBool h.condStart).imp (S := fun q c => q.HasType c .bool ∧ True) fun _ _ _ hv => ⟨hv, trivial⟩
  refine (yields_loopBlocks (Q := fun _ _ _ => True) (R := fun _ _ _ _ => True) h hcond
    (fun q v hq (hn : q.names = a.after p.names) _ => ?_)
    (fun q v r hr (hn : r.names = b.after (a.after p.names)) _ _ => ?_)).imp fun r v hr hv => ?_
  · have := hb hq
    rw [show (p.bodyStart q v).names = a.after p.names from hn] at this
    exact this.imp fun _ _ _ _ => trivial
  · have := hc hr
    rw [hn] at this
    exact this.imp fun _ _ _ _ => trivial
  · obtain ⟨_, _, _, _, -, -, -, -, -, -, -, rfl⟩ := hv
    rfl

/-! ## Loop variables -/

theorem Names.bind_of_isLocal {σ : Names} {name : String} (h : σ.isLocal name = true) : σ.bind name = σ := by
  have hlocal : (fun x => decide (x = name) || σ.isLocal x) = σ.isLocal := by
    funext x
    by_cases hx : x = name
    · subst hx
      simp [h]
    · simp [hx]
  exact congrArg (fun l => { σ with isLocal := l }) hlocal

/-- The parts of a loop header refine those of its scoping. -/
inductive HeaderRefines : LoopHeader (Lower Value) → LoopHeader Scoping → Prop where
  | declare {init a} (name : String) : Refines init a → HeaderRefines (.declare name init) (.declare name a)
  | assign {init a} (name : String) : Refines init a → HeaderRefines (.assign name init) (.assign name a)
  | increment (name : String) : HeaderRefines (.increment name) (.increment name)

section

open Site

variable {W D : List BlockId} {p : Site} {init : Lower Value} {a : Scoping}

theorem yields_bindLoopVariable (h : p.Good W D) (name : String) (ha : Refines init a) :
    Yields all W D p (Lower.bindLoopVariable name init p.state) ((Scoping.initializer name a).offences p.names)
      ((a.after p.names).bind name) fun _ _ => True := by
  refine (yields_allocate h name ha).bind_ok fun slot q hq _ hn hslot => ?_
  rw [← hn]
  exact .ok rfl (hq.bind hslot name) (q.before_bind name slot) (q.names_bind name slot) trivial

/-- A new value for a local variable. -/
theorem yields_assign_local (h : p.Good W D) {name : String} (hlocal : (p.scope.lookup name).isSome)
    (ha : Refines init a) :
    Yields all W D p (Lower.assign name init p.state) (Scoping.within (.assigned name) (a.read p.names))
      ((a.after p.names).bind name) fun _ _ => True := by
  refine ((ha.asFloat h).within _).bind_ok fun v q hq hb hn hv => ?_
  have hq_local : q.names.isLocal name = true := hb.locals hlocal
  rw [← hn, Names.bind_of_isLocal hq_local]
  have hresolve := yields_resolve hq name
  rw [show (Scoping.reference name).offences q.names = [] by simp [Scoping.reference, Names.isVariable, hq_local]]
    at hresolve
  refine Yields.bind_ok hresolve fun ptr q₁ hq₁ hb₁ hn₁ hptr => ?_
  rw [← hn₁]
  refine (yields_store hq₁ (hb₁.hasType hv) hptr.1 hptr.2).bind_ok fun _ q₂ hq₂ hb₂ hn₂ _ => ?_
  rw [← hn₂]
  exact yields_pure hq₂ trivial

theorem yields_loopHeader (h : p.Good W D) {head : LoopHeader (Lower Value)} {sc : LoopHeader Scoping}
    (hhead : HeaderRefines head sc) :
    Yields all W D p (Lower.loopHeader head (p.scope.lookup head.name) p.state)
      ((Scoping.header sc).offences p.names) ((Scoping.header sc).after p.names) fun _ _ => True := by
  have hlocal : ∀ name, p.names.isLocal name = (p.scope.lookup name).isSome := fun _ => rfl
  cases hhead with
  | @declare init a name ha =>
    show Yields all W D p (Lower.loopHeader _ (p.scope.lookup name) p.state)
      ((Scoping.initializer name a).offences p.names) ((a.after p.names).bind name) _
    cases hl : p.scope.lookup name with
    | none => exact yields_bindLoopVariable h name ha
    | some slot =>
      refine ((ha.asFloat h).within _).bind_ok fun v q hq hb hn hv => ?_
      have hq_local : q.names.isLocal name = true := hb.locals (by rw [hl]; rfl)
      rw [← hn, Names.bind_of_isLocal hq_local]
      exact yields_store hq hv (.slot (hb.function.slots.subset (h.slots hl))) rfl
  | @assign init a name ha =>
    show Yields all W D p (Lower.loopHeader _ (p.scope.lookup name) p.state)
      (if p.names.isLocal name then _ else _) ((a.after p.names).bind name) _
    rw [hlocal]
    cases hl : p.scope.lookup name with
    | none => exact yields_bindLoopVariable h name ha
    | some slot => exact (yields_assign_local h (by rw [hl]; rfl) ha).discard
  | increment name =>
    show Yields all W D p (Lower.loopHeader _ (p.scope.lookup name) p.state)
      ((Scoping.increment name).offences p.names) p.names _
    have hincrement := refines_increment name h
    cases hl : p.scope.lookup name with
    | none =>
      show Yields all W D p _ (if p.names.isLocal name then _ else _) p.names _
      rw [hlocal, hl]
      exact yields_fail
    | some slot => exact Yields.discard (hincrement.imp fun _ _ _ _ => trivial)

end

/-- Behind a loop over a local variable the variable is bound as before. -/
theorem Site.Before.rebind {W D : List BlockId} {p q : Site} (hb : p.Before Site.all q) (h : p.Good W D)
    (hq : q.Good W D) {name slot : String} (hl : p.scope.lookup name = some slot) :
    (q.withScope (q.scope.bind name slot)).Good W D ∧ p.Before Site.all (q.withScope (q.scope.bind name slot)) ∧
      (q.withScope (q.scope.bind name slot)).names = q.names := by
  have hlocal : q.names.isLocal name = true := hb.locals (by rw [hl]; rfl)
  refine ⟨hq.bind (hb.function.slots.subset (h.slots hl)) name, hb.trans (q.before_bind name slot), ?_⟩
  rw [q.names_bind, Names.bind_of_isLocal hlocal]

theorem refines_forLoop {head : LoopHeader (Lower Value)} {sc : LoopHeader Scoping} {cond step body : Lower Value}
    {a b c : Scoping} (hhead : HeaderRefines head sc) (ha : Refines cond a) (hb : Refines step b)
    (hc : Refines body c) : Refines (Lower.forLoop head cond step body) (.forLoop sc a b c) := by
  intro W D p h
  let σ := (Scoping.header sc).after p.names
  have hloop : Yields Site.all W D p
      ((do Lower.loopHeader head (p.scope.lookup head.name); Lower.loopBlocks cond step body) p.state)
      ((Scoping.forLoop sc a b c).offences p.names) ((Scoping.forLoop sc a b c).after p.names)
      fun _ v => v = .constFloat 0 := by
    have hoffences : (Scoping.forLoop sc a b c).offences p.names = (Scoping.header sc).offences p.names ++
        (Scoping.within .loopCondition (a.read σ) ++ (Scoping.within .loopBody (c.offences (a.after σ)) ++
          Scoping.within .loopStep (b.offences (c.after (a.after σ))))) := by
      simp only [Scoping.forLoop, List.append_assoc, σ]
    rw [hoffences]
    refine (yields_loopHeader h hhead).bind fun _ q hq _ hn _ => ?_
    have hblocks := yields_loopBlocks_of_refines hq ha hc hb
    rw [hn] at hblocks
    exact hblocks
  have hvalue : ∀ q : Site, ∀ v : Value, v = .constFloat 0 → IsValue none q v := by
    rintro q _ rfl
    exact .plain (.constFloat 0) (by simp)
  have hlocal : Lower.local? head.name p.state = .ok (p.scope.lookup head.name) p.state := rfl
  refine .step hlocal (.refl p) ?_
  cases hl : p.scope.lookup head.name with
  | none =>
    rw [hl] at hloop
    exact hloop.imp fun q v _ hv => hvalue q v hv
  | some slot =>
    rw [hl] at hloop
    refine hloop.finallyScope fun q v hq hbefore hn hv => ?_
    obtain ⟨h₁, h₂, h₃⟩ := hbefore.rebind h hq hl
    exact ⟨h₁, h₂, h₃.trans hn, hvalue _ v hv⟩

end Monofloat
