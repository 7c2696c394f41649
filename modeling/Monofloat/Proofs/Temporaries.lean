import Monofloat.Proofs.TempNumbers
import Monofloat.Proofs.Verdict

/-!
# Which temporaries are written

The checks take a temporary for defined once it has a number. A number is given before the instruction that writes the
temporary is placed, and the instruction may be placed in a block that is never attached. So a function that is
accepted can use a temporary that none of its attached blocks writes. There are two ways to this, and no others: a block
that is not attached writes the temporary, or an operation has failed and has left it unwritten (`Abandons`).
-/

namespace Monofloat.Ir

/-- An instruction of the block writes the temporary. -/
def Block.Writes (b : Block) (t : Nat) : Prop := ∃ i ∈ b.instructions, i.dest? = some t

/-- One of the operations fails, and leaves the temporary of the function without an instruction that writes it. -/
def Abandons (numbering : Numbering) (name : String) (ops : List ((α : Type) × Operation α)) (function : String)
    (t : Nat) : Prop :=
  ∃ before op after, ops = before ++ op :: after ∧
    ∃ p f ty e, (built numbering name before).1.At p f ∧ f.name = function ∧ f.temps.length = t ∧
      op.2.perform numbering (built numbering name before).1 =
        .error e ((built numbering name before).1.put (f.withTemp ty) p.block)

theorem Abandons.append {numbering : Numbering} {name function : String} {ops : List ((α : Type) × Operation α)}
    {t : Nat} (h : Abandons numbering name ops function t) (more : List ((α : Type) × Operation α)) :
    Abandons numbering name (ops ++ more) function t := by
  obtain ⟨before, op, after, rfl, hfails⟩ := h
  exact ⟨before, op, after ++ more, by simp, hfails⟩

/-! ## Every number is accounted for -/

/-- Each temporary of the function that can be told by its number is written, or is one of those in `A`. -/
def Function.Accounted (numbering : Numbering) (f : Function) (A : Nat → Prop) : Prop :=
  ∀ t < f.temps.length, numbering.number t = t → t ∈ f.dests ∨ A t

namespace Function.Accounted

variable {numbering : Numbering} {f : Function} {c : BlockId} {b : Block} {A A' : Nat → Prop}

theorem mono (h : f.Accounted numbering A) (hA : ∀ t, A t → A' t) : f.Accounted numbering A' :=
  fun t ht hnumber => (h t ht hnumber).imp_right (hA t)

theorem create (h : f.Accounted numbering A) (label : String) : (f.create label).Accounted numbering A := by
  intro t ht hnumber
  rw [dests_create]
  exact h t ht hnumber

theorem append (h : f.Accounted numbering A) (label : String) : (f.appendBlock label).2.Accounted numbering A := by
  show (((f.create label).attach? f.nextBlock).getD (f.create label)).Accounted numbering A
  unfold attach?
  split <;> exact h.create label

theorem emit (h : f.Accounted numbering A) (hb : f.block? c = some b) {i : Instruction} (hi : i.slot? = none) :
    (f.emit c i).Accounted numbering A := fun t ht hnumber =>
  (h t ht hnumber).imp_left fun hd => (dests_emit hb hi).mem_iff.2 (List.mem_append_left _ hd)

/-- The temporaries of the function and one more, which is in `A`. -/
theorem withTemp (h : f.Accounted numbering A) {ty : Ty} (hA : A f.temps.length) :
    (f.withTemp ty).Accounted numbering A := by
  intro t ht hnumber
  have hlt : t < f.temps.length + 1 := by simpa [Function.withTemp] using ht
  obtain hlt | rfl := Nat.lt_succ_iff_lt_or_eq.1 hlt
  · exact h t hlt hnumber
  · exact .inr hA

/-- A new temporary is written by the instruction that it is for. -/
theorem result (h : f.Accounted numbering A) (hb : f.block? c = some b) {ty : Ty} {i : Nat → Instruction}
    (hslot : ∀ d, (i d).slot? = none) (hdest : ∀ d, (i d).dest? = some d) :
    (f.result c ty fun d => i (numbering.number d)).Accounted numbering A := by
  have hnew : (f.withTemp ty).Accounted numbering fun t => A t ∨ t = f.temps.length :=
    (h.mono fun _ => .inl).withTemp (.inr rfl)
  intro t ht hnumber
  obtain hd | hA | rfl := hnew.emit (c := c) (b := b) hb (hslot (numbering.number f.temps.length)) t ht hnumber
  · exact .inl hd
  · exact .inr hA
  · refine .inl ((dests_emit (f := f.withTemp ty) hb (hslot _)).mem_iff.2 (List.mem_append_right _ ?_))
    rw [hdest, hnumber]
    exact List.mem_singleton.2 rfl

end Function.Accounted

/-- Every change keeps the temporaries accounted for. -/
theorem Function.Change.accounted {numbering : Numbering} {f g : Function} (h : f.Change numbering g) {A : Nat → Prop}
    (hf : f.Accounted numbering A) : g.Accounted numbering A := by
  cases h with
  | append label => exact hf.append label
  | create label => exact hf.create label
  | attach => exact hf
  | reserve _ hb name =>
    intro t ht hnumber
    rw [dests_reserve hb]
    exact hf t ht hnumber
  | emit hopen hslot =>
    obtain ⟨b, hb, -⟩ := hopen
    exact hf.emit hb hslot
  | result hopen hslot hdest =>
    obtain ⟨b, hb, -⟩ := hopen
    exact hf.result hb hslot hdest

/-- Whatever is built, each temporary is written, or an operation has failed and left it. -/
theorem accounted_built (numbering : Numbering) (name : String) (ops : List ((α : Type) × Operation α)) :
    ∀ f ∈ (built numbering name ops).1.module.functions,
      f.Accounted numbering (Abandons numbering name ops f.name) := by
  induction ops using List.reverseRecOn with
  | nil => rintro f ⟨⟩
  | append_singleton ops op ih =>
    have hold : ∀ f ∈ (built numbering name ops).1.module.functions,
        f.Accounted numbering (Abandons numbering name (ops ++ [op]) f.name) :=
      fun f hf => (ih f hf).mono fun _ h => h.append [op]
    intro g hg
    obtain hmem | ⟨fname, params, rfl⟩ | ⟨f, hf, hchange⟩ | ⟨p, f, ty, e, hf, rfl, hfails⟩ := mem_functions_concat hg
    · exact hold g hmem
    · rintro t ⟨⟩
    · rw [hchange.name_eq]
      exact hchange.accounted (hold f hf)
    · exact (hold f (List.mem_of_find?_eq_some hf.function)).withTemp
        ⟨ops, op, [], rfl, p, f, ty, e, hf, rfl, rfl, hfails⟩

/-! ## Functions that are accepted -/

namespace Function

variable {f : Function} {t : Nat}

/-- A temporary that is written is written in a block that is attached or in one that is not. -/
theorem exists_writes (h : t ∈ f.dests) :
    (∃ b ∈ f.attached, b.Writes t) ∨ ∃ id ∉ f.layout, ∃ b, f.block? id = some b ∧ b.Writes t := by
  obtain ⟨b, hb, hd⟩ := List.mem_flatMap.1 h
  obtain ⟨i, hi, hd⟩ := List.mem_filterMap.1 hd
  have hwrites : b.Writes t := ⟨i, (List.mem_filter.1 hi).1, hd⟩
  obtain ⟨id, hid⟩ := mem_blocks_iff.1 hb
  by_cases hlayout : id ∈ f.layout
  · exact .inl ⟨b, List.mem_filterMap.2 ⟨id, hlayout, hid⟩, hwrites⟩
  · exact .inr ⟨id, hlayout, b, hid, hwrites⟩

/-- The temporaries that an accepted function uses have numbers. -/
theorem operand_lt_of_check {m : Module} (h : f.check m = .ok ()) {b : Block} (hb : b ∈ f.attached) {i : Instruction}
    (hi : i ∈ b.instructions) (ht : .temp t ∈ i.operands) : t < f.temps.length := by
  obtain hdeclaration | hwell := check_eq_ok.1 h
  · rw [attached, List.isEmpty_iff.1 hdeclaration] at hb
    cases hb
  · rw [← i.map_fst_demands] at ht
    obtain ⟨⟨v, ty⟩, hdemand, rfl⟩ := List.mem_map.1 ht
    cases hwell.operands b hb i hi _ hdemand with
    | temp h => exact (List.getElem?_eq_some_iff.1 h).1

end Function

/-- All operations succeed, the first one on this builder. -/
def succeed (numbering : Numbering) : List ((α : Type) × Operation α) → Builder → Bool
  | [], _ => true
  | op :: ops, b =>
    match op.2.perform numbering b with
    | .ok _ b' => succeed numbering ops b'
    | .error .. => false

theorem perform_of_succeed {numbering : Numbering} {before after : List ((α : Type) × Operation α)}
    {op : (α : Type) × Operation α} {s : Builder × Ledger}
    (h : succeed numbering (before ++ op :: after) s.1 = true) :
    ∃ a b, op.2.perform numbering (performAll numbering before s).1 = .ok a b := by
  induction before generalizing s with
  | nil =>
    rw [List.nil_append, succeed] at h
    split at h
    · next a b hop => exact ⟨a, b, hop⟩
    · cases h
  | cons first before ih =>
    rw [List.cons_append, succeed] at h
    split at h
    · next a b hfirst =>
      refine ih (s := first.2.performOn numbering s) ?_
      rwa [Operation.performOn, hfirst]
    · cases h

theorem not_abandons_of_succeed {numbering : Numbering} {name : String} {ops : List ((α : Type) × Operation α)}
    (h : succeed numbering ops { module := { name := name } } = true) (function : String) (t : Nat) :
    ¬Abandons numbering name ops function t := by
  rintro ⟨before, op, after, rfl, p, f, ty, e, -, -, -, hfails⟩
  obtain ⟨a, b, hop⟩ := perform_of_succeed (s := ({ module := { name := name } }, fun _ => {})) h
  cases hop.symm.trans hfails

/-- A temporary that an accepted function uses in an attached block has a number, and one of its attached blocks writes
it, unless a block that is not attached does, or an operation has failed and has left it unwritten. So if all operations
succeed and all blocks are attached, an attached block writes it. This is so for either way to number temporaries, and
for all numbers that there are. -/
theorem checked_temps_written (numbering : Numbering) (name : String) (ops : List ((α : Type) × Operation α))
    (f : Function) (hf : f ∈ (built numbering name ops).1.module.functions)
    (hcheck : f.check (built numbering name ops).1.module = .ok ()) (b : Block) (hb : b ∈ f.attached) (i : Instruction)
    (hi : i ∈ b.instructions) (t : Nat) (hnumber : numbering.number t = t) (ht : .temp t ∈ i.operands) :
    t < f.temps.length ∧
    ((∃ b' ∈ f.attached, b'.Writes t) ∨ (∃ id ∉ f.layout, ∃ b', f.block? id = some b' ∧ b'.Writes t) ∨
      Abandons numbering name ops f.name t) ∧
    (succeed numbering ops { module := { name := name } } = true → (∀ id, (f.block? id).isSome → id ∈ f.layout) →
      ∃ b' ∈ f.attached, b'.Writes t) := by
  have hlt := Function.operand_lt_of_check hcheck hb hi ht
  have hcases : (∃ b' ∈ f.attached, b'.Writes t) ∨ (∃ id ∉ f.layout, ∃ b', f.block? id = some b' ∧ b'.Writes t) ∨
      Abandons numbering name ops f.name t := by
    obtain hwritten | habandoned := accounted_built numbering name ops f hf t hlt hnumber
    · exact (Function.exists_writes hwritten).imp_right .inl
    · exact .inr (.inr habandoned)
  refine ⟨hlt, hcases, fun hsucceed hattached => ?_⟩
  obtain hwritten | ⟨id, hid, b', hb', -⟩ | habandoned := hcases
  · exact hwritten
  · exact absurd (hattached id (by rw [hb']; rfl)) hid
  · exact absurd habandoned (not_abandons_of_succeed hsucceed _ _)

/-- The entry writes a temporary, and the block behind it returns that. -/
theorem checked_temps_written_returned :
    let ops : List ((α : Type) × Operation α) := [⟨_, .declareFunction "f" []⟩, ⟨_, .appendBlockIn "f" "entry"⟩,
      ⟨_, .setInsertPoint "f" ⟨0⟩⟩, ⟨_, .neg (.constFloat 1)⟩, ⟨_, .createBlock "end"⟩, ⟨_, .attachBlock ⟨1⟩⟩,
      ⟨_, .br ⟨1⟩⟩, ⟨_, .positionAtEnd ⟨1⟩⟩, ⟨_, .ret (.temp 0)⟩]
    let m := (built .words "m" ops).1.module
    ∃ f ∈ m.functions, f.check m = .ok () ∧ ∃ b ∈ f.attached, .ret (.temp 0) ∈ b.instructions ∧
      ∃ b' ∈ f.attached, b'.Writes 0 := by
  intro ops m
  let f : Function := {
    name := "f", params := [], layout := [⟨0⟩, ⟨1⟩], temps := [.f64], names := ⟨["end", "entry"], []⟩
    blocks := [⟨"entry", [.neg 0 (.constFloat 1), .br "end"]⟩, ⟨"end", [.ret (.temp 0)]⟩] }
  have hf : f ∈ m.functions := by decide +kernel
  have hcheck : f.check m = .ok () := by decide +kernel
  have hb : ⟨"end", [.ret (.temp 0)]⟩ ∈ f.attached := by decide
  have hall : ∀ id, (f.block? id).isSome → id ∈ f.layout := by
    rintro ⟨index⟩ hid
    have hlt : index < 2 := by simpa [Function.block?, f] using hid
    obtain rfl | rfl : index = 0 ∨ index = 1 := by omega
    · exact .head _
    · exact .tail _ (.head _)
  have hwritten := checked_temps_written .words "m" ops f hf hcheck _ hb (.ret (.temp 0)) (by decide) 0 rfl (by decide)
  exact ⟨f, hf, hcheck, _, hb, by decide, hwritten.2.2 (by decide +kernel) hall⟩

/-- The temporary that is returned has a number from a negation that failed, and no block writes it. -/
theorem unwritten_temp_accepted :
    let m := (built .words "m" [⟨_, .declareFunction "f" []⟩, ⟨_, .appendBlockIn "f" "entry"⟩,
      ⟨_, .setInsertPoint "f" ⟨0⟩⟩, ⟨_, .ret (.temp 0)⟩, ⟨_, .neg (.constFloat 1)⟩]).1.module
    m.checkFunction "f" = .ok () ∧ ∃ f, m.function? "f" = some f ∧
      (∃ b ∈ f.attached, .ret (.temp 0) ∈ b.instructions) ∧ ∀ b ∈ f.blocks, ¬b.Writes 0 := by
  intro m
  have hf : m.function? "f" = some {
      name := "f", params := [], layout := [⟨0⟩], temps := [.f64], names := ⟨["entry"], []⟩,
      blocks := [⟨"entry", [.ret (.temp 0)]⟩] } := by decide +kernel
  refine ⟨by decide +kernel, _, hf, ⟨⟨"entry", [.ret (.temp 0)]⟩, by decide, by decide⟩, ?_⟩
  simp [Block.Writes, Instruction.dest?]

end Monofloat.Ir
