import Monofloat.Proofs.Underway

/-!
# What has been placed in a function

`Entries` list what has been done to a function: the slots that were reserved and, for each block, the instructions
that were placed in it, in order. A function is `Recorded` by its entries if its blocks hold just that, the slots in
reverse in front of the entry block, and if its names and its layout are in order. Each change that a builder makes to a
function keeps it recorded, by entries that are changed accordingly. A `Ledger` has the entries of all functions of a
module.
-/

namespace Monofloat.Ir

/-! ## Instructions -/

namespace Instruction

/-- The type of the temporary that the instruction writes. -/
def ty? : Instruction → Option Ty
  | load .. | binary .. | neg .. | boolToFloat .. | call .. => some .f64
  | compare .. | logical .. | not .. => some .bool
  | phi _ ty _ => some ty
  | _ => none

/-- The address that the instruction reads from or writes to. -/
def address? : Instruction → Option Value
  | load _ ptr => some ptr
  | store _ ptr => some ptr
  | _ => none

/-- The instruction may be placed in a block: it reserves no slot, and its address is one. -/
structure Placeable (i : Instruction) : Prop where
  slot : i.slot? = none
  address : ∀ {ptr}, i.address? = some ptr → ptr.isAddress = true

end Instruction

/-! ## Entries -/

/-- The slots reserved in a function and the instructions placed in its blocks, in order. -/
structure Entries where
  slots : List String := []
  code : BlockId → List Instruction := fun _ => []

namespace Entries

def reserve (e : Entries) (slot : String) : Entries := { e with slots := e.slots ++ [slot] }

def place (e : Entries) (c : BlockId) (i : Instruction) : Entries :=
  { e with code := fun id => if id = c then e.code c ++ [i] else e.code id }

/-- What a block holds. Slots are in front of the entry block. -/
def block (e : Entries) (entry : Option BlockId) (id : BlockId) : List Instruction :=
  (if entry = some id then e.slots.reverse.map .alloca else []) ++ e.code id

theorem block_of_slots {e : Entries} (h : e.slots = []) (entry : Option BlockId) (id : BlockId) :
    e.block entry id = e.code id := by
  rw [block, h]
  split <;> rfl

end Entries

namespace Function

/-- The function is what its entries say, and its names and its layout are in order. -/
structure Recorded (f : Function) (e : Entries) : Prop where
  holds : ∀ {id b}, f.block? id = some b → b.instructions = e.block f.entry? id
  blank : ∀ {id}, f.block? id = none → e.code id = []
  unopened : f.layout = [] → e.slots = []
  layout_nodup : f.layout.Nodup
  layout_valid : ∀ {id}, id ∈ f.layout → (f.block? id).isSome
  taken_nodup : f.names.taken.Nodup
  taken : f.names.taken.Perm (f.params ++ e.slots ++ f.blocks.map Block.label)
  placeable : ∀ {id}, ∀ i ∈ e.code id, i.Placeable
  terminator_last : ∀ {id}, ∀ i ∈ (e.code id).dropLast, i.isTerminator = false

theorem recorded_declare (name : String) (params : List String) : (declare name params).Recorded {} where
  holds hb := by cases hb
  blank _ := rfl
  unopened _ := rfl
  layout_nodup := List.nodup_nil
  layout_valid hid := by cases hid
  taken_nodup := NameTable.nodup_freshAll List.nodup_nil params
  taken := by
    show (NameTable.freshAll {} params).2.taken.Perm ((NameTable.freshAll {} params).1 ++ [] ++ [])
    rw [List.append_nil]
    exact NameTable.taken_freshAll {} params
  placeable i hi := by cases hi
  terminator_last i hi := by cases hi

namespace Recorded

variable {f : Function} {e : Entries}

theorem withTemp (h : f.Recorded e) (ty : Ty) : (f.withTemp ty).Recorded e := { h with }

theorem create (h : f.Recorded e) (label : String) : (f.create label).Recorded e where
  holds {id b} hb := by
    rcases create_cases hb with ⟨rfl, rfl⟩ | ⟨-, hb⟩
    · have hentry : f.entry? ≠ some f.nextBlock := fun hentry => by
        have hvalid := h.layout_valid (List.mem_of_head? hentry)
        rw [block?_nextBlock] at hvalid
        cases hvalid
      show [] = e.block f.entry? f.nextBlock
      rw [Entries.block, if_neg hentry, h.blank f.block?_nextBlock]
      rfl
    · exact h.holds hb
  blank {id} hid := by
    rw [block?_create] at hid
    split at hid
    · cases hid
    · exact h.blank hid
  unopened := h.unopened
  layout_nodup := h.layout_nodup
  layout_valid {id} hid := by
    rw [block?_create]
    split
    · rfl
    · exact h.layout_valid hid
  taken_nodup := NameTable.nodup_fresh h.taken_nodup label
  taken := by
    have hblocks : (f.create label).blocks.map Block.label = f.blocks.map Block.label ++ [f.labelFor label] := by
      show (f.blocks ++ [({ label := f.labelFor label } : Block)]).map Block.label = _
      simp
    show (f.names.fresh label).2.taken.Perm (f.params ++ e.slots ++ (f.create label).blocks.map Block.label)
    rw [NameTable.taken_fresh, hblocks, ← List.append_assoc]
    exact (h.taken.cons _).trans (List.perm_append_singleton _ _).symm
  placeable := h.placeable
  terminator_last := h.terminator_last

theorem attach (h : f.Recorded e) {id : BlockId} (hid : id ∉ f.layout) (hb : (f.block? id).isSome) :
    (f.attach id).Recorded e where
  holds {id' b} hb' := by
    rw [h.holds (show f.block? id' = some b from hb')]
    -- The first block that is attached is the entry, and there are no slots before.
    cases hlayout : f.layout with
    | nil => rw [Entries.block_of_slots (h.unopened hlayout), Entries.block_of_slots (h.unopened hlayout)]
    | cons => rw [ entry?, entry?, Function.attach, hlayout]; rfl
  blank := h.blank
  unopened hnil := by cases List.append_eq_nil_iff.1 hnil |>.2
  layout_nodup := List.nodup_append.2 ⟨h.layout_nodup, List.nodup_cons.2 ⟨List.not_mem_nil, List.nodup_nil⟩, by
    rintro x hx y hy rfl
    exact hid (List.mem_singleton.1 hy ▸ hx)⟩
  layout_valid hmem := by
    obtain hmem | hmem := List.mem_append.1 hmem
    · exact h.layout_valid hmem
    · rw [List.mem_singleton.1 hmem]
      exact hb
  taken_nodup := h.taken_nodup
  taken := h.taken
  placeable := h.placeable
  terminator_last := h.terminator_last

/-- A new block at the end of the layout. -/
theorem append (h : f.Recorded e) (label : String) : (f.appendBlock label).2.Recorded e := by
  have hnew : f.nextBlock ∉ f.layout := fun hmem => by
    have hvalid := h.layout_valid hmem
    rw [block?_nextBlock] at hvalid
    cases hvalid
  have hsome : ((f.create label).block? f.nextBlock).isSome := by
    rw [block?_create, if_pos rfl]
    rfl
  have hattach : (f.appendBlock label).2 = (f.create label).attach f.nextBlock := by
    show ((f.create label).attach? f.nextBlock).getD (f.create label) = _
    obtain ⟨b, hb⟩ := Option.isSome_iff_exists.1 hsome
    rw [attach?_eq (f := f.create label) hnew (List.getElem?_eq_some_iff.1 hb).1]
    rfl
  rw [hattach]
  exact (h.create label).attach hnew hsome

theorem reserve (h : f.Recorded e) {entry : BlockId} (hentry : f.entry? = some entry) (name : String) :
    (f.reserve entry name).Recorded (e.reserve (f.slotFor name)) where
  holds {id b} hb := by
    rw [block?_reserve] at hb
    split at hb
    · next hid =>
      subst hid
      obtain ⟨b₀, hb₀, rfl⟩ := Option.map_eq_some_iff.1 hb
      show _ = (e.reserve (f.slotFor name)).block f.entry? id
      simp [Block.prepend, h.holds hb₀, Entries.block, Entries.reserve, hentry]
    · next hid =>
      rw [h.holds hb]
      show e.block f.entry? id = (e.reserve (f.slotFor name)).block f.entry? id
      have hne : f.entry? ≠ some id := fun he => hid (Option.some.inj (he.symm.trans hentry))
      rw [Entries.block, Entries.block, if_neg hne, if_neg hne]
      rfl
  blank {id} hid := by
    rw [block?_reserve] at hid
    split at hid
    · next heq => exact h.blank (heq ▸ Option.map_eq_none_iff.1 hid)
    · exact h.blank hid
  unopened hnil := by
    rw [ entry?, show f.layout = [] from hnil] at hentry
    cases hentry
  layout_nodup := h.layout_nodup
  layout_valid {id} hid := by
    rw [block?_reserve]
    split
    · next heq =>
      rw [Option.isSome_map, ← heq]
      exact h.layout_valid hid
    · exact h.layout_valid hid
  taken_nodup := NameTable.nodup_fresh h.taken_nodup name
  taken := by
    have hlabels : (f.reserve entry name).blocks.map Block.label = f.blocks.map Block.label :=
      Named.map_label_modifyBlock _ entry fun _ => rfl
    show (f.names.fresh name).2.taken.Perm (f.params ++ (e.slots ++ [f.slotFor name]) ++ _)
    rw [NameTable.taken_fresh, hlabels, ← List.append_assoc, List.append_assoc _ [_]]
    exact (h.taken.cons _).trans List.perm_middle.symm
  placeable := h.placeable
  terminator_last := h.terminator_last

/-- A block that takes instructions has no terminator. -/
theorem not_terminator (h : f.Recorded e) {c : BlockId} {b : Block} (hb : f.block? c = some b)
    (hopen : b.isTerminated = false) : ∀ i ∈ e.code c, i.isTerminator = false := by
  intro i hi
  obtain hnil | ⟨init, last, hconcat⟩ := List.eq_nil_or_concat (e.code c)
  · rw [hnil] at hi
    cases hi
  · rw [List.concat_eq_append] at hconcat
    have hlast : last.isTerminator = false := by
      rw [Block.isTerminated, Block.terminator?, h.holds hb, Entries.block, hconcat, ← List.append_assoc,
        List.getLast?_concat] at hopen
      simpa [Option.isSome_filter] using hopen
    have hinit : ∀ i ∈ (e.code c).dropLast, i.isTerminator = false := h.terminator_last
    rw [hconcat, List.dropLast_concat] at hinit
    rw [hconcat] at hi
    obtain hi | hi := List.mem_append.1 hi
    · exact hinit i hi
    · rwa [List.mem_singleton.1 hi]

theorem emit (h : f.Recorded e) {c : BlockId} {b : Block} (hb : f.block? c = some b) (hopen : b.isTerminated = false)
    {i : Instruction} (hi : i.Placeable) : (f.emit c i).Recorded (e.place c i) where
  holds {id b'} hb' := by
    show _ = (e.place c i).block f.entry? id
    rcases emit_cases hb hb' with ⟨rfl, rfl⟩ | ⟨hid, hb'⟩
    · simp [Block.append, h.holds hb, Entries.block, Entries.place]
    · simp [h.holds hb', Entries.block, Entries.place, hid]
  blank {id} hid := by
    rw [block?_emit hb] at hid
    split at hid
    · cases hid
    · next hne => exact (if_neg hne).trans (h.blank hid)
  unopened := h.unopened
  layout_nodup := h.layout_nodup
  layout_valid {id} hid := by
    rw [block?_emit hb]
    split
    · rfl
    · exact h.layout_valid hid
  taken_nodup := h.taken_nodup
  taken := by
    have hlabels : (f.emit c i).blocks.map Block.label = f.blocks.map Block.label :=
      Named.map_label_modifyBlock _ c fun _ => rfl
    rw [hlabels]
    exact h.taken
  placeable {id} j hj := by
    rw [Entries.place] at hj
    dsimp only at hj
    split at hj
    · obtain hj | hj := List.mem_append.1 hj
      · exact h.placeable j hj
      · rw [List.mem_singleton.1 hj]
        exact hi
    · exact h.placeable j hj
  terminator_last {id} j hj := by
    rw [Entries.place] at hj
    dsimp only at hj
    split at hj
    · rw [List.dropLast_concat] at hj
      exact h.not_terminator hb hopen j hj
    · exact h.terminator_last j hj

theorem result (h : f.Recorded e) {c : BlockId} {b : Block} (hb : f.block? c = some b) (hopen : b.isTerminated = false)
    (ty : Ty) {i : Nat → Instruction} (hi : ∀ d, (i d).Placeable) :
    (f.result c ty i).Recorded (e.place c (i f.temps.length)) := (h.withTemp ty).emit hb hopen (hi _)

end Recorded

end Function

/-! ## Modules -/

/-- The entries of the functions, by name. -/
abbrev Ledger := String → Entries

/-- The ledger with the entries of one function replaced. -/
def Ledger.set (L : Ledger) (name : String) (e : Entries) : Ledger := fun x => if x = name then e else L x

theorem Ledger.set_self (L : Ledger) (name : String) (e : Entries) : L.set name e name = e := if_pos rfl

theorem Ledger.set_of_ne (L : Ledger) {name x : String} (h : x ≠ name) (e : Entries) : L.set name e x = L x := if_neg h

theorem Ledger.set_eq (L : Ledger) (name : String) : L.set name (L name) = L := by
  funext x
  by_cases h : x = name <;> simp [set, h]

namespace Module

/-- No name is used twice, and the functions are recorded. -/
structure Recorded (m : Module) (L : Ledger) : Prop where
  symbols : (m.functions.map Function.name ++ m.globals.map Global.name).Nodup
  functions : ∀ f ∈ m.functions, f.Recorded (L f.name)

theorem recorded_empty (name : String) (L : Ledger) : ({ name := name } : Module).Recorded L :=
  ⟨List.nodup_nil, fun f hf => by cases hf⟩

theorem hasSymbol_eq_false {m : Module} {name : String} (h : m.hasSymbol name = false) :
    name ∉ m.functions.map Function.name ++ m.globals.map Global.name := by
  rw [hasSymbol, Bool.or_eq_false_iff, Option.isSome_eq_false_iff, Option.isSome_eq_false_iff] at h
  simp only [function?, global?, Option.isNone_iff_eq_none, List.find?_eq_none, decide_eq_true_eq] at h
  simp only [List.mem_append, List.mem_map, not_or, not_exists, not_and]
  exact h

theorem map_name_modifyFirst {name : String} {g : Function} (hg : g.name = name) (fs : List Function) :
    (modifyFirst name (fun _ => g) fs).map Function.name = fs.map Function.name := by
  induction fs with
  | nil => rfl
  | cons f fs ih =>
    rw [modifyFirst]
    split
    · next hf => rw [List.map_cons, List.map_cons, hg, hf]
    · rw [List.map_cons, List.map_cons, ih]

/-- With different names, only the function of the name is replaced. -/
theorem eq_or_mem_of_mem_modifyFirst {name : String} {f g : Function} {fs : List Function}
    (hfs : (fs.map Function.name).Nodup) (h : f ∈ modifyFirst name (fun _ => g) fs) :
    f = g ∨ f ∈ fs ∧ f.name ≠ name := by
  induction fs with
  | nil => cases h
  | cons f₀ fs ih =>
    rw [List.map_cons, List.nodup_cons] at hfs
    rw [modifyFirst] at h
    split at h
    · next hf₀ =>
      obtain rfl | h := List.mem_cons.1 h
      · exact .inl rfl
      · exact .inr ⟨List.mem_cons_of_mem _ h, fun hf => hfs.1 (hf₀ ▸ hf ▸ List.mem_map_of_mem h)⟩
    · next hf₀ =>
      obtain rfl | h := List.mem_cons.1 h
      · exact .inr ⟨List.mem_cons_self, hf₀⟩
      · exact (ih hfs.2 h).imp_right fun hmem => ⟨List.mem_cons_of_mem _ hmem.1, hmem.2⟩

namespace Recorded

variable {m : Module} {L : Ledger} {name : String}

theorem addFunction (h : m.Recorded L) (hnew : m.hasSymbol name = false) (params : List String) :
    (m.addFunction (.declare name params)).Recorded (L.set name {}) := by
  have hnot := hasSymbol_eq_false hnew
  refine ⟨?_, List.forall_mem_append.2 ⟨fun f hf => ?_, List.forall_mem_singleton.2 ?_⟩⟩
  · have hsymbols := List.nodup_cons.2 ⟨hnot, h.symbols⟩
    simpa [Module.addFunction, Function.declare] using (List.perm_middle).nodup_iff.2 hsymbols
  · have hne : f.name ≠ name := fun hname => hnot (List.mem_append_left _ (hname ▸ List.mem_map_of_mem hf))
    rw [L.set_of_ne hne]
    exact h.functions f hf
  · rw [show (Function.declare name params).name = name from rfl, L.set_self]
    exact Function.recorded_declare name params

theorem addGlobal (h : m.Recorded L) {g : Global} (hnew : m.hasSymbol g.name = false) : (m.addGlobal g).Recorded L := by
  refine ⟨?_, h.functions⟩
  have hsymbols := List.nodup_cons.2 ⟨hasSymbol_eq_false hnew, h.symbols⟩
  rw [← (List.perm_append_singleton _ _).nodup_iff] at hsymbols
  simpa [Module.addGlobal] using hsymbols

theorem removeFunction (h : m.Recorded L) (name : String) : (m.removeFunction name).Recorded L :=
  ⟨h.symbols.sublist ((List.eraseP_sublist.map _).append_right _), fun f hf =>
    h.functions f (List.eraseP_subset hf)⟩

/-- One function is replaced, with entries of its own. -/
theorem modifyFunction (h : m.Recorded L) {f g : Function} {e : Entries} (hf : m.function? name = some f)
    (hname : g.name = f.name) (hg : f.Recorded (L name) → g.Recorded e) :
    (m.modifyFunction name fun _ => g).Recorded (L.set name e) := by
  have hfname : f.name = name := by simpa using List.find?_some hf
  have hgname := hname.trans hfname
  refine ⟨?_, fun f' hf' => ?_⟩
  · show ((modifyFirst name (fun _ => g) m.functions).map Function.name ++ _).Nodup
    rw [map_name_modifyFirst hgname]
    exact h.symbols
  · obtain rfl | ⟨hmem, hne⟩ := eq_or_mem_of_mem_modifyFirst (List.nodup_append.1 h.symbols).1 hf'
    · rw [hgname, L.set_self]
      refine hg ?_
      have hold := h.functions f (List.mem_of_find?_eq_some hf)
      rwa [hfname] at hold
    · rw [L.set_of_ne hne]
      exact h.functions f' hmem

end Recorded

end Module

end Monofloat.Ir
