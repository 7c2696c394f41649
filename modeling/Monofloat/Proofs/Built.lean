import Monofloat.Proofs.Finished
import Monofloat.Proofs.Ledger
import Monofloat.Proofs.Operations

/-!
# What builders build

Operations of a builder are performed one after the other, with any operands, and those that fail count as well. Along
with the builder goes a ledger of what the operations have placed. Each operation keeps the module recorded, so
whatever has been built from an empty module is `Regular`, however temporaries are numbered.
-/

namespace Monofloat.Ir

/-! ## Operations and the ledger -/

namespace Builder

/-- The label of a block of the current function. -/
def label (b : Builder) (id : BlockId) : String :=
  ((b.position.bind fun p => b.module.function? p.function).bind (·.block? id)).elim "" Block.label

/-- The ledger with an instruction placed at the insertion point. -/
def place (b : Builder) (i : Instruction) (L : Ledger) : Ledger :=
  b.position.elim L fun p => L.set p.function ((L p.function).place p.block i)

end Builder

namespace Operation

/-- The instruction that an operation places, where blocks have these labels and the operation has this result. -/
def instruction? {α : Type} : Operation α → (BlockId → String) → α → Option Instruction
  | load ptr, _, .temp d => some (.load d ptr)
  | store value ptr, _, _ => some (.store value ptr)
  | binary op left right, _, .temp d => some (.binary d op left right)
  | neg value, _, .temp d => some (.neg d value)
  | compare op left right, _, .temp d => some (.compare d op left right)
  | logical op left right, _, .temp d => some (.logical d op left right)
  | not value, _, .temp d => some (.not d value)
  | boolToFloat value, _, .temp d => some (.boolToFloat d value)
  | call callee args, _, .temp d => some (.call d callee args)
  | phi ty incoming, label, .temp d => some (.phi d ty (incoming.map fun (value, id) => (value, label id)))
  | br target, label, _ => some (.br (label target))
  | condBr cond thenBlock elseBlock, label, _ => some (.condBr cond (label thenBlock) (label elseBlock))
  | ret value, _, _ => some (.ret value)
  | _, _, _ => none

/-- The ledger behind an operation with a result, `b` being the builder before it. -/
def record {α : Type} : Operation α → Builder → α → Ledger → Ledger
  | declareFunction name _, _, _, L => L.set name {}
  | alloca _, b, slot, L => b.position.elim L fun p => L.set p.function ((L p.function).reserve slot)
  | op, b, a, L => (op.instruction? b.label a).elim L fun i => b.place i L

/-- Performs an operation and keeps the ledger. -/
def performOn {α : Type} (numbering : Numbering) (op : Operation α) (s : Builder × Ledger) : Builder × Ledger :=
  match op.perform numbering s.1 with
  | .ok a b => (b, op.record s.1 a s.2)
  | .error _ b => (b, s.2)

end Operation

/-- Performs operations in order. -/
def performAll (numbering : Numbering) (ops : List ((α : Type) × Operation α)) (s : Builder × Ledger) :
    Builder × Ledger :=
  ops.foldl (fun s op => op.2.performOn numbering s) s

/-- What operations on an empty module come to. -/
def built (numbering : Numbering) (name : String) (ops : List ((α : Type) × Operation α)) : Builder × Ledger :=
  performAll numbering ops ({ module := { name := name } }, fun _ => {})

/-! ## Steps that keep modules recorded -/

namespace Build

variable {α β : Type} {b : Builder}

/-- The step keeps the module recorded, by a ledger that changes with its result. -/
def RecordsAt (b : Builder) (step : Build α) (r : α → Ledger → Ledger) : Prop :=
  ∀ L : Ledger, b.module.Recorded L → match step b with
    | .ok a b' => b'.module.Recorded (r a L)
    | .error _ b' => b'.module.Recorded L

/-- The step changes nothing, and what it finds has a property. -/
def Asks (b : Builder) (step : Build α) (P : α → Prop) : Prop :=
  (∃ a, step b = .ok a b ∧ P a) ∨ ∃ e, step b = .error e b

theorem Asks.bind {x : Build α} {f : α → Build β} {P : α → Prop} {Q : β → Prop} (hx : Asks b x P)
    (hf : ∀ a, P a → Asks b (f a) Q) : Asks b (x >>= f) Q := by
  obtain ⟨a, hx, ha⟩ | ⟨e, hx⟩ := hx
  · rw [Asks, bind_of_ok hx]
    exact hf a ha
  · exact .inr ⟨e, bind_of_error hx⟩

theorem RecordsAt.ask {x : Build α} {f : α → Build β} {P : α → Prop} {r : β → Ledger → Ledger} (hx : Asks b x P)
    (hf : ∀ a, P a → RecordsAt b (f a) r) : RecordsAt b (x >>= f) r := by
  intro L hL
  obtain ⟨a, hx, ha⟩ | ⟨e, hx⟩ := hx
  · rw [bind_of_ok hx]
    exact hf a ha L hL
  · rw [bind_of_error hx]
    exact hL

theorem recordsAt_of_asks {x : Build α} {P : α → Prop} (hx : Asks b x P) : RecordsAt b x fun _ L => L := by
  intro L hL
  obtain ⟨a, hx, -⟩ | ⟨e, hx⟩ := hx <;> rwa [hx]

theorem recordsAt_of_error {x : Build α} {e : BuildError} (hx : x b = .error e b) (r : α → Ledger → Ledger) :
    RecordsAt b x r := by
  intro L hL
  rwa [hx]

end Build

/-- The insertion point is `p`, in the function `f`. -/
structure Builder.At (b : Builder) (p : InsertPoint) (f : Function) : Prop where
  position : b.position = some p
  function : b.module.function? p.function = some f

namespace Builder.At

variable {b : Builder} {p : InsertPoint} {f : Function}

theorem name (h : b.At p f) : f.name = p.function := by simpa using List.find?_some h.function

theorem hosts (h : b.At p f) : b.Hosts f.name := by
  rw [Hosts, h.name, h.function]
  rfl

theorem put_eq (h : b.At p f) : b = b.put f p.block := by
  rw [put_of_function? (by rw [h.name, h.function]), h.name, ← h.position]

theorem currentFunction_eq (h : b.At p f) : Build.currentFunction b = .ok f b := by
  have hput := Build.currentFunction_put (c := p.block) h.hosts
  rwa [← h.put_eq] at hput

theorem label_eq (h : b.At p f) {id : BlockId} {block : Block} (hb : f.block? id = some block) :
    b.label id = block.label := by
  rw [label, h.position, Option.bind_some, h.function, Option.bind_some, hb]
  rfl

/-- A function that is recorded in the place of the current one. -/
theorem recorded (h : b.At p f) {L : Ledger} (hL : b.module.Recorded L) {g : Function} (hname : g.name = f.name)
    {e : Entries} (hg : f.Recorded (L p.function) → g.Recorded e) (c : BlockId) :
    (b.put g c).module.Recorded (L.set p.function e) := by
  have hmodify := hL.modifyFunction h.function hname hg
  rwa [← h.name, ← hname] at hmodify ⊢

end Builder.At

namespace Build

variable {α β : Type} {b : Builder}

/-! ### Questions -/

theorem asks_insertPoint : Asks b insertPoint fun p => b.position = some p := by
  have hget : (get : Build Builder) b = .ok b b := rfl
  rw [Asks, insertPoint, bind_of_ok hget]
  cases b.position with
  | none => exact .inr ⟨_, rfl⟩
  | some p => exact .inl ⟨p, rfl, rfl⟩

theorem asks_functionNamed (name : String) : Asks b (functionNamed name) fun f => b.module.function? name = some f := by
  have hfunction : Build.function? name b = .ok (b.module.function? name) b := rfl
  rw [Asks, functionNamed, bind_of_ok hfunction]
  cases b.module.function? name with
  | none => exact .inr ⟨_, rfl⟩
  | some f => exact .inl ⟨f, rfl, rfl⟩

theorem asks_currentFunction : Asks b currentFunction fun f => ∃ p, b.At p f := by
  refine asks_insertPoint.bind fun p hp => ?_
  obtain ⟨f, hf, hfunction⟩ | ⟨e, he⟩ := asks_functionNamed (b := b) p.function
  · exact .inl ⟨f, hf, p, hp, hfunction⟩
  · exact .inr ⟨e, he⟩

theorem asks_blockOf (id : BlockId) :
    Asks b (blockOf id) fun block => ∃ p f, b.At p f ∧ f.block? id = some block := by
  refine asks_currentFunction.bind fun f ⟨p, hf⟩ => ?_
  cases hb : f.block? id with
  | none => exact .inr ⟨_, rfl⟩
  | some block => exact .inl ⟨block, rfl, p, f, hf, hb⟩

theorem asks_labelOf (id : BlockId) : Asks b (labelOf id) fun l => l = b.label id :=
  (asks_blockOf id).bind fun _ ⟨_, _, hf, hb⟩ => .inl ⟨_, rfl, (hf.label_eq hb).symm⟩

theorem asks_labelled (incoming : List (Value × BlockId)) :
    Asks b (labelled incoming) fun ls => ls = incoming.map fun (value, id) => (value, b.label id) := by
  induction incoming with
  | nil => exact .inl ⟨[], rfl, rfl⟩
  | cons first rest ih =>
    refine (asks_labelOf first.2).bind fun l hl => ih.bind fun ls hls => .inl ⟨_, rfl, ?_⟩
    rw [hl, hls]
    rfl

theorem asks_requireAddress (ptr : Value) : Asks b (requireAddress ptr) fun _ => ptr.isAddress = true := by
  unfold requireAddress
  split
  · next h => exact .inl ⟨(), rfl, h⟩
  · exact .inr ⟨_, rfl⟩

theorem asks_valueType (v : Value) : Asks b (valueType v) fun _ => True := by
  cases v with
  | temp id =>
    have hfunction : ∀ name, Asks b (Build.function? name) fun _ => True := fun _ => .inl ⟨_, rfl, trivial⟩
    refine asks_insertPoint.bind fun p _ => (hfunction p.function).bind fun f? _ => ?_
    cases f?.bind (·.tempType? id) with
    | none => exact .inr ⟨_, rfl⟩
    | some ty => exact .inl ⟨ty, rfl, trivial⟩
  | void => exact .inr ⟨_, rfl⟩
  | _ => exact .inl ⟨_, rfl, trivial⟩

/-! ### Changes -/

/-- The current function is changed, and its entries with it. -/
theorem recordsAt_change {p : InsertPoint} {f g : Function} (hf : b.At p f) {step : Build α} {a : α} {c : BlockId}
    (hstep : step b = .ok a (b.put g c)) (hname : g.name = f.name) {e : Entries → Entries}
    (hg : ∀ {e₀}, f.Recorded e₀ → g.Recorded (e e₀)) {r : α → Ledger → Ledger}
    (hr : ∀ L, r a L = L.set p.function (e (L p.function))) : RecordsAt b step r := by
  intro L hL
  rw [hstep]
  show (b.put g c).module.Recorded (r a L)
  rw [hr]
  exact hf.recorded hL hname hg c

theorem recordsAt_appendBlockIn (name label : String) : RecordsAt b (appendBlockIn name label) fun _ L => L := by
  refine .ask (asks_functionNamed name) fun f hf L hL => ?_
  have hmodify := hL.modifyFunction hf (f.name_appendBlock label) fun h => h.append label
  rw [L.set_eq] at hmodify
  exact hmodify

theorem recordsAt_createBlock (label : String) : RecordsAt b (createBlock label) fun _ L => L := by
  obtain ⟨f, -, p, hf⟩ | ⟨e, he⟩ := asks_currentFunction (b := b)
  · have hstep : createBlock label b = _ := (congrArg _ hf.put_eq).trans (createBlock_put hf.hosts label)
    exact recordsAt_change hf hstep rfl (fun h => h.create label) fun L => (L.set_eq _).symm
  · exact recordsAt_of_error (bind_of_error he) _

theorem recordsAt_attachBlock (id : BlockId) : RecordsAt b (attachBlock id) fun _ L => L := by
  obtain ⟨block, hblock, p, f, hf, hb⟩ | ⟨e, he⟩ := asks_blockOf (b := b) id
  · by_cases hid : id ∈ f.layout
    · refine recordsAt_of_error (e := .alreadyAttached block.label) ?_ _
      rw [attachBlock, bind_of_ok hblock, bind_of_ok hf.currentFunction_eq, Function.attach?,
        if_pos (by simp [Function.isAttached, hid])]
      rfl
    · have hstep : attachBlock id b = _ := (congrArg _ hf.put_eq).trans (attachBlock_put hf.hosts hb hid)
      exact recordsAt_change hf hstep rfl (fun h => h.attach hid (by rw [hb]; rfl)) fun L => (L.set_eq _).symm
  · exact recordsAt_of_error (bind_of_error he) _

theorem recordsAt_alloca (name : String) {r : String → Ledger → Ledger}
    (hr : ∀ {p}, b.position = some p → ∀ slot L, r slot L = L.set p.function ((L p.function).reserve slot)) :
    RecordsAt b (alloca name) r := by
  obtain ⟨f, hcurrent, p, hf⟩ | ⟨e, he⟩ := asks_currentFunction (b := b)
  · cases hentry : f.entry? with
    | none =>
      refine recordsAt_of_error (e := .missingEntry f.name) ?_ r
      rw [alloca, bind_of_ok hcurrent, hentry]
      rfl
    | some entry =>
      intro L hL
      have hrecorded := hL.functions f (List.mem_of_find?_eq_some hf.function)
      -- The entry is one of the blocks, so the step does not fail behind the new name.
      obtain ⟨block, hb⟩ := Option.isSome_iff_exists.1 (hrecorded.layout_valid (List.mem_of_head? hentry))
      have hstep : alloca name b = _ := (congrArg _ hf.put_eq).trans (alloca_put hf.hosts hentry hb name)
      exact recordsAt_change hf hstep rfl (fun h => h.reserve hentry name) (hr hf.position _) L hL
  · exact recordsAt_of_error (bind_of_error he) r

/-- A block that does not exist or is complete takes no instruction. -/
theorem emit_of_not_open {f : Function} {c : BlockId} (h : b.Hosts f.name) (hopen : ¬Open f c) (i : Instruction) :
    ∃ e, emit i (b.put f c) = .error e (b.put f c) := by
  have hp : insertPoint (b.put f c) = .ok ⟨f.name, c⟩ (b.put f c) := rfl
  cases hb : f.block? c with
  | none =>
    refine ⟨.unknownBlock f.name c, ?_⟩
    have hblock : blockOf c (b.put f c) = .error (.unknownBlock f.name c) (b.put f c) := by
      rw [blockOf, bind_of_ok (currentFunction_put h), hb]
      rfl
    rw [emit, bind_of_ok hp, bind_of_error hblock]
  | some block =>
    have ht : block.isTerminated = true := by
      by_contra ht
      exact hopen ⟨block, hb, by simpa using ht⟩
    refine ⟨.terminated block.label, ?_⟩
    rw [emit, bind_of_ok hp, bind_of_ok (blockOf_put h hb), ht]
    rfl

/-- The temporary is registered, but nothing writes it. -/
theorem emitResult_of_not_open {f : Function} {c : BlockId} (h : b.Hosts f.name) (hopen : ¬Open f c) (ty : Ty)
    (i : Nat → Instruction) (numbering : Numbering) :
    ∃ e, emitResult ty i numbering (b.put f c) = .error e (b.put (f.withTemp ty) c) := by
  obtain ⟨e, he⟩ := emit_of_not_open (f := f.withTemp ty) h hopen (i (numbering.number f.temps.length))
  exact ⟨e, by rw [emitResult, bind_of_ok (temp_put h ty numbering), bind_of_error he]⟩

theorem emit_of_error {e : BuildError} (he : currentFunction b = .error e b) (i : Instruction) :
    ∃ e', emit i b = .error e' b := by
  obtain ⟨p, hp, -⟩ | ⟨e', he'⟩ := asks_insertPoint (b := b)
  · have hblock : blockOf p.block b = .error e b := bind_of_error he
    exact ⟨e, by rw [emit, bind_of_ok hp, bind_of_error hblock]⟩
  · exact ⟨e', bind_of_error he'⟩

theorem recordsAt_emit {i : Instruction} (hi : i.Placeable) {r : Unit → Ledger → Ledger}
    (hr : ∀ L, r () L = b.place i L) : RecordsAt b (emit i) r := by
  obtain ⟨f, -, p, hf⟩ | ⟨e, he⟩ := asks_currentFunction (b := b)
  · by_cases hopen : Open f p.block
    · have hstep : emit i b = _ := (congrArg _ hf.put_eq).trans (emit_put hf.hosts hopen i)
      obtain ⟨block, hb, ht⟩ := hopen
      refine recordsAt_change hf hstep rfl (fun h => h.emit hb ht hi) fun L => ?_
      rw [hr, Builder.place, hf.position]
      rfl
    · obtain ⟨e, he⟩ := emit_of_not_open hf.hosts hopen i
      rw [← hf.put_eq] at he
      exact recordsAt_of_error he r
  · obtain ⟨e', he'⟩ := emit_of_error he i
    exact recordsAt_of_error he' r

theorem recordsAt_emitResult {ty : Ty} {i : Nat → Instruction} (hi : ∀ d, (i d).Placeable) {numbering : Numbering}
    {r : Value → Ledger → Ledger} (hr : ∀ d L, r (.temp d) L = b.place (i d) L) :
    RecordsAt b (emitResult ty i numbering) r := by
  obtain ⟨f, hcurrent, p, hf⟩ | ⟨e, he⟩ := asks_currentFunction (b := b)
  · by_cases hopen : Open f p.block
    · have hstep : emitResult ty i numbering b = _ :=
        (congrArg _ hf.put_eq).trans (emitResult_put hf.hosts hopen ty i numbering)
      obtain ⟨block, hb, ht⟩ := hopen
      refine recordsAt_change hf hstep rfl (fun h => h.result hb ht ty fun d => hi _) fun L => ?_
      rw [hr, Builder.place, hf.position]
      rfl
    · obtain ⟨e, he⟩ := emitResult_of_not_open hf.hosts hopen ty i numbering
      rw [← hf.put_eq] at he
      intro L hL
      rw [he]
      have hrecorded := hf.recorded hL (g := f.withTemp ty) rfl (fun h => h.withTemp ty) p.block
      rwa [L.set_eq] at hrecorded
  · exact recordsAt_of_error (bind_of_error (bind_of_error he)) r

/-! ### Operations -/

theorem placeable_of_address {i : Instruction} (hslot : i.slot? = none)
    (haddress : i.address?.all Value.isAddress = true) : i.Placeable where
  slot := hslot
  address ha := by rwa [ha] at haddress

/-- Every operation keeps the module recorded. -/
theorem recordsAt_perform (numbering : Numbering) (op : Operation α) (b : Builder) :
    RecordsAt b (op.perform numbering) (op.record b) := by
  cases op with
  | declareFunction name params =>
    intro L hL
    cases hnew : b.module.hasSymbol name with
    | true =>
      rw [show Operation.perform numbering (.declareFunction name params) b = _ from
        declareFunction_of_used params hnew]
      exact hL
    | false =>
      rw [show Operation.perform numbering (.declareFunction name params) b = _ from
        declareFunction_of_new params hnew]
      exact hL.addFunction hnew params
  | function? name => exact fun _ hL => hL
  | removeFunction name => exact fun _ hL => hL.removeFunction name
  | declareGlobal name =>
    intro L hL
    cases hnew : b.module.hasSymbol name with
    | true =>
      rw [show Operation.perform numbering (.declareGlobal name) b = _ from declareGlobal_of_used hnew]
      exact hL
    | false =>
      rw [show Operation.perform numbering (.declareGlobal name) b = _ from declareGlobal_of_new hnew]
      exact hL.addGlobal (g := { name := name }) hnew
  | global? name => exact fun _ hL => hL
  | appendBlockIn name label => exact recordsAt_appendBlockIn name label
  | appendBlock label => exact .ask asks_insertPoint fun p _ => recordsAt_appendBlockIn p.function label
  | createBlock label => exact recordsAt_createBlock label
  | attachBlock id => exact recordsAt_attachBlock id
  | setInsertPoint name id => exact fun _ hL => hL
  | positionAtEnd id => exact .ask asks_insertPoint fun p _ L hL => hL
  | clearInsertPoint => exact fun _ hL => hL
  | insertBlock =>
    exact recordsAt_of_asks (P := fun _ => True) (asks_insertPoint.bind fun p _ => .inl ⟨p.block, rfl, trivial⟩)
  | valueType v => exact recordsAt_of_asks (asks_valueType v)
  | alloca name =>
    refine recordsAt_alloca name fun hp slot L => ?_
    rw [Operation.record, hp]
    rfl
  | load ptr =>
    exact .ask (asks_requireAddress ptr) fun _ hptr =>
      recordsAt_emitResult (i := (.load · ptr)) (fun _ => placeable_of_address rfl hptr) fun _ _ => rfl
  | store value ptr =>
    exact .ask (asks_requireAddress ptr) fun _ hptr =>
      recordsAt_emit (i := .store value ptr) (placeable_of_address rfl hptr) fun _ => rfl
  | binary | neg | compare | logical | not | boolToFloat =>
    exact recordsAt_emitResult (fun _ => placeable_of_address rfl rfl) fun _ _ => rfl
  | call callee args =>
    have hcallee : Asks b (discard (functionNamed callee)) fun _ => True :=
      (asks_functionNamed callee).bind fun _ _ => .inl ⟨(), rfl, trivial⟩
    exact .ask hcallee fun _ _ => recordsAt_emitResult (fun _ => placeable_of_address rfl rfl) fun _ _ => rfl
  | phi ty incoming =>
    refine .ask (asks_labelled incoming) fun ls hls => ?_
    subst hls
    exact recordsAt_emitResult (fun _ => placeable_of_address rfl rfl) fun _ _ => rfl
  | br target =>
    refine .ask (asks_labelOf target) fun l hl => ?_
    subst hl
    exact recordsAt_emit (placeable_of_address rfl rfl) fun _ => rfl
  | condBr cond id₁ id₂ =>
    refine .ask (asks_labelOf id₁) fun l₁ hl₁ => .ask (asks_labelOf id₂) fun l₂ hl₂ => ?_
    subst hl₁ hl₂
    exact recordsAt_emit (placeable_of_address rfl rfl) fun _ => rfl
  | ret value => exact recordsAt_emit (placeable_of_address rfl rfl) fun _ => rfl

end Build

/-- Whatever operations are performed, the module stays recorded. -/
theorem recorded_performAll (numbering : Numbering) (ops : List ((α : Type) × Operation α)) {s : Builder × Ledger}
    (h : s.1.module.Recorded s.2) :
    (performAll numbering ops s).1.module.Recorded (performAll numbering ops s).2 := by
  induction ops generalizing s with
  | nil => exact h
  | cons op ops ih =>
    refine ih (s := op.2.performOn numbering s) ?_
    have hstep := Build.recordsAt_perform numbering op.2 s.1 s.2 h
    unfold Operation.performOn
    cases ho : op.2.perform numbering s.1 with
    | ok a b => rwa [ho] at hstep
    | error e b => rwa [ho] at hstep

/-! ## Regular modules -/

/-- What is true of every function that is built, `e` being what has been placed in it. -/
structure Function.Regular (f : Function) (e : Entries) : Prop where
  /-- Parameters, slots and labels have different names. -/
  names_nodup : (f.params ++ f.blocks.flatMap Block.slots ++ f.blocks.map Block.label).Nodup
  layout_nodup : f.layout.Nodup
  layout_valid : ∀ id ∈ f.layout, id.index < f.blocks.length
  terminator_last : ∀ b ∈ f.blocks, ∀ i ∈ b.instructions.dropLast, i.isTerminator = false
  addressed : ∀ b ∈ f.blocks, ∀ i ∈ b.instructions, ∀ ptr, i.address? = some ptr → ptr.isAddress = true
  /-- The entry block is its slots, the last one first, and then its other instructions. -/
  entry : ∀ id b, f.entry? = some id → f.block? id = some b →
    b.instructions = e.slots.reverse.map .alloca ++ e.code id ∧ ∀ i ∈ e.code id, i.slot? = none
  others : ∀ id b, f.entry? ≠ some id → f.block? id = some b →
    b.instructions = e.code id ∧ ∀ i ∈ b.instructions, i.slot? = none

/-- What is true of every module that is built. -/
structure Module.Regular (m : Module) (L : Ledger) : Prop where
  symbols_nodup : (m.functions.map Function.name ++ m.globals.map Global.name).Nodup
  functions : ∀ f ∈ m.functions, f.Regular (L f.name)

namespace Function.Recorded

variable {f : Function} {e : Entries} {id : BlockId} {b : Block} {i : Instruction}

/-- What stands in a block is a slot or has been placed there. -/
theorem mem_instructions (h : f.Recorded e) (hb : f.block? id = some b) (hi : i ∈ b.instructions) :
    (∃ slot, i = .alloca slot) ∨ i ∈ e.code id := by
  rw [h.holds hb, Entries.block, List.mem_append] at hi
  refine hi.imp_left fun hi => ?_
  split at hi
  · obtain ⟨slot, -, rfl⟩ := List.mem_map.1 hi
    exact ⟨slot, rfl⟩
  · cases hi

theorem slots_eq (h : f.Recorded e) (hb : f.block? id = some b) :
    b.slots = if f.entry? = some id then e.slots.reverse else [] := by
  have hcode : (e.code id).filterMap Instruction.slot? = [] :=
    List.filterMap_eq_nil_iff.2 fun i hi => (h.placeable i hi).slot
  rw [Block.slots, h.holds hb, Entries.block, List.filterMap_append, hcode, List.append_nil]
  split
  · rw [List.filterMap_map]
    exact List.filterMap_some
  · rfl

/-- The slots of a function are those of its entry block. -/
theorem flatMap_slots (h : f.Recorded e) : f.blocks.flatMap Block.slots = e.slots.reverse := by
  cases hentry : f.entry? with
  | none =>
    rw [h.unopened (List.head?_eq_none_iff.1 hentry)]
    refine List.flatMap_eq_nil_iff.2 fun b hb => ?_
    obtain ⟨id, hid⟩ := mem_blocks_iff.1 hb
    rw [h.slots_eq hid, hentry]
    rfl
  | some entry =>
    obtain ⟨b, hb⟩ := Option.isSome_iff_exists.1 (h.layout_valid (List.mem_of_head? hentry))
    refine (flatMap_blocks_eq hb fun hb' hne => ?_).trans ((h.slots_eq hb).trans (if_pos hentry))
    exact (h.slots_eq hb').trans (if_neg fun heq => hne (Option.some.inj (heq.symm.trans hentry)))

theorem regular (h : f.Recorded e) : f.Regular e where
  names_nodup := by
    rw [h.flatMap_slots]
    exact (h.taken.trans (((List.reverse_perm _).symm.append_left _).append_right _)).nodup_iff.1 h.taken_nodup
  layout_nodup := h.layout_nodup
  layout_valid id hid := by
    obtain ⟨b, hb⟩ := Option.isSome_iff_exists.1 (h.layout_valid hid)
    exact (List.getElem?_eq_some_iff.1 hb).1
  terminator_last b hb i hi := by
    obtain ⟨id, hid⟩ := mem_blocks_iff.1 hb
    obtain hnil | hne := eq_or_ne (e.code id) []
    · obtain ⟨slot, rfl⟩ | hi := h.mem_instructions hid (List.dropLast_subset _ hi)
      · rfl
      · rw [hnil] at hi
        cases hi
    · rw [h.holds hid, Entries.block, List.dropLast_append_of_ne_nil hne, List.mem_append] at hi
      obtain hi | hi := hi
      · split at hi
        · obtain ⟨slot, -, rfl⟩ := List.mem_map.1 hi
          rfl
        · cases hi
      · exact h.terminator_last i hi
  addressed b hb i hi ptr hptr := by
    obtain ⟨id, hid⟩ := mem_blocks_iff.1 hb
    obtain ⟨slot, rfl⟩ | hi := h.mem_instructions hid hi
    · cases hptr
    · exact (h.placeable i hi).address hptr
  entry id b hid hb := by
    rw [h.holds hb, Entries.block, if_pos hid]
    exact ⟨rfl, fun i hi => (h.placeable i hi).slot⟩
  others id b hid hb := by
    rw [h.holds hb, Entries.block, if_neg hid]
    exact ⟨rfl, fun i hi => (h.placeable i hi).slot⟩

end Function.Recorded

/-! ## What checks cannot find -/

/-- The defects of instructions that stand in the wrong place of a block. -/
def Defect.isMisplacement : Defect → Bool
  | .earlyTerminator _ | .allocaOutsideEntry _ => true
  | _ => false

/-- The check does not find an instruction in the wrong place. -/
def Spares (check : Except Defect Unit) : Prop := ∀ d, check = .error d → d.isMisplacement = false

theorem spares_error {d : Defect} (h : d.isMisplacement = false) : Spares (.error d) := by
  rintro _ ⟨⟩
  exact h

theorem spares_ok : Spares (.ok ()) := by
  rintro _ ⟨⟩

theorem Spares.bind {first : Except Defect Unit} {rest : Unit → Except Defect Unit} (h : Spares first)
    (hrest : Spares (rest ())) : Spares (first >>= rest) := by
  cases first with
  | ok _ => exact hrest
  | error d => exact spares_error (h d rfl)

theorem spares_checkAll {α : Type} {check : α → Except Defect Unit} {as : List α} (h : ∀ a ∈ as, Spares (check a)) :
    Spares (checkAll check as) := by
  induction as with
  | nil => exact spares_ok
  | cons a as ih =>
    obtain ⟨ha, has⟩ := List.forall_mem_cons.1 h
    rw [checkAll]
    cases hcheck : check a with
    | ok _ => exact ih has
    | error d => exact spares_error (ha d hcheck)

theorem spares_checkType (f : Function) (m : Module) (block : String) (ty : Ty) (v : Value) :
    Spares (f.checkType m block ty v) := by
  have htype : ∀ {d}, f.typeOf m v = .error d → d.isMisplacement = false := by
    intro d hd
    unfold Function.typeOf at hd
    split at hd <;> first | cases hd; done | cases hd; rfl | (split at hd <;> cases hd; rfl)
  unfold Function.checkType
  split
  · next d hd => exact spares_error (htype hd)
  · split
    · exact spares_ok
    · exact spares_error rfl

theorem spares_checkOperands (f : Function) (m : Module) (block : String) (i : Instruction) :
    Spares (f.checkOperands m block i) := by
  have hall : ∀ ty vs, Spares (checkAll (f.checkType m block ty) vs) := fun ty _ =>
    spares_checkAll fun v _ => spares_checkType f m block ty v
  cases i with
  | alloca | br => exact spares_ok
  | store value ptr => exact (spares_checkType _ _ _ _ _).bind (spares_checkType _ _ _ _ _)
  | load | neg | ret | not | boolToFloat | condBr => exact spares_checkType _ _ _ _ _
  | binary | compare | logical | phi => exact hall _ _
  | call dest callee args =>
    unfold Function.checkOperands
    dsimp only
    split
    · exact spares_error rfl
    · split
      · exact spares_error rfl
      · exact hall _ _

namespace Function.Regular

variable {f : Function} {e : Entries}

theorem spares_checkTerminator (h : f.Regular e) {b : Block} (hb : b ∈ f.blocks) : Spares b.checkTerminator := by
  have hnone : b.instructions.dropLast.any Instruction.isTerminator = false :=
    List.any_eq_false.2 fun i hi => by simp [h.terminator_last b hb i hi]
  unfold Block.checkTerminator
  split
  · exact spares_error rfl
  · rw [hnone]
    split
    · exact spares_error rfl
    · exact spares_ok

theorem spares_checkPlaces {b : Block} {isEntry : Bool} (h : isEntry = false → ∀ i ∈ b.instructions, i.slot? = none) :
    Spares (b.checkPlaces isEntry) := by
  refine spares_checkAll fun i hi => ?_
  have hmem : i ∈ b.instructions := (List.dropWhile_sublist _).subset hi
  cases i with
  | alloca slot =>
    cases isEntry with
    | true => exact spares_ok
    | false => cases h rfl _ hmem
  | phi => exact spares_error rfl
  | _ => exact spares_ok

theorem spares_checkShape (h : f.Regular e) {b : Block} (hb : b ∈ f.blocks) (labels : List String) {isEntry : Bool}
    (hslots : isEntry = false → ∀ i ∈ b.instructions, i.slot? = none) : Spares (b.checkShape labels isEntry) := by
  refine (h.spares_checkTerminator hb).bind (.bind (spares_checkAll fun target _ => ?_) (spares_checkPlaces hslots))
  split
  · exact spares_ok
  · exact spares_error rfl

/-- The first of the attached blocks is the entry, and the others are not. -/
theorem attached_cases (h : f.Regular e) : f.attached = [] ∨ ∃ entry others, f.attached = entry :: others ∧
    entry ∈ f.blocks ∧ ∀ b ∈ others, b ∈ f.blocks ∧ ∀ i ∈ b.instructions, i.slot? = none := by
  cases hlayout : f.layout with
  | nil => exact .inl (by rw [attached, hlayout]; rfl)
  | cons id rest =>
    have hnodup := h.layout_nodup
    rw [hlayout, List.nodup_cons] at hnodup
    have hlt := h.layout_valid id (by rw [hlayout]; exact List.mem_cons_self)
    have hentry : f.block? id = some (f.blocks.get ⟨id.index, hlt⟩) := List.getElem?_eq_getElem hlt
    refine .inr ⟨_, rest.filterMap f.block?, ?_, mem_blocks_iff.2 ⟨id, hentry⟩, fun b hb => ?_⟩
    · rw [attached, hlayout, List.filterMap_cons, hentry]
    · obtain ⟨id', hid', hb⟩ := List.mem_filterMap.1 hb
      refine ⟨mem_blocks_iff.2 ⟨id', hb⟩, (h.others id' b ?_ hb).2⟩
      rw [ entry?, hlayout, List.head?_cons]
      rintro ⟨⟩
      exact hnodup.1 hid'

theorem spares_check (h : f.Regular e) (m : Module) : Spares (f.check m) := by
  have hshapes : Spares f.checkShapes := by
    unfold checkShapes
    obtain hnil | ⟨entry, others, hattached, hentry, hothers⟩ := h.attached_cases
    · rw [hnil]
      exact spares_ok
    · rw [hattached]
      refine (h.spares_checkShape hentry _ (by rintro ⟨⟩)).bind (spares_checkAll fun b hb => ?_)
      exact h.spares_checkShape (hothers b hb).1 _ fun _ => (hothers b hb).2
  have hphis : Spares f.checkPhis := by
    refine spares_checkAll fun b _ => spares_checkAll fun i _ => ?_
    unfold checkIncoming
    split
    · dsimp only
      split
      · exact spares_ok
      · exact spares_error rfl
    · exact spares_ok
  unfold check
  split
  · exact spares_ok
  · refine hshapes.bind (hphis.bind (spares_checkAll fun b _ => spares_checkAll fun i _ => ?_))
    exact spares_checkOperands f m b.label i

end Function.Regular

theorem regular_built (numbering : Numbering) (name : String) (ops : List ((α : Type) × Operation α)) :
    (built numbering name ops).1.module.Regular (built numbering name ops).2 := by
  have hrecorded : (built numbering name ops).1.module.Recorded (built numbering name ops).2 :=
    recorded_performAll numbering ops (Module.recorded_empty name _)
  exact ⟨hrecorded.symbols, fun f hf => (hrecorded.functions f hf).regular⟩

/-- Checks of regular modules never find a terminator before the end of a block, nor a slot outside of the entry
block. -/
theorem Module.Regular.not_misplaced {m : Module} {L : Ledger} (h : m.Regular L) {f : String} {d : Defect}
    (hd : m.checkFunction f = .error d) :
    (∀ label, d ≠ .earlyTerminator label) ∧ ∀ slot, d ≠ .allocaOutsideEntry slot := by
  have hspares : d.isMisplacement = false := by
    rw [Module.checkFunction] at hd
    split at hd
    · cases hd
      rfl
    · next g hg => exact (h.functions g (List.mem_of_find?_eq_some hg)).spares_check _ d hd
  constructor
  · rintro label rfl
    cases hspares
  · rintro slot rfl
    cases hspares

end Monofloat.Ir
