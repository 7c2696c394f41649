import Monofloat.Proofs.Built

/-!
# What operations can do

`Builder.Effect` lists all that one operation can do to a builder, if it succeeds and if it fails, and
`effect_perform` says that the list is complete. What an operation does to one function is a `Function.Change`. A
failure has few effects: it leaves the builder alone, or registers a temporary in the current function and places no
instruction for it. It could also take a name for a slot of a function whose entry block does not exist, but among
functions that are built there are none of that kind (`Effect.of_failure`).
-/

namespace Monofloat.Ir

/-- What an operation that succeeds can do to a function. -/
inductive Function.Change (numbering : Numbering) (f : Function) : Function → Prop where
  | append (label : String) : Change numbering f (f.appendBlock label).2
  | create (label : String) : Change numbering f (f.create label)
  | attach {id : BlockId} (detached : id ∉ f.layout) : Change numbering f (f.attach id)
  | reserve {entry : BlockId} {block : Block} (first : f.entry? = some entry) (present : f.block? entry = some block)
      (name : String) : Change numbering f (f.reserve entry name)
  | emit {c : BlockId} (takes : Build.Open f c) {i : Instruction} (slot : i.slot? = none) (dest : i.dest? = none) :
      Change numbering f (f.emit c i)
  | result {c : BlockId} (takes : Build.Open f c) {ty : Ty} {i : Nat → Instruction} (slot : ∀ d, (i d).slot? = none)
      (dest : ∀ d, (i d).dest? = some d) (typed : ∀ d, (i d).ty? = some ty) :
      Change numbering f (f.result c ty fun d => i (numbering.number d))

theorem Function.Change.name_eq {numbering : Numbering} {f g : Function} (h : f.Change numbering g) :
    g.name = f.name := by
  cases h with
  | append label => exact f.name_appendBlock label
  | create | attach | reserve | emit | result => rfl

/-- What an operation can do to a builder, with `true` for an operation that succeeds. -/
inductive Builder.Effect (numbering : Numbering) (b : Builder) : Bool → Builder → Prop where
  | nothing (success : Bool) : Effect numbering b success b
  | move (position : Option InsertPoint) : Effect numbering b true { b with position := position }
  | declare {name : String} (params : List String) (new : b.module.hasSymbol name = false) :
      Effect numbering b true { b with module := b.module.addFunction (.declare name params) }
  | addGlobal {g : Global} (new : b.module.hasSymbol g.name = false) :
      Effect numbering b true { b with module := b.module.addGlobal g }
  | remove (name : String) : Effect numbering b true (b.removeFunction name)
  | append {name : String} {f : Function} (named : b.module.function? name = some f) (label : String) :
      Effect numbering b true { b with module := b.module.modifyFunction name fun _ => (f.appendBlock label).2 }
  | change {p : InsertPoint} {f g : Function} (here : b.At p f) (changed : f.Change numbering g) :
      Effect numbering b true (b.put g p.block)
  /-- The instruction cannot be placed, but the temporary that it would write is registered. -/
  | abandon {p : InsertPoint} {f : Function} (here : b.At p f) (ty : Ty) :
      Effect numbering b false (b.put (f.withTemp ty) p.block)
  /-- The slot cannot be reserved, but its name is taken. -/
  | mislay {p : InsertPoint} {f : Function} (here : b.At p f) {entry : BlockId} (first : f.entry? = some entry)
      (missing : f.block? entry = none) (name : String) : Effect numbering b false (b.put (f.freshName name).2 p.block)

namespace Build

variable {α β : Type} {b : Builder} {numbering : Numbering}

/-- The step does to the builder what an operation can do. -/
def Acts (numbering : Numbering) (b : Builder) (step : Build α) : Prop :=
  match step b with
  | .ok _ b' => b.Effect numbering true b'
  | .error _ b' => b.Effect numbering false b'

theorem acts_of_ok {step : Build α} {a : α} {b' : Builder} (h : step b = .ok a b') (he : b.Effect numbering true b') :
    Acts numbering b step := by
  rwa [Acts, h]

theorem acts_of_error {step : Build α} {e : BuildError} (h : step b = .error e b) : Acts numbering b step := by
  rw [Acts, h]
  exact .nothing false

theorem acts_of_asks {step : Build α} {P : α → Prop} (h : Asks b step P) : Acts numbering b step := by
  obtain ⟨a, h, -⟩ | ⟨e, h⟩ := h
  · exact acts_of_ok h (.nothing true)
  · exact acts_of_error h

/-- A question in front of a step changes nothing. -/
theorem Acts.ask {x : Build α} {f : α → Build β} {P : α → Prop} (hx : Asks b x P)
    (hf : ∀ a, P a → Acts numbering b (f a)) : Acts numbering b (x >>= f) := by
  obtain ⟨a, hx, ha⟩ | ⟨e, hx⟩ := hx
  · rw [Acts, bind_of_ok hx]
    exact hf a ha
  · exact acts_of_error (bind_of_error hx)

theorem acts_appendBlockIn (name label : String) : Acts numbering b (appendBlockIn name label) :=
  .ask (asks_functionNamed name) fun _ hf => acts_of_ok rfl (.append hf label)

theorem acts_createBlock (label : String) : Acts numbering b (createBlock label) := by
  obtain ⟨f, -, p, hf⟩ | ⟨e, he⟩ := asks_currentFunction (b := b)
  · exact acts_of_ok ((congrArg _ hf.put_eq).trans (createBlock_put hf.hosts label)) (.change hf (.create label))
  · exact acts_of_error (bind_of_error he)

theorem acts_attachBlock (id : BlockId) : Acts numbering b (attachBlock id) := by
  obtain ⟨block, hblock, p, f, hf, hb⟩ | ⟨e, he⟩ := asks_blockOf (b := b) id
  · by_cases hid : id ∈ f.layout
    · refine acts_of_error (e := .alreadyAttached block.label) ?_
      rw [attachBlock, bind_of_ok hblock, bind_of_ok hf.currentFunction_eq, Function.attach?,
        if_pos (by simp [Function.isAttached, hid])]
      rfl
    · exact acts_of_ok ((congrArg _ hf.put_eq).trans (attachBlock_put hf.hosts hb hid)) (.change hf (.attach hid))
  · exact acts_of_error (bind_of_error he)

theorem acts_alloca (name : String) : Acts numbering b (alloca name) := by
  obtain ⟨f, hcurrent, p, hf⟩ | ⟨e, he⟩ := asks_currentFunction (b := b)
  · cases hentry : f.entry? with
    | none =>
      refine acts_of_error (e := .missingEntry f.name) ?_
      rw [alloca, bind_of_ok hcurrent, hentry]
      rfl
    | some entry =>
      cases hb : f.block? entry with
      | none =>
        rw [Acts, show alloca name b = _ from (congrArg _ hf.put_eq).trans (alloca_of_missing hf.hosts hentry hb name)]
        exact .mislay hf hentry hb name
      | some block =>
        exact acts_of_ok ((congrArg _ hf.put_eq).trans (alloca_put hf.hosts hentry hb name))
          (.change hf (.reserve hentry hb name))
  · exact acts_of_error (bind_of_error he)

theorem acts_emit {i : Instruction} (hslot : i.slot? = none) (hdest : i.dest? = none) : Acts numbering b (emit i) := by
  obtain ⟨f, -, p, hf⟩ | ⟨e, he⟩ := asks_currentFunction (b := b)
  · by_cases hopen : Open f p.block
    · exact acts_of_ok ((congrArg _ hf.put_eq).trans (emit_put hf.hosts hopen i)) (.change hf (.emit hopen hslot hdest))
    · obtain ⟨e, he⟩ := emit_of_not_open hf.hosts hopen i
      rw [← hf.put_eq] at he
      exact acts_of_error he
  · obtain ⟨e', he'⟩ := emit_of_error he i
    exact acts_of_error he'

theorem acts_emitResult {ty : Ty} {i : Nat → Instruction} (hslot : ∀ d, (i d).slot? = none)
    (hdest : ∀ d, (i d).dest? = some d) (hty : ∀ d, (i d).ty? = some ty) :
    Acts numbering b (emitResult ty i numbering) := by
  obtain ⟨f, -, p, hf⟩ | ⟨e, he⟩ := asks_currentFunction (b := b)
  · by_cases hopen : Open f p.block
    · exact acts_of_ok ((congrArg _ hf.put_eq).trans (emitResult_put hf.hosts hopen ty i numbering))
        (.change hf (.result hopen hslot hdest hty))
    · obtain ⟨e, he⟩ := emitResult_of_not_open hf.hosts hopen ty i numbering
      rw [← hf.put_eq] at he
      rw [Acts, he]
      exact .abandon hf ty
  · exact acts_of_error (bind_of_error (bind_of_error he))

/-- An operation does nothing else than what effects say. -/
theorem effect_perform (numbering : Numbering) (op : Operation α) (b : Builder) :
    Acts numbering b (op.perform numbering) := by
  cases op with
  | declareFunction name params =>
    cases hnew : b.module.hasSymbol name with
    | true => exact acts_of_error (declareFunction_of_used params hnew)
    | false => exact acts_of_ok (declareFunction_of_new params hnew) (.declare params hnew)
  | function? | global? => exact acts_of_ok rfl (.nothing true)
  | removeFunction name => exact acts_of_ok rfl (.remove name)
  | declareGlobal name =>
    cases hnew : b.module.hasSymbol name with
    | true => exact acts_of_error (declareGlobal_of_used hnew)
    | false => exact acts_of_ok (declareGlobal_of_new hnew) (.addGlobal hnew)
  | appendBlockIn name label => exact acts_appendBlockIn name label
  | appendBlock label => exact .ask asks_insertPoint fun p _ => acts_appendBlockIn p.function label
  | createBlock label => exact acts_createBlock label
  | attachBlock id => exact acts_attachBlock id
  | setInsertPoint name id => exact acts_of_ok rfl (.move (some ⟨name, id⟩))
  | positionAtEnd id =>
    exact .ask asks_insertPoint fun p _ => acts_of_ok rfl (.move (some ⟨p.function, id⟩))
  | clearInsertPoint => exact acts_of_ok rfl (.move none)
  | insertBlock => exact .ask asks_insertPoint fun _ _ => acts_of_ok rfl (.nothing true)
  | valueType v => exact acts_of_asks (asks_valueType v)
  | alloca name => exact acts_alloca name
  | load ptr =>
    exact .ask (asks_requireAddress ptr) fun _ _ => acts_emitResult (fun _ => rfl) (fun _ => rfl) fun _ => rfl
  | store value ptr => exact .ask (asks_requireAddress ptr) fun _ _ => acts_emit rfl rfl
  | binary | neg | compare | logical | not | boolToFloat =>
    exact acts_emitResult (fun _ => rfl) (fun _ => rfl) fun _ => rfl
  | call callee args =>
    have hcallee : Asks b (discard (functionNamed callee)) fun _ => True :=
      (asks_functionNamed callee).bind fun _ _ => .inl ⟨(), rfl, trivial⟩
    exact .ask hcallee fun _ _ => acts_emitResult (fun _ => rfl) (fun _ => rfl) fun _ => rfl
  | phi ty incoming =>
    exact .ask (asks_labelled incoming) fun _ _ => acts_emitResult (fun _ => rfl) (fun _ => rfl) fun _ => rfl
  | br target => exact .ask (asks_labelOf target) fun _ _ => acts_emit rfl rfl
  | condBr cond id₁ id₂ =>
    exact .ask (asks_labelOf id₁) fun _ _ => .ask (asks_labelOf id₂) fun _ _ => acts_emit rfl rfl
  | ret value => exact acts_emit rfl rfl

end Build

namespace Builder

variable {b b' : Builder} {numbering : Numbering} {L : Ledger}

/-- Changing the current function leaves the insertion point where it is. -/
theorem At.put_change {p : InsertPoint} {f g : Function} (h : b.At p f) (hname : g.name = f.name) :
    b.put g p.block = { b with module := b.module.modifyFunction p.function fun _ => g } := by
  rw [put, hname, h.name, h.position]

namespace Effect

/-- A failure leaves a regular module alone, or registers a temporary. -/
theorem of_failure (h : b.Effect numbering false b') (hregular : b.module.Regular L) :
    b' = b ∨ ∃ p f ty, b.At p f ∧ b' = b.put (f.withTemp ty) p.block := by
  cases h with
  | nothing => exact .inl rfl
  | @abandon p f hf ty => exact .inr ⟨p, f, ty, hf, rfl⟩
  | @mislay p f hf entry hentry hmissing name =>
    have hlt := (hregular.functions f (List.mem_of_find?_eq_some hf.function)).layout_valid entry
      (List.mem_of_head? hentry)
    rw [Function.block?, List.getElem?_eq_getElem hlt] at hmissing
    cases hmissing

/-- Where a function comes from, behind an operation that succeeds. -/
theorem mem_functions (h : b.Effect numbering true b') (hregular : b.module.Regular L) {g : Function}
    (hg : g ∈ b'.module.functions) :
    g ∈ b.module.functions ∨ (∃ name params, g = .declare name params) ∨
      ∃ f ∈ b.module.functions, f.Change numbering g := by
  have hmodify : ∀ {f f' : Function} {name : String}, b.module.function? name = some f → f.Change numbering f' →
      g ∈ (b.module.modifyFunction name fun _ => f').functions →
        g ∈ b.module.functions ∨ ∃ f ∈ b.module.functions, f.Change numbering g := by
    intro f f' name hf hchange hmem
    obtain rfl | ⟨hmem, -⟩ :=
      Module.eq_or_mem_of_mem_modifyFirst (List.nodup_append.1 hregular.symbols_nodup).1 hmem
    · exact .inr ⟨f, List.mem_of_find?_eq_some hf, hchange⟩
    · exact .inl hmem
  cases h with
  | nothing | move | addGlobal => exact .inl hg
  | declare params =>
    obtain hg | hg := List.mem_append.1 hg
    · exact .inl hg
    · exact .inr (.inl ⟨_, params, List.mem_singleton.1 hg⟩)
  | remove name => exact .inl (List.eraseP_subset hg)
  | append hf label => exact (hmodify hf (.append label) hg).imp_right .inr
  | change hf hchange =>
    rw [hf.put_change hchange.name_eq] at hg
    exact (hmodify hf.function hchange hg).imp_right .inr

end Effect

end Builder

end Monofloat.Ir
