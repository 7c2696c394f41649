import Monofloat.Ir.Builder
import Monofloat.Proofs.Sequencing

/-!
# What builder steps do

Inside a function the builder is `b.put f c`: the module of `b` with `f` in the place of the function of that
name, and the insertion point in the block `c` of `f`. A step of the builder then comes to a change of `f` and
`c`, and each lemma `*_put` says to which one, and when the step succeeds.
-/

namespace Monofloat.Ir

/-! ## Replacing a function -/

namespace Module

theorem find?_modifyFirst {f : Function} {name : String} (hf : f.name = name) (fs : List Function)
    (h : (fs.find? (·.name = name)).isSome) (other : String) :
    (modifyFirst name (fun _ => f) fs).find? (·.name = other) =
      if other = name then some f else fs.find? (·.name = other) := by
  induction fs with
  | nil => cases h
  | cons g gs ih =>
    rw [modifyFirst]
    by_cases hg : g.name = name
    · rw [if_pos hg]
      by_cases ho : other = name
      · simp [hf, ho]
      · simp [hf, hg, Ne.symm ho, ho]
    · rw [if_neg hg]
      have h' : (gs.find? (·.name = name)).isSome := by simpa [hg] using h
      by_cases hgo : g.name = other
      · have : other ≠ name := fun he => hg (hgo.trans he)
        simp [hgo, this]
      · simp [hgo, ih h']

/-- The functions after one was replaced. -/
theorem function?_modifyFunction {m : Module} {f : Function} (h : (m.function? f.name).isSome) (name : String) :
    (m.modifyFunction f.name fun _ => f).function? name =
      if name = f.name then some f else m.function? name :=
  find?_modifyFirst rfl m.functions h name

theorem modifyFirst_modifyFirst {f : Function} {name : String} (hf : f.name = name) (g : Function → Function)
    (fs : List Function) :
    modifyFirst name g (modifyFirst name (fun _ => f) fs) = modifyFirst name (fun _ => g f) fs := by
  induction fs with
  | nil => rfl
  | cons h hs ih =>
    rw [modifyFirst, modifyFirst]
    by_cases hh : h.name = name
    · rw [if_pos hh, if_pos hh, modifyFirst, if_pos hf]
    · rw [if_neg hh, if_neg hh, modifyFirst, if_neg hh, ih]

theorem modifyFunction_modifyFunction (m : Module) (f : Function) (g : Function → Function) :
    (m.modifyFunction f.name fun _ => f).modifyFunction f.name g = m.modifyFunction f.name fun _ => g f := by
  simp only [modifyFunction, modifyFirst_modifyFirst]

theorem modifyFirst_of_find? {f : Function} {name : String} {fs : List Function}
    (h : fs.find? (·.name = name) = some f) : modifyFirst name (fun _ => f) fs = fs := by
  induction fs with
  | nil => rfl
  | cons g gs ih =>
    rw [modifyFirst]
    by_cases hg : g.name = name
    · rw [if_pos hg]
      rw [List.find?_cons_of_pos (by simpa using hg)] at h
      cases h
      rfl
    · rw [if_neg hg]
      rw [List.find?_cons_of_neg (by simpa using hg)] at h
      rw [ih h]

theorem modifyFunction_of_function? {m : Module} {f : Function} (h : m.function? f.name = some f) :
    (m.modifyFunction f.name fun _ => f) = m := by
  simp only [modifyFunction, modifyFirst_of_find? h]

end Module

/-! ## Steps on a function -/

namespace Function

/-- The function with an instruction at the end of a block. -/
def emit (f : Function) (c : BlockId) (i : Instruction) : Function := f.modifyBlock c (·.append i)

/-- The function with an instruction at the end of a block that writes a new temporary. -/
def result (f : Function) (c : BlockId) (ty : Ty) (i : Nat → Instruction) : Function :=
  (f.withTemp ty).emit c (i f.temps.length)

/-- The function with a new block that is not attached. -/
def create (f : Function) (label : String) : Function := (f.createBlock label).2

/-- The function with a block at the end of its layout. -/
def attach (f : Function) (id : BlockId) : Function := { f with layout := f.layout ++ [id] }

/-- The number of the next block. -/
def nextBlock (f : Function) : BlockId := ⟨f.blocks.length⟩

/-- The name of the slot that is reserved next for a variable. -/
def slotFor (f : Function) (name : String) : String := (f.freshName name).1

/-- The function with a slot for a variable at the front of a block. -/
def reserve (f : Function) (entry : BlockId) (name : String) : Function :=
  (f.freshName name).2.modifyBlock entry (·.prepend (.alloca (f.slotFor name)))

@[simp] theorem name_emit (f : Function) (c : BlockId) (i : Instruction) : (f.emit c i).name = f.name := rfl
@[simp] theorem name_attach (f : Function) (id : BlockId) : (f.attach id).name = f.name := rfl
@[simp] theorem name_create (f : Function) (label : String) : (f.create label).name = f.name := rfl

theorem name_appendBlock (f : Function) (label : String) : (f.appendBlock label).2.name = f.name := by
  show (((f.create label).attach? f.nextBlock).getD (f.create label)).name = _
  unfold attach?
  split <;> rfl

@[simp]
theorem name_result (f : Function) (c : BlockId) (ty : Ty) (i : Nat → Instruction) :
    (f.result c ty i).name = f.name := rfl

@[simp]
theorem name_reserve (f : Function) (entry : BlockId) (name : String) :
    (f.reserve entry name).name = f.name := rfl

theorem attach?_eq {f : Function} {id : BlockId} (h : id ∉ f.layout) (hlt : id.index < f.blocks.length) :
    f.attach? id = some (f.attach id) := by
  rw [attach?, if_neg (by simp [isAttached, h]; omega)]
  rfl

end Function

namespace Builder

/-- The builder inside the block `c` of the function `f`. -/
def put (b : Builder) (f : Function) (c : BlockId) : Builder where
  module := b.module.modifyFunction f.name fun _ => f
  position := some ⟨f.name, c⟩

/-- The module of the builder has a function of that name. -/
def Hosts (b : Builder) (name : String) : Prop := (b.module.function? name).isSome

theorem put_of_function? {b : Builder} {f : Function} {c : BlockId} (h : b.module.function? f.name = some f) :
    b.put f c = { b with position := some ⟨f.name, c⟩ } := by
  simp only [put, Module.modifyFunction_of_function? h]

theorem function?_put {b : Builder} {f : Function} {c : BlockId} (h : b.Hosts f.name) (name : String) :
    (b.put f c).module.function? name = if name = f.name then some f else b.module.function? name :=
  Module.function?_modifyFunction h name

@[simp]
theorem global?_put (b : Builder) (f : Function) (c : BlockId) (name : String) :
    (b.put f c).module.global? name = b.module.global? name := rfl

end Builder

namespace Build

variable {b : Builder} {f f' : Function} {c : BlockId}

/-- Changing the current function. -/
theorem modifyFunction_put (g : Function → Function) (hg : g f = f') (hn : f'.name = f.name) :
    modifyFunction f.name g (b.put f c) = .ok () (b.put f' c) := by
  have hm : (b.put f c).module.modifyFunction f.name g = b.module.modifyFunction f'.name fun _ => f' := by
    rw [Builder.put, Module.modifyFunction_modifyFunction, hg, hn]
  show EStateM.Result.ok () { b.put f c with module := (b.put f c).module.modifyFunction f.name g } = _
  rw [hm, Builder.put, Builder.put, hn]

theorem function?_put (h : b.Hosts f.name) (name : String) :
    function? name (b.put f c) =
      .ok (if name = f.name then some f else b.module.function? name) (b.put f c) := by
  show EStateM.Result.ok ((b.put f c).module.function? name) _ = _
  rw [Builder.function?_put h]

theorem currentFunction_put (h : b.Hosts f.name) : currentFunction (b.put f c) = .ok f (b.put f c) := by
  have hf := function?_put (c := c) h f.name
  rw [if_pos rfl] at hf
  show functionNamed f.name (b.put f c) = _
  rw [functionNamed, bind_of_ok hf]
  rfl

theorem blockOf_put (h : b.Hosts f.name) {id : BlockId} {block : Block} (hb : f.block? id = some block) :
    blockOf id (b.put f c) = .ok block (b.put f c) := by
  rw [blockOf, bind_of_ok (currentFunction_put h), hb]
  rfl

theorem labelOf_put (h : b.Hosts f.name) {id : BlockId} {block : Block} (hb : f.block? id = some block) :
    labelOf id (b.put f c) = .ok block.label (b.put f c) := by
  rw [labelOf, bind_of_ok (blockOf_put h hb)]
  rfl

theorem positionAtEnd_put (id : BlockId) : positionAtEnd id (b.put f c) = .ok () (b.put f id) := rfl

theorem insertBlock_put : insertBlock (b.put f c) = .ok c (b.put f c) := rfl

/-! ## Functions and globals -/

theorem declareFunction_of_new {name : String} (params : List String)
    (h : b.module.hasSymbol name = false) :
    declareFunction name params b = .ok () { b with module := b.module.addFunction (.declare name params) } := by
  show (if b.module.hasSymbol name then _ else _ : Build Unit) b = _
  rw [h]
  rfl

theorem declareFunction_of_used {name : String} (params : List String)
    (h : b.module.hasSymbol name = true) : declareFunction name params b = .error (.duplicateSymbol name) b := by
  show (if b.module.hasSymbol name then _ else _ : Build Unit) b = _
  rw [h]
  rfl

theorem declareGlobal_of_used {name : String} (h : b.module.hasSymbol name = true) :
    declareGlobal name b = .error (.duplicateSymbol name) b := by
  show (if b.module.hasSymbol name then _ else _ : Build Global) b = _
  rw [h]
  rfl

theorem declareGlobal_of_new {name : String} (h : b.module.hasSymbol name = false) :
    declareGlobal name b = .ok { name := name } { b with module := b.module.addGlobal { name := name } } := by
  show (if b.module.hasSymbol name then _ else _ : Build Global) b = _
  rw [h]
  rfl

/-! ## Blocks -/

theorem createBlock_put (h : b.Hosts f.name) (label : String) :
    createBlock label (b.put f c) = .ok f.nextBlock (b.put (f.create label) c) := by
  have hm : modifyFunction f.name (fun _ => f.create label) (b.put f c) = .ok () (b.put (f.create label) c) :=
    modifyFunction_put _ rfl rfl
  rw [createBlock, bind_of_ok (currentFunction_put h)]
  exact bind_of_ok hm

theorem appendBlock_put (h : b.Hosts f.name) (hl : f.nextBlock ∉ f.layout) (label : String) :
    appendBlock label (b.put f c) = .ok f.nextBlock (b.put ((f.create label).attach f.nextBlock) c) := by
  have hf : functionNamed f.name (b.put f c) = .ok f (b.put f c) := currentFunction_put h
  have ha : (f.create label).attach? f.nextBlock = some ((f.create label).attach f.nextBlock) :=
    Function.attach?_eq hl (by simp [Function.create, Function.createBlock, Function.nextBlock, Function.freshName])
  have hm : modifyFunction f.name (fun _ => ((f.create label).attach? f.nextBlock).getD (f.create label)) (b.put f c) =
      .ok () (b.put ((f.create label).attach f.nextBlock) c) := modifyFunction_put _ (by rw [ha]; rfl) rfl
  show appendBlockIn f.name label (b.put f c) = _
  rw [appendBlockIn, bind_of_ok hf]
  exact bind_of_ok hm

theorem attachBlock_put (h : b.Hosts f.name) {id : BlockId} {block : Block} (hb : f.block? id = some block)
    (hl : id ∉ f.layout) : attachBlock id (b.put f c) = .ok () (b.put (f.attach id) c) := by
  have hlt : id.index < f.blocks.length := (List.getElem?_eq_some_iff.1 hb).1
  rw [attachBlock, bind_of_ok (blockOf_put h hb), bind_of_ok (currentFunction_put h), Function.attach?_eq hl hlt]
  exact modifyFunction_put _ rfl rfl

/-! ## Instructions -/

/-- The block of the insertion point takes instructions. -/
def Open (f : Function) (c : BlockId) : Prop := ∃ block, f.block? c = some block ∧ block.isTerminated = false

theorem emit_put (h : b.Hosts f.name) (ho : Open f c) (i : Instruction) :
    emit i (b.put f c) = .ok () (b.put (f.emit c i) c) := by
  obtain ⟨block, hb, ht⟩ := ho
  have hp : insertPoint (b.put f c) = .ok ⟨f.name, c⟩ (b.put f c) := rfl
  rw [emit, bind_of_ok hp, bind_of_ok (blockOf_put h hb), ht]
  exact modifyFunction_put _ rfl rfl

theorem temp_put (h : b.Hosts f.name) (ty : Ty) (numbering : Numbering) :
    temp ty numbering (b.put f c) = .ok (numbering.number f.temps.length) (b.put (f.withTemp ty) c) := by
  have hm : modifyFunction f.name (fun _ => f.withTemp ty) (b.put f c) = .ok () (b.put (f.withTemp ty) c) :=
    modifyFunction_put _ rfl rfl
  rw [temp, bind_of_ok (currentFunction_put h)]
  exact bind_of_ok hm

theorem emitResult_put (h : b.Hosts f.name) (ho : Open f c) (ty : Ty) (i : Nat → Instruction) (numbering : Numbering) :
    emitResult ty i numbering (b.put f c) =
      .ok (.temp (numbering.number f.temps.length)) (b.put (f.result c ty fun d => i (numbering.number d)) c) := by
  have hemit : emit (i (numbering.number f.temps.length)) (b.put (f.withTemp ty) c) =
      .ok () (b.put (f.result c ty fun d => i (numbering.number d)) c) := emit_put (f := f.withTemp ty) h ho _
  rw [emitResult, bind_of_ok (temp_put h ty numbering), bind_of_ok hemit]
  rfl

theorem alloca_put (h : b.Hosts f.name) {entry : BlockId} (he : f.entry? = some entry) {block : Block}
    (hb : f.block? entry = some block) (name : String) :
    alloca name (b.put f c) = .ok (f.slotFor name) (b.put (f.reserve entry name) c) := by
  have htaken : modifyFunction f.name (fun _ => (f.freshName name).2) (b.put f c) =
      .ok () (b.put (f.freshName name).2 c) := modifyFunction_put _ rfl rfl
  have hreserved : modifyFunction f.name (·.modifyBlock entry (·.prepend (.alloca (f.slotFor name))))
      (b.put (f.freshName name).2 c) = .ok () (b.put (f.reserve entry name) c) :=
    modifyFunction_put (f := (f.freshName name).2) _ rfl rfl
  have hfound : (f.freshName name).2.block? entry = some block := hb
  rw [alloca, bind_of_ok (currentFunction_put h), he]
  dsimp only
  rw [bind_of_ok htaken, hfound]
  exact bind_of_ok hreserved

/-- If the entry block does not exist, the name of the slot is taken all the same. -/
theorem alloca_of_missing (h : b.Hosts f.name) {entry : BlockId} (he : f.entry? = some entry)
    (hb : f.block? entry = none) (name : String) :
    alloca name (b.put f c) = .error (.missingEntry name) (b.put (f.freshName name).2 c) := by
  have htaken : modifyFunction f.name (fun _ => (f.freshName name).2) (b.put f c) =
      .ok () (b.put (f.freshName name).2 c) := modifyFunction_put _ rfl rfl
  have hmissing : (f.freshName name).2.block? entry = none := hb
  rw [alloca, bind_of_ok (currentFunction_put h), he]
  dsimp only
  rw [bind_of_ok htaken, hmissing]
  rfl

theorem load_put (h : b.Hosts f.name) (ho : Open f c) {ptr : Value} (hp : ptr.isAddress) :
    (load ptr) (b.put f c) = .ok (.temp f.temps.length) (b.put (f.result c .f64 (.load · ptr)) c) := by
  have hr : requireAddress ptr (b.put f c) = .ok () (b.put f c) := by rw [requireAddress, if_pos hp]; rfl
  rw [load, bind_of_ok hr]
  exact emitResult_put h ho _ _ .unbounded

theorem store_put (h : b.Hosts f.name) (ho : Open f c) {value ptr : Value} (hp : ptr.isAddress) :
    store value ptr (b.put f c) = .ok () (b.put (f.emit c (.store value ptr)) c) := by
  have hr : requireAddress ptr (b.put f c) = .ok () (b.put f c) := by rw [requireAddress, if_pos hp]; rfl
  rw [store, bind_of_ok hr]
  exact emit_put h ho _

theorem call_put (h : b.Hosts f.name) (ho : Open f c) {callee : String}
    (hc : ((b.put f c).module.function? callee).isSome) (args : List Value) :
    (call callee args) (b.put f c) = .ok (.temp f.temps.length) (b.put (f.result c .f64 (.call · callee args)) c) := by
  obtain ⟨g, hg⟩ := Option.isSome_iff_exists.1 hc
  have hn : functionNamed callee (b.put f c) = .ok g (b.put f c) := by
    have hf : function? callee (b.put f c) = .ok (some g) (b.put f c) := by
      show EStateM.Result.ok ((b.put f c).module.function? callee) _ = _
      rw [hg]
    rw [functionNamed, bind_of_ok hf]
    rfl
  rw [call, bind_of_ok (discard_of_ok hn)]
  exact emitResult_put h ho _ _ .unbounded

theorem br_put (h : b.Hosts f.name) (ho : Open f c) {id : BlockId} {block : Block}
    (hb : f.block? id = some block) : br id (b.put f c) = .ok () (b.put (f.emit c (.br block.label)) c) := by
  rw [br, bind_of_ok (labelOf_put h hb)]
  exact emit_put h ho _

theorem condBr_put (h : b.Hosts f.name) (ho : Open f c) {cond : Value} {id₁ id₂ : BlockId} {block₁ block₂ : Block}
    (h₁ : f.block? id₁ = some block₁) (h₂ : f.block? id₂ = some block₂) :
    condBr cond id₁ id₂ (b.put f c) =
      .ok () (b.put (f.emit c (.condBr cond block₁.label block₂.label)) c) := by
  rw [condBr, bind_of_ok (labelOf_put h h₁), bind_of_ok (labelOf_put h h₂)]
  exact emit_put h ho _

theorem phi_put (h : b.Hosts f.name) (ho : Open f c) {ty : Ty} {v₁ v₂ : Value} {id₁ id₂ : BlockId}
    {block₁ block₂ : Block} (h₁ : f.block? id₁ = some block₁) (h₂ : f.block? id₂ = some block₂) :
    (phi ty [(v₁, id₁), (v₂, id₂)]) (b.put f c) = .ok (.temp f.temps.length)
      (b.put (f.result c ty (.phi · ty [(v₁, block₁.label), (v₂, block₂.label)])) c) := by
  have hl : labelled [(v₁, id₁), (v₂, id₂)] (b.put f c) =
      .ok [(v₁, block₁.label), (v₂, block₂.label)] (b.put f c) := by
    simp only [labelled, bind_of_ok (labelOf_put h h₁), bind_assoc, bind_of_ok (labelOf_put h h₂), pure_bind]
    rfl
  rw [phi, bind_of_ok hl]
  exact emitResult_put h ho _ _ .unbounded

end Build

end Monofloat.Ir
