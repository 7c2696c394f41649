import Monofloat.Proofs.Finished
import Monofloat.Proofs.Stepping

/-!
# Activations of complete functions

An activation of a complete function represents a state of evaluation if its stack slots hold the values of the
cells. Here is what single instructions do to that: a read and a write of a variable, an instruction with a result,
and a jump. `Frame` says what does not change on the way: the temporaries below a number, and the memory of the
activations that wait.
-/

namespace Monofloat

open Monofloat.Ir Monofloat.Ir.Function Monofloat.Machine

/-! ## States that are represented -/

/-- The memory cell of the variable with a number: the slot that was reserved last comes first. -/
def cellIndex (f : Function) (a : Activation) (k : Nat) : Nat := a.base + (f.slots.length - 1 - k)

/-- The active activation is one of `f`, and its slots hold the cells. -/
structure Represents (f : Function) (c : Config) (st : EvalState) : Prop where
  blocks : c.active.blocks = f.attached
  size : c.store.memory.size = c.active.base + f.slots.length
  slots : ∀ {k slot}, f.slots.reverse[k]? = some slot → c.active.slots.lookup slot = some (cellIndex f c.active k)
  cells : ∀ {k}, k < f.slots.length → c.store.memory[cellIndex f c.active k]? = some (st.cells k)
  world : st.world.Shows c.store

theorem Machine.Store.lookup_setEntry (name : String) (x : Float) (entries : List (String × Float)) (other : String) :
    (Store.setEntry name x entries).lookup other = if other = name then some x else entries.lookup other := by
  induction entries with
  | nil =>
    by_cases h : other = name
    · simp [Store.setEntry, h]
    · simp [Store.setEntry, List.lookup_cons, beq_false_of_ne h, h]
  | cons entry rest ih =>
    obtain ⟨key, y⟩ := entry
    rw [Store.setEntry]
    by_cases hkey : key = name
    · rw [if_pos hkey, hkey]
      by_cases h : other = name
      · simp [h]
      · simp [List.lookup_cons, beq_false_of_ne h, h]
    · rw [if_neg hkey, List.lookup_cons, List.lookup_cons, ih]
      by_cases h : other = name
      · simp [h, beq_false_of_ne (Ne.symm hkey)]
      · simp [h]

theorem Machine.Store.global?_setGlobal (s : Store) (name : String) (x : Float) (other : String) :
    (s.setGlobal name x).global? other = if other = name then some x else s.global? other :=
  Store.lookup_setEntry name x s.globals other

namespace Represents

variable {f : Function} {c : Config} {st : EvalState}

/-- The cell of a variable that has a value. -/
theorem read (h : Represents f c st) {k : Nat} (hk : k < f.slots.length) {x : Float} (hx : st.cells k = some x) :
    c.store.read (.stack (cellIndex f c.active k)) = .ok x := by
  rw [Store.read, h.cells hk, hx]
  rfl

theorem read_unwritten (h : Represents f c st) {k : Nat} (hk : k < f.slots.length) (hx : st.cells k = none) :
    c.store.read (.stack (cellIndex f c.active k)) = .error (.unwrittenCell (.stack (cellIndex f c.active k))) := by
  rw [Store.read, h.cells hk, hx]
  rfl

theorem cellIndex_lt (h : Represents f c st) {k : Nat} (hk : k < f.slots.length) :
    cellIndex f c.active k < c.store.memory.size := by
  rw [h.size, cellIndex]
  omega

/-- A write to the cell of a variable. -/
theorem write (h : Represents f c st) {k : Nat} (hk : k < f.slots.length) (x : Float) :
    ∃ s, c.store.write (.stack (cellIndex f c.active k)) x = .ok s ∧
      Represents f { c with store := s } { st with cells := fun j => if j = k then some x else st.cells j } ∧
      ∀ i < c.active.base, s.memory[i]? = c.store.memory[i]? := by
  refine ⟨_, if_pos (h.cellIndex_lt hk), ⟨h.blocks, ?_, h.slots, fun {j} hj => ?_,
    ⟨h.world.globals, h.world.output⟩⟩, fun i hi => ?_⟩
  · rw [← h.size]
    exact Array.size_setIfInBounds
  · show (c.store.memory.setIfInBounds _ _)[cellIndex f c.active j]? = some (if j = k then some x else st.cells j)
    rw [Array.getElem?_setIfInBounds]
    by_cases hjk : j = k
    · subst hjk
      simp [h.cellIndex_lt hk]
    · have hne : cellIndex f c.active k ≠ cellIndex f c.active j := by
        unfold cellIndex
        omega
      rw [if_neg hne, if_neg hjk]
      exact h.cells hj
  · show (c.store.memory.setIfInBounds _ _)[i]? = _
    rw [Array.getElem?_setIfInBounds, if_neg]
    unfold cellIndex
    omega

theorem writeGlobal (h : Represents f c st) (name : String) (x : Float) :
    Represents f { c with store := c.store.setGlobal name x } { st with world :=
      { st.world with globals := fun other => if other = name then some x else st.world.globals other } } := by
  refine ⟨h.blocks, h.size, h.slots, h.cells, fun other => ?_, h.world.output⟩
  show (c.store.setGlobal name x).global? other = _
  rw [Store.global?_setGlobal, h.world.globals]

end Represents

/-! ## What does not change -/

/-- From one configuration to the other the active activation stays the same, and the temporaries below `k` and
the memory below its own keep their values. -/
structure Frame (k : Nat) (c c' : Config) : Prop where
  callers : c'.callers = c.callers
  blocks : c'.active.blocks = c.active.blocks
  args : c'.active.args = c.active.args
  base : c'.active.base = c.active.base
  slots : c'.active.slots = c.active.slots
  temps : ∀ id < k, c'.active.temps[id]? = c.active.temps[id]?
  memory : ∀ i < c.active.base, c'.store.memory[i]? = c.store.memory[i]?

namespace Frame

variable {j k : Nat} {c c' c'' : Config}

theorem refl (k : Nat) (c : Config) : Frame k c c := ⟨rfl, rfl, rfl, rfl, rfl, fun _ _ => rfl, fun _ _ => rfl⟩

theorem trans (h : Frame j c c') (h' : Frame k c' c'') (hjk : j ≤ k) : Frame j c c'' :=
  ⟨h'.callers.trans h.callers, h'.blocks.trans h.blocks, h'.args.trans h.args, h'.base.trans h.base,
    h'.slots.trans h.slots, fun id hid => (h'.temps id (by omega)).trans (h.temps id hid),
    fun i hi => (h'.memory i (by rw [h.base]; exact hi)).trans (h.memory i hi)⟩

/-- An operand of the function keeps its value. -/
theorem eval_eq {m : Module} {f : Function} {v : Value} {ty : Ty} (h : Frame k c c') (hv : HasType m f v ty)
    (hk : f.temps.length ≤ k) : c'.active.eval v = c.active.eval v := by
  cases hv with
  | constFloat | constBool | global | function => rfl
  | param => simp only [Activation.eval, h.args]
  | slot => simp only [Activation.eval, h.slots]
  | @temp id ty hid =>
    have hlt : id < f.temps.length := (List.getElem?_eq_some_iff.1 hid).1
    simp only [Activation.eval, h.temps id (by omega)]

theorem represents (h : Frame k c c') (hs : c'.store = c.store) {f : Function} {st : EvalState}
    (hr : Represents f c st) : Represents f c' st := by
  refine ⟨h.blocks.trans hr.blocks, ?_, fun hslot => ?_, fun hk => ?_, hs ▸ hr.world⟩
  · rw [hs, h.base, hr.size]
  · rw [h.slots, hr.slots hslot]
    simp only [cellIndex, h.base]
  · rw [hs, ← hr.cells hk]
    simp only [cellIndex, h.base]

theorem setTemp (c : Config) (rest : List Instruction) {dest : Nat} (hk : k ≤ dest) (r : RtValue) :
    Frame k c { c with active := { c.active with code := rest }.setTemp dest r } := by
  refine ⟨rfl, rfl, rfl, rfl, rfl, fun id hid => ?_, fun _ _ => rfl⟩
  show (c.active.temps.insert dest r)[id]? = _
  rw [Std.TreeMap.getElem?_insert, if_neg]
  rw [Nat.compare_eq_eq]
  omega

end Frame

theorem Machine.Activation.eval_setTemp (a : Activation) (dest : Nat) (r : RtValue) :
    (a.setTemp dest r).eval (.temp dest) = .ok r := by
  simp [Activation.eval, Activation.setTemp]

/-! ## Single instructions -/

namespace Machine.Activation

variable {a : Activation} {s : Store} {dest : Nat} {v w : Value} {x y : Float} {p q : Bool}

theorem execute_binary (op : BinaryOp) (hv : a.eval v = .ok (.float x)) (hw : a.eval w = .ok (.float y)) :
    a.execute s (.binary dest op v w) = .ok (.next (a.setTemp dest (.float (op.apply x y))) s) := by
  simp only [execute, evalFloat, hv, hw]
  rfl

theorem execute_compare (op : CompareOp) (hv : a.eval v = .ok (.float x)) (hw : a.eval w = .ok (.float y)) :
    a.execute s (.compare dest op v w) = .ok (.next (a.setTemp dest (.bool (op.apply x y))) s) := by
  simp only [execute, evalFloat, hv, hw]
  rfl

theorem execute_logical (op : LogicalOp) (hv : a.eval v = .ok (.bool p)) (hw : a.eval w = .ok (.bool q)) :
    a.execute s (.logical dest op v w) = .ok (.next (a.setTemp dest (.bool (op.apply p q))) s) := by
  simp only [execute, evalBool, hv, hw]
  rfl

theorem execute_neg (hv : a.eval v = .ok (.float x)) :
    a.execute s (.neg dest v) = .ok (.next (a.setTemp dest (.float (-x))) s) := by
  simp only [execute, evalFloat, hv]
  rfl

theorem execute_not (hv : a.eval v = .ok (.bool p)) :
    a.execute s (.not dest v) = .ok (.next (a.setTemp dest (.bool (!p))) s) := by
  simp only [execute, evalBool, hv]
  rfl

theorem execute_boolToFloat (hv : a.eval v = .ok (.bool p)) :
    a.execute s (.boolToFloat dest v) = .ok (.next (a.setTemp dest (.float (if p then 1 else 0))) s) := by
  simp only [execute, evalBool, hv]
  rfl

theorem execute_load {address : Address} (hv : a.eval v = .ok (.ptr address)) :
    a.execute s (.load dest v) = (s.read address).map fun x => .next (a.setTemp dest (.float x)) s := by
  simp only [execute, evalAddress, hv]
  show (s.read address >>= fun x => pure (Effect.next (a.setTemp dest (.float x)) s)) = _
  cases s.read address <;> rfl

theorem execute_store {address : Address} {s' : Store} (hv : a.eval v = .ok (.float x))
    (hw : a.eval w = .ok (.ptr address)) (hs : s.write address x = .ok s') :
    a.execute s (.store v w) = .ok (.next a s') := by
  simp only [execute, evalFloat, evalAddress, hv, hw]
  show (s.write address x >>= _) = _
  rw [hs]
  rfl

theorem execute_ret (hv : a.eval v = .ok (.float x)) : a.execute s (.ret v) = .ok (.ret x) := by
  simp only [execute, evalFloat, hv]
  rfl

theorem execute_call {callee : String} {args : List Value} {xs : List Float} (hargs : a.evalFloats args = .ok xs) :
    a.execute s (.call dest callee args) = .ok (.call dest callee xs) := by
  simp only [execute, hargs]
  rfl

theorem execute_condBr (hv : a.eval v = .ok (.bool p)) (l₁ l₂ : String) :
    a.execute s (.condBr v l₁ l₂) = .ok (.jump (if p then l₁ else l₂)) := by
  simp only [execute, evalBool, hv]
  rfl

end Machine.Activation

/-! ## Jumps -/

section

variable {m : Module} {f : Function} {a : Activation} {id : BlockId} {b : Block}

theorem Ir.Function.Complete.find?_attached (h : f.Complete m) (hb : f.block? id = some b) :
    f.attached.find? (·.label = b.label) = some b := by
  cases hfind : f.attached.find? (·.label = b.label) with
  | none =>
    have := List.find?_eq_none.1 hfind b (h.mem_attached_iff.2 ⟨id, hb⟩)
    simp at this
  | some b' =>
    obtain ⟨id', hb'⟩ := h.mem_attached_iff.1 (List.mem_of_find?_eq_some hfind)
    have hlabel : b'.label = b.label := by
      have := List.find?_some hfind
      simpa using this
    rw [h.named.id_eq hb' hb hlabel, hb] at hb'
    rw [hb']

theorem Ir.Function.Complete.instructions_eq_body (h : f.Complete m) (hb : f.block? id = some b) (hid : id ≠ ⟨0⟩) :
    b.instructions = b.body := by
  rw [(h.tidy hb).instructions_eq, h.slots_nil hb hid]
  rfl

theorem resolvePhis_eq_nil (a : Activation) (block source : String) {is : List Instruction}
    (h : ∀ i ∈ is.head?, i.isPhi = false) : a.resolvePhis block source is = .ok [] := by
  match is with
  | [] => rfl
  | i :: is =>
    have := h i rfl
    cases i with
    | phi => cases this
    | _ => rfl

/-- A jump to a block without a phi. -/
theorem jump_eq (h : f.Complete m) (ha : a.blocks = f.attached) (hb : f.block? id = some b) (hid : id ≠ ⟨0⟩)
    (hphi : ∀ i ∈ b.body, i.isPhi = false) : a.jump b.label = .ok { a with label := b.label, code := b.body } := by
  have hresolve : a.resolvePhis b.label a.label b.body = .ok [] :=
    resolvePhis_eq_nil a _ _ fun i hi => hphi i (List.mem_of_mem_head? hi)
  rw [Activation.jump, show a.blocks.find? (·.label = b.label) = some b from ha ▸ h.find?_attached hb]
  simp only [Activation.enter, h.instructions_eq_body hb hid, hresolve]
  rfl

/-- A jump to a block with a phi. -/
theorem jump_phi (h : f.Complete m) (ha : a.blocks = f.attached) (hb : f.block? id = some b) (hid : id ≠ ⟨0⟩)
    {dest : Nat} {ty : Ty} {incoming : List (Value × String)} {rest : List Instruction}
    (hbody : b.body = .phi dest ty incoming :: rest) {v : Value} {l : String} {r : RtValue}
    (hfind : incoming.find? (·.2 = a.label) = some (v, l)) (hv : a.eval v = .ok r) :
    a.jump b.label = .ok { a.setTemp dest r with label := b.label, code := b.body } := by
  have hrest : a.resolvePhis b.label a.label rest = .ok [] := by
    refine resolvePhis_eq_nil a _ _ fun i hi => (h.tidy hb).phi_first i ?_
    rw [hbody]
    exact List.mem_of_mem_head? hi
  have hresolve : a.resolvePhis b.label a.label b.body = .ok [(dest, r)] := by
    rw [hbody, Activation.resolvePhis, Activation.resolvePhi, hfind]
    dsimp only
    rw [hv, hrest]
    rfl
  rw [Activation.jump, show a.blocks.find? (·.label = b.label) = some b from ha ▸ h.find?_attached hb]
  simp only [Activation.enter, h.instructions_eq_body hb hid, hresolve]
  rfl

end

end Monofloat
