import Monofloat.Proofs.Sequencing
import Monofloat.Proofs.Stepping

/-!
# What a step can do

`Config.Move` lists what executing an instruction can come to, by what the instruction asks for: a fault, the next
instruction of the block, a jump, a call of a host function, a new activation, or the return from one. What holds of
all steps is shown by cases on it.
-/

namespace Monofloat.Machine

open Monofloat.Ir

/-! ## Faults of steps -/

/-- The computation does not fail for the lack of steps. -/
def Unlimited {α : Type} (x : Except Fault α) : Prop := ∀ budget, x ≠ .error (.stepLimit budget)

namespace Unlimited

variable {α β : Type}

theorem ok (a : α) : Unlimited (.ok a) := fun _ h => by cases h

theorem bind {x : Except Fault α} {f : α → Except Fault β} (hx : Unlimited x) (hf : ∀ a, Unlimited (f a)) :
    Unlimited (x >>= f) := by
  cases x with
  | ok a => exact hf a
  | error fault => exact fun budget h => hx budget (by cases h; rfl)

end Unlimited

section

variable (a : Activation) (s : Store)

theorem Store.unlimited_read (address : Address) : Unlimited (s.read address) := by
  unfold Store.read
  dsimp only
  split
  · exact .ok _
  · exact fun _ h => by cases h

theorem Store.unlimited_write (address : Address) (x : Float) : Unlimited (s.write address x) := by
  cases address with
  | stack index =>
    rw [Store.write]
    split
    · exact .ok _
    · exact fun _ h => by cases h
  | global name => exact .ok _
  | function name => exact fun _ h => by cases h

namespace Activation

theorem unlimited_eval (v : Value) : Unlimited (a.eval v) := by
  unfold Activation.eval
  dsimp only
  split
  · exact .ok _
  · exact fun _ h => by cases h

theorem unlimited_evalFloat (v : Value) : Unlimited (a.evalFloat v) :=
  (a.unlimited_eval v).bind fun r => by
    cases r with
    | float x => exact .ok x
    | bool | ptr => exact fun _ h => by cases h

theorem unlimited_evalBool (v : Value) : Unlimited (a.evalBool v) :=
  (a.unlimited_eval v).bind fun r => by
    cases r with
    | bool b => exact .ok b
    | float | ptr => exact fun _ h => by cases h

theorem unlimited_evalAddress (v : Value) : Unlimited (a.evalAddress v) :=
  (a.unlimited_eval v).bind fun r => by
    cases r with
    | ptr address => exact .ok address
    | float | bool => exact fun _ h => by cases h

theorem unlimited_evalFloats (vs : List Value) : Unlimited (a.evalFloats vs) := by
  induction vs with
  | nil => exact .ok []
  | cons v vs ih => exact (a.unlimited_evalFloat v).bind fun x => ih.bind fun xs => .ok (x :: xs)

theorem unlimited_execute (i : Instruction) : Unlimited (a.execute s i) := by
  cases i with
  | alloca | phi | br => exact .ok _
  | store value ptr =>
    exact (a.unlimited_evalFloat value).bind fun x => (a.unlimited_evalAddress ptr).bind fun address =>
      (s.unlimited_write address x).bind fun _ => .ok _
  | load dest ptr =>
    exact (a.unlimited_evalAddress ptr).bind fun address => (s.unlimited_read address).bind fun _ => .ok _
  | binary | compare =>
    exact (a.unlimited_evalFloat _).bind fun _ => (a.unlimited_evalFloat _).bind fun _ => .ok _
  | logical => exact (a.unlimited_evalBool _).bind fun _ => (a.unlimited_evalBool _).bind fun _ => .ok _
  | neg | ret => exact (a.unlimited_evalFloat _).bind fun _ => .ok _
  | not | boolToFloat | condBr => exact (a.unlimited_evalBool _).bind fun _ => .ok _
  | call dest callee args => exact (a.unlimited_evalFloats args).bind fun _ => .ok _

theorem unlimited_resolvePhis (block source : String) (is : List Instruction) :
    Unlimited (a.resolvePhis block source is) := by
  induction is with
  | nil => exact .ok []
  | cons i rest ih =>
    cases i with
    | phi dest ty incoming =>
      have hphi : Unlimited (a.resolvePhi block source incoming) := by
        unfold Activation.resolvePhi
        split
        · exact a.unlimited_eval _
        · exact fun _ h => by cases h
      exact hphi.bind fun v => ih.bind fun vs => .ok _
    | _ => exact .ok []

theorem unlimited_enter (b : Block) (source : String) : Unlimited (a.enter b source) :=
  (a.unlimited_resolvePhis b.label source b.instructions).bind fun _ => .ok _

theorem unlimited_jump (label : String) : Unlimited (a.jump label) := by
  unfold Activation.jump
  split
  · exact a.unlimited_enter _ _
  · exact fun _ h => by cases h

end Activation

theorem unlimited_invoke (m : Module) (maxDepth : Nat) (name : String) (args : List Float) :
    Unlimited (invoke m maxDepth s name args) := by
  unfold invoke
  split
  · exact fun _ h => by cases h
  · split
    · exact fun _ h => by cases h
    · split
      · split
        · exact .ok _
        · exact fun _ h => by cases h
      · split
        · exact fun _ h => by cases h
        · exact (Activation.unlimited_enter _ _ _).bind fun _ => .ok _

end

/-! ## Instructions -/

section

variable {a a' : Activation} {s s' : Store} {i : Instruction}

/-- What an instruction that another one follows does to the store. -/
theorem store_execute (h : a.execute s i = .ok (.next a' s')) :
    s' = s ∨ (∃ slot, i = .alloca slot ∧ s' = { s with memory := s.memory.push none }) ∨
      ∃ value ptr address x, i = .store value ptr ∧ a.evalAddress ptr = .ok address ∧ s.write address x = .ok s' := by
  cases i with
  | alloca slot =>
    cases h
    exact .inr (.inl ⟨slot, rfl, rfl⟩)
  | store value ptr =>
    simp only [Activation.execute, except_bind_eq_ok] at h
    obtain ⟨x, -, address, haddress, s₁, hwrite, hnext⟩ := h
    cases hnext
    exact .inr (.inr ⟨value, ptr, address, x, rfl, haddress, hwrite⟩)
  | phi =>
    cases h
    exact .inl rfl
  | br => cases h
  | call | ret | condBr =>
    simp only [Activation.execute, except_bind_eq_ok] at h
    obtain ⟨_, -, h⟩ := h
    cases h
  | neg | not | boolToFloat =>
    simp only [Activation.execute, except_bind_eq_ok] at h
    obtain ⟨_, -, h⟩ := h
    cases h
    exact .inl rfl
  | load | binary | compare | logical =>
    simp only [Activation.execute, except_bind_eq_ok] at h
    obtain ⟨_, -, _, -, h⟩ := h
    cases h
    exact .inl rfl

theorem depth_execute (h : a.execute s i = .ok (.next a' s')) : s'.depth = s.depth := by
  obtain rfl | ⟨slot, -, rfl⟩ | ⟨_, _, _, _, -, -, hwrite⟩ := store_execute h
  · rfl
  · rfl
  · exact Store.depth_write hwrite

theorem Activation.base_foldl_setTemp (a : Activation) (values : List (Nat × RtValue)) :
    (values.foldl (fun a (dest, v) => a.setTemp dest v) a).base = a.base := by
  induction values generalizing a with
  | nil => rfl
  | cons p values ih => exact ih _

theorem Activation.base_enter {b : Block} {source : String} (h : a.enter b source = .ok a') : a'.base = a.base := by
  obtain ⟨values, -, h⟩ := except_bind_eq_ok.1 h
  cases h
  exact a.base_foldl_setTemp values

end

/-! ## Calls -/

section

variable {m : Module} {maxDepth : Nat} {s s' : Store} {name : String} {args : List Float}

/-- A host function stands for a function without a body, and only prints. -/
theorem invoke_done {value : Float} (h : invoke m maxDepth s name args = .ok (.done value s')) :
    (∃ f, m.function? name = some f ∧ f.attached = []) ∧ ∃ text, s' = s.print text := by
  unfold invoke at h
  split at h
  · cases h
  · next f hf =>
    split at h
    · cases h
    · split at h
      · next hattached =>
        split at h
        · cases h
          exact ⟨⟨f, hf, hattached⟩, _, rfl⟩
        · cases h
      · split at h
        · cases h
        · obtain ⟨_, -, h⟩ := except_bind_eq_ok.1 h
          cases h

/-- A new activation is at the entry of the function, and has no slots yet. -/
theorem invoke_opened {a : Activation} (h : invoke m maxDepth s name args = .ok (.opened a)) :
    s.depth < maxDepth ∧ ∃ (f : Function) (entry : Block), m.function? name = some f ∧ f.attached.head? = some entry ∧
      ({ function := f.name, blocks := f.attached, args := args, base := s.memory.size } : Activation).enter entry "" =
        .ok a := by
  unfold invoke at h
  split at h
  · cases h
  · next f hf =>
    split at h
    · cases h
    · split at h
      · split at h <;> cases h
      · next entry others hattached =>
        split at h
        · cases h
        · next hdepth =>
          obtain ⟨a', henter, h⟩ := except_bind_eq_ok.1 h
          cases h
          exact ⟨Nat.lt_of_not_le hdepth, f, entry, hf, by rw [hattached]; rfl, by rw [hattached, henter]⟩

theorem base_of_invoke {a : Activation} (h : invoke m maxDepth s name args = .ok (.opened a)) :
    a.base = s.memory.size := by
  obtain ⟨-, f, entry, -, -, henter⟩ := invoke_opened h
  exact Activation.base_enter henter

/-- An activation that has just been opened is closed again. -/
theorem close_deeper {a : Activation} (h : invoke m maxDepth s name args = .ok (.opened a)) :
    s.deeper.close a.base = s := by
  rw [base_of_invoke h]
  simp [Store.deeper, Store.close]

end

/-! ## Steps -/

/-- What executing the instruction `i` can come to, `c` being the configuration behind it. -/
inductive Config.Move (m : Module) (maxDepth : Nat) (c : Config) (i : Instruction) : Outcome → Prop where
  | fault {fault} (h : ∀ budget, fault ≠ .stepLimit budget) : Move m maxDepth c i (.failed fault c.store)
  | next {a s} (h : c.active.execute c.store i = .ok (.next a s)) :
      Move m maxDepth c i (.running { c with store := s, active := a })
  | jump {label a} (h : c.active.jump label = .ok a) (hi : c.active.execute c.store i = .ok (.jump label)) :
      Move m maxDepth c i (.running { c with active := a })
  | hosted (dest : Nat) (value : Float) (text : String) {callee args}
      (hi : c.active.execute c.store i = .ok (.call dest callee args)) :
      Move m maxDepth c i
        (.running { c with store := c.store.print text, active := c.active.setTemp dest (.float value) })
  | opened (dest : Nat) {callee args a} (h : invoke m maxDepth c.store callee args = .ok (.opened a))
      (hi : c.active.execute c.store i = .ok (.call dest callee args)) :
      Move m maxDepth c i
        (.running { c with store := c.store.deeper, active := a, callers := (dest, c.active) :: c.callers })
  | returned (value : Float) {dest caller callers} (h : c.callers = (dest, caller) :: callers)
      (hi : c.active.execute c.store i = .ok (.ret value)) :
      Move m maxDepth c i
        (.running ⟨c.store.close c.active.base, caller.setTemp dest (.float value), callers⟩)
  | finished (value : Float) (h : c.callers = []) (hi : c.active.execute c.store i = .ok (.ret value)) :
      Move m maxDepth c i (.finished value (c.store.close c.active.base))

namespace Config

variable {m : Module} {maxDepth : Nat} {c : Config} {i : Instruction}

theorem move_call {dest : Nat} {callee : String} {args : List Float}
    (hi : c.active.execute c.store i = .ok (.call dest callee args)) :
    Move m maxDepth c i (c.call m maxDepth dest callee args) := by
  unfold Config.call
  split
  · next fault h =>
    exact .fault fun budget hfault => unlimited_invoke c.store m maxDepth callee args budget (hfault ▸ h)
  · next value s h =>
    obtain ⟨-, text, rfl⟩ := invoke_done h
    exact .hosted dest value text hi
  · next a h => exact .opened dest h hi

theorem move_leave {value : Float} (hi : c.active.execute c.store i = .ok (.ret value)) :
    Move m maxDepth c i (c.leave value) := by
  unfold Config.leave
  dsimp only
  split
  · next h => exact .finished value h hi
  · next h => exact .returned value h hi

theorem move_execute (m : Module) (maxDepth : Nat) (c : Config) (i : Instruction) :
    Move m maxDepth c i (Config.execute m maxDepth c i) := by
  unfold Config.execute
  split
  · next fault h => exact .fault fun budget hfault => c.active.unlimited_execute c.store i budget (hfault ▸ h)
  · next h => exact .next h
  · next hi =>
    split
    · next fault h => exact .fault fun budget hfault => c.active.unlimited_jump _ budget (hfault ▸ h)
    · next h => exact .jump h hi
  · next hi => exact move_call hi
  · next hi => exact move_leave hi

/-- The configuration behind the next instruction. -/
def behind (c : Config) (rest : List Instruction) : Config := { c with active := { c.active with code := rest } }

/-- What the next step can do. -/
theorem move_next {o : Outcome} (h : c.next m maxDepth = some o) :
    ∃ i rest, c.active.code = i :: rest ∧ Move m maxDepth (c.behind rest) i o := by
  unfold Config.next at h
  split at h
  · cases h
  · next i rest hcode =>
    cases h
    exact ⟨i, rest, hcode, move_execute m maxDepth _ i⟩

end Config

end Monofloat.Machine
