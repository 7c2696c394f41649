import Monofloat.Machine.Run
import Monofloat.Proofs.Evaluation

/-!
# Runs of the machine, and evaluation

`Steps` are instructions executed one after the other. `Leads` compares a configuration with an evaluation: where
the evaluation has a value, the machine comes to a configuration that agrees with it; where the evaluation stops,
a fault of the same kind occurs; where it needs more fuel, the machine goes on for at least as many steps as there
was fuel. `Leads` goes through an evaluation from its front (`Leads.bind`) and through a run from its front
(`Leads.step`).
-/

namespace Monofloat.Machine

open Monofloat.Ir

/-! ## Stores -/

theorem Store.depth_write {s s' : Store} {address : Address} {x : Float}
    (h : s.write address x = .ok s') : s'.depth = s.depth := by
  cases address with
  | stack index =>
    rw [Store.write] at h
    split at h <;> cases h
    rfl
  | global name =>
    cases h
    rfl
  | function name => cases h

/-- A fault leaves the globals and the output as they are. -/
theorem Config.unwind_eq (c : Config) (s : Store) :
    ∃ memory depth, c.unwind s = { s with memory := memory, depth := depth } := by
  unfold Config.unwind
  generalize c.activations = as
  induction as generalizing s with
  | nil => exact ⟨s.memory, s.depth, rfl⟩
  | cons a as ih =>
    obtain ⟨memory, depth, heq⟩ := ih (s.close a.base)
    exact ⟨memory, depth, heq⟩

theorem Config.globals_unwind (c : Config) (s : Store) : (c.unwind s).globals = s.globals := by
  obtain ⟨memory, depth, heq⟩ := c.unwind_eq s
  rw [heq]

theorem Config.global?_unwind (c : Config) (s : Store) (name : String) :
    (c.unwind s).global? name = s.global? name := by
  rw [Store.global?, Store.global?, c.globals_unwind]

/-! ## Steps -/

/-- What the next instruction comes to; nothing at the end of a block. -/
def Config.next (m : Module) (maxDepth : Nat) (c : Config) : Option Outcome :=
  match c.active.code with
  | [] => none
  | i :: rest => some (Config.execute m maxDepth { c with active := { c.active with code := rest } } i)

/-- So many instructions lead from one configuration to the other. -/
inductive Steps (m : Module) (maxDepth : Nat) : Nat → Config → Config → Prop where
  | refl (c : Config) : Steps m maxDepth 0 c c
  | step {n c c₁ c₂} : c.next m maxDepth = some (.running c₁) → Steps m maxDepth n c₁ c₂ →
      Steps m maxDepth (n + 1) c c₂

/-- The result of a run, from what its first step, made from `c`, has come to. -/
def Config.resume (m : Module) (limits : Limits) (stepsLeft : Nat) (c : Config) : Outcome → RunResult
  | .running c' => run m limits stepsLeft c'
  | .finished value s => ⟨.ok value, s, stepsLeft⟩
  | .failed fault s => ⟨.error fault, c.unwind s, stepsLeft⟩

section

variable {m : Module} {maxDepth j k n : Nat} {c c₁ c₂ c₃ : Config}

theorem Steps.trans (h : Steps m maxDepth j c₁ c₂) (h' : Steps m maxDepth k c₂ c₃) :
    Steps m maxDepth (k + j) c₁ c₃ := by
  induction h with
  | refl => exact h'
  | step hnext _ ih => exact .step hnext (ih h')

/-- Fewer steps can be made as well. -/
theorem Steps.take (h : Steps m maxDepth n c₁ c₂) (hk : k ≤ n) : ∃ c, Steps m maxDepth k c₁ c := by
  induction h generalizing k with
  | refl c => exact ⟨c, by rw [Nat.le_zero.1 hk]; exact .refl c⟩
  | @step n c c' c'' hnext _ ih =>
    cases k with
    | zero => exact ⟨c, .refl c⟩
    | succ k =>
      obtain ⟨c₂, h₂⟩ := ih (Nat.le_of_succ_le_succ hk)
      exact ⟨c₂, .step hnext h₂⟩

/-! ## Runs -/

variable {limits : Limits}

theorem run_succ {o : Outcome} (h : c.next m limits.maxDepth = some o) (n : Nat) :
    run m limits (n + 1) c = c.resume m limits n o := by
  unfold Config.next at h
  rw [run]
  cases hcode : c.active.code with
  | nil => rw [hcode] at h; cases h
  | cons i rest =>
    rw [hcode] at h
    rw [← Option.some.inj h]
    dsimp only
    cases Config.execute m limits.maxDepth { c with active := { c.active with code := rest } } i <;> rfl

theorem run_zero {o : Outcome} (h : c.next m limits.maxDepth = some o) :
    run m limits 0 c = ⟨.error (.stepLimit limits.maxSteps), c.unwind c.store, 0⟩ := by
  unfold Config.next at h
  rw [run]
  cases hcode : c.active.code with
  | nil => rw [hcode] at h; cases h
  | cons i rest => rfl

theorem Steps.run_add (h : Steps m limits.maxDepth n c₁ c₂) (k : Nat) :
    run m limits (k + n) c₁ = run m limits k c₂ := by
  induction h with
  | refl => rfl
  | step hnext _ ih =>
    rw [← Nat.add_assoc, run_succ hnext]
    exact ih

/-- A configuration that something follows, but not within the steps left. -/
theorem Steps.run_of_le {o : Outcome} (h : Steps m limits.maxDepth n c₁ c₂)
    (ho : c₂.next m limits.maxDepth = some o) (hk : k ≤ n) :
    (run m limits k c₁).result = .error (.stepLimit limits.maxSteps) := by
  induction h generalizing k with
  | refl c =>
    rw [Nat.le_zero.1 hk, run_zero ho]
  | step hnext _ ih =>
    cases k with
    | zero => rw [run_zero hnext]
    | succ k =>
      rw [run_succ hnext]
      exact ih ho (Nat.le_of_succ_le_succ hk)

end

end Monofloat.Machine

namespace Monofloat

open Monofloat.Machine Monofloat.Ir

/-! ## Evaluation and the machine -/

/-- The fault that a stop shows up as, with a store left behind. -/
inductive Stop.Matches (m : Module) (s : Store) : Stop → Fault → Prop where
  | unwrittenLocal (index : Nat) : Stop.Matches m s .unwrittenLocal (.unwrittenCell (.stack index))
  | unwrittenGlobal {name : String} (hglobal : (m.global? name).isSome) (hnone : s.global? name = none) :
      Stop.Matches m s (.unwrittenGlobal name) (.unwrittenCell (.global name))
  | unresolvedExternal {name : String} {f : Function} (hf : m.function? name = some f) (hempty : f.attached = []) :
      Stop.Matches m s (.unresolvedExternal name) (.unresolvedExternal name)
  | tooDeep (limit : Nat) : Stop.Matches m s (.tooDeep limit) (.stackOverflow limit)

/-- The store has the globals and the output of the world. -/
structure World.Shows (w : World) (s : Store) : Prop where
  globals : ∀ name, s.global? name = w.globals name
  output : s.output = w.output

/-- The machine agrees with an evaluation that has come to `o`; `Q` says how it does with a value. -/
def Leads {α : Type} (m : Module) (maxDepth fuel : Nat) (c : Config) (o : Option (Except Stop α × EvalState))
    (Q : α → EvalState → Config → Prop) : Prop :=
  match o with
  | none => ∃ c', Steps m maxDepth fuel c c'
  | some (.error stop, st) => ∃ n c' fault s, Steps m maxDepth n c c' ∧
      c'.next m maxDepth = some (.failed fault s) ∧ stop.Matches m s fault ∧ st.world.Shows s
  | some (.ok a, st) => ∃ n c', Steps m maxDepth n c c' ∧ Q a st c'

theorem Eval.bind_apply {α β : Type} (x : Eval α) (f : α → Eval β) (st : EvalState) :
    (x >>= f) st = match x st with
      | none => none
      | some (.error stop, st') => some (.error stop, st')
      | some (.ok a, st') => f a st' := by
  show (x st).bind _ = _
  cases x st with
  | none => rfl
  | some r => obtain ⟨_ | _, _⟩ := r <;> rfl

theorem Eval.readCell_apply (k : Nat) (st : EvalState) : Eval.readCell k st =
    some ((st.cells k).elim (.error .unwrittenLocal) .ok, st) := by
  have hget : (get : Eval EvalState) st = some (.ok st, st) := rfl
  rw [Eval.readCell, Eval.bind_apply, hget]
  dsimp only
  cases st.cells k <;> rfl

theorem Eval.readGlobal_apply (name : String) (st : EvalState) : Eval.readGlobal name st =
    some ((st.world.globals name).elim (.error (.unwrittenGlobal name)) .ok, st) := by
  have hget : (get : Eval EvalState) st = some (.ok st, st) := rfl
  rw [Eval.readGlobal, Eval.bind_apply, hget]
  dsimp only
  cases st.world.globals name <;> rfl

namespace Leads

variable {α β : Type} {m : Module} {maxDepth fuel : Nat} {c c' : Config} {o : Option (Except Stop α × EvalState)}
  {st : EvalState} {P : α → EvalState → Config → Prop} {Q : β → EvalState → Config → Prop}

theorem pure {a : α} (h : P a st c) : Leads m maxDepth fuel c ((pure a : Eval α) st) P := ⟨0, c, .refl c, h⟩

theorem steps {n : Nat} (hs : Steps m maxDepth n c c') (h : Leads m maxDepth fuel c' o P) :
    Leads m maxDepth fuel c o P := by
  match o with
  | none =>
    obtain ⟨c₂, h₂⟩ := h
    exact (hs.trans h₂).take (Nat.le_add_right _ _)
  | some (.error stop, st) =>
    obtain ⟨k, c₂, fault, s, h₂, hfault⟩ := h
    exact ⟨_, c₂, fault, s, hs.trans h₂, hfault⟩
  | some (.ok a, st) =>
    obtain ⟨k, c₂, h₂, hP⟩ := h
    exact ⟨_, c₂, hs.trans h₂, hP⟩

theorem step (hnext : c.next m maxDepth = some (.running c')) (h : Leads m maxDepth fuel c' o P) :
    Leads m maxDepth fuel c o P := h.steps (.step hnext (.refl c'))

/-- A step is worth one unit of fuel. -/
theorem step_succ (hnext : c.next m maxDepth = some (.running c')) (h : Leads m maxDepth fuel c' o P) :
    Leads m maxDepth (fuel + 1) c o P := by
  match o with
  | none =>
    obtain ⟨c₂, h₂⟩ := h
    exact ⟨c₂, .step hnext h₂⟩
  | some (.error stop, st) =>
    obtain ⟨k, c₂, fault, s, h₂, hfault⟩ := h
    exact ⟨_, c₂, fault, s, .step hnext h₂, hfault⟩
  | some (.ok a, st) =>
    obtain ⟨k, c₂, h₂, hP⟩ := h
    exact ⟨_, c₂, .step hnext h₂, hP⟩

theorem le_fuel (h : Leads m maxDepth fuel c o P) {k : Nat} (hk : k ≤ fuel) : Leads m maxDepth k c o P := by
  match o, h with
  | none, ⟨c', h'⟩ => exact h'.take hk
  | some (.error stop, st), h => exact h
  | some (.ok a, st), h => exact h

/-- The evaluation goes on where the machine has come to. -/
theorem bind {x : Eval α} {f : α → Eval β} (h : Leads m maxDepth fuel c (x st) P)
    (hf : ∀ a st' c', P a st' c' → Leads m maxDepth fuel c' (f a st') Q) :
    Leads m maxDepth fuel c ((x >>= f) st) Q := by
  rw [Eval.bind_apply]
  match x st, h with
  | none, h => exact h
  | some (.error stop, st), h => exact h
  | some (.ok a, st), ⟨n, c', hs, hP⟩ => exact (hf a st c' hP).steps hs

/-- The machine goes on alone. -/
theorem andThen {Q : α → EvalState → Config → Prop} (h : Leads m maxDepth fuel c o P)
    (hQ : ∀ a st' c', P a st' c' → ∃ n c'', Steps m maxDepth n c' c'' ∧ Q a st' c'') :
    Leads m maxDepth fuel c o Q := by
  match o, h with
  | none, h => exact h
  | some (.error stop, st), h => exact h
  | some (.ok a, st), ⟨n, c', hs, hP⟩ =>
    obtain ⟨k, c'', hs', hQ'⟩ := hQ a st c' hP
    exact ⟨_, c'', hs.trans hs', hQ'⟩

theorem imp {Q : α → EvalState → Config → Prop} (h : Leads m maxDepth fuel c o P)
    (hQ : ∀ a st' c', P a st' c' → Q a st' c') : Leads m maxDepth fuel c o Q :=
  h.andThen fun a st' c' hP => ⟨0, c', .refl c', hQ a st' c' hP⟩

/-- The state of the evaluation is seen another way. -/
theorem map {Q : α → EvalState → Config → Prop} {g : EvalState → EvalState} (hg : ∀ st, (g st).world = st.world)
    (h : Leads m maxDepth fuel c o fun a st => Q a (g st)) :
    Leads m maxDepth fuel c (o.map fun (r, st) => (r, g st)) Q := by
  match o, h with
  | none, h => exact h
  | some (.error stop, st), ⟨n, c', fault, s, hs, hnext, hmatch, hw⟩ =>
    exact ⟨n, c', fault, s, hs, hnext, hmatch, (hg st).symm ▸ hw⟩
  | some (.ok a, st), h => exact h

/-- The next instruction is at fault. -/
theorem fault {s : Store} {fault : Fault} {stop : Stop} (hnext : c.next m maxDepth = some (.failed fault s))
    (hm : stop.Matches m s fault) (hw : st.world.Shows s) :
    Leads m maxDepth fuel c ((throw stop : Eval α) st) P := ⟨0, c, fault, s, .refl c, hnext, hm, hw⟩

end Leads

end Monofloat
