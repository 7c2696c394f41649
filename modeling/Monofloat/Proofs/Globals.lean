import Monofloat.Proofs.Activations
import Monofloat.Proofs.Moves

/-!
# The globals that a machine holds

Only a store instruction whose operand is the address of a global changes the globals, and it changes one of them. So
a global that has a value keeps having one, through the steps of a run and through the calls that a machine makes one
after the other.
-/

namespace Monofloat

open Monofloat.Ir Monofloat.Machine

namespace Machine

/-! ## Steps -/

/-- The store that a step leaves. -/
def Outcome.store : Outcome → Store
  | running c => c.store
  | finished _ s => s
  | failed _ s => s

section

variable {a a' : Activation} {s s' : Store} {i : Instruction}

/-- What an instruction that another one follows does to the globals. -/
theorem globals_execute (h : a.execute s i = .ok (.next a' s')) : s'.globals = s.globals ∨
    ∃ value ptr name x, i = .store value ptr ∧ a.eval ptr = .ok (.ptr (.global name)) ∧
      s'.globals = Store.setEntry name x s.globals := by
  obtain rfl | ⟨slot, -, rfl⟩ | ⟨value, ptr, address, x, rfl, haddress, hwrite⟩ := store_execute h
  · exact .inl rfl
  · exact .inl rfl
  · cases address with
    | stack index =>
      rw [Store.write] at hwrite
      split at hwrite <;> cases hwrite
      exact .inl rfl
    | global name =>
      cases hwrite
      obtain ⟨r, hr, haddress⟩ := except_bind_eq_ok.1 haddress
      cases r with
      | float | bool => cases haddress
      | ptr target =>
        cases haddress
        exact .inr ⟨value, ptr, name, x, rfl, hr, rfl⟩
    | function name => cases hwrite

/-- What a step does to the globals. -/
theorem globals_next {m : Module} {maxDepth : Nat} {c : Config} {o : Outcome} (h : c.next m maxDepth = some o) :
    o.store.globals = c.store.globals ∨ ∃ value ptr name x rest, c.active.code = .store value ptr :: rest ∧
      c.active.eval ptr = .ok (.ptr (.global name)) ∧ o.store.globals = Store.setEntry name x c.store.globals := by
  obtain ⟨i, rest, hcode, hmove⟩ := Config.move_next h
  cases hmove with
  | next hexecute =>
    obtain hglobals | ⟨value, ptr, name, x, rfl, heval, hglobals⟩ := globals_execute hexecute
    · exact .inl hglobals
    · exact .inr ⟨value, ptr, name, x, rest, hcode, heval, hglobals⟩
  | fault | jump | hosted | opened | returned | finished => exact .inl rfl

end

/-! ## Runs and calls -/

theorem isSome_global?_setEntry {entries : List (String × Float)} {other : String} (h : (entries.lookup other).isSome)
    (name : String) (x : Float) : ((Store.setEntry name x entries).lookup other).isSome := by
  rw [Store.lookup_setEntry]
  split
  · rfl
  · exact h

section

variable {m : Module} {limits : Limits} {name : String}

theorem held_next {maxDepth : Nat} {c : Config} {o : Outcome} (h : c.next m maxDepth = some o)
    (hname : (c.store.global? name).isSome) : (o.store.global? name).isSome := by
  unfold Store.global? at hname ⊢
  obtain hglobals | ⟨_, _, _, _, _, -, -, hglobals⟩ := globals_next h
  · rwa [hglobals]
  · rw [hglobals]
    exact isSome_global?_setEntry hname _ _

/-- Through a run, a global that has a value keeps having one. -/
theorem held_run (k : Nat) {c : Config} (hname : (c.store.global? name).isSome) :
    ((run m limits k c).store.global? name).isSome := by
  induction k generalizing c with
  | zero =>
    rw [run]
    split <;> rwa [Config.global?_unwind]
  | succ k ih =>
    cases ho : c.next m limits.maxDepth with
    | none =>
      rw [Config.next] at ho
      split at ho
      · next hcode =>
        rw [run, hcode]
        dsimp only
        rwa [Config.global?_unwind]
      · cases ho
    | some o =>
      have hheld := held_next ho hname
      rw [run_succ ho]
      cases o with
      | running c' => exact ih hheld
      | finished => exact hheld
      | failed => rwa [Config.resume, Config.global?_unwind]

end

theorem isSome_global?_foldl (gs : List Global) (s : Store) (name : String) :
    ((gs.foldl (fun s g => s.setGlobal g.name g.initial) s).global? name).isSome ↔
      (s.global? name).isSome ∨ ∃ g ∈ gs, g.name = name := by
  induction gs generalizing s with
  | nil => simp
  | cons g gs ih =>
    rw [List.foldl_cons, ih, Store.global?_setGlobal]
    by_cases hg : g.name = name
    · simp [hg]
    · simp [hg, Ne.symm hg]

theorem depth_start (m : Module) (limits : Limits) : (Machine.start m limits).store.depth = 0 := by
  have hfoldl (gs : List Global) (s : Store) :
      (gs.foldl (fun s g => s.setGlobal g.name g.initial) s).depth = s.depth := by
    induction gs generalizing s with
    | nil => rfl
    | cons g gs ih => exact ih _
  exact hfoldl m.globals {}

theorem held_call (M : Machine) (f : String) (args : List Float) {name : String} (h : (M.store.global? name).isSome) :
    ((M.call f args).2.store.global? name).isSome := by
  rw [Machine.call]
  split
  · exact h
  · next value s hinvoke =>
    obtain ⟨-, text, rfl⟩ := invoke_done hinvoke
    exact h
  · exact held_run (c := ⟨_, _, _⟩) M.stepsLeft h

/-- A machine for the module that calls, of any functions with any arguments, have led to. -/
inductive Reached (m : Module) (limits : Limits) : Machine → Prop where
  | start : Reached m limits (.start m limits)
  | call {M : Machine} (h : Reached m limits M) (f : String) (args : List Float) : Reached m limits (M.call f args).2
  | takeOutput {M : Machine} (h : Reached m limits M) : Reached m limits M.takeOutput.2

theorem module_call (M : Machine) (f : String) (args : List Float) : (M.call f args).2.module = M.module := by
  rw [Machine.call]
  split <;> rfl

namespace Reached

variable {m : Module} {limits : Limits} {M : Machine}

theorem module_eq (h : Reached m limits M) : M.module = m := by
  induction h with
  | start => rfl
  | call _ f args ih => rw [module_call, ih]
  | takeOutput _ ih => exact ih

/-- The machine holds the globals of its module. -/
theorem held (h : Reached m limits M) {name : String} (hname : (m.global? name).isSome) :
    (M.store.global? name).isSome := by
  induction h with
  | start =>
    obtain ⟨g, hg⟩ := Option.isSome_iff_exists.1 hname
    exact (isSome_global?_foldl m.globals {} name).2 (.inr ⟨g, List.mem_of_find?_eq_some hg, by
      simpa using List.find?_some hg⟩)
  | call _ f args ih => exact held_call _ f args ih
  | takeOutput _ ih => exact ih

end Reached

end Machine

end Monofloat
