import Monofloat.Proofs.Globals

/-!
# Budgets bound every run

`Passes` says which configurations a call comes to, one instruction after the other, and `Returns` how it may end. A
module need not be well formed, and nothing in `Passes` makes a call end: it may go round in a loop. But a machine
counts the instructions of all its calls, and stops at its budget. So each call returns, the calls of a machine take no
more instructions together than the budget has, and no more activations are open at once than the depth limit allows.
When a call has used up the budget, a later call of a function with a body fails and changes nothing.
-/

namespace Monofloat.Machine

open Monofloat.Ir

/-! ## The course of a call -/

section

variable (M : Machine) (name : String) (args : List Float)

/-- What the call comes to before anything is executed. -/
def invocation : Except Fault Invocation := invoke M.module M.limits.maxDepth M.store name args

/-- So many instructions take the call to the configuration. -/
inductive Passes : Nat → Config → Prop where
  | opened {a} (h : M.invocation name args = .ok (.opened a)) : Passes 0 ⟨M.store.deeper, a, []⟩
  | executed {k c c'} (h : Passes k c) (hnext : c.next M.module M.limits.maxDepth = some (.running c')) :
      Passes (k + 1) c'

/-- So many instructions take the call to its end; there is its result, and what it leaves in the store. -/
inductive Returns : Nat → Except Fault Float → Store → Prop where
  | refused {fault} (h : M.invocation name args = .error fault) : Returns 0 (.error fault) M.store
  | hosted {value s} (h : M.invocation name args = .ok (.done value s)) : Returns 0 (.ok value) s
  | fellThrough {k c} (h : M.Passes name args k c) (hcode : c.active.code = []) :
      Returns k (.error (.fellThrough c.active.label)) (c.unwind c.store)
  | finished {k c value s} (h : M.Passes name args k c)
      (hnext : c.next M.module M.limits.maxDepth = some (.finished value s)) : Returns (k + 1) (.ok value) s
  | failed {k c fault s} (h : M.Passes name args k c)
      (hnext : c.next M.module M.limits.maxDepth = some (.failed fault s)) : Returns (k + 1) (.error fault) (c.unwind s)
  /-- An instruction is left, but no step. -/
  | exhausted {c} (h : M.Passes name args M.stepsLeft c) (hcode : c.active.code ≠ []) :
      Returns M.stepsLeft (.error (.stepLimit M.limits.maxSteps)) (c.unwind c.store)

end

section

variable {M : Machine} {name : String} {args : List Float} {k n : Nat} {c : Config} {r : Except Fault Float} {s : Store}

theorem Config.exists_next (h : c.active.code ≠ []) (m : Module) (maxDepth : Nat) :
    ∃ o, c.next m maxDepth = some o := by
  obtain ⟨i, rest, hcode⟩ := List.exists_cons_of_ne_nil h
  exact ⟨_, by rw [Config.next, hcode]⟩

namespace Passes

/-- The machine counts the activations of the call, over those that were open before. -/
theorem depth_eq (h : M.Passes name args k c) : c.store.depth = M.store.depth + c.depth := by
  induction h with
  | opened => rfl
  | @executed k c c' _ hnext ih =>
    obtain ⟨i, rest, -, hmove⟩ := Config.move_next hnext
    cases hmove with
    | next hexecute => exact (depth_execute hexecute).trans ih
    | jump | hosted => exact ih
    | opened => exact congrArg (· + 1) ih
    | returned value hcallers =>
      have hdepth : c.depth = _ := congrArg (·.length + 1) hcallers
      rw [hdepth] at ih
      exact congrArg (· - 1) ih

theorem store_depth_le (h : M.Passes name args k c) : c.store.depth ≤ M.limits.maxDepth := by
  induction h with
  | opened h => exact (invoke_opened h).1
  | executed _ hnext ih =>
    obtain ⟨i, rest, -, hmove⟩ := Config.move_next hnext
    cases hmove with
    | next hexecute => exact (depth_execute hexecute).symm ▸ ih
    | jump | hosted => exact ih
    | opened dest h => exact (invoke_opened h).1
    | returned => exact Nat.le_trans (Nat.sub_le _ _) ih

theorem depth_le (h : M.Passes name args k c) : c.depth ≤ M.limits.maxDepth := by
  have hdepth := h.depth_eq
  have hle := h.store_depth_le
  omega

/-- With steps left a call goes on, and each instruction leaves fewer of them. -/
theorem exists_returns (h : M.Passes name args k c) (hk : k ≤ M.stepsLeft) :
    ∃ n r s, M.Returns name args n r s ∧ n ≤ M.stepsLeft := by
  obtain ⟨left, hleft⟩ := Nat.exists_eq_add_of_le hk
  induction left generalizing k c with
  | zero =>
    obtain rfl : M.stepsLeft = k := hleft
    by_cases hcode : c.active.code = []
    · exact ⟨_, _, _, .fellThrough h hcode, hk⟩
    · exact ⟨_, _, _, .exhausted h hcode, hk⟩
  | succ left ih =>
    by_cases hcode : c.active.code = []
    · exact ⟨_, _, _, .fellThrough h hcode, hk⟩
    · have hlt : k < M.stepsLeft := by omega
      obtain ⟨o, ho⟩ := Config.exists_next hcode M.module M.limits.maxDepth
      cases o with
      | running c' => exact ih (h.executed ho) hlt (by omega)
      | finished value s => exact ⟨_, _, _, .finished h ho, hlt⟩
      | failed fault s => exact ⟨_, _, _, .failed h ho, hlt⟩

/-- The call comes to what a run comes to from a configuration on its way. -/
theorem call_eq (h : M.Passes name args k c) (hk : k ≤ M.stepsLeft) : M.call name args =
    let r := run M.module M.limits (M.stepsLeft - k) c
    (r.result, { M with stepsLeft := r.stepsLeft, store := r.store }) := by
  induction h with
  | opened h =>
    rw [invocation] at h
    rw [Machine.call, h]
    rfl
  | @executed k c c' _ hnext ih =>
    have hleft : M.stepsLeft - k = M.stepsLeft - (k + 1) + 1 := by omega
    rw [ih (Nat.le_of_succ_le hk), hleft, run_succ hnext]
    rfl

/-- A call for which an instruction is left fails for the lack of steps when none is left, whatever follows. -/
theorem call_of_stepsLeft_le {o : Outcome} (h : M.Passes name args k c)
    (ho : c.next M.module M.limits.maxDepth = some o) (hk : M.stepsLeft ≤ k) :
    (M.call name args).1 = .error (.stepLimit M.limits.maxSteps) := by
  induction h generalizing o with
  | opened h =>
    rw [(opened h).call_eq (Nat.zero_le _), Nat.le_zero.1 hk, Nat.sub_zero, run_zero ho]
  | @executed k c c' h hnext ih =>
    by_cases hlast : M.stepsLeft ≤ k
    · exact ih hnext hlast
    · have hexact : M.stepsLeft = k + 1 := by omega
      rw [(h.executed hnext).call_eq (Nat.le_of_eq hexact.symm), hexact, Nat.sub_self, run_zero ho]

end Passes

/-- A call returns before the steps are used up, or when they are. -/
theorem exists_returns (M : Machine) (name : String) (args : List Float) :
    ∃ n r s, M.Returns name args n r s ∧ n ≤ M.stepsLeft := by
  cases hinvoke : M.invocation name args with
  | error fault => exact ⟨_, _, _, .refused hinvoke, Nat.zero_le _⟩
  | ok invocation =>
    cases invocation with
    | done value s => exact ⟨_, _, _, .hosted hinvoke, Nat.zero_le _⟩
    | opened a => exact (Passes.opened hinvoke).exists_returns (Nat.zero_le _)

namespace Returns

theorem call_eq (h : M.Returns name args n r s) (hn : n ≤ M.stepsLeft) :
    M.call name args = (r, { M with stepsLeft := M.stepsLeft - n, store := s }) := by
  cases h with
  | refused h =>
    rw [invocation] at h
    rw [Machine.call, h]
    rfl
  | hosted h =>
    rw [invocation] at h
    rw [Machine.call, h]
    rfl
  | fellThrough h hcode =>
    rw [h.call_eq hn]
    cases M.stepsLeft - n <;> simp only [run, hcode]
  | @finished k c value s h hnext | @failed k c fault s h hnext =>
    have hleft : M.stepsLeft - k = M.stepsLeft - (k + 1) + 1 := by omega
    rw [h.call_eq (Nat.le_of_succ_le hn), hleft, run_succ hnext]
    rfl
  | exhausted h hcode =>
    obtain ⟨o, ho⟩ := Config.exists_next hcode M.module M.limits.maxDepth
    rw [h.call_eq hn, Nat.sub_self, run_zero ho]

/-- A call that fails for the lack of steps has used all that were left. -/
theorem eq_stepsLeft {budget : Nat} (h : M.Returns name args n (.error (.stepLimit budget)) s) : n = M.stepsLeft := by
  generalize hr : (.error (.stepLimit budget) : Except Fault Float) = r at h
  cases h with
  | refused h =>
    cases hr
    exact absurd h (unlimited_invoke _ _ _ _ _ budget)
  | hosted | fellThrough | finished => cases hr
  | failed _ hnext =>
    cases hr
    obtain ⟨_, _, -, hmove⟩ := Config.move_next hnext
    cases hmove with
    | fault hfault => exact absurd rfl (hfault budget)
  | exhausted => rfl

theorem call_of_stepsLeft_lt (h : M.Returns name args n r s) (hn : M.stepsLeft < n) :
    (M.call name args).1 = .error (.stepLimit M.limits.maxSteps) := by
  cases h with
  | refused | hosted => cases hn
  | fellThrough h =>
    cases h with
    | opened => cases hn
    | executed h hnext => exact h.call_of_stepsLeft_le hnext (Nat.le_of_lt_succ hn)
  | finished h hnext | failed h hnext => exact h.call_of_stepsLeft_le hnext (Nat.le_of_lt_succ hn)
  | exhausted => exact absurd hn (Nat.lt_irrefl _)

/-- An end that lies behind the last step is not the one that the call has. -/
theorem le_stepsLeft (h : M.Returns name args n (M.call name args).1 s) : n ≤ M.stepsLeft := by
  by_contra hn
  rw [h.call_of_stepsLeft_lt (Nat.lt_of_not_le hn)] at h
  exact hn (Nat.le_of_eq h.eq_stepsLeft)

theorem stepsLeft_call (h : M.Returns name args n (M.call name args).1 s) :
    (M.call name args).2.stepsLeft = M.stepsLeft - n := by
  rw [h.call_eq h.le_stepsLeft]

end Returns

end

/-! ## The life of a machine -/

/-- A machine for the module that calls have led to, and the number of instructions that they took together. -/
inductive Life (m : Module) (limits : Limits) : Machine → Nat → Prop where
  | start : Life m limits (.start m limits) 0
  | call {M name args k n s} (h : Life m limits M k) (hr : M.Returns name args n (M.call name args).1 s) :
      Life m limits (M.call name args).2 (k + n)
  | takeOutput {M k} (h : Life m limits M k) : Life m limits M.takeOutput.2 k

/-- A machine that calls have led to from another one. -/
inductive Later (M : Machine) : Machine → Prop where
  | refl : Later M M
  | call {M'} (h : Later M M') (name : String) (args : List Float) : Later M (M'.call name args).2
  | takeOutput {M'} (h : Later M M') : Later M M'.takeOutput.2

theorem limits_call (M : Machine) (f : String) (args : List Float) : (M.call f args).2.limits = M.limits := by
  rw [Machine.call]
  split <;> rfl

namespace Life

variable {m : Module} {limits : Limits} {M : Machine} {k : Nat}

theorem module_eq (h : Life m limits M k) : M.module = m := by
  induction h with
  | start => rfl
  | call _ _ ih => rw [module_call, ih]
  | takeOutput _ ih => exact ih

theorem limits_eq (h : Life m limits M k) : M.limits = limits := by
  induction h with
  | start => rfl
  | call _ _ ih => rw [limits_call, ih]
  | takeOutput _ ih => exact ih

/-- Each instruction is taken from the budget. -/
theorem add_stepsLeft (h : Life m limits M k) : k + M.stepsLeft = limits.maxSteps := by
  induction h with
  | start => exact Nat.zero_add _
  | call _ hr ih =>
    have hle := hr.le_stepsLeft
    rw [hr.stepsLeft_call]
    omega
  | takeOutput _ ih => exact ih

end Life

namespace Later

variable {M M' : Machine}

theorem module_eq (h : M.Later M') : M'.module = M.module := by
  induction h with
  | refl => rfl
  | call _ f args ih => rw [module_call, ih]
  | takeOutput _ ih => exact ih

theorem stepsLeft_le (h : M.Later M') : M'.stepsLeft ≤ M.stepsLeft := by
  induction h with
  | refl => exact Nat.le_refl _
  | @call M' _ name args ih =>
    obtain ⟨n, r, s, hr, hn⟩ := M'.exists_returns name args
    rw [hr.call_eq hn]
    exact Nat.le_trans (Nat.sub_le _ _) ih
  | takeOutput _ ih => exact ih

end Later

/-- Without a step left, a call of a function with a body fails and changes nothing. -/
theorem call_of_stepsLeft_eq_zero {M : Machine} {name : String} {f : Function} (hM : M.stepsLeft = 0)
    (hf : M.module.function? name = some f) (hbody : f.attached ≠ []) (args : List Float) :
    (∃ fault, (M.call name args).1 = .error fault) ∧ (M.call name args).2.store = M.store := by
  obtain ⟨n, r, s, hr, hn⟩ := M.exists_returns name args
  suffices h : (∃ fault, r = .error fault) ∧ s = M.store by
    obtain ⟨⟨fault, rfl⟩, rfl⟩ := h
    rw [hr.call_eq hn]
    simp
  rw [hM] at hn
  -- Nothing has been executed, so a configuration on the way is the one that the call opens.
  have hstore : ∀ {k c}, M.Passes name args k c → k = 0 → c.unwind c.store = M.store := fun h hk => by
    cases h with
    | opened h => exact close_deeper h
    | executed => cases hk
  cases hr with
  | refused => exact ⟨⟨_, rfl⟩, rfl⟩
  | hosted h =>
    obtain ⟨⟨f', hf', hempty⟩, -⟩ := invoke_done h
    rw [hf] at hf'
    cases hf'
    exact absurd hempty hbody
  | fellThrough h => exact ⟨⟨_, rfl⟩, hstore h (Nat.le_zero.1 hn)⟩
  | exhausted h => exact ⟨⟨_, rfl⟩, hstore h (Nat.le_zero.1 hn)⟩
  | finished | failed => cases hn

/-- The step budget bounds what a machine does, whatever the module is like. Each call returns, all calls together take
no more instructions than the budget has, and no more activations are open at once than the limit allows. When a call
has failed for the lack of steps, every later call of a function with a body fails and leaves the store as it is. -/
theorem budget_bounds_calls {m : Module} {limits : Limits} {M : Machine} {k : Nat} (hM : Life m limits M k)
    (name : String) (args : List Float) :
    (∃ n s, M.Returns name args n (M.call name args).1 s ∧ Life m limits (M.call name args).2 (k + n) ∧
      k + n ≤ limits.maxSteps) ∧
    (∀ j c, M.Passes name args j c → c.depth ≤ limits.maxDepth) ∧
    ∀ budget, (M.call name args).1 = .error (.stepLimit budget) →
      ∀ M', (M.call name args).2.Later M' → ∀ f g args', m.function? f = some g → g.attached ≠ [] →
        (∃ fault, (M'.call f args').1 = .error fault) ∧ (M'.call f args').2.store = M'.store := by
  obtain ⟨n, r, s, hr, hn⟩ := M.exists_returns name args
  have hcall : (M.call name args).1 = r := by rw [hr.call_eq hn]
  rw [← hcall] at hr
  refine ⟨⟨n, s, hr, hM.call hr, ?_⟩, fun j c hc => ?_, fun budget hlimit M' hM' f g args' hf hbody => ?_⟩
  · have hsum := hM.add_stepsLeft
    omega
  · exact hM.limits_eq ▸ hc.depth_le
  · have hleft : (M.call name args).2.stepsLeft = 0 := by
      have hall := hr.stepsLeft_call
      rw [hlimit] at hr
      rw [hall, hr.eq_stepsLeft, Nat.sub_self]
    refine call_of_stepsLeft_eq_zero (Nat.le_zero.1 (hleft ▸ hM'.stepsLeft_le)) ?_ hbody args'
    rw [hM'.module_eq, module_call, hM.module_eq, hf]

/-- A function whose entry branches to itself. -/
theorem budget_bounds_calls_spin :
    let spin : Function :=
      { name := "spin", params := [], blocks := [⟨"entry", [.br "entry"]⟩], layout := [⟨0⟩] }
    let m : Module := { name := "m", functions := [spin] }
    let limits : Limits := { maxSteps := 3, maxDepth := 1 }
    let M := Machine.start m limits
    let M' := (M.call "spin" []).2
    Life m limits M 0 ∧ (M.call "spin" []).1 = .error (.stepLimit 3) ∧
      (∃ n s, M.Returns "spin" [] n (.error (.stepLimit 3)) s ∧ n ≤ 3) ∧
      (∃ fault, (M'.call "spin" []).1 = .error fault) ∧ (M'.call "spin" []).2.store = M'.store := by
  intro spin m limits M M'
  have hlimit : (M.call "spin" []).1 = .error (.stepLimit 3) := rfl
  obtain ⟨⟨n, s, hreturns, -, hn⟩, -, hlater⟩ := budget_bounds_calls (Life.start : Life m limits M 0) "spin" []
  have hbody : spin.attached ≠ [] := by decide
  have hspins := hlater 3 hlimit M' .refl "spin" spin [] rfl hbody
  exact ⟨.start, hlimit, ⟨n, s, hlimit ▸ hreturns, by simpa using hn⟩, hspins⟩

end Monofloat.Machine
