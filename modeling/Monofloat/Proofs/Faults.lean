import Monofloat.Proofs.Correctness
import Monofloat.Proofs.Globals

/-!
# The faults of compiled programs

A call of a function of a compiled module ends with a value, or because a limit is reached, because a declared function
has no host, or because a local variable is read before it is written. Nothing else goes wrong, whatever was called
before, and whether or not the whole source text could be read and all items of the program were accepted.
-/

namespace Monofloat

open Monofloat.Ir Monofloat.Machine

/-- The faults that the functions of a program can have. -/
inductive Machine.Fault.Expected (items : List Tree) : Fault → Prop where
  | stepLimit (budget : Nat) : Expected items (.stepLimit budget)
  | stackOverflow (depth : Nat) : Expected items (.stackOverflow depth)
  | unresolvedExternal {proto : Prototype} (h : .prototype proto ∈ items) :
      Expected items (.unresolvedExternal proto.name)
  | unwrittenSlot (index : Nat) : Expected items (.unwrittenCell (.stack index))

section

variable {m : Module} {items : List Tree}

/-- A function without a body is a declared one. -/
theorem Ir.Module.Implements.prototype_mem (h : m.Implements items) {name : String} {f : Function}
    (hf : m.function? name = some f) (hempty : f.attached = []) :
    ∃ proto, .prototype proto ∈ items ∧ proto.name = name := by
  cases hdef : definition? items name with
  | none =>
    obtain ⟨proto, hmem, hname, -⟩ := h.declared hdef hf
    exact ⟨proto, hmem, hname⟩
  | some d =>
    obtain ⟨f', hf', hcodes⟩ := h.defined hdef
    cases hf.symm.trans hf'
    obtain ⟨entry, others, hattached, -⟩ := hcodes.complete.1.attached_eq
    cases hempty.symm.trans hattached

/-- A stop shows up as a fault that is expected, if all globals have values. -/
theorem Stop.Matches.expected {s : Store} {stop : Stop} {fault : Fault} (hmatch : stop.Matches m s fault)
    (h : m.Implements items) (hheld : ∀ {name}, (m.global? name).isSome → (s.global? name).isSome) :
    fault.Expected items := by
  cases hmatch with
  | unwrittenLocal index => exact .unwrittenSlot index
  | unwrittenGlobal hglobal hnone =>
    have hsome := hheld hglobal
    rw [hnone] at hsome
    cases hsome
  | unresolvedExternal hf hempty =>
    obtain ⟨proto, hmem, rfl⟩ := h.prototype_mem hf hempty
    exact .unresolvedExternal hmem
  | tooDeep limit => exact .stackOverflow limit

/-- A call of a definition fails for the lack of steps, or because evaluation stops. -/
theorem Ir.Module.Implements.fault_cases {M : Machine} (h : M.module.Implements items) {name : String}
    {params : List String} {body : Tree} (hdef : definition? items name = some (params, body)) {args : List Float}
    (hlen : args.length = params.length) {fault : Fault} (hfault : (M.call name args).1 = .error fault) :
    fault = .stepLimit M.limits.maxSteps ∨
      ∃ fuel stop w,
        evalCall items M.limits.maxDepth fuel M.store.depth name args M.store.world = some (.error stop, w) ∧
        stop.Matches M.module (M.call name args).2.store fault := by
  -- The evaluation either has a result, which the machine comes to or has no steps for, or has none at all.
  by_cases heval : ∀ fuel, evalCall items M.limits.maxDepth fuel M.store.depth name args M.store.world = none
  · exact .inl (Except.error.inj (hfault.symm.trans (call_stepLimit M h hdef hlen heval M.stepsLeft)))
  · obtain ⟨fuel, heval⟩ := Classical.not_forall.1 heval
    obtain ⟨⟨r, w⟩, heval⟩ := Option.ne_none_iff_exists'.1 heval
    obtain ⟨n, hn⟩ := call_agrees M h hdef hlen heval
    obtain ⟨hagrees, hlimit⟩ := hn M.stepsLeft
    by_cases hsteps : n ≤ M.stepsLeft
    · cases r with
      | ok x => cases ((hagrees hsteps).value rfl).symm.trans hfault
      | error stop =>
        obtain ⟨fault', hfault', hmatch⟩ := (hagrees hsteps).fault rfl
        cases hfault'.symm.trans hfault
        exact .inr ⟨fuel, stop, w, heval, hmatch⟩
    · exact .inl (Except.error.inj (hfault.symm.trans (hlimit (Nat.lt_of_not_le hsteps))))

/-- The faults of calls of a module that implements a program. -/
theorem Ir.Module.Implements.expected (h : m.Implements items) {limits : Limits} {M : Machine} (hM : M.Reached m limits)
    {name : String} {f : Function} (hf : m.function? name = some f) {args : List Float} (hlen : args.length = f.arity)
    {fault : Fault} (hfault : (M.call name args).1 = .error fault) : fault.Expected items := by
  obtain rfl := hM.module_eq
  cases hdef : definition? items name with
  | none =>
    have hempty := h.attached_eq_nil hdef hf
    rw [Machine.call, invoke_of_declared hf hempty hlen.symm] at hfault
    cases hhost : hostCall? name args with
    | some result =>
      rw [hhost] at hfault
      cases hfault
    | none =>
      rw [hhost] at hfault
      cases hfault
      obtain ⟨proto, hmem, rfl⟩ := h.prototype_mem hf hempty
      exact .unresolvedExternal hmem
  | some d =>
    obtain ⟨params, body⟩ := d
    obtain ⟨f', hf', hcodes⟩ := h.defined hdef
    cases hf.symm.trans hf'
    obtain rfl | ⟨fuel, stop, w, -, hmatch⟩ := h.fault_cases hdef (hlen.trans hcodes.complete.2) hfault
    · exact .stepLimit _
    · exact hmatch.expected h (hM.call name args).held

end

/-- Calls of the functions of a compiled source text, accepted or not, have a value or one of the expected faults,
whatever the limits are and whatever was called before. So have calls of the functions of the program that is recovered
from a text that cannot be read. -/
theorem compiled_call_expected (source moduleName : String) (m : Module) (ds : List Diagnostic)
    (hm : m.Made source moduleName ds) (limits : Limits) (M : Machine) (hM : M.Reached m limits) (name : String)
    (args : List Float) (hname : m.arity? name = some args.length) :
    (∃ x, (M.call name args).1 = .ok x) ∨
      ∃ fault, (M.call name args).1 = .error fault ∧ fault.Expected (FrontEnd.ofSource source 0).parsed.items := by
  obtain ⟨items, himplements, hitems, -⟩ := hm.implements
  obtain ⟨f, hf, hlen⟩ := Option.map_eq_some_iff.1 hname
  cases hcall : (M.call name args).1 with
  | ok x => exact .inl ⟨x, rfl⟩
  | error fault =>
    refine .inr ⟨fault, rfl, ?_⟩
    cases himplements.expected hM hf hlen.symm hcall with
    | stepLimit budget => exact .stepLimit budget
    | stackOverflow depth => exact .stackOverflow depth
    | unresolvedExternal h => exact .unresolvedExternal (hitems _ h)
    | unwrittenSlot index => exact .unwrittenSlot index

/-- A call of `f` behind one of `h`, which has no host. The first definition of `f` is rejected, and there is no
declaration behind the last one. -/
theorem compiled_call_expected_extern :
    let source := "extern h(x); def f(x) y; def f(x) h(x)"
    let cut := "extern h(x); def f(x) y; def f(x) h(x); def"
    let m := (Compilation.ofSource source "m").module
    let m' := (compile (FrontEnd.ofSource cut 0).program "m").module
    let M := ((Machine.start m {}).call "h" [1]).2
    let M' := ((Machine.start m' {}).call "h" [1]).2
    m.arity? "f" = some 1 ∧ ((∃ x, (M.call "f" [1]).1 = .ok x) ∨
      ∃ fault, (M.call "f" [1]).1 = .error fault ∧ fault.Expected (FrontEnd.ofSource source 0).parsed.items) ∧
    (Compilation.ofSource cut "m").module.functions = [] ∧
    m'.arity? "f" = some 1 ∧ ((∃ x, (M'.call "f" [1]).1 = .ok x) ∨
      ∃ fault, (M'.call "f" [1]).1 = .error fault ∧ fault.Expected (FrontEnd.ofSource cut 0).parsed.items) := by
  intro source cut m m' M M'
  have hf : m.arity? "f" = some 1 := by decide +kernel
  have hf' : m'.arity? "f" = some 1 := by decide +kernel
  exact ⟨hf, compiled_call_expected source "m" m _ .compiled {} M (.call .start "h" [1]) "f" [1] hf,
    by decide +kernel,
    hf', compiled_call_expected cut "m" m' _ .recovered {} M' (.call .start "h" [1]) "f" [1] hf'⟩

end Monofloat
