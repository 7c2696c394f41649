import Monofloat.Proofs.Budget

/-!
# Larger limits change no answer

The limits of a machine come in at two places only: an instruction is left but no step, or a call finds the depth limit
reached. Both end the call with a fault that nothing takes up on its way out. So a call that does not end in such a
fault takes the same course with larger limits (`Passes.of_roomier`, `Returns.of_roomier`), and leaves a machine that
again differs in its limits only.
-/

namespace Monofloat.Machine

open Monofloat.Ir

/-- The faults that a machine with larger limits need not have. -/
def Fault.isLimit : Fault → Bool
  | .stepLimit _ | .stackOverflow _ => true
  | _ => false

/-- The result is no fault of the limits. -/
def withinLimits {α : Type} : Except Fault α → Bool
  | .error fault => !fault.isLimit
  | .ok _ => true

/-- The step does not fail because of the limits. -/
def Outcome.withinLimits : Outcome → Bool
  | failed fault _ => !fault.isLimit
  | _ => true

/-! ## Steps -/

section

variable {m : Module} {maxDepth maxDepth' : Nat}

theorem invoke_of_le (hle : maxDepth ≤ maxDepth') {s : Store} {name : String} {args : List Float}
    (h : withinLimits (invoke m maxDepth s name args)) :
    invoke m maxDepth' s name args = invoke m maxDepth s name args := by
  unfold invoke at h ⊢
  cases hf : m.function? name with
  | none => rfl
  | some f =>
    rw [hf] at h
    dsimp only at h ⊢
    split
    · rfl
    · next harity =>
      rw [if_neg harity] at h
      cases hattached : f.attached with
      | nil => rfl
      | cons entry others =>
        rw [hattached] at h
        dsimp only at h ⊢
        by_cases hdepth : maxDepth ≤ s.depth
        · rw [if_pos hdepth] at h
          cases h
        · rw [if_neg hdepth, if_neg (by omega)]

namespace Config

variable {c : Config}

theorem call_of_le (hle : maxDepth ≤ maxDepth') {dest : Nat} {callee : String} {args : List Float}
    (h : (c.call m maxDepth dest callee args).withinLimits) :
    c.call m maxDepth' dest callee args = c.call m maxDepth dest callee args := by
  have hinvoke : withinLimits (invoke m maxDepth c.store callee args) := by
    rw [Config.call] at h
    cases hr : invoke m maxDepth c.store callee args with
    | error fault =>
      rw [hr] at h
      exact h
    | ok => rfl
  rw [Config.call, Config.call, invoke_of_le hle hinvoke]

theorem execute_of_le (hle : maxDepth ≤ maxDepth') {i : Instruction} (h : (c.execute m maxDepth i).withinLimits) :
    c.execute m maxDepth' i = c.execute m maxDepth i := by
  unfold Config.execute at h ⊢
  cases hexecute : c.active.execute c.store i with
  | error fault => rfl
  | ok effect =>
    cases effect with
    | next | jump | ret => rfl
    | call dest callee args =>
      rw [hexecute] at h
      exact call_of_le hle h

/-- A step that a larger depth limit does not change. -/
theorem next_of_le (hle : maxDepth ≤ maxDepth') {o : Outcome} (h : c.next m maxDepth = some o) (ho : o.withinLimits) :
    c.next m maxDepth' = some o := by
  unfold Config.next at h ⊢
  cases hcode : c.active.code with
  | nil =>
    rw [hcode] at h
    cases h
  | cons i rest =>
    rw [hcode] at h
    obtain rfl := Option.some.inj h
    exact congrArg some (execute_of_le hle ho)

end Config

end

/-! ## Calls -/

/-- The second machine is the first one with limits that are at least as large, and at least as many steps left. -/
structure Roomier (M M' : Machine) : Prop where
  module : M'.module = M.module
  store : M'.store = M.store
  depth : M.limits.maxDepth ≤ M'.limits.maxDepth
  steps : M.stepsLeft ≤ M'.stepsLeft

section

variable {M M' : Machine} {name : String} {args : List Float} {k n : Nat} {c : Config} {r : Except Fault Float}
  {s : Store}

theorem Roomier.invocation_eq (h : M.Roomier M') (hlimits : withinLimits (M.invocation name args)) :
    M'.invocation name args = M.invocation name args := by
  rw [invocation, h.module, h.store]
  exact invoke_of_le h.depth hlimits

theorem Roomier.next_eq (h : M.Roomier M') {o : Outcome} (hnext : c.next M.module M.limits.maxDepth = some o)
    (ho : o.withinLimits) : c.next M'.module M'.limits.maxDepth = some o := by
  rw [h.module]
  exact Config.next_of_le h.depth hnext ho

/-- The configurations on the way are the same. -/
theorem Passes.of_roomier (h : M.Roomier M') (hc : M.Passes name args k c) : M'.Passes name args k c := by
  induction hc with
  | @opened a ha =>
    have hopened : M'.invocation name args = .ok (.opened a) := by rw [h.invocation_eq (by rw [ha]; rfl), ha]
    exact h.store ▸ .opened hopened
  | executed _ hnext ih => exact ih.executed (h.next_eq hnext rfl)

/-- So is the end, unless the limits are to blame for it. -/
theorem Returns.of_roomier (h : M.Roomier M') (hr : M.Returns name args n r s) (hlimits : withinLimits r) :
    M'.Returns name args n r s := by
  cases hr with
  | refused hfault =>
    rw [← h.store]
    exact .refused (by rw [h.invocation_eq (by rw [hfault]; exact hlimits), hfault])
  | hosted hdone => exact .hosted (by rw [h.invocation_eq (by rw [hdone]; rfl), hdone])
  | fellThrough hc hcode => exact .fellThrough (hc.of_roomier h) hcode
  | finished hc hnext => exact .finished (hc.of_roomier h) (h.next_eq hnext rfl)
  | failed hc hnext => exact .failed (hc.of_roomier h) (h.next_eq hnext hlimits)
  | exhausted => cases hlimits

/-- A call that the limits do not end has the same result with larger ones, and leaves machines that differ in their
limits only. -/
theorem Roomier.call (h : M.Roomier M') (hlimits : withinLimits (M.call name args).1) :
    (M'.call name args).1 = (M.call name args).1 ∧ (M.call name args).2.Roomier (M'.call name args).2 := by
  obtain ⟨n, r, s, hr, hn⟩ := M.exists_returns name args
  have hcall := hr.call_eq hn
  have hcall' := (hr.of_roomier h (by rwa [hcall] at hlimits)).call_eq (Nat.le_trans hn h.steps)
  rw [hcall, hcall']
  exact ⟨rfl, h.module, rfl, h.depth, Nat.sub_le_sub_right h.steps n⟩

theorem Roomier.takeOutput (h : M.Roomier M') : M.takeOutput.2.Roomier M'.takeOutput.2 :=
  ⟨h.module, by rw [Machine.takeOutput, Machine.takeOutput, h.store], h.depth, h.steps⟩

end

/-! ## Sequences of calls -/

/-- What a machine can be asked for. -/
inductive Request where
  | call (name : String) (args : List Float)
  | takeOutput

/-- What a machine gives back. -/
inductive Reply where
  | result (r : Except Fault Float)
  | output (text : String)

def Reply.withinLimits : Reply → Bool
  | result r => Machine.withinLimits r
  | output _ => true

def reply (M : Machine) : Request → Reply × Machine
  | .call name args => (.result (M.call name args).1, (M.call name args).2)
  | .takeOutput => (.output M.takeOutput.1, M.takeOutput.2)

/-- The replies to requests made one after the other, each with the store that is left behind it. -/
def replies (M : Machine) : List Request → List (Reply × Store)
  | [] => []
  | request :: requests =>
    ((M.reply request).1, (M.reply request).2.store) :: (M.reply request).2.replies requests

namespace Roomier

variable {M M' : Machine}

theorem reply (h : M.Roomier M') (request : Request) (hlimits : (M.reply request).1.withinLimits) :
    (M'.reply request).1 = (M.reply request).1 ∧ (M.reply request).2.Roomier (M'.reply request).2 := by
  cases request with
  | call name args =>
    obtain ⟨hresult, hroomier⟩ := h.call hlimits
    exact ⟨congrArg Reply.result hresult, hroomier⟩
  | takeOutput =>
    refine ⟨?_, h.takeOutput⟩
    rw [Machine.reply, Machine.reply, Machine.takeOutput, Machine.takeOutput, h.store]

theorem replies_eq (h : M.Roomier M') (requests : List Request)
    (hlimits : ∀ a ∈ M.replies requests, a.1.withinLimits) : M'.replies requests = M.replies requests := by
  induction requests generalizing M M' with
  | nil => rfl
  | cons request requests ih =>
    obtain ⟨hfirst, hrest⟩ := List.forall_mem_cons.1 hlimits
    obtain ⟨hreply, hroomier⟩ := h.reply request hfirst
    rw [Machine.replies, Machine.replies, ih hroomier hrest, hreply, hroomier.store]

end Roomier

/-- Limits never change an answer. When no call of a sequence ends because of the limits, then with limits that are at
least as large every call has the same result, and leaves the same globals and the same output. -/
theorem larger_limits_same_replies (m : Module) {limits limits' : Limits} (hsteps : limits.maxSteps ≤ limits'.maxSteps)
    (hdepth : limits.maxDepth ≤ limits'.maxDepth) (requests : List Request)
    (hlimits : ∀ a ∈ (Machine.start m limits).replies requests, a.1.withinLimits) :
    (Machine.start m limits').replies requests = (Machine.start m limits).replies requests := by
  have hroomier : (Machine.start m limits).Roomier (Machine.start m limits') := ⟨rfl, rfl, hdepth, hsteps⟩
  exact hroomier.replies_eq requests hlimits

/-- A function that counts its calls in a global and calls itself once, between them one that falls through. The limits
suffice exactly. -/
theorem larger_limits_same_replies_recursive :
    let entry : Block := ⟨"entry", [.load 0 (.global "n"), .binary 1 .add (.temp 0) (.constFloat 1),
      .store (.temp 1) (.global "n"), .compare 2 .ult (.param 0 "deep") (.constFloat 1),
      .condBr (.temp 2) "leaf" "inner"]⟩
    let inner : Block := ⟨"inner", [.call 3 "visit" [.constFloat 0], .ret (.temp 3)]⟩
    let leaf : Block := ⟨"leaf", [.ret (.temp 1)]⟩
    let visit : Function :=
      { name := "visit", params := ["deep"], blocks := [entry, inner, leaf], layout := [⟨0⟩, ⟨1⟩, ⟨2⟩] }
    let broken : Function := { name := "broken", params := [], blocks := [⟨"entry", []⟩], layout := [⟨0⟩] }
    let m : Module := { name := "m", functions := [visit, broken], globals := [⟨"n", 0⟩] }
    let requests : List Request := [.call "visit" [1], .takeOutput, .call "broken" [], .call "visit" [0]]
    (∀ a ∈ (Machine.start m { maxSteps := 19, maxDepth := 2 }).replies requests, a.1.withinLimits) ∧
      (Machine.start m { maxSteps := 20, maxDepth := 512 }).replies requests =
        (Machine.start m { maxSteps := 19, maxDepth := 2 }).replies requests := by
  intro entry inner leaf visit broken m requests
  have hlimits : ∀ a ∈ (Machine.start m { maxSteps := 19, maxDepth := 2 }).replies requests, a.1.withinLimits := by
    decide +kernel
  exact ⟨hlimits, larger_limits_same_replies m (by decide) (by decide) requests hlimits⟩

end Monofloat.Machine
