import Monofloat.Proofs.TempNumbers

/-!
# Functions without defects

What the checks have found out about a function that was built, in the form in which a run of the function needs it:
blocks end in their only terminator and branch to attached blocks, phis have a value for every predecessor, and
operands have the types that their places need.
-/

namespace Monofloat.Ir

/-! ## What single checks find out -/

namespace Block

variable {b : Block} {labels : List String} {isEntry : Bool}

theorem successors_of_concat {init : List Instruction} {last : Instruction} (h : b.instructions = init ++ [last]) :
    b.successors = last.successors := by
  rw [successors, h, List.getLast?_concat]

/-- Nothing follows a terminator, if it can only stand last. -/
theorem eq_nil_of_terminator {init before rest : List Instruction} {last i : Instruction}
    (hconcat : b.instructions = init ++ [last]) (hinit : ∀ i ∈ init, i.isTerminator = false)
    (hi : b.instructions = before ++ i :: rest) (hterminator : i.isTerminator = true) : rest = [] := by
  obtain hnil | ⟨rest', last', hrest⟩ := List.eq_nil_or_concat rest
  · exact hnil
  · rw [hrest, List.concat_eq_append, ← List.cons_append, ← List.append_assoc] at hi
    obtain ⟨hinit', -⟩ := List.append_inj' (hi.symm.trans hconcat) rfl
    have hnot := hinit i (hinit' ▸ by simp)
    rw [hterminator] at hnot
    cases hnot

theorem of_checkTerminator (h : b.checkTerminator = .ok ()) : ∃ init last, b.instructions = init ++ [last] ∧
    last.isTerminator = true ∧ ∀ i ∈ init, i.isTerminator = false := by
  obtain hnil | ⟨init, last, hconcat⟩ := List.eq_nil_or_concat b.instructions
  · rw [checkTerminator, hnil] at h
    cases h
  · rw [List.concat_eq_append] at hconcat
    rw [checkTerminator, hconcat, List.getLast?_concat, List.dropLast_concat] at h
    dsimp only at h
    split at h
    · cases h
    · next hlast =>
      split at h
      · cases h
      · next hinit =>
        refine ⟨init, last, hconcat, by simpa using hlast, fun i hi => ?_⟩
        simpa using List.any_eq_false.1 (Bool.eq_false_iff.2 hinit) i hi

end Block

namespace Function

variable {m : Module} {f : Function} {block : String} {ty : Ty} {v : Value}

theorem of_checkType (h : f.checkType m block ty v = .ok ()) : f.typeOf m v = .ok ty := by
  unfold checkType at h
  split at h
  · cases h
  · next found hfound =>
    split at h
    · next heq => rw [hfound, heq]
    · cases h

theorem of_checkAll_checkType {vs : List Value} (h : checkAll (f.checkType m block ty) vs = .ok ()) :
    ∀ v ∈ vs, f.typeOf m v = .ok ty := fun v hv => of_checkType (checkAll_eq_ok.1 h v hv)

theorem of_checkOperands_call {dest : Nat} {callee : String} {args : List Value}
    (h : f.checkOperands m block (.call dest callee args) = .ok ()) :
    m.arity? callee = some args.length ∧ ∀ v ∈ args, f.typeOf m v = .ok .f64 := by
  rw [checkOperands] at h
  split at h
  · cases h
  · next target htarget =>
    split at h
    · cases h
    · next harity =>
      refine ⟨?_, of_checkAll_checkType h⟩
      rw [Module.arity?, htarget, Option.map_some, not_not.1 harity]

/-- The labels of a phi are those of the predecessors. -/
theorem of_checkIncoming {label : String} {dest : Nat} {incoming : List (Value × String)}
    (h : checkIncoming block (f.predecessors label).mergeSort (.phi dest ty incoming) = .ok ()) :
    (incoming.map Prod.snd).Perm (f.predecessors label) := by
  rw [checkIncoming] at h
  split at h
  · next heq =>
    have hfound := List.mergeSort_perm (incoming.map Prod.snd)
    exact (heq ▸ (hfound _).symm).trans (List.mergeSort_perm _ _)
  · cases h

/-- What is known of a function that was built and has no defect. -/
structure Checked (m : Module) (f : Function) : Prop where
  terminated : ∀ b ∈ f.attached, ∃ init last, b.instructions = init ++ [last] ∧ last.isTerminator = true ∧
    ∀ i ∈ init, i.isTerminator = false
  targets : ∀ b ∈ f.attached, ∀ target ∈ b.successors, target ∈ f.labels
  phis : ∀ b ∈ f.attached, ∀ {dest ty incoming}, .phi dest ty incoming ∈ b.instructions →
    (incoming.map Prod.snd).Perm (f.predecessors b.label)
  operands : ∀ b ∈ f.attached, ∀ i ∈ b.instructions, f.checkOperands m b.label i = .ok ()
  registered : ∀ b ∈ f.attached, ∀ i ∈ b.instructions, ∀ {dest}, i.dest? = some dest → f.tempType? dest = i.ty?
  addressed : ∀ b ∈ f.attached, ∀ i ∈ b.instructions, ∀ {ptr}, i.address? = some ptr → ptr.isAddress = true

namespace Checked

variable {b : Block} {before rest : List Instruction} {i : Instruction}

/-- Something follows an instruction that is not a terminator. -/
theorem ne_nil (h : f.Checked m) (hb : b ∈ f.attached) (hi : b.instructions = before ++ i :: rest)
    (hnot : i.isTerminator = false) : rest ≠ [] := by
  rintro rfl
  obtain ⟨init, last, hconcat, hlast, -⟩ := h.terminated b hb
  obtain ⟨-, rfl⟩ := List.append_inj' (hi.symm.trans hconcat) rfl |>.imp_right fun heq => List.singleton_inj.1 heq
  rw [hnot] at hlast
  cases hlast

/-- The branches of a block are those of its terminator. -/
theorem successors_eq (h : f.Checked m) (hb : b ∈ f.attached) (hi : b.instructions = before ++ i :: rest)
    (hterminator : i.isTerminator = true) : b.successors = i.successors := by
  obtain ⟨init, last, hconcat, -, hinit⟩ := h.terminated b hb
  obtain rfl := Block.eq_nil_of_terminator hconcat hinit hi hterminator
  exact Block.successors_of_concat hi

end Checked

end Function

namespace Module

variable {m : Module}

/-- What is known of a module that was built and has no defect. -/
structure Checked (m : Module) : Prop where
  functions : ∀ f ∈ m.functions, f.Checked m
  symbols_nodup : (m.functions.map Function.name ++ m.globals.map Global.name).Nodup

/-- The module is one that operations on an empty module come to. -/
def Built (m : Module) : Prop := ∃ numbering name ops, m = (built numbering name ops).1.module

end Module

end Monofloat.Ir
