import Mathlib
import Monofloat.Proofs.Isolation
import Monofloat.Proofs.SlotCount

/-!
# Loops do not grow the stack

The memory grows by a cell when an `alloca` is executed, and these stand in the entry blocks of functions, to which no
branch leads. Beside a run we note which instructions each open activation has executed (`Logs`). The `alloca`s among
them, with those that are left in the current block, are always all that the function has (`Along`): a jump is made
where none is left, and leads to a block without any. So an activation executes each of them once, and the memory has a
cell for each that an open activation has executed (`Piled`), however often the loops go round.
-/

namespace Monofloat

open Monofloat.Ir Monofloat.Machine

/-- Every function of the module with a body is complete. -/
def Ir.Module.Finished (m : Module) : Prop :=
  ∀ {name f}, m.function? name = some f → f.attached ≠ [] → f.Complete m

theorem Ir.Module.Implements.finished {m : Module} {items : List Tree} (h : m.Implements items) : m.Finished := by
  intro name f hf hbody
  cases hdef : definition? items name with
  | none => exact absurd (h.attached_eq_nil hdef hf) hbody
  | some d =>
    obtain ⟨f', hf', hcodes⟩ := h.defined hdef
    cases hf.symm.trans hf'
    exact hcodes.complete.1

/-- The number of `alloca`s in a function of the module. -/
def Ir.Module.allocaCount (m : Module) (name : String) : Nat := (m.function? name).elim 0 fun f => f.allocas.length

namespace Machine

/-! ## What activations execute -/

/-- The instructions that each open activation has executed, behind a step from `c` to `c'`. The instruction is one of
the innermost activation. One that is opened has executed nothing yet, and one that is closed is left out. -/
def Config.log (c c' : Config) (logs : List (List Instruction)) : List (List Instruction) :=
  if c.depth < c'.depth then [] :: logs.modifyHead (· ++ c.active.code.take 1)
  else if c'.depth < c.depth then logs.tail
  else logs.modifyHead (· ++ c.active.code.take 1)

section

variable {c c' : Config} {i : Instruction} {log rest : List Instruction} {logs : List (List Instruction)}

theorem Config.log_of_opens (hcode : c.active.code = i :: rest) (h : c.depth < c'.depth) :
    c.log c' (log :: logs) = [] :: (log ++ [i]) :: logs := by
  rw [Config.log, if_pos h, hcode]
  rfl

theorem Config.log_of_closes (h : c'.depth < c.depth) : c.log c' (log :: logs) = logs := by
  rw [Config.log, if_neg (Nat.lt_asymm h), if_pos h, List.tail_cons]

theorem Config.log_of_stays (hcode : c.active.code = i :: rest) (h : c'.depth = c.depth) :
    c.log c' (log :: logs) = (log ++ [i]) :: logs := by
  rw [Config.log, h, if_neg (Nat.lt_irrefl _), if_neg (Nat.lt_irrefl _), hcode]
  rfl

end

/-- So many instructions take the call to the configuration, and each open activation has executed its own of them. -/
inductive Logs (M : Machine) (name : String) (args : List Float) : Nat → Config → List (List Instruction) → Prop where
  | opened {a} (h : M.invocation name args = .ok (.opened a)) : Logs M name args 0 ⟨M.store.deeper, a, []⟩ [[]]
  | executed {k c c' logs} (h : Logs M name args k c logs)
      (hnext : c.next M.module M.limits.maxDepth = some (.running c')) : Logs M name args (k + 1) c' (c.log c' logs)

theorem Passes.exists_logs {M : Machine} {name : String} {args : List Float} {k : Nat} {c : Config}
    (h : M.Passes name args k c) : ∃ logs, M.Logs name args k c logs := by
  induction h with
  | opened h => exact ⟨_, .opened h⟩
  | executed _ hnext ih =>
    obtain ⟨logs, hlogs⟩ := ih
    exact ⟨_, hlogs.executed hnext⟩

/-- The step from `c` returns from the innermost activation. -/
def Outcome.Closes (c : Config) : Outcome → Prop
  | running c' => c'.depth < c.depth
  | finished .. => True
  | failed .. => False

/-! ## What an instruction does to the stack -/

/-- The activation is the other one later on. -/
structure Activation.Becomes (a a' : Activation) : Prop where
  function : a'.function = a.function
  blocks : a'.blocks = a.blocks
  base : a'.base = a.base

section

variable {a a' : Activation} {s s' : Store} {i : Instruction}

theorem Activation.becomes_foldl (values : List (Nat × RtValue)) (a : Activation) :
    a.Becomes (values.foldl (fun a (dest, v) => a.setTemp dest v) a) := by
  induction values generalizing a with
  | nil => exact ⟨rfl, rfl, rfl⟩
  | cons value values ih =>
    have hrest := ih (a.setTemp value.1 value.2)
    exact ⟨hrest.function, hrest.blocks, hrest.base⟩

theorem Activation.becomes_enter {b : Block} {source : String} (h : a.enter b source = .ok a') :
    a.Becomes a' ∧ a'.code = b.instructions := by
  obtain ⟨values, -, h⟩ := except_bind_eq_ok.1 h
  cases h
  have hvalues := becomes_foldl values a
  exact ⟨⟨hvalues.function, hvalues.blocks, hvalues.base⟩, rfl⟩

theorem Activation.becomes_jump {label : String} (h : a.jump label = .ok a') :
    ∃ b, a.blocks.find? (·.label = label) = some b ∧ a.Becomes a' ∧ a'.code = b.instructions := by
  unfold Activation.jump at h
  split at h
  · next b hb => exact ⟨b, hb, becomes_enter h⟩
  · cases h

/-- What the instruction asks for goes with its kind. -/
def Effect.Fits (a : Activation) (s : Store) (i : Instruction) : Effect → Prop
  | next a' s' => a.Becomes a' ∧ a'.code = a.code ∧ s'.memory.size = s.memory.size + i.slot?.toList.length
  | jump label => i.isTerminator = true ∧ label ∈ i.successors
  | call .. => i.slot? = none
  | ret _ => i.isTerminator = true

theorem Activation.execute_fits {e : Effect} (h : a.execute s i = .ok e) : e.Fits a s i := by
  cases i with
  | alloca slot =>
    cases h
    exact ⟨⟨rfl, rfl, rfl⟩, rfl, Array.size_push _⟩
  | phi =>
    cases h
    exact ⟨⟨rfl, rfl, rfl⟩, rfl, rfl⟩
  | br target =>
    cases h
    exact ⟨rfl, List.mem_singleton_self _⟩
  | store value ptr =>
    simp only [Activation.execute, except_bind_eq_ok] at h
    obtain ⟨x, -, address, -, s₁, hwrite, h⟩ := h
    cases h
    refine ⟨⟨rfl, rfl, rfl⟩, rfl, ?_⟩
    cases address with
    | stack index =>
      rw [Store.write] at hwrite
      split at hwrite <;> cases hwrite
      exact Array.size_setIfInBounds
    | global name =>
      cases hwrite
      rfl
    | function name => cases hwrite
  | neg | not | boolToFloat =>
    simp only [Activation.execute, except_bind_eq_ok] at h
    obtain ⟨_, -, h⟩ := h
    cases h
    exact ⟨⟨rfl, rfl, rfl⟩, rfl, rfl⟩
  | load | binary | compare | logical =>
    simp only [Activation.execute, except_bind_eq_ok] at h
    obtain ⟨_, -, _, -, h⟩ := h
    cases h
    exact ⟨⟨rfl, rfl, rfl⟩, rfl, rfl⟩
  | call | ret =>
    simp only [Activation.execute, except_bind_eq_ok] at h
    obtain ⟨_, -, h⟩ := h
    cases h
    rfl
  | condBr cond thenLabel elseLabel =>
    simp only [Activation.execute, except_bind_eq_ok] at h
    obtain ⟨p, -, h⟩ := h
    cases h
    refine ⟨rfl, ?_⟩
    cases p <;> simp [Instruction.successors]

end

/-! ## An activation and its function -/

/-- The activation is in a block of the function and has executed the instructions of the log. The slots that it has
reserved, with those that are left in the block, are all that the function has. -/
structure Activation.Along (m : Module) (f : Function) (log : List Instruction) (a : Activation) : Prop where
  found : m.function? a.function = some f
  complete : f.Complete m
  blocks : a.blocks = f.attached
  located : ∃ b ∈ f.attached, a.code <:+ b.instructions
  slots : (log ++ a.code).filterMap Instruction.slot? = f.allocas

namespace Activation.Along

variable {m : Module} {f : Function} {log rest : List Instruction} {a a' : Activation} {i : Instruction}

/-- The activation goes on behind an instruction. -/
theorem advance (h : a.Along m f log) (hcode : a.code = i :: rest) (ha : a.Becomes a') (hcode' : a'.code = rest) :
    a'.Along m f (log ++ [i]) where
  found := by rw [ha.function, h.found]
  complete := h.complete
  blocks := ha.blocks.trans h.blocks
  located := by
    obtain ⟨b, hb, hsuffix⟩ := h.located
    rw [hcode] at hsuffix
    exact ⟨b, hb, hcode' ▸ (List.suffix_cons i rest).trans hsuffix⟩
  slots := by rw [hcode', List.append_assoc, List.singleton_append, ← hcode, h.slots]

/-- What an activation has reserved is the first part of what its function has to be reserved. -/
theorem slots_prefix (h : a.Along m f log) : log.filterMap Instruction.slot? <+: f.allocas :=
  ⟨a.code.filterMap Instruction.slot?, by rw [← List.filterMap_append, h.slots]⟩

/-- At a terminator nothing is left to reserve. -/
theorem terminator (h : a.Along m f log) (hcode : a.code = i :: rest) (hi : i.isTerminator = true) :
    rest = [] ∧ log.filterMap Instruction.slot? = f.allocas ∧
      ∃ id b, f.block? id = some b ∧ b.successors = i.successors := by
  obtain ⟨b, hb, before, hbefore⟩ := h.located
  obtain ⟨id, hid⟩ := h.complete.mem_attached_iff.1 hb
  obtain ⟨init, last, hconcat, -, hinit⟩ := Block.of_checkTerminator (h.complete.checkTerminator hid)
  rw [hcode] at hbefore
  obtain rfl := Block.eq_nil_of_terminator hconcat hinit hbefore.symm hi
  have hslots := h.slots
  rw [hcode, List.filterMap_append, List.filterMap_cons_none (Instruction.slot?_of_isTerminator hi)] at hslots
  exact ⟨rfl, by simpa using hslots, id, b, hid, Block.successors_of_concat hbefore.symm⟩

/-- A branch leads to a block that reserves nothing. -/
theorem jump (h : a.Along m f log) (hcode : a.code = i :: rest) (hi : i.isTerminator = true) {label : String}
    (hlabel : label ∈ i.successors) (hjump : ({ a with code := rest } : Activation).jump label = .ok a') :
    a'.Along m f (log ++ [i]) := by
  obtain ⟨rfl, hslots, id, b, hid, hsuccessors⟩ := h.terminator hcode hi
  -- The target is not the entry block, and only that one has slots.
  obtain ⟨id', b', hne, hid', rfl⟩ := h.complete.targets hid label (hsuccessors ▸ hlabel)
  obtain ⟨b'', hfind, ha, hcode'⟩ := becomes_jump hjump
  have hb' : b' = b'' := Option.some.inj ((h.complete.find?_attached hid').symm.trans (h.blocks ▸ hfind))
  subst hb'
  refine ⟨by rw [ha.function]; exact h.found, h.complete, ha.blocks.trans h.blocks, ?_, ?_⟩
  · exact ⟨b', h.complete.mem_attached_iff.2 ⟨id', hid'⟩, hcode' ▸ List.suffix_refl _⟩
  · have hnil : b'.instructions.filterMap Instruction.slot? = [] := h.complete.slots_nil hid' hne
    rw [hcode', List.filterMap_append, hnil, List.append_nil, List.filterMap_append, hslots,
      List.filterMap_cons_none (Instruction.slot?_of_isTerminator hi), List.filterMap_nil, List.append_nil]

end Activation.Along

/-- A new activation has all its slots before it. -/
theorem Activation.along_invoke {m : Module} (hm : m.Finished) {maxDepth : Nat} {s : Store} {name : String}
    {args : List Float} {a : Activation} (h : invoke m maxDepth s name args = .ok (.opened a)) :
    ∃ f, a.Along m f [] ∧ a.base = s.memory.size := by
  obtain ⟨-, f, entry, hf, hhead, henter⟩ := invoke_opened h
  obtain ⟨ha, hcode⟩ := becomes_enter henter
  obtain ⟨others, hattached⟩ := List.head?_eq_some_iff.1 hhead
  have hcomplete : f.Complete m := hm hf (by rw [hattached]; exact List.cons_ne_nil _ _)
  obtain ⟨entry', others', hattached', hentry, -⟩ := hcomplete.attached_eq
  cases hattached.symm.trans hattached'
  have hslots : f.allocas = entry.slots := by
    rw [hcomplete.allocas_eq, Function.slots, hentry]
    rfl
  refine ⟨f, ⟨?_, hcomplete, ha.blocks, ?_, ?_⟩, ha.base⟩
  · rw [ha.function, Module.name_of_function? hf, hf]
  · exact ⟨entry, by rw [hattached]; exact List.mem_cons_self, hcode ▸ List.suffix_refl _⟩
  · rw [List.nil_append, hcode, hslots]
    rfl

/-! ## The memory of a configuration -/

/-- The activations lie one above the other in a memory of the size, each with a cell for each slot that it has
reserved. -/
inductive Piled (m : Module) : Nat → List Activation → List (List Instruction) → Prop where
  | nil : Piled m 0 [] []
  | cons {size a f as log logs} (along : a.Along m f log) (rest : Piled m a.base as logs)
      (size_eq : size = a.base + (log.filterMap Instruction.slot?).length) : Piled m size (a :: as) (log :: logs)

namespace Piled

variable {m : Module} {size : Nat} {a a' : Activation} {as : List Activation} {log rest : List Instruction}
  {logs : List (List Instruction)} {i : Instruction}

/-- The innermost activation executes an instruction. -/
theorem advance (H : Piled m size (a :: as) (log :: logs)) (hcode : a.code = i :: rest) (ha : a.Becomes a')
    (hcode' : a'.code = rest) : Piled m (size + i.slot?.toList.length) (a' :: as) ((log ++ [i]) :: logs) := by
  cases H with
  | cons along below size_eq =>
    refine .cons (along.advance hcode ha hcode') (ha.base ▸ below) ?_
    have hslot : [i].filterMap Instruction.slot? = i.slot?.toList := by
      cases hi : i.slot? <;> simp [hi]
    rw [size_eq, ha.base, List.filterMap_append, List.length_append, hslot, Nat.add_assoc]

/-- The innermost activation executes an instruction that reserves nothing. -/
theorem advance_quiet (H : Piled m size (a :: as) (log :: logs)) (hcode : a.code = i :: rest) (hi : i.slot? = none)
    (ha : a.Becomes a') (hcode' : a'.code = rest) : Piled m size (a' :: as) ((log ++ [i]) :: logs) := by
  have hadvance := H.advance hcode ha hcode'
  rwa [hi] at hadvance

/-- The innermost activation jumps. -/
theorem jump (H : Piled m size (a :: as) (log :: logs)) (hcode : a.code = i :: rest) (hi : i.isTerminator = true)
    {label : String} (hlabel : label ∈ i.successors)
    (hjump : ({ a with code := rest } : Activation).jump label = .ok a') :
    Piled m size (a' :: as) ((log ++ [i]) :: logs) := by
  obtain ⟨_, -, ha, -⟩ := Activation.becomes_jump hjump
  have hbase : a'.base = a.base := ha.base
  cases H with
  | cons along below size_eq =>
    refine .cons (along.jump hcode hi hlabel hjump) (hbase ▸ below) ?_
    rw [size_eq, hbase, List.filterMap_append, List.filterMap_cons_none (Instruction.slot?_of_isTerminator hi)]
    simp

/-- An activation is opened. -/
theorem push (H : Piled m size as logs) {f : Function} (ha : a.Along m f []) (hbase : a.base = size) :
    Piled m size (a :: as) ([] :: logs) :=
  .cons ha (hbase ▸ H) hbase.symm

theorem base_le (H : Piled m size (a :: as) (log :: logs)) : a.base ≤ size := by
  cases H with
  | cons _ _ size_eq => exact size_eq ▸ Nat.le_add_right _ _

theorem along (H : Piled m size (a :: as) (log :: logs)) : ∃ f, a.Along m f log := by
  cases H with
  | cons along => exact ⟨_, along⟩

/-- The innermost activation gets the result of a call. -/
theorem resume (H : Piled m size (a :: as) (log :: logs)) (dest : Nat) (v : RtValue) :
    Piled m size (a.setTemp dest v :: as) (log :: logs) := by
  cases H with
  | cons along rest size_eq =>
    exact .cons ⟨along.found, along.complete, along.blocks, along.located, along.slots⟩ rest size_eq

/-- What lies below the innermost activation. -/
theorem tail (H : Piled m size (a :: as) (log :: logs)) : Piled m a.base as logs := by
  cases H with
  | cons _ rest => exact rest

theorem exists_cons (H : Piled m size (a :: as) logs) : ∃ log rest, logs = log :: rest := by
  cases H with
  | cons => exact ⟨_, _, rfl⟩

/-- No activation has more cells than its function has `alloca`s. -/
theorem size_le (H : Piled m size as logs) : size ≤ (as.map fun a => m.allocaCount a.function).sum := by
  induction H with
  | nil => exact Nat.le_refl 0
  | @cons size a f as log logs along _ size_eq ih =>
    have hcount : m.allocaCount a.function = f.allocas.length := by
      rw [Module.allocaCount, along.found]
      rfl
    have hlength := along.slots_prefix.length_le
    rw [List.map_cons, List.sum_cons, hcount]
    omega

/-- Each activation has reserved slots of its function, none of them twice. -/
theorem forall₂ (H : Piled m size as logs) :
    List.Forall₂ (fun a log => ∃ f, m.function? a.function = some f ∧ f.allocas.Nodup ∧
      log.filterMap Instruction.slot? <+: f.allocas) as logs := by
  induction H with
  | nil => exact .nil
  | cons along _ _ ih =>
    refine .cons ⟨_, along.found, ?_, along.slots_prefix⟩ ih
    rw [along.complete.allocas_eq]
    exact along.complete.named.slots_nodup

end Piled

/-- The notes are on the open activations, and these make up the memory. -/
def Config.Piled (m : Module) (c : Config) (logs : List (List Instruction)) : Prop :=
  Machine.Piled m c.store.memory.size c.activations logs

namespace Config.Piled

variable {m : Module} {maxDepth : Nat} {c c' : Config} {logs : List (List Instruction)}

/-- What a step preserves. -/
theorem next (hm : m.Finished) (H : c.Piled m logs) (hnext : c.next m maxDepth = some (.running c')) :
    c'.Piled m (c.log c' logs) := by
  obtain ⟨log, logs, rfl⟩ := H.exists_cons
  obtain ⟨i, rest, hcode, hmove⟩ := Config.move_next hnext
  have hstay : ∀ {c' : Config}, c'.depth = c.depth → c'.Piled m ((log ++ [i]) :: logs) →
      c'.Piled m (c.log c' (log :: logs)) := fun hdepth H' => by rwa [Config.log_of_stays hcode hdepth]
  cases hmove with
  | @next a s h =>
    obtain ⟨ha, hcode', hgrows⟩ := Activation.execute_fits h
    have hsize : s.memory.size = c.store.memory.size + i.slot?.toList.length := hgrows
    have hadvance := H.advance hcode ⟨ha.function, ha.blocks, ha.base⟩ hcode'
    rw [← hsize] at hadvance
    exact hstay rfl hadvance
  | jump h hi =>
    obtain ⟨hterminator, hlabel⟩ := Activation.execute_fits hi
    exact hstay rfl (H.jump hcode hterminator hlabel h)
  | hosted dest value text hi =>
    exact hstay rfl (H.advance_quiet hcode (Activation.execute_fits hi) ⟨rfl, rfl, rfl⟩ rfl)
  | opened dest h hi =>
    obtain ⟨f, halong, hbase⟩ := Activation.along_invoke hm h
    have hbehind : c.active.Becomes (c.behind rest).active := ⟨rfl, rfl, rfl⟩
    have hwaiting := H.advance_quiet hcode (Activation.execute_fits hi) hbehind rfl
    rw [Config.log_of_opens hcode]
    · exact hwaiting.push halong hbase
    · exact Nat.lt_succ_self _
  | @returned value dest caller callers h hi =>
    -- The memory is cut back to where the activation began, which is all that the others have.
    have hcallers : c.callers = (dest, caller) :: callers := h
    have hdepth : c.depth = callers.length + 1 + 1 := by rw [Config.depth, hcallers, List.length_cons]
    have hsize : (c.store.memory.shrink c.active.base).size = c.active.base := by
      rw [Array.size_shrink, Nat.min_eq_left H.base_le]
    have hbelow := H.tail
    rw [hcallers] at hbelow
    obtain ⟨log', logs', rfl⟩ := hbelow.exists_cons
    have hresumed := hbelow.resume dest (.float value)
    rw [← hsize] at hresumed
    rw [Config.log_of_closes]
    · exact hresumed
    · exact hdepth ▸ Nat.lt_succ_self _

/-- An activation that returns has executed all its `alloca`s. -/
theorem closes {log : List Instruction} (H : c.Piled m (log :: logs)) {o : Outcome} (hnext : c.next m maxDepth = some o)
    (ho : o.Closes c) : ∃ f, m.function? c.active.function = some f ∧ log.filterMap Instruction.slot? = f.allocas := by
  obtain ⟨i, rest, hcode, hmove⟩ := Config.move_next hnext
  obtain ⟨f, halong⟩ := H.along
  suffices hterminator : i.isTerminator = true from ⟨f, halong.found, (halong.terminator hcode hterminator).2.1⟩
  cases hmove with
  | fault => cases ho
  | next | jump | hosted => exact absurd ho (Nat.lt_irrefl _)
  | opened => exact absurd ho (Nat.not_lt_of_le (Nat.le_succ _))
  | returned _ _ hi | finished _ _ hi => exact Activation.execute_fits hi

end Config.Piled

/-- What a run preserves. -/
theorem Logs.piled {M : Machine} (hm : M.module.Finished) (hempty : M.store.memory = #[]) {name : String}
    {args : List Float} {k : Nat} {c : Config} {logs : List (List Instruction)} (h : M.Logs name args k c logs) :
    c.Piled M.module logs := by
  induction h with
  | opened h =>
    obtain ⟨f, halong, hbase⟩ := Activation.along_invoke hm h
    have hstart : Piled M.module M.store.memory.size [] [] := by rw [hempty]; exact .nil
    exact hstart.push halong hbase
  | executed _ hnext ih => exact ih.next hm hnext

/-- Between calls a machine has no memory in use. -/
theorem Life.memory_eq {m : Module} {limits : Limits} {M : Machine} {n : Nat} (h : Life m limits M n) :
    M.store.memory = #[] := by
  induction h with
  | start =>
    have hfold : ∀ (gs : List Global) (s : Store),
        (gs.foldl (fun s g => s.setGlobal g.name g.initial) s).memory = s.memory := fun gs => by
      induction gs with
      | nil => exact fun s => rfl
      | cons g gs ih => exact fun s => ih _
    exact hfold m.globals {}
  | call _ hr ih =>
    rw [hr.call_eq hr.le_stepsLeft, ← ih]
    exact hr.restores.1
  | takeOutput _ ih => exact ih

end Machine

/-! ## Compiled modules -/

/-- A function has as many `alloca`s as its definition asks for, and none without one. -/
theorem Ir.Module.Counted.allocas {m : Module} {items : List Tree} (hcounted : m.Counted items)
    (himplements : m.Implements items) {name : String} {f : Function} (hf : m.function? name = some f) :
    f.allocas.length = (definition? items name).elim 0 fun d => slotCount d.1 d.2 := by
  cases hdef : definition? items name with
  | none =>
    rw [Function.allocas, himplements.attached_eq_nil hdef hf]
    rfl
  | some d =>
    obtain ⟨f', hf', hcodes⟩ := himplements.defined hdef
    obtain ⟨f'', hf'', hcount⟩ := hcounted.defined hdef
    cases hf.symm.trans hf'
    cases hf.symm.trans hf''
    rw [hcodes.complete.1.length_allocas, hcount]
    rfl

/-- Loops do not grow the stack. Whatever was called before, and however long a call of a function of a compiled source
text has been running, the memory is no longer than the open activations' functions have `alloca`s. Each activation
executes these in their order and none of them twice, and when it returns it has executed them all. A function has one
for each parameter of its definition, one for each name that a block of the body binds, and one for each loop whose
variable is not live. The same holds of the program that is recovered from a text that cannot be read. -/
theorem allocas_bound_stack (source moduleName : String) {m : Module} {ds : List Diagnostic}
    (hm : m.Made source moduleName ds) {limits : Limits} {M : Machine} {n : Nat} (hM : Life m limits M n) :
    (∀ name args k c, M.Passes name args k c →
      c.store.memory.size ≤ (c.activations.map fun a => m.allocaCount a.function).sum ∧
      ∃ logs, M.Logs name args k c logs ∧
        List.Forall₂ (fun a log => ∃ f, m.function? a.function = some f ∧ f.allocas.Nodup ∧
          log.filterMap Instruction.slot? <+: f.allocas) c.activations logs ∧
        ∀ o, c.next m limits.maxDepth = some o → o.Closes c → ∃ f log waiting, logs = log :: waiting ∧
          m.function? c.active.function = some f ∧ log.filterMap Instruction.slot? = f.allocas) ∧
    ∃ items, m.Implements items ∧ (∀ t ∈ items, t ∈ (FrontEnd.ofSource source 0).parsed.items) ∧
      (Diagnostic.anyError ds = false → items = (FrontEnd.ofSource source 0).parsed.items) ∧
      ∀ name f, m.function? name = some f →
        f.allocas.length = (definition? items name).elim 0 fun d => slotCount d.1 d.2 := by
  obtain ⟨items, ⟨himplements, hcounted⟩, hitems, hall⟩ := hm.counted
  refine ⟨fun name args k c hc => ?_, items, himplements, hitems, hall, fun name f => hcounted.allocas himplements⟩
  have hmodule : M.module = m := hM.module_eq
  obtain ⟨logs, hlogs⟩ := hc.exists_logs
  have H := hlogs.piled (hmodule ▸ himplements.finished) hM.memory_eq
  rw [hmodule] at H
  refine ⟨H.size_le, logs, hlogs, H.forall₂, fun o ho hcloses => ?_⟩
  obtain ⟨log, waiting, rfl⟩ := H.exists_cons
  obtain ⟨f, hf, hslots⟩ := H.closes ho hcloses
  exact ⟨f, log, waiting, rfl, hf, hslots⟩

/-- A loop without an end, whose body binds a name. -/
theorem allocas_bound_stack_endless :
    let source := "def f(x) for i=x,x,x in var a=x in a"
    let m := (Compilation.ofSource source "m").module
    let M := Machine.start m { maxSteps := 100, maxDepth := 2 }
    Life m { maxSteps := 100, maxDepth := 2 } M 0 ∧ (M.call "f" [1]).1 = .error (.stepLimit 100) ∧
      (∃ f, m.function? "f" = some f ∧ f.allocas.length = 3) ∧
      ∀ k c, M.Passes "f" [1] k c →
        c.store.memory.size ≤ (c.activations.map fun a => m.allocaCount a.function).sum := by
  intro source m M
  have hclean : Diagnostic.anyError (Compilation.ofSource source "m").diagnostics = false := by decide +kernel
  obtain ⟨hbound, items, himplements, -, hall, hcount⟩ :=
    allocas_bound_stack source "m" .compiled (Life.start : Life m { maxSteps := 100, maxDepth := 2 } M 0)
  refine ⟨.start, by decide +kernel, ?_, fun k c hc => (hbound "f" [1] k c hc).1⟩
  have hf : (m.function? "f").isSome = true := by decide +kernel
  obtain ⟨f, hf⟩ := Option.isSome_iff_exists.1 hf
  refine ⟨f, hf, (hcount "f" f hf).trans ?_⟩
  rw [hall hclean]
  decide +kernel

end Monofloat
