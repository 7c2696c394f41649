import Monofloat.Proofs.Budget

/-!
# Activations are apart

All activations of a call keep their variables in one memory, and an address is a plain number. Beside a run we note
what each open activation holds: the memory and the depth as it found them, and the cells that it has reserved since
(`Tracks`). An
activation has no address but of cells that it holds, because addresses come from its own reservations and are neither
passed nor returned. So an activation reads and writes only cells of its own; whatever is in the cells of those that
wait for it, it does the same and leaves them alone. When it ends, in whatever way, the memory is back to what it found.
-/

namespace Monofloat

theorem Ir.Instruction.eq_alloca_of_slot? {i : Instruction} {slot : String} (h : i.slot? = some slot) :
    i = .alloca slot := by
  cases i <;> cases h
  rfl

namespace Machine

open Monofloat.Ir

/-! ## Memory -/

theorem getElem?_shrink {α : Type} (xs : Array α) (n i : Nat) :
    (xs.shrink n)[i]? = if i < n then xs[i]? else none := by
  rw [Array.shrink_eq_take, Array.getElem?_extract, Nat.sub_zero, Nat.zero_add]
  grind

/-- The memory begins with what was found. -/
def Extends (memory found : Array (Option Float)) : Prop := ∀ i < found.size, memory[i]? = found[i]?

namespace Extends

variable {memory memory' found : Array (Option Float)}

theorem refl (memory : Array (Option Float)) : Extends memory memory := fun _ _ => rfl

theorem shrink (h : Extends memory found) : memory.shrink found.size = found := by
  apply Array.ext_getElem?
  intro i
  rw [getElem?_shrink]
  split
  · next hi => exact h i hi
  · next hi => exact (Array.getElem?_eq_none (Nat.le_of_not_lt hi)).symm

theorem of_agree {bound : Nat} (h : Extends memory found) (hle : found.size ≤ bound)
    (hagree : ∀ i < bound, memory'[i]? = memory[i]?) : Extends memory' found :=
  fun i hi => (hagree i (Nat.lt_of_lt_of_le hi hle)).trans (h i hi)

end Extends

/-! ## What a step reads and writes -/

/-- The stack cell that an instruction reads or writes. -/
def Activation.accessed? (a : Activation) : Instruction → Option Nat
  | .load _ ptr | .store _ ptr =>
    match a.evalAddress ptr with
    | .ok (.stack index) => some index
    | _ => none
  | _ => none

/-- The stack cell that the next step reads or writes. -/
def Config.accessed? (c : Config) : Option Nat := c.active.code.head?.bind c.active.accessed?

def Store.setCell (s : Store) (index : Nat) (x : Option Float) : Store :=
  { s with memory := s.memory.setIfInBounds index x }

def Config.setCell (c : Config) (index : Nat) (x : Option Float) : Config :=
  { c with store := c.store.setCell index x }

def Outcome.setCell (index : Nat) (x : Option Float) : Outcome → Outcome
  | running c => running (c.setCell index x)
  | finished value s => finished value (s.setCell index x)
  | failed fault s => failed fault (s.setCell index x)

def Effect.setCell (index : Nat) (x : Option Float) : Effect → Effect
  | next a s => next a (s.setCell index x)
  | e => e

def Invocation.setCell (index : Nat) (x : Option Float) : Invocation → Invocation
  | done value s => done value (s.setCell index x)
  | opened a => opened a

section

variable {a : Activation} {s : Store} {c : Config} {i : Instruction} {index : Nat}

theorem Store.read_setCell {address : Address} (h : address ≠ .stack index) (x : Option Float) :
    (s.setCell index x).read address = s.read address := by
  cases address with
  | stack j =>
    have hj : index ≠ j := fun hj => h (hj ▸ rfl)
    simp [Store.read, Store.setCell, Array.getElem?_setIfInBounds_ne hj]
  | global | function => rfl

theorem Store.write_setCell {address : Address} (h : address ≠ .stack index) (x : Option Float) (y : Float) :
    (s.setCell index x).write address y = (s.write address y).map (Store.setCell · index x) := by
  cases address with
  | stack j =>
    have hj : index ≠ j := fun hj => h (hj ▸ rfl)
    simp only [Store.write, Store.setCell, Array.size_setIfInBounds]
    split
    · rw [Array.setIfInBounds_comm _ _ hj]
      rfl
    · rfl
  | global | function => rfl

theorem Activation.execute_setCell (h : a.accessed? i ≠ some index) (hindex : index < s.memory.size)
    (x : Option Float) : a.execute (s.setCell index x) i = (a.execute s i).map (Effect.setCell index x) := by
  cases i with
  | alloca slot =>
    have hpush : (s.memory.setIfInBounds index x).push none = (s.memory.push none).setIfInBounds index x := by
      grind
    simp [Activation.execute, Except.map, Effect.setCell, Store.setCell, hpush]
  | load dest ptr =>
    simp only [Activation.execute, Activation.accessed?] at h ⊢
    cases haddress : a.evalAddress ptr with
    | error fault => rfl
    | ok address =>
      rw [haddress] at h
      have hread : (s.setCell index x).read address = s.read address :=
        Store.read_setCell (fun hstack => h (by rw [hstack])) x
      simp only [bind, Except.bind, hread]
      cases s.read address <;> rfl
  | store value ptr =>
    simp only [Activation.execute, Activation.accessed?] at h ⊢
    cases a.evalFloat value with
    | error fault => rfl
    | ok y =>
      cases haddress : a.evalAddress ptr with
      | error fault => rfl
      | ok address =>
        rw [haddress] at h
        have hwrite : (s.setCell index x).write address y = (s.write address y).map (Store.setCell · index x) :=
          Store.write_setCell (fun hstack => h (by rw [hstack])) x y
        simp only [bind, Except.bind, hwrite]
        cases s.write address y <;> rfl
  | binary dest op left right | compare dest op left right =>
    simp only [Activation.execute]
    cases a.evalFloat left <;> cases a.evalFloat right <;> rfl
  | logical dest op left right =>
    simp only [Activation.execute]
    cases a.evalBool left <;> cases a.evalBool right <;> rfl
  | neg _ value | ret value =>
    simp only [Activation.execute]
    cases a.evalFloat value <;> rfl
  | not _ value | boolToFloat _ value | condBr value =>
    simp only [Activation.execute]
    cases a.evalBool value <;> rfl
  | call dest callee args =>
    simp only [Activation.execute]
    cases a.evalFloats args <;> rfl
  | phi | br => rfl

theorem invoke_setCell (m : Module) (maxDepth : Nat) (s : Store) (name : String) (args : List Float)
    (index : Nat) (x : Option Float) : invoke m maxDepth (s.setCell index x) name args =
      (invoke m maxDepth s name args).map (Invocation.setCell index x) := by
  have hsize : (s.setCell index x).memory.size = s.memory.size := Array.size_setIfInBounds
  have hdepth : (s.setCell index x).depth = s.depth := rfl
  unfold invoke
  rw [hsize, hdepth]
  split
  · rfl
  · split
    · rfl
    · split
      · split <;> rfl
      · split
        · rfl
        · dsimp only
          cases Activation.enter _ _ _ <;> rfl

theorem shrink_setIfInBounds {α : Type} (xs : Array α) (i n : Nat) (x : α) :
    (xs.setIfInBounds i x).shrink n = (xs.shrink n).setIfInBounds i x := by
  apply Array.ext_getElem?
  intro j
  rw [Array.getElem?_setIfInBounds, getElem?_shrink, getElem?_shrink, Array.getElem?_setIfInBounds, Array.size_shrink]
  grind

theorem Store.close_setCell (s : Store) (base index : Nat) (x : Option Float) :
    (s.setCell index x).close base = (s.close base).setCell index x := by
  rw [Store.close, Store.setCell, shrink_setIfInBounds]
  rfl

theorem Config.execute_setCell (m : Module) (maxDepth : Nat) (h : c.active.accessed? i ≠ some index)
    (hindex : index < c.store.memory.size) (x : Option Float) :
    (c.setCell index x).execute m maxDepth i = (c.execute m maxDepth i).setCell index x := by
  have hexecute := c.active.execute_setCell h hindex x
  simp only [Config.execute, Config.setCell, hexecute]
  cases c.active.execute c.store i with
  | error fault => rfl
  | ok effect =>
    cases effect with
    | next => rfl
    | jump label =>
      simp only [Except.map, Effect.setCell]
      cases c.active.jump label <;> rfl
    | call dest callee args =>
      simp only [Except.map, Effect.setCell, Config.call]
      rw [invoke_setCell m maxDepth c.store callee args index x]
      cases invoke m maxDepth c.store callee args with
      | error fault => rfl
      | ok invocation => cases invocation <;> rfl
    | ret value =>
      simp only [Except.map, Effect.setCell, Config.leave, Store.close_setCell]
      cases c.callers <;> rfl

/-- A step does the same whatever is in a cell that it does not access, and leaves it there. -/
theorem Config.next_setCell (m : Module) (maxDepth : Nat) (h : c.accessed? ≠ some index)
    (hindex : index < c.store.memory.size) (x : Option Float) :
    (c.setCell index x).next m maxDepth = (c.next m maxDepth).map (Outcome.setCell index x) := by
  have hactive : (c.setCell index x).active = c.active := rfl
  simp only [Config.next, hactive]
  cases hcode : c.active.code with
  | nil => rfl
  | cons i rest =>
    have haccess : c.active.accessed? i ≠ some index := by simpa [Config.accessed?, hcode] using h
    exact congrArg some (Config.execute_setCell (c := c.behind rest) m maxDepth haccess hindex x)

end

/-! ## Whose an address is -/

/-- An address in the stack is that of a cell of the list. -/
def RtValue.Within (cells : List Nat) (r : RtValue) : Prop := ∀ index, r = .ptr (.stack index) → index ∈ cells

/-- The activation has no stack address but of the cells. -/
structure Activation.Owns (a : Activation) (cells : List Nat) : Prop where
  slots : ∀ p ∈ a.slots, p.2 ∈ cells
  temps : ∀ {id : Nat} {r : RtValue}, a.temps[id]? = some r → r.Within cells

namespace Activation.Owns

variable {a a' : Activation} {s s' : Store} {i : Instruction} {cells : List Nat} {r : RtValue}

theorem eval (h : a.Owns cells) {v : Value} (hv : a.eval v = .ok r) : r.Within cells := by
  intro index hindex
  subst hindex
  unfold Activation.eval at hv
  dsimp only at hv
  split at hv
  · next found hfound =>
    cases hv
    cases v with
    | constFloat | constBool | global | function | void => cases hfound
    | temp id => exact h.temps hfound _ rfl
    | param k name =>
      obtain ⟨x, -, hx⟩ := Option.map_eq_some_iff.1 hfound
      cases hx
    | slot name =>
      obtain ⟨k, hk, hptr⟩ := Option.map_eq_some_iff.1 hfound
      cases hptr
      obtain ⟨before, behind, hslots, -⟩ := List.lookup_eq_some_iff.1 hk
      exact h.slots (name, index) (by simp [hslots])
  · cases hv

theorem evalAddress (h : a.Owns cells) {v : Value} {index : Nat} (hv : a.evalAddress v = .ok (.stack index)) :
    index ∈ cells := by
  obtain ⟨r, hr, haddress⟩ := except_bind_eq_ok.1 hv
  cases r with
  | float | bool => cases haddress
  | ptr address =>
    cases haddress
    exact h.eval hr _ rfl

theorem accessed (h : a.Owns cells) {index : Nat} (hi : a.accessed? i = some index) : index ∈ cells := by
  unfold Activation.accessed? at hi
  split at hi
  · split at hi
    · next haddress =>
      cases hi
      exact h.evalAddress haddress
    · cases hi
  · split at hi
    · next haddress =>
      cases hi
      exact h.evalAddress haddress
    · cases hi
  · cases hi

theorem setTemp (h : a.Owns cells) (hr : r.Within cells) (dest : Nat) : (a.setTemp dest r).Owns cells where
  slots := h.slots
  temps := fun {id r'} hid => by
    rw [Activation.setTemp, Std.TreeMap.getElem?_insert] at hid
    split at hid
    · cases hid
      exact hr
    · exact h.temps hid

theorem resolvePhis (h : a.Owns cells) {block source : String} {is : List Instruction} {values : List (Nat × RtValue)}
    (hvalues : a.resolvePhis block source is = .ok values) : ∀ p ∈ values, p.2.Within cells := by
  induction is generalizing values with
  | nil =>
    cases hvalues
    exact fun p hp => absurd hp List.not_mem_nil
  | cons i rest ih =>
    cases i with
    | phi dest ty incoming =>
      rw [Activation.resolvePhis] at hvalues
      obtain ⟨r, hr, hvalues⟩ := except_bind_eq_ok.1 hvalues
      obtain ⟨rs, hrs, hvalues⟩ := except_bind_eq_ok.1 hvalues
      cases hvalues
      rw [List.forall_mem_cons]
      refine ⟨?_, ih hrs⟩
      unfold Activation.resolvePhi at hr
      split at hr
      · exact h.eval hr
      · cases hr
    | _ =>
      cases hvalues
      exact fun p hp => absurd hp List.not_mem_nil

theorem foldl_setTemp (h : a.Owns cells) {values : List (Nat × RtValue)} (hvalues : ∀ p ∈ values, p.2.Within cells) :
    (values.foldl (fun a (dest, r) => a.setTemp dest r) a).Owns cells := by
  induction values generalizing a with
  | nil => exact h
  | cons p values ih =>
    obtain ⟨hp, hvalues⟩ := List.forall_mem_cons.1 hvalues
    exact ih (h.setTemp hp p.1) hvalues

theorem enter (h : a.Owns cells) {b : Block} {source : String} (henter : a.enter b source = .ok a') :
    a'.Owns cells := by
  obtain ⟨values, hvalues, henter⟩ := except_bind_eq_ok.1 henter
  cases henter
  have howns := h.foldl_setTemp (h.resolvePhis hvalues)
  exact ⟨howns.slots, howns.temps⟩

theorem jump (h : a.Owns cells) {label : String} (hjump : a.jump label = .ok a') :
    a'.Owns cells ∧ a'.base = a.base := by
  unfold Activation.jump at hjump
  split at hjump
  · exact ⟨h.enter hjump, Activation.base_enter hjump⟩
  · cases hjump

/-- A new activation has no address. -/
theorem invoke {m : Module} {maxDepth : Nat} {name : String} {args : List Float}
    (hinvoke : Machine.invoke m maxDepth s name args = .ok (.opened a)) : a.Owns [] := by
  obtain ⟨-, f, entry, -, -, henter⟩ := invoke_opened hinvoke
  exact enter ⟨fun p hp => absurd hp List.not_mem_nil, fun h => by simp at h⟩ henter

/-- An instruction that reserves nothing writes only to cells that the activation has the address of. -/
theorem execute (h : a.Owns cells) (hi : i.slot? = none) (hnext : a.execute s i = .ok (.next a' s')) :
    a'.Owns cells ∧ a'.base = a.base ∧ s'.memory.size = s.memory.size ∧
      ∀ j, j ∉ cells → s'.memory[j]? = s.memory[j]? := by
  have hset : ∀ {r : RtValue} (dest : Nat), r.Within cells →
      (a.setTemp dest r).Owns cells ∧ (a.setTemp dest r).base = a.base ∧ s.memory.size = s.memory.size ∧
        ∀ j, j ∉ cells → s.memory[j]? = s.memory[j]? :=
    fun dest hr => ⟨h.setTemp hr dest, rfl, rfl, fun _ _ => rfl⟩
  cases i with
  | alloca => cases hi
  | phi =>
    cases hnext
    exact ⟨h, rfl, rfl, fun _ _ => rfl⟩
  | store value ptr =>
    simp only [Activation.execute, except_bind_eq_ok] at hnext
    obtain ⟨x, -, address, haddress, s₁, hwrite, hnext⟩ := hnext
    cases hnext
    refine ⟨h, rfl, ?_⟩
    cases address with
    | stack index =>
      have hindex := h.evalAddress haddress
      rw [Store.write] at hwrite
      split at hwrite <;> cases hwrite
      refine ⟨Array.size_setIfInBounds, fun j hj => Array.getElem?_setIfInBounds_ne ?_⟩
      rintro rfl
      exact hj hindex
    | global name =>
      cases hwrite
      exact ⟨rfl, fun _ _ => rfl⟩
    | function name => cases hwrite
  | neg | not | boolToFloat =>
    simp only [Activation.execute, except_bind_eq_ok] at hnext
    obtain ⟨_, -, hnext⟩ := hnext
    cases hnext
    exact hset _ fun _ hr => by cases hr
  | load | binary | compare | logical =>
    simp only [Activation.execute, except_bind_eq_ok] at hnext
    obtain ⟨_, -, _, -, hnext⟩ := hnext
    cases hnext
    exact hset _ fun _ hr => by cases hr
  | br => cases hnext
  | call | ret | condBr =>
    simp only [Activation.execute, except_bind_eq_ok] at hnext
    obtain ⟨_, -, hnext⟩ := hnext
    cases hnext

end Activation.Owns

/-! ## What activations hold -/

/-- What is noted about an open activation. -/
structure Holding where
  /-- The memory as the activation found it. -/
  found : Array (Option Float)
  /-- The number of activations that were open. -/
  depth : Nat
  /-- The cells that it has reserved since. -/
  cells : List Nat := []

/-- Whether the next step reserves a cell. -/
def Config.reserves (c : Config) : Bool := (c.active.code.head?.bind Instruction.slot?).isSome

/-- The notes after a step from `c` to `c'`: on the activation that it opens, without the one that it closes, or with
the cell that it reserves for the innermost. -/
def Config.follow (c c' : Config) (hs : List Holding) : List Holding :=
  if c.depth < c'.depth then { found := c.store.memory, depth := c.store.depth } :: hs
  else if c'.depth < c.depth then hs.tail
  else if c.reserves then hs.modifyHead fun h => { h with cells := c.store.memory.size :: h.cells }
  else hs

section

variable {c c' : Config}

theorem Config.follow_of_opens (h : c.depth < c'.depth) (hs : List Holding) :
    c.follow c' hs = { found := c.store.memory, depth := c.store.depth } :: hs := if_pos h

theorem Config.follow_of_closes (h : c'.depth < c.depth) (hs : List Holding) : c.follow c' hs = hs.tail := by
  rw [Config.follow, if_neg (Nat.lt_asymm h), if_pos h]

theorem Config.follow_of_stays (h : c'.depth = c.depth) (hs : List Holding) : c.follow c' hs =
    if c.reserves then hs.modifyHead fun h => { h with cells := c.store.memory.size :: h.cells } else hs := by
  rw [Config.follow, h, if_neg (Nat.lt_irrefl _), if_neg (Nat.lt_irrefl _)]

end

/-- The call comes to the configuration, with these notes on the open activations, the innermost first. -/
inductive Tracks (M : Machine) (name : String) (args : List Float) : Config → List Holding → Prop where
  | opened {a} (h : M.invocation name args = .ok (.opened a)) :
      Tracks M name args ⟨M.store.deeper, a, []⟩ [{ found := M.store.memory, depth := M.store.depth }]
  | executed {c c' hs} (h : Tracks M name args c hs)
      (hnext : c.next M.module M.limits.maxDepth = some (.running c')) : Tracks M name args c' (c.follow c' hs)

theorem Passes.exists_tracks {M : Machine} {name : String} {args : List Float} {k : Nat} {c : Config}
    (h : M.Passes name args k c) : ∃ hs, M.Tracks name args c hs := by
  induction h with
  | opened h => exact ⟨_, .opened h⟩
  | executed _ hnext ih =>
    obtain ⟨hs, htracks⟩ := ih
    exact ⟨_, htracks.executed hnext⟩

/-- Between `start` and `top` the activations lie in the memory one above the other, each with its cells above what it
found. -/
inductive Stacked (memory start : Array (Option Float)) : Nat → List Activation → List Holding → Prop where
  | nil {top} (eq : top = start.size) (h : Extends memory start) : Stacked memory start top [] []
  | cons {top a as h hs} (owns : a.Owns h.cells) (base : a.base = h.found.size) (found : Extends memory h.found)
      (le : h.found.size ≤ top) (cells : ∀ index ∈ h.cells, h.found.size ≤ index ∧ index < top)
      (rest : Stacked memory start h.found.size as hs) : Stacked memory start top (a :: as) (h :: hs)

namespace Stacked

variable {memory memory' start : Array (Option Float)} {top : Nat} {a a' : Activation} {as : List Activation}
  {h : Holding} {hs : List Holding}

theorem length_eq (H : Stacked memory start top as hs) : as.length = hs.length := by
  induction H with
  | nil => rfl
  | cons _ _ _ _ _ _ ih => rw [List.length_cons, List.length_cons, ih]

theorem owns (H : Stacked memory start top (a :: as) (h :: hs)) : a.Owns h.cells := by
  cases H with
  | cons owns => exact owns

/-- Only what lies below `top` matters. -/
theorem of_agree (H : Stacked memory start top as hs) (hagree : ∀ i < top, memory'[i]? = memory[i]?) :
    Stacked memory' start top as hs := by
  induction H with
  | nil eq h => exact .nil eq (h.of_agree (Nat.le_of_eq eq.symm) hagree)
  | cons owns base found le cells _ ih =>
    exact .cons owns base (found.of_agree le hagree) le cells (ih fun i hi => hagree i (Nat.lt_of_lt_of_le hi le))

theorem extends_found (H : Stacked memory start top as hs) : ∀ h ∈ hs, Extends memory h.found := by
  induction H with
  | nil => exact fun h hh => absurd hh List.not_mem_nil
  | cons _ _ found _ _ _ ih => exact List.forall_mem_cons.2 ⟨found, ih⟩

theorem cells_lt (H : Stacked memory start top as hs) : ∀ h ∈ hs, ∀ index ∈ h.cells, index < top := by
  induction H with
  | nil => exact fun h hh => absurd hh List.not_mem_nil
  | cons _ _ _ le cells _ ih =>
    refine List.forall_mem_cons.2 ⟨fun index hindex => (cells index hindex).2, fun h hh index hindex => ?_⟩
    exact Nat.lt_of_lt_of_le (ih h hh index hindex) le

/-- The innermost activation goes on, and writes only to its own cells. -/
theorem replace (H : Stacked memory start memory.size (a :: as) (h :: hs)) (howns : a'.Owns h.cells)
    (hbase : a'.base = a.base) (hsize : memory'.size = memory.size) (hagree : ∀ j, j ∉ h.cells → memory'[j]? = memory[j]?) :
    Stacked memory' start memory'.size (a' :: as) (h :: hs) := by
  cases H with
  | cons _ base found le cells rest =>
    have hbelow : ∀ i < h.found.size, memory'[i]? = memory[i]? := fun i hi =>
      hagree i fun hcell => Nat.not_le_of_lt hi (cells i hcell).1
    rw [hsize]
    exact .cons howns (hbase.trans base) (found.of_agree (Nat.le_refl _) hbelow) le cells (rest.of_agree hbelow)

/-- The innermost activation reserves a cell. -/
theorem reserve (H : Stacked memory start memory.size (a :: as) (h :: hs)) (slot : String) (code : List Instruction) :
    Stacked (memory.push none) start (memory.push none).size
      ({ a with code := code, slots := (slot, memory.size) :: a.slots } :: as)
      ({ h with cells := memory.size :: h.cells } :: hs) := by
  cases H with
  | cons owns base found le cells rest =>
    have hbelow : ∀ i < memory.size, (memory.push none)[i]? = memory[i]? := fun i hi => by
      rw [Array.getElem?_push_lt hi, Array.getElem?_eq_getElem hi]
    have howns : Activation.Owns { a with code := code, slots := (slot, memory.size) :: a.slots }
        (memory.size :: h.cells) := by
      refine ⟨List.forall_mem_cons.2 ⟨List.mem_cons_self, fun p hp => ?_⟩, fun hid index hindex => ?_⟩
      · exact List.mem_cons_of_mem _ (owns.slots p hp)
      · exact List.mem_cons_of_mem _ (owns.temps hid index hindex)
    rw [Array.size_push]
    refine .cons howns base (found.of_agree le hbelow) (Nat.le_succ_of_le le) ?_
      (rest.of_agree fun i hi => hbelow i (Nat.lt_of_lt_of_le hi le))
    refine List.forall_mem_cons.2 ⟨⟨le, Nat.lt_succ_self _⟩, fun index hindex => ?_⟩
    exact ⟨(cells index hindex).1, Nat.lt_succ_of_lt (cells index hindex).2⟩

/-- An activation is opened. -/
theorem push (H : Stacked memory start memory.size as hs) (howns : a.Owns []) (hbase : a.base = memory.size)
    (depth : Nat) : Stacked memory start memory.size (a :: as) ({ found := memory, depth := depth } :: hs) :=
  .cons howns hbase (.refl memory) (Nat.le_refl _) (fun _ hindex => absurd hindex List.not_mem_nil) H

/-- The innermost activation is closed, and its memory given back. -/
theorem pop (H : Stacked memory start memory.size (a :: as) (h :: hs)) :
    memory.shrink a.base = h.found ∧ Stacked h.found start h.found.size as hs := by
  cases H with
  | cons _ base found _ _ rest => exact ⟨base ▸ found.shrink, rest.of_agree fun i hi => (found i hi).symm⟩

end Stacked

/-- The depth counts the activations that are noted, over those that were open at the start. -/
def Counted (start : Nat) : (depth : Nat) → List Holding → Prop
  | depth, [] => depth = start
  | depth, h :: hs => depth = h.depth + 1 ∧ Counted start h.depth hs

theorem Counted.next {m : Module} {maxDepth start : Nat} {c c' : Config} {h : Holding} {hs : List Holding}
    (H : Counted start c.store.depth (h :: hs)) (hnext : c.next m maxDepth = some (.running c')) :
    Counted start c'.store.depth (c.follow c' (h :: hs)) := by
  obtain ⟨i, rest, -, hmove⟩ := Config.move_next hnext
  have hstay : ∀ {c' : Config}, c'.depth = c.depth → c'.store.depth = c.store.depth →
      Counted start c'.store.depth (c.follow c' (h :: hs)) := by
    intro c' hdepth hcount
    rw [Config.follow_of_stays hdepth, hcount]
    split <;> exact H
  cases hmove with
  | next hexecute => exact hstay rfl (depth_execute hexecute)
  | jump | hosted => exact hstay rfl rfl
  | opened =>
    rw [Config.follow_of_opens (Nat.lt_succ_self _)]
    exact ⟨rfl, H⟩
  | @returned value dest caller callers hcallers =>
    have hdepth : c.depth = callers.length + 1 + 1 := congrArg (·.length + 1) hcallers
    rw [Config.follow_of_closes (hdepth ▸ Nat.lt_succ_self _)]
    show Counted start (c.store.depth - 1) hs
    rw [H.1]
    exact H.2

/-! ## Closing activations -/

section

variable {s : Store} {memory : Array (Option Float)} {depth : Nat} {a : Activation} {as : List Activation} {h : Holding}
  {hs : List Holding}

/-- Closing the innermost activation restores what it found. -/
theorem close_eq (H : Stacked s.memory memory s.memory.size (a :: as) (h :: hs))
    (hcount : Counted depth s.depth (h :: hs)) : s.close a.base = { s with memory := h.found, depth := h.depth } := by
  rw [Store.close, H.pop.1, hcount.1]
  rfl

/-- Closing some of the activations, from the innermost on, restores what the last of them found. -/
theorem foldl_close_take (H : Stacked s.memory memory s.memory.size as hs) (hcount : Counted depth s.depth hs) {n : Nat}
    (hh : hs[n]? = some h) :
    (as.take (n + 1)).foldl (fun s a => s.close a.base) s = { s with memory := h.found, depth := h.depth } := by
  induction as generalizing s hs n with
  | nil =>
    cases H with
    | nil => cases hh
  | cons a as ih =>
    cases hs with
    | nil => cases hh
    | cons h' hs =>
      rw [List.take_succ_cons, List.foldl_cons, close_eq H hcount]
      cases n with
      | zero =>
        cases hh
        rfl
      | succ n => exact ih H.pop.2 hcount.2 hh

/-- Closing all of them restores what was there at the start. -/
theorem foldl_close (H : Stacked s.memory memory s.memory.size as hs) (hcount : Counted depth s.depth hs) :
    as.foldl (fun s a => s.close a.base) s = { s with memory := memory, depth := depth } := by
  induction as generalizing s hs with
  | nil =>
    cases H with
    | nil eq h =>
      have hmemory : s.memory = memory := by simpa [← eq] using h.shrink
      rw [← hmemory, ← show s.depth = depth from hcount]
      rfl
  | cons a as ih =>
    cases hs with
    | nil => cases H
    | cons h hs =>
      rw [List.foldl_cons, close_eq H hcount]
      exact ih H.pop.2 hcount.2

end

/-- The activations of the configuration hold what is noted, above what was there at the start. -/
def Config.Holds (c : Config) (start : Array (Option Float)) (hs : List Holding) : Prop :=
  Stacked c.store.memory start c.store.memory.size c.activations hs

namespace Config.Holds

variable {m : Module} {maxDepth : Nat} {c c' : Config} {o : Outcome} {start : Array (Option Float)}
  {h : Holding} {hs : List Holding}

theorem owns (H : c.Holds start (h :: hs)) : c.active.Owns h.cells := Stacked.owns H

theorem depth_eq (H : c.Holds start hs) : c.depth = hs.length := by
  have hlength := H.length_eq
  rwa [Config.activations, List.length_cons, List.length_map] at hlength

theorem behind (H : c.Holds start (h :: hs)) (rest : List Instruction) : (c.behind rest).Holds start (h :: hs) :=
  H.replace ⟨H.owns.slots, H.owns.temps⟩ rfl rfl fun _ _ => rfl

theorem next (H : c.Holds start (h :: hs)) (hnext : c.next m maxDepth = some (.running c')) :
    c'.Holds start (c.follow c' (h :: hs)) := by
  obtain ⟨i, rest, hcode, hmove⟩ := Config.move_next hnext
  have hreserves : c.reserves = i.slot?.isSome := by simp [Config.reserves, hcode]
  have hstay : ∀ {c' : Config} {hs' : List Holding}, c'.depth = c.depth → c'.Holds start hs' →
      (if i.slot?.isSome then { h with cells := c.store.memory.size :: h.cells } :: hs else h :: hs) = hs' →
        c'.Holds start (c.follow c' (h :: hs)) := by
    intro c' hs' hdepth H' hhs'
    rw [Config.follow_of_stays hdepth, hreserves]
    exact hhs' ▸ H'
  cases hslot : i.slot? with
  | some slot =>
    obtain rfl := Instruction.eq_alloca_of_slot? hslot
    rw [Config.next, hcode] at hnext
    cases hnext
    exact hstay rfl (H.reserve slot rest) rfl
  | none =>
    rw [hslot] at hstay
    have Hb := H.behind rest
    cases hmove with
    | next hexecute =>
      obtain ⟨howns, hbase, hsize, hagree⟩ := Hb.owns.execute hslot hexecute
      exact hstay rfl (Hb.replace howns hbase hsize hagree) rfl
    | jump hjump =>
      obtain ⟨howns, hbase⟩ := Hb.owns.jump hjump
      exact hstay rfl (Hb.replace howns hbase rfl fun _ _ => rfl) rfl
    | hosted dest value text =>
      exact hstay rfl (Hb.replace (Hb.owns.setTemp (fun _ hr => by cases hr) dest) rfl rfl fun _ _ => rfl) rfl
    | opened dest hinvoke =>
      rw [Config.follow_of_opens (Nat.lt_succ_self _)]
      exact Hb.push (.invoke hinvoke) (base_of_invoke hinvoke) c.store.depth
    | @returned value dest caller callers hcallers =>
      have hdepth : c.depth = callers.length + 1 + 1 := congrArg (·.length + 1) hcallers
      obtain ⟨hfound, hrest⟩ := Hb.pop
      rw [hcallers] at hrest
      rw [Config.follow_of_closes (hdepth ▸ Nat.lt_succ_self _), List.tail_cons]
      unfold Config.Holds
      dsimp only [Store.close]
      rw [hfound]
      cases hs with
      | nil => cases hrest
      | cons h' hs =>
        exact hrest.replace (hrest.owns.setTemp (fun _ hr => by cases hr) dest) rfl rfl fun _ _ => rfl

theorem exists_cons (H : c.Holds start hs) : ∃ h waiting, hs = h :: waiting := by
  cases H with
  | cons => exact ⟨_, _, rfl⟩

/-- A step leaves the memory as it is below what the innermost activation has added. -/
theorem agree_next (H : c.Holds start (h :: hs)) (hnext : c.next m maxDepth = some o) :
    ∀ j < h.found.size, o.store.memory[j]? = c.store.memory[j]? := by
  intro j hj
  obtain ⟨i, rest, -, hmove⟩ := Config.move_next hnext
  obtain ⟨hle, hcells⟩ : h.found.size ≤ c.store.memory.size ∧ j ∉ h.cells := by
    cases H with
    | cons _ _ _ le cells => exact ⟨le, fun hcell => Nat.not_le_of_lt hj (cells j hcell).1⟩
  have Hb := H.behind rest
  cases hmove with
  | next hexecute =>
    cases hslot : i.slot? with
    | some slot =>
      obtain rfl := Instruction.eq_alloca_of_slot? hslot
      cases hexecute
      have hlt := Nat.lt_of_lt_of_le hj hle
      exact (Array.getElem?_push_lt hlt).trans (Array.getElem?_eq_getElem hlt).symm
    | none => exact (Hb.owns.execute hslot hexecute).2.2.2 j hcells
  | fault | jump | hosted | opened => rfl
  | returned | finished =>
    obtain ⟨hfound, -⟩ := Hb.pop
    show ((c.behind rest).store.memory.shrink (c.behind rest).active.base)[j]? = _
    rw [hfound]
    exact (Hb.extends_found h List.mem_cons_self j hj).symm

end Config.Holds

theorem Tracks.holds {M : Machine} {name : String} {args : List Float} {c : Config} {hs : List Holding}
    (h : M.Tracks name args c hs) : c.Holds M.store.memory hs := by
  induction h with
  | opened h =>
    exact (Stacked.nil rfl (.refl _)).push (.invoke h) (base_of_invoke h) M.store.depth
  | executed _ hnext ih =>
    obtain ⟨h, waiting, rfl⟩ := ih.exists_cons
    exact ih.next hnext

theorem Tracks.counted {M : Machine} {name : String} {args : List Float} {c : Config} {hs : List Holding}
    (h : M.Tracks name args c hs) : Counted M.store.depth c.store.depth hs := by
  induction h with
  | opened => exact ⟨rfl, rfl⟩
  | executed h hnext ih =>
    obtain ⟨h, waiting, rfl⟩ := h.holds.exists_cons
    exact ih.next hnext

/-! ## Isolation -/

/-- The activation that is active in `c` and holds `h` is apart from those that wait for it. -/
structure Config.Isolated (m : Module) (maxDepth : Nat) (c : Config) (h : Holding) (waiting : List Holding) :
    Prop where
  depth : c.depth = waiting.length + 1
  /-- It reads and writes only cells that it has reserved. -/
  accessed : ∀ index, c.accessed? = some index → index ∈ h.cells
  /-- These are not cells of the others. -/
  apart : ∀ h' ∈ waiting, ∀ index ∈ h'.cells, index ∉ h.cells
  /-- It does not change a cell of the others. -/
  untouched : ∀ h' ∈ waiting, ∀ index ∈ h'.cells, ∀ o, c.next m maxDepth = some o →
    o.store.memory[index]? = c.store.memory[index]?
  /-- Nor does it see what is in the cell. -/
  unseen : ∀ h' ∈ waiting, ∀ index ∈ h'.cells, ∀ x,
    (c.setCell index x).next m maxDepth = (c.next m maxDepth).map (Outcome.setCell index x)
  /-- When it returns to its caller, the depth and the memory are those that it found. -/
  returned : ∀ c', c.next m maxDepth = some (.running c') → c'.depth < c.depth →
    c'.depth = waiting.length ∧ c'.store.memory = h.found ∧ c'.store.depth = h.depth
  finished : ∀ value s, c.next m maxDepth = some (.finished value s) → s.memory = h.found ∧ s.depth = h.depth
  failed : ∀ fault s, c.next m maxDepth = some (.failed fault s) → s = c.store
  /-- The memory still begins with what each open activation found, so that it can be given back at any time. -/
  restores : ∀ h' ∈ h :: waiting, c.store.memory.shrink h'.found.size = h'.found
  /-- When a fault closes one activation after the other, behind each of them the depth and the memory are those that it
  found. -/
  unwound : ∀ n h', (h :: waiting)[n]? = some h' →
    (c.activations.take (n + 1)).foldl (fun s a => s.close a.base) c.store =
      { c.store with memory := h'.found, depth := h'.depth }

theorem Config.Holds.isolated {c : Config} {start : Array (Option Float)} {first : Nat} {h : Holding}
    {waiting : List Holding} (H : c.Holds start (h :: waiting)) (hcount : Counted first c.store.depth (h :: waiting))
    (m : Module) (maxDepth : Nat) : c.Isolated m maxDepth h waiting := by
  have hbelow : ∀ h' ∈ waiting, ∀ index ∈ h'.cells, index < h.found.size := by
    cases H with
    | cons _ _ _ _ _ rest => exact rest.cells_lt
  have hapart : ∀ h' ∈ waiting, ∀ index ∈ h'.cells, index ∉ h.cells := by
    intro h' hh' index hindex hown
    cases H with
    | cons _ _ _ _ cells => exact Nat.not_le_of_lt (hbelow h' hh' index hindex) (cells index hown).1
  have haccessed : ∀ index, c.accessed? = some index → index ∈ h.cells := by
    intro index hindex
    obtain ⟨i, -, hi⟩ := Option.bind_eq_some_iff.1 hindex
    exact H.owns.accessed hi
  have hclose : ∀ rest, (c.behind rest).store.close (c.behind rest).active.base =
      { c.store with memory := h.found, depth := h.depth } := fun rest => close_eq (H.behind rest) hcount
  refine ⟨H.depth_eq, haccessed, hapart, ?_, ?_, ?_, ?_, ?_, ?_, ?_⟩
  · exact fun h' hh' index hindex o ho => H.agree_next ho index (hbelow h' hh' index hindex)
  · intro h' hh' index hindex x
    have hlt := H.cells_lt h' (List.mem_cons_of_mem _ hh') index hindex
    exact c.next_setCell m maxDepth (fun hi => hapart h' hh' index hindex (haccessed index hi)) hlt x
  · intro c' hnext hdepth
    obtain ⟨i, rest, -, hmove⟩ := Config.move_next hnext
    have hle : c.depth = waiting.length + 1 := H.depth_eq
    cases hmove with
    | next | jump | hosted => exact absurd hdepth (Nat.lt_irrefl _)
    | opened => exact absurd hdepth (Nat.not_lt_of_le (Nat.le_succ _))
    | @returned value dest caller callers hcallers =>
      have hcaller : c.depth = callers.length + 1 + 1 := congrArg (·.length + 1) hcallers
      rw [hclose]
      exact ⟨Nat.succ.inj (hcaller.symm.trans hle), rfl, rfl⟩
  · intro value s hnext
    obtain ⟨i, rest, -, hmove⟩ := Config.move_next hnext
    cases hmove with
    | finished =>
      rw [hclose]
      exact ⟨rfl, rfl⟩
  · intro fault s hnext
    obtain ⟨i, rest, -, hmove⟩ := Config.move_next hnext
    cases hmove with
    | fault => rfl
  · exact fun h' hh' => (H.extends_found h' hh').shrink
  · exact fun n h' hh' => foldl_close_take H hcount hh'

/-- However a call ends, the memory and the depth are those that it found. -/
theorem Returns.restores {M : Machine} {name : String} {args : List Float} {n : Nat} {r : Except Fault Float}
    {s : Store} (h : M.Returns name args n r s) : s.memory = M.store.memory ∧ s.depth = M.store.depth := by
  have hunwind : ∀ {k c}, M.Passes name args k c →
      (c.unwind c.store).memory = M.store.memory ∧ (c.unwind c.store).depth = M.store.depth := fun hc => by
    obtain ⟨hs, htracks⟩ := hc.exists_tracks
    rw [Config.unwind, foldl_close htracks.holds htracks.counted]
    exact ⟨rfl, rfl⟩
  cases h with
  | refused => exact ⟨rfl, rfl⟩
  | hosted h =>
    obtain ⟨-, text, rfl⟩ := invoke_done h
    exact ⟨rfl, rfl⟩
  | fellThrough h | exhausted h => exact hunwind h
  | @finished k c value s h hnext =>
    obtain ⟨i, rest, -, hmove⟩ := Config.move_next hnext
    cases hmove with
    | finished value hcallers =>
      -- No activation waits, so that the return closes all that are open.
      have hclose : c.unwind c.store = c.store.close c.active.base := by
        rw [Config.unwind, Config.activations, show c.callers = [] from hcallers]
        rfl
      exact hclose ▸ hunwind h
  | failed h hnext =>
    obtain ⟨_, _, -, hmove⟩ := Config.move_next hnext
    cases hmove with
    | fault => exact hunwind h

/-- Activations are apart from each other, whatever the module and the machine are like. A call leaves the memory and
the depth as they were, with whatever result. On the way, each activation reads and writes only cells that it has
reserved itself, neither sees nor changes the cells of an activation that waits for it, and gives the memory back as it
found it; and a fault closes the activations one after the other. -/
theorem activations_isolated (M : Machine) (name : String) (args : List Float) :
    (M.call name args).2.store.memory = M.store.memory ∧ (M.call name args).2.store.depth = M.store.depth ∧
    (∀ k c, M.Passes name args k c → ∃ hs, M.Tracks name args c hs) ∧
    ∀ c hs, M.Tracks name args c hs → ∃ h waiting, hs = h :: waiting ∧
      c.Isolated M.module M.limits.maxDepth h waiting := by
  obtain ⟨n, r, s, hr, hn⟩ := M.exists_returns name args
  obtain ⟨hmemory, hdepth⟩ := hr.restores
  rw [hr.call_eq hn]
  refine ⟨hmemory, hdepth, fun k c hc => hc.exists_tracks, fun c hs htracks => ?_⟩
  obtain ⟨h, waiting, rfl⟩ := htracks.holds.exists_cons
  exact ⟨h, waiting, rfl, htracks.holds.isolated htracks.counted _ _⟩

end Machine

end Monofloat
