import Monofloat.Proofs.ControlFlow
import Monofloat.Proofs.WellFormed

/-!
# Calls do what evaluation does

A call opens an activation at the entry of the callee. The entry reserves the stack slots, the parameters are
stored into theirs, the code of the body does what the body means, and the return gives back the memory with the
value. By induction on the fuel the machine agrees with evaluation about every call of a module that implements
a program.
-/

namespace Monofloat

open Monofloat.Ir Monofloat.Ir.Function Monofloat.Machine Monofloat.Site

/-! ## The slots -/

/-- The configuration behind the slots, with the code behind them. -/
def Machine.Config.reserve (c : Config) (slots : List String) (rest : List Instruction) : Config :=
  { c with
    store := { c.store with memory := c.store.memory ++ Array.replicate slots.length none }
    active := { c.active with
      slots := (slots.zipIdx c.store.memory.size).reverse ++ c.active.slots, code := rest } }

/-- The entry of a function reserves one slot after the other. -/
theorem steps_reserve {m : Module} {maxDepth : Nat} (slots : List String) {c : Config} {rest : List Instruction}
    (hcode : c.active.code = slots.map .alloca ++ rest) :
    Steps m maxDepth slots.length c (c.reserve slots rest) := by
  induction slots generalizing c with
  | nil =>
    have hrefl : c.reserve [] rest = c := by
      rw [← show c.active.code = rest from hcode]
      simp [Config.reserve]
    rw [hrefl]
    exact .refl c
  | cons first slots ih =>
    let c₁ : Config :=
      { c with
        store := { c.store with memory := c.store.memory.push none }
        active := { c.active with
          slots := (first, c.store.memory.size) :: c.active.slots, code := slots.map .alloca ++ rest } }
    have hnext : c.next m maxDepth = some (.running c₁) := next_of_code hcode
    have hreserve : c₁.reserve slots rest = c.reserve (first :: slots) rest := by
      have hmemory : c.store.memory.push none ++ Array.replicate slots.length none =
          c.store.memory ++ Array.replicate (slots.length + 1) none := by
        rw [Array.replicate_succ']
        simp
      simp [Config.reserve, c₁, List.zipIdx_cons, hmemory]
    rw [← hreserve]
    exact .step hnext (ih rfl)

theorem lookup_eq_some_of_mem {entries : List (String × Nat)} (hnodup : (entries.map Prod.fst).Nodup) {slot : String}
    {index : Nat} (h : (slot, index) ∈ entries) : entries.lookup slot = some index := by
  induction entries with
  | nil => cases h
  | cons entry entries ih =>
    obtain ⟨name, i⟩ := entry
    obtain ⟨hname, hrest⟩ := List.nodup_cons.1 hnodup
    rcases List.mem_cons.1 h with heq | h
    · cases heq
      simp
    · have hne : slot ≠ name := fun heq => hname (List.mem_map.2 ⟨_, h, heq⟩)
      rw [Scope.lookup_cons, if_neg hne, ih hrest h]

/-! ## Entering a function -/

/-- The activation of a function that has just been called. -/
def Ir.Function.activation (f : Function) (args : List Float) (s : Store) : Activation where
  function := f.name
  blocks := f.attached
  args := args
  base := s.memory.size
  label := f.label ⟨0⟩
  code := ((f.block? ⟨0⟩).map Block.instructions).getD []

section

variable {X : Setting} {m : Module} {f : Function} {args : List Float} {s : Store}

theorem Ir.Function.Complete.entry (h : f.Complete m) : ∃ b, f.block? ⟨0⟩ = some b ∧
    b.instructions = f.slots.map .alloca ++ b.body ∧ ∀ i ∈ b.body, i.isPhi = false := by
  obtain ⟨b, -, -, hb, -⟩ := h.attached_eq
  have hslots : f.slots = b.slots := by rw [Function.slots, hb]; rfl
  refine ⟨b, hb, hslots ▸ (h.tidy hb).instructions_eq, fun i hi => ?_⟩
  cases i with
  | phi => exact absurd rfl (h.phis hb hi).1
  | _ => rfl

theorem enter_activation (h : f.Complete m) {entry : Block} {others : List Block}
    (hattached : f.attached = entry :: others) :
    ({ function := f.name, blocks := entry :: others, args := args, base := s.memory.size } : Activation).enter entry "" =
      .ok (f.activation args s) := by
  obtain ⟨b, hb, hinstructions, hphi⟩ := h.entry
  obtain ⟨entry', others', hattached', hentry, -⟩ := h.attached_eq
  cases hattached.symm.trans hattached'
  cases hb.symm.trans hentry
  have hhead : ∀ i ∈ entry.instructions.head?, i.isPhi = false := by
    rw [hinstructions]
    cases f.slots with
    | nil => exact fun i hi => hphi i (List.mem_of_mem_head? hi)
    | cons slot slots => rintro i ⟨⟩; rfl
  rw [Activation.enter, resolvePhis_eq_nil _ _ _ hhead]
  simp only [Ir.Function.activation, hattached, hb, Function.label_eq hb]
  rfl

/-- The machine reserves the slots of the function. Then its cells have no value yet. -/
theorem stands_activation (args : List Float) (h : f.Complete X.module) {w : World} (hw : w.Shows s)
    (hdepth : s.depth = X.depth) {p : Site} (hp : p.block = ⟨0⟩)
    (hempty : ∃ b, p.function.block? ⟨0⟩ = some b ∧ b.body = []) :
    ∃ n c, Steps X.module X.maxDepth n ⟨s, f.activation args s, X.callers⟩ c ∧ Stands X f p c ⟨fun _ => none, w⟩ ∧
      c.active.args = args ∧ c.active.base = s.memory.size ∧
      ∀ i < s.memory.size, c.store.memory[i]? = s.memory[i]? := by
  obtain ⟨b, hb, hinstructions, -⟩ := h.entry
  obtain ⟨b₀, hb₀, hbody⟩ := hempty
  have hcode : (f.activation args s).code = f.slots.map .alloca ++ b.body := by
    rw [← hinstructions, Ir.Function.activation, hb]
    rfl
  refine ⟨_, _, steps_reserve f.slots (c := ⟨s, f.activation args s, X.callers⟩) hcode,
    ⟨rfl, hdepth, by rw [hp]; rfl, ⟨b₀, b, by rw [hp, hb₀], by rw [hp, hb], by rw [hbody]; rfl⟩, rfl, ?_, ?_, ?_,
      ⟨hw.globals, hw.output⟩⟩,
    rfl, rfl, fun i hi => ?_⟩
  · show (s.memory ++ Array.replicate f.slots.length none).size = s.memory.size + f.slots.length
    simp
  · intro k slot hk
    show ((f.slots.zipIdx s.memory.size).reverse ++ []).lookup slot = some (s.memory.size + (f.slots.length - 1 - k))
    have hlt : k < f.slots.length := by simpa using (List.getElem?_eq_some_iff.1 hk).1
    rw [List.getElem?_reverse hlt] at hk
    rw [List.append_nil]
    refine lookup_eq_some_of_mem ?_ (List.mem_reverse.2 (List.mk_add_mem_zipIdx_iff_getElem?.2 hk))
    rw [List.map_reverse, List.zipIdx_map_fst]
    exact List.nodup_reverse.2 h.named.slots_nodup
  · intro k hk
    show (s.memory ++ Array.replicate f.slots.length none)[s.memory.size + (f.slots.length - 1 - k)]? = some none
    rw [Array.getElem?_append_right (by omega), Array.getElem?_replicate, if_pos (by omega)]
  · show (s.memory ++ Array.replicate f.slots.length none)[i]? = s.memory[i]?
    exact Array.getElem?_append_left hi

/-! ## Leaving a function -/

/-- What a return comes to: the value goes to the innermost caller. -/
def returned (callers : List (Nat × Activation)) (x : Float) (s : Store) : Outcome :=
  match callers with
  | [] => .finished x s
  | (dest, caller) :: callers => .running ⟨s, caller.setTemp dest (.float x), callers⟩

/-- A return gives back the memory of the activation, and no other. -/
theorem next_of_ret {maxDepth : Nat} {c : Config} {v : Value} {rest : List Instruction}
    (hcode : c.active.code = .ret v :: rest) {x : Float} (hv : c.active.eval v = .ok (.float x))
    (hbase : c.active.base = s.memory.size) (hsize : s.memory.size ≤ c.store.memory.size)
    (hmemory : ∀ i < s.memory.size, c.store.memory[i]? = s.memory[i]?) :
    c.next m maxDepth = some
      (returned c.callers x { c.store with memory := s.memory, depth := c.store.depth - 1 }) := by
  have hshrink : c.store.memory.shrink c.active.base = s.memory := by
    rw [hbase]
    apply Array.ext_getElem?
    intro i
    simp
    grind
  rw [next_of_code hcode, Config.execute, Activation.execute_ret (a := { c.active with code := rest }) hv]
  dsimp only
  rw [Config.leave]
  dsimp only [Store.close]
  rw [hshrink]
  cases c.callers <;> rfl

end

/-! ## Parameters -/

/-- Writes numbers to cells, one behind the other. -/
def Eval.fill (k : Nat) : List Float → Eval Unit
  | [] => return ()
  | x :: xs => do
    .writeCell k x
    fill (k + 1) xs

theorem Eval.fill_apply (xs : List Float) (k : Nat) (st : EvalState) : Eval.fill k xs st =
    some (.ok (), { st with cells := fun j => if k ≤ j ∧ j < k + xs.length then xs[j - k]? else st.cells j }) := by
  induction xs generalizing k st with
  | nil =>
    have hcells : (fun j => if k ≤ j ∧ j < k then none else st.cells j) = st.cells := by
      funext j
      rw [if_neg (by omega)]
    show some (Except.ok (), st) =
      some (Except.ok (), { st with cells := fun j => if k ≤ j ∧ j < k then none else st.cells j })
    rw [hcells]
  | cons x xs ih =>
    rw [fill, Eval.bind_apply]
    refine (ih (k + 1) _).trans ?_
    congr 3
    funext j
    grind

section

variable {X : Setting} {W D : List BlockId}

/-- The first argument is stored, and then the others. -/
theorem runs_fill_cons {p q r : Site} {index k : Nat} {name : String} {x : Float} {xs : List Float}
    (hwrite : Runs X W (Holds (.param index name) (.float x)) p (.writeCell k x) q fun _ _ => True)
    (hrest : Runs X W (fun c => c.active.args.drop (index + 1) = xs) q (.fill (k + 1) xs) r fun _ _ => True)
    (hpq : p.Before all q) (hqr : q.Before all r) :
    Runs X W (fun c => c.active.args.drop index = x :: xs) p (.fill k (x :: xs)) r fun _ _ => True := by
  have hkeep := hwrite.carry (S := fun c => c.active.args.drop index = x :: xs) fun hframe hc => by
    rw [hframe.args]
    exact hc
  refine Runs.bind (R := fun _ c => c.active.args.drop index = x :: xs) ?_ ?_ hpq hqr
  · intro f c st hE hs hargs
    have harg : c.active.args[index]? = some x := by
      rw [← List.head?_drop, hargs]
      rfl
    have hholds : Holds (.param index name) (.float x) c := by
      simp only [Holds, Activation.eval, harg, Option.map_some]
    exact (hkeep hE hs ⟨hargs, hholds⟩).imp fun _ _ _ hkept => ⟨hkept.1, hkept.2.1, hkept.2.2.1⟩
  · intro _ f c st hE hs hargs
    refine hrest hE hs ?_
    show c.active.args.drop (index + 1) = xs
    rw [← List.tail_drop, hargs]
    rfl

/-- The parameters from number `index` on are stored into new cells. -/
theorem lands_spillParams {function : String} (params : List String) (index : Nat) {p : Site} {ρ : Env}
    {xs : List Float} (h : p.Good W D) (hl : Linked ρ p) (hname : p.function.name = function)
    (hlen : xs.length = params.length) :
    Lands W D p (Lower.spillParams function index params p.state) fun q _ =>
      Linked (params.foldl Env.bind ρ) q ∧
        Runs X W (fun c => c.active.args.drop index = xs) p (.fill ρ.next xs) q fun _ _ => True := by
  induction params generalizing index p ρ xs with
  | nil =>
    cases List.eq_nil_of_length_eq_zero hlen
    exact .of_ok rfl h (.refl p) ⟨hl, .pure fun _ _ => trivial⟩
  | cons param params ih =>
    obtain ⟨x, xs, rfl⟩ := List.exists_cons_of_length_eq_add_one hlen
    have hfunction : Lower.build (.function? function) p.state = .ok (some p.function) p.state := by
      show EStateM.Result.ok (p.state.module.function? function) p.state = _
      rw [h.function?_state, if_pos hname.symm]
    rw [Lower.spillParams]
    refine .step hfunction (.refl p) ?_
    rw [Option.bind_some, Function.param?]
    cases hparam : p.function.params[index]? with
    | none => exact .fail
    | some name =>
      let rest : String → Lower Unit := fun slot => do
        Lower.modifyScope (·.bind param slot)
        Lower.spillParams function (index + 1) params
      suffices hlands : Lands W D p (((do
          let slot ← Lower.build (.alloca param)
          Lower.build (.store (.param index name) (.slot slot))
          return slot) >>= rest) p.state) fun q _ => Linked ((param :: params).foldl Env.bind ρ) q ∧
            Runs X W (fun c => c.active.args.drop index = x :: xs) p (.fill ρ.next (x :: xs)) q fun _ _ => True by
        simp only [bind_assoc, pure_bind] at hlands
        exact hlands
      refine (lands_fresh (X := X) h hl param (.param hparam)).bind fun slot q hq hpq hfresh => ?_
      obtain ⟨hlq, hslot, hwrite⟩ := hfresh
      let q₁ := q.withScope (q.scope.bind param slot)
      have hmem := List.mem_reverse.1 (List.mem_of_getElem? hslot)
      have hmodify : Lower.modifyScope (·.bind param slot) q.state = .ok () q₁.state := rfl
      refine .step hmodify (q.before_bind param slot) ?_
      exact (ih (index + 1) (hq.bind hmem param) (hlq.bind hslot param) (hpq.function.name.trans hname)
        (Nat.succ.inj hlen)).imp fun r _ _ hqr hrest =>
          ⟨hrest.1, runs_fill_cons (hwrite x) hrest.2.ofScope hpq ((q.before_bind param slot).trans hqr)⟩

end

/-! ## Bodies -/

theorem linked_opening (s : Lowering) (proto : Prototype) : Linked .empty (opening s proto) where
  next := rfl
  bound hx := by cases hx
  free _ := rfl

/-- The code of a body does what its definition means. -/
theorem functionBody_runs {X : Setting} {s s₁ : Lowering} {proto : Prototype} {body : Tree}
    (h : s.module.arity? proto.name = none) (hbody : body.isExpression = true)
    (hok : Lower.functionBody proto (lower body) (opening s proto).state = .ok () s₁) {args : List Float}
    (hlen : args.length = proto.params.length) :
    ∃ q v, s₁ = (q.returning v).state ∧ q.Good [] [] ∧ (opening s proto).Before all q ∧
      Runs X [] (fun c => c.active.args = args) (opening s proto) (do
        .fill 0 args
        (meaning body).run X.context (.ofParams proto.params)) q fun x => Holds v (.float x) := by
  have hlands : Lands [] [] (opening s proto) ((do
      Lower.spillParams proto.name 0 proto.params
      Lower.asFloat (lower body)) (opening s proto).state) fun q v =>
        Runs X [] (fun c => c.active.args = args) (opening s proto) (do
          .fill 0 args
          (meaning body).run X.context (.ofParams proto.params)) q fun x => Holds v (.float x) := by
    refine (lands_spillParams (X := X) proto.params 0 (opening_good h) (linked_opening s proto) rfl hlen).bind
      fun _ q hq hpq ⟨hlq, hfill⟩ => ?_
    refine ((simulates_lower (X := X) body hbody).asFloat hq hlq).imp fun r v _ hqr ⟨_, _, hruns⟩ => ?_
    exact Runs.bind hfill (fun _ => hruns) hpq hqr
  rw [Lower.functionBody, ← bind_assoc] at hok
  obtain ⟨v, s', hvalue, hret⟩ := bind_eq_ok hok
  obtain ⟨q, rfl, hq, hb, hruns⟩ := hlands v s' hvalue
  cases (build_state (Build.emit_put hq.hosts_builder hq.isOpen (.ret v))).symm.trans hret
  exact ⟨q, v, rfl, hq, hb, hruns⟩

/-- The function is the code of a definition, in a module that has what was there when it was lowered. -/
structure Ir.Function.Codes (m : Module) (params : List String) (body : Tree) (f : Function) : Prop where
  expression : body.isExpression = true
  lowered : ∃ s proto s₁, proto.params = params ∧ s.module.arity? proto.name = none ∧
    Lower.functionBody proto (lower body) (opening s proto).state = .ok () s₁ ∧
    s₁.module.function? proto.name = some f ∧ s₁.module.Covers m

namespace Ir.Function.Codes

variable {m : Module} {params : List String} {body : Tree} {f : Function}

theorem covers {m' : Module} (h : f.Codes m params body) (hm : m.Covers m') : f.Codes m' params body := by
  obtain ⟨s, proto, s₁, hparams, hnew, hok, hf, hcovers⟩ := h.lowered
  exact ⟨h.expression, s, proto, s₁, hparams, hnew, hok, hf, hcovers.trans hm⟩

theorem complete (h : f.Codes m params body) : f.Complete m ∧ f.arity = params.length := by
  obtain ⟨s, proto, s₁, rfl, hnew, hok, hf, hcovers⟩ := h.lowered
  obtain ⟨f', hf', hcomplete, harity⟩ := functionBody_complete hnew (isFlat_of_isExpression body h.expression) hok
  cases hf.symm.trans hf'
  exact ⟨hcomplete.covers hcovers, harity⟩

/-- What the code of a body does between its entry and its return. -/
theorem runs (h : f.Codes m params body) {X : Setting} (hX : X.module = m) {args : List Float}
    (hlen : args.length = params.length) : ∃ s proto q v, proto.params = params ∧
      (opening s proto).Before all q ∧ f = q.function.emit q.block (.ret v) ∧ Ends X [] q f ∧
      Runs X [] (fun c => c.active.args = args) (opening s proto) (do
        .fill 0 args
        (meaning body).run X.context (.ofParams params)) q fun x => Holds v (.float x) := by
  obtain ⟨s, proto, s₁, rfl, hnew, hok, hf, hcovers⟩ := h.lowered
  obtain ⟨q, v, rfl, hq, hb, hruns⟩ := functionBody_runs (X := X) hnew h.expression hok hlen
  have hfunction : f = q.function.emit q.block (.ret v) := by
    rw [hq.function?_returning, if_pos (show proto.name = _ from hb.function.name.symm)] at hf
    exact (Option.some.inj hf).symm
  obtain ⟨b, hblock, -⟩ := hq.underway.current
  have hgrows : Grows (· ∉ []) q.function f := hfunction ▸ .emit hblock rfl fun _ => rfl
  exact ⟨s, proto, q, v, rfl, hb, hfunction,
    ⟨hgrows, hX ▸ (hq.covers_returning v).trans hcovers, hX ▸ h.complete.1⟩, hruns⟩

end Ir.Function.Codes

/-- From its entry the code of a definition leads to its return, as evaluation does to its value. -/
theorem leads_body {X : Setting} {params : List String} {body : Tree} {f : Function} (h : f.Codes X.module params body)
    {args : List Float} (hlen : args.length = params.length) {s : Store} (hdepth : s.depth + 1 = X.depth)
    {w : World} (hw : w.Shows s) :
    X.Leads ⟨s.deeper, f.activation args s, X.callers⟩
      ((meaning body).run X.context (.ofParams params) ⟨fun k => args[k]?, w⟩) fun x st c =>
        ∃ s', c.next X.module X.maxDepth = some (returned X.callers x s') ∧ s'.memory = s.memory ∧
          s'.depth = s.depth ∧ st.world.Shows s' := by
  obtain ⟨s₀, proto, q, v, rfl, hb, hfunction, hends, hruns⟩ := h.runs rfl hlen
  have hempty : ∃ b, (opening s₀ proto).function.block? ⟨0⟩ = some b ∧ b.body = [] :=
    ⟨_, (block?_opened ⟨0⟩).trans (if_pos rfl), rfl⟩
  obtain ⟨n, c, hsteps, hstands, hargs, hbase, hmemory⟩ :=
    stands_activation (X := X) (s := s.deeper) args h.complete.1 ⟨hw.globals, hw.output⟩ hdepth
      (p := opening s₀ proto) rfl hempty
  have hfill : Eval.fill 0 args ⟨fun _ => none, w⟩ = some (.ok (), ⟨fun k => args[k]?, w⟩) := by
    rw [Eval.fill_apply]
    congr 3
    funext k
    grind
  have hleads := hruns hends hstands hargs
  rw [Eval.bind_apply, hfill] at hleads
  refine (Leads.steps hsteps hleads).imp fun x st c' ⟨hstands', hframe, hv⟩ => ?_
  have hgrows : Grows all (q.function.emit q.block (.ret v)) f := by
    rw [hfunction]
    exact .refl _
  obtain ⟨rest, hcode, -⟩ := hstands'.code_emit (g := q.function) rfl (i := .ret v) rfl hgrows
  have hbase' : c'.active.base = s.memory.size := hframe.base.trans hbase
  refine ⟨{ c'.store with memory := s.memory, depth := c'.store.depth - 1 }, ?_, rfl, ?_,
    hstands'.represents.world.globals, hstands'.represents.world.output⟩
  rotate_left
  · rw [hstands'.depth, ← hdepth]
    rfl
  rw [← hstands'.callers]
  refine next_of_ret hcode hv hbase' ?_ fun i hi => ?_
  · rw [hstands'.represents.size, hbase']
    exact Nat.le_add_right _ _
  · rw [hframe.memory i (by rw [hbase]; exact hi)]
    exact hmemory i hi

/-! ## Calls -/

/-- A call of a definition opens an activation, unless there are too many already. -/
theorem invoke_of_codes {m : Module} {name : String} {params : List String} {body : Tree} {f : Function}
    (hf : m.function? name = some f) (h : f.Codes m params body) {args : List Float}
    (hlen : args.length = params.length) (maxDepth : Nat) (s : Store) :
    invoke m maxDepth s name args =
      if maxDepth ≤ s.depth then .error (.stackOverflow maxDepth) else .ok (.opened (f.activation args s)) := by
  obtain ⟨hcomplete, harity⟩ := h.complete
  obtain ⟨entry, others, hattached, -⟩ := hcomplete.attached_eq
  rw [invoke, hf]
  dsimp only
  rw [if_neg (by simp [harity, hlen]), hattached]
  dsimp only
  split
  · rfl
  · rw [enter_activation hcomplete hattached]
    rfl

/-- A call of a declared function is left to the host. -/
theorem invoke_of_declared {m : Module} {name : String} {f : Function} (hf : m.function? name = some f)
    (hattached : f.attached = []) {args : List Float} (hlen : f.arity = args.length) (maxDepth : Nat) (s : Store) :
    invoke m maxDepth s name args =
      match hostCall? name args with
      | some (value, text) => .ok (.done value (s.print text))
      | none => .error (.unresolvedExternal name) := by
  unfold invoke
  cases hostCall? name args <;> simp [hf, hlen, hattached]

theorem Machine.Activation.evalFloats_code (a : Activation) (rest : List Instruction) (vs : List Value) :
    { a with code := rest }.evalFloats vs = a.evalFloats vs := by
  induction vs with
  | nil => rfl
  | cons v vs ih => rw [evalFloats, evalFloats, ih]; rfl

/-- A call instruction comes to what the call comes to. -/
theorem next_of_call (m : Module) (maxDepth : Nat) (s : Store) {a : Activation} (callers : List (Nat × Activation))
    {dest : Nat} {callee : String} {args : List Value} {rest : List Instruction} {xs : List Float}
    (hcode : a.code = .call dest callee args :: rest) (hargs : a.evalFloats args = .ok xs) :
    (⟨s, a, callers⟩ : Config).next m maxDepth = some (
      match invoke m maxDepth s callee xs with
      | .error fault => .failed fault s
      | .ok (.done value s') => .running ⟨s', { a with code := rest }.setTemp dest (.float value), callers⟩
      | .ok (.opened b) => .running ⟨s.deeper, b, (dest, { a with code := rest }) :: callers⟩) := by
  rw [← a.evalFloats_code rest] at hargs
  rw [next_of_code hcode, Config.execute, Activation.execute_call hargs]
  rfl

section

variable {items : List Tree} {name : String} {args : List Float}

theorem evalCall_of_defined {params : List String} {body : Tree} (h : definition? items name = some (params, body))
    (maxDepth fuel depth : Nat) (w : World) : evalCall items maxDepth (fuel + 1) depth name args w =
      if maxDepth ≤ depth then some (.error (.tooDeep maxDepth), w)
      else ((meaning body).run ⟨fuel, evalCall items maxDepth fuel (depth + 1)⟩ (.ofParams params)
        ⟨fun k => args[k]?, w⟩).map fun (r, st) => (r, st.world) := by
  rw [evalCall, h]

theorem evalCall_of_declared (h : definition? items name = none) (maxDepth fuel depth : Nat) (w : World) :
    evalCall items maxDepth (fuel + 1) depth name args w =
      match hostCall? name args with
      | some (x, text) => some (.ok x, { w with output := w.output ++ text })
      | none => some (.error (.unresolvedExternal name), w) := by
  unfold evalCall
  cases hostCall? name args <;> simp [h]

end

/-- The module has the code of each definition of the program, and its other functions are declarations. -/
structure Ir.Module.Implements (m : Module) (items : List Tree) : Prop where
  defined : ∀ {name params body}, definition? items name = some (params, body) →
    ∃ f, m.function? name = some f ∧ f.Codes m params body
  declared : ∀ {name f}, definition? items name = none → m.function? name = some f →
    ∃ proto, .prototype proto ∈ items ∧ proto.name = name ∧ f = .declare proto.name proto.params

theorem Ir.Module.Implements.attached_eq_nil {m : Module} {items : List Tree} (h : m.Implements items) {name : String}
    {f : Function} (hdef : definition? items name = none) (hf : m.function? name = some f) : f.attached = [] := by
  obtain ⟨proto, -, -, rfl⟩ := h.declared hdef hf
  rfl

/-- The machine agrees with evaluation about the calls of a program. -/
theorem Ir.Module.Implements.callsAgree {m : Module} {items : List Tree} (h : m.Implements items)
    (maxDepth fuel depth : Nat) (callers : List (Nat × Activation)) :
    CallsAgree m maxDepth depth callers ⟨fuel, evalCall items maxDepth fuel depth⟩ := by
  induction fuel generalizing depth callers with
  | zero => exact fun _ _ _ _ _ _ _ _ _ _ _ _ _ => ⟨_, .refl _⟩
  | succ fuel ih =>
    intro a s st dest callee args rest xs hcode hargs harity hdepth hw
    obtain ⟨f, hf, hlen⟩ := Option.map_eq_some_iff.1 harity
    have hnext := next_of_call m maxDepth s callers hcode hargs
    show Leads m maxDepth (fuel + 1) _
      ((evalCall items maxDepth (fuel + 1) depth callee xs st.world).map _) _
    cases hdef : definition? items callee with
    | none =>
      rw [invoke_of_declared hf (h.attached_eq_nil hdef hf) hlen] at hnext
      rw [evalCall_of_declared hdef]
      cases hhost : hostCall? callee xs with
      | none =>
        rw [hhost] at hnext
        exact ⟨0, _, _, _, .refl _, hnext, .unresolvedExternal hf (h.attached_eq_nil hdef hf), hw⟩
      | some result =>
        obtain ⟨x, text⟩ := result
        rw [hhost] at hnext
        exact ⟨1, _, .step hnext (.refl _), s.print text, rfl, rfl, rfl,
          ⟨hw.globals, congrArg (· ++ text) hw.output⟩, rfl⟩
    | some definition =>
      obtain ⟨params, body⟩ := definition
      obtain ⟨f', hf', hcodes⟩ := h.defined hdef
      cases hf.symm.trans hf'
      have hlen' : xs.length = params.length := hlen.symm.trans hcodes.complete.2
      rw [invoke_of_codes hf hcodes hlen', hdepth] at hnext
      rw [evalCall_of_defined hdef]
      by_cases hdeep : maxDepth ≤ depth
      · rw [if_pos hdeep] at hnext ⊢
        exact ⟨0, _, _, _, .refl _, hnext, .tooDeep maxDepth, hw⟩
      · rw [if_neg hdeep] at hnext ⊢
        let X : Setting := ⟨m, maxDepth, depth + 1, (dest, { a with code := rest }) :: callers, _, ih _ _⟩
        rw [Option.map_map]
        refine Leads.step_succ hnext (Leads.map (g := fun st' => { st with world := st'.world }) (fun _ => rfl) ?_)
        have hleads := leads_body (X := X) hcodes hlen' (congrArg (· + 1) hdepth) hw
        refine hleads.andThen fun x st' c ⟨s', hret, hmemory, hdepth', hw'⟩ => ?_
        exact ⟨1, _, .step hret (.refl _), s', rfl, hmemory, hdepth', hw', rfl⟩

end Monofloat
