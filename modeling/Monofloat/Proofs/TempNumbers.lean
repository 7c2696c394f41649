import Mathlib.Data.List.Induction
import Monofloat.Proofs.Effects

/-!
# The numbers of temporaries

The temporaries of a function are registered one after the other, and an instruction writes a temporary by its number. A
function is `Numbered` if no two of its instructions write the same number, and each writes a number that is registered
with the type of its result. The first `2 ^ 32` temporaries have numbers of their own, so a function with no more than
these is numbered, whatever operations have built it. The number of the next one is zero again, with which another
instruction may write to what is registered for the first.
-/

namespace Monofloat.Ir

/-! ## Numbers of their own -/

namespace Numbering

/-- The first `count` temporaries have the numbers of their places. -/
def Suffices (numbering : Numbering) (count : Nat) : Prop := ∀ n < count, numbering.number n = n

theorem Suffices.mono {numbering : Numbering} {count count' : Nat} (h : numbering.Suffices count)
    (hle : count' ≤ count) : numbering.Suffices count' := fun n hn => h n (Nat.lt_of_lt_of_le hn hle)

theorem suffices_of_le (numbering : Numbering) {count : Nat} (h : count ≤ UInt32.size) : numbering.Suffices count := by
  intro n hn
  cases numbering with
  | words => exact Nat.mod_eq_of_lt (Nat.lt_of_lt_of_le hn h)
  | unbounded => rfl

end Numbering

namespace Function

/-- The instructions of the function write different temporaries, and each one that is registered with its type. -/
structure Numbered (f : Function) : Prop where
  dests_nodup : (f.blocks.flatMap fun b => b.instructions.filterMap Instruction.dest?).Nodup
  registered : ∀ b ∈ f.blocks, ∀ i ∈ b.instructions, ∀ d, i.dest? = some d →
    d < f.temps.length ∧ f.tempType? d = i.ty?

theorem flatMap_dest? (f : Function) :
    (f.blocks.flatMap fun b => b.instructions.filterMap Instruction.dest?) = f.dests := by
  have hbody : ∀ b : Block, b.instructions.filterMap Instruction.dest? = b.body.filterMap Instruction.dest? := by
    intro b
    rw [Block.body, List.filterMap_filter]
    congr 1
    funext i
    cases i <;> rfl
  simp only [dests, hbody]

namespace Numbered

variable {f : Function} {c : BlockId} {b : Block}

theorem dests_lt (h : f.Numbered) {d : Nat} (hd : d ∈ f.dests) : d < f.temps.length := by
  rw [← flatMap_dest?] at hd
  obtain ⟨b, hb, hd⟩ := List.mem_flatMap.1 hd
  obtain ⟨i, hi, hd⟩ := List.mem_filterMap.1 hd
  exact (h.registered b hb i hi d hd).1

/-- The number of the next temporary is written by no instruction. -/
theorem next_unwritten (h : f.Numbered) (hb : b ∈ f.blocks) {i : Instruction} (hi : i ∈ b.instructions) :
    i.dest? ≠ some f.temps.length := fun hd => Nat.lt_irrefl _ (h.registered b hb i hi _ hd).1

theorem withTemp (h : f.Numbered) (ty : Ty) : (f.withTemp ty).Numbered where
  dests_nodup := h.dests_nodup
  registered b hb i hi d hd := by
    obtain ⟨hlt, hty⟩ := h.registered b hb i hi d hd
    refine ⟨Nat.lt_of_lt_of_le hlt (by simp [Function.withTemp]), ?_⟩
    rw [← hty]
    exact List.getElem?_append_left hlt

theorem create (h : f.Numbered) (label : String) : (f.create label).Numbered where
  dests_nodup := by
    rw [flatMap_dest?, dests_create, ← flatMap_dest?]
    exact h.dests_nodup
  registered b hb i hi d hd := by
    obtain ⟨id, hid⟩ := mem_blocks_iff.1 hb
    obtain ⟨-, rfl⟩ | ⟨-, hid⟩ := create_cases hid
    · cases hi
    · exact h.registered b (mem_blocks_iff.2 ⟨id, hid⟩) i hi d hd

theorem append (h : f.Numbered) (label : String) : (f.appendBlock label).2.Numbered := by
  have hcreate := h.create label
  show (((f.create label).attach? f.nextBlock).getD (f.create label)).Numbered
  unfold attach?
  split
  · exact hcreate
  · exact { hcreate with }

theorem reserve (h : f.Numbered) (hb : f.block? c = some b) (name : String) : (f.reserve c name).Numbered where
  dests_nodup := by
    rw [flatMap_dest?, dests_reserve hb, ← flatMap_dest?]
    exact h.dests_nodup
  registered b' hb' i hi d hd := by
    obtain ⟨id, hid⟩ := mem_blocks_iff.1 hb'
    obtain ⟨-, rfl⟩ | ⟨-, hid⟩ := reserve_cases hb hid
    · obtain rfl | hi := List.mem_cons.1 hi
      · cases hd
      · exact h.registered b (mem_blocks_iff.2 ⟨c, hb⟩) i hi d hd
    · exact h.registered b' (mem_blocks_iff.2 ⟨id, hid⟩) i hi d hd

/-- What the new instruction writes is registered, and new. -/
theorem emit (h : f.Numbered) (hb : f.block? c = some b) {i : Instruction} (hslot : i.slot? = none)
    (hdest : ∀ d, i.dest? = some d → d < f.temps.length ∧ f.tempType? d = i.ty? ∧ d ∉ f.dests) :
    (f.emit c i).Numbered where
  dests_nodup := by
    rw [flatMap_dest?, (dests_emit hb hslot).nodup_iff, ← flatMap_dest?, List.nodup_append]
    refine ⟨h.dests_nodup, by cases i.dest? <;> simp, ?_⟩
    rintro d hd d' hd' rfl
    rw [flatMap_dest?] at hd
    exact (hdest d (Option.mem_toList.1 hd')).2.2 hd
  registered b' hb' j hj d hd := by
    obtain ⟨id, hid⟩ := mem_blocks_iff.1 hb'
    obtain ⟨-, rfl⟩ | ⟨-, hid⟩ := emit_cases hb hid
    · obtain hj | hj := List.mem_append.1 hj
      · exact h.registered b (mem_blocks_iff.2 ⟨c, hb⟩) j hj d hd
      · obtain rfl := List.mem_singleton.1 hj
        exact ⟨(hdest d hd).1, (hdest d hd).2.1⟩
    · exact h.registered b' (mem_blocks_iff.2 ⟨id, hid⟩) j hj d hd

theorem result (h : f.Numbered) (hb : f.block? c = some b) {ty : Ty} {i : Nat → Instruction}
    (hslot : ∀ d, (i d).slot? = none) (hdest : ∀ d, (i d).dest? = some d) (hty : ∀ d, (i d).ty? = some ty) :
    (f.result c ty i).Numbered := by
  refine (h.withTemp ty).emit (b := b) hb (hslot _) fun d hd => ?_
  obtain rfl : f.temps.length = d := Option.some.inj ((hdest _).symm.trans hd)
  refine ⟨by simp [Function.withTemp], ?_, fun hmem => Nat.lt_irrefl _ (h.dests_lt hmem)⟩
  rw [hty]
  exact List.getElem?_concat_length

end Numbered

/-- A function that has numbers enough for its temporaries is numbered. -/
def NumberedBy (numbering : Numbering) (f : Function) : Prop := numbering.Suffices f.temps.length → f.Numbered

/-- Every change keeps a function numbered, as far as numbers suffice. -/
theorem Change.numberedBy {numbering : Numbering} {f g : Function} (h : f.Change numbering g)
    (hf : f.NumberedBy numbering) : g.NumberedBy numbering := by
  intro hsuffices
  cases h with
  | append label =>
    refine (hf ?_).append label
    have htemps : (f.appendBlock label).2.temps = f.temps := by
      show (((f.create label).attach? f.nextBlock).getD (f.create label)).temps = _
      unfold attach?
      split <;> rfl
    rwa [htemps] at hsuffices
  | create label => exact (hf hsuffices).create label
  | attach => exact { hf hsuffices with }
  | reserve _ hb name => exact (hf hsuffices).reserve hb name
  | emit hopen hslot hdest =>
    obtain ⟨b, hb, -⟩ := hopen
    refine (hf hsuffices).emit hb hslot fun d hd => ?_
    rw [hdest] at hd
    cases hd
  | @result c hopen ty i hslot hdest hty =>
    obtain ⟨b, hb, -⟩ := hopen
    have hlength : (f.result c ty fun d => i (numbering.number d)).temps.length = f.temps.length + 1 :=
      List.length_append
    rw [hlength] at hsuffices
    have hresult : (f.result c ty fun d => i (numbering.number d)) = f.result c ty i := by
      rw [Function.result, Function.result, hsuffices _ (Nat.lt_succ_self _)]
    rw [hresult]
    exact (hf (hsuffices.mono (Nat.le_succ _))).result hb hslot hdest hty

end Function

/-! ## What is built -/

theorem built_concat (numbering : Numbering) (name : String) (ops : List ((α : Type) × Operation α))
    (op : (α : Type) × Operation α) :
    built numbering name (ops ++ [op]) = op.2.performOn numbering (built numbering name ops) := List.foldl_concat ..

/-- Where a function comes from, behind one operation more: it was there, it is new, it has been changed, or the
operation has failed and has left a temporary in it. -/
theorem mem_functions_concat {numbering : Numbering} {name : String} {ops : List ((α : Type) × Operation α)}
    {op : (α : Type) × Operation α} {g : Function}
    (hg : g ∈ (built numbering name (ops ++ [op])).1.module.functions) :
    g ∈ (built numbering name ops).1.module.functions ∨ (∃ name params, g = .declare name params) ∨
      (∃ f ∈ (built numbering name ops).1.module.functions, f.Change numbering g) ∨
      ∃ p f ty e, (built numbering name ops).1.At p f ∧ g = f.withTemp ty ∧
        op.2.perform numbering (built numbering name ops).1 =
          .error e ((built numbering name ops).1.put (f.withTemp ty) p.block) := by
  have hregular := regular_built numbering name ops
  have hacts := Build.effect_perform numbering op.2 (built numbering name ops).1
  rw [built_concat, Operation.performOn] at hg
  rw [Build.Acts] at hacts
  cases hop : op.2.perform numbering (built numbering name ops).1 with
  | ok a b =>
    rw [hop] at hacts hg
    exact (hacts.mem_functions hregular hg).imp_right (.imp_right .inl)
  | error e b =>
    rw [hop] at hacts hg
    obtain rfl | ⟨p, f, ty, hf, rfl⟩ := hacts.of_failure hregular
    · exact .inl hg
    · dsimp only at hg
      rw [hf.put_change (show (f.withTemp ty).name = f.name from rfl)] at hg
      obtain rfl | ⟨hmem, -⟩ :=
        Module.eq_or_mem_of_mem_modifyFirst (List.nodup_append.1 hregular.symbols_nodup).1 hg
      · exact .inr (.inr (.inr ⟨p, f, ty, e, hf, rfl, rfl⟩))
      · exact .inl hmem

theorem numberedBy_built (numbering : Numbering) (name : String) (ops : List ((α : Type) × Operation α)) :
    ∀ f ∈ (built numbering name ops).1.module.functions, f.NumberedBy numbering := by
  induction ops using List.reverseRecOn with
  | nil => rintro f ⟨⟩
  | append_singleton ops op ih =>
    intro g hg
    obtain hold | ⟨fname, params, rfl⟩ | ⟨f, hf, hchange⟩ | ⟨p, f, ty, e, hf, rfl, -⟩ := mem_functions_concat hg
    · exact ih g hold
    · exact fun _ => ⟨List.nodup_nil, fun b hb => by cases hb⟩
    · exact hchange.numberedBy (ih f hf)
    · intro hsuffices
      have hle : f.temps.length ≤ (f.withTemp ty).temps.length := by simp [Function.withTemp]
      exact (ih f (List.mem_of_find?_eq_some hf.function) (hsuffices.mono hle)).withTemp ty

theorem numbered_built {numbering : Numbering} {name : String} {ops : List ((α : Type) × Operation α)} {f : Function}
    (hf : f ∈ (built numbering name ops).1.module.functions) (hcount : f.temps.length ≤ UInt32.size) : f.Numbered :=
  numberedBy_built numbering name ops f hf (numbering.suffices_of_le hcount)

/-- Whatever operations are performed on an empty module, whether they succeed or not, its symbols have different names
and its functions are regular, and those with no more than `2 ^ 32` temporaries are numbered. So checks never find a
terminator before the end of a block, nor a slot outside of the entry block. -/
theorem built_module_regular (name : String) (ops : List ((α : Type) × Operation α)) :
    let (b, L) := built .words name ops
    b.module.Regular L ∧ (∀ f ∈ b.module.functions, f.temps.length ≤ UInt32.size → f.Numbered) ∧
      ∀ f d, b.module.checkFunction f = .error d →
        (∀ label, d ≠ .earlyTerminator label) ∧ ∀ slot, d ≠ .allocaOutsideEntry slot :=
  ⟨regular_built .words name ops, fun _ hf hcount => numbered_built hf hcount,
    fun _ _ hd => (regular_built .words name ops).not_misplaced hd⟩

/-- Whatever has been built, an operation that fails leaves the insertion point and the module as they were, except
that the function of the insertion point may have one temporary more. If it had fewer than `2 ^ 32`, no instruction
writes the number of the new one. -/
theorem failure_keeps_builder {α : Type} (name : String) (ops : List ((α : Type) × Operation α)) (op : Operation α)
    (e : BuildError) (b' : Builder) (h : op.perform .words (built .words name ops).1 = .error e b') :
    let b := (built .words name ops).1
    b' = b ∨ ∃ p f ty, b.position = some p ∧ b.module.function? p.function = some f ∧
      b' = { b with module := b.module.modifyFunction p.function fun _ => { f with temps := f.temps ++ [ty] } } ∧
      (f.temps.length < UInt32.size →
        ∀ block ∈ f.blocks, ∀ i ∈ block.instructions, i.dest? ≠ some (f.newTemp ty .words).1) := by
  intro b
  have heffect : b.Effect .words false b' := by
    have hacts := Build.effect_perform .words op b
    rwa [Build.Acts, h] at hacts
  refine (heffect.of_failure (regular_built .words name ops)).imp_right ?_
  rintro ⟨p, f, ty, hf, rfl⟩
  refine ⟨p, f, ty, hf.position, hf.function, hf.put_change rfl, fun hlt block hblock i hi => ?_⟩
  have hnumber : (f.newTemp ty .words).1 = f.temps.length := Nat.mod_eq_of_lt hlt
  rw [hnumber]
  exact (numbered_built (List.mem_of_find?_eq_some hf.function) (Nat.le_of_lt hlt)).next_unwritten hblock hi

/-- Behind the return a negation fails, and leaves a second temporary. -/
theorem failure_keeps_builder_returned :
    let b := (built .words "m" [⟨_, .declareFunction "f" []⟩, ⟨_, .appendBlockIn "f" "entry"⟩,
      ⟨_, .setInsertPoint "f" ⟨0⟩⟩, ⟨_, .neg (.constFloat 1)⟩, ⟨_, .ret (.temp 0)⟩]).1
    ∃ b', (Operation.neg (.temp 0)).perform .words b = .error (.terminated "entry") b' ∧ b' ≠ b ∧
      ∃ p f ty, b.position = some p ∧ b.module.function? p.function = some f ∧
        b' = { b with module := b.module.modifyFunction p.function fun _ => { f with temps := f.temps ++ [ty] } } ∧
        (f.temps.length < UInt32.size →
          ∀ block ∈ f.blocks, ∀ i ∈ block.instructions, i.dest? ≠ some (f.newTemp ty .words).1) := by
  intro b
  have hfails : (Operation.neg (.temp 0)).perform .words b = .error (.terminated "entry")
      { b with module := b.module.modifyFunction "f" fun f => { f with temps := f.temps ++ [.f64] } } := rfl
  have hchanged : ({ b with module := b.module.modifyFunction "f" fun f => { f with temps := f.temps ++ [.f64] } } :
      Builder) ≠ b := by decide +kernel
  exact ⟨_, hfails, hchanged, (failure_keeps_builder "m" _ _ _ _ hfails).resolve_left hchanged⟩

/-! ## Numbers that come again -/

/-- Operations that fail because their instruction cannot be placed leave a temporary each. -/
theorem performAll_stray {b : Builder} {f : Function} {c : BlockId} (h : b.Hosts f.name) (hopen : ¬Build.Open f c)
    (numbering : Numbering) (v : Value) (L : Ledger) (n : Nat) :
    performAll numbering (List.replicate n ⟨_, .neg v⟩) (b.put f c, L) =
      (b.put { f with temps := f.temps ++ List.replicate n .f64 } c, L) := by
  induction n generalizing f with
  | zero => simp [performAll]
  | succ n ih =>
    have hstep : (Operation.neg v).performOn numbering (b.put f c, L) = (b.put (f.withTemp .f64) c, L) := by
      obtain ⟨e, he⟩ := Build.emitResult_of_not_open h hopen .f64 (.neg · v) numbering
      rw [Operation.performOn, show (Operation.neg v).perform numbering (b.put f c) = _ from he]
    rw [List.replicate_succ, performAll, List.foldl_cons, hstep]
    refine (ih (f := f.withTemp .f64) h hopen).trans ?_
    simp [Function.withTemp, List.replicate_succ]

/-- A comparison is placed in the function, and then there are `n` operations that fail. -/
def strayed (n : Nat) : List ((α : Type) × Operation α) :=
  [⟨_, .declareGlobal "g"⟩, ⟨_, .declareFunction "f" []⟩, ⟨_, .appendBlockIn "f" "entry"⟩,
    ⟨_, .setInsertPoint "f" ⟨0⟩⟩, ⟨_, .compare .ult (.constFloat 1) (.constFloat 1)⟩, ⟨_, .setInsertPoint "f" ⟨1⟩⟩] ++
    List.replicate n ⟨_, .neg (.constFloat 1)⟩

/-- The function behind these operations. -/
def strayedFunction (n : Nat) : Function where
  name := "f"
  params := []
  blocks := [⟨"entry", [.compare 0 .ult (.constFloat 1) (.constFloat 1)]⟩]
  layout := [⟨0⟩]
  temps := .bool :: List.replicate n .f64
  names := { taken := ["entry"] }

theorem built_strayed (n : Nat) : (built .words "m" (strayed n)).1 =
    { module := { name := "m", functions := [strayedFunction n], globals := [{ name := "g" }] }
      position := some ⟨"f", ⟨1⟩⟩ } := by
  let b : Builder := {
    module := { name := "m", functions := [strayedFunction 0], globals := [{ name := "g" }] }
    position := some ⟨"f", ⟨1⟩⟩ }
  have hopen : ¬Build.Open (strayedFunction 0) ⟨1⟩ := by
    rintro ⟨block, hblock, -⟩
    cases hblock
  rw [built, strayed, performAll, List.foldl_append]
  have hstray := performAll_stray (b := b) (f := strayedFunction 0) (c := ⟨1⟩) rfl hopen .words (.constFloat 1)
    (built .words "m" (strayed 0)).2 n
  exact congrArg Prod.fst hstray

/-- What follows the operations starts from there. -/
theorem performAll_strayed (n : Nat) (more : List ((α : Type) × Operation α)) :
    ∃ L, built .words "m" (strayed n ++ more) = performAll .words more
      ({ module := { name := "m", functions := [strayedFunction n], globals := [{ name := "g" }] }
         position := some ⟨"f", ⟨1⟩⟩ }, L) := by
  refine ⟨(built .words "m" (strayed n)).2, ?_⟩
  rw [← built_strayed n, built, performAll, List.foldl_append]
  rfl

theorem number_strayedFunction {n : Nat} (hn : n + 1 = UInt32.size) :
    Numbering.words.number (strayedFunction n).temps.length = 0 := by
  rw [strayedFunction, List.length_cons, List.length_replicate, hn]
  exact Nat.mod_self _

/-- A load is placed behind the comparison, and writes the same number. -/
theorem mem_functions_reloaded {n : Nat} (hn : n + 1 = UInt32.size) :
    { strayedFunction n with
      blocks := [⟨"entry", [.compare 0 .ult (.constFloat 1) (.constFloat 1), .load 0 (.global "g")]⟩]
      temps := .bool :: List.replicate n .f64 ++ [.f64] } ∈
    (built .words "m" (strayed n ++ [⟨_, .setInsertPoint "f" ⟨0⟩⟩, ⟨_, .load (.global "g")⟩])).1.module.functions := by
  obtain ⟨L, hL⟩ := performAll_strayed n [⟨_, .setInsertPoint "f" ⟨0⟩⟩, ⟨_, .load (.global "g")⟩]
  have hfunctions : (performAll .words [⟨_, .setInsertPoint "f" ⟨0⟩⟩, ⟨_, .load (.global "g")⟩]
      ({ module := { name := "m", functions := [strayedFunction n], globals := [{ name := "g" }] }
         position := some ⟨"f", ⟨1⟩⟩ }, L)).1.module.functions =
      [(strayedFunction n).result ⟨0⟩ .f64 fun d => .load (Numbering.words.number d) (.global "g")] := rfl
  rw [hL, hfunctions, Function.result, number_strayedFunction hn]
  exact List.mem_singleton.2 rfl

/-- The number of the first temporary comes again, and a comparison and a load of another type write the same one. -/
theorem number_given_twice :
    ∃ f ∈ (built .words "m" (strayed (UInt32.size - 1) ++ [⟨_, .setInsertPoint "f" ⟨0⟩⟩,
        ⟨_, .load (.global "g")⟩])).1.module.functions,
      f.blocks = [⟨"entry", [.compare 0 .ult (.constFloat 1) (.constFloat 1), .load 0 (.global "g")]⟩] ∧
      f.temps.length = UInt32.size + 1 ∧ f.tempType? 0 = some .bool ∧ ¬f.Numbered := by
  obtain ⟨n, hn, hcount⟩ : ∃ n, n = UInt32.size - 1 ∧ n + 1 = UInt32.size := ⟨_, rfl, rfl⟩
  rw [← hn]
  refine ⟨_, mem_functions_reloaded hcount, rfl, ?_, rfl, fun hnumbered => ?_⟩
  · simp only [List.cons_append, List.length_cons, List.length_append, List.length_replicate, List.length_nil]
    omega
  · have hty := hnumbered.registered _ (List.mem_singleton.2 rfl) (.load 0 (.global "g")) (by simp) 0 rfl
    cases hty.2

/-- Behind `2 ^ 32` temporaries a negation fails, and leaves one with a number that a comparison writes. -/
theorem number_left_written :
    ∃ e f, (Operation.neg (.constFloat 1)).perform .words (built .words "m" (strayed (UInt32.size - 1))).1 =
        .error e ((built .words "m" (strayed (UInt32.size - 1))).1.put (f.withTemp .f64) ⟨1⟩) ∧
      (built .words "m" (strayed (UInt32.size - 1))).1.module.function? "f" = some f ∧
      ∃ block ∈ f.blocks, ∃ i ∈ block.instructions, i.dest? = some (f.newTemp .f64 .words).1 := by
  obtain ⟨n, hn, hcount⟩ : ∃ n, n = UInt32.size - 1 ∧ n + 1 = UInt32.size := ⟨_, rfl, rfl⟩
  rw [← hn, built_strayed]
  refine ⟨.unknownBlock "f" ⟨1⟩, strayedFunction n, rfl, rfl, _, List.mem_singleton.2 rfl, _,
    List.mem_singleton.2 rfl, ?_⟩
  rw [Function.newTemp, number_strayedFunction hcount]
  rfl

end Monofloat.Ir
