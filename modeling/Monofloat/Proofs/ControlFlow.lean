import Monofloat.Proofs.Expressions
import Monofloat.Proofs.Simulation

/-!
# Conditionals and loops do what evaluation does

A branch leads to the start of a block: to a site where the block is still empty (`Stands.jump`), or, behind the
arms of a conditional, to the phi that takes the value of the arm (`Stands.meet`). A conditional and a loop are
put together from these. With them there is a lemma for every construct, and the code of an expression does what
the expression means.
-/

namespace Monofloat

open Monofloat.Ir Monofloat.Ir.Function Monofloat.Machine Monofloat.Site

/-! ## Branches -/

/-- The block of the site is empty, and not the entry. -/
def Site.Starts (p : Site) : Prop :=
  p.block ≠ ⟨0⟩ ∧ ∃ b, p.function.block? p.block = some b ∧ b.instructions = []

section

variable {X : Setting} {W D : List BlockId} {p q t : Site} {f : Function} {c : Config} {st : EvalState}

theorem Site.Good.starts_close (h : p.Good W D) {id : BlockId} (hid : id ∈ W) (i : Instruction) :
    (p.close i id).Starts := by
  obtain ⟨hne, hcur, b, hb, hempty⟩ := h.underway.flow.waiting hid
  obtain ⟨b', hb', -⟩ := h.underway.current
  refine ⟨hne, b, ?_, hempty⟩
  show (p.function.emit p.block i).block? id = some b
  rw [block?_emit hb', if_neg hcur, hb]

theorem next_of_jump {m : Module} {maxDepth : Nat} {i : Instruction} {rest : List Instruction} {l : String}
    {a : Activation} (hcode : c.active.code = i :: rest)
    (hexec : { c.active with code := rest }.execute c.store i = .ok (.jump l))
    (hjump : { c.active with code := rest }.jump l = .ok a) :
    c.next m maxDepth = some (.running { c with active := a }) := by
  rw [next_of_code hcode, Config.execute, hexec]
  dsimp only
  rw [hjump]

/-- A branch to the start of a block. -/
theorem Stands.jump (h : Stands X f p c st) {i : Instruction} {rest : List Instruction}
    (hcode : c.active.code = i :: rest)
    (hexec : { c.active with code := rest }.execute c.store i = .ok (.jump (f.label t.block))) (ht : t.Starts)
    (hE : Ends X W t f) (hW : t.block ∉ W) :
    ∃ c', c.next X.module X.maxDepth = some (.running c') ∧ Stands X f t c' st ∧ ∀ k, Frame k c c' := by
  obtain ⟨hne, b, hb, hempty⟩ := ht
  obtain ⟨b', more, hb', -, hbody, -⟩ := hE.grows.block hb
  have hphi := hE.grows.phi_free hW hb hempty hb'
  have hjump := jump_eq (a := { c.active with code := rest }) hE.complete h.represents.blocks hb' hne hphi
  let c' : Config := { c with active := { c.active with label := b'.label, code := b'.body } }
  have hframe : ∀ k, Frame k c c' := fun _ => ⟨rfl, rfl, rfl, rfl, rfl, fun _ _ => rfl, fun _ _ => rfl⟩
  refine ⟨c', ?_,
    ⟨h.callers, h.depth, (Function.label_eq hb').symm, ⟨b, b', hb, hb', ?_⟩,
      (hframe 0).represents rfl h.represents⟩, hframe⟩
  · rw [Function.label_eq hb'] at hexec
    exact next_of_jump hcode hexec hjump
  · rw [Block.body_eq_nil hempty]
    rfl

/-- The branch that completes the current block is the next instruction. -/
theorem Stands.code_leave (h : Stands X f p c st) (hp : p.Good W D) {target next : BlockId}
    (htarget : (p.function.block? target).isSome) {G : BlockId → Prop}
    (hg : Grows G (p.leave target next).function f) : ∃ rest, c.active.code = .br (f.label target) :: rest := by
  obtain ⟨rest, hcode, -⟩ := h.code_emit (g := (p.attach next).function) rfl rfl hg
  refine ⟨rest, ?_⟩
  rw [((hp.grows_leave target next).trans hg).label_eq htarget]
  exact hcode

end

/-! ## Conditionals -/

namespace IfSites

variable {X : Setting} {W D : List BlockId} {p q₁ q₂ : Site} {v x y : Value} {f : Function} {c : Config}
  {st : EvalState}

/-- The arms end in different blocks. -/
theorem ends_ne (h : IfSites W D p v q₁ x q₂ y) : q₁.block ≠ q₂.block := by
  intro heq
  obtain ⟨b₁, hb₁, -⟩ := h.thenGood.underway.current
  obtain ⟨b₂, hb₂, hopen⟩ := h.elseGood.underway.current
  let i : Instruction := .br (q₁.function.label (p.function.fresh 2))
  have hemit : (p.elseStart q₁).function.block? q₁.block = some (b₁.append i) := by
    show ((q₁.function.attach _).emit q₁.block i).block? q₁.block = _
    rw [block?_emit (f := q₁.function.attach _) hb₁, if_pos rfl]
  obtain ⟨b', more, hb', -, hbody, -⟩ := h.elseBefore.function.block hemit
  rw [heq, hb₂] at hb'
  cases hb'
  -- The first arm's last block has its terminator already, the second one's is open.
  have := (h.elseGood.underway.flow.tidy hb₂).not_terminator hopen i (by rw [hbody, Block.body_append rfl]; simp)
  cases this

theorem ends_else (h : IfSites W D p v q₁ x q₂ y) (hE : Ends X W (p.joined q₁ x q₂ y) f) :
    Ends X (p.function.fresh 2 :: W) q₂ f := by
  have hb := (h.before_joinStart fun _ => id).trans (h.before_phi fun _ => id)
  exact hE.earlier hb.function.toGrows hb.module fun id _ hW => not_or.1 (mt List.mem_cons.2 hW)

theorem ends_then (h : IfSites W D p v q₁ x q₂ y) (hE : Ends X W (p.joined q₁ x q₂ y) f) :
    Ends X (p.function.fresh 1 :: p.function.fresh 2 :: W) q₁ f :=
  ((h.ends_else hE).before h.elseBefore).earlier (h.thenGood.grows_leave _ _) (.refl _)
    fun _ _ hW => ⟨trivial, fun hmem => hW (.tail _ hmem)⟩

theorem grows_joinStart (h : IfSites W D p v q₁ x q₂ y) (hE : Ends X W (p.joined q₁ x q₂ y) f) :
    Grows (fun _ => False) (p.joinStart q₂).function f :=
  (h.before_phi fun _ => False.elim).function.toGrows.trans (hE.grows.mono fun _ _ => False.elim)

theorem ends_isSome (h : IfSites W D p v q₁ x q₂ y) :
    ((p.joinStart q₂).function.block? q₁.block).isSome ∧ ((p.joinStart q₂).function.block? q₂.block).isSome := by
  obtain ⟨b₁, hb₁, -⟩ := h.thenGood.underway.current
  obtain ⟨b₂, hb₂, -⟩ := h.elseGood.underway.current
  have helse : Grows all q₂.function (p.joinStart q₂).function := h.elseGood.grows_leave _ _
  have hthen : Grows all q₁.function q₂.function := (h.thenGood.grows_leave _ _).trans h.elseBefore.function.toGrows
  exact ⟨(hthen.trans helse).block_isSome (by rw [hb₁]; rfl), helse.block_isSome (by rw [hb₂]; rfl)⟩

/-- The phi takes the value of the arm that control comes from. -/
theorem find_end (h : IfSites W D p v q₁ x q₂ y) (hE : Ends X W (p.joined q₁ x q₂ y) f) (t : Bool) :
    [(x, (p.joinStart q₂).function.label q₁.block), (y, (p.joinStart q₂).function.label q₂.block)].find?
      (·.2 = f.label (if t then q₁ else q₂).block) =
        some (if t then x else y, f.label (if t then q₁ else q₂).block) := by
  obtain ⟨h₁, h₂⟩ := h.ends_isSome
  have hgrows := h.grows_joinStart hE
  have hne : f.label q₁.block ≠ f.label q₂.block := fun hl =>
    h.ends_ne (hE.complete.named.id_eq_of_label (hgrows.block_isSome h₁) (hgrows.block_isSome h₂) hl)
  rw [← hgrows.label_eq h₁, ← hgrows.label_eq h₂]
  cases t <;> simp [hne]

/-- The condition selects the arm. -/
theorem branch (h : IfSites W D p v q₁ x q₂ y) (hE : Ends X W (p.joined q₁ x q₂ y) f) (hs : Stands X f p c st)
    {t : Bool} (hv : Holds v (.bool t) c) : ∃ c', c.next X.module X.maxDepth = some (.running c') ∧
      Stands X f (if t then p.thenStart v else p.elseStart q₁) c' st ∧ ∀ k, Frame k c c' := by
  have hThen := (h.ends_then hE).before h.thenBefore
  have hElse := (h.ends_else hE).before h.elseBefore
  have hp₁ := h.start.triple "trueexp" "falseexp" "endcond"
  obtain ⟨b, hb, -⟩ := h.start.underway.current
  obtain ⟨rest, hcode, -⟩ := hs.code_emit (g := (p.triple "trueexp" "falseexp" "endcond").function)
    (block?_triple _ _ _ (by rw [hb]; rfl)) rfl hThen.grows
  have hexec := Activation.execute_condBr (a := { c.active with code := rest }) (s := c.store) hv
  have hlabel : ∀ k < 3, (p.triple "trueexp" "falseexp" "endcond").function.label (p.function.fresh k) =
      f.label (p.function.fresh k) := fun k hk =>
    (((hp₁.grows_close rfl _).trans hThen.grows).label_eq (h.start.triple_isSome _ _ _ hk)).symm
  cases t with
  | true =>
    refine hs.jump (t := p.thenStart v) hcode ?_ (hp₁.starts_close (by simp) _) hThen ?_
    · rw [hexec, if_pos rfl, hlabel 0 (by omega)]
      rfl
    · show p.function.fresh 0 ∉ _
      simp [fresh_inj, h.start.fresh_not_mem]
  | false =>
    refine hs.jump (t := p.elseStart q₁) hcode ?_ ?_ hElse ?_
    · rw [hexec, if_neg (by simp), hlabel 1 (by omega)]
      rfl
    · exact (h.thenGood.attach (by simp [fresh_inj, h.start.fresh_not_mem_detached])).starts_close (by simp) _
    · show p.function.fresh 1 ∉ _
      simp [fresh_inj, h.start.fresh_not_mem]

/-- Control comes from the end of an arm to the block where the arms meet. The phi takes the value of the arm. -/
theorem meet (h : IfSites W D p v q₁ x q₂ y) (hE : Ends X W (p.joined q₁ x q₂ y) f) {t : Bool}
    (hs : Stands X f (if t then q₁ else q₂) c st) {rest : List Instruction}
    (hcode : c.active.code = .br (f.label (p.function.fresh 2)) :: rest) {r : RtValue}
    (hr : Holds (if t then x else y) r c) :
    ∃ n c', Steps X.module X.maxDepth n c c' ∧ Stands X f (p.joined q₁ x q₂ y) c' st ∧
      Frame (p.joinStart q₂).function.temps.length c c' ∧
      Holds (.temp (p.joinStart q₂).function.temps.length) r c' := by
  obtain ⟨hne, b, hb, hempty⟩ := h.joinStart_empty
  let dest := (p.joinStart q₂).function.temps.length
  let phi : Instruction := .phi dest .f64 [(x, (p.joinStart q₂).function.label q₁.block),
    (y, (p.joinStart q₂).function.label q₂.block)]
  have hjoined : (p.joined q₁ x q₂ y).function.block? (p.function.fresh 2) = some (b.append phi) := by
    show (((p.joinStart q₂).function.withTemp .f64).emit (p.function.fresh 2) phi).block? _ = _
    rw [block?_emit (f := (p.joinStart q₂).function.withTemp .f64) hb, if_pos rfl]
  obtain ⟨b', more, hb', -, hbody, -⟩ := hE.grows.block hjoined
  have hphi : b'.body = phi :: more := by
    rw [hbody, Block.body_append rfl, Block.body_eq_nil hempty]
    rfl
  have hfind := h.find_end hE t
  rw [← hs.label] at hfind
  have hjump := jump_phi (a := { c.active with code := rest }) hE.complete hs.represents.blocks hb' hne hphi hfind hr
  let c₁ : Config := { c with active := { c.active.setTemp dest r with label := b'.label, code := b'.body } }
  let c₂ : Config := { c₁ with active := { c₁.active with code := more } }
  have hnext₁ : c.next X.module X.maxDepth = some (.running c₁) := by
    rw [Function.label_eq hb'] at hcode
    exact next_of_jump hcode rfl hjump
  have hnext₂ : c₁.next X.module X.maxDepth = some (.running c₂) := by
    rw [next_of_code (c := c₁) hphi]
    rfl
  have hset := Frame.setTemp c more (Nat.le_refl dest) r
  have hframe : Frame dest c c₂ := ⟨rfl, rfl, rfl, rfl, rfl, hset.temps, fun _ _ => rfl⟩
  refine ⟨2, c₂, .step hnext₁ (.step hnext₂ (.refl c₂)), ⟨hs.callers, hs.depth, (Function.label_eq hb').symm, ?_, ?_⟩,
    hframe,
    Activation.eval_setTemp _ _ _⟩
  · exact ⟨_, b', hjoined, hb', hbody⟩
  · exact hframe.represents rfl hs.represents

end IfSites

section

variable {X : Setting} {W D : List BlockId} {p q₁ q₂ : Site} {v x y : Value}

/-- The arm that the condition selects is run. -/
theorem runs_conditional (h : IfSites W D p v q₁ x q₂ y) {a b : Eval Float}
    (hthen : Runs X (p.function.fresh 1 :: p.function.fresh 2 :: W) (fun _ => True) (p.thenStart v) a q₁
      fun z => Holds x (.float z))
    (helse : Runs X (p.function.fresh 2 :: W) (fun _ => True) (p.elseStart q₁) b q₂ fun z => Holds y (.float z))
    (t : Bool) : Runs X W (Holds v (.bool t)) p (if t then a else b) (p.joined q₁ x q₂ y)
      fun z => Holds (.temp (p.joinStart q₂).function.temps.length) (.float z) := by
  intro f c st hE hs hv
  obtain ⟨c₁, hnext, hs₁, hframe⟩ := h.branch hE hs hv
  have hThen := h.ends_then hE
  have hElse := h.ends_else hE
  have hstart := (h.start.before_thenStart (G := fun _ => False) v fun _ => False.elim).temps_le
  have hthenLe := h.thenBefore.temps_le
  have helseLe : q₁.function.temps.length ≤ q₂.function.temps.length := h.elseBefore.temps_le
  have hjoinLe : q₂.function.temps.length ≤ (p.joinStart q₂).function.temps.length := Nat.le_refl _
  refine .step hnext ?_
  cases t with
  | true =>
    refine (hthen hThen hs₁ trivial).andThen fun z st' c₂ ⟨hs₂, hframe₂, hz⟩ => ?_
    obtain ⟨rest, hcode⟩ := hs₂.code_leave h.thenGood (h.thenGood.block_isSome (by simp))
      (hElse.before h.elseBefore).grows
    obtain ⟨n, c₃, hsteps, hs₃, hframe₃, hz₃⟩ := h.meet hE (t := true) hs₂ hcode hz
    exact ⟨n, c₃, hsteps, hs₃, ((hframe _).trans hframe₂ hstart).trans hframe₃ (by omega), hz₃⟩
  | false =>
    refine (helse hElse hs₁ trivial).andThen fun z st' c₂ ⟨hs₂, hframe₂, hz⟩ => ?_
    have hle : p.function.temps.length ≤ (p.elseStart q₁).function.temps.length :=
      Nat.le_trans hstart hthenLe
    obtain ⟨rest, hcode⟩ := hs₂.code_leave h.elseGood (h.elseGood.block_isSome List.mem_cons_self)
      (h.grows_joinStart hE)
    obtain ⟨n, c₃, hsteps, hs₃, hframe₃, hz₃⟩ := h.meet hE (t := false) hs₂ hcode hz
    exact ⟨n, c₃, hsteps, hs₃, ((hframe _).trans hframe₂ hle).trans hframe₃ (by omega), hz₃⟩

section

variable {ρ : Env}

theorem Linked.triple (hl : Linked ρ p) (h : p.Good W D) (l₁ l₂ l₃ : String) : Linked ρ (p.triple l₁ l₂ l₃) := by
  obtain ⟨entry, hentry⟩ := h.underway.entry_isSome
  have hsome : (p.function.block? ⟨0⟩).isSome := by rw [hentry]; rfl
  have hslots : (p.function.triple l₁ l₂ l₃).slots = p.function.slots := by
    unfold Function.slots
    rw [block?_triple _ _ _ hsome]
  exact hl.of_eq hslots rfl

theorem Linked.close (hl : Linked ρ p) (h : p.Good W D) {i : Instruction} (hi : i.isTerminator = true)
    (next : BlockId) : Linked ρ (p.close i next) := by
  obtain ⟨b, hb, -⟩ := h.underway.current
  exact hl.of_eq (slots_emit hb (Instruction.slot?_of_isTerminator hi)) rfl

theorem Linked.leave (hl : Linked ρ p) (h : p.Good W D) (target next : BlockId) : Linked ρ (p.leave target next) := by
  obtain ⟨b, hb, -⟩ := h.underway.current
  exact hl.of_eq (slots_emit (f := p.function.attach next) hb rfl) rfl

theorem Linked.joined (hl : Linked ρ q₂) (h : IfSites W D p v q₁ x q₂ y) : Linked ρ (p.joined q₁ x q₂ y) := by
  obtain ⟨-, b, hb, -⟩ := h.joinStart_empty
  exact (hl.leave h.elseGood _ _).of_eq (slots_emit (f := (p.joinStart q₂).function.withTemp .f64) hb rfl) rfl

end

theorem simulates_conditional {cond thenArm elseArm : Lower Value} {μ ν ξ : Meaning Float} (hc : Simulates X cond μ)
    (ht : Simulates X thenArm ν) (he : Simulates X elseArm ξ) :
    Simulates X (Lower.conditional cond thenArm elseArm) (.conditional μ ν ξ) where
  keeps hx := he.keeps (ht.keeps (hc.keeps hx))
  lands {W D p ρ} hp hl := by
    refine ((hc.asBool hp hl).within _).bind fun v q hq hpq ⟨hv, hlq, hruns⟩ => ?_
    have hq₀ := hq.triple "trueexp" "falseexp" "endcond"
    rw [triple_state hq, bind_of_ok (condBr_state hq₀ v (hq₀.block_isSome (by simp)) (hq₀.block_isSome (by simp))),
      bind_of_ok (position_state _ _)]
    refine ((ht.asFloat (hq.thenStart hv) ((hlq.triple hq _ _ _).close hq₀ rfl _)).within _).andThen
      fun x q₁ hq₁ hb₁ ⟨hx, hlq₁, hruns₁⟩ => ?_
    have hinsert₁ : Lower.build .insertBlock q₁.state = .ok q₁.block q₁.state := build_state Build.insertBlock_put
    rw [bind_of_ok hinsert₁, leave_state hq₁ (hq₁.block_isSome (by simp))]
    refine ((he.asFloat (hq.elseStart hv hq₁ hb₁) (hlq₁.leave hq₁ _ _)).within _).andThen
      fun y q₂ hq₂ hb₂ ⟨hy, hlq₂, hruns₂⟩ => ?_
    have hinsert₂ : Lower.build .insertBlock q₂.state = .ok q₂.block q₂.state := build_state Build.insertBlock_put
    rw [bind_of_ok hinsert₂, leave_state hq₂ (hq₂.block_isSome (by simp))]
    have hsites : IfSites W D q v q₁ x q₂ y := ⟨hq, hv, hq₁, hb₁, hx, hq₂, hb₂, hy⟩
    have hty := hasType_joined q q₁ x q₂ y
    refine .of_ok hsites.phi_state hsites.joined_good hsites.before_joined ⟨.plain hty (by simp),
      hlq₂.joined hsites, ?_⟩
    have harms := fun z => (runs_conditional hsites hruns₁ hruns₂ (truth z)).imp fun _ _ hc => Denotes.of_float hty hc
    exact hruns.bind harms hpq hsites.before_joined

end

/-! ## Loops -/

namespace LoopSites

variable {X : Setting} {W D : List BlockId} {p q r : Site} {v : Value} {f : Function} {c : Config} {st : EvalState}

theorem ends_body (h : LoopSites W D p q v r) (hE : Ends X W (p.loopEnd r) f) : Ends X (p.function.fresh 2 :: W) r f :=
  hE.earlier (h.bodyGood.grows_leave _ _) (.refl _) fun _ _ hW => ⟨trivial, fun hmem => hW (.tail _ hmem)⟩

theorem ends_cond (h : LoopSites W D p q v r) (hE : Ends X W (p.loopEnd r) f) :
    Ends X (p.function.fresh 1 :: p.function.fresh 2 :: W) q f := by
  have hgrows : Grows all q.function (p.bodyStart q v).function :=
    (Grows.attach _ _).trans (h.attach_good.grows_close rfl _)
  exact ((h.ends_body hE).before h.bodyBefore).earlier hgrows (.refl _)
    fun _ _ hW => ⟨trivial, fun hmem => hW (.tail _ hmem)⟩

/-- A branch to the condition, from before the loop or from its end. -/
theorem jump_cond (h : LoopSites W D p q v r) (hE : Ends X W (p.loopEnd r) f) {t : Site} (hs : Stands X f t c st)
    {rest : List Instruction} (hcode : c.active.code = .br (f.label (p.function.fresh 0)) :: rest) :
    ∃ c', c.next X.module X.maxDepth = some (.running c') ∧ Stands X f p.condStart c' st ∧ ∀ k, Frame k c c' := by
  refine hs.jump hcode rfl ((h.start.triple "cond" "loop" "merge").starts_close (by simp) _)
    ((h.ends_cond hE).before h.condBefore) ?_
  show p.function.fresh 0 ∉ _
  simp [fresh_inj, h.start.fresh_not_mem]

theorem enter (h : LoopSites W D p q v r) (hE : Ends X W (p.loopEnd r) f) (hs : Stands X f p c st) :
    ∃ c', c.next X.module X.maxDepth = some (.running c') ∧ Stands X f p.condStart c' st ∧ ∀ k, Frame k c c' := by
  have hp₁ := h.start.triple "cond" "loop" "merge"
  have hCond := (h.ends_cond hE).before h.condBefore
  obtain ⟨b, hb, -⟩ := h.start.underway.current
  obtain ⟨rest, hcode, -⟩ := hs.code_emit (g := (p.triple "cond" "loop" "merge").function)
    (block?_triple _ _ _ (by rw [hb]; rfl)) rfl hCond.grows
  have hlabel := ((hp₁.grows_close rfl _).trans hCond.grows).label_eq
    (h.start.triple_isSome "cond" "loop" "merge" (k := 0) (by omega))
  rw [← hlabel] at hcode
  exact h.jump_cond hE hs hcode

/-- The condition decides between another round and the end. -/
theorem branch (h : LoopSites W D p q v r) (hE : Ends X W (p.loopEnd r) f) (hs : Stands X f q c st) {t : Bool}
    (hv : Holds v (.bool t) c) : ∃ c', c.next X.module X.maxDepth = some (.running c') ∧
      Stands X f (if t then p.bodyStart q v else p.loopEnd r) c' st ∧ ∀ k, Frame k c c' := by
  have hBody := (h.ends_body hE).before h.bodyBefore
  obtain ⟨rest, hcode, -⟩ := hs.code_emit (g := (q.attach (p.function.fresh 1)).function) rfl rfl hBody.grows
  have hexec := Activation.execute_condBr (a := { c.active with code := rest }) (s := c.store) hv
  have hlabel : ∀ id ∈ p.function.fresh 1 :: p.function.fresh 2 :: W, q.function.label id = f.label id :=
    fun id hid => ((h.ends_cond hE).grows.label_eq (h.condGood.block_isSome hid)).symm
  cases t with
  | true =>
    refine hs.jump (t := p.bodyStart q v) hcode ?_ (h.attach_good.starts_close (by simp) _) hBody ?_
    · rw [hexec, if_pos rfl, hlabel _ (by simp)]
      rfl
    · show p.function.fresh 1 ∉ _
      simp [fresh_inj, h.start.fresh_not_mem]
  | false =>
    refine hs.jump (t := p.loopEnd r) hcode ?_ ?_ hE (h.start.fresh_not_mem 2)
    · rw [hexec, if_neg (by simp), hlabel (p.function.fresh 2) (by simp)]
      rfl
    · exact (h.bodyGood.attach (h.start.fresh_not_mem_detached 2)).starts_close List.mem_cons_self _

theorem back (h : LoopSites W D p q v r) (hE : Ends X W (p.loopEnd r) f) (hs : Stands X f r c st) :
    ∃ c', c.next X.module X.maxDepth = some (.running c') ∧ Stands X f p.condStart c' st ∧ ∀ k, Frame k c c' := by
  obtain ⟨-, b, hb, -⟩ := h.condBlock
  obtain ⟨rest, hcode⟩ := hs.code_leave h.bodyGood (by rw [hb]; rfl) hE.grows
  exact h.jump_cond hE hs hcode

/-- Round after round, each of them worth one unit of fuel. -/
theorem leads_rounds (h : LoopSites W D p q v r) (hE : Ends X W (p.loopEnd r) f) {a : Eval Float} {b : Eval Unit}
    (hcond : Runs X (p.function.fresh 1 :: p.function.fresh 2 :: W) (fun _ => True) p.condStart a q
      fun z => Holds v (.bool (truth z)))
    (hbody : Runs X (p.function.fresh 2 :: W) (fun _ => True) (p.bodyStart q v) b r fun _ _ => True) {n : Nat}
    (hn : n ≤ X.context.fuel) (hs : Stands X f p.condStart c st) :
    Leads X.module X.maxDepth n c (Meaning.rounds a b n st) fun _ st' c' =>
      Stands X f (p.loopEnd r) c' st' ∧ Frame p.condStart.function.temps.length c c' := by
  induction n generalizing c st with
  | zero => exact ⟨c, .refl c⟩
  | succ n ih =>
    refine ((hcond (h.ends_cond hE) hs trivial).le_fuel hn).bind fun z st₁ c₁ ⟨hs₁, hframe₁, hz⟩ => ?_
    obtain ⟨c₂, hnext, hs₂, hframe₂⟩ := h.branch hE hs₁ hz
    refine .step hnext ?_
    generalize truth z = t at hs₂
    cases t with
    | false => exact .pure ⟨hs₂, hframe₁.trans (hframe₂ _) (Nat.le_refl _)⟩
    | true =>
      refine ((hbody (h.ends_body hE) hs₂ trivial).le_fuel hn).bind fun _ st₃ c₃ ⟨hs₃, hframe₃, _⟩ => ?_
      obtain ⟨c₄, hnext₄, hs₄, hframe₄⟩ := h.back hE hs₃
      refine ((ih (by omega) hs₄).step_succ hnext₄).imp fun _ st' c' ⟨hs', hframe'⟩ => ⟨hs', ?_⟩
      have hle : p.condStart.function.temps.length ≤ (p.bodyStart q v).function.temps.length := h.condBefore.temps_le
      have hround := (hframe₁.trans (hframe₂ _) (Nat.le_refl _)).trans hframe₃ hle
      exact (hround.trans (hframe₄ _) (Nat.le_refl _)).trans hframe' (Nat.le_refl _)

end LoopSites

section

variable {X : Setting} {W D : List BlockId} {p q r : Site} {v : Value}

theorem runs_rounds (h : LoopSites W D p q v r) {a : Eval Float} {b : Eval Unit}
    (hcond : Runs X (p.function.fresh 1 :: p.function.fresh 2 :: W) (fun _ => True) p.condStart a q
      fun z => Holds v (.bool (truth z)))
    (hbody : Runs X (p.function.fresh 2 :: W) (fun _ => True) (p.bodyStart q v) b r fun _ _ => True) :
    Runs X W (fun _ => True) p (Meaning.rounds a b X.context.fuel) (p.loopEnd r) fun _ _ => True := by
  intro f c st hE hs _
  obtain ⟨c₁, hnext, hs₁, hframe⟩ := h.enter hE hs
  have hle := (h.start.before_condStart (G := fun _ => False) fun _ => False.elim).temps_le
  exact .step hnext ((h.leads_rounds hE hcond hbody (Nat.le_refl _) hs₁).imp
    fun _ _ _ ⟨hs', hframe'⟩ => ⟨hs', (hframe _).trans hframe' hle, trivial⟩)

variable {ρ : Env}

theorem Eval.discard_eq_bind {α : Type} (x : Eval α) : discard x = x >>= fun _ => pure () := by
  rw [← map_eq_pure_bind]
  rfl

theorem Runs.discard {α : Type} {P : Config → Prop} {x : Eval α} {R : α → Config → Prop} (h : Runs X W P p x q R) :
    Runs X W P p (Functor.discard x) q fun _ _ => True := by
  intro f c st hE hs hP
  rw [Eval.discard_eq_bind]
  exact (h hE hs hP).bind fun _ _ _ ⟨hs', hframe, _⟩ => .pure ⟨hs', hframe, trivial⟩

/-- A construct whose value is not used. -/
theorem Simulates.lands_discard {step : Lower Value} {μ : Meaning Float} (h : Simulates X step μ) (hp : p.Good W D)
    (hl : Linked ρ p) (context : LowerContext) :
    Lands W D p (discard (Lower.within context step) p.state) fun q _ => Linked (μ.after ρ) q ∧
      Runs X W (fun _ => True) p (discard (μ.run X.context ρ)) q fun _ _ => True :=
  (((h.lands hp hl).within context).imp fun _ _ _ _ ⟨_, hlq, hruns⟩ => ⟨hlq, hruns.discard⟩).discard

theorem lands_loopBlocks (h : p.Good W D) (hl : Linked ρ p) {cond step body : Lower Value} {μ ν ξ : Meaning Float}
    (hc : Simulates X cond μ) (hs : Simulates X step ν) (hb : Simulates X body ξ) :
    Lands W D p (Lower.loopBlocks cond step body p.state) fun q v =>
      v = .constFloat 0 ∧ Linked (ν.after (ξ.after (μ.after ρ))) q ∧
        Runs X W (fun _ => True) p (Meaning.rounds (μ.run X.context ρ)
          (discard ((ξ.andThen ν).run X.context (μ.after ρ))) X.context.fuel) q fun _ _ => True := by
  have h₀ := h.triple "cond" "loop" "merge"
  rw [Lower.loopBlocks, triple_state h, bind_of_ok (br_state h₀ (h₀.block_isSome (by simp))),
    bind_of_ok (position_state _ _)]
  have hlc : Linked ρ p.condStart := (hl.triple h _ _ _).close h₀ rfl _
  refine ((hc.asBool h.condStart hlc).within _).andThen fun v q hq hpq hcondition => ?_
  obtain ⟨hv, hlq, hcond⟩ := hcondition
  have hq₁ := hq.attach (by simp [fresh_inj, h.fresh_not_mem_detached])
  obtain ⟨-, -, b, hblock, -⟩ := hq.underway.flow.waiting (show p.function.fresh 1 ∈ _ by simp)
  have hlayout := hq.underway.laid.not_mem_of_mem (show p.function.fresh 1 ∈ _ by simp)
  rw [bind_of_ok (attach_state hq.hosts_builder hblock hlayout),
    bind_of_ok (condBr_state hq₁ v (hq₁.block_isSome (by simp)) (hq₁.block_isSome (by simp))),
    bind_of_ok (position_state _ _)]
  have hlb : Linked (μ.after ρ) (p.bodyStart q v) :=
    (hlq.of_eq (q := q.attach (p.function.fresh 1)) rfl rfl).close hq₁ rfl _
  refine (hb.lands_discard (h.bodyStart hq hv) hlb _).andThen fun _ r hr hbr hlanded => ?_
  obtain ⟨hlr, hbody⟩ := hlanded
  refine (hs.lands_discard hr hlr _).andThen fun _ r' hr' hbr' hlanded' => ?_
  obtain ⟨hlr', hstep⟩ := hlanded'
  have hsites : LoopSites W D p q v r' := ⟨h, hq, hpq, hv, hr', hbr.trans hbr'⟩
  obtain ⟨-, b₀, hb₀, -⟩ := hsites.condBlock
  rw [leave_state hr' (by rw [hb₀]; rfl)]
  refine .of_ok rfl hsites.loopEnd_good hsites.before_end ⟨rfl, hlr'.leave hr' _ _, ?_⟩
  have hround := hbody.bind (fun _ => hstep) hbr hbr'
  have hdiscard : (do discard (ξ.run X.context (μ.after ρ)); discard (ν.run X.context (ξ.after (μ.after ρ)))) =
      discard ((ξ.andThen ν).run X.context (μ.after ρ)) := by
    simp only [Eval.discard_eq_bind, Meaning.andThen, bind_assoc]
  rw [hdiscard] at hround
  exact runs_rounds hsites hcond hround

/-! ### Loop variables -/

theorem Meaning.keeps_loopVariable {name : String} {μ : Meaning Float} (h : μ.Keeps) :
    (Meaning.loopVariable name μ).Keeps := by
  intro ρ x k hx
  show (if (ρ.cell name).isSome then μ.after ρ else (μ.after ρ).bind name).cell x = some k
  split
  · exact h hx
  · next hnone =>
    have hne : x ≠ name := by
      rintro rfl
      rw [hx] at hnone
      exact hnone rfl
    exact (if_neg hne).trans (h hx)

/-- A name is bound to the cell that it stands for. -/
theorem Linked.rebind {name slot : String} {k : Nat} (hl : Linked ρ q) (hk : ρ.cell name = some k)
    (hslot : q.function.slots.reverse[k]? = some slot) : Linked ρ (q.withScope (q.scope.bind name slot)) := by
  refine ⟨hl.next, fun {x s} hx => ?_, fun {x} hx => ?_⟩
  all_goals
    rw [show (q.withScope (q.scope.bind name slot)).scope = q.scope.bind name slot from rfl, Scope.lookup_bind] at hx
    by_cases hname : x = name
  · rw [if_pos hname] at hx
    cases hx
    exact ⟨k, hname ▸ hk, hslot⟩
  · rw [if_neg hname] at hx
    exact hl.bound hx
  · rw [if_pos hname] at hx
    cases hx
  · rw [if_neg hname] at hx
    exact hl.free hx

/-- The header of a loop over `name`, which gets the value that `init` leads to. -/
def IsHeader (head : LoopHeader (Lower Value)) (name : String) (init : Lower Value) : Prop :=
  head = .declare name init ∨ head = .assign name init

/-- A local variable gets its first value in a loop. -/
theorem lands_loopHeader_reused (h : p.Good W D) (hl : Linked ρ p) {name slot : String} {init : Lower Value}
    {μ : Meaning Float} (hi : Simulates X init μ) (hslot : p.scope.lookup name = some slot) {k : Nat}
    (hk : ρ.cell name = some k) {head : LoopHeader (Lower Value)} (hhead : IsHeader head name init) :
    Lands W D p (Lower.loopHeader head (some slot) p.state) fun q _ => Linked (μ.after ρ) q ∧
      Runs X W (fun _ => True) p (do .writeCell k (← μ.run X.context ρ)) q fun _ _ => True := by
  have hk' := hi.keeps hk
  have hwrite : ∀ x, (μ.after ρ).write name x = .writeCell k x := fun x => by rw [Env.write, hk']
  rcases hhead with rfl | rfl
  · refine ((hi.asFloat h hl).within _).bind fun v q hq hpq hinit => ?_
    obtain ⟨hv, hlq, hruns⟩ := hinit
    obtain ⟨k', hk'', hnumber⟩ := hl.bound hslot
    cases hk.symm.trans hk''
    have hptr : Refers (μ.after ρ) name q (.slot slot) := .slot hk' (hpq.function.slot_number hnumber)
    refine (lands_store (X := X) hq hlq hv hptr).imp fun r _ _ hqr hstore => ?_
    obtain ⟨hlr, hstored⟩ := hstore
    simp only [hwrite] at hstored
    refine ⟨hlr, ?_⟩
    exact hruns.bind (fun x => (hstored x).imp fun _ _ _ => trivial) hpq hqr
  · have hassign := ((simulates_assign (X := X) name hi).lands h hl).imp
      (S := fun q _ => Linked (μ.after ρ) q ∧ Runs X W (fun _ => True) p
        (discard ((Meaning.assign name μ).run X.context ρ)) q fun _ _ => True)
      fun _ _ _ _ hq => ⟨hq.2.1, hq.2.2.discard⟩
    refine hassign.discard.imp fun q _ _ _ hq => ⟨hq.1, ?_⟩
    simpa only [Eval.discard_eq_bind, Meaning.assign, hwrite, bind_assoc, pure_bind, bind_pure_unit] using hq.2

theorem lands_loopHeader (h : p.Good W D) (hl : Linked ρ p) {name : String} {init : Lower Value} {μ : Meaning Float}
    (hi : Simulates X init μ) {head : LoopHeader (Lower Value)} (hhead : IsHeader head name init) :
    Lands W D p (Lower.loopHeader head (p.scope.lookup name) p.state) fun q _ =>
      Linked ((Meaning.loopVariable name μ).after ρ) q ∧
        Runs X W (fun _ => True) p ((Meaning.loopVariable name μ).run X.context ρ) q fun _ _ => True := by
  cases hx : p.scope.lookup name with
  | some slot =>
    obtain ⟨k, hk, -⟩ := hl.bound hx
    refine (lands_loopHeader_reused h hl hi hx hk hhead).imp fun q _ _ _ hq => ?_
    simp only [Meaning.loopVariable, hk]
    exact hq
  | none =>
    have hk := hl.free hx
    have hstep : Lower.loopHeader head none = Lower.bindLoopVariable name init := by
      rcases hhead with rfl | rfl <;> rfl
    rw [hstep]
    refine (lands_allocate h hl name hi).bind fun slot q hq _ ⟨hlq, hslot, hruns⟩ => ?_
    have hmem : slot ∈ q.function.slots := List.mem_reverse.1 (List.mem_of_getElem? hslot)
    refine .of_ok rfl (hq.bind hmem name) (q.before_bind name slot) ?_
    simp only [Meaning.loopVariable, hk]
    exact ⟨hlq.bind hslot name, hruns.withScope _⟩

theorem simulates_forLoop {head : LoopHeader (Lower Value)} {name : String} {init cond step body : Lower Value}
    {μ₀ μ ν ξ : Meaning Float} (hhead : IsHeader head name init) (hi : Simulates X init μ₀) (hc : Simulates X cond μ)
    (hs : Simulates X step ν) (hb : Simulates X body ξ) :
    Simulates X (Lower.forLoop head cond step body) (.forLoop (.loopVariable name μ₀) μ ν ξ) where
  keeps hx := hs.keeps (hb.keeps (hc.keeps (Meaning.keeps_loopVariable hi.keeps hx)))
  lands {W D p ρ} hp hl := by
    let after := (Meaning.forLoop (.loopVariable name μ₀) μ ν ξ).after ρ
    let run := (Meaning.forLoop (.loopVariable name μ₀) μ ν ξ).run X.context ρ
    have hvalue : ∀ (q : Site) c, Denotes q (.constFloat 0) 0 c := fun q c => ⟨.float 0, rfl, .constFloat 0, rfl⟩
    have hloop : Lands W D p ((do
        Lower.loopHeader head (p.scope.lookup name)
        Lower.loopBlocks cond step body) p.state) fun q v => v = .constFloat 0 ∧ Linked after q ∧
          Runs X W (fun _ => True) p run q fun x => Denotes q (.constFloat 0) x := by
      refine (lands_loopHeader hp hl hi hhead).bind fun _ q hq hpq ⟨hlq, hheader⟩ => ?_
      refine (lands_loopBlocks hq hlq hc hs hb).imp fun r v _ hqr ⟨hv, hlr, hrounds⟩ => ⟨hv, hlr, ?_⟩
      refine hheader.discard.bind (fun _ => ?_) hpq hqr
      exact hrounds.bind (fun _ => .pure fun c _ => hvalue r c) hqr (.refl r)
    have hname : head.name = name := by rcases hhead with rfl | rfl <;> rfl
    have hlocal : Lower.local? head.name p.state = .ok (p.scope.lookup name) p.state := by rw [hname]; rfl
    refine .step hlocal (.refl p) ?_
    cases hx : p.scope.lookup name with
    | none =>
      rw [hx] at hloop
      refine hloop.imp fun q v _ _ ⟨hv, hlq, hruns⟩ => ?_
      rw [hv]
      exact ⟨.plain (.constFloat 0) (by simp), hlq, hruns⟩
    | some slot =>
      rw [hx] at hloop
      refine hloop.finallyScope fun q v hq hpq ⟨hv, hlq, hruns⟩ => ?_
      rw [hv, hname]
      obtain ⟨hgood, hbefore, -⟩ := hpq.rebind hp hq hx
      obtain ⟨k, hk, hslot⟩ := hl.bound hx
      have hk' : after.cell name = some k :=
        hs.keeps (hb.keeps (hc.keeps (Meaning.keeps_loopVariable hi.keeps hk)))
      exact ⟨hgood, hbefore, .plain (.constFloat 0) (by simp), hlq.rebind hk' (hpq.function.slot_number hslot),
        hruns.withScope _⟩

end

/-! ## Trees -/

section

variable {X : Setting} {step rest : Lower Value} {μ ν : Meaning Float}

theorem Simulates.within (h : Simulates X step μ) (context : LowerContext) :
    Simulates X (Lower.within context step) μ := ⟨h.keeps, fun hp hl => (h.lands hp hl).within context⟩

/-- One statement behind the other. -/
theorem simulates_andThen (h : Simulates X step μ) (hrest : Simulates X rest ν) :
    Simulates X (do let _ ← step; rest) (μ.andThen ν) where
  keeps hx := hrest.keeps (h.keeps hx)
  lands {W D p ρ} hp hl := by
    refine (h.lands hp hl).bind fun v q hq hpq ⟨_, hlq, hruns⟩ => ?_
    exact (hrest.lands hq hlq).imp fun r w _ hqr ⟨hw, hlr, hruns'⟩ =>
      ⟨hw, hlr, hruns.discard.bind (fun _ => hruns') hpq hqr⟩

end

mutual

/-- The code of an expression does what the expression means. -/
theorem simulates_lower {X : Setting} : (t : Tree) → t.isExpression = true → Simulates X (lower t) (meaning t)
  | .number x, _ => simulates_number x
  | .var name, _ => simulates_variableRead name
  | .unary op t, h => simulates_unary op (simulates_lower t (Bool.and_eq_true_iff.1 h).2)
  | .binary op t u, h => by
    obtain ⟨ht, hu⟩ := Bool.and_eq_true_iff.1 h
    exact simulates_binary op (simulates_lower t ht) (simulates_lower u hu)
  | .unaryLogical op t, h => simulates_unaryLogical op (simulates_lower t (Bool.and_eq_true_iff.1 h).2)
  | .logical op t u, h => by
    obtain ⟨ht, hu⟩ := Bool.and_eq_true_iff.1 (Bool.and_eq_true_iff.1 h).2
    exact simulates_logical op (simulates_lower t ht) (simulates_lower u hu)
  | .call callee args, h => simulates_call callee (simulates_lowerArgs callee 1 args h)
  | .conditional t u v, h => by
    obtain ⟨htu, hv⟩ := Bool.and_eq_true_iff.1 h
    obtain ⟨ht, hu⟩ := Bool.and_eq_true_iff.1 htu
    exact simulates_conditional (simulates_lower t ht) (simulates_lower u hu) (simulates_lower v hv)
  | .block bindings body, h => by
    obtain ⟨hbindings, hbody⟩ := Bool.and_eq_true_iff.1 h
    exact simulates_lowerBindings bindings hbindings (simulates_lower body hbody)
  | .statements first rest, h => by
    obtain ⟨hfirst, hrest⟩ := Bool.and_eq_true_iff.1 h
    exact simulates_lowerStatements rest hrest 1 (simulates_lower first hfirst)
  | .assign name t, h => simulates_assign name (simulates_lower t h)
  | .increment name, _ => simulates_increment name
  | .forLoop (.declare name init) cond step body, h => by
    obtain ⟨h₃, hbody⟩ := Bool.and_eq_true_iff.1 h
    obtain ⟨h₂, hstep⟩ := Bool.and_eq_true_iff.1 h₃
    obtain ⟨hinit, hcond⟩ := Bool.and_eq_true_iff.1 h₂
    exact simulates_forLoop (.inl rfl) (simulates_lower init hinit) (simulates_lower cond hcond)
      (simulates_lower step hstep) (simulates_lower body hbody)
  | .forLoop (.assign name init) cond step body, h => by
    obtain ⟨h₃, hbody⟩ := Bool.and_eq_true_iff.1 h
    obtain ⟨h₂, hstep⟩ := Bool.and_eq_true_iff.1 h₃
    obtain ⟨hinit, hcond⟩ := Bool.and_eq_true_iff.1 h₂
    exact simulates_forLoop (.inr rfl) (simulates_lower init hinit) (simulates_lower cond hcond)
      (simulates_lower step hstep) (simulates_lower body hbody)

theorem simulates_lowerArgs {X : Setting} (callee : String) : (index : Nat) → (args : List Tree) →
    areExpressions args = true → SimulatesArgs X (lowerArgs callee index args) args.length (argsMeaning args)
  | _, [], _ => simulatesArgs_nil
  | index, t :: ts, h => by
    obtain ⟨ht, hts⟩ := Bool.and_eq_true_iff.1 h
    exact simulatesArgs_cons callee index (simulates_lower t ht) (simulates_lowerArgs callee (index + 1) ts hts)

theorem simulates_lowerStatements {X : Setting} : (ts : List Tree) → areExpressions ts = true → (index : Nat) →
    {first : Lower Value} → {μ : Meaning Float} → Simulates X first μ →
    Simulates X (do let v ← Lower.within (.statement index) first; lowerStatements (index + 1) v ts)
      (statementsMeaning μ ts)
  | [], _, index, first, μ, hfirst => by
    have := hfirst.within (.statement index)
    rwa [← bind_pure (Lower.within (.statement index) first)] at this
  | t :: ts, h, index, _, _, hfirst => by
    obtain ⟨ht, hts⟩ := Bool.and_eq_true_iff.1 h
    exact simulates_andThen (hfirst.within _) (simulates_lowerStatements ts hts (index + 1) (simulates_lower t ht))

theorem simulates_lowerBindings {X : Setting} : (bindings : List (String × Tree)) →
    bindingsExpressions bindings = true → {body : Lower Value} → {μ : Meaning Float} → Simulates X body μ →
    Simulates X (lowerBindings bindings body) (bindingsMeaning bindings μ)
  | [], _, _, _, hbody => hbody
  | (name, init) :: rest, h, _, _, hbody => by
    obtain ⟨hinit, hrest⟩ := Bool.and_eq_true_iff.1 h
    exact simulates_withBinding name (simulates_lower init hinit) (simulates_lowerBindings rest hrest hbody)

end

end Monofloat
