import Monofloat.Lowering.State
import Monofloat.Proofs.Scoping
import Monofloat.Proofs.Underway

/-!
# Places in a function that is lowered

A `Site` is a state of lowering inside a function, taken apart: the function under construction, its current
block, the scope, and the rest. `Yields` says what a step comes to at a site: it fails with the first of a list
of errors, or, if there are none, goes on to a site where the function has grown and certain names are known.
Steps that yield something can be put one behind the other.
-/

namespace Monofloat

open Monofloat.Ir Monofloat.Ir.Function

/-! ## Scopes -/

namespace Scope

theorem lookup_cons {α : Type} (name other : String) (a : α) (entries : List (String × α)) :
    List.lookup other ((name, a) :: entries) = if other = name then some a else List.lookup other entries := by
  rw [List.lookup_cons]
  by_cases h : other = name
  · simp [h]
  · rw [beq_false_of_ne h, if_neg h]

@[simp]
theorem lookup_erase (s : Scope) (name other : String) :
    (s.erase name).lookup other = if other = name then none else s.lookup other := by
  unfold lookup erase
  induction s.entries with
  | nil => split <;> rfl
  | cons p ps ih =>
    obtain ⟨x, slot⟩ := p
    rw [lookup_cons]
    by_cases hx : x = name
    · rw [List.filter_cons_of_neg (by simpa using hx), ih]
      by_cases ho : other = name
      · rw [if_pos ho, if_pos ho]
      · rw [if_neg ho, if_neg ho, if_neg fun h => ho (h.trans hx)]
    · rw [List.filter_cons_of_pos (by simpa using hx), lookup_cons, ih]
      by_cases ho : other = x
      · rw [if_pos ho, if_pos ho, if_neg fun h => hx (ho.symm.trans h)]
      · rw [if_neg ho, if_neg ho]

@[simp]
theorem lookup_bind (s : Scope) (name slot other : String) :
    (s.bind name slot).lookup other = if other = name then some slot else s.lookup other := by
  have h := lookup_erase s name other
  unfold lookup at h ⊢
  rw [bind, lookup_cons, h]
  by_cases ho : other = name
  · rw [if_pos ho, if_pos ho]
  · rw [if_neg ho, if_neg ho, if_neg ho]

@[simp]
theorem lookup_restore (s : Scope) (name other : String) (previous : Option String) :
    (s.restore name previous).lookup other = if other = name then previous else s.lookup other := by
  cases previous <;> simp [restore]

end Scope

/-! ## Sites -/

/-- A place in a function that is lowered. -/
structure Site where
  /-- The state apart from what follows. -/
  base : Lowering
  function : Function
  block : BlockId
  scope : Scope

namespace Site

/-- The state of lowering at the site. -/
def state (p : Site) : Lowering :=
  { p.base with builder := p.base.builder.put p.function p.block, scope := p.scope }

/-- The site in another state of the function. -/
def at_ (p : Site) (f : Function) (c : BlockId) : Site := { p with function := f, block := c }

/-- The names that are known at the site. -/
def names (p : Site) : Names where
  isLocal x := (p.scope.lookup x).isSome
  isGlobal x := (p.base.module.global? x).isSome
  arity? := p.base.module.arity?

/-- The type of an operand at the site. -/
def HasType (p : Site) (v : Value) (ty : Ty) : Prop := Function.HasType p.base.module p.function v ty

/-- The function is under construction, and belongs to the module. -/
structure Good (p : Site) (W D : List BlockId) : Prop where
  underway : p.function.Underway p.base.module p.block W D
  hosts : p.base.module.arity? p.function.name = some p.function.arity
  slots : ∀ {x slot}, p.scope.lookup x = some slot → slot ∈ p.function.slots

/-- The second site comes after the first; the blocks of `G` get no phi and no new branch in between. -/
structure Before (G : BlockId → Prop) (p p' : Site) : Prop where
  function : p.function.Extends G p'.function
  module : p.base.module.Covers p'.base.module
  locals : ∀ {x}, (p.scope.lookup x).isSome → (p'.scope.lookup x).isSome

/-- Any block. -/
def all : BlockId → Prop := fun _ => True

namespace Before

variable {G : BlockId → Prop} {p p' p'' : Site}

theorem refl (p : Site) : p.Before G p := ⟨.refl _, .refl _, id⟩

theorem trans (h : p.Before G p') (h' : p'.Before G p'') : p.Before G p'' :=
  ⟨h.function.trans h'.function, h.module.trans h'.module, fun hx => h'.locals (h.locals hx)⟩

theorem mono (h : p.Before G p') {G' : BlockId → Prop}
    (hG : ∀ id, (p.function.block? id).isSome → G' id → G id) : p.Before G' p' :=
  ⟨h.function.mono hG, h.module, h.locals⟩

theorem hasType (h : p.Before G p') {v : Value} {ty : Ty} (hv : p.HasType v ty) : p'.HasType v ty :=
  Function.HasType.mono hv h.module h.function.toGrows

end Before

namespace Good

variable {p : Site} {W D : List BlockId}

theorem hosts_builder (h : p.Good W D) : p.base.builder.Hosts p.function.name := by
  have := h.hosts
  unfold Module.arity? at this
  unfold Builder.Hosts
  cases hf : p.base.builder.module.function? p.function.name with
  | none => rw [show p.base.module = p.base.builder.module from rfl, hf] at this; cases this
  | some f => rfl

theorem isOpen (h : p.Good W D) : Build.Open p.function p.block := h.underway.current

/-- The module at the site has the functions of the module around it. -/
theorem function?_state (h : p.Good W D) (name : String) : p.state.module.function? name =
    if name = p.function.name then some p.function else p.base.module.function? name :=
  Builder.function?_put h.hosts_builder name

theorem arity?_state (h : p.Good W D) (name : String) :
    (p.state.module.function? name).map Function.arity = p.base.module.arity? name := by
  rw [h.function?_state]
  split
  · next heq => rw [heq, h.hosts]; rfl
  · rfl

/-- A change of the function only. -/
theorem at_ (h : p.Good W D) {G : BlockId → Prop} {W' D' : List BlockId} {f : Function} {c : BlockId}
    (hf : f.Underway p.base.module c W' D') (hx : p.function.Extends G f) : (p.at_ f c).Good W' D' := by
  refine ⟨hf, ?_, fun hl => hx.slots.subset (h.slots hl)⟩
  show p.base.module.arity? f.name = some f.params.length
  rw [hx.name, hx.params]
  exact h.hosts

end Good

theorem before_at {G : BlockId → Prop} {p : Site} {f : Function} (c : BlockId) (hx : p.function.Extends G f) :
    p.Before G (p.at_ f c) := ⟨hx, .refl _, id⟩

theorem build_of_ok {α : Type} {step : Build α} {s : Lowering} {a : α} {b : Builder}
    (h : step s.builder = .ok a b) : Lower.build step s = .ok a { s with builder := b } := by
  rw [Lower.build, h]

/-- A step of the builder at a site. -/
theorem build_state {α : Type} {p : Site} {step : Build α} {a : α} {f : Function} {c : BlockId}
    (h : step (p.base.builder.put p.function p.block) = .ok a (p.base.builder.put f c)) :
    Lower.build step p.state = .ok a (p.at_ f c).state := build_of_ok h

end Site

/-! ## What steps yield -/

section

variable {α β : Type} {G : BlockId → Prop} {W D W' D' : List BlockId} {p p' : Site} {errors errors' : List LowerError}
  {names names' : Names}

/-- The outcome of a step at the site `p`: the first of the errors, or a value at a site where the names are
known and `R` holds. -/
def Yields (G : BlockId → Prop) (W D : List BlockId) (p : Site) (out : EStateM.Result LowerError Lowering α)
    (errors : List LowerError) (names : Names) (R : Site → α → Prop) : Prop :=
  match errors with
  | [] => ∃ a p', out = .ok a p'.state ∧ p'.Good W D ∧ p.Before G p' ∧ p'.names = names ∧ R p' a
  | e :: _ => ∃ s, out = .error e s

namespace Yields

theorem ok {out : EStateM.Result LowerError Lowering α} {a : α} {R : Site → α → Prop} (ho : out = .ok a p'.state)
    (hg : p'.Good W D) (hb : p.Before G p') (hn : p'.names = names) (hr : R p' a) :
    Yields G W D p out [] names R := ⟨a, p', ho, hg, hb, hn, hr⟩

theorem before {out : EStateM.Result LowerError Lowering α} {R : Site → α → Prop}
    (h : Yields G W D p' out errors names R) (hb : p.Before G p') : Yields G W D p out errors names R := by
  cases errors with
  | nil =>
    obtain ⟨a, q, ho, hg, hb', hn, hr⟩ := h
    exact ⟨a, q, ho, hg, hb.trans hb', hn, hr⟩
  | cons e es => exact h

theorem imp {out : EStateM.Result LowerError Lowering α} {R S : Site → α → Prop}
    (h : Yields G W D p out errors names R) (hR : ∀ q a, q.Good W D → R q a → S q a) :
    Yields G W D p out errors names S := by
  cases errors with
  | nil =>
    obtain ⟨a, q, ho, hg, hb, hn, hr⟩ := h
    exact ⟨a, q, ho, hg, hb, hn, hR q a hg hr⟩
  | cons e es => exact h

/-- One step behind the other, seen from any site. -/
theorem andThen {x : Lower α} {f : α → Lower β} {R : Site → α → Prop} {R' : Site → β → Prop} {q : Site}
    {G' : BlockId → Prop} (h : Yields G W D p (x p.state) errors names R)
    (hf : ∀ a r, r.Good W D → p.Before G r → r.names = names → R r a →
      Yields G' W' D' q (f a r.state) errors' names' R') :
    Yields G' W' D' q ((x >>= f) p.state) (errors ++ errors') names' R' := by
  cases errors with
  | nil =>
    obtain ⟨a, r, ho, hg, hb, hn, hr⟩ := h
    rw [bind_of_ok ho]
    exact hf a r hg hb hn hr
  | cons e es =>
    obtain ⟨s, hs⟩ := h
    exact ⟨s, bind_of_error hs⟩

/-- One step behind the other. -/
theorem bind {x : Lower α} {f : α → Lower β} {R : Site → α → Prop} {R' : Site → β → Prop}
    (h : Yields G W D p (x p.state) errors names R)
    (hf : ∀ a q, q.Good W D → p.Before G q → q.names = names → R q a →
      Yields G W' D' q (f a q.state) errors' names' R') :
    Yields G W' D' p ((x >>= f) p.state) (errors ++ errors') names' R' :=
  h.andThen fun a q hq hb hn hr => (hf a q hq hb hn hr).before hb

/-- A last step that does not fail. -/
theorem bind_ok {x : Lower α} {f : α → Lower β} {R : Site → α → Prop} {R' : Site → β → Prop}
    (h : Yields G W D p (x p.state) errors names R)
    (hf : ∀ a q, q.Good W D → p.Before G q → q.names = names → R q a →
      Yields G W' D' q (f a q.state) [] names' R') :
    Yields G W' D' p ((x >>= f) p.state) errors names' R' := by
  simpa using h.bind hf

/-- A step of the builder before others. -/
theorem step {x : Lower α} {f : α → Lower β} {a : α} {R : Site → β → Prop} (hx : x p.state = .ok a p'.state)
    (hb : p.Before G p') (h : Yields G W D p' (f a p'.state) errors names R) :
    Yields G W D p ((x >>= f) p.state) errors names R := by
  rw [bind_of_ok hx]
  exact h.before hb

theorem discard {x : Lower α} {R : Site → Prop} (h : Yields G W D p (x p.state) errors names fun q _ => R q) :
    Yields G W D p (Functor.discard x p.state) errors names fun q _ => R q := by
  cases errors with
  | nil =>
    obtain ⟨a, q, ho, hq⟩ := h
    exact ⟨(), q, discard_of_ok ho, hq⟩
  | cons e es =>
    obtain ⟨s, hs⟩ := h
    refine ⟨s, ?_⟩
    rw [discard_eq_bind, bind_of_error hs]

theorem within {x : Lower α} {R : Site → α → Prop} (h : Yields G W D p (x p.state) errors names R)
    (context : LowerContext) :
    Yields G W D p (Lower.within context x p.state) (Scoping.within context errors) names R := by
  cases errors with
  | nil =>
    obtain ⟨a, q, ho, hq⟩ := h
    refine ⟨a, q, ?_, hq⟩
    rw [Lower.within, ho]
  | cons e es =>
    obtain ⟨s, hs⟩ := h
    refine ⟨s, ?_⟩
    rw [Lower.within, hs]

end Yields

end

end Monofloat
