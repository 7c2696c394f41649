import Monofloat.Proofs.Items

/-!
# The echo shows the module

The echo is written while the module still grows: each item adds its text at the end, and what an item has added to the
module is compared with what is there in the end. No item changes, removes or moves what the items before it have added
(`Shows.append`), so the texts in the echo are those of the functions and the globals of the final module, in their
order. Items that are rejected and prototypes that are there already add nothing and show nothing.
-/

namespace Monofloat

open Monofloat.Ir

/-! ## Gains -/

namespace Addition

def function? : Addition → Option Function
  | function f => some f
  | _ => none

def global? : Addition → Option Global
  | global g => some g
  | _ => none

/-- The addition as a list; nothing is no entry. -/
def toList : Addition → List Addition
  | nothing => []
  | a => [a]

end Addition

/-- What a module has behind the functions and the globals that it had. -/
def Ir.Module.gained (before after : Module) : List Addition :=
  (after.functions.drop before.functions.length).map .function ++
    (after.globals.drop before.globals.length).map .global

/-- The state behind an item, which is reported if it is rejected. -/
def Lowering.behind (s : Lowering) (t : Tree) : Lowering :=
  match lower t s with
  | .ok _ s' => s'
  | .error e s' => s'.report (e.diagnostic t.span?)

/-- The items with what the module gains while each of them is lowered. -/
def gains (s : Lowering) : List Tree → List (Tree × List Addition)
  | [] => []
  | t :: ts => (t, s.module.gained (s.behind t).module) :: gains (s.behind t) ts

/-- All that the module gains, in order. -/
def entries (s : Lowering) (items : List Tree) : List Addition := (gains s items).flatMap Prod.snd

/-- The item is the prototype of a function that the module has, with as many parameters. -/
def Tree.Redeclares (t : Tree) (m : Module) : Prop :=
  ∃ proto, t = .prototype proto ∧ m.arity? proto.name = some proto.params.length

section

variable {s s' : Lowering} {t : Tree}

theorem behind_of_ok {v : Value} (h : lower t s = .ok v s') : s.behind t = s' := by rw [Lowering.behind, h]

theorem behind_of_error {e : LowerError} (h : lower t s = .error e s') :
    s.behind t = s'.report (e.diagnostic t.span?) := by rw [Lowering.behind, h]

/-- Lowering items never fails; it goes from the state behind one to the state behind the next. -/
theorem lowerItems_eq (items : List Tree) (s : Lowering) (last : Value) :
    ∃ v, lowerItems last items s = .ok v (items.foldl Lowering.behind s) := by
  induction items generalizing s last with
  | nil => exact ⟨last, rfl⟩
  | cons t ts ih =>
    rw [List.foldl_cons]
    cases h : lower t s with
    | ok v s' =>
      rw [lowerItems_cons_of_ok h, behind_of_ok h]
      exact ih s' v
    | error e s' =>
      rw [lowerItems_cons_of_error h, behind_of_error h]
      exact ih _ last

theorem map_fst_gains (s : Lowering) (items : List Tree) : (gains s items).map Prod.fst = items := by
  induction items generalizing s with
  | nil => rfl
  | cons t ts ih => rw [gains, List.map_cons, ih]

theorem getElem?_gains (s : Lowering) (before after : List Tree) (t : Tree) :
    (gains s (before ++ t :: after))[before.length]? =
      some (t, (before.foldl Lowering.behind s).module.gained ((before.foldl Lowering.behind s).behind t).module) := by
  induction before generalizing s with
  | nil => rfl
  | cons u before ih => exact ih (s.behind u)

end

theorem gained_self (m : Module) : m.gained m = [] := by simp [Module.gained]

theorem gained_into (m : Module) (a : Addition) : m.gained (a.into m) = a.toList := by
  cases a <;> simp [Module.gained, Addition.into, Addition.toList, Module.addFunction, Module.addGlobal]

/-! ## What is shown -/

/-- The second state has the module of the first with the entries behind what was there, and shows them. -/
structure Shows (as : List Addition) (s s' : Lowering) : Prop where
  echo : s'.echo = s.echo ++ String.join (as.map Addition.text)
  functions : s'.module.functions = s.module.functions ++ as.filterMap Addition.function?
  globals : s'.module.globals = s.module.globals ++ as.filterMap Addition.global?

namespace Shows

theorem of_same {s s' : Lowering} (hecho : s'.echo = s.echo) (hmodule : s'.module = s.module) : Shows [] s s' := by
  constructor <;> simp [hecho, hmodule]

theorem add (s : Lowering) (a : Addition) (scope : Scope) : Shows a.toList s (s.add a scope) := by
  cases a <;> constructor <;>
    simp [Lowering.add, Lowering.module, Addition.into, Addition.text, Addition.toList, Addition.function?,
      Addition.global?, Module.addFunction, Module.addGlobal]

theorem append {as bs : List Addition} {s₁ s₂ s₃ : Lowering} (h : Shows as s₁ s₂) (h' : Shows bs s₂ s₃) :
    Shows (as ++ bs) s₁ s₃ where
  echo := by rw [h'.echo, h.echo, List.map_append, String.join_append, String.append_assoc]
  functions := by rw [h'.functions, h.functions, List.filterMap_append, List.append_assoc]
  globals := by rw [h'.globals, h.globals, List.filterMap_append, List.append_assoc]

end Shows

/-- What one item does: it shows what the module gains, at most one entry, and no entry if it is rejected or redeclares
a function. -/
structure ShowsItem (s : Lowering) (t : Tree) (as : List Addition) : Prop where
  position : (s.behind t).builder.position = none
  shows : Shows as s (s.behind t)
  single : as.length ≤ 1
  nothing_iff : as = [] ↔ (∃ e s', lower t s = .error e s') ∨ t.Redeclares s.module

theorem Declares.toList_eq_nil_iff {m : Module} {t : Tree} {a : Addition} (h : Declares m t a) :
    a.toList = [] ↔ t.Redeclares m := by
  have hnew {name : String} {params : List String} (hnew : m.hasSymbol name = false) :
      m.arity? name ≠ some params.length := by
    simp [Module.arity?_of_new hnew]
  cases h with
  | function => simp [Addition.toList, Tree.Redeclares]
  | prototype h => simp [Addition.toList, Tree.Redeclares, hnew h]
  | again hold => simp [Addition.toList, Tree.Redeclares, hold]
  | global => simp [Addition.toList, Tree.Redeclares]

theorem showsItem {s : Lowering} {t : Tree} (ht : t.isItem = true) (hs : s.builder.position = none) :
    ShowsItem s t (s.module.gained (s.behind t).module) := by
  obtain ⟨out, hout⟩ := settles_item s.module.names ht
  have hsettles := hout s rfl hs
  cases out with
  | error e =>
    obtain ⟨scope, herror⟩ := hsettles
    have hbehind := behind_of_error herror
    have hmodule : (s.behind t).module = s.module := by rw [hbehind]; rfl
    have hecho : (s.behind t).echo = s.echo := by rw [hbehind]; rfl
    rw [hmodule, gained_self]
    refine ⟨by rw [hbehind]; exact hs, .of_same hecho hmodule, Nat.zero_le 1, ?_⟩
    exact ⟨fun _ => .inl ⟨e, _, herror⟩, fun _ => rfl⟩
  | ok out =>
    obtain ⟨v, a⟩ := out
    obtain ⟨scope, hok, hdeclares⟩ := hsettles
    have hbehind := behind_of_ok hok
    have hgained : s.module.gained (s.behind t).module = a.toList := by
      rw [hbehind]
      exact gained_into s.module a
    have hnot : ¬∃ e s', lower t s = .error e s' := by
      rw [hok]
      rintro ⟨e, s', ⟨⟩⟩
    rw [hgained]
    refine ⟨by rw [hbehind]; rfl, hbehind ▸ .add s a scope, by cases a <;> simp [Addition.toList], ?_⟩
    rw [hdeclares.toList_eq_nil_iff, or_iff_right hnot]

/-- What a program does: it shows what the module gains. -/
theorem shows_items {items : List Tree} (hitems : ∀ t ∈ items, t.isItem = true) {s : Lowering}
    (hs : s.builder.position = none) :
    (items.foldl Lowering.behind s).builder.position = none ∧
      Shows (entries s items) s (items.foldl Lowering.behind s) := by
  induction items generalizing s with
  | nil => exact ⟨hs, .of_same rfl rfl⟩
  | cons t ts ih =>
    obtain ⟨ht, hts⟩ := List.forall_mem_cons.1 hitems
    have hitem := showsItem ht hs
    obtain ⟨hpos, hshows⟩ := ih hts hitem.position
    exact ⟨hpos, hitem.shows.append hshows⟩

/-- The echo agrees with the final module. It is made of the texts of what the items have added, in the order of the
items, and what they have added is the functions and the globals that the module has in the end, each kind in order. An
item adds one entry, or none if it is rejected or is the prototype of a function that is there with as many
parameters. -/
theorem echo_shows_module (items : List Tree) (hitems : ∀ t ∈ items, t.isItem = true) (name : String) :
    (gains (.start { name := name }) items).map Prod.fst = items ∧
    (compile (.sequence items) name).echo =
      String.join ((entries (.start { name := name }) items).map Addition.text) ∧
    (entries (.start { name := name }) items).filterMap Addition.function? =
      (compile (.sequence items) name).module.functions ∧
    (entries (.start { name := name }) items).filterMap Addition.global? =
      (compile (.sequence items) name).module.globals ∧
    ∀ before t after, items = before ++ t :: after → ∃ v s added,
      lowerItems .void before (.start { name := name }) = .ok v s ∧
      (gains (.start { name := name }) items)[before.length]? = some (t, added) ∧ added.length ≤ 1 ∧
      (added = [] ↔ (∃ e s', lower t s = .error e s') ∨ t.Redeclares s.module) := by
  obtain ⟨v, hlower⟩ := lowerItems_eq items (.start { name := name }) .void
  obtain ⟨-, hshows⟩ := shows_items hitems (s := .start { name := name }) rfl
  have hcompile : compile (.sequence items) name = _ := generate_of_ok hlower
  rw [hcompile]
  refine ⟨map_fst_gains _ _, ?_, ?_, ?_, ?_⟩
  · simpa [Lowering.start] using hshows.echo
  · simpa [Lowering.start, Lowering.module] using hshows.functions.symm
  · simpa [Lowering.start, Lowering.module] using hshows.globals.symm
  · rintro before t after rfl
    obtain ⟨hbefore, htail⟩ := List.forall_mem_append.1 hitems
    obtain ⟨w, hbehind⟩ := lowerItems_eq before (.start { name := name }) .void
    obtain ⟨hpos, -⟩ := shows_items hbefore (s := .start { name := name }) rfl
    have hitem := showsItem (htail t List.mem_cons_self) hpos
    exact ⟨w, _, _, hbehind, getElem?_gains _ before after t, hitem.single, hitem.nothing_iff⟩

/-- `extern sin(x); def f(x) y; def one() 1; extern sin(y); global g`: the second item is rejected and the fourth is
there already; the others are shown. -/
theorem echo_shows_module_redeclared :
    let items : List Tree := [.prototype ⟨"sin", ["x"], {}⟩, .function ⟨"f", ["x"], {}⟩ (.var "y") {},
      .function ⟨"one", [], {}⟩ (.number 1) {}, .prototype ⟨"sin", ["y"], {}⟩, .global "g" {}]
    (gains (.start { name := "m" }) items).map (·.2.length) = [1, 0, 1, 0, 1] ∧
      (compile (.sequence items) "m").echo =
        String.join ((entries (.start { name := "m" }) items).map Addition.text) ∧
      (entries (.start { name := "m" }) items).filterMap Addition.function? =
        (compile (.sequence items) "m").module.functions := by
  intro items
  have h := echo_shows_module items (by simp [items, Tree.isItem, Tree.isExpression]) "m"
  exact ⟨by decide +kernel, h.2.1, h.2.2.1⟩

end Monofloat
