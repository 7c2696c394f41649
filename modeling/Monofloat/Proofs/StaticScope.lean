import Monofloat.Proofs.Expressions
import Monofloat.Proofs.Keeping

/-!
# Definitions are accepted exactly if they are well scoped

Between the items of a program there is no insertion point. So what a parsed definition comes to is a matter of
the names that the items before it have made known: it is accepted if it has no offence, and otherwise the first
offence is the error that is reported.
-/

namespace Monofloat

open Monofloat.Ir

/-- Only the insertion point is kept. -/
def Invariant.positionOnly : Invariant where
  module _ _ := True
  diagnostics _ := True
  modify _ _ := trivial
  addFunction _ _ := trivial
  addGlobal _ _ := trivial
  report _ _ := trivial

/-- Behind the items of a program there is no insertion point. -/
theorem position_lowerItems {items : List Tree} {last v : Value} {s s' : Lowering}
    (hs : s.builder.position = none) (h : lowerItems last items s = .ok v s') : s'.builder.position = none := by
  have hstart : Invariant.positionOnly.At none s := ⟨⟨by rw [hs]; rfl, trivial⟩, trivial⟩
  have hdef : ∀ proto body span, (fun _ : Tree => true) body = true →
      Keeps (Invariant.positionOnly.At none) (Lower.function proto span (lower body)) anything :=
    fun proto body span _ => keeps_function_outside (fun _ _ => trivial) (keeps_lower_inside proto.name body)
      (fun _ _ _ _ => ⟨trivial, .inr fun _ => trivial⟩) fun _ => trivial
  have hkeeps := keeps_lowerItems hdef last items (bodiesAllIn_true items) s hstart
  rw [h] at hkeeps
  exact Option.map_eq_none_iff.1 hkeeps.1.1.1

/-- A definition that the parser gives, behind any items, is lowered exactly if it has no offence where the names
of the module are known. Otherwise lowering fails with the first offence, and reports its cause with the
constructs around it as notes, the outermost first. -/
theorem definition_lowered_iff_scoped (tokens : List Token) (proto : Prototype) (body : Tree) (span : Span)
    (hitem : .function proto body span ∈ (parse tokens).items) (earlier : List Tree) (m : Module) (v : Value)
    (s : Lowering) (hs : lowerItems .void earlier (.start m) = .ok v s) :
    ((∃ w s', lower (.function proto body span) s = .ok w s') ↔
      definitionOffences proto body s.module.names = []) ∧
    ∀ e rest, definitionOffences proto body s.module.names = e :: rest →
      ∃ s' d, lower (.function proto body span) s = .error e s' ∧
        Lower.recovering v (some span) (lower (.function proto body span)) s = .ok v (s'.report d) ∧
        d.message = e.cause.message ∧ d.code = some e.cause.code ∧ d.notes = e.trail.map LowerContext.message := by
  have hpos : s.builder.position = none := position_lowerItems rfl hs
  have hflat := isFlat_of_isExpression body (isExpression_of_mem_items hitem)
  have houtcome := function_outcome hpos proto hflat span
  cases hoffences : definitionOffences proto body s.module.names with
  | nil =>
    rw [hoffences] at houtcome
    obtain ⟨s', hs'⟩ := houtcome
    exact ⟨⟨fun _ => rfl, fun _ => ⟨_, s', hs'⟩⟩, fun e rest h => by cases h⟩
  | cons e rest =>
    rw [hoffences] at houtcome
    obtain ⟨s', hs'⟩ := houtcome
    refine ⟨⟨fun ⟨w, s'', hok⟩ => ?_, fun h => by cases h⟩, fun e' rest' h => ?_⟩
    · rw [hs'] at hok
      cases hok
    · cases h
      refine ⟨s', e.diagnostic (some span), hs', ?_, rfl, rfl, rfl⟩
      rw [Lower.recovering, hs']

/-- `def f(x) ++y` fails because there is no local variable `y`. -/
theorem definition_lowered_iff_scoped_increment :
    ∃ s' d, lower (.function ⟨"f", ["x"], {}⟩ (.increment "y") {}) (.start { name := "m" }) =
        .error ⟨[.functionBody "f"], .undefinedVariable "y" .localOnly⟩ s' ∧
      Lower.recovering .void (some {}) (lower (.function ⟨"f", ["x"], {}⟩ (.increment "y") {}))
        (.start { name := "m" }) = .ok .void (s'.report d) ∧
      d.message = (LowerCause.undefinedVariable "y" .localOnly).message ∧ d.code = some .undefinedLocal ∧
      d.notes = ["in the body of `f`"] :=
  (definition_lowered_iff_scoped [⟨.keyword .defKw, {}⟩, ⟨.identifier "f", {}⟩, ⟨.symbol .leftParen, {}⟩,
    ⟨.identifier "x", {}⟩, ⟨.symbol .rightParen, {}⟩, ⟨.symbol .plusPlus, {}⟩, ⟨.identifier "y", {}⟩]
    ⟨"f", ["x"], {}⟩ (.increment "y") {} (List.mem_singleton.2 rfl) [] { name := "m" } .void
    (.start { name := "m" }) rfl).2 _ [] (by decide)

end Monofloat
