/-!
# Scopes

The local variables of the function being lowered, each with its stack slot. Scopes are not stacked: whoever
binds a name keeps the slot it shadowed and puts it back when the binding ends.
-/

namespace Monofloat

/-- Local names with their slots; a name occurs once. -/
structure Scope where
  entries : List (String × String) := []
deriving DecidableEq, Repr, Inhabited

namespace Scope

def empty : Scope := {}

/-- The slot of a local variable. -/
def lookup (s : Scope) (name : String) : Option String := s.entries.lookup name

/-- The scope without a name. -/
def erase (s : Scope) (name : String) : Scope := ⟨s.entries.filter (·.1 ≠ name)⟩

/-- The scope with a name bound to a slot, whatever it was bound to before. -/
def bind (s : Scope) (name slot : String) : Scope := ⟨(name, slot) :: (s.erase name).entries⟩

/-- The scope with a name's earlier binding put back, or without the name if it had none. -/
def restore (s : Scope) (name : String) : Option String → Scope
  | some slot => s.bind name slot
  | none => s.erase name

def size (s : Scope) : Nat := s.entries.length

def isEmpty (s : Scope) : Bool := s.entries.isEmpty

end Scope

end Monofloat
