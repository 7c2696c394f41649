/-!
# Fresh names

Parameters, stack slots and block labels of a function share one table of names. A name is used as it is the
first time it is asked for; after that it is numbered. Numbers for one base only go up.
-/

namespace Monofloat.Ir

/-- The names given out in a function, so that no two are the same. -/
structure NameTable where
  /-- Every name given out. -/
  taken : List String := []
  /-- The last number tried for each base that has been numbered. -/
  numbered : List (String × Nat) := []
deriving DecidableEq, Repr, Inhabited

namespace NameTable

/-- The last number tried for `base`; zero if there is none. -/
def lastNumber (t : NameTable) (base : String) : Nat := (t.numbered.lookup base).getD 0

/-- The first number from `k` on that makes a free name, if `tries` cover the taken ones. -/
def freeNumber (taken : List String) (base : String) : (tries k : Nat) → Nat
  | 0, k => k
  | tries + 1, k =>
    if base ++ toString k ∈ taken then freeNumber taken base tries (k + 1) else k

/-- A name that was never given out: `base`, or `base` with the next number that is free. Of the numbers tried
one more than there are taken names is free. -/
def fresh (t : NameTable) (base : String) : String × NameTable :=
  if base ∈ t.taken then
    let k := freeNumber t.taken base t.taken.length (t.lastNumber base + 1)
    let name := base ++ toString k
    (name, ⟨name :: t.taken, (base, k) :: t.numbered.filter (·.1 ≠ base)⟩)
  else (base, { t with taken := base :: t.taken })

/-- Fresh names for a list of bases, in order. -/
def freshAll (t : NameTable) : List String → List String × NameTable
  | [] => ([], t)
  | base :: bases =>
    let (name, t) := t.fresh base
    let (names, t) := t.freshAll bases
    (name :: names, t)

end NameTable

end Monofloat.Ir
