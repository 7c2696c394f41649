import Monofloat.Proofs.Blocks
import Mathlib.Order.Bounds.Basic

/-!
# How names are numbered

A base that is taken is numbered in rounds. Each round notes the next number of the base as tried, and ends the search
if the name with that number is free. The rounds have no bound of their own (`Numbers`); they end because different
numbers make different names, so that no more rounds can fail than there are taken names (`NextFree.sub_le`).

What has been given out is a log of `Grant`s. The table has the names of the log as its taken names, and for each base
the last of the numbers in the log (`Accounts`). One request keeps it so (`Grants.accounts`), and so does any
sequence of requests, whatever the names are for.
-/

namespace Monofloat.Ir

/-- A name that was given out, with the base that was asked for and the numbers that were tried for it. -/
structure Grant where
  base : String
  tried : List Nat
  name : String

/-- What was asked for and what was given. -/
def Grant.request (g : Grant) : String × String := (g.base, g.name)

namespace NameTable

variable {t t' t'' : NameTable} {base name : String} {k : Nat} {ks : List Nat} {g g' : Grant} {log log' : List Grant}

/-! ## Rounds -/

/-- The table with `name` among the taken names. -/
def taking (t : NameTable) (name : String) : NameTable := { t with taken := name :: t.taken }

/-- The table with `k` as the last number tried for `base`. -/
def noting (t : NameTable) (base : String) (k : Nat) : NameTable :=
  { t with numbered := (base, k) :: t.numbered.filter (·.1 ≠ base) }

@[simp]
theorem lastNumber_taking (t : NameTable) (name base : String) :
    (t.taking name).lastNumber base = t.lastNumber base := rfl

@[simp]
theorem lastNumber_noting (t : NameTable) (base : String) (k : Nat) : (t.noting base k).lastNumber base = k := by
  simp [lastNumber, noting]

theorem lookup_filter_ne {other : String} (h : other ≠ base) (numbered : List (String × Nat)) :
    (numbered.filter (·.1 ≠ base)).lookup other = numbered.lookup other := by
  induction numbered with
  | nil => rfl
  | cons entry rest ih =>
    by_cases hentry : entry.1 = base
    · have hne : (other == entry.1) = false := by simpa [hentry] using h
      rw [List.filter_cons_of_neg (by simpa using hentry), ih, List.lookup_cons, hne]
    · rw [List.filter_cons_of_pos (by simpa using hentry), List.lookup_cons, List.lookup_cons, ih]

/-- Each base is numbered by itself. -/
theorem lastNumber_noting_of_ne {other : String} (h : other ≠ base) (t : NameTable) (k : Nat) :
    (t.noting base k).lastNumber other = t.lastNumber other := by
  have hne : (other == base) = false := by simpa using h
  rw [lastNumber, noting, List.lookup_cons, hne, lookup_filter_ne h, lastNumber]

@[simp]
theorem noting_noting (t : NameTable) (base : String) (j k : Nat) :
    (t.noting base j).noting base k = t.noting base k := by
  simp [noting, List.filter_filter]

/-- One round for a base that is taken: the name with the next number is given out, if it is free. -/
def round (t : NameTable) (base : String) : Option String × NameTable :=
  let k := t.lastNumber base + 1
  let name := base ++ toString k
  if name ∈ t.taken then (none, t.noting base k) else (some name, (t.noting base k).taking name)

/-- Rounds for `base` until one gives a name, with the numbers that they try. -/
inductive Numbers (base : String) : NameTable → List Nat → String → NameTable → Prop where
  | found {t t' : NameTable} {name : String} (h : t.round base = (some name, t')) :
      Numbers base t [t.lastNumber base + 1] name t'
  | again {t t' t'' : NameTable} {ks : List Nat} {name : String} (h : t.round base = (none, t'))
      (rest : Numbers base t' ks name t'') : Numbers base t ((t.lastNumber base + 1) :: ks) name t''

/-- A request for a name: the base itself if it is not taken, and rounds if it is. -/
inductive Grants (t : NameTable) : Grant → NameTable → Prop where
  | plain {base : String} (h : base ∉ t.taken) : Grants t ⟨base, [], base⟩ (t.taking base)
  | numbered {base name : String} {ks : List Nat} {t' : NameTable} (h : base ∈ t.taken)
      (rounds : Numbers base t ks name t') : Grants t ⟨base, ks, name⟩ t'

/-- Requests one after the other. -/
inductive GrantsAll : NameTable → List Grant → NameTable → Prop where
  | nil {t : NameTable} : GrantsAll t [] t
  | cons {t t' t'' : NameTable} {g : Grant} {log : List Grant} (first : t.Grants g t') (rest : GrantsAll t' log t'') :
      GrantsAll t (g :: log) t''

theorem GrantsAll.append (h : GrantsAll t log t') (h' : GrantsAll t' log' t'') : GrantsAll t (log ++ log') t'' := by
  induction h with
  | nil => exact h'
  | cons first _ ih => exact .cons first (ih h')

/-! Rounds leave no choice, so there is one outcome at most. -/

theorem Numbers.unique {ks' : List Nat} {name' : String} (h : Numbers base t ks name t')
    (h' : Numbers base t ks' name' t'') : ks = ks' ∧ name = name' ∧ t' = t'' := by
  induction h generalizing ks' with
  | found hround =>
    cases h' with
    | found hround' =>
      cases hround.symm.trans hround'
      exact ⟨rfl, rfl, rfl⟩
    | again hround' _ => cases hround.symm.trans hround'
  | again hround _ ih =>
    cases h' with
    | found hround' => cases hround.symm.trans hround'
    | again hround' rest' =>
      cases hround.symm.trans hround'
      obtain ⟨rfl, hname, ht⟩ := ih rest'
      exact ⟨rfl, hname, ht⟩

theorem Grants.unique (h : t.Grants g t') (h' : t.Grants g' t'') (hbase : g'.base = g.base) : g' = g ∧ t'' = t' := by
  cases h with
  | plain hfree =>
    cases h' with
    | plain _ =>
      cases hbase
      exact ⟨rfl, rfl⟩
    | numbered htaken _ =>
      cases hbase
      exact absurd htaken hfree
  | numbered htaken rounds =>
    cases h' with
    | plain hfree =>
      cases hbase
      exact absurd htaken hfree
    | numbered _ rounds' =>
      cases hbase
      obtain ⟨rfl, rfl, rfl⟩ := rounds.unique rounds'
      exact ⟨rfl, rfl⟩

theorem GrantsAll.unique (h : GrantsAll t log t') (h' : GrantsAll t log' t'')
    (hbases : log'.map Grant.base = log.map Grant.base) : log' = log := by
  induction h generalizing log' with
  | nil => exact List.map_eq_nil_iff.1 hbases
  | cons first _ ih =>
    cases h' with
    | nil => cases hbases
    | cons first' rest' =>
      obtain ⟨hbase, hrest⟩ := List.cons_eq_cons.1 hbases
      obtain ⟨rfl, rfl⟩ := first.unique first' hbase
      rw [ih rest' hrest]

/-! ## The rounds end -/

/-- The first number that rounds for `base` have not tried and that makes a free name. -/
structure NextFree (t : NameTable) (base : String) (k : Nat) : Prop where
  untried : t.lastNumber base < k
  free : base ++ toString k ∉ t.taken
  passed : ∀ j, t.lastNumber base < j → j < k → base ++ toString j ∈ t.taken

theorem nextFree_freeNumber (t : NameTable) (base : String) :
    t.NextFree base (freeNumber t.taken base t.taken.length (t.lastNumber base + 1)) where
  untried := (freeNumber_spec t.taken base _ _).1
  free := freeNumber_not_mem t.taken base _
  passed := (freeNumber_spec t.taken base _ _).2.1

/-- As many rounds as there are numbers up to the first that is free. -/
theorem NextFree.numbers (h : t.NextFree base k) :
    Numbers base t (List.range' (t.lastNumber base + 1) (k - t.lastNumber base)) (base ++ toString k)
      ((t.noting base k).taking (base ++ toString k)) := by
  -- The induction is on the rounds that fail. Each of them leaves a table with the same names.
  obtain ⟨n, hn⟩ := Nat.exists_eq_add_of_lt h.untried
  induction n generalizing t with
  | zero =>
    subst hn
    have hround : t.round base = _ := if_neg h.free
    rw [Nat.add_zero] at hround ⊢
    rw [Nat.add_sub_cancel_left]
    exact .found hround
  | succ n ih =>
    have hround : t.round base = (none, t.noting base (t.lastNumber base + 1)) :=
      if_pos (h.passed _ (by omega) (by omega))
    have hnext : (t.noting base (t.lastNumber base + 1)).NextFree base k := by
      refine ⟨?_, h.free, fun j h₁ h₂ => h.passed j ?_ h₂⟩
      · rw [lastNumber_noting]
        omega
      · rw [lastNumber_noting] at h₁
        omega
    have hrest := ih hnext (by rw [lastNumber_noting]; omega)
    rw [lastNumber_noting, noting_noting] at hrest
    have hcount : k - t.lastNumber base = (k - (t.lastNumber base + 1)) + 1 := by omega
    rw [hcount, List.range'_succ]
    exact .again hround hrest

theorem append_toString_ne (base : String) (j : Nat) : base ++ toString j ≠ base := by
  intro h
  have hnil : (toString j).toList = [] := by simpa using congrArg String.toList h
  simp at hnil

/-- The base is taken as well, and no number makes it. So there are no more rounds than taken names. -/
theorem NextFree.sub_le (h : t.NextFree base k) (hbase : base ∈ t.taken) : k - t.lastNumber base ≤ t.taken.length := by
  have hmem : ∀ j, t.lastNumber base + 1 ≤ j → j < t.lastNumber base + 1 + (k - t.lastNumber base - 1) →
      base ++ toString j ∈ t.taken.erase base := fun j h₁ h₂ =>
    (List.mem_erase_of_ne (append_toString_ne base j)).2 (h.passed j h₁ (by omega))
  have hle := length_le_of_forall_mem hmem
  rw [List.length_erase_of_mem hbase] at hle
  have hpos := List.length_pos_of_mem hbase
  omega

/-- Every request ends, and gives what `fresh` gives. -/
theorem exists_grants_fresh (t : NameTable) (base : String) :
    ∃ ks, t.Grants ⟨base, ks, (t.fresh base).1⟩ (t.fresh base).2 := by
  unfold fresh
  split
  · next h => exact ⟨_, .numbered h (t.nextFree_freeNumber base).numbers⟩
  · next h => exact ⟨[], .plain h⟩

theorem exists_grantsAll_freshAll (t : NameTable) (bases : List String) :
    ∃ log, GrantsAll t log (t.freshAll bases).2 ∧ log.map Grant.request = bases.zip (t.freshAll bases).1 := by
  induction bases generalizing t with
  | nil => exact ⟨[], .nil, rfl⟩
  | cons base bases ih =>
    obtain ⟨ks, hfirst⟩ := t.exists_grants_fresh base
    obtain ⟨log, hrest, hlog⟩ := ih (t.fresh base).2
    exact ⟨_ :: log, .cons hfirst hrest, congrArg ((base, (t.fresh base).1) :: ·) hlog⟩

/-- What rounds come to. -/
theorem Numbers.exists_nextFree (h : Numbers base t ks name t') :
    ∃ k, t.NextFree base k ∧ ks = List.range' (t.lastNumber base + 1) (k - t.lastNumber base) ∧
      name = base ++ toString k ∧ t' = (t.noting base k).taking name := by
  have hnext := t.nextFree_freeNumber base
  obtain ⟨hks, rfl, ht⟩ := h.unique hnext.numbers
  exact ⟨_, hnext, hks, rfl, ht⟩

end NameTable

/-! ## The log -/

/-- A number that may be next for `base`, by what has been given out before. Numbers count from one. -/
structure Grant.Eligible (before : List Grant) (base : String) (j : Nat) : Prop where
  pos : 0 < j
  untried : ∀ p ∈ before, p.base = base → ∀ i ∈ p.tried, i < j
  free : ∀ p ∈ before, p.name ≠ base ++ toString j

/-- What a name has to be, by what has been given out before it. -/
structure Grant.IsFresh (before : List Grant) (g : Grant) : Prop where
  new : ∀ p ∈ before, p.name ≠ g.name
  plain : (∀ p ∈ before, p.name ≠ g.base) → g.name = g.base ∧ g.tried = []
  numbered : (∃ p ∈ before, p.name = g.base) →
    ∃ k, g.name = g.base ++ toString k ∧ IsLeast {j | Grant.Eligible before g.base j} k
  /-- There are no more rounds than names given out before. -/
  rounds_le : g.tried.length ≤ before.length

namespace NameTable

variable {t t' : NameTable} {g : Grant} {before log : List Grant}

/-- The table has what is in the log. -/
structure Accounts (t : NameTable) (log : List Grant) : Prop where
  taken : t.taken = (log.map Grant.name).reverse
  tried : ∀ base j, (∃ p ∈ log, p.base = base ∧ j ∈ p.tried) ↔ 0 < j ∧ j ≤ t.lastNumber base

theorem accounts_empty : Accounts {} [] where
  taken := rfl
  tried base j := by
    constructor
    · rintro ⟨p, hp, -⟩
      cases hp
    · rintro ⟨hpos, hle⟩
      exact absurd hpos (Nat.not_lt.2 hle)

namespace Accounts

theorem mem_taken (h : t.Accounts before) (name : String) : name ∈ t.taken ↔ ∃ p ∈ before, p.name = name := by
  rw [h.taken, List.mem_reverse, List.mem_map]

theorem length_taken (h : t.Accounts before) : t.taken.length = before.length := by
  rw [h.taken, List.length_reverse, List.length_map]

theorem eligible_iff (h : t.Accounts before) (base : String) (j : Nat) :
    Grant.Eligible before base j ↔ t.lastNumber base < j ∧ base ++ toString j ∉ t.taken := by
  have hfree : base ++ toString j ∉ t.taken ↔ ∀ p ∈ before, p.name ≠ base ++ toString j := by
    rw [h.mem_taken]
    simp
  constructor
  · intro hj
    refine ⟨Nat.lt_of_not_le fun hle => ?_, hfree.2 hj.free⟩
    obtain ⟨p, hp, hbase, hmem⟩ := (h.tried base j).2 ⟨hj.pos, hle⟩
    exact Nat.lt_irrefl j (hj.untried p hp hbase j hmem)
  · rintro ⟨hlt, hj⟩
    refine ⟨by omega, fun p hp hbase i hi => ?_, hfree.1 hj⟩
    have hle := ((h.tried base i).1 ⟨p, hp, hbase, hi⟩).2
    omega

/-- The first number that is free is the least that may be next. -/
theorem isLeast (h : t.Accounts before) {base : String} {k : Nat} (hk : t.NextFree base k) :
    IsLeast {j | Grant.Eligible before base j} k := by
  refine ⟨(h.eligible_iff base k).2 ⟨hk.untried, hk.free⟩, fun j hj => Nat.le_of_not_lt fun hlt => ?_⟩
  obtain ⟨huntried, hfree⟩ := (h.eligible_iff base j).1 hj
  exact hfree (hk.passed j huntried hlt)

end Accounts

theorem Grants.isFresh (h : t.Grants g t') (ht : t.Accounts before) : g.IsFresh before := by
  cases h with
  | @plain base hfree =>
    have hnew : ∀ p ∈ before, p.name ≠ base := fun p hp hname => hfree ((ht.mem_taken base).2 ⟨p, hp, hname⟩)
    refine ⟨hnew, fun _ => ⟨rfl, rfl⟩, fun htaken => ?_, Nat.zero_le _⟩
    exact absurd ((ht.mem_taken base).2 htaken) hfree
  | @numbered base name ks t' htaken rounds =>
    obtain ⟨k, hk, rfl, rfl, -⟩ := rounds.exists_nextFree
    obtain ⟨p, hp, hname⟩ := (ht.mem_taken base).1 htaken
    refine ⟨fun q hq hqname => ?_, fun hall => absurd hname (hall p hp), fun _ => ⟨k, rfl, ht.isLeast hk⟩, ?_⟩
    · exact hk.free ((ht.mem_taken _).2 ⟨q, hq, hqname⟩)
    · rw [List.length_range', ← ht.length_taken]
      exact hk.sub_le htaken

theorem Grants.taken_eq (h : t.Grants g t') : t'.taken = g.name :: t.taken := by
  cases h with
  | plain _ => rfl
  | numbered _ rounds =>
    obtain ⟨k, -, -, -, rfl⟩ := rounds.exists_nextFree
    rfl

theorem Grants.lastNumber_of_ne (h : t.Grants g t') {other : String} (hother : other ≠ g.base) :
    t'.lastNumber other = t.lastNumber other := by
  cases h with
  | plain _ => rfl
  | numbered _ rounds =>
    obtain ⟨k, -, -, -, rfl⟩ := rounds.exists_nextFree
    exact lastNumber_noting_of_ne hother t k

/-- A request tries the numbers that come behind the last one, up to the one that is the last then. -/
theorem Grants.lastNumber_base (h : t.Grants g t') : t.lastNumber g.base ≤ t'.lastNumber g.base ∧
    ∀ j, j ∈ g.tried ↔ t.lastNumber g.base < j ∧ j ≤ t'.lastNumber g.base := by
  cases h with
  | plain _ => exact ⟨Nat.le_refl _, fun j => by simp⟩
  | numbered _ rounds =>
    obtain ⟨k, hk, rfl, -, rfl⟩ := rounds.exists_nextFree
    have hlt := hk.untried
    simp only [lastNumber_taking, lastNumber_noting, List.mem_range'_1]
    exact ⟨Nat.le_of_lt hlt, fun j => by omega⟩

/-- One request keeps the account. -/
theorem Grants.accounts (h : t.Grants g t') (ht : t.Accounts before) : t'.Accounts (before ++ [g]) where
  taken := by rw [h.taken_eq, ht.taken, List.map_append, List.reverse_append]; rfl
  tried base j := by
    have hsplit : (∃ p ∈ before ++ [g], p.base = base ∧ j ∈ p.tried) ↔
        (0 < j ∧ j ≤ t.lastNumber base) ∨ g.base = base ∧ j ∈ g.tried := by
      rw [← ht.tried base j]
      simp only [List.mem_append, List.mem_singleton, or_and_right, exists_or, exists_eq_left]
    rw [hsplit]
    by_cases hbase : g.base = base
    · subst hbase
      obtain ⟨hle, hmem⟩ := h.lastNumber_base
      simp only [hmem, true_and]
      omega
    · rw [h.lastNumber_of_ne (Ne.symm hbase)]
      exact or_iff_left fun hg => hbase hg.1

/-- Each of several requests gives a fresh name. -/
theorem GrantsAll.isFresh (h : GrantsAll t log t') (ht : t.Accounts before) {earlier later : List Grant}
    (hlog : log = earlier ++ g :: later) : g.IsFresh (before ++ earlier) := by
  induction h generalizing before earlier with
  | nil => simp at hlog
  | cons first _ ih =>
    obtain ⟨rfl, heq⟩ | ⟨rest, rfl, heq⟩ := List.cons_eq_append_iff.1 hlog
    · cases heq
      rw [List.append_nil]
      exact first.isFresh ht
    · rw [List.append_cons]
      exact ih (first.accounts ht) heq

end NameTable

/-! ## The names of a function -/

namespace Function

/-- What happens to a function once it is declared. -/
inductive Event where
  /-- A name is asked for. -/
  | name (base : String)
  /-- A block is created. -/
  | block (label : String)
  /-- A slot for a variable is reserved at the front of a block. -/
  | slot (entry : BlockId) (var : String)
  /-- Anything else: the function becomes `g`, but its names are what they were. -/
  | other (g : Function)

/-- The function behind an event, with the name asked for and the one given. -/
def undergo (f : Function) : Event → List (String × String) × Function
  | .name base =>
    let (name, f) := f.freshName base
    ([(base, name)], f)
  | .block label =>
    let (id, f) := f.createBlock label
    ((f.block? id).toList.map fun b => (label, b.label), f)
  | .slot entry var => ([(var, f.slotFor var)], f.reserve entry var)
  | .other g => ([], { g with names := f.names })

/-- The function behind events, with the names asked for and those given, in order. -/
def undergoAll (f : Function) : List Event → List (String × String) × Function
  | [] => ([], f)
  | e :: es =>
    let (first, f) := f.undergo e
    let (rest, f) := f.undergoAll es
    (first ++ rest, f)

/-- The name that goes with an event is given by a request to the table. -/
theorem exists_grantsAll_undergo (f : Function) (e : Event) :
    ∃ log, NameTable.GrantsAll f.names log (f.undergo e).2.names ∧ log.map Grant.request = (f.undergo e).1 := by
  -- Whatever the name is for, the table is asked in the same way.
  have hone : ∀ base, ∃ log, NameTable.GrantsAll f.names log (f.names.fresh base).2 ∧
      log.map Grant.request = [(base, (f.names.fresh base).1)] := fun base => by
    obtain ⟨ks, h⟩ := f.names.exists_grants_fresh base
    exact ⟨[_], .cons h .nil, rfl⟩
  cases e with
  | name base => exact hone base
  | block label =>
    have hlabel : (f.undergo (.block label)).1 = [(label, f.labelFor label)] := by
      have hblock := f.block?_create label f.nextBlock
      rw [if_pos rfl] at hblock
      show ((f.create label).block? f.nextBlock).toList.map (fun b => (label, b.label)) = _
      rw [hblock]
      rfl
    rw [hlabel]
    exact hone label
  | slot entry var => exact hone var
  | other g => exact ⟨[], .nil, rfl⟩

theorem exists_grantsAll_undergoAll (f : Function) (es : List Event) :
    ∃ log, NameTable.GrantsAll f.names log (f.undergoAll es).2.names ∧
      log.map Grant.request = (f.undergoAll es).1 := by
  induction es generalizing f with
  | nil => exact ⟨[], .nil, rfl⟩
  | cons e es ih =>
    obtain ⟨first, hfirst, hrequests⟩ := f.exists_grantsAll_undergo e
    obtain ⟨rest, hrest, hrequests'⟩ := ih (f.undergo e).2
    refine ⟨first ++ rest, hfirst.append hrest, ?_⟩
    rw [List.map_append, hrequests, hrequests']
    rfl

/-- A function is declared, and then anything happens to it. Its parameters, slots and labels and all other names that
it is asked for are given by requests that end, in one way only, and each of them is fresh: it was not given before; it
is the base itself if that was not given before; and otherwise it is the base with the least number that is larger than
all that were tried for this base and that makes a name not given before. -/
theorem given_names_fresh (name : String) (params : List String) (events : List Event) :
    ∃ log : List Grant,
      NameTable.GrantsAll {} log ((declare name params).undergoAll events).2.names ∧
      log.map Grant.request =
        params.zip (declare name params).params ++ ((declare name params).undergoAll events).1 ∧
      (∀ log' t, NameTable.GrantsAll {} log' t → log'.map Grant.base = log.map Grant.base → log' = log) ∧
      ∀ before g after, log = before ++ g :: after → g.IsFresh before := by
  obtain ⟨first, hfirst, hparams⟩ := NameTable.exists_grantsAll_freshAll {} params
  obtain ⟨rest, hrest, hnames⟩ := (declare name params).exists_grantsAll_undergoAll events
  have hall := hfirst.append hrest
  refine ⟨first ++ rest, hall, ?_, fun log' t h hbases => hall.unique h hbases, fun before g after hlog => ?_⟩
  · rw [List.map_append, hparams, hnames]
    rfl
  · exact hall.isFresh NameTable.accounts_empty hlog

-- Names made from `x` and from `x1` can be the same.
example : (declare "f" ["x", "x1", "x", "x1", "x11", "x1"]).params = ["x", "x1", "x2", "x11", "x111", "x12"] := by
  decide +kernel

end Function

end Monofloat.Ir
