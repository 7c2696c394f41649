import Monofloat.Ir.Names
import Mathlib.Data.List.Perm.Subperm
import Std.Data.String.ToNat

/-!
# Fresh names are fresh

A name that the table gives out was not taken before, and is taken afterwards. Of the numbers tried for one base
there are more than there are taken names, and different numbers make different names.
-/

namespace Monofloat.Ir.NameTable

/-- Where every number tried makes a taken name, there are at least as many taken names as numbers. -/
theorem length_le_of_forall_mem {taken : List String} {base : String} {tries k : Nat}
    (h : ∀ j, k ≤ j → j < k + tries → base ++ toString j ∈ taken) : tries ≤ taken.length := by
  let tried := (List.range' k tries).map fun j => base ++ toString j
  have hinj : ∀ i j : Nat, base ++ toString i = base ++ toString j → i = j := fun i j hij =>
    Nat.repr_inj.1 ((String.append_right_inj base).1 hij)
  have hnodup : tried.Nodup := by
    refine List.pairwise_map.2 ((List.nodup_range' (n := tries)).imp fun hne heq => hne (hinj _ _ heq))
  have hsub : tried ⊆ taken := by
    intro name hname
    obtain ⟨j, hj, rfl⟩ := List.mem_map.1 hname
    obtain ⟨h₁, h₂⟩ := List.mem_range'_1.1 hj
    exact h j h₁ h₂
  have hlen := (List.subperm_of_subset hnodup hsub).length_le
  simpa [tried] using hlen

/-- The search passes taken names only, and stops at a free one unless it has tried all it may. -/
theorem freeNumber_spec (taken : List String) (base : String) (tries k : Nat) :
    k ≤ freeNumber taken base tries k ∧
      (∀ j, k ≤ j → j < freeNumber taken base tries k → base ++ toString j ∈ taken) ∧
      (base ++ toString (freeNumber taken base tries k) ∉ taken ∨ freeNumber taken base tries k = k + tries) := by
  induction tries generalizing k with
  | zero => exact ⟨Nat.le_refl k, fun j h₁ h₂ => absurd h₂ (Nat.not_lt.2 h₁), .inr rfl⟩
  | succ tries ih =>
    rw [freeNumber]
    split
    · next hk =>
      obtain ⟨hle, hpassed, hstop⟩ := ih (k + 1)
      refine ⟨by omega, fun j h₁ h₂ => ?_, hstop.imp_right fun heq => by omega⟩
      rcases Nat.eq_or_lt_of_le h₁ with rfl | hlt
      · exact hk
      · exact hpassed j hlt h₂
    · next hk => exact ⟨Nat.le_refl k, fun j h₁ h₂ => absurd h₂ (Nat.not_lt.2 h₁), .inl hk⟩

theorem freeNumber_not_mem (taken : List String) (base : String) (k : Nat) :
    base ++ toString (freeNumber taken base taken.length k) ∉ taken := by
  intro hmem
  obtain ⟨-, hpassed, hstop⟩ := freeNumber_spec taken base taken.length k
  have heq := hstop.resolve_left (not_not_intro hmem)
  have htaken : ∀ j, k ≤ j → j < k + (taken.length + 1) → base ++ toString j ∈ taken := by
    intro j h₁ h₂
    rcases Nat.lt_or_ge j (k + taken.length) with hlt | hge
    · exact hpassed j h₁ (by omega)
    · obtain rfl : j = k + taken.length := by omega
      rwa [heq] at hmem
  have := length_le_of_forall_mem htaken
  omega

theorem fresh_not_mem (t : NameTable) (base : String) : (t.fresh base).1 ∉ t.taken := by
  unfold fresh
  split
  · exact freeNumber_not_mem t.taken base _
  · assumption

@[simp]
theorem taken_fresh (t : NameTable) (base : String) :
    (t.fresh base).2.taken = (t.fresh base).1 :: t.taken := by
  unfold fresh
  split <;> rfl

theorem nodup_fresh {t : NameTable} (h : t.taken.Nodup) (base : String) : (t.fresh base).2.taken.Nodup := by
  rw [taken_fresh]
  exact List.nodup_cons.2 ⟨t.fresh_not_mem base, h⟩

theorem nodup_freshAll {t : NameTable} (h : t.taken.Nodup) (bases : List String) :
    (t.freshAll bases).2.taken.Nodup := by
  induction bases generalizing t with
  | nil => exact h
  | cons base bases ih => exact ih (nodup_fresh h base)

theorem taken_freshAll (t : NameTable) (bases : List String) :
    (t.freshAll bases).2.taken.Perm ((t.freshAll bases).1 ++ t.taken) := by
  induction bases generalizing t with
  | nil => exact .refl _
  | cons base bases ih =>
    refine (ih (t.fresh base).2).trans ?_
    rw [taken_fresh]
    exact List.perm_middle

@[simp]
theorem length_freshAll (t : NameTable) (bases : List String) : (t.freshAll bases).1.length = bases.length := by
  induction bases generalizing t with
  | nil => rfl
  | cons base bases ih => simp [freshAll, ih]

end Monofloat.Ir.NameTable
