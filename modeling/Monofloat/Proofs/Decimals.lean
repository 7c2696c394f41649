import Mathlib
import Monofloat.Decimal.Notation
import Monofloat.Decimal.Reading

/-!
# The decimals of floats

A magnitude has an interval of numbers that round to it (`Magnitude.Rounds`), and the intervals of different doubles
have no number in common. The decimal that is chosen for a magnitude is in its interval: the search tries grids down to
one whose steps are so small that a point of it lies close enough. The text that is written stands for this decimal; so
finite floats that are written alike are the same.
-/

namespace Monofloat

/-! ## Rounding -/

namespace Magnitude

/-- The magnitudes of doubles. Only those at the least exponent have a mantissa with fewer than 53 bits. -/
structure Valid (v : Magnitude) : Prop where
  exponent_ge : -1074 ≤ v.exponent
  mantissa_lt : v.mantissa < 2 ^ 53
  normal : -1074 < v.exponent → 2 ^ 52 ≤ v.mantissa

/-- A quarter of a unit in the last place. -/
def quarter (v : Magnitude) : ℚ := 2 ^ (v.exponent - 2)

/-- The number of quarters from `v` down to the end of the interval of the numbers that round to it. -/
def reach (v : Magnitude) : Nat := if v.narrowBelow then 1 else 2

/-- The number rounds to `v`. -/
def Rounds (v : Magnitude) (x : ℚ) : Prop :=
  if v.mantissa % 2 = 0 then (4 * v.mantissa - v.reach) * v.quarter ≤ x ∧ x ≤ (4 * v.mantissa + 2) * v.quarter
  else (4 * v.mantissa - v.reach) * v.quarter < x ∧ x < (4 * v.mantissa + 2) * v.quarter

variable {v w : Magnitude} {x y : ℚ} {k : Int} {d : Nat}

theorem quarter_pos (v : Magnitude) : 0 < v.quarter := zpow_pos (by norm_num) _

theorem reach_eq (v : Magnitude) : v.reach = 1 ∨ v.reach = 2 := by
  unfold reach
  split <;> simp

theorem Rounds.bounds (h : v.Rounds x) :
    (4 * v.mantissa - v.reach) * v.quarter ≤ x ∧ x ≤ (4 * v.mantissa + 2) * v.quarter := by
  unfold Rounds at h
  split at h
  · exact h
  · exact ⟨h.1.le, h.2.le⟩

theorem Rounds.bounds_of_odd (h : v.Rounds x) (hodd : v.mantissa % 2 = 1) :
    (4 * v.mantissa - v.reach) * v.quarter < x ∧ x < (4 * v.mantissa + 2) * v.quarter := by
  rwa [Rounds, if_neg (by omega)] at h

/-! ## Intervals do not overlap -/

theorem Rounds.lt_of_mantissa (hx : v.Rounds x) (hy : w.Rounds y) (he : v.exponent = w.exponent)
    (hm : v.mantissa < w.mantissa) : x < y := by
  have hquarter : w.quarter = v.quarter := by rw [quarter, quarter, he]
  have hpos := v.quarter_pos
  have hreach : (w.reach : ℚ) ≤ 2 := by have := w.reach_eq; exact_mod_cast (by omega : w.reach ≤ 2)
  have hlower : (4 * (w.mantissa : ℚ) - 2) * v.quarter ≤ (4 * w.mantissa - w.reach) * w.quarter := by
    rw [hquarter]
    gcongr
  have hsucc : (v.mantissa : ℚ) + 1 ≤ w.mantissa := by exact_mod_cast hm
  have hmeet : (4 * (v.mantissa : ℚ) + 2) * v.quarter ≤ (4 * w.mantissa - 2) * v.quarter := by
    gcongr
    linarith
  -- At a common end one of the mantissas is odd.
  obtain hodd | hodd | hfar : v.mantissa % 2 = 1 ∨ w.mantissa % 2 = 1 ∨ v.mantissa + 2 ≤ w.mantissa := by omega
  · linarith [(hx.bounds_of_odd hodd).2, hy.bounds.1]
  · linarith [hx.bounds.2, (hy.bounds_of_odd hodd).1]
  · have hfar : (v.mantissa : ℚ) + 2 ≤ w.mantissa := by exact_mod_cast hfar
    have hgap : (4 * (v.mantissa : ℚ) + 2) * v.quarter < (4 * w.mantissa - 2) * v.quarter := by
      gcongr
      linarith
    linarith [hx.bounds.2, hy.bounds.1]

/-- Below a power of two, the interval starts at most a quarter further down. -/
theorem Valid.reach_add (h : v.Valid) (he : -1074 < v.exponent) : 2 ^ 54 + v.reach ≤ 4 * v.mantissa + 1 := by
  have hnormal := h.normal he
  unfold reach narrowBelow
  by_cases hm : v.mantissa = 2 ^ 52
  · simp [hm, he]
  · split <;> omega

theorem Rounds.lt_of_exponent (hv : v.Valid) (hw : w.Valid) (hx : v.Rounds x) (hy : w.Rounds y)
    (he : v.exponent < w.exponent) : x < y := by
  have hpos := v.quarter_pos
  have hdouble : 2 * v.quarter ≤ w.quarter := by
    rw [quarter, quarter, ← zpow_one_add₀ (by norm_num)]
    exact zpow_le_zpow_right₀ (by norm_num) (by omega)
  have hlower : (2 ^ 54 - 1) * w.quarter ≤ (4 * (w.mantissa : ℚ) - w.reach) * w.quarter := by
    have hreach : (2 ^ 54 + w.reach : ℚ) ≤ 4 * w.mantissa + 1 := by
      exact_mod_cast hw.reach_add (by have := hv.exponent_ge; omega)
    exact mul_le_mul_of_nonneg_right (by linarith) w.quarter_pos.le
  obtain hodd | heven : v.mantissa % 2 = 1 ∨ v.mantissa + 2 ≤ 2 ^ 53 := by have := hv.mantissa_lt; omega
  · have hlt : (v.mantissa : ℚ) + 1 ≤ 2 ^ 53 := by exact_mod_cast hv.mantissa_lt
    have hupper : (4 * (v.mantissa : ℚ) + 2) * v.quarter ≤ (2 ^ 55 - 2) * v.quarter := by
      gcongr
      linarith
    linarith [(hx.bounds_of_odd hodd).2, hy.bounds.1]
  · have hlt : (v.mantissa : ℚ) + 2 ≤ 2 ^ 53 := by exact_mod_cast heven
    have hupper : (4 * (v.mantissa : ℚ) + 2) * v.quarter ≤ (2 ^ 55 - 6) * v.quarter := by
      gcongr
      linarith
    linarith [hx.bounds.2, hy.bounds.1]

/-- A number rounds to one magnitude only. -/
theorem Rounds.unique (hv : v.Valid) (hw : w.Valid) (hx : v.Rounds x) (hy : w.Rounds x) : v = w := by
  obtain he | he | he := lt_trichotomy v.exponent w.exponent
  · exact absurd (hx.lt_of_exponent hv hw hy he) (lt_irrefl x)
  · obtain hm | hm | hm := lt_trichotomy v.mantissa w.mantissa
    · exact absurd (hx.lt_of_mantissa hy he hm) (lt_irrefl x)
    · cases v
      cases w
      simp_all
    · exact absurd (hy.lt_of_mantissa hx he.symm hm) (lt_irrefl x)
  · exact absurd (hy.lt_of_exponent hw hv hx he) (lt_irrefl x)

/-! ## The decimal that is chosen -/

/-- The ratio of a quarter to a power of ten. -/
theorem quarterRatio_spec (v : Magnitude) (k : Int) :
    0 < (v.quarterRatio k).2 ∧ ((v.quarterRatio k).1 : ℚ) * 10 ^ k = v.quarter * (v.quarterRatio k).2 := by
  have hsplit (b : ℚ) (hb : b ≠ 0) (n : Int) : b ^ n.toNat = b ^ n * b ^ (-n).toNat := by
    rw [← zpow_natCast, ← zpow_natCast, ← zpow_add₀ hb]
    congr 1
    omega
  have htwo := hsplit 2 (by norm_num) (v.exponent - 2)
  have hten := hsplit 10 (by norm_num) k
  constructor
  · exact Nat.mul_pos (Nat.pow_pos (by decide)) (Nat.pow_pos (by decide))
  · show ((2 ^ (v.exponent - 2).toNat * 10 ^ (-k).toNat : ℕ) : ℚ) * 10 ^ k =
      2 ^ (v.exponent - 2) * ((2 ^ (-(v.exponent - 2)).toNat * 10 ^ k.toNat : ℕ) : ℚ)
    push_cast
    rw [htwo, hten]
    ring

theorem admits_eq (v : Magnitude) (k : Int) (d : Nat) : v.admits k d =
    if v.mantissa % 2 = 0 then decide ((4 * v.mantissa - v.reach) * (v.quarterRatio k).1 ≤ d * (v.quarterRatio k).2 ∧
      d * (v.quarterRatio k).2 ≤ (4 * v.mantissa + 2) * (v.quarterRatio k).1)
    else decide ((4 * v.mantissa - v.reach) * (v.quarterRatio k).1 < d * (v.quarterRatio k).2 ∧
      d * (v.quarterRatio k).2 < (4 * v.mantissa + 2) * (v.quarterRatio k).1) := rfl

/-- Whether a decimal is admitted says whether it rounds to the magnitude. -/
theorem admits_iff (hm : v.mantissa ≠ 0) : v.admits k d = true ↔ v.Rounds (d * 10 ^ k) := by
  obtain ⟨hden, hratio⟩ := v.quarterRatio_spec k
  have hdenq : (0 : ℚ) < (v.quarterRatio k).2 := by exact_mod_cast hden
  have hten : (0 : ℚ) < 10 ^ k := zpow_pos (by norm_num) k
  have hscale (a : ℕ) : ((a * (v.quarterRatio k).1 : ℕ) : ℚ) * 10 ^ k = a * v.quarter * (v.quarterRatio k).2 := by
    push_cast
    rw [mul_assoc, hratio]
    ring
  have hgrid : ((d * (v.quarterRatio k).2 : ℕ) : ℚ) * 10 ^ k = d * 10 ^ k * (v.quarterRatio k).2 := by
    push_cast
    ring
  have hle (a : ℕ) : a * (v.quarterRatio k).1 ≤ d * (v.quarterRatio k).2 ↔ a * v.quarter ≤ d * 10 ^ k := by
    rw [← Nat.cast_le (α := ℚ), ← mul_le_mul_iff_left₀ hten, hscale, hgrid, mul_le_mul_iff_left₀ hdenq]
  have hge (a : ℕ) : d * (v.quarterRatio k).2 ≤ a * (v.quarterRatio k).1 ↔ (d * 10 ^ k : ℚ) ≤ a * v.quarter := by
    rw [← Nat.cast_le (α := ℚ), ← mul_le_mul_iff_left₀ hten, hscale, hgrid, mul_le_mul_iff_left₀ hdenq]
  have hlower : ((4 * v.mantissa - v.reach : ℕ) : ℚ) = 4 * v.mantissa - v.reach := by
    have := v.reach_eq
    rw [Nat.cast_sub (by omega)]
    push_cast
    rfl
  have hupper : ((4 * v.mantissa + 2 : ℕ) : ℚ) = 4 * v.mantissa + 2 := by push_cast; rfl
  rw [admits_eq, Rounds, ← hlower, ← hupper]
  split
  · rw [decide_eq_true_iff, hle, hge]
  · rw [decide_eq_true_iff, ← not_le, ← not_le, ← not_le, ← not_le, hle, hge]

theorem of_firstOf {p : Nat → Bool} {a b : Nat} (h : (if p a then some a else if p b then some b else none) = some d) :
    p d = true := by
  split at h
  · cases h
    assumption
  · split at h
    · cases h
      assumption
    · cases h

theorem isSome_firstOf {p : Nat → Bool} {a b : Nat} (h : p a = true) :
    (if p a then some a else if p b then some b else none : Option Nat).isSome := by
  rw [if_pos h]
  rfl

theorem admits_of_onGrid (h : v.onGrid k = some d) : v.admits k d = true := of_firstOf (p := v.admits k) h

/-- The multiple of `den` nearest to `exact` is less than half of `den` away, or just half. -/
theorem nearest_spec (exact : Nat) {den : Nat} (hden : 0 < den) :
    let below := exact / den
    let nearer := if 2 * exact < (2 * below + 1) * den then below else below + 1
    2 * exact ≤ 2 * (nearer * den) + den ∧ 2 * (nearer * den) ≤ 2 * exact + den := by
  intro below nearer
  have hmod := Nat.mod_lt exact hden
  have hdiv : below * den + exact % den = exact := by rw [Nat.mul_comm]; exact Nat.div_add_mod exact den
  have hnearer : nearer * den = if 2 * exact < (2 * below + 1) * den then below * den else below * den + den := by
    simp only [nearer]
    split
    · rfl
    · exact Nat.succ_mul below den
  rw [hnearer, Nat.add_mul, Nat.mul_assoc, Nat.one_mul]
  split <;> omega

/-- On a grid that is finer than half a unit, a multiple that is at most half a step away rounds to `v`. -/
theorem admits_of_near (hm : v.mantissa ≠ 0) (hfine : (v.quarterRatio k).2 < 2 * (v.quarterRatio k).1)
    (habove : 2 * (4 * v.mantissa * (v.quarterRatio k).1) ≤ 2 * (d * (v.quarterRatio k).2) + (v.quarterRatio k).2)
    (hbelow : 2 * (d * (v.quarterRatio k).2) ≤ 2 * (4 * v.mantissa * (v.quarterRatio k).1) + (v.quarterRatio k).2) :
    v.admits k d = true := by
  have hpos : (v.quarterRatio k).1 ≤ v.mantissa * (v.quarterRatio k).1 :=
    Nat.le_mul_of_pos_left _ (Nat.pos_of_ne_zero hm)
  have hlower : (4 * v.mantissa - v.reach) * (v.quarterRatio k).1 < d * (v.quarterRatio k).2 := by
    rw [Nat.sub_mul]
    rw [Nat.mul_assoc] at habove ⊢
    obtain hreach | hreach := v.reach_eq <;> rw [hreach] <;> omega
  have hupper : d * (v.quarterRatio k).2 < (4 * v.mantissa + 2) * (v.quarterRatio k).1 := by
    rw [Nat.add_mul]
    omega
  rw [admits_eq]
  split
  · exact decide_eq_true ⟨hlower.le, hupper.le⟩
  · exact decide_eq_true ⟨hlower, hupper⟩

theorem isSome_onGrid (hm : v.mantissa ≠ 0) (hfine : (10 : ℚ) ^ k < 2 * v.quarter) : (v.onGrid k).isSome := by
  obtain ⟨hden, hratio⟩ := v.quarterRatio_spec k
  have hdenq : (0 : ℚ) < (v.quarterRatio k).2 := by exact_mod_cast hden
  have hten : (0 : ℚ) < 10 ^ k := zpow_pos (by norm_num) k
  have hnum : (v.quarterRatio k).2 < 2 * (v.quarterRatio k).1 := by
    have hscaled : ((v.quarterRatio k).2 : ℚ) * 10 ^ k < 2 * (v.quarterRatio k).1 * 10 ^ k := by
      rw [mul_assoc, hratio]
      nlinarith
    exact_mod_cast (mul_lt_mul_iff_left₀ hten).1 hscaled
  obtain ⟨habove, hbelow⟩ := nearest_spec (4 * v.mantissa * (v.quarterRatio k).1) hden
  exact isSome_firstOf (p := v.admits k) (admits_of_near hm hnum habove hbelow)

/-! ## Where the search starts -/

/-- A number has at most one digit more than a power of ten below it. -/
theorem ten_pow_length_le {n : Nat} (hn : n ≠ 0) : 10 ^ (toString n).length ≤ 10 * n := by
  rw [← String.length_toList, Nat.toString_eq_repr, Nat.toList_repr]
  cases hlength : (Nat.toDigits 10 n).length with
  | zero => omega
  | succ l =>
    rw [Nat.pow_succ, Nat.mul_comm]
    refine Nat.mul_le_mul_left 10 ?_
    obtain rfl | hl := Nat.eq_zero_or_pos l
    · omega
    · have hlt := Nat.length_toDigits_le_iff (b := 10) (n := n) (by decide) hl
      omega

theorem lt_ten_pow_length (n : Nat) : n < 10 ^ (toString n).length := by
  rw [← String.length_toList, Nat.toString_eq_repr, Nat.toList_repr]
  exact (Nat.length_toDigits_le_iff (by decide) (Nat.length_toDigits_pos)).1 (Nat.le_refl _)

/-- The power of ten where the search starts is not more than ten times `v`. -/
theorem ceilingPower_le (hm : v.mantissa ≠ 0) : (10 : ℚ) ^ v.ceilingPower ≤ 10 * (4 * v.mantissa * v.quarter) := by
  obtain ⟨hden, hratio⟩ := v.quarterRatio_spec 0
  have hdenq : (0 : ℚ) < (v.quarterRatio 0).2 := by exact_mod_cast hden
  have hnum : 0 < (v.quarterRatio 0).1 := Nat.mul_pos (Nat.pow_pos (by decide)) (Nat.pow_pos (by decide))
  rw [zpow_zero, mul_one] at hratio
  have hvalue : (4 * v.mantissa * v.quarter : ℚ) * (v.quarterRatio 0).2 =
      (4 * v.mantissa * (v.quarterRatio 0).1 : ℕ) := by
    push_cast
    rw [hratio]
    ring
  have hexact : 0 < 4 * v.mantissa * (v.quarterRatio 0).1 := by positivity
  unfold ceilingPower
  dsimp only
  generalize 4 * v.mantissa * (v.quarterRatio 0).1 = exact at *
  generalize (v.quarterRatio 0).2 = den at *
  split
  · next hle =>
    have hdigits : ((10 ^ (toString (exact / den)).length : ℕ) : ℚ) ≤ (10 * (exact / den) : ℕ) :=
      Nat.cast_le.2 (ten_pow_length_le (Nat.div_pos hle hden).ne')
    have hfloor : ((exact / den : ℕ) : ℚ) * den ≤ exact := by exact_mod_cast Nat.div_mul_le_self exact den
    rw [← hvalue, mul_le_mul_iff_left₀ hdenq] at hfloor
    push_cast at hdigits
    rw [zpow_natCast]
    linarith
  · have hdigits : den < 10 ^ (toString (den / exact)).length * exact :=
      (Nat.div_lt_iff_lt_mul hexact).1 (lt_ten_pow_length _)
    have hscaled : (1 : ℚ) * den ≤ 10 ^ (toString (den / exact)).length * (4 * v.mantissa * v.quarter) * den := by
      rw [one_mul, mul_assoc, hvalue]
      exact_mod_cast hdigits.le
    rw [mul_le_mul_iff_left₀ hdenq] at hscaled
    rw [zpow_sub₀ (by norm_num), zpow_one, zpow_natCast, div_le_iff₀ (by positivity)]
    linarith

/-- The decimal that is chosen rounds to the magnitude. -/
theorem rounds_shortest (hv : v.Valid) (hm : v.mantissa ≠ 0) : v.Rounds (v.shortest.1 * 10 ^ v.shortest.2) := by
  -- The last grid has steps far below half a unit.
  have hfine : (10 : ℚ) ^ (v.ceilingPower - (19 : ℕ)) < 2 * v.quarter := by
    have hlt : (v.mantissa : ℚ) < 2 ^ 53 := by exact_mod_cast hv.mantissa_lt
    have hle := ceilingPower_le hm
    have hpos := v.quarter_pos
    rw [zpow_sub₀ (by norm_num), zpow_natCast, div_lt_iff₀ (by positivity)]
    nlinarith
  have hlast := isSome_onGrid hm hfine
  unfold shortest
  dsimp only
  generalize hfind : (List.range 20).findSome? _ = found
  cases found with
  | none =>
    have hnone := List.findSome?_eq_none_iff.1 hfind 19 (List.mem_range.2 (by decide))
    rw [Option.map_eq_none_iff] at hnone
    rw [hnone] at hlast
    cases hlast
  | some p =>
    obtain ⟨i, -, hi⟩ := List.exists_of_findSome?_eq_some hfind
    obtain ⟨d, hd, rfl⟩ := Option.map_eq_some_iff.1 hi
    exact (admits_iff hm).1 (admits_of_onGrid hd)

end Magnitude

/-! ## Numerals -/

/-- Digits with a point and further digits behind them, if there are any. -/
def numeral (whole fraction : List Char) : List Char := if fraction.isEmpty then whole else whole ++ '.' :: fraction

/-- The text is a numeral with digits in front of the point, and stands for the number. -/
def StandsFor (text : List Char) (x : ℚ) : Prop :=
  ∃ whole fraction, text = numeral whole fraction ∧ whole ≠ [] ∧ (∀ c ∈ whole ++ fraction, c.isDigit) ∧
    x = digitsValue (whole ++ fraction) * 10 ^ (-(fraction.length : ℤ))

theorem splitNumeral?_numeral {whole fraction : List Char} (hne : whole ≠ []) (h : ∀ c ∈ whole ++ fraction, c.isDigit) :
    splitNumeral? (numeral whole fraction) = some (whole, fraction) := by
  obtain ⟨hwhole, hfraction⟩ := List.forall_mem_append.1 h
  unfold numeral splitNumeral?
  cases fraction with
  | nil => simp [List.takeWhile_eq_self_iff.2 hwhole, List.dropWhile_eq_nil_iff.2 hwhole, hne]
  | cons c cs =>
    have htake : (whole ++ '.' :: c :: cs).takeWhile Char.isDigit = whole := by
      rw [List.takeWhile_append_of_pos hwhole, List.takeWhile_cons_of_neg (by decide), List.append_nil]
    have hdrop : (whole ++ '.' :: c :: cs).dropWhile Char.isDigit = '.' :: c :: cs := by
      rw [List.dropWhile_append_of_pos hwhole, List.dropWhile_cons_of_neg (by decide)]
    simp only [List.isEmpty_cons, Bool.false_eq_true, if_false, htake, hdrop]
    exact if_pos ⟨trivial, List.all_eq_true.2 hfraction, by simp⟩

theorem StandsFor.unique {text : List Char} {x y : ℚ} (hx : StandsFor text x) (hy : StandsFor text y) : x = y := by
  obtain ⟨whole, fraction, rfl, hne, hdigits, rfl⟩ := hx
  obtain ⟨whole', fraction', htext, hne', hdigits', rfl⟩ := hy
  have hsplit := splitNumeral?_numeral hne hdigits
  rw [htext, splitNumeral?_numeral hne' hdigits'] at hsplit
  cases hsplit
  rfl

/-- A numeral starts with a digit, and has nothing but digits and a point. -/
theorem StandsFor.chars {text : List Char} {x : ℚ} (h : StandsFor text x) :
    (∃ c cs, text = c :: cs ∧ c.isDigit) ∧ ∀ c ∈ text, c.isDigit ∨ c = '.' := by
  obtain ⟨whole, fraction, rfl, hne, hdigits, -⟩ := h
  obtain ⟨hwhole, hfraction⟩ := List.forall_mem_append.1 hdigits
  cases whole with
  | nil => exact absurd rfl hne
  | cons c cs =>
    unfold numeral
    split
    · exact ⟨⟨c, cs, rfl, hwhole c List.mem_cons_self⟩, fun d hd => .inl (hwhole d hd)⟩
    · refine ⟨⟨c, _, rfl, hwhole c List.mem_cons_self⟩, fun d hd => ?_⟩
      obtain hd | hd := List.mem_append.1 hd
      · exact .inl (hwhole d hd)
      · obtain rfl | hd := List.mem_cons.1 hd
        · exact .inr rfl
        · exact .inl (hfraction d hd)

/-! ## Digits -/

theorem digitsValue_append_zeros (digits : List Char) (n : Nat) :
    digitsValue (digits ++ List.replicate n '0') = 10 ^ n * digitsValue digits :=
  (Nat.ofDigitChars_append 0).trans Nat.ofDigitChars_replicate_zero

theorem digitsValue_zeros_append (n : Nat) (digits : List Char) :
    digitsValue (List.replicate n '0' ++ digits) = digitsValue digits := by
  refine (Nat.ofDigitChars_append 0).trans ?_
  rw [Nat.ofDigitChars_replicate_zero]
  rfl

theorem digitsValue_toString (d : Nat) : digitsValue (toString d).toList = d := by
  rw [Nat.toString_eq_repr, Nat.toList_repr]
  exact Nat.ofDigitChars_ten_toDigits

theorem isDigit_of_mem_toString {d : Nat} {c : Char} (h : c ∈ (toString d).toList) : c.isDigit = true := by
  rw [Nat.toString_eq_repr, Nat.toList_repr] at h
  exact Nat.isDigit_of_mem_toDigits (by decide) (by decide) h

theorem toList_toString_ne_nil (d : Nat) : (toString d).toList ≠ [] := by
  rw [Nat.toString_eq_repr, Nat.toList_repr]
  exact List.ne_nil_of_length_pos Nat.length_toDigits_pos

namespace Notation

/-- Digits with a point among or beside them stand for the digits times a power of ten. -/
theorem standsFor_placePoint (d : Nat) (point : Int) :
    StandsFor (plain.placePoint (toString d).toList point).toList (d * 10 ^ (point - (toString d).toList.length)) := by
  have hdigits : ∀ c ∈ (toString d).toList, c.isDigit := fun c hc => isDigit_of_mem_toString hc
  have hzeros (n : Nat) : ∀ c ∈ List.replicate n '0', c.isDigit := by
    intro c hc
    rw [List.eq_of_mem_replicate hc]
    rfl
  have hvalue := digitsValue_toString d
  have hne := toList_toString_ne_nil d
  generalize (toString d).toList = digits at *
  unfold placePoint
  split
  · next hpoint =>
    refine ⟨['0'], List.replicate (-point).toNat '0' ++ digits, by simp [numeral, hne], by simp, ?_, ?_⟩
    · exact List.forall_mem_append.2 ⟨hzeros 1, List.forall_mem_append.2 ⟨hzeros _, hdigits⟩⟩
    · have hzero : ['0'] ++ (List.replicate (-point).toNat '0' ++ digits) =
          List.replicate ((-point).toNat + 1) '0' ++ digits := by simp [List.replicate_succ]
      have hpower : -((List.replicate (-point).toNat '0' ++ digits).length : ℤ) = point - digits.length := by
        simp only [List.length_append, List.length_replicate]
        omega
      rw [hzero, digitsValue_zeros_append, hvalue, hpower]
  split
  · next hpoint hlength =>
    refine ⟨digits ++ List.replicate (point.toNat - digits.length) '0', [], by simp [numeral, plain], by simp [hne],
      ?_, ?_⟩
    · rw [List.append_nil]
      exact List.forall_mem_append.2 ⟨hdigits, hzeros _⟩
    · have hpower : point - digits.length = ((point.toNat - digits.length : ℕ) : ℤ) := by omega
      rw [List.append_nil, digitsValue_append_zeros, hvalue, hpower, zpow_natCast]
      push_cast
      simp [mul_comm]
  · next hpoint hlength =>
    have hfront : digits.take point.toNat ≠ [] := by
      rw [ne_eq, List.take_eq_nil_iff, not_or]
      exact ⟨by omega, hne⟩
    have hback : digits.drop point.toNat ≠ [] := fun hnil => by
      rw [List.drop_eq_nil_iff] at hnil
      omega
    have hpower : -((digits.drop point.toNat).length : ℤ) = point - digits.length := by
      rw [List.length_drop]
      omega
    refine ⟨digits.take point.toNat, digits.drop point.toNat, by simp [numeral, List.isEmpty_iff, hback], hfront,
      ?_, ?_⟩
    · rwa [List.take_append_drop]
    · rw [List.take_append_drop, hvalue, hpower]

/-- A magnitude is written as a decimal that rounds to it. -/
theorem exists_standsFor {v : Magnitude} (hv : v.Valid) : ∃ x, StandsFor (plain.magnitude v).toList x ∧ v.Rounds x := by
  unfold magnitude
  split
  · next hm =>
    refine ⟨0, ?_, ?_⟩
    · have hstands := standsFor_placePoint 0 1
      simpa [placePoint] using hstands
    · have hpos := v.quarter_pos
      rw [Magnitude.Rounds, hm, if_pos rfl]
      constructor <;> norm_num <;> positivity
  · next hm =>
    refine ⟨_, ?_, Magnitude.rounds_shortest hv hm⟩
    have hstands := standsFor_placePoint v.shortest.1 (v.shortest.2 + (toString v.shortest.1).toList.length)
    rw [add_sub_cancel_right] at hstands
    show StandsFor (plain.placePoint (toString v.shortest.1).toList
      (v.shortest.2 + (toString v.shortest.1).toList.length - 1 + 1)).toList _
    rwa [sub_add_cancel]

end Notation

/-! ## Floats -/

namespace FloatParts

variable {x y : Float} {negative : Bool} {v : Magnitude}

/-- The parts of a finite double are those of one number of 64 bits. -/
theorem toBits_of_ofFloat (h : ofFloat x = .finite negative v) : v.Valid ∧
    x.toBits.toNat = (if negative then 2 ^ 63 else 0) + (v.exponent + 1074).toNat * 2 ^ 52 + v.mantissa := by
  have hlt := x.toBits.toNat_lt
  have hsign : Nat.pow 2 63 = 2 ^ 63 := rfl
  have hstep : Nat.pow 2 52 = 2 ^ 52 := rfl
  unfold ofFloat at h
  dsimp only at h
  rw [hsign, hstep] at h
  split at h
  · split at h <;> cases h
  split at h
  all_goals
    cases h
    refine ⟨⟨?_, ?_, ?_⟩, ?_⟩ <;> dsimp only
    · omega
    · omega
    · omega
    · split
      all_goals
        next hnegative =>
        rw [beq_iff_eq] at hnegative
        omega

theorem ofFloat_injective (hx : ofFloat x = .finite negative v) (hy : ofFloat y = .finite negative v) : x = y := by
  have hbits := (toBits_of_ofFloat hx).2.trans (toBits_of_ofFloat hy).2.symm
  exact Float.toBits_inj.1 (UInt64.toNat_inj.1 hbits)

open Float.Model in
/-- A float that is finite has a magnitude. -/
theorem exists_of_isFinite (h : x.isFinite = true) : ∃ negative v, ofFloat x = .finite negative v := by
  unfold ofFloat
  dsimp only
  split
  · next hbiased =>
    have hexponent : @UnpackedFloat.unpackExponent Format.binary64 x.toModel.toBits.toBitVec = -1#11 := by
      apply BitVec.eq_of_toNat_eq
      have hbits : x.toModel.toBits.toBitVec.toNat = x.toBits.toNat := rfl
      simp only [UnpackedFloat.unpackExponent, BitVec.toNat_cast, BitVec.extractLsb_toNat, hbits,
        Nat.shiftRight_eq_div_pow]
      exact hbiased
    unfold Float.isFinite Float.Model.isFinite Float.Model.unpack UnpackedFloat.unpack at h
    simp only [hexponent] at h
    split at h
    · split at h <;> cases h
    · next hne => exact absurd trivial hne
  · split <;> exact ⟨_, _, rfl⟩

end FloatParts

namespace Notation

variable {x y : Float}

/-- A finite float is written as a sign and a numeral of a number that rounds to its magnitude. -/
theorem exists_toList_write (h : x.isFinite = true) : ∃ negative v text q, FloatParts.ofFloat x = .finite negative v ∧
    (plain.write x).toList = (if negative then ['-'] else []) ++ text ∧ StandsFor text q ∧ v.Rounds q := by
  obtain ⟨negative, v, hparts⟩ := FloatParts.exists_of_isFinite h
  obtain ⟨q, hstands, hrounds⟩ := exists_standsFor (FloatParts.toBits_of_ofFloat hparts).1
  refine ⟨negative, v, _, q, hparts, ?_, hstands, hrounds⟩
  rw [write, hparts]
  cases negative <;> simp

/-- Finite floats that are written alike are the same. -/
theorem write_injective (hx : x.isFinite = true) (hy : y.isFinite = true) (h : plain.write x = plain.write y) :
    x = y := by
  obtain ⟨negative, v, text, q, hparts, hwrite, hstands, hrounds⟩ := exists_toList_write hx
  obtain ⟨negative', v', text', q', hparts', hwrite', hstands', hrounds'⟩ := exists_toList_write hy
  obtain ⟨⟨c, cs, hc, hdigit⟩, -⟩ := hstands.chars
  obtain ⟨⟨c', cs', hc', hdigit'⟩, -⟩ := hstands'.chars
  -- No digit is a sign, so the signs and the numerals are the same.
  have hsign : '-' ≠ c := by
    rintro rfl
    cases hdigit
  have hsign' : c' ≠ '-' := by
    rintro rfl
    cases hdigit'
  obtain ⟨rfl, rfl⟩ : negative' = negative ∧ text' = text := by
    rw [h, hwrite', hc, hc'] at hwrite
    rw [hc, hc']
    cases negative <;> cases negative' <;> simp [hsign, hsign'] at hwrite ⊢
    · exact hwrite
    · exact hwrite
  obtain rfl := hstands.unique hstands'
  have hvalid := (FloatParts.toBits_of_ofFloat hparts).1
  have hvalid' := (FloatParts.toBits_of_ofFloat hparts').1
  obtain rfl := hrounds.unique hvalid hvalid' hrounds'
  exact FloatParts.ofFloat_injective hparts hparts'

end Notation

end Monofloat
