import Mathlib.Data.List.TakeWhile
import Monofloat.Token.Scan

/-!
# Patterns and longest matches

The texts that the scanner knows: runs of blanks, comments, keywords, numerals, names and symbols. `pieceAt`
cuts the longest text that any pattern matches, and tells from it which piece it is (`pieceAt_cuts`); where no
pattern matches, the piece is one character.
-/

namespace Monofloat

inductive Pattern where
  | blanks
  | comment
  | keyword (k : Keyword)
  | numeral
  | name
  | symbol (s : Symbol)

/-- The texts of a pattern. -/
def Pattern.Matches : Pattern → List Char → Prop
  | blanks, text => text ≠ [] ∧ ∀ c ∈ text, isBlank c
  | comment, text => ∃ body, text = '#' :: body ∧ '\n' ∉ body
  | keyword k, text => text = k.spelling.toList
  | numeral, text => text ≠ [] ∧ ∀ c ∈ text, isNumeralChar c
  | name, text => ∃ c cs, text = c :: cs ∧ isNameStart c ∧ ∀ d ∈ cs, isNameChar d
  | symbol s, text => text = s.spelling.toList

/-- No pattern matches more of `text ++ rest` than `text`. -/
def Longest (text rest : List Char) : Prop :=
  ∀ (p : Pattern) (other : List Char), p.Matches other → other <+: text ++ rest → other.length ≤ text.length

/-- At least one digit and at most one point. -/
def IsDecimal (text : List Char) : Prop := 1 ≤ text.countP Char.isDigit ∧ text.count '.' ≤ 1

/-- The texts of the pieces that are reported. -/
inductive Piece.Spelled : Piece → List Char → Prop
  | keyword (k : Keyword) : Spelled (.token (.keyword k)) k.spelling.toList
  | identifier {name : String} (hname : Pattern.name.Matches name.toList) (hkeyword : ∀ k : Keyword, k.spelling ≠ name) :
    Spelled (.token (.identifier name)) name.toList
  | number {text : List Char} {x : Float} (hrun : Pattern.numeral.Matches text) (hdecimal : IsDecimal text)
    (hvalue : readNumeral? text = some x) : Spelled (.token (.number x)) text
  | symbol (s : Symbol) : Spelled (.token (.symbol s)) s.spelling.toList
  | invalidNumber {text : List Char} (hrun : Pattern.numeral.Matches text) (hdecimal : ¬ IsDecimal text) :
    Spelled (.rejected (.invalidNumber (String.ofList text))) text
  | unexpectedCharacter {c : Char} (hnone : ∀ (p : Pattern) (more : List Char), ¬ p.Matches (c :: more)) :
    Spelled (.rejected (.unexpectedCharacter c)) [c]

/-- Whether a character directly behind the piece would be part of it. -/
def Piece.goesOn : Piece → Char → Bool
  | .token (.keyword _), d => isNameChar d
  | .token (.identifier _), d => isNameChar d
  | .token (.number _), d => isNumeralChar d
  | .rejected (.invalidNumber _), d => isNumeralChar d
  | .token (.symbol .plus), d => d == '+'
  | .token (.symbol .equal), d => d == '='
  | _, _ => false

/-! ## Kinds of characters -/

theorem isNumeralChar_iff {c : Char} : isNumeralChar c ↔ c.isDigit ∨ c = '.' := by simp [isNumeralChar]

theorem isNameChar_iff {c : Char} : isNameChar c ↔ isNameStart c ∨ c.isDigit := by
  simp only [isNameChar, isNameStart, Char.isAlphanum, Bool.or_eq_true, beq_iff_eq]
  exact or_right_comm

/-- Names start at or after the letter `A`. -/
theorem le_toNat_of_isNameStart {c : Char} (h : isNameStart c) : 65 ≤ c.toNat := by
  simp only [isNameStart, Bool.or_eq_true, beq_iff_eq] at h
  rcases h with hletter | rfl
  · rcases Bool.or_eq_true_iff.1 (show (c.isUpper || c.isLower) = true from hletter) with hupper | hlower
    · have hle : 'A'.val ≤ c.val := (of_decide_eq_true hupper).1
      exact UInt32.le_iff_toNat_le.1 hle
    · have hle : 'a'.val ≤ c.val := of_decide_eq_true (Bool.and_eq_true_iff.1 hlower).1
      exact Nat.le_trans (by decide) (UInt32.le_iff_toNat_le.1 hle)
  · decide

theorem isBlank_iff {c : Char} : isBlank c ↔ c ∈ [' ', '\t', '\r', '\n', '\x0c'] := by
  simp [isBlank, or_assoc]

theorem isNumeralChar_of_isBlank {c : Char} (h : isBlank c) : isNumeralChar c = false := by
  simp only [isBlank_iff, List.mem_cons, List.not_mem_nil, or_false] at h
  rcases h with rfl | rfl | rfl | rfl | rfl <;> rfl

theorem isNameStart_of_isBlank {c : Char} (h : isBlank c) : isNameStart c = false := by
  simp only [isBlank_iff, List.mem_cons, List.not_mem_nil, or_false] at h
  rcases h with rfl | rfl | rfl | rfl | rfl <;> rfl

theorem isBlank_of_isNameChar {c : Char} (h : isNameChar c) : isBlank c = false := by
  refine Bool.eq_false_iff.2 fun hblank => ?_
  rcases isNameChar_iff.1 h with hstart | hdigit
  · rw [isNameStart_of_isBlank hblank] at hstart; cases hstart
  · have hnumeral := isNumeralChar_of_isBlank hblank
    rw [isNumeralChar_iff.2 (.inl hdigit)] at hnumeral
    cases hnumeral

theorem isNameStart_of_isNumeralChar {c : Char} (h : isNumeralChar c) : isNameStart c = false := by
  rcases isNumeralChar_iff.1 h with hdigit | rfl
  · have hle : c.toNat ≤ 57 := (Char.isDigit_iff_toNat.1 hdigit).2
    cases hstart : isNameStart c with
    | false => rfl
    | true => exact absurd (Nat.le_trans (le_toNat_of_isNameStart hstart) hle) (by decide)
  · decide

/-- Blanks, comments, numerals and names start with other characters. -/
structure IsOther (c : Char) : Prop where
  blank : isBlank c = false
  comment : c ≠ '#'
  numeral : isNumeralChar c = false
  name : isNameStart c = false

/-! ## What patterns match -/

theorem Keyword.mem_all (k : Keyword) : k ∈ all := by cases k <;> decide

theorem Symbol.mem_all (s : Symbol) : s ∈ all := by cases s <;> decide

theorem Pattern.name_matches_keyword (k : Keyword) : name.Matches k.spelling.toList := by
  cases k <;> exact ⟨_, _, rfl, rfl, List.all_eq_true.1 rfl⟩

/-- The first character of a symbol starts no other pattern, and is a symbol by itself. -/
theorem Symbol.of_spelling {s : Symbol} {c : Char} {cs : List Char} (h : s.spelling.toList = c :: cs) :
    IsOther c ∧ ∃ s' : Symbol, s'.spelling = c.toString := by
  have hall : ∀ s ∈ all, s.spelling.toList.head?.all (fun c => !isBlank c && c != '#' && !isNumeralChar c &&
      !isNameStart c && all.any (·.spelling = c.toString)) = true := by decide
  have hs := hall s s.mem_all
  simp only [h, List.head?_cons, Option.all_some, Bool.and_eq_true, Bool.not_eq_true', bne_iff_ne, List.any_eq_true,
    decide_eq_true_eq] at hs
  obtain ⟨⟨⟨⟨hblank, hhash⟩, hnumeral⟩, hname⟩, s', -, hs'⟩ := hs
  exact ⟨⟨hblank, hhash, hnumeral, hname⟩, s', hs'⟩

/-- Only two symbols have a second character. -/
theorem Symbol.spelling_tail {s : Symbol} {c : Char} {cs : List Char} (h : s.spelling.toList = c :: cs) :
    cs = [] ∨ c = '+' ∧ cs = ['+'] ∨ c = '=' ∧ cs = ['='] := by
  have hall : ∀ s ∈ all, s.spelling.toList.tail = [] ∨ s.spelling.toList = ['+', '+'] ∨
      s.spelling.toList = ['=', '='] := by decide
  have hs := hall s s.mem_all
  rw [h] at hs
  simpa using hs

namespace Pattern.Matches

variable {p : Pattern} {c : Char} {cs : List Char}

/-- The first character of a match tells which characters follow. -/
theorem cases_head (h : p.Matches (c :: cs)) :
    isBlank c ∧ (∀ d ∈ cs, isBlank d) ∨ c = '#' ∧ '\n' ∉ cs ∨ isNumeralChar c ∧ (∀ d ∈ cs, isNumeralChar d) ∨
      isNameStart c ∧ (∀ d ∈ cs, isNameChar d) ∨ ∃ s : Symbol, s.spelling.toList = c :: cs := by
  cases p with
  | blanks => exact .inl (List.forall_mem_cons.1 h.2)
  | comment =>
    obtain ⟨body, hbody, hline⟩ := h
    obtain ⟨rfl, rfl⟩ := List.cons.inj hbody
    exact .inr (.inl ⟨rfl, hline⟩)
  | numeral => exact .inr (.inr (.inl (List.forall_mem_cons.1 h.2)))
  | keyword k =>
    obtain ⟨d, ds, hd, hstart, hrest⟩ := name_matches_keyword k
    obtain ⟨rfl, rfl⟩ := List.cons.inj (Eq.trans h hd)
    exact .inr (.inr (.inr (.inl ⟨hstart, hrest⟩)))
  | name =>
    obtain ⟨d, ds, hd, hstart, hrest⟩ := h
    obtain ⟨rfl, rfl⟩ := List.cons.inj hd
    exact .inr (.inr (.inr (.inl ⟨hstart, hrest⟩)))
  | symbol s => exact .inr (.inr (.inr (.inr ⟨s, h.symm⟩)))

theorem tail_of_numeral (h : p.Matches (c :: cs)) (hc : isNumeralChar c) : ∀ d ∈ cs, isNumeralChar d := by
  rcases h.cases_head with ⟨hblank, -⟩ | ⟨rfl, -⟩ | ⟨-, hcs⟩ | ⟨hstart, -⟩ | ⟨s, hs⟩
  · rw [isNumeralChar_of_isBlank hblank] at hc; cases hc
  · cases hc
  · exact hcs
  · rw [isNameStart_of_isNumeralChar hc] at hstart; cases hstart
  · rw [(Symbol.of_spelling hs).1.numeral] at hc; cases hc

theorem tail_of_name (h : p.Matches (c :: cs)) (hc : isNameStart c) : ∀ d ∈ cs, isNameChar d := by
  rcases h.cases_head with ⟨hblank, -⟩ | ⟨rfl, -⟩ | ⟨hnumeral, -⟩ | ⟨-, hcs⟩ | ⟨s, hs⟩
  · rw [isNameStart_of_isBlank hblank] at hc; cases hc
  · cases hc
  · rw [isNameStart_of_isNumeralChar hnumeral] at hc; cases hc
  · exact hcs
  · rw [(Symbol.of_spelling hs).1.name] at hc; cases hc

/-- What starts with none of the characters of the other patterns is a symbol. -/
theorem symbol_of_other (h : p.Matches (c :: cs)) (hc : IsOther c) : ∃ s : Symbol, s.spelling.toList = c :: cs := by
  rcases h.cases_head with h | h | h | h | h
  · rw [hc.blank] at h; cases h.1
  · exact absurd h.1 hc.comment
  · rw [hc.numeral] at h; cases h.1
  · rw [hc.name] at h; cases h.1
  · exact h

end Pattern.Matches

/-! ## Longest matches -/

section

variable {c : Char} {text run rest other : List Char}

/-- Of a run that cannot go on, no longer one is a start. -/
theorem length_le_of_start {f : Char → Bool} (hother : ∀ d ∈ other, f d) (h : other <+: run ++ rest)
    (hrest : ∀ d ∈ rest.head?, f d = false) : other.length ≤ run.length := by
  rcases List.prefix_or_prefix_of_prefix h (List.prefix_append run rest) with hle | ⟨more, rfl⟩
  · exact hle.length_le
  · cases more with
    | nil => simp
    | cons d more =>
      obtain ⟨after, hafter⟩ := (List.prefix_append_right_inj run).1 h
      have hd : f d = false := hrest d (by rw [← hafter]; rfl)
      rw [hother d (by simp)] at hd
      cases hd

/-- Two runs that cannot go on are the same where they start together. -/
theorem run_unique {f : Char → Bool} {after : List Char} (h : run ++ after = text ++ rest) (hrun : ∀ c ∈ run, f c)
    (hafter : ∀ d ∈ after.head?, f d = false) (htext : ∀ c ∈ text, f c) (hrest : ∀ d ∈ rest.head?, f d = false) :
    run = text := by
  have hle : run.length ≤ text.length := length_le_of_start hrun (h ▸ List.prefix_append run after) hrest
  have hge : text.length ≤ run.length := length_le_of_start htext (h ▸ List.prefix_append text rest) hafter
  exact List.append_inj_left h (Nat.le_antisymm hle hge)

theorem head?_dropWhile (f : Char → Bool) (cs : List Char) : ∀ d ∈ (cs.dropWhile f).head?, f d = false := by
  intro d hd
  have hnot := List.head?_dropWhile_not f cs
  rw [hd] at hnot
  exact hnot

theorem longest_of_run {f : Char → Bool} (hf : ∀ (p : Pattern) (cs : List Char), p.Matches (c :: cs) → ∀ d ∈ cs, f d)
    (hrest : ∀ d ∈ rest.head?, f d = false) : Longest (c :: run) rest := by
  intro p other hother h
  cases other with
  | nil => exact Nat.zero_le _
  | cons d ds =>
    obtain ⟨rfl, hds⟩ := List.cons_prefix_cons.1 h
    exact Nat.succ_le_succ (length_le_of_start (hf p ds hother) hds hrest)

/-- Where only a symbol can stand, the symbols decide. -/
theorem longest_of_symbols (hc : IsOther c)
    (h : ∀ (s : Symbol) (cs : List Char), s.spelling.toList = c :: cs → cs <+: run ++ rest → cs.length ≤ run.length) :
    Longest (c :: run) rest := by
  intro p other hother hstart
  cases other with
  | nil => exact Nat.zero_le _
  | cons d ds =>
    obtain ⟨rfl, hds⟩ := List.cons_prefix_cons.1 hstart
    obtain ⟨s, hs⟩ := hother.symbol_of_other hc
    exact Nat.succ_le_succ (h s ds hs hds)

theorem longest_of_pair {d : Char} (hc : IsOther c) : Longest [c, d] rest := by
  refine longest_of_symbols hc fun s cs hs _ => ?_
  obtain rfl | ⟨-, rfl⟩ | ⟨-, rfl⟩ := Symbol.spelling_tail hs <;> simp

theorem Longest.not_matches {d : Char} (h : Longest text (d :: rest)) (p : Pattern) : ¬ p.Matches (text ++ [d]) := by
  intro hp
  have hle := h p (text ++ [d]) hp (by simp)
  rw [List.length_append] at hle
  exact Nat.not_succ_le_self _ hle

end

/-! ## Pieces -/

/-- Among digits and points, the digits are those that are no point. -/
theorem point_notMem_iff {text : List Char} (h : ∀ c ∈ text, isNumeralChar c) :
    '.' ∉ text ↔ ∀ c ∈ text, c.isDigit := by
  constructor
  · intro hpoint c hc
    exact (isNumeralChar_iff.1 (h c hc)).resolve_right fun heq => hpoint (heq ▸ hc)
  · intro hdigits hpoint
    exact absurd (hdigits '.' hpoint) (by decide)

theorem isDecimal_of_digits {text : List Char} (h : ∀ c ∈ text, c.isDigit) : IsDecimal text ↔ text ≠ [] := by
  have hpoint : text.count '.' = 0 := List.count_eq_zero.2 fun hmem => absurd (h '.' hmem) (by decide)
  rw [IsDecimal, List.countP_eq_length.2 h, hpoint, ← List.length_pos_iff]
  simp [Nat.succ_le_iff]

/-- With a point in it, the rest is digits, and there is one. -/
theorem isDecimal_point {whole fraction : List Char} (hwhole : ∀ c ∈ whole, c.isDigit)
    (hfraction : ∀ c ∈ fraction, isNumeralChar c) :
    IsDecimal (whole ++ '.' :: fraction) ↔ (∀ c ∈ fraction, c.isDigit) ∧ ¬ (whole = [] ∧ fraction = []) := by
  have hpoint : whole.count '.' = 0 := List.count_eq_zero.2 fun hmem => absurd (hwhole '.' hmem) (by decide)
  have hcount : (whole ++ '.' :: fraction).count '.' ≤ 1 ↔ ∀ c ∈ fraction, c.isDigit := by
    rw [List.count_append, hpoint, List.count_cons_self, ← point_notMem_iff hfraction, ← List.count_eq_zero]
    omega
  have hdigits : (whole ++ '.' :: fraction).countP Char.isDigit = whole.length + fraction.countP Char.isDigit := by
    rw [List.countP_append, List.countP_eq_length.2 hwhole, List.countP_cons_of_neg (by decide)]
  rw [IsDecimal, hcount, hdigits, and_comm]
  refine and_congr_right fun hall => ?_
  rw [List.countP_eq_length.2 hall, ← List.length_eq_zero_iff, ← List.length_eq_zero_iff]
  omega

/-- A run of digits and points can be read if it is a decimal. -/
theorem isSome_readNumeral?_iff {text : List Char} (h : ∀ c ∈ text, isNumeralChar c) :
    (readNumeral? text).isSome ↔ IsDecimal text := by
  have hwhole : ∀ c ∈ text.takeWhile Char.isDigit, c.isDigit := fun c hc => List.mem_takeWhile_imp hc
  have hrest : ∀ c ∈ text.dropWhile Char.isDigit, isNumeralChar c := fun c hc =>
    h c ((List.dropWhile_suffix _).subset hc)
  have hhead := head?_dropWhile Char.isDigit text
  have htext : IsDecimal text = IsDecimal (text.takeWhile Char.isDigit ++ text.dropWhile Char.isDigit) := by
    rw [List.takeWhile_append_dropWhile]
  rw [htext, readNumeral?, Option.isSome_map, splitNumeral?]
  generalize text.takeWhile Char.isDigit = whole at *
  generalize text.dropWhile Char.isDigit = rest at *
  cases rest with
  | nil =>
    rw [List.append_nil, isDecimal_of_digits hwhole]
    cases whole <;> simp
  | cons c fraction =>
    obtain ⟨hc, hfraction⟩ := List.forall_mem_cons.1 hrest
    have hpoint : c = '.' := (isNumeralChar_iff.1 hc).resolve_left (by rw [hhead c rfl]; decide)
    subst hpoint
    rw [isDecimal_point hwhole hfraction]
    simp only [List.all_eq_true, List.isEmpty_iff, true_and, Option.isSome_ite]

theorem numeralPiece_spelled {text : List Char} (h : Pattern.numeral.Matches text) :
    (numeralPiece text).Spelled text := by
  have hiff := isSome_readNumeral?_iff h.2
  unfold numeralPiece
  split
  · next x hx => exact .number h (hiff.1 (by rw [hx]; rfl)) hx
  · next hx => exact .invalidNumber h fun hdecimal => by rw [hx] at hiff; cases hiff.2 hdecimal

theorem namePiece_spelled {text : List Char} (h : Pattern.name.Matches text) : (namePiece text).Spelled text := by
  rw [← String.toList_ofList (l := text)] at h
  unfold namePiece
  dsimp only
  split
  · next k hk =>
    have hspelling : k.spelling = String.ofList text := by simpa using List.find?_some hk
    rw [← String.toList_ofList (l := text), ← hspelling]
    exact .keyword k
  · next hnone =>
    have hkeyword : ∀ k : Keyword, k.spelling ≠ String.ofList text := fun k => by
      simpa using List.find?_eq_none.1 hnone k k.mem_all
    have := Piece.Spelled.identifier h hkeyword
    rwa [String.toList_ofList] at this

theorem symbolPiece_spelled {c : Char} (hc : IsOther c) : (symbolPiece c).Spelled [c] := by
  unfold symbolPiece
  split
  · next s hs =>
    have hspelling : s.spelling = c.toString := by simpa using List.find?_some hs
    have htext : [c] = s.spelling.toList := by rw [hspelling]; simp
    rw [htext]
    exact .symbol s
  · next hnone =>
    refine .unexpectedCharacter fun p more hp => ?_
    obtain ⟨s, hs⟩ := hp.symbol_of_other hc
    obtain ⟨-, s', hs'⟩ := Symbol.of_spelling hs
    exact absurd hs' (by simpa using List.find?_eq_none.1 hnone s' s'.mem_all)

namespace Pattern.Matches

variable {text : List Char} {d : Char}

theorem concat_numeral (h : numeral.Matches text) (hd : isNumeralChar d) : numeral.Matches (text ++ [d]) :=
  ⟨by simp, List.forall_mem_append.2 ⟨h.2, List.forall_mem_singleton.2 hd⟩⟩

theorem concat_name (h : name.Matches text) (hd : isNameChar d) : name.Matches (text ++ [d]) := by
  obtain ⟨c, cs, rfl, hc, hcs⟩ := h
  exact ⟨c, cs ++ [d], rfl, hc, List.forall_mem_append.2 ⟨hcs, List.forall_mem_singleton.2 hd⟩⟩

theorem isNameChar_of_mem (h : name.Matches text) (hd : d ∈ text) : isNameChar d := by
  obtain ⟨c, cs, rfl, hc, hcs⟩ := h
  rcases List.mem_cons.1 hd with rfl | hd
  · exact isNameChar_iff.2 (.inl hc)
  · exact hcs d hd

end Pattern.Matches

/-- The piece of a run of digits and points, by the shape of the run. -/
def Piece.OfNumeral (piece : Piece) (run : List Char) : Prop :=
  (IsDecimal run → ∃ x, piece = .token (.number x)) ∧
    (¬ IsDecimal run → piece = .rejected (.invalidNumber (String.ofList run)))

namespace Piece.Spelled

variable {piece : Piece} {text : List Char}

theorem ne_nil (h : piece.Spelled text) : text ≠ [] := by
  cases h with
  | keyword k => cases k <;> decide
  | identifier hname => obtain ⟨c, cs, htext, -⟩ := hname; rw [htext]; exact List.cons_ne_nil _ _
  | number hrun => exact hrun.1
  | symbol s => cases s <;> decide
  | invalidNumber hrun => exact hrun.1
  | unexpectedCharacter => exact List.cons_ne_nil _ _

/-- What is reported is a numeral, a name, or has no character of either. -/
theorem cases_text (h : piece.Spelled text) :
    Pattern.numeral.Matches text ∧ piece.OfNumeral text ∧ (∀ d, piece.goesOn d = isNumeralChar d) ∨
      Pattern.name.Matches text ∧ (∀ d, piece.goesOn d = isNameChar d) ∨
      ∀ c ∈ text, isNumeralChar c = false ∧ isNameChar c = false := by
  cases h with
  | keyword k => exact .inr (.inl ⟨Pattern.name_matches_keyword k, fun _ => rfl⟩)
  | identifier hname => exact .inr (.inl ⟨hname, fun _ => rfl⟩)
  | number hrun hdecimal =>
    exact .inl ⟨hrun, ⟨fun _ => ⟨_, rfl⟩, fun hnot => absurd hdecimal hnot⟩, fun _ => rfl⟩
  | symbol s =>
    have hall : ∀ s ∈ Symbol.all, s.spelling.toList.all (fun c => !isNumeralChar c && !isNameChar c) = true := by decide
    refine .inr (.inr fun c hc => ?_)
    simpa using List.all_eq_true.1 (hall s s.mem_all) c hc
  | invalidNumber hrun hdecimal =>
    exact .inl ⟨hrun, ⟨fun hnot => absurd hnot hdecimal, fun _ => rfl⟩, fun _ => rfl⟩
  | @unexpectedCharacter c hnone =>
    have hnumeral : isNumeralChar c = false := Bool.eq_false_iff.2 fun hc =>
      hnone .numeral [] ⟨List.cons_ne_nil _ _, List.forall_mem_singleton.2 hc⟩
    have hname : isNameStart c = false := Bool.eq_false_iff.2 fun hc => hnone .name [] ⟨c, [], rfl, hc, by simp⟩
    refine .inr (.inr (List.forall_mem_singleton.2 ⟨hnumeral, Bool.eq_false_iff.2 fun hc => ?_⟩))
    rcases isNameChar_iff.1 hc with hstart | hdigit
    · rw [hname] at hstart; cases hstart
    · rw [isNumeralChar_iff.2 (.inl hdigit)] at hnumeral; cases hnumeral

/-- The longest match is followed by no character that would be part of it. -/
theorem goesOn_eq_false {rest : List Char} (h : piece.Spelled text) (hlongest : Longest text rest) :
    ∀ d ∈ rest.head?, piece.goesOn d = false := by
  intro d hrest
  obtain ⟨rest, rfl⟩ := List.head?_eq_some_iff.1 hrest
  refine Bool.eq_false_iff.2 fun hd => ?_
  cases h with
  | keyword k => exact hlongest.not_matches .name ((Pattern.name_matches_keyword k).concat_name hd)
  | identifier hname => exact hlongest.not_matches .name (hname.concat_name hd)
  | number hrun => exact hlongest.not_matches .numeral (hrun.concat_numeral hd)
  | invalidNumber hrun => exact hlongest.not_matches .numeral (hrun.concat_numeral hd)
  | unexpectedCharacter => cases hd
  | symbol s =>
    cases s with
    | plus =>
      obtain rfl := beq_iff_eq.1 hd
      exact hlongest.not_matches (.symbol .plusPlus) rfl
    | equal =>
      obtain rfl := beq_iff_eq.1 hd
      exact hlongest.not_matches (.symbol .equalEqual) rfl
    | _ => cases hd

end Piece.Spelled

/-- How a piece is cut off: a blank, a comment up to the end of its line, or a longest match. -/
inductive Cuts : Piece → List Char → List Char → Prop
  | blank {c : Char} {rest : List Char} (hc : isBlank c) : Cuts .blank [c] rest
  | comment {body rest : List Char} (hbody : '\n' ∉ body) (hrest : ∀ d ∈ rest.head?, d = '\n') :
    Cuts .blank ('#' :: body) rest
  | lexeme {piece : Piece} {text rest : List Char} (hpiece : piece.Spelled text) (hlongest : Longest text rest) :
    Cuts piece text rest

section

variable {c : Char} (cs : List Char)

theorem cuts_comment : Cuts .blank ('#' :: cs.takeWhile (· ≠ '\n')) (cs.dropWhile (· ≠ '\n')) := by
  refine .comment (fun hmem => ?_) fun d hd => ?_
  · simpa using List.mem_takeWhile_imp hmem
  · simpa using head?_dropWhile _ cs d hd

theorem cuts_numeral (hc : isNumeralChar c) :
    Cuts (numeralPiece (c :: cs.takeWhile isNumeralChar)) (c :: cs.takeWhile isNumeralChar)
      (cs.dropWhile isNumeralChar) := by
  refine .lexeme (numeralPiece_spelled ⟨List.cons_ne_nil _ _, ?_⟩) ?_
  · exact List.forall_mem_cons.2 ⟨hc, fun d hd => List.mem_takeWhile_imp hd⟩
  · exact longest_of_run (fun p ds hp => hp.tail_of_numeral hc) (head?_dropWhile _ cs)

theorem cuts_name (hc : isNameStart c) :
    Cuts (namePiece (c :: cs.takeWhile isNameChar)) (c :: cs.takeWhile isNameChar) (cs.dropWhile isNameChar) := by
  refine .lexeme (namePiece_spelled ⟨c, _, rfl, hc, fun d hd => List.mem_takeWhile_imp hd⟩) ?_
  exact longest_of_run (fun p ds hp => hp.tail_of_name hc) (head?_dropWhile _ cs)

/-- A symbol of one character, unless it is the start of one of two. -/
theorem cuts_symbol (hc : IsOther c) (hplus : ¬ (c = '+' ∧ cs.head? = some '+'))
    (hequal : ¬ (c = '=' ∧ cs.head? = some '=')) : Cuts (symbolPiece c) [c] cs := by
  refine .lexeme (symbolPiece_spelled hc) (longest_of_symbols hc fun s ds hs hds => ?_)
  obtain rfl | ⟨rfl, rfl⟩ | ⟨rfl, rfl⟩ := Symbol.spelling_tail hs
  · exact Nat.le_refl _
  · exact absurd ⟨rfl, List.singleton_prefix_iff_head?_eq_some.1 hds⟩ hplus
  · exact absurd ⟨rfl, List.singleton_prefix_iff_head?_eq_some.1 hds⟩ hequal

end

/-- The piece at the start of a text is cut off where the scanner says. -/
theorem pieceAt_cuts (c : Char) (cs : List Char) :
    ∃ (piece : Piece) (run rest : List Char), cs = run ++ rest ∧ pieceAt c cs = (piece, run.length) ∧
      Cuts piece (c :: run) rest := by
  have hrun (f : Char → Bool) : cs = cs.takeWhile f ++ cs.dropWhile f := List.takeWhile_append_dropWhile.symm
  unfold pieceAt
  split
  · next hblank => exact ⟨_, [], cs, rfl, rfl, .blank hblank⟩
  · next hblank =>
    split
    · next hhash => exact ⟨_, _, _, hrun _, rfl, hhash ▸ cuts_comment cs⟩
    · next hhash =>
      split
      · next hnumeral => exact ⟨_, _, _, hrun _, rfl, cuts_numeral cs hnumeral⟩
      · next hnumeral =>
        split
        · next hname => exact ⟨_, _, _, hrun _, rfl, cuts_name cs hname⟩
        · next hname =>
          have hc : IsOther c :=
            ⟨Bool.eq_false_iff.2 hblank, hhash, Bool.eq_false_iff.2 hnumeral, Bool.eq_false_iff.2 hname⟩
          split
          · next hplus =>
            obtain ⟨rfl, hhead⟩ := hplus
            obtain ⟨rest, rfl⟩ := List.head?_eq_some_iff.1 hhead
            exact ⟨_, ['+'], rest, rfl, rfl, .lexeme (.symbol .plusPlus) (longest_of_pair hc)⟩
          · next hplus =>
            split
            · next hequal =>
              obtain ⟨rfl, hhead⟩ := hequal
              obtain ⟨rest, rfl⟩ := List.head?_eq_some_iff.1 hhead
              exact ⟨_, ['='], rest, rfl, rfl, .lexeme (.symbol .equalEqual) (longest_of_pair hc)⟩
            · next hequal => exact ⟨_, [], cs, rfl, rfl, cuts_symbol cs hc hplus hequal⟩

end Monofloat
