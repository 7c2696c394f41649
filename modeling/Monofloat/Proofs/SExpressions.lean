import Mathlib
import Monofloat.Proofs.Decimals

/-!
# S-expressions

An s-expression is a word, a number or a list of s-expressions. The text of a list has parentheses around its items and
single blanks between them. Words that have no delimiter in them and do not look like numbers make texts that can be
taken apart in one way only: behind the text of an s-expression there is a delimiter or nothing, so it is known where
the text ends, and what it is the text of.
-/

namespace Monofloat

inductive SExpr where
  | word (name : String)
  | number (value : Float)
  | list (items : List SExpr)

namespace SExpr

mutual

@[simp] def text : SExpr → List Char
  | word name => name.toList
  | number value => (Notation.plain.write value).toList
  | list items => '(' :: ([' '].intercalate (texts items) ++ [')'])

@[simp] def texts : List SExpr → List (List Char)
  | [] => []
  | s :: ss => s.text :: texts ss

end

/-- The text of s-expressions with a separator in front of each. -/
def behind (separator : Char) : List SExpr → List Char
  | [] => []
  | s :: ss => separator :: (s.text ++ behind separator ss)

theorem intercalate_texts (separator : Char) (s : SExpr) (ss : List SExpr) :
    [separator].intercalate (texts (s :: ss)) = s.text ++ behind separator ss := by
  induction ss generalizing s with
  | nil => simp [texts, behind]
  | cons s' ss ih =>
    simp only [texts] at ih ⊢
    rw [List.intercalate_cons_cons, ih, behind]
    simp

/-! ## Atoms -/

/-- Words and numbers end where there is one of these. -/
def isDelimiter (c : Char) : Bool := c == ' ' || c == '\n' || c == '(' || c == ')'

/-- There are no delimiters in a word, and it does not start as a number does. -/
structure IsWord (cs : List Char) : Prop where
  plain : ∀ c ∈ cs, isDelimiter c = false
  head : ∃ c rest, cs = c :: rest ∧ c.isDigit = false ∧ (c = '-' → rest = [])

/-- Words are words, and numbers are finite. -/
inductive Proper : SExpr → Prop
  | word {name : String} (h : IsWord name.toList) : Proper (.word name)
  | number {value : Float} (h : value.isFinite = true) : Proper (.number value)
  | list {items : List SExpr} (h : ∀ s ∈ items, Proper s) : Proper (.list items)

/-- The characters of a class that has no delimiters are no delimiters. -/
theorem isDelimiter_eq_false {p : Char → Bool} (hclass : [' ', '\n', '(', ')'].any p = false) {c : Char}
    (h : p c = true) : isDelimiter c = false := by
  refine Bool.eq_false_iff.2 fun hdelimiter => ?_
  have hmem : c ∈ [' ', '\n', '(', ')'] := by simpa [isDelimiter, or_assoc] using hdelimiter
  rw [List.any_eq_true.2 ⟨c, hmem, h⟩] at hclass
  cases hclass

/-- A finite number starts with a digit, or with a minus and something behind it. -/
theorem write_chars {x : Float} (h : x.isFinite = true) :
    (∀ c ∈ (Notation.plain.write x).toList, isDelimiter c = false) ∧
      ∃ c rest, (Notation.plain.write x).toList = c :: rest ∧ (c.isDigit = true ∨ c = '-' ∧ rest ≠ []) := by
  obtain ⟨negative, v, text, q, -, hwrite, hstands, -⟩ := Notation.exists_toList_write h
  obtain ⟨⟨c, cs, rfl, hc⟩, hchars⟩ := hstands.chars
  have hplain : ∀ d ∈ c :: cs, isDelimiter d = false := fun d hd => by
    obtain hdigit | rfl := hchars d hd
    · exact isDelimiter_eq_false rfl hdigit
    · rfl
  rw [hwrite]
  cases negative with
  | false => exact ⟨hplain, c, cs, rfl, .inl hc⟩
  | true => exact ⟨List.forall_mem_cons.2 ⟨rfl, hplain⟩, '-', c :: cs, rfl, .inr ⟨rfl, List.cons_ne_nil c cs⟩⟩

theorem write_ne_nil {x : Float} (h : x.isFinite = true) : (Notation.plain.write x).toList ≠ [] := by
  obtain ⟨-, c, rest, hc, -⟩ := write_chars h
  rw [hc]
  exact List.cons_ne_nil c rest

theorem IsWord.ne_nil {cs : List Char} (h : IsWord cs) : cs ≠ [] := by
  obtain ⟨c, rest, rfl, -⟩ := h.head
  exact List.cons_ne_nil c rest

/-- A word is not written as a number. -/
theorem word_ne_number {name : String} {x : Float} (hname : IsWord name.toList) (hx : x.isFinite = true) :
    name.toList ≠ (Notation.plain.write x).toList := by
  intro heq
  obtain ⟨c, rest, hc, hdigit, hminus⟩ := hname.head
  obtain ⟨-, c', rest', hc', hstart⟩ := write_chars hx
  rw [heq, hc'] at hc
  cases hc
  obtain hstart | ⟨rfl, hne⟩ := hstart
  · rw [hdigit] at hstart
    cases hstart
  · exact hne (hminus rfl)

/-! ## Where texts end -/

/-- The text before has come to its end. -/
def Ends (rest : List Char) : Prop := ∀ c ∈ rest.head?, isDelimiter c = true

/-- The list before has come to its end. -/
def Closes (rest : List Char) : Prop := ∀ c ∈ rest.head?, c = ')'

theorem closes_cons (rest : List Char) : Closes (')' :: rest) := by
  rintro c ⟨⟩
  rfl

theorem Closes.ends {rest : List Char} (h : Closes rest) : Ends rest := fun c hc => by
  rw [h c hc]
  rfl

theorem takeWhile_of_ends {cs rest : List Char} (hcs : ∀ c ∈ cs, isDelimiter c = false) (hrest : Ends rest) :
    (cs ++ rest).takeWhile (!isDelimiter ·) = cs := by
  rw [List.takeWhile_append_of_pos fun c hc => by rw [hcs c hc]; rfl]
  cases rest with
  | nil => simp
  | cons c rest => rw [List.takeWhile_cons_of_neg (by rw [hrest c rfl]; decide), List.append_nil]

theorem append_inj_of_ends {cs cs' rest rest' : List Char} (hcs : ∀ c ∈ cs, isDelimiter c = false)
    (hcs' : ∀ c ∈ cs', isDelimiter c = false) (hrest : Ends rest) (hrest' : Ends rest')
    (h : cs ++ rest = cs' ++ rest') : cs = cs' ∧ rest = rest' := by
  have heq : cs = cs' := by rw [← takeWhile_of_ends hcs hrest, h, takeWhile_of_ends hcs' hrest']
  subst heq
  exact ⟨rfl, List.append_cancel_left h⟩

theorem Proper.exists_head {s : SExpr} (h : s.Proper) : ∃ c cs, s.text = c :: cs ∧ c ≠ ')' := by
  cases h with
  | word h =>
    obtain ⟨c, rest, hc, -, -⟩ := h.head
    refine ⟨c, rest, hc, ?_⟩
    rintro rfl
    cases h.plain ')' (hc ▸ List.mem_cons_self)
  | number h =>
    obtain ⟨hplain, c, rest, hc, -⟩ := write_chars h
    refine ⟨c, rest, hc, ?_⟩
    rintro rfl
    cases hplain ')' (hc ▸ List.mem_cons_self)
  | list => exact ⟨'(', _, rfl, by decide⟩

theorem ends_behind {separator : Char} (hseparator : isDelimiter separator = true) (ss : List SExpr) {rest : List Char}
    (h : Closes rest) : Ends (behind separator ss ++ rest) := by
  cases ss with
  | nil => exact h.ends
  | cons =>
    rintro c ⟨⟩
    exact hseparator

theorem Closes.ne_text {s : SExpr} (hs : s.Proper) {rest : List Char} (h : Closes rest) (more : List Char) :
    rest ≠ s.text ++ more := by
  obtain ⟨c, cs, hc, hne⟩ := hs.exists_head
  rintro rfl
  exact hne (h c (by rw [hc]; rfl))

theorem Closes.ne_behind {separator : Char} (hne : separator ≠ ')') {rest : List Char} (h : Closes rest)
    (more : List Char) : rest ≠ separator :: more := by
  rintro rfl
  exact hne (h separator rfl)

/-- Words and numbers do not start as lists do. -/
theorem plain_append_ne {cs : List Char} (hcs : ∀ c ∈ cs, isDelimiter c = false) (hne : cs ≠ [])
    (rest more : List Char) : cs ++ rest ≠ '(' :: more := by
  cases cs with
  | nil => exact absurd rfl hne
  | cons c cs =>
    rintro ⟨⟩
    cases hcs '(' List.mem_cons_self

/-! ## Texts are taken apart in one way -/

mutual

/-- The text of an s-expression, with something behind it that ends it, determines the s-expression. -/
theorem text_append_inj : (s s' : SExpr) → s.Proper → s'.Proper → ∀ {rest rest' : List Char}, Ends rest → Ends rest' →
    s.text ++ rest = s'.text ++ rest' → s = s' ∧ rest = rest'
  | .word name, s', .word hname, h', _, _, hrest, hrest', htext => by
    cases h' with
    | word hname' =>
      obtain ⟨hnames, hrest⟩ := append_inj_of_ends hname.plain hname'.plain hrest hrest' htext
      exact ⟨by rw [String.toList_inj.1 hnames], hrest⟩
    | number hvalue =>
      exact absurd (append_inj_of_ends hname.plain (write_chars hvalue).1 hrest hrest' htext).1
        (word_ne_number hname hvalue)
    | list => exact absurd htext (plain_append_ne hname.plain hname.ne_nil _ _)
  | .number value, s', .number hvalue, h', _, _, hrest, hrest', htext => by
    cases h' with
    | word hname =>
      exact absurd (append_inj_of_ends (write_chars hvalue).1 hname.plain hrest hrest' htext).1.symm
        (word_ne_number hname hvalue)
    | number hvalue' =>
      obtain ⟨hwrite, hrest⟩ := append_inj_of_ends (write_chars hvalue).1 (write_chars hvalue').1 hrest hrest' htext
      exact ⟨by rw [Notation.write_injective hvalue hvalue' (String.toList_inj.1 hwrite)], hrest⟩
    | list => exact absurd htext (plain_append_ne (write_chars hvalue).1 (write_ne_nil hvalue) _ _)
  | .list items, s', .list hitems, h', rest, rest', _, _, htext => by
    cases h' with
    | word hname => exact absurd htext.symm (plain_append_ne hname.plain hname.ne_nil _ _)
    | number hvalue => exact absurd htext.symm (plain_append_ne (write_chars hvalue).1 (write_ne_nil hvalue) _ _)
    | @list items' hitems' =>
      have hinner : [' '].intercalate (texts items) ++ ')' :: rest =
          [' '].intercalate (texts items') ++ ')' :: rest' := by simpa using htext
      obtain ⟨rfl, hrests⟩ := joined_append_inj ' ' rfl (by decide) items items' hitems hitems' (closes_cons rest)
        (closes_cons rest') hinner
      exact ⟨rfl, List.tail_eq_of_cons_eq hrests⟩

theorem joined_append_inj (separator : Char) (hseparator : isDelimiter separator = true) (hne : separator ≠ ')') :
    (ss ss' : List SExpr) → (∀ s ∈ ss, s.Proper) → (∀ s ∈ ss', s.Proper) → ∀ {rest rest' : List Char},
    Closes rest → Closes rest' →
    [separator].intercalate (texts ss) ++ rest = [separator].intercalate (texts ss') ++ rest' → ss = ss' ∧ rest = rest'
  | [], [], _, _, _, _, _, _, htext => ⟨rfl, htext⟩
  | [], s' :: ss', _, h', rest, _, hrest, _, htext => by
    rw [intercalate_texts, List.append_assoc] at htext
    exact absurd htext (hrest.ne_text (h' s' List.mem_cons_self) _)
  | s :: ss, [], h, _, _, rest', _, hrest', htext => by
    rw [intercalate_texts, List.append_assoc] at htext
    exact absurd htext.symm (hrest'.ne_text (h s List.mem_cons_self) _)
  | s :: ss, s' :: ss', h, h', _, _, hrest, hrest', htext => by
    obtain ⟨hs, hss⟩ := List.forall_mem_cons.1 h
    obtain ⟨hs', hss'⟩ := List.forall_mem_cons.1 h'
    rw [intercalate_texts, intercalate_texts, List.append_assoc, List.append_assoc] at htext
    obtain ⟨rfl, hbehind⟩ := text_append_inj s s' hs hs' (ends_behind hseparator ss hrest)
      (ends_behind hseparator ss' hrest') htext
    obtain ⟨rfl, hrests⟩ := behind_append_inj hseparator hne ss ss' hss hss' hrest hrest' hbehind
    exact ⟨rfl, hrests⟩

theorem behind_append_inj {separator : Char} (hseparator : isDelimiter separator = true) (hne : separator ≠ ')') :
    (ss ss' : List SExpr) → (∀ s ∈ ss, s.Proper) → (∀ s ∈ ss', s.Proper) → ∀ {rest rest' : List Char},
    Closes rest → Closes rest' → behind separator ss ++ rest = behind separator ss' ++ rest' → ss = ss' ∧ rest = rest'
  | [], [], _, _, _, _, _, _, htext => ⟨rfl, htext⟩
  | [], s' :: ss', _, _, rest, _, hrest, _, htext => absurd htext (hrest.ne_behind hne _)
  | s :: ss, [], _, _, _, rest', _, hrest', htext => absurd htext.symm (hrest'.ne_behind hne _)
  | s :: ss, s' :: ss', h, h', _, _, hrest, hrest', htext => by
    obtain ⟨hs, hss⟩ := List.forall_mem_cons.1 h
    obtain ⟨hs', hss'⟩ := List.forall_mem_cons.1 h'
    simp only [behind, List.cons_append, List.append_assoc, List.cons.injEq, true_and] at htext
    obtain ⟨rfl, hbehind⟩ := text_append_inj s s' hs hs' (ends_behind hseparator ss hrest)
      (ends_behind hseparator ss' hrest') htext
    obtain ⟨rfl, hrests⟩ := behind_append_inj hseparator hne ss ss' hss hss' hrest hrest' hbehind
    exact ⟨rfl, hrests⟩

end

end SExpr

end Monofloat
