import Mathlib.Data.List.DropRight
import Monofloat.Source.File

/-!
# Positions and lines

Advancing from the first position over a text counts its newlines, the characters after the last of them, and
its bytes (`Position.advanceBy_first`), and this is what seeking a byte offset comes to (`Position.seek_advanceBy`).
The same count finds the text again: a span between two such positions covers the characters between them
(`Span.text?_eq`), and the line with the counted number, between two entries of the table of line starts, is the line
that the text ends in (`SourceFile.line?_of_append`).
-/

namespace Monofloat

/-- The position after the character `c`. -/
def Position.advance (p : Position) (c : Char) : Position :=
  if c = '\n' then ⟨p.line + 1, 1, p.offset + c.utf8Size⟩
  else ⟨p.line, p.column + 1, p.offset + c.utf8Size⟩

/-- The position after the characters `cs`. -/
def Position.advanceBy (p : Position) (cs : List Char) : Position := cs.foldl advance p

/-- What follows the last newline. -/
def lastLine (cs : List Char) : List Char := cs.rtakeWhile (· ≠ '\n')

/-! ## Bytes -/

@[simp]
theorem byteSize_nil : byteSize [] = 0 := rfl

@[simp]
theorem byteSize_append (cs ds : List Char) : byteSize (cs ++ ds) = byteSize cs + byteSize ds := by
  rw [byteSize, String.ofList_append, String.utf8ByteSize_append]; rfl

@[simp]
theorem byteSize_cons (c : Char) (cs : List Char) : byteSize (c :: cs) = c.utf8Size + byteSize cs := by
  have hc : byteSize [c] = c.utf8Size := by rw [byteSize, ← String.singleton_eq_ofList, String.utf8ByteSize_singleton]
  rw [← List.singleton_append, byteSize_append, hc]

theorem byteSize_pos {cs : List Char} (h : cs ≠ []) : 0 < byteSize cs := by
  obtain ⟨c, ds, rfl⟩ := List.exists_cons_of_ne_nil h
  rw [byteSize_cons]
  exact Nat.add_pos_left (Char.utf8Size_pos c) _

theorem dropBytes?_append (cs ds : List Char) : dropBytes? (cs ++ ds) (byteSize cs) = some ds := by
  induction cs with
  | nil => cases ds <;> rfl
  | cons c cs ih =>
    have hc := Char.utf8Size_pos c
    rw [byteSize_cons, List.cons_append, dropBytes?, if_neg (by omega), if_pos (by omega), Nat.add_sub_cancel_left, ih]

theorem takeBytes?_append (cs ds : List Char) : takeBytes? (cs ++ ds) (byteSize cs) = some cs := by
  induction cs with
  | nil => cases ds <;> rfl
  | cons c cs ih =>
    have hc := Char.utf8Size_pos c
    rw [byteSize_cons, List.cons_append, takeBytes?, if_neg (by omega), if_pos (by omega), Nat.add_sub_cancel_left, ih]
    rfl

/-- What lies between the ends of `before` and of `text`. -/
theorem slice?_append (before text after : List Char) :
    slice? (before ++ text ++ after) (byteSize before) (byteSize (before ++ text)) = some text := by
  have hle : byteSize before ≤ byteSize (before ++ text) := by
    rw [byteSize_append]
    exact Nat.le_add_right _ _
  have hlength : byteSize (before ++ text) - byteSize before = byteSize text := by
    rw [byteSize_append, Nat.add_sub_cancel_left]
  rw [slice?, if_pos hle, hlength, List.append_assoc, dropBytes?_append, Option.bind_eq_bind, Option.bind_some,
    takeBytes?_append]

/-- A span that starts after `before` and stops after `text` covers `text`. -/
theorem Span.text?_eq {s : Span} {before text after : List Char} (hstart : s.start.offset = byteSize before)
    (hstop : s.stop.offset = byteSize (before ++ text)) :
    s.text? (String.ofList (before ++ text ++ after)) = some (String.ofList text) := by
  rw [Span.text?, String.toList_ofList, hstart, hstop, slice?_append]
  rfl

/-! ## Positions -/

theorem lastLine_concat (cs : List Char) (c : Char) :
    lastLine (cs ++ [c]) = if c = '\n' then [] else lastLine cs ++ [c] := by
  unfold lastLine
  by_cases hc : c = '\n' <;> simp [hc]

theorem lastLine_append_of_notMem (cs : List Char) {ds : List Char} (h : '\n' ∉ ds) :
    lastLine (cs ++ ds) = lastLine cs ++ ds := by
  induction ds using List.reverseRecOn with
  | nil => simp
  | append_singleton ds d ih =>
    have hd : d ≠ '\n' := fun hd => h (by simp [hd])
    rw [← List.append_assoc, lastLine_concat, if_neg hd, ih fun hmem => h (by simp [hmem]), List.append_assoc]

theorem mem_lastLine_append (cs : List Char) {ds : List Char} {c : Char} (h : c ∈ lastLine ds) :
    c ∈ lastLine (cs ++ ds) := by
  induction ds using List.reverseRecOn with
  | nil => cases h
  | append_singleton ds d ih =>
    rw [lastLine_concat] at h
    rw [← List.append_assoc, lastLine_concat]
    split at h
    · cases h
    · next hd =>
      rw [if_neg hd]
      exact (List.mem_append.1 h).elim (fun h => List.mem_append_left _ (ih h)) (List.mem_append_right _)

namespace Position

theorem advanceBy_append (p : Position) (cs ds : List Char) :
    p.advanceBy (cs ++ ds) = (p.advanceBy cs).advanceBy ds := List.foldl_append

theorem offset_advanceBy (p : Position) (cs : List Char) : (p.advanceBy cs).offset = p.offset + byteSize cs := by
  induction cs generalizing p with
  | nil => rfl
  | cons c cs ih =>
    have hc : (p.advance c).offset = p.offset + c.utf8Size := by unfold advance; split <;> rfl
    rw [show p.advanceBy (c :: cs) = (p.advance c).advanceBy cs from rfl, ih, hc, byteSize_cons, Nat.add_assoc]

/-- The position after a text counts its newlines, the characters after the last of them, and its bytes. -/
theorem advanceBy_first (cs : List Char) :
    first.advanceBy cs = ⟨1 + cs.count '\n', 1 + (lastLine cs).length, byteSize cs⟩ := by
  induction cs using List.reverseRecOn with
  | nil => rfl
  | append_singleton cs c ih =>
    rw [advanceBy_append, ih, lastLine_concat, byteSize_append, byteSize_cons, byteSize_nil, Nat.add_zero]
    by_cases hc : c = '\n' <;> simp [advanceBy, advance, hc, Nat.add_assoc]

theorem line_advanceBy_append (cs ds : List Char) :
    (first.advanceBy (cs ++ ds)).line = (first.advanceBy cs).line + ds.count '\n' := by
  rw [advanceBy_first, advanceBy_first, List.count_append, Nat.add_assoc]

/-- Counting characters and then setting the offset is advancing. -/
theorem foldl_count (p : Position) (cs : List Char) :
    { cs.foldl count p with offset := p.offset + byteSize cs } = p.advanceBy cs := by
  induction cs using List.reverseRecOn with
  | nil => rfl
  | append_singleton cs c ih =>
    rw [advanceBy_append, ← ih, List.foldl_append, byteSize_append, byteSize_cons, byteSize_nil, Nat.add_zero]
    by_cases hc : c = '\n' <;> simp [advanceBy, advance, count, hc, Nat.add_assoc]

/-- Seeking goes over what lies between. -/
theorem seek_advanceBy (before skipped after : List Char) :
    (first.advanceBy before).seek (before ++ skipped ++ after) (byteSize (before ++ skipped)) =
      first.advanceBy (before ++ skipped) := by
  have hoffset : (first.advanceBy before).offset = byteSize before := by rw [advanceBy_first]
  have hmax : max (byteSize (before ++ skipped)) (byteSize before) = byteSize before + byteSize skipped := by
    rw [byteSize_append]
    exact Nat.max_eq_left (Nat.le_add_right _ _)
  have hseek := foldl_count (first.advanceBy before) skipped
  rw [hoffset] at hseek
  rw [seek, hoffset, slice?_append, hmax, advanceBy_append, ← hseek]
  rfl

end Position

/-! ## Lines -/

theorem length_splitOn (cs : List Char) : (cs.splitOn '\n').length = 1 + cs.count '\n' := by
  induction cs with
  | nil => rfl
  | cons c cs ih =>
    rw [List.splitOn_cons_eq_if_modifyHead]
    by_cases hc : c = '\n'
    · simp [hc, ih, Nat.add_comm]
    · simp [hc, ih]

theorem splitOn_head? (cs : List Char) : (cs.splitOn '\n').head? = some (cs.takeWhile (· ≠ '\n')) := by
  induction cs with
  | nil => rfl
  | cons c cs ih =>
    rw [List.splitOn_cons_eq_if_modifyHead]
    by_cases hc : c = '\n' <;> simp [hc, ih]

/-- The line that `before` ends in goes on up to the next newline, and its index is the number of newlines before it. -/
theorem splitOn_append (before after : List Char) :
    ((before ++ after).splitOn '\n')[before.count '\n']? =
      some (lastLine before ++ after.takeWhile (· ≠ '\n')) := by
  induction before using List.reverseRecOn generalizing after with
  | nil =>
    rw [List.nil_append, List.count_nil, ← List.head?_eq_getElem?, splitOn_head?]; rfl
  | append_singleton before c ih =>
    rw [List.append_assoc, List.singleton_append, lastLine_concat]
    by_cases hc : c = '\n'
    · subst hc
      rw [List.splitOn_append_cons_self, List.getElem?_append_right (by simp [length_splitOn, Nat.add_comm])]
      have hindex : (before ++ ['\n']).count '\n' - (before.splitOn '\n').length = 0 := by
        simp [length_splitOn, Nat.add_comm]
      rw [hindex, ← List.head?_eq_getElem?, splitOn_head?, if_pos rfl, List.nil_append]
    · rw [List.count_append, List.count_singleton]
      simpa [hc] using ih (c :: after)

/-- Some start of a text has any number of newlines up to that of the whole text. -/
theorem exists_count_eq {cs : List Char} {k : Nat} (h : k ≤ cs.count '\n') :
    ∃ before after, cs = before ++ after ∧ before.count '\n' = k := by
  induction cs generalizing k with
  | nil => exact ⟨[], [], rfl, (Nat.le_zero.1 h).symm⟩
  | cons c cs ih =>
    cases k with
    | zero => exact ⟨[], c :: cs, rfl, rfl⟩
    | succ k =>
      by_cases hc : c = '\n'
      · rw [hc, List.count_cons_self] at h
        obtain ⟨before, after, rfl, hcount⟩ := ih (Nat.le_of_succ_le_succ h)
        exact ⟨c :: before, after, rfl, by rw [hc, List.count_cons_self, hcount]⟩
      · rw [List.count_cons_of_ne hc] at h
        obtain ⟨before, after, rfl, hcount⟩ := ih h
        exact ⟨c :: before, after, rfl, by rw [List.count_cons_of_ne hc, hcount]⟩

/-! ## The table of line starts -/

theorem newlineOffsets_append (start : Nat) (cs ds : List Char) :
    newlineOffsets start (cs ++ ds) = newlineOffsets start cs ++ newlineOffsets (start + byteSize cs) ds := by
  induction cs generalizing start with
  | nil => rfl
  | cons c cs ih =>
    rw [List.cons_append, newlineOffsets, newlineOffsets, ih, byteSize_cons, Nat.add_assoc]
    by_cases hc : c = '\n' <;> simp [hc]

theorem length_newlineOffsets (start : Nat) (cs : List Char) :
    (newlineOffsets start cs).length = cs.count '\n' := by
  induction cs generalizing start with
  | nil => rfl
  | cons c cs ih =>
    rw [newlineOffsets]
    by_cases hc : c = '\n'
    · simp [hc, ih]
    · simp [hc, ih, List.count_cons_of_ne]

namespace SourceFile

variable (f : SourceFile)

theorem length_lineStarts : f.lineStarts.length = 1 + f.text.toList.count '\n' := by
  rw [lineStarts, List.length_cons, List.length_map, length_newlineOffsets, Nat.add_comm]

variable {f}

/-- Behind a newline there is an entry for the line that it starts. -/
theorem lineStarts_of_newline {before after : List Char} (h : f.text.toList = before ++ '\n' :: after) :
    f.lineStarts[before.count '\n' + 1]? = some (byteSize before + 1) := by
  have hlength := length_newlineOffsets 0 before
  rw [lineStarts, List.getElem?_cons_succ, List.getElem?_map, h, newlineOffsets_append, ← hlength,
    List.getElem?_append_right (Nat.le_refl _), Nat.sub_self, newlineOffsets]
  simp

/-- The line that `before` ends in starts behind the last newline of `before`. -/
theorem lineStarts_of_append {before after : List Char} (h : f.text.toList = before ++ after) :
    f.lineStarts[before.count '\n']? = some (byteSize (before.rdropWhile (· ≠ '\n'))) := by
  -- Without what follows its last newline, `before` is empty or ends in a newline.
  induction before using List.reverseRecOn generalizing after with
  | nil => rfl
  | append_singleton before c ih =>
    rw [List.append_assoc, List.singleton_append] at h
    by_cases hc : c = '\n'
    · subst hc
      rw [List.count_append, List.count_singleton_self, lineStarts_of_newline h, List.rdropWhile_concat_neg]
      · simp [show '\n'.utf8Size = 1 from rfl]
      · simp
    · rw [List.count_append, List.count_singleton, List.rdropWhile_concat_pos]
      · simpa [hc] using ih h
      · simpa using hc

/-- The entry behind that of the line that `before` ends in, or the end of the text, tells where the line ends. -/
theorem lineStop_of_append {before after : List Char} (h : f.text.toList = before ++ after) :
    f.lineStop (before.count '\n') = byteSize (before ++ after.takeWhile (· ≠ '\n')) := by
  have hnone : (after.takeWhile (· ≠ '\n')).count '\n' = 0 :=
    List.count_eq_zero.2 fun hmem => by simpa using List.mem_takeWhile_imp hmem
  have hafter := List.takeWhile_append_dropWhile (p := (· ≠ '\n')) (l := after)
  cases hlater : after.dropWhile (· ≠ '\n') with
  | nil =>
    rw [hlater, List.append_nil] at hafter
    rw [hafter] at hnone ⊢
    have hlast : f.lineStarts[before.count '\n' + 1]? = none := by
      rw [List.getElem?_eq_none_iff, length_lineStarts, h, List.count_append, hnone, Nat.add_zero, Nat.add_comm]
    rw [lineStop, hlast, ← h, byteSize, String.ofList_toList]
  | cons c later =>
    have hc : c = '\n' := by
      have hhead := List.head?_dropWhile_not (· ≠ '\n') after
      rw [hlater] at hhead
      simpa using hhead
    rw [hlater, hc] at hafter
    have hnewline : f.text.toList = (before ++ after.takeWhile (· ≠ '\n')) ++ '\n' :: later := by
      rw [h, List.append_assoc, hafter]
    have hnext := lineStarts_of_newline hnewline
    rw [List.count_append, hnone, Nat.add_zero] at hnext
    rw [lineStop, hnext]
    exact Nat.add_sub_cancel _ _

/-- The line that `before` ends in goes on up to the next newline. -/
theorem line?_of_append {before after : List Char} (h : f.text.toList = before ++ after) :
    f.line? (before.count '\n' + 1) = some (String.ofList (lastLine before ++ after.takeWhile (· ≠ '\n'))) := by
  have hbefore : before.rdropWhile (· ≠ '\n') ++ lastLine before = before := List.rdropWhile_append_rtakeWhile
  have hslice := slice?_append (before.rdropWhile (· ≠ '\n')) (lastLine before ++ after.takeWhile (· ≠ '\n'))
    (after.dropWhile (· ≠ '\n'))
  rw [← List.append_assoc, hbefore, List.append_assoc, List.takeWhile_append_dropWhile] at hslice
  rw [line?, lineStarts_of_append h, lineStop_of_append h, h, Option.bind_eq_bind, Option.bind_some, hslice]
  rfl

/-- The line with a number is the piece with that number between newlines. -/
theorem line?_succ (k : Nat) : f.line? (k + 1) = ((f.text.toList.splitOn '\n')[k]?).map String.ofList := by
  by_cases hk : k ≤ f.text.toList.count '\n'
  · obtain ⟨before, after, h, rfl⟩ := exists_count_eq hk
    rw [line?_of_append h, h, splitOn_append]
    rfl
  · have hstarts : f.lineStarts[k]? = none := by
      rw [List.getElem?_eq_none_iff, length_lineStarts]
      omega
    have hpieces : (f.text.toList.splitOn '\n')[k]? = none := by
      rw [List.getElem?_eq_none_iff, length_splitOn]
      omega
    rw [line?, hstarts, hpieces]
    rfl

variable (f)

theorem isSome_line?_iff (number : Nat) :
    (f.line? number).isSome ↔ 1 ≤ number ∧ number ≤ 1 + f.text.toList.count '\n' := by
  cases number with
  | zero => simp [line?]
  | succ k =>
    rw [line?_succ, Option.isSome_map, isSome_getElem?, length_splitOn]
    omega

/-- The lines from the first to the last are those that splitting gives. -/
theorem filterMap_line? :
    (List.range' 1 (1 + f.text.toList.count '\n')).filterMap f.line? =
      (f.text.toList.splitOn '\n').map String.ofList := by
  have hrange (lines : List (List Char)) :
      (List.range lines.length).filterMap (fun k => lines[k]?.map String.ofList) = lines.map String.ofList := by
    induction lines with
    | nil => rfl
    | cons line lines ih =>
      rw [List.length_cons, List.range_succ_eq_map, List.filterMap_cons, List.filterMap_map, List.map_cons, ← ih]
      rfl
  rw [← length_splitOn, List.range'_eq_map_range, List.filterMap_map, ← hrange]
  congr 1
  funext k
  rw [Function.comp, Nat.add_comm, line?_succ]

/-- Joining the lines gives the text back. -/
theorem intercalate_line? :
    "\n".intercalate ((List.range' 1 (1 + f.text.toList.count '\n')).filterMap f.line?) = f.text := by
  rw [filterMap_line?, ← String.toList_inj, String.toList_intercalate, List.map_map, String.toList_comp_ofList,
    List.map_id]
  exact List.intercalate_splitOn '\n'

/-- The line of a position has the characters of the text before it that follow the last newline, as many as the
column says. -/
theorem line?_advanceBy {before after : List Char} (h : f.text.toList = before ++ after) :
    ∃ earlier line later : List Char, f.text.toList = earlier ++ line ++ later ∧
      f.lineStarts[(Position.first.advanceBy before).line - 1]? = some (byteSize earlier) ∧
      f.line? (Position.first.advanceBy before).line = some (String.ofList line) ∧
      (Position.first.advanceBy before).column - 1 ≤ line.length ∧
      before = earlier ++ line.take ((Position.first.advanceBy before).column - 1) := by
  refine ⟨before.rdropWhile (· ≠ '\n'), lastLine before ++ after.takeWhile (· ≠ '\n'), after.dropWhile (· ≠ '\n'), ?_⟩
  have hbefore : before.rdropWhile (· ≠ '\n') ++ lastLine before = before := List.rdropWhile_append_rtakeWhile
  rw [Position.advanceBy_first, Nat.add_comm 1 (before.count '\n'), line?_of_append h, Nat.add_sub_cancel,
    Nat.add_sub_cancel_left]
  refine ⟨?_, lineStarts_of_append h, rfl, ?_, ?_⟩
  · rw [← List.append_assoc, hbefore, List.append_assoc, List.takeWhile_append_dropWhile, h]
  · rw [List.length_append]
    exact Nat.le_add_right _ _
  · rw [List.take_left, hbefore]

end SourceFile

end Monofloat
