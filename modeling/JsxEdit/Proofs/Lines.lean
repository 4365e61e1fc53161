import JsxEdit.Text.Line

/-
Lines and columns as a way to write positions.

A position cuts the text inside one of its lines, possibly at an end of it. How many lines stand before the cut is the
line number of the position, and how much of its own line does is its column, so the two say where the cut is. Both ways
between positions and line and column are worked out at a cut.
-/
set_option autoImplicit false

namespace JsxEdit.Text

/-- The lines of a text, without the line feeds between them. -/
def lines (text : String) : List (List Char) := text.toList.splitOn '\n'

/-- The lines, each with a line feed after it. -/
def ended (front : List (List Char)) : List Char := front.flatMap (· ++ ['\n'])

/-! ## Whole lines at the beginning of a text -/

theorem ended_cons (l : List Char) (front : List (List Char)) : ended (l :: front) = l ++ '\n' :: ended front := by
  rw [ended, List.flatMap_cons, List.append_assoc]
  rfl

theorem ended_append (front back : List (List Char)) : ended (front ++ back) = ended front ++ ended back :=
  List.flatMap_append

/-- Ended lines are nothing or end in a line feed. -/
theorem takeWhile_ended_reverse (front : List (List Char)) : (ended front).reverse.takeWhile (· != '\n') = [] := by
  rcases List.eq_nil_or_concat front with rfl | ⟨front, l, rfl⟩
  · rfl
  · simp [ended]

theorem takeWhile_line {line : List Char} (h : '\n' ∉ line) (rest : List Char) :
    (line ++ rest).takeWhile (· != '\n') = line ++ rest.takeWhile (· != '\n') :=
  List.takeWhile_append_of_pos fun _ hc => bne_iff_ne.mpr (ne_of_mem_of_not_mem hc h)

theorem splitOn_line {line : List Char} (h : '\n' ∉ line) (rest : List Char) :
    (line ++ rest).splitOn '\n' = (rest.splitOn '\n').modifyHead (line ++ ·) := by
  induction line with
  | nil => exact (congrFun List.modifyHead_id _).symm
  | cons c line ih =>
    obtain ⟨hc, hline⟩ := List.ne_and_not_mem_of_not_mem_cons h
    rw [List.cons_append, List.splitOn_cons_eq_if_modifyHead, if_neg (by simpa using Ne.symm hc), ih hline,
      List.modifyHead_modifyHead]
    rfl

/-- Every text is whole lines and a last one. -/
theorem exists_ended (cs : List Char) :
    ∃ front last, cs = ended front ++ last ∧ (∀ l ∈ front, '\n' ∉ l) ∧ '\n' ∉ last := by
  induction cs with
  | nil => exact ⟨[], [], rfl, List.forall_mem_nil _, List.not_mem_nil⟩
  | cons c cs ih =>
    obtain ⟨front, last, rfl, hfront, hlast⟩ := ih
    by_cases hc : c = '\n'
    · exact ⟨[] :: front, last, by rw [hc]; rfl, List.forall_mem_cons.mpr ⟨List.not_mem_nil, hfront⟩, hlast⟩
    · cases front with
      | nil => exact ⟨[], c :: last, rfl, hfront, List.not_mem_cons_of_ne_of_not_mem (Ne.symm hc) hlast⟩
      | cons l front =>
        obtain ⟨hl, hfront⟩ := List.forall_mem_cons.mp hfront
        refine ⟨(c :: l) :: front, last, rfl, List.forall_mem_cons.mpr ⟨?_, hfront⟩, hlast⟩
        exact List.not_mem_cons_of_ne_of_not_mem (Ne.symm hc) hl

/-- A search for a later line passes the rest of a line. -/
theorem afterLines_line (n pos : Nat) {line : List Char} (h : '\n' ∉ line) (rest : List Char) :
    afterLines (n + 1) pos (line ++ '\n' :: rest) = afterLines n (pos + line.length + 1) rest := by
  induction line generalizing pos with
  | nil => exact if_pos rfl
  | cons c line ih =>
    obtain ⟨hc, hline⟩ := List.ne_and_not_mem_of_not_mem_cons h
    rw [List.cons_append, afterLines, if_neg (by simpa using Ne.symm hc), ih _ hline, List.length_cons,
      Nat.add_right_comm pos 1, Nat.add_assoc pos]

section

variable {front : List (List Char)} (hfront : ∀ l ∈ front, '\n' ∉ l)
include hfront

theorem count_ended : (ended front).count '\n' = front.length := by
  induction front with
  | nil => rfl
  | cons l front ih =>
    obtain ⟨hl, hfront⟩ := List.forall_mem_cons.mp hfront
    rw [ended_cons, List.count_append, List.count_eq_zero.mpr hl, List.count_cons_self, ih hfront, Nat.zero_add]
    rfl

theorem splitOn_ended (rest : List Char) : (ended front ++ rest).splitOn '\n' = front ++ rest.splitOn '\n' := by
  induction front with
  | nil => rfl
  | cons l front ih =>
    obtain ⟨hl, hfront⟩ := List.forall_mem_cons.mp hfront
    rw [ended_cons, List.append_assoc, List.cons_append, List.splitOn_append_cons_self, List.splitOn_eq_singleton hl,
      ih hfront]
    rfl

/-- A search for the line after whole lines passes these. -/
theorem afterLines_ended (pos : Nat) (rest : List Char) :
    afterLines front.length pos (ended front ++ rest) = some (pos + (ended front).length, rest) := by
  induction front generalizing pos with
  | nil => exact afterLines.eq_1 pos rest
  | cons l front ih =>
    obtain ⟨hl, hfront⟩ := List.forall_mem_cons.mp hfront
    rw [ended_cons, List.append_assoc, List.cons_append, List.length_cons, afterLines_line _ _ hl, ih hfront,
      List.length_append, List.length_cons]
    congr 2
    omega

end

theorem afterLines_eq_none {n pos : Nat} {cs : List Char} : afterLines n pos cs = none ↔ cs.count '\n' < n := by
  fun_induction afterLines n pos cs with
  | case1 pos cs => simp
  | case2 n pos => simp
  | case3 n pos c cs hc ih =>
    obtain rfl : c = '\n' := eq_of_beq hc
    rw [ih, List.count_cons_self, Nat.add_lt_add_iff_right]
  | case4 n pos c cs hc ih =>
    rw [ih, List.count_cons_of_ne (by simpa using hc)]

/-! ## Cuts -/

/-- The text is cut inside a line: whole lines and a part of one more stand before the cut, and the rest after it. -/
structure Cut (text : String) (front : List (List Char)) (part rest : List Char) : Prop where
  text_eq : text.toList = ended front ++ (part ++ rest)
  front_lines : ∀ l ∈ front, '\n' ∉ l
  part_line : '\n' ∉ part

namespace Cut

variable {text : String} {front : List (List Char)} {part rest : List Char} (h : Cut text front part rest)
include h

/-- The line that is cut has the part before the cut and what comes up to the next line feed. -/
theorem lines_eq : lines text = front ++ (rest.splitOn '\n').modifyHead (part ++ ·) := by
  rw [lines, h.text_eq, splitOn_ended h.front_lines, splitOn_line h.part_line]

theorem length_le : (ended front).length + part.length ≤ text.length := by
  rw [← String.length_toList, h.text_eq, List.length_append, List.length_append]
  omega

theorem lineColumn_eq :
    lineColumn text ((ended front).length + part.length : Nat) = ⟨front.length + 1, part.length⟩ := by
  have hcut : cutLength text.toList.length ((ended front).length + part.length : Nat) =
      (ended front).length + part.length := by
    rw [cutLength, if_neg (by omega), Int.toNat_natCast, String.length_toList]
    exact Nat.min_eq_left h.length_le
  have htake : text.toList.take ((ended front).length + part.length) = ended front ++ part := by
    rw [h.text_eq, ← List.append_assoc, ← List.length_append, List.take_left]
  rw [lineColumn, hcut, htake, List.reverse_append, takeWhile_line (by simpa using h.part_line), takeWhile_ended_reverse,
    List.append_nil, List.length_reverse, List.count_append, count_ended h.front_lines,
    List.count_eq_zero.mpr h.part_line, List.length_append, Nat.add_zero, Nat.add_sub_cancel, Int.natCast_add,
    Int.add_comm, Int.add_sub_cancel]

/-- The search for a line and column finds the line, and goes no further in it than it is long. -/
theorem position_eq (column : Int) : position text (front.length + 1 : Nat) column =
    some (min ((ended front).length + column)
      ((ended front).length + (part.length + (rest.takeWhile (· != '\n')).length) : Nat)) := by
  rw [position, Int.natCast_add, Int.natCast_one, Int.add_sub_cancel, Int.toNat_natCast, h.text_eq,
    afterLines_ended h.front_lines, Option.map_some]
  dsimp only
  rw [takeWhile_line h.part_line, List.length_append, Nat.zero_add]

/-- The same line can be cut further back. -/
theorem back (column : Nat) : Cut text front (part.take column) (part.drop column ++ rest) where
  text_eq := by rw [← List.append_assoc (part.take column), List.take_append_drop, h.text_eq]
  front_lines := h.front_lines
  part_line := fun hmem => h.part_line (List.mem_of_mem_take hmem)

end Cut

/-- Every position cuts a line. -/
theorem exists_cut {text : String} {pos : Nat} (h : pos ≤ text.length) :
    ∃ front part, Cut text front part (text.toList.drop pos) ∧ pos = (ended front).length + part.length := by
  obtain ⟨front, part, heq, hfront, hpart⟩ := exists_ended (text.toList.take pos)
  refine ⟨front, part, ⟨?_, hfront, hpart⟩, ?_⟩
  · rw [← List.append_assoc, ← heq, List.take_append_drop]
  · rw [← List.length_append, ← heq, List.length_take, String.length_toList, Nat.min_eq_left h]

/-- Every text is cut at its end. -/
theorem exists_cut_at_end (text : String) : ∃ front last, Cut text front last [] ∧ lines text = front ++ [last] := by
  obtain ⟨front, last, heq, hfront, hlast⟩ := exists_ended text.toList
  have hcut : Cut text front last [] := ⟨by rw [heq, List.append_nil], hfront, hlast⟩
  refine ⟨front, last, hcut, ?_⟩
  rw [hcut.lines_eq, List.splitOn_nil, List.modifyHead_cons, List.append_nil]

/-- Every line can be cut at its end. -/
theorem exists_cut_of_line {text : String} {n : Nat} {line : List Char} (h : (lines text)[n]? = some line) :
    ∃ front rest, front.length = n ∧ Cut text front line rest ∧ rest.takeWhile (· != '\n') = [] := by
  obtain ⟨front, last, hcut, hlines⟩ := exists_cut_at_end text
  rw [hlines] at h
  by_cases hn : n < front.length
  · -- the line is followed by its line feed
    rw [List.getElem?_append_left hn, List.getElem?_eq_getElem hn] at h
    obtain rfl := Option.some.inj h
    have hsplit : ended front = ended (front.take n) ++ (front[n] ++ '\n' :: ended (front.drop (n + 1))) := by
      rw [← ended_cons, ← List.drop_eq_getElem_cons hn, ← ended_append, List.take_append_drop]
    refine ⟨front.take n, '\n' :: ended (front.drop (n + 1)) ++ last, ?_, ?_, rfl⟩
    · exact List.length_take_of_le (Nat.le_of_lt hn)
    · exact {
        text_eq := by rw [hcut.text_eq, hsplit, List.append_nil, List.append_assoc, List.append_assoc]
        front_lines := fun l hl => hcut.front_lines l (List.mem_of_mem_take hl)
        part_line := hcut.front_lines _ (List.getElem_mem hn) }
  · -- the last line ends the text
    rw [List.getElem?_append_right (Nat.le_of_not_lt hn), List.getElem?_singleton] at h
    split at h
    · next hlength =>
      obtain rfl := Option.some.inj h
      exact ⟨front, [], by omega, hcut, rfl⟩
    · cases h

theorem length_lines (text : String) : (lines text).length = text.toList.count '\n' + 1 := by
  obtain ⟨front, last, hcut, hlines⟩ := exists_cut_at_end text
  rw [hlines, hcut.text_eq, List.append_nil, List.count_append, count_ended hcut.front_lines,
    List.count_eq_zero.mpr hcut.part_line, List.length_append]
  rfl

theorem position_eq_none {text : String} {line column : Int} :
    position text line column = none ↔ ((lines text).length : Int) < line := by
  rw [position, Option.map_eq_none_iff, afterLines_eq_none, length_lines]
  omega

/-- Line and column of a position in the text lead back to it. -/
theorem position_lineColumn {text : String} {pos : Nat} (h : pos ≤ text.length) :
    position text (lineColumn text pos).line (lineColumn text pos).column = some (pos : Int) := by
  obtain ⟨front, part, hcut, rfl⟩ := exists_cut h
  rw [hcut.lineColumn_eq, hcut.position_eq]
  refine congrArg some ?_
  dsimp only
  omega

/-- Line and column of every position in a text lead back to it. On each of its lines, every column leads to a position
of that line and column, except that columns beyond the end of the line lead to its end. The lines that cannot be found
are those after the last, and there is one line more than there are line feeds. -/
theorem positions_by_line (text : String) :
    (∀ pos : Nat, pos ≤ text.length →
      position text (lineColumn text pos).line (lineColumn text pos).column = some (pos : Int)) ∧
    (∀ n line, (lines text)[n]? = some line → ∀ column : Nat, ∃ pos : Nat, pos ≤ text.length ∧
      position text (n + 1 : Nat) column = some (pos : Int) ∧
      lineColumn text pos = ⟨n + 1, (min column line.length : Nat)⟩) ∧
    ∀ line column : Int, position text line column = none ↔ (text.toList.count '\n' + 1 : Nat) < line := by
  refine ⟨fun pos h => position_lineColumn h, fun n line hline column => ?_, fun line column => ?_⟩
  · obtain ⟨front, rest, rfl, hcut, hrest⟩ := exists_cut_of_line hline
    have hlength : (line.take column).length = min column line.length := List.length_take
    refine ⟨_, (hcut.back column).length_le, ?_, (hcut.back column).lineColumn_eq.trans (by rw [hlength])⟩
    rw [hcut.position_eq, hrest, hlength]
    refine congrArg some ?_
    dsimp only [List.length_nil]
    omega
  · rw [position_eq_none, length_lines]

/-- Two lines with text, an empty one between them, and one after the last line feed. -/
def spacedLines : String := "ab\n\ncde\n"

theorem spacedLines_by_line :
    position spacedLines (lineColumn spacedLines 8).line (lineColumn spacedLines 8).column = some 8 ∧
    (∃ pos : Nat, pos ≤ spacedLines.length ∧ position spacedLines 3 100 = some (pos : Int) ∧
      lineColumn spacedLines pos = ⟨3, 3⟩) ∧
    position spacedLines 5 0 = none := by
  obtain ⟨hback, hthere, hnone⟩ := positions_by_line spacedLines
  exact ⟨hback 8 (by decide), hthere 2 ['c', 'd', 'e'] (by decide) 100, (hnone 5 0).mpr (by decide)⟩

end JsxEdit.Text
