import GLang.Proofs.Lines
import GLang.Report

/-!
# How excerpts line up

An excerpt shows the reported line between its neighbours, each with its number and a bar, and a
caret below the reported line. The numbers are as wide as that of the reported line needs it, and at
least three characters; the next line may have a number that needs one more.

* `numberWidth_lt_length_iff`: when the next number does not fit,
* `SourceRow`: a row that shows a line of the source, and where its bar and its columns are,
* `rows_excerpt`: the rows of an excerpt, and `linesAround_eq`: which lines they show,
* `excerpt_lines_up_iff`: so the bars are one below the other, apart from that case, and the caret
  is below the reported column.
-/

namespace GLang.Report

/-! ### The width of line numbers -/

theorem numberWidth_pos (n : Nat) : 0 < numberWidth n :=
  Nat.lt_of_lt_of_le (by decide) (Nat.le_max_right _ 3)

theorem length_le_numberWidth_iff {m n : Nat} :
    (toString m).length ≤ numberWidth n ↔ m < 10 ^ numberWidth n :=
  Nat.length_repr_le_iff (numberWidth_pos n)

theorem lt_pow_numberWidth (n : Nat) : n < 10 ^ numberWidth n :=
  length_le_numberWidth_iff.1 (Nat.le_max_left _ 3)

theorem length_le_numberWidth {m n : Nat} (h : m ≤ n) : (toString m).length ≤ numberWidth n :=
  length_le_numberWidth_iff.2 (Nat.lt_of_le_of_lt h (lt_pow_numberWidth n))

/-- The number after `n` does not fit into an excerpt around line `n` if it is a power of ten with
at least four digits. -/
theorem numberWidth_lt_length_iff (n : Nat) :
    numberWidth n < (toString (n + 1)).length ↔ ∃ k, 3 ≤ k ∧ n + 1 = 10 ^ k := by
  rw [← not_le, length_le_numberWidth_iff, not_lt]
  constructor
  · intro h
    have hn := lt_pow_numberWidth n
    exact ⟨numberWidth n, Nat.le_max_right _ 3, by omega⟩
  · rintro ⟨k, hk, hpow⟩
    have hn : (toString n).length ≤ k := (Nat.length_repr_le_iff (by omega)).2 (by omega)
    rw [hpow]
    exact Nat.pow_le_pow_right (by decide) (Nat.max_le.2 ⟨hn, hk⟩)

theorem length_succ_le_numberWidth (n : Nat) : (toString (n + 1)).length ≤ numberWidth n + 1 := by
  have hn := lt_pow_numberWidth n
  refine (Nat.length_repr_le_iff (Nat.succ_pos _)).2 ?_
  rw [Nat.pow_succ]
  omega

/-! ### Rows that show lines of the source -/

@[simp] theorem Painter.off_apply (s : Style) (text : String) : Painter.off s text = text := rfl

/-- A row that shows a line of the source: blanks, the number of the line, a bar between two blanks,
and the line. -/
structure SourceRow where
  indent : Nat
  number : Nat
  line : String

namespace SourceRow

def text (r : SourceRow) : String :=
  blanks r.indent ++ toString r.number ++ " | " ++ r.line

/-- The position of the bar, which is the first one in the row: the line may have bars of its
own. -/
def bar (r : SourceRow) : Nat :=
  r.text.toList.idxOf '|'

/-- The position at which the row shows a column of its line. Columns count from one. -/
def position (r : SourceRow) (column : Nat) : Nat :=
  r.bar + 1 + column

/-- What stands before the bar. -/
def gutter (r : SourceRow) : List Char :=
  List.replicate r.indent ' ' ++ Nat.toDigits 10 r.number ++ [' ']

theorem toList_text (r : SourceRow) : r.text.toList = r.gutter ++ '|' :: ' ' :: r.line.toList := by
  simp [text, gutter, blanks]

theorem length_gutter (r : SourceRow) :
    r.gutter.length = r.indent + (toString r.number).length + 1 := by
  have hdigits : (toString r.number).length = (Nat.toDigits 10 r.number).length := by
    rw [← String.length_toList]
    exact congrArg List.length Nat.toList_repr
  rw [hdigits]
  simp [gutter, Nat.add_assoc]

theorem notMem_gutter (r : SourceRow) {c : Char} (hdigit : c.isDigit = false) (hblank : c ≠ ' ') :
    c ∉ r.gutter := by
  have hdigits : c ∉ Nat.toDigits 10 r.number := by
    intro h
    have hc := Nat.isDigit_of_mem_toDigits (by decide) (by decide) h
    rw [hdigit] at hc
    cases hc
  simp [gutter, hdigits, hblank]

theorem bar_eq (r : SourceRow) : r.bar = r.indent + (toString r.number).length + 1 := by
  rw [bar, toList_text, List.idxOf_append_of_notMem (r.notMem_gutter (by decide) (by decide)),
    List.idxOf_cons_self, Nat.add_zero, length_gutter]

theorem getElem?_position (r : SourceRow) (i : Nat) :
    r.text.toList[r.position (i + 1)]? = r.line.toList[i]? := by
  have hposition : r.position (i + 1) = r.gutter.length + (i + 2) := by
    rw [position, bar_eq, length_gutter]
    omega
  rw [toList_text, hposition, List.getElem?_append_right (Nat.le_add_right _ _),
    Nat.add_sub_cancel_left, List.getElem?_cons_succ, List.getElem?_cons_succ]

theorem newline_notMem_text {r : SourceRow} (h : '\n' ∉ r.line.toList) : '\n' ∉ r.text.toList := by
  have hgutter := r.notMem_gutter (c := '\n') (by decide) (by decide)
  simp [toList_text, hgutter, h]

/-- The row of line `m` in an excerpt around line `n`. -/
def around (n m : Nat) (line : String) : SourceRow :=
  ⟨numberWidth n - (toString m).length, m, line⟩

theorem sourceLine_eq (n m : Nat) (line : String) :
    sourceLine .off (numberWidth n) m line = (around n m line).text ++ "\n" := by
  simp [sourceLine, padded, around, text, String.append_assoc]

theorem bar_around (n m : Nat) (line : String) :
    (around n m line).bar = max (numberWidth n) (toString m).length + 1 := by
  rw [bar_eq]
  simp only [around]
  omega

/-- A line that may be missing is written as a row of its own, or not at all. -/
theorem unlines_around (n m : Nat) (line? : Option String) :
    Text.unlines ((line?.toList.map (around n m)).map text) =
      (line?.map (sourceLine .off (numberWidth n) m)).getD "" := by
  cases line? with
  | none => rfl
  | some line => simp [Text.unlines, sourceLine_eq]

end SourceRow

/-- What an excerpt shows above the lines of the source. -/
def heading (file : String) (p : Location) (message : String) : List String :=
  ["error: " ++ message, "  --> " ++ file ++ ":" ++ p.text, blanks (numberWidth p.line + 1)]

/-- Lines that are the same or next to each other. -/
def isNear (n m : Nat) : Bool :=
  n ≤ m + 1 && m ≤ n + 1

/-- The lines of a text that are near line `n`, with their numbers. -/
def linesAround (source : String) (n : Nat) : List (String × Nat) :=
  ((Text.lines source).zipIdx 1).filter (isNear n ·.2)

/-! ### The rows of an excerpt -/

/-- The row of the line before line `n`, if there is one. -/
def rowsAbove (n : Nat) (front : List String) : List SourceRow :=
  front.getLast?.toList.map (SourceRow.around n (n - 1))

/-- The row of the line after line `n`, if there is one. -/
def rowsBelow (n : Nat) (back : List String) : List SourceRow :=
  back.head?.toList.map (SourceRow.around n (n + 1))

/-- What an excerpt shows below its heading, if `line` is the reported line: the rows of the source,
and the row of the caret. -/
def body (p : Location) (front : List String) (line : String) (back : List String) : List String :=
  (rowsAbove p.line front).map SourceRow.text ++
    [(SourceRow.around p.line p.line line).text,
      blanks (numberWidth p.line + 3 + (p.column - 1)) ++ "^"] ++
    (rowsBelow p.line back).map SourceRow.text

theorem filter_isNear_eq_nil {n k : Nat} {ls : List String} (h : ls.length + k < n ∨ n + 1 < k) :
    (ls.zipIdx k).filter (isNear n ·.2) = [] := by
  rw [List.filter_eq_nil_iff]
  intro q hq
  have hle := List.le_snd_of_mem_zipIdx hq
  have hlt := List.snd_lt_add_of_mem_zipIdx hq
  simp only [isNear, Bool.and_eq_true, decide_eq_true_eq]
  omega

theorem filter_isNear_front {n : Nat} {front : List String} (hfront : front.length + 1 = n) :
    (front.zipIdx 1).filter (isNear n ·.2) =
      (rowsAbove n front).map fun r => (r.line, r.number) := by
  rcases front.eq_nil_or_concat' with rfl | ⟨init, last, rfl⟩
  · rfl
  · obtain rfl : n = init.length + 2 := by simpa using hfront.symm
    rw [List.zipIdx_append, List.filter_append, filter_isNear_eq_nil (by omega)]
    simp [rowsAbove, SourceRow.around, isNear, Nat.add_comm 1]

theorem filter_isNear_back (n : Nat) (back : List String) :
    (back.zipIdx (n + 1)).filter (isNear n ·.2) =
      (rowsBelow n back).map fun r => (r.line, r.number) := by
  cases back with
  | nil => rfl
  | cons next rest =>
    have hnear : isNear n (n + 1) = true := by simp [isNear, Nat.le_add_right_of_le]
    rw [List.zipIdx_cons, List.filter_cons, if_pos hnear, filter_isNear_eq_nil (by omega)]
    rfl

section

variable {file source message : String} {p : Location} {front back : List String} {line : String}
  (hlines : Text.lines source = front ++ line :: back) (hfront : front.length + 1 = p.line)

include hlines hfront

/-- The rows of an excerpt show the reported line and the lines next to it. -/
theorem linesAround_eq :
    (rowsAbove p.line front ++ SourceRow.around p.line p.line line :: rowsBelow p.line back).map
      (fun r => (r.line, r.number)) = linesAround source p.line := by
  have hn : 1 + front.length = p.line := by omega
  have hnear : isNear p.line p.line = true := by simp [isNear]
  rw [linesAround, hlines, List.zipIdx_append, List.filter_append, List.zipIdx_cons, hn,
    List.filter_cons, if_pos hnear, filter_isNear_front hfront, filter_isNear_back, List.map_append,
    List.map_cons]
  rfl

theorem excerpt_eq :
    excerpt .off file source p message =
      Text.unlines (heading file p message ++ body p front line back) := by
  have hindex : p.line - 1 = front.length := by omega
  have hline : (Text.lines source)[front.length]? = some line := by
    rw [hlines, List.getElem?_append_right (Nat.le_refl _), Nat.sub_self, List.getElem?_cons_zero]
  have hbefore : (if 0 < front.length then (Text.lines source)[front.length - 1]? else none) =
      front.getLast? := by
    rw [List.getLast?_eq_getElem?]
    split
    · rw [hlines, List.getElem?_append_left (by omega)]
    · rw [List.getElem?_eq_none (by omega)]
  have hafter : (Text.lines source)[front.length + 1]? = back.head? := by
    rw [hlines, List.getElem?_append_right (by omega), Nat.add_sub_cancel_left,
      List.getElem?_cons_succ, List.head?_eq_getElem?]
  simp only [excerpt, hindex, hline, hbefore, hafter]
  have herror : "error: " = "error" ++ ":" ++ " " := by decide
  have harrow : "  --> " = "  " ++ "-->" ++ " " := by decide
  simp only [← hindex, heading, herror, harrow, body, rowsAbove, rowsBelow, Text.unlines_append,
    Text.unlines_cons, Text.unlines_nil, SourceRow.unlines_around, SourceRow.sourceLine_eq,
    Painter.off_apply, String.append_assoc, String.empty_append]

theorem newline_notMem_row {r : SourceRow}
    (hr : r ∈ rowsAbove p.line front ++
      SourceRow.around p.line p.line line :: rowsBelow p.line back) : '\n' ∉ r.text.toList := by
  have hmem : (r.line, r.number) ∈ linesAround source p.line := by
    rw [← linesAround_eq hlines hfront]
    exact List.mem_map.2 ⟨r, hr, rfl⟩
  exact SourceRow.newline_notMem_text (Text.newline_notMem_of_mem_lines
    (List.fst_mem_of_mem_zipIdx (List.mem_of_mem_filter hmem)))

theorem newline_notMem_body : ∀ l ∈ body p front line back, '\n' ∉ l.toList := by
  have hrows := fun r => newline_notMem_row (r := r) hlines hfront
  have hcaret : ∀ n, '\n' ∉ (blanks n ++ "^").toList := fun n => by simp [blanks]
  rw [List.forall_mem_append, List.forall_mem_cons] at hrows
  obtain ⟨habove, hreported, hbelow⟩ := hrows
  rw [body, List.forall_mem_append, List.forall_mem_append, List.forall_mem_map,
    List.forall_mem_map, List.forall_mem_cons, List.forall_mem_singleton]
  exact ⟨⟨habove, hreported, hcaret _⟩, hbelow⟩

/-- **The rows of an excerpt.** No line feed stands in what it shows of the source. -/
theorem rows_excerpt :
    Text.rows (excerpt .off file source p message) =
      (heading file p message).flatMap Text.rows ++ body p front line back ++ [""] := by
  rw [excerpt_eq hlines hfront, Text.rows_unlines, List.flatMap_append,
    Text.flatMap_rows (newline_notMem_body hlines hfront)]

end

/-! ### Bars -/

theorem bar_reported (n : Nat) (line : String) :
    (SourceRow.around n n line).bar = numberWidth n + 1 := by
  rw [SourceRow.bar_around, Nat.max_eq_left (length_le_numberWidth (Nat.le_refl n))]

theorem bar_of_mem_rowsAbove {n : Nat} {front : List String} {r : SourceRow}
    (h : r ∈ rowsAbove n front) : r.bar = numberWidth n + 1 := by
  obtain ⟨l, -, rfl⟩ := List.mem_map.1 h
  rw [SourceRow.bar_around, Nat.max_eq_left (length_le_numberWidth (Nat.sub_le n 1))]

theorem bar_of_mem_rowsBelow {n : Nat} {back : List String} {r : SourceRow}
    (h : r ∈ rowsBelow n back) :
    r.number = n + 1 ∧ r.bar = max (numberWidth n) (toString (n + 1)).length + 1 := by
  obtain ⟨l, -, rfl⟩ := List.mem_map.1 h
  exact ⟨rfl, SourceRow.bar_around n (n + 1) l⟩

/-- The row below has its bar where the others have it, unless its number does not fit. -/
theorem rowsBelow_aligned_iff {n : Nat} {back : List String} :
    (∀ r ∈ rowsBelow n back, r.bar = numberWidth n + 1) ↔
      ¬ (back ≠ [] ∧ ∃ k, 3 ≤ k ∧ n + 1 = 10 ^ k) := by
  rw [← numberWidth_lt_length_iff]
  cases back with
  | nil => simp [rowsBelow]
  | cons next rest => simp [rowsBelow, SourceRow.bar_around]

theorem exists_split {n : Nat} {ls : List String} (hpos : 1 ≤ n) (hle : n ≤ ls.length) :
    ∃ front line back, ls = front ++ line :: back ∧ front.length + 1 = n := by
  have hlt : n - 1 < ls.length := by omega
  refine ⟨ls.take (n - 1), ls.get ⟨n - 1, hlt⟩, ls.drop (n - 1 + 1), ?_, ?_⟩
  · rw [List.get_eq_getElem, ← List.drop_eq_getElem_cons hlt, List.take_append_drop]
  · rw [List.length_take]
    omega

/-- **An excerpt lines up, unless a longer number follows.** Its rows are a heading, the lines
around the reported one and the caret. The bars of these lines are at one position, unless the line
after the reported one is shown and has a number that is a power of ten with at least four digits;
then its bar is one position further on. The caret is at the position at which the reported line
shows the reported column. -/
theorem excerpt_lines_up_iff (file source message : String) (p : Location) (hline : 1 ≤ p.line)
    (hlast : p.line ≤ (Text.lines source).length) (hcolumn : 1 ≤ p.column) :
    ∃ (above below : List SourceRow) (reported : SourceRow) (caret : String),
      Text.rows (excerpt .off file source p message) =
        (heading file p message).flatMap Text.rows ++
          (above.map SourceRow.text ++ [reported.text, caret] ++ below.map SourceRow.text) ++ [""] ∧
      (above ++ reported :: below).map (fun r => (r.line, r.number)) = linesAround source p.line ∧
      reported.number = p.line ∧
      ((∀ r ∈ above ++ reported :: below, r.bar = reported.bar) ↔
        ¬ (p.line < (Text.lines source).length ∧ ∃ k, 3 ≤ k ∧ p.line + 1 = 10 ^ k)) ∧
      (∀ r ∈ above ++ reported :: below, r.bar = reported.bar ∨
        r.number = p.line + 1 ∧ r.bar = reported.bar + 1) ∧
      (∀ i, reported.text.toList[reported.position (i + 1)]? = reported.line.toList[i]?) ∧
      caret = blanks (reported.position p.column) ++ "^" := by
  obtain ⟨front, line, back, hlines, hfront⟩ := exists_split hline hlast
  let reported := SourceRow.around p.line p.line line
  have hbar : reported.bar = numberWidth p.line + 1 := bar_reported p.line line
  have hcaret : numberWidth p.line + 3 + (p.column - 1) = reported.position p.column := by
    rw [SourceRow.position, hbar]
    omega
  refine ⟨rowsAbove p.line front, rowsBelow p.line back, reported, _, ?_,
    linesAround_eq hlines hfront, rfl, ?_, ?_, reported.getElem?_position, rfl⟩
  · rw [rows_excerpt hlines hfront, body, hcaret]
  · have hlength : p.line < (Text.lines source).length ↔ back ≠ [] := by
      rw [hlines, ← List.length_pos_iff, List.length_append, List.length_cons]
      omega
    rw [hbar, List.forall_mem_append, List.forall_mem_cons, rowsBelow_aligned_iff, hlength]
    exact ⟨fun h => h.2.2, fun h => ⟨fun r => bar_of_mem_rowsAbove, hbar, h⟩⟩
  · intro r hr
    rw [hbar]
    rcases List.mem_append.1 hr with hr | hr
    · exact .inl (bar_of_mem_rowsAbove hr)
    rcases List.mem_cons.1 hr with rfl | hr
    · exact .inl hbar
    · obtain ⟨hnumber, hr⟩ := bar_of_mem_rowsBelow hr
      have hle := length_succ_le_numberWidth p.line
      rw [hr, hnumber]
      omega

/-- A place behind the second of three lines. -/
theorem excerpt_lines_up_of_three_lines :
    let lines := [r"fn main() {", "    return 42", r"}"]
    1 ≤ 2 ∧ 2 ≤ (Text.lines (Text.unlines lines)).length ∧ 1 ≤ 14 ∧
    ∃ (above below : List SourceRow) (reported : SourceRow) (caret : String),
      (above ++ reported :: below).map (fun r => (r.line, r.number)) =
        lines.zip [1, 2, 3] ∧
      (∀ r ∈ above ++ reported :: below, r.bar = reported.bar) ∧
      caret = blanks (reported.position 14) ++ "^" := by
  intro lines
  have hlast : 2 ≤ (Text.lines (Text.unlines lines)).length := by
    decide +kernel
  obtain ⟨above, below, reported, caret, -, hshown, -, hbars, -, -, hcaret⟩ :=
    excerpt_lines_up_iff "test.g" (Text.unlines lines) r"Expected ';', got '}'" ⟨2, 14⟩ (by decide)
      hlast (by decide)
  refine ⟨by decide, hlast, by decide, above, below, reported, caret,
    hshown.trans (by decide +kernel), hbars.2 ?_, hcaret⟩
  rintro ⟨-, k, hk, hpow⟩
  have hle := Nat.pow_le_pow_right (show 0 < 10 by decide) hk
  simp only at hpow
  omega

/-- Around line 999 of a thousand empty lines, the last bar is one position further on. -/
theorem bars_apart_at_thousand :
    999 ≤ (Text.lines (Text.unlines (List.replicate 1000 ""))).length ∧
    (∃ head, Text.rows (excerpt .off "a.g" (Text.unlines (List.replicate 1000 "")) ⟨999, 1⟩ "m") =
      head ++ ["998 | ", "999 | ", "      ^", "1000 | ", ""]) ∧
    "999 | ".toList.idxOf '|' = 4 ∧ "1000 | ".toList.idxOf '|' = 5 := by
  have hempty : ∀ l ∈ List.replicate 1000 "", Text.IsLine l := by
    intro l hl
    rw [List.eq_of_mem_replicate hl]
    exact ⟨by decide, by decide⟩
  have hlines : Text.lines (Text.unlines (List.replicate 1000 "")) =
      List.replicate 998 "" ++ "" :: [""] := by
    rw [Text.lines_unlines, Text.flatMap_lines hempty]
    exact List.replicate_add 998 2 ""
  have hbody : body ⟨999, 1⟩ (List.replicate 998 "") "" [""] =
      ["998 | ", "999 | ", "      ^", "1000 | "] := by
    rw [body, rowsAbove, List.getLast?_replicate]
    decide +kernel
  refine ⟨?_, ?_, by decide +kernel, by decide +kernel⟩
  · rw [hlines, List.length_append, List.length_replicate]
    decide
  · refine ⟨(heading "a.g" ⟨999, 1⟩ "m").flatMap Text.rows, ?_⟩
    rw [rows_excerpt hlines (by rw [List.length_replicate]), hbody, List.append_assoc]
    rfl

end GLang.Report
