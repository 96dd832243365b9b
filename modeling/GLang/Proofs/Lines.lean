import Mathlib
import GLang.Text.Lines

/-!
# Lines and rows of a text

`Text.lines` reads a text line by line, and drops the carriage return at the end of a line. The rows
in which a text is shown are all that stands between its line feeds.

* `Text.lines_unlines`: the lines of a text that is written line by line, whatever stands in them,
* `Text.rows_unlines`: its rows,
* `Text.newline_notMem_of_mem_lines`: no line feed stands in a line that has been read.
-/

namespace GLang.Text

/-! ### Lines -/

/-- The text in which each of `ls` is followed by a line feed. -/
def unlines (ls : List String) : String :=
  String.join (ls.map (· ++ "\n"))

/-- A text that is one line when a line feed follows it. -/
structure IsLine (l : String) : Prop where
  newline_notMem : '\n' ∉ l.toList
  getLast?_ne : l.toList.getLast? ≠ some '\r'

@[simp] theorem unlines_nil : unlines [] = "" := rfl

theorem unlines_cons (l : String) (ls : List String) :
    unlines (l :: ls) = l ++ "\n" ++ unlines ls := by
  rw [unlines, List.map_cons, String.join_cons, ← unlines]

@[simp] theorem unlines_append (ls ls' : List String) :
    unlines (ls ++ ls') = unlines ls ++ unlines ls' := by
  simp [unlines]

theorem linesFrom_cons {c : Char} (hc : c ≠ '\n') (line cs : List Char) :
    linesFrom line (c :: cs) = linesFrom (c :: line) cs := by
  simp [linesFrom]

theorem exists_linesFrom_newline (line : List Char) :
    ∃ body, ∀ cs, linesFrom line ('\n' :: cs) = body :: linesFrom [] cs :=
  ⟨_, fun _ => rfl⟩

/-- What follows a line feed has lines of its own. -/
theorem linesFrom_append (xs ys : List Char) : ∀ line : List Char,
    linesFrom line (xs ++ '\n' :: ys) = linesFrom line (xs ++ ['\n']) ++ linesFrom [] ys := by
  induction xs with
  | nil => exact fun line => rfl
  | cons c xs ih =>
    intro line
    by_cases hc : c = '\n'
    · subst hc
      obtain ⟨body, hbody⟩ := exists_linesFrom_newline line
      simp only [List.cons_append, hbody, ih]
    · rw [List.cons_append, List.cons_append, linesFrom_cons hc, linesFrom_cons hc, ih]

theorem length_linesFrom (xs : List Char) : ∀ line : List Char,
    (linesFrom line (xs ++ ['\n'])).length = xs.count '\n' + 1 := by
  induction xs with
  | nil => exact fun line => rfl
  | cons c xs ih =>
    intro line
    by_cases hc : c = '\n'
    · subst hc
      obtain ⟨body, hbody⟩ := exists_linesFrom_newline line
      simp only [List.cons_append, hbody, List.length_cons, ih, List.count_cons_self]
    · rw [List.cons_append, linesFrom_cons hc, ih, List.count_cons_of_ne hc]

theorem linesFrom_of_notMem {xs : List Char} (h : '\n' ∉ xs) : ∀ line : List Char,
    linesFrom line (xs ++ ['\n']) = linesFrom (xs.reverse ++ line) ['\n'] := by
  induction xs with
  | nil => exact fun line => rfl
  | cons c xs ih =>
    intro line
    obtain ⟨hc, hxs⟩ := not_or.1 (mt List.mem_cons.2 h)
    rw [List.cons_append, linesFrom_cons (Ne.symm hc), ih hxs, List.reverse_cons, List.append_assoc]
    rfl

/-- The number of lines is the number of line feeds. -/
theorem length_lines (l : String) : (lines (l ++ "\n")).length = l.toList.count '\n' + 1 := by
  rw [lines, List.length_map, String.toList_append]
  exact length_linesFrom l.toList []

theorem IsLine.lines_eq {l : String} (h : IsLine l) : lines (l ++ "\n") = [l] := by
  have hlines : linesFrom [] (l.toList ++ ['\n']) = [l.toList] := by
    rw [linesFrom_of_notMem h.newline_notMem, List.append_nil]
    have hlast := h.getLast?_ne
    rw [← List.head?_reverse] at hlast
    cases hl : l.toList.reverse with
    | nil =>
      rw [List.reverse_eq_nil_iff.1 hl]
      rfl
    | cons c cs =>
      rw [hl] at hlast
      have hc : c ≠ '\r' := by simpa using hlast
      have hreverse : (c :: cs).reverse = l.toList := by rw [← hl, List.reverse_reverse]
      simp [linesFrom, hc, ← hreverse]
  rw [lines, String.toList_append]
  exact (congrArg (List.map String.ofList) hlines).trans (by simp)

/-- **The lines of a text that is written line by line.** -/
theorem lines_unlines (ls : List String) :
    lines (unlines ls) = ls.flatMap fun l => lines (l ++ "\n") := by
  induction ls with
  | nil => rfl
  | cons l ls ih =>
    have hlines : lines (l ++ "\n" ++ unlines ls) = lines (l ++ "\n") ++ lines (unlines ls) := by
      simp only [lines, String.toList_append, ← List.map_append, List.append_assoc]
      exact congrArg (List.map String.ofList) (linesFrom_append l.toList (unlines ls).toList [])
    rw [List.flatMap_cons, ← ih, ← hlines, unlines_cons]

theorem flatMap_lines {ls : List String} (h : ∀ l ∈ ls, IsLine l) :
    (ls.flatMap fun l => lines (l ++ "\n")) = ls := by
  induction ls with
  | nil => rfl
  | cons l ls ih =>
    obtain ⟨hl, hls⟩ := List.forall_mem_cons.1 h
    rw [List.flatMap_cons, hl.lines_eq, ih hls, List.singleton_append]

/-- Texts are as many lines as they are texts if none of them has a line feed. -/
theorem length_flatMap_lines_eq_iff (ls : List String) :
    (ls.flatMap fun l => lines (l ++ "\n")).length = ls.length ↔ ∀ l ∈ ls, '\n' ∉ l.toList := by
  have hlength : (ls.flatMap fun l => lines (l ++ "\n")).length =
      ls.length + (ls.map fun l => l.toList.count '\n').sum := by
    induction ls with
    | nil => rfl
    | cons l ls ih =>
      rw [List.flatMap_cons, List.length_append, length_lines, ih, List.length_cons, List.map_cons,
        List.sum_cons]
      omega
  rw [hlength, Nat.add_eq_left, List.sum_eq_zero_iff, List.forall_mem_map]
  simp only [List.count_eq_zero]

/-! ### Rows -/

/-- The rows in which a text is shown: what stands between its line feeds. -/
def rows (text : String) : List String :=
  (text.toList.splitOn '\n').map String.ofList

theorem rows_append (s t : String) : rows (s ++ "\n" ++ t) = rows s ++ rows t := by
  have hlist : (s ++ "\n" ++ t).toList = s.toList ++ '\n' :: t.toList := by simp
  rw [rows, hlist, List.splitOn_append_cons_self, List.map_append, ← rows, ← rows]

theorem rows_of_notMem {s : String} (h : '\n' ∉ s.toList) : rows s = [s] := by
  rw [rows, List.splitOn_eq_singleton h, List.map_singleton, String.ofList_toList]

/-- **The rows of a text that is written line by line.** The last one is empty. -/
theorem rows_unlines (ls : List String) : rows (unlines ls) = ls.flatMap rows ++ [""] := by
  induction ls with
  | nil => rfl
  | cons l ls ih => rw [unlines_cons, rows_append, ih, List.flatMap_cons, List.append_assoc]

theorem flatMap_rows {ls : List String} (h : ∀ l ∈ ls, '\n' ∉ l.toList) : ls.flatMap rows = ls := by
  induction ls with
  | nil => rfl
  | cons l ls ih =>
    obtain ⟨hl, hls⟩ := List.forall_mem_cons.1 h
    rw [List.flatMap_cons, rows_of_notMem hl, ih hls, List.singleton_append]

theorem newline_notMem_linesFrom (cs : List Char) : ∀ line : List Char, '\n' ∉ line →
    ∀ l ∈ linesFrom line cs, '\n' ∉ l := by
  induction cs with
  | nil =>
    intro line hline l hl
    cases line with
    | nil => cases hl
    | cons c line =>
      rw [List.mem_singleton.1 hl, List.mem_reverse]
      exact hline
  | cons c cs ih =>
    intro line hline l hl
    by_cases hc : c = '\n'
    · subst hc
      rcases List.mem_cons.1 hl with rfl | hl
      · rw [List.mem_reverse]
        split
        · exact fun h => hline (List.mem_cons_of_mem _ h)
        · exact hline
      · exact ih [] List.not_mem_nil l hl
    · rw [linesFrom_cons hc] at hl
      exact ih (c :: line) (List.not_mem_cons_of_ne_of_not_mem (Ne.symm hc) hline) l hl

theorem newline_notMem_of_mem_lines {text l : String} (h : l ∈ lines text) : '\n' ∉ l.toList := by
  obtain ⟨cs, hcs, rfl⟩ := List.mem_map.1 h
  rw [String.toList_ofList]
  exact newline_notMem_linesFrom text.toList [] List.not_mem_nil cs hcs

end GLang.Text
