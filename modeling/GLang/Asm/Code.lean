import GLang.Asm.Instr
import GLang.Text.Replace

/-!
# Lines of code

Code is a list of lines: labels, instructions, and placeholders. A placeholder stands where a
`break` will drop the locals of the blocks that it leaves. How many bytes that is, is known only
when those blocks are closed; then the placeholder is filled with one instruction, or with none.

In the text of code a placeholder is a comment, and it is known by that text: the first occurrence
is the one that is filled, wherever it stands. As long as no name holds a comment, that is the line
of the placeholder itself, and code stays a list of lines. A name that holds one can hold the text
of a placeholder, so code with such a name is filled as text and stays text from then on.

* `Code.fill`: fills a placeholder in code.
* `fillText`: fills placeholders in the text of code.
-/

namespace GLang.Asm

inductive Line where
  | label (l : Label)
  | instr (i : Instr)
  /-- The placeholder with the number `marker`. -/
  | cleanup (marker : Nat)
  /-- Any lines, as text. -/
  | verbatim (text : String)
  deriving DecidableEq, Repr

abbrev Code := List Line

/-- A placeholder as it stands in a text. -/
def markerText (marker : Nat) : String :=
  s!";@cleanup{marker}"

/-- The text of a line, its end included. -/
def Line.text : Line → String
  | label l => l.text ++ ":\n"
  | instr i => "    " ++ i.text ++ "\n"
  | cleanup marker => "    " ++ markerText marker ++ "\n"
  | verbatim text => text

/-- Whether a line is a placeholder or holds no comment. -/
def Line.isPlain : Line → Bool
  | label l => l.isPlain
  | instr i => i.isPlain
  | cleanup _ => true
  | verbatim _ => false

namespace Code

/-- The text of code, line by line. -/
def text (code : Code) : String :=
  String.join (code.map Line.text)

/-- Code without labels and placeholders. -/
def ofInstrs (instrs : List Instr) : Code :=
  instrs.map .instr

/-- Whether the placeholders are the only comments in code. -/
def isPlain (code : Code) : Bool :=
  code.all Line.isPlain

end Code

/-- The text of code with the first occurrence of the placeholder `marker` filled to drop `size`
bytes. -/
def fillFirst (marker size : Nat) (text : String) : String :=
  Text.replaceFirst text (Line.cleanup marker).text (Code.ofInstrs (release size)).text

namespace Code

/-- Code with the first line that is the placeholder `marker` filled to drop `size` bytes. -/
def fillLine (marker size : Nat) : Code → Code
  | [] => []
  | .cleanup m :: rest =>
    if m = marker then ofInstrs (release size) ++ rest else .cleanup m :: fillLine marker size rest
  | line :: rest => line :: fillLine marker size rest

/-- Code with the first occurrence of the placeholder `marker` filled to drop `size` bytes. -/
def fill (marker size : Nat) (code : Code) : Code :=
  if code.isPlain then code.fillLine marker size
  else [.verbatim (fillFirst marker size code.text)]

/-- Fills placeholders one after another. -/
def fillAll (fillings : List (Nat × Nat)) (code : Code) : Code :=
  fillings.foldl (fun code (marker, size) => code.fill marker size) code

end Code

end GLang.Asm
