import GLang.Lower.Error
import GLang.Syntax.Error
import GLang.Text.Lines

/-!
# Reports

How errors are shown to a person. What gives them colours is a parameter.

* `Report.located`: a message and its place.
* `Report.excerpt`: a message with the line that it is about, the lines around it, and a caret.
* `Report.ofDiagnostics`: a line for each diagnostic.
-/

namespace GLang.Report

/-- The looks that parts of a report can have. -/
inductive Style where
  | redBold
  | cyanBold
  | cyan
  | bold
  deriving DecidableEq, Repr

/-- Gives a text the look of a style. -/
abbrev Painter := Style → String → String

namespace Painter

/-- Leaves all texts as they are. -/
def off : Painter :=
  fun _ text => text

/-- The parameters of the control sequence that starts a style on a terminal. -/
def parameters : Style → String
  | .redBold => "1;31"
  | .cyanBold => "1;36"
  | .cyan => "36"
  | .bold => "1"

/-- Puts texts between control sequences. A style that ends inside the text starts again there. -/
def terminal : Painter := fun style text =>
  let start := "\x1b[" ++ parameters style ++ "m"
  let reset := "\x1b[0m"
  start ++ text.replace reset (reset ++ start) ++ reset

end Painter

/-- A message with its place, if it has one. -/
def located (message : String) (location : Option Location) : String :=
  match location with
  | some p => message ++ " at " ++ p.text
  | none => message

/-- `n` blanks. -/
def blanks (n : Nat) : String :=
  String.ofList (List.replicate n ' ')

/-- A number with blanks before it, `width` characters wide if it fits. -/
def padded (width n : Nat) : String :=
  let digits := toString n
  blanks (width - digits.length) ++ digits

/-- A numbered line of the source. -/
def sourceLine (paint : Painter) (width n : Nat) (line : String) : String :=
  padded width n ++ " " ++ paint .cyanBold "|" ++ " " ++ line ++ "\n"

/-- The width of the line numbers in an excerpt around line `n`. -/
def numberWidth (n : Nat) : Nat :=
  max (toString n).length 3

/-- A message about a place in a source text, with the lines around that place. -/
def excerpt (paint : Painter) (file source : String) (p : Location) (message : String) : String :=
  let lines := Text.lines source
  let index := p.line - 1
  let error := paint .redBold "error"
  match lines[index]? with
  | none => error ++ ": " ++ message ++ " at " ++ paint .cyan (file ++ ":" ++ p.text)
  | some line =>
    let width := numberWidth p.line
    let before := if 0 < index then lines[index - 1]? else none
    error ++ paint .bold ":" ++ " " ++ message ++ "\n" ++
    "  " ++ paint .cyanBold "-->" ++ " " ++ file ++ ":" ++ p.text ++ "\n" ++
    blanks (width + 1) ++ "\n" ++
    (before.map (sourceLine paint width (p.line - 1))).getD "" ++
    sourceLine paint width p.line line ++
    blanks (width + 3 + (p.column - 1)) ++ paint .redBold "^" ++ "\n" ++
    (lines[index + 1]?.map (sourceLine paint width (p.line + 1))).getD ""

/-- A message without a place in a source text. -/
def plain (paint : Painter) (message : String) : String :=
  paint .redBold "error" ++ paint .bold ":" ++ " " ++ message

/-- A line for each diagnostic, with the name of the source file. -/
def ofDiagnostics (paint : Painter) (file : String) (diagnostics : List Diagnostic) : String :=
  "\n".intercalate <| diagnostics.map fun d =>
    plain paint s!"{d.error.message} (in '{d.context}' of {file})"

/-- A syntax error with the lines around it. -/
def ofSyntaxError (paint : Painter) (file source : String) (e : SyntaxError) : String :=
  excerpt paint file source e.location e.message

end GLang.Report

namespace GLang

/-- A syntax error in one line. -/
def SyntaxError.text (e : SyntaxError) : String :=
  Report.located e.message (some e.location)

/-- Diagnostics, one to a line. -/
def Diagnostic.listText (diagnostics : List Diagnostic) : String :=
  "\n".intercalate (diagnostics.map Diagnostic.text)

end GLang
