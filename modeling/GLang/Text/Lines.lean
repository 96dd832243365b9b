/-!
# Lines of a text

A line ends with a line feed, or with a carriage return and a line feed; what follows the last line
feed is a line of its own only if it is not empty.
-/

namespace GLang.Text

/-- Splits off lines, `line` being the current one read so far, backwards. -/
def linesFrom (line : List Char) : List Char → List (List Char)
  | [] => if line.isEmpty then [] else [line.reverse]
  | '\n' :: cs =>
    let body := match line with
      | '\r' :: before => before
      | _ => line
    body.reverse :: linesFrom [] cs
  | c :: cs => linesFrom (c :: line) cs

/-- The lines of a text, without their ends. -/
def lines (text : String) : List String :=
  (linesFrom [] text.toList).map String.ofList

end GLang.Text
