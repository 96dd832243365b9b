/-!
# Blank characters

G reads source text as Unicode. What separates lexemes, and what may stand around the parts of a
type descriptor, is the `White_Space` property: twenty-five characters, of which Lean's own
`Char.isWhitespace` knows the ASCII ones without the vertical tab and the form feed.

* `isBlank`: the property.
* `trim`: a text without the blanks at its two ends.
-/

namespace GLang.Text

/-- The characters with the `White_Space` property. -/
def isBlank (c : Char) : Bool :=
  let n := c.toNat
  (0x9 ≤ n && n ≤ 0xD) || n == 0x20 || n == 0x85 || n == 0xA0 || n == 0x1680 ||
    (0x2000 ≤ n && n ≤ 0x200A) || n == 0x2028 || n == 0x2029 || n == 0x202F || n == 0x205F ||
    n == 0x3000

def trimLeft (cs : List Char) : List Char :=
  cs.dropWhile isBlank

def trimRight (cs : List Char) : List Char :=
  (cs.reverse.dropWhile isBlank).reverse

def trim (cs : List Char) : List Char :=
  trimRight (trimLeft cs)

end GLang.Text
