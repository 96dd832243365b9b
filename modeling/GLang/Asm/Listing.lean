import GLang.Asm.Code
import GLang.Literal
import GLang.Literal.Data

/-!
# Assembly files

A listing imports symbols, holds the string literals in its data section and the functions in its
text section. `memcpy` is always imported, and first.
-/

namespace GLang.Asm

structure Listing where
  /-- The imported symbols apart from `memcpy`. -/
  imports : List String
  literals : LiteralPool
  functions : List Code

namespace Listing

/-- The line of a string literal in the data section. -/
def dataLine (raw : String) (label : Label) : String :=
  s!"{label.text}: db {Literal.operands raw}\n"

/-- The text of a listing. -/
def text (l : Listing) : String :=
  "BITS 32\nglobal main\nextern memcpy\n" ++
  String.join (l.imports.map fun name => s!"extern {name}\n") ++
  "section .data\n" ++
  String.join (l.literals.entries.map fun (raw, label) => dataLine raw label) ++
  "section .text\n" ++
  String.join (l.functions.map fun code => "\n" ++ code.text)

end Listing

end GLang.Asm
