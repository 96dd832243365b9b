import GLang.Asm.Label
import GLang.Lower.Error

/-!
# String literals

The distinct string literals of a program, by their source text, numbered in the order in which they
first occur.
-/

namespace GLang

/-- The literals of a program, escapes as written. -/
structure LiteralPool where
  texts : List String := []
  deriving DecidableEq, Repr

namespace LiteralPool

def label? (p : LiteralPool) (raw : String) : Option Asm.Label :=
  (p.texts.idxOf? raw).map .literal

def label (p : LiteralPool) (raw : String) : Except LoweringError Asm.Label :=
  match p.label? raw with
  | some l => .ok l
  | none => .error (.undefinedSymbol ("\"" ++ raw ++ "\""))

/-- Adds a literal, unless it is there. -/
def intern (p : LiteralPool) (raw : String) : LiteralPool :=
  if p.texts.contains raw then p else ⟨p.texts ++ [raw]⟩

/-- Adds literals one after another. -/
def internAll (p : LiteralPool) (raws : List String) : LiteralPool :=
  raws.foldl intern p

/-- The literals with their labels. -/
def entries (p : LiteralPool) : List (String × Asm.Label) :=
  p.texts.zipIdx.map fun (raw, k) => (raw, .literal k)

end LiteralPool

end GLang
