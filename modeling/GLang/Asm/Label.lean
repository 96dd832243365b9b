/-!
# Labels

A function's own labels start with a point and are numbered by the statement that they belong to;
the string literals of a program have labels of their own.
-/

namespace GLang.Asm

inductive Label where
  /-- Where a function restores its caller's frame. -/
  | returnPoint
  /-- The end of the `n`-th `if` statement. -/
  | ifEnd (n : Nat)
  /-- The `i`-th `else if` of the `n`-th `if` statement. -/
  | elseIf (n i : Nat)
  /-- The `else` of the `n`-th `if` statement. -/
  | otherwise (n : Nat)
  /-- The condition of the `n`-th `while` loop. -/
  | whileHead (n : Nat)
  /-- Where the `n`-th `while` loop arrives when its condition fails. -/
  | whileDone (n : Nat)
  /-- Where `break` leaves the `n`-th `while` loop. -/
  | whileEnd (n : Nat)
  /-- The condition of the `n`-th `for` loop. -/
  | forHead (n : Nat)
  /-- The increment of the `n`-th `for` loop. -/
  | forStep (n : Nat)
  /-- Where the `n`-th `for` loop arrives when its condition fails. -/
  | forDone (n : Nat)
  /-- Where `break` leaves the `n`-th `for` loop. -/
  | forEnd (n : Nat)
  /-- The bytes of the `k`-th string literal. -/
  | literal (k : Nat)
  /-- A label given by its name, such as a function. -/
  | named (name : String)
  deriving DecidableEq, Repr

def Label.text : Label → String
  | returnPoint => ".__return"
  | ifEnd n => s!".__endif_{n}"
  | elseIf n i => s!".__elseif_{n}_{i}"
  | otherwise n => s!".__else_{n}"
  | whileHead n => s!".__while_{n}"
  | whileDone n => s!".__whileend_natural_{n}"
  | whileEnd n => s!".__whileend_{n}"
  | forHead n => s!".__for_{n}"
  | forStep n => s!".__forinc_{n}"
  | forDone n => s!".__forend_natural_{n}"
  | forEnd n => s!".__forend_{n}"
  | literal k => s!"__str{k}"
  | named name => name

/-- Whether a name holds no semicolon, which would start a comment. -/
def isPlainName (name : String) : Bool :=
  name.toList.all (· ≠ ';')

def Label.isPlain : Label → Bool
  | named name => isPlainName name
  | _ => true

end GLang.Asm
