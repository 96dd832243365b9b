/-!
# Decimal numerals

* `value`: the number that a run of digits denotes.
* `count?`: a numeral as it may stand in a type descriptor.
-/

namespace GLang.Text

/-- The number denoted by a run of decimal digits, the most significant first. -/
def value (digits : List Char) : Nat :=
  digits.foldl (fun n c => 10 * n + (c.toNat - '0'.toNat)) 0

/-- The numeral of at least one digit that `cs` spells. -/
def natural? (cs : List Char) : Option Nat :=
  if !cs.isEmpty && cs.all Char.isDigit then some (value cs) else none

/-- A count is a numeral below `2 ^ 32`, with or without a plus sign before it. -/
def count? (cs : List Char) : Option Nat :=
  let digits := match cs with
    | '+' :: rest => rest
    | _ => cs
  (natural? digits).filter (· < 0x100000000)

end GLang.Text
