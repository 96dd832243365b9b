import GLang.Syntax.Error

/-!
# Reading a token list

A cursor stands on a token of a list that is not empty. It never moves past an end mark; in a list
without one it can be moved past the last token, and goes on showing that token.

A `Parser` reads from a cursor and either fails at a place or yields a value and the moved cursor.
All loops of the grammar are one, `Parser.many`, whose number of rounds is bounded by the tokens
that are left: a round that succeeds without moving the cursor would be repeated for ever. The bound
is the list of those tokens itself, `Cursor.bound`, so that nothing is counted.
-/

namespace GLang

/-- A place in a token list that is not empty. -/
structure Cursor where
  /-- The token that the cursor stands on. -/
  head : Spanned
  /-- The tokens after it. -/
  tail : List Spanned
  /-- Whether the cursor has moved past the last token, which it then still shows. -/
  past : Bool := false
  deriving Repr

namespace Cursor

def ofList? : List Spanned → Option Cursor
  | [] => none
  | t :: ts => some ⟨t, ts, false⟩

def current (c : Cursor) : Token :=
  c.head.token

/-- The token after the current one; the current one if it is the last. -/
def peek (c : Cursor) : Token :=
  match c.tail with
  | [] => c.current
  | t :: _ => t.token

def location (c : Cursor) : Location :=
  c.head.location

def atEnd (c : Cursor) : Bool :=
  c.past || c.current == .eof

/-- Moves to the next token, unless the cursor is at the end. -/
def advance (c : Cursor) : Cursor :=
  if c.atEnd then c
  else match c.tail with
    | [] => { c with past := true }
    | t :: ts => ⟨t, ts, false⟩

/-- A list that is longer than the number of times that the cursor can still be moved. -/
def bound (c : Cursor) : List Spanned :=
  c.head :: c.head :: c.tail

end Cursor

/-- Reads a value from a token list. -/
abbrev Parser := StateT Cursor (Except SyntaxError)

namespace Parser

/-- The token under the cursor. -/
def current : Parser Token :=
  return (← get).current

/-- Fails at the token under the cursor. -/
def fail {α : Type} (fault : GrammarFault) : Parser α := do
  throw ⟨.grammar fault, (← get).location⟩

def advance : Parser Unit :=
  modify Cursor.advance

/-- Moves over the token `t`. -/
def expect (t : Token) : Parser Unit := do
  let found ← current
  if found = t then advance else fail (.expected t found)

/-- Moves over a sign. -/
def sign (s : Sign) : Parser Unit :=
  expect (.sign s)

/-- Moves over a keyword. -/
def keyword (k : Keyword) : Parser Unit :=
  expect (.keyword k)

/-- Moves over a name. -/
def ident (role : NameRole) : Parser String := do
  match ← current with
  | .name x => advance; return x
  | found => fail (.expectedName role found)

/-- Whether the token under the cursor is `t`. -/
def sees (t : Token) : Parser Bool :=
  return (← get).current = t

/-- Reads items as long as `more` holds of the cursor; `bound` is longer than the list of items. -/
def manyWithin {α : Type} (more : Cursor → Bool) (item : Parser α) :
    List Spanned → Parser (List α)
  | [] => fail .endless
  | _ :: bound => do
    if more (← get) then
      let a ← item
      let rest ← manyWithin more item bound
      return a :: rest
    else return []

/-- Reads items as long as `more` holds of the cursor. -/
def many {α : Type} (more : Cursor → Bool) (item : Parser α) : Parser (List α) := do
  manyWithin more item (← get).bound

/-- Reads one item or more, with commas between them. -/
def commaSeparated {α : Type} (item : Parser α) : Parser (List α) := do
  let first ← item
  let rest ← many (·.current = .sign .comma) (do advance; item)
  return first :: rest

/-- Reads `item` between parentheses. -/
def parenthesized {α : Type} (item : Parser α) : Parser α := do
  sign .openParen
  let a ← item
  sign .closeParen
  return a

end Parser

end GLang
