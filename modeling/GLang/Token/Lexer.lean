import GLang.Text.Blank
import GLang.Text.Numeral
import GLang.Syntax.Error

/-!
# From text to tokens

The text is a sequence of lexemes with gaps between them. A gap is made of blanks and of comments,
which run from `//` to the end of the line. A lexeme is as long as it can be.

* `Lexer.lexeme`: the lexeme at the head of a text, as its token and the number of characters that
  it takes beyond the first.
* `Lexer.scan`: the tokens of a text. It walks over the text once, and a lexeme or a comment is
  walked over by counting down its length, so the recursion is on the text itself.
* `Token.ofSource`: the tokens of a source text, `eof` being the last.
-/

namespace GLang

namespace Lexer

/-- The largest integer literal, `2 ^ 63 - 1`. -/
def maxLiteral : Nat := 0x7FFFFFFFFFFFFFFF

/-- The characters that a name starts with. -/
def startsName (c : Char) : Bool :=
  c.isAlpha || c == '_'

/-- The characters that a name goes on with. -/
def continuesName (c : Char) : Bool :=
  c.isAlphanum || c == '_'

/-- The text of a string literal whose opening quote has been read: the characters up to the closing
quote. A backslash takes the next character with it, whatever that is; a line feed outside such a
pair ends the search. -/
def quoted? : List Char → Option (List Char)
  | [] => none
  | '"' :: _ => some []
  | '\n' :: _ => none
  | '\\' :: c :: cs => (quoted? cs).map ('\\' :: c :: ·)
  | c :: cs => (quoted? cs).map (c :: ·)

/-- The token that a word is: a keyword or a name. -/
def word (cs : List Char) : Token :=
  let name := String.ofList cs
  match Keyword.ofName? name with
  | some k => .keyword k
  | none => .name name

/-- A fault, and how many characters beyond the start of the lexeme it is found. -/
structure Stop where
  fault : LexicalFault
  offset : Nat := 0

/-- The lexeme at the head of `c :: cs`, which starts with no gap: its token and the number of
characters of `cs` that belong to it. The faults of `!` and `|` are found at the character that
should have followed. -/
def lexeme (c : Char) (cs : List Char) : Except Stop (Token × Nat) :=
  match cs.head?.bind (Sign.pair? c) with
  | some s => .ok (.sign s, 1)
  | none =>
    match Sign.single? c with
    | some s => .ok (.sign s, 0)
    | none =>
      if c = '!' then .error ⟨.loneBang, 1⟩
      else if c = '|' then .error ⟨.loneBar, 1⟩
      else if c = '"' then
        match quoted? cs with
        | some raw => .ok (.str (String.ofList raw), raw.length + 1)
        | none => .error ⟨.unterminatedString, 0⟩
      else if c.isDigit then
        let digits := c :: cs.takeWhile Char.isDigit
        let n := Text.value digits
        if n ≤ maxLiteral then .ok (.int n, digits.length - 1)
        else .error ⟨.tooLarge (String.ofList digits), 0⟩
      else if startsName c then
        let letters := c :: cs.takeWhile continuesName
        .ok (word letters, letters.length - 1)
      else .error ⟨.stray c, 0⟩

/-- The tokens of a text that starts at `p`, after the next `skip` characters, which belong to a
lexeme or a comment that has been read. -/
def scan : Nat → Location → List Char → Except SyntaxError (List Spanned)
  | _, p, [] => .ok [⟨.eof, p⟩]
  | skip + 1, p, c :: cs => scan skip (p.next c) cs
  | 0, p, c :: cs =>
    if Text.isBlank c then scan 0 (p.next c) cs
    else if c = '/' ∧ cs.head? = some '/' then
      scan (cs.takeWhile (· ≠ '\n')).length (p.next c) cs
    else
      match lexeme c cs with
      | .ok (token, more) => do
        let rest ← scan more (p.next c) cs
        return ⟨token, p⟩ :: rest
      | .error stop => .error ⟨.lexical stop.fault, p.after ((c :: cs).take stop.offset)⟩

end Lexer

/-- The tokens of a source text, the end mark included. -/
def Token.ofSource (source : String) : Except SyntaxError (List Spanned) :=
  Lexer.scan 0 .start source.toList

end GLang
