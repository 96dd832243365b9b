import GLang.Location

/-!
# Tokens

A token is a keyword, a name, a literal, a sign or the mark at the end of the text. Signs are one
or two characters long, and no sign is longer.

* `Keyword.ofName?`: which names are keywords.
* `Sign.pair?`, `Sign.single?`: which characters are signs.
* `Token.text`: how a token is shown in messages and token lists.
-/

namespace GLang

/-- The reserved names. -/
inductive Keyword where
  | fn | external | struct | var | return_ | if_ | else_ | while_ | for_ | break_ | continue_ | as_
  deriving DecidableEq, Repr

namespace Keyword

def text : Keyword → String
  | fn => "fn"
  | external => "extern"
  | struct => "struct"
  | var => "var"
  | return_ => "return"
  | if_ => "if"
  | else_ => "else"
  | while_ => "while"
  | for_ => "for"
  | break_ => "break"
  | continue_ => "continue"
  | as_ => "as"

def all : List Keyword :=
  [fn, external, struct, var, return_, if_, else_, while_, for_, break_, continue_, as_]

/-- The keyword spelled `name`. -/
def ofName? (name : String) : Option Keyword :=
  all.find? (·.text == name)

theorem mem_all (k : Keyword) : k ∈ all := by cases k <;> decide

end Keyword

/-- Punctuation and operators. -/
inductive Sign where
  | openParen | closeParen | openBrace | closeBrace | semicolon | comma | colon | arrow
  | plus | minus | star | slash | equals | ampersand | plusPlus | minusMinus
  | less | greater | lessEqual | greaterEqual | equalEqual | notEqual
  | andAnd | orOr
  deriving DecidableEq, Repr

namespace Sign

def text : Sign → String
  | openParen => "("
  | closeParen => ")"
  | openBrace => r"{"
  | closeBrace => r"}"
  | semicolon => ";"
  | comma => ","
  | colon => ":"
  | arrow => "->"
  | plus => "+"
  | minus => "-"
  | star => "*"
  | slash => "/"
  | equals => "="
  | ampersand => "&"
  | plusPlus => "++"
  | minusMinus => "--"
  | less => "<"
  | greater => ">"
  | lessEqual => "<="
  | greaterEqual => ">="
  | equalEqual => "=="
  | notEqual => "!="
  | andAnd => "&&"
  | orOr => "||"

/-- The sign made of the two characters `c` and `d`. -/
def pair? : Char → Char → Option Sign
  | '+', '+' => some plusPlus
  | '-', '-' => some minusMinus
  | '-', '>' => some arrow
  | '=', '=' => some equalEqual
  | '<', '=' => some lessEqual
  | '>', '=' => some greaterEqual
  | '!', '=' => some notEqual
  | '&', '&' => some andAnd
  | '|', '|' => some orOr
  | _, _ => none

/-- The sign made of the one character `c`. -/
def single? : Char → Option Sign
  | '(' => some openParen
  | ')' => some closeParen
  | '{' => some openBrace
  | '}' => some closeBrace
  | ';' => some semicolon
  | ',' => some comma
  | ':' => some colon
  | '*' => some star
  | '/' => some slash
  | '+' => some plus
  | '-' => some minus
  | '=' => some equals
  | '<' => some less
  | '>' => some greater
  | '&' => some ampersand
  | _ => none

end Sign

/-- A lexical unit of G. -/
inductive Token where
  | keyword (k : Keyword)
  | name (name : String)
  /-- An integer literal; the lexer makes only literals from `0` to `2 ^ 63 - 1`. -/
  | int (value : Int)
  /-- A string literal: the text between the quotes, escapes as written. -/
  | str (raw : String)
  | sign (s : Sign)
  /-- The end of the text. -/
  | eof
  deriving DecidableEq, Repr, Inhabited

/-- How a token is shown in messages and token lists. -/
def Token.text : Token → String
  | keyword k => k.text
  | name x => s!"Identifier({x})"
  | int n => s!"IntLiteral({n})"
  | str raw => s!"StringLiteral(\"{raw}\")"
  | sign s => s.text
  | eof => "EOF"

/-- A token and the place of its first character. -/
structure Spanned where
  token : Token
  location : Location
  deriving DecidableEq, Repr, Inhabited

/-- A line of a token list. -/
def Spanned.text (t : Spanned) : String :=
  s!"{t.location.text} {t.token.text}"

end GLang
