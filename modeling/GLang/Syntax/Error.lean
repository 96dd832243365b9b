import GLang.Token

/-!
# Syntax errors

A text is refused by the lexer or by the parser, always at a place. The cause is data; its wording
is `SyntaxFault.message`.
-/

namespace GLang

/-- Why a text has no next token. -/
inductive LexicalFault where
  /-- A character that starts no token. -/
  | stray (c : Char)
  /-- `!` without the `=` that makes it an operator. -/
  | loneBang
  /-- `|` without the second `|` that makes it an operator. -/
  | loneBar
  /-- An integer literal above `2 ^ 63 - 1`. -/
  | tooLarge (digits : String)
  | unterminatedString
  deriving DecidableEq, Repr

def LexicalFault.message : LexicalFault → String
  | stray c => s!"Unexpected character: '{c}'"
  | loneBang => "Unexpected character: '!' (did you mean !=?)"
  | loneBar => "Unexpected character: '|' (use || for logical OR)"
  | tooLarge digits => s!"Invalid number: {digits}"
  | unterminatedString => "Unterminated string literal"

/-- What a name stands for where the grammar asks for one. -/
inductive NameRole where
  | function | struct | field | type | parameter | var | statement | addressed | stepped
  deriving DecidableEq, Repr

def NameRole.text : NameRole → String
  | function => "function name"
  | struct => "struct name"
  | field => "field name"
  | type => "type name"
  | parameter => "parameter name"
  | var => "variable name"
  | statement => "statement"
  | addressed => "symbol after '&'"
  | stepped => "symbol after prefix operator"

/-- Why a token list is no program. -/
inductive GrammarFault where
  | expected (wanted found : Token)
  | expectedName (role : NameRole) (found : Token)
  | expectedItem (found : Token)
  | expectedExpression (found : Token)
  /-- A statement starts with the name `name`, and what follows makes it none of the four kinds. -/
  | expectedAction (name : String) (found : Token)
  | unclosedBlock
  /-- The list has no end mark, and its last token, which then repeats, never completes anything. -/
  | endless
  deriving DecidableEq, Repr

def GrammarFault.message : GrammarFault → String
  | expected wanted found => s!"Expected '{wanted.text}', got '{found.text}'"
  | expectedName role found => s!"Expected {role.text}, got '{found.text}'"
  | expectedItem found => s!"Expected 'fn', 'extern' or 'struct', got '{found.text}'"
  | expectedExpression found => s!"Expected expression, got '{found.text}'"
  | expectedAction name found =>
    s!"Expected '=', '++', '--' or '(' after '{name}', got '{found.text}'"
  | unclosedBlock => r"Expected '}', got end of file"
  | endless => "Expected end of file"

/-- The cause of a syntax error, by the stage that found it. -/
inductive SyntaxFault where
  | lexical (fault : LexicalFault)
  | grammar (fault : GrammarFault)
  deriving DecidableEq, Repr

def SyntaxFault.message : SyntaxFault → String
  | lexical fault => fault.message
  | grammar fault => fault.message

/-- A refused text: the cause and the place. -/
structure SyntaxError where
  fault : SyntaxFault
  location : Location
  deriving DecidableEq, Repr

def SyntaxError.message (e : SyntaxError) : String :=
  e.fault.message

end GLang
