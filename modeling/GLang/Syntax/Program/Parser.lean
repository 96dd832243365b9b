import GLang.Syntax.Program
import GLang.Syntax.Stmt.Parser
import GLang.Token.Lexer

/-!
# Reading programs

* `Program.ofTokens`: the program that a token list spells.
* `Program.ofSource`: the program that a source text spells.
-/

namespace GLang

open GLang.Parser

/-- A name, a colon and a type descriptor. -/
def Binding.parser (role : NameRole) : Parser Binding := do
  let x ← ident role
  sign .colon
  return ⟨x, ← typeDescriptor⟩

/-- What stands before the body of a function. -/
def FunctionDecl.header : Parser FunctionDecl := do
  keyword .fn
  let f ← ident .function
  let params ← parenthesized do
    if ← sees (.sign .closeParen) then return []
    else commaSeparated (Binding.parser .parameter)
  if ← sees (.sign .arrow) then
    advance
    return { name := f, params, result := some (← typeDescriptor) }
  else return { name := f, params, result := none }

/-- A struct. -/
def StructDecl.parser : Parser StructDecl := do
  keyword .struct
  let s ← ident .struct
  sign .openBrace
  let fields ← many (·.current ≠ .sign .closeBrace) do
    let field ← Binding.parser .field
    sign .semicolon
    return field
  sign .closeBrace
  return ⟨s, fields⟩

/-- An item. -/
def Item.parser : Parser Item := do
  match ← current with
  | .keyword .external =>
    advance
    let decl ← FunctionDecl.header
    sign .semicolon
    return .external decl
  | .keyword .struct => return .struct (← StructDecl.parser)
  | .keyword .fn =>
    let decl ← FunctionDecl.header
    return .function { decl with body := ← Stmt.blockParser }
  | found => fail (.expectedItem found)

namespace Program

/-- A program. -/
def parser : Parser Program :=
  return ⟨← many (fun c => !c.atEnd) Item.parser⟩

/-- The program that a token list spells. -/
def ofTokens (tokens : List Spanned) : Except SyntaxError Program :=
  match Cursor.ofList? tokens with
  | none => .ok ⟨[]⟩
  | some c => (parser.run c).map Prod.fst

/-- The program that a source text spells. -/
def ofSource (source : String) : Except SyntaxError Program := do
  ofTokens (← Token.ofSource source)

end Program

end GLang
