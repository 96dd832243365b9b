import GLang.Syntax.Stmt
import GLang.Syntax.Expr.Parser

/-!
# Reading statements

Blocks nest through `Stmt.blockWithin`, which takes a bound on the depth; as every block consumes
its braces, the tokens left are bound enough.
-/

namespace GLang

open GLang.Parser

namespace Stmt

/-- `var name: type`, with an initial value or without. -/
def declaration : Parser Stmt := do
  keyword .var
  let x ← ident .var
  sign .colon
  let type ← typeDescriptor
  if ← sees (.sign .equals) then
    advance
    return .declare x type (some (← Expr.parser))
  else return .declare x type none

/-- An assignment, a step or a call, without the semicolon. -/
def simple : Parser Stmt := do
  if ← sees (.sign .star) then
    advance
    let address ← Expr.unaryParser
    sign .equals
    let value ← Expr.parser
    match address with
    | .var x => return .store x value
    | _ => return .storeAt address value
  else
    let x ← ident .statement
    match ← current with
    | .sign .equals => advance; return .assign x (← Expr.parser)
    | .sign .plusPlus => advance; return .step .increment x
    | .sign .minusMinus => advance; return .step .decrement x
    | .sign .openParen => return .run (.call x (← Expr.argumentsParser))
    | found => fail (.expectedAction x found)

/-- A condition in parentheses and the block that it guards. -/
def armOver (block : Parser Block) : Parser Arm := do
  let condition ← parenthesized Expr.parser
  return .mk condition (← block)

/-- Whether the cursor stands on `else if`. -/
def atElseIf (c : Cursor) : Bool :=
  c.current = .keyword .else_ && c.peek = .keyword .if_

/-- An `if` statement. -/
def branchOver (block : Parser Block) : Parser Stmt := do
  keyword .if_
  let first ← armOver block
  let others ← many atElseIf (do advance; advance; armOver block)
  if ← sees (.keyword .else_) then
    advance
    return .branch first others (some (← block))
  else return .branch first others none

/-- Reads `item`, unless the cursor stands on `stop`. -/
def unlessAt {α : Type} (stop : Sign) (item : Parser α) : Parser (Option α) := do
  if ← sees (.sign stop) then return none
  else return some (← item)

/-- A `for` statement. -/
def forOver (block : Parser Block) : Parser Stmt := do
  keyword .for_
  sign .openParen
  let init ← unlessAt .semicolon do
    if ← sees (.keyword .var) then declaration else simple
  sign .semicolon
  let condition ← unlessAt .semicolon Expr.parser
  sign .semicolon
  let increment ← unlessAt .closeParen simple
  sign .closeParen
  return .forLoop init condition increment (← block)

/-- Reads `item` and the semicolon after it. -/
def terminated (item : Parser Stmt) : Parser Stmt := do
  let s ← item
  sign .semicolon
  return s

/-- A statement, over a parser of blocks. -/
def statementOver (block : Parser Block) : Parser Stmt := do
  match ← current with
  | .keyword .var => terminated declaration
  | .keyword .if_ => branchOver block
  | .keyword .while_ =>
    advance
    let condition ← parenthesized Expr.parser
    return .whileLoop condition (← block)
  | .keyword .for_ => forOver block
  | .keyword .break_ => terminated do advance; return .breakLoop
  | .keyword .continue_ => terminated do advance; return .continueLoop
  | .keyword .return_ => terminated do
    advance
    return .ret (← unlessAt .semicolon Expr.parser)
  | _ => terminated simple

/-- A statement of a block, which has to be closed before the tokens end. -/
def inBlock (statement : Parser Stmt) : Parser Stmt := do
  if (← get).atEnd then fail .unclosedBlock else statement

/-- A block, nested less deep than `bound` is long. -/
def blockWithin : List Spanned → Parser Block
  | [] => fail .endless
  | _ :: bound => do
    sign .openBrace
    let body ← many (·.current ≠ .sign .closeBrace) (inBlock (statementOver (blockWithin bound)))
    sign .closeBrace
    return body

/-- A block. -/
def blockParser : Parser Block := do
  blockWithin (← get).bound

end Stmt

end GLang
