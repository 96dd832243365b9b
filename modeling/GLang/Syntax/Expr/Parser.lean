import GLang.Syntax.Expr
import GLang.Token.Cursor

/-!
# Reading expressions

From loose to tight: `||`, `&&`, equality, comparison, sums, products, casts, unary operators. All
binary operators associate to the left. A type descriptor is a name followed by `*` and `(n)`
suffixes; an opening parenthesis that no integer literal follows does not belong to it.

The recursion of the grammar goes through the unary level alone. `Expr.unary` takes a bound on its
depth, and every level of depth consumes a token, so the tokens left are bound enough.
-/

namespace GLang

open GLang.Parser

/-- Whether the cursor stands on a suffix of a type descriptor. -/
def Cursor.atTypeSuffix (c : Cursor) : Bool :=
  match c.current, c.peek with
  | .sign .star, _ => true
  | .sign .openParen, .int _ => true
  | _, _ => false

namespace Parser

/-- A suffix of a type descriptor, as text. -/
def typeSuffix : Parser String := do
  match ← current with
  | .sign .star => advance; return "*"
  | _ =>
    advance
    match ← current with
    | .int n =>
      advance
      sign .closeParen
      return s!"({n})"
    | found => fail (.expectedExpression found)

/-- A type descriptor, as text without blanks. -/
def typeDescriptor : Parser String := do
  let base ← ident .type
  let suffixes ← many Cursor.atTypeSuffix typeSuffix
  return base ++ String.join suffixes

/-- Operands with the operators between them, grouped to the left. -/
def leftAssoc (operator? : Token → Option BinOp) (operand : Parser Expr) : Parser Expr := do
  let first ← operand
  let rest ← many (fun c => (operator? c.current).isSome) do
    match operator? (← current) with
    | some op =>
      advance
      let right ← operand
      return (op, right)
    | none => fail (.expectedExpression (← current))
  return rest.foldl (fun left (op, right) => .binary op left right) first

end Parser

namespace BinOp

def disjunction? : Token → Option BinOp
  | .sign .orOr => some .or
  | _ => none

def conjunction? : Token → Option BinOp
  | .sign .andAnd => some .and
  | _ => none

def equality? : Token → Option BinOp
  | .sign .equalEqual => some .equal
  | .sign .notEqual => some .notEqual
  | _ => none

def comparison? : Token → Option BinOp
  | .sign .less => some .less
  | .sign .lessEqual => some .lessEqual
  | .sign .greater => some .greater
  | .sign .greaterEqual => some .greaterEqual
  | _ => none

def sum? : Token → Option BinOp
  | .sign .plus => some .add
  | .sign .minus => some .subtract
  | _ => none

def product? : Token → Option BinOp
  | .sign .star => some .multiply
  | .sign .slash => some .divide
  | _ => none

end BinOp

/-- The step that a sign stands for. -/
def StepOp.ofToken? : Token → Option StepOp
  | .sign .plusPlus => some .increment
  | .sign .minusMinus => some .decrement
  | _ => none

namespace Expr

/-- A unary expression with the casts after it. -/
def castsOver (unary : Parser Expr) : Parser Expr := do
  let operand ← unary
  let targets ← many (·.current = .keyword .as_) (do advance; typeDescriptor)
  return targets.foldl .cast operand

/-- All levels of binary operators over a parser of unary expressions. -/
def levelsOver (unary : Parser Expr) : Parser Expr :=
  leftAssoc BinOp.disjunction? <| leftAssoc BinOp.conjunction? <| leftAssoc BinOp.equality? <|
    leftAssoc BinOp.comparison? <| leftAssoc BinOp.sum? <| leftAssoc BinOp.product? <|
      castsOver unary

/-- The arguments of a call, from its opening to its closing parenthesis. -/
def argumentsOver (expression : Parser Expr) : Parser (List Expr) :=
  parenthesized do
    if ← sees (.sign .closeParen) then return []
    else commaSeparated expression

/-- A literal, a name or an expression in parentheses. -/
def primaryOver (expression : Parser Expr) : Parser Expr := do
  match ← current with
  | .int n => advance; return .int n
  | .str raw => advance; return .str raw
  | .name x => advance; return .var x
  | .sign .openParen => parenthesized expression
  | found => fail (.expectedExpression found)

/-- A primary expression, a step written after its variable or a call. -/
def postfixedOver (expression : Parser Expr) : Parser Expr := do
  let c ← get
  match c.current with
  | .name x =>
    match StepOp.ofToken? c.peek, c.peek with
    | some op, _ => advance; advance; return .step op .after (.var x)
    | none, .sign .openParen => advance; return .call x (← argumentsOver expression)
    | none, _ => primaryOver expression
  | _ => primaryOver expression

/-- A unary expression, nested less deep than `bound` is long. -/
def unary : List Spanned → Parser Expr
  | [] => fail .endless
  | _ :: bound => do
    match ← current with
    | .sign .minus => advance; return .negate (← unary bound)
    | .sign .star => advance; return .deref (← unary bound)
    | .sign .ampersand => advance; return .addressOf (← ident .addressed)
    | .sign .plusPlus => advance; return .step .increment .before (.var (← ident .stepped))
    | .sign .minusMinus => advance; return .step .decrement .before (.var (← ident .stepped))
    | _ => postfixedOver (levelsOver (unary bound))

/-- A unary expression. -/
def unaryParser : Parser Expr := do
  unary (← get).bound

/-- An expression. -/
def parser : Parser Expr := do
  levelsOver (unary (← get).bound)

/-- The arguments of a call. -/
def argumentsParser : Parser (List Expr) :=
  argumentsOver parser

end Expr

end GLang
