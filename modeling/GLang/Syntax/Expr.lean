/-!
# Expressions

The expression trees of G and their written form, in which every operator is parenthesised.
-/

namespace GLang

/-- Binary operators. -/
inductive BinOp where
  | add | subtract | multiply | divide
  | less | greater | lessEqual | greaterEqual | equal | notEqual
  | and | or
  deriving DecidableEq, Repr

def BinOp.text : BinOp → String
  | add => "+"
  | subtract => "-"
  | multiply => "*"
  | divide => "/"
  | less => "<"
  | greater => ">"
  | lessEqual => "<="
  | greaterEqual => ">="
  | equal => "=="
  | notEqual => "!="
  | and => "&&"
  | or => "||"

/-- Stepping a variable by one. -/
inductive StepOp where
  | increment | decrement
  deriving DecidableEq, Repr

def StepOp.text : StepOp → String
  | increment => "++"
  | decrement => "--"

/-- When a step takes effect: before its operand is read (`++x`) or after (`x++`). -/
inductive StepOrder where
  | before | after
  deriving DecidableEq, Repr

/-- Expressions. Type descriptors are kept as text. -/
inductive Expr where
  | int (value : Int)
  /-- A string literal, escapes as written. -/
  | str (raw : String)
  | var (name : String)
  /-- `&name` -/
  | addressOf (name : String)
  /-- `*operand` -/
  | deref (operand : Expr)
  /-- `operand as target` -/
  | cast (operand : Expr) (target : String)
  | binary (op : BinOp) (left right : Expr)
  | negate (operand : Expr)
  | step (op : StepOp) (order : StepOrder) (operand : Expr)
  | call (function : String) (args : List Expr)
  deriving Repr, Inhabited

namespace Expr

mutual

/-- The written form of an expression. -/
def text : Expr → String
  | int n => toString n
  | str raw => "\"" ++ raw ++ "\""
  | var x => x
  | addressOf x => "&" ++ x
  | deref e => "*(" ++ e.text ++ ")"
  | cast e target => "(" ++ e.text ++ " as " ++ target ++ ")"
  | binary op l r => "(" ++ l.text ++ " " ++ op.text ++ " " ++ r.text ++ ")"
  | negate e => "-(" ++ e.text ++ ")"
  | step op .before e => op.text ++ e.text
  | step op .after e => e.text ++ op.text
  | call f args => f ++ "(" ++ argsText args ++ ")"

/-- The written form of an argument list. -/
def argsText : List Expr → String
  | [] => ""
  | [e] => e.text
  | e :: es => e.text ++ ", " ++ argsText es

end

/-- All nodes below an expression: first its operands, then what is below each of them. The
arguments of a call are expressions of their own and do not count. -/
def descendants : Expr → List Expr
  | binary _ l r => l :: r :: (l.descendants ++ r.descendants)
  | deref e | cast e _ | negate e | step _ _ e => e :: e.descendants
  | int _ | str _ | var _ | addressOf _ | call _ _ => []

/-- All nodes of an expression, itself first. -/
def nodes (e : Expr) : List Expr :=
  e :: e.descendants

mutual

/-- The string literals in an expression, in source order and with repetitions. -/
def strings : Expr → List String
  | str raw => [raw]
  | deref e | cast e _ | negate e | step _ _ e => e.strings
  | binary _ l r => l.strings ++ r.strings
  | call _ args => argsStrings args
  | int _ | var _ | addressOf _ => []

/-- The string literals in an argument list. -/
def argsStrings : List Expr → List String
  | [] => []
  | e :: es => e.strings ++ argsStrings es

end

end Expr

end GLang
