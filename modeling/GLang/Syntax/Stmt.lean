import GLang.Syntax.Expr

/-!
# Statements

The statement trees of G, a one-line summary of each, and the string literals that occur in them.
-/

namespace GLang

mutual

/-- Statements. -/
inductive Stmt where
  /-- `var name: type;` or `var name: type = init;` -/
  | declare (name type : String) (init : Option Expr)
  /-- `name = value;` -/
  | assign (name : String) (value : Expr)
  /-- `*name = value;`: a store through the pointer `name`. -/
  | store (name : String) (value : Expr)
  /-- `*address = value;`: a store through any other address. -/
  | storeAt (address value : Expr)
  /-- `name++;` or `name--;` -/
  | step (op : StepOp) (name : String)
  /-- `if`, its `else if` arms in order and its `else` block. -/
  | branch (first : Arm) (others : List Arm) (otherwise : Option (List Stmt))
  | whileLoop (condition : Expr) (body : List Stmt)
  | forLoop (init : Option Stmt) (condition : Option Expr) (increment : Option Stmt)
      (body : List Stmt)
  | breakLoop
  | continueLoop
  | ret (value : Option Expr)
  /-- An expression evaluated for its effect; the parser makes only calls. -/
  | run (call : Expr)

/-- A condition and the block that it guards. -/
inductive Arm where
  | mk (condition : Expr) (body : List Stmt)

end

/-- A sequence of statements. -/
abbrev Block := List Stmt

instance : Inhabited Stmt := ⟨.breakLoop⟩

namespace Stmt

/-- One line that tells what a statement is, without what it holds. -/
def summary : Stmt → String
  | declare x type _ => s!"VarDecl({x}: {type})"
  | assign x _ => s!"Assign({x})"
  | store x _ => s!"DerefAssign({x})"
  | storeAt address _ => s!"DerefExprAssign({address.text})"
  | step .increment x => s!"Step(Increment {x})"
  | step .decrement x => s!"Step(Decrement {x})"
  | branch _ others _ => s!"If({others.length} else-if arms)"
  | whileLoop _ _ => "While"
  | forLoop _ _ _ _ => "For"
  | breakLoop => "Break"
  | continueLoop => "Continue"
  | ret _ => "Return"
  | run call => s!"Call({call.text})"

mutual

/-- The string literals in a statement, in source order and with repetitions. -/
def strings : Stmt → List String
  | declare _ _ init => (init.map Expr.strings).getD []
  | assign _ value | store _ value => value.strings
  | storeAt address value => address.strings ++ value.strings
  | branch first others otherwise => armStrings first ++ armsStrings others ++ elseStrings otherwise
  | whileLoop condition body => condition.strings ++ blockStrings body
  | forLoop init condition increment body =>
    clauseStrings init ++ (condition.map Expr.strings).getD [] ++ clauseStrings increment ++
      blockStrings body
  | ret value => (value.map Expr.strings).getD []
  | run call => call.strings
  | step _ _ | breakLoop | continueLoop => []

def blockStrings : List Stmt → List String
  | [] => []
  | s :: ss => s.strings ++ blockStrings ss

def armStrings : Arm → List String
  | .mk condition body => condition.strings ++ blockStrings body

def armsStrings : List Arm → List String
  | [] => []
  | a :: rest => armStrings a ++ armsStrings rest

def elseStrings : Option (List Stmt) → List String
  | none => []
  | some body => blockStrings body

def clauseStrings : Option Stmt → List String
  | none => []
  | some s => s.strings

end

end Stmt

end GLang
