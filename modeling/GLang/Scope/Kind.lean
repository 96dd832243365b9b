/-!
# Kinds of scopes
-/

namespace GLang

/-- What a scope belongs to. -/
inductive ScopeKind where
  /-- The body of a function. -/
  | function
  /-- The parameters of a function. -/
  | parameter
  /-- A block of an `if` statement. -/
  | branch
  | forLoop
  | whileLoop
  /-- The fields of a struct. -/
  | struct
  deriving DecidableEq, Repr

namespace ScopeKind

def text : ScopeKind → String
  | function => "Function"
  | parameter => "Parameter"
  | branch => "If"
  | forLoop => "For"
  | whileLoop => "While"
  | struct => "Struct"

def isLoop : ScopeKind → Bool
  | forLoop | whileLoop => true
  | _ => false

end ScopeKind

end GLang
