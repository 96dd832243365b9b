import GLang.Scope.Kind

/-!
# Errors in a declaration

What makes it impossible to compile a declaration of a program that reads well. The cause is data;
its wording is `LoweringError.message`. A diagnostic says in which declaration the error is.
-/

namespace GLang

/-- The stack of scopes is not in the state that an operation needs. -/
inductive ScopeFault where
  | nothingToClose (kind : ScopeKind)
  | closesOther (wanted found : ScopeKind)
  | nowhereToDeclare (name : String)
  | outsideLoop
  /-- The size of the scope `id` is asked for before it is closed. -/
  | stillOpen (id : Nat)
  /-- Any other fault, in words. -/
  | other (text : String)
  deriving DecidableEq, Repr

def ScopeFault.text : ScopeFault → String
  | nothingToClose kind => s!"no {kind.text} scope to close"
  | closesOther wanted found => s!"expected to close a {wanted.text} scope, found {found.text}"
  | nowhereToDeclare name => s!"no scope to declare '{name}'"
  | outsideLoop => "no enclosing loop"
  | stillOpen id => s!"scope {id} is still open"
  | other text => text

/-- The largest object, and the largest stack frame, in bytes: `2 ^ 30`. -/
def maxFrameSize : Nat := 0x40000000

/-- What the compiler does not compile. -/
inductive Unsupported where
  | oversizedArray (descriptor : String)
  | beyondFrame (name : String)
  /-- A parameter that is no primitive and is not the last one. -/
  | aggregateBeforeOthers (name type : String)
  | continueOverLocals
  | negation
  | stepOfExpression (text : String)
  | stepOfAggregate (name : String)
  | valueOfNothing (function : String)
  | expressionStatement (text : String)
  | definitionOfExternal (function : String)
  /-- Anything else, in words. -/
  | other (text : String)
  deriving DecidableEq, Repr

def Unsupported.text : Unsupported → String
  | oversizedArray descriptor => s!"the oversized array type '{descriptor}'"
  | beyondFrame name => s!"placing '{name}' beyond the {maxFrameSize} byte frame limit"
  | aggregateBeforeOthers name type =>
    s!"passing the non-primitive parameter '{name}: {type}' before other parameters"
  | continueOverLocals => "continue out of a block that declares locals"
  | negation => "unary negation"
  | stepOfExpression text => s!"incrementing `{text}`"
  | stepOfAggregate name => s!"incrementing the non-primitive value '{name}'"
  | valueOfNothing function => s!"using the result of '{function}', which returns nothing"
  | expressionStatement text => s!"the expression statement `{text}`"
  | definitionOfExternal function => s!"defining '{function}', which is declared extern"
  | other text => text

/-- Why a declaration does not compile. -/
inductive LoweringError where
  | undefinedSymbol (name : String)
  | duplicateSymbol (name : String)
  | unknownType (descriptor : String)
  | unknownFunction (name : String)
  /-- No type can be found for the expression written `text`. -/
  | untyped (text : String)
  | scope (fault : ScopeFault)
  | unsupported (what : Unsupported)
  | argumentCount (function : String) (expected found : Nat)
  deriving DecidableEq, Repr

def LoweringError.message : LoweringError → String
  | undefinedSymbol name => s!"undefined symbol '{name}'"
  | duplicateSymbol name => s!"symbol '{name}' is already declared in this scope"
  | unknownType descriptor => s!"unknown type '{descriptor}'"
  | unknownFunction name => s!"unknown function '{name}'"
  | untyped text => s!"cannot infer the type of `{text}`"
  | scope fault => s!"internal scope error: {fault.text}"
  | unsupported what => s!"{what.text} is not supported"
  | argumentCount function expected found =>
    s!"function '{function}' expects {expected} argument(s), got {found}"

/-- An error and the declaration that it is in. -/
structure Diagnostic where
  context : String
  error : LoweringError
  deriving DecidableEq, Repr

/-- The line that tells of a diagnostic. -/
def Diagnostic.text (d : Diagnostic) : String :=
  s!"in '{d.context}': {d.error.message}"

end GLang
