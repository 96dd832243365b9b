import GLang.Scope

/-!
# The live scopes of a function

The scopes that are open, innermost first, and the sizes of those that have been closed. Every scope
gets a number of its own, also across functions.

An operation that fails returns no new stack, so that the old one stays in force.
-/

namespace GLang

/-- The live scopes, innermost first. -/
structure ScopeStack where
  scopes : List Scope := []
  nextId : Nat := 0
  /-- The final sizes of the closed scopes, the latest first. -/
  closed : List (Nat × Nat) := []
  deriving DecidableEq, Repr

namespace ScopeStack

/-- Forgets all scopes, but not the numbers that they had. -/
def clear (s : ScopeStack) : ScopeStack :=
  { s with scopes := [], closed := [] }

def depth (s : ScopeStack) : Nat :=
  s.scopes.length

/-- Where the cursor of a new scope starts: a block goes on where its parent stands. -/
def startOf (s : ScopeStack) : ScopeKind → Int
  | .function | .struct => 0
  | .parameter => parameterStart
  | .branch | .forLoop | .whileLoop =>
    match s.scopes with
    | parent :: _ => if parent.kind = .parameter then 0 else parent.cursor
    | [] => 0

/-- Opens a scope, with the labels of a loop or without. -/
def openScope (s : ScopeStack) (kind : ScopeKind) (labels : Option LoopLabels) :
    Nat × ScopeStack :=
  let scope := { Scope.empty s.nextId kind (s.startOf kind) with labels }
  (s.nextId, { s with scopes := scope :: s.scopes, nextId := s.nextId + 1 })

def push (s : ScopeStack) (kind : ScopeKind) : Nat × ScopeStack :=
  s.openScope kind none

def pushLoop (s : ScopeStack) (kind : ScopeKind) (labels : LoopLabels) : Nat × ScopeStack :=
  s.openScope kind (some labels)

/-- Closes the innermost scope, which has to be of the given kind, and keeps its final size. -/
def pop (s : ScopeStack) (kind : ScopeKind) : Except LoweringError (Scope × ScopeStack) :=
  match s.scopes with
  | [] => .error (.scope (.nothingToClose kind))
  | scope :: rest =>
    if scope.kind = kind then
      let scope := scope.complete
      .ok (scope, { s with scopes := rest, closed := (scope.id, scope.localSize) :: s.closed })
    else .error (.scope (.closesOther kind scope.kind))

/-- Declares a name in the innermost scope. -/
def declare (s : ScopeStack) (name : String) (t : Ty) :
    Except LoweringError (Symbol × ScopeStack) :=
  match s.scopes with
  | [] => .error (.scope (.nowhereToDeclare name))
  | scope :: rest => do
    let (symbol, scope) ← scope.allocate name t
    return (symbol, { s with scopes := scope :: rest })

def find? (s : ScopeStack) (name : String) : Option Symbol :=
  s.scopes.findSome? (·.get? name)

/-- The innermost symbol of a name. -/
def lookup (s : ScopeStack) (name : String) : Except LoweringError Symbol :=
  match s.find? name with
  | some symbol => .ok symbol
  | none => .error (.undefinedSymbol name)

/-- The labels of the innermost scope that has any. -/
def loopLabels (s : ScopeStack) : Except LoweringError LoopLabels :=
  match s.scopes.findSome? (·.labels) with
  | some labels => .ok labels
  | none => .error (.scope .outsideLoop)

/-- The number of the innermost loop of the function, and the numbers of all scopes from the
innermost one out to that loop. -/
def toLoop? : List Scope → Option (Nat × List Nat)
  | [] => none
  | scope :: rest =>
    if scope.kind.isLoop && scope.labels.isSome then some (scope.id, [scope.id])
    else if scope.kind = .function then none
    else (toLoop? rest).map fun (loop, crossed) => (loop, scope.id :: crossed)

/-- The scopes that an exit from the innermost loop leaves: see `toLoop?`. -/
def scopesToLoop (s : ScopeStack) : Except LoweringError (Nat × List Nat) :=
  match toLoop? s.scopes with
  | some found => .ok found
  | none => .error (.scope .outsideLoop)

/-- The final size of a scope, once it is closed. -/
def closedSize? (s : ScopeStack) (id : Nat) : Option Nat :=
  s.closed.lookup id

end ScopeStack

end GLang
