import GLang.Asm.Code
import GLang.Literal
import GLang.Scope.Stack
import GLang.Signature.Function
import GLang.Ty.Descriptor

/-!
# The state of a compilation

What the declarations of the program say, the scopes of the function at hand, the counters that
number labels, and the loop exits that wait for their loop to be closed.

A `break` leaves blocks whose size is not known yet, so a placeholder stands for the instruction
that drops their locals. A `continue` may leave only blocks without locals, which is not known
either. When the loop is closed, its exits are settled: `Context.settle`.
-/

namespace GLang

/-- What the declarations of a program say. -/
structure Declarations where
  functions : FunctionTable := {}
  structs : StructTable := {}
  literals : LiteralPool := {}
  deriving DecidableEq, Repr

/-- A jump out of the blocks `crossed` that belongs to the loop `loop`. -/
inductive LoopExit where
  /-- A `break`, which leaves the loop as well; `marker` is its placeholder. -/
  | break_ (loop marker : Nat) (crossed : List Nat)
  | continue_ (loop : Nat) (crossed : List Nat)
  deriving DecidableEq, Repr

def LoopExit.loop : LoopExit → Nat
  | break_ loop _ _ | continue_ loop _ => loop

/-- The statements whose labels are numbered. -/
inductive LabelKind where
  | branch | whileLoop | forLoop
  deriving DecidableEq, Repr

/-- The next number for each kind of label. -/
structure LabelCounters where
  branch : Nat := 0
  whileLoop : Nat := 0
  forLoop : Nat := 0
  deriving DecidableEq, Repr

namespace LabelCounters

def get (c : LabelCounters) : LabelKind → Nat
  | .branch => c.branch
  | .whileLoop => c.whileLoop
  | .forLoop => c.forLoop

def bump (c : LabelCounters) : LabelKind → LabelCounters
  | .branch => { c with branch := c.branch + 1 }
  | .whileLoop => { c with whileLoop := c.whileLoop + 1 }
  | .forLoop => { c with forLoop := c.forLoop + 1 }

end LabelCounters

/-- The state of a compilation. -/
structure Context extends Declarations where
  scopes : ScopeStack := {}
  labels : LabelCounters := {}
  /-- The exits that wait for their loop to be closed, the oldest first. -/
  pending : List LoopExit := []
  /-- The next placeholder. -/
  markers : Nat := 0
  deriving DecidableEq, Repr

namespace Context

def typeOf (ctx : Context) (descriptor : String) : Except LoweringError Ty :=
  Ty.ofDescriptor ctx.structs descriptor

def lookup (ctx : Context) (name : String) : Except LoweringError Symbol :=
  ctx.scopes.lookup name

/-- A fresh number for the labels of a statement. -/
def nextLabel (ctx : Context) (kind : LabelKind) : Nat × Context :=
  (ctx.labels.get kind, { ctx with labels := ctx.labels.bump kind })

/-- Forgets the scopes and the exits of the previous function. -/
def beginFunction (ctx : Context) : Context :=
  { ctx with scopes := ctx.scopes.clear, pending := [] }

/-- Notes a `break` out of the innermost loop, and gives its placeholder. -/
def noteBreak (ctx : Context) : Except LoweringError (Nat × Context) := do
  let (loop, crossed) ← ctx.scopes.scopesToLoop
  return (ctx.markers,
    { ctx with
      markers := ctx.markers + 1
      pending := ctx.pending ++ [.break_ loop ctx.markers crossed] })

/-- Notes a `continue` of the innermost loop, which it does not leave. -/
def noteContinue (ctx : Context) : Except LoweringError Context := do
  let (loop, crossed) ← ctx.scopes.scopesToLoop
  return { ctx with pending := ctx.pending ++ [.continue_ loop crossed.dropLast] }

/-- The bytes that the scopes `ids` take together, all of which have to be closed. They are added up
in a word. -/
def crossedSize (scopes : ScopeStack) : List Nat → Except LoweringError Nat
  | [] => .ok 0
  | id :: rest =>
    match scopes.closedSize? id with
    | none => .error (.scope (.stillOpen id))
    | some size => do return (size + (← crossedSize scopes rest)) % 0x100000000

/-- How the placeholders of exits are to be filled: pairs of a placeholder and a number of bytes. -/
def fillings (scopes : ScopeStack) : List LoopExit → Except LoweringError (List (Nat × Nat))
  | [] => .ok []
  | .break_ _ marker crossed :: rest => do
    let size ← crossedSize scopes crossed
    return (marker, size) :: (← fillings scopes rest)
  | .continue_ _ crossed :: rest => do
    let size ← crossedSize scopes crossed
    if 0 < size then throw (.unsupported .continueOverLocals)
    fillings scopes rest

/-- Settles the exits of a loop that has been closed. They no longer wait afterwards, also if they
cannot be settled. -/
def settle (ctx : Context) (loop : Nat) : Except LoweringError (List (Nat × Nat)) × Context :=
  let (mine, others) := ctx.pending.partition (·.loop == loop)
  (fillings ctx.scopes mine, { ctx with pending := others })

end Context

end GLang
