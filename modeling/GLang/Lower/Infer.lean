import GLang.Lower.Context
import GLang.Syntax.Expr

/-!
# The types of expressions

The type of a dereference is what its operand points to. The type of any other expression is guessed
from all its nodes, in the order of `Expr.nodes`, by the first rule that applies:

1. a cast, to its target,
2. `&x`, a pointer to the type of `x`,
3. a dereference, as above,
4. a variable that is a pointer, then one that is an aggregate,
5. a call of a function with a result,
6. an integer literal, then a string literal,
7. any variable.

The recursion of the third rule is on the operand of the dereference, wherever it stands in the
expression: `Expr.derefHere?` and `Expr.derefBelow?` find it.
-/

namespace GLang

/-- What a dereference of `operand`, which has type `t`, reads. -/
def Ty.read (operand : Expr) (t : Ty) : Except LoweringError Ty :=
  match t.pointee? with
  | some pointee => .ok pointee
  | none => .error (.untyped ("*(" ++ operand.text ++ ")"))

namespace Expr

/-- The target of the first cast among `nodes`. -/
def firstCast? (nodes : List Expr) : Option String :=
  nodes.findSome? fun
    | .cast _ target => some target
    | _ => none

/-- The first variable whose address is taken among `nodes`. -/
def firstAddressOf? (nodes : List Expr) : Option String :=
  nodes.findSome? fun
    | .addressOf x => some x
    | _ => none

/-- The names of the variables among `nodes`. -/
def variableNames (nodes : List Expr) : List String :=
  nodes.filterMap fun
    | .var x => some x
    | _ => none

/-- The names of the functions called among `nodes`. -/
def calledNames (nodes : List Expr) : List String :=
  nodes.filterMap fun
    | .call f _ => some f
    | _ => none

def isInt : Expr → Bool
  | .int _ => true
  | _ => false

def isStr : Expr → Bool
  | .str _ => true
  | _ => false

/-- The first result type among the functions called; all before it have to be known. -/
def firstResult? (functions : FunctionTable) : List String → Except LoweringError (Option Ty)
  | [] => .ok none
  | f :: rest => do
    match (← functions.get f).result with
    | some t => return some t
    | none => firstResult? functions rest

/-- Rules four to seven. -/
def inferFromLeaves (ctx : Context) (e : Expr) : Except LoweringError Ty := do
  let nodes := e.nodes
  let types := (← (variableNames nodes).mapM ctx.lookup).map (·.type)
  match types.find? Ty.isPointer with
  | some t => return t
  | none =>
  match types.find? (!·.isPrimitive) with
  | some t => return t
  | none =>
  match ← firstResult? ctx.functions (calledNames nodes) with
  | some t => return t
  | none =>
  if nodes.any isInt then return .int32
  else if nodes.any isStr then return .pointer .byte
  else match types with
    | t :: _ => return t
    | [] => throw (.untyped e.text)

/-- All rules, for an expression that is no dereference; `read` is the type of the first dereference
below it. -/
def inferWith (ctx : Context) (e : Expr) (read : Option (Except LoweringError Ty)) :
    Except LoweringError Ty :=
  match firstCast? e.nodes with
  | some target => ctx.typeOf target
  | none =>
    match firstAddressOf? e.nodes with
    | some x => do return .pointer (← ctx.lookup x).type
    | none =>
      match read with
      | some t => t
      | none => inferFromLeaves ctx e

mutual

/-- The type of an expression. -/
def infer (ctx : Context) : Expr → Except LoweringError Ty
  | .deref e => do Ty.read e (← infer ctx e)
  | .binary op l r =>
    inferWith ctx (.binary op l r)
      (derefHere? ctx l <|> derefHere? ctx r <|> derefBelow? ctx l <|> derefBelow? ctx r)
  | .cast e target => inferWith ctx (.cast e target) none
  | .negate e => inferWith ctx (.negate e) (derefHere? ctx e <|> derefBelow? ctx e)
  | .step op order e => inferWith ctx (.step op order e) (derefHere? ctx e <|> derefBelow? ctx e)
  | .int n => inferWith ctx (.int n) none
  | .str raw => inferWith ctx (.str raw) none
  | .var x => inferWith ctx (.var x) none
  | .addressOf x => inferWith ctx (.addressOf x) none
  | .call f args => inferWith ctx (.call f args) none

/-- What the expression reads, if it is a dereference. -/
def derefHere? (ctx : Context) : Expr → Option (Except LoweringError Ty)
  | .deref e => some do Ty.read e (← infer ctx e)
  | _ => none

/-- What the first dereference below the expression reads. -/
def derefBelow? (ctx : Context) : Expr → Option (Except LoweringError Ty)
  | .binary _ l r =>
    derefHere? ctx l <|> derefHere? ctx r <|> derefBelow? ctx l <|> derefBelow? ctx r
  | .deref e => derefHere? ctx e <|> derefBelow? ctx e
  | .cast e _ => derefHere? ctx e <|> derefBelow? ctx e
  | .negate e => derefHere? ctx e <|> derefBelow? ctx e
  | .step _ _ e => derefHere? ctx e <|> derefBelow? ctx e
  | .int _ | .str _ | .var _ | .addressOf _ | .call _ _ => none

end

/-- The type that a dereference of the expression reads. -/
def readType (ctx : Context) (e : Expr) : Except LoweringError Ty := do
  Ty.read e (← e.infer ctx)

/-- The bytes that the value of an expression takes on the stack. -/
def pushedSize (ctx : Context) : Expr → Except LoweringError Nat
  | .var x => return (← ctx.lookup x).type.stackSize
  | .call f _ => do
    match (← ctx.functions.get f).result with
    | some t => return t.stackSize
    | none => return 0
  | .deref e => return (← e.readType ctx).stackSize
  | .cast e _ => e.pushedSize ctx
  | _ => return 4

end Expr

end GLang
