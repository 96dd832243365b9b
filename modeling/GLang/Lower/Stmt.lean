import GLang.Lower.Expr
import GLang.Syntax.Stmt

/-!
# Code for statements

Statements are compiled in a state: the context of the compilation and the result type of the
function at hand. The state survives an error, as the next function starts from it.

A block is compiled before the room for its locals is known, so the instruction that reserves it is
put in front afterwards. The same holds for the placeholders of `break`: see `GLang.Lower.Context`.
-/

namespace GLang

open Asm

/-- The state in which statements are compiled. -/
structure Generator where
  context : Context := {}
  /-- The result type of the function at hand. -/
  resultType : Option Ty := none
  /-- The text that has been written for the program at hand. -/
  output : String := ""
  deriving DecidableEq, Repr

/-- Code generation: it may fail, and its state survives that. -/
abbrev Gen := ExceptT LoweringError (StateM Generator)

namespace Gen

/-- Asks the context. -/
def ask {α : Type} (f : Context → Except LoweringError α) : Gen α := do
  ofExcept (f (← get).context)

/-- Changes the context, if `f` does not fail. -/
def change {α : Type} (f : Context → Except LoweringError (α × Context)) : Gen α := do
  let (a, context) ← ofExcept (f (← get).context)
  modify ({ · with context })
  return a

/-- Changes the scopes, if `f` does not fail. -/
def changeScopes {α : Type} (f : ScopeStack → Except LoweringError (α × ScopeStack)) : Gen α :=
  change fun ctx => do
    let (a, scopes) ← f ctx.scopes
    return (a, { ctx with scopes })

/-- Opens a scope and gives its number. -/
def openScope (kind : ScopeKind) (labels : Option LoopLabels) : Gen Nat :=
  changeScopes fun s => return s.openScope kind labels

/-- Closes a scope and gives the bytes that it reserves. -/
def closeScope (kind : ScopeKind) : Gen Nat := do
  let scope ← changeScopes (·.pop kind)
  return scope.localSize

def declare (name : String) (t : Ty) : Gen Symbol :=
  changeScopes (·.declare name t)

def lookup (name : String) : Gen Symbol :=
  ask (·.lookup name)

def freshLabel (kind : LabelKind) : Gen Nat :=
  change fun ctx => return ctx.nextLabel kind

/-- The code of an expression. -/
def evaluate (e : Expr) : Gen Code :=
  return Code.ofInstrs (← ask e.lower)

/-- Fills the placeholders of a loop that has been closed. -/
def settle (loop : Nat) (code : Code) : Gen Code := do
  let (fillings, context) := (← get).context.settle loop
  modify ({ · with context })
  return code.fillAll (← ofExcept fillings)

/-- Compiles a block in a scope of its own. -/
def block (body : Gen Code) : Gen Code := do
  let _ ← openScope .branch none
  let code ← body
  let size ← closeScope .branch
  return Code.ofInstrs (reserve size) ++ code ++ Code.ofInstrs (release size)

/-- Compiles a loop in a scope of its own. A loop that comes to its end by itself arrives at `done`,
one that is left by `break` after its locals are dropped. -/
def loop (kind : ScopeKind) (labels : LoopLabels) (done : Label) (body : Gen Code) : Gen Code := do
  let id ← openScope kind (some labels)
  let code ← body
  let size ← closeScope kind
  let code ← settle id code
  return Code.ofInstrs (reserve size) ++ code ++ [.label done] ++ Code.ofInstrs (release size) ++
    [.label labels.breakTo]

/-- Leaves a loop for `done` if its condition is zero. -/
def loopCondition (condition : Expr) (done : Label) : Gen Code := do
  let code ← evaluate condition
  return code ++
    Code.ofInstrs [.pop .eax, .arith .cmp .eax (.imm 0), .jumpEqual done]

end Gen

/-- Pops a value into a symbol. -/
def Symbol.storeCode (s : Symbol) : List Instr :=
  if s.type.isPrimitive then [.pop .eax, .store s.type.width s.address]
  else .lea .eax s.address :: popCopy s.type.alignedSize 0

/-- Loads the address that a pointer holds, or the address of an array. -/
def Symbol.loadTarget (s : Symbol) (r : Reg) : Instr :=
  if s.type.isArray then .lea r s.address else .load r s.address

/-- Pops a value of type `t` to where a symbol points. -/
def Symbol.storeThrough (s : Symbol) (t : Ty) : List Instr :=
  if t.isPrimitive then [.pop .eax, s.loadTarget .edx, .store t.width (.indirect .edx)]
  else s.loadTarget .eax :: popCopy t.alignedSize 0

/-- Pops a value of type `t` and, below it, the address that it goes to. -/
def Ty.storeIndirect (t : Ty) : List Instr :=
  if t.isPrimitive then [.pop .eax, .pop .edx, .store t.width (.indirect .edx)]
  else .load .eax (.stack t.alignedSize) :: popCopy t.alignedSize 4

/-- The name of the hidden parameter that holds the address for an aggregate result. -/
def resultSlot : String := "$return"

namespace Stmt

/-- Takes the result of a function off the stack: into `eax`, or to the place that the caller
gave. -/
def resultCode : Gen (List Instr) := do
  match (← get).resultType with
  | some t =>
    if t.isPrimitive then return [.pop .eax]
    else
      let slot := (← Gen.lookup resultSlot).address
      return [.load .eax slot] ++ popCopy t.alignedSize 0 ++ [.load .eax slot]
  | none => return [.pop .eax]

mutual

/-- The code of a statement. -/
def lower : Stmt → Gen Code
  | .declare x type none => do
    let t ← Gen.ask (·.typeOf type)
    let _ ← Gen.declare x t
    return []
  | .declare x type (some init) => do
    let t ← Gen.ask (·.typeOf type)
    let value ← Gen.evaluate init
    let symbol ← Gen.declare x t
    return value ++ Code.ofInstrs symbol.storeCode
  | .assign x value => do
    let code ← Gen.evaluate value
    let symbol ← Gen.lookup x
    return code ++ Code.ofInstrs symbol.storeCode
  | .store x value => do
    let symbol ← Gen.lookup x
    match symbol.type.pointee? with
    | none => throw (.untyped ("*" ++ x))
    | some t =>
      let code ← Gen.evaluate value
      return code ++ Code.ofInstrs (symbol.storeThrough t)
  | .storeAt address value => do
    let t ← Gen.ask address.readType
    let target ← Gen.evaluate address
    let code ← Gen.evaluate value
    return target ++ code ++ Code.ofInstrs t.storeIndirect
  | .step op x => do
    let symbol ← Gen.lookup x
    if symbol.type.isPrimitive then return Code.ofInstrs (symbol.stepCode op)
    else throw (.unsupported (.stepOfAggregate x))
  | .branch first others otherwise => do
    let n ← Gen.freshLabel .branch
    let last := if otherwise.isSome then Label.otherwise n else .ifEnd n
    let head ← lowerArm n (if others.isEmpty then last else .elseIf n 0) first
    let arms ← lowerArms n last 0 others
    let tail ← lowerElse n otherwise
    return head ++ arms ++ tail ++ [.label (.ifEnd n)]
  | .whileLoop condition body => do
    let n ← Gen.freshLabel .whileLoop
    Gen.loop .whileLoop ⟨.whileHead n, .whileEnd n⟩ (.whileDone n) do
      let test ← Gen.loopCondition condition (.whileDone n)
      let code ← lowerAll body
      return [.label (.whileHead n)] ++ test ++ code ++ [.instr (.jump (.whileHead n))]
  | .forLoop init condition increment body => do
    let n ← Gen.freshLabel .forLoop
    Gen.loop .forLoop ⟨.forStep n, .forEnd n⟩ (.forDone n) do
      let first ← lowerClause init
      let test ← match condition with
        | some condition => Gen.loopCondition condition (.forDone n)
        | none => pure []
      let code ← lowerAll body
      let step ← lowerClause increment
      return first ++ [.label (.forHead n)] ++ test ++ code ++ [.label (.forStep n)] ++ step ++
        [.instr (.jump (.forHead n))]
  | .breakLoop => do
    let marker ← Gen.change Context.noteBreak
    let labels ← Gen.ask (·.scopes.loopLabels)
    return [.cleanup marker, .instr (.jump labels.breakTo)]
  | .continueLoop => do
    Gen.change fun ctx => return ((), ← ctx.noteContinue)
    let labels ← Gen.ask (·.scopes.loopLabels)
    return [.instr (.jump labels.continueTo)]
  | .ret none => return [.instr (.jump .returnPoint)]
  | .ret (some value) => do
    let code ← Gen.evaluate value
    let result ← resultCode
    return code ++ Code.ofInstrs result ++ [.instr (.jump .returnPoint)]
  | .run (.call f args) => do
    return Code.ofInstrs (← Gen.ask fun ctx => Expr.lowerCall ctx f args false)
  | .run e => throw (.unsupported (.expressionStatement e.text))

/-- The code of statements, one after another. -/
def lowerAll : List Stmt → Gen Code
  | [] => return []
  | s :: rest => do
    let code ← s.lower
    return code ++ (← lowerAll rest)

/-- The code of an arm of the `n`-th `if` statement; a condition that fails goes to `next`. -/
def lowerArm (n : Nat) (next : Label) : Arm → Gen Code
  | .mk condition body => do
    let test ← Gen.evaluate condition
    let code ← Gen.block (lowerAll body)
    return test ++
      Code.ofInstrs [.pop .eax, .arith .test .eax (.imm 1), .jumpZero next] ++ code ++
      [.instr (.jump (.ifEnd n))]

/-- The code of the `else if` arms from the `i`-th on; if all fail, it goes to `last`. -/
def lowerArms (n : Nat) (last : Label) : Nat → List Arm → Gen Code
  | _, [] => return []
  | i, arm :: rest => do
    let code ← lowerArm n (if rest.isEmpty then last else .elseIf n (i + 1)) arm
    return [.label (.elseIf n i)] ++ code ++ (← lowerArms n last (i + 1) rest)

/-- The code of an `else` block. -/
def lowerElse (n : Nat) : Option (List Stmt) → Gen Code
  | none => return []
  | some body => do
    let code ← Gen.block (lowerAll body)
    return [.label (.otherwise n)] ++ code

/-- The code of the first or the last clause of a `for` loop. -/
def lowerClause : Option Stmt → Gen Code
  | none => return []
  | some s => s.lower

end

end Stmt

end GLang
