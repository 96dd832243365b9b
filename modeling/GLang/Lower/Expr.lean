import GLang.Lower.Infer

/-!
# Code for expressions

The machine stack is the operand stack: the code of an expression leaves its value on top of it,
four bytes for a primitive and its whole size for an aggregate.

* `Expr.lower`: the code of an expression, by recursion on the tree.
* `Expr.emission` and `Expr.lowerNode`: the same in two steps, first the nodes in the order in which
  their code runs, then the code of each node alone. `Expr.lower_eq_emission` says that the two
  agree.
-/

namespace GLang

open Asm

/-! ### Moving values -/

/-- Pushes a primitive of type `t` that is read from `a`; narrow values are zero-extended. -/
def pushValue (t : Ty) (a : Address) : List Instr :=
  if t.alignedSize = 4 then [.pushMem a] else [.loadExtended t.width a, .pushReg .eax]

/-- Pushes a copy of the `size` bytes at the address in `eax`. -/
def pushCopy (size : Nat) : List Instr :=
  [.arith .sub .esp (.imm size), .move .edx .esp, .pushImm size, .pushReg .eax, .pushReg .edx,
    .call "memcpy", .arith .add .esp (.imm 12)]

/-- Moves the `size` bytes on top of the stack to the address in `eax`, and drops them with `extra`
more bytes. -/
def popCopy (size extra : Nat) : List Instr :=
  [.move .edx .esp, .pushImm size, .pushReg .edx, .pushReg .eax, .call "memcpy",
    .arith .add .esp (.imm 12), .arith .add .esp (.imm (size + extra : Nat))]

/-- Pushes what is at the address in `eax`, a value of type `t`. -/
def pushIndirect (t : Ty) : List Instr :=
  if t.isPrimitive then pushValue t (.indirect .eax) else pushCopy t.alignedSize

/-- Pushes the value of a symbol. -/
def Symbol.pushCode (s : Symbol) : List Instr :=
  if s.type.isPrimitive then pushValue s.type s.address
  else .lea .eax s.address :: pushCopy s.type.alignedSize

/-- Steps a symbol in place. -/
def Symbol.stepCode (s : Symbol) : StepOp → List Instr
  | .increment => [.inc s.type.width s.address]
  | .decrement => [.dec s.type.width s.address]

/-! ### Operators -/

/-- What an operator does with the left operand in `eax` and the right one in `edx`, the result
going to `eax`. -/
def BinOp.combine : BinOp → List Instr
  | add => [.arith .add .eax (.reg .edx)]
  | subtract => [.arith .sub .eax (.reg .edx)]
  | multiply => [.mul .edx]
  | or => [.arith .or .eax (.reg .edx)]
  | and => [.arith .test .eax (.reg .edx), .set .notZero, .extendByte]
  | less => [.arith .cmp .eax (.reg .edx), .set .less, .extendByte]
  | greater => [.arith .cmp .eax (.reg .edx), .set .greater, .extendByte]
  | lessEqual => [.arith .cmp .eax (.reg .edx), .set .lessEqual, .extendByte]
  | greaterEqual => [.arith .cmp .eax (.reg .edx), .set .greaterEqual, .extendByte]
  | equal => [.arith .cmp .eax (.reg .edx), .set .equal, .extendByte]
  | notEqual => [.arith .cmp .eax (.reg .edx), .set .notEqual, .extendByte]
  | divide => []

/-- Pops the two operands of an operator and pushes its result. -/
def BinOp.code : BinOp → List Instr
  | divide =>
    [.pop .ecx, .pop .eax, .arith .xor .edx (.reg .edx), .div .ecx, .pushReg .eax]
  | op => [.pop .edx, .pop .eax] ++ op.combine ++ [.pushReg .eax]

namespace Expr

/-- The symbol of an array variable: it is addressed directly, not through a loaded pointer. -/
def arraySymbol? (ctx : Context) : Expr → Option Symbol
  | .var x => (ctx.scopes.find? x).filter (·.type.isArray)
  | _ => none

/-- Pushes what the address of `operand` points to; the address is popped, unless `operand` is an
array variable. -/
def derefCode (ctx : Context) (operand : Expr) : Except LoweringError (List Instr) := do
  let address := match operand.arraySymbol? ctx with
    | some symbol => Instr.lea .eax symbol.address
    | none => .pop .eax
  let t ← operand.readType ctx
  return address :: pushIndirect t

/-- Steps the variable `operand`. -/
def stepCode (ctx : Context) (op : StepOp) (operand : Expr) : Except LoweringError (List Instr) :=
  match operand with
  | .var x => do
    let symbol ← ctx.lookup x
    if symbol.type.isPrimitive then return symbol.stepCode op
    else throw (.unsupported (.stepOfAggregate x))
  | _ => .error (.unsupported (.stepOfExpression operand.text))

/-- A call of `f` with arguments of the given number, code and size. Its result is left on the stack
or dropped. A function with an aggregate result gets, after its arguments, the address of a place
that is reserved before them. The size is an operand of 32-bit instructions, so it counts modulo
`2 ^ 32`. -/
def callCode (ctx : Context) (f : String) (count : Nat)
    (args : Except LoweringError (List Instr × Nat)) (keep : Bool) :
    Except LoweringError (List Instr) := do
  let signature ← ctx.functions.get f
  if !signature.external && count ≠ signature.params.length then
    throw (.argumentCount f signature.params.length count)
  let (code, pushed) ← args
  match signature.result with
  | none =>
    if keep then throw (.unsupported (.valueOfNothing f))
    return code ++ [.call f] ++ release pushed
  | some t =>
    if t.isPrimitive then
      return code ++ [.call f] ++ release pushed ++ (if keep then [.pushReg .eax] else [])
    else
      let size := t.alignedSize
      return [.arith .sub .esp (.imm size)] ++ code ++
        [.lea .edx (.stack pushed), .pushReg .edx, .call f] ++ release (pushed + 4) ++
        (if keep then [] else [.arith .add .esp (.imm size)])

mutual

/-- The code of an expression. -/
def lower (ctx : Context) : Expr → Except LoweringError (List Instr)
  | .int n => return [.pushImm n]
  | .str raw => return [.pushLabel (← ctx.literals.label raw)]
  | .var x => return (← ctx.lookup x).pushCode
  | .addressOf x => return [.lea .eax (← ctx.lookup x).address, .pushReg .eax]
  | .deref e => do
    let address ← if (e.arraySymbol? ctx).isSome then pure [] else e.lower ctx
    return address ++ (← derefCode ctx e)
  | .cast e _ => e.lower ctx
  | .binary op l r => do
    let left ← l.lower ctx
    let right ← r.lower ctx
    return left ++ right ++ op.code
  | .negate e => do
    let _ ← e.lower ctx
    throw (.unsupported .negation)
  | .step op .before e => do
    let step ← stepCode ctx op e
    return step ++ (← e.lower ctx)
  | .step op .after e => do
    let value ← e.lower ctx
    return value ++ (← stepCode ctx op e)
  | .call f args => callCode ctx f args.length (lowerArgs ctx args) true

/-- The code that pushes arguments, the last one first, and the bytes that they take. The bytes are
added up without wrapping around: their sum counts modulo `2 ^ 32`. -/
def lowerArgs (ctx : Context) : List Expr → Except LoweringError (List Instr × Nat)
  | [] => return ([], 0)
  | e :: rest => do
    let (code, pushed) ← lowerArgs ctx rest
    let value ← e.lower ctx
    let size ← e.pushedSize ctx
    return (code ++ value, pushed + size)

end

/-- The code of a call whose result is left on the stack or dropped. -/
def lowerCall (ctx : Context) (f : String) (args : List Expr) (keep : Bool) :
    Except LoweringError (List Instr) :=
  callCode ctx f args.length (lowerArgs ctx args) keep

/-! ### Node by node -/

/-- The nodes of an expression that have code, in the order in which it runs. -/
def emission (ctx : Context) : Expr → List Expr
  | .int n => [.int n]
  | .str raw => [.str raw]
  | .var x => [.var x]
  | .addressOf x => [.addressOf x]
  | .call f args => [.call f args]
  | .deref e => (if (e.arraySymbol? ctx).isSome then [] else e.emission ctx) ++ [.deref e]
  | .cast e _ => e.emission ctx
  | .binary op l r => l.emission ctx ++ r.emission ctx ++ [.binary op l r]
  | .negate e => e.emission ctx ++ [.negate e]
  | .step op .before e => .step op .before e :: e.emission ctx
  | .step op .after e => e.emission ctx ++ [.step op .after e]

/-- The code of a node alone, its operands being on the stack. -/
def lowerNode (ctx : Context) : Expr → Except LoweringError (List Instr)
  | .int n => return [.pushImm n]
  | .str raw => return [.pushLabel (← ctx.literals.label raw)]
  | .var x => return (← ctx.lookup x).pushCode
  | .addressOf x => return [.lea .eax (← ctx.lookup x).address, .pushReg .eax]
  | .deref e => derefCode ctx e
  | .cast _ _ => return []
  | .binary op _ _ => return op.code
  | .negate _ => throw (.unsupported .negation)
  | .step op _ e => stepCode ctx op e
  | .call f args => lowerCall ctx f args true

/-- The code of nodes, one after another. -/
def lowerNodes (ctx : Context) : List Expr → Except LoweringError (List Instr)
  | [] => return []
  | e :: rest => do
    let code ← e.lowerNode ctx
    return code ++ (← lowerNodes ctx rest)

theorem lowerNodes_append (ctx : Context) (es fs : List Expr) :
    lowerNodes ctx (es ++ fs) = (do
      let code ← lowerNodes ctx es
      return code ++ (← lowerNodes ctx fs)) := by
  induction es with
  | nil => simp [lowerNodes]
  | cons e es ih =>
    rw [List.cons_append, lowerNodes, lowerNodes, ih]
    cases e.lowerNode ctx with
    | error => rfl
    | ok a =>
      cases lowerNodes ctx es with
      | error => rfl
      | ok b =>
        cases lowerNodes ctx fs with
        | error => rfl
        | ok c => exact congrArg Except.ok (List.append_assoc a b c).symm

@[simp] theorem lowerNodes_singleton (ctx : Context) (e : Expr) :
    lowerNodes ctx [e] = e.lowerNode ctx := by
  simp [lowerNodes]

/-- **Compiling an expression is compiling the nodes of its emission list.** -/
theorem lower_eq_emission (ctx : Context) : ∀ e : Expr,
    e.lower ctx = lowerNodes ctx (e.emission ctx)
  | .int _ | .str _ | .var _ | .addressOf _ | .call _ _ => by
    simp [lower, emission, lowerNode, lowerCall]
  | .cast e _ => by rw [lower, emission, lower_eq_emission ctx e]
  | .deref e => by
    rw [lower, emission, lowerNodes_append, lowerNodes_singleton, lowerNode]
    split
    · rfl
    · rw [lower_eq_emission ctx e]
  | .binary op l r => by
    rw [lower, emission, lowerNodes_append, lowerNodes_append, lowerNodes_singleton, lowerNode,
      lower_eq_emission ctx l, lower_eq_emission ctx r]
    cases lowerNodes ctx (l.emission ctx) with
    | error => rfl
    | ok a =>
      cases lowerNodes ctx (r.emission ctx) with
      | error => rfl
      | ok b => rfl
  | .negate e => by
    rw [lower, emission, lowerNodes_append, lowerNodes_singleton, lowerNode,
      lower_eq_emission ctx e]
    cases lowerNodes ctx (e.emission ctx) <;> rfl
  | .step op .before e => by
    rw [lower, emission, lowerNodes, lowerNode, lower_eq_emission ctx e]
  | .step op .after e => by
    rw [lower, emission, lowerNodes_append, lowerNodes_singleton, lowerNode,
      lower_eq_emission ctx e]

end Expr

end GLang
