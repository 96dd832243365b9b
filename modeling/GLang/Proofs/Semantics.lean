import GLang.Lower.Declarations
import GLang.Proofs.Machine

/-!
# What programs mean

A big-step semantics of the part of G that computes with words: integer variables, operators, steps,
`if`, loops and `return`. It knows nothing of stacks and slots. A variable is a cell with a name, a
width and a value; an environment lists the cells in scope, the newest first, and a block forgets
the cells that were declared in it.

* Literals count modulo `2 ^ 32`, arithmetic wraps, a cast changes nothing.
* `*` and `/` are unsigned, comparisons are signed and give one or zero.
* `&&` is one if the bitwise conjunction is not zero, `||` is the bitwise disjunction.
* A narrow variable keeps the low bytes of what is stored in it, and reads them zero-extended.
* `if` asks for the lowest bit of its condition, loops ask whether theirs is zero.

`Expr.eval` has no value if an uninitialised variable is read or a divisor is zero. `Exec` is the
semantics of statements, `FunctionDecl.Runs` that of functions.
-/

namespace GLang

open Asm

/-! ### Variables -/

/-- A variable. -/
structure Cell where
  name : String
  width : Width
  /-- The value, once there is one. -/
  value : Option Word
  deriving DecidableEq

/-- The variables in scope, the newest first. -/
abbrev Env := List Cell

namespace Env

/-- The value of the innermost variable of a name. -/
def read (ρ : Env) (x : String) : Option Word :=
  (ρ.find? (·.name == x)).bind (·.value)

/-- Stores a value in the innermost variable of a name. -/
def write : Env → String → Word → Option Env
  | [], _, _ => none
  | c :: ρ, x, v =>
    if c.name == x then some ({ c with value := some (c.width.truncate v) } :: ρ)
    else (write ρ x v).map (c :: ·)

/-- The variables that were there before a block, after it. -/
def forget (ρ outer : Env) : Env :=
  ρ.drop (ρ.length - outer.length)

/-- The values of all variables, the oldest first. -/
def values (ρ : Env) : List (Option Word) :=
  ρ.reverse.map (·.value)

end Env

/-! ### Expressions -/

/-- One for true, zero for false. -/
def truth (b : Bool) : Word :=
  if b then 1 else 0

/-- The result of an operator; there is none for a division by zero. -/
def BinOp.apply (op : BinOp) (a b : Word) : Option Word :=
  match op with
  | add => some (a + b)
  | subtract => some (a - b)
  | multiply => some (a * b)
  | divide => if b = 0 then none else some (a / b)
  | less => some (truth (a.slt b))
  | greater => some (truth (b.slt a))
  | lessEqual => some (truth (a.sle b))
  | greaterEqual => some (truth (b.sle a))
  | equal => some (truth (a == b))
  | notEqual => some (truth (a != b))
  | and => some (truth (a &&& b != 0))
  | or => some (a ||| b)

def StepOp.apply : StepOp → Word → Word
  | increment, v => v + 1
  | decrement, v => v - 1

/-- The value of an expression, and the variables after it. Operands are evaluated from left to
right. -/
def Expr.eval (ρ : Env) : Expr → Option (Word × Env)
  | .int n => some (.ofInt 32 n, ρ)
  | .var x => do return (← ρ.read x, ρ)
  | .cast e _ => e.eval ρ
  | .binary op l r => do
    let (a, ρ) ← l.eval ρ
    let (b, ρ) ← r.eval ρ
    return (← op.apply a b, ρ)
  | .step op .before (.var x) => do
    let ρ ← ρ.write x (op.apply (← ρ.read x))
    return (← ρ.read x, ρ)
  | .step op .after (.var x) => do
    let v ← ρ.read x
    return (v, ← ρ.write x (op.apply v))
  | _ => none

namespace Expr

variable {ρ ρ' : Env} {v : Word}

theorem eval_var {x : String} :
    (Expr.var x).eval ρ = some (v, ρ') ↔ ρ.read x = some v ∧ ρ = ρ' := by
  simp only [eval, Option.bind_eq_bind, Option.bind_eq_some_iff, Option.pure_def,
    Option.some.injEq, Prod.mk.injEq]
  constructor
  · rintro ⟨_, hv, rfl, rfl⟩
    exact ⟨hv, rfl⟩
  · rintro ⟨hv, rfl⟩
    exact ⟨v, hv, rfl, rfl⟩

theorem eval_binary {op : BinOp} {l r : Expr} :
    (Expr.binary op l r).eval ρ = some (v, ρ') ↔ ∃ a ρ₁ b, l.eval ρ = some (a, ρ₁) ∧
      r.eval ρ₁ = some (b, ρ') ∧ op.apply a b = some v := by
  simp only [eval, Option.bind_eq_bind, Option.bind_eq_some_iff, Prod.exists, Option.pure_def,
    Option.some.injEq, Prod.mk.injEq]
  constructor
  · rintro ⟨a, ρ₁, ha, b, ρ₂, hb, _, hv, rfl, rfl⟩
    exact ⟨a, ρ₁, b, ha, hb, hv⟩
  · rintro ⟨a, ρ₁, b, ha, hb, hv⟩
    exact ⟨a, ρ₁, ha, b, ρ', hb, v, hv, rfl, rfl⟩

theorem eval_stepBefore {op : StepOp} {x : String} :
    (Expr.step op .before (.var x)).eval ρ = some (v, ρ') ↔ ∃ old, ρ.read x = some old ∧
      ρ.write x (op.apply old) = some ρ' ∧ ρ'.read x = some v := by
  simp only [eval, Option.bind_eq_bind, Option.bind_eq_some_iff, Option.pure_def,
    Option.some.injEq, Prod.mk.injEq]
  constructor
  · rintro ⟨old, hold, ρ₁, hw, _, hv, rfl, rfl⟩
    exact ⟨old, hold, hw, hv⟩
  · rintro ⟨old, hold, hw, hv⟩
    exact ⟨old, hold, ρ', hw, v, hv, rfl, rfl⟩

theorem eval_stepAfter {op : StepOp} {x : String} :
    (Expr.step op .after (.var x)).eval ρ = some (v, ρ') ↔
      ρ.read x = some v ∧ ρ.write x (op.apply v) = some ρ' := by
  simp only [eval, Option.bind_eq_bind, Option.bind_eq_some_iff, Option.pure_def,
    Option.some.injEq, Prod.mk.injEq]
  constructor
  · rintro ⟨_, hv, ρ₁, hw, rfl, rfl⟩
    exact ⟨hv, hw⟩
  · rintro ⟨hv, hw⟩
    exact ⟨v, hv, ρ', hw, rfl, rfl⟩

end Expr

/-- Whether a loop goes on, and the variables after its condition. -/
def Env.test (ρ : Env) : Option Expr → Option (Bool × Env)
  | none => some (true, ρ)
  | some condition => do
    let (v, ρ) ← condition.eval ρ
    return (v != 0, ρ)

/-! ### Statements -/

/-- How a statement ends. -/
inductive Outcome where
  | normal
  | broke
  | continued
  /-- The function returns, with a value or without. -/
  | returned (value : Option Word)
  deriving DecidableEq

/-- What is executed: a statement, or a part of one. -/
inductive Task where
  | stmt (s : Stmt)
  | seq (body : List Stmt)
  /-- The arms of an `if` statement that are left, and its `else` block. -/
  | arms (rest : List Arm) (otherwise : Option (List Stmt))
  /-- A loop, from its condition on. -/
  | loop (condition : Option Expr) (increment : Option Stmt) (body : List Stmt)
  /-- The first or the last clause of a `for` loop. -/
  | clause (s : Option Stmt)

/-- The semantics of statements: from variables to an outcome and the variables then. -/
inductive Exec (structs : StructTable) : Env → Task → Outcome → Env → Prop where
  | declare {ρ x type t} (ht : Ty.ofDescriptor structs type = .ok t) (hp : t.isPrimitive) :
      Exec structs ρ (.stmt (.declare x type none)) .normal (⟨x, t.width, none⟩ :: ρ)
  | declareInit {ρ ρ' x type t e v} (ht : Ty.ofDescriptor structs type = .ok t) (hp : t.isPrimitive)
      (he : e.eval ρ = some (v, ρ')) :
      Exec structs ρ (.stmt (.declare x type (some e))) .normal
        (⟨x, t.width, some (t.width.truncate v)⟩ :: ρ')
  | assign {ρ ρ₁ ρ₂ x e v} (he : e.eval ρ = some (v, ρ₁)) (hx : ρ₁.write x v = some ρ₂) :
      Exec structs ρ (.stmt (.assign x e)) .normal ρ₂
  | step {ρ ρ' op x v} (hv : ρ.read x = some v) (hx : ρ.write x (op.apply v) = some ρ') :
      Exec structs ρ (.stmt (.step op x)) .normal ρ'
  | branch {ρ ρ' first others otherwise o}
      (h : Exec structs ρ (.arms (first :: others) otherwise) o ρ') :
      Exec structs ρ (.stmt (.branch first others otherwise)) o ρ'
  | whileLoop {ρ ρ' condition body o}
      (h : Exec structs ρ (.loop (some condition) none body) o ρ') :
      Exec structs ρ (.stmt (.whileLoop condition body)) o ρ'
  | forLoop {ρ ρ₁ ρ₂ init condition increment body o}
      (hinit : Exec structs ρ (.clause init) .normal ρ₁)
      (h : Exec structs ρ₁ (.loop condition increment body) o ρ₂) :
      Exec structs ρ (.stmt (.forLoop init condition increment body)) o (ρ₂.forget ρ)
  | breakLoop {ρ} : Exec structs ρ (.stmt .breakLoop) .broke ρ
  | continueLoop {ρ} : Exec structs ρ (.stmt .continueLoop) .continued ρ
  | ret {ρ} : Exec structs ρ (.stmt (.ret none)) (.returned none) ρ
  | retValue {ρ ρ' e v} (he : e.eval ρ = some (v, ρ')) :
      Exec structs ρ (.stmt (.ret (some e))) (.returned (some v)) ρ'
  | seqNil {ρ} : Exec structs ρ (.seq []) .normal ρ
  | seqNext {ρ ρ₁ ρ₂ s rest o} (hs : Exec structs ρ (.stmt s) .normal ρ₁)
      (hrest : Exec structs ρ₁ (.seq rest) o ρ₂) : Exec structs ρ (.seq (s :: rest)) o ρ₂
  | seqStop {ρ ρ' s rest o} (hs : Exec structs ρ (.stmt s) o ρ') (ho : o ≠ .normal) :
      Exec structs ρ (.seq (s :: rest)) o ρ'
  | armTaken {ρ ρ₁ ρ₂ condition body rest otherwise v o} (he : condition.eval ρ = some (v, ρ₁))
      (hv : v &&& 1 ≠ 0) (h : Exec structs ρ₁ (.seq body) o ρ₂) :
      Exec structs ρ (.arms (.mk condition body :: rest) otherwise) o (ρ₂.forget ρ₁)
  | armPassed {ρ ρ₁ ρ₂ condition body rest otherwise v o} (he : condition.eval ρ = some (v, ρ₁))
      (hv : v &&& 1 = 0) (h : Exec structs ρ₁ (.arms rest otherwise) o ρ₂) :
      Exec structs ρ (.arms (.mk condition body :: rest) otherwise) o ρ₂
  | noElse {ρ} : Exec structs ρ (.arms [] none) .normal ρ
  | otherwise {ρ ρ' body o} (h : Exec structs ρ (.seq body) o ρ') :
      Exec structs ρ (.arms [] (some body)) o (ρ'.forget ρ)
  | loopDone {ρ ρ' condition increment body} (ht : ρ.test condition = some (false, ρ')) :
      Exec structs ρ (.loop condition increment body) .normal ρ'
  | loopBroken {ρ ρ₁ ρ₂ condition increment body} (ht : ρ.test condition = some (true, ρ₁))
      (h : Exec structs ρ₁ (.seq body) .broke ρ₂) :
      Exec structs ρ (.loop condition increment body) .normal (ρ₂.forget ρ₁)
  | loopReturned {ρ ρ₁ ρ₂ condition increment body v} (ht : ρ.test condition = some (true, ρ₁))
      (h : Exec structs ρ₁ (.seq body) (.returned v) ρ₂) :
      Exec structs ρ (.loop condition increment body) (.returned v) (ρ₂.forget ρ₁)
  | loopNext {ρ ρ₁ ρ₂ ρ₃ ρ₄ condition increment body o o'}
      (ht : ρ.test condition = some (true, ρ₁)) (h : Exec structs ρ₁ (.seq body) o ρ₂)
      (ho : o = .normal ∨ o = .continued)
      (hstep : Exec structs (ρ₂.forget ρ₁) (.clause increment) .normal ρ₃)
      (hnext : Exec structs ρ₃ (.loop condition increment body) o' ρ₄) :
      Exec structs ρ (.loop condition increment body) o' ρ₄
  | clauseNone {ρ} : Exec structs ρ (.clause none) .normal ρ
  | clauseSome {ρ ρ' s o} (h : Exec structs ρ (.stmt s) o ρ') :
      Exec structs ρ (.clause (some s)) o ρ'

/-! ### Functions -/

/-- The variables at the start of a function. -/
def Env.ofArgs (params : List (String × Ty)) (args : List Word) : Env :=
  ((params.zip args).map fun (q, v) => ⟨q.1, q.2.width, some (q.2.width.truncate v)⟩).reverse

/-- What a function returns when its body ends so; a `break` or a `continue` has no loop to end. -/
def Outcome.result? : Outcome → Option (Option Word)
  | normal => some none
  | returned v => some v
  | broke | continued => none

/-- The function returns `result` for `args`, and leaves the variables `final` of its parameters. -/
def FunctionDecl.Runs (structs : StructTable) (decl : FunctionDecl) (args : List Word)
    (result : Option Word) (final : Env) : Prop :=
  ∃ params o ρ, readParams structs decl.params = .ok params ∧ params.length = args.length ∧
    Exec structs (.ofArgs params args) (.seq decl.body) o ρ ∧ o.result? = some result ∧
    final = ρ.forget (.ofArgs params args)

end GLang
