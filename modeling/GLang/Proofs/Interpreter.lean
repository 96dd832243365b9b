import GLang.Proofs.Execution

/-!
# Running programs

The semantics can be run, and so can the machine.

* `Task.run`: executes a task, if it comes to its end within a number of nested steps. What it gives
  is an execution: `Task.exec_of_run`, and `FunctionDecl.runs_of_run` for functions.
* `Code.runsSafely`: runs code to its end, within a number of steps, and watches the stack pointer.
  `Code.safe_of_runsSafely` says that such code is safe.
-/

namespace GLang

open Asm

theorem except_toOption_eq_some {ε α : Type} {x : Except ε α} {a : α} :
    x.toOption = some a ↔ x = .ok a := by
  cases x <;> simp [Except.toOption]

/-! ### The semantics -/

/-- A type, if it is primitive. -/
def Ty.primitive? (structs : StructTable) (type : String) : Option Ty :=
  (Ty.ofDescriptor structs type).toOption.filter Ty.isPrimitive

theorem Ty.primitive?_eq_some {structs : StructTable} {type : String} {t : Ty} :
    Ty.primitive? structs type = some t ↔
      Ty.ofDescriptor structs type = .ok t ∧ t.isPrimitive := by
  rw [Ty.primitive?, Option.filter_eq_some_iff, except_toOption_eq_some]

namespace Task

/-- Executes a task, its parts by `next`. -/
def runWith (structs : StructTable) (next : Env → Task → Option (Outcome × Env)) (ρ : Env) :
    Task → Option (Outcome × Env)
  | .stmt (.declare x type none) => do
    let t ← Ty.primitive? structs type
    return (.normal, ⟨x, t.width, none⟩ :: ρ)
  | .stmt (.declare x type (some e)) => do
    let t ← Ty.primitive? structs type
    let (v, ρ) ← e.eval ρ
    return (.normal, ⟨x, t.width, some (t.width.truncate v)⟩ :: ρ)
  | .stmt (.assign x e) => do
    let (v, ρ) ← e.eval ρ
    return (.normal, ← ρ.write x v)
  | .stmt (.step op x) => do
    return (.normal, ← ρ.write x (op.apply (← ρ.read x)))
  | .stmt (.branch first others otherwise) => next ρ (.arms (first :: others) otherwise)
  | .stmt (.whileLoop condition body) => next ρ (.loop (some condition) none body)
  | .stmt (.forLoop init condition increment body) => do
    let (.normal, ρ₁) ← next ρ (.clause init) | none
    let (o, ρ₂) ← next ρ₁ (.loop condition increment body)
    return (o, ρ₂.forget ρ)
  | .stmt .breakLoop => some (.broke, ρ)
  | .stmt .continueLoop => some (.continued, ρ)
  | .stmt (.ret none) => some (.returned none, ρ)
  | .stmt (.ret (some e)) => do
    let (v, ρ) ← e.eval ρ
    return (.returned (some v), ρ)
  | .stmt (.store _ _) | .stmt (.storeAt _ _) | .stmt (.run _) => none
  | .seq [] => some (.normal, ρ)
  | .seq (s :: rest) => do
    match ← next ρ (.stmt s) with
    | (.normal, ρ) => next ρ (.seq rest)
    | stopped => some stopped
  | .arms (.mk condition body :: rest) otherwise => do
    let (v, ρ) ← condition.eval ρ
    if v &&& 1 = 0 then next ρ (.arms rest otherwise)
    else
      let (o, ρ') ← next ρ (.seq body)
      return (o, ρ'.forget ρ)
  | .arms [] none => some (.normal, ρ)
  | .arms [] (some body) => do
    let (o, ρ') ← next ρ (.seq body)
    return (o, ρ'.forget ρ)
  | .loop condition increment body => do
    match ← ρ.test condition with
    | (false, ρ) => some (.normal, ρ)
    | (true, ρ) =>
      match ← next ρ (.seq body) with
      | (.broke, ρ') => some (.normal, ρ'.forget ρ)
      | (.returned v, ρ') => some (.returned v, ρ'.forget ρ)
      | (.normal, ρ') | (.continued, ρ') =>
        let (.normal, ρ) ← next (ρ'.forget ρ) (.clause increment) | none
        next ρ (.loop condition increment body)
  | .clause none => some (.normal, ρ)
  | .clause (some s) => next ρ (.stmt s)

/-- Executes a task, within `fuel` nested steps. -/
def run (structs : StructTable) : Nat → Env → Task → Option (Outcome × Env)
  | 0, _, _ => none
  | fuel + 1, ρ, t => t.runWith structs (run structs fuel) ρ

variable {structs : StructTable} {next : Env → Task → Option (Outcome × Env)} {t : Task}
  {ρ ρ' : Env} {o : Outcome}

theorem exec_of_runWith
    (hnext : ∀ {ρ t o ρ'}, next ρ t = some (o, ρ') → Exec structs ρ t o ρ')
    (h : t.runWith structs next ρ = some (o, ρ')) : Exec structs ρ t o ρ' := by
  cases t with
  | stmt s =>
    cases s with
    | declare x type init =>
      cases init with
      | none =>
        obtain ⟨t, ht, h⟩ := Option.bind_eq_some_iff.1 h
        obtain ⟨ht, hp⟩ := Ty.primitive?_eq_some.1 ht
        cases h
        exact .declare ht hp
      | some e =>
        obtain ⟨t, ht, h⟩ := Option.bind_eq_some_iff.1 h
        obtain ⟨ht, hp⟩ := Ty.primitive?_eq_some.1 ht
        obtain ⟨⟨v, ρ₁⟩, he, h⟩ := Option.bind_eq_some_iff.1 h
        cases h
        exact .declareInit ht hp he
    | assign x e =>
      obtain ⟨⟨v, ρ₁⟩, he, h⟩ := Option.bind_eq_some_iff.1 h
      obtain ⟨ρ₂, hx, h⟩ := Option.bind_eq_some_iff.1 h
      cases h
      exact .assign he hx
    | step op x =>
      obtain ⟨v, hv, h⟩ := Option.bind_eq_some_iff.1 h
      obtain ⟨ρ₁, hx, h⟩ := Option.bind_eq_some_iff.1 h
      cases h
      exact .step hv hx
    | branch first others otherwise => exact .branch (hnext h)
    | whileLoop condition body => exact .whileLoop (hnext h)
    | forLoop init condition increment body =>
      obtain ⟨⟨o₁, ρ₁⟩, hinit, h⟩ := Option.bind_eq_some_iff.1 h
      cases o₁ with
      | normal =>
        obtain ⟨⟨o₂, ρ₂⟩, hloop, h⟩ := Option.bind_eq_some_iff.1 h
        cases h
        exact .forLoop (hnext hinit) (hnext hloop)
      | broke | continued | returned => cases h
    | breakLoop =>
      cases h
      exact .breakLoop
    | continueLoop =>
      cases h
      exact .continueLoop
    | ret value =>
      cases value with
      | none =>
        cases h
        exact .ret
      | some e =>
        obtain ⟨⟨v, ρ₁⟩, he, h⟩ := Option.bind_eq_some_iff.1 h
        cases h
        exact .retValue he
    | store | storeAt | run => cases h
  | seq body =>
    cases body with
    | nil =>
      cases h
      exact .seqNil
    | cons s rest =>
      obtain ⟨⟨o₁, ρ₁⟩, hs, h⟩ := Option.bind_eq_some_iff.1 h
      cases o₁ with
      | normal => exact .seqNext (hnext hs) (hnext h)
      | broke | continued | returned =>
        cases h
        exact .seqStop (hnext hs) nofun
  | arms rest otherwise =>
    cases rest with
    | nil =>
      cases otherwise with
      | none =>
        cases h
        exact .noElse
      | some body =>
        obtain ⟨⟨o₁, ρ₁⟩, hbody, h⟩ := Option.bind_eq_some_iff.1 h
        cases h
        exact .otherwise (hnext hbody)
    | cons arm rest =>
      obtain ⟨condition, body⟩ := arm
      obtain ⟨⟨v, ρ₁⟩, he, h⟩ := Option.bind_eq_some_iff.1 h
      by_cases hv : v &&& 1 = 0
      · simp only [hv, if_true] at h
        exact .armPassed he hv (hnext h)
      · simp only [hv, if_false] at h
        obtain ⟨⟨o₂, ρ₂⟩, hbody, h⟩ := Option.bind_eq_some_iff.1 h
        cases h
        exact .armTaken he hv (hnext hbody)
  | loop condition increment body =>
    obtain ⟨⟨b, ρ₁⟩, ht, h⟩ := Option.bind_eq_some_iff.1 h
    cases b with
    | false =>
      cases h
      exact .loopDone ht
    | true =>
      obtain ⟨⟨o₁, ρ₂⟩, hbody, h⟩ := Option.bind_eq_some_iff.1 h
      cases o₁ with
      | broke =>
        cases h
        exact .loopBroken ht (hnext hbody)
      | returned v =>
        cases h
        exact .loopReturned ht (hnext hbody)
      | normal | continued =>
        obtain ⟨⟨o₂, ρ₃⟩, hstep, h⟩ := Option.bind_eq_some_iff.1 h
        cases o₂ with
        | normal => exact .loopNext ht (hnext hbody) (by simp) (hnext hstep) (hnext h)
        | broke | continued | returned => cases h
  | clause s =>
    cases s with
    | none =>
      cases h
      exact .clauseNone
    | some s => exact .clauseSome (hnext h)

/-- **What the interpreter gives is an execution.** -/
theorem exec_of_run {fuel : Nat} :
    ∀ {ρ t o ρ'}, run structs fuel ρ t = some (o, ρ') → Exec structs ρ t o ρ' := by
  induction fuel with
  | zero =>
    intro ρ t o ρ' h
    cases h
  | succ fuel ih => exact fun h => exec_of_runWith ih h

end Task

/-- Calls a function: its result, and its parameters at the end. -/
def FunctionDecl.run (structs : StructTable) (fuel : Nat) (decl : FunctionDecl) (args : List Word) :
    Option (Option Word × Env) := do
  let params ← (readParams structs decl.params).toOption
  if params.length = args.length then
    let (o, ρ) ← Task.run structs fuel (.ofArgs params args) (.seq decl.body)
    return (← o.result?, ρ.forget (.ofArgs params args))
  else none

theorem FunctionDecl.runs_of_run {structs : StructTable} {fuel : Nat} {decl : FunctionDecl}
    {args : List Word} {result : Option Word} {final : Env}
    (h : decl.run structs fuel args = some (result, final)) :
    decl.Runs structs args result final := by
  obtain ⟨params, hparams, h⟩ := Option.bind_eq_some_iff.1 h
  by_cases hlen : params.length = args.length
  · rw [if_pos hlen] at h
    obtain ⟨⟨o, ρ⟩, hrun, h⟩ := Option.bind_eq_some_iff.1 h
    obtain ⟨result', hresult, h⟩ := Option.bind_eq_some_iff.1 h
    cases h
    exact ⟨params, o, ρ, except_toOption_eq_some.1 hparams, hlen, Task.exec_of_run hrun, hresult,
      rfl⟩
  · rw [if_neg hlen] at h
    cases h

/-! ### The machine -/

namespace Asm.Code

/-- Whether code comes to its end within `fuel` steps, and the stack pointer does not wrap
before. -/
def runsSafely (code : Code) (env : Environment) : Nat → State → Bool
  | 0, _ => false
  | fuel + 1, s => !s.wraps && (code.step env s).all (runsSafely code env fuel)

theorem safe_of_runsSafely {code : Code} {env : Environment} {fuel : Nat} :
    ∀ {s : State}, code.runsSafely env fuel s → code.Safe env s := by
  induction fuel with
  | zero =>
    intro s h
    cases h
  | succ fuel ih =>
    intro s h s' hs
    obtain ⟨hwraps, hnext⟩ := Bool.and_eq_true_iff.1 h
    rcases hs.cases_head with rfl | ⟨s₁, hstep, hs⟩
    · simpa using hwraps
    · have hstep : code.step env s = some s₁ := hstep
      rw [hstep] at hnext
      exact ih hnext s' hs

end Asm.Code

end GLang
