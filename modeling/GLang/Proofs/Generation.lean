import Mathlib
import GLang.Lower.Program

/-!
# Runs of the generator

A generation that succeeds takes a state to a value and a new state: `Gen.Returns p g a g'`. Each
operation of the generator gets one equivalence that says which runs it has, so that a proof takes a
generation apart with these and never unfolds the monad.

* `Gen.returns_bind`, `Gen.returns_pure`, …: the monad.
* `Gen.returns_openScope`, `Gen.returns_closeScope`, …: the operations on scopes.
* `Gen.returns_block`, `Gen.returns_loop`: blocks and loops, over what their bodies do.
-/

namespace GLang

open Asm

-- The equations of the generator are made once, here, and not by each of the proofs that need them.
attribute [simp] Stmt.lower Stmt.lowerAll Stmt.lowerArm Stmt.lowerArms Stmt.lowerElse
  Stmt.lowerClause

/-- The generator with other scopes. -/
def Generator.withScopes (g : Generator) (scopes : ScopeStack) : Generator :=
  { g with context := { g.context with scopes } }

namespace Gen

/-- Running `p` from `g` succeeds with `a` and leaves `g'`. -/
def Returns {α : Type} (p : Gen α) (g : Generator) (a : α) (g' : Generator) : Prop :=
  p.run.run g = (.ok a, g')

variable {α β : Type} {g g' : Generator}

/-! ### The monad -/

theorem returns_pure {a b : α} : Returns (pure a) g b g' ↔ b = a ∧ g' = g := by
  show (Except.ok a, g) = (Except.ok b, g') ↔ _
  simp [Prod.ext_iff, eq_comm]

theorem returns_bind {p : Gen α} {f : α → Gen β} {b : β} :
    Returns (p >>= f) g b g' ↔ ∃ a g₁, Returns p g a g₁ ∧ Returns (f a) g₁ b g' := by
  unfold Returns
  rw [ExceptT.run_bind, StateT.run_bind]
  rcases p.run.run g with ⟨e | a, g₁⟩
  · constructor
    · intro h'
      cases h'
    · rintro ⟨a, g₂, h', -⟩
      cases h'
  · constructor
    · intro h'
      exact ⟨a, g₁, rfl, h'⟩
    · rintro ⟨a, g₂, h', h''⟩
      cases h'
      exact h''

theorem not_returns_throw {e : LoweringError} {a : α} : ¬ Returns (throw e) g a g' := by
  intro h
  cases h

theorem returns_get {a : Generator} : Returns get g a g' ↔ a = g ∧ g' = g := by
  show (Except.ok g, g) = (Except.ok a, g') ↔ _
  simp [Prod.ext_iff, eq_comm]

theorem returns_modify {f : Generator → Generator} {u : Unit} :
    Returns (modify f) g u g' ↔ g' = f g := by
  show (Except.ok (), f g) = (Except.ok u, g') ↔ _
  simp [Prod.ext_iff, eq_comm]

theorem returns_ofExcept {x : Except LoweringError α} {a : α} :
    Returns (ofExcept x) g a g' ↔ x = .ok a ∧ g' = g := by
  cases x with
  | error e =>
    constructor
    · intro h
      cases h
    · rintro ⟨h, -⟩
      cases h
  | ok b =>
    show Returns (pure b) g a g' ↔ _
    simp [returns_pure, eq_comm]

/-! ### The context -/

theorem returns_ask {f : Context → Except LoweringError α} {a : α} :
    Returns (ask f) g a g' ↔ f g.context = .ok a ∧ g' = g := by
  simp only [ask, returns_bind, returns_get, returns_ofExcept]
  constructor
  · rintro ⟨_, _, ⟨rfl, rfl⟩, h⟩
    exact h
  · intro h
    exact ⟨g, g, ⟨rfl, rfl⟩, h⟩

theorem returns_change {f : Context → Except LoweringError (α × Context)} {a : α} :
    Returns (change f) g a g' ↔
      ∃ ctx, f g.context = .ok (a, ctx) ∧ g' = { g with context := ctx } := by
  simp only [change, returns_bind, returns_get, returns_ofExcept, returns_modify, returns_pure]
  constructor
  · rintro ⟨_, _, ⟨rfl, rfl⟩, ⟨_, ctx⟩, _, ⟨h, rfl⟩, _, _, rfl, rfl, rfl⟩
    exact ⟨ctx, h, rfl⟩
  · rintro ⟨ctx, h, rfl⟩
    exact ⟨g, g, ⟨rfl, rfl⟩, (a, ctx), g, ⟨h, rfl⟩, (), _, rfl, rfl, rfl⟩

theorem returns_changeScopes {f : ScopeStack → Except LoweringError (α × ScopeStack)} {a : α} :
    Returns (changeScopes f) g a g' ↔
      ∃ scopes, f g.context.scopes = .ok (a, scopes) ∧ g' = g.withScopes scopes := by
  simp only [changeScopes, returns_change]
  cases h : f g.context.scopes with
  | error e =>
    constructor
    · rintro ⟨ctx, h', -⟩
      cases h'
    · rintro ⟨scopes, h', -⟩
      cases h'
  | ok r =>
    constructor
    · rintro ⟨ctx, h', rfl⟩
      cases h'
      exact ⟨r.2, rfl, rfl⟩
    · rintro ⟨scopes, h', rfl⟩
      cases h'
      exact ⟨_, rfl, rfl⟩

theorem returns_openScope {kind : ScopeKind} {labels : Option LoopLabels} {id : Nat} :
    Returns (openScope kind labels) g id g' ↔
      id = g.context.scopes.nextId ∧
        g' = g.withScopes (g.context.scopes.openScope kind labels).2 := by
  rw [openScope, returns_changeScopes]
  constructor
  · rintro ⟨scopes, h, rfl⟩
    cases h
    exact ⟨rfl, rfl⟩
  · rintro ⟨rfl, rfl⟩
    exact ⟨_, rfl, rfl⟩

theorem returns_closeScope {kind : ScopeKind} {size : Nat} :
    Returns (closeScope kind) g size g' ↔
      ∃ scope scopes, g.context.scopes.pop kind = .ok (scope, scopes) ∧
        size = scope.localSize ∧ g' = g.withScopes scopes := by
  simp only [closeScope, returns_bind, returns_changeScopes, returns_pure]
  constructor
  · rintro ⟨scope, g₁, ⟨scopes, h, rfl⟩, rfl, rfl⟩
    exact ⟨scope, scopes, h, rfl, rfl⟩
  · rintro ⟨scope, scopes, h, rfl, rfl⟩
    exact ⟨scope, _, ⟨scopes, h, rfl⟩, rfl, rfl⟩

theorem returns_declare {x : String} {t : Ty} {symbol : Symbol} :
    Returns (declare x t) g symbol g' ↔
      ∃ scopes, g.context.scopes.declare x t = .ok (symbol, scopes) ∧ g' = g.withScopes scopes :=
  returns_changeScopes

theorem returns_lookup {x : String} {symbol : Symbol} :
    Returns (lookup x) g symbol g' ↔ g.context.lookup x = .ok symbol ∧ g' = g :=
  returns_ask

theorem returns_freshLabel {kind : LabelKind} {n : Nat} :
    Returns (freshLabel kind) g n g' ↔
      n = g.context.labels.get kind ∧
        g' = { g with context := { g.context with labels := g.context.labels.bump kind } } := by
  rw [freshLabel, returns_change]
  constructor
  · rintro ⟨ctx, h, rfl⟩
    cases h
    exact ⟨rfl, rfl⟩
  · rintro ⟨rfl, rfl⟩
    exact ⟨_, rfl, rfl⟩

theorem returns_evaluate {e : Expr} {code : Code} :
    Returns (evaluate e) g code g' ↔
      ∃ instrs, e.lower g.context = .ok instrs ∧ code = Code.ofInstrs instrs ∧ g' = g := by
  simp only [evaluate, returns_bind, returns_ask, returns_pure]
  constructor
  · rintro ⟨instrs, _, ⟨h, rfl⟩, rfl, rfl⟩
    exact ⟨instrs, h, rfl, rfl⟩
  · rintro ⟨instrs, h, rfl, rfl⟩
    exact ⟨instrs, _, ⟨h, rfl⟩, rfl, rfl⟩

/-! ### Blocks and loops -/

theorem returns_settle {id : Nat} {code code' : Code} :
    Returns (settle id code) g code' g' ↔
      ∃ fillings, (g.context.settle id).1 = .ok fillings ∧ code' = code.fillAll fillings ∧
        g' = { g with context := (g.context.settle id).2 } := by
  simp only [settle, returns_bind, returns_get, returns_modify, returns_ofExcept, returns_pure]
  constructor
  · rintro ⟨_, _, ⟨rfl, rfl⟩, _, _, rfl, fillings, _, ⟨h, rfl⟩, rfl, rfl⟩
    exact ⟨fillings, h, rfl, rfl⟩
  · rintro ⟨fillings, h, rfl, rfl⟩
    exact ⟨_, _, ⟨rfl, rfl⟩, (), _, rfl, fillings, _, ⟨h, rfl⟩, rfl, rfl⟩

theorem returns_block {body : Gen Code} {code : Code} :
    Returns (block body) g code g' ↔
      ∃ inner g₁ scope scopes,
        Returns body (g.withScopes (g.context.scopes.openScope .branch none).2) inner g₁ ∧
        g₁.context.scopes.pop .branch = .ok (scope, scopes) ∧
        code = Code.ofInstrs (reserve scope.localSize) ++ inner ++
          Code.ofInstrs (release scope.localSize) ∧
        g' = g₁.withScopes scopes := by
  simp only [block, returns_bind, returns_openScope, returns_closeScope, returns_pure]
  constructor
  · rintro ⟨_, _, ⟨rfl, rfl⟩, inner, g₁, h, _, _, ⟨scope, scopes, hp, rfl, rfl⟩, rfl, rfl⟩
    exact ⟨inner, g₁, scope, scopes, h, hp, rfl, rfl⟩
  · rintro ⟨inner, g₁, scope, scopes, h, hp, rfl, rfl⟩
    exact ⟨_, _, ⟨rfl, rfl⟩, inner, g₁, h, _, _, ⟨scope, scopes, hp, rfl, rfl⟩, rfl, rfl⟩

theorem returns_loop {kind : ScopeKind} {labels : LoopLabels} {done : Label} {body : Gen Code}
    {code : Code} :
    Returns (loop kind labels done body) g code g' ↔
      ∃ inner g₁ scope scopes fillings,
        Returns body (g.withScopes (g.context.scopes.openScope kind (some labels)).2) inner g₁ ∧
        g₁.context.scopes.pop kind = .ok (scope, scopes) ∧
        ((g₁.withScopes scopes).context.settle g.context.scopes.nextId).1 = .ok fillings ∧
        code = Code.ofInstrs (reserve scope.localSize) ++ inner.fillAll fillings ++
          [.label done] ++ Code.ofInstrs (release scope.localSize) ++ [.label labels.breakTo] ∧
        g' = { g₁ with
          context := ((g₁.withScopes scopes).context.settle g.context.scopes.nextId).2 } := by
  simp only [loop, returns_bind, returns_openScope, returns_closeScope, returns_settle,
    returns_pure]
  constructor
  · rintro ⟨_, _, ⟨rfl, rfl⟩, inner, g₁, h, _, _, ⟨scope, scopes, hp, rfl, rfl⟩, _, _,
      ⟨fillings, hf, rfl, rfl⟩, rfl, rfl⟩
    exact ⟨inner, g₁, scope, scopes, fillings, h, hp, hf, rfl, rfl⟩
  · rintro ⟨inner, g₁, scope, scopes, fillings, h, hp, hf, rfl, rfl⟩
    exact ⟨_, _, ⟨rfl, rfl⟩, inner, g₁, h, _, _, ⟨scope, scopes, hp, rfl, rfl⟩, _, _,
      ⟨fillings, hf, rfl, rfl⟩, rfl, rfl⟩

theorem returns_loopCondition {condition : Expr} {done : Label} {code : Code} :
    Returns (loopCondition condition done) g code g' ↔
      ∃ test, condition.lower g.context = .ok test ∧
        code = Code.ofInstrs test ++
          Code.ofInstrs [.pop .eax, .arith .cmp .eax (.imm 0), .jumpEqual done] ∧
        g' = g := by
  simp only [loopCondition, returns_bind, returns_evaluate, returns_pure]
  constructor
  · rintro ⟨_, _, ⟨test, h, rfl, rfl⟩, rfl, rfl⟩
    exact ⟨test, h, rfl, rfl⟩
  · rintro ⟨test, h, rfl, rfl⟩
    exact ⟨_, _, ⟨test, h, rfl, rfl⟩, rfl, rfl⟩

end Gen

/-! ### Scopes -/

theorem except_bind_eq_ok {ε α β : Type} {x : Except ε α} {f : α → Except ε β} {b : β} :
    (x >>= f) = .ok b ↔ ∃ a, x = .ok a ∧ f a = .ok b := by
  cases x with
  | error e =>
    constructor
    · intro h
      cases h
    · rintro ⟨a, h, -⟩
      cases h
  | ok a =>
    constructor
    · intro h
      exact ⟨a, rfl, h⟩
    · rintro ⟨a, h, h'⟩
      cases h
      exact h'

namespace ScopeStack

theorem pop_eq_ok {s s' : ScopeStack} {kind : ScopeKind} {scope : Scope} :
    s.pop kind = .ok (scope, s') ↔
      ∃ top rest, s.scopes = top :: rest ∧ top.kind = kind ∧ scope = top.complete ∧
        s' = { s with
          scopes := rest
          closed := (top.complete.id, top.complete.localSize) :: s.closed } := by
  unfold pop
  constructor
  · intro h
    split at h
    · cases h
    · rename_i top rest hs
      split at h
      · rename_i hk
        cases h
        exact ⟨top, rest, hs, hk, rfl, rfl⟩
      · cases h
  · rintro ⟨top, rest, hs, hk, rfl, rfl⟩
    simp only [hs, hk, if_true]

theorem declare_eq_ok {s s' : ScopeStack} {x : String} {t : Ty} {symbol : Symbol} :
    s.declare x t = .ok (symbol, s') ↔
      ∃ top top' rest, s.scopes = top :: rest ∧ top.allocate x t = .ok (symbol, top') ∧
        s' = { s with scopes := top' :: rest } := by
  unfold declare
  constructor
  · intro h
    split at h
    · cases h
    · rename_i top rest hs
      obtain ⟨r, ha, h'⟩ := except_bind_eq_ok.1 h
      cases h'
      exact ⟨top, r.2, rest, hs, ha, rfl⟩
  · rintro ⟨top, top', rest, hs, ha, rfl⟩
    simp only [hs]
    exact except_bind_eq_ok.2 ⟨_, ha, rfl⟩

end ScopeStack

end GLang
