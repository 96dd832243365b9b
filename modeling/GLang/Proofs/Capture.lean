import GLang.Proofs.Control
import GLang.Proofs.Extension

/-!
# Which variables the last clause of a `for` loop means

A `for` loop has one scope for its clauses and its body, and its last clause is compiled after the
body. So the variables that the body declares come first there, and hide those that the head of the
loop knows by the same names.

* `Generator.Extends.lookup`, `Generator.Extends.alikeOn`: what names stand for after a run of the
  generator.
* `Stmt.forHeader`: what is compiled of a `for` loop up to the end of its head.
* `Stmt.increment_after_body`: the last clause is compiled where the body ends. It means what it
  means in the head, if the body declares none of its names.
-/

namespace GLang

open Asm Gen

/-! ### Names after declarations -/

namespace Generator.Extends

variable {added : List Symbol} {g g' : Generator}

theorem find? (h : g.Extends added g') (x : String) :
    g'.context.scopes.find? x = (added.find? (·.name == x)).or (g.context.scopes.find? x) :=
  h.scopes.findSome? x

theorem lookup (h : g.Extends added g') (x : String) :
    g'.context.lookup x =
      (added.find? (·.name == x)).elim (g.context.lookup x) Except.ok := by
  unfold Context.lookup ScopeStack.lookup
  rw [h.find?]
  cases added.find? (·.name == x) <;> rfl

theorem alikeOn (h : g.Extends added g') {names : List String}
    (hnames : ∀ x ∈ names, x ∉ added.map Symbol.name) :
    g.context.AlikeOn names g'.context where
  declarations := h.declarations.symm
  find x hx := by
    have hnone : added.find? (·.name == x) = none := by
      rw [List.find?_eq_none]
      intro s hs he
      exact hnames x hx (List.mem_map.2 ⟨s, hs, eq_of_beq he⟩)
    rw [h.find?, hnone, Option.none_or]

end Generator.Extends

namespace Stmt

/-! ### The last clause -/

/-- What is compiled of a `for` loop up to the end of its head: its number, its first clause and its
test. The scope of the loop stays open. -/
def forHeader (init : Option Stmt) (condition : Option Expr) : Gen (Nat × Code × Code) := do
  let n ← Gen.freshLabel .forLoop
  let _ ← Gen.openScope .forLoop (some ⟨.forStep n, .forEnd n⟩)
  let first ← lowerClause init
  let test ← match condition with
    | some condition => Gen.loopCondition condition (.forDone n)
    | none => pure []
  return (n, first, test)

/-- A simple statement is compiled to instructions and changes nothing. It is compiled to the same
instructions wherever its names stand for the same. -/
theorem returns_of_isSimple {s : Stmt} {g g' : Generator} {code : Code} (hs : s.isSimple)
    (h : Returns s.lower g code g') :
    g' = g ∧ (∃ step, code = Code.ofInstrs step) ∧
      ∀ g₁ : Generator, g₁.context.AlikeOn s.names g.context → Returns s.lower g₁ code g₁ := by
  cases s with
  | assign x e =>
    simp only [lower, returns_bind, returns_lookup, returns_evaluate, returns_pure] at h ⊢
    obtain ⟨_, _, ⟨value, hv, rfl, rfl⟩, symbol, _, ⟨hx, rfl⟩, rfl, rfl⟩ := h
    refine ⟨rfl, ⟨_, (Code.ofInstrs_append _ _).symm⟩, fun g₁ halike => ?_⟩
    have hv₁ := (Expr.lower_congr (halike.mono (List.subset_cons_self x e.names))).trans hv
    have hx₁ := (halike.lookup (List.mem_cons_self (a := x))).trans hx
    exact ⟨_, _, ⟨value, hv₁, rfl, rfl⟩, symbol, _, ⟨hx₁, rfl⟩, rfl, rfl⟩
  | store x e =>
    simp only [lower, returns_bind, returns_lookup] at h ⊢
    obtain ⟨symbol, _, ⟨hx, rfl⟩, h⟩ := h
    split at h
    · exact absurd h not_returns_throw
    · rename_i t ht
      simp only [returns_bind, returns_evaluate, returns_pure] at h
      obtain ⟨_, _, ⟨value, hv, rfl, rfl⟩, rfl, rfl⟩ := h
      refine ⟨rfl, ⟨_, (Code.ofInstrs_append _ _).symm⟩, fun g₁ halike => ?_⟩
      have hv₁ := (Expr.lower_congr (halike.mono (List.subset_cons_self x e.names))).trans hv
      have hx₁ := (halike.lookup (List.mem_cons_self (a := x))).trans hx
      refine ⟨symbol, _, ⟨hx₁, rfl⟩, ?_⟩
      simp only [ht, returns_bind, returns_evaluate, returns_pure]
      exact ⟨_, _, ⟨value, hv₁, rfl, rfl⟩, rfl, rfl⟩
  | storeAt a e =>
    simp only [lower, returns_bind, returns_ask, returns_evaluate, returns_pure] at h ⊢
    obtain ⟨t, _, ⟨ht, rfl⟩, _, _, ⟨target, ha, rfl, rfl⟩, _, _, ⟨value, hv, rfl, rfl⟩, rfl,
      rfl⟩ := h
    refine ⟨rfl, ⟨target ++ value ++ t.storeIndirect, ?_⟩, fun g₁ halike => ?_⟩
    · rw [Code.ofInstrs_append, Code.ofInstrs_append]
    have hleft : g₁.context.AlikeOn a.names _ := halike.left rfl
    have hright : g₁.context.AlikeOn e.names _ := halike.right rfl
    have ht₁ := (Expr.readType_congr hleft.sameOn).trans ht
    have ha₁ := (Expr.lower_congr hleft).trans ha
    have hv₁ := (Expr.lower_congr hright).trans hv
    exact ⟨t, _, ⟨ht₁, rfl⟩, _, _, ⟨target, ha₁, rfl, rfl⟩, _, _, ⟨value, hv₁, rfl, rfl⟩, rfl, rfl⟩
  | step op x =>
    simp only [lower, returns_bind, returns_lookup] at h ⊢
    obtain ⟨symbol, _, ⟨hx, rfl⟩, h⟩ := h
    split at h
    · rename_i hp
      obtain ⟨rfl, rfl⟩ := returns_pure.1 h
      refine ⟨rfl, ⟨_, rfl⟩, fun g₁ halike => ?_⟩
      have hx₁ := (halike.lookup (List.mem_cons_self (a := x))).trans hx
      refine ⟨symbol, _, ⟨hx₁, rfl⟩, ?_⟩
      rw [if_pos hp]
      exact returns_pure.2 ⟨rfl, rfl⟩
    · exact absurd h not_returns_throw
  | run e =>
    cases e with
    | call f args =>
      simp only [lower, returns_bind, returns_ask, returns_pure] at h ⊢
      obtain ⟨call, _, ⟨hc, rfl⟩, rfl, rfl⟩ := h
      refine ⟨rfl, ⟨call, rfl⟩, fun g₁ halike => ?_⟩
      have hargs : g₁.context.AlikeOn (Expr.allNames args) _ := halike
      exact ⟨call, _, ⟨(Expr.lowerCall_congr hargs f false).trans hc, rfl⟩, rfl, rfl⟩
    | _ => cases hs
  | _ => cases hs

theorem returns_clause_of_isSimple {clause : Option Stmt} {g g' : Generator} {code : Code}
    (hs : clause.all isSimple) (h : Returns (lowerClause clause) g code g') :
    g' = g ∧ (∃ step, code = Code.ofInstrs step) ∧
      ∀ g₁ : Generator, g₁.context.AlikeOn (clause.elim [] names) g.context →
        Returns (lowerClause clause) g₁ code g₁ := by
  cases clause with
  | none =>
    simp only [lowerClause] at h ⊢
    obtain ⟨rfl, rfl⟩ := returns_pure.1 h
    exact ⟨rfl, ⟨[], rfl⟩, fun g₁ _ => returns_pure.2 ⟨rfl, rfl⟩⟩
  | some s =>
    simp only [lowerClause] at h ⊢
    exact returns_of_isSimple hs h

/-- **The last clause of a `for` loop is compiled where the body ends.** It comes after the body, in
the same scope, so that its names stand for what the body declares, and else for what they stand for
at the end of the head. It is compiled to the same instructions there if the body declares none of
its names. -/
theorem increment_after_body {init increment : Option Stmt} {condition : Option Expr}
    {body : List Stmt} {g g' : Generator} {code : Code} (hsimple : increment.all isSimple)
    (h : Returns (Stmt.forLoop init condition increment body).lower g code g') :
    ∃ n first test inner step size fillings, ∃ added : List Symbol, ∃ header last : Generator,
      Returns (forHeader init condition) g (n, first, test) header ∧
      Returns (lowerAll body) header inner last ∧
      Returns (lowerClause increment) last (Code.ofInstrs step) last ∧
      code = Code.loop size
        (Code.fillAll fillings (first ++ [.label (.forHead n)] ++ test ++ inner ++
          [.label (.forStep n)] ++ Code.ofInstrs step ++ [.instr (.jump (.forHead n))]))
        (.forDone n) (.forEnd n) ∧
      added.map Symbol.name = (body.flatMap newNames).reverse ∧
      (∀ x, last.context.lookup x =
        (added.find? (·.name == x)).elim (header.context.lookup x) Except.ok) ∧
      ((∀ x ∈ increment.elim [] names, x ∉ body.flatMap newNames) →
        Returns (lowerClause increment) header (Code.ofInstrs step) header) := by
  simp only [lower, returns_bind, returns_loop] at h
  obtain ⟨n, g₀, hn, _, g₅, scope, scopes, fillings, ⟨first, g₂, hfirst, h⟩, hp, hf, rfl, rfl⟩ := h
  obtain ⟨test, header, htest, h⟩ := Stmt.returns_test.1 h
  simp only [returns_bind, returns_pure] at h
  obtain ⟨inner, last, hbody, step, _, hstep, rfl, rfl⟩ := h
  -- Between the head and the last clause only the body declares, and the clause itself does not.
  obtain ⟨rfl, ⟨step, rfl⟩, hcongr⟩ := returns_clause_of_isSimple hsimple hstep
  obtain ⟨added, hnames, hextends⟩ := extends_lowerAll body hbody
  refine ⟨n, first, test, inner, step, _, fillings, added, header, _, ?_, hbody, hstep, rfl, hnames,
    hextends.lookup, fun huncaptured => hcongr header (hextends.alikeOn ?_)⟩
  · simp only [forHeader, returns_bind, returns_openScope]
    refine ⟨n, g₀, hn, _, _, ⟨rfl, rfl⟩, first, g₂, hfirst, ?_⟩
    cases condition <;> exact returns_bind.2 ⟨test, header, htest, returns_pure.2 ⟨rfl, rfl⟩⟩
  · intro x hx hmem
    rw [hnames, List.mem_reverse] at hmem
    exact huncaptured x hx hmem

/-- The body declares a variable that the last clause does not mention. -/
theorem increment_after_body_of_other : ∃ (g : Generator) (code : Code) (g' : Generator),
    (some (Stmt.step .increment "i")).all isSimple ∧
    Returns (Stmt.forLoop none none (some (.step .increment "i")) [.declare "j" "i32" none]).lower
      g code g' ∧
    ∃ head step, ∃ header : Generator, Returns (forHeader none none) g head header ∧
      Returns (lowerClause (some (.step .increment "i"))) header (Code.ofInstrs step) header := by
  let g : Generator := { context := { scopes := { scopes :=
    [{ Scope.empty 0 .function 0 with symbols := [⟨"i", .int32, 4⟩] }] } } }
  obtain ⟨code, g', h⟩ : ∃ code g', Returns (Stmt.forLoop none none (some (.step .increment "i"))
      [.declare "j" "i32" none]).lower g code g' := ⟨_, _, rfl⟩
  obtain ⟨n, first, test, _, step, _, _, _, header, _, hheader, _, _, _, _, _, hsame⟩ :=
    increment_after_body rfl h
  exact ⟨g, code, g', rfl, h, (n, first, test), step, header, hheader, hsame (by decide)⟩

end Stmt

/-- A variable of the body takes the place of the parameter in the last clause. -/
theorem FunctionDecl.increment_captured :
    (∃ p decl code g', Program.ofSource "fn f(i: i32) { for (; i < 3; i++) { } }" = .ok p ∧
      .function decl ∈ p.items ∧ Returns decl.lower (Generator.start {} p).1 code g' ∧
      Line.instr (.inc .dword (.frame (-8))) ∈ code) ∧
    ∃ p decl code g',
      Program.ofSource "fn f(i: i32) { for (; i < 3; i++) { var i: i32 = 0; } }" = .ok p ∧
      .function decl ∈ p.items ∧ Returns decl.lower (Generator.start {} p).1 code g' ∧
      Line.instr (.inc .dword (.frame 4)) ∈ code ∧
      Line.instr (.inc .dword (.frame (-8))) ∉ code := by
  constructor
  · obtain ⟨p, decl, code, g', hp, hmem, hr, h⟩ := exists_of_someFunction
      "fn f(i: i32) { for (; i < 3; i++) { } }"
      (fun _ _ code => decide (Line.instr (.inc .dword (.frame (-8))) ∈ code)) (by decide +kernel)
    exact ⟨p, decl, code, g', hp, hmem, hr, of_decide_eq_true h⟩
  · obtain ⟨p, decl, code, g', hp, hmem, hr, h⟩ := exists_of_someFunction
      "fn f(i: i32) { for (; i < 3; i++) { var i: i32 = 0; } }"
      (fun _ _ code => decide (Line.instr (.inc .dword (.frame 4)) ∈ code ∧
        Line.instr (.inc .dword (.frame (-8))) ∉ code)) (by decide +kernel)
    exact ⟨p, decl, code, g', hp, hmem, hr, of_decide_eq_true h⟩

end GLang
