import GLang.Proofs.Composition
import GLang.Proofs.Generated
import GLang.Proofs.Layout

/-!
# What a statement leaves behind

Statements open scopes, declare variables in them, note exits for their loops, and close them again.
What is left of this when a statement has been compiled is little: a declaration adds one symbol to
the innermost scope, and a `break` or `continue` that belongs to a loop around the statement waits
for that loop to be closed.

* `Scope.Grows`, `Scope.Extended`: declarations, one after another, in the innermost scope,
* `Generator.Extends`: what a run may leave behind. Blocks and loops leave nothing of their own:
  `Generator.Extends.block`, `Generator.Extends.loop`,
* `Gen.Composed.extends`: every run of the generator is of this kind,
* `Stmt.extends_innermost`: so a statement changes at most the innermost scope, and every exit that
  waits after it belongs to a live loop.
-/

namespace GLang

open Asm Gen

/-! ### Scopes that grow -/

namespace Scope

/-- `s'` is `s` after the declarations `added`, the last one first. -/
inductive Grows : List Symbol → Scope → Scope → Prop
  | refl (s : Scope) : Grows [] s s
  | declare {added : List Symbol} {s s' s'' : Scope} {x : String} {t : Ty} {symbol : Symbol}
      (h : Grows added s s') (ha : s'.allocate x t = .ok (symbol, s'')) :
      Grows (symbol :: added) s s''

namespace Grows

variable {added added' : List Symbol} {s s' s'' : Scope}

theorem trans (h : Grows added s s') (h' : Grows added' s' s'') :
    Grows (added' ++ added) s s'' := by
  induction h' with
  | refl => exact h
  | declare _ ha ih => exact .declare (ih h) ha

theorem eq_of_nil (h : Grows [] s s') : s' = s := by
  cases h
  rfl

theorem shell (h : Grows added s s') : s'.shell = s.shell := by
  induction h with
  | refl => rfl
  | declare _ ha ih => exact (shell_allocate ha).trans ih

theorem get? (h : Grows added s s') (x : String) :
    s'.get? x = (added.find? (·.name == x)).or (s.get? x) := by
  induction h with
  | refl => rfl
  | @declare added s s' s'' y t symbol _ ha ih =>
    obtain ⟨cursor, hnew, hname, -, rfl⟩ := allocate_eq_add ha
    rw [Scope.get?, add, List.find?_append, ← Scope.get?, List.find?_cons]
    by_cases hx : symbol.name == x
    · -- a scope takes no name twice
      have hnone : s'.get? x = none := by
        rw [← eq_of_beq hx, hname]
        exact hnew
      simp [hnone, hx]
    · simp [hx, ih]

end Grows

/-- Live scopes after the declarations `added` in the innermost of them. -/
inductive Extended (added : List Symbol) : List Scope → List Scope → Prop
  | nowhere (h : added = []) : Extended added [] []
  | innermost {s s' : Scope} {outer : List Scope} (h : s.Grows added s') :
      Extended added (s :: outer) (s' :: outer)

namespace Extended

variable {added added' : List Symbol} {scopes scopes' scopes'' : List Scope}

theorem refl (scopes : List Scope) : Extended [] scopes scopes := by
  cases scopes with
  | nil => exact .nowhere rfl
  | cons s outer => exact .innermost (.refl s)

theorem trans (h : Extended added scopes scopes') (h' : Extended added' scopes' scopes'') :
    Extended (added' ++ added) scopes scopes'' := by
  cases h with
  | nowhere h =>
    cases h' with
    | nowhere h' => exact .nowhere (by rw [h, h', List.append_nil])
  | innermost h =>
    cases h' with
    | innermost h' => exact .innermost (h.trans h')

theorem eq_of_nil (h : Extended [] scopes scopes') : scopes' = scopes := by
  cases h with
  | nowhere => rfl
  | innermost h => rw [h.eq_of_nil]

theorem shells (h : Extended added scopes scopes') :
    scopes'.map Scope.shell = scopes.map Scope.shell := by
  cases h with
  | nowhere => rfl
  | innermost h => rw [List.map_cons, List.map_cons, h.shell]

theorem toLoop? (h : Extended added scopes scopes') :
    ScopeStack.toLoop? scopes' = ScopeStack.toLoop? scopes := by
  rw [← ScopeStack.toLoop?_shells scopes', h.shells, ScopeStack.toLoop?_shells]

theorem findSome? (h : Extended added scopes scopes') (x : String) :
    scopes'.findSome? (·.get? x) =
      (added.find? (·.name == x)).or (scopes.findSome? (·.get? x)) := by
  cases h with
  | nowhere h =>
    rw [h]
    rfl
  | @innermost s s' outer h =>
    rw [List.findSome?_cons, List.findSome?_cons, h.get?]
    cases added.find? (·.name == x) <;> rfl

end Extended

end Scope

namespace ScopeStack

/-- In a block, the innermost loop is the one around the block. -/
theorem toLoop?_openScope_branch (s : ScopeStack) :
    (toLoop? (s.openScope .branch none).2.scopes).map Prod.fst =
      (toLoop? s.scopes).map Prod.fst := by
  show (toLoop? (_ :: s.scopes)).map Prod.fst = _
  rw [toLoop?, if_neg (by simp), if_neg (by simp [Scope.empty]), Option.map_map]
  rfl

/-- In a loop, the innermost loop is that loop. -/
theorem toLoop?_openScope_loop (s : ScopeStack) {kind : ScopeKind} (hk : kind.isLoop)
    (labels : LoopLabels) :
    (toLoop? (s.openScope kind (some labels)).2.scopes).map Prod.fst = some s.nextId := by
  show (toLoop? (_ :: s.scopes)).map Prod.fst = _
  rw [toLoop?, if_pos (by simp [Scope.empty, hk])]
  rfl

end ScopeStack

/-! ### Runs -/

namespace Generator

/-- What a run leaves behind: the declarations `added`, the last one first, in the innermost scope,
and exits that wait for the innermost loop. It may drop exits, but none of a loop that has been
there before. -/
structure Extends (added : List Symbol) (g g' : Generator) : Prop where
  declarations : g'.context.toDeclarations = g.context.toDeclarations
  scopes : Scope.Extended added g.context.scopes.scopes g'.context.scopes.scopes
  nextId : g.context.scopes.nextId ≤ g'.context.scopes.nextId
  waiting : ∀ e ∈ g.context.pending, e.loop < g.context.scopes.nextId → e ∈ g'.context.pending
  exits : ∃ kept fresh, g'.context.pending = kept ++ fresh ∧ kept.Sublist g.context.pending ∧
    ∀ e ∈ fresh, (ScopeStack.toLoop? g.context.scopes.scopes).map Prod.fst = some e.loop

namespace Extends

variable {added added' : List Symbol} {g g₁ g' : Generator}

/-- A run that leaves the scopes and the exits alone. -/
theorem of_same (hd : g'.context.toDeclarations = g.context.toDeclarations)
    (hs : g'.context.scopes = g.context.scopes) (hp : g'.context.pending = g.context.pending) :
    g.Extends [] g' where
  declarations := hd
  scopes := by
    rw [hs]
    exact .refl _
  nextId := Nat.le_of_eq (by rw [hs])
  waiting e he _ := by
    rw [hp]
    exact he
  exits := ⟨g.context.pending, [], by rw [hp, List.append_nil], .refl _,
    fun e he => absurd he List.not_mem_nil⟩

theorem refl (g : Generator) : g.Extends [] g :=
  of_same rfl rfl rfl

theorem trans (h : g.Extends added g₁) (h' : g₁.Extends added' g') :
    g.Extends (added' ++ added) g' where
  declarations := h'.declarations.trans h.declarations
  scopes := h.scopes.trans h'.scopes
  nextId := h.nextId.trans h'.nextId
  waiting e he hlt := h'.waiting e (h.waiting e he hlt) (Nat.lt_of_lt_of_le hlt h.nextId)
  exits := by
    obtain ⟨kept, fresh, hp, hkept, hfresh⟩ := h.exits
    obtain ⟨kept', fresh', hp', hkept', hfresh'⟩ := h'.exits
    -- What the second run keeps is in part what the first has noted.
    rw [hp] at hkept'
    obtain ⟨old, noted, rfl, hold, hnoted⟩ := List.sublist_append_iff.1 hkept'
    refine ⟨old, noted ++ fresh', by rw [hp', List.append_assoc], hold.trans hkept, ?_⟩
    rw [h.scopes.toLoop?] at hfresh'
    exact List.forall_mem_append.2 ⟨fun e he => hfresh e (hnoted.subset he), hfresh'⟩

/-- An exit is noted. -/
theorem note {e : LoopExit} {crossed : List Nat} (markers : Nat)
    (hl : ScopeStack.toLoop? g.context.scopes.scopes = some (e.loop, crossed)) :
    g.Extends [] { g with
      context := { g.context with markers, pending := g.context.pending ++ [e] } } where
  declarations := rfl
  scopes := .refl _
  nextId := Nat.le_refl _
  waiting e' he _ := List.mem_append_left _ he
  exits := ⟨g.context.pending, [e], rfl, .refl _, List.forall_mem_singleton.2 (by rw [hl]; rfl)⟩

/-- A scope that a run has opened and closed leaves no trace among the live scopes. -/
theorem scopes_of_pop {opened kind : ScopeKind} {labels : Option LoopLabels} {scope : Scope}
    {scopes : ScopeStack}
    (h : (g.withScopes (g.context.scopes.openScope opened labels).2).Extends added g₁)
    (hp : g₁.context.scopes.pop kind = .ok (scope, scopes)) :
    scopes.scopes = g.context.scopes.scopes ∧ g.context.scopes.nextId < scopes.nextId := by
  obtain ⟨top, rest, hs, -, -, rfl⟩ := ScopeStack.pop_eq_ok.1 hp
  refine ⟨?_, h.nextId⟩
  obtain hext : Scope.Extended added (_ :: g.context.scopes.scopes) (top :: rest) := hs ▸ h.scopes
  cases hext
  rfl

/-- An exit that a run notes for the innermost loop belongs to a loop that is live afterwards. -/
theorem exists_loop (h : g.Extends added g') {e : LoopExit}
    (he : (ScopeStack.toLoop? g.context.scopes.scopes).map Prod.fst = some e.loop) :
    ∃ s ∈ g'.context.scopes.scopes, s.id = e.loop ∧ s.kind.isLoop ∧ s.labels.isSome := by
  rw [← h.scopes.toLoop?] at he
  obtain ⟨⟨loop, crossed⟩, hl, rfl⟩ := Option.map_eq_some_iff.1 he
  exact ScopeStack.exists_of_toLoop? hl

theorem block {scope : Scope} {scopes : ScopeStack}
    (h : (g.withScopes (g.context.scopes.openScope .branch none).2).Extends added g₁)
    (hp : g₁.context.scopes.pop .branch = .ok (scope, scopes)) :
    g.Extends [] (g₁.withScopes scopes) := by
  obtain ⟨hscopes, hnext⟩ := h.scopes_of_pop hp
  obtain ⟨kept, fresh, hpending, hkept, hfresh⟩ := h.exits
  exact
    { declarations := h.declarations
      scopes := by
        show Scope.Extended [] _ scopes.scopes
        rw [hscopes]
        exact .refl _
      nextId := Nat.le_of_lt hnext
      waiting := fun e he hlt => h.waiting e he (Nat.lt_succ_of_lt hlt)
      exits := ⟨kept, fresh, hpending, hkept, fun e he =>
        (g.context.scopes.toLoop?_openScope_branch).symm.trans (hfresh e he)⟩ }

/-- The exits that are noted in a loop belong to it, and are settled when it is closed. -/
theorem loop {kind : ScopeKind} (hk : kind.isLoop) {labels : LoopLabels} {scope : Scope}
    {scopes : ScopeStack}
    (h : (g.withScopes (g.context.scopes.openScope kind (some labels)).2).Extends added g₁)
    (hp : g₁.context.scopes.pop kind = .ok (scope, scopes)) :
    g.Extends [] { g₁ with
      context := ((g₁.withScopes scopes).context.settle g.context.scopes.nextId).2 } := by
  obtain ⟨hscopes, hnext⟩ := h.scopes_of_pop hp
  obtain ⟨kept, fresh, hpending, hkept, hfresh⟩ := h.exits
  have hmine : ∀ e ∈ fresh, e.loop = g.context.scopes.nextId := fun e he =>
    Option.some.inj ((hfresh e he).symm.trans
      (g.context.scopes.toLoop?_openScope_loop hk labels))
  have hsettled : ((g₁.withScopes scopes).context.settle g.context.scopes.nextId).2.pending =
      g₁.context.pending.filter (not ∘ (·.loop == g.context.scopes.nextId)) := by
    simp only [Context.settle, List.partition_eq_filter_filter]
    rfl
  have hfresh_gone : fresh.filter (not ∘ (·.loop == g.context.scopes.nextId)) = [] :=
    List.filter_eq_nil_iff.2 fun e he => by simp [hmine e he]
  exact
    { declarations := h.declarations
      scopes := by
        show Scope.Extended [] _ scopes.scopes
        rw [hscopes]
        exact .refl _
      nextId := Nat.le_of_lt hnext
      waiting := by
        intro e he hlt
        rw [hsettled]
        refine List.mem_filter.2 ⟨h.waiting e he (Nat.lt_succ_of_lt hlt), ?_⟩
        simpa using Nat.ne_of_lt hlt
      exits := by
        refine ⟨kept.filter (not ∘ (·.loop == g.context.scopes.nextId)), [], ?_,
          List.filter_sublist.trans hkept, fun e he => absurd he List.not_mem_nil⟩
        rw [hsettled, hpending, List.filter_append, hfresh_gone] }

end Extends

end Generator

namespace Gen

variable {g g' : Generator} {code : Code}

theorem extends_declare {x : String} {t : Ty} {symbol : Symbol}
    (h : Returns (declare x t) g symbol g') : symbol.name = x ∧ g.Extends [symbol] g' := by
  obtain ⟨scopes, hd, rfl⟩ := returns_declare.1 h
  obtain ⟨top, top', rest, hs, ha, rfl⟩ := ScopeStack.declare_eq_ok.1 hd
  obtain ⟨_, -, hname, -⟩ := Scope.allocate_eq_add ha
  refine ⟨hname, ?_⟩
  exact
    { declarations := rfl
      scopes := by
        rw [hs]
        exact .innermost (.declare (.refl top) ha)
      nextId := Nat.le_refl _
      waiting := fun e he _ => he
      exits := ⟨g.context.pending, [], (List.append_nil _).symm, .refl _,
        fun e he => absurd he List.not_mem_nil⟩ }

theorem extends_freshLabel {kind : LabelKind} {n : Nat} (h : Returns (freshLabel kind) g n g') :
    g.Extends [] g' := by
  obtain ⟨-, rfl⟩ := returns_freshLabel.1 h
  exact .of_same rfl rfl rfl

theorem extends_noteBreak {marker : Nat} {ctx : Context}
    (h : g.context.noteBreak = .ok (marker, ctx)) : g.Extends [] { g with context := ctx } := by
  obtain ⟨⟨loop, crossed⟩, hl, hr⟩ := except_bind_eq_ok.1 h
  cases hr
  exact .note _ (ScopeStack.scopesToLoop_eq_ok.1 hl)

theorem extends_noteContinue {ctx : Context} (h : g.context.noteContinue = .ok ctx) :
    g.Extends [] { g with context := ctx } := by
  obtain ⟨⟨loop, crossed⟩, hl, hr⟩ := except_bind_eq_ok.1 h
  cases hr
  exact .note _ (ScopeStack.scopesToLoop_eq_ok.1 hl)

/-- **What a run leaves behind:** the new variables, in the innermost scope. -/
theorem Composed.extends {δ : LabelCounters} {f : String → String}
    {parts : List (String ⊕ Expr)} {stray : Bool} {new : List String} {p q : Gen Code}
    (h : Composed δ f parts stray new p q) : ∀ {g g' : Generator} {code : Code},
    Returns p g code g' → ∃ added, added.map Symbol.name = new ∧ g.Extends added g' := by
  induction h with
  | own =>
    intro g g' code hr
    obtain ⟨-, rfl⟩ := returns_pure.1 hr
    exact ⟨[], rfl, .refl _⟩
  | fail =>
    intro g g' code hr
    exact absurd hr not_returns_throw
  | seq _ _ ih ih' =>
    intro g g' code hr
    obtain ⟨_, g₁, _, hp, hq, -⟩ := returns_seq.1 hr
    obtain ⟨added, hadded, hextends⟩ := ih hp
    obtain ⟨added', hadded', hextends'⟩ := ih' hq
    exact ⟨added' ++ added, by rw [List.map_append, hadded, hadded'], hextends.trans hextends'⟩
  | value e =>
    intro g g' code hr
    obtain ⟨_, -, -, rfl⟩ := returns_evaluate.1 hr
    exact ⟨[], rfl, .refl _⟩
  | call =>
    intro g g' code hr
    simp only [Stmt.lower, returns_bind, returns_ask, returns_pure] at hr
    obtain ⟨_, _, ⟨-, rfl⟩, -, rfl⟩ := hr
    exact ⟨[], rfl, .refl _⟩
  | type _ _ ih =>
    intro g g' code hr
    obtain ⟨t, g₁, ht, hk⟩ := returns_bind.1 hr
    obtain ⟨-, rfl⟩ := returns_ask.1 ht
    exact ih t hk
  | address e _ ih =>
    intro g g' code hr
    obtain ⟨t, g₁, ht, hseq⟩ := returns_bind.1 hr
    obtain ⟨-, rfl⟩ := returns_ask.1 ht
    obtain ⟨_, g₂, _, he, hk, -⟩ := returns_seq.1 hseq
    obtain ⟨_, -, -, rfl⟩ := returns_evaluate.1 he
    exact ih t hk
  | lookup x _ ih =>
    intro g g' code hr
    obtain ⟨symbol, g₁, hx, hk⟩ := returns_bind.1 hr
    obtain ⟨-, rfl⟩ := returns_lookup.1 hx
    exact ih symbol hk
  | declare x t _ ih =>
    intro g g' code hr
    obtain ⟨symbol, g₁, hd, hk⟩ := returns_bind.1 hr
    obtain ⟨hname, hextends⟩ := extends_declare hd
    obtain ⟨added, hadded, hextends'⟩ := ih symbol hk
    refine ⟨added ++ [symbol], ?_, hextends.trans hextends'⟩
    rw [List.map_append, hadded, List.map_singleton, hname]
  | result =>
    intro g g' code hr
    simp only [returns_bind, Stmt.returns_resultCode, returns_pure] at hr
    obtain ⟨_, _, ⟨-, rfl⟩, -, rfl⟩ := hr
    exact ⟨[], rfl, .refl _⟩
  | label kind _ ih =>
    intro g g' code hr
    obtain ⟨n, g₁, hn, hk⟩ := returns_bind.1 hr
    obtain ⟨added, hadded, hextends⟩ := ih n hk
    exact ⟨added ++ [], by rw [List.append_nil, hadded], (extends_freshLabel hn).trans hextends⟩
  | block _ ih =>
    intro g g' code hr
    obtain ⟨inner, g₁, scope, scopes, hin, hp, -, rfl⟩ := returns_block.1 hr
    obtain ⟨added, -, hextends⟩ := ih hin
    exact ⟨[], rfl, hextends.block hp⟩
  | loop kind labels done hkind _ _ _ _ ih =>
    intro g g' code hr
    obtain ⟨inner, g₁, scope, scopes, fillings, hin, hp, -, -, rfl⟩ := returns_loop.1 hr
    obtain ⟨added, -, hextends⟩ := ih hin
    exact ⟨[], rfl, hextends.loop hkind hp⟩
  | breakLoop =>
    intro g g' code hr
    simp only [Stmt.lower, returns_bind, returns_change, returns_ask, returns_pure] at hr
    obtain ⟨_, _, ⟨ctx, hnote, rfl⟩, _, _, ⟨-, rfl⟩, -, rfl⟩ := hr
    exact ⟨[], rfl, extends_noteBreak hnote⟩
  | continueLoop =>
    intro g g' code hr
    simp only [Stmt.lower, returns_bind, returns_change, returns_ask, returns_pure] at hr
    obtain ⟨_, _, ⟨ctx, hnote, rfl⟩, _, _, ⟨-, rfl⟩, -, rfl⟩ := hr
    obtain ⟨ctx', hcontinue, hr⟩ := except_bind_eq_ok.1 hnote
    cases hr
    exact ⟨[], rfl, extends_noteContinue hcontinue⟩

end Gen

/-! ### Statements -/

namespace Stmt

/-- **Only a declaration adds to the innermost scope.** -/
theorem extends_lower (s : Stmt) {g g' : Generator} {code : Code} (h : Returns s.lower g code g') :
    ∃ added, added.map Symbol.name = s.newNames ∧ g.Extends added g' :=
  (composed (δ := {}) (f := id) s).extends h

theorem extends_lowerAll (body : List Stmt) {g g' : Generator} {code : Code}
    (h : Returns (lowerAll body) g code g') :
    ∃ added, added.map Symbol.name = (body.flatMap newNames).reverse ∧ g.Extends added g' :=
  (composed_lowerAll (δ := {}) (f := id) body).extends h

/-- A declaration declares its one symbol, with the type that it names. -/
theorem declares_of_returns {x type : String} {init : Option Expr} {g g' : Generator} {code : Code}
    (h : Returns (Stmt.declare x type init).lower g code g') :
    ∃ t symbol, g.context.typeOf type = .ok t ∧ Returns (Gen.declare x t) g symbol g' := by
  cases init with
  | none =>
    simp only [lower, returns_bind, returns_ask, returns_pure] at h
    obtain ⟨t, _, ⟨ht, rfl⟩, symbol, g₁, hd, -, rfl⟩ := h
    exact ⟨t, symbol, ht, hd⟩
  | some init =>
    simp only [lower, returns_bind, returns_ask, returns_evaluate, returns_pure] at h
    obtain ⟨t, _, ⟨ht, rfl⟩, _, _, ⟨_, -, -, rfl⟩, symbol, g₁, hd, -, rfl⟩ := h
    exact ⟨t, symbol, ht, hd⟩

theorem innermost_of_declare {x type : String} {init : Option Expr} {g g' : Generator} {code : Code}
    {inner : Scope} {outer : List Scope} (hlive : g.context.scopes.scopes = inner :: outer)
    (h : Returns (Stmt.declare x type init).lower g code g') :
    ∃ symbol cursor, symbol.name = x ∧ g.context.typeOf type = .ok symbol.type ∧
      g'.context.scopes.scopes = inner.add symbol cursor :: outer := by
  obtain ⟨t, symbol, ht, hd⟩ := declares_of_returns h
  obtain ⟨scopes, hscopes, rfl⟩ := returns_declare.1 hd
  obtain ⟨top, top', rest, hs, ha, rfl⟩ := ScopeStack.declare_eq_ok.1 hscopes
  obtain ⟨rfl, rfl⟩ := List.cons.inj (hlive.symm.trans hs)
  obtain ⟨cursor, -, hname, rfl, rfl⟩ := Scope.allocate_eq_add ha
  exact ⟨symbol, cursor, hname, ht, rfl⟩

theorem innermost_of_newNames {s : Stmt} {g g' : Generator} {code : Code} (hs : s.newNames = [])
    (h : Returns s.lower g code g') :
    g'.context.scopes.scopes = g.context.scopes.scopes := by
  obtain ⟨added, hnames, hextends⟩ := extends_lower s h
  rw [hs, List.map_eq_nil_iff] at hnames
  subst hnames
  exact hextends.scopes.eq_of_nil

/-- **A statement extends at most the innermost scope.** After a statement has been compiled the
live scopes are those before it. All but the innermost are unchanged. A declaration adds its one
symbol, with the type that it names, at the end of the innermost scope; any other statement leaves
that scope alone too. An exit that waits has been waiting before, or belongs to a live loop, and no
exit of an earlier loop has been dropped. -/
theorem extends_innermost {s : Stmt} {g g' : Generator} {code : Code} {inner : Scope}
    {outer : List Scope} (hlive : g.context.scopes.scopes = inner :: outer)
    (h : Returns s.lower g code g') :
    ∃ inner', g'.context.scopes.scopes = inner' :: outer ∧
      (inner'.id = inner.id ∧ inner'.kind = inner.kind ∧ inner'.start = inner.start ∧
        inner'.labels = inner.labels) ∧
      (∀ x type init, s = .declare x type init → ∃ symbol cursor, symbol.name = x ∧
        g.context.typeOf type = .ok symbol.type ∧ inner' = inner.add symbol cursor) ∧
      ((∀ x type init, s ≠ .declare x type init) → inner' = inner) ∧
      (∃ kept fresh, g'.context.pending = kept ++ fresh ∧ kept.Sublist g.context.pending ∧
        ∀ e ∈ fresh, ∃ loop ∈ g'.context.scopes.scopes,
          loop.id = e.loop ∧ loop.kind.isLoop ∧ loop.labels.isSome) ∧
      ∀ e ∈ g.context.pending, e.loop < g.context.scopes.nextId → e ∈ g'.context.pending := by
  obtain ⟨added, -, hextends⟩ := extends_lower s h
  obtain ⟨kept, fresh, hpending, hkept, hfresh⟩ := hextends.exits
  have hexits : ∃ kept fresh, g'.context.pending = kept ++ fresh ∧
      kept.Sublist g.context.pending ∧ ∀ e ∈ fresh, ∃ loop ∈ g'.context.scopes.scopes,
        loop.id = e.loop ∧ loop.kind.isLoop ∧ loop.labels.isSome :=
    ⟨kept, fresh, hpending, hkept, fun e he => hextends.exists_loop (hfresh e he)⟩
  cases s with
  | declare x type init =>
    obtain ⟨symbol, cursor, hname, ht, hscopes⟩ := innermost_of_declare hlive h
    refine ⟨_, hscopes, ⟨rfl, rfl, rfl, rfl⟩, fun y type' init' hs => ?_, fun hs => ?_, hexits,
      hextends.waiting⟩
    · cases hs
      exact ⟨symbol, cursor, hname, ht, rfl⟩
    · exact absurd rfl (hs x type init)
  | _ =>
    refine ⟨inner, (innermost_of_newNames rfl h).trans hlive, ⟨rfl, rfl, rfl, rfl⟩,
      fun x type init hs => ?_, fun _ => rfl, hexits, hextends.waiting⟩
    cases hs

/-- A `break` in a block that declares a variable: the block is gone, and its exit waits for the
loop around it. -/
theorem extends_innermost_of_break :
    ∃ (inner : Scope) (outer : List Scope) (g g' : Generator) (code : Code),
      g.context.scopes.scopes = inner :: outer ∧
      Returns (Stmt.branch (.mk (.int 1) [.declare "a" "i32" none, .breakLoop]) [] none).lower
        g code g' ∧
      g'.context.scopes.scopes = inner :: outer ∧
      g'.context.pending = [.break_ 1 0 [2, 1]] ∧
      ∃ loop ∈ g'.context.scopes.scopes, loop.id = 1 ∧ loop.kind.isLoop ∧ loop.labels.isSome := by
  let inner : Scope :=
    { Scope.empty 1 .whileLoop 0 with labels := some ⟨.whileHead 0, .whileEnd 0⟩ }
  let g : Generator :=
    { context := { scopes := { scopes := [inner, Scope.empty 0 .function 0], nextId := 2 } } }
  obtain ⟨code, g', hrun, hwaiting⟩ : ∃ code g', Returns (Stmt.branch (.mk (.int 1)
      [.declare "a" "i32" none, .breakLoop]) [] none).lower g code g' ∧
      g'.context.pending = [.break_ 1 0 [2, 1]] := ⟨_, _, rfl, rfl⟩
  have hlive : g.context.scopes.scopes = inner :: [Scope.empty 0 .function 0] := rfl
  obtain ⟨inner', hscopes, -, -, hsame, ⟨kept, fresh, hpending, hkept, hfresh⟩, -⟩ :=
    extends_innermost hlive hrun
  obtain rfl := hsame fun x type init h => by cases h
  obtain rfl := List.sublist_nil.1 hkept
  refine ⟨inner, _, g, g', code, hlive, hrun, hscopes, hwaiting, hfresh (.break_ 1 0 [2, 1]) ?_⟩
  rw [← List.nil_append fresh, ← hpending, hwaiting]
  exact List.mem_cons_self

end Stmt

end GLang
