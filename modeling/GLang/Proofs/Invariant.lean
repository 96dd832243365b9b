import GLang.Proofs.Composition

/-!
# What no compilation destroys

A function that does not compile stops somewhere in the middle, and the next one starts from the
state that it leaves. What is known of that state is what every operation on the context preserves,
`Context.Stable`. Then every run of the generator preserves it, also one that fails:
`Gen.Composed.preserves`, `FunctionDecl.preserves_lower`. None of them writes to the output.

The declarations of the program are such a property: `Generator.toDeclarations_after`.
-/

namespace GLang

open Asm

/-- A property of contexts that no operation of the generator destroys, apart from the start of the
next function. -/
structure Context.Stable (I : Context → Prop) : Prop where
  openScope : ∀ {c : Context} (kind labels), I c →
    I { c with scopes := (c.scopes.openScope kind labels).2 }
  pop : ∀ {c : Context} {kind scope scopes}, c.scopes.pop kind = .ok (scope, scopes) → I c →
    I { c with scopes }
  declare : ∀ {c : Context} {x t symbol scopes}, c.scopes.declare x t = .ok (symbol, scopes) → I c →
    I { c with scopes }
  nextLabel : ∀ {c : Context} (kind), I c → I (c.nextLabel kind).2
  noteBreak : ∀ {c c' : Context} {marker}, c.noteBreak = .ok (marker, c') → I c → I c'
  noteContinue : ∀ {c c' : Context}, c.noteContinue = .ok c' → I c → I c'
  settle : ∀ {c : Context} (loop), I c → I (c.settle loop).2

namespace Gen

variable {α β : Type}

/-! ### Runs that may fail -/

theorem run_ofExcept (x : Except LoweringError α) (g : Generator) :
    (ofExcept x : Gen α).run.run g = (x, g) := by
  cases x <;> rfl

theorem run_bind_error {p : Gen α} {f : α → Gen β} {g g₁ : Generator} {e : LoweringError}
    (h : p.run.run g = (.error e, g₁)) : (p >>= f).run.run g = (.error e, g₁) := by
  rw [ExceptT.run_bind, StateT.run_bind, h]
  rfl

theorem run_bind_ok {p : Gen α} {f : α → Gen β} {g g₁ : Generator} {a : α}
    (h : p.run.run g = (.ok a, g₁)) : (p >>= f).run.run g = (f a).run.run g₁ := by
  rw [ExceptT.run_bind, StateT.run_bind, h]
  rfl

theorem run_ask (f : Context → Except LoweringError α) (g : Generator) :
    (ask f).run.run g = (f g.context, g) :=
  run_ofExcept _ _

theorem run_change_error {f : Context → Except LoweringError (α × Context)} {g : Generator}
    {e : LoweringError} (h : f g.context = .error e) : (change f).run.run g = (.error e, g) := by
  refine (run_bind_ok (a := g) rfl).trans (run_bind_error ?_)
  rw [run_ofExcept, h]

theorem run_change_ok {f : Context → Except LoweringError (α × Context)} {g : Generator} {a : α}
    {c : Context} (h : f g.context = .ok (a, c)) :
    (change f).run.run g = (.ok a, { g with context := c }) :=
  returns_change.2 ⟨c, h, rfl⟩

theorem run_settle (loop : Nat) (code : Code) (g : Generator) :
    (settle loop code).run.run g =
      ((g.context.settle loop).1.map code.fillAll,
        { g with context := (g.context.settle loop).2 }) := by
  refine (run_bind_ok (a := g) rfl).trans ?_
  rcases g.context.settle loop with ⟨e | fillings, c⟩
  · exact (run_bind_ok (a := ()) rfl).trans (run_bind_error rfl)
  · exact (run_bind_ok (a := ()) rfl).trans (run_bind_ok rfl)

/-! ### Runs that preserve a property -/

/-- No run of `p` destroys `I` or changes the output, whatever its outcome. -/
def Preserves (I : Context → Prop) (p : Gen α) : Prop :=
  ∀ g : Generator, I g.context →
    I (p.run.run g).2.context ∧ (p.run.run g).2.output = g.output

variable {I : Context → Prop}

theorem Preserves.returns {p : Gen α} (hp : Preserves I p) {g g' : Generator} {a : α}
    (h : Returns p g a g') (hI : I g.context) : I g'.context := by
  have hrun := (hp g hI).1
  rw [show p.run.run g = (.ok a, g') from h] at hrun
  exact hrun

theorem preserves_pure (a : α) : Preserves I (pure a : Gen α) :=
  fun _ h => ⟨h, rfl⟩

theorem preserves_throw (e : LoweringError) : Preserves I (throw e : Gen α) :=
  fun _ h => ⟨h, rfl⟩

theorem preserves_get : Preserves I (get : Gen Generator) :=
  fun _ h => ⟨h, rfl⟩

theorem preserves_bind {p : Gen α} {f : α → Gen β} (hp : Preserves I p)
    (hf : ∀ a, Preserves I (f a)) : Preserves I (p >>= f) := by
  intro g h
  obtain ⟨h₁, hout⟩ := hp g h
  rcases hrun : p.run.run g with ⟨e | a, g₁⟩
  · rw [hrun] at h₁ hout
    rw [run_bind_error hrun]
    exact ⟨h₁, hout⟩
  · rw [hrun] at h₁ hout
    rw [run_bind_ok hrun]
    obtain ⟨h₂, hout'⟩ := hf a g₁ h₁
    exact ⟨h₂, hout'.trans hout⟩

theorem preserves_seq {p q : Gen Code} (hp : Preserves I p) (hq : Preserves I q) :
    Preserves I (p.seq q) :=
  preserves_bind hp fun _ => preserves_bind hq fun _ => preserves_pure _

theorem preserves_ask (f : Context → Except LoweringError α) : Preserves I (ask f) := by
  intro g h
  rw [run_ask]
  exact ⟨h, rfl⟩

theorem preserves_change {f : Context → Except LoweringError (α × Context)}
    (h : ∀ c a c', f c = .ok (a, c') → I c → I c') : Preserves I (change f) := by
  intro g hg
  cases hf : f g.context with
  | error e =>
    rw [run_change_error hf]
    exact ⟨hg, rfl⟩
  | ok r =>
    rw [run_change_ok hf]
    exact ⟨h _ _ _ hf hg, rfl⟩

theorem preserves_changeScopes {f : ScopeStack → Except LoweringError (α × ScopeStack)}
    (h : ∀ (c : Context) a scopes, f c.scopes = .ok (a, scopes) → I c → I { c with scopes }) :
    Preserves I (changeScopes f) := by
  refine preserves_change fun c a c' hc => ?_
  obtain ⟨⟨a', scopes⟩, hf, hr⟩ := except_bind_eq_ok.1 hc
  cases hr
  exact h c a scopes hf

theorem preserves_lookup (x : String) : Preserves I (lookup x) :=
  preserves_ask _

theorem preserves_evaluate (e : Expr) : Preserves I (evaluate e) :=
  preserves_bind (preserves_ask _) fun _ => preserves_pure _

theorem preserves_resultCode : Preserves I Stmt.resultCode := by
  refine preserves_bind preserves_get fun g => ?_
  cases g.resultType with
  | none => exact preserves_pure _
  | some t =>
    by_cases hp : t.isPrimitive
    · simp only [hp]
      exact preserves_pure _
    · simp only [hp]
      exact preserves_bind (preserves_lookup _) fun _ => preserves_pure _

variable (hI : Context.Stable I)

include hI

theorem preserves_openScope (kind : ScopeKind) (labels : Option LoopLabels) :
    Preserves I (openScope kind labels) := by
  refine preserves_changeScopes fun c id scopes hf => ?_
  cases hf
  exact hI.openScope kind labels

theorem preserves_closeScope (kind : ScopeKind) : Preserves I (closeScope kind) :=
  preserves_bind (preserves_changeScopes fun _ _ _ => hI.pop) fun _ => preserves_pure _

theorem preserves_declare (x : String) (t : Ty) : Preserves I (declare x t) :=
  preserves_changeScopes fun _ _ _ => hI.declare

theorem preserves_freshLabel (kind : LabelKind) : Preserves I (freshLabel kind) := by
  refine preserves_change fun c n c' hc => ?_
  cases hc
  exact hI.nextLabel kind

theorem preserves_noteBreak : Preserves I (change Context.noteBreak) :=
  preserves_change fun _ _ _ => hI.noteBreak

theorem preserves_noteContinue :
    Preserves I (change fun ctx => return ((), ← ctx.noteContinue)) := by
  refine preserves_change fun c _ c' hc => ?_
  obtain ⟨c₁, hnote, hr⟩ := except_bind_eq_ok.1 hc
  cases hr
  exact hI.noteContinue hnote

theorem preserves_settle (loop : Nat) (code : Code) : Preserves I (settle loop code) := by
  intro g h
  rw [run_settle]
  exact ⟨hI.settle loop h, rfl⟩

theorem preserves_block {body : Gen Code} (h : Preserves I body) : Preserves I (block body) :=
  preserves_bind (preserves_openScope hI _ _) fun _ => preserves_bind h fun _ =>
    preserves_bind (preserves_closeScope hI _) fun _ => preserves_pure _

theorem preserves_loop (kind : ScopeKind) (labels : LoopLabels) (done : Label) {body : Gen Code}
    (h : Preserves I body) : Preserves I (loop kind labels done body) :=
  preserves_bind (preserves_openScope hI _ _) fun _ => preserves_bind h fun _ =>
    preserves_bind (preserves_closeScope hI _) fun _ =>
      preserves_bind (preserves_settle hI _ _) fun _ => preserves_pure _

/-- **A run of the generator preserves what is stable,** also if it fails. -/
theorem Composed.preserves {δ : LabelCounters} {f : String → String}
    {parts : List (String ⊕ Expr)} {stray : Bool} {new : List String} {p q : Gen Code}
    (h : Composed δ f parts stray new p q) : Preserves I p := by
  induction h with
  | own => exact preserves_pure _
  | fail => exact preserves_throw _
  | seq _ _ ih ih' => exact preserves_seq ih ih'
  | value e => exact preserves_evaluate e
  | call =>
    rw [Stmt.lower]
    exact preserves_bind (preserves_ask _) fun _ => preserves_pure _
  | type _ _ ih => exact preserves_bind (preserves_ask _) ih
  | address e _ ih =>
    exact preserves_bind (preserves_ask _) fun t => preserves_seq (preserves_evaluate e) (ih t)
  | lookup x _ ih => exact preserves_bind (preserves_lookup x) ih
  | declare x t _ ih => exact preserves_bind (preserves_declare hI x t) ih
  | result => exact preserves_bind preserves_resultCode fun _ => preserves_pure _
  | label kind _ ih => exact preserves_bind (preserves_freshLabel hI kind) ih
  | block _ ih => exact preserves_block hI ih
  | loop kind labels done _ _ _ _ _ ih => exact preserves_loop hI kind labels done ih
  | breakLoop =>
    rw [Stmt.lower]
    exact preserves_bind (preserves_noteBreak hI) fun _ =>
      preserves_bind (preserves_ask _) fun _ => preserves_pure _
  | continueLoop =>
    rw [Stmt.lower]
    exact preserves_bind (preserves_noteContinue hI) fun _ =>
      preserves_bind (preserves_ask _) fun _ => preserves_pure _

end Gen

open Gen

/-! ### Functions -/

theorem Stmt.preserves_lowerAll {I : Context → Prop} (hI : Context.Stable I) (body : List Stmt) :
    Preserves I (lowerAll body) :=
  (composed_lowerAll (δ := {}) (f := id) body).preserves hI

namespace FunctionDecl

variable {I : Context → Prop} (hI : Context.Stable I)

include hI

theorem preserves_forM_declare (params : List (String × Ty)) :
    Preserves I (params.forM fun (name, t) => do let _ ← Gen.declare name t) := by
  induction params with
  | nil => exact preserves_pure _
  | cons param params ih =>
    exact preserves_bind (preserves_bind (preserves_declare hI _ _) fun _ => preserves_pure _)
      fun _ => ih

theorem preserves_declareParams (signature : FunctionSignature) :
    Preserves I (declareParams signature) := by
  unfold declareParams
  cases signature.aggregate? with
  | none => exact preserves_forM_declare hI _
  | some t =>
    exact preserves_bind (preserves_declare hI _ _) fun _ => preserves_forM_declare hI _

/-- **A run of the generator over a function preserves what is stable,** also if it fails. -/
theorem preserves_lower (hbegin : ∀ c : Context, I c → I c.beginFunction) (decl : FunctionDecl) :
    Preserves I decl.lower := by
  refine preserves_bind (fun g h => ⟨hbegin g.context h, rfl⟩) fun _ =>
    preserves_bind (preserves_ask _) fun signature => ?_
  have hbody : Preserves I (do
      modify ({ · with resultType := signature.result })
      let _ ← Gen.openScope .parameter none
      declareParams signature
      let _ ← Gen.openScope .function none
      let body ← Stmt.lowerAll decl.body
      let frame ← Gen.closeScope .function
      let _ ← Gen.closeScope .parameter
      return frameCode decl.name frame body : Gen Code) :=
    preserves_bind (fun _ h => ⟨h, rfl⟩) fun _ =>
    preserves_bind (preserves_openScope hI _ _) fun _ =>
      preserves_bind (preserves_declareParams hI _) fun _ =>
      preserves_bind (preserves_openScope hI _ _) fun _ =>
      preserves_bind (Stmt.preserves_lowerAll hI _) fun _ =>
      preserves_bind (preserves_closeScope hI _) fun _ =>
      preserves_bind (preserves_closeScope hI _) fun _ => preserves_pure _
  split
  · exact preserves_bind (preserves_throw _) fun _ => hbody
  · exact hbody

end FunctionDecl

/-! ### Declarations -/

/-- No operation changes what the declarations of the program say. -/
theorem Context.stable_declarations (d : Declarations) : Stable (·.toDeclarations = d) where
  openScope _ _ h := h
  pop _ h := h
  declare _ h := h
  nextLabel _ h := h
  noteBreak := by
    intro c c' marker hnote h
    obtain ⟨found, -, hr⟩ := except_bind_eq_ok.1 hnote
    cases hr
    exact h
  noteContinue := by
    intro c c' hnote h
    obtain ⟨found, -, hr⟩ := except_bind_eq_ok.1 hnote
    cases hr
    exact h
  settle _ h := h

/-- The state after functions have been compiled one after another, whatever came out of it. -/
def Generator.after (g : Generator) (decls : List FunctionDecl) : Generator :=
  decls.foldl (fun g decl => (decl.lower.run.run g).2) g

theorem FunctionDecl.toDeclarations_lower (decl : FunctionDecl) (g : Generator) :
    (decl.lower.run.run g).2.context.toDeclarations = g.context.toDeclarations :=
  (preserves_lower (Context.stable_declarations _) (fun _ h => h) decl g rfl).1

theorem FunctionDecl.output_lower (decl : FunctionDecl) (g : Generator) :
    (decl.lower.run.run g).2.output = g.output :=
  (preserves_lower (Context.stable_declarations _) (fun _ h => h) decl g rfl).2

theorem Generator.toDeclarations_after (decls : List FunctionDecl) : ∀ g : Generator,
    (g.after decls).context.toDeclarations = g.context.toDeclarations := by
  induction decls with
  | nil => exact fun _ => rfl
  | cons decl decls ih =>
    intro g
    exact (ih _).trans (decl.toDeclarations_lower g)

theorem Generator.output_after (decls : List FunctionDecl) : ∀ g : Generator,
    (g.after decls).output = g.output := by
  induction decls with
  | nil => exact fun _ => rfl
  | cons decl decls ih =>
    intro g
    exact (ih _).trans (decl.output_lower g)

end GLang
