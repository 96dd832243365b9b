import GLang.Proofs.Generated

/-!
# The code of a function

A function is compiled in a scope for its parameters and one for its body. The context at the start
of the body depends on the declarations of the program and the signature alone:
`FunctionSignature.entry`.

`FunctionDecl.emits_of_returns`: the code of a function that compiles is its frame around the code
that `Emits` describes, with every placeholder filled.
-/

namespace GLang

open Asm Gen

/-- Declares names one after another. -/
def ScopeStack.declareAll : ScopeStack → List (String × Ty) → Except LoweringError ScopeStack
  | s, [] => .ok s
  | s, (x, t) :: rest => do
    let (_, s) ← s.declare x t
    declareAll s rest

/-- What a function finds above its frame: the address for an aggregate result, and its
parameters. -/
def FunctionSignature.slots (signature : FunctionSignature) : List (String × Ty) :=
  match signature.aggregate? with
  | some t => (resultSlot, .pointer t) :: signature.params
  | none => signature.params

/-- The context at the start of the body of a function. -/
def FunctionSignature.entry (signature : FunctionSignature) (d : Declarations) :
    Except LoweringError Context := do
  let ctx : Context := { toDeclarations := d }
  let scopes ← (ctx.enter .parameter).scopes.declareAll signature.slots
  return { ctx with scopes }.enter .function

/-- The most bytes that nested blocks of a function reserve together. -/
def FunctionDecl.peak (d : Declarations) (decl : FunctionDecl) : Nat :=
  match d.functions.get decl.name >>= (·.entry d) with
  | .error _ => 0
  | .ok ctx => Stmt.peakAll ctx decl.body

theorem FunctionDecl.peak_eq {d : Declarations} {decl : FunctionDecl}
    {signature : FunctionSignature} {ctx : Context} (hs : d.functions.get decl.name = .ok signature)
    (he : signature.entry d = .ok ctx) : decl.peak d = Stmt.peakAll ctx decl.body := by
  have hentry : d.functions.get decl.name >>= (·.entry d) = .ok ctx :=
    except_bind_eq_ok.2 ⟨signature, hs, he⟩
  rw [peak, hentry]

theorem lookup_eq_some_of_mem {α β : Type} [BEq α] [LawfulBEq α] {l : List (α × β)} {a : α} {b : β}
    (h : (l.map Prod.fst).Nodup) (hq : (a, b) ∈ l) : l.lookup a = some b := by
  induction l with
  | nil => cases hq
  | cons q l ih =>
    obtain ⟨a', b'⟩ := q
    obtain ⟨ha, hl⟩ := List.nodup_cons.1 h
    rcases List.mem_cons.1 hq with heq | hmem
    · cases heq
      simp
    · have hne : a ≠ a' := by
        rintro rfl
        exact ha (List.mem_map.2 ⟨(a, b), hmem, rfl⟩)
      rw [List.lookup_cons, beq_false_of_ne hne]
      exact ih hl hmem

namespace ScopeStack

theorem declareAll_bare {slots : List (String × Ty)} :
    ∀ {s s' : ScopeStack}, s.declareAll slots = .ok s' → s.bare.declareAll slots = .ok s'.bare := by
  induction slots with
  | nil =>
    intro s s' h
    cases h
    rfl
  | cons slot slots ih =>
    intro s s' h
    obtain ⟨⟨symbol, s₁⟩, hd, h⟩ := except_bind_eq_ok.1 h
    exact except_bind_eq_ok.2 ⟨_, declare_bare hd, ih h⟩

theorem shells_declareAll {slots : List (String × Ty)} :
    ∀ {s s' : ScopeStack}, s.declareAll slots = .ok s' →
      s'.shells = s.shells ∧ s'.closed = s.closed ∧ s'.nextId = s.nextId := by
  induction slots with
  | nil =>
    intro s s' h
    cases h
    exact ⟨rfl, rfl, rfl⟩
  | cons slot slots ih =>
    intro s s' h
    obtain ⟨⟨symbol, s₁⟩, hd, h⟩ := except_bind_eq_ok.1 h
    obtain ⟨hshells, hclosed, hid⟩ := ih h
    obtain ⟨top, top', rest, hs, ha, rfl⟩ := declare_eq_ok.1 hd
    refine ⟨hshells.trans ?_, hclosed, hid⟩
    show (top' :: rest).map Scope.shell = s.scopes.map Scope.shell
    rw [hs, List.map_cons, List.map_cons, Scope.shell_allocate ha]

end ScopeStack

/-- **A draft outside loops is final.** All sizes are known, and no placeholder is left. -/
theorem Drafts.final {g g' : Generator} {code : Code} {after : Context}
    {P : (Nat → Nat) → Option Exit → Code → Prop} (h : Drafts g g' code after P)
    (hl : ScopeStack.toLoop? g.context.scopes.scopes = none)
    (hexit : ∀ size, exitOf size g.context.scopes.shells = none) :
    ∃ raw σ, code = raw.resolve σ ∧ P σ none raw ∧ raw.isPlain ∧ raw.markers.Nodup := by
  obtain ⟨raw, log, new, hdraft, hP⟩ := h.draft
  have hnew : new = [] := by
    refine List.eq_nil_iff_forall_not_mem.2 fun e he => ?_
    have := hdraft.loops e he
    rw [hl] at this
    cases this
  subst hnew
  have hclosed : (g'.context.scopes.closed.map Prod.fst).Nodup :=
    (List.nodup_append.1 hdraft.tidy.nodup).2.1
  have hnumbers : (log.map Prod.fst).Nodup := by
    rw [hdraft.numbers]
    exact List.nodup_range'
  -- Every scope has one size, and every placeholder one entry in the log.
  let size : Nat → Nat := fun id => (g'.context.scopes.closed.lookup id).getD 0
  let σ : Nat → Nat := fun m => wordSum (((log.lookup m).getD []).map size)
  have hsize : Measures size g'.context.scopes.closed := by
    intro q hq
    simp only [size, lookup_eq_some_of_mem hclosed hq, Option.getD_some]
  have hdrops : Drops size σ log := by
    intro q hq
    simp only [σ, lookup_eq_some_of_mem hnumbers hq, Option.getD_some]
  refine ⟨raw, σ, ?_, ?_, hdraft.plainRaw, by rw [hdraft.markers]; exact hnumbers⟩
  · rw [← hdraft.resolves size σ hsize hdrops, Code.resolve_eq_self hdraft.unfilled]
  · rw [← hexit size]
    exact hP size σ hsize hdrops fun _ _ he => absurd he List.not_mem_nil

namespace FunctionDecl

variable {g g' : Generator}

theorem returns_forM_declare {params : List (String × Ty)} {u : PUnit} :
    Returns (params.forM fun (name, t) => do let _ ← Gen.declare name t) g u g' ↔
      ∃ scopes, g.context.scopes.declareAll params = .ok scopes ∧ g' = g.withScopes scopes := by
  induction params generalizing g with
  | nil =>
    rw [List.forM, returns_pure]
    constructor
    · rintro ⟨-, rfl⟩
      exact ⟨_, rfl, rfl⟩
    · rintro ⟨scopes, h, rfl⟩
      cases h
      exact ⟨rfl, rfl⟩
  | cons param params ih =>
    rw [List.forM]
    simp only [returns_bind, returns_declare, returns_pure, ih]
    constructor
    · rintro ⟨_, _, ⟨symbol, _, ⟨scopes, hd, rfl⟩, -, rfl⟩, scopes', hall, rfl⟩
      exact ⟨scopes', except_bind_eq_ok.2 ⟨_, hd, hall⟩, rfl⟩
    · rintro ⟨scopes', h, rfl⟩
      obtain ⟨⟨symbol, scopes⟩, hd, hall⟩ := except_bind_eq_ok.1 h
      exact ⟨(), _, ⟨symbol, _, ⟨scopes, hd, rfl⟩, trivial, rfl⟩, scopes', hall, rfl⟩

theorem returns_declareParams {signature : FunctionSignature} {u : Unit} :
    Returns (declareParams signature) g u g' ↔
      ∃ scopes, g.context.scopes.declareAll signature.slots = .ok scopes ∧
        g' = g.withScopes scopes := by
  unfold declareParams FunctionSignature.slots
  cases signature.aggregate? with
  | none => exact returns_forM_declare
  | some t =>
    simp only [returns_bind, returns_declare]
    constructor
    · rintro ⟨symbol, _, ⟨scopes, hd, rfl⟩, h⟩
      obtain ⟨scopes', hall, rfl⟩ := returns_forM_declare.1 h
      exact ⟨scopes', except_bind_eq_ok.2 ⟨_, hd, hall⟩, rfl⟩
    · rintro ⟨scopes', h, rfl⟩
      obtain ⟨⟨symbol, scopes⟩, hd, hall⟩ := except_bind_eq_ok.1 h
      exact ⟨symbol, _, ⟨scopes, hd, rfl⟩, returns_forM_declare.2 ⟨scopes', hall, rfl⟩⟩

/-- The body of a function is compiled from `start` on, in the scopes of its parameters and its own,
if the function itself is compiled from `g` on. -/
structure Starts (signature : FunctionSignature) (g start : Generator) : Prop where
  entry : signature.entry g.context.toDeclarations = .ok start.context.bare
  resultType : start.resultType = signature.result
  labels : start.context.labels = g.context.labels
  tidy : start.context.Tidy
  outside : ScopeStack.toLoop? start.context.scopes.scopes = none
  exit : ∀ size, exitOf size start.context.scopes.shells = none

/-- The state in which the body of a function is compiled: the two scopes are open, and all slots
are declared in the outer one. -/
theorem starts_of_declareAll {signature : FunctionSignature} {g₁ g₂ g₃ start : Generator}
    {scopes : ScopeStack}
    (hg₁ : g₁ = { g with context := g.context.beginFunction, resultType := signature.result })
    (hg₂ : g₂ = g₁.withScopes (g₁.context.scopes.openScope .parameter none).2)
    (hslots : g₂.context.scopes.declareAll signature.slots = .ok scopes)
    (hg₃ : g₃ = g₂.withScopes scopes)
    (hstart : start = g₃.withScopes (g₃.context.scopes.openScope .function none).2) :
    Starts signature g start := by
  obtain ⟨hshells, hclosed, hid⟩ := ScopeStack.shells_declareAll hslots
  have ht₁ : g₁.context.Tidy := by
    subst hg₁
    exact ⟨List.nodup_nil, by simp [ScopeStack.ids, ScopeStack.shells, Context.beginFunction,
      ScopeStack.clear], fun e he => absurd he List.not_mem_nil,
      fun s hs => absurd hs List.not_mem_nil⟩
  have ht₂ : g₂.context.Tidy := by
    subst hg₂
    exact ht₁.openScope .parameter none (by simp)
  have ht₃ : g₃.context.Tidy := by
    subst hg₃
    exact ht₂.congr hshells hclosed hid rfl
  have hparams : ∀ size, exitOf size scopes.shells = none := by
    intro size
    rw [hshells]
    subst hg₂ hg₁
    rfl
  have hbare₂ : g₂.context.bare =
      Context.enter { toDeclarations := g.context.toDeclarations } .parameter := by
    subst hg₂ hg₁
    exact Context.bare_openScope _ _ _
  have hbare : start.context.bare = g₃.context.bare.enter .function := by
    subst hstart
    exact Context.bare_openScope _ _ _
  refine ⟨?_, ?_, ?_, ?_, ?_, fun size => ?_⟩
  · have hslots' := ScopeStack.declareAll_bare hslots
    rw [hbare]
    refine except_bind_eq_ok.2 ⟨scopes.bare, congrArg Context.scopes hbare₂ ▸ hslots', ?_⟩
    subst hg₃ hg₂ hg₁
    rfl
  · subst hstart hg₃ hg₂ hg₁
    rfl
  · subst hstart hg₃ hg₂ hg₁
    rfl
  · subst hstart
    exact ht₃.openScope .function none (by simp)
  · subst hstart
    rfl
  · subst hstart hg₃
    show (exitOf size scopes.shells).map _ = none
    rw [hparams size]
    rfl

/-- What compiling a function does: its body is compiled where its parameters are declared, and the
code is put into the frame of the function. -/
theorem body_of_returns {decl : FunctionDecl} {code : Code} (h : Returns decl.lower g code g') :
    ∃ signature start body last scope scopes,
      g.context.functions.get decl.name = .ok signature ∧ signature.external = false ∧
      Starts signature g start ∧ Returns (Stmt.lowerAll decl.body) start body last ∧
      last.context.scopes.pop .function = .ok (scope, scopes) ∧
      code = frameCode decl.name scope.localSize body ∧
      g'.context.labels = last.context.labels := by
  simp only [lower, returns_bind, returns_modify, returns_ask] at h
  obtain ⟨_, _, rfl, signature, _, ⟨hsignature, rfl⟩, h⟩ := h
  cases hexternal : signature.external with
  | true =>
    rw [hexternal, if_pos rfl] at h
    simp only [returns_bind] at h
    obtain ⟨_, _, h, -⟩ := h
    exact absurd h not_returns_throw
  | false =>
    rw [hexternal, if_neg Bool.false_ne_true] at h
    simp only [returns_bind, returns_modify, returns_openScope, returns_declareParams,
      returns_closeScope, returns_pure] at h
    obtain ⟨_, g₁, hg₁, _, g₂, ⟨-, hg₂⟩, _, g₃, ⟨scopes, hslots, hg₃⟩, _, start, ⟨-, hstart⟩, body,
      last, hbody, _, _, ⟨scope, scopes', hp, rfl, rfl⟩, _, _, ⟨_, _, -, -, rfl⟩, rfl, rfl⟩ := h
    exact ⟨signature, start, body, last, scope, scopes', hsignature, hexternal,
      starts_of_declareAll hg₁ hg₂ hslots hg₃ hstart, hbody, hp, rfl, rfl⟩

/-- **The code of a function is its frame around what `Emits` describes.** No placeholder of the
body is left. -/
theorem emits_of_returns {decl : FunctionDecl} {code : Code} (hw : decl.wellFormed)
    (h : Returns decl.lower g code g') :
    ∃ signature ctx raw σ,
      g.context.functions.get decl.name = .ok signature ∧ signature.external = false ∧
      signature.entry g.context.toDeclarations = .ok ctx ∧
      code = frameCode decl.name (ctx.pastAll decl.body).frameSize (raw.resolve σ) ∧
      Emits σ signature.result none ctx g.context.labels (.seq decl.body) raw g'.context.labels ∧
      raw.isPlain ∧ raw.markers.Nodup := by
  obtain ⟨signature, start, body, last, scope, scopes, hsignature, hexternal, hstarts, hbody, hp,
    rfl, hlabels⟩ := body_of_returns h
  have hdrafted := Stmt.drafted_lowerAll decl.body (by simp_all [FunctionDecl.wellFormed])
    hstarts.tidy hbody
  have hsize : scope.localSize = (start.context.bare.pastAll decl.body).frameSize := by
    rw [(Context.bare_pop hp).1, hdrafted.bare]
    rfl
  obtain ⟨raw, σ, hcode, hemits, hplain, hnodup⟩ := hdrafted.final hstarts.outside hstarts.exit
  rw [hstarts.resultType, hstarts.labels, ← hlabels] at hemits
  refine ⟨signature, start.context.bare, raw, σ, hsignature, hexternal, hstarts.entry, ?_, hemits,
    hplain, hnodup⟩
  rw [hcode, hsize]

end FunctionDecl

/-- Whether a source text has a function that compiles to code of which `check` holds. -/
def someFunction (source : String) (check : Generator → FunctionDecl → Code → Bool) : Bool :=
  match Program.ofSource source with
  | .error _ => false
  | .ok p => p.items.any fun
    | .function decl =>
      match decl.lower.run.run (Generator.start {} p).1 with
      | (.ok code, _) => check (Generator.start {} p).1 decl code
      | (.error _, _) => false
    | _ => false

theorem exists_of_someFunction (source : String) (check : Generator → FunctionDecl → Code → Bool)
    (h : someFunction source check) :
    ∃ p decl code g', Program.ofSource source = .ok p ∧ .function decl ∈ p.items ∧
      Returns decl.lower (Generator.start {} p).1 code g' ∧
      check (Generator.start {} p).1 decl code := by
  unfold someFunction at h
  split at h
  · cases h
  · rename_i p hp
    obtain ⟨item, hmem, hitem⟩ := List.any_eq_true.1 h
    split at hitem
    · rename_i decl
      split at hitem
      · rename_i code g' hrun
        exact ⟨p, decl, code, g', hp, hmem, hrun, hitem⟩
      · cases hitem
    · cases hitem

/-- Whether a source text can be read as a program of which `check` holds. -/
def someProgram (source : String) (check : Program → Bool) : Bool :=
  match Program.ofSource source with
  | .error _ => false
  | .ok p => check p

theorem exists_of_someProgram (source : String) (check : Program → Bool)
    (h : someProgram source check) : ∃ p, Program.ofSource source = .ok p ∧ check p := by
  unfold someProgram at h
  split at h
  · cases h
  · rename_i p hp
    exact ⟨p, hp, h⟩

end GLang
