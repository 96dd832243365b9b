import GLang.Proofs.Errors
import GLang.Proofs.Listing
import GLang.Proofs.Residue

/-!
# Faults of the scopes

Opening and closing go in pairs, so a scope that is closed is the one that has been opened last, and
there is always a scope to declare a symbol in. The scopes that an exit leaves lie in its loop, so
they are closed when the loop is. The one fault that is left is an exit without a loop.

* `Gen.Fares names stray Q p g`: how `p` ends, started from `g`. If it returns, then in a state with
  `Q`, and there is no stray exit; if it fails, the error concerns what is compiled.
* `Gen.Composed.fares`, `FunctionDecl.fares_lower`: how statements and functions end.
* `Generator.scope_faults`: a fault of the scopes tells of a stray exit, and a function with a stray
  exit does not compile.
-/

namespace GLang

open Asm Gen

/-! ### States between statements -/

/-- A state between statements: `shells` are the live scopes. -/
structure Stays (d : Declarations) (shells : List Scope) (g : Generator) : Prop where
  steady : g.context.Steady d
  shells_eq : g.context.scopes.shells = shells

theorem Stays.literals_eq {d : Declarations} {shells : List Scope} {g : Generator}
    (h : Stays d shells g) : g.context.literals = d.literals :=
  congrArg (·.literals) h.steady.declarations

/-! ### Exits that are settled -/

theorem Context.blames_crossedSize {names : List String} {scopes : ScopeStack} {ids : List Nat}
    (h : ∀ id ∈ ids, id ∈ scopes.closed.map Prod.fst) : Blames names (crossedSize scopes ids) := by
  induction ids with
  | nil => exact blames_ok _
  | cons id ids ih =>
    obtain ⟨hid, hids⟩ := List.forall_mem_cons.1 h
    rw [crossedSize]
    split
    · rename_i hopen
      obtain ⟨entry, hentry, hfst⟩ := List.mem_map.1 hid
      have hne := List.lookup_eq_none_iff.1 hopen entry hentry
      exact absurd hfst.symm (by simpa using hne)
    · exact blames_bind (ih hids) fun _ _ => blames_pure _

theorem Context.blames_fillings {names : List String} {scopes : ScopeStack}
    {exits : List LoopExit}
    (h : ∀ e ∈ exits, ∀ id ∈ e.crossed, id ∈ scopes.closed.map Prod.fst) :
    Blames names (fillings scopes exits) := by
  induction exits with
  | nil => exact blames_ok _
  | cons e exits ih =>
    obtain ⟨he, hexits⟩ := List.forall_mem_cons.1 h
    cases e with
    | break_ =>
      exact blames_bind (blames_crossedSize he) fun _ _ =>
        blames_bind (ih hexits) fun _ _ => blames_pure _
    | continue_ =>
      rw [fillings]
      refine blames_bind (blames_crossedSize he) fun size _ => ?_
      dsimp only
      split
      · exact blames_bind (blames_throw trivial) fun _ _ => ih hexits
      · exact ih hexits

/-! ### How a run ends -/

namespace Gen

/-- **How `p` ends, started from `g`.** It returns only if there is no stray exit, and then in a
state with `Q`. An error concerns one of the variables `names`, a stray exit, or no symbol and no
scope at all. -/
structure Fares {α : Type} (names : List String) (stray : Prop) (Q : Generator → Prop) (p : Gen α)
    (g : Generator) : Prop where
  returns : ∀ {a g'}, Returns p g a g' → Q g' ∧ ¬ stray
  fails : ∀ {e g'}, p.run.run g = (.error e, g') → e.Concerns names stray

variable {α β : Type} {names : List String} {stray stray' : Prop} {Q R : Generator → Prop}
  {g g' : Generator}

theorem Fares.congr {p : Gen α} (h : Fares names stray Q p g) (hs : stray ↔ stray') :
    Fares names stray' Q p g :=
  propext hs ▸ h

theorem Fares.quiet {p : Gen α} (h : Fares names False Q p g) (hs : ¬ stray) :
    Fares names stray Q p g :=
  h.congr (iff_of_false id hs)

theorem fares_pure {a : α} (h : Q g) : Fares names False Q (pure a) g where
  returns hr := ⟨(returns_pure.1 hr).2 ▸ h, id⟩
  fails hr := by cases hr

theorem fares_throw {e : LoweringError} (h : e.Concerns names stray) :
    Fares names stray Q (throw e : Gen α) g where
  returns hr := absurd hr not_returns_throw
  fails hr := by
    cases hr
    exact h

theorem fares_bind {p : Gen α} {f : α → Gen β} (hp : Fares names stray Q p g)
    (hf : ∀ a g₁, Returns p g a g₁ → Q g₁ → Fares names stray' R (f a) g₁) :
    Fares names (stray ∨ stray') R (p >>= f) g where
  returns := by
    intro b g' hr
    obtain ⟨a, g₁, ha, hb⟩ := returns_bind.1 hr
    obtain ⟨hQ, hstray⟩ := hp.returns ha
    obtain ⟨hR, hstray'⟩ := (hf a g₁ ha hQ).returns hb
    exact ⟨hR, not_or.2 ⟨hstray, hstray'⟩⟩
  fails := by
    intro e g' hr
    rcases hrun : p.run.run g with ⟨e' | a, g₁⟩
    · rw [run_bind_error hrun] at hr
      cases hr
      exact (hp.fails hrun).mono (List.Subset.refl _) .inl
    · rw [run_bind_ok hrun] at hr
      exact ((hf a g₁ hrun (hp.returns hrun).1).fails hr).mono (List.Subset.refl _) .inr

theorem fares_seq {p : Gen α} {f : α → Gen β} (hp : Fares names False Q p g)
    (hf : ∀ a g₁, Returns p g a g₁ → Q g₁ → Fares names stray R (f a) g₁) :
    Fares names stray R (p >>= f) g :=
  (fares_bind hp hf).congr (by simp)

theorem Fares.map {p : Gen α} {f : α → β} (h : Fares names stray Q p g) :
    Fares names stray Q (p >>= fun a => pure (f a)) g :=
  (fares_bind h fun _ _ _ hQ => fares_pure hQ).congr (by simp)

theorem fares_of_returns {p : Gen α} {f : α → Gen β} {a : α} (hp : Returns p g a g')
    (hf : Fares names stray R (f a) g') : Fares names stray R (p >>= f) g where
  returns hr := hf.returns (by rw [Returns, run_bind_ok hp] at hr; exact hr)
  fails hr := hf.fails (by rw [run_bind_ok hp] at hr; exact hr)

theorem fares_ask {f : Context → Except LoweringError α} (hf : Blames names (f g.context))
    (h : Q g) : Fares names False Q (ask f) g where
  returns hr := ⟨(returns_ask.1 hr).2 ▸ h, id⟩
  fails hr := by
    rw [run_ask] at hr
    exact hf _ (congrArg Prod.fst hr)

theorem fares_lookup {x : String} (hx : x ∈ names) (h : Q g) :
    Fares names False Q (lookup x) g :=
  fares_ask (g.context.blames_lookup hx) h

theorem fares_change {f : Context → Except LoweringError (α × Context)}
    (hok : ∀ a c, f g.context = .ok (a, c) → Q { g with context := c } ∧ ¬ stray)
    (herror : ∀ e, f g.context = .error e → e.Concerns names stray) :
    Fares names stray Q (change f) g where
  returns hr := by
    obtain ⟨c, hc, rfl⟩ := returns_change.1 hr
    exact hok _ c hc
  fails := by
    intro e g' hr
    cases hf : f g.context with
    | error e' =>
      rw [run_change_error hf] at hr
      cases hr
      exact herror e hf
    | ok r =>
      rw [run_change_ok hf] at hr
      cases hr

variable {d : Declarations} {shells : List Scope}

theorem fares_evaluate {e : Expr} (hstrings : e.strings ⊆ d.literals.texts)
    (hnames : e.names ⊆ names) (h : Stays d shells g) :
    Fares names False (Stays d shells) (evaluate e) g := by
  refine (fares_ask ((e.blames_lower g.context ?_).mono hnames) h).map
  rw [h.literals_eq]
  exact hstrings

theorem fares_freshLabel {kind : LabelKind} (h : Stays d shells g) :
    Fares names False (Stays d shells) (freshLabel kind) g := by
  refine fares_change ?_ (blames_ok _)
  intro n c hc
  cases hc
  exact ⟨⟨(Context.stable_steady d).nextLabel kind h.steady, h.shells_eq⟩, id⟩

theorem fares_declare {x : String} {t : Ty} (hopen : shells ≠ []) (h : Stays d shells g) :
    Fares names False (Stays d shells) (declare x t) g := by
  unfold declare changeScopes
  refine fares_change ?_ ?_
  · intro symbol c hc
    obtain ⟨⟨symbol', scopes⟩, hd, hr⟩ := except_bind_eq_ok.1 hc
    cases hr
    refine ⟨⟨(Context.stable_steady d).declare hd h.steady, ?_⟩, id⟩
    obtain ⟨top, top', rest, hs, ha, rfl⟩ := ScopeStack.declare_eq_ok.1 hd
    show (top' :: rest).map Scope.shell = shells
    rw [← h.shells_eq, ScopeStack.shells, hs, List.map_cons, List.map_cons, Scope.shell_allocate ha]
  · refine blames_bind ?_ fun _ _ => blames_pure _
    show Blames names (g.context.scopes.declare x t)
    unfold ScopeStack.declare
    split
    · rename_i hempty
      have hshells := h.shells_eq
      rw [ScopeStack.shells, hempty] at hshells
      exact absurd hshells.symm hopen
    · exact blames_bind (Scope.blames_allocate _ _ _) fun _ _ => blames_pure _

/-! ### Blocks and loops -/

theorem returns_closeScope_of_stays {kind : ScopeKind} {shell : Scope} (hkind : shell.kind = kind)
    (h : Stays d (shell :: shells) g) :
    ∃ size g', Returns (closeScope kind) g size g' ∧ Stays d shells g' := by
  have hshells := h.shells_eq
  rw [ScopeStack.shells] at hshells
  obtain ⟨top, rest, hs, htop, hrest⟩ := List.map_eq_cons_iff.1 hshells
  have hpop : ∃ scope scopes, g.context.scopes.pop kind = .ok (scope, scopes) ∧
      scopes.shells = shells := by
    have hkind' : top.kind = kind := by
      rw [← hkind, ← htop]
      rfl
    exact ⟨_, _, ScopeStack.pop_eq_ok.2 ⟨top, rest, hs, hkind', rfl, rfl⟩, hrest⟩
  obtain ⟨scope, scopes, hpop, hlive⟩ := hpop
  exact ⟨_, _, returns_closeScope.2 ⟨scope, scopes, hpop, rfl, rfl⟩,
    (Context.stable_steady d).pop hpop h.steady, hlive⟩

theorem returns_openScope_of_stays (kind : ScopeKind) (labels : Option LoopLabels)
    (h : Stays d shells g) :
    ∃ shell g', Returns (openScope kind labels) g shell.id g' ∧ shell.kind = kind ∧
      shell.labels = labels ∧ (∀ s ∈ shells, s.id ≠ shell.id) ∧ Stays d (shell :: shells) g' := by
  refine ⟨{ Scope.empty g.context.scopes.nextId kind 0 with labels }, _,
    returns_openScope.2 ⟨rfl, rfl⟩, rfl, rfl, ?_, ?_⟩
  · intro s hs
    rw [← h.shells_eq] at hs
    exact Nat.ne_of_lt (h.steady.below s hs)
  · refine ⟨(Context.stable_steady d).openScope kind labels h.steady, ?_⟩
    rw [← h.shells_eq]
    rfl

theorem fares_block {body : Gen Code} (h : Stays d shells g)
    (hbody : ∀ shell g₁, shell.kind = .branch → shell.labels = none →
      Stays d (shell :: shells) g₁ → Fares names stray (Stays d (shell :: shells)) body g₁) :
    Fares names stray (Stays d shells) (block body) g := by
  obtain ⟨shell, g₁, hopen, hkind, hlabels, -, h₁⟩ := returns_openScope_of_stays .branch none h
  refine fares_of_returns hopen ?_
  refine (fares_bind (hbody shell g₁ hkind hlabels h₁) fun code g₂ _ h₂ => ?_).congr
    (or_iff_left id)
  obtain ⟨size, g₃, hclose, h₃⟩ := returns_closeScope_of_stays hkind h₂
  exact fares_of_returns hclose (fares_pure h₃)

theorem fares_settle {loop : Nat} {code : Code} (hloop : ∀ s ∈ shells, s.id ≠ loop)
    (h : Stays d shells g) : Fares names False (Stays d shells) (settle loop code) g where
  returns hr := by
    obtain ⟨fillings, -, -, rfl⟩ := returns_settle.1 hr
    exact ⟨⟨(Context.stable_steady d).settle loop h.steady, h.shells_eq⟩, id⟩
  fails := by
    intro e g' hr
    rw [run_settle] at hr
    have hlive : loop ∉ g.context.scopes.scopes.map Scope.id := by
      intro hmem
      obtain ⟨s, hs, hid⟩ := List.mem_map.1 hmem
      refine hloop s.shell ?_ hid
      rw [← h.shells_eq]
      exact List.mem_map_of_mem hs
    have hblames : Blames names (g.context.settle loop).1 := by
      simp only [Context.settle, List.partition_eq_filter_filter]
      refine Context.blames_fillings fun e he => ?_
      obtain ⟨hmem, hbelongs⟩ := List.mem_filter.1 he
      exact h.steady.accounted.closed_of_notMem hmem (eq_of_beq hbelongs ▸ hlive)
    cases hf : (g.context.settle loop).1 with
    | error e' =>
      rw [hf] at hr
      cases hr
      exact hblames _ hf
    | ok fillings =>
      rw [hf] at hr
      cases hr

theorem fares_loop {kind : ScopeKind} {labels : LoopLabels} {done : Label} {body : Gen Code}
    (h : Stays d shells g)
    (hbody : ∀ shell g₁, shell.kind = kind → shell.labels = some labels →
      Stays d (shell :: shells) g₁ → Fares names False (Stays d (shell :: shells)) body g₁) :
    Fares names False (Stays d shells) (loop kind labels done body) g := by
  obtain ⟨shell, g₁, hopen, hkind, hlabels, hnew, h₁⟩ :=
    returns_openScope_of_stays kind (some labels) h
  refine fares_of_returns hopen ?_
  refine fares_seq (hbody shell g₁ hkind hlabels h₁) fun code g₂ _ h₂ => ?_
  obtain ⟨size, g₃, hclose, h₃⟩ := returns_closeScope_of_stays hkind h₂
  -- No live scope has the number of the loop any more, as the number was fresh.
  exact fares_of_returns hclose (fares_settle hnew h₃).map

end Gen

/-! ### Exits -/

namespace ScopeStack

theorem exists_loopLabels {s : ScopeStack} (h : toLoop? s.scopes ≠ none) :
    ∃ labels, s.loopLabels = .ok labels := by
  have hlabels : ∀ scopes : List Scope, toLoop? scopes ≠ none →
      ∃ labels, scopes.findSome? (·.labels) = some labels := by
    intro scopes
    induction scopes with
    | nil => exact fun h => absurd rfl h
    | cons scope scopes ih =>
      intro h
      cases hscope : scope.labels with
      | some labels => exact ⟨labels, by simp [hscope]⟩
      | none =>
        have hrest : toLoop? scopes ≠ none := by
          intro hnone
          refine h ?_
          simp [toLoop?, hscope, hnone]
        obtain ⟨labels, hlabels⟩ := ih hrest
        exact ⟨labels, by simp [hscope, hlabels]⟩
  obtain ⟨labels, hfound⟩ := hlabels _ h
  exact ⟨labels, by rw [loopLabels, hfound]⟩

theorem toLoop?_branch {shell : Scope} (hkind : shell.kind = .branch) (shells : List Scope) :
    toLoop? (shell :: shells) = none ↔ toLoop? shells = none := by
  simp [toLoop?, hkind, ScopeKind.isLoop]

theorem toLoop?_loop {shell : Scope} {labels : LoopLabels} (hkind : shell.kind.isLoop)
    (hlabels : shell.labels = some labels) (shells : List Scope) :
    toLoop? (shell :: shells) ≠ none := by
  simp [toLoop?, hkind, hlabels]

end ScopeStack

namespace Gen

variable {names : List String} {d : Declarations} {shells : List Scope} {g : Generator} {α : Type}

/-- **An exit is stray where no loop is live,** and it is compiled where one is. -/
theorem fares_exit {note : Context → Except LoweringError (α × Context)}
    {f : Nat × List Nat → α × Context} {result : α → LoopLabels → Code}
    (hnote : note g.context = g.context.scopes.scopesToLoop >>= fun found => pure (f found))
    (hscopes : ∀ found, (f found).2.scopes = g.context.scopes)
    (hsteady : ∀ a c, note g.context = .ok (a, c) → c.Steady d) (h : Stays d shells g) :
    Fares names (ScopeStack.toLoop? shells = none) (Stays d shells) (do
      let a ← change note
      let labels ← ask (·.scopes.loopLabels)
      return result a labels : Gen Code) g := by
  have hlive : ScopeStack.toLoop? shells = ScopeStack.toLoop? g.context.scopes.scopes := by
    rw [← h.shells_eq, ScopeStack.shells, ScopeStack.toLoop?_shells]
  have hchange : Fares names (ScopeStack.toLoop? shells = none)
      (fun g₁ => Stays d shells g₁ ∧ ∃ labels, g₁.context.scopes.loopLabels = .ok labels)
      (change note) g := by
    refine fares_change ?_ ?_
    · intro a c hc
      have hc' := hc
      rw [hnote] at hc'
      obtain ⟨found, hfound, hr⟩ := except_bind_eq_ok.1 hc'
      have hloop : ScopeStack.toLoop? g.context.scopes.scopes ≠ none := by
        rw [ScopeStack.scopesToLoop_eq_ok.1 hfound]
        simp
      have hsame : c.scopes = g.context.scopes := by
        rw [← hscopes found, Except.ok.inj hr]
      refine ⟨⟨⟨hsteady a c hc, ?_⟩, ?_⟩, hlive ▸ hloop⟩
      · show c.scopes.shells = shells
        rw [hsame, h.shells_eq]
      · show ∃ labels, c.scopes.loopLabels = .ok labels
        rw [hsame]
        exact ScopeStack.exists_loopLabels hloop
    · intro e he
      rw [hnote, ScopeStack.scopesToLoop] at he
      cases hloop : ScopeStack.toLoop? g.context.scopes.scopes with
      | none =>
        rw [hloop] at he
        cases he
        exact ⟨rfl, hlive.trans hloop⟩
      | some found =>
        rw [hloop] at he
        cases he
  refine (fares_bind hchange fun a g₁ _ h₁ => ?_).congr (or_iff_left id)
  obtain ⟨h₁, labels, hlabels⟩ := h₁
  exact fares_of_returns (returns_ask.2 ⟨hlabels, rfl⟩) (fares_pure h₁)

theorem fares_resultCode (hslot : resultSlot ∈ names) (h : Stays d shells g) :
    Fares names False (Stays d shells) Stmt.resultCode g := by
  refine fares_of_returns (returns_get.2 ⟨rfl, rfl⟩) ?_
  cases g.resultType with
  | none => exact fares_pure h
  | some t =>
    by_cases hp : t.isPrimitive
    · simp only [hp]
      exact fares_pure h
    · simp only [hp]
      exact (fares_lookup hslot h).map

/-! ### Statements -/

/-- **How statements are compiled.** -/
theorem Composed.fares {δ : LabelCounters} {f : String → String} {parts : List (String ⊕ Expr)}
    {stray : Bool} {new : List String} {p q : Gen Code} (h : Composed δ f parts stray new p q)
    (hslot : resultSlot ∈ names)
    (hparts : ∀ e, .inr e ∈ parts → e.names ⊆ names ∧ e.strings ⊆ d.literals.texts) :
    ∀ {shells : List Scope} {g : Generator}, Stays d shells g → shells ≠ [] →
    Fares names (ScopeStack.toLoop? shells = none ∧ stray) (Stays d shells) p g := by
  induction h with
  | own =>
    intro shells g h hopen
    exact (fares_pure h).quiet (by simp)
  | @fail _ e _ hsymbol hscope =>
    intro shells g h hopen
    refine fares_throw ?_
    cases e with
    | undefinedSymbol x => exact absurd rfl (hsymbol x)
    | scope fault => exact absurd rfl (hscope fault)
    | _ => trivial
  | seq _ _ ih ih' =>
    intro shells g h hopen
    have hfirst := ih (fun e he => hparts e (List.mem_append_left _ he)) h hopen
    exact (fares_bind hfirst fun code g₁ _ h =>
      (ih' (fun e he => hparts e (List.mem_append_right _ he)) h hopen).map).congr
        (by simp [and_or_left])
  | value e =>
    intro shells g h hopen
    obtain ⟨hnames, hstrings⟩ := hparts e List.mem_cons_self
    exact (fares_evaluate hstrings hnames h).quiet (by simp)
  | call name args =>
    intro shells g h hopen
    obtain ⟨hnames, hstrings⟩ := hparts _ List.mem_cons_self
    rw [Stmt.lower]
    refine Fares.quiet
      (fares_ask ((Expr.blames_lowerCall _ name args false ?_).mono hnames) h).map (by simp)
    rw [h.literals_eq]
    exact hstrings
  | type _ _ ih =>
    intro shells g h hopen
    exact fares_seq (fares_ask (Ty.blames_ofDescriptor _ _) h) fun t g₁ _ h =>
      ih t (fun e he => hparts e (List.mem_cons_of_mem _ he)) h hopen
  | address e _ ih =>
    intro shells g h hopen
    have he : e.names ⊆ names ∧ e.strings ⊆ d.literals.texts := hparts (.deref e) List.mem_cons_self
    exact fares_seq (fares_ask ((e.blames_readType _).mono he.1) h) fun t g₁ _ h =>
      fares_seq (fares_evaluate he.2 he.1 h) fun code g₂ _ h =>
      (ih t (fun e he => hparts e (List.mem_cons_of_mem _ he)) h hopen).map
  | lookup x _ ih =>
    intro shells g h hopen
    have hx : x ∈ names := (hparts (.var x) List.mem_cons_self).1 List.mem_cons_self
    exact fares_seq (fares_lookup hx h) fun symbol g₁ _ h =>
      ih symbol (fun e he => hparts e (List.mem_cons_of_mem _ he)) h hopen
  | declare x t _ ih =>
    intro shells g h hopen
    exact fares_seq (fares_declare hopen h) fun symbol g₁ _ h => ih symbol hparts h hopen
  | result =>
    intro shells g h hopen
    exact ((fares_resultCode hslot h).map).quiet (by simp)
  | label kind _ ih =>
    intro shells g h hopen
    exact fares_seq (fares_freshLabel h) fun n g₁ _ h => ih n hparts h hopen
  | block _ ih =>
    intro shells g h hopen
    refine fares_block h fun shell g₁ hkind _ h => ?_
    rw [← ScopeStack.toLoop?_branch hkind shells]
    exact ih hparts h (List.cons_ne_nil _ _)
  | loop kind labels done hloop _ _ _ _ ih =>
    intro shells g h hopen
    refine Fares.quiet (fares_loop h fun shell g₁ hkind hlabels h => ?_) (by simp)
    -- An exit in the loop leaves this loop or one in it.
    have hlive := ScopeStack.toLoop?_loop (hkind ▸ hloop) hlabels shells
    exact (ih hparts h (List.cons_ne_nil _ _)).congr (by simp [hlive])
  | breakLoop =>
    intro shells g h hopen
    simp only [Stmt.lower, and_true]
    exact fares_exit rfl (fun _ => rfl)
      (fun _ _ hc => (Context.stable_steady d).noteBreak hc h.steady) h
  | continueLoop =>
    intro shells g h hopen
    simp only [Stmt.lower, and_true]
    refine fares_exit (f := fun found => ((), { g.context with
      pending := g.context.pending ++ [.continue_ found.1 found.2.dropLast] })) ?_
      (fun _ => rfl) ?_ h
    · unfold Context.noteContinue
      cases g.context.scopes.scopesToLoop <;> rfl
    · intro _ c hc
      obtain ⟨c', hnote, hr⟩ := except_bind_eq_ok.1 hc
      cases hr
      exact (Context.stable_steady d).noteContinue hnote h.steady

end Gen

theorem Stmt.fares_lowerAll {names : List String} {d : Declarations} {body : List Stmt}
    (hslot : resultSlot ∈ names) {shells : List Scope} {g : Generator} (h : Stays d shells g)
    (hopen : shells ≠ []) (hstrings : blockStrings body ⊆ d.literals.texts)
    (hnames : blockMentions body ⊆ names) :
    Fares names (ScopeStack.toLoop? shells = none ∧ blockStrays body) (Stays d shells)
      (lowerAll body) g := by
  refine (composed_lowerAll (δ := {}) (f := id) body).fares hslot (fun e he => ?_) h hopen
  obtain ⟨hn, hs, -⟩ := covers_blockParts body e he
  exact ⟨List.Subset.trans hn hnames, List.Subset.trans hs hstrings⟩

/-! ### Functions -/

namespace FunctionDecl

variable {names : List String} {d : Declarations}

theorem fares_forM_declare (params : List (String × Ty)) : ∀ {shells : List Scope} {g : Generator},
    shells ≠ [] → Stays d shells g →
    Fares names False (Stays d shells)
      (params.forM fun (name, t) => do let _ ← Gen.declare name t) g := by
  induction params with
  | nil => exact fun _ h => fares_pure h
  | cons param params ih =>
    intro shells g hopen h
    exact fares_seq (fares_declare hopen h).map fun _ _ _ h => ih hopen h

theorem fares_declareParams (signature : FunctionSignature) {shells : List Scope} {g : Generator}
    (hopen : shells ≠ []) (h : Stays d shells g) :
    Fares names False (Stays d shells) (declareParams signature) g := by
  unfold declareParams
  cases signature.aggregate? with
  | none => exact fares_forM_declare _ hopen h
  | some t => exact fares_seq (fares_declare hopen h) fun _ _ _ h => fares_forM_declare _ hopen h

theorem fares_lowerWith (decl : FunctionDecl) (signature : FunctionSignature) {g : Generator}
    (h : Stays d [] g) (hstrings : Stmt.blockStrings decl.body ⊆ d.literals.texts) :
    Fares (resultSlot :: Stmt.blockMentions decl.body) (Stmt.blockStrays decl.body)
      (Stays d []) (decl.lowerWith signature) g := by
  obtain ⟨params, g₁, hopen, hkind, -, -, h₁⟩ := returns_openScope_of_stays .parameter none h
  refine fares_of_returns hopen ?_
  refine fares_seq (fares_declareParams signature (List.cons_ne_nil _ _) h₁) fun _ g₂ _ h₂ => ?_
  obtain ⟨locals, g₃, hopen', hkind', -, -, h₃⟩ := returns_openScope_of_stays .function none h₂
  refine fares_of_returns hopen' ?_
  -- Neither scope of a function is a loop: a stray exit of the body is one of the function.
  have hlost : ScopeStack.toLoop? [locals, params] = none := by
    simp [ScopeStack.toLoop?, hkind', ScopeKind.isLoop]
  refine (fares_bind (Stmt.fares_lowerAll List.mem_cons_self h₃ (List.cons_ne_nil _ _)
    hstrings (List.subset_cons_self _ _)) fun body g₄ _ h₄ => ?_).congr
      ((or_iff_left id).trans (by simp [hlost]))
  obtain ⟨frame, g₅, hclose, h₅⟩ := returns_closeScope_of_stays hkind' h₄
  obtain ⟨_, g₆, hclose', h₆⟩ := returns_closeScope_of_stays hkind h₅
  exact fares_of_returns hclose (fares_of_returns hclose' (fares_pure h₆))

/-- **How a function is compiled,** whatever has been compiled before it. -/
theorem fares_lower (decl : FunctionDecl) {g : Generator} (hd : g.context.toDeclarations = d)
    (hstrings : Stmt.blockStrings decl.body ⊆ d.literals.texts) :
    Fares (resultSlot :: Stmt.blockMentions decl.body) (Stmt.blockStrays decl.body)
      (Stays d []) decl.lower g := by
  unfold lower
  refine fares_of_returns (a := ()) (returns_modify.2 rfl) ?_
  have hbegin : Stays d [] { g with context := g.context.beginFunction } :=
    ⟨⟨hd, fun _ h => absurd h List.not_mem_nil, fun _ h => absurd h List.not_mem_nil⟩, rfl⟩
  refine fares_seq (fares_ask (FunctionTable.blames_get _ _) hbegin) fun signature g₁ _ h => ?_
  split
  · exact fares_seq (Q := Stays d []) (fares_throw trivial) fun _ _ hr _ =>
      absurd hr not_returns_throw
  · refine fares_of_returns (a := ()) (returns_modify.2 rfl) ?_
    exact fares_lowerWith decl signature ⟨h.steady, h.shells_eq⟩ hstrings

end FunctionDecl

/-! ### Programs -/

/-- `e` is the error that compiling a function ends with, in a program with the declarations `d`. -/
def FunctionDecl.FailsWith (decl : FunctionDecl) (d : Declarations) (e : LoweringError) : Prop :=
  ∃ g g' : Generator, g.context.toDeclarations = d ∧ decl.lower.run.run g = (.error e, g')

namespace Generator

/-- **Every definition gives its code or a diagnostic,** and there are no other diagnostics. -/
theorem outcome_functions (items : List Item) : ∀ (g : Generator) (seen : List String),
    (∀ diagnostic ∈ (g.functions seen items).2.1,
      ∃ decl ∈ Item.definitions g.context.functions seen items,
        decl.name = diagnostic.context ∧
        decl.FailsWith g.context.toDeclarations diagnostic.error) ∧
    ∀ decl ∈ Item.definitions g.context.functions seen items,
      (∃ code, decl.Gives g.context.toDeclarations code) ∨
      ∃ e, ⟨decl.name, e⟩ ∈ (g.functions seen items).2.1 := by
  induction items with
  | nil => simp [functions, Item.definitions]
  | cons item items ih =>
    intro g seen
    cases item with
    | function decl =>
      rw [functions, Item.definitions]
      by_cases hseen : seen.contains decl.name
      · rw [if_pos hseen, if_pos hseen]
        exact ih g seen
      · rw [if_neg hseen, if_neg hseen]
        by_cases hknown : !g.context.functions.contains decl.name
        · rw [if_pos hknown, if_pos hknown]
          exact ih g _
        · rw [if_neg hknown, if_neg hknown]
          -- A function leaves the declarations as they are, also where it fails.
          have hlower := decl.toDeclarations_lower g
          rcases hrun : decl.lower.run.run g with ⟨e | code, g₁⟩
          · rw [hrun] at hlower
            obtain ⟨hdiagnostics, hdefinitions⟩ := ih g₁ (decl.name :: seen)
            rw [hlower] at hdiagnostics hdefinitions
            refine ⟨List.forall_mem_cons.2 ⟨?_, ?_⟩, List.forall_mem_cons.2 ⟨?_, ?_⟩⟩
            · exact ⟨decl, List.mem_cons_self, rfl, g, g₁, rfl, hrun⟩
            · intro diagnostic h
              obtain ⟨decl', hdecl', h⟩ := hdiagnostics diagnostic h
              exact ⟨decl', List.mem_cons_of_mem _ hdecl', h⟩
            · exact .inr ⟨e, List.mem_cons_self⟩
            · intro decl' hdecl'
              exact (hdefinitions decl' hdecl').imp_right
                (Exists.imp fun e he => List.mem_cons_of_mem _ he)
          · rw [hrun] at hlower
            obtain ⟨hdiagnostics, hdefinitions⟩ := ih g₁ (decl.name :: seen)
            rw [hlower] at hdiagnostics hdefinitions
            refine ⟨?_, List.forall_mem_cons.2 ⟨?_, hdefinitions⟩⟩
            · intro diagnostic h
              obtain ⟨decl', hdecl', h⟩ := hdiagnostics diagnostic h
              exact ⟨decl', List.mem_cons_of_mem _ hdecl', h⟩
            · exact .inl ⟨code, g, g₁, rfl, hrun⟩
    | external | struct => exact ih g seen

theorem outcome_generate (g : Generator) (p : Program) :
    (∀ ds, (g.generate p).1 = .error ds → ∀ diagnostic ∈ ds,
      diagnostic ∈ (Declarations.add {} p).2 ∨
      ∃ decl ∈ Item.definitions (Declarations.add {} p).1.functions [] p.items,
        decl.name = diagnostic.context ∧
        decl.FailsWith (Declarations.add {} p).1 diagnostic.error) ∧
    ∀ decl ∈ Item.definitions (Declarations.add {} p).1.functions [] p.items,
      (∃ code, decl.Gives (Declarations.add {} p).1 code) ∨
      ∃ ds e, (g.generate p).1 = .error ds ∧ ⟨decl.name, e⟩ ∈ ds := by
  obtain ⟨hdiagnostics, hdefinitions⟩ := outcome_functions p.items (g.start p).1 []
  unfold generate
  simp only
  split
  · rename_i hempty
    have hnone := (List.append_eq_nil_iff.1 (List.isEmpty_iff.1 hempty)).2
    refine ⟨by simp, fun decl hdecl => ?_⟩
    rcases hdefinitions decl hdecl with hgives | ⟨e, he⟩
    · exact .inl hgives
    · rw [hnone] at he
      cases he
  · refine ⟨?_, fun decl hdecl => ?_⟩
    · intro ds h diagnostic hmem
      cases h
      exact (List.mem_append.1 hmem).imp_right (hdiagnostics diagnostic)
    · rcases hdefinitions decl hdecl with hgives | ⟨e, he⟩
      · exact .inl hgives
      · exact .inr ⟨_, e, rfl, List.mem_append_right _ he⟩

/-- **What the errors of a program concern.** -/
theorem concerns_of_generate {g : Generator} {p : Program} {ds : List Diagnostic}
    (h : (g.generate p).1 = .error ds) {diagnostic : Diagnostic} (hmem : diagnostic ∈ ds) :
    diagnostic.error.Concerns [] False ∨
    ∃ decl ∈ Item.definitions (Declarations.add {} p).1.functions [] p.items,
      decl.name = diagnostic.context ∧ diagnostic.error.Concerns
        (resultSlot :: Stmt.blockMentions decl.body) (Stmt.blockStrays decl.body) := by
  rcases (g.outcome_generate p).1 ds h diagnostic hmem with
    hadd | ⟨decl, hdecl, hname, g₁, g₂, hd, hrun⟩
  · exact .inl (Declarations.concerns_of_mem_add {} p diagnostic hadd)
  · have hitem := (Item.mem_of_mem_definitions hdecl).1
    have hfares := decl.fares_lower hd (Declarations.blockStrings_subset hitem {})
    exact .inr ⟨decl, hdecl, hname, hfares.fails hrun⟩

/-- **Faults of the scopes.** If there is one in a function, the function has a `break` or a
`continue` without a loop, and the fault tells so. A function with such a statement is rejected. -/
theorem scope_faults (g : Generator) (p : Program) :
    (∀ ds, (g.generate p).1 = .error ds → ∀ context fault, ⟨context, .scope fault⟩ ∈ ds →
      fault = .outsideLoop ∧
      ∃ decl ∈ Item.definitions (Declarations.add {} p).1.functions [] p.items,
        decl.name = context ∧ Stmt.blockStrays decl.body) ∧
    ∀ decl ∈ Item.definitions (Declarations.add {} p).1.functions [] p.items,
      Stmt.blockStrays decl.body → ∃ ds e, (g.generate p).1 = .error ds ∧ ⟨decl.name, e⟩ ∈ ds := by
  constructor
  · intro ds h context fault hmem
    rcases concerns_of_generate h hmem with ⟨-, hfalse⟩ | ⟨decl, hdecl, hname, hfault, hstrays⟩
    · exact hfalse.elim
    · exact ⟨hfault, decl, hdecl, hname, hstrays⟩
  · intro decl hdecl hstrays
    rcases (g.outcome_generate p).2 decl hdecl with ⟨code, g₁, g₂, hd, hreturns⟩ | hrejected
    · have hitem := (Item.mem_of_mem_definitions hdecl).1
      have hfares := decl.fares_lower hd (Declarations.blockStrings_subset hitem {})
      exact absurd hstrays (hfares.returns hreturns).2
    · exact hrejected

end Generator

end GLang
