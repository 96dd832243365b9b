import GLang.Proofs.Calls
import GLang.Proofs.Errors
import GLang.Proofs.Invariant

/-!
# Other numbers for string literals

What is compiled with another pool of literals comes out the same, but for the labels of the
literals: with the same errors, and with code in which only those labels have other numbers.
`Code.reindex ρ` puts `ρ k` for the number `k` of a literal.

* `Expr.lower_reindex`: so it is with expressions.
* `Gen.Tracks`: two runs that end alike, from states that are alike but for the pool.
* `Gen.Composed.tracks`, `FunctionDecl.tracks_lower`, `Generator.functions_reindex`: so it is with
  statements, with functions and with all functions of a program.

Code in which a name holds a comment may have been filled as text, and in a text there are no labels
to be found. So the code is only followed as long as it is plain: `Code.Reindexed`.
-/

namespace GLang

open Asm Gen

variable {ρ : Nat → Nat}

/-! ### Code -/

namespace Asm

/-- A label with another number, if it is the label of a literal. -/
def Label.reindex (ρ : Nat → Nat) : Label → Label
  | literal k => literal (ρ k)
  | l => l

/-- Only the instruction that pushes a label can have the label of a literal. -/
def Instr.reindex (ρ : Nat → Nat) : Instr → Instr
  | pushLabel l => pushLabel (l.reindex ρ)
  | i => i

def Line.reindex (ρ : Nat → Nat) : Line → Line
  | instr i => instr (i.reindex ρ)
  | line => line

/-- Code with other numbers for the literals. -/
def Code.reindex (ρ : Nat → Nat) (code : Code) : Code :=
  code.map (Line.reindex ρ)

theorem Instr.map_reindex_of_moves {is : List Instr} (h : Moves is) :
    is.map (Instr.reindex ρ) = is := by
  have hall : ∀ i ∈ is, i.reindex ρ = i := by
    refine h.forall_mem (fun i hi => ?_) rfl
    cases i with
    | pushLabel => cases hi
    | _ => rfl
  exact (List.map_congr_left hall).trans (List.map_id' is)

theorem Line.isPlain_reindex (line : Line) : (line.reindex ρ).isPlain = line.isPlain := by
  cases line with
  | instr i =>
    cases i with
    | pushLabel l => cases l <;> rfl
    | _ => rfl
  | _ => rfl

namespace Code

theorem reindex_append (c d : Code) : (c ++ d).reindex ρ = c.reindex ρ ++ d.reindex ρ :=
  List.map_append

theorem reindex_ofInstrs (is : List Instr) :
    (ofInstrs is).reindex ρ = ofInstrs (is.map (Instr.reindex ρ)) := by
  rw [reindex, ofInstrs, ofInstrs, List.map_map, List.map_map]
  rfl

theorem reindex_ofInstrs_of_moves {is : List Instr} (h : Moves is) :
    (ofInstrs is).reindex ρ = ofInstrs is := by
  rw [reindex_ofInstrs, Instr.map_reindex_of_moves h]

theorem isPlain_reindex (code : Code) : (code.reindex ρ).isPlain = code.isPlain := by
  simp only [isPlain, reindex, List.all_map]
  exact congrArg (code.all ·) (funext Line.isPlain_reindex)

theorem fillLine_reindex (m n : Nat) (code : Code) :
    (code.reindex ρ).fillLine m n = (code.fillLine m n).reindex ρ := by
  induction code with
  | nil => rfl
  | cons line code ih =>
    cases line with
    | cleanup k =>
      show fillLine m n (.cleanup k :: reindex ρ code) = _
      rw [fillLine, fillLine]
      split
      · rw [reindex_append, reindex_ofInstrs_of_moves (moves_release n)]
      · exact congrArg (.cleanup k :: ·) ih
    | label l => exact congrArg (.label l :: ·) ih
    | instr i => exact congrArg (.instr (i.reindex ρ) :: ·) ih
    | verbatim text => exact congrArg (.verbatim text :: ·) ih

/-- Code, and the same code with other numbers for the literals, as long as it is plain. -/
def Reindexed (ρ : Nat → Nat) (c c' : Code) : Prop :=
  c.isPlain → c' = c.reindex ρ

namespace Reindexed

variable {c c' d d' : Code}

/-- Code without literals. -/
theorem same (h : c.reindex ρ = c) : Reindexed ρ c c :=
  fun _ => h.symm

theorem of_moves {is : List Instr} (h : Moves is) : Reindexed ρ (ofInstrs is) (ofInstrs is) :=
  same (reindex_ofInstrs_of_moves h)

theorem of_isOwn (h : c.isOwn) : Reindexed ρ c c := by
  have hsame : ∀ line ∈ c, line.reindex ρ = line := by
    intro line hline
    have hown := List.all_eq_true.1 h line hline
    cases line with
    | instr i =>
      cases i with
      | pushLabel => cases hown
      | _ => rfl
    | _ => rfl
  exact same ((List.map_congr_left hsame).trans (List.map_id' c))

theorem append (hc : Reindexed ρ c c') (hd : Reindexed ρ d d') :
    Reindexed ρ (c ++ d) (c' ++ d') := by
  intro hplain
  obtain ⟨hplain, hplain'⟩ := isPlain_append.1 hplain
  rw [hc hplain, hd hplain', reindex_append]

/-- Filling plain code does not look at the literals, and filled text is not plain. -/
theorem fill (h : Reindexed ρ c c') (m n : Nat) : Reindexed ρ (c.fill m n) (c'.fill m n) := by
  by_cases hplain : c.isPlain
  · obtain rfl := h hplain
    refine fun _ => ?_
    rw [Code.fill, Code.fill, if_pos hplain, if_pos ((isPlain_reindex c).trans hplain),
      fillLine_reindex]
  · intro hfilled
    rw [Code.fill, if_neg hplain] at hfilled
    cases hfilled

theorem fillAll (fillings : List (Nat × Nat)) : ∀ {c c' : Code}, Reindexed ρ c c' →
    Reindexed ρ (c.fillAll fillings) (c'.fillAll fillings) := by
  induction fillings with
  | nil => exact id
  | cons f fillings ih => exact fun h => ih (h.fill f.1 f.2)

end Reindexed

end Code

end Asm

/-! ### Expressions -/

/-- A literal has the number in the second pool that `ρ` gives for its number in the first one. -/
def LiteralPool.Sends (ρ : Nat → Nat) (P P' : LiteralPool) (raw : String) : Prop :=
  P'.label raw = (P.label raw).map (Label.reindex ρ)

namespace Expr

variable {ctx ctx' : Context}

theorem reindex_derefCode (ctx : Context) (e : Expr) :
    (derefCode ctx e).map (List.map (Instr.reindex ρ)) = derefCode ctx e := by
  unfold derefCode
  cases e.readType ctx with
  | error => rfl
  | ok t =>
    refine congrArg Except.ok (Instr.map_reindex_of_moves (.cons ?_ (moves_pushIndirect t)))
    split <;> rfl

theorem reindex_stepCode (ctx : Context) (op : StepOp) (e : Expr) :
    (stepCode ctx op e).map (List.map (Instr.reindex ρ)) = stepCode ctx op e := by
  cases hcode : stepCode ctx op e with
  | error => rfl
  | ok code =>
    obtain ⟨x, s, -, -, -, rfl⟩ := stepCode_eq_ok.1 hcode
    exact congrArg Except.ok (Instr.map_reindex_of_moves (s.moves_stepCode op))

theorem reindex_callCode (ctx : Context) (f : String) (count : Nat)
    (args : Except LoweringError (List Instr × Nat)) (keep : Bool) :
    callCode ctx f count (args.map (Prod.map (List.map (Instr.reindex ρ)) id)) keep =
      (callCode ctx f count args keep).map (List.map (Instr.reindex ρ)) := by
  unfold callCode
  cases ctx.functions.get f with
  | error => rfl
  | ok signature =>
    simp only [bind, Except.bind]
    split
    · rfl
    · cases args with
      | error => rfl
      | ok r =>
        have hrelease : ∀ n, (release n).map (Instr.reindex ρ) = release n :=
          fun n => Instr.map_reindex_of_moves (moves_release n)
        cases signature.result with
        | none =>
          cases keep with
          | true => rfl
          | false => simp [Except.map, pure, Except.pure, hrelease, Instr.reindex]
        | some t =>
          by_cases hp : t.isPrimitive <;> cases keep <;>
            simp [hp, Except.map, pure, Except.pure, hrelease, Instr.reindex]

/-- Code that is followed by more. -/
theorem bind_append_reindex {x x' y y' : Except LoweringError (List Instr)}
    (hx : x' = x.map (List.map (Instr.reindex ρ))) (hy : y' = y.map (List.map (Instr.reindex ρ))) :
    (do return (← x') ++ (← y') : Except LoweringError (List Instr)) =
      (do return (← x) ++ (← y) : Except LoweringError (List Instr)).map
        (List.map (Instr.reindex ρ)) := by
  subst hx hy
  cases x with
  | error => rfl
  | ok a =>
    cases y with
    | error => rfl
    | ok b => exact congrArg Except.ok List.map_append.symm

mutual

/-- **With another pool of literals, an expression has the same code but for the labels of
literals.** -/
theorem lower_reindex (hs : ctx.SameNames ctx') : ∀ e : Expr,
    (∀ raw ∈ e.strings, ctx.literals.Sends ρ ctx'.literals raw) →
    e.lower ctx' = (e.lower ctx).map (List.map (Instr.reindex ρ))
  | .int _, _ => by
    simp only [lower]
    rfl
  | .str raw, h => by
    have hraw : ctx.literals.Sends ρ ctx'.literals raw := h raw List.mem_cons_self
    rw [lower, lower, hraw]
    cases ctx.literals.label raw <;> rfl
  | .var x, _ => by
    rw [lower, lower, ← hs.lookup]
    cases ctx.lookup x with
    | error => rfl
    | ok s => exact congrArg Except.ok (Instr.map_reindex_of_moves s.moves_pushCode).symm
  | .addressOf x, _ => by
    rw [lower, lower, ← hs.lookup]
    cases ctx.lookup x <;> rfl
  | .deref e, h => by
    rw [lower, lower, ← arraySymbol?_congr (hs.on _), ← derefCode_congr (hs.on _)]
    have hcode := (reindex_derefCode (ρ := ρ) ctx e).symm
    split
    · exact bind_append_reindex (x := .ok []) rfl hcode
    · exact bind_append_reindex (lower_reindex hs e h) hcode
  | .cast e _, h => by
    rw [lower, lower]
    exact lower_reindex hs e h
  | .binary op l r, h => by
    obtain ⟨hl, hr⟩ := List.forall_mem_append.1 h
    rw [lower, lower, lower_reindex hs l hl, lower_reindex hs r hr]
    cases l.lower ctx with
    | error => rfl
    | ok a =>
      cases r.lower ctx with
      | error => rfl
      | ok b =>
        refine congrArg Except.ok ?_
        rw [List.map_append, List.map_append, Instr.map_reindex_of_moves op.moves_code]
  | .negate e, h => by
    rw [lower, lower, lower_reindex hs e h]
    cases e.lower ctx <;> rfl
  | .step op .before e, h => by
    rw [lower, lower, ← stepCode_congr (hs.on _)]
    exact bind_append_reindex (reindex_stepCode ctx op e).symm (lower_reindex hs e h)
  | .step op .after e, h => by
    rw [lower, lower, ← stepCode_congr (hs.on _)]
    exact bind_append_reindex (lower_reindex hs e h) (reindex_stepCode ctx op e).symm
  | .call f args, h => by
    rw [lower, lower, ← callCode_congr hs.functions, lowerArgs_reindex hs args h, reindex_callCode]

theorem lowerArgs_reindex (hs : ctx.SameNames ctx') : ∀ args : List Expr,
    (∀ raw ∈ argsStrings args, ctx.literals.Sends ρ ctx'.literals raw) →
    lowerArgs ctx' args = (lowerArgs ctx args).map (Prod.map (List.map (Instr.reindex ρ)) id)
  | [], _ => by
    simp only [lowerArgs]
    rfl
  | e :: rest, h => by
    obtain ⟨he, hrest⟩ := List.forall_mem_append.1 h
    rw [lowerArgs, lowerArgs, lowerArgs_reindex hs rest hrest, lower_reindex hs e he,
      ← pushedSize_congr (hs.on _)]
    cases lowerArgs ctx rest with
    | error => rfl
    | ok more =>
      cases e.lower ctx with
      | error => rfl
      | ok value =>
        cases e.pushedSize ctx with
        | error => rfl
        | ok size => exact congrArg (fun code => Except.ok (code, _)) List.map_append.symm

end

theorem lowerCall_reindex (hs : ctx.SameNames ctx') (f : String) (args : List Expr) (keep : Bool)
    (h : ∀ raw ∈ argsStrings args, ctx.literals.Sends ρ ctx'.literals raw) :
    lowerCall ctx' f args keep =
      (lowerCall ctx f args keep).map (List.map (Instr.reindex ρ)) := by
  unfold lowerCall
  rw [← callCode_congr hs.functions, lowerArgs_reindex hs args h, reindex_callCode]

end Expr

/-! ### Two runs -/

/-- Two outcomes that are alike: the same error, or two results that `R` relates. -/
inductive SameOutcome {ε α : Type} (R : α → α → Prop) : Except ε α → Except ε α → Prop
  | ok {a b : α} (h : R a b) : SameOutcome R (.ok a) (.ok b)
  | error (e : ε) : SameOutcome R (.error e) (.error e)

theorem SameOutcome.of_eq {ε α : Type} {x y : Except ε α} (h : x = y) : SameOutcome Eq x y := by
  subst h
  cases x with
  | error e => exact .error e
  | ok a => exact .ok rfl

theorem SameOutcome.of_map {ε α : Type} {f : α → α} {x y : Except ε α} (h : y = x.map f) :
    SameOutcome (fun a b => b = f a) x y := by
  subst h
  cases x with
  | error e => exact .error e
  | ok a => exact .ok rfl

/-- The context with another pool of literals. -/
def Context.withLiterals (ctx : Context) (P : LiteralPool) : Context :=
  { ctx with literals := P }

theorem Context.sameNames_withLiterals (ctx : Context) (P P' : LiteralPool) :
    (ctx.withLiterals P).SameNames (ctx.withLiterals P') :=
  ⟨rfl, rfl, fun _ => rfl⟩

/-- The generator with another pool of literals. -/
def Generator.withLiterals (g : Generator) (P : LiteralPool) : Generator :=
  { g with context := g.context.withLiterals P }

namespace Gen

variable {α β : Type} {P P' : LiteralPool} {R : α → α → Prop} {S : β → β → Prop}

/-- `p` with the pool `P` and `q` with the pool `P'` end alike, from any state and in the same
state. -/
def Tracks (P P' : LiteralPool) (R : α → α → Prop) (p q : Gen α) : Prop :=
  ∀ g : Generator, ∃ r r', ∃ g₁ : Generator, p.run.run (g.withLiterals P) = (r, g₁.withLiterals P) ∧
    q.run.run (g.withLiterals P') = (r', g₁.withLiterals P') ∧ SameOutcome R r r'

theorem tracks_pure {a b : α} (h : R a b) : Tracks P P' R (pure a) (pure b) :=
  fun g => ⟨.ok a, .ok b, g, rfl, rfl, .ok h⟩

theorem tracks_throw (e : LoweringError) : Tracks P P' R (throw e) (throw e) :=
  fun g => ⟨.error e, .error e, g, rfl, rfl, .error e⟩

theorem tracks_bind {p q : Gen α} {k k' : α → Gen β} (hp : Tracks P P' R p q)
    (hk : ∀ a b, R a b → Tracks P P' S (k a) (k' b)) : Tracks P P' S (p >>= k) (q >>= k') := by
  intro g
  obtain ⟨r, r', g₁, hrun, hrun', houtcome⟩ := hp g
  cases houtcome with
  | error e =>
    exact ⟨.error e, .error e, g₁, run_bind_error hrun, run_bind_error hrun', .error e⟩
  | ok hab =>
    obtain ⟨s, s', g₂, hnext, hnext', houtcome⟩ := hk _ _ hab g₁
    exact ⟨s, s', g₂, (run_bind_ok hrun).trans hnext, (run_bind_ok hrun').trans hnext', houtcome⟩

theorem tracks_ask {f f' : Context → Except LoweringError α}
    (h : ∀ c : Context, SameOutcome R (f (c.withLiterals P)) (f' (c.withLiterals P'))) :
    Tracks P P' R (ask f) (ask f') :=
  fun g => ⟨_, _, g, run_ask _ _, run_ask _ _, h g.context⟩

/-- Asking for something that has nothing to do with literals. -/
theorem tracks_ask_same {f : Context → Except LoweringError α}
    (h : ∀ c : Context, f (c.withLiterals P) = f (c.withLiterals P')) :
    Tracks P P' Eq (ask f) (ask f) :=
  tracks_ask fun c => .of_eq (h c)

theorem tracks_modify {f : Generator → Generator}
    (h : ∀ (g : Generator) (pool), f (g.withLiterals pool) = (f g).withLiterals pool) :
    Tracks P P' Eq (modify f) (modify f) :=
  fun g => ⟨.ok (), .ok (), f g, congrArg (Except.ok (), ·) (h g P),
    congrArg (Except.ok (), ·) (h g P'), .ok rfl⟩

theorem tracks_change {f : Context → Except LoweringError (α × Context)}
    (h : ∀ (c : Context) (pool), f (c.withLiterals pool) =
      (f c).map (Prod.map id (·.withLiterals pool))) :
    Tracks P P' Eq (change f) (change f) := by
  intro g
  have hP := h g.context P
  have hP' := h g.context P'
  cases hf : f g.context with
  | error e =>
    rw [hf] at hP hP'
    exact ⟨.error e, .error e, g, run_change_error hP, run_change_error hP', .error e⟩
  | ok r =>
    rw [hf] at hP hP'
    exact ⟨.ok r.1, .ok r.1, { g with context := r.2 }, run_change_ok hP, run_change_ok hP',
      .ok rfl⟩

theorem tracks_changeScopes (f : ScopeStack → Except LoweringError (α × ScopeStack)) :
    Tracks P P' Eq (changeScopes f) (changeScopes f) := by
  refine tracks_change fun c pool => ?_
  show (f c.scopes >>= _) = Except.map _ (f c.scopes >>= _)
  cases f c.scopes <;> rfl

theorem tracks_closeScope (kind : ScopeKind) : Tracks P P' Eq (closeScope kind) (closeScope kind) :=
  tracks_bind (tracks_changeScopes _) fun _ _ h => tracks_pure (congrArg Scope.localSize h)

theorem tracks_lookup (x : String) : Tracks P P' Eq (lookup x) (lookup x) :=
  tracks_ask_same fun _ => rfl

theorem tracks_freshLabel (kind : LabelKind) : Tracks P P' Eq (freshLabel kind) (freshLabel kind) :=
  tracks_change fun _ _ => rfl

theorem tracks_settle {loop : Nat} {code code' : Code} (h : code.Reindexed ρ code') :
    Tracks P P' (Code.Reindexed ρ) (settle loop code) (settle loop code') := by
  intro g
  refine ⟨_, _, { g with context := (g.context.settle loop).2 }, run_settle _ _ _,
    run_settle _ _ _, ?_⟩
  show SameOutcome _ ((g.context.settle loop).1.map _) ((g.context.settle loop).1.map _)
  cases (g.context.settle loop).1 with
  | error e => exact .error e
  | ok fillings => exact .ok (h.fillAll fillings)

theorem tracks_evaluate {e : Expr} (h : ∀ raw ∈ e.strings, P.Sends ρ P' raw) :
    Tracks P P' (Code.Reindexed ρ) (evaluate e) (evaluate e) := by
  refine tracks_bind (tracks_ask fun c => .of_map
    (Expr.lower_reindex (c.sameNames_withLiterals P P') e h)) fun is is' hcode => ?_
  subst hcode
  exact tracks_pure fun _ => (Code.reindex_ofInstrs is).symm

theorem tracks_block {body body' : Gen Code} (h : Tracks P P' (Code.Reindexed ρ) body body') :
    Tracks P P' (Code.Reindexed ρ) (block body) (block body') := by
  refine tracks_bind (tracks_changeScopes _) fun _ _ _ => tracks_bind h fun code code' hcode => ?_
  refine tracks_bind (tracks_closeScope .branch) fun size _ hsize => tracks_pure ?_
  subst hsize
  exact ((Code.Reindexed.of_moves (moves_reserve size)).append hcode).append
    (.of_moves (moves_release size))

theorem tracks_loop (kind : ScopeKind) (labels : LoopLabels) (done : Label) {body body' : Gen Code}
    (h : Tracks P P' (Code.Reindexed ρ) body body') :
    Tracks P P' (Code.Reindexed ρ) (loop kind labels done body) (loop kind labels done body') := by
  refine tracks_bind (tracks_changeScopes _) fun id _ hid =>
    tracks_bind h fun code code' hcode => ?_
  subst hid
  refine tracks_bind (tracks_closeScope kind) fun size _ hsize => ?_
  subst hsize
  refine tracks_bind (tracks_settle hcode) fun filled filled' hfilled => tracks_pure ?_
  exact ((((Code.Reindexed.of_moves (moves_reserve size)).append hfilled).append
    (.same rfl)).append (.of_moves (moves_release size))).append (.same rfl)

end Gen

/-! ### Statements -/

namespace Gen

variable {P P' : LiteralPool}

theorem tracks_resultCode :
    Tracks P P' (fun is is' => is' = is ∧ Moves is) Stmt.resultCode Stmt.resultCode := by
  have hget : Tracks P P' (fun g g' => g.resultType = g'.resultType) get get :=
    fun g => ⟨_, _, g, rfl, rfl, .ok rfl⟩
  refine tracks_bind hget fun g g' hresult => ?_
  rw [hresult]
  cases g'.resultType with
  | none => exact tracks_pure ⟨rfl, .cons rfl .nil⟩
  | some t =>
    by_cases hp : t.isPrimitive
    · simp only [hp]
      exact tracks_pure ⟨rfl, .cons rfl .nil⟩
    · simp only [hp]
      refine tracks_bind (tracks_lookup _) fun symbol _ hsymbol => tracks_pure ?_
      subst hsymbol
      exact ⟨rfl, .append (.cons rfl (moves_popCopy _ _)) (.cons rfl .nil)⟩

/-- **With another pool of literals, statements are compiled alike.** -/
theorem Composed.tracks {δ : LabelCounters} {f : String → String} {parts : List (String ⊕ Expr)}
    {stray : Bool} {new : List String} {p q : Gen Code} (h : Composed δ f parts stray new p q)
    (hparts : ∀ e, .inr e ∈ parts → ∀ raw ∈ e.strings, P.Sends ρ P' raw) :
    Tracks P P' (Code.Reindexed ρ) p p := by
  induction h with
  | own h => exact tracks_pure (.of_isOwn h)
  | fail => exact tracks_throw _
  | seq _ _ ih ih' =>
    exact tracks_bind (ih fun e he => hparts e (List.mem_append_left _ he)) fun _ _ hcode =>
      tracks_bind (ih' fun e he => hparts e (List.mem_append_right _ he)) fun _ _ hmore =>
      tracks_pure (hcode.append hmore)
  | value e => exact tracks_evaluate (hparts e List.mem_cons_self)
  | call name args =>
    rw [Stmt.lower]
    have hstrings := hparts _ List.mem_cons_self
    refine tracks_bind (tracks_ask fun c => .of_map (Expr.lowerCall_reindex
      (c.sameNames_withLiterals P P') name args false hstrings)) fun is _ his => ?_
    subst his
    exact tracks_pure fun _ => (Code.reindex_ofInstrs is).symm
  | type descriptor _ ih =>
    refine tracks_bind (tracks_ask_same fun _ => rfl) fun t _ ht => ?_
    subst ht
    exact ih t fun e he => hparts e (List.mem_cons_of_mem _ he)
  | address e _ ih =>
    refine tracks_bind (tracks_ask_same fun c =>
      Expr.readType_congr ((c.sameNames_withLiterals P P').on _)) fun t _ ht => ?_
    subst ht
    have hstrings : ∀ raw ∈ e.strings, P.Sends ρ P' raw := hparts e.deref List.mem_cons_self
    exact tracks_bind (tracks_evaluate hstrings) fun _ _ hcode =>
      tracks_bind (ih t fun e he => hparts e (List.mem_cons_of_mem _ he)) fun _ _ hmore =>
      tracks_pure (hcode.append hmore)
  | lookup x _ ih =>
    refine tracks_bind (tracks_lookup x) fun symbol _ hsymbol => ?_
    subst hsymbol
    exact ih symbol fun e he => hparts e (List.mem_cons_of_mem _ he)
  | declare x t _ ih =>
    refine tracks_bind (tracks_changeScopes _) fun symbol _ hsymbol => ?_
    subst hsymbol
    exact ih symbol hparts
  | result =>
    refine tracks_bind tracks_resultCode fun is _ hresult => tracks_pure ?_
    obtain ⟨rfl, hmoves⟩ := hresult
    exact .of_moves hmoves
  | label kind _ ih =>
    refine tracks_bind (tracks_freshLabel kind) fun n _ hn => ?_
    subst hn
    exact ih n hparts
  | block _ ih => exact tracks_block (ih hparts)
  | loop kind labels done _ _ _ _ _ ih => exact tracks_loop kind labels done (ih hparts)
  | breakLoop =>
    rw [Stmt.lower]
    refine tracks_bind (tracks_change fun c pool => ?_) fun marker _ hmarker => ?_
    · show (c.scopes.scopesToLoop >>= _) = Except.map _ (c.scopes.scopesToLoop >>= _)
      cases c.scopes.scopesToLoop <;> rfl
    · subst hmarker
      refine tracks_bind (tracks_ask_same fun _ => rfl) fun labels _ hlabels => ?_
      subst hlabels
      exact tracks_pure (.same rfl)
  | continueLoop =>
    rw [Stmt.lower]
    refine tracks_bind (tracks_change fun c pool => ?_) fun _ _ _ => ?_
    · show (Context.noteContinue _ >>= _) = Except.map _ (c.noteContinue >>= _)
      unfold Context.noteContinue
      rw [show (c.withLiterals pool).scopes = c.scopes from rfl]
      cases c.scopes.scopesToLoop <;> rfl
    · refine tracks_bind (tracks_ask_same fun _ => rfl) fun labels _ hlabels => ?_
      subst hlabels
      exact tracks_pure (.same rfl)

end Gen

/-! ### Functions -/

namespace FunctionDecl

variable {P P' : LiteralPool}

theorem tracks_forM_declare (params : List (String × Ty)) :
    Tracks P P' Eq (params.forM fun (name, t) => do let _ ← Gen.declare name t)
      (params.forM fun (name, t) => do let _ ← Gen.declare name t) := by
  induction params with
  | nil => exact tracks_pure rfl
  | cons param params ih =>
    exact tracks_bind (tracks_bind (tracks_changeScopes _) fun _ _ _ => tracks_pure rfl)
      fun _ _ (_ : _ = _) => ih

theorem tracks_declareParams (signature : FunctionSignature) :
    Tracks P P' Eq (declareParams signature) (declareParams signature) := by
  unfold declareParams
  cases signature.aggregate? with
  | none => exact tracks_forM_declare _
  | some t => exact tracks_bind (tracks_changeScopes _) fun _ _ _ => tracks_forM_declare _

/-- **With another pool of literals, a function is compiled alike.** -/
theorem tracks_lower {decl : FunctionDecl}
    (h : ∀ raw ∈ Stmt.blockStrings decl.body, P.Sends ρ P' raw) :
    Tracks P P' (Code.Reindexed ρ) decl.lower decl.lower := by
  unfold lower
  refine tracks_bind (tracks_modify fun _ _ => rfl) fun _ _ _ => ?_
  refine tracks_bind (tracks_ask_same fun _ => rfl) fun signature _ hsignature => ?_
  subst hsignature
  split
  · exact tracks_throw _
  refine tracks_bind (tracks_modify fun _ _ => rfl) fun _ _ _ => ?_
  refine tracks_bind (tracks_changeScopes _) fun _ _ _ => ?_
  refine tracks_bind (tracks_declareParams signature) fun _ _ _ => ?_
  refine tracks_bind (tracks_changeScopes _) fun _ _ _ => ?_
  have hparts : ∀ e, .inr e ∈ Stmt.blockParts decl.body → ∀ raw ∈ e.strings, P.Sends ρ P' raw :=
    fun e he raw hraw => h raw ((Stmt.covers_blockParts decl.body e he).2.1 hraw)
  refine tracks_bind ((Stmt.composed_lowerAll (δ := {}) (f := id) decl.body).tracks hparts)
    fun body body' hbody => ?_
  refine tracks_bind (tracks_closeScope .function) fun frame _ hframe => ?_
  subst hframe
  refine tracks_bind (tracks_closeScope .parameter) fun _ _ _ => tracks_pure ?_
  have hopen : Moves ([.pushReg .ebp, .move .ebp .esp] ++ reserve frame) :=
    .append (.of_isMove (by simp)) (moves_reserve frame)
  exact ((((Code.Reindexed.same rfl).append (.of_moves hopen)).append hbody).append
    (.same rfl)).append (.same rfl)

end FunctionDecl

namespace Generator

variable {P P' : LiteralPool}

/-- **With another pool of literals, all functions are compiled alike.** -/
theorem functions_reindex (items : List Item) : ∀ (g : Generator) (seen : List String),
    (∀ decl, .function decl ∈ items → ∀ raw ∈ Stmt.blockStrings decl.body, P.Sends ρ P' raw) →
    List.Forall₂ (Code.Reindexed ρ) ((g.withLiterals P).functions seen items).1
      ((g.withLiterals P').functions seen items).1 ∧
    ((g.withLiterals P).functions seen items).2.1 =
      ((g.withLiterals P').functions seen items).2.1 := by
  induction items with
  | nil => exact fun _ _ _ => ⟨.nil, rfl⟩
  | cons item items ih =>
    intro g seen h
    have hitems : ∀ decl, .function decl ∈ items →
        ∀ raw ∈ Stmt.blockStrings decl.body, P.Sends ρ P' raw :=
      fun decl hdecl => h decl (List.mem_cons_of_mem _ hdecl)
    cases item with
    | function decl =>
      rw [functions, functions]
      by_cases hseen : seen.contains decl.name
      · rw [if_pos hseen, if_pos hseen]
        exact ih g seen hitems
      · rw [if_neg hseen, if_neg hseen]
        by_cases hknown : !g.context.functions.contains decl.name
        · rw [if_pos (show !(g.withLiterals P).context.functions.contains decl.name from hknown),
            if_pos (show !(g.withLiterals P').context.functions.contains decl.name from hknown)]
          exact ih g _ hitems
        · rw [if_neg (show ¬ !(g.withLiterals P).context.functions.contains decl.name from hknown),
            if_neg (show ¬ !(g.withLiterals P').context.functions.contains decl.name from hknown)]
          obtain ⟨r, r', g₁, hrun, hrun', houtcome⟩ :=
            FunctionDecl.tracks_lower (h decl List.mem_cons_self) g
          rw [hrun, hrun']
          obtain ⟨hcodes, hdiagnostics⟩ := ih g₁ (decl.name :: seen) hitems
          cases houtcome with
          | error e => exact ⟨hcodes, congrArg (⟨decl.name, e⟩ :: ·) hdiagnostics⟩
          | ok hcode => exact ⟨.cons hcode hcodes, hdiagnostics⟩
    | external | struct => exact ih g seen hitems

end Generator

end GLang
