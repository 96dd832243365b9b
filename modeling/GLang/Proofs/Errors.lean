import GLang.Proofs.Control

/-!
# What errors speak of

A symbol that is not found is a variable of the code that is compiled, and faults of the scopes do
not come from expressions, types or declarations.

* `LoweringError.Concerns names stray`: the errors that code with the variables `names` may end
  with.
* `Blames names x`: if `x` fails, then with such an error, and with no fault of the scopes. There is
  a rule for each way to build `x`.
* `Expr.blames_lower`: the code of an expression, if the pool has its string literals.
* `Declarations.concerns_of_mem_add`: the diagnostics of declarations.
-/

namespace GLang

open Asm

/-- The errors that code with the variables `names` may end with. The only fault of the scopes is
that an exit has no loop, if `stray` says that there is such an exit. -/
def LoweringError.Concerns (names : List String) (stray : Prop) : LoweringError → Prop
  | undefinedSymbol x => x ∈ names
  | scope fault => fault = .outsideLoop ∧ stray
  | _ => True

theorem LoweringError.Concerns.mono {names names' : List String} {stray stray' : Prop}
    {e : LoweringError} (h : e.Concerns names stray) (hnames : names ⊆ names')
    (hstray : stray → stray') : e.Concerns names' stray' := by
  cases e with
  | undefinedSymbol x => exact hnames h
  | scope fault => exact ⟨h.1, hstray h.2⟩
  | _ => trivial

/-- If `x` fails, its error concerns one of the variables `names`, and not the scopes. -/
def Blames {α : Type} (names : List String) (x : Except LoweringError α) : Prop :=
  ∀ e, x = .error e → e.Concerns names False

section Rules

variable {α β : Type} {names names' : List String}

theorem blames_ok (a : α) : Blames names (.ok a) := by
  intro e h
  cases h

theorem blames_pure (a : α) : Blames names (pure a) :=
  blames_ok a

theorem blames_error {e : LoweringError} (h : e.Concerns names False) :
    Blames names (.error e : Except LoweringError α) := by
  intro e' he
  cases he
  exact h

theorem blames_throw {e : LoweringError} (h : e.Concerns names False) :
    Blames names (throw e : Except LoweringError α) :=
  blames_error h

theorem blames_bind {x : Except LoweringError α} {f : α → Except LoweringError β}
    (hx : Blames names x) (hf : ∀ a, x = .ok a → Blames names (f a)) : Blames names (x >>= f) := by
  cases x with
  | error e => exact blames_error (hx e rfl)
  | ok a => exact hf a rfl

theorem Blames.mono {x : Except LoweringError α} (h : Blames names x) (hnames : names ⊆ names') :
    Blames names' x :=
  fun e he => (h e he).mono hnames id

end Rules

/-! ### Types and tables -/

theorem Ty.blames_ofChars {names : List String} (structs : StructTable) : ∀ (bound : Nat)
    (cs : List Char), Blames names (ofChars structs bound cs) := by
  intro bound
  induction bound with
  | zero => exact fun _ => blames_error trivial
  | succ bound ih =>
    intro cs
    rw [ofChars]
    split
    · exact blames_error trivial
    · exact blames_bind (ih _) fun _ _ => blames_pure _
    · split
      · exact blames_error trivial
      · split
        · exact blames_error trivial
        · refine blames_bind (ih _) fun _ _ => ?_
          unfold arrayOf
          split
          · exact blames_ok _
          · exact blames_error trivial
    · split
      · exact blames_ok _
      · split
        · exact blames_ok _
        · exact blames_error trivial

theorem Ty.blames_ofDescriptor {names : List String} (structs : StructTable) (descriptor : String) :
    Blames names (ofDescriptor structs descriptor) :=
  blames_ofChars structs _ _

theorem Ty.blames_read {names : List String} (operand : Expr) (t : Ty) :
    Blames names (Ty.read operand t) := by
  unfold Ty.read
  split
  · exact blames_ok _
  · exact blames_error trivial

theorem FunctionTable.blames_get {names : List String} (table : FunctionTable) (f : String) :
    Blames names (table.get f) := by
  unfold get
  split
  · exact blames_ok _
  · exact blames_error trivial

theorem Context.blames_lookup {names : List String} (ctx : Context) {x : String} (hx : x ∈ names) :
    Blames names (ctx.lookup x) := by
  unfold lookup ScopeStack.lookup
  split
  · exact blames_ok _
  · exact blames_error hx

/-- A literal of the pool has a label. -/
theorem LiteralPool.label_of_mem {pool : LiteralPool} {raw : String} (h : raw ∈ pool.texts) :
    pool.label raw = .ok (.literal (pool.texts.idxOf raw)) := by
  have hindex : pool.texts.idxOf? raw = some (pool.texts.idxOf raw) := by
    rw [List.idxOf_eq_getD_idxOf?]
    cases hfound : pool.texts.idxOf? raw with
    | none => simp_all
    | some k => rfl
  unfold label label?
  rw [hindex]
  rfl

theorem LiteralPool.mem_internAll {raw : String} {raws : List String} : ∀ {pool : LiteralPool},
    raw ∈ (pool.internAll raws).texts ↔ raw ∈ pool.texts ∨ raw ∈ raws := by
  induction raws with
  | nil => simp [internAll]
  | cons raw' raws ih =>
    intro pool
    have hintern : raw ∈ (pool.intern raw').texts ↔ raw ∈ pool.texts ∨ raw = raw' := by
      unfold intern
      split
      · rename_i hcontains
        refine ⟨.inl, ?_⟩
        rintro (h | rfl)
        · exact h
        · simpa using hcontains
      · simp
    rw [internAll, List.foldl_cons, ← internAll, ih, hintern, List.mem_cons, or_assoc]

theorem Scope.blames_allocate {names : List String} (s : Scope) (x : String) (t : Ty) :
    Blames names (s.allocate x t) := by
  unfold allocate
  split
  · exact blames_error trivial
  · split
    · exact blames_ok _
    · split
      · exact blames_error trivial
      · exact blames_ok _

/-! ### Types of expressions -/

namespace Expr

variable {ctx : Context} {names : List String}

theorem blames_mapM_lookup {xs : List String} (h : xs ⊆ names) :
    Blames names (xs.mapM ctx.lookup) := by
  induction xs with
  | nil => exact blames_pure _
  | cons x xs ih =>
    obtain ⟨hx, hxs⟩ := List.cons_subset.1 h
    rw [List.mapM_cons]
    exact blames_bind (ctx.blames_lookup hx) fun _ _ =>
      blames_bind (ih hxs) fun _ _ => blames_pure _

theorem blames_firstResult? (table : FunctionTable) (fs : List String) :
    Blames names (firstResult? table fs) := by
  induction fs with
  | nil => exact blames_ok _
  | cons f fs ih =>
    rw [firstResult?]
    refine blames_bind (table.blames_get f) fun s _ => ?_
    split
    · exact blames_pure _
    · exact ih

theorem blames_inferFromLeaves (ctx : Context) (e : Expr) :
    Blames e.names (inferFromLeaves ctx e) := by
  unfold inferFromLeaves
  refine blames_bind (blames_mapM_lookup e.variableNames_nodes_subset) fun symbols _ => ?_
  dsimp only
  split
  · exact blames_pure _
  · split
    · exact blames_pure _
    · refine blames_bind (blames_firstResult? _ _) fun result _ => ?_
      split
      · exact blames_pure _
      · split
        · exact blames_pure _
        · split
          · exact blames_pure _
          · split
            · exact blames_pure _
            · exact blames_error trivial

theorem blames_inferWith (ctx : Context) (e : Expr) {read : Option (Except LoweringError Ty)}
    (hread : ∀ t, read = some t → Blames e.names t) : Blames e.names (inferWith ctx e read) := by
  unfold inferWith
  split
  · exact Ty.blames_ofDescriptor _ _
  · split
    · rename_i x hx
      exact blames_bind (ctx.blames_lookup (mem_names_of_firstAddressOf? hx)) fun _ _ =>
        blames_pure _
    · split
      · rename_i t
        exact hread t rfl
      · exact blames_inferFromLeaves ctx e

/-- The first of two reads that is there. -/
theorem blames_orElse {a b : Option (Except LoweringError Ty)}
    (ha : ∀ t, a = some t → Blames names t) (hb : ∀ t, b = some t → Blames names t) :
    ∀ t, (a <|> b) = some t → Blames names t := by
  cases a with
  | none => exact hb
  | some => exact ha

mutual

theorem blames_infer (ctx : Context) : ∀ e : Expr, Blames e.names (infer ctx e)
  | .deref e => by
    rw [infer]
    exact blames_bind (blames_infer ctx e) fun _ _ => Ty.blames_read _ _
  | .binary op l r => by
    rw [infer]
    have hl := List.subset_append_left l.names r.names
    have hr := List.subset_append_right l.names r.names
    exact blames_inferWith ctx _ <|
      blames_orElse (fun t ht => (blames_derefHere? ctx l t ht).mono hl) <|
      blames_orElse (fun t ht => (blames_derefHere? ctx r t ht).mono hr) <|
      blames_orElse (fun t ht => (blames_derefBelow? ctx l t ht).mono hl)
        (fun t ht => (blames_derefBelow? ctx r t ht).mono hr)
  | .negate e => by
    rw [infer]
    exact blames_inferWith ctx _
      (blames_orElse (blames_derefHere? ctx e) (blames_derefBelow? ctx e))
  | .step _ _ e => by
    rw [infer]
    exact blames_inferWith ctx _
      (blames_orElse (blames_derefHere? ctx e) (blames_derefBelow? ctx e))
  | .cast _ _ | .int _ | .str _ | .var _ | .addressOf _ | .call _ _ => by
    rw [infer]
    exact blames_inferWith ctx _ (by simp)

theorem blames_derefHere? (ctx : Context) : ∀ (e : Expr) (t : Except LoweringError Ty),
    derefHere? ctx e = some t → Blames e.names t
  | .deref e, t, h => by
    rw [derefHere?] at h
    cases h
    exact blames_bind (blames_infer ctx e) fun _ _ => Ty.blames_read _ _
  | .binary _ _ _, _, h | .negate _, _, h | .step _ _ _, _, h | .cast _ _, _, h | .int _, _, h
  | .str _, _, h | .var _, _, h | .addressOf _, _, h | .call _ _, _, h => by simp [derefHere?] at h

theorem blames_derefBelow? (ctx : Context) : ∀ (e : Expr) (t : Except LoweringError Ty),
    derefBelow? ctx e = some t → Blames e.names t
  | .binary _ l r, t, h => by
    rw [derefBelow?] at h
    have hl := List.subset_append_left l.names r.names
    have hr := List.subset_append_right l.names r.names
    exact blames_orElse (fun t ht => (blames_derefHere? ctx l t ht).mono hl)
      (blames_orElse (fun t ht => (blames_derefHere? ctx r t ht).mono hr)
      (blames_orElse (fun t ht => (blames_derefBelow? ctx l t ht).mono hl)
        (fun t ht => (blames_derefBelow? ctx r t ht).mono hr))) t h
  | .deref e, t, h | .negate e, t, h | .step _ _ e, t, h | .cast e _, t, h => by
    rw [derefBelow?] at h
    exact blames_orElse (blames_derefHere? ctx e) (blames_derefBelow? ctx e) t h
  | .int _, _, h | .str _, _, h | .var _, _, h | .addressOf _, _, h | .call _ _, _, h => by
    simp [derefBelow?] at h

end

theorem blames_readType (ctx : Context) (e : Expr) : Blames e.names (e.readType ctx) :=
  blames_bind (blames_infer ctx e) fun _ _ => Ty.blames_read _ _

theorem blames_pushedSize (ctx : Context) : ∀ e : Expr, Blames e.names (e.pushedSize ctx)
  | .var x => by
    rw [pushedSize]
    exact blames_bind (ctx.blames_lookup List.mem_cons_self) fun _ _ => blames_pure _
  | .call f _ => by
    rw [pushedSize]
    refine blames_bind (FunctionTable.blames_get _ f) fun s _ => ?_
    split <;> exact blames_pure _
  | .deref e => by
    rw [pushedSize]
    exact blames_bind (blames_readType ctx e) fun _ _ => blames_pure _
  | .cast e _ => by
    rw [pushedSize]
    exact blames_pushedSize ctx e
  | .int _ | .str _ | .addressOf _ | .binary _ _ _ | .negate _ | .step _ _ _ => blames_pure _

/-! ### Code of expressions -/

theorem blames_derefCode (ctx : Context) (e : Expr) : Blames e.names (derefCode ctx e) :=
  blames_bind (blames_readType ctx e) fun _ _ => blames_pure _

theorem blames_stepCode (ctx : Context) (op : StepOp) (e : Expr) :
    Blames e.names (stepCode ctx op e) := by
  cases e with
  | var x =>
    refine blames_bind (ctx.blames_lookup List.mem_cons_self) fun symbol _ => ?_
    split
    · exact blames_pure _
    · exact blames_error trivial
  | _ => exact blames_error trivial

theorem blames_callCode (ctx : Context) (f : String) (count : Nat)
    {args : Except LoweringError (List Instr × Nat)} (keep : Bool) (hargs : Blames names args) :
    Blames names (callCode ctx f count args keep) := by
  unfold callCode
  refine blames_bind (FunctionTable.blames_get _ f) fun signature _ => ?_
  dsimp only
  split
  · refine blames_bind (blames_throw trivial) fun _ h => ?_
    cases h
  · refine blames_bind hargs fun r _ => ?_
    split
    · split
      · exact blames_bind (blames_throw trivial) fun _ _ => blames_pure _
      · exact blames_pure _
    · split <;> exact blames_pure _

mutual

/-- **What the code of an expression may fail with,** if the pool has its string literals. -/
theorem blames_lower (ctx : Context) : ∀ e : Expr, e.strings ⊆ ctx.literals.texts →
    Blames e.names (e.lower ctx)
  | .int _, _ => by
    rw [lower]
    exact blames_pure _
  | .str raw, h => by
    rw [lower, LiteralPool.label_of_mem (h List.mem_cons_self)]
    exact blames_pure _
  | .var x, _ | .addressOf x, _ => by
    rw [lower]
    exact blames_bind (ctx.blames_lookup List.mem_cons_self) fun _ _ => blames_pure _
  | .deref e, h => by
    rw [lower]
    have hcode : ∀ address : List Instr, Blames e.names
        (do return address ++ (← derefCode ctx e)) := fun _ =>
      blames_bind (blames_derefCode ctx e) fun _ _ => blames_pure _
    split
    · exact blames_bind (blames_pure _) fun address _ => hcode address
    · exact blames_bind (blames_lower ctx e h) fun address _ => hcode address
  | .cast e _, h => by
    rw [lower]
    exact blames_lower ctx e h
  | .binary _ l r, h => by
    rw [lower]
    obtain ⟨hl, hr⟩ := List.append_subset.1 h
    exact blames_bind ((blames_lower ctx l hl).mono (List.subset_append_left _ _)) fun _ _ =>
      blames_bind ((blames_lower ctx r hr).mono (List.subset_append_right _ _)) fun _ _ =>
        blames_pure _
  | .negate e, h => by
    rw [lower]
    exact blames_bind (blames_lower ctx e h) fun _ _ => blames_error trivial
  | .step op .before e, h => by
    rw [lower]
    exact blames_bind (blames_stepCode ctx op e) fun _ _ =>
      blames_bind (blames_lower ctx e h) fun _ _ => blames_pure _
  | .step op .after e, h => by
    rw [lower]
    exact blames_bind (blames_lower ctx e h) fun _ _ =>
      blames_bind (blames_stepCode ctx op e) fun _ _ => blames_pure _
  | .call f args, h => by
    rw [lower]
    exact blames_callCode ctx f _ true (blames_lowerArgs ctx args h)

theorem blames_lowerArgs (ctx : Context) : ∀ args : List Expr,
    argsStrings args ⊆ ctx.literals.texts → Blames (allNames args) (lowerArgs ctx args)
  | [], _ => by
    rw [lowerArgs]
    exact blames_pure _
  | e :: rest, h => by
    rw [lowerArgs]
    obtain ⟨he, hrest⟩ := List.append_subset.1 h
    exact blames_bind ((blames_lowerArgs ctx rest hrest).mono (List.subset_append_right _ _))
      fun _ _ => blames_bind ((blames_lower ctx e he).mono (List.subset_append_left _ _)) fun _ _ =>
        blames_bind ((blames_pushedSize ctx e).mono (List.subset_append_left _ _)) fun _ _ =>
          blames_pure _

end

theorem blames_lowerCall (ctx : Context) (f : String) (args : List Expr) (keep : Bool)
    (h : argsStrings args ⊆ ctx.literals.texts) :
    Blames (allNames args) (lowerCall ctx f args keep) :=
  blames_callCode ctx f _ keep (blames_lowerArgs ctx args h)

end Expr

/-! ### Declarations -/

theorem StructDecl.blames_layout (structs : StructTable) (decl : StructDecl) :
    Blames [] (decl.layout structs) := by
  have hfields : ∀ (fields : List Binding) (s : Scope),
      Blames [] (placeFields structs s fields) := by
    intro fields
    induction fields with
    | nil => exact fun s => blames_ok _
    | cons binding fields ih =>
      intro s
      exact blames_bind (Ty.blames_ofDescriptor _ _) fun _ _ =>
        blames_bind (s.blames_allocate _ _) fun _ _ => blames_bind (ih _) fun _ _ => blames_pure _
  exact blames_bind (hfields _ _) fun _ _ => blames_pure _

theorem FunctionDecl.blames_signature (structs : StructTable) (external : Bool)
    (decl : FunctionDecl) : Blames [] (decl.signature structs external) := by
  have hparams : ∀ params : List Binding, Blames [] (readParams structs params) := by
    intro params
    induction params with
    | nil => exact blames_ok _
    | cons binding params ih =>
      exact blames_bind (Ty.blames_ofDescriptor _ _) fun _ _ =>
        blames_bind ih fun _ _ => blames_pure _
  refine blames_bind (hparams _) fun params _ => ?_
  split
  · exact blames_error trivial
  · split
    · exact blames_pure _
    · exact blames_bind (Ty.blames_ofDescriptor _ _) fun _ _ => blames_pure _

/-- The pool has the string literals of all functions. -/
theorem Declarations.blockStrings_subset {p : Program} {decl : FunctionDecl}
    (h : .function decl ∈ p.items) (d : Declarations) :
    Stmt.blockStrings decl.body ⊆ (d.add p).1.literals.texts := by
  intro raw hraw
  exact LiteralPool.mem_internAll.2 (.inr (List.mem_flatMap.2 ⟨_, h, hraw⟩))

/-- **Declarations fail for no symbol and for no scope.** -/
theorem Declarations.concerns_of_mem_add (d : Declarations) (p : Program) :
    ∀ diagnostic ∈ (d.add p).2, diagnostic.error.Concerns [] False := by
  have hstructs : ∀ (items : List Item) (structs : StructTable),
      ∀ diagnostic ∈ (addStructs structs items).2, diagnostic.error.Concerns [] False := by
    intro items
    induction items with
    | nil => exact fun _ _ h => absurd h List.not_mem_nil
    | cons item items ih =>
      intro structs diagnostic h
      cases item with
      | struct decl =>
        rw [addStructs] at h
        split at h
        · exact ih _ _ h
        · split at h
          · exact ih _ _ h
          · rename_i e he
            rcases List.mem_cons.1 h with rfl | h
            · exact decl.blames_layout structs e he
            · exact ih _ _ h
      | function | external => exact ih _ _ h
  have hfunctions : ∀ (structs : StructTable) (items : List Item) (functions : FunctionTable),
      ∀ diagnostic ∈ (addFunctions structs functions items).2,
        diagnostic.error.Concerns [] False := by
    intro structs items
    induction items with
    | nil => exact fun _ _ h => absurd h List.not_mem_nil
    | cons item items ih =>
      intro functions diagnostic h
      rw [addFunctions] at h
      split at h
      · exact ih _ _ h
      · rename_i decl external _
        split at h
        · exact ih _ _ h
        · rename_i e he
          rcases List.mem_cons.1 h with rfl | h
          · exact decl.blames_signature structs external e he
          · exact ih _ _ h
  intro diagnostic h
  rcases List.mem_append.1 h with h | h
  · exact hstructs _ _ _ h
  · exact hfunctions _ _ _ _ h

end GLang
