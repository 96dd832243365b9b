import GLang.Proofs.ResolvedTypes

/-!
# Casts to any type

The target of a cast that decides no type is not needed, so it can be replaced by any text, and the
program compiles to what it did before. `recast f` puts `f target` for the target of every cast.
What is looked up has to stay: `Expr.Keeps` and `Stmt.Keeps`.

* `Expr.infer_recast`, `Expr.lower_recast`: types and code of expressions stay the same. Only errors
  may change, as they quote the expressions.
* `Gen.Refines`: a run that does what another one does where that succeeds.
  `Gen.Composed.refines`: so it is with statements and their recast.
* `Generator.types_known_or_unused`: every descriptor in a program that compiles names a type, or
  the program compiles to the same with any other text in its place.
-/

namespace GLang

open Asm Gen

variable {f : String → String}

/-! ### Expressions -/

namespace Expr

theorem length_recastArgs (args : List Expr) : (recastArgs f args).length = args.length := by
  induction args with
  | nil => rfl
  | cons _ rest ih => exact congrArg (· + 1) ih

mutual

theorem targets_recast : ∀ e : Expr, (e.recast f).targets = e.targets.map f
  | .cast e target => congrArg (f target :: ·) (targets_recast e)
  | .deref e | .negate e | .step _ _ e => targets_recast e
  | .binary _ l r => by
    simp only [recast, targets, targets_recast l, targets_recast r, List.map_append]
  | .call _ args => argsTargets_recast args
  | .int _ | .str _ | .var _ | .addressOf _ => rfl

theorem argsTargets_recast : ∀ args : List Expr,
    argsTargets (recastArgs f args) = (argsTargets args).map f
  | [] => rfl
  | e :: rest => by
    simp only [recastArgs, argsTargets, targets_recast e, argsTargets_recast rest,
      List.map_append]

end

mutual

theorem strings_recast : ∀ e : Expr, (e.recast f).strings = e.strings
  | .deref e | .negate e | .step _ _ e | .cast e _ => strings_recast e
  | .binary _ l r => by simp only [recast, strings, strings_recast l, strings_recast r]
  | .call _ args => argsStrings_recast args
  | .int _ | .str _ | .var _ | .addressOf _ => rfl

theorem argsStrings_recast : ∀ args : List Expr,
    argsStrings (recastArgs f args) = argsStrings args
  | [] => rfl
  | e :: rest => by
    simp only [recastArgs, argsStrings, strings_recast e, argsStrings_recast rest]

end

/-! #### Nodes -/

theorem descendants_recast : ∀ e : Expr,
    (e.recast f).descendants = e.descendants.map (recast f)
  | .deref e | .negate e | .step _ _ e | .cast e _ =>
    congrArg (e.recast f :: ·) (descendants_recast e)
  | .binary _ l r => by
    simp only [recast, descendants, descendants_recast l, descendants_recast r, List.map_cons,
      List.map_append]
  | .int _ | .str _ | .var _ | .addressOf _ | .call _ _ => rfl

theorem nodes_recast (e : Expr) : (e.recast f).nodes = e.nodes.map (recast f) :=
  congrArg (e.recast f :: ·) (descendants_recast e)

theorem firstCast?_map (nodes : List Expr) :
    firstCast? (nodes.map (recast f)) = (firstCast? nodes).map f := by
  unfold firstCast?
  rw [List.findSome?_map, List.map_findSome?]
  congr 1
  funext e
  cases e <;> rfl

theorem firstAddressOf?_map (nodes : List Expr) :
    firstAddressOf? (nodes.map (recast f)) = firstAddressOf? nodes := by
  unfold firstAddressOf?
  rw [List.findSome?_map]
  congr 1
  funext e
  cases e <;> rfl

theorem variableNames_map (nodes : List Expr) :
    variableNames (nodes.map (recast f)) = variableNames nodes := by
  unfold variableNames
  rw [List.filterMap_map]
  congr 1
  funext e
  cases e <;> rfl

theorem calledNames_map (nodes : List Expr) :
    calledNames (nodes.map (recast f)) = calledNames nodes := by
  unfold calledNames
  rw [List.filterMap_map]
  congr 1
  funext e
  cases e <;> rfl

theorem isInt_recast (e : Expr) : (e.recast f).isInt = e.isInt := by
  cases e <;> rfl

theorem isStr_recast (e : Expr) : (e.recast f).isStr = e.isStr := by
  cases e <;> rfl

theorem any_isInt_map (nodes : List Expr) : (nodes.map (recast f)).any isInt = nodes.any isInt := by
  rw [List.any_map]
  exact congrArg nodes.any (funext isInt_recast)

theorem any_isStr_map (nodes : List Expr) : (nodes.map (recast f)).any isStr = nodes.any isStr := by
  rw [List.any_map]
  exact congrArg nodes.any (funext isStr_recast)

/-! #### Types -/

variable {ctx : Context}

/-- The second result is there if the first is, and equal to it if that is no error. -/
def SameRead : Option (Except LoweringError Ty) → Option (Except LoweringError Ty) → Prop :=
  Option.Rel fun x y => ∀ t, x = .ok t → y = .ok t

theorem SameRead.orElse {a a' b b' : Option (Except LoweringError Ty)} (ha : SameRead a a')
    (hb : SameRead b b') : SameRead (a <|> b) (a' <|> b') := by
  cases ha with
  | none => simpa using hb
  | some h => exact .some h

theorem read_recast {e : Expr} {t t' : Ty} (h : Ty.read e t = .ok t') :
    Ty.read (e.recast f) t = .ok t' := by
  unfold Ty.read at h ⊢
  split at h
  · exact h
  · cases h

theorem inferFromLeaves_recast {e : Expr} {t : Ty} (h : inferFromLeaves ctx e = .ok t) :
    inferFromLeaves ctx (e.recast f) = .ok t := by
  unfold inferFromLeaves at h ⊢
  simp only [nodes_recast, variableNames_map, calledNames_map, any_isInt_map, any_isStr_map] at h ⊢
  obtain ⟨symbols, hsymbols, h⟩ := except_bind_eq_ok.1 h
  refine except_bind_eq_ok.2 ⟨symbols, hsymbols, ?_⟩
  -- The expression is quoted only if nothing in it has a type.
  generalize symbols.map (·.type) = types at h ⊢
  cases types with
  | cons => exact h
  | nil =>
    obtain ⟨result, hresult, h⟩ := except_bind_eq_ok.1 h
    refine except_bind_eq_ok.2 ⟨result, hresult, ?_⟩
    cases result with
    | some => exact h
    | none =>
      simp only at h ⊢
      by_cases hint : e.nodes.any isInt = true
      · rwa [if_pos hint] at h ⊢
      · rw [if_neg hint] at h ⊢
        by_cases hstr : e.nodes.any isStr = true
        · rwa [if_pos hstr] at h ⊢
        · rw [if_neg hstr] at h
          cases h

theorem inferWith_recast {e : Expr} {read read' : Option (Except LoweringError Ty)} {t : Ty}
    (hf : ∀ target ∈ (firstCast? e.nodes).toList, f target = target) (hread : SameRead read read')
    (h : inferWith ctx e read = .ok t) : inferWith ctx (e.recast f) read' = .ok t := by
  unfold inferWith at h ⊢
  rw [nodes_recast, firstCast?_map, firstAddressOf?_map]
  cases hcast : firstCast? e.nodes with
  | some target =>
    rw [hcast] at h
    rw [Option.map_some, hf target (Option.mem_toList.2 hcast)]
    exact h
  | none =>
    rw [hcast] at h
    simp only [Option.map_none] at h ⊢
    cases haddress : firstAddressOf? e.nodes with
    | some x =>
      rw [haddress] at h
      exact h
    | none =>
      rw [haddress] at h
      cases hread with
      | none => exact inferFromLeaves_recast h
      | some heq => exact heq t h

/-- `f` keeps what is looked up for an expression. -/
def Keeps (f : String → String) (e : Expr) : Prop :=
  ∀ target ∈ e.lookedUp, f target = target

/-- For a dereference, the cast that decides the type of its operand is looked up as well. -/
theorem keeps_deref {e : Expr} : (Expr.deref e).Keeps f ↔
    (∀ target ∈ e.decidingCast?.toList, f target = target) ∧ e.Keeps f :=
  List.forall_mem_append

theorem keeps_binary {op : BinOp} {l r : Expr} :
    (Expr.binary op l r).Keeps f ↔ l.Keeps f ∧ r.Keeps f :=
  List.forall_mem_append

mutual

/-- **An expression keeps its type,** if the cast that decides it and those below stay. -/
theorem infer_recast : ∀ {e : Expr} {t : Ty}, (Expr.deref e).Keeps f → e.infer ctx = .ok t →
    (e.recast f).infer ctx = .ok t
  | .deref e, t, hf, h => by
    obtain ⟨t', he, h⟩ := except_bind_eq_ok.1 h
    exact except_bind_eq_ok.2 ⟨t', infer_recast (keeps_deref.1 hf).2 he, read_recast h⟩
  | .binary op l r, t, hf, h => by
    obtain ⟨hdeciding, hbelow⟩ := keeps_deref.1 hf
    obtain ⟨hl, hr⟩ := keeps_binary.1 hbelow
    rw [infer] at h
    rw [recast, infer]
    exact inferWith_recast (e := .binary op l r) hdeciding
      ((derefHere?_recast hl).orElse ((derefHere?_recast hr).orElse
        ((derefBelow?_recast hl).orElse (derefBelow?_recast hr)))) h
  | .negate e, t, hf, h => by
    obtain ⟨hdeciding, hbelow⟩ := keeps_deref.1 hf
    have he : e.Keeps f := hbelow
    rw [infer] at h
    rw [recast, infer]
    exact inferWith_recast (e := .negate e) hdeciding
      ((derefHere?_recast he).orElse (derefBelow?_recast he)) h
  | .step op order e, t, hf, h => by
    obtain ⟨hdeciding, hbelow⟩ := keeps_deref.1 hf
    have he : e.Keeps f := hbelow
    rw [infer] at h
    rw [recast, infer]
    exact inferWith_recast (e := .step op order e) hdeciding
      ((derefHere?_recast he).orElse (derefBelow?_recast he)) h
  | .cast e target, t, hf, h => by
    rw [infer] at h
    rw [recast, infer]
    exact inferWith_recast (e := .cast e target) (keeps_deref.1 hf).1 .none h
  | .call name args, t, hf, h => by
    rw [infer] at h
    rw [recast, infer]
    exact inferWith_recast (e := .call name args) (keeps_deref.1 hf).1 .none h
  | .int _, t, hf, h | .str _, t, hf, h | .var _, t, hf, h | .addressOf _, t, hf, h => h

theorem derefHere?_recast : ∀ {e : Expr}, e.Keeps f →
    SameRead (e.derefHere? ctx) ((e.recast f).derefHere? ctx)
  | .deref e, hf => by
    refine .some fun t h => ?_
    obtain ⟨t', he, h⟩ := except_bind_eq_ok.1 h
    exact except_bind_eq_ok.2 ⟨t', infer_recast hf he, read_recast h⟩
  | .binary _ _ _, _ | .negate _, _ | .step _ _ _, _ | .cast _ _, _ | .call _ _, _ | .int _, _
  | .str _, _ | .var _, _ | .addressOf _, _ => .none

theorem derefBelow?_recast : ∀ {e : Expr}, e.Keeps f →
    SameRead (e.derefBelow? ctx) ((e.recast f).derefBelow? ctx)
  | .binary op l r, hf => by
    obtain ⟨hl, hr⟩ := keeps_binary.1 hf
    simp only [recast, derefBelow?]
    exact (derefHere?_recast hl).orElse ((derefHere?_recast hr).orElse
      ((derefBelow?_recast hl).orElse (derefBelow?_recast hr)))
  | .deref e, hf => by
    have he := (keeps_deref.1 hf).2
    simp only [recast, derefBelow?]
    exact (derefHere?_recast he).orElse (derefBelow?_recast he)
  | .negate e, hf | .step _ _ e, hf | .cast e _, hf => by
    have he : e.Keeps f := hf
    simp only [recast, derefBelow?]
    exact (derefHere?_recast he).orElse (derefBelow?_recast he)
  | .call _ _, _ | .int _, _ | .str _, _ | .var _, _ | .addressOf _, _ => .none

end

theorem readType_recast {e : Expr} {t : Ty} (hf : (Expr.deref e).Keeps f)
    (h : e.readType ctx = .ok t) : (e.recast f).readType ctx = .ok t := by
  obtain ⟨t', he, h⟩ := except_bind_eq_ok.1 h
  exact except_bind_eq_ok.2 ⟨t', infer_recast hf he, read_recast h⟩

/-! #### Code -/

theorem pushedSize_recast : ∀ {e : Expr} {size : Nat}, e.Keeps f → e.pushedSize ctx = .ok size →
    (e.recast f).pushedSize ctx = .ok size
  | .cast e _, size, hf, h => by
    rw [pushedSize] at h
    rw [recast, pushedSize]
    exact pushedSize_recast hf h
  | .deref e, size, hf, h => by
    obtain ⟨t, ht, h⟩ := except_bind_eq_ok.1 h
    exact except_bind_eq_ok.2 ⟨t, readType_recast hf ht, h⟩
  | .call _ _, size, hf, h | .binary _ _ _, size, hf, h | .negate _, size, hf, h
  | .step _ _ _, size, hf, h | .int _, size, hf, h | .str _, size, hf, h | .var _, size, hf, h
  | .addressOf _, size, hf, h => h

theorem arraySymbol?_recast (e : Expr) : (e.recast f).arraySymbol? ctx = e.arraySymbol? ctx := by
  cases e <;> rfl

theorem stepCode_recast {op : StepOp} {e : Expr} {code : List Instr}
    (h : stepCode ctx op e = .ok code) : stepCode ctx op (e.recast f) = .ok code := by
  cases e with
  | var => exact h
  | _ => cases h

/-- A call keeps its code if its arguments do. -/
theorem lowerCall_of_lowerArgs {name : String} {args : List Expr} {keep : Bool} {code : List Instr}
    (h : lowerCall ctx name args keep = .ok code)
    (hargs : ∀ pushes pushed, lowerArgs ctx args = .ok (pushes, pushed) →
      lowerArgs ctx (recastArgs f args) = .ok (pushes, pushed)) :
    lowerCall ctx name (recastArgs f args) keep = .ok code := by
  obtain ⟨signature, pushes, pushed, hname, hcount, hpushes, hcode⟩ := lowerCall_eq_ok.1 h
  rw [← length_recastArgs (f := f)] at hcount
  exact lowerCall_eq_ok.2 ⟨signature, pushes, pushed, hname, hcount, hargs _ _ hpushes, hcode⟩

mutual

/-- **An expression keeps its code,** if what is looked up for it stays. -/
theorem lower_recast : ∀ {e : Expr} {code : List Instr}, e.Keeps f → e.lower ctx = .ok code →
    (e.recast f).lower ctx = .ok code
  | .deref e, code, hf, h => by
    obtain ⟨t, ht, hcode⟩ := lower_deref.1 h
    rw [recast]
    refine lower_deref.2 ⟨t, readType_recast hf ht, ?_⟩
    rw [arraySymbol?_recast]
    refine hcode.imp_right ?_
    rintro ⟨hnone, address, haddress, rfl⟩
    exact ⟨hnone, address, lower_recast (keeps_deref.1 hf).2 haddress, rfl⟩
  | .cast e target, code, hf, h => lower_cast.2 (lower_recast (e := e) hf (lower_cast.1 h))
  | .binary op l r, code, hf, h => by
    obtain ⟨hl, hr⟩ := keeps_binary.1 hf
    obtain ⟨left, right, hleft, hright, rfl⟩ := lower_binary.1 h
    exact lower_binary.2 ⟨left, right, lower_recast hl hleft, lower_recast hr hright, rfl⟩
  | .negate e, code, hf, h => absurd h lower_negate
  | .step op .before e, code, hf, h => by
    obtain ⟨step, value, hstep, hvalue, rfl⟩ := lower_stepBefore.1 h
    exact lower_stepBefore.2
      ⟨step, value, stepCode_recast hstep, lower_recast (e := e) hf hvalue, rfl⟩
  | .step op .after e, code, hf, h => by
    obtain ⟨value, step, hvalue, hstep, rfl⟩ := lower_stepAfter.1 h
    exact lower_stepAfter.2
      ⟨value, step, lower_recast (e := e) hf hvalue, stepCode_recast hstep, rfl⟩
  | .call name args, code, hf, h =>
    lower_call.2 (lowerCall_of_lowerArgs (lower_call.1 h) fun _ _ hargs =>
      lowerArgs_recast hf hargs)
  | .int _, code, hf, h | .str _, code, hf, h | .var _, code, hf, h | .addressOf _, code, hf, h => h

theorem lowerArgs_recast : ∀ {args : List Expr} {code : List Instr} {pushed : Nat},
    (∀ target ∈ argsLookedUp args, f target = target) → lowerArgs ctx args = .ok (code, pushed) →
    lowerArgs ctx (recastArgs f args) = .ok (code, pushed)
  | [], code, pushed, hf, h => h
  | e :: rest, code, pushed, hf, h => by
    obtain ⟨he, hrest⟩ := List.forall_mem_append.1 hf
    obtain ⟨more, n, value, size, hmore, hvalue, hsize, hcode⟩ := lowerArgs_cons.1 h
    exact lowerArgs_cons.2 ⟨more, n, value, size, lowerArgs_recast hrest hmore,
      lower_recast he hvalue, pushedSize_recast he hsize, hcode⟩

end

theorem lowerCall_recast {name : String} {args : List Expr} {keep : Bool} {code : List Instr}
    (hf : (Expr.call name args).Keeps f) (h : lowerCall ctx name args keep = .ok code) :
    lowerCall ctx name (recastArgs f args) keep = .ok code :=
  lowerCall_of_lowerArgs h fun _ _ => lowerArgs_recast hf

end Expr

/-! ### Runs -/

namespace Gen

variable {α β : Type}

/-- Where `p` succeeds, `q` does the same. -/
def Refines (p q : Gen α) : Prop :=
  ∀ g a g', Returns p g a g' → Returns q g a g'

theorem refines_refl (p : Gen α) : Refines p p :=
  fun _ _ _ h => h

theorem refines_throw {e : LoweringError} {q : Gen α} : Refines (throw e) q :=
  fun _ _ _ h => absurd h not_returns_throw

theorem refines_bind {p p' : Gen α} {k k' : α → Gen β} (hp : Refines p p')
    (hk : ∀ a, Refines (k a) (k' a)) : Refines (p >>= k) (p' >>= k') := by
  intro g b g' h
  obtain ⟨a, g₁, ha, hb⟩ := returns_bind.1 h
  exact returns_bind.2 ⟨a, g₁, hp g a g₁ ha, hk a g₁ b g' hb⟩

theorem refines_throw_bind {e : LoweringError} {k : α → Gen β} {q : Gen β} :
    Refines (throw e >>= k) q := by
  intro g b g' h
  obtain ⟨a, g₁, hthrow, -⟩ := returns_bind.1 h
  exact absurd hthrow not_returns_throw

theorem refines_ask {p q : Context → Except LoweringError α}
    (h : ∀ ctx a, p ctx = .ok a → q ctx = .ok a) : Refines (ask p) (ask q) := by
  intro g a g' hp
  obtain ⟨ha, hg⟩ := returns_ask.1 hp
  exact returns_ask.2 ⟨h _ _ ha, hg⟩

theorem refines_evaluate {e : Expr} (hf : e.Keeps f) :
    Refines (evaluate e) (evaluate (e.recast f)) :=
  refines_bind (refines_ask fun _ _ => Expr.lower_recast hf) fun _ => refines_refl _

theorem refines_block {body body' : Gen Code} (h : Refines body body') :
    Refines (block body) (block body') :=
  refines_bind (refines_refl _) fun _ => refines_bind h fun _ => refines_refl _

theorem refines_loop {kind : ScopeKind} {labels : LoopLabels} {done : Label} {body body' : Gen Code}
    (h : Refines body body') : Refines (loop kind labels done body) (loop kind labels done body') :=
  refines_bind (refines_refl _) fun _ => refines_bind h fun _ => refines_refl _

end Gen

/-! ### Statements -/

namespace Stmt

/-- `f` keeps all that is looked up for `parts`. -/
def Keeps (f : String → String) (parts : List (String ⊕ Expr)) : Prop :=
  ∀ part ∈ parts, ∀ descriptor ∈ lookedUp part, f descriptor = descriptor

variable {parts parts' : List (String ⊕ Expr)}

theorem keeps_append : Keeps f (parts ++ parts') ↔ Keeps f parts ∧ Keeps f parts' :=
  List.forall_mem_append

theorem keeps_expr {e : Expr} : Keeps f (.inr e :: parts) ↔ e.Keeps f ∧ Keeps f parts :=
  List.forall_mem_cons

end Stmt

/-- **Statements do what they did before,** if what is looked up for them stays. -/
theorem Gen.Composed.refines {parts : List (String ⊕ Expr)} {stray : Bool} {new : List String}
    {p q : Gen Code} (h : Composed {} f parts stray new p q) (hf : Stmt.Keeps f parts) :
    Refines p q := by
  induction h with
  | own _ h' =>
    rw [h', Code.renumber_zero]
    exact refines_refl _
  | fail => exact refines_throw
  | seq _ _ ih ih' =>
    obtain ⟨hfirst, hsecond⟩ := Stmt.keeps_append.1 hf
    exact refines_bind (ih hfirst) fun _ => refines_bind (ih' hsecond) fun _ => refines_refl _
  | value e => exact refines_evaluate (Stmt.keeps_expr.1 hf).1
  | call name args =>
    rw [Stmt.lower, Stmt.lower]
    exact refines_bind (refines_ask fun _ _ => Expr.lowerCall_recast (Stmt.keeps_expr.1 hf).1)
      fun _ => refines_refl _
  | type descriptor _ ih =>
    exact refines_bind (refines_refl _) fun t => ih t (List.forall_mem_cons.1 hf).2
  | address e _ ih =>
    obtain ⟨he, hrest⟩ := Stmt.keeps_expr.1 hf
    exact refines_bind (refines_ask fun _ _ => Expr.readType_recast he) fun t =>
      refines_bind (refines_evaluate (Expr.keeps_deref.1 he).2) fun _ =>
      refines_bind (ih t hrest) fun _ => refines_refl _
  | lookup x _ ih =>
    exact refines_bind (refines_refl _) fun symbol => ih symbol (Stmt.keeps_expr.1 hf).2
  | declare x t _ ih => exact refines_bind (refines_refl _) fun symbol => ih symbol hf
  | label kind _ ih =>
    refine refines_bind (refines_refl _) fun n => ?_
    have hn := ih n hf
    rwa [LabelCounters.get_zero] at hn
  | block _ ih => exact refines_block (ih hf)
  | loop kind labels done _ _ _ _ _ ih =>
    rw [LoopLabels.renumber_zero, Label.renumber_zero]
    exact refines_loop (ih hf)
  | result | breakLoop | continueLoop => exact refines_refl _

namespace Stmt

mutual

theorem strings_recast : ∀ s : Stmt, (s.recast f).strings = s.strings
  | .declare _ _ init | .ret init => by
    cases init with
    | none => simp only [recast, Option.map_none]
    | some e => simp only [recast, Option.map_some, strings, Expr.strings_recast]
  | .assign _ value | .store _ value | .run value => by
    simp only [recast, strings, Expr.strings_recast]
  | .storeAt address value => by simp only [recast, strings, Expr.strings_recast]
  | .branch first others otherwise => by
    simp only [recast, strings, armStrings_recast first, armsStrings_recast others,
      elseStrings_recast otherwise]
  | .whileLoop condition body => by
    simp only [recast, strings, Expr.strings_recast, blockStrings_recast body]
  | .forLoop init condition increment body => by
    cases condition <;>
      simp only [recast, strings, Option.map_none, Option.map_some, Expr.strings_recast,
        clauseStrings_recast init, clauseStrings_recast increment, blockStrings_recast body]
  | .step _ _ | .breakLoop | .continueLoop => by simp only [recast]

theorem blockStrings_recast : ∀ body : List Stmt,
    blockStrings (recastAll f body) = blockStrings body
  | [] => rfl
  | s :: rest => by
    simp only [recastAll, blockStrings, strings_recast s, blockStrings_recast rest]

theorem armStrings_recast : ∀ arm : Arm, armStrings (recastArm f arm) = armStrings arm
  | .mk condition body => by
    simp only [recastArm, armStrings, Expr.strings_recast, blockStrings_recast body]

theorem armsStrings_recast : ∀ arms : List Arm, armsStrings (recastArms f arms) = armsStrings arms
  | [] => rfl
  | arm :: rest => by
    simp only [recastArms, armsStrings, armStrings_recast arm, armsStrings_recast rest]

theorem elseStrings_recast : ∀ otherwise : Option (List Stmt),
    elseStrings (recastElse f otherwise) = elseStrings otherwise
  | none => rfl
  | some body => blockStrings_recast body

theorem clauseStrings_recast : ∀ clause : Option Stmt,
    clauseStrings (recastClause f clause) = clauseStrings clause
  | none => rfl
  | some s => strings_recast s

end

/-- A part with other targets of its casts. -/
def recastPart (f : String → String) : String ⊕ Expr → String ⊕ Expr :=
  Sum.map id (Expr.recast f)

mutual

theorem parts_recast : ∀ s : Stmt, (s.recast f).parts = s.parts.map (recastPart f)
  | .declare _ _ init => by cases init <;> rfl
  | .ret value => by cases value <;> rfl
  | .assign _ _ | .store _ _ | .run _ | .storeAt _ _ | .step _ _ | .breakLoop | .continueLoop => rfl
  | .branch first others otherwise => by
    simp only [recast, parts, armParts_recast first, armsParts_recast others,
      elseParts_recast otherwise, List.map_append]
  | .whileLoop condition body => by
    rw [recast, parts, blockParts_recast body]
    rfl
  | .forLoop init condition increment body => by
    have hcondition : ((condition.map (Expr.recast f)).map .inr).toList =
        (condition.map .inr).toList.map (recastPart f) := by
      cases condition <;> rfl
    simp only [recast, parts, clauseParts_recast init, clauseParts_recast increment,
      blockParts_recast body, hcondition, List.map_append]

theorem blockParts_recast : ∀ body : List Stmt,
    blockParts (recastAll f body) = (blockParts body).map (recastPart f)
  | [] => rfl
  | s :: rest => by
    simp only [recastAll, blockParts, parts_recast s, blockParts_recast rest, List.map_append]

theorem armParts_recast : ∀ arm : Arm,
    armParts (recastArm f arm) = (armParts arm).map (recastPart f)
  | .mk condition body => by
    rw [recastArm, armParts, blockParts_recast body]
    rfl

theorem armsParts_recast : ∀ arms : List Arm,
    armsParts (recastArms f arms) = (armsParts arms).map (recastPart f)
  | [] => rfl
  | arm :: rest => by
    simp only [recastArms, armsParts, armParts_recast arm, armsParts_recast rest, List.map_append]

theorem elseParts_recast : ∀ otherwise : Option (List Stmt),
    elseParts (recastElse f otherwise) = (elseParts otherwise).map (recastPart f)
  | none => rfl
  | some body => blockParts_recast body

theorem clauseParts_recast : ∀ clause : Option Stmt,
    clauseParts (recastClause f clause) = (clauseParts clause).map (recastPart f)
  | none => rfl
  | some s => parts_recast s

end

end Stmt

/-! ### Programs -/

namespace FunctionDecl

/-- The function with other targets of the casts in its body. -/
def recast (f : String → String) (decl : FunctionDecl) : FunctionDecl :=
  { decl with body := Stmt.recastAll f decl.body }

@[simp] theorem name_recast (decl : FunctionDecl) : (decl.recast f).name = decl.name := rfl

@[simp] theorem signature_recast (structs : StructTable) (external : Bool) (decl : FunctionDecl) :
    (decl.recast f).signature structs external = decl.signature structs external := rfl

theorem refines_recast {decl : FunctionDecl} (hf : Stmt.Keeps f (Stmt.blockParts decl.body)) :
    Refines decl.lower (decl.recast f).lower := by
  refine refines_bind (refines_refl _) fun _ => refines_bind (refines_refl _) fun signature => ?_
  split
  · exact refines_throw_bind
  · exact refines_bind (refines_refl _) fun _ => refines_bind (refines_refl _) fun _ =>
      refines_bind (refines_refl _) fun _ => refines_bind (refines_refl _) fun _ =>
      refines_bind ((Stmt.composed_lowerAll decl.body).refines hf) fun _ =>
      refines_refl _

end FunctionDecl

namespace Item

def recast (f : String → String) : Item → Item
  | function decl => function (decl.recast f)
  | external decl => external decl
  | struct decl => struct decl

theorem parts_recast (item : Item) :
    (item.recast f).parts = item.parts.map (Stmt.recastPart f) := by
  have hhead : ∀ decl : FunctionDecl, decl.headParts.map (Stmt.recastPart f) = decl.headParts := by
    intro decl
    simp only [FunctionDecl.headParts, List.map_append, List.map_map]
    rfl
  cases item with
  | external decl => exact (hhead decl).symm
  | struct decl => simp [recast, parts, Stmt.recastPart]
  | function decl =>
    simp only [recast, parts, FunctionDecl.recast, Stmt.blockParts_recast, List.map_append, hhead]
    rfl

end Item

namespace Program

def recast (f : String → String) (p : Program) : Program :=
  ⟨p.items.map (Item.recast f)⟩

variable {p : Program}

theorem parts_recast (p : Program) : (p.recast f).parts = p.parts.map (Stmt.recastPart f) := by
  simp only [parts, recast, List.flatMap_map, List.map_flatMap, Item.parts_recast]

theorem strings_recast (p : Program) : (p.recast f).strings = p.strings := by
  unfold strings recast
  rw [List.flatMap_map]
  congr 1
  funext item
  cases item with
  | function decl => exact Stmt.blockStrings_recast decl.body
  | _ => rfl

theorem keeps_parts (hf : ∀ descriptor ∈ p.lookedUp, f descriptor = descriptor) :
    Stmt.Keeps f p.parts :=
  fun part hpart descriptor hdescriptor =>
    hf descriptor (List.mem_flatMap.2 ⟨part, hpart, hdescriptor⟩)

theorem descriptors_recast (hf : ∀ descriptor ∈ p.lookedUp, f descriptor = descriptor) :
    (p.recast f).descriptors = p.descriptors.map f := by
  unfold descriptors
  rw [parts_recast, List.flatMap_map, List.map_flatMap]
  refine List.flatMap_congr fun part hpart => ?_
  cases part with
  | inl descriptor =>
    have hkeeps := keeps_parts hf _ hpart descriptor List.mem_cons_self
    exact congrArg ([·]) hkeeps.symm
  | inr e => exact e.targets_recast

end Program

namespace Declarations

theorem addStructs_recast (items : List Item) : ∀ structs : StructTable,
    addStructs structs (items.map (Item.recast f)) = addStructs structs items := by
  induction items with
  | nil => exact fun _ => rfl
  | cons item items ih =>
    intro structs
    cases item with
    | struct decl => simp only [List.map_cons, Item.recast, addStructs, ih]
    | function | external => exact ih structs

theorem addFunctions_recast (structs : StructTable) (items : List Item) :
    ∀ functions : FunctionTable, addFunctions structs functions (items.map (Item.recast f)) =
      addFunctions structs functions items := by
  induction items with
  | nil => exact fun _ => rfl
  | cons item items ih =>
    intro functions
    cases item with
    | struct decl => exact ih functions
    | external decl =>
      simp only [List.map_cons, Item.recast, addFunctions, Item.function?, ih]
    | function decl =>
      simp only [List.map_cons, Item.recast, addFunctions, Item.function?,
        FunctionDecl.signature_recast, FunctionDecl.name_recast, ih]

/-- The declarations say nothing about casts. -/
theorem add_recast (d : Declarations) (p : Program) : d.add (p.recast f) = d.add p := by
  unfold add
  rw [p.strings_recast, Program.recast, addStructs_recast]
  simp only [addFunctions_recast]

end Declarations

namespace Generator

theorem functions_recast (items : List Item) : ∀ (g : Generator) (seen : List String),
    Stmt.Keeps f (items.flatMap Item.parts) → (g.functions seen items).2.1 = [] →
    g.functions seen (items.map (Item.recast f)) = g.functions seen items := by
  induction items with
  | nil => exact fun _ _ _ _ => rfl
  | cons item items ih =>
    intro g seen hf h
    obtain ⟨hitem, hitems⟩ := Stmt.keeps_append.1 hf
    cases item with
    | external | struct => exact ih g seen hitems h
    | function decl =>
      have hbody := (Stmt.keeps_append.1 hitem).2
      simp only [List.map_cons, Item.recast]
      rw [functions] at h ⊢
      rw [functions, FunctionDecl.name_recast]
      by_cases hseen : seen.contains decl.name
      · rw [if_pos hseen] at h
        rw [if_pos hseen, if_pos hseen]
        exact ih g _ hitems h
      · rw [if_neg hseen] at h
        rw [if_neg hseen, if_neg hseen]
        by_cases hknown : !g.context.functions.contains decl.name
        · rw [if_pos hknown] at h
          rw [if_pos hknown, if_pos hknown]
          exact ih g _ hitems h
        · rw [if_neg hknown] at h
          rw [if_neg hknown, if_neg hknown]
          rcases hrun : decl.lower.run.run g with ⟨e | code, g₁⟩
          · rw [hrun] at h
            cases h
          · have hrecast : (decl.recast f).lower.run.run g = (.ok code, g₁) :=
              FunctionDecl.refines_recast hbody g code g₁ hrun
            rw [hrun] at h
            have hrest := ih g₁ (decl.name :: seen) hitems h
            simp only [hrecast, hrest]

/-- **Targets that are not looked up do not matter.** -/
theorem generate_recast {g : Generator} {p : Program} {listing : Listing}
    (h : (g.generate p).1 = .ok listing)
    (hf : ∀ descriptor ∈ p.lookedUp, f descriptor = descriptor) :
    g.generate (p.recast f) = g.generate p := by
  have hstart : g.start (p.recast f) = g.start p := by
    unfold start
    rw [Declarations.add_recast]
  have hnone : ((g.start p).1.functions [] p.items).2.1 = [] := by
    unfold generate at h
    simp only at h
    split at h
    · rename_i hempty
      exact (List.append_eq_nil_iff.1 (List.isEmpty_iff.1 hempty)).2
    · cases h
  have hfunctions := functions_recast p.items (g.start p).1 [] (Program.keeps_parts hf) hnone
  unfold generate
  rw [hstart]
  simp only [Program.recast, hfunctions]

/-- **Every type is known, or it is not used.** In a program that compiles and declares no function
and no struct twice, the descriptor of every declaration names a type, and so does the target of
every cast that decides the type of an operand of `*`. The targets of the other casts can be
replaced by any text, and the outcome is the same. -/
theorem types_known_or_unused {g : Generator} {p : Program} {listing : Listing}
    (h : (g.generate p).1 = .ok listing) (hp : p.DistinctNames) :
    p.lookedUp ⊆ p.descriptors ∧
    (∀ descriptor ∈ p.lookedUp, Ty.Known (Declarations.add {} p).1.structs descriptor) ∧
    ∀ f : String → String, (∀ descriptor ∈ p.lookedUp, f descriptor = descriptor) →
      (p.recast f).descriptors = p.descriptors.map f ∧ g.generate (p.recast f) = g.generate p := by
  refine ⟨p.lookedUp_subset, ?_, fun f hf => ⟨Program.descriptors_recast hf, generate_recast h hf⟩⟩
  intro descriptor hdescriptor
  obtain ⟨part, hpart, hdescriptor⟩ := List.mem_flatMap.1 hdescriptor
  exact allKnown_parts h hp part hpart descriptor hdescriptor

/-- A program with two casts that decide a type, and three that do not, two of them to unknown
ones. -/
theorem types_known_or_unused_of_loose_casts : ∃ p listing,
    Program.ofSource "struct Pair { a: u8(3); } fn f(p: u8*) -> i32 { var q: Pair* = p as Odd;
      *(p + 1 as u16*) = 1 as Count; return *(q as i32*) as u8; }" = .ok p ∧
    (generate {} p).1 = .ok listing ∧ p.DistinctNames ∧
    (∀ descriptor ∈ ["u8(3)", "u8*", "i32", "Pair*", "u16*", "i32*"],
      Ty.Known (Declarations.add {} p).1.structs descriptor) ∧
    (p.recast fun d => if d = "Odd" ∨ d = "Count" then "Pair" else d).descriptors =
      ["u8(3)", "u8*", "i32", "Pair*", "Pair", "u16*", "Pair", "u8", "i32*"] ∧
    generate {} (p.recast fun d => if d = "Odd" ∨ d = "Count" then "Pair" else d) =
      generate {} p := by
  obtain ⟨p, hp, hcheck⟩ := exists_of_someProgram
    "struct Pair { a: u8(3); } fn f(p: u8*) -> i32 { var q: Pair* = p as Odd;
      *(p + 1 as u16*) = 1 as Count; return *(q as i32*) as u8; }"
    (fun p => (generate {} p).1.isOk && decide p.DistinctNames &&
      p.lookedUp == ["u8(3)", "u8*", "i32", "Pair*", "u16*", "i32*"] &&
      p.descriptors ==
        ["u8(3)", "u8*", "i32", "Pair*", "Odd", "u16*", "Count", "u8", "i32*"])
    (by decide +kernel)
  simp only [Bool.and_eq_true, beq_iff_eq, decide_eq_true_eq] at hcheck
  obtain ⟨⟨⟨hok, hnames⟩, hlookedUp⟩, hdescriptors⟩ := hcheck
  obtain ⟨listing, hg⟩ := exists_ok_of_isOk hok
  obtain ⟨-, hknown, hothers⟩ := types_known_or_unused hg hnames
  rw [hlookedUp] at hknown hothers
  obtain ⟨hrecast, hsame⟩ :=
    hothers (fun d => if d = "Odd" ∨ d = "Count" then "Pair" else d) (by decide)
  rw [hdescriptors] at hrecast
  exact ⟨p, listing, hp, hg, hnames, hknown, hrecast, hsame⟩

/-- A function that casts to a type that nobody declares. -/
theorem missing_type_compiled : ∃ p listing,
    Program.ofSource "fn f() -> i32 { return 1 as Missing; }" = .ok p ∧
    (generate {} p).1 = .ok listing ∧ p.DistinctNames ∧ "Missing" ∈ p.descriptors ∧
    ¬ Ty.Known (Declarations.add {} p).1.structs "Missing" := by
  obtain ⟨p, hp, hcheck⟩ := exists_of_someProgram "fn f() -> i32 { return 1 as Missing; }"
    (fun p =>
      (generate {} p).1.isOk && decide p.DistinctNames && p.descriptors.contains "Missing" &&
      !(Ty.ofDescriptor (Declarations.add {} p).1.structs "Missing").isOk)
    (by decide +kernel)
  simp only [Bool.and_eq_true, List.contains_iff_mem, decide_eq_true_eq,
    Bool.not_eq_true'] at hcheck
  obtain ⟨⟨⟨hok, hnames⟩, hmissing⟩, hunknown⟩ := hcheck
  obtain ⟨listing, hg⟩ := exists_ok_of_isOk hok
  refine ⟨p, listing, hp, hg, hnames, hmissing, ?_⟩
  rintro ⟨t, ht⟩
  rw [ht] at hunknown
  cases hunknown

end Generator

end GLang
