import GLang.Proofs.Invariant

/-!
# Operations on scopes that fail

An operation on the scopes may be asked for what cannot be done. Then the whole state stays as it
was, and whatever is asked afterwards is answered as if the operation had never been tried.

* `Session.Faults`: when such an operation fails, and with which error.
* `Session.ScopeRequest.inPlace`: the operations as a sequence of small changes, some of which are
  made before it is known whether the operation can be done. They do the same: `inPlace_eq_perform`.
* `Session.run_inPlace_eq_error`: an operation fails exactly if it is faulty, and changes nothing
  then.
* `Session.failed_leaves_no_trace`: the same within a session of any operations.
-/

namespace GLang.Session

open Asm

/-- What an operation on the state answers. -/
inductive Reply where
  | nothing
  | number (n : Nat)
  | size (size : Option Nat)
  | scope (scope : Scope)
  | symbol (symbol : Symbol)
  | labels (labels : LoopLabels)
  | exits (found : Nat × List Nat)
  | type (t : Ty)
  | code (code : Code)

/-- The operations on scopes that can fail. -/
inductive ScopeRequest where
  | close (kind : ScopeKind)
  | declare (name : String) (t : Ty)
  | lookup (name : String)
  | loopLabels
  | scopesToLoop
  | noteBreak
  | noteContinue

def ScopeRequest.perform : ScopeRequest → Gen Reply
  | close kind => Reply.scope <$> Gen.changeScopes (·.pop kind)
  | declare x t => Reply.symbol <$> Gen.declare x t
  | lookup x => Reply.symbol <$> Gen.lookup x
  | loopLabels => Reply.labels <$> Gen.ask (·.scopes.loopLabels)
  | scopesToLoop => Reply.exits <$> Gen.ask (·.scopes.scopesToLoop)
  | noteBreak => Reply.number <$> Gen.change Context.noteBreak
  | noteContinue =>
    (fun _ => Reply.nothing) <$> Gen.change fun ctx => return ((), ← ctx.noteContinue)

section Runs

variable {α β : Type} {g g' : Generator} {e : LoweringError}

theorem eq_of_run {p q : Gen α} (h : ∀ g, p.run.run g = q.run.run g) : p = q :=
  funext h

theorem run_changeScopes_error {f : ScopeStack → Except LoweringError (α × ScopeStack)}
    (h : f g.context.scopes = .error e) : (Gen.changeScopes f).run.run g = (.error e, g) := by
  refine Gen.run_change_error ?_
  rw [h]
  rfl

theorem run_map_eq_error {p : Gen α} {f : α → β} :
    (f <$> p).run.run g = (.error e, g') ↔ p.run.run g = (.error e, g') := by
  rw [ExceptT.run_map, StateT.run_map]
  rcases p.run.run g with ⟨e' | a, g₁⟩
  · constructor <;> intro h <;> cases h <;> rfl
  · constructor <;> intro h <;> cases h

theorem run_ask_eq_error {f : Context → Except LoweringError α} :
    (Gen.ask f).run.run g = (.error e, g') ↔ f g.context = .error e ∧ g' = g := by
  rw [Gen.run_ask, Prod.mk.injEq, eq_comm (a := g)]

theorem run_change_eq_error {f : Context → Except LoweringError (α × Context)} :
    (Gen.change f).run.run g = (.error e, g') ↔ f g.context = .error e ∧ g' = g := by
  cases h : f g.context with
  | error e' =>
    rw [Gen.run_change_error h, Prod.mk.injEq, Except.error.injEq, Except.error.injEq,
      eq_comm (a := g)]
  | ok r =>
    rw [Gen.run_change_ok h]
    constructor
    · intro h'
      cases h'
    · rintro ⟨h', -⟩
      cases h'

theorem run_changeScopes_eq_error {f : ScopeStack → Except LoweringError (α × ScopeStack)} :
    (Gen.changeScopes f).run.run g = (.error e, g') ↔
      f g.context.scopes = .error e ∧ g' = g := by
  rw [Gen.changeScopes, run_change_eq_error]
  cases f g.context.scopes with
  | error e' =>
    constructor <;> rintro ⟨h, rfl⟩ <;> cases h <;> exact ⟨rfl, rfl⟩
  | ok r =>
    constructor <;> rintro ⟨h, -⟩ <;> cases h

end Runs

/-! ### Small changes, one after another -/

namespace InPlace

/-- Changes the open scopes. -/
def setScopes (f : List Scope → List Scope) : Gen Unit :=
  modify fun g => g.withScopes { g.context.scopes with scopes := f g.context.scopes.scopes }

/-- Changes the innermost scope. -/
def setTop (f : Scope → Scope) : Gen Unit :=
  setScopes (List.modifyHead f)

/-- Takes the innermost scope off, and puts it back if it is of another kind. -/
def close (kind : ScopeKind) : Gen Scope := do
  match (← get).context.scopes.scopes with
  | [] => throw (.scope (.nothingToClose kind))
  | scope :: _ =>
    setScopes List.tail
    if scope.kind = kind then
      let scope := scope.complete
      modify fun g => g.withScopes
        { g.context.scopes with closed := (scope.id, scope.localSize) :: g.context.scopes.closed }
      return scope
    else
      setScopes (scope :: ·)
      throw (.scope (.closesOther kind scope.kind))

/-- Moves the cursor of the innermost scope for a value of type `t`, and gives its offset. -/
def moveCursor (scope : Scope) (x : String) (t : Ty) : Gen Int := do
  if scope.kind = .parameter then
    setTop fun s => { s with cursor := s.cursor - parameterSlot }
    return scope.cursor
  else
    match Scope.place? scope.cursor t with
    | none => throw (.unsupported (.beyondFrame x))
    | some stop =>
      setTop ({ · with cursor := stop })
      return stop

/-- Moves the cursor of the innermost scope first, and then adds the symbol. -/
def declare (x : String) (t : Ty) : Gen Symbol := do
  match (← get).context.scopes.scopes with
  | [] => throw (.scope (.nowhereToDeclare x))
  | scope :: _ =>
    if (scope.get? x).isSome then throw (.duplicateSymbol x)
    let offset ← moveCursor scope x t
    setTop fun s => { s with symbols := s.symbols ++ [⟨x, t, offset⟩] }
    return ⟨x, t, offset⟩

/-- Adds an exit to those that wait for their loop. -/
def addExit (exit : LoopExit) : Gen Unit :=
  modify fun g =>
    { g with context := { g.context with pending := g.context.pending ++ [exit] } }

/-- Counts the placeholder first, and then adds the exit. -/
def noteBreak : Gen Nat := do
  let found ← Gen.ask (·.scopes.scopesToLoop)
  let marker := (← get).context.markers
  modify fun g => { g with context := { g.context with markers := g.context.markers + 1 } }
  addExit (.break_ found.1 marker found.2)
  return marker

def noteContinue : Gen Unit := do
  let found ← Gen.ask (·.scopes.scopesToLoop)
  addExit (.continue_ found.1 found.2.dropLast)

theorem close_eq (kind : ScopeKind) : close kind = Gen.changeScopes (·.pop kind) := by
  refine eq_of_run fun g => ?_
  obtain ⟨⟨declarations, ⟨scopes, nextId, closed⟩, labels, pending, markers⟩, result⟩ := g
  cases scopes with
  | nil => rfl
  | cons scope rest =>
    refine (Gen.run_bind_ok rfl).trans ((Gen.run_bind_ok rfl).trans ?_)
    by_cases hk : scope.kind = kind
    · have hpop := ScopeStack.pop_eq_ok.2
        ⟨scope, rest, (rfl : (ScopeStack.mk (scope :: rest) nextId closed).scopes = _), hk, rfl,
          rfl⟩
      rw [if_pos hk, Gen.returns_changeScopes.2 ⟨_, hpop, rfl⟩]
      rfl
    · have hpop : (ScopeStack.mk (scope :: rest) nextId closed).pop kind =
          .error (.scope (.closesOther kind scope.kind)) := if_neg hk
      rw [if_neg hk, run_changeScopes_error hpop]
      rfl

section Declare

variable {g : Generator} {scope : Scope} {rest : List Scope} {x : String} {t : Ty}

theorem run_declare_error {e : LoweringError} (hs : g.context.scopes.scopes = scope :: rest)
    (h : scope.allocate x t = .error e) : (Gen.declare x t).run.run g = (.error e, g) := by
  refine run_changeScopes_error ?_
  simp only [ScopeStack.declare, hs, h]
  rfl

theorem run_declare_ok {symbol : Symbol} {scope' : Scope}
    (hs : g.context.scopes.scopes = scope :: rest) (h : scope.allocate x t = .ok (symbol, scope')) :
    (Gen.declare x t).run.run g =
      (.ok symbol, g.withScopes { g.context.scopes with scopes := scope' :: rest }) := by
  refine Gen.returns_changeScopes.2 ⟨_, ?_, rfl⟩
  exact ScopeStack.declare_eq_ok.2 ⟨scope, scope', rest, hs, h, rfl⟩

end Declare

theorem declare_eq (x : String) (t : Ty) : declare x t = Gen.declare x t := by
  refine eq_of_run fun g => ?_
  obtain ⟨⟨declarations, ⟨scopes, nextId, closed⟩, labels, pending, markers⟩, result⟩ := g
  cases scopes with
  | nil => rfl
  | cons scope rest =>
    refine (Gen.run_bind_ok rfl).trans ?_
    -- both sides look for the name first, and then ask where the value goes
    by_cases hx : (scope.get? x).isSome
    · have hallocate : scope.allocate x t = .error (.duplicateSymbol x) := if_pos hx
      rw [run_declare_error rfl hallocate]
      simp only [if_pos hx]
      rfl
    simp only [if_neg hx]
    by_cases hk : scope.kind = .parameter
    · have hallocate : scope.allocate x t = .ok (⟨x, t, scope.cursor⟩,
          scope.add ⟨x, t, scope.cursor⟩ (scope.cursor - parameterSlot)) :=
        (if_neg hx).trans (if_pos hk)
      rw [run_declare_ok rfl hallocate, moveCursor, if_pos hk]
      rfl
    cases hp : Scope.place? scope.cursor t with
    | none =>
      have hallocate : scope.allocate x t = .error (.unsupported (.beyondFrame x)) := by
        simp only [Scope.allocate, if_neg hx, if_neg hk, hp]
      rw [run_declare_error rfl hallocate]
      simp only [moveCursor, if_neg hk, hp]
      rfl
    | some stop =>
      have hallocate : scope.allocate x t = .ok (⟨x, t, stop⟩, scope.add ⟨x, t, stop⟩ stop) := by
        simp only [Scope.allocate, if_neg hx, if_neg hk, hp]
      rw [run_declare_ok rfl hallocate]
      simp only [moveCursor, if_neg hk, hp]
      rfl

theorem noteBreak_eq : noteBreak = Gen.change Context.noteBreak := by
  refine eq_of_run fun g => ?_
  cases h : g.context.scopes.scopesToLoop with
  | error e =>
    have hnote : g.context.noteBreak = .error e := by
      rw [Context.noteBreak, h]
      rfl
    rw [Gen.run_change_error hnote]
    exact Gen.run_bind_error (by rw [Gen.run_ask, h])
  | ok found =>
    have hnote : g.context.noteBreak = .ok (g.context.markers,
        { g.context with
          markers := g.context.markers + 1
          pending := g.context.pending ++ [.break_ found.1 g.context.markers found.2] }) := by
      rw [Context.noteBreak, h]
      rfl
    rw [Gen.run_change_ok hnote]
    exact Gen.run_bind_ok (by rw [Gen.run_ask, h])

theorem noteContinue_eq :
    noteContinue = Gen.change fun ctx => return ((), ← ctx.noteContinue) := by
  refine eq_of_run fun g => ?_
  cases h : g.context.scopes.scopesToLoop with
  | error e =>
    have hnote : g.context.noteContinue = .error e := by
      rw [Context.noteContinue, h]
      rfl
    rw [Gen.run_change_error (by rw [hnote]; rfl)]
    exact Gen.run_bind_error (by rw [Gen.run_ask, h])
  | ok found =>
    have hnote : g.context.noteContinue = .ok
        { g.context with
          pending := g.context.pending ++ [.continue_ found.1 found.2.dropLast] } := by
      rw [Context.noteContinue, h]
      rfl
    rw [Gen.run_change_ok (by rw [hnote]; rfl)]
    exact Gen.run_bind_ok (by rw [Gen.run_ask, h])

end InPlace

/-- The operations as small changes. -/
def ScopeRequest.inPlace : ScopeRequest → Gen Reply
  | close kind => Reply.scope <$> InPlace.close kind
  | declare x t => Reply.symbol <$> InPlace.declare x t
  | noteBreak => Reply.number <$> InPlace.noteBreak
  | noteContinue => (fun _ => Reply.nothing) <$> InPlace.noteContinue
  -- the others change nothing
  | lookup x => perform (lookup x)
  | loopLabels => perform loopLabels
  | scopesToLoop => perform scopesToLoop

theorem inPlace_eq_perform (r : ScopeRequest) : r.inPlace = r.perform := by
  cases r with
  | close kind => rw [ScopeRequest.inPlace, InPlace.close_eq, ScopeRequest.perform]
  | declare x t => rw [ScopeRequest.inPlace, InPlace.declare_eq, ScopeRequest.perform]
  | noteBreak => rw [ScopeRequest.inPlace, InPlace.noteBreak_eq, ScopeRequest.perform]
  | noteContinue => rw [ScopeRequest.inPlace, InPlace.noteContinue_eq, ScopeRequest.perform]
  | lookup x => rfl
  | loopLabels => rfl
  | scopesToLoop => rfl

/-! ### Faults -/

/-- No scope of the function at hand is a loop: before one comes the scope of the function. -/
def OutsideLoop (scopes : List Scope) : Prop :=
  ∀ inner s outer, scopes = inner ++ s :: outer → s.kind.isLoop → s.labels.isSome →
    ∃ f ∈ inner, f.kind = .function

/-- When an operation cannot be done in the open scopes, innermost first, and why. -/
inductive Faults : List Scope → ScopeRequest → LoweringError → Prop where
  | nothingToClose {kind : ScopeKind} :
    Faults [] (.close kind) (.scope (.nothingToClose kind))
  | closesOther {kind : ScopeKind} {s : Scope} {rest : List Scope} (h : s.kind ≠ kind) :
    Faults (s :: rest) (.close kind) (.scope (.closesOther kind s.kind))
  | nowhereToDeclare {x : String} {t : Ty} :
    Faults [] (.declare x t) (.scope (.nowhereToDeclare x))
  | duplicate {x : String} {t : Ty} {s : Scope} {rest : List Scope}
      (h : x ∈ s.symbols.map Symbol.name) : Faults (s :: rest) (.declare x t) (.duplicateSymbol x)
  /-- A value has to end within the largest frame. Parameters have slots outside of it. -/
  | beyondFrame {x : String} {t : Ty} {s : Scope} {rest : List Scope}
      (hx : x ∉ s.symbols.map Symbol.name) (hk : s.kind ≠ .parameter)
      (h : 0x80000000 ≤ t.alignedSize ∨
        (maxFrameSize : Int) < alignUp s.cursor t.alignment + t.alignedSize) :
    Faults (s :: rest) (.declare x t) (.unsupported (.beyondFrame x))
  | undefined {x : String} {scopes : List Scope}
      (h : ∀ s ∈ scopes, x ∉ s.symbols.map Symbol.name) :
    Faults scopes (.lookup x) (.undefinedSymbol x)
  | unlabelled {scopes : List Scope} (h : ∀ s ∈ scopes, s.labels = none) :
    Faults scopes .loopLabels (.scope .outsideLoop)
  | outsideLoop {scopes : List Scope} {r : ScopeRequest} (h : OutsideLoop scopes)
      (hr : r = .scopesToLoop ∨ r = .noteBreak ∨ r = .noteContinue) :
    Faults scopes r (.scope .outsideLoop)

theorem get?_isSome_iff {s : Scope} {x : String} :
    (s.get? x).isSome ↔ x ∈ s.symbols.map Symbol.name := by
  simp [Scope.get?, List.find?_isSome]

theorem find?_eq_none_iff {stack : ScopeStack} {x : String} :
    stack.find? x = none ↔ ∀ s ∈ stack.scopes, x ∉ s.symbols.map Symbol.name := by
  simp only [ScopeStack.find?, List.findSome?_eq_none_iff]
  refine forall₂_congr fun s _ => ?_
  rw [← get?_isSome_iff, Option.not_isSome_iff_eq_none]

theorem toLoop?_eq_none_iff {scopes : List Scope} :
    ScopeStack.toLoop? scopes = none ↔ OutsideLoop scopes := by
  induction scopes with
  | nil =>
    refine iff_of_true rfl ?_
    intro inner s outer h
    simp at h
  | cons top rest ih =>
    rw [ScopeStack.toLoop?]
    split
    · rename_i hloop
      rw [Bool.and_eq_true] at hloop
      refine iff_of_false (by simp) ?_
      intro hout
      obtain ⟨f, hf, -⟩ := hout [] top rest rfl hloop.1 hloop.2
      cases hf
    · rename_i hloop
      rw [Bool.and_eq_true] at hloop
      split
      · rename_i hfun
        refine iff_of_true rfl ?_
        intro inner s outer hsplit hl hs
        cases inner with
        | nil =>
          cases hsplit
          exact absurd ⟨hl, hs⟩ hloop
        | cons f inner =>
          cases hsplit
          exact ⟨top, List.mem_cons_self, hfun⟩
      · rename_i hfun
        rw [Option.map_eq_none_iff, ih]
        constructor
        · intro hout inner s outer hsplit hl hs
          cases inner with
          | nil =>
            cases hsplit
            exact absurd ⟨hl, hs⟩ hloop
          | cons f inner =>
            cases hsplit
            obtain ⟨f, hf, hkind⟩ := hout inner s outer rfl hl hs
            exact ⟨f, List.mem_cons_of_mem _ hf, hkind⟩
        · rintro hout inner s outer rfl hl hs
          obtain ⟨f, hf, hkind⟩ := hout (top :: inner) s outer rfl hl hs
          rcases List.mem_cons.1 hf with rfl | hf
          · exact absurd hkind hfun
          · exact ⟨f, hf, hkind⟩

theorem place?_eq_none_iff {cursor : Int} {t : Ty} :
    Scope.place? cursor t = none ↔
      0x80000000 ≤ t.alignedSize ∨
        (maxFrameSize : Int) < alignUp cursor t.alignment + t.alignedSize := by
  unfold Scope.place?
  simp only [ite_eq_right_iff, reduceCtorEq, imp_false, not_and_or, not_lt, not_le]

variable {stack : ScopeStack} {x : String} {t : Ty} {e : LoweringError}

theorem pop_eq_error {kind : ScopeKind} :
    stack.pop kind = .error e ↔ Faults stack.scopes (.close kind) e := by
  obtain ⟨scopes, nextId, closed⟩ := stack
  constructor
  · intro h
    cases scopes with
    | nil =>
      cases h
      exact .nothingToClose
    | cons top rest =>
      by_cases hk : top.kind = kind
      · cases (if_pos hk).symm.trans h
      · cases (if_neg hk).symm.trans h
        exact .closesOther hk
  · intro h
    cases h with
    | nothingToClose => rfl
    | closesOther hk => exact if_neg hk
    | outsideLoop _ hr => simp at hr

theorem allocate_eq_error {s : Scope} {rest : List Scope} :
    s.allocate x t = .error e ↔ Faults (s :: rest) (.declare x t) e := by
  unfold Scope.allocate
  constructor
  · intro h
    split at h
    · rename_i hx
      cases h
      exact .duplicate (get?_isSome_iff.1 hx)
    · rename_i hx
      split at h
      · cases h
      · rename_i hk
        split at h
        · rename_i hp
          cases h
          exact .beyondFrame (fun hmem => hx (get?_isSome_iff.2 hmem)) hk (place?_eq_none_iff.1 hp)
        · cases h
  · intro h
    cases h with
    | duplicate hx => exact if_pos (get?_isSome_iff.2 hx)
    | beyondFrame hx hk hp =>
      rw [if_neg (fun hsome => hx (get?_isSome_iff.1 hsome)), if_neg hk, place?_eq_none_iff.2 hp]
    | outsideLoop _ hr => simp at hr

theorem declare_eq_error : stack.declare x t = .error e ↔ Faults stack.scopes (.declare x t) e := by
  obtain ⟨scopes, nextId, closed⟩ := stack
  cases scopes with
  | nil =>
    constructor
    · intro h
      cases h
      exact .nowhereToDeclare
    · intro h
      cases h with
      | nowhereToDeclare => rfl
      | outsideLoop _ hr => simp at hr
  | cons top rest =>
    rw [← allocate_eq_error]
    simp only [ScopeStack.declare]
    cases top.allocate x t with
    | error e' => constructor <;> intro h <;> cases h <;> rfl
    | ok r => constructor <;> intro h <;> cases h

theorem lookup_eq_error : stack.lookup x = .error e ↔ Faults stack.scopes (.lookup x) e := by
  unfold ScopeStack.lookup
  constructor
  · intro h
    split at h
    · cases h
    · rename_i hnone
      cases h
      exact .undefined (find?_eq_none_iff.1 hnone)
  · intro h
    obtain ⟨scopes, nextId, closed⟩ := stack
    cases h with
    | undefined h => rw [find?_eq_none_iff.2 h]
    | outsideLoop _ hr => simp at hr

theorem loopLabels_eq_error : stack.loopLabels = .error e ↔ Faults stack.scopes .loopLabels e := by
  unfold ScopeStack.loopLabels
  constructor
  · intro h
    split at h
    · cases h
    · rename_i hnone
      cases h
      exact .unlabelled (List.findSome?_eq_none_iff.1 hnone)
  · intro h
    obtain ⟨scopes, nextId, closed⟩ := stack
    cases h with
    | unlabelled h => rw [List.findSome?_eq_none_iff.2 h]
    | outsideLoop _ hr => simp at hr

theorem scopesToLoop_eq_error {r : ScopeRequest}
    (hr : r = .scopesToLoop ∨ r = .noteBreak ∨ r = .noteContinue) :
    stack.scopesToLoop = .error e ↔ Faults stack.scopes r e := by
  unfold ScopeStack.scopesToLoop
  constructor
  · intro h
    split at h
    · cases h
    · rename_i hnone
      cases h
      exact .outsideLoop (toLoop?_eq_none_iff.1 hnone) hr
  · intro h
    obtain ⟨scopes, nextId, closed⟩ := stack
    cases h with
    | outsideLoop h _ => rw [toLoop?_eq_none_iff.2 h]
    | _ => simp at hr

/-- A `break` or a `continue` is noted as soon as the loop has been found. -/
theorem noteBreak_eq_error {ctx : Context} :
    ctx.noteBreak = .error e ↔ ctx.scopes.scopesToLoop = .error e := by
  unfold Context.noteBreak
  cases ctx.scopes.scopesToLoop with
  | error e' => constructor <;> intro h <;> cases h <;> rfl
  | ok found => constructor <;> intro h <;> cases h

theorem noteContinue_eq_error {ctx : Context} :
    (do return ((), ← ctx.noteContinue) : Except LoweringError (Unit × Context)) = .error e ↔
      ctx.scopes.scopesToLoop = .error e := by
  unfold Context.noteContinue
  cases ctx.scopes.scopesToLoop with
  | error e' => constructor <;> intro h <;> cases h <;> rfl
  | ok found => constructor <;> intro h <;> cases h

/-- An operation on scopes fails exactly if it is faulty, and then it changes nothing. -/
theorem run_inPlace_eq_error {r : ScopeRequest} {g g' : Generator} :
    r.inPlace.run.run g = (.error e, g') ↔ Faults g.context.scopes.scopes r e ∧ g' = g := by
  rw [inPlace_eq_perform]
  cases r with
  | close kind =>
    rw [ScopeRequest.perform, run_map_eq_error, run_changeScopes_eq_error, pop_eq_error]
  | declare x t =>
    rw [ScopeRequest.perform, run_map_eq_error, Gen.declare, run_changeScopes_eq_error,
      declare_eq_error]
  | lookup x =>
    rw [ScopeRequest.perform, run_map_eq_error, Gen.lookup, run_ask_eq_error, Context.lookup,
      lookup_eq_error]
  | loopLabels =>
    rw [ScopeRequest.perform, run_map_eq_error, run_ask_eq_error, loopLabels_eq_error]
  | scopesToLoop =>
    rw [ScopeRequest.perform, run_map_eq_error, run_ask_eq_error, scopesToLoop_eq_error (.inl rfl)]
  | noteBreak =>
    rw [ScopeRequest.perform, run_map_eq_error, run_change_eq_error, noteBreak_eq_error,
      scopesToLoop_eq_error (.inr (.inl rfl))]
  | noteContinue =>
    rw [ScopeRequest.perform, run_map_eq_error, run_change_eq_error, noteContinue_eq_error,
      scopesToLoop_eq_error (.inr (.inr rfl))]

/-! ### Sessions -/

/-- The operations on the state. -/
inductive Request where
  | scope (r : ScopeRequest)
  | openScope (kind : ScopeKind) (labels : Option LoopLabels)
  | closedSize (id : Nat)
  | depth
  | clear
  | freshLabel (kind : LabelKind)
  | beginFunction
  /-- The exits of a loop that has been closed. They no longer wait afterwards, also if this
  fails. -/
  | settle (loop : Nat) (code : Code)
  | typeOf (descriptor : String)
  /-- The declarations of a program, after those that are known. -/
  | declarations (p : Program)
  /-- A whole statement, which may fail in the middle. -/
  | statement (s : Stmt)

def Request.perform : Request → Gen Reply
  | scope r => r.inPlace
  | openScope kind labels => Reply.number <$> Gen.openScope kind labels
  | closedSize id => return .size ((← get).context.scopes.closedSize? id)
  | depth => return .number (← get).context.scopes.depth
  | clear => do
    modify fun g => g.withScopes g.context.scopes.clear
    return .nothing
  | freshLabel kind => Reply.number <$> Gen.freshLabel kind
  | beginFunction => do
    modify fun g => { g with context := g.context.beginFunction }
    return .nothing
  | settle loop code => Reply.code <$> Gen.settle loop code
  | typeOf descriptor => Reply.type <$> Gen.ask (·.typeOf descriptor)
  | declarations p => do
    modify fun g => { g with
      context.toDeclarations := (Declarations.add g.context.toDeclarations p).1 }
    return .nothing
  | statement s => Reply.code <$> s.lower

/-- The answers to requests, one after another, and the state in the end. A request that fails does
not end the session. -/
def run (g : Generator) : List Request → List (Except LoweringError Reply) × Generator
  | [] => ([], g)
  | r :: rest =>
    let (answer, g) := r.perform.run.run g
    let (answers, g) := run g rest
    (answer :: answers, g)

theorem run_cons (g : Generator) (r : Request) (rest : List Request) :
    run g (r :: rest) =
      ((r.perform.run.run g).1 :: (run (r.perform.run.run g).2 rest).1,
        (run (r.perform.run.run g).2 rest).2) :=
  rfl

theorem run_append (g : Generator) (before after : List Request) :
    run g (before ++ after) =
      ((run g before).1 ++ (run (run g before).2 after).1, (run (run g before).2 after).2) := by
  induction before generalizing g with
  | nil => rfl
  | cons r rest ih => rw [List.cons_append, run_cons, run_cons, ih, List.cons_append]

/-- In every session, an operation on scopes fails exactly if it is faulty. Then the whole state is
as it was, and the session goes on as it does without the operation. -/
theorem failed_leaves_no_trace (g : Generator) (before after : List Request) (r : ScopeRequest)
    (e : LoweringError) :
    r.inPlace = r.perform ∧
      ((r.inPlace.run.run (run g before).2).1 = .error e ↔
        Faults (run g before).2.context.scopes.scopes r e) ∧
      (Faults (run g before).2.context.scopes.scopes r e →
        r.inPlace.run.run (run g before).2 = (.error e, (run g before).2) ∧
          (run g (before ++ Request.scope r :: after)).2 = (run g (before ++ after)).2 ∧
          ∃ answers, (run g (before ++ after)).1 = (run g before).1 ++ answers ∧
            (run g (before ++ Request.scope r :: after)).1 =
              (run g before).1 ++ Except.error e :: answers) := by
  refine ⟨inPlace_eq_perform r, ⟨fun h => ?_, fun h => ?_⟩, fun h => ?_⟩
  · exact (run_inPlace_eq_error.1 (Prod.ext h rfl)).1
  · rw [run_inPlace_eq_error.2 ⟨h, rfl⟩]
  · have hfailed : r.inPlace.run.run (run g before).2 = (.error e, (run g before).2) :=
      run_inPlace_eq_error.2 ⟨h, rfl⟩
    have hnext : run (run g before).2 (.scope r :: after) =
        (.error e :: (run (run g before).2 after).1, (run (run g before).2 after).2) := by
      rw [run_cons, Request.perform, hfailed]
    rw [run_append, run_append, hnext]
    exact ⟨hfailed, rfl, _, rfl, rfl⟩

/-- The body of a function is to be closed as a loop, and then as what it is. -/
theorem failed_leaves_no_trace_of_close :
    Faults (run {} [.openScope .function none]).2.context.scopes.scopes (.close .whileLoop)
        (.scope (.closesOther .whileLoop .function)) ∧
      (run {}
        [.openScope .function none, .scope (.close .whileLoop), .scope (.close .function)]).2 =
        (run {} [.openScope .function none, .scope (.close .function)]).2 := by
  have h : Faults (run {} [.openScope .function none]).2.context.scopes.scopes (.close .whileLoop)
      (.scope (.closesOther .whileLoop .function)) := .closesOther (by decide)
  have hsession := failed_leaves_no_trace {} [.openScope .function none]
    [.scope (.close .function)] (.close .whileLoop) (.scope (.closesOther .whileLoop .function))
  exact ⟨h, (hsession.2.2 h).2.1⟩

end GLang.Session
