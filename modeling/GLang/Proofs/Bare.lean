import GLang.Proofs.Generation
import GLang.Proofs.Names

/-!
# What a block can see

The code of an expression depends on the declarations of the program and on what each of its names
stands for, and on nothing else in the context: `Context.AlikeOn` and `Expr.lower_congr`. Types and
sizes do not even depend on the numbers of string literals: `Context.SameOn`. The numbers and labels
of scopes, the sizes of closed scopes and the exits that wait are bookkeeping. `Context.bare` takes
a context without them, and the states that statements pass through are then computed from the
statements alone:

* `Context.enter`: at the start of a block,
* `Context.past`, `Context.pastAll`, `Context.pastClause`: after a statement, only a declaration of
  which leaves something behind,
* `Context.frameSize`: the bytes that the innermost block reserves once it is closed.
-/

namespace GLang

open Asm

theorem ScopeStack.find?_eq_of_lookup {s s' : ScopeStack} {x : String}
    (h : s.lookup x = s'.lookup x) : s.find? x = s'.find? x := by
  unfold lookup at h
  cases hs : s.find? x <;> cases hs' : s'.find? x <;> simp_all

/-- Two contexts in which the names `names` stand for the same. String literals may have other
numbers. -/
structure Context.SameOn (names : List String) (ctx ctx' : Context) : Prop where
  functions : ctx.functions = ctx'.functions
  structs : ctx.structs = ctx'.structs
  find : ∀ x ∈ names, ctx.scopes.find? x = ctx'.scopes.find? x

namespace Context.SameOn

variable {names names' : List String} {ctx ctx' : Context} (h : ctx.SameOn names ctx')

include h

theorem mono (hsub : names' ⊆ names) : ctx.SameOn names' ctx' where
  functions := h.functions
  structs := h.structs
  find x hx := h.find x (hsub hx)

theorem left {names₁ names₂ : List String} (hnames : names = names₁ ++ names₂) :
    ctx.SameOn names₁ ctx' :=
  h.mono (hnames ▸ List.subset_append_left _ _)

theorem right {names₁ names₂ : List String} (hnames : names = names₁ ++ names₂) :
    ctx.SameOn names₂ ctx' :=
  h.mono (hnames ▸ List.subset_append_right _ _)

theorem lookup {x : String} (hx : x ∈ names) : ctx.lookup x = ctx'.lookup x := by
  unfold Context.lookup ScopeStack.lookup
  rw [h.find x hx]

theorem typeOf (type : String) : ctx.typeOf type = ctx'.typeOf type := by
  unfold Context.typeOf
  rw [h.structs]

end Context.SameOn

/-- Two contexts in which all names stand for the same. -/
structure Context.SameNames (ctx ctx' : Context) : Prop where
  functions : ctx.functions = ctx'.functions
  structs : ctx.structs = ctx'.structs
  find : ∀ x, ctx.scopes.find? x = ctx'.scopes.find? x

namespace Context.SameNames

variable {ctx ctx' : Context} (h : ctx.SameNames ctx')

include h

theorem on (names : List String) : ctx.SameOn names ctx' :=
  ⟨h.functions, h.structs, fun x _ => h.find x⟩

theorem lookup (x : String) : ctx.lookup x = ctx'.lookup x :=
  (h.on [x]).lookup List.mem_cons_self

theorem typeOf (type : String) : ctx.typeOf type = ctx'.typeOf type :=
  (h.on []).typeOf type

end Context.SameNames

/-- Two contexts in which expressions with the variables `names` mean the same. -/
structure Context.AlikeOn (names : List String) (ctx ctx' : Context) : Prop where
  declarations : ctx.toDeclarations = ctx'.toDeclarations
  find : ∀ x ∈ names, ctx.scopes.find? x = ctx'.scopes.find? x

namespace Context.AlikeOn

variable {names names' : List String} {ctx ctx' : Context} (h : ctx.AlikeOn names ctx')

include h

theorem sameOn : ctx.SameOn names ctx' where
  functions := congrArg Declarations.functions h.declarations
  structs := congrArg Declarations.structs h.declarations
  find := h.find

theorem mono (hsub : names' ⊆ names) : ctx.AlikeOn names' ctx' where
  declarations := h.declarations
  find x hx := h.find x (hsub hx)

theorem left {names₁ names₂ : List String} (hnames : names = names₁ ++ names₂) :
    ctx.AlikeOn names₁ ctx' :=
  h.mono (hnames ▸ List.subset_append_left _ _)

theorem right {names₁ names₂ : List String} (hnames : names = names₁ ++ names₂) :
    ctx.AlikeOn names₂ ctx' :=
  h.mono (hnames ▸ List.subset_append_right _ _)

theorem literals : ctx.literals = ctx'.literals :=
  congrArg Declarations.literals h.declarations

theorem lookup {x : String} (hx : x ∈ names) : ctx.lookup x = ctx'.lookup x :=
  h.sameOn.lookup hx

end Context.AlikeOn

/-- Two contexts in which expressions mean the same. -/
structure Context.Alike (ctx ctx' : Context) : Prop where
  declarations : ctx.toDeclarations = ctx'.toDeclarations
  find : ∀ x, ctx.scopes.find? x = ctx'.scopes.find? x

namespace Context.Alike

variable {ctx ctx' : Context} (h : ctx.Alike ctx')

include h

theorem on (names : List String) : ctx.AlikeOn names ctx' :=
  ⟨h.declarations, fun x _ => h.find x⟩

theorem sameNames : ctx.SameNames ctx' where
  functions := congrArg Declarations.functions h.declarations
  structs := congrArg Declarations.structs h.declarations
  find := h.find

theorem lookup (x : String) : ctx.lookup x = ctx'.lookup x :=
  h.sameNames.lookup x

theorem typeOf (type : String) : ctx.typeOf type = ctx'.typeOf type :=
  h.sameNames.typeOf type

end Context.Alike

namespace Expr

variable {ctx ctx' : Context}

theorem mapM_lookup_congr {names : List String} (h : ctx.SameOn names ctx') :
    names.mapM ctx.lookup = names.mapM ctx'.lookup := by
  induction names with
  | nil => rfl
  | cons x names ih =>
    rw [List.mapM_cons, List.mapM_cons, h.lookup List.mem_cons_self,
      ih (h.mono (List.subset_cons_self _ _))]

theorem inferFromLeaves_congr {e : Expr} (h : ctx.SameOn e.names ctx') :
    inferFromLeaves ctx e = inferFromLeaves ctx' e := by
  have hleaves := mapM_lookup_congr (h.mono e.variableNames_nodes_subset)
  simp only [inferFromLeaves, hleaves, h.functions]

theorem inferWith_congr {e : Expr} (h : ctx.SameOn e.names ctx')
    (read : Option (Except LoweringError Ty)) : inferWith ctx e read = inferWith ctx' e read := by
  unfold inferWith
  rw [inferFromLeaves_congr h]
  split
  · exact h.typeOf _
  · split
    · rename_i hx
      rw [h.lookup (mem_names_of_firstAddressOf? hx)]
    · rfl

mutual

theorem infer_congr : ∀ {e : Expr}, ctx.SameOn e.names ctx' → infer ctx e = infer ctx' e
  | .deref e, h => by rw [infer, infer, infer_congr (e := e) h]
  | .binary op l r, h => by
    have hl : ctx.SameOn l.names ctx' := h.left rfl
    have hr : ctx.SameOn r.names ctx' := h.right rfl
    rw [infer, infer, inferWith_congr h, derefHere?_congr hl, derefHere?_congr hr,
      derefBelow?_congr hl, derefBelow?_congr hr]
  | .cast e target, h => by rw [infer, infer, inferWith_congr h]
  | .negate e, h => by
    rw [infer, infer, inferWith_congr h, derefHere?_congr (e := e) h, derefBelow?_congr (e := e) h]
  | .step op order e, h => by
    rw [infer, infer, inferWith_congr h, derefHere?_congr (e := e) h, derefBelow?_congr (e := e) h]
  | .int n, h => by rw [infer, infer, inferWith_congr h]
  | .str raw, h => by rw [infer, infer, inferWith_congr h]
  | .var x, h => by rw [infer, infer, inferWith_congr h]
  | .addressOf x, h => by rw [infer, infer, inferWith_congr h]
  | .call f args, h => by rw [infer, infer, inferWith_congr h]

theorem derefHere?_congr :
    ∀ {e : Expr}, ctx.SameOn e.names ctx' → derefHere? ctx e = derefHere? ctx' e
  | .deref e, h => by rw [derefHere?, derefHere?, infer_congr (e := e) h]
  | .binary _ _ _, _ | .cast _ _, _ | .negate _, _ | .step _ _ _, _ | .int _, _ | .str _, _
  | .var _, _ | .addressOf _, _ | .call _ _, _ => by simp only [derefHere?]

theorem derefBelow?_congr :
    ∀ {e : Expr}, ctx.SameOn e.names ctx' → derefBelow? ctx e = derefBelow? ctx' e
  | .binary _ l r, h => by
    have hl : ctx.SameOn l.names ctx' := h.left rfl
    have hr : ctx.SameOn r.names ctx' := h.right rfl
    rw [derefBelow?, derefBelow?, derefHere?_congr hl, derefHere?_congr hr,
      derefBelow?_congr hl, derefBelow?_congr hr]
  | .deref e, h => by
    rw [derefBelow?, derefBelow?, derefHere?_congr (e := e) h, derefBelow?_congr (e := e) h]
  | .cast e _, h => by
    rw [derefBelow?, derefBelow?, derefHere?_congr (e := e) h, derefBelow?_congr (e := e) h]
  | .negate e, h => by
    rw [derefBelow?, derefBelow?, derefHere?_congr (e := e) h, derefBelow?_congr (e := e) h]
  | .step _ _ e, h => by
    rw [derefBelow?, derefBelow?, derefHere?_congr (e := e) h, derefBelow?_congr (e := e) h]
  | .int _, _ | .str _, _ | .var _, _ | .addressOf _, _ | .call _ _, _ => by simp only [derefBelow?]

end

theorem readType_congr {e : Expr} (h : ctx.SameOn e.names ctx') :
    e.readType ctx = e.readType ctx' := by
  unfold readType
  rw [infer_congr h]

theorem pushedSize_congr {e : Expr} (h : ctx.SameOn e.names ctx') :
    e.pushedSize ctx = e.pushedSize ctx' := by
  induction e using Expr.pushedSize.induct with
  | case1 x => simp only [pushedSize, h.lookup List.mem_cons_self]
  | case2 f args => simp only [pushedSize, h.functions]
  | case3 e => simp only [pushedSize, readType_congr (e := e) h]
  | case4 e target ih => simp only [pushedSize, ih h]
  | case5 e => simp only [pushedSize]

theorem arraySymbol?_congr {e : Expr} (h : ctx.SameOn e.names ctx') :
    e.arraySymbol? ctx = e.arraySymbol? ctx' := by
  cases e with
  | var x => simp only [arraySymbol?, h.find x List.mem_cons_self]
  | int | str | addressOf | deref | cast | binary | negate | step | call => simp only [arraySymbol?]

theorem derefCode_congr {e : Expr} (h : ctx.SameOn e.names ctx') :
    derefCode ctx e = derefCode ctx' e := by
  unfold derefCode
  rw [arraySymbol?_congr h, readType_congr h]

theorem stepCode_congr {e : Expr} (h : ctx.SameOn e.names ctx') (op : StepOp) :
    stepCode ctx op e = stepCode ctx' op e := by
  cases e with
  | var x => simp only [stepCode, h.lookup List.mem_cons_self]
  | int | str | addressOf | deref | cast | binary | negate | step | call => simp only [stepCode]

theorem callCode_congr (h : ctx.functions = ctx'.functions) (f : String) (count : Nat)
    (args : Except LoweringError (List Instr × Nat)) (keep : Bool) :
    callCode ctx f count args keep = callCode ctx' f count args keep := by
  unfold callCode
  rw [h]

mutual

/-- **The code of an expression depends only on what its names stand for.** -/
theorem lower_congr : ∀ {e : Expr}, ctx.AlikeOn e.names ctx' → e.lower ctx = e.lower ctx'
  | .int _, _ => by simp only [lower]
  | .str _, h => by rw [lower, lower, h.literals]
  | .var _, h => by rw [lower, lower, h.lookup List.mem_cons_self]
  | .addressOf _, h => by rw [lower, lower, h.lookup List.mem_cons_self]
  | .deref e, h => by
    have he : ctx.AlikeOn e.names ctx' := h
    rw [lower, lower, arraySymbol?_congr he.sameOn, lower_congr he, derefCode_congr he.sameOn]
  | .cast e _, h => by rw [lower, lower, lower_congr (e := e) h]
  | .binary _ l r, h => by
    rw [lower, lower, lower_congr (e := l) (h.left rfl), lower_congr (e := r) (h.right rfl)]
  | .negate e, h => by rw [lower, lower, lower_congr (e := e) h]
  | .step _ .before e, h => by
    have he : ctx.AlikeOn e.names ctx' := h
    rw [lower, lower, stepCode_congr he.sameOn, lower_congr he]
  | .step _ .after e, h => by
    have he : ctx.AlikeOn e.names ctx' := h
    rw [lower, lower, stepCode_congr he.sameOn, lower_congr he]
  | .call _ args, h => by
    have hargs : ctx.AlikeOn (allNames args) ctx' := h
    rw [lower, lower, callCode_congr h.sameOn.functions, lowerArgs_congr hargs]

theorem lowerArgs_congr :
    ∀ {es : List Expr}, ctx.AlikeOn (allNames es) ctx' → lowerArgs ctx es = lowerArgs ctx' es
  | [], _ => by simp only [lowerArgs]
  | e :: rest, h => by
    have he : ctx.AlikeOn e.names ctx' := h.left rfl
    have hrest : ctx.AlikeOn (allNames rest) ctx' := h.right rfl
    rw [lowerArgs, lowerArgs, lowerArgs_congr hrest, lower_congr he, pushedSize_congr he.sameOn]

end

theorem lowerCall_congr {args : List Expr} (h : ctx.AlikeOn (allNames args) ctx') (f : String)
    (keep : Bool) : lowerCall ctx f args keep = lowerCall ctx' f args keep := by
  unfold lowerCall
  rw [callCode_congr h.sameOn.functions, lowerArgs_congr h]

end Expr

/-! ### Contexts without bookkeeping -/

/-- A scope without its number and its labels. -/
def Scope.bare (s : Scope) : Scope :=
  { s with id := 0, labels := none }

@[simp] theorem Scope.get?_bare (s : Scope) (x : String) : s.bare.get? x = s.get? x := rfl

@[simp] theorem Scope.localSize_bare (s : Scope) : s.bare.localSize = s.localSize := rfl

theorem Scope.complete_bare (s : Scope) : s.bare.complete = s.complete.bare := by
  unfold Scope.complete
  split <;> split <;> first | rfl | contradiction

theorem Scope.allocate_bare {s s' : Scope} {x : String} {t : Ty} {symbol : Symbol}
    (h : s.allocate x t = .ok (symbol, s')) : s.bare.allocate x t = .ok (symbol, s'.bare) := by
  unfold Scope.allocate at h ⊢
  rw [Scope.get?_bare]
  split at h
  · cases h
  · rename_i hx
    rw [if_neg hx]
    split at h
    · rename_i hk
      cases h
      rw [if_pos (show s.bare.kind = .parameter from hk)]
      rfl
    · rename_i hk
      rw [if_neg (show ¬ s.bare.kind = .parameter from hk)]
      rw [show s.bare.cursor = s.cursor from rfl]
      cases hp : Scope.place? s.cursor t with
      | none =>
        rw [hp] at h
        cases h
      | some stop =>
        rw [hp] at h
        cases h
        rfl

/-- The live scopes without their bookkeeping. -/
def ScopeStack.bare (s : ScopeStack) : ScopeStack :=
  { scopes := s.scopes.map Scope.bare }

theorem ScopeStack.declare_bare {s s' : ScopeStack} {x : String} {t : Ty} {symbol : Symbol}
    (h : s.declare x t = .ok (symbol, s')) : s.bare.declare x t = .ok (symbol, s'.bare) := by
  obtain ⟨top, top', rest, hs, ha, rfl⟩ := declare_eq_ok.1 h
  refine declare_eq_ok.2 ⟨top.bare, top'.bare, rest.map Scope.bare, ?_, ?_, rfl⟩
  · simp [bare, hs]
  · exact Scope.allocate_bare ha

theorem ScopeStack.startOf_bare (s : ScopeStack) (kind : ScopeKind) :
    s.bare.startOf kind = s.startOf kind := by
  cases kind <;> try rfl
  all_goals
    simp only [startOf, bare]
    cases s.scopes <;> rfl

namespace Context

/-- A context without its bookkeeping. -/
def bare (ctx : Context) : Context :=
  { toDeclarations := ctx.toDeclarations, scopes := ctx.scopes.bare }

theorem alike_bare (ctx : Context) : ctx.bare.Alike ctx where
  declarations := rfl
  find x := by
    show (ctx.scopes.scopes.map Scope.bare).findSome? (·.get? x) = _
    rw [List.findSome?_map]
    rfl

/-- The context at the start of a block. -/
def enter (ctx : Context) (kind : ScopeKind) : Context :=
  { ctx with
    scopes := { ctx.scopes with
      scopes := .empty 0 kind (ctx.scopes.startOf kind) :: ctx.scopes.scopes } }

/-- The context around the innermost block. -/
def leave (ctx : Context) : Context :=
  { ctx with scopes := { ctx.scopes with scopes := ctx.scopes.scopes.tail } }

/-- The bytes that the innermost block reserves. -/
def frameSize (ctx : Context) : Nat :=
  match ctx.scopes.scopes with
  | [] => 0
  | scope :: _ => scope.complete.localSize

/-- The context after a declaration; the same context if the name cannot be declared. -/
def declared (ctx : Context) (x type : String) : Context :=
  match ctx.typeOf type with
  | .error _ => ctx
  | .ok t =>
    match ctx.scopes.declare x t with
    | .error _ => ctx
    | .ok (_, scopes) => { ctx with scopes }

/-- The context after a statement. -/
def past (ctx : Context) : Stmt → Context
  | .declare x type _ => ctx.declared x type
  | _ => ctx

/-- The context after statements. -/
def pastAll (ctx : Context) (body : List Stmt) : Context :=
  body.foldl past ctx

/-- The context after a clause of a `for` loop. -/
def pastClause (ctx : Context) : Option Stmt → Context
  | none => ctx
  | some s => ctx.past s

@[simp] theorem pastAll_nil (ctx : Context) : ctx.pastAll [] = ctx := rfl

@[simp] theorem pastAll_cons (ctx : Context) (s : Stmt) (body : List Stmt) :
    ctx.pastAll (s :: body) = (ctx.past s).pastAll body := rfl

theorem declared_eq {ctx : Context} {x type : String} {t : Ty} {symbol : Symbol}
    {scopes : ScopeStack} (ht : ctx.typeOf type = .ok t)
    (hd : ctx.scopes.declare x t = .ok (symbol, scopes)) :
    ctx.declared x type = { ctx with scopes } := by
  simp only [declared, ht, hd]

@[simp] theorem leave_enter (ctx : Context) (kind : ScopeKind) : (ctx.enter kind).leave = ctx := rfl

theorem leave_declared (ctx : Context) (x type : String) :
    (ctx.declared x type).leave = ctx.leave := by
  unfold declared
  split
  · rfl
  · split
    · rfl
    · rename_i symbol scopes hd
      obtain ⟨top, top', rest, hs, -, rfl⟩ := ScopeStack.declare_eq_ok.1 hd
      simp [leave, hs]

theorem leave_past (ctx : Context) (s : Stmt) : (ctx.past s).leave = ctx.leave := by
  unfold past
  split
  · exact leave_declared _ _ _
  · rfl

theorem leave_pastAll (body : List Stmt) :
    ∀ ctx : Context, (ctx.pastAll body).leave = ctx.leave := by
  induction body with
  | nil => intro ctx; rfl
  | cons s body ih => intro ctx; rw [pastAll_cons, ih, leave_past]

theorem leave_pastClause (ctx : Context) (clause : Option Stmt) :
    (ctx.pastClause clause).leave = ctx.leave := by
  cases clause with
  | none => rfl
  | some s => exact leave_past ctx s

/-! ### Bare contexts along a generation -/

theorem bare_openScope (ctx : Context) (kind : ScopeKind) (labels : Option LoopLabels) :
    ({ ctx with scopes := (ctx.scopes.openScope kind labels).2 } : Context).bare =
      ctx.bare.enter kind := by
  simp only [bare, enter, ScopeStack.startOf_bare]
  rfl

theorem bare_declare {ctx : Context} {x type : String} {t : Ty} {symbol : Symbol}
    {scopes : ScopeStack} (ht : ctx.typeOf type = .ok t)
    (hd : ctx.scopes.declare x t = .ok (symbol, scopes)) :
    ctx.bare.scopes.declare x t = .ok (symbol, scopes.bare) ∧
      ({ ctx with scopes } : Context).bare = ctx.bare.declared x type := by
  have hd' : ctx.bare.scopes.declare x t = .ok (symbol, scopes.bare) :=
    ScopeStack.declare_bare hd
  refine ⟨hd', ?_⟩
  rw [declared_eq (show ctx.bare.typeOf type = .ok t from ht) hd']
  rfl

theorem bare_pop {ctx : Context} {kind : ScopeKind} {scope : Scope} {scopes : ScopeStack}
    (hp : ctx.scopes.pop kind = .ok (scope, scopes)) :
    scope.localSize = ctx.bare.frameSize ∧
      ({ ctx with scopes } : Context).bare = ctx.bare.leave := by
  obtain ⟨top, rest, hs, -, rfl, rfl⟩ := ScopeStack.pop_eq_ok.1 hp
  constructor
  · simp only [frameSize, bare, ScopeStack.bare, hs, List.map_cons, Scope.complete_bare,
      Scope.localSize_bare]
  · simp [bare, ScopeStack.bare, leave, hs]

end Context

end GLang
