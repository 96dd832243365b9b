import GLang.Proofs.FrameBounds
import GLang.Proofs.WordSizes

/-!
# The frame limit

A declaration is refused if its symbol ends beyond the largest frame. What counts for this is the
cursor of one block, at the time of the declaration. A block inside starts there, but the block
around it may declare more when the inner one is closed, and takes the bytes for that at its start.
So all bytes that are reserved at a statement can be more than the largest frame, although no symbol
lies beyond it.

* `Scope.spare`: what a block reserves below its cursor,
* `Reserved`: the live scopes with the bytes that they reserve,
* `Reserved.sum_eq`: together these are the cursor and all that is spare,
* `Stmt.Holds.reserved`: this holds at every statement of a block,
* `FunctionDecl.reserved_eq`: and so at every statement of a function.
-/

namespace GLang

open Asm Gen

/-! ### Reserved bytes -/

/-- What a scope that reserves `size` bytes has below its cursor: the bytes of what it declares
later on, and those that fill up its last dword. -/
def Scope.spare (s : Scope) (size : Nat) : Int :=
  s.start + size - s.cursor

/-- The scopes, innermost first, reserve `sizes`. Each starts where the one around it stands. -/
inductive Reserved : List Scope → List Nat → Prop where
  | outside {scopes} (h : Scope.floor scopes = 0) : Reserved scopes []
  | block {s rest size sizes} (hk : s.kind ≠ .parameter) (hstart : s.start = Scope.floor rest)
      (hspare : 0 ≤ s.spare size) (hsize : size ≤ maxFrameSize) (h : Reserved rest sizes) :
      Reserved (s :: rest) (size :: sizes)

namespace Reserved

variable {scopes : List Scope} {sizes : List Nat}

theorem size_le (h : Reserved scopes sizes) : ∀ size ∈ sizes, size ≤ maxFrameSize := by
  induction h with
  | outside =>
    intro size hmem
    cases hmem
  | block _ _ _ hsize _ ih => exact List.forall_mem_cons.2 ⟨hsize, ih⟩

theorem spare_nonneg (h : Reserved scopes sizes) :
    ∀ spare ∈ List.zipWith Scope.spare scopes sizes, 0 ≤ spare := by
  induction h with
  | outside =>
    intro spare hmem
    simp at hmem
  | block _ _ hspare _ _ ih => exact List.forall_mem_cons.2 ⟨hspare, ih⟩

/-- **What is reserved is what is in use and what is spare.** -/
theorem sum_eq (h : Reserved scopes sizes) :
    (sizes.sum : Int) = Scope.floor scopes + (List.zipWith Scope.spare scopes sizes).sum := by
  induction h with
  | outside h => simp [h]
  | block hk hstart _ _ _ ih =>
    rw [List.zipWith_cons_cons, List.sum_cons, List.sum_cons, Scope.floor, if_neg hk, Scope.spare,
      hstart, Nat.cast_add, ih]
    omega

end Reserved

/-! ### Declarations in the innermost block -/

namespace Context

/-- The innermost block of `ctx` has got more symbols in `ctx'`, and all else is as it was. -/
def Grows (ctx ctx' : Context) : Prop :=
  ∀ top rest, ctx.scopes.scopes = top :: rest → top.kind ≠ .parameter →
    ∃ top', ctx'.scopes.scopes = top' :: rest ∧ top'.kind = top.kind ∧ top'.start = top.start ∧
      top.cursor ≤ top'.cursor ∧ (top.Bounded → top'.Bounded)

theorem Grows.refl (ctx : Context) : ctx.Grows ctx :=
  fun top _ hs _ => ⟨top, hs, rfl, rfl, Int.le_refl _, id⟩

theorem Grows.trans {ctx ctx₁ ctx₂ : Context} (h : ctx.Grows ctx₁) (h' : ctx₁.Grows ctx₂) :
    ctx.Grows ctx₂ := by
  intro top rest hs hk
  obtain ⟨top₁, hs₁, hk₁, hstart₁, hle₁, hb₁⟩ := h top rest hs hk
  obtain ⟨top₂, hs₂, hk₂, hstart₂, hle₂, hb₂⟩ := h' top₁ rest hs₁ (hk₁ ▸ hk)
  exact ⟨top₂, hs₂, hk₂.trans hk₁, hstart₂.trans hstart₁, Int.le_trans hle₁ hle₂, hb₂ ∘ hb₁⟩

theorem grows_past (ctx : Context) (s : Stmt) : ctx.Grows (ctx.past s) := by
  unfold past
  split
  · unfold declared
    split
    · exact .refl ctx
    · split
      · exact .refl ctx
      · rename_i hd
        intro top rest hs hk
        obtain ⟨top₁, top', rest₁, hs₁, ha, rfl⟩ := ScopeStack.declare_eq_ok.1 hd
        cases hs.symm.trans hs₁
        obtain ⟨-, -, -, hle, rfl⟩ := Scope.allocate_local hk ha
        refine ⟨_, rfl, rfl, rfl, ?_, fun hb => (hb.allocate hk ha).1⟩
        simp only [Scope.add]
        omega
  · exact .refl ctx

theorem grows_pastAll (body : List Stmt) : ∀ ctx : Context, ctx.Grows (ctx.pastAll body) := by
  induction body with
  | nil => exact .refl
  | cons s body ih => exact fun ctx => (ctx.grows_past s).trans (ih _)

theorem grows_pastClause (ctx : Context) (clause : Option Stmt) :
    ctx.Grows (ctx.pastClause clause) := by
  cases clause with
  | none => exact .refl ctx
  | some s => exact ctx.grows_past s

/-- The innermost scope is a block within the largest frame. -/
def Bounded (ctx : Context) : Prop :=
  ∃ top rest, ctx.scopes.scopes = top :: rest ∧ top.kind ≠ .parameter ∧ top.Bounded

namespace Bounded

variable {ctx ctx' : Context}

theorem grows (h : ctx.Bounded) (hg : ctx.Grows ctx') : ctx'.Bounded := by
  obtain ⟨top, rest, hs, hk, hb⟩ := h
  obtain ⟨top', hs', hk', -, -, hb'⟩ := hg top rest hs hk
  exact ⟨top', rest, hs', hk' ▸ hk, hb' hb⟩

theorem cursor_le (h : ctx.Bounded) : ctx.cursor ≤ maxFrameSize := by
  obtain ⟨top, rest, hs, -, hb⟩ := h
  simpa only [cursor, hs] using hb.cursor_le

theorem floor_eq (h : ctx.Bounded) : Scope.floor ctx.scopes.scopes = ctx.cursor := by
  obtain ⟨top, rest, hs, hk, -⟩ := h
  simp [Scope.floor, cursor, hs, hk]

end Bounded

end Context

namespace Reserved

variable {ctx ctx' : Context} {sizes : List Nat}

theorem of_grows {top : Scope} {rest : List Scope} (h : Reserved rest sizes) (hg : ctx.Grows ctx')
    (hs : ctx.scopes.scopes = top :: rest) (hk : top.kind ≠ .parameter)
    (hstart : top.start = Scope.floor rest) (hb : top.Bounded) :
    Reserved ctx'.scopes.scopes (ctx'.frameSize :: sizes) := by
  obtain ⟨top', hs', hk', hstart', -, hb'⟩ := hg top rest hs hk
  have hframe : ctx'.frameSize = top'.complete.localSize := by simp only [Context.frameSize, hs']
  have hkind : top'.kind ≠ .parameter := hk' ▸ hk
  have hle := top'.cursor_le_of_complete hkind
  rw [hs', hframe]
  refine .block hkind (hstart'.trans hstart) ?_ ((hb' hb).localSize_complete_le hkind) h
  rw [Scope.spare]
  omega

theorem before {size : Nat} (h : Reserved ctx'.scopes.scopes (size :: sizes)) (hb : ctx.Bounded)
    (hg : ctx.Grows ctx') : Reserved ctx.scopes.scopes (size :: sizes) := by
  obtain ⟨top, rest, hs, hk, -⟩ := hb
  obtain ⟨top', hs', hk', hstart', hle, -⟩ := hg top rest hs hk
  rw [hs'] at h
  rw [hs]
  cases h with
  | block _ hstart hspare hsize h =>
    refine .block hk (hstart' ▸ hstart) ?_ hsize h
    rw [Scope.spare] at hspare ⊢
    omega

end Reserved

/-! ### Statements -/

variable {ctx : Context}

/-- A block directly inside a statement is a part of a scope that starts at the statement and
reserves what it takes at its end. -/
theorem Stmt.Opens.exists_grows {s : Stmt} {ctx₁ : Context} {body : List Stmt} {size : Nat}
    (ho : s.Opens ctx ctx₁ body size) :
    ∃ kind after, (kind = .branch ∨ kind = .forLoop ∨ kind = .whileLoop) ∧
      (ctx.enter kind).Grows ctx₁ ∧ (ctx₁.pastAll body).Grows after ∧ size = after.frameSize := by
  cases ho with
  | arm => exact ⟨.branch, _, .inl rfl, .refl _, .refl _, rfl⟩
  | otherwise => exact ⟨.branch, _, .inl rfl, .refl _, .refl _, rfl⟩
  | whileBody => exact ⟨.whileLoop, _, .inr (.inr rfl), .refl _, .refl _, rfl⟩
  | forInit =>
    refine ⟨.forLoop, _, .inr (.inl rfl), .refl _, ?_, rfl⟩
    exact (Context.grows_pastAll _ _).trans (Context.grows_pastClause _ _)
  | forBody =>
    exact ⟨.forLoop, _, .inr (.inl rfl), Context.grows_pastClause _ _,
      Context.grows_pastClause _ _, rfl⟩
  | forStep =>
    refine ⟨.forLoop, _, .inr (.inl rfl), ?_, .refl _, rfl⟩
    exact (Context.grows_pastClause _ _).trans (Context.grows_pastAll _ _)

theorem Stmt.Opens.reserved {s : Stmt} {ctx₁ : Context} {body : List Stmt} {size : Nat}
    {sizes : List Nat} (ho : s.Opens ctx ctx₁ body size) (hb : ctx.Bounded)
    (h : Reserved ctx.scopes.scopes sizes) :
    ctx₁.Bounded ∧ Reserved (ctx₁.pastAll body).scopes.scopes (size :: sizes) := by
  obtain ⟨kind, after, hkind, henter, hafter, rfl⟩ := ho.exists_grows
  have hstart := ctx.scopes.startOf_eq_floor hkind
  have hk : kind ≠ .parameter := by rcases hkind with rfl | rfl | rfl <;> decide
  have htop : (Scope.empty 0 kind (ctx.scopes.startOf kind)).Bounded := by
    rw [hstart, hb.floor_eq]
    obtain ⟨top, rest, hs, -, htop⟩ := hb
    rw [Context.cursor, hs]
    exact .empty 0 kind (Int.le_trans htop.start_nonneg htop.start_le) htop.cursor_le
  have hentered : (ctx.enter kind).Bounded := ⟨_, _, rfl, hk, htop⟩
  have hb₁ := hentered.grows henter
  have hbody := ctx₁.grows_pastAll body
  have hend := h.of_grows ((henter.trans hbody).trans hafter) rfl hk hstart htop
  exact ⟨hb₁, hend.before (hb₁.grows hbody) hafter⟩

/-- **At every statement of a block the live scopes reserve their bytes.** `size :: outer` is what
is reserved at the end of the block. -/
theorem Stmt.Holds.reserved {body : List Stmt} {ctx' : Context} {sizes : List Nat} {s : Stmt}
    (hh : Stmt.Holds ctx body ctx' sizes s) :
    ∀ {size : Nat} {outer : List Nat}, ctx.Bounded →
      Reserved (ctx.pastAll body).scopes.scopes (size :: outer) →
      ctx'.Bounded ∧ Reserved ctx'.scopes.scopes (sizes.reverse ++ size :: outer) := by
  induction hh with
  | head => exact fun hb h => ⟨hb, h.before hb (Context.grows_pastAll _ _)⟩
  | tail _ ih => exact fun hb h => ih (hb.grows (Context.grows_past _ _)) h
  | inner ho _ ih =>
    intro size outer hb h
    have hhere := h.before hb (Context.grows_pastAll _ _)
    obtain ⟨hb₁, hinner⟩ := ho.reserved hb hhere
    rw [List.reverse_cons, List.append_assoc]
    exact ih hb₁ hinner

/-! ### Functions -/

theorem FunctionSignature.reserved_entry {signature : FunctionSignature} {d : Declarations}
    {ctx : Context} (h : signature.entry d = .ok ctx) (body : List Stmt) :
    ctx.Bounded ∧
      Reserved (ctx.pastAll body).scopes.scopes [(ctx.pastAll body).frameSize] := by
  obtain ⟨-, rfl⟩ := scopes_entry h
  have htop : (Scope.empty 0 .function 0).Bounded :=
    .empty 0 .function (Int.le_refl 0) (Int.natCast_nonneg _)
  have houtside : Reserved [signature.frame] [] := .outside rfl
  refine ⟨⟨_, _, rfl, by simp [Scope.empty], htop⟩, ?_⟩
  exact houtside.of_grows (Context.grows_pastAll body _) rfl (by simp [Scope.empty]) rfl htop

/-- **What is reserved at a statement.** The frame of a function and each block around a statement
reserve no more than the largest frame, and no symbol lies beyond it. Together they reserve what is
in use at the statement and what is spare in each of them. -/
theorem FunctionDecl.reserved_eq {source : String} {p : Program} {decl : FunctionDecl}
    {g g' : Generator} {code : Code} (hp : Program.ofSource source = .ok p)
    (hd : .function decl ∈ p.items) (h : Returns decl.lower g code g') :
    ∃ signature ctx raw σ,
      g.context.functions.get decl.name = .ok signature ∧
      signature.entry g.context.toDeclarations = .ok ctx ∧
      code = frameCode decl.name (ctx.pastAll decl.body).frameSize (raw.resolve σ) ∧
      ∀ ctx' sizes s, Stmt.Holds ctx decl.body ctx' sizes s →
        let reserved := (ctx.pastAll decl.body).frameSize :: sizes
        let spares := List.zipWith Scope.spare ctx'.scopes.scopes reserved.reverse
        (∃ exit n inner n', Emits σ signature.result exit ctx' n (.stmt s) inner n' ∧
          Code.Encloses sizes inner raw) ∧
        (∀ size ∈ reserved, size ≤ maxFrameSize) ∧
        (∀ v ∈ Scope.locals ctx'.scopes.scopes, v.offset ≤ ctx'.cursor) ∧
        ctx'.cursor ≤ maxFrameSize ∧
        (∀ spare ∈ spares, 0 ≤ spare) ∧
        (reserved.sum : Int) = ctx'.cursor + spares.sum := by
  obtain ⟨signature, ctx, raw, σ, hsignature, -, hentry, hcode, hemits, -, -⟩ :=
    emits_of_returns (FunctionDecl.wellFormed_of_source hp hd) h
  refine ⟨signature, ctx, raw, σ, hsignature, hentry, hcode, fun ctx' sizes s hh => ?_⟩
  intro reserved spares
  obtain ⟨exit, n, inner, n', hinner, hin⟩ := hemits.holds hh
  obtain ⟨hfits, hblock⟩ := FunctionSignature.fits_entry hentry
  obtain ⟨hfits', -⟩ := hh.fits hfits (Int.le_refl _)
  obtain ⟨hb, hreserved⟩ := FunctionSignature.reserved_entry hentry decl.body
  obtain ⟨hb', hreserved'⟩ := hh.reserved hb hreserved
  rw [← List.reverse_cons] at hreserved'
  have hsum : (reserved.sum : Int) = ctx'.cursor + spares.sum := by
    rw [← List.sum_reverse, hreserved'.sum_eq, hb'.floor_eq]
  refine ⟨⟨exit, n, inner, n', hinner, hin⟩, fun size hsize => ?_, fun v hv => ?_, hb'.cursor_le,
    hreserved'.spare_nonneg, hsum⟩
  · exact hreserved'.size_le size (List.mem_reverse.2 hsize)
  · rw [← hb'.floor_eq]
    exact (hfits'.stacked.place v hv).2

/-- The first statement in the first arm of the first `if` statement of a block, its context and the
bytes that the arm reserves. -/
def Stmt.firstInArm (ctx : Context) : List Stmt → Option (Context × Nat × Stmt)
  | [] => none
  | .branch (.mk _ (s :: rest)) _ _ :: _ =>
    some (ctx.enter .branch, ((ctx.enter .branch).pastAll (s :: rest)).frameSize, s)
  | s :: rest => firstInArm (ctx.past s) rest

theorem Stmt.holds_of_firstInArm {body : List Stmt} {ctx' : Context} {size : Nat} {s : Stmt} :
    ∀ {ctx : Context}, firstInArm ctx body = some (ctx', size, s) →
      Holds ctx body ctx' [size] s := by
  induction body with
  | nil =>
    intro ctx h
    cases h
  | cons s₁ rest ih =>
    intro ctx h
    unfold firstInArm at h
    split at h
    · rename_i heq
      cases heq
    · rename_i heq
      cases heq
      cases h
      exact .inner (.arm List.mem_cons_self) .head
    · rename_i heq
      cases heq
      exact .tail (ih h)

/-- Whether at the first statement in the first arm of a function the cursor is `cursor`, and the
function and the arm reserve `frame` and `arm` bytes. -/
def FunctionDecl.reservesInArm (cursor : Int) (frame arm : Nat) (g : Generator)
    (decl : FunctionDecl) : Bool :=
  match g.context.functions.get decl.name with
  | .error _ => false
  | .ok signature =>
    match signature.entry g.context.toDeclarations with
    | .error _ => false
    | .ok ctx => (Stmt.firstInArm ctx decl.body).any fun r =>
        decide (r.1.cursor = cursor ∧ (ctx.pastAll decl.body).frameSize = frame ∧ r.2.1 = arm)

theorem FunctionDecl.exists_holds_of_reservesInArm {cursor : Int} {frame arm : Nat} {g : Generator}
    {decl : FunctionDecl} (h : decl.reservesInArm cursor frame arm g)
    {signature : FunctionSignature} {ctx : Context}
    (hsignature : g.context.functions.get decl.name = .ok signature)
    (hentry : signature.entry g.context.toDeclarations = .ok ctx) :
    ∃ ctx' s, Stmt.Holds ctx decl.body ctx' [arm] s ∧ ctx'.cursor = cursor ∧
      (ctx.pastAll decl.body).frameSize = frame := by
  simp only [reservesInArm, hsignature, hentry, Option.any_eq_true, decide_eq_true_eq] at h
  obtain ⟨⟨ctx', size, s⟩, hfirst, hcursor, hframe, hsize⟩ := h
  obtain rfl : size = arm := hsize
  exact ⟨ctx', s, Stmt.holds_of_firstInArm hfirst, hcursor, hframe⟩

/-- A block that starts at an odd offset, with two declarations behind it: of twenty bytes that are
reserved at its first statement one is in use. -/
theorem FunctionDecl.reserved_eq_of_later_declarations :
    ∃ p decl, ∃ code : Code, ∃ g' ctx ctx' s,
      Program.ofSource "fn f(n: i32) { var a: u8; if (n) { var b: u8(5); n = 0; }
        var c: u16; var d: i32; }" = .ok p ∧
      .function decl ∈ p.items ∧ Returns decl.lower (Generator.start {} p).1 code g' ∧
      Stmt.Holds ctx decl.body ctx' [12] s ∧ (ctx.pastAll decl.body).frameSize = 8 ∧
      ctx'.cursor = 1 ∧ (List.zipWith Scope.spare ctx'.scopes.scopes [12, 8]).sum = 19 := by
  obtain ⟨p, decl, code, g', hp, hd, h, hcheck⟩ := exists_of_someFunction
    "fn f(n: i32) { var a: u8; if (n) { var b: u8(5); n = 0; }
        var c: u16; var d: i32; }"
    (fun g decl _ => decl.reservesInArm 1 8 12 g) (by decide +kernel)
  obtain ⟨signature, ctx, raw, σ, hsignature, hentry, -, hreserved⟩ := reserved_eq hp hd h
  obtain ⟨ctx', s, hholds, hcursor, hframe⟩ :=
    exists_holds_of_reservesInArm hcheck hsignature hentry
  obtain ⟨-, -, -, -, -, hsum⟩ := hreserved ctx' [12] s hholds
  rw [hframe, hcursor] at hsum
  refine ⟨p, decl, code, g', ctx, ctx', s, hp, hd, h, hholds, hframe, hcursor, ?_⟩
  change (20 : Int) = 1 + (List.zipWith Scope.spare ctx'.scopes.scopes [12, 8]).sum at hsum
  omega

/-- A function that reserves twice the largest frame: a block takes all of it, and the function
around the block takes as much for what it declares when the block is closed. -/
theorem FunctionDecl.two_frames_reserved :
    ∃ p decl, ∃ code raw inner : Code, ∃ g' σ result exit n n' ctx ctx' s,
      Program.ofSource
        "fn f() { if (1) { var a: u8(1073741824); } var b: u8(1073741824); }" = .ok p ∧
      .function decl ∈ p.items ∧ Returns decl.lower (Generator.start {} p).1 code g' ∧
      code = frameCode decl.name (ctx.pastAll decl.body).frameSize (raw.resolve σ) ∧
      Emits σ result exit ctx' n (.stmt s) inner n' ∧
      Code.Encloses [1073741824] inner raw ∧ Stmt.Holds ctx decl.body ctx' [1073741824] s ∧
      maxFrameSize < ((ctx.pastAll decl.body).frameSize :: [1073741824]).sum := by
  obtain ⟨p, decl, code, g', hp, hd, h, hcheck⟩ := exists_of_someFunction
    "fn f() { if (1) { var a: u8(1073741824); } var b: u8(1073741824); }"
    (fun g decl _ => decl.reservesInArm 0 1073741824 1073741824 g) (by decide +kernel)
  obtain ⟨signature, ctx, raw, σ, hsignature, -, hentry, hcode, hemits, -, -⟩ :=
    emits_of_returns (FunctionDecl.wellFormed_of_source hp hd) h
  obtain ⟨ctx', s, hholds, -, hframe⟩ := exists_holds_of_reservesInArm hcheck hsignature hentry
  obtain ⟨exit, n, inner, n', hinner, hin⟩ := hemits.holds hholds
  refine ⟨p, decl, code, raw, inner, g', σ, signature.result, exit, n, n', ctx, ctx', s, hp, hd, h,
    hcode, hinner, hin, hholds, ?_⟩
  rw [hframe]
  decide

end GLang
