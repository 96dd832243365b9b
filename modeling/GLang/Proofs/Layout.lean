import GLang.Proofs.Bare
import GLang.Proofs.ParameterSlots

/-!
# Where variables lie

The symbols that a context can see, the newest first, have places that do not overlap: parameters
above the frame base, locals below it and above the cursor. `Context.Laid` says this, and the ways
from one context to the next keep it:

* `Context.Laid.enter`, `Context.Laid.declared`: into a block and past a declaration,
* `FunctionSignature.laid_entry`: at the start of a function.

A block reserves at least what lies between the cursor at its start and at its end:
`Context.InBlock.cursor_le`. `Context.Adds` says what declarations leave as it was.
-/

namespace GLang

open Asm

/-! ### Sizes -/

/-- The bytes that the variable takes. -/
def Symbol.bytes (s : Symbol) : Nat :=
  s.type.width.bytes

theorem Ty.alignedSize_of_isPrimitive {t : Ty} (h : t.isPrimitive) :
    t.alignedSize = t.width.bytes := by
  cases t with
  | primitive width signed =>
    unfold Ty.width Ty.alignedSize
    split <;> rfl
  | pointer pointee => rfl
  | array | struct => cases h

theorem Asm.Width.bytes_pos (w : Width) : 0 < w.bytes := by
  cases w <;> decide

theorem Asm.Width.bytes_le (w : Width) : w.bytes ≤ 4 := by
  cases w <;> decide

theorem le_alignUp (value align : Int) : value ≤ alignUp value align := by
  unfold alignUp
  split
  · exact Int.le_refl _
  · have := Int.lt_ediv_add_one_mul_self (value + align - 1) (show 0 < align by omega)
    rw [Int.add_mul, Int.one_mul] at this
    omega

/-- The places of two symbols do not overlap. -/
def Symbol.Apart (s s' : Symbol) : Prop :=
  s'.offset + s.bytes ≤ s.offset ∨ s.offset + s'.bytes ≤ s'.offset

theorem Symbol.Apart.symm {s s' : Symbol} (h : s.Apart s') : s'.Apart s :=
  Or.symm h

/-- Where no name is repeated, the first symbol of a name is the last one. -/
theorem find?_name_reverse {symbols : List Symbol} (h : (symbols.map Symbol.name).Nodup)
    {x : String} : symbols.reverse.find? (·.name == x) = symbols.find? (·.name == x) := by
  cases hx : symbols.find? (·.name == x) with
  | none =>
    rw [List.find?_eq_none] at hx ⊢
    exact fun s hs => hx s (List.mem_reverse.1 hs)
  | some s =>
    obtain rfl : s.name = x := by simpa using List.find?_some hx
    obtain ⟨i, hi⟩ := List.getElem?_of_mem (List.mem_reverse.2 (List.mem_of_find?_eq_some hx))
    refine find?_name_eq_some ?_ hi
    rw [List.map_reverse, List.nodup_reverse]
    exact h

/-! ### The innermost scope -/

theorem Scope.place?_eq_some {cursor stop : Int} {t : Ty} :
    Scope.place? cursor t = some stop ↔
      stop = alignUp cursor t.alignment + t.alignedSize ∧ t.alignedSize < 0x80000000 ∧
        stop ≤ maxFrameSize := by
  simp only [Scope.place?]
  split
  · rename_i hle
    constructor
    · intro h
      cases h
      exact ⟨rfl, hle⟩
    · rintro ⟨rfl, -⟩
      rfl
  · rename_i hle
    constructor
    · intro h
      cases h
    · rintro ⟨rfl, h⟩
      exact absurd h hle

/-- A symbol that is no parameter gets a new name and the next place. -/
theorem Scope.place?_of_allocate {s s' : Scope} {x : String} {t : Ty} {symbol : Symbol}
    (hk : s.kind ≠ .parameter) (h : s.allocate x t = .ok (symbol, s')) :
    x ∉ s.symbols.map Symbol.name ∧ Scope.place? s.cursor t = some symbol.offset ∧
      symbol = ⟨x, t, symbol.offset⟩ ∧ s' = s.add symbol symbol.offset := by
  unfold Scope.allocate at h
  by_cases hx : (s.get? x).isSome
  · rw [if_pos hx] at h
    cases h
  · rw [if_neg hx, if_neg hk] at h
    cases hp : Scope.place? s.cursor t with
    | none =>
      rw [hp] at h
      cases h
    | some stop =>
      rw [hp] at h
      cases h
      refine ⟨fun hmem => hx ?_, rfl, rfl, rfl⟩
      obtain ⟨symbol, hsymbol, rfl⟩ := List.mem_map.1 hmem
      rw [Scope.get?, List.find?_isSome]
      exact ⟨symbol, hsymbol, beq_self_eq_true _⟩

theorem Scope.allocate_local {s s' : Scope} {x : String} {t : Ty} {symbol : Symbol}
    (hk : s.kind ≠ .parameter) (h : s.allocate x t = .ok (symbol, s')) :
    x ∉ s.symbols.map Symbol.name ∧ symbol.name = x ∧ symbol.type = t ∧
      s.cursor + t.alignedSize ≤ symbol.offset ∧ s' = s.add symbol symbol.offset := by
  obtain ⟨hx, hp, hsymbol, hs'⟩ := Scope.place?_of_allocate hk h
  obtain ⟨hoffset, -⟩ := Scope.place?_eq_some.1 hp
  have hle := le_alignUp s.cursor t.alignment
  exact ⟨hx, congrArg Symbol.name hsymbol, congrArg Symbol.type hsymbol, by omega, hs'⟩

/-- A scope takes at least what lies between its start and its cursor. -/
theorem Scope.cursor_le_of_complete (s : Scope) (hk : s.kind ≠ .parameter) :
    s.cursor ≤ s.start + s.complete.localSize := by
  by_cases hlt : s.start < s.cursor
  · have hle := le_alignUp (s.cursor - s.start) 4
    rw [Scope.complete, if_pos ⟨hk, hlt⟩, Scope.localSize, if_neg hk]
    simp only
    omega
  · omega

namespace Context

/-- The symbols in scope, the newest first. -/
def symbols (ctx : Context) : List Symbol :=
  ctx.scopes.scopes.flatMap (·.symbols.reverse)

/-- How far the symbols of the innermost block reach. -/
def cursor (ctx : Context) : Int :=
  match ctx.scopes.scopes with
  | [] => 0
  | top :: _ => top.cursor

/-- The innermost block starts at `start`, and is no list of parameters. -/
def InBlock (ctx : Context) (start : Int) : Prop :=
  ∃ top rest, ctx.scopes.scopes = top :: rest ∧ top.kind ≠ .parameter ∧ top.start = start

namespace InBlock

variable {ctx : Context} {start : Int}

theorem declared (h : ctx.InBlock start) (x type : String) :
    (ctx.declared x type).InBlock start ∧ ctx.cursor ≤ (ctx.declared x type).cursor := by
  obtain ⟨top, rest, hs, hk, rfl⟩ := h
  unfold Context.declared
  split
  · exact ⟨⟨top, rest, hs, hk, rfl⟩, Int.le_refl _⟩
  · rename_i t ht
    split
    · exact ⟨⟨top, rest, hs, hk, rfl⟩, Int.le_refl _⟩
    · rename_i symbol scopes hd
      obtain ⟨top', top₁, rest', hs', ha, rfl⟩ := ScopeStack.declare_eq_ok.1 hd
      cases hs.symm.trans hs'
      obtain ⟨-, -, -, hle, rfl⟩ := Scope.allocate_local hk ha
      refine ⟨⟨_, rest, rfl, hk, rfl⟩, ?_⟩
      simp only [cursor, hs, Scope.add]
      omega

theorem past (h : ctx.InBlock start) (s : Stmt) :
    (ctx.past s).InBlock start ∧ ctx.cursor ≤ (ctx.past s).cursor := by
  unfold Context.past
  split
  · exact h.declared _ _
  · exact ⟨h, Int.le_refl _⟩

theorem pastAll (h : ctx.InBlock start) (body : List Stmt) :
    (ctx.pastAll body).InBlock start ∧ ctx.cursor ≤ (ctx.pastAll body).cursor := by
  induction body generalizing ctx with
  | nil => exact ⟨h, Int.le_refl _⟩
  | cons s body ih =>
    obtain ⟨hs, hle⟩ := h.past s
    obtain ⟨hbody, hle'⟩ := ih hs
    exact ⟨hbody, Int.le_trans hle hle'⟩

theorem pastClause (h : ctx.InBlock start) (clause : Option Stmt) :
    (ctx.pastClause clause).InBlock start ∧ ctx.cursor ≤ (ctx.pastClause clause).cursor := by
  cases clause with
  | none => exact ⟨h, Int.le_refl _⟩
  | some s => exact h.past s

/-- A block reserves what its symbols take. -/
theorem cursor_le (h : ctx.InBlock start) : ctx.cursor ≤ start + ctx.frameSize := by
  obtain ⟨top, rest, hs, hk, rfl⟩ := h
  simp only [cursor, frameSize, hs]
  exact top.cursor_le_of_complete hk

end InBlock

/-- A block starts where the block around it stands. -/
theorem inBlock_enter {ctx : Context} {start : Int} (h : ctx.InBlock start) (kind : ScopeKind)
    (hkind : kind = .branch ∨ kind = .forLoop ∨ kind = .whileLoop) :
    (ctx.enter kind).InBlock ctx.cursor ∧ (ctx.enter kind).cursor = ctx.cursor := by
  obtain ⟨top, rest, hs, hk, rfl⟩ := h
  have hstart : ctx.scopes.startOf kind = ctx.cursor := by
    rcases hkind with rfl | rfl | rfl <;> simp [ScopeStack.startOf, cursor, hs, hk]
  refine ⟨⟨_, _, rfl, ?_, hstart⟩, hstart⟩
  rcases hkind with rfl | rfl | rfl <;> simp [Scope.empty]

@[simp] theorem symbols_enter (ctx : Context) (kind : ScopeKind) :
    (ctx.enter kind).symbols = ctx.symbols := by
  simp [symbols, enter, Scope.empty]

/-! ### Declarations in a block -/

/-- `ctx'` is the context `ctx` after declarations of `names` in its innermost block. -/
structure Adds (names : List String) (ctx ctx' : Context) : Prop where
  declarations : ctx'.toDeclarations = ctx.toDeclarations
  symbols : ctx.symbols <:+ ctx'.symbols
  lookup : ∀ x ∉ names, ctx'.lookup x = ctx.lookup x

namespace Adds

variable {names names' : List String} {ctx ctx₁ ctx₂ : Context}

theorem refl (ctx : Context) : Adds [] ctx ctx :=
  ⟨rfl, List.suffix_refl _, fun _ _ => rfl⟩

theorem trans (h : Adds names ctx ctx₁) (h' : Adds names' ctx₁ ctx₂) :
    Adds (names ++ names') ctx ctx₂ := by
  refine ⟨h'.declarations.trans h.declarations, h.symbols.trans h'.symbols, fun x hx => ?_⟩
  rw [List.mem_append, not_or] at hx
  rw [h'.lookup x hx.2, h.lookup x hx.1]

theorem structs (h : Adds names ctx ctx₁) : ctx₁.structs = ctx.structs :=
  congrArg Declarations.structs h.declarations

end Adds

/-- A declaration changes the meaning of one name. -/
theorem adds_declared (ctx : Context) (x type : String) : Adds [x] ctx (ctx.declared x type) := by
  have hsame : Adds [x] ctx ctx := ⟨rfl, List.suffix_refl _, fun _ _ => rfl⟩
  unfold Context.declared
  split
  · exact hsame
  · split
    · exact hsame
    · rename_i t _ symbol scopes hd
      obtain ⟨top, top', rest, hs, ha, rfl⟩ := ScopeStack.declare_eq_ok.1 hd
      obtain ⟨cursor, -, hname, -, rfl⟩ := Scope.allocate_eq_add ha
      refine ⟨rfl, ⟨[symbol], ?_⟩, fun y hy => ?_⟩
      · simp [Context.symbols, hs, Scope.add]
      · have hne : (symbol.name == y) = false := by
          rw [hname]
          exact beq_false_of_ne fun h => hy (List.mem_singleton.2 h.symm)
        have hget : (top.add symbol cursor).get? y = top.get? y := by
          simp [Scope.get?, Scope.add, List.find?_append, hne]
        simp only [Context.lookup, ScopeStack.lookup, ScopeStack.find?, hs,
          List.findSome?_cons, hget]

theorem adds_past (ctx : Context) (s : Stmt) : Adds s.newNames ctx (ctx.past s) := by
  cases s with
  | declare x type init => exact adds_declared ctx x type
  | assign | store | storeAt | step | branch | whileLoop | forLoop | breakLoop | continueLoop | ret
  | run => exact .refl ctx

theorem adds_pastAll (body : List Stmt) :
    ∀ ctx : Context, Adds (body.flatMap Stmt.newNames) ctx (ctx.pastAll body) := by
  induction body with
  | nil => exact .refl
  | cons s body ih => exact fun ctx => (adds_past ctx s).trans (ih _)

theorem adds_pastClause (ctx : Context) (clause : Option Stmt) :
    Adds (clause.elim [] Stmt.newNames) ctx (ctx.pastClause clause) := by
  cases clause with
  | none => exact .refl ctx
  | some s => exact adds_past ctx s

/-! ### All scopes -/

/-- **Places do not overlap.** `params` are the parameters; all other symbols lie below the frame
base, down to the cursor. -/
structure Laid (params : List Symbol) (ctx : Context) : Prop where
  names : ∀ scope ∈ ctx.scopes.scopes, (scope.symbols.map Symbol.name).Nodup
  apart : ctx.symbols.Pairwise Symbol.Apart
  place : ∀ s ∈ ctx.symbols, s ∈ params ∨ (s.bytes : Int) ≤ s.offset
  below : ∀ s ∈ ctx.symbols, s.offset ≤ ctx.cursor
  primitive : ∀ s ∈ ctx.symbols, s.type.isPrimitive
  inside : 0 ≤ ctx.cursor
  block : ∃ start, ctx.InBlock start

namespace Laid

variable {params : List Symbol} {ctx : Context}

/-- A name means the newest symbol of that name. -/
theorem find? (h : ctx.Laid params) {x : String} {s : Symbol} (hx : ctx.lookup x = .ok s) :
    ctx.symbols.find? (·.name == x) = some s := by
  have hfind : ctx.scopes.find? x = some s := by
    unfold lookup ScopeStack.lookup at hx
    split at hx
    · cases hx
      assumption
    · cases hx
  have hnames := h.names
  rw [symbols, List.find?_flatMap, ← hfind, ScopeStack.find?]
  generalize ctx.scopes.scopes = scopes at hnames
  induction scopes with
  | nil => rfl
  | cons scope scopes ih =>
    obtain ⟨hscope, hrest⟩ := List.forall_mem_cons.1 hnames
    rw [List.findSome?_cons, List.findSome?_cons, ih hrest, find?_name_reverse hscope, Scope.get?]

theorem enter (h : ctx.Laid params) {kind : ScopeKind}
    (hkind : kind = .branch ∨ kind = .forLoop ∨ kind = .whileLoop) :
    (ctx.enter kind).Laid params := by
  obtain ⟨start, hstart⟩ := h.block
  obtain ⟨hblock, hcursor⟩ := inBlock_enter hstart kind hkind
  refine ⟨?_, ?_, ?_, ?_, ?_, ?_, ⟨_, hblock⟩⟩
  · intro scope hscope
    rcases List.mem_cons.1 hscope with rfl | hscope
    · exact List.nodup_nil
    · exact h.names scope hscope
  · rw [symbols_enter]
    exact h.apart
  · rw [symbols_enter]
    exact h.place
  · rw [symbols_enter, hcursor]
    exact h.below
  · rw [symbols_enter]
    exact h.primitive
  · rw [hcursor]
    exact h.inside

/-- A variable is placed below all others. -/
theorem declared (h : ctx.Laid params) {x type : String} {t : Ty} {symbol : Symbol}
    {scopes : ScopeStack} (ht : ctx.typeOf type = .ok t) (hp : t.isPrimitive)
    (hd : ctx.scopes.declare x t = .ok (symbol, scopes)) :
    (ctx.declared x type).Laid params ∧ (ctx.declared x type).symbols = symbol :: ctx.symbols ∧
      symbol.name = x ∧ symbol.type = t := by
  obtain ⟨start, hblock⟩ := h.block
  obtain ⟨hblock', hle⟩ := hblock.declared x type
  obtain ⟨top, rest, hs, hk, rfl⟩ := hblock
  rw [declared_eq ht hd] at hblock' hle ⊢
  obtain ⟨top', top₁, rest', hs', ha, rfl⟩ := ScopeStack.declare_eq_ok.1 hd
  cases hs.symm.trans hs'
  obtain ⟨hx, rfl, rfl, hoffset, rfl⟩ := Scope.allocate_local hk ha
  have hsymbols : ctx.symbols = top.symbols.reverse ++ rest.flatMap (·.symbols.reverse) := by
    simp [symbols, hs]
  have hcursor : ctx.cursor = top.cursor := by simp [cursor, hs]
  have hsize : (symbol.bytes : Int) = symbol.type.alignedSize := by
    rw [Symbol.bytes, Ty.alignedSize_of_isPrimitive hp]
  have hinside := h.inside
  have hnew : ({ ctx with scopes := { ctx.scopes with
      scopes := top.add symbol symbol.offset :: rest } } : Context).symbols =
        symbol :: ctx.symbols := by
    simp [symbols, hs, Scope.add]
  refine ⟨⟨?_, ?_, ?_, ?_, ?_, ?_, ⟨_, hblock'⟩⟩, hnew, rfl, rfl⟩
  · intro scope hscope
    rcases List.mem_cons.1 hscope with rfl | hscope
    · have hnames := h.names top (by simp [hs])
      simpa [Scope.add, List.nodup_append', hnames] using hx
    · exact h.names scope (by simp [hs, hscope])
  · rw [hnew]
    refine List.pairwise_cons.2 ⟨fun s hmem => .inl ?_, h.apart⟩
    have := h.below s hmem
    omega
  · rw [hnew]
    refine List.forall_mem_cons.2 ⟨.inr (by omega), h.place⟩
  · rw [hnew]
    refine List.forall_mem_cons.2 ⟨Int.le_refl _, fun s hmem => ?_⟩
    exact Int.le_trans (h.below s hmem) hle
  · rw [hnew]
    exact List.forall_mem_cons.2 ⟨hp, h.primitive⟩
  · exact Int.le_trans hinside hle

end Laid

end Context

/-! ### Parameters -/

theorem offset_le_of_mem_slotSymbols {slots : List (String × Ty)} :
    ∀ {c : Int}, ∀ s ∈ slotSymbols c slots, s.offset ≤ c := by
  induction slots with
  | nil =>
    intro c s hs
    cases hs
  | cons slot slots ih =>
    intro c s hs
    rcases List.mem_cons.1 hs with rfl | hs
    · exact Int.le_refl _
    · have := ih s hs
      simp only [parameterSlot] at this
      omega

theorem pairwise_apart_slotSymbols (slots : List (String × Ty)) :
    ∀ c, (slotSymbols c slots).Pairwise Symbol.Apart := by
  induction slots with
  | nil => exact fun c => .nil
  | cons slot slots ih =>
    intro c
    refine List.pairwise_cons.2 ⟨fun s hs => .inl ?_, ih _⟩
    have hle := offset_le_of_mem_slotSymbols s hs
    have hbytes := slot.2.width.bytes_le
    simp only [parameterSlot] at hle
    simp only [Symbol.bytes]
    omega

theorem isPrimitive_slotSymbols {slots : List (String × Ty)} (h : ∀ q ∈ slots, q.2.isPrimitive) :
    ∀ c, ∀ s ∈ slotSymbols c slots, s.type.isPrimitive := by
  induction slots with
  | nil => exact fun c s hs => absurd hs List.not_mem_nil
  | cons slot slots ih =>
    obtain ⟨hslot, hslots⟩ := List.forall_mem_cons.1 h
    exact fun c => List.forall_mem_cons.2 ⟨hslot, ih hslots _⟩

/-- At the start of a function its parameters are in scope, and nothing else. -/
theorem FunctionSignature.laid_entry {signature : FunctionSignature} {d : Declarations}
    {ctx : Context} (h : signature.entry d = .ok ctx) (ha : signature.aggregate? = none)
    (hp : ∀ q ∈ signature.params, q.2.isPrimitive) :
    ctx.Laid (slotSymbols parameterStart signature.params) ∧
      ctx.symbols = (slotSymbols parameterStart signature.params).reverse ∧ ctx.InBlock 0 := by
  obtain ⟨hnodup, hctx⟩ := scopes_entry h
  have hslots : signature.slots = signature.params := by rw [slots, ha]
  have hsymbols : ctx.symbols = (slotSymbols parameterStart signature.params).reverse := by
    rw [hctx]
    simp [Context.symbols, Context.enter, Scope.empty, frame, hslots]
  have hblock : ctx.InBlock 0 := by
    rw [hctx]
    exact ⟨_, _, rfl, by simp [Scope.empty], rfl⟩
  have hcursor : ctx.cursor = 0 := by
    rw [hctx]
    rfl
  refine ⟨⟨?_, ?_, ?_, ?_, ?_, Int.le_of_eq hcursor.symm, 0, hblock⟩, hsymbols, hblock⟩
  · intro scope hscope
    rw [hctx] at hscope
    rcases List.mem_cons.1 hscope with rfl | hscope
    · exact List.nodup_nil
    · rw [List.mem_singleton.1 hscope, frame, map_name_slotSymbols]
      exact hnodup
  · rw [hsymbols, List.pairwise_reverse]
    exact (pairwise_apart_slotSymbols _ _).imp Symbol.Apart.symm
  · rw [hsymbols]
    exact fun s hs => .inl (List.mem_reverse.1 hs)
  · rw [hsymbols]
    intro s hs
    have hle := offset_le_of_mem_slotSymbols s (List.mem_reverse.1 hs)
    rw [hcursor]
    exact Int.le_trans hle (by decide)
  · rw [hsymbols]
    exact fun s hs => isPrimitive_slotSymbols hp _ s (List.mem_reverse.1 hs)

end GLang
