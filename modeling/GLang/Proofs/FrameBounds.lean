import GLang.Proofs.LiveScopes

/-!
# Locals stay in the frame

A block takes its place below the frame base when it is opened, from where the block around it
stands then. The bytes that it reserves are known when it is closed, and they are rounded for each
block alone. That no local lies outside of what is reserved follows by going inwards:

* `Stmt.Holds`: the statements of a block, with the context in which each is compiled and the bytes
  that the blocks around it reserve,
* `EmitsWith.holds`: these are the contexts and the sizes that the code is made with,
* `Stmt.Holds.fits`: in the context of a statement the cursor is not below what is reserved,
* `FunctionDecl.locals_in_frame`: so no local lies outside the frame, at any statement.
-/

namespace GLang

open Asm Gen

/-! ### Statements and the blocks around them -/

/-- A block directly inside a statement that is compiled in `ctx`: the context at its start, its
statements and the bytes that its scope reserves. The clauses of a `for` loop and its body have one
scope. -/
inductive Stmt.Opens (ctx : Context) : Stmt → Context → List Stmt → Nat → Prop where
  | arm {first others otherwise condition body} (h : .mk condition body ∈ first :: others) :
      Opens ctx (.branch first others otherwise) (ctx.enter .branch) body
        ((ctx.enter .branch).pastAll body).frameSize
  | otherwise {first others body} :
      Opens ctx (.branch first others (some body)) (ctx.enter .branch) body
        ((ctx.enter .branch).pastAll body).frameSize
  | whileBody {condition body} :
      Opens ctx (.whileLoop condition body) (ctx.enter .whileLoop) body
        ((ctx.enter .whileLoop).pastAll body).frameSize
  | forInit {init condition increment body} :
      Opens ctx (.forLoop (some init) condition increment body) (ctx.enter .forLoop) [init]
        ((((ctx.enter .forLoop).past init).pastAll body).pastClause increment).frameSize
  | forBody {init condition increment body} :
      Opens ctx (.forLoop init condition increment body) ((ctx.enter .forLoop).pastClause init) body
        ((((ctx.enter .forLoop).pastClause init).pastAll body).pastClause increment).frameSize
  | forStep {init condition increment body} :
      Opens ctx (.forLoop init condition (some increment) body)
        (((ctx.enter .forLoop).pastClause init).pastAll body) [increment]
        ((((ctx.enter .forLoop).pastClause init).pastAll body).past increment).frameSize

/-- The statement `s` stands somewhere in `body`, which is compiled in `ctx`. It is compiled in
`ctx'` itself, and the blocks of `body` around it reserve `sizes`, the outermost first. -/
inductive Stmt.Holds : Context → List Stmt → Context → List Nat → Stmt → Prop where
  | head {ctx s rest} : Holds ctx (s :: rest) ctx [] s
  | tail {ctx s rest ctx' sizes s'} (h : Holds (ctx.past s) rest ctx' sizes s') :
      Holds ctx (s :: rest) ctx' sizes s'
  | inner {ctx s rest ctx₁ body size ctx' sizes s'} (ho : s.Opens ctx ctx₁ body size)
      (h : Holds ctx₁ body ctx' sizes s') : Holds ctx (s :: rest) ctx' (size :: sizes) s'

/-- `inner` is a part of `outer` that stands in blocks and loops of `sizes` bytes, the outermost
first. -/
inductive Asm.Code.Encloses : List Nat → Code → Code → Prop where
  | refl {code} : Encloses [] code code
  | beside {sizes inner code before after} (h : Encloses sizes inner code) :
      Encloses sizes inner (before ++ code ++ after)
  | block {sizes inner code size} (h : Encloses sizes inner code) :
      Encloses (size :: sizes) inner (Code.block size code)
  | loop {sizes inner code size done breakTo} (h : Encloses sizes inner code) :
      Encloses (size :: sizes) inner (Code.loop size code done breakTo)

namespace Asm.Code.Encloses

variable {sizes : List Nat} {inner code more : Code}

theorem before (h : Encloses sizes inner code) : Encloses sizes inner (code ++ more) := by
  have hbeside : Encloses sizes inner ([] ++ code ++ more) := h.beside
  rwa [List.nil_append] at hbeside

theorem behind (h : Encloses sizes inner code) : Encloses sizes inner (more ++ code) := by
  have hbeside : Encloses sizes inner (more ++ code ++ []) := h.beside
  rwa [List.append_nil] at hbeside

theorem trans {sizes' : List Nat} {outer : Code} (h : Encloses sizes inner code)
    (h' : Encloses sizes' code outer) : Encloses (sizes' ++ sizes) inner outer := by
  induction h' with
  | refl => exact h
  | beside _ ih => exact .beside (ih h)
  | block _ ih => exact .block (ih h)
  | loop _ ih => exact .loop (ih h)

theorem resolve (σ : Nat → Nat) (h : Encloses sizes inner code) :
    Encloses sizes (inner.resolve σ) (code.resolve σ) := by
  induction h with
  | refl => exact .refl
  | beside _ ih => simpa using ih.beside
  | block _ ih => simpa [Code.block] using ih.block
  | loop _ ih => simpa [Code.loop] using ih.loop

theorem exists_split (h : Encloses sizes inner code) :
    ∃ before after, code = before ++ inner ++ after ∧
      (sizes.flatMap fun size => Code.ofInstrs (reserve size)).Sublist before ∧
      (sizes.reverse.flatMap fun size => Code.ofInstrs (release size)).Sublist after := by
  induction h with
  | refl => exact ⟨[], [], by simp, List.Sublist.refl _, List.Sublist.refl _⟩
  | @beside sizes inner code left right h ih =>
    obtain ⟨before, after, rfl, hbefore, hafter⟩ := ih
    exact ⟨left ++ before, after ++ right, by simp, hbefore.trans (List.sublist_append_right _ _),
      hafter.trans (List.sublist_append_left _ _)⟩
  | @block sizes inner code size h ih =>
    obtain ⟨before, after, rfl, hbefore, hafter⟩ := ih
    refine ⟨Code.ofInstrs (reserve size) ++ before, after ++ Code.ofInstrs (release size),
      by simp [Code.block], (List.Sublist.refl _).append hbefore, ?_⟩
    simpa using hafter.append (List.Sublist.refl (Code.ofInstrs (release size)))
  | @loop sizes inner code size done breakTo h ih =>
    obtain ⟨before, after, rfl, hbefore, hafter⟩ := ih
    refine ⟨Code.ofInstrs (reserve size) ++ before,
      after ++ [.label done] ++ Code.ofInstrs (release size) ++ [.label breakTo],
      by simp [Code.loop], (List.Sublist.refl _).append hbefore, ?_⟩
    have hrelease := (hafter.trans (List.sublist_append_left _ [Line.label done])).append
      (List.Sublist.refl (Code.ofInstrs (release size)))
    simpa using hrelease.trans (List.sublist_append_left _ [Line.label breakTo])

end Asm.Code.Encloses

/-! ### Their code -/

variable {total : List Nat → Nat} {σ : Nat → Nat} {result : Option Ty} {exit : Option Exit}
  {ctx : Context} {n n' : LabelCounters} {code : Code}

theorem EmitsWith.exists_arm {k : Nat} {last : Label} {i : Nat} {arms : List Arm}
    (h : EmitsWith total σ result exit ctx n (.arms k last i arms) code n') :
    ∀ a ∈ arms, ∃ next n₁ inner n₂, EmitsWith total σ result exit ctx n₁ (.arm k next a) inner n₂ ∧
      inner <:+: code := by
  induction arms generalizing i n code with
  | nil =>
    intro a ha
    cases ha
  | cons a arms ih =>
    cases h with
    | armsCons ha hrest =>
      refine List.forall_mem_cons.2 ⟨⟨_, _, _, _, ha, ?_⟩, fun a' ha' => ?_⟩
      · exact ⟨_, _, rfl⟩
      · obtain ⟨next, n₁, inner, n₂, hemits, hpart⟩ := ih hrest a' ha'
        exact ⟨next, n₁, inner, n₂, hemits, hpart.trans (List.suffix_append _ _).isInfix⟩

theorem EmitsWith.encloses_arm {k : Nat} {next : Label} {condition : Expr} {body : List Stmt}
    (h : EmitsWith total σ result exit ctx n (.arm k next (.mk condition body)) code n') :
    ∃ exit' n₁ inner n₂,
      EmitsWith total σ result exit' (ctx.enter .branch) n₁ (.seq body) inner n₂ ∧
      Code.Encloses [((ctx.enter .branch).pastAll body).frameSize] inner code := by
  cases h with
  | arm hsize htest hbody =>
    subst hsize
    exact ⟨_, _, _, _, hbody, .beside (.block .refl)⟩

theorem EmitsWith.seq_of_clause {s : Stmt}
    (h : EmitsWith total σ result exit ctx n (.clause (some s)) code n') :
    EmitsWith total σ result exit ctx n (.seq [s]) code n' := by
  cases h with
  | clauseSome hs =>
    have := EmitsWith.seqCons hs .seqNil
    rwa [List.append_nil] at this

theorem EmitsWith.opens {s : Stmt} {ctx₁ : Context} {body : List Stmt} {size : Nat}
    (h : EmitsWith total σ result exit ctx n (.stmt s) code n') (ho : s.Opens ctx ctx₁ body size) :
    ∃ exit' n₁ inner n₂, EmitsWith total σ result exit' ctx₁ n₁ (.seq body) inner n₂ ∧
      Code.Encloses [size] inner code := by
  cases ho with
  | arm hmem =>
    cases h with
    | branch hfirst harms helse =>
      rcases List.mem_cons.1 hmem with rfl | hmem
      · obtain ⟨exit', n₁, inner, n₂, hemits, hin⟩ := hfirst.encloses_arm
        exact ⟨exit', n₁, inner, n₂, hemits, hin.before.before.before⟩
      · obtain ⟨next, _, arm, _, harm, before, after, rfl⟩ := harms.exists_arm _ hmem
        obtain ⟨exit', n₁, inner, n₂, hemits, hin⟩ := harm.encloses_arm
        exact ⟨exit', n₁, inner, n₂, hemits, hin.beside.behind.before.before⟩
  | otherwise =>
    cases h with
    | branch hfirst harms helse =>
      cases helse with
      | otherwiseSome hsize hbody =>
        subst hsize
        exact ⟨_, _, _, _, hbody, (Code.Encloses.block .refl).behind.behind.before⟩
  | whileBody =>
    cases h with
    | whileLoop hsize htest hbody =>
      subst hsize
      exact ⟨_, _, _, _, hbody, .loop (.beside .refl)⟩
  | forInit =>
    cases h with
    | forLoop hsize hinit htest hbody hstep =>
      subst hsize
      exact ⟨_, _, _, _, hinit.seq_of_clause,
        .loop (Code.Encloses.refl.before.before.before.before.before.before)⟩
  | forBody =>
    cases h with
    | forLoop hsize hinit htest hbody hstep =>
      subst hsize
      exact ⟨_, _, _, _, hbody, .loop (Code.Encloses.refl.behind.before.before.before)⟩
  | forStep =>
    cases h with
    | forLoop hsize hinit htest hbody hstep =>
      subst hsize
      exact ⟨_, _, _, _, hstep.seq_of_clause, .loop (Code.Encloses.refl.behind.before)⟩

/-- **Every statement of a block is compiled in the context that `Stmt.Holds` says,** and its code
stands in blocks that reserve these sizes. -/
theorem EmitsWith.holds {body : List Stmt} {ctx' : Context} {sizes : List Nat} {s : Stmt}
    (h : EmitsWith total σ result exit ctx n (.seq body) code n')
    (hh : Stmt.Holds ctx body ctx' sizes s) :
    ∃ exit' n₁ inner n₂, EmitsWith total σ result exit' ctx' n₁ (.stmt s) inner n₂ ∧
      Code.Encloses sizes inner code := by
  induction hh generalizing exit n code n' with
  | head =>
    cases h with
    | seqCons hs hrest => exact ⟨_, _, _, _, hs, Code.Encloses.refl.before⟩
  | tail _ ih =>
    cases h with
    | seqCons hs hrest =>
      obtain ⟨exit', n₁, inner, n₂, hemits, hin⟩ := ih hrest
      exact ⟨exit', n₁, inner, n₂, hemits, hin.behind⟩
  | inner ho _ ih =>
    cases h with
    | seqCons hs hrest =>
      obtain ⟨_, _, block, _, hblock, hout⟩ := hs.opens ho
      obtain ⟨exit', n₁, inner, n₂, hemits, hin⟩ := ih hblock
      exact ⟨exit', n₁, inner, n₂, hemits, (hin.trans hout).before⟩

/-! ### Their places -/

/-- The scopes of a context are stacked, and the innermost one is a block. -/
structure Context.Fits (ctx : Context) : Prop where
  stacked : Stacked ctx.scopes.scopes
  block : ∃ start, ctx.InBlock start

namespace Context.Fits

variable {ctx : Context}

theorem enter (h : ctx.Fits) {kind : ScopeKind}
    (hkind : kind = .branch ∨ kind = .forLoop ∨ kind = .whileLoop) : (ctx.enter kind).Fits := by
  obtain ⟨start, hstart⟩ := h.block
  refine ⟨h.stacked.openBlock ?_ rfl (ctx.scopes.startOf_eq_floor hkind), _,
    (inBlock_enter hstart kind hkind).1⟩
  rcases hkind with rfl | rfl | rfl <;> simp [Scope.empty]

theorem declared (h : ctx.Fits) (x type : String) : (ctx.declared x type).Fits := by
  obtain ⟨start, hstart⟩ := h.block
  refine ⟨?_, start, (hstart.declared x type).1⟩
  unfold Context.declared
  split
  · exact h.stacked
  · split
    · exact h.stacked
    · rename_i hd
      obtain ⟨top, top', rest, hs, ha, rfl⟩ := ScopeStack.declare_eq_ok.1 hd
      have hstacked := h.stacked
      rw [hs] at hstacked
      exact hstacked.declare ha

theorem past (h : ctx.Fits) (s : Stmt) : (ctx.past s).Fits := by
  unfold Context.past
  split
  · exact h.declared _ _
  · exact h

theorem pastAll (body : List Stmt) : ∀ {ctx : Context}, ctx.Fits → (ctx.pastAll body).Fits := by
  induction body with
  | nil => exact id
  | cons s body ih => exact fun h => ih (h.past s)

theorem pastClause (h : ctx.Fits) (clause : Option Stmt) : (ctx.pastClause clause).Fits := by
  cases clause with
  | none => exact h
  | some s => exact h.past s

theorem cursor_le_pastAll (h : ctx.Fits) (body : List Stmt) :
    ctx.cursor ≤ (ctx.pastAll body).cursor := by
  obtain ⟨start, hstart⟩ := h.block
  exact (hstart.pastAll body).2

theorem floor_eq (h : ctx.Fits) : Scope.floor ctx.scopes.scopes = ctx.cursor := by
  obtain ⟨start, top, rest, hs, hk, -⟩ := h.block
  simp [Scope.floor, cursor, hs, hk]

end Context.Fits

theorem Stmt.Opens.fits {s : Stmt} {ctx₁ : Context} {body : List Stmt} {size : Nat}
    (ho : s.Opens ctx ctx₁ body size) (h : ctx.Fits) :
    ctx₁.Fits ∧ (ctx₁.pastAll body).cursor ≤ ctx.cursor + size := by
  obtain ⟨start, hstart⟩ := h.block
  have hfor := (Context.inBlock_enter hstart .forLoop (.inr (.inl rfl))).1
  have henter : (ctx.enter .forLoop).Fits := h.enter (.inr (.inl rfl))
  cases ho with
  | arm hmem =>
    have hblock := (Context.inBlock_enter hstart .branch (.inl rfl)).1
    exact ⟨h.enter (.inl rfl), (hblock.pastAll body).1.cursor_le⟩
  | otherwise =>
    have hblock := (Context.inBlock_enter hstart .branch (.inl rfl)).1
    exact ⟨h.enter (.inl rfl), (hblock.pastAll body).1.cursor_le⟩
  | whileBody =>
    have hblock := (Context.inBlock_enter hstart .whileLoop (.inr (.inr rfl))).1
    exact ⟨h.enter (.inr (.inr rfl)), (hblock.pastAll body).1.cursor_le⟩
  | @forInit init condition increment body =>
    obtain ⟨hinit, -⟩ := hfor.past init
    obtain ⟨hbody, hle⟩ := hinit.pastAll body
    obtain ⟨hstep, hle'⟩ := hbody.pastClause increment
    exact ⟨henter, Int.le_trans hle (Int.le_trans hle' hstep.cursor_le)⟩
  | @forBody init condition increment =>
    obtain ⟨hinit, -⟩ := hfor.pastClause init
    obtain ⟨hbody, -⟩ := hinit.pastAll body
    obtain ⟨hstep, hle⟩ := hbody.pastClause increment
    exact ⟨henter.pastClause init, Int.le_trans hle hstep.cursor_le⟩
  | @forStep init condition increment body =>
    obtain ⟨hinit, -⟩ := hfor.pastClause init
    obtain ⟨hbody, -⟩ := hinit.pastAll body
    obtain ⟨hstep, -⟩ := hbody.past increment
    exact ⟨.pastAll body (henter.pastClause init), hstep.cursor_le⟩

/-- **At every statement the cursor is within what is reserved.** `room` is what is reserved around
`body`. -/
theorem Stmt.Holds.fits {body : List Stmt} {ctx' : Context} {sizes : List Nat} {s : Stmt}
    (hh : Stmt.Holds ctx body ctx' sizes s) :
    ∀ {room : Int}, ctx.Fits → (ctx.pastAll body).cursor ≤ room →
      ctx'.Fits ∧ ctx'.cursor ≤ room + sizes.sum := by
  induction hh with
  | @head ctx s rest =>
    intro room h hroom
    have hle := h.cursor_le_pastAll (s :: rest)
    exact ⟨h, by simp only [List.sum_nil]; omega⟩
  | tail _ ih =>
    intro room h hroom
    exact ih (h.past _) hroom
  | @inner ctx s rest ctx₁ body size ctx' sizes s' ho _ ih =>
    intro room h hroom
    obtain ⟨h₁, hle₁⟩ := ho.fits h
    have hle := h.cursor_le_pastAll (s :: rest)
    -- The block starts at the cursor, which is within `room`.
    have hroom₁ : (ctx₁.pastAll body).cursor ≤ room + size := by omega
    obtain ⟨h', hle'⟩ := ih h₁ hroom₁
    refine ⟨h', ?_⟩
    rw [List.sum_cons]
    omega

/-! ### Functions -/

theorem FunctionSignature.fits_entry {signature : FunctionSignature} {d : Declarations}
    {ctx : Context} (h : signature.entry d = .ok ctx) : ctx.Fits ∧ ctx.InBlock 0 := by
  obtain ⟨hnodup, rfl⟩ := scopes_entry h
  have hslotted : signature.frame.Slotted := by
    refine ⟨by rw [frame, map_name_slotSymbols]; exact hnodup, fun i v hv => ?_, ?_⟩
    · have hi : i < signature.slots.length := by
        have := (List.getElem?_eq_some_iff.1 hv).1
        rwa [frame, ← List.length_map Symbol.name, map_name_slotSymbols, List.length_map] at this
      have hslot := getElem?_slotSymbols (c := parameterStart)
        (show signature.slots[i]? = some (signature.slots[i].1, signature.slots[i].2) by simp [hi])
      obtain rfl := Option.some.inj (hslot.symm.trans hv)
      rfl
    · have hlength : (slotSymbols parameterStart signature.slots).length =
          signature.slots.length := by
        rw [← List.length_map Symbol.name, map_name_slotSymbols, List.length_map]
      simp only [frame, parameterStart, parameterSlot] at hlength ⊢
      rw [hlength]
  have hblock : Context.InBlock (Context.enter
      { toDeclarations := d, scopes := { scopes := [signature.frame] } } .function) 0 :=
    ⟨_, _, rfl, by simp [Scope.empty], rfl⟩
  refine ⟨⟨(Stacked.params rfl hslotted).openBlock (by simp [Scope.empty]) rfl ?_, 0, hblock⟩,
    hblock⟩
  simp [Scope.empty, Scope.floor, frame, ScopeStack.startOf]

theorem FunctionDecl.exists_split_of_encloses {sizes : List Nat} {inner body : Code}
    (h : Code.Encloses sizes inner body) (name : String) (frame : Nat) :
    ∃ before after, frameCode name frame body = before ++ inner ++ after ∧
      ((frame :: sizes).flatMap fun size => Code.ofInstrs (reserve size)).Sublist before ∧
      (sizes.reverse.flatMap fun size => Code.ofInstrs (release size)).Sublist after := by
  obtain ⟨before, after, rfl, hbefore, hafter⟩ := h.exists_split
  let entry : Code := [.label (.named name), .instr (.pushReg .ebp), .instr (.move .ebp .esp)]
  let leave : Code :=
    [.label .returnPoint, .instr (.move .esp .ebp), .instr (.pop .ebp), .instr .ret]
  refine ⟨entry ++ (Code.ofInstrs (reserve frame) ++ before), after ++ leave, ?_, ?_,
    hafter.trans (List.sublist_append_left _ _)⟩
  · simp [frameCode, entry, leave, Code.ofInstrs]
  · exact ((List.Sublist.refl _).append hbefore).trans (List.sublist_append_right _ _)

/-- **Locals stay inside the reserved frame.** At every statement of a function that compiles, a
local that is in scope takes bytes below the frame base and not below what the function and the
blocks around the statement reserve. So it overlaps neither the saved frame base nor the return
address nor a parameter. The lines that reserve these bytes stand before the code of the statement
and those that release the blocks after it, so that temporaries are pushed below every local. -/
theorem FunctionDecl.locals_in_frame {source : String} {p : Program} {decl : FunctionDecl}
    {g g' : Generator} {code : Code} (hp : Program.ofSource source = .ok p)
    (hd : .function decl ∈ p.items) (h : Returns decl.lower g code g') :
    ∃ signature ctx raw σ,
      g.context.functions.get decl.name = .ok signature ∧
      signature.entry g.context.toDeclarations = .ok ctx ∧
      code = frameCode decl.name (ctx.pastAll decl.body).frameSize (raw.resolve σ) ∧
      ∀ ctx' sizes s, Stmt.Holds ctx decl.body ctx' sizes s →
        (∃ exit n inner n', Emits σ signature.result exit ctx' n (.stmt s) inner n' ∧
          Code.Encloses sizes inner raw ∧
          ∃ before after, code = before ++ inner.resolve σ ++ after ∧
            (((ctx.pastAll decl.body).frameSize :: sizes).flatMap fun size =>
              Code.ofInstrs (reserve size)).Sublist before ∧
            (sizes.reverse.flatMap fun size => Code.ofInstrs (release size)).Sublist after) ∧
        ∀ v ∈ Scope.locals ctx'.scopes.scopes,
          v.type.alignedSize ≤ v.offset ∧
          v.offset ≤ (ctx.pastAll decl.body).frameSize + sizes.sum ∧
          Disjoint v.span (Set.Ioc (-4) 0) ∧ Disjoint v.span (Set.Ioc (-8) (-4)) ∧
          ∀ scope ∈ ctx'.scopes.scopes, scope.kind = .parameter →
            ∀ q ∈ scope.symbols, Disjoint v.span q.span := by
  obtain ⟨signature, ctx, raw, σ, hsignature, -, hentry, hcode, hemits, -, -⟩ :=
    emits_of_returns (FunctionDecl.wellFormed_of_source hp hd) h
  refine ⟨signature, ctx, raw, σ, hsignature, hentry, hcode, fun ctx' sizes s hh => ?_⟩
  obtain ⟨exit, n, inner, n', hinner, hin⟩ := hemits.holds hh
  obtain ⟨before, after, hsplit, hreserve, hrelease⟩ := exists_split_of_encloses (hin.resolve σ)
    decl.name (ctx.pastAll decl.body).frameSize
  refine ⟨⟨exit, n, inner, n', hinner, hin, before, after, hcode.trans hsplit, hreserve, hrelease⟩,
    fun v hv => ?_⟩
  obtain ⟨hfits, hblock⟩ := FunctionSignature.fits_entry hentry
  have hframe := (hblock.pastAll decl.body).1.cursor_le
  rw [Int.zero_add] at hframe
  obtain ⟨hfits', hcursor⟩ := hh.fits hfits hframe
  obtain ⟨hsize, hfloor⟩ := hfits'.stacked.place v hv
  rw [hfits'.floor_eq] at hfloor
  have hbelow : ∀ k ∈ v.span, 0 < k := by
    intro k hk
    have hlt : v.offset - v.type.alignedSize < k := hk.1
    omega
  refine ⟨hsize, Int.le_trans hfloor hcursor, ?_, ?_, fun scope hscope hk q hq => ?_⟩
  · refine Set.disjoint_left.2 fun k hk hsaved => ?_
    exact absurd (hbelow k hk) (Int.not_lt.2 hsaved.2)
  · refine Set.disjoint_left.2 fun k hk hsaved => ?_
    have hpos := hbelow k hk
    have hle : k ≤ -4 := hsaved.2
    omega
  · obtain ⟨i, hi⟩ := List.getElem?_of_mem hq
    have hoffset := (hfits'.stacked.slotted scope hscope hk).offset i q hi
    exact (Symbol.disjoint_span (by omega)).symm

/-- The locals in the innermost block of a function that is a `while` loop with an `if` statement in
it and a `return`, with one declaration at the start of each block. -/
def FunctionDecl.nestedLocals (g : Generator) (decl : FunctionDecl) : Option (List Symbol) := do
  let signature ← (g.context.functions.get decl.name).toOption
  let ctx ← (signature.entry g.context.toDeclarations).toOption
  match decl.body with
  | [s₁, .whileLoop _ [s₂, .branch (.mk _ [s₃, _]) [] none], _] =>
    some (Scope.locals
      (((((ctx.past s₁).enter .whileLoop).past s₂).enter .branch).past s₃).scopes.scopes)
  | _ => none

/-- Locals of one, two and twelve bytes, in a function, in a loop and in a block of it. Each
reserves whole words, so that together they reserve more than they use. -/
theorem FunctionDecl.locals_in_frame_of_nested : ∃ p decl, ∃ code : Code, ∃ g' ctx ctx' sizes s v,
    Program.ofSource "fn f(n: u8, k: i32) -> i32 { var a: u8 = 1;
      while (n) { var b: i32(3); if (k) { var c: u16 = 2; n = 0; } } return k; }" = .ok p ∧
    .function decl ∈ p.items ∧ Returns decl.lower (Generator.start {} p).1 code g' ∧
    Stmt.Holds ctx decl.body ctx' sizes s ∧ v ∈ Scope.locals ctx'.scopes.scopes ∧
    v.name = "c" ∧ v.offset = 18 ∧ v.offset ≤ (ctx.pastAll decl.body).frameSize + sizes.sum ∧
    Disjoint v.span (Set.Ioc (-4) 0) := by
  obtain ⟨p, decl, code, g', hp, hd, h, hcheck⟩ := exists_of_someFunction
    "fn f(n: u8, k: i32) -> i32 { var a: u8 = 1;
      while (n) { var b: i32(3); if (k) { var c: u16 = 2; n = 0; } } return k; }"
    (fun g decl _ => decide (decl.nestedLocals g = some
      [⟨"c", .primitive 2 false, 18⟩, ⟨"b", .array .int32 3, 16⟩, ⟨"a", .primitive 1 false, 1⟩]))
    (by decide +kernel)
  obtain ⟨signature, ctx, raw, σ, hsignature, hentry, -, hlocals⟩ := locals_in_frame hp hd h
  have hnested := of_decide_eq_true hcheck
  simp only [nestedLocals, hsignature, hentry, Except.toOption, Option.bind_eq_bind,
    Option.bind_some] at hnested
  split at hnested
  · rename_i s₁ condition s₂ test s₃ s₄ s₅ hbody
    obtain ⟨sizes, hholds⟩ : ∃ sizes, Stmt.Holds ctx decl.body
        (((((ctx.past s₁).enter .whileLoop).past s₂).enter .branch).past s₃) sizes s₄ := by
      rw [hbody]
      exact ⟨_, .tail (.inner .whileBody (.tail (.inner (.arm (List.mem_singleton.2 rfl))
        (.tail .head))))⟩
    obtain ⟨-, hin⟩ := hlocals _ _ _ hholds
    rw [Option.some.inj hnested] at hin
    obtain ⟨-, hle, hsaved, -⟩ := hin _ List.mem_cons_self
    refine ⟨p, decl, code, g', ctx, _, sizes, s₄, _, hp, hd, h, hholds, ?_, rfl, rfl, hle, hsaved⟩
    rw [Option.some.inj hnested]
    exact List.mem_cons_self
  · cases hnested

end GLang
