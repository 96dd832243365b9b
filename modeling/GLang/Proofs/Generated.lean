import GLang.Proofs.Draft
import GLang.Proofs.Lowered

/-!
# What the generator makes

Compiling a phrase makes a draft of code that `Emits` describes: `Phrase.Drafted`. The proof follows
the recursion of the generator, with one case for each kind of statement; blocks and loops are
`Draft.block` and `Draft.loop`.

When a function has been compiled all its scopes are closed and no exit waits any more. The sizes of
the scopes are then known, the draft is final, and its placeholders have been filled as `Emits`
wants it: `FunctionDecl.emits_of_returns`.
-/

namespace GLang

open Asm Gen

/-! ### Asking a bare context -/

namespace Context

variable {ctx : Context}

theorem lower_bare {e : Expr} {code : List Instr} (h : e.lower ctx = .ok code) :
    e.lower ctx.bare = .ok code := by
  rw [Expr.lower_congr (ctx.alike_bare.on _)]
  exact h

theorem lookup_bare {x : String} {s : Symbol} (h : ctx.lookup x = .ok s) :
    ctx.bare.lookup x = .ok s := by
  rw [ctx.alike_bare.lookup]
  exact h

end Context

/-- What takes the result of a function off the stack depends on nothing but the context. -/
theorem Stmt.returns_resultCode {g g' : Generator} {code : List Instr} :
    Returns Stmt.resultCode g code g' ↔
      g.context.returnCode g.resultType = .ok code ∧ g' = g := by
  unfold resultCode Context.returnCode
  rw [returns_bind]
  constructor
  · rintro ⟨_, _, hget, h⟩
    obtain ⟨rfl, rfl⟩ := returns_get.1 hget
    split at h
    · rename_i t ht
      by_cases hp : t.isPrimitive
      · rw [if_pos hp] at h
        obtain ⟨rfl, rfl⟩ := returns_pure.1 h
        simp only [ht, hp, if_true]
        exact ⟨trivial, trivial⟩
      · rw [if_neg hp] at h
        obtain ⟨s, g₁, hs, hcode⟩ := returns_bind.1 h
        obtain ⟨hs, rfl⟩ := returns_lookup.1 hs
        obtain ⟨rfl, rfl⟩ := returns_pure.1 hcode
        simp only [ht, hp]
        exact ⟨except_bind_eq_ok.2 ⟨s, hs, rfl⟩, trivial⟩
    · rename_i ht
      obtain ⟨rfl, rfl⟩ := returns_pure.1 h
      simp only [ht]
      exact ⟨trivial, trivial⟩
  · rintro ⟨h, rfl⟩
    refine ⟨_, _, returns_get.2 ⟨rfl, rfl⟩, ?_⟩
    split
    · rename_i t ht
      simp only [ht] at h
      by_cases hp : t.isPrimitive
      · rw [if_pos hp] at h ⊢
        cases h
        exact returns_pure.2 ⟨rfl, rfl⟩
      · rw [if_neg hp] at h ⊢
        obtain ⟨s, hs, h⟩ := except_bind_eq_ok.1 h
        cases h
        exact returns_bind.2 ⟨s, _, returns_lookup.2 ⟨hs, rfl⟩, returns_pure.2 ⟨rfl, rfl⟩⟩
    · rename_i ht
      simp only [ht] at h
      cases h
      exact returns_pure.2 ⟨rfl, rfl⟩

theorem Context.returnCode_bare {ctx : Context} {result : Option Ty} {code : List Instr}
    (h : ctx.returnCode result = .ok code) : ctx.bare.returnCode result = .ok code := by
  unfold returnCode at h ⊢
  rw [ctx.alike_bare.lookup]
  exact h

theorem Context.isPlain_returnCode {ctx : Context} {result : Option Ty} {code : List Instr}
    (h : ctx.returnCode result = .ok code) : ∀ i ∈ code, i.isPlain := by
  unfold returnCode at h
  split at h
  · cases h
    simp [Instr.isPlain]
  · split at h
    · cases h
      simp [Instr.isPlain]
    · obtain ⟨s, -, h⟩ := except_bind_eq_ok.1 h
      cases h
      simp only [List.forall_mem_append, List.forall_mem_singleton]
      exact ⟨⟨rfl, (moves_popCopy _ _).isPlain⟩, rfl⟩

/-! ### Drafts of phrases -/

/-- No scope that a waiting `continue` leaves reserves anything. -/
def Spares (size : Nat → Nat) (new : List LoopExit) : Prop :=
  ∀ loop crossed, .continue_ loop crossed ∈ new → wordSum (crossed.map size) = 0

theorem Spares.append {size : Nat → Nat} {new new' : List LoopExit}
    (h : Spares size (new ++ new')) : Spares size new ∧ Spares size new' :=
  ⟨fun loop crossed he => h loop crossed (List.mem_append_left _ he),
    fun loop crossed he => h loop crossed (List.mem_append_right _ he)⟩

/-- `code` is made on the way from `g` to `g'`, where the bare context is `after`. Once the sizes of
the scopes are known, `P` holds of it with all placeholders still in it. -/
structure Drafts (g g' : Generator) (code : Code) (after : Context)
    (P : (Nat → Nat) → Option Exit → Code → Prop) : Prop where
  resultType : g'.resultType = g.resultType
  bare : g'.context.bare = after
  draft : ∃ raw log new, Draft g.context g'.context code raw log new ∧
    ∀ size σ, Measures size g'.context.scopes.closed → Drops size σ log → Spares size new →
      P σ (exitOf size g.context.scopes.shells) raw

/-- `code`, made on the way from `g` to `g'`, is a draft of the code of a phrase. -/
abbrev Phrase.Drafted (p : Phrase) (g : Generator) (code : Code) (g' : Generator) : Prop :=
  Drafts g g' code (p.past g.context.bare) fun σ exit raw =>
    Emits σ g.resultType exit g.context.bare g.context.labels p raw g'.context.labels

namespace Drafts

variable {g g₁ g' : Generator} {code code' : Code} {after after' : Context}
  {P Q : (Nat → Nat) → Option Exit → Code → Prop}

theorem tidy (h : Drafts g g' code after P) : g'.context.Tidy := by
  obtain ⟨raw, log, new, hdraft, -⟩ := h.draft
  exact hdraft.tidy

theorem weaken (h : Drafts g g' code after P) (hPQ : ∀ σ exit raw, P σ exit raw → Q σ exit raw) :
    Drafts g g' code after Q := by
  obtain ⟨raw, log, new, hdraft, hP⟩ := h.draft
  exact ⟨h.resultType, h.bare, raw, log, new, hdraft,
    fun size σ hsize hdrops hspares => hPQ _ _ _ (hP size σ hsize hdrops hspares)⟩

/-- Lines that are put in while the generator stays as it is. -/
theorem still (ht : g.context.Tidy) (hmarkers : code.markers = []) (hplain : code.isPlain) :
    Drafts g g code g.context.bare fun _ _ raw => raw = code :=
  ⟨rfl, rfl, code, [], [], .still ht hmarkers hplain, fun _ _ _ _ _ => rfl⟩

theorem label (ht : g.context.Tidy) {l : Label} (hl : l.isPlain) :
    Drafts g g [.label l] g.context.bare fun _ _ raw => raw = [.label l] :=
  still ht rfl (by simpa [Code.isPlain, Line.isPlain] using hl)

theorem append (h : Drafts g g₁ code after P) (h' : Drafts g₁ g' code' after' Q) :
    Drafts g g' (code ++ code') after' fun σ exit raw =>
      ∃ first second, raw = first ++ second ∧ P σ exit first ∧ Q σ exit second := by
  obtain ⟨raw, log, new, hdraft, hP⟩ := h.draft
  obtain ⟨raw', log', new', hdraft', hQ⟩ := h'.draft
  refine ⟨h'.resultType.trans h.resultType, h'.bare, _, _, _, hdraft.append hdraft', ?_⟩
  intro size σ hsize hdrops hspares
  obtain ⟨hd, hd'⟩ := hdrops.append
  obtain ⟨hs, hs'⟩ := hspares.append
  refine ⟨raw, raw', rfl, hP size σ (hsize.of_suffix hdraft'.closed) hd hs, ?_⟩
  rw [← hdraft.shells]
  exact hQ size σ hsize hd' hs'

/-- Numbering labels is no step for a draft. -/
theorem of_labels {labels : LabelCounters}
    (h : Drafts { g with context := { g.context with labels } } g' code after P) :
    Drafts g g' code after P := by
  obtain ⟨raw, log, new, hd, hP⟩ := h.draft
  refine ⟨h.resultType, h.bare, raw, log, new, ?_, hP⟩
  exact ⟨hd.tidy, hd.shells, hd.closed, hd.pending, hd.loops, hd.logged, hd.count, hd.numbers,
    hd.markers, hd.unfilled, hd.plain, hd.plainRaw, hd.resolves⟩

/-- A phrase that leaves the generator as it is. -/
theorem quiet {p : Phrase} (ht : g.context.Tidy) (hpast : p.past g.context.bare = g.context.bare)
    (hmarkers : code.markers = []) (hplain : code.isPlain)
    (hemits : ∀ σ exit, Emits σ g.resultType exit g.context.bare g.context.labels p code
      g.context.labels) : p.Drafted g code g :=
  ⟨rfl, hpast.symm, code, [], [], .still ht hmarkers hplain, fun _ σ _ _ _ => hemits σ _⟩

/-- A block sees the exit from inside, and takes what its scope reserves in the end. -/
theorem block
    (h : Drafts (g.withScopes (g.context.scopes.openScope .branch none).2) g₁ code after P)
    (hleave : after.leave = g.context.bare) {scope : Scope} {scopes : ScopeStack}
    (hp : g₁.context.scopes.pop .branch = .ok (scope, scopes)) :
    Drafts g (g₁.withScopes scopes) (Code.block scope.localSize code) g.context.bare
      fun σ exit raw => ∃ inner, raw = Code.block after.frameSize inner ∧
        P σ (exit.map (·.within after.frameSize)) inner := by
  obtain ⟨raw, log, new, hdraft, hP⟩ := h.draft
  obtain ⟨hsize, hbare⟩ := Context.bare_pop hp
  obtain ⟨hdraft', hmem⟩ := hdraft.block hp
  rw [h.bare] at hsize hbare
  refine ⟨h.resultType, hbare.trans hleave, _, _, _, hdraft', ?_⟩
  intro size σ hmeasures hdrops hspares
  refine ⟨raw, by rw [hsize], ?_⟩
  have hexit : (exitOf size g.context.scopes.shells).map (·.within after.frameSize) =
      exitOf size (g.context.scopes.openScope .branch none).2.shells := by
    have hid : size g.context.scopes.nextId = scope.localSize := hmeasures _ hmem
    rw [← hsize, ← hid]
    rfl
  rw [hexit]
  exact hP size σ (hmeasures.of_suffix (ScopeStack.closed_of_pop hp)) hdrops hspares

/-- Nothing of what has been noted in a loop waits after it. -/
theorem loop (ht : g.context.Tidy) {kind : ScopeKind} {labels : LoopLabels} (hk : kind.isLoop)
    (hl : labels.continueTo.isPlain ∧ labels.breakTo.isPlain) {done : Label} (hd : done.isPlain)
    (h : Drafts (g.withScopes (g.context.scopes.openScope kind (some labels)).2) g₁ code after P)
    (hleave : after.leave = g.context.bare) {scope : Scope} {scopes : ScopeStack}
    (hp : g₁.context.scopes.pop kind = .ok (scope, scopes)) {fillings : List (Nat × Nat)}
    (hf : ((g₁.withScopes scopes).context.settle g.context.scopes.nextId).1 = .ok fillings) :
    Drafts g
      { g₁ with context := ((g₁.withScopes scopes).context.settle g.context.scopes.nextId).2 }
      (Code.loop scope.localSize (code.fillAll fillings) done labels.breakTo) g.context.bare
      fun σ _ raw => ∃ inner, raw = Code.loop after.frameSize inner done labels.breakTo ∧
        P σ (some ⟨labels, [after.frameSize]⟩) inner := by
  obtain ⟨raw, log, new, hdraft, hP⟩ := h.draft
  obtain ⟨hsize, hbare⟩ := Context.bare_pop hp
  obtain ⟨hdraft', hmem, hspares⟩ := hdraft.loop ht hk hl hd hp hf
  rw [h.bare] at hsize hbare
  refine ⟨h.resultType, hbare.trans hleave, _, _, _, hdraft', ?_⟩
  intro size σ hmeasures hdrops _
  refine ⟨raw, by rw [hsize], ?_⟩
  have hexit : some ⟨labels, [after.frameSize]⟩ =
      exitOf size (g.context.scopes.openScope kind (some labels)).2.shells := by
    have hid : size g.context.scopes.nextId = scope.localSize := hmeasures _ hmem
    rw [← hsize, ← hid]
    rfl
  rw [hexit]
  exact hP size σ (hmeasures.of_suffix (ScopeStack.closed_of_pop hp)) hdrops
    (hspares size hmeasures)

end Drafts

/-! ### Single statements -/

section Single

variable {g g' : Generator} {code : Code}

theorem Stmt.drafted_declare {x type : String} {init : Option Expr} (ht : g.context.Tidy)
    (hw : (Stmt.declare x type init).wellFormed)
    (h : Returns (Stmt.declare x type init).lower g code g') :
    (Phrase.stmt (.declare x type init)).Drafted g code g' := by
  -- A declaration changes the innermost scope, but not what `Draft` sees of it.
  have hidle : ∀ {t : Ty} {symbol : Symbol} {scopes : ScopeStack} {code : Code},
      g.context.scopes.declare x t = .ok (symbol, scopes) → code.markers = [] → code.isPlain →
      Draft g.context (g.withScopes scopes).context code code [] [] := by
    intro t symbol scopes code hd hmarkers hplain
    obtain ⟨top, top', rest, hs, ha, rfl⟩ := ScopeStack.declare_eq_ok.1 hd
    refine .idle ht ?_ rfl rfl rfl rfl hmarkers hplain
    show (top' :: rest).map Scope.shell = g.context.scopes.scopes.map Scope.shell
    rw [hs, List.map_cons, List.map_cons, Scope.shell_allocate ha]
  cases init with
  | none =>
    simp only [Stmt.lower, returns_bind, returns_ask, returns_declare, returns_pure] at h
    obtain ⟨t, _, ⟨htype, rfl⟩, symbol, _, ⟨scopes, hd, rfl⟩, rfl, rfl⟩ := h
    obtain ⟨hd', hbare⟩ := Context.bare_declare htype hd
    exact ⟨rfl, hbare, [], [], [], hidle hd rfl rfl, fun _ _ _ _ _ => .declare htype hd'⟩
  | some init =>
    simp only [Stmt.lower, returns_bind, returns_ask, returns_evaluate, returns_declare,
      returns_pure] at h
    obtain ⟨t, _, ⟨htype, rfl⟩, _, _, ⟨value, hv, rfl, rfl⟩, symbol, _, ⟨scopes, hd, rfl⟩, rfl,
      rfl⟩ := h
    obtain ⟨hd', hbare⟩ := Context.bare_declare htype hd
    rw [← Code.ofInstrs_append]
    have hplain : ∀ i ∈ value ++ symbol.storeCode, i.isPlain :=
      List.forall_mem_append.2
        ⟨Expr.isPlain_lower (by simpa [Stmt.wellFormed] using hw) hv,
          symbol.moves_storeCode.isPlain⟩
    exact ⟨rfl, hbare, _, [], [],
      hidle hd (Code.markers_ofInstrs _) (Code.isPlain_ofInstrs.2 hplain),
      fun _ _ _ _ _ => .declareInit htype (Context.lower_bare hv) hd'⟩

theorem Stmt.drafted_assign {x : String} {e : Expr} (ht : g.context.Tidy) (hw : e.wellFormed)
    (h : Returns (Stmt.assign x e).lower g code g') :
    (Phrase.stmt (.assign x e)).Drafted g code g' := by
  simp only [Stmt.lower, returns_bind, returns_evaluate, returns_lookup, returns_pure] at h
  obtain ⟨_, _, ⟨value, hv, rfl, rfl⟩, symbol, _, ⟨hx, rfl⟩, rfl, rfl⟩ := h
  rw [← Code.ofInstrs_append]
  refine .quiet ht rfl (Code.markers_ofInstrs _) (Code.isPlain_ofInstrs.2 ?_) fun σ exit =>
    .assign (Context.lower_bare hv) (Context.lookup_bare hx)
  exact List.forall_mem_append.2 ⟨Expr.isPlain_lower hw hv, symbol.moves_storeCode.isPlain⟩

theorem Stmt.drafted_store {x : String} {e : Expr} (ht : g.context.Tidy) (hw : e.wellFormed)
    (h : Returns (Stmt.store x e).lower g code g') :
    (Phrase.stmt (.store x e)).Drafted g code g' := by
  simp only [Stmt.lower, returns_bind, returns_lookup] at h
  obtain ⟨symbol, _, ⟨hx, rfl⟩, h⟩ := h
  split at h
  · exact absurd h not_returns_throw
  · rename_i t hpointee
    simp only [returns_bind, returns_evaluate, returns_pure] at h
    obtain ⟨_, _, ⟨value, hv, rfl, rfl⟩, rfl, rfl⟩ := h
    rw [← Code.ofInstrs_append]
    refine .quiet ht rfl (Code.markers_ofInstrs _) (Code.isPlain_ofInstrs.2 ?_) fun σ exit =>
      .store (Context.lookup_bare hx) hpointee (Context.lower_bare hv)
    exact List.forall_mem_append.2 ⟨Expr.isPlain_lower hw hv, (symbol.moves_storeThrough t).isPlain⟩

theorem Stmt.drafted_storeAt {a e : Expr} (ht : g.context.Tidy) (hwa : a.wellFormed)
    (hwe : e.wellFormed) (h : Returns (Stmt.storeAt a e).lower g code g') :
    (Phrase.stmt (.storeAt a e)).Drafted g code g' := by
  simp only [Stmt.lower, returns_bind, returns_ask, returns_evaluate, returns_pure] at h
  obtain ⟨t, _, ⟨htype, rfl⟩, _, _, ⟨target, ha, rfl, rfl⟩, _, _, ⟨value, hv, rfl, rfl⟩, rfl,
    rfl⟩ := h
  rw [← Code.ofInstrs_append, ← Code.ofInstrs_append]
  refine .quiet ht rfl (Code.markers_ofInstrs _) (Code.isPlain_ofInstrs.2 ?_) fun σ exit =>
    .storeAt ?_ (Context.lower_bare ha) (Context.lower_bare hv)
  · exact List.forall_mem_append.2 ⟨List.forall_mem_append.2
      ⟨Expr.isPlain_lower hwa ha, Expr.isPlain_lower hwe hv⟩, t.moves_storeIndirect.isPlain⟩
  · rw [Expr.readType_congr ((Context.alike_bare _).sameNames.on _)]
    exact htype

theorem Stmt.drafted_step {op : StepOp} {x : String} (ht : g.context.Tidy)
    (h : Returns (Stmt.step op x).lower g code g') :
    (Phrase.stmt (.step op x)).Drafted g code g' := by
  simp only [Stmt.lower, returns_bind, returns_lookup] at h
  obtain ⟨symbol, _, ⟨hx, rfl⟩, h⟩ := h
  split at h
  · rename_i hp
    obtain ⟨rfl, rfl⟩ := returns_pure.1 h
    exact .quiet ht rfl (Code.markers_ofInstrs _)
      (Code.isPlain_ofInstrs.2 (symbol.moves_stepCode op).isPlain)
      fun σ exit => .step (Context.lookup_bare hx) hp
  · exact absurd h not_returns_throw

theorem Stmt.drafted_breakLoop (ht : g.context.Tidy)
    (h : Returns Stmt.breakLoop.lower g code g') :
    (Phrase.stmt .breakLoop).Drafted g code g' := by
  simp only [Stmt.lower, returns_bind, returns_change, returns_ask, returns_pure] at h
  obtain ⟨m, _, ⟨ctx, hnote, rfl⟩, labels, _, ⟨hlabels, rfl⟩, rfl, rfl⟩ := h
  obtain ⟨⟨loop, crossed⟩, hl, hnote⟩ := except_bind_eq_ok.1 hnote
  cases hnote
  have hl := ScopeStack.scopesToLoop_eq_ok.1 hl
  have hexit : ∀ size, exitOf size g.context.scopes.shells =
      some ⟨labels, crossed.map size⟩ ∧ labels.breakTo.isPlain := by
    intro size
    obtain ⟨labels', hlabels', -, hplain, hexit⟩ := ht.exit size hl
    cases hlabels.symm.trans hlabels'
    exact ⟨hexit, hplain⟩
  refine ⟨rfl, rfl, _, _, _, .breakLoop ht hl (hexit fun _ => 0).2, ?_⟩
  intro size σ _ hdrops _
  rw [(hexit size).1]
  exact .breakLoop (hdrops _ List.mem_cons_self)

theorem Stmt.drafted_continueLoop (ht : g.context.Tidy)
    (h : Returns Stmt.continueLoop.lower g code g') :
    (Phrase.stmt .continueLoop).Drafted g code g' := by
  simp only [Stmt.lower, returns_bind, returns_change, returns_ask, returns_pure] at h
  obtain ⟨_, _, ⟨ctx, hnote, rfl⟩, labels, _, ⟨hlabels, rfl⟩, rfl, rfl⟩ := h
  obtain ⟨_, hnote, hctx⟩ := except_bind_eq_ok.1 hnote
  cases hctx
  obtain ⟨⟨loop, crossed⟩, hl, hnote⟩ := except_bind_eq_ok.1 hnote
  cases hnote
  have hl := ScopeStack.scopesToLoop_eq_ok.1 hl
  have hexit : ∀ size, exitOf size g.context.scopes.shells =
      some ⟨labels, crossed.map size⟩ ∧ labels.continueTo.isPlain := by
    intro size
    obtain ⟨labels', hlabels', hplain, -, hexit⟩ := ht.exit size hl
    cases hlabels.symm.trans hlabels'
    exact ⟨hexit, hplain⟩
  refine ⟨rfl, rfl, _, _, _, .continueLoop ht hl (hexit fun _ => 0).2, ?_⟩
  intro size σ _ _ hspares
  rw [(hexit size).1]
  refine .continueLoop ?_
  rw [← List.map_dropLast]
  exact hspares loop _ List.mem_cons_self

theorem Stmt.drafted_ret {value : Option Expr} (ht : g.context.Tidy)
    (hw : (Stmt.ret value).wellFormed) (h : Returns (Stmt.ret value).lower g code g') :
    (Phrase.stmt (.ret value)).Drafted g code g' := by
  cases value with
  | none =>
    rw [Stmt.lower] at h
    obtain ⟨rfl, rfl⟩ := returns_pure.1 h
    exact .quiet ht rfl rfl rfl fun σ exit => .ret
  | some e =>
    simp only [Stmt.lower, returns_bind, returns_evaluate, Stmt.returns_resultCode,
      returns_pure] at h
    obtain ⟨_, _, ⟨value, hv, rfl, rfl⟩, take, _, ⟨htake, rfl⟩, rfl, rfl⟩ := h
    rw [← Code.ofInstrs_append]
    refine .quiet ht rfl ?_ ?_ fun σ exit =>
      .retValue (Context.lower_bare hv) (Context.returnCode_bare htake)
    · simp
    · refine Code.isPlain_append.2 ⟨Code.isPlain_ofInstrs.2 ?_, rfl⟩
      exact List.forall_mem_append.2
        ⟨Expr.isPlain_lower (by simpa [Stmt.wellFormed] using hw) hv,
          Context.isPlain_returnCode htake⟩

theorem Stmt.drafted_run {e : Expr} (ht : g.context.Tidy) (hw : (Stmt.run e).wellFormed)
    (h : Returns (Stmt.run e).lower g code g') : (Phrase.stmt (.run e)).Drafted g code g' := by
  cases e with
  | call f args =>
    simp only [Stmt.lower, returns_bind, returns_ask, returns_pure] at h
    obtain ⟨call, _, ⟨hc, rfl⟩, rfl, rfl⟩ := h
    refine .quiet ht rfl (Code.markers_ofInstrs _) (Code.isPlain_ofInstrs.2 ?_) fun σ exit =>
      .run ?_
    · exact Expr.isPlain_lowerCall (by simpa [Stmt.wellFormed] using hw) hc
    · rw [Expr.lowerCall_congr ((Context.alike_bare _).on _)]
      exact hc
  | _ => exact absurd h not_returns_throw

end Single

/-! ### Statements -/

section Compound

variable {g g' : Generator} {code : Code} {body : List Stmt}

/-- What is to be shown of the statements of a block. -/
def Stmt.AllDrafted (body : List Stmt) : Prop :=
  ∀ {g : Generator} {code : Code} {g' : Generator}, g.context.Tidy →
    Returns (Stmt.lowerAll body) g code g' → (Phrase.seq body).Drafted g code g'

theorem Stmt.drafts_block (ht : g.context.Tidy) (hbody : Stmt.AllDrafted body)
    (h : Returns (Gen.block (Stmt.lowerAll body)) g code g') :
    Drafts g g' code g.context.bare fun σ exit raw => ∃ inner,
      raw = Code.block ((g.context.bare.enter .branch).pastAll body).frameSize inner ∧
      Emits σ g.resultType
        (exit.map (·.within ((g.context.bare.enter .branch).pastAll body).frameSize))
        (g.context.bare.enter .branch) g.context.labels (.seq body) inner g'.context.labels := by
  obtain ⟨inner, g₁, scope, scopes, hin, hp, rfl, rfl⟩ := returns_block.1 h
  have hdrafted := hbody (ht.openScope .branch none (by simp)) hin
  have hopen : (g.withScopes (g.context.scopes.openScope .branch none).2).context.bare =
      g.context.bare.enter .branch := Context.bare_openScope g.context .branch none
  simp only [Phrase.Drafted, Phrase.past, hopen] at hdrafted
  refine hdrafted.block ?_ hp
  rw [Context.leave_pastAll, Context.leave_enter]

theorem Stmt.drafted_arm {n : Nat} {next : Label} (hnext : next.isPlain) {condition : Expr}
    (ht : g.context.Tidy) (hw : condition.wellFormed) (hbody : Stmt.AllDrafted body)
    (h : Returns (Stmt.lowerArm n next (.mk condition body)) g code g') :
    (Phrase.arm n next (.mk condition body)).Drafted g code g' := by
  simp only [Stmt.lowerArm, returns_bind, returns_evaluate, returns_pure] at h
  obtain ⟨_, g, ⟨test, htest, rfl, rfl⟩, inner, g', hin, rfl, rfl⟩ := h
  rw [← Code.ofInstrs_append]
  have hblock := Stmt.drafts_block ht hbody hin
  have hhead : Drafts g g
      (Code.ofInstrs (test ++ [.pop .eax, .arith .test .eax (.imm 1), .jumpZero next]))
      g.context.bare _ :=
    .still ht (Code.markers_ofInstrs _) <| Code.isPlain_ofInstrs.2 <| List.forall_mem_append.2
      ⟨Expr.isPlain_lower hw htest, by simp [Instr.isPlain, hnext]⟩
  have hjump : Drafts g' g' [.instr (.jump (.ifEnd n))] g'.context.bare _ :=
    .still hblock.tidy rfl rfl
  have hall := (hhead.append hblock).append hjump
  rw [hblock.bare] at hall
  refine hall.weaken ?_
  rintro σ exit _ ⟨_, _, rfl, ⟨_, _, rfl, rfl, inner', rfl, hemits⟩, rfl⟩
  exact .arm rfl (Context.lower_bare htest) hemits

theorem Stmt.drafted_otherwise {n : Nat} (ht : g.context.Tidy) (hbody : Stmt.AllDrafted body)
    (h : Returns (Stmt.lowerElse n (some body)) g code g') :
    (Phrase.otherwise n (some body)).Drafted g code g' := by
  simp only [Stmt.lowerElse, returns_bind, returns_pure] at h
  obtain ⟨inner, g', hin, rfl, rfl⟩ := h
  have hlabel : Drafts g g [.label (.otherwise n)] g.context.bare _ := .label ht rfl
  refine (hlabel.append (Stmt.drafts_block ht hbody hin)).weaken ?_
  rintro σ exit _ ⟨_, _, rfl, rfl, inner', rfl, hemits⟩
  exact .otherwiseSome rfl hemits

/-- What is to be shown of a clause of a `for` loop. -/
def Stmt.ClauseDrafted (clause : Option Stmt) : Prop :=
  ∀ {g : Generator} {code : Code} {g' : Generator}, g.context.Tidy →
    Returns (Stmt.lowerClause clause) g code g' → (Phrase.clause clause).Drafted g code g'

theorem Stmt.returns_test {condition : Option Expr} {done : Label} {rest : Code → Gen Code} :
    Returns (match condition with
      | some condition => do
        let test ← Gen.loopCondition condition done
        rest test
      | none => do
        let test ← pure []
        rest test) g code g' ↔
      ∃ test g₁, Returns (match condition with
        | some condition => Gen.loopCondition condition done
        | none => pure []) g test g₁ ∧ Returns (rest test) g₁ code g' := by
  cases condition <;> exact returns_bind

theorem Stmt.drafts_test (condition : Option Expr) {done : Label} (hdone : done.isPlain)
    (ht : g.context.Tidy) (hw : condition.all Expr.wellFormed)
    (h : Returns (match condition with
      | some condition => Gen.loopCondition condition done
      | none => pure []) g code g') :
    g' = g ∧ ∃ test, g.context.bare.loopTest done condition = .ok test ∧
      Drafts g g code g.context.bare fun _ _ raw => raw = Code.ofInstrs test := by
  cases condition with
  | none =>
    obtain ⟨rfl, rfl⟩ := returns_pure.1 h
    exact ⟨rfl, [], rfl, .still ht rfl rfl⟩
  | some condition =>
    obtain ⟨test, htest, rfl, rfl⟩ := returns_loopCondition.1 h
    rw [← Code.ofInstrs_append]
    refine ⟨rfl, _, except_bind_eq_ok.2 ⟨test, Context.lower_bare htest, rfl⟩, ?_⟩
    refine .still ht (Code.markers_ofInstrs _) (Code.isPlain_ofInstrs.2 ?_)
    exact List.forall_mem_append.2
      ⟨Expr.isPlain_lower hw htest, by simp [Instr.isPlain, hdone]⟩

theorem Stmt.drafted_whileLoop {condition : Expr} (ht : g.context.Tidy)
    (hw : condition.wellFormed) (hbody : Stmt.AllDrafted body)
    (h : Returns (Stmt.whileLoop condition body).lower g code g') :
    (Phrase.stmt (.whileLoop condition body)).Drafted g code g' := by
  simp only [Stmt.lower, returns_bind, returns_freshLabel, returns_loop, returns_pure] at h
  obtain ⟨_, g₀, ⟨rfl, hg₀⟩, _, g', scope, scopes, fillings, ⟨test, g₁, htest, inner, _, hin, rfl,
    rfl⟩, hp, hf, rfl, rfl⟩ := h
  have ht₀ : g₀.context.Tidy := hg₀ ▸ ht.congr rfl rfl rfl rfl
  have htopen : (g₀.withScopes (g₀.context.scopes.openScope .whileLoop
      (some ⟨.whileHead (g.context.labels.get .whileLoop),
        .whileEnd (g.context.labels.get .whileLoop)⟩)).2).context.Tidy :=
    ht₀.openScope .whileLoop _ (by rintro _ ⟨⟩; exact ⟨rfl, rfl, rfl⟩)
  have hopen : (g₀.withScopes (g₀.context.scopes.openScope .whileLoop
      (some ⟨.whileHead (g.context.labels.get .whileLoop),
        .whileEnd (g.context.labels.get .whileLoop)⟩)).2).context.bare =
      g.context.bare.enter .whileLoop := by
    rw [hg₀]
    exact Context.bare_openScope _ _ _
  obtain ⟨rfl, test', htest', htests⟩ :=
    Stmt.drafts_test (some condition) rfl htopen hw htest
  have hcode := hbody htopen hin
  have hhead := Drafts.label htopen (l := .whileHead (g.context.labels.get .whileLoop)) rfl
  have hjump : Drafts g' g' [.instr (.jump (.whileHead (g.context.labels.get .whileLoop)))]
      g'.context.bare _ := .still hcode.tidy rfl rfl
  have hall := ((hhead.append htests).append hcode).append hjump
  rw [hcode.bare] at hall
  simp only [Phrase.past, hopen] at hall htest'
  have hdone : (Label.whileDone (g.context.labels.get .whileLoop)).isPlain := rfl
  have hloop := hall.loop ht₀ rfl ⟨rfl, rfl⟩ hdone
    (by rw [Context.leave_pastAll, Context.leave_enter, hg₀]; rfl) hp hf
  subst hg₀
  refine hloop.of_labels.weaken ?_
  rintro σ exit _ ⟨_, rfl, _, _, rfl, ⟨_, _, rfl, ⟨_, _, rfl, rfl, rfl⟩, hemits⟩, rfl⟩
  exact .whileLoop rfl htest' hemits

theorem Stmt.drafted_forLoop {init increment : Option Stmt} {condition : Option Expr}
    (ht : g.context.Tidy) (hw : condition.all Expr.wellFormed)
    (hinit : Stmt.ClauseDrafted init) (hbody : Stmt.AllDrafted body)
    (hincrement : Stmt.ClauseDrafted increment)
    (h : Returns (Stmt.forLoop init condition increment body).lower g code g') :
    (Phrase.stmt (.forLoop init condition increment body)).Drafted g code g' := by
  simp only [Stmt.lower, returns_bind, returns_freshLabel, returns_loop] at h
  obtain ⟨_, g₀, ⟨rfl, hg₀⟩, _, g', scope, scopes, fillings, ⟨first, g₁, hfirst, hrest⟩, hp, hf,
    rfl, rfl⟩ := h
  obtain ⟨test, g₂, htest, hrest⟩ := Stmt.returns_test.1 hrest
  simp only [returns_bind, returns_pure] at hrest
  obtain ⟨inner, g₃, hin, step, _, hstep, rfl, rfl⟩ := hrest
  have ht₀ : g₀.context.Tidy := hg₀ ▸ ht.congr rfl rfl rfl rfl
  have htopen : (g₀.withScopes (g₀.context.scopes.openScope .forLoop
      (some ⟨.forStep (g.context.labels.get .forLoop),
        .forEnd (g.context.labels.get .forLoop)⟩)).2).context.Tidy :=
    ht₀.openScope .forLoop _ (by rintro _ ⟨⟩; exact ⟨rfl, rfl, rfl⟩)
  have hopen : (g₀.withScopes (g₀.context.scopes.openScope .forLoop
      (some ⟨.forStep (g.context.labels.get .forLoop),
        .forEnd (g.context.labels.get .forLoop)⟩)).2).context.bare =
      g.context.bare.enter .forLoop := by
    rw [hg₀]
    exact Context.bare_openScope _ _ _
  have hfirst := hinit htopen hfirst
  have hhead := Drafts.label hfirst.tidy (l := .forHead (g.context.labels.get .forLoop)) rfl
  obtain ⟨hg₂, test', htest', htests⟩ := Stmt.drafts_test condition rfl hfirst.tidy hw htest
  subst hg₂
  have hcode := hbody hfirst.tidy hin
  have hbetween := Drafts.label hcode.tidy (l := .forStep (g.context.labels.get .forLoop)) rfl
  have hstep := hincrement hcode.tidy hstep
  have hjump : Drafts g' g' [.instr (.jump (.forHead (g.context.labels.get .forLoop)))]
      g'.context.bare _ := .still hstep.tidy rfl rfl
  have hall := (((((hfirst.append hhead).append htests).append hcode).append hbetween).append
    hstep).append hjump
  have hresult : g₃.resultType = g₂.resultType := hcode.resultType
  have hresult' : g₂.resultType = g.resultType := by
    rw [hfirst.resultType, hg₀]
    rfl
  rw [hstep.bare] at hall
  simp only [Phrase.past, hcode.bare, hfirst.bare, hopen] at hall htest'
  have hdone : (Label.forDone (g.context.labels.get .forLoop)).isPlain := rfl
  have hloop := hall.loop ht₀ rfl ⟨rfl, rfl⟩ hdone
    (by
      rw [Context.leave_pastClause, Context.leave_pastAll, Context.leave_pastClause,
        Context.leave_enter, hg₀]
      rfl) hp hf
  rw [hresult, hresult'] at hloop
  subst hg₀
  refine hloop.of_labels.weaken ?_
  rintro σ exit _ ⟨_, rfl, _, _, rfl, ⟨_, _, rfl, ⟨_, _, rfl, ⟨_, _, rfl, ⟨_, _, rfl, ⟨_, _, rfl,
    hemits₁, rfl⟩, rfl⟩, hemits₂⟩, rfl⟩, hemits₃⟩, rfl⟩
  exact .forLoop rfl hemits₁ htest' hemits₂ hemits₃

end Compound

theorem Label.isPlain_afterArms (n : Nat) (otherwise : Option (List Stmt)) :
    (Label.afterArms n otherwise).isPlain := by
  unfold Label.afterArms
  split <;> rfl

namespace Stmt

mutual

/-- **Compiling a statement makes a draft of what `Emits` says its code is.** -/
theorem drafted : ∀ (s : Stmt) {g : Generator} {code : Code} {g' : Generator}, s.wellFormed →
    g.context.Tidy → Returns s.lower g code g' → (Phrase.stmt s).Drafted g code g'
  | .declare x type init, g, code, g', hw, ht, h => drafted_declare ht hw h
  | .assign x e, g, code, g', hw, ht, h => drafted_assign ht (by simpa [wellFormed] using hw) h
  | .store x e, g, code, g', hw, ht, h => drafted_store ht (by simpa [wellFormed] using hw) h
  | .storeAt a e, g, code, g', hw, ht, h => by
    obtain ⟨hwa, hwe⟩ : a.wellFormed ∧ e.wellFormed := by simpa [wellFormed] using hw
    exact drafted_storeAt ht hwa hwe h
  | .step op x, g, code, g', _, ht, h => drafted_step ht h
  | .branch first others otherwise, g, code, g', hw, ht, h => by
    obtain ⟨⟨hwfirst, hwothers⟩, hwelse⟩ : (armWellFormed first ∧ armsWellFormed others) ∧
        elseWellFormed otherwise := by simpa [wellFormed] using hw
    simp only [lower, returns_bind, returns_freshLabel, returns_pure] at h
    obtain ⟨_, g₀, ⟨rfl, hg₀⟩, head, g₁, hhead, arms, g₂, harms, tail, g', htail, rfl, rfl⟩ := h
    have ht₀ : g₀.context.Tidy := hg₀ ▸ ht.congr rfl rfl rfl rfl
    have hlast := Label.isPlain_afterArms (g.context.labels.get .branch) otherwise
    have hnext : (if others.isEmpty then Label.afterArms (g.context.labels.get .branch) otherwise
        else .elseIf (g.context.labels.get .branch) 0).isPlain := by
      split
      · exact hlast
      · rfl
    have hhead := drafted_lowerArm first hwfirst hnext ht₀ hhead
    have harms := drafted_lowerArms others hwothers hlast hhead.tidy harms
    have htail := drafted_lowerElse otherwise hwelse harms.tidy htail
    have hend := Drafts.label htail.tidy (l := .ifEnd (g.context.labels.get .branch)) rfl
    have hall := ((hhead.append harms).append htail).append hend
    rw [htail.bare] at hall
    simp only [Phrase.past, harms.bare, hhead.bare, harms.resultType, hhead.resultType] at hall
    subst hg₀
    refine hall.of_labels.weaken ?_
    rintro σ exit _ ⟨_, _, rfl, ⟨_, _, rfl, ⟨_, _, rfl, hemits₁, hemits₂⟩, hemits₃⟩, rfl⟩
    exact .branch hemits₁ hemits₂ hemits₃
  | .whileLoop condition body, g, code, g', hw, ht, h => by
    obtain ⟨hwc, hwb⟩ : condition.wellFormed ∧ allWellFormed body := by
      simpa [wellFormed] using hw
    exact drafted_whileLoop ht hwc (fun ht h => drafted_lowerAll body hwb ht h) h
  | .forLoop init condition increment body, g, code, g', hw, ht, h => by
    simp only [wellFormed, Bool.and_eq_true] at hw
    obtain ⟨⟨⟨⟨⟨-, hwinit⟩, hwc⟩, -⟩, hwinc⟩, hwb⟩ := hw
    exact drafted_forLoop ht hwc (fun ht h => drafted_lowerClause init hwinit ht h)
      (fun ht h => drafted_lowerAll body hwb ht h)
      (fun ht h => drafted_lowerClause increment hwinc ht h) h
  | .breakLoop, g, code, g', _, ht, h => drafted_breakLoop ht h
  | .continueLoop, g, code, g', _, ht, h => drafted_continueLoop ht h
  | .ret value, g, code, g', hw, ht, h => drafted_ret ht hw h
  | .run e, g, code, g', hw, ht, h => drafted_run ht hw h

theorem drafted_lowerAll : ∀ (body : List Stmt) {g : Generator} {code : Code} {g' : Generator},
    allWellFormed body → g.context.Tidy → Returns (lowerAll body) g code g' →
    (Phrase.seq body).Drafted g code g'
  | [], g, code, g', _, ht, h => by
    rw [lowerAll] at h
    obtain ⟨rfl, rfl⟩ := returns_pure.1 h
    exact .quiet ht rfl rfl rfl fun σ exit => .seqNil
  | s :: body, g, code, g', hw, ht, h => by
    obtain ⟨hws, hwb⟩ : s.wellFormed ∧ allWellFormed body := by simpa [allWellFormed] using hw
    simp only [lowerAll, returns_bind, returns_pure] at h
    obtain ⟨first, g₁, hfirst, rest, g', hrest, rfl, rfl⟩ := h
    have hfirst := drafted s hws ht hfirst
    have hrest := drafted_lowerAll body hwb hfirst.tidy hrest
    have hall := hfirst.append hrest
    simp only [Phrase.past, hfirst.bare, hfirst.resultType] at hall
    refine hall.weaken ?_
    rintro σ exit _ ⟨_, _, rfl, hemits₁, hemits₂⟩
    exact .seqCons hemits₁ hemits₂

theorem drafted_lowerArm : ∀ (a : Arm) {n : Nat} {next : Label} {g : Generator} {code : Code}
    {g' : Generator}, armWellFormed a → next.isPlain → g.context.Tidy →
    Returns (lowerArm n next a) g code g' → (Phrase.arm n next a).Drafted g code g'
  | .mk condition body, n, next, g, code, g', hw, hnext, ht, h => by
    obtain ⟨hwc, hwb⟩ : condition.wellFormed ∧ allWellFormed body := by
      simpa [armWellFormed] using hw
    exact drafted_arm hnext ht hwc (fun ht h => drafted_lowerAll body hwb ht h) h

theorem drafted_lowerArms : ∀ (arms : List Arm) {n : Nat} {last : Label} {i : Nat} {g : Generator}
    {code : Code} {g' : Generator}, armsWellFormed arms → last.isPlain → g.context.Tidy →
    Returns (lowerArms n last i arms) g code g' → (Phrase.arms n last i arms).Drafted g code g'
  | [], n, last, i, g, code, g', _, _, ht, h => by
    rw [lowerArms] at h
    obtain ⟨rfl, rfl⟩ := returns_pure.1 h
    exact .quiet ht rfl rfl rfl fun σ exit => .armsNil
  | a :: rest, n, last, i, g, code, g', hw, hlast, ht, h => by
    obtain ⟨hwa, hwrest⟩ : armWellFormed a ∧ armsWellFormed rest := by
      simpa [armsWellFormed] using hw
    simp only [lowerArms, returns_bind, returns_pure] at h
    obtain ⟨first, g₁, hfirst, more, g', hmore, rfl, rfl⟩ := h
    have hnext : (if rest.isEmpty then last else .elseIf n (i + 1)).isPlain := by
      split
      · exact hlast
      · rfl
    have hlabel := Drafts.label ht (l := .elseIf n i) rfl
    have hfirst := drafted_lowerArm a hwa hnext ht hfirst
    have hmore := drafted_lowerArms rest hwrest hlast hfirst.tidy hmore
    have hall := (hlabel.append hfirst).append hmore
    simp only [Phrase.past, hfirst.bare, hfirst.resultType] at hall
    refine hall.weaken ?_
    rintro σ exit _ ⟨_, _, rfl, ⟨_, _, rfl, rfl, hemits₁⟩, hemits₂⟩
    exact .armsCons hemits₁ hemits₂

theorem drafted_lowerElse : ∀ (otherwise : Option (List Stmt)) {n : Nat} {g : Generator}
    {code : Code} {g' : Generator}, elseWellFormed otherwise → g.context.Tidy →
    Returns (lowerElse n otherwise) g code g' → (Phrase.otherwise n otherwise).Drafted g code g'
  | none, n, g, code, g', _, ht, h => by
    rw [lowerElse] at h
    obtain ⟨rfl, rfl⟩ := returns_pure.1 h
    exact .quiet ht rfl rfl rfl fun σ exit => .otherwiseNone
  | some body, n, g, code, g', hw, ht, h =>
    drafted_otherwise ht (fun ht h => drafted_lowerAll body hw ht h) h

theorem drafted_lowerClause : ∀ (clause : Option Stmt) {g : Generator} {code : Code}
    {g' : Generator}, clauseWellFormed clause → g.context.Tidy →
    Returns (lowerClause clause) g code g' → (Phrase.clause clause).Drafted g code g'
  | none, g, code, g', _, ht, h => by
    rw [lowerClause] at h
    obtain ⟨rfl, rfl⟩ := returns_pure.1 h
    exact .quiet ht rfl rfl rfl fun σ exit => .clauseNone
  | some s, g, code, g', hw, ht, h => by
    rw [lowerClause] at h
    exact (drafted s hw ht h).weaken fun σ exit raw hemits => .clauseSome hemits

end

end Stmt

end GLang
