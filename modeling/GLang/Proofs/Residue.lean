import GLang.Proofs.Extension
import GLang.Proofs.Invariant
import GLang.Proofs.Labels
import GLang.Proofs.Listing
import GLang.Proofs.Shift

/-!
# Nothing is left over between functions

A function may be compiled after others that have failed in the middle, with scopes open and exits
waiting. It starts over with both, and only the counters go on: its outcome is the one that it would
have had as the first function, with other numbers in its labels.

`Gen.Shifts δ φ p q g` says that `q`, from `g` with its counters moved by `δ`, does what `p` does
from `g`: `Gen.Composed.shifts`. Closing a loop is the step that needs a reason: a number of a scope
could get into an error there, if an exit left a scope that is still open. That this does not happen
is `Context.Accounted`, which no operation destroys.
-/

namespace GLang

open Asm Gen

/-! ### Exits leave scopes that are closed in time -/

/-- The scopes that an exit leaves are closed, or they are live and not around its loop. -/
def Context.Accounted (c : Context) : Prop :=
  ∀ e ∈ c.pending, ∀ id ∈ e.crossed, id ∈ c.scopes.closed.map Prod.fst ∨
    ∃ inner outer, c.scopes.scopes.map Scope.id = inner ++ e.loop :: outer ∧
      id ∈ inner ++ [e.loop]

/-- The scopes out to a loop are the innermost ones, the loop being the last of them. -/
theorem ScopeStack.ids_of_toLoop? {scopes : List Scope} {loop : Nat} {crossed : List Nat}
    (h : toLoop? scopes = some (loop, crossed)) :
    ∃ inner outer, scopes.map Scope.id = inner ++ loop :: outer ∧ crossed = inner ++ [loop] := by
  induction scopes generalizing crossed with
  | nil => cases h
  | cons scope scopes ih =>
    rw [toLoop?] at h
    split at h
    · cases h
      exact ⟨[], scopes.map Scope.id, rfl, rfl⟩
    · split at h
      · cases h
      · obtain ⟨⟨loop', crossed'⟩, h', he⟩ := Option.map_eq_some_iff.1 h
        cases he
        obtain ⟨inner, outer, hids, rfl⟩ := ih h'
        exact ⟨scope.id :: inner, outer, by rw [List.map_cons, hids]; rfl, rfl⟩

namespace Context

theorem Accounted.congr {c c' : Context} (h : c.Accounted)
    (hs : c'.scopes.scopes.map Scope.id = c.scopes.scopes.map Scope.id)
    (hc : c'.scopes.closed = c.scopes.closed) (hp : c'.pending ⊆ c.pending) : c'.Accounted := by
  intro e he id hid
  rw [hs, hc]
  exact h e (hp he) id hid

/-- Noting an exit out of the innermost loop. -/
theorem Accounted.note {c : Context} (h : c.Accounted) {e : LoopExit} {crossed : List Nat}
    {markers : Nat} (hl : c.scopes.scopesToLoop = .ok (e.loop, crossed))
    (he : e.crossed ⊆ crossed) :
    ({ c with markers, pending := c.pending ++ [e] } : Context).Accounted := by
  obtain ⟨inner, outer, hids, rfl⟩ :=
    ScopeStack.ids_of_toLoop? (ScopeStack.scopesToLoop_eq_ok.1 hl)
  intro e' he' id hid
  rcases List.mem_append.1 he' with he' | he'
  · exact h e' he' id hid
  · obtain rfl := List.mem_singleton.1 he'
    exact .inr ⟨inner, outer, hids, he hid⟩

/-- **Every exit is accounted for, whatever is done.** -/
theorem stable_accounted : Stable Accounted where
  openScope := by
    intro c kind labels h e he id hid
    obtain hclosed | ⟨inner, outer, hids, hmem⟩ := h e he id hid
    · exact .inl hclosed
    · refine .inr ⟨c.scopes.nextId :: inner, outer, ?_, List.mem_cons_of_mem _ hmem⟩
      exact congrArg (c.scopes.nextId :: ·) hids
  pop := by
    intro c kind scope scopes hpop h e he id hid
    obtain ⟨top, rest, hs, -, rfl, rfl⟩ := ScopeStack.pop_eq_ok.1 hpop
    obtain hclosed | ⟨inner, outer, hids, hmem⟩ := h e he id hid
    · exact .inl (List.mem_cons_of_mem _ hclosed)
    · rw [hs, List.map_cons] at hids
      have htop : top.complete.id = top.id := Scope.id_complete top
      cases inner with
      | nil =>
        -- The loop itself is closed.
        obtain ⟨hloop, -⟩ := List.cons.inj hids
        obtain rfl : id = e.loop := by simpa using hmem
        exact .inl (by simp [htop, hloop])
      | cons id' inner =>
        obtain ⟨rfl, hrest⟩ := List.cons.inj hids
        rcases List.mem_cons.1 hmem with rfl | hmem
        · exact .inl (by simp [htop])
        · exact .inr ⟨inner, outer, hrest, hmem⟩
  declare := by
    intro c x t symbol scopes hd h
    obtain ⟨top, top', rest, hs, ha, rfl⟩ := ScopeStack.declare_eq_ok.1 hd
    refine h.congr ?_ rfl (List.Subset.refl _)
    have hid : top'.shell.id = top.shell.id := congrArg Scope.id (Scope.shell_allocate ha)
    rw [hs, List.map_cons, List.map_cons]
    exact congrArg (· :: rest.map Scope.id) hid
  nextLabel := fun _ h => h.congr rfl rfl (List.Subset.refl _)
  noteBreak := by
    intro c c' marker hnote h
    obtain ⟨⟨loop, crossed⟩, hl, hr⟩ := except_bind_eq_ok.1 hnote
    cases hr
    exact h.note (e := .break_ loop c.markers crossed) hl (List.Subset.refl _)
  noteContinue := by
    intro c c' hnote h
    obtain ⟨⟨loop, crossed⟩, hl, hr⟩ := except_bind_eq_ok.1 hnote
    cases hr
    exact h.note (e := .continue_ loop crossed.dropLast) hl (List.dropLast_subset _)
  settle := by
    intro c loop h
    refine h.congr rfl rfl ?_
    simp only [settle, List.partition_eq_filter_filter]
    exact List.filter_subset_self _

/-- If a loop is not live, its exits leave scopes that are closed. -/
theorem Accounted.closed_of_notMem {c : Context} (h : c.Accounted) {e : LoopExit}
    (he : e ∈ c.pending) (hloop : e.loop ∉ c.scopes.scopes.map Scope.id) :
    ∀ id ∈ e.crossed, id ∈ c.scopes.closed.map Prod.fst := by
  intro id hid
  obtain hclosed | ⟨inner, outer, hids, -⟩ := h e he id hid
  · exact hclosed
  · refine absurd ?_ hloop
    rw [hids]
    exact List.mem_append_right _ List.mem_cons_self

end Context

/-- What every operation keeps: the declarations, the numbers of scopes, and what exits wait for. -/
structure Context.Steady (d : Declarations) (c : Context) : Prop where
  declarations : c.toDeclarations = d
  below : ∀ s ∈ c.scopes.shells, s.id < c.scopes.nextId
  accounted : c.Accounted

theorem Context.stable_steady (d : Declarations) : Stable (Steady d) where
  openScope := by
    intro c kind labels h
    refine ⟨h.declarations, ?_, stable_accounted.openScope kind labels h.accounted⟩
    intro s hs
    rcases List.mem_cons.1 hs with rfl | hs
    · exact Nat.lt_succ_self _
    · exact Nat.lt_succ_of_lt (h.below s hs)
  pop := by
    intro c kind scope scopes hpop h
    refine ⟨h.declarations, ?_, stable_accounted.pop hpop h.accounted⟩
    obtain ⟨top, rest, hs, -, rfl, rfl⟩ := ScopeStack.pop_eq_ok.1 hpop
    intro s hmem
    refine h.below s ?_
    rw [ScopeStack.shells, hs]
    exact List.mem_cons_of_mem _ hmem
  declare := by
    intro c x t symbol scopes hd h
    refine ⟨h.declarations, ?_, stable_accounted.declare hd h.accounted⟩
    obtain ⟨top, top', rest, hs, ha, rfl⟩ := ScopeStack.declare_eq_ok.1 hd
    have hshells : (top' :: rest).map Scope.shell = c.scopes.shells := by
      rw [ScopeStack.shells, hs, List.map_cons, List.map_cons, Scope.shell_allocate ha]
    intro s hmem
    rw [ScopeStack.shells, hshells] at hmem
    exact h.below s hmem
  nextLabel := fun _ h => ⟨h.declarations, h.below, h.accounted⟩
  noteBreak := by
    intro c c' marker hnote h
    have haccounted := stable_accounted.noteBreak hnote h.accounted
    obtain ⟨found, -, hr⟩ := except_bind_eq_ok.1 hnote
    cases hr
    exact ⟨h.declarations, h.below, haccounted⟩
  noteContinue := by
    intro c c' hnote h
    have haccounted := stable_accounted.noteContinue hnote h.accounted
    obtain ⟨found, -, hr⟩ := except_bind_eq_ok.1 hnote
    cases hr
    exact ⟨h.declarations, h.below, haccounted⟩
  settle := fun loop h => ⟨h.declarations, h.below, stable_accounted.settle loop h.accounted⟩

/-! ### Runs with moved counters -/

namespace Gen

variable {α β : Type} {δ : Shift} {g : Generator}

/-- `q`, from `g` with its counters moved, does what `p` does from `g`: it fails with the same
error, or gives what `φ` makes of the result, and leaves the same state with its counters moved. -/
def Shifts (δ : Shift) (φ : α → α) (p q : Gen α) (g : Generator) : Prop :=
  q.run.run (g.shift δ) = ((p.run.run g).1.map φ, (p.run.run g).2.shift δ)

theorem shifts_pure {φ : α → α} {a b : α} (h : b = φ a) : Shifts δ φ (pure a) (pure b) g := by
  rw [h]
  rfl

theorem shifts_throw {φ : α → α} (e : LoweringError) :
    Shifts δ φ (throw e : Gen α) (throw e) g := rfl

theorem shifts_bind {φ : α → α} {ψ : β → β} {p q : Gen α} {f f' : α → Gen β}
    (hp : Shifts δ φ p q g)
    (hf : ∀ a g₁, Returns p g a g₁ → Shifts δ ψ (f a) (f' (φ a)) g₁) :
    Shifts δ ψ (p >>= f) (q >>= f') g := by
  unfold Shifts at hp ⊢
  rcases hrun : p.run.run g with ⟨e | a, g₁⟩
  · rw [hrun] at hp
    rw [run_bind_error hrun, run_bind_error hp]
    rfl
  · rw [hrun] at hp
    rw [run_bind_ok hrun, run_bind_ok hp]
    exact hf a g₁ hrun

theorem shifts_seq {p q p' q' : Gen Code} (hp : Shifts δ (Code.shift δ) p q g)
    (hp' : ∀ code g₁, Returns p g code g₁ → Shifts δ (Code.shift δ) p' q' g₁) :
    Shifts δ (Code.shift δ) (p.seq p') (q.seq q') g :=
  shifts_bind hp fun code g₁ hcode => shifts_bind (hp' code g₁ hcode) fun _ _ _ =>
    shifts_pure (Code.shift_append δ _ _).symm

theorem shifts_ask {φ : α → α} {f f' : Context → Except LoweringError α}
    (h : f' (g.context.shift δ) = (f g.context).map φ) : Shifts δ φ (ask f) (ask f') g := by
  unfold Shifts
  rw [run_ask, run_ask]
  exact congrArg (·, g.shift δ) h

/-- Asking for something that has no numbers in it. -/
theorem shifts_ask_same {f : Context → Except LoweringError α}
    (h : f (g.context.shift δ) = f g.context) : Shifts δ id (ask f) (ask f) g := by
  refine shifts_ask ?_
  rw [h]
  cases f g.context <;> rfl

theorem shifts_change {φ : α → α} {f f' : Context → Except LoweringError (α × Context)}
    (h : f' (g.context.shift δ) = (f g.context).map (Prod.map φ (Context.shift δ))) :
    Shifts δ φ (change f) (change f') g := by
  unfold Shifts
  cases hf : f g.context with
  | error e =>
    rw [hf] at h
    rw [run_change_error hf, run_change_error h]
    rfl
  | ok r =>
    rw [hf] at h
    rw [run_change_ok hf, run_change_ok h]
    rfl

theorem shifts_changeScopes {φ : α → α} {f f' : ScopeStack → Except LoweringError (α × ScopeStack)}
    (h : f' (g.context.scopes.shift δ) =
      (f g.context.scopes).map (Prod.map φ (ScopeStack.shift δ))) :
    Shifts δ φ (changeScopes f) (changeScopes f') g := by
  refine shifts_change ?_
  rw [show (g.context.shift δ).scopes = g.context.scopes.shift δ from rfl, h]
  cases f g.context.scopes <;> rfl

theorem shifts_openScope (kind : ScopeKind) (labels : Option LoopLabels) :
    Shifts δ (· + δ.scopes) (openScope kind labels)
      (openScope kind (labels.map (LoopLabels.renumber δ.labels))) g :=
  shifts_changeScopes (congrArg Except.ok (g.context.scopes.openScope_shift δ kind labels))

theorem shifts_closeScope (kind : ScopeKind) :
    Shifts δ id (closeScope kind) (closeScope kind) g :=
  shifts_bind (shifts_changeScopes (g.context.scopes.pop_shift δ kind)) fun _ _ _ => shifts_pure rfl

theorem shifts_declare (x : String) (t : Ty) : Shifts δ id (declare x t) (declare x t) g :=
  shifts_changeScopes (g.context.scopes.declare_shift δ x t)

theorem shifts_lookup (x : String) : Shifts δ id (lookup x) (lookup x) g :=
  shifts_ask_same ((g.context.alike_shift δ).lookup x)

theorem shifts_freshLabel (kind : LabelKind) :
    Shifts δ (· + δ.labels.get kind) (freshLabel kind) (freshLabel kind) g := by
  refine shifts_change ?_
  show Except.ok ((g.context.labels + δ.labels).get kind, { g.context.shift δ with
    labels := (g.context.labels + δ.labels).bump kind }) = _
  rw [LabelCounters.get_add, LabelCounters.bump_add]
  rfl

theorem shifts_evaluate (e : Expr) : Shifts δ (Code.shift δ) (evaluate e) (evaluate e) g := by
  refine shifts_bind (shifts_ask_same (Expr.lower_congr ((g.context.alike_shift δ).on e.names))) ?_
  intro instrs g₁ h
  refine shifts_pure (Code.shift_ofInstrs δ (Expr.straight_lower (returns_ask.1 h).1)).symm

theorem shifts_settle {loop : Nat} {code : Code} (hcode : code.isPlain)
    (h : ∀ e ∈ g.context.pending, e.loop = loop →
      ∀ id ∈ e.crossed, id ∈ g.context.scopes.closed.map Prod.fst) :
    Shifts δ (Code.shift δ) (settle loop code) (settle (loop + δ.scopes) (code.shift δ)) g := by
  unfold Shifts
  rw [run_settle, run_settle,
    show (g.shift δ).context = g.context.shift δ from rfl, Context.settle_shift δ h]
  rcases g.context.settle loop with ⟨e | fillings, c⟩
  · rfl
  · exact congrArg (Except.ok ·, _) (Code.fillAll_shift δ fillings hcode)

theorem shifts_block {body body' : Gen Code}
    (h : Shifts δ (Code.shift δ) body body'
      (g.withScopes (g.context.scopes.openScope .branch none).2)) :
    Shifts δ (Code.shift δ) (block body) (block body') g := by
  refine shifts_bind (shifts_openScope .branch none) fun id g₁ hopen => ?_
  obtain ⟨-, rfl⟩ := returns_openScope.1 hopen
  refine shifts_bind h fun code g₂ _ => shifts_bind (shifts_closeScope .branch) fun size g₃ _ => ?_
  refine shifts_pure ?_
  simp [Code.shift_ofInstrs_of_moves δ (moves_reserve _),
    Code.shift_ofInstrs_of_moves δ (moves_release _)]

theorem shifts_resultCode : Shifts δ id Stmt.resultCode Stmt.resultCode g := by
  refine shifts_bind (φ := Generator.shift δ) rfl fun g₁ g₂ h => ?_
  rw [show (g₁.shift δ).resultType = g₁.resultType from rfl]
  cases g₁.resultType with
  | none => exact shifts_pure rfl
  | some t =>
    by_cases hp : t.isPrimitive
    · simp only [hp]
      exact shifts_pure rfl
    · simp only [hp]
      exact shifts_bind (shifts_lookup _) fun _ _ _ => shifts_pure rfl

end Gen

/-! ### Statements -/

/-- The state in which statements are compiled. -/
structure Context.Ready (c : Context) : Prop where
  steady : c.Steady c.toDeclarations
  labelled : ∀ s ∈ c.scopes.shells, ∀ labels, s.labels = some labels →
    labels.continueTo.isPlain ∧ labels.breakTo.isPlain

namespace Context.Ready

theorem of_extends {g g' : Generator} {added : List Symbol} (h : g.context.Ready)
    (hextends : g.Extends added g') (hsteady : g'.context.Steady g.context.toDeclarations) :
    g'.context.Ready where
  steady := ⟨rfl, hsteady.below, hsteady.accounted⟩
  labelled := by
    intro s hs
    rw [ScopeStack.shells, hextends.scopes.shells] at hs
    exact h.labelled s hs

theorem openScope {c : Context} (h : c.Ready) (kind : ScopeKind) (labels : Option LoopLabels)
    (hl : ∀ l, labels = some l → l.continueTo.isPlain ∧ l.breakTo.isPlain) :
    ({ c with scopes := (c.scopes.openScope kind labels).2 } : Context).Ready where
  steady := (stable_steady _).openScope kind labels h.steady
  labelled := by
    intro s hs
    rcases List.mem_cons.1 hs with rfl | hs
    · exact hl
    · exact h.labelled s hs

theorem isPlain_of_loopLabels {c : Context} (h : c.Ready) {labels : LoopLabels}
    (hl : c.scopes.loopLabels = .ok labels) :
    labels.continueTo.isPlain ∧ labels.breakTo.isPlain := by
  unfold ScopeStack.loopLabels at hl
  split at hl
  · rename_i found hfound
    cases hl
    obtain ⟨s, hs, hlabels⟩ := List.exists_of_findSome?_eq_some hfound
    exact h.labelled s.shell (List.mem_map_of_mem hs) labels hlabels
  · cases hl

end Context.Ready

namespace Gen

variable {g g' : Generator} {code : Code}

theorem ready_declare {x : String} {t : Ty} {symbol : Symbol} (hr : g.context.Ready)
    (h : Returns (declare x t) g symbol g') : g'.context.Ready :=
  hr.of_extends (extends_declare h).2
    ((preserves_declare (Context.stable_steady _) x t).returns h hr.steady)

theorem ready_freshLabel {kind : LabelKind} {n : Nat} (hr : g.context.Ready)
    (h : Returns (freshLabel kind) g n g') : g'.context.Ready :=
  hr.of_extends (extends_freshLabel h)
    ((preserves_freshLabel (Context.stable_steady _) kind).returns h hr.steady)

namespace Composed

variable {δ : LabelCounters} {f : String → String} {parts : List (String ⊕ Expr)} {stray : Bool}
  {new : List String} {p q : Gen Code}

theorem ready (h : Composed δ f parts stray new p q) (hr : g.context.Ready)
    (hreturns : Returns p g code g') : g'.context.Ready := by
  obtain ⟨added, -, hextends⟩ := h.extends hreturns
  exact hr.of_extends hextends
    ((h.preserves (Context.stable_steady _)).returns hreturns hr.steady)

/-- **The code of what has been read is plain.** -/
theorem isPlain (h : Composed δ f parts stray new p q)
    (hw : ∀ e, .inr e ∈ parts → e.wellFormed) : ∀ {g g' : Generator} {code : Code},
    g.context.Ready → Returns p g code g' → code.isPlain := by
  induction h with
  | own h =>
    intro g g' code hr hreturns
    obtain ⟨rfl, -⟩ := returns_pure.1 hreturns
    exact Code.isPlain_of_isOwn h
  | fail =>
    intro g g' code hr hreturns
    exact absurd hreturns not_returns_throw
  | seq h h' ih ih' =>
    intro g g' code hr hreturns
    obtain ⟨a, g₁, b, ha, hb, rfl⟩ := returns_seq.1 hreturns
    exact Code.isPlain_append.2 ⟨ih (fun e he => hw e (List.mem_append_left _ he)) hr ha,
      ih' (fun e he => hw e (List.mem_append_right _ he)) (h.ready hr ha) hb⟩
  | value e =>
    intro g g' code hr hreturns
    obtain ⟨instrs, he, rfl, -⟩ := returns_evaluate.1 hreturns
    exact Code.isPlain_ofInstrs.2 (Expr.isPlain_lower (hw e List.mem_cons_self) he)
  | call name args =>
    intro g g' code hr hreturns
    simp only [Stmt.lower, returns_bind, returns_ask, returns_pure] at hreturns
    obtain ⟨instrs, _, ⟨hcall, rfl⟩, rfl, -⟩ := hreturns
    exact Code.isPlain_ofInstrs.2 (Expr.isPlain_lowerCall (hw _ List.mem_cons_self) hcall)
  | type _ _ ih =>
    intro g g' code hr hreturns
    obtain ⟨t, g₁, ht, hk⟩ := returns_bind.1 hreturns
    obtain ⟨-, rfl⟩ := returns_ask.1 ht
    exact ih t (fun e he => hw e (List.mem_cons_of_mem _ he)) hr hk
  | address e _ ih =>
    intro g g' code hr hreturns
    obtain ⟨t, g₁, ht, hseq⟩ := returns_bind.1 hreturns
    obtain ⟨-, rfl⟩ := returns_ask.1 ht
    obtain ⟨a, g₂, b, ha, hb, rfl⟩ := returns_seq.1 hseq
    obtain ⟨instrs, he, rfl, rfl⟩ := returns_evaluate.1 ha
    have hwe : e.wellFormed := hw (.deref e) List.mem_cons_self
    exact Code.isPlain_append.2 ⟨Code.isPlain_ofInstrs.2 (Expr.isPlain_lower hwe he),
      ih t (fun e he => hw e (List.mem_cons_of_mem _ he)) hr hb⟩
  | lookup x _ ih =>
    intro g g' code hr hreturns
    obtain ⟨symbol, g₁, hx, hk⟩ := returns_bind.1 hreturns
    obtain ⟨-, rfl⟩ := returns_lookup.1 hx
    exact ih symbol (fun e he => hw e (List.mem_cons_of_mem _ he)) hr hk
  | declare x t _ ih =>
    intro g g' code hr hreturns
    obtain ⟨symbol, g₁, hd, hk⟩ := returns_bind.1 hreturns
    exact ih symbol hw (ready_declare hr hd) hk
  | result =>
    intro g g' code hr hreturns
    simp only [returns_bind, Stmt.returns_resultCode, returns_pure] at hreturns
    obtain ⟨instrs, _, ⟨hcode, rfl⟩, rfl, -⟩ := hreturns
    exact Code.isPlain_of_isOwn (Context.moves_returnCode hcode).isOwn
  | label kind _ ih =>
    intro g g' code hr hreturns
    obtain ⟨n, g₁, hn, hk⟩ := returns_bind.1 hreturns
    exact ih n hw (ready_freshLabel hr hn) hk
  | block _ ih =>
    intro g g' code hr hreturns
    obtain ⟨inner, g₁, scope, scopes, hin, -, rfl, -⟩ := returns_block.1 hreturns
    have hinner := ih hw (hr.openScope .branch none (by simp)) hin
    exact Code.isPlain_append.2 ⟨Code.isPlain_append.2 ⟨Code.isPlain_reserve _, hinner⟩,
      Code.isPlain_release _⟩
  | loop kind labels done _ hcontinue hbreak hdone _ ih =>
    intro g g' code hr hreturns
    obtain ⟨inner, g₁, scope, scopes, fillings, hin, -, -, rfl, -⟩ := returns_loop.1 hreturns
    have hopen := hr.openScope kind (some labels) fun l hl => by
      cases hl
      exact ⟨hcontinue, hbreak⟩
    have hinner := Code.isPlain_fillAll fillings (ih hw hopen hin)
    have hlabel : ∀ l : Label, l.isPlain → Code.isPlain [.label l] := fun l hl =>
      Code.isPlain_of_isOwn (Code.isOwn_label hl)
    simp only [Code.isPlain_append]
    exact ⟨⟨⟨⟨Code.isPlain_reserve _, hinner⟩, hlabel _ hdone⟩, Code.isPlain_release _⟩,
      hlabel _ hbreak⟩
  | breakLoop =>
    intro g g' code hr hreturns
    simp only [Stmt.lower, returns_bind, returns_change, returns_ask, returns_pure] at hreturns
    obtain ⟨_, _, ⟨ctx, hnote, rfl⟩, labels, _, ⟨hlabels, rfl⟩, rfl, -⟩ := hreturns
    have hready := hr.of_extends (extends_noteBreak hnote)
      ((Context.stable_steady _).noteBreak hnote hr.steady)
    simpa [Code.isPlain, Line.isPlain, Instr.isPlain] using
      (hready.isPlain_of_loopLabels hlabels).2
  | continueLoop =>
    intro g g' code hr hreturns
    simp only [Stmt.lower, returns_bind, returns_change, returns_ask, returns_pure] at hreturns
    obtain ⟨_, _, ⟨ctx, hnote, rfl⟩, labels, _, ⟨hlabels, rfl⟩, rfl, -⟩ := hreturns
    obtain ⟨ctx', hcontinue, he⟩ := except_bind_eq_ok.1 hnote
    cases he
    have hready := hr.of_extends (extends_noteContinue hcontinue)
      ((Context.stable_steady _).noteContinue hcontinue hr.steady)
    simpa [Code.isPlain, Line.isPlain, Instr.isPlain] using
      (hready.isPlain_of_loopLabels hlabels).1

end Composed

/-- **Closing a loop does not notice a shift.** All exits of the loop leave scopes that have been
closed: those still live are around it. -/
theorem shifts_loop {δ : Shift} {kind : ScopeKind} {labels : LoopLabels} {done : Label}
    {body body' : Gen Code} (hr : g.context.Ready)
    (hbody : Shifts δ (Code.shift δ) body body'
      (g.withScopes (g.context.scopes.openScope kind (some labels)).2))
    (hinner : ∀ code g₁,
      Returns body (g.withScopes (g.context.scopes.openScope kind (some labels)).2) code g₁ →
      code.isPlain ∧ g₁.context.Accounted ∧
        g₁.context.scopes.shells = (g.context.scopes.openScope kind (some labels)).2.shells) :
    Shifts δ (Code.shift δ) (loop kind labels done body)
      (loop kind (labels.renumber δ.labels) (done.renumber δ.labels) body') g := by
  refine shifts_bind (shifts_openScope kind (some labels)) fun id g₁ hopen => ?_
  obtain ⟨rfl, rfl⟩ := returns_openScope.1 hopen
  refine shifts_bind hbody fun code g₂ hcode => ?_
  obtain ⟨hplain, haccounted, hshells⟩ := hinner code g₂ hcode
  refine shifts_bind (shifts_closeScope kind) fun size g₃ hclose => ?_
  obtain ⟨scope, scopes, hpop, rfl, rfl⟩ := returns_closeScope.1 hclose
  refine shifts_bind (shifts_settle hplain ?_) fun code' g₄ _ => shifts_pure ?_
  · intro e he hloop
    refine (Context.stable_accounted.pop hpop haccounted).closed_of_notMem he fun hlive => ?_
    -- The loop is no longer live, as all live scopes have been opened before it.
    obtain ⟨s, hs, hid⟩ := List.mem_map.1 hlive
    have hmem : s.shell ∈ scopes.shells := List.mem_map_of_mem hs
    rw [(Draft.top_of_pop hshells hpop).1] at hmem
    exact Nat.ne_of_lt (hr.steady.below _ hmem) (hid.trans hloop)
  · simp [Code.shift_ofInstrs_of_moves δ (moves_reserve _),
      Code.shift_ofInstrs_of_moves δ (moves_release _), LoopLabels.renumber]

/-- **Compiling a statement does not notice a shift.** -/
theorem Composed.shifts {δ : Shift} {parts : List (String ⊕ Expr)} {stray : Bool}
    {new : List String} {p q : Gen Code} (h : Composed δ.labels id parts stray new p q)
    (hw : ∀ e, .inr e ∈ parts → e.wellFormed) : ∀ {g : Generator}, g.context.Ready →
    Shifts δ (Code.shift δ) p q g := by
  induction h with
  | own h heq =>
    intro g hr
    refine shifts_pure (heq.trans (Code.shift_eq_renumber δ (List.filterMap_eq_nil_iff.2 ?_)).symm)
    intro line hline
    have hown := List.all_eq_true.1 h line hline
    cases line with
    | cleanup => cases hown
    | _ => rfl
  | fail _ _ h =>
    intro g hr
    rw [h rfl]
    exact shifts_throw _
  | seq h h' ih ih' =>
    intro g hr
    exact shifts_seq (ih (fun e he => hw e (List.mem_append_left _ he)) hr) fun code g₁ hcode =>
      ih' (fun e he => hw e (List.mem_append_right _ he)) (h.ready hr hcode)
  | value e =>
    intro g hr
    rw [Expr.recast_id]
    exact shifts_evaluate e
  | call name args =>
    intro g hr
    rw [Expr.recastArgs_id, Stmt.lower]
    refine shifts_bind (shifts_ask_same
      (Expr.lowerCall_congr ((g.context.alike_shift δ).on _) name false)) fun instrs g₁ h => ?_
    have hexplained := Expr.straight_lowerCall (returns_ask.1 h).1
    exact shifts_pure (Code.shift_ofInstrs δ hexplained).symm
  | type descriptor _ ih =>
    intro g hr
    refine shifts_bind (shifts_ask_same ((g.context.alike_shift δ).typeOf descriptor))
      fun t g₁ ht => ?_
    obtain ⟨-, rfl⟩ := returns_ask.1 ht
    exact ih t (fun e he => hw e (List.mem_cons_of_mem _ he)) hr
  | address e _ ih =>
    intro g hr
    rw [Expr.recast_id]
    refine shifts_bind
      (shifts_ask_same (Expr.readType_congr ((g.context.alike_shift δ).sameNames.on e.names)))
      fun t g₁ ht => ?_
    obtain ⟨-, rfl⟩ := returns_ask.1 ht
    refine shifts_seq (shifts_evaluate e) fun code g₂ hcode => ?_
    obtain ⟨_, -, -, rfl⟩ := returns_evaluate.1 hcode
    exact ih t (fun e he => hw e (List.mem_cons_of_mem _ he)) hr
  | lookup x _ ih =>
    intro g hr
    refine shifts_bind (shifts_lookup x) fun symbol g₁ hx => ?_
    obtain ⟨-, rfl⟩ := returns_lookup.1 hx
    exact ih symbol (fun e he => hw e (List.mem_cons_of_mem _ he)) hr
  | declare x t _ ih =>
    intro g hr
    exact shifts_bind (shifts_declare x t) fun symbol g₁ hd => ih symbol hw (ready_declare hr hd)
  | result =>
    intro g hr
    refine shifts_bind shifts_resultCode fun instrs g₁ h => shifts_pure ?_
    exact (Code.shift_ofInstrs_of_moves δ
      (Context.moves_returnCode (Stmt.returns_resultCode.1 h).1)).symm
  | label kind _ ih =>
    intro g hr
    exact shifts_bind (shifts_freshLabel kind) fun n g₁ hn => ih n hw (ready_freshLabel hr hn)
  | block _ ih =>
    intro g hr
    exact shifts_block (ih hw (hr.openScope .branch none (by simp)))
  | loop kind labels done _ hcontinue hbreak _ h ih =>
    intro g hr
    have hopen := hr.openScope kind (some labels) fun l hl => by
      cases hl
      exact ⟨hcontinue, hbreak⟩
    refine shifts_loop hr (ih hw hopen) fun code g₁ hcode => ?_
    obtain ⟨added, -, hextends⟩ := h.extends hcode
    exact ⟨h.isPlain hw hopen hcode, (h.ready hopen hcode).steady.accounted,
      hextends.scopes.shells⟩
  | breakLoop =>
    intro g hr
    rw [Stmt.lower]
    refine shifts_bind (shifts_change (g.context.noteBreak_shift δ)) fun marker g₁ _ => ?_
    refine shifts_bind (shifts_ask (g₁.context.scopes.loopLabels_shift δ)) fun labels g₂ _ => ?_
    exact shifts_pure rfl
  | continueLoop =>
    intro g hr
    rw [Stmt.lower]
    refine shifts_bind (φ := id) (shifts_change ?_) fun _ g₁ _ => ?_
    · rw [Context.noteContinue_shift]
      cases g.context.noteContinue <;> rfl
    · refine shifts_bind (shifts_ask (g₁.context.scopes.loopLabels_shift δ)) fun labels g₂ _ => ?_
      exact shifts_pure rfl

end Gen

theorem Stmt.shifts_lowerAll {δ : Shift} {body : List Stmt} (hw : allWellFormed body)
    {g : Generator} (hr : g.context.Ready) :
    Shifts δ (Code.shift δ) (lowerAll body) (lowerAll body) g := by
  have h := (composed_lowerAll (δ := δ.labels) (f := id) body).shifts
    (fun e he => (covers_blockParts body e he).2.2 hw) hr
  rwa [recastAll_id] at h

/-! ### Functions -/

namespace FunctionDecl

variable {δ : Shift}

/-- Compiling a function, once it is known that it is defined here. -/
def lowerWith (decl : FunctionDecl) (signature : FunctionSignature) : Gen Code := do
  let _ ← Gen.openScope .parameter none
  declareParams signature
  let _ ← Gen.openScope .function none
  let body ← Stmt.lowerAll decl.body
  let frame ← Gen.closeScope .function
  let _ ← Gen.closeScope .parameter
  return frameCode decl.name frame body

/-- **How a function starts depends on the declarations alone.** It fails, or it goes on from a
context in which scopes and exits are forgotten. -/
theorem lower_run (decl : FunctionDecl) (d : Declarations) :
    (∃ e, ∀ g : Generator, g.context.toDeclarations = d →
      decl.lower.run.run g = (.error e, { g with context := g.context.beginFunction })) ∨
    ∃ signature, ∀ g : Generator, g.context.toDeclarations = d →
      decl.lower.run.run g =
        (decl.lowerWith signature).run.run
          { g with context := g.context.beginFunction, resultType := signature.result } := by
  have hget : ∀ g : Generator, g.context.toDeclarations = d →
      (Gen.ask (·.functions.get decl.name)).run.run { g with context := g.context.beginFunction } =
        (d.functions.get decl.name, { g with context := g.context.beginFunction }) := by
    rintro g rfl
    exact run_ask _ _
  cases hsignature : d.functions.get decl.name with
  | error e =>
    refine .inl ⟨e, fun g hg => ?_⟩
    have hrun := hget g hg
    rw [hsignature] at hrun
    exact (run_bind_ok (a := ()) rfl).trans (run_bind_error hrun)
  | ok signature =>
    have hok : ∀ g : Generator, g.context.toDeclarations = d → _ = (Except.ok signature, _) :=
      fun g hg => (hget g hg).trans (congrArg (·, _) hsignature)
    cases hexternal : signature.external with
    | true =>
      refine .inl ⟨.unsupported (.definitionOfExternal decl.name), fun g hg => ?_⟩
      refine (run_bind_ok (a := ()) rfl).trans ((run_bind_ok (hok g hg)).trans ?_)
      rw [hexternal]
      rfl
    | false =>
      refine .inr ⟨signature, fun g hg => ?_⟩
      refine (run_bind_ok (a := ()) rfl).trans ((run_bind_ok (hok g hg)).trans ?_)
      rw [hexternal]
      rfl

theorem shift_frameCode (name : String) (frame : Nat) (body : Code) :
    (frameCode name frame body).shift δ = frameCode name frame (body.shift δ) := by
  have hopen : Moves ([.pushReg .ebp, .move .ebp .esp] ++ reserve frame) :=
    .append (.of_isMove (by simp)) (moves_reserve frame)
  have hclose : Moves [.move .esp .ebp, .pop .ebp, .ret] := .of_isMove (by simp)
  simp only [frameCode, Code.shift_append, Code.shift_ofInstrs_of_moves δ hopen,
    Code.shift_ofInstrs_of_moves δ hclose]
  rfl

theorem shifts_forM_declare (params : List (String × Ty)) : ∀ {g : Generator},
    Shifts δ id (params.forM fun (name, t) => do let _ ← Gen.declare name t)
      (params.forM fun (name, t) => do let _ ← Gen.declare name t) g := by
  induction params with
  | nil => exact shifts_pure rfl
  | cons param params ih =>
    exact shifts_bind (φ := id) (shifts_bind (shifts_declare _ _) fun _ _ _ => shifts_pure rfl)
      fun _ _ _ => ih

theorem shifts_declareParams (signature : FunctionSignature) {g : Generator} :
    Shifts δ id (declareParams signature) (declareParams signature) g := by
  unfold declareParams
  cases signature.aggregate? with
  | none => exact shifts_forM_declare _
  | some t => exact shifts_bind (shifts_declare _ _) fun _ _ _ => shifts_forM_declare _

theorem shifts_lowerWith {decl : FunctionDecl} (hw : decl.wellFormed)
    (signature : FunctionSignature) {g : Generator} (hr : g.context.Ready) :
    Shifts δ (Code.shift δ) (decl.lowerWith signature) (decl.lowerWith signature) g := by
  have hbody : Stmt.allWellFormed decl.body := by simp_all [FunctionDecl.wellFormed]
  refine shifts_bind (shifts_openScope .parameter none) fun _ g₁ hopen => ?_
  obtain ⟨-, rfl⟩ := returns_openScope.1 hopen
  have hr₁ := hr.openScope .parameter none (by simp)
  refine shifts_bind (shifts_declareParams signature) fun _ g₂ hparams => ?_
  have hsteady := (preserves_declareParams (Context.stable_steady _) signature).returns hparams
    hr₁.steady
  obtain ⟨scopes, hslots, rfl⟩ := returns_declareParams.1 hparams
  have hr₂ : ((g.withScopes (g.context.scopes.openScope .parameter none).2).withScopes
      scopes).context.Ready := by
    have hshells : scopes.shells = _ := (ScopeStack.shells_declareAll hslots).1
    exact ⟨hsteady, fun s hs => hr₁.labelled s (hshells ▸ hs)⟩
  refine shifts_bind (shifts_openScope .function none) fun _ g₃ hopen => ?_
  obtain ⟨-, rfl⟩ := returns_openScope.1 hopen
  have hr₃ := hr₂.openScope .function none (by simp)
  refine shifts_bind (Stmt.shifts_lowerAll hbody hr₃) fun body g₄ _ => ?_
  refine shifts_bind (shifts_closeScope .function) fun frame g₅ _ => ?_
  refine shifts_bind (shifts_closeScope .parameter) fun _ g₆ _ => shifts_pure ?_
  exact (shift_frameCode decl.name frame body).symm

end FunctionDecl

/-! ### Functions after others -/

namespace FunctionDecl

/-- What comes out of a function does not depend on the result type of the function before it, and
neither does what is left. -/
theorem lower_congr (decl : FunctionDecl) {g g' : Generator} (h : g.context = g'.context)
    (houtput : g.output = g'.output) :
    (decl.lower.run.run g).1 = (decl.lower.run.run g').1 ∧
      (decl.lower.run.run g).2.context = (decl.lower.run.run g').2.context := by
  have hd : g'.context.toDeclarations = g.context.toDeclarations := by rw [h]
  obtain ⟨e, herror⟩ | ⟨signature, hrun⟩ := lower_run decl g.context.toDeclarations
  · rw [herror g rfl, herror g' hd]
    exact ⟨rfl, congrArg Context.beginFunction h⟩
  · rw [hrun g rfl, hrun g' hd, h, houtput]
    exact ⟨rfl, rfl⟩

theorem ready_start (d : Declarations) : ({ toDeclarations := d } : Context).Ready where
  steady := ⟨rfl, fun _ h => absurd h List.not_mem_nil, fun _ h => absurd h List.not_mem_nil⟩
  labelled := fun _ h => absurd h List.not_mem_nil

/-- **A function starts over.** From any state with the declarations of the program it does what it
does from the state in which nothing has been counted yet. -/
theorem lower_shift {decl : FunctionDecl} (hw : decl.wellFormed) {g g₀ : Generator}
    (hg₀ : g₀.context = { toDeclarations := g.context.toDeclarations })
    (houtput : g₀.output = g.output) :
    (decl.lower.run.run g).1 = (decl.lower.run.run g₀).1.map
      (Code.shift ⟨g.context.labels, g.context.scopes.nextId, g.context.markers⟩) := by
  have hd : g₀.context.toDeclarations = g.context.toDeclarations := by rw [hg₀]
  obtain ⟨e, herror⟩ | ⟨signature, hrun⟩ := lower_run decl g.context.toDeclarations
  · rw [herror g rfl, herror g₀ hd]
    rfl
  · have hshift := shifts_lowerWith (δ := ⟨g.context.labels, g.context.scopes.nextId,
      g.context.markers⟩) hw signature
      (g := { g₀ with context := g₀.context.beginFunction, resultType := signature.result })
      (by rw [hg₀]; exact ready_start _)
    have hbegin : g.context.beginFunction = g₀.context.beginFunction.shift
        ⟨g.context.labels, g.context.scopes.nextId, g.context.markers⟩ := by
      rw [hg₀]
      simp only [Context.shift, Context.beginFunction, ScopeStack.shift, ScopeStack.clear,
        List.map_nil, Nat.zero_add, LabelCounters.zero_add]
    rw [hrun g rfl, hrun g₀ hd, hbegin, ← houtput]
    exact congrArg Prod.fst hshift

/-- No placeholder is left in the code of a function, so only the numbers of its labels differ. -/
theorem lower_renumber {decl : FunctionDecl} (hw : decl.wellFormed) {g g₀ : Generator}
    (hg₀ : g₀.context = { toDeclarations := g.context.toDeclarations })
    (houtput : g₀.output = g.output) :
    (decl.lower.run.run g).1 =
      (decl.lower.run.run g₀).1.map (Code.renumber g.context.labels) := by
  rw [lower_shift hw hg₀ houtput]
  rcases hrun : decl.lower.run.run g₀ with ⟨e | code, g'⟩
  · rfl
  · obtain ⟨signature, ctx, raw, σ, -, -, -, hcode, -⟩ := emits_of_returns hw hrun
    have hmarkers : code.markers = [] := by
      rw [hcode]
      simp [frameCode]
    exact congrArg Except.ok (Code.shift_eq_renumber _ hmarkers)

end FunctionDecl

namespace Generator

theorem functions_congr (items : List Item) : ∀ {g g' : Generator} (seen : List String),
    g.context = g'.context → g.output = g'.output →
    (g.functions seen items).1 = (g'.functions seen items).1 ∧
      (g.functions seen items).2.1 = (g'.functions seen items).2.1 ∧
      (g.functions seen items).2.2.context = (g'.functions seen items).2.2.context := by
  induction items with
  | nil => exact fun seen h _ => ⟨rfl, rfl, h⟩
  | cons item items ih =>
    intro g g' seen h houtput
    cases item with
    | function decl =>
      rw [functions, functions, h]
      by_cases hseen : seen.contains decl.name
      · rw [if_pos hseen, if_pos hseen]
        exact ih seen h houtput
      · rw [if_neg hseen, if_neg hseen]
        by_cases hknown : !g'.context.functions.contains decl.name
        · rw [if_pos hknown, if_pos hknown]
          exact ih _ h houtput
        · rw [if_neg hknown, if_neg hknown]
          obtain ⟨houtcome, hcontext⟩ := decl.lower_congr h houtput
          have hwritten : (decl.lower.run.run g).2.output = (decl.lower.run.run g').2.output :=
            (decl.output_lower g).trans (houtput.trans (decl.output_lower g').symm)
          rcases hrun : decl.lower.run.run g with ⟨r, g₁⟩
          rcases hrun' : decl.lower.run.run g' with ⟨r', g₁'⟩
          rw [hrun, hrun'] at houtcome hcontext hwritten
          obtain rfl : r = r' := houtcome
          obtain ⟨hcodes, hdiagnostics, hleft⟩ := ih (decl.name :: seen) hcontext hwritten
          cases r with
          | error e => exact ⟨hcodes, congrArg (⟨decl.name, e⟩ :: ·) hdiagnostics, hleft⟩
          | ok code => exact ⟨congrArg (code :: ·) hcodes, hdiagnostics, hleft⟩
    | _ => exact ih seen h houtput

theorem generate_congr (g : Generator) (p : Program) : (g.generate p).1 = (generate {} p).1 := by
  have hstart : (g.start p).1.context = (start {} p).1.context := rfl
  obtain ⟨hcodes, hdiagnostics, hcontext⟩ := functions_congr p.items [] hstart rfl
  have hdeclared : (g.start p).2 = (start {} p).2 := rfl
  simp only [generate, hdeclared, hcodes, hdiagnostics, hcontext]
  split <;> rfl

/-- **Nothing is left over.** A generator that has compiled programs before compiles a program as a
new one does, and its output is the text of that program alone. Within a program, a function that is
compiled after any others, failing ones included, comes out as it does right after the declarations
have been read: with the same error, or with the same code but for the numbers of its labels, which
are counted on. -/
theorem no_residue :
    (∀ (g : Generator) (p : Program), (g.generate p).1 = (generate {} p).1 ∧
      (g.assemble p).1 = (g.generate p).1.map Listing.text) ∧
    ∀ {source : String} {p : Program}, Program.ofSource source = .ok p →
      ∀ (g : Generator) (others : List FunctionDecl) (decl : FunctionDecl),
        .function decl ∈ p.items →
        (decl.lower.run.run ((g.start p).1.after others)).1 =
          (decl.lower.run.run (g.start p).1).1.map
            (Code.renumber ((g.start p).1.after others).context.labels) := by
  refine ⟨fun g p => ⟨g.generate_congr p, g.assemble_eq p⟩, ?_⟩
  intro source p hp g others decl hd
  refine FunctionDecl.lower_renumber (FunctionDecl.wellFormed_of_source hp hd) ?_ ?_
  · rw [toDeclarations_after]
    rfl
  · rw [output_after]

/-- Whether, of the two functions of a program, the first leaves a loop open with a `break` that
waits, and the second has the given labels. -/
def leavesLoopOpen (labels : List Label) (p : Program) : Bool :=
  match p.items with
  | [.function f, .function decl] =>
    ((start {} p).1.after [f]).context.scopes.depth == 3 &&
    ((start {} p).1.after [f]).context.pending == [.break_ 2 0 [3, 2]] &&
    ((start {} p).1.after [f]).context.labels == ⟨1, 1, 0⟩ &&
    (decl.lower.run.run (start {} p).1).1.toOption.map Code.labels == some labels
  | _ => false

/-- The first function fails inside a loop, with a `break` that waits. The second one comes out
after it as it does alone, but for its labels. -/
theorem no_residue_of_failure : ∃ p f decl, ∃ code : Code,
    Program.ofSource "fn f(n: i32) { while (n) { if (n) { break; } g(n); } }
      fn h(n: i32) -> i32 { while (n) { if (n) { break; } } return n; }" = .ok p ∧
    p.items = [.function f, .function decl] ∧
    ((start {} p).1.after [f]).context.scopes.depth = 3 ∧
    ((start {} p).1.after [f]).context.pending = [.break_ 2 0 [3, 2]] ∧
    code.labels = [.named "h", .whileHead 0, .ifEnd 0, .whileDone 0, .whileEnd 0, .returnPoint] ∧
    (decl.lower.run.run (start {} p).1).1 = .ok code ∧
    (decl.lower.run.run ((start {} p).1.after [f])).1 = .ok (code.renumber ⟨1, 1, 0⟩) := by
  obtain ⟨p, hp, hcheck⟩ := exists_of_someProgram
    "fn f(n: i32) { while (n) { if (n) { break; } g(n); } }
      fn h(n: i32) -> i32 { while (n) { if (n) { break; } } return n; }"
    (leavesLoopOpen
      [.named "h", .whileHead 0, .ifEnd 0, .whileDone 0, .whileEnd 0, .returnPoint])
    (by decide +kernel)
  unfold leavesLoopOpen at hcheck
  split at hcheck
  · rename_i f decl hitems
    simp only [Bool.and_eq_true, beq_iff_eq] at hcheck
    obtain ⟨⟨⟨hdepth, hpending⟩, hlabels⟩, hcode⟩ := hcheck
    have hresidue := no_residue.2 hp {} [f] decl (by simp [hitems])
    cases hrun : (decl.lower.run.run (start {} p).1).1 with
    | error e =>
      rw [hrun] at hcode
      cases hcode
    | ok code =>
      rw [hrun] at hcode
      rw [hrun, hlabels] at hresidue
      exact ⟨p, f, decl, code, hp, hitems, hdepth, hpending, Option.some.inj hcode, hrun, hresidue⟩
  · cases hcheck

end Generator

end GLang
