import GLang.Proofs.Emission

/-!
# Exits that wait for their loop

Between two states of the generator there is a piece of code that is not final: the placeholders of
the loops still open are in it, those of the loops closed since are filled. `Draft c c' code raw log
new` relates the piece `code` made on the way from `c` to `c'` to the same piece with all
placeholders in it, `raw`.

* `log` has the placeholders of `raw`, each with the scopes that its `break` leaves.
* `new` has the exits that have been noted on the way and still wait.

Pieces are put together by `Draft.append`, `Draft.block` and `Draft.loop`. The last is the step that
matters: after a loop nothing of what has been noted inside waits any more, since those exits and no
others belong to it.
-/

namespace GLang

open Asm

/-! ### The numbers of scopes -/

/-- What a scope keeps as long as it is live. -/
def Scope.shell (s : Scope) : Scope :=
  { s with symbols := [], start := 0, cursor := 0 }

/-- A declaration adds a symbol with a new name. -/
theorem Scope.allocate_eq_add {s s' : Scope} {x : String} {t : Ty} {symbol : Symbol}
    (h : s.allocate x t = .ok (symbol, s')) :
    ∃ cursor, s.get? x = none ∧ symbol.name = x ∧ symbol.type = t ∧ s' = s.add symbol cursor := by
  unfold Scope.allocate at h
  split at h
  · cases h
  · rename_i hx
    have hnew : s.get? x = none := by simpa using hx
    split at h
    · cases h
      exact ⟨_, hnew, rfl, rfl, rfl⟩
    · split at h
      · cases h
      · cases h
        exact ⟨_, hnew, rfl, rfl, rfl⟩

theorem Scope.type_of_allocate {s s' : Scope} {x : String} {t : Ty} {symbol : Symbol}
    (h : s.allocate x t = .ok (symbol, s')) : symbol.type = t := by
  obtain ⟨_, -, -, htype, -⟩ := Scope.allocate_eq_add h
  exact htype

theorem Scope.shell_allocate {s s' : Scope} {x : String} {t : Ty} {symbol : Symbol}
    (h : s.allocate x t = .ok (symbol, s')) : s'.shell = s.shell := by
  obtain ⟨_, -, -, -, rfl⟩ := Scope.allocate_eq_add h
  rfl

theorem Scope.id_complete (s : Scope) : s.complete.id = s.id := by
  unfold Scope.complete
  split <;> rfl

namespace ScopeStack

/-- The live scopes without what changes while they are live. -/
def shells (s : ScopeStack) : List Scope :=
  s.scopes.map Scope.shell

/-- The numbers of all scopes of the function so far. -/
def ids (s : ScopeStack) : List Nat :=
  s.shells.map (·.id) ++ s.closed.map Prod.fst

theorem scopesToLoop_eq_ok {s : ScopeStack} {found : Nat × List Nat} :
    s.scopesToLoop = .ok found ↔ toLoop? s.scopes = some found := by
  unfold scopesToLoop
  cases toLoop? s.scopes <;> simp

theorem closed_of_pop {s s' : ScopeStack} {kind : ScopeKind} {scope : Scope}
    (h : s.pop kind = .ok (scope, s')) : s.closed <:+ s'.closed := by
  obtain ⟨top, rest, -, -, rfl, rfl⟩ := pop_eq_ok.1 h
  exact List.suffix_cons _ _

theorem toLoop?_shells (scopes : List Scope) :
    toLoop? (scopes.map Scope.shell) = toLoop? scopes := by
  induction scopes with
  | nil => rfl
  | cons scope scopes ih =>
    rw [List.map_cons, toLoop?, toLoop?, ih]
    rfl

theorem toLoop?_congr {s s' : ScopeStack} (h : s.shells = s'.shells) :
    toLoop? s.scopes = toLoop? s'.scopes := by
  rw [← toLoop?_shells s.scopes, ← toLoop?_shells s'.scopes]
  exact congrArg toLoop? h

theorem exists_of_toLoop? {scopes : List Scope} {loop : Nat} {crossed : List Nat}
    (h : toLoop? scopes = some (loop, crossed)) :
    ∃ s ∈ scopes, s.id = loop ∧ s.kind.isLoop ∧ s.labels.isSome := by
  induction scopes generalizing crossed with
  | nil => cases h
  | cons scope scopes ih =>
    rw [toLoop?] at h
    split at h
    · rename_i hloop
      cases h
      exact ⟨scope, List.mem_cons_self, rfl, Bool.and_eq_true_iff.1 hloop⟩
    · split at h
      · cases h
      · obtain ⟨⟨loop', crossed'⟩, h', he⟩ := Option.map_eq_some_iff.1 h
        cases he
        obtain ⟨s, hs, hloop⟩ := ih h'
        exact ⟨s, List.mem_cons_of_mem scope hs, hloop⟩

end ScopeStack

/-- How the innermost loop is left, if `size` gives the final sizes of scopes. -/
def exitOf (size : Nat → Nat) : List Scope → Option Exit
  | [] => none
  | scope :: rest =>
    match scope.labels with
    | some labels => some ⟨labels, [size scope.id]⟩
    | none => (exitOf size rest).map (·.within (size scope.id))

/-- The scopes that an exit crosses have the sizes that `exitOf` adds up. -/
theorem exitOf_of_toLoop? (size : Nat → Nat) {scopes : List Scope} {loop : Nat}
    {crossed : List Nat} (hl : ∀ s ∈ scopes, ∀ labels, s.labels = some labels → s.kind.isLoop)
    (h : ScopeStack.toLoop? scopes = some (loop, crossed)) :
    ∃ labels, (∃ s ∈ scopes, s.labels = some labels) ∧
      scopes.findSome? (·.labels) = some labels ∧
      exitOf size scopes = some ⟨labels, crossed.map size⟩ := by
  induction scopes generalizing crossed with
  | nil => cases h
  | cons scope scopes ih =>
    rw [ScopeStack.toLoop?] at h
    cases hs : scope.labels with
    | some labels =>
      rw [hl scope List.mem_cons_self labels hs, hs] at h
      cases h
      exact ⟨labels, ⟨scope, List.mem_cons_self, hs⟩, by simp [hs], by simp [exitOf, hs]⟩
    | none =>
      simp only [hs, Option.isSome_none, Bool.and_false, Bool.false_eq_true, if_false] at h
      split at h
      · cases h
      · obtain ⟨⟨loop', crossed'⟩, h', he⟩ := Option.map_eq_some_iff.1 h
        cases he
        obtain ⟨labels, ⟨s, hmem, hlabels⟩, hf, hexit⟩ :=
          ih (fun s hs => hl s (List.mem_cons_of_mem scope hs)) h'
        refine ⟨labels, ⟨s, List.mem_cons_of_mem scope hmem, hlabels⟩, by simp [hs, hf], ?_⟩
        simp only [exitOf, hs, hexit, Option.map_some, Exit.within, List.map_cons]

/-! ### States of the generator -/

/-- The scopes have numbers of their own, also those that exits wait for. -/
structure Context.Tidy (c : Context) : Prop where
  nodup : c.scopes.ids.Nodup
  below : ∀ id ∈ c.scopes.ids, id < c.scopes.nextId
  waiting : ∀ e ∈ c.pending, e.loop < c.scopes.nextId
  /-- Only loops have labels. -/
  labelled : ∀ s ∈ c.scopes.shells, ∀ labels, s.labels = some labels →
    s.kind.isLoop ∧ labels.continueTo.isPlain ∧ labels.breakTo.isPlain

namespace Context.Tidy

variable {c c' : Context}

theorem congr (h : c.Tidy) (hs : c'.scopes.shells = c.scopes.shells)
    (hc : c'.scopes.closed = c.scopes.closed) (hn : c'.scopes.nextId = c.scopes.nextId)
    (hp : c'.pending = c.pending) : c'.Tidy where
  nodup := by
    rw [ScopeStack.ids, hs, hc]
    exact h.nodup
  below := by
    rw [ScopeStack.ids, hs, hc, hn]
    exact h.below
  waiting := by
    rw [hp, hn]
    exact h.waiting
  labelled := by
    rw [hs]
    exact h.labelled

theorem id_lt (h : c.Tidy) {s : Scope} (hs : s ∈ c.scopes.scopes) : s.id < c.scopes.nextId := by
  refine h.below s.id (List.mem_append_left _ ?_)
  exact List.mem_map.2 ⟨s.shell, List.mem_map_of_mem hs, rfl⟩

theorem loop_lt (h : c.Tidy) {loop : Nat} {crossed : List Nat}
    (hl : ScopeStack.toLoop? c.scopes.scopes = some (loop, crossed)) : loop < c.scopes.nextId := by
  obtain ⟨s, hs, rfl, -⟩ := ScopeStack.exists_of_toLoop? hl
  exact h.id_lt hs

/-- The exit out of the innermost loop, where there is one. -/
theorem exit (h : c.Tidy) (size : Nat → Nat) {loop : Nat} {crossed : List Nat}
    (hl : ScopeStack.toLoop? c.scopes.scopes = some (loop, crossed)) :
    ∃ labels, c.scopes.loopLabels = .ok labels ∧ labels.continueTo.isPlain ∧
      labels.breakTo.isPlain ∧ exitOf size c.scopes.shells = some ⟨labels, crossed.map size⟩ := by
  rw [← ScopeStack.toLoop?_shells] at hl
  obtain ⟨labels, ⟨s, hs, hlabels⟩, hf, hexit⟩ :=
    exitOf_of_toLoop? size (fun s hs labels hl => (h.labelled s hs labels hl).1) hl
  obtain ⟨-, hcontinue, hbreak⟩ := h.labelled s hs labels hlabels
  have hfind : c.scopes.scopes.findSome? (·.labels) = some labels := by
    rw [ScopeStack.shells, List.findSome?_map] at hf
    exact hf
  exact ⟨labels, by rw [ScopeStack.loopLabels, hfind], hcontinue, hbreak, hexit⟩

theorem openScope (h : c.Tidy) (kind : ScopeKind) (labels : Option LoopLabels)
    (hl : ∀ l, labels = some l → kind.isLoop ∧ l.continueTo.isPlain ∧ l.breakTo.isPlain) :
    ({ c with scopes := (c.scopes.openScope kind labels).2 } : Context).Tidy where
  nodup := by
    refine List.nodup_cons.2 ⟨?_, h.nodup⟩
    intro hm
    exact Nat.lt_irrefl _ (h.below _ hm)
  below := by
    intro id hm
    rcases List.mem_cons.1 hm with rfl | hm
    · exact Nat.lt_succ_self _
    · exact Nat.lt_succ_of_lt (h.below id hm)
  waiting := fun e he => Nat.lt_succ_of_lt (h.waiting e he)
  labelled := by
    intro s hs
    rcases List.mem_cons.1 hs with rfl | hs
    · exact hl
    · exact h.labelled s hs

theorem pop (h : c.Tidy) {kind : ScopeKind} {scope : Scope} {scopes : ScopeStack}
    (hp : c.scopes.pop kind = .ok (scope, scopes)) : ({ c with scopes } : Context).Tidy := by
  obtain ⟨top, rest, hs, -, rfl, rfl⟩ := ScopeStack.pop_eq_ok.1 hp
  have hshells : c.scopes.shells = top.shell :: rest.map Scope.shell := by
    rw [ScopeStack.shells, hs, List.map_cons]
  have hids : (rest.map Scope.shell).map (·.id) ++ top.complete.id :: c.scopes.closed.map Prod.fst
      |>.Perm c.scopes.ids := by
    rw [ScopeStack.ids, hshells, Scope.id_complete]
    exact List.perm_middle
  exact
    { nodup := hids.nodup_iff.2 h.nodup
      below := fun id hm => h.below id (hids.mem_iff.1 hm)
      waiting := h.waiting
      labelled := fun s hm => h.labelled s (by rw [hshells]; exact List.mem_cons_of_mem _ hm) }

end Context.Tidy

/-! ### Drafts -/

/-- The placeholder of an exit. -/
def LoopExit.marker? : LoopExit → Option Nat
  | break_ _ marker _ => some marker
  | continue_ _ _ => none

/-- `size` gives the sizes of closed scopes. -/
def Measures (size : Nat → Nat) (closed : List (Nat × Nat)) : Prop :=
  ∀ q ∈ closed, size q.1 = q.2

/-- Placeholders, each with the scopes that its `break` leaves, drop what these scopes reserve. -/
def Drops (size σ : Nat → Nat) (log : List (Nat × List Nat)) : Prop :=
  ∀ q ∈ log, σ q.1 = wordSum (q.2.map size)

theorem Drops.append {size σ : Nat → Nat} {log log' : List (Nat × List Nat)}
    (h : Drops size σ (log ++ log')) : Drops size σ log ∧ Drops size σ log' :=
  ⟨fun q hq => h q (List.mem_append_left _ hq), fun q hq => h q (List.mem_append_right _ hq)⟩

theorem Measures.of_suffix {size : Nat → Nat} {closed closed' : List (Nat × Nat)}
    (h : Measures size closed') (hs : closed <:+ closed') : Measures size closed :=
  fun q hq => h q (hs.subset hq)

/-- `code` is made on the way from `c` to `c'`, and `raw` is the same with all placeholders in
it. -/
structure Draft (c c' : Context) (code raw : Code) (log : List (Nat × List Nat))
    (new : List LoopExit) : Prop where
  tidy : c'.Tidy
  shells : c'.scopes.shells = c.scopes.shells
  closed : c.scopes.closed <:+ c'.scopes.closed
  pending : c'.pending = c.pending ++ new
  loops : ∀ e ∈ new, (ScopeStack.toLoop? c.scopes.scopes).map Prod.fst = some e.loop
  logged : ∀ loop m crossed, .break_ loop m crossed ∈ new → (m, crossed) ∈ log
  count : c'.markers = c.markers + log.length
  numbers : log.map Prod.fst = List.range' c.markers log.length
  markers : raw.markers = log.map Prod.fst
  unfilled : code.markers = new.filterMap LoopExit.marker?
  plain : code.isPlain
  plainRaw : raw.isPlain
  resolves : ∀ size σ, Measures size c'.scopes.closed → Drops size σ log →
    code.resolve σ = raw.resolve σ

namespace Draft

variable {c c₁ c' : Context} {code code' raw raw' : Code} {log log' : List (Nat × List Nat)}
  {new new' : List LoopExit}

/-- Code without placeholders, made while no exit is noted and no scope opened or closed. -/
theorem idle (h : c.Tidy) (hs : c'.scopes.shells = c.scopes.shells)
    (hc : c'.scopes.closed = c.scopes.closed) (hn : c'.scopes.nextId = c.scopes.nextId)
    (hp : c'.pending = c.pending) (hm : c'.markers = c.markers) (hcode : code.markers = [])
    (hplain : code.isPlain) : Draft c c' code code [] [] where
  tidy := h.congr hs hc hn hp
  shells := hs
  closed := hc ▸ List.suffix_rfl
  pending := by rw [hp, List.append_nil]
  loops := fun e he => absurd he List.not_mem_nil
  logged := fun _ _ _ he => absurd he List.not_mem_nil
  count := hm
  numbers := rfl
  markers := hcode
  unfilled := hcode
  plain := hplain
  plainRaw := hplain
  resolves := fun _ _ _ _ => rfl

theorem still (h : c.Tidy) (hcode : code.markers = []) (hplain : code.isPlain) :
    Draft c c code code [] [] :=
  idle h rfl rfl rfl rfl rfl hcode hplain

theorem append (h : Draft c c₁ code raw log new) (h' : Draft c₁ c' code' raw' log' new') :
    Draft c c' (code ++ code') (raw ++ raw') (log ++ log') (new ++ new') where
  tidy := h'.tidy
  shells := h'.shells.trans h.shells
  closed := h.closed.trans h'.closed
  pending := by rw [h'.pending, h.pending, List.append_assoc]
  loops := by
    intro e he
    rcases List.mem_append.1 he with he | he
    · exact h.loops e he
    · rw [← ScopeStack.toLoop?_congr h.shells]
      exact h'.loops e he
  logged := by
    intro loop m crossed he
    rcases List.mem_append.1 he with he | he
    · exact List.mem_append_left _ (h.logged loop m crossed he)
    · exact List.mem_append_right _ (h'.logged loop m crossed he)
  count := by rw [h'.count, h.count, List.length_append, Nat.add_assoc]
  numbers := by
    rw [List.map_append, h.numbers, h'.numbers, h.count, List.length_append,
      ← List.range'_append_1]
  markers := by rw [Code.markers_append, h.markers, h'.markers, List.map_append]
  unfilled := by rw [Code.markers_append, h.unfilled, h'.unfilled, List.filterMap_append]
  plain := Code.isPlain_append.2 ⟨h.plain, h'.plain⟩
  plainRaw := Code.isPlain_append.2 ⟨h.plainRaw, h'.plainRaw⟩
  resolves := by
    intro size σ hsize hdrops
    obtain ⟨hd, hd'⟩ := hdrops.append
    rw [Code.resolve_append, Code.resolve_append, h.resolves size σ (hsize.of_suffix h'.closed) hd,
      h'.resolves size σ hsize hd']

/-! ### Noting exits -/

/-- An exit is noted, and `code` is what it leaves: a placeholder, if it has one, and a jump. -/
theorem note (h : c.Tidy) (e : LoopExit) (log : List (Nat × List Nat)) {crossed : List Nat}
    (hl : ScopeStack.toLoop? c.scopes.scopes = some (e.loop, crossed))
    (hlog : ∀ loop m crossed', e = .break_ loop m crossed' → (m, crossed') ∈ log)
    (hnumbers : log.map Prod.fst = List.range' c.markers log.length)
    (hmarkers : code.markers = log.map Prod.fst)
    (hunfilled : code.markers = [e].filterMap LoopExit.marker?) (hplain : code.isPlain) :
    Draft c { c with markers := c.markers + log.length, pending := c.pending ++ [e] } code code log
      [e] where
  tidy :=
    { nodup := h.nodup
      below := h.below
      waiting := by
        intro e' he
        rcases List.mem_append.1 he with he | he
        · exact h.waiting e' he
        · rw [List.mem_singleton.1 he]
          exact h.loop_lt hl
      labelled := h.labelled }
  shells := rfl
  closed := List.suffix_rfl
  pending := rfl
  loops := by
    intro e' he
    rw [List.mem_singleton.1 he, hl]
    rfl
  logged := by
    intro loop m crossed' he
    exact hlog loop m crossed' (List.mem_singleton.1 he).symm
  count := rfl
  numbers := hnumbers
  markers := hmarkers
  unfilled := hunfilled
  plain := hplain
  plainRaw := hplain
  resolves := fun _ _ _ _ => rfl

theorem breakLoop (h : c.Tidy) {loop : Nat} {crossed : List Nat}
    (hl : ScopeStack.toLoop? c.scopes.scopes = some (loop, crossed)) {l : Label}
    (hplain : l.isPlain) :
    Draft c
      { c with
        markers := c.markers + 1
        pending := c.pending ++ [.break_ loop c.markers crossed] }
      [.cleanup c.markers, .instr (.jump l)] [.cleanup c.markers, .instr (.jump l)]
      [(c.markers, crossed)] [.break_ loop c.markers crossed] := by
  refine note h (.break_ loop c.markers crossed) [(c.markers, crossed)] hl ?_ rfl rfl rfl ?_
  · intro loop' m crossed' he
    cases he
    exact List.mem_singleton.2 rfl
  · simp [Code.isPlain, Line.isPlain, Instr.isPlain, hplain]

theorem continueLoop (h : c.Tidy) {loop : Nat} {crossed : List Nat}
    (hl : ScopeStack.toLoop? c.scopes.scopes = some (loop, crossed)) {l : Label}
    (hplain : l.isPlain) :
    Draft c { c with pending := c.pending ++ [.continue_ loop crossed.dropLast] }
      [.instr (.jump l)] [.instr (.jump l)] [] [.continue_ loop crossed.dropLast] := by
  refine note h (.continue_ loop crossed.dropLast) [] hl ?_ rfl rfl rfl ?_
  · intro loop' m crossed' he
    cases he
  · simp [Code.isPlain, Line.isPlain, Instr.isPlain, hplain]

/-! ### Closing a block -/

theorem top_of_pop {opened : Scope} {s s' : ScopeStack} {outer : List Scope} {kind : ScopeKind}
    {scope : Scope} (hs : s.shells = opened.shell :: outer)
    (hp : s.pop kind = .ok (scope, s')) :
    s'.shells = outer ∧ s'.closed = (opened.id, scope.localSize) :: s.closed := by
  obtain ⟨top, rest, htop, -, rfl, rfl⟩ := ScopeStack.pop_eq_ok.1 hp
  rw [ScopeStack.shells, htop, List.map_cons] at hs
  obtain ⟨hshell, hrest⟩ := List.cons.inj hs
  have hid : top.complete.id = opened.id := by
    rw [Scope.id_complete]
    exact (congrArg Scope.id hshell : top.shell.id = opened.shell.id)
  exact ⟨hrest, by rw [hid]⟩

theorem isPlain_block {size : Nat} (h : code.isPlain) : (Code.block size code).isPlain :=
  Code.isPlain_append.2
    ⟨Code.isPlain_append.2 ⟨Code.isPlain_reserve size, h⟩, Code.isPlain_release size⟩

@[simp] theorem markers_block (size : Nat) (code : Code) :
    (Code.block size code).markers = code.markers := by
  simp [Code.block]

theorem block
    (h : Draft { c with scopes := (c.scopes.openScope .branch none).2 } c₁ code raw log new)
    {scope : Scope} {scopes : ScopeStack} (hp : c₁.scopes.pop .branch = .ok (scope, scopes)) :
    Draft c { c₁ with scopes } (Code.block scope.localSize code) (Code.block scope.localSize raw)
        log new ∧
      (c.scopes.nextId, scope.localSize) ∈ scopes.closed := by
  obtain ⟨hshells, hclosed⟩ := top_of_pop h.shells hp
  refine ⟨?_, by rw [hclosed]; exact List.mem_cons_self⟩
  exact
    { tidy := h.tidy.pop hp
      shells := hshells
      closed := by
        rw [hclosed]
        exact h.closed.trans (List.suffix_cons _ _)
      pending := h.pending
      loops := by
        intro e he
        have := h.loops e he
        rw [show ({ c with scopes := (c.scopes.openScope .branch none).2 } : Context).scopes.scopes
            = _ :: c.scopes.scopes from rfl, ScopeStack.toLoop?] at this
        simp at this
        obtain ⟨-, crossed, hl⟩ := this
        rw [hl]
        rfl
      logged := h.logged
      count := h.count
      numbers := h.numbers
      markers := by rw [markers_block, h.markers]
      unfilled := by rw [markers_block, h.unfilled]
      plain := isPlain_block h.plain
      plainRaw := isPlain_block h.plainRaw
      resolves := by
        intro size σ hsize hdrops
        have hmeasures : Measures size c₁.scopes.closed := by
          refine hsize.of_suffix ?_
          rw [hclosed]
          exact List.suffix_cons _ _
        simp [Code.block, h.resolves size σ hmeasures hdrops] }

/-! ### Closing a loop -/

theorem crossedSize_eq {size : Nat → Nat} {scopes : ScopeStack}
    (hsize : Measures size scopes.closed) {ids : List Nat} {n : Nat}
    (h : Context.crossedSize scopes ids = .ok n) :
    n = wordSum (ids.map size) := by
  induction ids generalizing n with
  | nil =>
    cases h
    rfl
  | cons id ids ih =>
    rw [Context.crossedSize] at h
    split at h
    · cases h
    · rename_i n₁ hid
      obtain ⟨n₂, hn₂, he⟩ := except_bind_eq_ok.1 h
      cases he
      have hmem : (id, n₁) ∈ scopes.closed := by
        obtain ⟨l₁, l₂, hl, -⟩ := List.lookup_eq_some_iff.1 hid
        rw [hl]
        exact List.mem_append_right _ List.mem_cons_self
      rw [ih hn₂, wordSum, wordSum, List.map_cons, List.sum_cons, hsize _ hmem]
      omega

/-- Settling exits succeeds only if each placeholder is filled with what the scopes that its `break`
leaves reserve, and the scopes that a `continue` leaves reserve nothing. -/
theorem fillings_eq_ok {scopes : ScopeStack} {exits : List LoopExit} {fillings : List (Nat × Nat)}
    (h : Context.fillings scopes exits = .ok fillings) :
    fillings.map Prod.fst = exits.filterMap LoopExit.marker? ∧
      ∀ size, Measures size scopes.closed →
        (∀ f ∈ fillings, ∃ loop crossed, .break_ loop f.1 crossed ∈ exits ∧
          f.2 = wordSum (crossed.map size)) ∧
        ∀ loop crossed, .continue_ loop crossed ∈ exits → wordSum (crossed.map size) = 0 := by
  induction exits generalizing fillings with
  | nil =>
    cases h
    simp
  | cons e exits ih =>
    cases e with
    | break_ loop m crossed =>
      obtain ⟨n, hn, h⟩ := except_bind_eq_ok.1 h
      obtain ⟨rest, hrest, h⟩ := except_bind_eq_ok.1 h
      cases h
      obtain ⟨hfst, hall⟩ := ih hrest
      refine ⟨by simp [hfst, LoopExit.marker?], fun size hsize => ⟨?_, ?_⟩⟩
      · intro f hf
        rcases List.mem_cons.1 hf with rfl | hf
        · exact ⟨loop, crossed, List.mem_cons_self, crossedSize_eq hsize hn⟩
        · obtain ⟨loop', crossed', hmem, hsum⟩ := (hall size hsize).1 f hf
          exact ⟨loop', crossed', List.mem_cons_of_mem _ hmem, hsum⟩
      · intro loop' crossed' hmem
        rcases List.mem_cons.1 hmem with he | hmem
        · cases he
        · exact (hall size hsize).2 loop' crossed' hmem
    | continue_ loop crossed =>
      obtain ⟨n, hn, h⟩ := except_bind_eq_ok.1 h
      by_cases hpos : 0 < n
      · rw [if_pos hpos] at h
        cases h
      · rw [if_neg hpos] at h
        have hrest : Context.fillings scopes exits = .ok fillings := h
        obtain ⟨hfst, hall⟩ := ih hrest
        refine ⟨hfst, fun size hsize => ⟨?_, ?_⟩⟩
        · intro f hf
          obtain ⟨loop', crossed', hmem, hsum⟩ := (hall size hsize).1 f hf
          exact ⟨loop', crossed', List.mem_cons_of_mem _ hmem, hsum⟩
        · intro loop' crossed' hmem
          rcases List.mem_cons.1 hmem with he | hmem
          · cases he
            have := crossedSize_eq hsize hn
            omega
          · exact (hall size hsize).2 loop' crossed' hmem

theorem diff_self (l : List Nat) : l.diff l = [] := by
  induction l with
  | nil => rfl
  | cons a l ih => rw [List.diff_cons, List.erase_cons_head, ih]

/-- The exits of a loop are those noted inside it. -/
theorem partition_pending {id : Nat} {old : List LoopExit} (hold : ∀ e ∈ old, e.loop < id)
    (hnew : ∀ e ∈ new, e.loop = id) :
    (old ++ new).partition (·.loop == id) = (new, old) := by
  rw [List.partition_eq_filter_filter]
  have hold' : old.filter (·.loop == id) = [] := by
    refine List.filter_eq_nil_iff.2 fun e he => ?_
    have := hold e he
    simp
    omega
  have hnew' : new.filter (·.loop == id) = new :=
    List.filter_eq_self.2 fun e he => by simp [hnew e he]
  have hold'' : old.filter (not ∘ (·.loop == id)) = old :=
    List.filter_eq_self.2 fun e he => by
      have := hold e he
      simp
      omega
  have hnew'' : new.filter (not ∘ (·.loop == id)) = [] :=
    List.filter_eq_nil_iff.2 fun e he => by simp [hnew e he]
  rw [List.filter_append, List.filter_append, hold', hnew', hold'', hnew'', List.nil_append,
    List.append_nil]

@[simp] theorem markers_loop (size : Nat) (code : Code) (done breakTo : Label) :
    (Code.loop size code done breakTo).markers = code.markers := by
  simp [Code.loop]

theorem isPlain_loop {size : Nat} {done breakTo : Label} (h : code.isPlain) (hd : done.isPlain)
    (hb : breakTo.isPlain) : (Code.loop size code done breakTo).isPlain := by
  simp only [Code.loop, Code.isPlain_append]
  refine ⟨⟨⟨⟨Code.isPlain_reserve size, h⟩, ?_⟩, Code.isPlain_release size⟩, ?_⟩
  · simpa [Code.isPlain, Line.isPlain] using hd
  · simpa [Code.isPlain, Line.isPlain] using hb

theorem loop (ht : c.Tidy) {kind : ScopeKind} {labels : LoopLabels} (hk : kind.isLoop)
    (hl : labels.continueTo.isPlain ∧ labels.breakTo.isPlain) {done : Label} (hd : done.isPlain)
    (h : Draft { c with scopes := (c.scopes.openScope kind (some labels)).2 } c₁ code raw log new)
    {scope : Scope} {scopes : ScopeStack} (hp : c₁.scopes.pop kind = .ok (scope, scopes))
    {fillings : List (Nat × Nat)}
    (hf : (({ c₁ with scopes } : Context).settle c.scopes.nextId).1 = .ok fillings) :
    Draft c (({ c₁ with scopes } : Context).settle c.scopes.nextId).2
        (Code.loop scope.localSize (code.fillAll fillings) done labels.breakTo)
        (Code.loop scope.localSize raw done labels.breakTo) log [] ∧
      (c.scopes.nextId, scope.localSize) ∈ scopes.closed ∧
      ∀ size, Measures size scopes.closed →
        ∀ loop crossed, .continue_ loop crossed ∈ new → wordSum (crossed.map size) = 0 := by
  obtain ⟨hshells, hclosed⟩ := top_of_pop h.shells hp
  have hnew : ∀ e ∈ new, e.loop = c.scopes.nextId := by
    intro e he
    have := h.loops e he
    rw [show ({ c with scopes := (c.scopes.openScope kind (some labels)).2 } :
        Context).scopes.scopes = _ :: c.scopes.scopes from rfl, ScopeStack.toLoop?] at this
    simp [Scope.empty, hk] at this
    exact this.symm
  have hsettle : ({ c₁ with scopes } : Context).settle c.scopes.nextId =
      (Context.fillings scopes new, { c₁ with scopes, pending := c.pending }) := by
    simp only [Context.settle, h.pending, partition_pending ht.waiting hnew]
  rw [hsettle] at hf ⊢
  obtain ⟨hfst, hall⟩ := fillings_eq_ok hf
  refine ⟨?_, by rw [hclosed]; exact List.mem_cons_self, fun size hsize => (hall size hsize).2⟩
  have htidy := h.tidy.pop hp
  have hpending : ∀ e ∈ c.pending, e.loop < scopes.nextId := by
    intro e he
    refine htidy.waiting e ?_
    show e ∈ c₁.pending
    rw [h.pending]
    exact List.mem_append_left _ he
  exact
    { tidy := ⟨htidy.nodup, htidy.below, hpending, htidy.labelled⟩
      shells := hshells
      closed := by
        rw [hclosed]
        exact h.closed.trans (List.suffix_cons _ _)
      pending := (List.append_nil _).symm
      loops := fun e he => absurd he List.not_mem_nil
      logged := fun _ _ _ he => absurd he List.not_mem_nil
      count := h.count
      numbers := h.numbers
      markers := by rw [markers_loop, h.markers]
      unfilled := by
        rw [markers_loop, Code.markers_fillAll _ h.plain, h.unfilled, hfst]
        exact diff_self _
      plain := isPlain_loop (Code.isPlain_fillAll _ h.plain) hd hl.2
      plainRaw := isPlain_loop h.plainRaw hd hl.2
      resolves := by
        intro size σ hsize hdrops
        have hmeasures : Measures size c₁.scopes.closed := by
          refine hsize.of_suffix ?_
          rw [hclosed]
          exact List.suffix_cons _ _
        have hσ : ∀ f ∈ fillings, σ f.1 = f.2 := by
          intro f hmem
          obtain ⟨loop, crossed, hbreak, hsum⟩ := (hall size hsize).1 f hmem
          rw [hsum]
          exact hdrops _ (h.logged loop f.1 crossed hbreak)
        simp [Code.loop, Code.resolve_fillAll h.plain hσ, h.resolves size σ hmeasures hdrops] }

end Draft

end GLang
