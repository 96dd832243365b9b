import GLang.Proofs.Layout

/-!
# Live scopes

Scopes are opened, declared in and closed in any order while a function is compiled, and some of
these operations fail. `ScopeStack.Op` has them as data, and `ScopeStack.run` does them one after
another; one that fails leaves the stack as it was.

A block starts where the block around it stands, and as long as it is open the block around it does
not move. `Stacked` says what follows from this for the live scopes: going inwards, every symbol
lies below all those before it.

* `Stacked.openBlock`, `Stacked.declare`, `Stacked.pop`: what one operation preserves,
* `ScopeStack.Traces`: which symbols stay, also over many operations,
* `ScopeStack.symbols_apart`: the symbols of a stack that has been reached in this way do not
  overlap, are aligned, and stay where they are.
-/

namespace GLang

/-! ### Places -/

/-- The bytes of a symbol, by how far they lie below the frame base. -/
def Symbol.span (v : Symbol) : Set Int :=
  Set.Ioc (v.offset - v.type.alignedSize) v.offset

theorem Symbol.disjoint_span {v w : Symbol} (h : v.offset + w.type.alignedSize ≤ w.offset) :
    Disjoint v.span w.span := by
  rw [Set.disjoint_left]
  intro k hv hw
  have hle : k ≤ v.offset := hv.2
  have hlt : w.offset - w.type.alignedSize < k := hw.1
  omega

theorem dvd_alignUp {align : Int} (h : 0 < align) (value : Int) : align ∣ alignUp value align := by
  unfold alignUp
  split
  · obtain rfl : align = 1 := by omega
    exact one_dvd value
  · exact dvd_mul_left align _

theorem four_dvd_padToDword (size : Nat) : 4 ∣ padToDword size := by
  obtain ⟨k, hk⟩ := dvd_alignUp (show (0 : Int) < 4 by decide) ((size : Int).bmod 0x100000000)
  unfold padToDword
  rw [hk]
  omega

namespace Ty

theorem alignment_pos (t : Ty) : 0 < t.alignment := by
  unfold alignment
  split
  · rename_i hp
    rw [alignedSize_of_isPrimitive hp]
    exact t.width.bytes_pos
  · decide

theorem alignment_dvd_alignedSize (t : Ty) : t.alignment ∣ t.alignedSize := by
  cases t with
  | primitive | pointer => exact dvd_refl _
  | array element count => exact four_dvd_padToDword _
  | struct name size => exact four_dvd_padToDword _

/-- The integers of G have one, two or four bytes. -/
def HasWidth : Ty → Prop
  | primitive width _ => width = 1 ∨ width = 2 ∨ width = 4
  | pointer _ | array _ _ | struct _ _ => True

theorem alignment_primitive {width : Nat} {signed : Bool} (h : (primitive width signed).HasWidth) :
    (primitive width signed).alignment = width := by
  rcases h with rfl | rfl | rfl <;> rfl

end Ty

theorem Scope.alignment_dvd_offset {s s' : Scope} {x : String} {t : Ty} {symbol : Symbol}
    (hk : s.kind ≠ .parameter) (h : s.allocate x t = .ok (symbol, s')) :
    (t.alignment : Int) ∣ symbol.offset := by
  obtain ⟨-, hp, -, -⟩ := Scope.place?_of_allocate hk h
  have hpos : (0 : Int) < t.alignment := by exact_mod_cast t.alignment_pos
  have hsize : (t.alignment : Int) ∣ t.alignedSize := by
    exact_mod_cast t.alignment_dvd_alignedSize
  rw [(Scope.place?_eq_some.1 hp).1]
  exact dvd_add (dvd_alignUp hpos s.cursor) hsize

/-! ### Scopes inside each other -/

/-- How far the symbols of a list of scopes reach below the frame base. -/
def Scope.floor : List Scope → Int
  | [] => 0
  | scope :: _ => if scope.kind = .parameter then 0 else scope.cursor

/-- The symbols of a block lie one below the other, all of them below `floor`. -/
structure Scope.Packed (floor : Int) (s : Scope) : Prop where
  names : (s.symbols.map Symbol.name).Nodup
  ordered : s.symbols.Pairwise fun v w => v.offset + (w.type.alignedSize : Int) ≤ w.offset
  below : ∀ v ∈ s.symbols, floor + v.type.alignedSize ≤ v.offset
  reach : ∀ v ∈ s.symbols, v.offset ≤ s.cursor
  floor_le : floor ≤ s.cursor
  aligned : ∀ v ∈ s.symbols, (v.type.alignment : Int) ∣ v.offset

/-- The symbols of a scope of parameters lie in slots of four bytes, one above the other. -/
structure Scope.Slotted (s : Scope) : Prop where
  names : (s.symbols.map Symbol.name).Nodup
  offset : ∀ (i : Nat) (v : Symbol), s.symbols[i]? = some v → v.offset = -8 - 4 * i
  cursor : s.cursor = -8 - 4 * s.symbols.length

/-- Scopes, innermost first, each of which starts where the one around it stands. Only the outermost
one can be a scope of parameters. -/
inductive Stacked : List Scope → Prop where
  | empty : Stacked []
  | params {s} (hk : s.kind = .parameter) (h : s.Slotted) : Stacked [s]
  | block {s rest} (hk : s.kind ≠ .parameter) (h : s.Packed (Scope.floor rest))
      (hrest : Stacked rest) : Stacked (s :: rest)

/-- The symbols that are no parameters, those of inner scopes first. -/
def Scope.locals (scopes : List Scope) : List Symbol :=
  (scopes.filter (·.kind ≠ .parameter)).flatMap (·.symbols.reverse)

theorem Scope.locals_cons {s : Scope} (hk : s.kind ≠ .parameter) (rest : List Scope) :
    Scope.locals (s :: rest) = s.symbols.reverse ++ Scope.locals rest := by
  simp [Scope.locals, hk]

namespace Stacked

variable {s : Scope} {scopes rest : List Scope}

theorem floor_nonneg (h : Stacked scopes) : 0 ≤ Scope.floor scopes := by
  induction h with
  | empty => exact Int.le_refl _
  | params hk _ =>
    rw [Scope.floor, if_pos hk]
  | block hk h _ ih =>
    rw [Scope.floor, if_neg hk]
    exact Int.le_trans ih h.floor_le

theorem place (h : Stacked scopes) :
    ∀ v ∈ Scope.locals scopes,
      (v.type.alignedSize : Int) ≤ v.offset ∧ v.offset ≤ Scope.floor scopes := by
  induction h with
  | empty =>
    intro v hv
    cases hv
  | params hk _ =>
    intro v hv
    simp [Scope.locals, hk] at hv
  | @block s rest hk h hrest ih =>
    intro v hv
    rw [Scope.floor, if_neg hk]
    rw [Scope.locals_cons hk, List.mem_append, List.mem_reverse] at hv
    rcases hv with hv | hv
    · have hbelow := h.below v hv
      have hfloor := hrest.floor_nonneg
      exact ⟨by omega, h.reach v hv⟩
    · obtain ⟨hsize, hle⟩ := ih v hv
      exact ⟨hsize, Int.le_trans hle h.floor_le⟩

/-- **Live symbols do not overlap.** Inside a scope they are ordered, and all symbols of the scopes
around it lie above the floor that it starts from. -/
theorem disjoint (h : Stacked scopes) :
    (Scope.locals scopes).Pairwise fun v w => Disjoint v.span w.span := by
  induction h with
  | empty => exact .nil
  | params hk _ => simp [Scope.locals, hk]
  | @block s rest hk h hrest ih =>
    rw [Scope.locals_cons hk, List.pairwise_append]
    refine ⟨?_, ih, ?_⟩
    · rw [List.pairwise_reverse]
      exact h.ordered.imp fun hle => (Symbol.disjoint_span hle).symm
    · intro v hv w hw
      have hbelow := h.below v (List.mem_reverse.1 hv)
      have hle := (hrest.place w hw).2
      exact (Symbol.disjoint_span (by omega)).symm

theorem aligned (h : Stacked scopes) :
    ∀ v ∈ Scope.locals scopes, (v.type.alignment : Int) ∣ v.offset := by
  induction h with
  | empty =>
    intro v hv
    cases hv
  | params hk _ =>
    intro v hv
    simp [Scope.locals, hk] at hv
  | block hk h _ ih =>
    intro v hv
    rw [Scope.locals_cons hk, List.mem_append, List.mem_reverse] at hv
    exact hv.elim (h.aligned v) (ih v)

theorem names (h : Stacked scopes) : ∀ s ∈ scopes, (s.symbols.map Symbol.name).Nodup := by
  induction h with
  | empty =>
    intro s hs
    cases hs
  | params _ h => exact List.forall_mem_singleton.2 h.names
  | block _ h _ ih => exact List.forall_mem_cons.2 ⟨h.names, ih⟩

theorem slotted (h : Stacked scopes) : ∀ s ∈ scopes, s.kind = .parameter → s.Slotted := by
  induction h with
  | empty =>
    intro s hs
    cases hs
  | params _ h => exact List.forall_mem_singleton.2 fun _ => h
  | block hk _ _ ih => exact List.forall_mem_cons.2 ⟨fun hp => absurd hp hk, ih⟩

/-! ### One operation -/

theorem openBlock (h : Stacked scopes) (hk : s.kind ≠ .parameter) (hs : s.symbols = [])
    (hc : s.cursor = Scope.floor scopes) : Stacked (s :: scopes) := by
  refine .block hk ⟨?_, ?_, ?_, ?_, Int.le_of_eq hc.symm, ?_⟩ h
  all_goals simp [hs]

theorem declare (h : Stacked (s :: rest)) {s' : Scope} {x : String} {t : Ty} {symbol : Symbol}
    (ha : s.allocate x t = .ok (symbol, s')) : Stacked (s' :: rest) := by
  cases h with
  | params hk h =>
    obtain ⟨hx, rfl, rfl⟩ := Scope.allocate_parameter hk ha
    refine .params hk ⟨?_, ?_, ?_⟩
    · simpa [Scope.add, List.nodup_append', h.names] using hx
    · intro i v hv
      rcases Nat.lt_trichotomy i s.symbols.length with hi | rfl | hi
      · refine h.offset i v ?_
        rw [Scope.add, List.getElem?_append_left hi] at hv
        exact hv
      · obtain rfl : _ = v := by simpa [Scope.add] using hv
        exact h.cursor
      · rw [List.getElem?_eq_none (by simp [Scope.add]; omega)] at hv
        cases hv
    · simp only [Scope.add, List.length_append, List.length_singleton, h.cursor, parameterSlot]
      omega
  | block hk h hrest =>
    obtain ⟨hx, rfl, rfl, hoffset, rfl⟩ := Scope.allocate_local hk ha
    have hfloor := h.floor_le
    refine .block hk ⟨?_, ?_, ?_, ?_, ?_, ?_⟩ hrest
    · simpa [Scope.add, List.nodup_append', h.names] using hx
    · refine List.pairwise_append.2 ⟨h.ordered, List.pairwise_singleton _ _, ?_⟩
      intro v hv w hw
      rw [List.mem_singleton.1 hw]
      have hreach := h.reach v hv
      omega
    · refine List.forall_mem_append.2 ⟨h.below, List.forall_mem_singleton.2 ?_⟩
      omega
    · refine List.forall_mem_append.2 ⟨fun v hv => ?_, List.forall_mem_singleton.2 (Int.le_refl _)⟩
      have hreach := h.reach v hv
      show v.offset ≤ symbol.offset
      omega
    · show Scope.floor rest ≤ symbol.offset
      omega
    · exact List.forall_mem_append.2
        ⟨h.aligned, List.forall_mem_singleton.2 (Scope.alignment_dvd_offset hk ha)⟩

theorem pop (h : Stacked (s :: rest)) : Stacked rest := by
  cases h with
  | params => exact .empty
  | block _ _ hrest => exact hrest

end Stacked

namespace ScopeStack

/-! ### Many operations -/

/-- An operation on the live scopes. -/
inductive Op where
  | push (kind : ScopeKind)
  | pushLoop (kind : ScopeKind) (labels : LoopLabels)
  | declare (name : String) (t : Ty)
  | pop (kind : ScopeKind)
  deriving DecidableEq

/-- The stack after an operation. One that fails changes nothing. -/
def apply (s : ScopeStack) : Op → ScopeStack
  | .push kind => (s.push kind).2
  | .pushLoop kind labels => (s.pushLoop kind labels).2
  | .declare x t =>
    match s.declare x t with
    | .ok (_, s') => s'
    | .error _ => s
  | .pop kind =>
    match s.pop kind with
    | .ok (_, s') => s'
    | .error _ => s

/-- The stack after operations, one after another. -/
def run (s : ScopeStack) (ops : List Op) : ScopeStack :=
  ops.foldl apply s

theorem run_append (s : ScopeStack) (ops more : List Op) :
    s.run (ops ++ more) = (s.run ops).run more :=
  List.foldl_append

/-- What a function does before its body: it opens the scope of its parameters, declares them and
opens its own scope. -/
def prologue (params : List (String × Ty)) : List Op :=
  .push .parameter :: params.map (fun (x, t) => .declare x t) ++ [.push .function]

/-- What the body of a function does: it opens blocks of statements, declares variables, and closes
scopes. -/
def Op.InBody : Op → Prop
  | .push kind | .pushLoop kind _ => kind = .branch ∨ kind = .forLoop ∨ kind = .whileLoop
  | .declare _ t => t.HasWidth
  | .pop _ => True

variable {s : ScopeStack}

/-- **What an operation can do.** It opens a scope, adds a symbol to the innermost scope, closes
that scope, or changes nothing. -/
theorem apply_cases (s : ScopeStack) (op : Op) :
    (∃ kind labels, (op = .push kind ∨ ∃ l, op = .pushLoop kind l) ∧
      s.apply op = (s.openScope kind labels).2) ∨
    (∃ x t symbol top top' rest, op = .declare x t ∧ s.scopes = top :: rest ∧
      top.allocate x t = .ok (symbol, top') ∧ s.apply op = { s with scopes := top' :: rest }) ∨
    (∃ kind top rest closed, op = .pop kind ∧ s.scopes = top :: rest ∧
      s.apply op = { s with scopes := rest, closed }) ∨
    s.apply op = s := by
  cases op with
  | push kind => exact .inl ⟨kind, none, .inl rfl, rfl⟩
  | pushLoop kind l => exact .inl ⟨kind, some l, .inr ⟨l, rfl⟩, rfl⟩
  | declare x t =>
    cases hd : s.declare x t with
    | error e => exact .inr (.inr (.inr (by simp only [apply, hd])))
    | ok r =>
      obtain ⟨symbol, s'⟩ := r
      obtain ⟨top, top', rest, hs, ha, rfl⟩ := declare_eq_ok.1 hd
      exact .inr (.inl ⟨x, t, symbol, top, top', rest, rfl, hs, ha, by simp only [apply, hd]⟩)
  | pop kind =>
    cases hp : s.pop kind with
    | error e => exact .inr (.inr (.inr (by simp only [apply, hp])))
    | ok r =>
      obtain ⟨scope, s'⟩ := r
      obtain ⟨top, rest, hs, -, rfl, rfl⟩ := pop_eq_ok.1 hp
      exact .inr (.inr (.inl ⟨kind, top, rest,
        (top.complete.id, top.complete.localSize) :: s.closed,
        rfl, hs, by simp only [apply, hp]⟩))

theorem startOf_eq_floor (s : ScopeStack) {kind : ScopeKind}
    (h : kind = .branch ∨ kind = .forLoop ∨ kind = .whileLoop) :
    s.startOf kind = Scope.floor s.scopes := by
  rcases h with rfl | rfl | rfl <;> cases hs : s.scopes <;> simp [startOf, Scope.floor, hs]

/-- The live scopes are stacked, and the types of their symbols have widths that G knows. -/
structure Sound (s : ScopeStack) : Prop where
  stacked : Stacked s.scopes
  widths : ∀ v ∈ Scope.locals s.scopes, v.type.HasWidth

theorem Sound.apply (h : s.Sound) {op : Op} (hop : op.InBody) : (s.apply op).Sound := by
  obtain ⟨kind, labels, hkind, hs⟩ | ⟨x, t, symbol, top, top', rest, rfl, hs, ha, hs'⟩ |
    ⟨kind, top, rest, closed, -, hs, hs'⟩ | hs := apply_cases s op
  · have hkind : kind = .branch ∨ kind = .forLoop ∨ kind = .whileLoop := by
      rcases hkind with rfl | ⟨l, rfl⟩ <;> exact hop
    have hblock : kind ≠ .parameter := by rcases hkind with rfl | rfl | rfl <;> decide
    rw [hs]
    refine ⟨h.stacked.openBlock hblock rfl (s.startOf_eq_floor hkind), ?_⟩
    rw [openScope, Scope.locals_cons hblock]
    exact h.widths
  · have hstacked := h.stacked
    have hwidths := h.widths
    rw [hs] at hstacked hwidths
    rw [hs']
    refine ⟨hstacked.declare ha, ?_⟩
    by_cases hk : top.kind = .parameter
    · obtain ⟨-, -, rfl⟩ := Scope.allocate_parameter hk ha
      simpa [Scope.locals, Scope.add, hk] using hwidths
    · obtain ⟨-, -, rfl, -, rfl⟩ := Scope.allocate_local hk ha
      rw [Scope.locals_cons hk] at hwidths
      rw [Scope.locals_cons (s := top.add symbol symbol.offset) hk]
      simpa [Scope.add, or_imp, forall_and, show symbol.type.HasWidth from hop] using hwidths
  · have hstacked := h.stacked
    have hwidths := h.widths
    rw [hs] at hstacked hwidths
    rw [hs']
    refine ⟨hstacked.pop, fun v hv => hwidths v ?_⟩
    obtain ⟨scope, hscope, hmem⟩ := List.mem_flatMap.1 hv
    refine List.mem_flatMap.2 ⟨scope, ?_, hmem⟩
    exact (List.sublist_cons_self top rest).filter _ |>.subset hscope
  · rw [hs]
    exact h

theorem Sound.run (h : s.Sound) {ops : List Op} (hops : ∀ op ∈ ops, op.InBody) :
    (s.run ops).Sound := by
  induction ops generalizing s with
  | nil => exact h
  | cons op ops ih =>
    obtain ⟨hop, hops⟩ := List.forall_mem_cons.1 hops
    exact ih (h.apply hop) hops

theorem stacked_declares {top : Scope} (hk : top.kind = .parameter) (h : top.Slotted)
    (params : List (String × Ty)) :
    ∀ s : ScopeStack, s.scopes = [top] → ∃ top' : Scope, top'.kind = .parameter ∧ top'.Slotted ∧
      (s.run (params.map fun (x, t) => .declare x t)).scopes = [top'] := by
  induction params generalizing top with
  | nil => exact fun s hs => ⟨top, hk, h, hs⟩
  | cons param params ih =>
    intro s hs
    obtain ⟨x, t⟩ := param
    rw [List.map_cons, run, List.foldl_cons]
    obtain ⟨kind, labels, hkind, -⟩ | ⟨x, t, symbol, top, top', rest, heq, hs', ha, happly⟩ |
      ⟨kind, top, rest, closed, heq, -, -⟩ | happly := apply_cases s (.declare x t)
    · rcases hkind with hkind | ⟨l, hkind⟩ <;> cases hkind
    · cases heq
      cases hs.symm.trans hs'
      have hstacked := (Stacked.params hk h).declare ha
      have hk' : top'.kind = .parameter := by
        obtain ⟨-, -, rfl⟩ := Scope.allocate_parameter hk ha
        exact hk
      rw [happly]
      exact ih hk' (hstacked.slotted top' (List.mem_singleton.2 rfl) hk') _ rfl
    · cases heq
    · rw [happly]
      exact ih hk h s hs

theorem sound_prologue (params : List (String × Ty)) :
    (run {} (prologue params)).Sound := by
  have hempty : (Scope.empty 0 .parameter parameterStart).Slotted :=
    ⟨List.nodup_nil, by simp [Scope.empty], rfl⟩
  obtain ⟨top, hk, hslotted, hs⟩ :=
    stacked_declares rfl hempty params (apply {} (.push .parameter)) rfl
  have hrun : (run {} (prologue params)).scopes =
      .empty (run (apply {} (.push .parameter)) (params.map fun (x, t) => .declare x t)).nextId
        .function 0 :: [top] := by
    rw [prologue, List.cons_append, run, List.foldl_cons, ← run, run_append]
    show _ :: (run _ _).scopes = _
    rw [hs]
    rfl
  constructor
  · rw [hrun]
    refine (Stacked.params hk hslotted).openBlock (by simp [Scope.empty]) rfl ?_
    simp [Scope.empty, Scope.floor, hk]
  · rw [hrun]
    simp [Scope.locals, Scope.empty, hk]

/-! ### Symbols that stay -/

/-- `s'` comes from `s`: a scope of `s'` whose number is not new has been there before, and has kept
its symbols. -/
structure Traces (s s' : ScopeStack) : Prop where
  nextId : s.nextId ≤ s'.nextId
  kept : ∀ scope' ∈ s'.scopes, scope'.id < s.nextId →
    ∃ scope ∈ s.scopes, scope.id = scope'.id ∧ scope.symbols <+: scope'.symbols

theorem Traces.refl (s : ScopeStack) : Traces s s :=
  ⟨Nat.le_refl _, fun scope hscope _ => ⟨scope, hscope, rfl, List.prefix_refl _⟩⟩

theorem Traces.trans {s₁ s₂ s₃ : ScopeStack} (h : Traces s₁ s₂) (h' : Traces s₂ s₃) :
    Traces s₁ s₃ := by
  refine ⟨Nat.le_trans h.nextId h'.nextId, fun scope₃ hscope₃ hid => ?_⟩
  obtain ⟨scope₂, hscope₂, hid₂, hprefix₂⟩ :=
    h'.kept scope₃ hscope₃ (Nat.lt_of_lt_of_le hid h.nextId)
  obtain ⟨scope₁, hscope₁, hid₁, hprefix₁⟩ := h.kept scope₂ hscope₂ (hid₂ ▸ hid)
  exact ⟨scope₁, hscope₁, hid₁.trans hid₂, hprefix₁.trans hprefix₂⟩

theorem traces_apply (s : ScopeStack) (op : Op) : Traces s (s.apply op) := by
  obtain ⟨kind, labels, -, hs⟩ | ⟨x, t, symbol, top, top', rest, -, hs, ha, hs'⟩ |
    ⟨kind, top, rest, closed, -, hs, hs'⟩ | hs := apply_cases s op
  · rw [hs]
    refine ⟨Nat.le_succ _, List.forall_mem_cons.2 ⟨fun hid => absurd hid (Nat.lt_irrefl _), ?_⟩⟩
    exact fun scope hscope _ => ⟨scope, hscope, rfl, List.prefix_refl _⟩
  · rw [hs']
    obtain ⟨cursor, -, -, -, rfl⟩ := Scope.allocate_eq_add ha
    refine ⟨Nat.le_refl _, List.forall_mem_cons.2 ⟨fun _ => ?_, fun scope hscope _ => ?_⟩⟩
    · exact ⟨top, by simp [hs], rfl, List.prefix_append _ _⟩
    · exact ⟨scope, by simp [hs, hscope], rfl, List.prefix_refl _⟩
  · rw [hs']
    refine ⟨Nat.le_refl _, fun scope hscope _ => ⟨scope, ?_, rfl, List.prefix_refl _⟩⟩
    rw [hs]
    exact List.mem_cons_of_mem top hscope
  · rw [hs]
    exact .refl s

theorem traces_run (ops : List Op) : ∀ s : ScopeStack, Traces s (s.run ops) := by
  induction ops with
  | nil => exact .refl
  | cons op ops ih => exact fun s => (traces_apply s op).trans (ih _)

/-- Scopes have numbers of their own. -/
structure Numbered (s : ScopeStack) : Prop where
  nodup : (s.scopes.map Scope.id).Nodup
  below : ∀ scope ∈ s.scopes, scope.id < s.nextId

theorem Numbered.apply (h : s.Numbered) (op : Op) : (s.apply op).Numbered := by
  have hnodup := h.nodup
  have hbelow := h.below
  obtain ⟨kind, labels, -, hs⟩ | ⟨x, t, symbol, top, top', rest, -, hs, ha, hs'⟩ |
    ⟨kind, top, rest, closed, -, hs, hs'⟩ | hs := apply_cases s op
  · rw [hs]
    refine ⟨List.nodup_cons.2 ⟨fun hmem => ?_, hnodup⟩, List.forall_mem_cons.2 ⟨?_, ?_⟩⟩
    · obtain ⟨scope, hscope, hid⟩ := List.mem_map.1 hmem
      have hlt := hbelow scope hscope
      rw [show scope.id = s.nextId from hid] at hlt
      exact Nat.lt_irrefl _ hlt
    · exact Nat.lt_succ_self _
    · exact fun scope hscope => Nat.lt_succ_of_lt (hbelow scope hscope)
  · rw [hs']
    obtain ⟨cursor, -, -, -, rfl⟩ := Scope.allocate_eq_add ha
    rw [hs] at hnodup hbelow
    exact ⟨hnodup, List.forall_mem_cons.2 (List.forall_mem_cons.1 hbelow)⟩
  · rw [hs']
    rw [hs] at hnodup hbelow
    exact ⟨(List.nodup_cons.1 hnodup).2, (List.forall_mem_cons.1 hbelow).2⟩
  · rw [hs]
    exact h

theorem numbered_run (ops : List Op) : ∀ {s : ScopeStack}, s.Numbered → (s.run ops).Numbered := by
  induction ops with
  | nil => exact id
  | cons op ops ih => exact fun h => ih (h.apply op)

/-- The stacks that are reached while a function is compiled: after its parameters and its own scope
come any operations of its body. -/
def Reached (s : ScopeStack) : Prop :=
  ∃ params ops, (∀ op ∈ ops, op.InBody) ∧ s = run {} (prologue params ++ ops)

theorem Reached.sound (h : s.Reached) : s.Sound := by
  obtain ⟨params, ops, hops, rfl⟩ := h
  rw [run_append]
  exact (sound_prologue params).run hops

theorem Reached.numbered (h : s.Reached) : s.Numbered := by
  obtain ⟨params, ops, -, rfl⟩ := h
  exact numbered_run _ ⟨List.nodup_nil, fun scope hscope => absurd hscope List.not_mem_nil⟩

/-- **No two live variables overlap.** In a stack reached by any operations, failing ones included,
the symbols that are no parameters have bytes of their own and are aligned; names are unique in a
scope, parameters lie in slots, and no further operation moves a symbol. -/
theorem symbols_apart (h : s.Reached) :
    (Scope.locals s.scopes).Pairwise (fun v w => Disjoint v.span w.span) ∧
      (∀ v ∈ Scope.locals s.scopes,
        (∀ width signed, v.type = .primitive width signed → (width : Int) ∣ v.offset) ∧
        ((∀ width signed, v.type ≠ .primitive width signed) → 4 ∣ v.offset)) ∧
      (∀ scope ∈ s.scopes, (scope.symbols.map Symbol.name).Nodup) ∧
      (∀ scope ∈ s.scopes, scope.kind = .parameter →
        ∀ (i : Nat) (v : Symbol), scope.symbols[i]? = some v → v.offset = -8 - 4 * i) ∧
      ∀ more : List Op, ∀ scope ∈ s.scopes, ∀ scope' ∈ (s.run more).scopes,
        scope'.id = scope.id → scope.symbols <+: scope'.symbols := by
  have hsound := h.sound
  have hnumbered := h.numbered
  refine ⟨hsound.stacked.disjoint, fun v hv => ⟨?_, ?_⟩, hsound.stacked.names,
    fun scope hscope hk => (hsound.stacked.slotted scope hscope hk).offset, ?_⟩
  · intro width signed ht
    have hwidth := hsound.widths v hv
    have haligned := hsound.stacked.aligned v hv
    rw [ht] at hwidth haligned
    rwa [Ty.alignment_primitive hwidth] at haligned
  · intro ht
    have haligned := hsound.stacked.aligned v hv
    cases htype : v.type with
    | primitive width signed => exact absurd htype (ht width signed)
    | pointer | array | struct =>
      rw [htype] at haligned
      exact haligned
  · intro more scope hscope scope' hscope' hid
    obtain ⟨scope₁, hscope₁, hid₁, hprefix⟩ := (traces_run more s).kept scope' hscope'
      (hid ▸ hnumbered.below scope hscope)
    obtain rfl : scope₁ = scope :=
      List.inj_on_of_nodup_map hnumbered.nodup hscope₁ hscope (hid₁.trans hid)
    exact hprefix

/-- A block that starts at an odd offset, a name declared twice, a scope of another kind that is to
be closed, and two blocks of which the second takes the place of the first. -/
theorem symbols_apart_of_siblings : ∃ s : ScopeStack, s.Reached ∧
    Scope.locals s.scopes =
      [⟨"d", .int32, 8⟩, ⟨"b", .primitive 2 true, 4⟩, ⟨"a", .byte, 1⟩] ∧
    (Scope.locals s.scopes).Pairwise fun v w => Disjoint v.span w.span := by
  have hreached : Reached (run {} (prologue [("n", .int32), ("n", .byte), ("q", .pointer .byte)] ++
      [.declare "a" .byte, .pushLoop .whileLoop ⟨.whileHead 0, .whileEnd 0⟩,
        .declare "b" (.primitive 2 true), .declare "b" .int32, .pop .branch, .push .branch,
        .declare "buf" (.array .byte 5), .declare "c" .byte, .pop .branch, .push .branch,
        .declare "d" .int32])) := by
    refine ⟨_, _, ?_, rfl⟩
    simp [Op.InBody, Ty.HasWidth, Ty.byte, Ty.int32]
  exact ⟨_, hreached, by decide +kernel, (symbols_apart hreached).1⟩

end ScopeStack

end GLang
