import GLang.Proofs.LiteralData

/-!
# Which types are resolved

Types are written as descriptors, and a descriptor is resolved where its type is needed. That of a
declaration always is: to lay out a struct, to read a signature, to place a local. The target of a
cast is needed only if it decides the type of an operand of `*`. Any other cast is compiled as its
operand, and its target may be anything.

* `Expr.lookedUp`: the targets that are needed in an expression. `Expr.known_lower`: in one that
  compiles they name types.
* `Stmt.compositional_known`, `Stmt.known_lowerAll`: the same for the descriptors and the
  expressions of statements.
* `StructTable.Extends`, `Ty.Known.mono`: what names a type goes on naming it when structs are
  added.
* `Generator.allKnown_parts`: so in a program that compiles all that is needed is known.
-/

namespace GLang

open Asm Gen

/-! ### Expressions -/

/-- The descriptor names a type. -/
def Ty.Known (structs : StructTable) (descriptor : String) : Prop :=
  ∃ t, Ty.ofDescriptor structs descriptor = .ok t

namespace Expr

/-- The cast that decides the type of an expression, if one does. -/
def decidingCast? : Expr → Option String
  | .deref e => e.decidingCast?
  | e => firstCast? e.nodes

mutual

/-- The targets of all casts. -/
def targets : Expr → List String
  | .cast e target => target :: e.targets
  | .deref e | .negate e | .step _ _ e => e.targets
  | .binary _ l r => l.targets ++ r.targets
  | .call _ args => argsTargets args
  | .int _ | .str _ | .var _ | .addressOf _ => []

def argsTargets : List Expr → List String
  | [] => []
  | e :: rest => e.targets ++ argsTargets rest

end

mutual

/-- The targets of casts that decide the type of an operand of `*`. -/
def lookedUp : Expr → List String
  | .deref e => e.decidingCast?.toList ++ e.lookedUp
  | .cast e _ | .negate e | .step _ _ e => e.lookedUp
  | .binary _ l r => l.lookedUp ++ r.lookedUp
  | .call _ args => argsLookedUp args
  | .int _ | .str _ | .var _ | .addressOf _ => []

def argsLookedUp : List Expr → List String
  | [] => []
  | e :: rest => e.lookedUp ++ argsLookedUp rest

end

theorem mem_targets_of_nodes {target : String} {operand : Expr} :
    ∀ {e : Expr}, .cast operand target ∈ e.nodes → target ∈ e.targets
  | .cast e target', h => by
    rcases List.mem_cons.1 h with heq | h
    · cases heq
      exact List.mem_cons_self
    · exact List.mem_cons_of_mem _ (mem_targets_of_nodes h)
  | .deref e, h | .negate e, h | .step _ _ e, h => by
    rcases List.mem_cons.1 h with heq | h
    · cases heq
    · exact mem_targets_of_nodes (e := e) h
  | .binary _ l r, h => by
    have hsplit : .cast operand target ∈ l.nodes ∨ .cast operand target ∈ r.nodes := by
      simpa [nodes, descendants, or_assoc, or_left_comm] using h
    exact List.mem_append.2 (hsplit.imp mem_targets_of_nodes mem_targets_of_nodes)
  | .int _, h | .str _, h | .var _, h | .addressOf _, h | .call _ _, h => by
    simp [nodes, descendants] at h

theorem mem_targets_of_firstCast? {e : Expr} {target : String}
    (h : firstCast? e.nodes = some target) : target ∈ e.targets := by
  obtain ⟨node, hnode, htarget⟩ := List.exists_of_findSome?_eq_some h
  cases node with
  | cast operand target' =>
    cases htarget
    exact mem_targets_of_nodes hnode
  | _ => cases htarget

theorem decidingCast?_subset : ∀ e : Expr, e.decidingCast?.toList ⊆ e.targets
  | .deref e => decidingCast?_subset e
  | .int _ | .str _ | .var _ | .addressOf _ | .cast _ _ | .binary _ _ _ | .negate _ | .step _ _ _
  | .call _ _ => by
    intro target h
    exact mem_targets_of_firstCast? (Option.mem_toList.1 h)

mutual

/-- What is looked up is written in the expression. -/
theorem lookedUp_subset : ∀ e : Expr, e.lookedUp ⊆ e.targets
  | .deref e => List.append_subset.2 ⟨decidingCast?_subset e, lookedUp_subset e⟩
  | .cast e _ => List.subset_cons_of_subset _ (lookedUp_subset e)
  | .negate e | .step _ _ e => lookedUp_subset e
  | .binary _ l r => List.append_subset.2
      ⟨List.subset_append_of_subset_left _ (lookedUp_subset l),
        List.subset_append_of_subset_right _ (lookedUp_subset r)⟩
  | .call _ args => argsLookedUp_subset args
  | .int _ | .str _ | .var _ | .addressOf _ => List.nil_subset _

theorem argsLookedUp_subset : ∀ args : List Expr, argsLookedUp args ⊆ argsTargets args
  | [] => List.nil_subset _
  | e :: rest => List.append_subset.2
      ⟨List.subset_append_of_subset_left _ (lookedUp_subset e),
        List.subset_append_of_subset_right _ (argsLookedUp_subset rest)⟩

end

variable {ctx : Context}

theorem known_inferWith {e : Expr} {read : Option (Except LoweringError Ty)} {t : Ty}
    (h : inferWith ctx e read = .ok t) :
    ∀ target ∈ firstCast? e.nodes, Ty.Known ctx.structs target := by
  intro target htarget
  unfold inferWith at h
  rw [Option.mem_def.1 htarget] at h
  exact ⟨t, h⟩

/-- The cast that decides the type of an expression is to a type. -/
theorem known_infer : ∀ {e : Expr} {t : Ty}, e.infer ctx = .ok t →
    ∀ target ∈ e.decidingCast?.toList, Ty.Known ctx.structs target
  | .deref e, t, h => by
    obtain ⟨t', he, -⟩ := except_bind_eq_ok.1 h
    exact known_infer (e := e) he
  | .int _, t, h | .str _, t, h | .var _, t, h | .addressOf _, t, h | .cast _ _, t, h
  | .binary _ _ _, t, h | .negate _, t, h | .step _ _ _, t, h | .call _ _, t, h => by
    rw [infer] at h
    intro target htarget
    exact known_inferWith h target (Option.mem_toList.1 htarget)

theorem known_readType {e : Expr} {t : Ty} (h : e.readType ctx = .ok t) :
    ∀ target ∈ e.decidingCast?.toList, Ty.Known ctx.structs target := by
  obtain ⟨t', he, -⟩ := except_bind_eq_ok.1 h
  exact known_infer he

theorem lookedUp_of_arraySymbol? {e : Expr} {symbol : Symbol}
    (h : e.arraySymbol? ctx = some symbol) : e.lookedUp = [] := by
  cases e with
  | var => rfl
  | _ => cases h

mutual

/-- **What is looked up in an expression that compiles is known.** -/
theorem known_lower : ∀ {e : Expr} {code : List Instr}, e.lower ctx = .ok code →
    ∀ target ∈ e.lookedUp, Ty.Known ctx.structs target
  | .deref e, code, h => by
    obtain ⟨t, ht, hcode⟩ := lower_deref.1 h
    refine List.forall_mem_append.2 ⟨known_readType ht, ?_⟩
    rcases hcode with ⟨symbol, hsymbol, -⟩ | ⟨-, address, haddress, -⟩
    · rw [lookedUp_of_arraySymbol? hsymbol]
      simp
    · exact known_lower haddress
  | .cast e target, code, h => known_lower (e := e) (lower_cast.1 h)
  | .binary op l r, code, h => by
    obtain ⟨left, right, hl, hr, -⟩ := lower_binary.1 h
    exact List.forall_mem_append.2 ⟨known_lower hl, known_lower hr⟩
  | .negate e, code, h => absurd h lower_negate
  | .step op .before e, code, h => by
    obtain ⟨step, value, -, hvalue, -⟩ := lower_stepBefore.1 h
    exact known_lower (e := e) hvalue
  | .step op .after e, code, h => by
    obtain ⟨value, step, hvalue, -, -⟩ := lower_stepAfter.1 h
    exact known_lower (e := e) hvalue
  | .call f args, code, h => by
    obtain ⟨signature, pushes, pushed, -, -, hargs, -⟩ := lowerCall_eq_ok.1 (lower_call.1 h)
    have hknown : ∀ target ∈ argsLookedUp args, Ty.Known ctx.structs target := known_lowerArgs hargs
    exact hknown
  | .int _, code, h | .str _, code, h | .var _, code, h | .addressOf _, code, h => by
    intro target htarget
    cases htarget

theorem known_lowerArgs : ∀ {args : List Expr} {code : List Instr} {pushed : Nat},
    lowerArgs ctx args = .ok (code, pushed) →
    ∀ target ∈ argsLookedUp args, Ty.Known ctx.structs target
  | [], code, pushed, h => by
    intro target htarget
    cases htarget
  | e :: rest, code, pushed, h => by
    obtain ⟨more, n, value, size, hmore, hvalue, -⟩ := lowerArgs_cons.1 h
    exact List.forall_mem_append.2 ⟨known_lower hvalue, known_lowerArgs hmore⟩

end

theorem known_lowerCall {f : String} {args : List Expr} {keep : Bool} {code : List Instr}
    (h : lowerCall ctx f args keep = .ok code) :
    ∀ target ∈ (Expr.call f args).lookedUp, Ty.Known ctx.structs target := by
  obtain ⟨signature, pushes, pushed, -, -, hargs, -⟩ := lowerCall_eq_ok.1 h
  exact known_lowerArgs hargs

end Expr

/-! ### Statements -/

namespace Stmt

/-- What is looked up for a descriptor or an expression. -/
def lookedUp : String ⊕ Expr → List String :=
  Sum.elim (fun descriptor => [descriptor]) Expr.lookedUp

/-- All that is looked up for `parts` is known. -/
def AllKnown (structs : StructTable) (parts : List (String ⊕ Expr)) : Prop :=
  ∀ part ∈ parts, ∀ descriptor ∈ lookedUp part, Ty.Known structs descriptor

variable {structs : StructTable} {parts parts' : List (String ⊕ Expr)}

theorem allKnown_nil : AllKnown structs [] :=
  fun _ hpart => absurd hpart List.not_mem_nil

theorem AllKnown.append (h : AllKnown structs parts) (h' : AllKnown structs parts') :
    AllKnown structs (parts ++ parts') :=
  List.forall_mem_append.2 ⟨h, h'⟩

theorem allKnown_type {descriptor : String} (h : Ty.Known structs descriptor) :
    AllKnown structs [.inl descriptor] :=
  List.forall_mem_singleton.2 (List.forall_mem_singleton.2 h)

theorem allKnown_expr {e : Expr} :
    AllKnown structs [.inr e] ↔ ∀ target ∈ e.lookedUp, Ty.Known structs target :=
  List.forall_mem_singleton

/-- What is looked up for parts that compile is known. -/
theorem compositional_known (d : Declarations) :
    Compositional d fun parts _ => AllKnown d.structs parts where
  own _ := allKnown_nil
  exit _ _ := allKnown_nil
  jump _ := allKnown_nil
  append h h' := h.append h'
  fill _ h := h
  value hd he := by
    rw [← hd]
    exact allKnown_expr.2 (Expr.known_lower he)
  call hd hcall := by
    rw [← hd]
    exact allKnown_expr.2 (Expr.known_lowerCall hcall)
  type hd ht := by
    rw [← hd]
    exact allKnown_type ⟨_, ht⟩
  address hd ht he := by
    rw [← hd]
    exact allKnown_expr.2 (List.forall_mem_append.2 ⟨Expr.known_readType ht, Expr.known_lower he⟩)
  lookup _ := allKnown_expr.2 fun _ htarget => absurd htarget List.not_mem_nil

/-- **What is looked up in statements that compile is known.** -/
theorem known_lowerAll {d : Declarations} (body : List Stmt) :
    Yields d (lowerAll body) fun _ => AllKnown d.structs (blockParts body) :=
  (composed_lowerAll (δ := {}) (f := id) body).yields (compositional_known d)

end Stmt

/-! ### Tables of structs -/

/-- What one table has, the other has as well. -/
def StructTable.Extends (structs structs' : StructTable) : Prop :=
  ∀ name s, structs.get? name = some s → structs'.get? name = some s

namespace StructTable

variable {structs structs' structs₁ structs₂ : StructTable}

theorem Extends.refl (structs : StructTable) : structs.Extends structs :=
  fun _ _ h => h

theorem Extends.trans (h : structs.Extends structs₁) (h' : structs₁.Extends structs₂) :
    structs.Extends structs₂ :=
  fun name s hs => h' name s (h name s hs)

theorem extends_insert (structs : StructTable) (s : StructSignature) :
    structs.Extends (structs.insert s) := by
  intro name s' hs'
  unfold insert
  split
  · exact hs'
  · unfold get? at hs' ⊢
    rw [List.find?_append, hs', Option.some_or]

theorem contains_insert {structs : StructTable} {s : StructSignature} {name : String}
    (h : structs.contains name = false) (hne : s.name ≠ name) :
    (structs.insert s).contains name = false := by
  unfold insert
  split
  · exact h
  · unfold contains get? at h ⊢
    rw [List.find?_append, Option.isSome_or, h]
    simp [hne]

end StructTable

namespace Ty

variable {structs structs' : StructTable}

theorem ofChars_mono (h : structs.Extends structs') : ∀ (bound : Nat) {cs : List Char} {t : Ty},
    ofChars structs bound cs = .ok t → ofChars structs' bound cs = .ok t := by
  intro bound
  induction bound with
  | zero =>
    intro cs t ht
    cases ht
  | succ bound ih =>
    intro cs t ht
    simp only [ofChars] at ht ⊢
    split at ht
    · cases ht
    · obtain ⟨pointee, hpointee, ht⟩ := except_bind_eq_ok.1 ht
      exact except_bind_eq_ok.2 ⟨pointee, ih hpointee, ht⟩
    · split at ht
      · cases ht
      · split at ht
        · cases ht
        · obtain ⟨element, helement, ht⟩ := except_bind_eq_ok.1 ht
          exact except_bind_eq_ok.2 ⟨element, ih helement, ht⟩
    · split at ht
      · exact ht
      · split at ht
        · rename_i s hget
          rw [h _ s hget]
          exact ht
        · cases ht

/-- **A type goes on being known when structs are added.** -/
theorem Known.mono (h : structs.Extends structs') {descriptor : String}
    (hd : Known structs descriptor) : Known structs' descriptor := by
  obtain ⟨t, ht⟩ := hd
  exact ⟨t, ofChars_mono h _ ht⟩

end Ty

/-! ### Declarations -/

/-- The struct that an item declares. -/
def Item.struct? : Item → Option StructDecl
  | struct decl => some decl
  | function _ | external _ => none

namespace StructDecl

variable {structs : StructTable}

theorem known_of_placeFields {bindings : List Binding} : ∀ {s s' : Scope} {fields : List Field},
    placeFields structs s bindings = .ok (fields, s') →
    ∀ binding ∈ bindings, Ty.Known structs binding.type := by
  induction bindings with
  | nil => exact fun _ _ hbinding => absurd hbinding List.not_mem_nil
  | cons binding rest ih =>
    intro s s' fields h
    obtain ⟨t, ht, h⟩ := except_bind_eq_ok.1 h
    obtain ⟨placed, -, h⟩ := except_bind_eq_ok.1 h
    obtain ⟨⟨more, s₁⟩, hrest, -⟩ := except_bind_eq_ok.1 h
    exact List.forall_mem_cons.2 ⟨⟨t, ht⟩, ih hrest⟩

/-- A struct that is laid out has fields of known types. -/
theorem known_of_layout {decl : StructDecl} {s : StructSignature}
    (h : decl.layout structs = .ok s) :
    s.name = decl.name ∧ ∀ field ∈ decl.fields, Ty.Known structs field.type := by
  obtain ⟨⟨fields, scope⟩, hfields, h⟩ := except_bind_eq_ok.1 h
  cases h
  exact ⟨rfl, known_of_placeFields hfields⟩

end StructDecl

/-- The descriptors in the head of a function. -/
def FunctionDecl.headParts (decl : FunctionDecl) : List (String ⊕ Expr) :=
  decl.params.map (.inl ·.type) ++ decl.result.toList.map .inl

/-- A function whose signature can be read has parameters and a result of known types. -/
theorem FunctionDecl.known_of_signature {structs : StructTable} {decl : FunctionDecl}
    {external : Bool} {s : FunctionSignature} (h : decl.signature structs external = .ok s) :
    Stmt.AllKnown structs decl.headParts := by
  have hparams : ∀ (bindings : List Binding) params, readParams structs bindings = .ok params →
      Stmt.AllKnown structs (bindings.map (.inl ·.type)) := by
    intro bindings
    induction bindings with
    | nil => exact fun _ _ => Stmt.allKnown_nil
    | cons binding rest ih =>
      intro params hread
      obtain ⟨t, ht, hread⟩ := except_bind_eq_ok.1 hread
      obtain ⟨params', hrest, -⟩ := except_bind_eq_ok.1 hread
      exact (Stmt.allKnown_type ⟨t, ht⟩).append (ih params' hrest)
  obtain ⟨params, hread, h⟩ := except_bind_eq_ok.1 h
  refine (hparams decl.params params hread).append ?_
  split at h
  · cases h
  · cases hresult : decl.result with
    | none => exact Stmt.allKnown_nil
    | some type =>
      rw [hresult] at h
      obtain ⟨t, ht, -⟩ := except_bind_eq_ok.1 h
      exact Stmt.allKnown_type ⟨t, ht⟩

namespace Declarations

theorem extends_addStructs (items : List Item) :
    ∀ structs : StructTable, structs.Extends (addStructs structs items).1 := by
  induction items with
  | nil => exact .refl
  | cons item items ih =>
    intro structs
    cases item with
    | struct decl =>
      rw [addStructs]
      split
      · exact ih structs
      · split
        · exact (structs.extends_insert _).trans (ih _)
        · exact ih structs
    | function | external => exact ih structs

/-- **The fields of all structs have known types,** if every struct has been laid out. -/
theorem known_fields (items : List Item) : ∀ {structs : StructTable},
    ((items.filterMap Item.struct?).map StructDecl.name).Nodup →
    (∀ name ∈ (items.filterMap Item.struct?).map StructDecl.name, structs.contains name = false) →
    (addStructs structs items).2 = [] → ∀ decl, .struct decl ∈ items →
    ∀ field ∈ decl.fields, Ty.Known (addStructs structs items).1 field.type := by
  induction items with
  | nil => exact fun _ _ _ _ hdecl => absurd hdecl List.not_mem_nil
  | cons item items ih =>
    intro structs hnodup hnew hread decl hdecl
    cases item with
    | struct first =>
      have hnames : ((Item.struct first :: items).filterMap Item.struct?).map StructDecl.name =
          first.name :: (items.filterMap Item.struct?).map StructDecl.name := rfl
      rw [hnames] at hnodup hnew
      obtain ⟨hfirst, hnodup⟩ := List.nodup_cons.1 hnodup
      obtain ⟨hfresh, hnew⟩ := List.forall_mem_cons.1 hnew
      rw [addStructs, if_neg (by simp [hfresh])] at hread ⊢
      cases hlayout : first.layout structs with
      | error e =>
        rw [hlayout] at hread
        cases hread
      | ok s =>
        obtain ⟨hname, hfields⟩ := StructDecl.known_of_layout hlayout
        simp only [hlayout] at hread ⊢
        rcases List.mem_cons.1 hdecl with heq | hdecl
        · -- Its own fields are known already, and later structs change nothing.
          cases heq
          have hextends := (structs.extends_insert s).trans (extends_addStructs items _)
          exact fun field hfield => (hfields field hfield).mono hextends
        · refine ih hnodup (fun name hmem => ?_) hread decl hdecl
          refine StructTable.contains_insert (hnew name hmem) ?_
          rintro rfl
          exact hfirst (hname ▸ hmem)
    | function | external =>
      refine ih hnodup hnew hread decl ?_
      simpa using hdecl

theorem exists_signature {structs : StructTable} {item : Item} {decl : FunctionDecl}
    {external : Bool} (hdecl : item.function? = some (decl, external)) {items : List Item} :
    ∀ {table : FunctionTable}, (addFunctions structs table items).2 = [] → item ∈ items →
      ∃ s, decl.signature structs external = .ok s := by
  induction items with
  | nil => exact fun _ hitem => absurd hitem List.not_mem_nil
  | cons first items ih =>
    intro table hread hitem
    rw [addFunctions] at hread
    cases hfirst : first.function? with
    | none =>
      simp only [hfirst] at hread
      rcases List.mem_cons.1 hitem with rfl | hitem
      · cases hdecl.symm.trans hfirst
      · exact ih hread hitem
    | some q =>
      simp only [hfirst] at hread
      cases hs : q.1.signature structs q.2 with
      | error e =>
        rw [hs] at hread
        cases hread
      | ok s =>
        rw [hs] at hread
        rcases List.mem_cons.1 hitem with rfl | hitem
        · obtain rfl := Option.some.inj (hfirst.symm.trans hdecl)
          exact ⟨s, hs⟩
        · exact ih hread hitem

end Declarations

/-! ### Programs -/

/-- The descriptors of an item, and the expressions in it. -/
def Item.parts : Item → List (String ⊕ Expr)
  | external decl => decl.headParts
  | function decl => decl.headParts ++ Stmt.blockParts decl.body
  | struct decl => decl.fields.map (.inl ·.type)

namespace Program

def parts (p : Program) : List (String ⊕ Expr) :=
  p.items.flatMap Item.parts

/-- All type descriptors of a program. -/
def descriptors (p : Program) : List String :=
  p.parts.flatMap (Sum.elim (fun descriptor => [descriptor]) Expr.targets)

/-- The type descriptors that have to name a type: those of declarations, and the targets of casts
that decide the type of an operand of `*`. -/
def lookedUp (p : Program) : List String :=
  p.parts.flatMap Stmt.lookedUp

/-- No function and no struct is declared twice. -/
structure DistinctNames (p : Program) : Prop where
  functions : ((p.items.filterMap Item.function?).map (·.1.name)).Nodup
  structs : ((p.items.filterMap Item.struct?).map StructDecl.name).Nodup

instance (p : Program) : Decidable p.DistinctNames :=
  decidable_of_iff (((p.items.filterMap Item.function?).map (·.1.name)).Nodup ∧
    ((p.items.filterMap Item.struct?).map StructDecl.name).Nodup)
    ⟨fun h => ⟨h.1, h.2⟩, fun h => ⟨h.functions, h.structs⟩⟩

theorem lookedUp_subset (p : Program) : p.lookedUp ⊆ p.descriptors := by
  intro descriptor h
  obtain ⟨part, hpart, h⟩ := List.mem_flatMap.1 h
  refine List.mem_flatMap.2 ⟨part, hpart, ?_⟩
  cases part with
  | inl => exact h
  | inr e => exact e.lookedUp_subset h

/-- A function is the first of its name, and the only one. -/
theorem DistinctNames.first? {p : Program} (h : p.DistinctNames) {decl : FunctionDecl}
    (hdecl : .function decl ∈ p.items) : Item.first? decl.name p.items = some (decl, false) := by
  have hmem : (decl, false) ∈ p.items.filterMap Item.function? :=
    List.mem_filterMap.2 ⟨_, hdecl, rfl⟩
  have hsome : (Item.first? decl.name p.items).isSome :=
    List.find?_isSome.2 ⟨_, hmem, beq_self_eq_true _⟩
  obtain ⟨q, hq⟩ := Option.isSome_iff_exists.1 hsome
  have hname : q.1.name = decl.name := by simpa using List.find?_some hq
  rw [hq, List.inj_on_of_nodup_map h.functions (List.mem_of_find?_eq_some hq) hmem hname]

end Program

namespace Generator

variable {g : Generator} {p : Program} {listing : Listing}

/-- **All that is looked up in a program that compiles is known.** -/
theorem allKnown_parts (h : (g.generate p).1 = .ok listing) (hp : p.DistinctNames) :
    Stmt.AllKnown (Declarations.add {} p).1.structs p.parts := by
  obtain ⟨hread, -, hfunctions⟩ := generate_eq_ok h
  obtain ⟨hstructs, hsignatures⟩ := List.append_eq_nil_iff.1 hread
  have hheads : ∀ item ∈ p.items, ∀ decl external, item.function? = some (decl, external) →
      Stmt.AllKnown (Declarations.add {} p).1.structs decl.headParts := by
    intro item hitem decl external hdecl
    obtain ⟨s, hs⟩ := Declarations.exists_signature hdecl hsignatures hitem
    exact FunctionDecl.known_of_signature hs
  intro part hpart
  obtain ⟨item, hitem, hpart⟩ := List.mem_flatMap.1 hpart
  cases item with
  | external decl => exact hheads _ hitem decl true rfl part hpart
  | struct decl =>
    obtain ⟨field, hfield, rfl⟩ := List.mem_map.1 hpart
    have hknown := Declarations.known_fields p.items hp.structs
      (fun _ _ => rfl) hstructs decl hitem field hfield
    exact List.forall_mem_singleton.2 hknown
  | function decl =>
    rcases List.mem_append.1 hpart with hpart | hpart
    · exact hheads _ hitem decl false rfl part hpart
    · have hdecl : (Item.function decl).function? = some (decl, false) := rfl
      have hcontains : (Declarations.add {} p).1.functions.contains decl.name :=
        Declarations.contains_addFunctions hdecl hsignatures (.inl hitem)
      have hdefined := Item.mem_definitions_of_first? (hp.first? hitem) List.not_mem_nil hcontains
      obtain ⟨code, -, g₁, g₂, hd, hreturns⟩ := (exists_mem_of_forall₂ hfunctions).1 decl hdefined
      obtain ⟨-, -, -, hbody⟩ :=
        (decl.yields_frame (Stmt.known_lowerAll decl.body) g₁ code g₂ hd hreturns).2
      exact hbody part hpart

end Generator

end GLang
