import GLang.Proofs.FunctionCode
import GLang.Proofs.Invariant

/-!
# What a listing is made of

A program compiles if its declarations can be read and all its definitions compile. Of two
definitions with one name only the first counts: `Item.definitions`. The functions of the listing
are what the definitions give, one after another: `Generator.generate_eq_ok`.

The table of functions goes by the first declaration of a name as well, defined here or elsewhere:
`Declarations.find?_addFunctions`.
-/

namespace GLang

open Asm Gen

/-- `code` is what compiling a function gives, in a program with the declarations `d`. -/
def FunctionDecl.Gives (decl : FunctionDecl) (d : Declarations) (code : Code) : Prop :=
  ∃ g g' : Generator, g.context.toDeclarations = d ∧ Returns decl.lower g code g'

theorem exists_mem_of_forall₂ {α β : Type} {R : α → β → Prop} {xs : List α} {ys : List β}
    (h : List.Forall₂ R xs ys) : (∀ x ∈ xs, ∃ y ∈ ys, R x y) ∧ ∀ y ∈ ys, ∃ x ∈ xs, R x y := by
  induction h with
  | nil => simp
  | cons hxy _ ih =>
    simp only [List.forall_mem_cons, List.exists_mem_cons_iff]
    exact ⟨⟨.inl hxy, fun x hx => .inr (ih.1 x hx)⟩, .inl hxy, fun y hy => .inr (ih.2 y hy)⟩

/-! ### Definitions -/

namespace Item

/-- The functions of items that are compiled; `seen` are the names before them. -/
def definitions (table : FunctionTable) : List String → List Item → List FunctionDecl
  | _, [] => []
  | seen, .function decl :: rest =>
    if seen.contains decl.name then definitions table seen rest
    else if !table.contains decl.name then definitions table (decl.name :: seen) rest
    else decl :: definitions table (decl.name :: seen) rest
  | seen, _ :: rest => definitions table seen rest

/-- The first declaration of a name, and whether it is defined elsewhere. -/
def first? (f : String) (items : List Item) : Option (FunctionDecl × Bool) :=
  (items.filterMap Item.function?).find? (·.1.name == f)

variable {table : FunctionTable} {decl : FunctionDecl}

theorem mem_of_mem_definitions {seen : List String} {items : List Item}
    (h : decl ∈ definitions table seen items) : .function decl ∈ items ∧ decl.name ∉ seen := by
  induction items generalizing seen with
  | nil => cases h
  | cons item items ih =>
    cases item with
    | function decl' =>
      rw [definitions] at h
      by_cases hseen : seen.contains decl'.name
      · rw [if_pos hseen] at h
        obtain ⟨hmem, hname⟩ := ih h
        exact ⟨List.mem_cons_of_mem _ hmem, hname⟩
      · rw [if_neg hseen] at h
        have hlater : decl ∈ definitions table (decl'.name :: seen) items →
            .function decl ∈ .function decl' :: items ∧ decl.name ∉ seen := by
          intro h
          obtain ⟨hmem, hname⟩ := ih h
          exact ⟨List.mem_cons_of_mem _ hmem, fun hin => hname (List.mem_cons_of_mem _ hin)⟩
        split at h
        · exact hlater h
        · rcases List.mem_cons.1 h with rfl | h
          · exact ⟨List.mem_cons_self, by simpa using hseen⟩
          · exact hlater h
    | external | struct =>
      obtain ⟨hmem, hname⟩ := ih h
      exact ⟨List.mem_cons_of_mem _ hmem, hname⟩

theorem nodup_definitions (items : List Item) : ∀ seen : List String,
    ((definitions table seen items).map FunctionDecl.name).Nodup := by
  induction items with
  | nil => exact fun _ => List.nodup_nil
  | cons item items ih =>
    intro seen
    cases item with
    | function decl =>
      rw [definitions]
      split
      · exact ih seen
      · split
        · exact ih _
        · refine List.nodup_cons.2 ⟨fun hmem => ?_, ih _⟩
          obtain ⟨decl', hdecl', hname⟩ := List.mem_map.1 hmem
          exact (mem_of_mem_definitions hdecl').2 (hname ▸ List.mem_cons_self)
    | external | struct => exact ih seen

theorem mem_definitions_of_first? {seen : List String} {items : List Item}
    (h : first? decl.name items = some (decl, false)) (hseen : decl.name ∉ seen)
    (hknown : table.contains decl.name) : decl ∈ definitions table seen items := by
  induction items generalizing seen with
  | nil => cases h
  | cons item items ih =>
    cases item with
    | function decl' =>
      rw [definitions]
      by_cases hname : decl'.name = decl.name
      · obtain rfl : decl' = decl := by simpa [first?, Item.function?, hname] using h
        rw [if_neg (by simpa using hseen), if_neg (by simp [hknown])]
        exact List.mem_cons_self
      · have hrest : first? decl.name items = some (decl, false) := by
          simpa [first?, Item.function?, hname] using h
        split
        · exact ih hrest hseen
        · have hlater := ih hrest (List.not_mem_cons_of_ne_of_not_mem (Ne.symm hname) hseen)
          split
          · exact hlater
          · exact List.mem_cons_of_mem _ hlater
    | external decl' =>
      by_cases hname : decl'.name = decl.name
      · simp [first?, Item.function?, hname] at h
      · exact ih (by simpa [first?, Item.function?, hname] using h) hseen
    | struct => exact ih h hseen

end Item

/-! ### Signatures -/

theorem FunctionTable.find?_insert (t : FunctionTable) (s : FunctionSignature) (f : String) :
    (t.insert s).find? f = (t.find? f).or (if s.name = f then some s else none) := by
  unfold insert
  split
  · rename_i hcontains
    by_cases hname : s.name = f
    · subst hname
      obtain ⟨s', hs'⟩ := Option.isSome_iff_exists.1 hcontains
      simp [hs']
    · simp [hname]
  · simp only [find?, List.find?_append]
    by_cases hname : s.name = f <;> simp [hname]

theorem FunctionDecl.name_of_signature {structs : StructTable} {external : Bool}
    {decl : FunctionDecl} {s : FunctionSignature} (h : decl.signature structs external = .ok s) :
    s.name = decl.name ∧ s.external = external := by
  obtain ⟨params, -, h⟩ := except_bind_eq_ok.1 h
  split at h
  · cases h
  · split at h
    · cases h
      exact ⟨rfl, rfl⟩
    · obtain ⟨t, -, h⟩ := except_bind_eq_ok.1 h
      cases h
      exact ⟨rfl, rfl⟩

/-- **The signature of a name is that of its first declaration,** if all declarations can be
read. -/
theorem Declarations.find?_addFunctions {structs : StructTable} {items : List Item} {f : String}
    {s : FunctionSignature} : ∀ {table : FunctionTable}, (addFunctions structs table items).2 = [] →
    (addFunctions structs table items).1.find? f = some s →
    table.find? f = some s ∨ table.find? f = none ∧ ∃ decl external,
      Item.first? f items = some (decl, external) ∧ decl.name = f ∧
      decl.signature structs external = .ok s := by
  induction items with
  | nil => exact fun _ h => .inl h
  | cons item items ih =>
    intro table hread hfind
    rw [addFunctions] at hread hfind
    cases hitem : item.function? with
    | none =>
      rw [hitem] at hread hfind
      have hfirst : Item.first? f (item :: items) = Item.first? f items := by
        simp [Item.first?, hitem]
      rw [hfirst]
      exact ih hread hfind
    | some q =>
      obtain ⟨decl, external⟩ := q
      simp only [hitem] at hread hfind
      cases hs : decl.signature structs external with
      | error e =>
        rw [hs] at hread
        cases hread
      | ok s' =>
        rw [hs] at hread hfind
        have hname := (FunctionDecl.name_of_signature hs).1
        have hinsert := table.find?_insert s' f
        cases htable : table.find? f with
        | some s'' =>
          rw [htable, Option.some_or] at hinsert
          rcases ih hread hfind with h | ⟨h, -⟩
          · exact .inl (hinsert.symm.trans h)
          · cases hinsert.symm.trans h
        | none =>
          rw [htable, Option.none_or, hname] at hinsert
          refine .inr ⟨rfl, ?_⟩
          by_cases hf : decl.name = f
          · -- The declaration is the first of its name, and the table keeps what it has.
            rw [if_pos hf] at hinsert
            rcases ih hread hfind with h | ⟨h, -⟩
            · obtain rfl := Option.some.inj (hinsert.symm.trans h)
              exact ⟨decl, external, by simp [Item.first?, hitem, hf], hf, hs⟩
            · cases hinsert.symm.trans h
          · rw [if_neg hf] at hinsert
            rcases ih hread hfind with h | ⟨-, decl', external', hfirst, h⟩
            · cases hinsert.symm.trans h
            · refine ⟨decl', external', ?_, h⟩
              rw [← hfirst]
              simp [Item.first?, hitem, hf]

/-! ### Functions -/

namespace Generator

theorem toDeclarations_functions (items : List Item) : ∀ (g : Generator) (seen : List String),
    (g.functions seen items).2.2.context.toDeclarations = g.context.toDeclarations := by
  induction items with
  | nil => exact fun _ _ => rfl
  | cons item items ih =>
    intro g seen
    cases item with
    | function decl =>
      rw [functions]
      split
      · exact ih g seen
      · split
        · exact ih g _
        · have hlower := decl.toDeclarations_lower g
          rcases hrun : decl.lower.run.run g with ⟨e | code, g₁⟩
          all_goals
            rw [hrun] at hlower
            exact (ih g₁ _).trans hlower
    | external | struct => exact ih g seen

theorem output_functions (items : List Item) : ∀ (g : Generator) (seen : List String),
    (g.functions seen items).2.2.output = g.output := by
  induction items with
  | nil => exact fun _ _ => rfl
  | cons item items ih =>
    intro g seen
    cases item with
    | function decl =>
      rw [functions]
      split
      · exact ih g seen
      · split
        · exact ih g _
        · have hlower := decl.output_lower g
          rcases hrun : decl.lower.run.run g with ⟨e | code, g₁⟩
          all_goals
            rw [hrun] at hlower
            exact (ih g₁ _).trans hlower
    | external | struct => exact ih g seen

theorem assemble_eq (g : Generator) (p : Program) :
    (g.assemble p).1 = (g.generate p).1.map Listing.text := by
  have houtput : ((g.start p).1.functions [] p.items).2.2.output = "" :=
    output_functions p.items (g.start p).1 []
  unfold assemble generate
  simp only
  split
  · simp only [houtput, Except.map, String.empty_append]
  · rfl

theorem forall₂_functions (items : List Item) : ∀ (g : Generator) (seen : List String),
    (g.functions seen items).2.1 = [] →
    List.Forall₂ (FunctionDecl.Gives · g.context.toDeclarations)
      (Item.definitions g.context.functions seen items) (g.functions seen items).1 := by
  induction items with
  | nil => exact fun _ _ _ => .nil
  | cons item items ih =>
    intro g seen h
    cases item with
    | function decl =>
      rw [functions] at h ⊢
      rw [Item.definitions]
      by_cases hseen : seen.contains decl.name
      · rw [if_pos hseen] at h ⊢
        rw [if_pos hseen]
        exact ih g _ h
      · rw [if_neg hseen] at h ⊢
        rw [if_neg hseen]
        by_cases hknown : !g.context.functions.contains decl.name
        · rw [if_pos hknown] at h ⊢
          rw [if_pos hknown]
          exact ih g _ h
        · rw [if_neg hknown] at h ⊢
          rw [if_neg hknown]
          have hlower := decl.toDeclarations_lower g
          rcases hrun : decl.lower.run.run g with ⟨e | code, g₁⟩
          · rw [hrun] at h
            cases h
          · rw [hrun] at h hlower
            have hrest := ih g₁ _ h
            rw [hlower] at hrest
            exact .cons ⟨g, g₁, rfl, hrun⟩ hrest
    | external | struct => exact ih g seen h

/-- **What a program that compiles is compiled to.** -/
theorem generate_eq_ok {g : Generator} {p : Program} {listing : Listing}
    (h : (g.generate p).1 = .ok listing) :
    (Declarations.add {} p).2 = [] ∧
    listing.imports =
      ((Declarations.add {} p).1.functions.externals.map (·.name)).filter (· ≠ "memcpy") ∧
    List.Forall₂ (FunctionDecl.Gives · (Declarations.add {} p).1)
      (Item.definitions (Declarations.add {} p).1.functions [] p.items) listing.functions := by
  have hdeclarations := toDeclarations_functions p.items (g.start p).1 []
  have hfunctions := forall₂_functions p.items (g.start p).1 []
  unfold generate at h
  simp only at h
  split at h
  · rename_i hempty
    obtain ⟨hread, hnone⟩ := List.append_eq_nil_iff.1 (List.isEmpty_iff.1 hempty)
    cases h
    refine ⟨hread, ?_, hfunctions hnone⟩
    show ((Context.toDeclarations _).functions.externals.map _).filter _ = _
    rw [hdeclarations]
    rfl
  · cases h

end Generator

theorem exists_ok_of_isOk {ε α : Type} {x : Except ε α} (h : x.isOk) : ∃ a, x = .ok a := by
  cases x with
  | error => cases h
  | ok a => exact ⟨a, rfl⟩

/-- Whether a source text compiles to a listing of which `check` holds. -/
def someListing (source : String) (check : Listing → Bool) : Bool :=
  someProgram source fun p =>
    match (Generator.generate {} p).1 with
    | .ok listing => check listing
    | .error _ => false

theorem exists_of_someListing (source : String) (check : Listing → Bool)
    (h : someListing source check) : ∃ p listing, Program.ofSource source = .ok p ∧
      (Generator.generate {} p).1 = .ok listing ∧ check listing := by
  obtain ⟨p, hp, h⟩ := exists_of_someProgram source _ h
  split at h
  · rename_i listing hlisting
    exact ⟨p, listing, hp, hlisting, h⟩
  · cases h

end GLang
